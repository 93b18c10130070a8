import Mathlib.Data.List.Chain
import Mathlib.Data.List.Infix
import Mathlib.Data.List.TakeWhile

/- Texts cut at separators. `words` are the longest pieces without one, and `splitOnce` cuts at the
   first. White space between texts makes `words` of their concatenation the concatenation of
   `words` (`words_gap`), so a text that is put together from words and gaps has these words. -/
namespace Words
variable {α : Type} {p : α → Bool} {c : α} {s t a b w : List α}

def words (p : α → Bool) (s : List α) : List (List α) := (s.splitOnP p).filter fun w => !w.isEmpty

/-- Up to the first separator, and after it. -/
def splitOnce (p : α → Bool) (s : List α) : Option (List α × List α) :=
  match s.dropWhile (!p ·) with
  | [] => none
  | _ :: rest => some (s.takeWhile (!p ·), rest)

@[simp] theorem words_nil : words p [] = [] := rfl

theorem words_cons_sep (hc : p c = true) (s : List α) : words p (c :: s) = words p s := by
  unfold words
  rw [List.splitOnP_cons_eq_if_modifyHead, if_pos hc, List.filter_cons]
  rfl

theorem words_append_cons (hc : p c = true) (a b : List α) : words p (a ++ c :: b) = words p a ++ words p b := by
  unfold words
  rw [List.splitOnP_append_cons a b hc, List.filter_append]

/-- A text without a separator is its only word. -/
theorem words_of_none (hnil : w ≠ []) (hw : ∀ x ∈ w, p x = false) : words p w = [w] := by
  unfold words
  rw [List.splitOnP_eq_singleton hw]
  exact List.filter_cons_of_pos (by simpa using hnil)

theorem words_gap (hnil : b ≠ []) (hb : ∀ x ∈ b, p x = true) (s t : List α) :
    words p (s ++ (b ++ t)) = words p s ++ words p t := by
  obtain ⟨c, b, rfl⟩ := List.exists_cons_of_ne_nil hnil
  rw [List.cons_append, words_append_cons (hb c List.mem_cons_self)]
  congr 1
  clear hnil
  induction b with
  | nil => rfl
  | cons d b ih =>
    rw [List.cons_append, words_cons_sep (hb d (by simp))]
    exact ih fun x hx => hb x (by simp only [List.mem_cons] at hx ⊢; tauto)

theorem words_append_seps (hb : ∀ x ∈ b, p x = true) (s : List α) : words p (s ++ b) = words p s := by
  cases b with
  | nil => rw [List.append_nil]
  | cons d b =>
    have := words_gap (List.cons_ne_nil d b) hb s []
    rwa [List.append_nil, words_nil, List.append_nil] at this

theorem words_seps_append (hb : ∀ x ∈ b, p x = true) (s : List α) : words p (b ++ s) = words p s := by
  cases b with
  | nil => rfl
  | cons d b => exact words_gap (List.cons_ne_nil d b) hb [] s

/-- A word in front of a separator. -/
theorem words_word_cons (hnil : w ≠ []) (hw : ∀ x ∈ w, p x = false) (hc : p c = true) (s : List α) :
    words p (w ++ c :: s) = w :: words p s := by
  rw [words_append_cons hc, words_of_none hnil hw, List.singleton_append]

/-- Words that a separator stands in front of. -/
theorem words_flatMap (hc : p c = true) {ws : List (List α)} (hws : ∀ w ∈ ws, w ≠ [] ∧ ∀ x ∈ w, p x = false) :
    words p (ws.flatMap (c :: ·)) = ws := by
  induction ws with
  | nil => rfl
  | cons w ws ih =>
    obtain ⟨hnil, hw⟩ := hws w List.mem_cons_self
    have hrest := ih fun v hv => hws v (List.mem_cons_of_mem _ hv)
    rw [List.flatMap_cons, List.cons_append, words_cons_sep hc]
    cases ws with
    | nil => rw [List.flatMap_nil, List.append_nil, words_of_none hnil hw]
    | cons v vs =>
      rw [List.flatMap_cons, List.cons_append, words_cons_sep hc] at hrest
      rw [List.flatMap_cons, List.cons_append, words_word_cons hnil hw hc, hrest]

theorem splitOnP_pieces (s : List α) : ∀ w ∈ s.splitOnP p, ∀ x ∈ w, x ∈ s ∧ p x = false := by
  induction s with
  | nil => simp
  | cons c s ih =>
    have hrest : ∀ w ∈ s.splitOnP p, ∀ x ∈ w, x ∈ c :: s ∧ p x = false := fun w hw x hx =>
      ⟨List.mem_cons_of_mem _ (ih w hw x hx).1, (ih w hw x hx).2⟩
    rw [List.splitOnP_cons_eq_if_modifyHead]
    split
    · intro w hw
      rcases List.mem_cons.mp hw with rfl | hw
      · exact fun x hx => absurd hx List.not_mem_nil
      · exact hrest w hw
    · next hc =>
      obtain ⟨v, vs, hv⟩ := List.exists_cons_of_ne_nil (List.splitOnP_ne_nil p s)
      rw [hv] at hrest ⊢
      intro w hw x hx
      rcases List.mem_cons.mp hw with rfl | hw
      · rcases List.mem_cons.mp hx with rfl | hx
        · exact ⟨List.mem_cons_self, by simpa using hc⟩
        · exact hrest v List.mem_cons_self x hx
      · exact hrest w (List.mem_cons_of_mem _ hw) x hx

theorem mem_words (hw : w ∈ words p s) : w ≠ [] ∧ ∀ x ∈ w, x ∈ s ∧ p x = false := by
  obtain ⟨hmem, hnil⟩ := List.mem_filter.mp hw
  exact ⟨by simpa using hnil, splitOnP_pieces s w hmem⟩

/-- Words have the characters that are no separators. -/
theorem flatten_words (s : List α) : (words p s).flatten = s.filter (!p ·) := by
  have hfilter : ∀ ls : List (List α), (ls.filter fun w => !w.isEmpty).flatten = ls.flatten := by
    intro ls
    induction ls with
    | nil => rfl
    | cons l ls ih =>
      cases l with
      | nil => simpa using ih
      | cons x l => simp [ih]
  rw [words, hfilter]
  induction s with
  | nil => rfl
  | cons c s ih =>
    rw [List.splitOnP_cons_eq_if_modifyHead]
    split
    · next hc => rw [List.flatten_cons, List.nil_append, ih, List.filter_cons_of_neg (by simp [hc])]
    · next hc =>
      obtain ⟨v, vs, hv⟩ := List.exists_cons_of_ne_nil (List.splitOnP_ne_nil p s)
      rw [hv] at ih ⊢
      rw [List.modifyHead_cons, List.flatten_cons, List.cons_append, ← List.flatten_cons, ih,
        List.filter_cons_of_pos (by simp [hc])]

/-! One cut. -/

theorem splitOnce_eq_some (h : splitOnce p s = some (a, b)) :
    ∃ c, s = a ++ c :: b ∧ p c = true ∧ ∀ x ∈ a, p x = false := by
  unfold splitOnce at h
  split at h
  · cases h
  · next c rest hdrop =>
    obtain ⟨rfl, rfl⟩ := Prod.mk.inj (Option.some.inj h)
    refine ⟨c, ?_, ?_, ?_⟩
    · rw [← hdrop, List.takeWhile_append_dropWhile]
    · have := List.head?_dropWhile_not (!p ·) s
      rw [hdrop] at this
      simpa using this
    · intro x hx
      simpa using List.mem_takeWhile_imp hx

theorem splitOnce_append (hc : p c = true) (ha : ∀ x ∈ a, p x = false) (b : List α) :
    splitOnce p (a ++ c :: b) = some (a, b) := by
  have ha' : ∀ x ∈ a, (!p x) = true := fun x hx => by rw [ha x hx]; rfl
  unfold splitOnce
  rw [List.dropWhile_append_of_pos ha', List.takeWhile_append_of_pos ha', List.dropWhile_cons_of_neg (by simp [hc]),
    List.takeWhile_cons_of_neg (by simp [hc]), List.append_nil]

theorem splitOnce_eq_none_iff : splitOnce p s = none ↔ ∀ x ∈ s, p x = false := by
  constructor
  · intro h
    unfold splitOnce at h
    split at h
    · next hdrop => simpa using List.dropWhile_eq_nil_iff.mp hdrop
    · cases h
  · intro h
    have hdrop : s.dropWhile (!p ·) = [] := List.dropWhile_eq_nil_iff.mpr fun x hx => by rw [h x hx]; rfl
    rw [splitOnce, hdrop]

/-! Words joined again. -/

/-- Separators are all the same, and no two of them stand together. -/
structure Single (p : α → Bool) (c : α) (s : List α) : Prop where
  only : ∀ x ∈ s, p x = true → x = c
  apart : s.IsChain fun x y => ¬ (p x = true ∧ p y = true)

instance [DecidableEq α] : Decidable (Single p c s) :=
  decidable_of_iff ((∀ x ∈ s, p x = true → x = c) ∧ s.IsChain fun x y => ¬ (p x = true ∧ p y = true))
    ⟨fun h => ⟨h.1, h.2⟩, fun h => ⟨h.only, h.apart⟩⟩

theorem isChain_of_none (hw : ∀ x ∈ w, p x = false) : w.IsChain fun x y => ¬ (p x = true ∧ p y = true) := by
  induction w with
  | nil => exact .nil
  | cons x w ih =>
    cases w with
    | nil => exact .singleton x
    | cons y w =>
      refine .cons_cons ?_ (ih fun z hz => hw z (List.mem_cons_of_mem _ hz))
      simp [hw x List.mem_cons_self]

theorem intercalate_cons_of_ne_nil {ws : List (List α)} (h : ws ≠ []) :
    [c].intercalate (w :: ws) = w ++ c :: [c].intercalate ws := by
  obtain ⟨v, vs, rfl⟩ := List.exists_cons_of_ne_nil h
  rw [List.intercalate_cons_cons]
  simp

theorem single_intercalate {ws : List (List α)} (hws : ∀ w ∈ ws, w ≠ [] ∧ ∀ x ∈ w, p x = false) :
    Single p c ([c].intercalate ws) ∧ ∀ x, ([c].intercalate ws).head? = some x → p x = false := by
  induction ws with
  | nil => exact ⟨⟨by simp [List.intercalate], by simp [List.intercalate]⟩, by simp [List.intercalate]⟩
  | cons w ws ih =>
    obtain ⟨hnil, hw⟩ := hws w List.mem_cons_self
    obtain ⟨⟨honly, hapart⟩, hhead⟩ := ih fun v hv => hws v (List.mem_cons_of_mem _ hv)
    have hfirst : ∀ u x, (w ++ u).head? = some x → p x = false := by
      intro u x hx
      rw [List.head?_append_of_ne_nil _ hnil] at hx
      exact hw x (List.mem_of_mem_head? hx)
    by_cases hrest : ws = []
    · subst hrest
      have hone : [c].intercalate [w] = w := by simp [List.intercalate]
      rw [hone]
      refine ⟨⟨fun x hx hp => absurd hp (by simp [hw x hx]), isChain_of_none hw⟩, ?_⟩
      have := hfirst []
      rwa [List.append_nil] at this
    · rw [intercalate_cons_of_ne_nil hrest]
      refine ⟨⟨fun x hx hp => ?_, ?_⟩, hfirst _⟩
      · rcases List.mem_append.mp hx with hx | hx
        · exact absurd hp (by simp [hw x hx])
        · exact (List.mem_cons.mp hx).elim id fun hx => honly x hx hp
      · rw [List.isChain_append]
        refine ⟨isChain_of_none hw, List.isChain_cons.mpr ⟨fun y hy => ?_, hapart⟩, fun x hx y _ => ?_⟩
        · simp [hhead y hy]
        · simp [hw x (List.mem_of_mem_getLast? hx)]

theorem words_ne_nil (hnil : t ≠ []) (hfirst : ∀ x, t.head? = some x → p x = false) : words p t ≠ [] := by
  intro hwords
  obtain ⟨x, u, rfl⟩ := List.exists_cons_of_ne_nil hnil
  have hflat := flatten_words (p := p) (x :: u)
  rw [hwords, List.filter_cons_of_pos (by simp [hfirst x rfl])] at hflat
  cases hflat

/-- What stands behind a separator is again such a text. -/
theorem Single.behind (h : Single p c (w ++ c :: t)) (hc : p c = true)
    (hlast : ∀ x, (w ++ c :: t).getLast? = some x → p x = false) :
    t ≠ [] ∧ Single p c t ∧ (∀ x, t.head? = some x → p x = false) ∧ ∀ x, t.getLast? = some x → p x = false := by
  have hnil : t ≠ [] := by
    rintro rfl
    exact absurd hc (by simp [hlast c (by simp)])
  obtain ⟨-, hrest, -⟩ := List.isChain_append.mp h.apart
  obtain ⟨hnext, hapart⟩ := List.isChain_cons.mp hrest
  refine ⟨hnil, ⟨fun x hx => h.only x (List.mem_append_right _ (List.mem_cons_of_mem _ hx)), hapart⟩, fun x hx => ?_,
    fun x hx => ?_⟩
  · have hapartFirst := hnext x hx
    simpa [hc] using hapartFirst
  · apply hlast x
    rw [List.getLast?_append_of_ne_nil _ (List.cons_ne_nil _ _), List.getLast?_cons_of_ne_nil hnil, hx]

/-- A text with a separator at neither end is its words joined exactly if its separators are single. -/
theorem intercalate_words_iff (hc : p c = true) (hfirst : ∀ x, s.head? = some x → p x = false)
    (hlast : ∀ x, s.getLast? = some x → p x = false) : [c].intercalate (words p s) = s ↔ Single p c s := by
  constructor
  · intro h
    rw [← h]
    exact (single_intercalate fun w hw => ⟨(mem_words hw).1, fun x hx => ((mem_words hw).2 x hx).2⟩).1
  · intro h
    -- the first word, and by induction what is behind the separator after it
    induction hlen : s.length using Nat.strong_induction_on generalizing s with
    | _ n ih =>
      cases hcut : splitOnce p s with
      | none =>
        have hnone := splitOnce_eq_none_iff.mp hcut
        by_cases hnil : s = []
        · subst hnil
          rfl
        · rw [words_of_none hnil hnone]
          simp [List.intercalate]
      | some r =>
        obtain ⟨w, t⟩ := r
        obtain ⟨d, rfl, hd, hw⟩ := splitOnce_eq_some hcut
        obtain rfl : d = c := h.only d (by simp) hd
        have hwnil : w ≠ [] := by
          rintro rfl
          exact absurd hd (by simp [hfirst d rfl])
        obtain ⟨htnil, hsingle, htfirst, htlast⟩ := h.behind hd hlast
        have hless : t.length < n := by
          rw [← hlen]
          simp only [List.length_append, List.length_cons]
          omega
        have hjoin := ih t.length hless htfirst htlast hsingle rfl
        rw [words_word_cons hwnil hw hd, intercalate_cons_of_ne_nil (words_ne_nil htnil htfirst), hjoin]

/-! Pieces that a separator ends. -/

section
variable [DecidableEq α]

/-- The pieces with a separator behind them. -/
def ended (c : α) (s : List α) : List (List α) := (s.splitOn c).dropLast

/-- What stands behind the last separator. -/
def unended (c : α) (s : List α) : List α := (s.splitOn c).getLast?.getD []

theorem splitOn_eq_ended (c : α) (s : List α) : s.splitOn c = ended c s ++ [unended c s] := by
  obtain ⟨l, x, h⟩ := (List.eq_nil_or_concat (s.splitOn c)).resolve_left (List.splitOn_ne_nil c s)
  rw [ended, unended, h]
  simp

theorem ended_eq_of_splitOn {l : List (List α)} (h : s.splitOn c = l ++ [a]) : ended c s = l ∧ unended c s = a := by
  rw [ended, unended, h]
  simp

theorem unended_of_not_mem (h : c ∉ s) : ended c s = [] ∧ unended c s = s :=
  ended_eq_of_splitOn (l := []) (List.splitOn_eq_singleton h)

theorem not_mem_unended (c : α) (s : List α) : c ∉ unended c s := by
  intro hmem
  have hpiece : unended c s ∈ s.splitOn c := by
    rw [splitOn_eq_ended]
    simp
  have := (splitOnP_pieces s _ hpiece c hmem).2
  simp at this

/-- A text in front joins the first piece. -/
theorem splitOn_append_of_not_mem (h : c ∉ a) (s : List α) :
    (a ++ s).splitOn c = (s.splitOn c).modifyHead (a ++ ·) := by
  induction a with
  | nil =>
    obtain ⟨v, vs, hv⟩ := List.exists_cons_of_ne_nil (List.splitOn_ne_nil c s)
    rw [List.nil_append, hv]
    rfl
  | cons x a ih =>
    simp only [List.mem_cons, not_or] at h
    rw [List.cons_append, List.splitOn_cons_eq_if_modifyHead, if_neg (by simpa using Ne.symm h.1), ih h.2,
      List.modifyHead_modifyHead]
    rfl

theorem ended_append_cons (ha : c ∉ a) (b : List α) :
    ended c (a ++ c :: b) = a :: ended c b ∧ unended c (a ++ c :: b) = unended c b := by
  apply ended_eq_of_splitOn
  rw [List.splitOn_append_cons_self_of_not_mem ha, splitOn_eq_ended, List.cons_append]

/-- Separator by separator. -/
theorem separator_induction {motive : List α → Prop} (none : ∀ s, c ∉ s → motive s)
    (cons : ∀ a b, c ∉ a → motive b → motive (a ++ c :: b)) (s : List α) : motive s := by
  induction hlen : s.length using Nat.strong_induction_on generalizing s with
  | _ n ih =>
    by_cases h : c ∈ s
    · obtain ⟨a, b, rfl, ha⟩ := List.eq_append_cons_of_mem h
      refine cons a b ha (ih b.length ?_ b rfl)
      rw [← hlen]
      simp only [List.length_append, List.length_cons]
      omega
    · exact none s h

/-- What is ended stays, what is not goes on. -/
theorem splitOn_append (c : α) (s t : List α) :
    (s ++ t).splitOn c = ended c s ++ (unended c s ++ t).splitOn c := by
  induction s using separator_induction (c := c) with
  | none s h =>
    obtain ⟨hnil, hself⟩ := unended_of_not_mem h
    rw [hnil, hself, List.nil_append]
  | cons a b ha ih =>
    obtain ⟨hended, hunended⟩ := ended_append_cons ha b
    rw [List.append_assoc, List.cons_append, List.splitOn_append_cons_self_of_not_mem ha, hended, hunended,
      List.cons_append, ih]

theorem ended_append (c : α) (s t : List α) : ended c (s ++ t) = ended c s ++ ended c (unended c s ++ t) ∧
    unended c (s ++ t) = unended c (unended c s ++ t) := by
  apply ended_eq_of_splitOn
  rw [splitOn_append, splitOn_eq_ended c (unended c s ++ t), List.append_assoc]

theorem unended_suffix (c : α) (s : List α) : unended c s <:+ s := by
  induction s using separator_induction (c := c) with
  | none s h => rw [(unended_of_not_mem h).2]
  | cons a b ha ih =>
    rw [(ended_append_cons ha b).2]
    exact ih.trans ⟨a ++ [c], by simp⟩

/-! Words and the separators between pieces. -/

/-- The words, and a word for each `c`. -/
def tokens (p : α → Bool) (c : α) (s : List α) : List (List α) := [[c]].intercalate ((s.splitOn c).map (words p))

theorem tokens_of_not_mem (h : c ∉ s) : tokens p c s = words p s := by
  rw [tokens, List.splitOn_eq_singleton h]
  simp [List.intercalate]

theorem tokens_cons (ha : c ∉ a) (b : List α) : tokens p c (a ++ c :: b) = words p a ++ [c] :: tokens p c b := by
  have hne : (b.splitOn c).map (words p) ≠ [] := by simp
  rw [tokens, List.splitOn_append_cons_self_of_not_mem ha, List.map_cons, intercalate_cons_of_ne_nil hne, ← tokens]

/-- Tokens of texts with a separator of words between them. -/
theorem tokens_append_cons {d : α} (hd : p d = true) (hc : p c = false) (a b : List α) :
    tokens p c (a ++ d :: b) = tokens p c a ++ tokens p c b := by
  have hdc : c ≠ d := by
    rintro rfl
    exact absurd (hd.symm.trans hc) (by decide)
  induction a using separator_induction (c := c) with
  | none a ha =>
    rw [tokens_of_not_mem ha]
    induction b using separator_induction (c := c) with
    | none b hb => rw [tokens_of_not_mem (by simp [ha, hb, hdc]), tokens_of_not_mem hb, words_append_cons hd]
    | cons b b' hb =>
      have hab : c ∉ a ++ d :: b := by simp [ha, hb, hdc]
      rw [← List.cons_append, ← List.append_assoc, tokens_cons hab, tokens_cons hb, words_append_cons hd,
        List.append_assoc]
  | cons a a' ha ih => rw [List.append_assoc, List.cons_append, tokens_cons ha, tokens_cons ha, ih, List.append_assoc,
      List.cons_append]

theorem tokens_seps_append (hb : ∀ x ∈ b, p x = true) (hc : p c = false) (s : List α) :
    tokens p c (b ++ s) = tokens p c s := by
  induction b with
  | nil => rfl
  | cons d b ih =>
    rw [List.cons_append]
    exact (tokens_append_cons (hb d List.mem_cons_self) hc [] (b ++ s)).trans
      (ih fun x hx => hb x (List.mem_cons_of_mem _ hx))

theorem tokens_append_seps (hb : ∀ x ∈ b, p x = true) (hc : p c = false) (s : List α) :
    tokens p c (s ++ b) = tokens p c s := by
  cases b with
  | nil => rw [List.append_nil]
  | cons d b =>
    have hnil := tokens_seps_append (fun x hx => hb x (List.mem_cons_of_mem d hx)) hc []
    rw [tokens_append_cons (hb d List.mem_cons_self) hc, ← List.append_nil b, hnil]
    exact List.append_nil _

/-- The words of the pieces are found again. -/
theorem splitOn_tokens (p : α → Bool) (c : α) (s : List α) :
    (tokens p c s).splitOn [c] = (s.splitOn c).map (words p) := by
  apply List.splitOn_intercalate
  · intro ws hws hmem
    obtain ⟨piece, hpiece, rfl⟩ := List.mem_map.mp hws
    have hc := (mem_words hmem).2 c (List.mem_singleton.mpr rfl)
    have := (splitOnP_pieces s piece hpiece c hc.1).2
    simp at this
  · simp

end

end Words
