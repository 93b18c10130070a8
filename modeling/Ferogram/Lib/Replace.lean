import Mathlib.Algebra.Order.Ring.Nat
import Mathlib.Data.List.Basic
import Mathlib.Data.List.Infix

/- Replacing every occurrence of a pattern in a list, from the left and
   without overlaps, as `str::replace` does for a pattern that is not empty. -/
namespace Replace

variable {α : Type} [DecidableEq α] {pat rep l : List α} {c : α}

/-- The scan, `skip` elements of the last match still to pass. -/
def scan (pat rep : List α) : Nat → List α → List α
  | _, [] => []
  | skip + 1, _ :: l => scan pat rep skip l
  | 0, c :: l => if pat.isPrefixOf (c :: l) then rep ++ scan pat rep (pat.length - 1) l else c :: scan pat rep 0 l

def replaceAll (pat rep l : List α) : List α := scan pat rep 0 l

@[simp] theorem replaceAll_nil : replaceAll pat rep [] = [] := rfl

theorem scan_eq_drop (skip : Nat) (l : List α) : scan pat rep skip l = scan pat rep 0 (l.drop skip) := by
  induction skip generalizing l with
  | zero => rfl
  | succ skip ih =>
    cases l with
    | nil => rfl
    | cons c l => simpa [scan] using ih l

/-- At an occurrence. -/
theorem replaceAll_match (hpat : pat ≠ []) (l : List α) : replaceAll pat rep (pat ++ l) = rep ++ replaceAll pat rep l := by
  obtain ⟨a, pat, rfl⟩ := List.exists_cons_of_ne_nil hpat
  have hpre : (a :: pat).isPrefixOf (a :: (pat ++ l)) = true :=
    List.isPrefixOf_iff_prefix.mpr (by simp)
  unfold replaceAll
  rw [List.cons_append, scan, if_pos hpre, scan_eq_drop]
  simp

/-- Where there is none. -/
theorem replaceAll_cons (h : ¬ pat <+: c :: l) : replaceAll pat rep (c :: l) = c :: replaceAll pat rep l := by
  have hpre : pat.isPrefixOf (c :: l) = false := by
    apply Bool.eq_false_iff.mpr
    intro htrue
    exact h (List.isPrefixOf_iff_prefix.mp htrue)
  simp [replaceAll, scan, hpre]

theorem replaceAll_eq_self (h : ¬ pat <:+: l) : replaceAll pat rep l = l := by
  induction l with
  | nil => rfl
  | cons c l ih =>
    rw [List.infix_cons_iff, not_or] at h
    rw [replaceAll_cons h.1, ih h.2]

/-- An induction over the scan: at an occurrence, or at an element where there is none. -/
theorem replaceAll_induction {P : List α → Prop} (hpat : pat ≠ []) (nil : P [])
    (found : ∀ l, P l → P (pat ++ l)) (pass : ∀ c l, ¬ pat <+: c :: l → P l → P (c :: l)) (l : List α) : P l := by
  induction hn : l.length using Nat.strong_induction_on generalizing l with
  | _ n ih =>
    cases l with
    | nil => exact nil
    | cons c l =>
      by_cases h : pat <+: c :: l
      · obtain ⟨t, ht⟩ := h
        have hlen := congrArg List.length ht
        have hpos := List.length_pos_iff.mpr hpat
        simp only [List.length_append] at hlen
        rw [← ht]
        exact found t (ih t.length (by omega) t rfl)
      · exact pass c l h (ih l.length (by simp [← hn]) l rfl)

/-- A replacement that weighs no more than the pattern makes nothing heavier. -/
theorem sum_replaceAll_le (weight : α → Nat) (hpat : pat ≠ [])
    (hle : (rep.map weight).sum ≤ (pat.map weight).sum) (l : List α) :
    ((replaceAll pat rep l).map weight).sum ≤ (l.map weight).sum := by
  induction l using replaceAll_induction hpat with
  | nil => simp
  | found l ih =>
    rw [replaceAll_match hpat]
    simp only [List.map_append, List.sum_append]
    omega
  | pass c l h ih =>
    rw [replaceAll_cons h]
    simp only [List.map_cons, List.sum_cons]
    omega

/-- Replacing one element: what is left of it is what the replacement brings in. -/
theorem mem_replaceAll_singleton {a x : α} (h : x ∈ replaceAll [a] rep l) : (x ∈ l ∧ x ≠ a) ∨ x ∈ rep := by
  have hpat : ([a] : List α) ≠ [] := by simp
  induction l using replaceAll_induction hpat with
  | nil => cases h
  | found l ih =>
    rw [replaceAll_match hpat] at h
    rcases List.mem_append.mp h with h | h
    · exact Or.inr h
    · exact (ih h).imp (fun h => ⟨List.mem_append_right _ h.1, h.2⟩) id
  | pass c l hno ih =>
    have hca : c ≠ a := by
      rintro rfl
      exact hno (by simp)
    rw [replaceAll_cons hno] at h
    rcases List.mem_cons.mp h with rfl | h
    · exact Or.inl ⟨List.mem_cons_self, hca⟩
    · exact (ih h).imp (fun h => ⟨List.mem_cons_of_mem _ h.1, h.2⟩) id

theorem replaceAll_ne_nil (hpat : pat ≠ []) (hrep : rep ≠ []) (h : l ≠ []) : replaceAll pat rep l ≠ [] := by
  induction l using replaceAll_induction hpat with
  | nil => exact absurd rfl h
  | found l _ =>
    rw [replaceAll_match hpat]
    simp [hrep]
  | pass c l hno _ =>
    rw [replaceAll_cons hno]
    simp

/-! Patterns that begin with a character they do not hold again. -/

section Words

variable {amp : α} {w v : List α}

/-- A word with the same first character is passed whole, if the pattern is not written there. -/
theorem replaceAll_word (hv : amp ∉ v) (hne : ∀ r, ¬ w <+: v ++ r) (r : List α) :
    replaceAll (amp :: w) rep (amp :: (v ++ r)) = amp :: (v ++ replaceAll (amp :: w) rep r) := by
  have htail : replaceAll (amp :: w) rep (v ++ r) = v ++ replaceAll (amp :: w) rep r := by
    clear hne
    induction v with
    | nil => rfl
    | cons c v ih =>
      simp only [List.mem_cons, not_or] at hv
      have hno : ¬ (amp :: w) <+: c :: (v ++ r) := by
        intro h
        exact hv.1 (List.cons_prefix_cons.mp h).1
      rw [List.cons_append, replaceAll_cons hno, ih hv.2]
      rfl
  have hno : ¬ (amp :: w) <+: amp :: (v ++ r) := by
    intro h
    exact hne r (List.cons_prefix_cons.mp h).2
  rw [replaceAll_cons hno, htail]

/-- How a character is written: as itself, or as a word that begins with `amp` and is not the pattern. -/
def Written (amp : α) (w : List α) (c : α) (word : List α) : Prop :=
  word = [c] ∨ ∃ v, word = amp :: v ∧ amp ∉ v ∧ ∀ r, ¬ w <+: v ++ r

variable {a : α} {f g : α → List α}

/-- Replacing the word of the first character itself: that is the only place where it can be read. -/
theorem replaceAll_amp (hamp : f amp = amp :: w) (hg : g amp = [amp]) (hfg : ∀ c, c ≠ amp → f c = g c)
    (hwords : ∀ c, c ≠ amp → Written amp w c (f c)) (s : List α) :
    replaceAll (amp :: w) [amp] (s.flatMap f) = s.flatMap g := by
  induction s with
  | nil => rfl
  | cons c s ih =>
    rw [List.flatMap_cons, List.flatMap_cons]
    by_cases hc : c = amp
    · rw [hc, hamp, hg, replaceAll_match (by simp), ih]
    · rcases hwords c hc with h | ⟨v, h, hv, hne⟩
      · have hno : ¬ (amp :: w) <+: c :: s.flatMap f := by
          intro hpre
          exact hc (List.cons_prefix_cons.mp hpre).1.symm
        rw [← hfg c hc, h, List.singleton_append, replaceAll_cons hno, ih]
        rfl
      · rw [← hfg c hc, h, List.cons_append, replaceAll_word hv hne, ih]
        rfl

omit [DecidableEq α] in
/-- What is read in the written text without `amp` stood in the text. -/
theorem prefix_of_prefix_flatMap (hw : amp ∉ w) (hf : ∀ c, f c = [c] ∨ ∃ v, f c = amp :: v) {s : List α}
    (h : w <+: s.flatMap f) : w <+: s := by
  induction w generalizing s with
  | nil => exact List.nil_prefix
  | cons x w ih =>
    simp only [List.mem_cons, not_or] at hw
    cases s with
    | nil => exact h
    | cons c s =>
      rw [List.flatMap_cons] at h
      rcases hf c with hc | ⟨v, hc⟩
      · rw [hc, List.singleton_append, List.cons_prefix_cons] at h
        exact List.cons_prefix_cons.mpr ⟨h.1, ih hw.2 h.2⟩
      · rw [hc, List.cons_append, List.cons_prefix_cons] at h
        exact absurd h.1.symm hw.1

/-- Replacing the word of another character: the word is also read where the text holds it. -/
theorem replaceAll_flatMap (hw : amp ∉ w) (ha : f a = amp :: w) (hg : g a = [a]) (hfg : ∀ c, c ≠ a → f c = g c)
    (hwords : ∀ c, c ≠ a → Written amp w c (f c)) (hself : (amp :: w).flatMap f = amp :: w) (s : List α) :
    replaceAll (amp :: w) [a] (s.flatMap f) = (replaceAll (amp :: w) [a] s).flatMap g := by
  have hpat : amp :: w ≠ [] := by simp
  have hforms : ∀ c, f c = [c] ∨ ∃ v, f c = amp :: v := by
    intro c
    by_cases hc : c = a
    · exact Or.inr ⟨w, by rw [hc, ha]⟩
    · exact (hwords c hc).imp id fun ⟨v, h, _⟩ => ⟨v, h⟩
  induction s using replaceAll_induction hpat with
  | nil => rfl
  | found l ih =>
    rw [List.flatMap_append, hself, replaceAll_match hpat, replaceAll_match hpat, ih, List.flatMap_append]
    simp [hg]
  | pass c l hno ih =>
    rw [replaceAll_cons hno, List.flatMap_cons, List.flatMap_cons]
    by_cases hc : c = a
    · rw [hc, ha, hg, replaceAll_match hpat, ih]
    · rcases hwords c hc with h | ⟨v, h, hv, hne⟩
      · have hnone : ¬ (amp :: w) <+: c :: l.flatMap f := by
          intro hpre
          have hpre := List.cons_prefix_cons.mp hpre
          exact hno (List.cons_prefix_cons.mpr ⟨hpre.1, prefix_of_prefix_flatMap hw hforms hpre.2⟩)
        rw [← hfg c hc, h, List.singleton_append, replaceAll_cons hnone, ih]
        rfl
      · rw [← hfg c hc, h, List.cons_append, replaceAll_word hv hne, ih]
        rfl

end Words

end Replace
