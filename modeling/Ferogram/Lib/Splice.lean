import Mathlib.Data.Prod.Lex
import Mathlib.Data.List.Sort
import Mathlib.Data.List.Perm.Basic
import Mathlib.Data.Int.Order.Basic
import Ferogram.Lib.StableSort

/- Markers spliced into a text. Each of a list of spans puts an opening marker
   at its start and a closing one at its stop; the markers are ordered by
   position, openings before closings and otherwise in the order of the spans,
   and are written out between the items of the text as a position counter
   passes them. `splice_cons` reads one round of that loop when the counter
   meets every marker exactly, and `texts_at_order` says what is written at one
   position: the openings there in the order of the spans, then the closings. -/
namespace Splice
open StableSort

variable {α β ι σ : Type}

structure Marker (β : Type) where
  pos : Int
  isOpen : Bool
  text : List β

/-- Ordered by position, openings first. -/
def order (markers : List (Marker β)) : List (Marker β) :=
  sortByKey (fun m => toLex (m.pos, !m.isOpen)) markers

def texts (markers : List (Marker β)) : List β := markers.flatMap Marker.text

/-- The loop over the items: the markers that are due, the item's own text, on to the next item. -/
def splice (pos : σ → Int) (next : σ → α → σ) (body : σ → α → List β) :
    σ → List (Marker β) → List α → List β
  | _, markers, [] => texts markers
  | s, markers, c :: cs =>
    texts (markers.takeWhile fun m => m.pos ≤ pos s) ++ (body s c ++
      splice pos next body (next s c) (markers.dropWhile fun m => m.pos ≤ pos s) cs)

/-- The markers at one position. -/
def markersAt (p : Int) (markers : List (Marker β)) : List (Marker β) := markers.filter fun m => m.pos = p

/-- The markers from a position on. -/
def markersFrom (p : Int) (markers : List (Marker β)) : List (Marker β) := markers.filter fun m => p ≤ m.pos

/-! Walking through ordered markers. -/

theorem takeWhile_of_pairwise {q : α → Bool} {l : List α} (h : l.Pairwise fun a b => q b → q a) :
    l.takeWhile q = l.filter q := by
  induction l with
  | nil => rfl
  | cons a l ih =>
    obtain ⟨ha, hl⟩ := List.pairwise_cons.mp h
    cases hq : q a
    · -- everything after a marker that is not due is not due either
      have hnone : l.filter q = [] := by
        apply List.filter_eq_nil_iff.mpr
        intro b hb hqb
        rw [ha b hb hqb] at hq
        cases hq
      simp [hq, hnone]
    · simp [hq, ih hl]

theorem dropWhile_of_pairwise {q : α → Bool} {l : List α} (h : l.Pairwise fun a b => q b → q a) :
    l.dropWhile q = l.filter fun a => !q a := by
  induction l with
  | nil => rfl
  | cons a l ih =>
    obtain ⟨ha, hl⟩ := List.pairwise_cons.mp h
    cases hq : q a
    · have hall : l.filter (fun a => !q a) = l := by
        apply List.filter_eq_self.mpr
        intro b hb
        cases hqb : q b with
        | false => rfl
        | true => rw [ha b hb hqb] at hq; cases hq
      simp [hq, hall]
    · simp [hq, ih hl]

theorem markersFrom_eq_markersAt {p : Int} {markers : List (Marker β)} (h : ∀ m ∈ markers, m.pos ≤ p) :
    markersFrom p markers = markersAt p markers := by
  apply List.filter_congr
  intro m hm
  have := h m hm
  exact decide_eq_decide.mpr (by omega)

/-- One round of the loop, when the counter meets the markers: between `p` and the next item's
    position `p'` there is none, and of those still to come the counter passes the ones at `p`. -/
theorem splice_cons {pos : σ → Int} {next : σ → α → σ} {body : σ → α → List β} {markers : List (Marker β)}
    (hs : markers.Pairwise fun a b => a.pos ≤ b.pos) {p p' : Int} (s : σ) (c : α) (cs : List α)
    (hlt : p < p') (hgap : ∀ m ∈ markers, p < m.pos → p' ≤ m.pos)
    (hpos : ∀ m ∈ markers, p ≤ m.pos → (m.pos ≤ pos s ↔ m.pos ≤ p)) :
    splice pos next body s (markersFrom p markers) (c :: cs) =
      texts (markersAt p markers) ++ (body s c ++ splice pos next body (next s c) (markersFrom p' markers) cs) := by
  have hdue : (markersFrom p markers).Pairwise
      fun a b => (decide (b.pos ≤ pos s) : Bool) → (decide (a.pos ≤ pos s) : Bool) := by
    apply (hs.filter _).imp
    intro a b hab
    simp only [decide_eq_true_eq]
    omega
  have hnow : (markersFrom p markers).filter (fun m => m.pos ≤ pos s) = markersAt p markers := by
    unfold markersFrom markersAt
    rw [List.filter_filter]
    apply List.filter_congr
    intro m hm
    have := hpos m hm
    rw [← Bool.decide_and]
    exact decide_eq_decide.mpr (by omega)
  have hlater : ((markersFrom p markers).filter fun m => !decide (m.pos ≤ pos s)) = markersFrom p' markers := by
    unfold markersFrom
    rw [List.filter_filter]
    apply List.filter_congr
    intro m hm
    have h1 := hpos m hm
    have h2 := hgap m hm
    rw [← decide_not, ← Bool.decide_and]
    exact decide_eq_decide.mpr (by omega)
  simp only [splice]
  rw [takeWhile_of_pairwise hdue, dropWhile_of_pairwise hdue, hnow, hlater]

/-- Only the positions and the texts of the markers are written. -/
theorem splice_congr (pos : σ → Int) (next : σ → α → σ) (body : σ → α → List β) (cs : List α) :
    ∀ (s : σ) (ms ms' : List (Marker β)),
      (ms.map fun m => (m.pos, m.text)) = (ms'.map fun m => (m.pos, m.text)) →
        splice pos next body s ms cs = splice pos next body s ms' cs := by
  have htexts : ∀ ms : List (Marker β), texts ms = (ms.map fun m => (m.pos, m.text)).flatMap Prod.snd := by
    intro ms
    simp [texts, List.flatMap_map]
  induction cs with
  | nil =>
    intro s ms ms' h
    simp only [splice]
    rw [htexts, htexts, h]
  | cons c cs ih =>
    intro s ms ms' h
    have hdue := congrArg (List.takeWhile fun x : Int × List β => x.1 ≤ pos s) h
    have hlater := congrArg (List.dropWhile fun x : Int × List β => x.1 ≤ pos s) h
    rw [List.takeWhile_map, List.takeWhile_map] at hdue
    rw [List.dropWhile_map, List.dropWhile_map] at hlater
    have hnow : texts (ms.takeWhile fun m => m.pos ≤ pos s) = texts (ms'.takeWhile fun m => m.pos ≤ pos s) := by
      rw [htexts, htexts]
      exact congrArg (List.flatMap Prod.snd) hdue
    simp only [splice]
    rw [hnow, ih (next s c) (ms.dropWhile fun m => m.pos ≤ pos s) (ms'.dropWhile fun m => m.pos ≤ pos s) hlater]

/-- With no marker left, every item is written by itself. -/
theorem splice_unmarked_cons (pos : σ → Int) (next : σ → α → σ) (body : σ → α → List β) (s : σ) (c : α) (cs : List α) :
    splice pos next body s [] (c :: cs) = body s c ++ splice pos next body (next s c) [] cs := by
  simp [splice, texts]

theorem splice_unmarked_append (pos : σ → Int) (next : σ → α → σ) (body : σ → α → List β) (s : σ) (cs rest : List α) :
    splice pos next body s [] (cs ++ rest) =
      splice pos next body s [] cs ++ splice pos next body (cs.foldl next s) [] rest := by
  induction cs generalizing s with
  | nil => simp [splice, texts]
  | cons c cs ih =>
    rw [List.cons_append, splice_unmarked_cons, splice_unmarked_cons, ih, List.append_assoc]
    rfl

theorem splice_unmarked_eq_flatMap (pos : σ → Int) (next : σ → α → σ) (body : σ → α → List β) {f : α → List β}
    (h : ∀ s c, body s c = f c) (cs : List α) (s : σ) : splice pos next body s [] cs = cs.flatMap f := by
  induction cs generalizing s with
  | nil => rfl
  | cons c cs ih => rw [splice_unmarked_cons, h, ih, List.flatMap_cons]

/-! What is written at one position. -/

theorem order_pairwise (markers : List (Marker β)) :
    (order markers).Pairwise fun a b => a.pos ≤ b.pos := by
  apply (sortByKey_pairwise (fun m : Marker β => toLex (m.pos, !m.isOpen)) markers).imp
  intro a b hab
  rcases Prod.Lex.toLex_le_toLex.mp hab with h | h
  · exact h.le
  · exact h.1.le

@[simp] theorem mem_order {markers : List (Marker β)} {m : Marker β} : m ∈ order markers ↔ m ∈ markers :=
  mem_sortByKey _

theorem order_filter_key (p : Int) (opening : Bool) (markers : List (Marker β)) :
    (order markers).filter (fun m => m.pos = p ∧ m.isOpen = opening) =
      markers.filter fun m => m.pos = p ∧ m.isOpen = opening := by
  unfold order
  rw [sortByKey_filter]
  apply sortByKey_of_const (k := toLex (p, !opening))
  intro m hm
  have := of_decide_eq_true (List.mem_filter.mp hm).2
  rw [this.1, this.2]

/-- A list in which everything of one kind comes before everything else. -/
theorem due_append_later {q : α → Bool} {l : List α} (h : l.Pairwise fun a b => q b → q a) :
    l.filter q ++ l.filter (fun a => !q a) = l := by
  rw [← takeWhile_of_pairwise h, ← dropWhile_of_pairwise h, List.takeWhile_append_dropWhile]

theorem markersAt_order (p : Int) (markers : List (Marker β)) :
    markersAt p (order markers) =
      (markers.filter fun m => m.pos = p ∧ m.isOpen = true) ++
        markers.filter fun m => m.pos = p ∧ m.isOpen = false := by
  have hopen : (markersAt p (order markers)).Pairwise fun a b => b.isOpen → a.isOpen := by
    apply List.Pairwise.imp_of_mem _
      ((sortByKey_pairwise (fun m : Marker β => toLex (m.pos, !m.isOpen)) markers).filter _)
    intro a b ha hb hab hbopen
    have hpa : a.pos = p := of_decide_eq_true (List.mem_filter.mp ha).2
    have hpb : b.pos = p := of_decide_eq_true (List.mem_filter.mp hb).2
    rcases Prod.Lex.toLex_le_toLex.mp hab with h | h
    · exact absurd h (by simp [hpa, hpb])
    · have h2 := h.2
      cases ha : a.isOpen
      · have h2 : true ≤ false := by simpa [ha, hbopen] using h2
        exact absurd h2 (by decide)
      · rfl
  rw [← due_append_later hopen, ← order_filter_key p true, ← order_filter_key p false]
  unfold markersAt
  rw [List.filter_filter, List.filter_filter]
  congr 1
  · apply List.filter_congr
    intro m _
    simp [and_comm]
  · apply List.filter_congr
    intro m _
    simp [and_comm]

/-! Markers put around spans. -/

section Spans

variable (start stop : ι → Int) (marks : ι → Option (List β × List β))

/-- The markers of the spans that have any, opening and closing, span by span. -/
def markersOf (spans : List ι) : List (Marker β) :=
  spans.flatMap fun e =>
    match marks e with
    | some (o, c) => [⟨start e, true, o⟩, ⟨stop e, false, c⟩]
    | none => []

/-- What a span writes where it starts. -/
def openText (e : ι) : List β := ((marks e).map Prod.fst).getD []

/-- What a span writes where it stops. -/
def closeText (e : ι) : List β := ((marks e).map Prod.snd).getD []

/-- A marker is the one where a span starts, or where it stops. -/
theorem marker_cases {spans : List ι} {m : Marker β} (h : m ∈ markersOf start stop marks spans) :
    ∃ e ∈ spans, ∃ o c, marks e = some (o, c) ∧ (m = ⟨start e, true, o⟩ ∨ m = ⟨stop e, false, c⟩) := by
  obtain ⟨e, he, hm⟩ := List.mem_flatMap.mp h
  refine ⟨e, he, ?_⟩
  cases hmarks : marks e with
  | none =>
    rw [hmarks] at hm
    cases hm
  | some oc =>
    obtain ⟨o, c⟩ := oc
    rw [hmarks] at hm
    simp only [List.mem_cons, List.not_mem_nil, or_false] at hm
    exact ⟨o, c, rfl, hm⟩

theorem mem_markersOf {spans : List ι} {m : Marker β} (h : m ∈ markersOf start stop marks spans) :
    ∃ e ∈ spans, (marks e).isSome ∧ (m.pos = start e ∨ m.pos = stop e) := by
  obtain ⟨e, he, o, c, hmarks, hm⟩ := marker_cases start stop marks h
  refine ⟨e, he, by rw [hmarks]; rfl, ?_⟩
  rcases hm with rfl | rfl
  · exact Or.inl rfl
  · exact Or.inr rfl

/-- A marker's text is one that some span writes. -/
theorem text_of_mem_markersOf {spans : List ι} {m : Marker β} (h : m ∈ markersOf start stop marks spans) :
    ∃ e ∈ spans, m.text = openText marks e ∨ m.text = closeText marks e := by
  obtain ⟨e, he, o, c, hmarks, hm⟩ := marker_cases start stop marks h
  refine ⟨e, he, ?_⟩
  rw [openText, closeText, hmarks]
  rcases hm with rfl | rfl
  · exact Or.inl rfl
  · exact Or.inr rfl

theorem texts_openings (p : Int) (spans : List ι) :
    texts ((markersOf start stop marks spans).filter fun m => m.pos = p ∧ m.isOpen = true) =
      (spans.filter fun e => start e = p).flatMap (openText marks) := by
  induction spans with
  | nil => rfl
  | cons e spans ih =>
    simp only [markersOf, texts, List.flatMap_cons, List.filter_append, List.flatMap_append] at ih ⊢
    rw [ih, List.filter_cons]
    cases hmarks : marks e <;> by_cases h : start e = p <;> simp [h, openText, hmarks]

theorem texts_closings (p : Int) (spans : List ι) :
    texts ((markersOf start stop marks spans).filter fun m => m.pos = p ∧ m.isOpen = false) =
      (spans.filter fun e => stop e = p).flatMap (closeText marks) := by
  induction spans with
  | nil => rfl
  | cons e spans ih =>
    simp only [markersOf, texts, List.flatMap_cons, List.filter_append, List.flatMap_append] at ih ⊢
    rw [ih, List.filter_cons]
    cases hmarks : marks e <;> by_cases h : stop e = p <;> simp [h, closeText, hmarks]

/-- At one position: the openings in the order of the spans, then the closings. -/
theorem texts_at_order (p : Int) (spans : List ι) :
    texts (markersAt p (order (markersOf start stop marks spans))) =
      (spans.filter fun e => start e = p).flatMap (openText marks) ++
        (spans.filter fun e => stop e = p).flatMap (closeText marks) := by
  rw [markersAt_order, ← texts_openings start stop marks p spans, ← texts_closings start stop marks p spans]
  exact List.flatMap_append

end Spans

/-- A filter in two parts. -/
theorem filter_append_filter_perm {q q₁ q₂ : ι → Bool} {spans : List ι} (h : ∀ e ∈ spans, q e = (q₁ e || q₂ e))
    (hdisj : ∀ e ∈ spans, q₁ e = true → q₂ e = false) :
    (spans.filter q₁ ++ spans.filter q₂).Perm (spans.filter q) := by
  have hperm := List.filter_append_perm q₁ (spans.filter q)
  rw [List.filter_filter, List.filter_filter] at hperm
  refine (List.Perm.of_eq ?_).trans hperm
  congr 1
  · apply List.filter_congr
    intro e he
    rw [h e he]
    cases q₁ e <;> simp
  · apply List.filter_congr
    intro e he
    have hno := hdisj e he
    rw [h e he]
    cases h₁ : q₁ e
    · simp
    · simp [hno h₁]

/-- Those that stop before a position and those that stop at it. -/
theorem filter_lt_append_eq (stop : ι → Int) (p : Int) (spans : List ι) :
    ((spans.filter fun e => stop e < p) ++ spans.filter fun e => stop e = p).Perm
      (spans.filter fun e => stop e ≤ p) := by
  apply filter_append_filter_perm
  · intro e _
    rw [← Bool.decide_or]
    exact decide_eq_decide.mpr (by omega)
  · intro e _ hlt
    have := of_decide_eq_true hlt
    exact decide_eq_false (by omega)

end Splice
