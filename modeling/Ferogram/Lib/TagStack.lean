import Mathlib.Data.List.Basic
import Mathlib.Data.List.Perm.Basic

/- A stack whose entries are taken off by kind: closing a kind removes the
   last entry of it, wherever that stands, and leaves the rest in place. The
   entries of one kind then form a stack of their own, whatever happens to the
   other kinds (`removeLast_filter`, `removeLast_filter_other`). -/
namespace TagStack

variable {α : Type} {p q : α → Bool} {a : α} {l l' : List α}

/-- The last entry that satisfies `p`, and the list without it. -/
def removeLast (p : α → Bool) : List α → Option (α × List α)
  | [] => none
  | x :: xs =>
    match removeLast p xs with
    | some (y, ys) => some (y, x :: ys)
    | none => if p x then some (x, xs) else none

theorem removeLast_eq_none : removeLast p l = none ↔ ∀ x ∈ l, p x = false := by
  induction l with
  | nil => simp [removeLast]
  | cons x xs ih =>
    simp only [removeLast, List.mem_cons, forall_eq_or_imp]
    cases h : removeLast p xs with
    | some y =>
      rw [h] at ih
      simp only [reduceCtorEq, false_iff, not_and]
      intro _ hxs
      exact absurd (ih.mpr hxs) (by simp)
    | none =>
      rw [h] at ih
      cases hx : p x
      · simpa using ih.mp rfl
      · simp

/-- Where the removed entry stood. -/
theorem removeLast_eq_some (h : removeLast p l = some (a, l')) :
    ∃ u v, l = u ++ a :: v ∧ l' = u ++ v ∧ p a = true ∧ ∀ b ∈ v, p b = false := by
  induction l generalizing a l' with
  | nil => cases h
  | cons x xs ih =>
    simp only [removeLast] at h
    cases hxs : removeLast p xs with
    | some y =>
      rw [hxs] at h
      obtain ⟨rfl, rfl⟩ := Prod.mk.inj (Option.some.inj h)
      obtain ⟨u, v, hl, hl', ha, hv⟩ := ih hxs
      exact ⟨x :: u, v, by rw [hl]; rfl, by rw [hl']; rfl, ha, hv⟩
    | none =>
      rw [hxs] at h
      cases hx : p x with
      | false => simp [hx] at h
      | true =>
        simp only [hx, if_true, Option.some.injEq, Prod.mk.injEq] at h
        obtain ⟨rfl, rfl⟩ := h
        exact ⟨[], xs, rfl, rfl, hx, removeLast_eq_none.mp hxs⟩

/-- What is left was there before, and so was what was removed. -/
theorem mem_map_of_removeLast {β : Type} (f : α → β) (h : removeLast p l = some (a, l')) :
    f a ∈ l.map f ∧ ∀ b ∈ l'.map f, b ∈ l.map f := by
  obtain ⟨u, v, rfl, rfl, -, -⟩ := removeLast_eq_some h
  refine ⟨List.mem_map_of_mem (by simp), fun b hb => ?_⟩
  simp only [List.map_append, List.map_cons, List.mem_append, List.mem_cons] at hb ⊢
  exact hb.imp_right Or.inr

theorem removeLast_append {u v : List α} (ha : p a = true) (hv : ∀ b ∈ v, p b = false) :
    removeLast p (u ++ a :: v) = some (a, u ++ v) := by
  induction u with
  | nil => simp [removeLast, removeLast_eq_none.mpr hv, ha]
  | cons x u ih => simp [removeLast, ih]

theorem removeLast_top (ha : p a = true) (u : List α) : removeLast p (u ++ [a]) = some (a, u) := by
  rw [removeLast_append ha (by simp), List.append_nil]

/-- Among the entries of its kind, the last one goes. -/
theorem removeLast_filter (h : removeLast p l = some (a, l')) : l.filter p = l'.filter p ++ [a] := by
  obtain ⟨u, v, rfl, rfl, ha, hv⟩ := removeLast_eq_some h
  have hnone : v.filter p = [] := List.filter_eq_nil_iff.mpr (by simpa using hv)
  simp [ha, hnone]

/-- Entries of another kind stay. -/
theorem removeLast_filter_other (h : removeLast p l = some (a, l')) (hq : q a = false) :
    l'.filter q = l.filter q := by
  obtain ⟨u, v, rfl, rfl, -, -⟩ := removeLast_eq_some h
  simp [hq]

/-- The last entry that satisfies `p`, replaced by what `f` makes of it. -/
def updateLast (p : α → Bool) (f : α → Option α) : List α → List α
  | [] => []
  | x :: xs => if xs.any p then x :: updateLast p f xs else if p x then (f x).toList ++ xs else x :: xs

theorem updateLast_of_none {f : α → Option α} (h : ∀ x ∈ l, p x = false) : updateLast p f l = l := by
  induction l with
  | nil => rfl
  | cons x xs ih =>
    obtain ⟨hx, hxs⟩ := List.forall_mem_cons.mp h
    have hany : xs.any p = false := List.any_eq_false.mpr (by simpa using hxs)
    simp [updateLast, hx, hany]

theorem updateLast_append {f : α → Option α} {u v : List α} (ha : p a = true) (hv : ∀ b ∈ v, p b = false) :
    updateLast p f (u ++ a :: v) = u ++ (f a).toList ++ v := by
  have hany : v.any p = false := List.any_eq_false.mpr (by simpa using hv)
  induction u with
  | nil => simp [updateLast, ha, hany]
  | cons x u ih => simp [updateLast, ha, ih]

/-- The last entry of a kind, where there is one. -/
theorem exists_last (p : α → Bool) (l : List α) :
    (∀ x ∈ l, p x = false) ∨ ∃ u a v, l = u ++ a :: v ∧ p a = true ∧ ∀ b ∈ v, p b = false := by
  induction l with
  | nil => exact Or.inl nofun
  | cons x xs ih =>
    rcases ih with hnone | ⟨u, a, v, rfl, ha, hv⟩
    · cases hx : p x with
      | false => exact Or.inl (List.forall_mem_cons.mpr ⟨hx, hnone⟩)
      | true => exact Or.inr ⟨[], x, xs, rfl, hx, hnone⟩
    · exact Or.inr ⟨x :: u, a, v, rfl, ha, hv⟩

/-- Lists that agree kind by kind. -/
theorem perm_of_filter_perm {κ : Type} [DecidableEq α] [DecidableEq κ] (key : α → κ)
    (h : ∀ k, (l.filter fun x => key x = k).Perm (l'.filter fun x => key x = k)) : l.Perm l' := by
  apply List.perm_iff_count.mpr
  intro x
  have hx := (h (key x)).count_eq x
  rwa [List.count_filter (by simp), List.count_filter (by simp)] at hx

/-! Spans on a stack. -/

/-- Spans that lie on a stack in the order of their ends, but for those with equal entries: the
    entries of those that end first are on top. -/
theorem map_later_append_now {ι : Type} {entry : ι → α} {stop : ι → Int} {p : Int} {spans : List ι}
    (h : spans.Pairwise fun a b => stop b ≤ stop a ∨ entry a = entry b) (hle : ∀ a ∈ spans, p ≤ stop a) :
    spans.map entry =
      (spans.filter fun a => p < stop a).map entry ++ (spans.filter fun a => stop a = p).map entry := by
  induction spans with
  | nil => rfl
  | cons a spans ih =>
    obtain ⟨ha, hrest⟩ := List.pairwise_cons.mp h
    have hih := ih hrest fun b hb => hle b (List.mem_cons_of_mem _ hb)
    rw [List.map_cons, hih, List.filter_cons, List.filter_cons]
    by_cases hlt : p < stop a
    · have hne : ¬ stop a = p := by omega
      simp [hlt, hne]
    · have heq : stop a = p := by
        have := hle a List.mem_cons_self
        omega
      -- what ends later than `a` and lies on it has the same entry
      have hsame : ∀ x ∈ (spans.filter fun b => p < stop b).map entry, x = entry a := by
        intro x hx
        obtain ⟨b, hb, rfl⟩ := List.mem_map.mp hx
        obtain ⟨hbmem, hblt⟩ := List.mem_filter.mp hb
        have hblt := of_decide_eq_true hblt
        exact ((ha b hbmem).resolve_left (by omega)).symm
      rw [if_neg (by simpa using hlt), if_pos (by simpa using heq), List.map_cons]
      generalize (spans.filter fun b => p < stop b).map entry = later at hsame ⊢
      rw [List.eq_replicate_of_mem hsame, ← List.cons_append, ← List.replicate_succ, List.replicate_succ',
        List.append_assoc]
      rfl

/-! Entries that come with a mark. -/

section Marks

variable (o m : α → Bool)

/-- Every mark stands behind an opener of its own. -/
def MarksBehind (l : List α) : Prop := ∀ u v, l = u ++ v → u.countP m ≤ u.countP o

variable {o m}

theorem MarksBehind.of_no_marks (h : ∀ x ∈ l, m x = false) : MarksBehind o m l := by
  intro u v huv
  have hzero : u.countP m = 0 := by
    apply List.countP_eq_zero.mpr
    intro x hx
    simp [h x (huv ▸ List.mem_append_left v hx)]
  omega

/-- An opener with its mark. -/
theorem MarksBehind.pair {x y : α} (hx : o x = true) (hmx : m x = false) : MarksBehind o m [x, y] := by
  intro u v huv
  rcases List.append_eq_cons_iff.mp huv.symm with ⟨rfl, -⟩ | ⟨u, rfl, hu⟩
  · simp
  · have hle := (List.countP_le_length (p := m) (l := u))
    have hlen : u.length ≤ 1 := by
      have := congrArg List.length hu
      simp only [List.length_append, List.length_cons, List.length_nil] at this
      omega
    simp only [List.countP_cons, hx, hmx, if_true, Bool.false_eq_true, if_false]
    omega

theorem MarksBehind.count_le (h : MarksBehind o m l) : l.countP m ≤ l.countP o := h l [] (by simp)

theorem MarksBehind.append (h : MarksBehind o m l) (h' : MarksBehind o m l') : MarksBehind o m (l ++ l') := by
  intro u v huv
  rcases List.append_eq_append_iff.mp huv with ⟨w, rfl, hw⟩ | ⟨w, hw, -⟩
  · have h₁ := h.count_le
    have h₂ := h' w v hw
    simp only [List.countP_append]
    omega
  · exact h u w hw

theorem MarksBehind.flatMap {ι : Type} {f : ι → List α} (h : ∀ x, MarksBehind o m (f x)) (xs : List ι) :
    MarksBehind o m (xs.flatMap f) := by
  induction xs with
  | nil => exact MarksBehind.of_no_marks (by simp)
  | cons x xs ih =>
    rw [List.flatMap_cons]
    exact (h x).append ih

/-- With as many marks as openers, an opener is not on top. -/
theorem MarksBehind.last (h : MarksBehind o m l) (heq : l.countP o = l.countP m) (hdisj : ∀ x, o x = true → m x = false)
    {x : α} (hx : l.getLast? = some x) : o x = false := by
  obtain ⟨u, rfl⟩ := List.getLast?_eq_some_iff.mp hx
  have hbelow := h u [x] rfl
  cases hox : o x with
  | false => rfl
  | true =>
    simp [hox, hdisj x hox] at heq
    omega

/-- Taking off an entry that is no opener. -/
theorem MarksBehind.remove (h : MarksBehind o m l) (hr : removeLast p l = some (a, l')) (ha : o a = false) :
    MarksBehind o m l' := by
  obtain ⟨u₀, v₀, rfl, rfl, -, -⟩ := removeLast_eq_some hr
  intro u v huv
  rcases List.append_eq_append_iff.mp huv with ⟨w, rfl, hw⟩ | ⟨w, hw, -⟩
  · have hbelow := h (u₀ ++ a :: w) v (by simp [hw])
    simp only [List.countP_append, List.countP_cons, ha, Bool.false_eq_true, if_false] at hbelow ⊢
    omega
  · exact h u (w ++ a :: v₀) (by simp [hw])

/-- Taking off the last opener, when there are more of them than marks. -/
theorem MarksBehind.remove_opener (h : MarksBehind o m l) (hr : removeLast o l = some (a, l'))
    (hlt : l.countP m < l.countP o) : MarksBehind o m l' := by
  obtain ⟨u₀, v₀, rfl, rfl, ha, hv₀⟩ := removeLast_eq_some hr
  intro u v huv
  rcases List.append_eq_append_iff.mp huv with ⟨w, rfl, hw⟩ | ⟨w, hw, -⟩
  · -- all the openers left are in front of this place, and they are enough for all the marks
    have hnone : v₀.countP o = 0 := List.countP_eq_zero.mpr fun x hx => by simp [hv₀ x hx]
    rw [hw] at hnone hlt
    simp only [List.countP_append, List.countP_cons, ha, if_true] at hnone hlt ⊢
    omega
  · exact h u (w ++ a :: v₀) (by simp [hw])

end Marks

end TagStack
