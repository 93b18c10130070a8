import Mathlib.Data.List.Perm.Basic

/- A scan of a list of blocks, whose elements write to variables and may end the scan.

   A variable keeps the last value written to it (`final`); an element that stops the scan is
   the last one seen (`seen`). When the blocks may come in any order, a block can be the last one, and
   one that stops the scan can be the first: the lemmas say of which blocks every order ends with
   the same value (`all_orders_final`), and finds the same first element (`all_orders_first`). -/
namespace BlockScan
variable {ι α β : Type}

/-- The first value. -/
def first (w : α → Option β) (l : List α) : Option β := l.findSome? w

/-- The last value. -/
def last (w : α → Option β) (l : List α) : Option β := l.reverse.findSome? w

/-- What a variable that starts at `v₀` holds after the writes of `l`. -/
def final (w : α → Option β) (v₀ : β) (l : List α) : β := (last w l).getD v₀

/-- The elements up to the first that stops the scan. -/
def seen (stop : α → Bool) : List α → List α
  | [] => []
  | a :: l => if stop a then [a] else a :: seen stop l

theorem first_append (w : α → Option β) (l l' : List α) : first w (l ++ l') = (first w l).or (first w l') :=
  List.findSome?_append

theorem last_append (w : α → Option β) (l l' : List α) : last w (l ++ l') = (last w l').or (last w l) := by
  unfold last
  rw [List.reverse_append, List.findSome?_append]

theorem final_append (w : α → Option β) (v₀ : β) (l l' : List α) : final w v₀ (l ++ l') = final w (final w v₀ l) l' := by
  unfold final
  rw [last_append]
  cases last w l' <;> simp

theorem last_singleton (w : α → Option β) (a : α) : last w [a] = w a := by
  unfold last
  simp

theorem final_cons (w : α → Option β) (v₀ : β) (a : α) (l : List α) :
    final w v₀ (a :: l) = final w ((w a).getD v₀) l := by
  rw [← List.singleton_append, final_append]
  congr 1
  unfold final
  rw [last_singleton]

/-- Some element writes exactly if there is a last value. -/
theorem last_eq_none {w : α → Option β} {l : List α} : last w l = none ↔ ∀ a ∈ l, w a = none := by
  unfold last
  rw [List.findSome?_eq_none_iff]
  simp

theorem exists_of_first {w : α → Option β} {l : List α} {u : β} (h : first w l = some u) : ∃ a ∈ l, w a = some u :=
  List.exists_of_findSome?_eq_some h

/-! Blocks. -/

section Blocks
variable {w : α → Option β} {f : ι → List α}

theorem last_flatMap {xs : List ι} {u : β} (h : last w (xs.flatMap f) = some u) : ∃ x ∈ xs, last w (f x) = some u := by
  induction xs with
  | nil => cases h
  | cons x xs ih =>
    rw [List.flatMap_cons, last_append] at h
    cases hrest : last w (xs.flatMap f) with
    | some u' =>
      rw [hrest] at h ih
      obtain ⟨y, hy, hlast⟩ := ih h
      exact ⟨y, List.mem_cons_of_mem _ hy, hlast⟩
    | none =>
      rw [hrest] at h
      exact ⟨x, List.mem_cons_self, h⟩

theorem first_flatMap {xs : List ι} {u : β} (h : first w (xs.flatMap f) = some u) : ∃ x ∈ xs, first w (f x) = some u := by
  induction xs with
  | nil => cases h
  | cons x xs ih =>
    rw [List.flatMap_cons, first_append] at h
    cases head : first w (f x) with
    | some u' =>
      rw [head] at h
      exact ⟨x, List.mem_cons_self, head.trans h⟩
    | none =>
      rw [head] at h
      obtain ⟨y, hy, hfirst⟩ := ih h
      exact ⟨y, List.mem_cons_of_mem _ hy, hfirst⟩

/-- Any element can be moved to the front, and to the end. -/
theorem exists_perm_cons {x : ι} {xs : List ι} (h : x ∈ xs) : ∃ rest, (x :: rest).Perm xs := by
  obtain ⟨before, after, rfl⟩ := List.append_of_mem h
  exact ⟨before ++ after, List.perm_middle.symm⟩

theorem exists_perm_concat {x : ι} {xs : List ι} (h : x ∈ xs) : ∃ rest, (rest ++ [x]).Perm xs := by
  obtain ⟨rest, hrest⟩ := exists_perm_cons h
  exact ⟨rest, (List.perm_append_singleton x rest).trans hrest⟩

/-- Every order finds `v` first: the blocks that find something find `v`. -/
theorem all_orders_first {xs : List ι} {v : Option β} :
    (∀ ys : List ι, ys.Perm xs → first w (ys.flatMap f) = v) ↔
      (∀ x ∈ xs, ∀ u ∈ first w (f x), v = some u) ∧ ((∀ x ∈ xs, first w (f x) = none) → v = none) := by
  constructor
  · intro h
    refine ⟨fun x hx u hu => ?_, fun hnone => ?_⟩
    · obtain ⟨rest, hperm⟩ := exists_perm_cons hx
      have hfirst := h _ hperm
      rw [List.flatMap_cons, first_append, Option.mem_def.mp hu] at hfirst
      exact hfirst.symm
    · rw [← h xs (List.Perm.refl _)]
      cases hfirst : first w (xs.flatMap f) with
      | none => rfl
      | some u =>
        obtain ⟨x, hx, hxu⟩ := first_flatMap hfirst
        rw [hnone x hx] at hxu
        cases hxu
  · rintro ⟨hsome, hnone⟩ ys hperm
    cases hfirst : first w (ys.flatMap f) with
    | some u =>
      obtain ⟨x, hx, hxu⟩ := first_flatMap hfirst
      exact (hsome x (hperm.subset hx) u hxu).symm
    | none =>
      refine (hnone fun x hx => ?_).symm
      have hall := List.findSome?_eq_none_iff.mp hfirst
      exact List.findSome?_eq_none_iff.mpr fun a ha =>
        hall a (List.mem_flatMap.mpr ⟨x, hperm.symm.subset hx, ha⟩)

/-! Stopping. -/

section Stop
variable {stop : α → Bool}

theorem seen_of_not_stop {l : List α} (h : l.any stop = false) (l' : List α) : seen stop (l ++ l') = l ++ seen stop l' := by
  induction l with
  | nil => rfl
  | cons a l ih =>
    obtain ⟨ha, hl⟩ := Bool.or_eq_false_iff.mp h
    rw [List.cons_append, seen, ha, if_neg Bool.false_ne_true, ih hl, List.cons_append]

theorem seen_of_stop {l : List α} (h : l.any stop = true) (l' : List α) : seen stop (l ++ l') = seen stop l := by
  induction l with
  | nil => cases h
  | cons a l ih =>
    rw [List.cons_append, seen, seen]
    split
    · rfl
    · next ha =>
      rw [List.any_cons, Bool.or_eq_true] at h
      rw [ih (h.resolve_left ha)]

theorem seen_self {l : List α} (h : l.any stop = false) : seen stop l = l := by
  have hl := seen_of_not_stop h []
  rwa [List.append_nil, seen, List.append_nil] at hl

/-- What is seen of blocks: all of those before the first that stops, and that one as far as it goes. -/
theorem seen_flatMap {xs : List ι} (h : ∃ x ∈ xs, (f x).any stop = true) :
    ∃ before x after, xs = before ++ x :: after ∧ (∀ y ∈ before, (f y).any stop = false) ∧
      (f x).any stop = true ∧ seen stop (xs.flatMap f) = before.flatMap f ++ seen stop (f x) := by
  induction xs with
  | nil =>
    obtain ⟨x, hx, -⟩ := h
    cases hx
  | cons x xs ih =>
    cases hstop : (f x).any stop with
    | true =>
      refine ⟨[], x, xs, rfl, (fun y hy => nomatch hy), hstop, ?_⟩
      rw [List.flatMap_cons, seen_of_stop hstop]
      rfl
    | false =>
      obtain ⟨y, hy, hys⟩ := h
      have hyxs : y ∈ xs := by
        rcases List.mem_cons.mp hy with rfl | hy
        · rw [hstop] at hys
          cases hys
        · exact hy
      obtain ⟨before, z, after, hxs, hbefore, hz, hseen⟩ := ih ⟨y, hyxs, hys⟩
      refine ⟨x :: before, z, after, by rw [hxs, List.cons_append], ?_, hz, ?_⟩
      · intro y hy
        rcases List.mem_cons.mp hy with rfl | hy
        · exact hstop
        · exact hbefore y hy
      · rw [List.flatMap_cons, seen_of_not_stop hstop, hseen, List.flatMap_cons, List.append_assoc]

theorem flatMap_not_stop {xs : List ι} (h : ∀ x ∈ xs, (f x).any stop = false) : (xs.flatMap f).any stop = false := by
  rw [List.any_eq_false]
  intro a ha
  obtain ⟨x, hx, hax⟩ := List.mem_flatMap.mp ha
  exact List.any_eq_false.mp (h x hx) a hax

/-- The value `v` whatever the order. If no block stops the scan, every block that writes ends with
`v`. If one does, every such block has `v` at its end; or it has written nothing there, and then
`v` was there before and is what the other blocks write. -/
structure SettlesAt (w : α → Option β) (stop : α → Bool) (f : ι → List α) (v₀ v : β) (xs : List ι) : Prop where
  goesOn : (∀ x ∈ xs, (f x).any stop = false) →
    (∀ x ∈ xs, ∀ u ∈ last w (f x), u = v) ∧ ((∀ x ∈ xs, last w (f x) = none) → v₀ = v)
  stops : ∀ x ∈ xs, (f x).any stop = true →
    last w (seen stop (f x)) = some v ∨
      last w (seen stop (f x)) = none ∧ v₀ = v ∧
        ∀ y ∈ xs, (f y).any stop = false → ∀ u ∈ last w (f y), u = v

theorem SettlesAt.final_eq {v₀ v : β} {xs : List ι} (h : SettlesAt w stop f v₀ v xs) :
    final w v₀ (seen stop (xs.flatMap f)) = v := by
  by_cases hstop : ∃ x ∈ xs, (f x).any stop = true
  · obtain ⟨before, x, after, rfl, hbefore, hx, hseen⟩ := seen_flatMap hstop
    rw [hseen, final_append]
    rcases h.stops x (by simp) hx with hlast | ⟨hlast, rfl, hothers⟩
    · unfold final
      rw [hlast, Option.getD_some]
    · unfold final
      rw [hlast, Option.getD_none]
      cases hpre : last w (before.flatMap f) with
      | none => rfl
      | some u =>
        obtain ⟨y, hy, hyu⟩ := last_flatMap hpre
        exact hothers y (List.mem_append_left _ hy) (hbefore y hy) u hyu
  · have hgo : ∀ x ∈ xs, (f x).any stop = false := by
      intro x hx
      exact Bool.eq_false_iff.mpr fun hxs => hstop ⟨x, hx, hxs⟩
    obtain ⟨hsome, hnone⟩ := h.goesOn hgo
    rw [seen_self (flatMap_not_stop hgo)]
    unfold final
    cases hlast : last w (xs.flatMap f) with
    | some u =>
      obtain ⟨x, hx, hxu⟩ := last_flatMap hlast
      exact hsome x hx u hxu
    | none =>
      refine hnone fun x hx => last_eq_none.mpr fun a ha => ?_
      exact last_eq_none.mp hlast a (List.mem_flatMap.mpr ⟨x, hx, ha⟩)

theorem SettlesAt.perm {v₀ v : β} {xs ys : List ι} (h : SettlesAt w stop f v₀ v xs) (hp : ys.Perm xs) :
    SettlesAt w stop f v₀ v ys where
  goesOn hgo := by
    obtain ⟨hsome, hnone⟩ := h.goesOn fun x hx => hgo x (hp.symm.subset hx)
    exact ⟨fun x hx => hsome x (hp.subset hx), fun hn => hnone fun x hx => hn x (hp.symm.subset hx)⟩
  stops x hx hs := by
    rcases h.stops x (hp.subset hx) hs with hlast | ⟨hlast, hv, hothers⟩
    · exact .inl hlast
    · exact .inr ⟨hlast, hv, fun y hy => hothers y (hp.subset hy)⟩

/-- A variable ends with `v` in every order exactly if it settles at `v`. -/
theorem all_orders_final {v₀ v : β} {xs : List ι} :
    (∀ ys : List ι, ys.Perm xs → final w v₀ (seen stop (ys.flatMap f)) = v) ↔ SettlesAt w stop f v₀ v xs := by
  constructor
  · intro h
    constructor
    · intro hgo
      have hall : ∀ ys : List ι, ys.Perm xs → final w v₀ (ys.flatMap f) = v := by
        intro ys hp
        rw [← h ys hp, seen_self (flatMap_not_stop fun y hy => hgo y (hp.subset hy))]
      refine ⟨fun x hx u hu => ?_, fun hnone => ?_⟩
      · -- a block that writes can be made the last
        obtain ⟨rest, hp⟩ := exists_perm_concat hx
        have hfinal := hall _ hp
        rw [List.flatMap_append, List.flatMap_singleton, final_append, final, Option.mem_def.mp hu] at hfinal
        exact hfinal
      · have hfinal := hall xs (List.Perm.refl _)
        have hlast : last w (xs.flatMap f) = none := by
          refine last_eq_none.mpr fun a ha => ?_
          obtain ⟨x, hx, hax⟩ := List.mem_flatMap.mp ha
          exact last_eq_none.mp (hnone x hx) a hax
        rw [final, hlast] at hfinal
        exact hfinal
    · -- a block that stops the scan can be made the first
      intro x hx hstop
      obtain ⟨rest, hp⟩ := exists_perm_cons hx
      have hfinal := h _ hp
      rw [List.flatMap_cons, seen_of_stop hstop, final] at hfinal
      cases hlast : last w (seen stop (f x)) with
      | some u =>
        rw [hlast] at hfinal
        exact .inl (congrArg some hfinal)
      | none =>
        rw [hlast] at hfinal
        refine .inr ⟨rfl, hfinal, fun y hy hgo u hu => ?_⟩
        have hyrest : y ∈ rest := by
          rcases List.mem_cons.mp (hp.symm.subset hy) with rfl | hy
          · rw [hstop] at hgo
            cases hgo
          · exact hy
        -- and any that does not, be put before it
        obtain ⟨rest', hp'⟩ := exists_perm_cons hyrest
        have hmoved : (y :: x :: rest').Perm xs :=
          (List.Perm.swap x y rest').trans ((List.Perm.cons x hp').trans hp)
        have hfinal' := h _ hmoved
        rw [List.flatMap_cons, seen_of_not_stop hgo, List.flatMap_cons, seen_of_stop hstop, final_append, final,
          hlast, Option.getD_none, final, Option.mem_def.mp hu] at hfinal'
        exact hfinal'
  · exact fun h ys hp => (h.perm hp).final_eq

end Stop

end Blocks

end BlockScan
