import Mathlib.Data.List.Basic

/- Lists in which the first element that matches is changed (`replaceF`) or taken out
   (`eraseP`). What a caller usually means is every element that matches, or the one
   that belongs to it; the lemmas say when the first one is that. -/
namespace FirstMatch
variable {α : Type} {p q : α → Bool} {g : α → α}

/-- Change the first element with `p`. -/
def changeFirst (p : α → Bool) (g : α → α) (l : List α) : List α :=
  l.replaceF fun a => if p a then some (g a) else none

theorem changeFirst_cons_pos {a : α} (l : List α) (h : p a = true) :
    changeFirst p g (a :: l) = g a :: l := by
  simp [changeFirst, h]

theorem changeFirst_cons_neg {a : α} (l : List α) (h : p a = false) :
    changeFirst p g (a :: l) = a :: changeFirst p g l := by
  simp [changeFirst, h]

theorem changeFirst_of_none {l : List α} (h : ∀ a ∈ l, p a = false) : changeFirst p g l = l := by
  apply List.replaceF_of_forall_none
  intro a ha
  simp [h a ha]

theorem mem_changeFirst {l : List α} {a : α} (h : a ∈ changeFirst p g l) : a ∈ l ∨ ∃ b ∈ l, p b = true ∧ a = g b := by
  induction l with
  | nil => cases h
  | cons b l ih =>
    cases hb : p b with
    | true =>
      rw [changeFirst_cons_pos l hb] at h
      rcases List.mem_cons.mp h with rfl | h
      · exact .inr ⟨b, List.mem_cons_self .., hb, rfl⟩
      · exact .inl (List.mem_cons_of_mem b h)
    | false =>
      rw [changeFirst_cons_neg l hb] at h
      rcases List.mem_cons.mp h with rfl | h
      · exact .inl (List.mem_cons_self ..)
      · rcases ih h with h | ⟨c, hc, hp, rfl⟩
        · exact .inl (List.mem_cons_of_mem b h)
        · exact .inr ⟨c, List.mem_cons_of_mem b hc, hp, rfl⟩

/-- An element that does not match stays where it is. -/
theorem changeFirst_getElem? {l : List α} {i : Nat} {a : α} (hi : l[i]? = some a)
    (ha : p a = false) : (changeFirst p g l)[i]? = some a := by
  induction l generalizing i with
  | nil => simp at hi
  | cons b l ih =>
    cases hb : p b with
    | true =>
      rw [changeFirst_cons_pos l hb]
      cases i with
      | zero =>
        have hab : b = a := by simpa using hi
        rw [hab, ha] at hb
        cases hb
      | succ i => simpa using hi
    | false =>
      rw [changeFirst_cons_neg l hb]
      cases i with
      | zero => simpa using hi
      | succ i => simpa using ih (by simpa using hi)

/-- Some matching element is changed, if there is one. -/
theorem exists_changeFirst {l : List α} (h : ∃ a ∈ l, p a = true) :
    ∃ (i : Nat) (a : α), l[i]? = some a ∧ p a = true ∧ (changeFirst p g l)[i]? = some (g a) := by
  induction l with
  | nil =>
    obtain ⟨a, ha, -⟩ := h
    cases ha
  | cons b l ih =>
    cases hb : p b with
    | true =>
      refine ⟨0, b, rfl, hb, ?_⟩
      rw [changeFirst_cons_pos l hb]
      rfl
    | false =>
      have hrest : ∃ a ∈ l, p a = true := by
        obtain ⟨a, ha, hpa⟩ := h
        rcases List.mem_cons.mp ha with rfl | ha
        · rw [hpa] at hb
          cases hb
        · exact ⟨a, ha, hpa⟩
      obtain ⟨i, a, hi, hpa, hci⟩ := ih hrest
      refine ⟨i + 1, a, by simpa using hi, hpa, ?_⟩
      rw [changeFirst_cons_neg l hb]
      simpa using hci

/-- Changing the first element with `p` changes every element with `q` and nothing else
exactly when the elements with `q` are just that first one. -/
theorem changeFirst_eq_map_iff (hg : ∀ a, p a = true ∨ q a = true → g a ≠ a) (l : List α) :
    changeFirst p g l = l.map (fun a => if q a then g a else a) ↔
      l.filter q = (l.find? p).toList := by
  -- where nothing is changed, nothing matched
  have hmap : ∀ l : List α, l = l.map (fun a => if q a then g a else a) ↔ l.filter q = [] := by
    intro l
    induction l with
    | nil => simp
    | cons a l ih =>
      cases hq : q a with
      | true => simp [hq, (hg a (.inr hq)).symm]
      | false => simp [hq, ← ih]
  induction l with
  | nil => simp [changeFirst]
  | cons a l ih =>
    cases hp : p a with
    | true =>
      rw [changeFirst_cons_pos l hp, List.find?_cons_of_pos hp]
      cases hq : q a with
      | true => simp [hq, hmap l]
      | false =>
        simp only [List.map_cons, hq, List.cons.injEq, hg a (.inl hp), false_and, false_iff,
          Option.toList_some, List.filter_cons_of_neg (by simp [hq] : ¬q a = true), Bool.false_eq_true,
          if_false]
        intro h
        have hmem : a ∈ l.filter q := by simp [h]
        rw [List.mem_filter, hq] at hmem
        cases hmem.2
    | false =>
      rw [changeFirst_cons_neg l hp, List.find?_cons_of_neg (by simp [hp])]
      cases hq : q a with
      | true =>
        simp only [List.map_cons, hq, if_true, List.cons.injEq, (hg a (.inr hq)).symm, false_and,
          false_iff, List.filter_cons_of_pos hq]
        intro h
        have hfind : l.find? p = some a := by
          cases hf : l.find? p with
          | none => simp [hf] at h
          | some b =>
            rw [hf] at h
            simp only [Option.toList_some, List.cons.injEq] at h
            rw [h.1]
        have := List.find?_some hfind
        rw [hp] at this
        cases this
      | false =>
        rw [List.filter_cons_of_neg (by simp [hq])]
        simp [hq, ih]

/-- Where at most one element matches, taking the first one out leaves those that do not. -/
theorem eraseP_eq_filter {l : List α} (h : l.Pairwise fun a b => ¬(p a = true ∧ p b = true)) :
    l.eraseP p = l.filter fun a => !p a := by
  induction l with
  | nil => rfl
  | cons a l ih =>
    rw [List.pairwise_cons] at h
    cases hp : p a with
    | true =>
      have hrest : l.filter (fun a => !p a) = l := by
        rw [List.filter_eq_self]
        intro b hb
        have := h.1 b hb
        simpa [hp] using this
      simp [hp, hrest]
    | false => simp [hp, ih h.2]

/-- What the change keeps is kept in the list. -/
theorem map_changeFirst {β : Type} {f : α → β} (hf : ∀ a, f (g a) = f a) (l : List α) :
    (changeFirst p g l).map f = l.map f := by
  induction l with
  | nil => rfl
  | cons a l ih =>
    cases h : p a with
    | true => rw [changeFirst_cons_pos l h, List.map_cons, hf, List.map_cons]
    | false => rw [changeFirst_cons_neg l h, List.map_cons, ih, List.map_cons]

/-- The first element with `p`, and what is left without it. -/
theorem perm_eraseP {l : List α} {a : α} (h : l.find? p = some a) : l.Perm (a :: l.eraseP p) := by
  obtain ⟨ha, front, back, rfl, hfront⟩ := List.find?_eq_some_iff_append.mp h
  have hnone : ∀ b ∈ front, ¬p b = true := fun b hb => by simpa using hfront b hb
  rw [List.eraseP_append_right _ hnone, List.eraseP_cons_of_pos ha]
  exact List.perm_middle

/-- The one element whose image matches is the one that is found. -/
theorem find?_map_of_unique {β : Type} {f : α → β} {r : β → Bool} {l : List α} {a : α} (ha : a ∈ l)
    (hr : r (f a) = true) (huniq : ∀ b ∈ l, r (f b) = true → b = a) : (l.map f).find? r = some (f a) := by
  have hsome : (l.find? (r ∘ f)).isSome = true := List.find?_isSome.mpr ⟨a, ha, hr⟩
  obtain ⟨b, hb⟩ := Option.isSome_iff_exists.mp hsome
  have hmatch : (r ∘ f) b = true := List.find?_some hb
  have hab : b = a := huniq b (List.mem_of_find?_eq_some hb) hmatch
  rw [List.find?_map, hb, hab, Option.map_some]

end FirstMatch
