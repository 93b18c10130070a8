import Mathlib.Data.List.Basic
import Mathlib.Order.Lattice

/- A vector kept sorted by a key, searched by bisection.

   `search key k l` is the bisection of a slice `l` for the key `k`: `.ok i` is
   the position of an element with that key, `.error i` the position where one
   can be inserted. On a list ordered by key its two answers are exactly two
   ways of cutting the list (`search_ok`, `search_error`); every operation on
   such a vector is an edit at that cut. On a strictly ordered list the search
   is a lookup (`find`), and `find_put` and `find_remove` say how the edits act on
   lookups. -/
namespace SortedVec

variable {ε κ : Type} [LinearOrder κ] (key : ε → κ)

/-- How the element at `i` compares to the key searched for. -/
def probe (k : κ) (l : List ε) (i : Nat) : Ordering :=
  match l[i]? with
  | none => .eq
  | some e => if key e < k then .lt else if key e = k then .eq else .gt

/-- The bisection loop: `size` elements from `base` on are still in question.
The fuel is the length of the list, and `size` shrinks at every turn. -/
def bisect (k : κ) (l : List ε) : Nat → Nat → Nat → Nat
  | 0, _, base => base
  | fuel + 1, size, base =>
    if 1 < size then
      bisect k l fuel (size - size / 2)
        (if probe key k l (base + size / 2) = .gt then base else base + size / 2)
    else base

/-- Bisection for `k`: `.ok` with a position that holds it, or `.error` with
the position where it belongs. -/
def search (k : κ) (l : List ε) : Except Nat Nat :=
  if l = [] then .error 0
  else
    let base := bisect key k l l.length l.length 0
    match probe key k l base with
    | .eq => .ok base
    | .lt => .error (base + 1)
    | .gt => .error base

/-- The first element with key `k`. -/
def find (k : κ) (l : List ε) : Option ε := l.find? (fun e => key e = k)

/-- Ordered by key, equal keys allowed. -/
def Ordered (l : List ε) : Prop := l.Pairwise (fun a b => key a ≤ key b)

/-- Ordered by key, no key twice. -/
def Strict (l : List ε) : Prop := l.Pairwise (fun a b => key a < key b)

variable {key} {l : List ε}

theorem Strict.ordered (h : Strict key l) : Ordered key l :=
  h.imp (fun hab => le_of_lt hab)

theorem probe_of_lt {k : κ} {i : Nat} (h : i < l.length) :
    probe key k l i = if key l[i] < k then .lt else if key l[i] = k then .eq else .gt := by
  simp [probe, List.getElem?_eq_getElem h]

/-- What bisection has established about the window it stops at: `base` is the
last position that may hold a key up to `k`. -/
structure Bracket (key : ε → κ) (k : κ) (l : List ε) (size base : Nat) : Prop where
  pos : 0 < size
  room : base + size ≤ l.length
  below : base = 0 ∨ ∀ h : base < l.length, key l[base] ≤ k
  above : ∀ j (h : j < l.length), base + size ≤ j → k < key l[j]

theorem Ordered.getElem_le (hs : Ordered key l) {i j : Nat} (hij : i ≤ j)
    (hj : j < l.length) : key (l[i]) ≤ key l[j] := by
  rcases Nat.lt_or_eq_of_le hij with h | rfl
  · exact List.pairwise_iff_getElem.mp hs i j (by omega) hj h
  · exact le_refl _

theorem bisect_bracket {k : κ} (hs : Ordered key l) :
    ∀ (fuel size base : Nat), size ≤ fuel → Bracket key k l size base →
      Bracket key k l 1 (bisect key k l fuel size base)
  | 0, size, base, hf, hb => absurd hb.pos (by omega)
  | fuel + 1, size, base, hf, hb => by
    have hpos := hb.pos
    have hroom := hb.room
    simp only [bisect]
    split
    · next h1 =>
      have hmid : base + size / 2 < l.length := by omega
      refine bisect_bracket hs fuel _ _ (by omega) ?_
      rw [probe_of_lt hmid]
      by_cases hgt : k < key l[base + size / 2]
      · -- the middle is above `k`, so is everything after it
        rw [if_neg (not_lt.mpr hgt.le), if_neg hgt.ne', if_pos rfl]
        refine ⟨by omega, by omega, hb.below, ?_⟩
        intro j hj hle
        exact lt_of_lt_of_le hgt (hs.getElem_le (by omega) hj)
      · have hle : key l[base + size / 2] ≤ k := not_lt.mp hgt
        rw [if_neg (by split_ifs <;> simp_all [le_iff_lt_or_eq])]
        exact ⟨by omega, by omega, Or.inr (fun _ => hle), fun j hj hj' => hb.above j hj (by omega)⟩
    · next h1 =>
      have : size = 1 := by omega
      exact this ▸ hb

/-- What a search answers: the position where bisection stops, or the one behind it. -/
theorem search_answers (k : κ) (hs : Ordered key l) :
    (l = [] ∧ search key k l = .error 0) ∨ ∃ (base : Nat) (hbase : base < l.length), Bracket key k l 1 base ∧
      search key k l = if key l[base] < k then .error (base + 1) else if key l[base] = k then .ok base else .error base := by
  unfold search
  by_cases hnil : l = []
  · exact Or.inl ⟨hnil, if_pos hnil⟩
  · have hlen : 0 < l.length := List.length_pos_of_ne_nil hnil
    have hb := bisect_bracket (k := k) hs l.length l.length 0 (Nat.le_refl _)
      ⟨hlen, by omega, Or.inl rfl, fun j hj hj' => by omega⟩
    have hbase : bisect key k l l.length l.length 0 < l.length := by
      have := hb.room
      omega
    refine Or.inr ⟨_, hbase, hb, ?_⟩
    rw [if_neg hnil]
    simp only [probe_of_lt hbase]
    split_ifs <;> rfl

/-- A found position holds the key. -/
theorem search_ok {k : κ} {i : Nat} (h : search key k l = .ok i)
    (hs : Ordered key l) :
    ∃ l₁ e l₂, l = l₁ ++ e :: l₂ ∧ l₁.length = i ∧ key e = k := by
  rcases search_answers k hs with ⟨-, hsearch⟩ | ⟨base, hbase, hb, hsearch⟩
  · rw [hsearch] at h
    cases h
  · rw [hsearch] at h
    split_ifs at h with hlt heq
    obtain rfl := Except.ok.inj h
    refine ⟨l.take base, l[base], l.drop (base + 1), ?_, ?_, heq⟩
    · rw [List.getElem_cons_drop, List.take_append_drop]
    · rw [List.length_take]
      omega

/-- Cutting the list at `i` needs only the bounds on either side of the cut. -/
theorem exists_cut {k : κ} {i : Nat} (hi : i ≤ l.length)
    (hlo : ∀ j (hj : j < l.length), j < i → key l[j] < k) (hhi : ∀ j (hj : j < l.length), i ≤ j → k < key l[j]) :
    ∃ l₁ l₂, l = l₁ ++ l₂ ∧ l₁.length = i ∧ (∀ e ∈ l₁, key e < k) ∧ (∀ e ∈ l₂, k < key e) := by
  refine ⟨l.take i, l.drop i, (List.take_append_drop i l).symm, by simp [hi], ?_, ?_⟩
  · intro e he
    obtain ⟨j, hj, rfl⟩ := List.mem_iff_getElem.mp he
    rw [List.length_take] at hj
    rw [List.getElem_take]
    exact hlo j (by omega) (by omega)
  · intro e he
    obtain ⟨j, hj, rfl⟩ := List.mem_iff_getElem.mp he
    rw [List.length_drop] at hj
    rw [List.getElem_drop]
    exact hhi (i + j) (by omega) (by omega)

/-- A missing key belongs between the smaller and the greater ones. -/
theorem search_error {k : κ} {i : Nat} (h : search key k l = .error i)
    (hs : Ordered key l) :
    ∃ l₁ l₂, l = l₁ ++ l₂ ∧ l₁.length = i ∧ (∀ e ∈ l₁, key e < k) ∧ (∀ e ∈ l₂, k < key e) := by
  rcases search_answers k hs with ⟨hnil, hsearch⟩ | ⟨base, hbase, hb, hsearch⟩
  · rw [hsearch] at h
    cases h
    exact ⟨[], [], by simp [hnil], rfl, by simp, by simp⟩
  · rw [hsearch] at h
    split_ifs at h with hlt heq
    · obtain rfl := Except.error.inj h
      refine exists_cut (by omega) ?_ (fun j hj hij => hb.above j hj hij)
      intro j hj hij
      exact lt_of_le_of_lt (hs.getElem_le (by omega) hbase) hlt
    · obtain rfl := Except.error.inj h
      have hgt : k < key l[base] := lt_of_le_of_ne (not_lt.mp hlt) (Ne.symm heq)
      have h0 : base = 0 := by
        rcases hb.below with h0 | h0
        · exact h0
        · exact absurd (h0 hbase) (not_le.mpr hgt)
      subst h0
      refine exists_cut (by omega) (fun j _ hij => by omega) ?_
      intro j hj _
      exact lt_of_lt_of_le hgt (hs.getElem_le (by omega) hj)

/-! Lookups. -/

theorem find_eq_none {k : κ} : find key k l = none ↔ ∀ e ∈ l, key e ≠ k := by
  simp [find]

/-- In a strictly ordered list an element is what its own key finds. -/
theorem find_of_mem (hs : Strict key l) {e : ε} (he : e ∈ l) :
    find key (key e) l = some e := by
  induction l with
  | nil => cases he
  | cons a l ih =>
    obtain ⟨ha, hl⟩ := List.pairwise_cons.mp hs
    rcases List.mem_cons.mp he with rfl | he
    · simp [find]
    · have hne : key a ≠ key e := ne_of_lt (ha e he)
      simpa [find, hne] using ih hl he

theorem find_append_cons_self {l₁ l₂ : List ε} {e : ε} (h : ∀ a ∈ l₁, key a ≠ key e) :
    find key (key e) (l₁ ++ e :: l₂) = some e := by
  have h1 : find key (key e) l₁ = none := find_eq_none.mpr h
  simp only [find] at h1 ⊢
  rw [List.find?_append, h1]
  simp

theorem find_append_cons_ne {l₁ l₂ : List ε} {e : ε} {k : κ} (h : key e ≠ k) :
    find key k (l₁ ++ e :: l₂) = find key k (l₁ ++ l₂) := by
  simp [find, List.find?_append, h]

theorem Strict.split {l₁ l₂ : List ε} {e : ε} (hs : Strict key (l₁ ++ e :: l₂)) :
    (∀ a ∈ l₁, key a < key e) ∧ (∀ b ∈ l₂, key e < key b) ∧ Strict key (l₁ ++ l₂) := by
  obtain ⟨h1, h2, h12⟩ := List.pairwise_append.mp hs
  obtain ⟨he, h2'⟩ := List.pairwise_cons.mp h2
  refine ⟨fun a ha => h12 a ha e List.mem_cons_self, he, ?_⟩
  exact List.pairwise_append.mpr ⟨h1, h2', fun a ha b hb => h12 a ha b (List.mem_cons_of_mem e hb)⟩

/-! Edits at the cut that the search returns. -/

variable (key)

/-- Replace the element with the key of `e`, or insert `e` where it belongs. -/
def put (e : ε) (l : List ε) : List ε :=
  match search key (key e) l with
  | .ok i => l.set i e
  | .error i => l.insertIdx i e

/-- Apply `f` to the element with key `k`, if there is one. -/
def edit (k : κ) (f : ε → ε) (l : List ε) : List ε :=
  match search key k l with
  | .ok i => l.modify i f
  | .error _ => l

/-- Delete the element with key `k`, if there is one. -/
def remove (k : κ) (l : List ε) : List ε :=
  match search key k l with
  | .ok i => l.eraseIdx i
  | .error _ => l

variable {key}

theorem set_split (l₁ l₂ : List ε) (a e : ε) : (l₁ ++ a :: l₂).set l₁.length e = l₁ ++ e :: l₂ := by
  rw [List.set_append_right _ _ (Nat.le_refl _)]; simp

theorem insertIdx_split (l₁ l₂ : List ε) (e : ε) :
    (l₁ ++ l₂).insertIdx l₁.length e = l₁ ++ e :: l₂ := by
  induction l₁ with
  | nil => simp
  | cons a l₁ ih => simpa using ih

theorem modify_split (l₁ l₂ : List ε) (a : ε) (f : ε → ε) :
    (l₁ ++ a :: l₂).modify l₁.length f = l₁ ++ f a :: l₂ := by
  rw [List.modify_eq_set_getElem?]
  simp

theorem eraseIdx_split (l₁ l₂ : List ε) (a : ε) :
    (l₁ ++ a :: l₂).eraseIdx l₁.length = l₁ ++ l₂ := by
  rw [List.eraseIdx_append_of_length_le (Nat.le_refl _)]; simp

/-- The two outcomes of a search, as cuts of the list. -/
theorem search_cases (hs : Ordered key l) (k : κ) :
    (∃ l₁ a l₂, l = l₁ ++ a :: l₂ ∧ key a = k ∧ search key k l = .ok l₁.length) ∨
    (∃ l₁ l₂, l = l₁ ++ l₂ ∧ (∀ e ∈ l₁, key e < k) ∧ (∀ e ∈ l₂, k < key e) ∧
      search key k l = .error l₁.length) := by
  cases h : search key k l with
  | ok i =>
    obtain ⟨l₁, a, l₂, hl, rfl, hk⟩ := search_ok h hs
    exact Or.inl ⟨l₁, a, l₂, hl, hk, rfl⟩
  | error i =>
    obtain ⟨l₁, l₂, hl, rfl, h1, h2⟩ := search_error h hs
    exact Or.inr ⟨l₁, l₂, hl, h1, h2, rfl⟩

theorem search_isOk (hs : Ordered key l) (k : κ) :
    (∃ i, search key k l = .ok i) ↔ ∃ e ∈ l, key e = k := by
  rcases search_cases hs k with ⟨l₁, a, l₂, rfl, ha, h⟩ | ⟨l₁, l₂, rfl, h1, h2, h⟩
  · simp only [h, Except.ok.injEq, exists_eq', true_iff]
    exact ⟨a, by simp, ha⟩
  · simp only [h, reduceCtorEq, exists_false, false_iff]
    rintro ⟨e, he, rfl⟩
    rcases List.mem_append.mp he with he | he
    · exact lt_irrefl _ (h1 e he)
    · exact lt_irrefl _ (h2 e he)

theorem put_cases (hs : Ordered key l) (e : ε) :
    (∃ l₁ a l₂, l = l₁ ++ a :: l₂ ∧ key a = key e ∧ put key e l = l₁ ++ e :: l₂) ∨
    (∃ l₁ l₂, l = l₁ ++ l₂ ∧ (∀ a ∈ l₁, key a < key e) ∧ (∀ a ∈ l₂, key e < key a) ∧
      put key e l = l₁ ++ e :: l₂) := by
  rcases search_cases hs (key e) with ⟨l₁, a, l₂, rfl, ha, h⟩ | ⟨l₁, l₂, rfl, h1, h2, h⟩
  · exact Or.inl ⟨l₁, a, l₂, rfl, ha, by simp only [put, h, set_split]⟩
  · exact Or.inr ⟨l₁, l₂, rfl, h1, h2, by simp only [put, h, insertIdx_split]⟩

theorem remove_cases (hs : Ordered key l) (k : κ) :
    (∃ l₁ a l₂, l = l₁ ++ a :: l₂ ∧ key a = k ∧ remove key k l = l₁ ++ l₂) ∨
    ((∀ a ∈ l, key a ≠ k) ∧ remove key k l = l) := by
  rcases search_cases hs k with ⟨l₁, a, l₂, rfl, ha, h⟩ | ⟨l₁, l₂, rfl, h1, h2, h⟩
  · exact Or.inl ⟨l₁, a, l₂, rfl, ha, by simp only [remove, h, eraseIdx_split]⟩
  · refine Or.inr ⟨?_, by simp only [remove, h]⟩
    intro a ha
    rcases List.mem_append.mp ha with ha | ha
    · exact ne_of_lt (h1 a ha)
    · exact ne_of_gt (h2 a ha)

theorem map_edit_of_ne {k : κ} (f : ε → ε) (h : ∀ a ∈ l, key a ≠ k) :
    l.map (fun a => if key a = k then f a else a) = l :=
  (List.map_congr_left (fun a ha => if_neg (h a ha))).trans (List.map_id l)

/-- On a strictly ordered list an edit is a map that only changes the elements with the key. -/
theorem edit_eq_map (hs : Strict key l) (k : κ) (f : ε → ε) :
    edit key k f l = l.map (fun a => if key a = k then f a else a) := by
  rcases search_cases hs.ordered k with ⟨l₁, a, l₂, rfl, rfl, h⟩ | ⟨l₁, l₂, rfl, h1, h2, h⟩
  · obtain ⟨hlo, hhi, -⟩ := hs.split
    simp only [edit, h, modify_split, List.map_append, List.map_cons, if_pos,
      map_edit_of_ne f (fun b hb => ne_of_lt (hlo b hb)),
      map_edit_of_ne f (fun b hb => ne_of_gt (hhi b hb))]
  · have hne : ∀ a ∈ l₁ ++ l₂, key a ≠ k := fun a ha =>
      (List.mem_append.mp ha).elim (fun ha => ne_of_lt (h1 a ha)) (fun ha => ne_of_gt (h2 a ha))
    simp only [edit, h]
    exact (map_edit_of_ne f hne).symm

/-! What the edits keep: the order, and every key that was there. -/

theorem mem_put (hs : Ordered key l) {e a : ε} (h : a ∈ put key e l) :
    a = e ∨ a ∈ l := by
  rcases put_cases hs e with ⟨l₁, b, l₂, rfl, _, hp⟩ | ⟨l₁, l₂, rfl, _, _, hp⟩ <;>
    · rw [hp] at h
      simp only [List.mem_append, List.mem_cons] at h ⊢
      tauto

theorem put_self_mem (hs : Ordered key l) (e : ε) : e ∈ put key e l := by
  rcases put_cases hs e with ⟨l₁, b, l₂, rfl, _, hp⟩ | ⟨l₁, l₂, rfl, _, _, hp⟩ <;> simp [hp]

theorem put_keeps_keys (hs : Ordered key l) {e a : ε} (ha : a ∈ l) :
    ∃ b ∈ put key e l, key b = key a := by
  rcases put_cases hs e with ⟨l₁, b, l₂, rfl, hb, hp⟩ | ⟨l₁, l₂, rfl, _, _, hp⟩
  · rw [hp]
    simp only [List.mem_append, List.mem_cons] at ha ⊢
    rcases ha with ha | rfl | ha
    · exact ⟨a, Or.inl ha, rfl⟩
    · exact ⟨e, Or.inr (Or.inl rfl), hb.symm⟩
    · exact ⟨a, Or.inr (Or.inr ha), rfl⟩
  · refine ⟨a, ?_, rfl⟩
    rw [hp]
    simp only [List.mem_append, List.mem_cons] at ha ⊢
    tauto

theorem put_ordered (hs : Ordered key l) (e : ε) : Ordered key (put key e l) := by
  unfold Ordered at hs ⊢
  rcases put_cases hs e with ⟨l₁, b, l₂, rfl, hb, hp⟩ | ⟨l₁, l₂, rfl, h1, h2, hp⟩
  · rw [hp]
    simpa [List.pairwise_append, hb] using hs
  · rw [hp]
    obtain ⟨p1, p2, p12⟩ := List.pairwise_append.mp hs
    refine List.pairwise_append.mpr ⟨p1, List.pairwise_cons.mpr ⟨fun a ha => (h2 a ha).le, p2⟩, ?_⟩
    intro a ha b hb
    rcases List.mem_cons.mp hb with rfl | hb
    · exact (h1 a ha).le
    · exact p12 a ha b hb

theorem put_strict (hs : Strict key l) (e : ε) : Strict key (put key e l) := by
  rcases put_cases hs.ordered e with ⟨l₁, b, l₂, rfl, hb, hp⟩ | ⟨l₁, l₂, rfl, h1, h2, hp⟩
  · rw [hp]
    unfold Strict at hs ⊢
    simpa [List.pairwise_append, hb] using hs
  · rw [hp]
    obtain ⟨p1, p2, p12⟩ := List.pairwise_append.mp hs
    refine List.pairwise_append.mpr ⟨p1, List.pairwise_cons.mpr ⟨h2, p2⟩, ?_⟩
    intro a ha b hb
    rcases List.mem_cons.mp hb with rfl | hb
    · exact h1 a ha
    · exact p12 a ha b hb

theorem ordered_of_map_key {l l' : List ε} (h : l'.map key = l.map key) (hs : Ordered key l) :
    Ordered key l' := by
  unfold Ordered at hs ⊢
  rw [← List.pairwise_map (f := key) (R := (· ≤ ·))] at hs ⊢
  rwa [h]

theorem remove_sublist (hs : Ordered key l) (k : κ) : (remove key k l).Sublist l := by
  rcases remove_cases hs k with ⟨l₁, b, l₂, rfl, _, hm⟩ | ⟨_, hm⟩
  · rw [hm]; exact (List.Sublist.refl l₁).append (List.sublist_cons_self b l₂)
  · rw [hm]

theorem mem_remove (hs : Ordered key l) {k : κ} {a : ε} (ha : a ∈ l)
    (hk : key a ≠ k) : a ∈ remove key k l := by
  rcases remove_cases hs k with ⟨l₁, b, l₂, rfl, hb, hm⟩ | ⟨_, hm⟩
  · rw [hm]
    simp only [List.mem_append, List.mem_cons] at ha ⊢
    rcases ha with ha | rfl | ha
    · exact Or.inl ha
    · exact absurd hb hk
    · exact Or.inr ha
  · rwa [hm]

/-! Lookups after an edit. -/

theorem find_put (hs : Strict key l) (e : ε) (k : κ) :
    find key k (put key e l) = if k = key e then some e else find key k l := by
  rcases put_cases hs.ordered e with ⟨l₁, b, l₂, rfl, hb, hp⟩ | ⟨l₁, l₂, rfl, h1, h2, hp⟩
  · rw [hp]
    split
    · next h =>
      subst h
      exact find_append_cons_self (fun a ha => ne_of_lt (hb ▸ hs.split.1 a ha))
    · next h =>
      rw [find_append_cons_ne (Ne.symm h), find_append_cons_ne (by rw [hb]; exact Ne.symm h)]
  · rw [hp]
    split
    · next h =>
      subst h
      exact find_append_cons_self (fun a ha => ne_of_lt (h1 a ha))
    · next h => exact find_append_cons_ne (Ne.symm h)

theorem find_remove (hs : Strict key l) (k k' : κ) :
    find key k' (remove key k l) = if k' = k then none else find key k' l := by
  rcases remove_cases hs.ordered k with ⟨l₁, b, l₂, rfl, hb, hm⟩ | ⟨hne, hm⟩
  · rw [hm]
    split
    · next h =>
      subst h hb
      refine find_eq_none.mpr (fun a ha => ?_)
      rcases List.mem_append.mp ha with ha | ha
      · exact ne_of_lt (hs.split.1 a ha)
      · exact ne_of_gt (hs.split.2.1 a ha)
    · next h => rw [find_append_cons_ne (by rw [hb]; exact Ne.symm h)]
  · rw [hm]
    split
    · next h => subst h; exact find_eq_none.mpr hne
    · rfl

/-- On a strictly ordered list a search is a lookup. -/
theorem getElem?_search (hs : Strict key l) (k : κ) :
    (match search key k l with
      | .ok i => l[i]?
      | .error _ => none) = find key k l := by
  rcases search_cases hs.ordered k with ⟨l₁, a, l₂, rfl, ha, h⟩ | ⟨l₁, l₂, rfl, h1, h2, h⟩
  · subst ha
    rw [h, find_append_cons_self (fun b hb => ne_of_lt (hs.split.1 b hb))]
    simp
  · rw [h]
    refine (find_eq_none.mpr (fun a ha => ?_)).symm
    rcases List.mem_append.mp ha with ha | ha
    · exact ne_of_lt (h1 a ha)
    · exact ne_of_gt (h2 a ha)

end SortedVec
