import Mathlib.Data.List.AList
import Mathlib.Data.List.Induction

/- Maps by key, as Mathlib's association lists with one type of value, and the writes of
   a hash map that look first: `orInsert` leaves what is there, `put` writes a value over
   it unless the value is of the kind that must not replace one (`weak`).

   `lookup` after a write is an `if` on the key. The entries come out in any order, and
   the first match in them is the lookup (`findSome?_entries`). -/

/-- A map from keys to values. -/
abbrev Assoc (κ α : Type) := AList (fun _ : κ => α)

namespace Assoc
variable {κ α β : Type} [DecidableEq κ]

theorem lookup_insert_if (k k' : κ) (a : α) (m : Assoc κ α) :
    AList.lookup k (m.insert k' a) = if k = k' then some a else AList.lookup k m := by
  by_cases h : k = k'
  · rw [if_pos h, h, AList.lookup_insert]
  · rw [if_neg h, AList.lookup_insert_ne h]

/-- A key with a value is in the map. -/
theorem mem_of_lookup {k : κ} {a : α} {m : Assoc κ α} (h : AList.lookup k m = some a) : k ∈ m :=
  AList.lookup_isSome.mp (by rw [h]; rfl)

theorem lookup_of_mem {k : κ} {m : Assoc κ α} (h : k ∈ m) : ∃ a, AList.lookup k m = some a :=
  Option.isSome_iff_exists.mp (AList.lookup_isSome.mpr h)

/-- `entry(k).or_insert(a)`. -/
def orInsert (k : κ) (a : α) (m : Assoc κ α) : Assoc κ α := if k ∈ m then m else m.insert k a

theorem lookup_orInsert (k k' : κ) (a : α) (m : Assoc κ α) :
    AList.lookup k (orInsert k' a m) = (AList.lookup k m).or (if k = k' then some a else none) := by
  unfold orInsert
  by_cases hmem : k' ∈ m
  · rw [if_pos hmem]
    by_cases h : k = k'
    · obtain ⟨b, hb⟩ := lookup_of_mem hmem
      rw [h, hb, Option.some_or]
    · rw [if_neg h, Option.or_none]
  · rw [if_neg hmem, lookup_insert_if]
    by_cases h : k = k'
    · rw [if_pos h, if_pos h, h, AList.lookup_eq_none.mpr hmem, Option.none_or]
    · rw [if_neg h, if_neg h, Option.or_none]

theorem mem_orInsert {k k' : κ} {a : α} {m : Assoc κ α} : k ∈ orInsert k' a m ↔ k = k' ∨ k ∈ m := by
  unfold orInsert
  by_cases hmem : k' ∈ m
  · rw [if_pos hmem]
    constructor
    · exact Or.inr
    · rintro (rfl | h)
      · exact hmem
      · exact h
  · rw [if_neg hmem, AList.mem_insert]

/-- A value that is `weak` is written only where there is none. -/
def put (weak : Prop) [Decidable weak] (k : κ) (a : α) (m : Assoc κ α) : Assoc κ α :=
  if weak then orInsert k a m else m.insert k a

theorem mem_put {weak : Prop} [Decidable weak] {k k' : κ} {a : α} {m : Assoc κ α} :
    k ∈ put weak k' a m ↔ k = k' ∨ k ∈ m := by
  unfold put
  by_cases h : weak
  · rw [if_pos h, mem_orInsert]
  · rw [if_neg h, AList.mem_insert]

theorem lookup_put_ne {weak : Prop} [Decidable weak] {k k' : κ} (h : k ≠ k') (a : α) (m : Assoc κ α) :
    AList.lookup k (put weak k' a m) = AList.lookup k m := by
  unfold put
  by_cases hw : weak
  · rw [if_pos hw, lookup_orInsert, if_neg h, Option.or_none]
  · rw [if_neg hw, AList.lookup_insert_ne h]

/-- What is there stays unless a value that is not weak takes its place. -/
theorem lookup_put_self (weak : Prop) [Decidable weak] (k : κ) (a : α) (m : Assoc κ α) :
    (¬ weak ∧ AList.lookup k (put weak k a m) = some a) ∨
    (weak ∧ AList.lookup k (put weak k a m) = (AList.lookup k m).or (some a)) := by
  unfold put
  by_cases hw : weak
  · exact Or.inr ⟨hw, by rw [if_pos hw, lookup_orInsert, if_pos rfl]⟩
  · exact Or.inl ⟨hw, by rw [if_neg hw, AList.lookup_insert]⟩

/-- A map from pairs, of which a later one takes the place of an earlier one. -/
def collect (l : List (κ × α)) : Assoc κ α := l.foldl (fun m e => m.insert e.1 e.2) ∅

theorem collect_append_singleton (l : List (κ × α)) (e : κ × α) : collect (l ++ [e]) = (collect l).insert e.1 e.2 := by
  simp [collect]

/-- The value of a key is that of its last pair. -/
theorem lookup_collect (k : κ) (l : List (κ × α)) :
    AList.lookup k (collect l) = (l.reverse.find? fun e => e.1 = k).map Prod.snd := by
  induction l using List.reverseRecOn with
  | nil => rfl
  | append_singleton l e ih =>
    rw [collect_append_singleton, lookup_insert_if, List.reverse_concat, List.find?_cons]
    by_cases hk : k = e.1
    · simp [hk]
    · simp [hk, Ne.symm hk, ih]

theorem lookup_collect_eq_some_iff {k : κ} {a : α} {l : List (κ × α)} :
    AList.lookup k (collect l) = some a ↔ ∃ front back, l = front ++ (k, a) :: back ∧ ∀ e ∈ back, e.1 ≠ k := by
  rw [lookup_collect, Option.map_eq_some_iff]
  constructor
  · rintro ⟨⟨k', a'⟩, hfind, rfl⟩
    obtain ⟨hk, back, front, hl, hback⟩ := List.find?_eq_some_iff_append.mp hfind
    obtain rfl : k' = k := of_decide_eq_true hk
    refine ⟨front.reverse, back.reverse, ?_, fun e he => ?_⟩
    · rw [← List.reverse_reverse l, hl]
      simp
    · simpa using hback e (List.mem_reverse.mp he)
  · rintro ⟨front, back, rfl, hback⟩
    refine ⟨(k, a), List.find?_eq_some_iff_append.mpr ⟨decide_eq_true rfl, back.reverse, front.reverse, ?_, ?_⟩, rfl⟩
    · simp
    · intro e he
      simpa using hback e (List.mem_reverse.mp he)

/-- A loop of writes that leave what is there: the first one that has a value for the key
writes it. -/
theorem lookup_foldl_or {σ ι : Type} {step : σ → ι → σ} (look : σ → Option α) {value : ι → Option α}
    (h : ∀ s i, look (step s i) = (look s).or (value i)) (is : List ι) (s : σ) :
    look (is.foldl step s) = (look s).or (is.findSome? value) := by
  induction is generalizing s with
  | nil => rw [List.foldl_nil, List.findSome?_nil, Option.or_none]
  | cons i is ih =>
    rw [List.foldl_cons, ih, h, Option.or_assoc, List.findSome?_cons]
    cases value i with
    | none => rw [Option.none_or]
    | some a => rw [Option.some_or]

/-- The first match in the entries, in whatever order they come. -/
theorem findSome?_entries {m : Assoc κ α} {l : List (Sigma fun _ : κ => α)} (h : l.Perm m.entries) (k : κ)
    (f : α → Option β) : l.findSome? (fun e => if e.1 = k then f e.2 else none) = (AList.lookup k m).bind f := by
  have hkeys : l.NodupKeys := (List.perm_nodupKeys h).mpr m.nodupKeys
  have hlook : AList.lookup k m = l.dlookup k := (List.perm_dlookup k hkeys h).symm
  rw [hlook]
  clear hlook h
  induction l with
  | nil => rfl
  | cons e l ih =>
    obtain ⟨k', a⟩ := e
    rw [List.nodupKeys_cons] at hkeys
    by_cases hk : k' = k
    · obtain rfl := hk
      have hrest : l.dlookup k' = none := List.dlookup_eq_none.mpr hkeys.1
      have hnone := ih hkeys.2
      rw [hrest, Option.bind_none] at hnone
      rw [List.findSome?_cons, if_pos rfl, List.dlookup_cons_eq, Option.bind_some, hnone]
      cases f a <;> rfl
    · rw [List.findSome?_cons, if_neg hk, List.dlookup_cons_ne _ _ (Ne.symm hk)]
      exact ih hkeys.2

theorem exists_mem_iff {m : Assoc κ α} {l : List (Sigma fun _ : κ => α)} (h : l.Perm m.entries) :
    (∃ k, k ∈ m) ↔ l ≠ [] := by
  constructor
  · rintro ⟨k, hk⟩ rfl
    obtain ⟨a, ha⟩ := lookup_of_mem hk
    have hmem := h.mem_iff.mpr (AList.mem_lookup_iff.mp ha)
    cases hmem
  · intro hne
    obtain ⟨e, he⟩ := List.exists_mem_of_ne_nil l hne
    exact ⟨e.1, AList.mem_keys.mpr (List.mem_keys_of_mem (h.mem_iff.mp he))⟩

end Assoc
