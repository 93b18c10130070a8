import Mathlib.Data.List.Basic

/- Lazy iterators: a state, and a call that answers with the next item, with `none` at the end,
   or not at all. `Yields` is the invariant rule: an invariant that knows how many calls there
   have been, and of which a call keeps the count. `resumes_iff` is for an iterator that is
   rebuilt from a record of its state: it goes on exactly where what the rebuilt one yields is
   what was left.

   The second half is about lists that are read a page at a time: `fetched` items have been read
   when so many have been handed out, and `ahead` are those that wait to be. `consumed` items have
   been looked at when so many have been found. -/
namespace Lazy
variable {σ α : Type}

/-- The items of a number of calls, and the state then. -/
def calls (next : σ → Option (Option α × σ)) : Nat → σ → Option (List α × σ)
  | 0, s => some ([], s)
  | n + 1, s => do
    let (item, s) ← next s
    let (items, s) ← calls next n s
    return (item.toList ++ items, s)

/-- In a state with `I n`, so many items have been handed out. -/
def Yields (next : σ → Option (Option α × σ)) (items : List α) (I : Nat → σ → Prop) : Prop :=
  ∀ n s, I n s → ∃ s', next s = some (items[n]?, s') ∧ I (n + 1) s'

/-- After `n` calls, an iterator rebuilt from the state yields what is left, however often it is
called. -/
def Resumes (next : σ → Option (Option α × σ)) (rebuild : σ → Option σ) (items : List α) (s : σ) (n : Nat) : Prop :=
  ∃ s' r, calls next n s = some (items.take n, s') ∧ rebuild s' = some r ∧
    ∀ m, ∃ r', calls next m r = some ((items.drop n).take m, r')

section
variable {next : σ → Option (Option α × σ)} {items : List α} {I : Nat → σ → Prop}

theorem Yields.calls (h : Yields next items I) (m : Nat) : ∀ {n : Nat} {s : σ}, I n s →
    ∃ s', calls next m s = some ((items.drop n).take m, s') ∧ I (n + m) s' := by
  induction m with
  | zero => exact fun {n s} hs => ⟨s, by rw [List.take_zero]; rfl, hs⟩
  | succ m ih =>
    intro n s hs
    obtain ⟨s₁, hnext, hs₁⟩ := h n s hs
    obtain ⟨s₂, hcalls, hs₂⟩ := ih hs₁
    refine ⟨s₂, ?_, by rwa [Nat.add_assoc, Nat.add_comm 1 m] at hs₂⟩
    have hitems : (items.drop n).take (m + 1) = items[n]?.toList ++ (items.drop (n + 1)).take m := by
      cases hget : items[n]? with
      | none =>
        have hlen := List.getElem?_eq_none_iff.mp hget
        rw [List.drop_eq_nil_of_le hlen, List.drop_eq_nil_of_le (by omega)]
        simp
      | some a =>
        obtain ⟨hlt, rfl⟩ := List.getElem?_eq_some_iff.mp hget
        rw [List.drop_eq_getElem_cons hlt, List.take_succ_cons]
        rfl
    simp [Lazy.calls, hnext, hcalls, hitems]

/-- **Going on from a record.** The rebuilt iterator yields `rest`; so it goes on where the first
one stopped exactly if that is what was left. -/
theorem resumes_iff {rebuild : σ → Option σ} {s : σ} {n : Nat} {rest : List α} (h : Yields next items I) (hs : I 0 s)
    (hrest : ∀ s', I n s' → ∃ r J, rebuild s' = some r ∧ Yields next rest J ∧ J 0 r) :
    Resumes next rebuild items s n ↔ rest = items.drop n := by
  obtain ⟨s', hcalls, hs'⟩ := h.calls n hs
  rw [Nat.zero_add] at hs'
  rw [List.drop_zero] at hcalls
  obtain ⟨r, J, hbuilt, hyields, hr⟩ := hrest s' hs'
  constructor
  · rintro ⟨s₁, r₁, hcalls₁, hbuilt₁, hall⟩
    rw [hcalls] at hcalls₁
    cases hcalls₁
    rw [hbuilt] at hbuilt₁
    cases hbuilt₁
    obtain ⟨r', hleft⟩ := hall (rest.length + (items.drop n).length)
    obtain ⟨r'', hgot, -⟩ := hyields.calls (rest.length + (items.drop n).length) hr
    rw [hgot, List.drop_zero, List.take_of_length_le (by omega), List.take_of_length_le (by omega)] at hleft
    exact congrArg Prod.fst (Option.some.inj hleft)
  · intro heq
    refine ⟨s', r, hcalls, hbuilt, fun m => ?_⟩
    obtain ⟨r', hgot, -⟩ := hyields.calls m hr
    rw [List.drop_zero, heq] at hgot
    exact ⟨r', hgot⟩

end

/-! Pages. -/

/-- So many items have been read, in whole pages, when `n` have been handed out. -/
def fetched (size : Nat) : Nat → Nat
  | 0 => 0
  | n + 1 => if n < fetched size n then fetched size n else fetched size n + size

/-- What has been read and not handed out. -/
def ahead (size : Nat) (items : List α) (n : Nat) : List α := (items.take (fetched size n)).drop n

section
variable {size : Nat} (hpos : 0 < size)
include hpos

theorem le_fetched (n : Nat) : n ≤ fetched size n := by
  induction n with
  | zero => exact Nat.zero_le _
  | succ n ih =>
    unfold fetched
    split <;> omega

theorem fetched_lt (n : Nat) : fetched size n < n + size := by
  induction n with
  | zero => simpa [fetched] using hpos
  | succ n ih =>
    have hle := le_fetched hpos n
    unfold fetched
    split <;> omega

omit hpos in
theorem dvd_fetched (n : Nat) : size ∣ fetched size n := by
  induction n with
  | zero => exact Nat.dvd_zero size
  | succ n ih =>
    unfold fetched
    split
    · exact ih
    · exact Nat.dvd_add ih (Nat.dvd_refl size)

/-- At the end of a page, and only there, nothing more has been read. -/
theorem fetched_eq_iff (n : Nat) : fetched size n = n ↔ size ∣ n := by
  have hle := le_fetched hpos n
  have hlt := fetched_lt hpos n
  have hdvd : size ∣ fetched size n := dvd_fetched n
  constructor
  · intro h
    rwa [h] at hdvd
  · intro h
    have hdiff : size ∣ fetched size n - n := Nat.dvd_sub hdvd h
    have hzero := Nat.eq_zero_of_dvd_of_lt hdiff (by omega)
    omega

theorem ahead_eq_nil_iff (items : List α) (n : Nat) : ahead size items n = [] ↔ size ∣ n ∨ items.length ≤ n := by
  have hle := le_fetched hpos n
  unfold ahead
  rw [List.drop_eq_nil_iff, List.length_take, ← fetched_eq_iff hpos]
  omega

theorem ahead_append (items : List α) (n : Nat) :
    ahead size items n ++ items.drop (fetched size n) = items.drop n := by
  have hle := le_fetched hpos n
  have hsplit := List.take_append_drop (fetched size n) items
  have hdrop : (items.take (fetched size n) ++ items.drop (fetched size n)).drop n = items.drop n := by rw [hsplit]
  unfold ahead
  by_cases hlen : n ≤ (items.take (fetched size n)).length
  · rw [← hdrop, List.drop_append_of_le_length hlen]
  · rw [List.length_take] at hlen
    rw [List.drop_eq_nil_of_le (by rw [List.length_take]; omega), List.drop_eq_nil_of_le (by omega),
      List.drop_eq_nil_of_le (by omega)]
    rfl

end

/-- Going on at the next page skips no item with `p` exactly if none of them is ahead. -/
theorem filter_fetched_iff {size : Nat} (hpos : 0 < size) (p : α → Bool) (items more : List α) (n : Nat) :
    (items.drop (fetched size n)).filter p ++ more = (items.drop n).filter p ++ more ↔
      ∀ a ∈ ahead size items n, p a = false := by
  rw [← ahead_append hpos items n, List.filter_append, List.append_assoc, List.self_eq_append_left,
    List.filter_eq_nil_iff]
  simp

/-! Looking for items. -/

/-- So many items have been looked at when `m` of those with `p` have been found, all of them if
there are fewer. -/
def consumed (p : α → Bool) (items : List α) : Nat → Nat
  | 0 => 0
  | m + 1 => min items.length (consumed p items m + (items.drop (consumed p items m)).findIdx p + 1)

section
variable (p : α → Bool) (items : List α)

theorem consumed_le (m : Nat) : consumed p items m ≤ items.length := by
  cases m with
  | zero => exact Nat.zero_le _
  | succ m => exact Nat.min_le_left _ _

theorem tail_filter (items : List α) : (items.filter p).tail = (items.drop (items.findIdx p + 1)).filter p := by
  induction items with
  | nil => rfl
  | cons a items ih =>
    by_cases ha : p a = true
    · rw [List.filter_cons_of_pos ha, List.findIdx_cons, ha]
      rfl
    · rw [Bool.not_eq_true] at ha
      rw [List.filter_cons_of_neg (by simp [ha]), ih, List.findIdx_cons, ha]
      rfl

/-- What is left to be found. -/
theorem drop_filter (m : Nat) : (items.filter p).drop m = (items.drop (consumed p items m)).filter p := by
  induction m with
  | zero => rfl
  | succ m ih =>
    have hstep : (items.filter p).drop (m + 1) =
        (items.drop (consumed p items m + (items.drop (consumed p items m)).findIdx p + 1)).filter p := by
      rw [← List.drop_drop, ih, List.drop_one, tail_filter, List.drop_drop, Nat.add_assoc]
    rw [hstep, consumed]
    by_cases hlen : items.length ≤ consumed p items m + (items.drop (consumed p items m)).findIdx p + 1
    · rw [Nat.min_eq_left hlen, List.drop_eq_nil_of_le hlen, List.drop_length]
    · rw [Nat.min_eq_right (by omega)]

theorem getElem?_filter (m : Nat) : (items.filter p)[m]? = (items.drop (consumed p items m)).find? p := by
  rw [← List.head?_drop, drop_filter, List.head?_filter]

variable {p items}

theorem consumed_found {m : Nat} {a : α} (h : (items.drop (consumed p items m)).find? p = some a) :
    consumed p items (m + 1) = consumed p items m + (items.drop (consumed p items m)).findIdx p + 1 := by
  have hlt : (items.drop (consumed p items m)).findIdx p < (items.drop (consumed p items m)).length :=
    List.findIdx_lt_length_of_exists ⟨a, List.mem_of_find?_eq_some h, List.find?_some h⟩
  rw [List.length_drop] at hlt
  rw [consumed, Nat.min_eq_right (by omega)]

theorem consumed_over {m : Nat} (h : (items.drop (consumed p items m)).find? p = none) :
    consumed p items (m + 1) = items.length := by
  have hall : (items.drop (consumed p items m)).findIdx p = (items.drop (consumed p items m)).length :=
    List.findIdx_eq_length_of_false (by simpa using h)
  have hle := consumed_le p items m
  rw [List.length_drop] at hall
  rw [consumed, hall, Nat.min_eq_left (by omega)]

end

end Lazy
