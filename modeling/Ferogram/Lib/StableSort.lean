import Mathlib.Data.List.Sort
import Mathlib.Order.Basic

/- Stable sorting by a key. `sortByKey key l` orders `l` by `key` and keeps
   elements of equal key in the order they had, as a stable `sort_by_key` does.
   Beside the usual facts (a permutation, ordered by key) the one that matters
   for per-key reasoning is `sortByKey_filter`: sorting commutes with dropping
   elements, so the sorted order of a sub-list can be read off the whole. -/
namespace StableSort

variable {α κ : Type} [LE κ] [DecidableLE κ] (key : α → κ)

/-- `l` ordered by `key`; equal keys keep their order. -/
def sortByKey (l : List α) : List α := l.insertionSort (fun a b => key a ≤ key b)

theorem sortByKey_perm (l : List α) : (sortByKey key l).Perm l :=
  List.perm_insertionSort _ l

@[simp] theorem mem_sortByKey {l : List α} {a : α} : a ∈ sortByKey key l ↔ a ∈ l :=
  (sortByKey_perm key l).mem_iff

@[simp] theorem sortByKey_nil : sortByKey key ([] : List α) = [] := rfl

/-- Inserting an element that is below everything puts it first. -/
theorem orderedInsert_of_le {a : α} {l : List α} (h : ∀ b ∈ l, key a ≤ key b) :
    l.orderedInsert (fun a b => key a ≤ key b) a = a :: l := by
  cases l with
  | nil => rfl
  | cons b l => simp only [List.orderedInsert, if_pos (h b List.mem_cons_self)]

variable [Std.IsLinearOrder κ]

instance keyTotal : Std.Total (fun a b : α => key a ≤ key b) := ⟨fun _ _ => Std.le_total⟩

instance keyTrans : IsTrans α (fun a b : α => key a ≤ key b) := ⟨fun _ _ _ => Std.le_trans⟩

theorem sortByKey_pairwise (l : List α) : (sortByKey key l).Pairwise (fun a b => key a ≤ key b) :=
  List.pairwise_insertionSort _ l

/-- Dropping elements from an ordered list commutes with inserting one. -/
theorem orderedInsert_filter (p : α → Bool) (a : α) {l : List α}
    (hs : l.Pairwise (fun a b => key a ≤ key b)) :
    (l.orderedInsert (fun a b => key a ≤ key b) a).filter p =
      if p a then (l.filter p).orderedInsert (fun a b => key a ≤ key b) a else l.filter p := by
  induction l with
  | nil => cases hp : p a <;> simp [hp]
  | cons b l ih =>
    obtain ⟨hb, hl⟩ := List.pairwise_cons.mp hs
    simp only [List.orderedInsert]
    by_cases hab : key a ≤ key b
    · -- `a` goes first here, and everything after `b` is above it too
      rw [if_pos hab]
      cases hp : p a
      · rw [List.filter_cons_of_neg (by simp [hp])]; simp
      · rw [List.filter_cons_of_pos hp]
        have hle : ∀ c ∈ (b :: l).filter p, key a ≤ key c := by
          intro c hc
          rcases List.mem_cons.mp (List.mem_filter.mp hc).1 with rfl | hc
          · exact hab
          · exact Std.le_trans hab (hb c hc)
        rw [if_pos rfl, orderedInsert_of_le key hle]
    · rw [if_neg hab]
      cases hpb : p b
      · rw [List.filter_cons_of_neg (by simp [hpb]), List.filter_cons_of_neg (by simp [hpb]), ih hl]
      · rw [List.filter_cons_of_pos hpb, List.filter_cons_of_pos hpb, ih hl]
        cases hp : p a
        · simp
        · simp [List.orderedInsert, hab]

/-- Sorting commutes with dropping elements. -/
theorem sortByKey_filter (p : α → Bool) (l : List α) :
    (sortByKey key l).filter p = sortByKey key (l.filter p) := by
  induction l with
  | nil => rfl
  | cons a l ih =>
    have hins : sortByKey key (a :: l) =
        (sortByKey key l).orderedInsert (fun a b => key a ≤ key b) a := rfl
    rw [hins, orderedInsert_filter key p a (sortByKey_pairwise key l), ih]
    cases hp : p a
    · rw [List.filter_cons_of_neg (by simp [hp])]; simp
    · rw [List.filter_cons_of_pos hp]; rfl

/-- Elements of one key are not moved. -/
theorem sortByKey_of_const {key : α → κ} {k : κ} {l : List α} (h : ∀ a ∈ l, key a = k) :
    sortByKey key l = l := by
  induction l with
  | nil => rfl
  | cons a l ih =>
    have htail : sortByKey key l = l := ih fun b hb => h b (List.mem_cons_of_mem _ hb)
    have hins : sortByKey key (a :: l) =
        (sortByKey key l).orderedInsert (fun a b => key a ≤ key b) a := rfl
    rw [hins, htail]
    apply orderedInsert_of_le
    intro b hb
    rw [h a List.mem_cons_self, h b (List.mem_cons_of_mem _ hb)]
    exact Std.le_refl k

end StableSort
