import Ferogram.Lib.ReorderBuffer
import Ferogram.Msgbox.Invariant

/- The buffer of a possible gap is a reordering buffer: the closure that
   `process_updates` runs on an entry, with its three-way match on the counter
   and its drain loop, is one step of `Reorder.feed` (`feed_buffer`). -/
namespace Ferogram.Msgbox
open Ferogram.Tl MessageBoxes StableSort

/-- How a counter relates to where an update starts. -/
def ptsOrder (pts : Int32) (u : PtsUpdate) : Ordering :=
  if pts + u.info.count = u.info.pts then .eq
  else if u.info.pts < pts + u.info.count then .gt
  else .lt

/-- The counter after an update. -/
def ptsAfter (u : PtsUpdate) : Int32 := u.info.pts

/-- One update on a reordering buffer of updates. -/
def feedBuffer : Reorder.Buffer Int32 PtsUpdate → PtsUpdate →
    Reorder.Buffer Int32 PtsUpdate × List PtsUpdate :=
  Reorder.feed ptsOrder ptsAfter gapStack

namespace LiveEntry

/-- What is buffered. -/
def held (e : LiveEntry) : List PtsUpdate :=
  match e.possibleGap with
  | some gap => gap.updates
  | none => []

/-- The entry as a reordering buffer. -/
def buffer (e : LiveEntry) : Reorder.Buffer Int32 PtsUpdate := { pos := e.pts, held := e.held }

end LiveEntry

theorem gapStack_perm (l : List PtsUpdate) : (gapStack l).Perm l :=
  (List.reverse_perm _).trans (sortByKey_perm _ l)

theorem gapStack_nil : gapStack [] = [] := by simp [gapStack, sortByKey_nil]

theorem drain_eq : ∀ (l : List PtsUpdate) (pts : Int32),
    drain pts l = ((Reorder.drain ptsOrder ptsAfter pts l).1,
      (Reorder.drain ptsOrder ptsAfter pts l).2.1.map PtsUpdate.update,
      (Reorder.drain ptsOrder ptsAfter pts l).2.2)
  | [], _ => rfl
  | u :: l, pts => by
    unfold drain Reorder.drain
    by_cases heq : pts + u.info.count = u.info.pts
    · have hord : ptsOrder pts u = .eq := if_pos heq
      rw [if_pos heq, hord, drain_eq l]
      rfl
    · by_cases hgt : u.info.pts < pts + u.info.count
      · have hord : ptsOrder pts u = .gt := by rw [ptsOrder, if_neg heq, if_pos hgt]
        rw [if_neg heq, if_pos hgt, hord, drain_eq l]
      · have hord : ptsOrder pts u = .lt := by rw [ptsOrder, if_neg heq, if_neg hgt]
        rw [if_neg heq, if_neg hgt, hord]
        rfl

theorem accept_buffer (e : LiveEntry) (now deadline : Instant) (u : PtsUpdate) :
    (e.accept now deadline u).1.buffer = (Reorder.accept ptsOrder ptsAfter e.buffer u).1 ∧
    (e.accept now deadline u).2 =
      (Reorder.accept ptsOrder ptsAfter e.buffer u).2.map PtsUpdate.update := by
  have hpos : e.buffer.pos = e.pts := rfl
  unfold LiveEntry.accept Reorder.accept
  rw [hpos]
  by_cases heq : e.pts + u.info.count = u.info.pts
  · have hord : ptsOrder e.pts u = .eq := if_pos heq
    rw [if_pos heq, hord]
    exact ⟨rfl, rfl⟩
  · by_cases hgt : u.info.pts < e.pts + u.info.count
    · have hord : ptsOrder e.pts u = .gt := by rw [ptsOrder, if_neg heq, if_pos hgt]
      rw [if_neg heq, if_pos hgt, hord]
      exact ⟨rfl, rfl⟩
    · have hord : ptsOrder e.pts u = .lt := by rw [ptsOrder, if_neg heq, if_neg hgt]
      rw [if_neg heq, if_neg hgt, hord]
      refine ⟨?_, rfl⟩
      unfold LiveEntry.buffer LiveEntry.held
      cases e.possibleGap <;> rfl

theorem drainGap_buffer (e : LiveEntry) :
    e.drainGap.1.buffer =
      { pos := (Reorder.drain ptsOrder ptsAfter e.pts (gapStack e.held)).1,
        held := (Reorder.drain ptsOrder ptsAfter e.pts (gapStack e.held)).2.2.reverse } ∧
    e.drainGap.2.delivered =
      (Reorder.drain ptsOrder ptsAfter e.pts (gapStack e.held)).2.1.map PtsUpdate.update ∧
    (e.drainGap.1.possibleGap = none ↔ e.drainGap.1.held = []) := by
  unfold LiveEntry.drainGap LiveEntry.held
  cases hgap : e.possibleGap with
  | none => simp [gapStack_nil, Reorder.drain, LiveEntry.buffer, LiveEntry.held, hgap]
  | some gap =>
    simp only [drain_eq]
    split
    · next h => simp [LiveEntry.buffer, LiveEntry.held, h]
    · next h => simp [LiveEntry.buffer, LiveEntry.held, h]

/-- The closure of `process_updates` is one step of the reordering buffer. -/
theorem feed_buffer (e : LiveEntry) (now deadline : Instant) (u : PtsUpdate) :
    (e.feed now deadline u).1.buffer = (feedBuffer e.buffer u).1 ∧
    (e.feed now deadline u).2.delivered = (feedBuffer e.buffer u).2.map PtsUpdate.update := by
  obtain ⟨ha, hd⟩ := accept_buffer e now deadline u
  obtain ⟨hb, hr, -⟩ := drainGap_buffer (e.accept now deadline u).1
  have hpts : (e.accept now deadline u).1.pts =
      (Reorder.accept ptsOrder ptsAfter e.buffer u).1.pos := by rw [← ha]; rfl
  have hheld : (e.accept now deadline u).1.held =
      (Reorder.accept ptsOrder ptsAfter e.buffer u).1.held := by rw [← ha]; rfl
  rw [hpts, hheld] at hb hr
  unfold LiveEntry.feed feedBuffer Reorder.feed
  refine ⟨hb, ?_⟩
  dsimp only
  rw [hd, hr, List.map_append]

/-- A gap that is still open has something buffered. -/
theorem feed_possibleGap (e : LiveEntry) (now deadline : Instant) (u : PtsUpdate) :
    (e.feed now deadline u).1.possibleGap = none ↔ (e.feed now deadline u).1.held = [] :=
  (drainGap_buffer (e.accept now deadline u).1).2.2

/-! The counters as numbers, where the arithmetic does not overflow. -/

/-- The values of an `i32`. -/
def InRange (n : Int) : Prop := -2147483648 ≤ n ∧ n ≤ 2147483647

instance (n : Int) : Decidable (InRange n) := inferInstanceAs (Decidable (_ ∧ _))

theorem bmod_of_inRange {n : Int} (h : InRange n) : n.bmod 4294967296 = n := by
  obtain ⟨h1, h2⟩ := h
  exact Int.bmod_eq_of_le (by omega) (by omega)

theorem toInt_add_of_inRange {a b : Int32} (h : InRange (a.toInt + b.toInt)) :
    (a + b).toInt = a.toInt + b.toInt := by
  rw [Int32.toInt_add]
  exact bmod_of_inRange h

theorem toInt_sub_of_inRange {a b : Int32} (h : InRange (a.toInt - b.toInt)) :
    (a - b).toInt = a.toInt - b.toInt := by
  rw [Int32.toInt_sub]
  exact bmod_of_inRange h

theorem toInt_neg_of_inRange {a : Int32} (h : InRange (-a.toInt)) : (-a).toInt = -a.toInt := by
  rw [Int32.toInt_neg]
  exact bmod_of_inRange h

theorem inRange_toInt (a : Int32) : InRange a.toInt := by
  have h1 := a.le_toInt
  have h2 := a.toInt_lt
  exact ⟨by omega, by omega⟩

/-- Where an update starts. -/
def ptsStart (u : PtsUpdate) : Int := u.info.pts.toInt - u.info.count.toInt

theorem ptsOrder_eq_compare {pts : Int32} {u : PtsUpdate}
    (h : InRange (pts.toInt + u.info.count.toInt)) :
    ptsOrder pts u = compare pts.toInt (ptsStart u) := by
  have hsum := toInt_add_of_inRange h
  have heq : pts + u.info.count = u.info.pts ↔ pts.toInt = ptsStart u := by
    rw [← Int32.toInt_inj, hsum, ptsStart]
    omega
  have hgt : u.info.pts < pts + u.info.count ↔ ptsStart u < pts.toInt := by
    rw [Int32.lt_iff_toInt_lt, hsum, ptsStart]
    omega
  unfold ptsOrder
  split
  · next h => exact (compare_eq_iff_eq.mpr (heq.mp h)).symm
  · next hne =>
    split
    · next h => exact (compare_gt_iff_gt.mpr (hgt.mp h)).symm
    · next hle =>
      have h1 : pts.toInt ≠ ptsStart u := fun h => hne (heq.mpr h)
      have h2 : ¬ ptsStart u < pts.toInt := fun h => hle (hgt.mpr h)
      exact (compare_lt_iff_lt.mpr (by omega)).symm

/-- The stack is sorted by where the updates start, the first one on top. -/
theorem gapStack_sorted {l : List PtsUpdate}
    (h : ∀ u ∈ l, InRange (ptsStart u) ∧ InRange (-ptsStart u)) :
    (gapStack l).Pairwise (fun u v => ptsStart u ≤ ptsStart v) := by
  have hkey : ∀ u ∈ l, (-updateSortKey u.update).toInt = -ptsStart u := by
    intro u hu
    obtain ⟨h1, h2⟩ := h u hu
    have hsub : (u.info.pts - u.info.count).toInt = ptsStart u := toInt_sub_of_inRange h1
    rw [PtsUpdate.sortKey, toInt_neg_of_inRange (by rw [hsub]; exact h2), hsub]
  unfold gapStack
  rw [List.pairwise_reverse]
  refine (sortByKey_pairwise _ l).imp_of_mem (fun {u v} hu hv hle => ?_)
  rw [mem_sortByKey] at hu hv
  rw [Int32.le_iff_toInt_le, hkey u hu, hkey v hv] at hle
  omega

end Ferogram.Msgbox
