import Mathlib.Data.List.Induction

/- A list cut into parts of one size, the last of which may be shorter, and put together
   again: all at once (`parts_flatten`), or by writing each part at its place, in any
   order and any number of times, over a list of the same length (`writeAll_eq`). -/
namespace Chunks
variable {α : Type}

/-- Division rounded up. -/
def divCeil (a b : Nat) : Nat := if a % b = 0 then a / b else a / b + 1

theorem divCeil_le {a b n : Nat} (hb : 0 < b) : divCeil a b ≤ n ↔ a ≤ n * b := by
  have hmod := Nat.div_add_mod a b
  have hlt := Nat.mod_lt a hb
  unfold divCeil
  split
  · next hzero =>
    rw [hzero, Nat.add_zero] at hmod
    constructor
    · intro h
      calc a = b * (a / b) := hmod.symm
        _ ≤ b * n := Nat.mul_le_mul_left b h
        _ = n * b := Nat.mul_comm b n
    · intro h
      exact (Nat.div_le_iff_le_mul_add_pred hb).mpr (by rw [Nat.mul_comm b n]; omega)
  · next hne =>
    have hpos : 0 < a % b := Nat.pos_of_ne_zero hne
    rw [Nat.succ_le_iff, Nat.div_lt_iff_lt_mul hb]
    constructor
    · intro h
      exact Nat.le_of_lt h
    · intro h
      rcases Nat.lt_or_eq_of_le h with hlt' | heq
      · exact hlt'
      · rw [heq, Nat.mul_mod_left] at hne
        exact absurd rfl hne

/-- The part that starts at `p * size`; the last one is cut off at the end of the data. -/
def slice (data : List α) (size p : Nat) : List α := (data.drop (p * size)).take size

theorem flatMap_slice (data : List α) (size : Nat) : ∀ n, (List.range n).flatMap (slice data size) = data.take (n * size)
  | 0 => by simp
  | n + 1 => by
    rw [List.range_succ, List.flatMap_append, flatMap_slice data size n, List.flatMap_singleton, slice,
      Nat.succ_mul, List.take_add]

/-- The parts put together are the data. -/
theorem parts_flatten (data : List α) {size : Nat} (h : 0 < size) :
    (List.range (divCeil data.length size)).flatMap (slice data size) = data := by
  rw [flatMap_slice]
  exact List.take_of_length_le ((divCeil_le h).mp (Nat.le_refl _))

theorem divCeil_pos {a b : Nat} (hb : 0 < b) (ha : 0 < a) : 0 < divCeil a b := by
  apply Nat.pos_of_ne_zero
  intro hzero
  have hle : a ≤ 0 * b := (divCeil_le hb).mp (Nat.le_of_eq hzero)
  omega

theorem le_divCeil_mul {a b : Nat} (hb : 0 < b) : a ≤ divCeil a b * b := (divCeil_le hb).mp (Nat.le_refl _)

/-! Writing. -/

/-- Write at an offset, as in a file: over what is there, and beyond the end. -/
def writeAt (fill : α) (disk : List α) (offset : Nat) (data : List α) : List α :=
  if data = [] then disk
  else disk.take offset ++ List.replicate (offset - disk.length) fill ++ data ++ disk.drop (offset + data.length)

theorem writeAt_of_le {fill : α} {disk data : List α} {offset : Nat} (h : offset + data.length ≤ disk.length) :
    writeAt fill disk offset data = disk.take offset ++ data ++ disk.drop (offset + data.length) := by
  unfold writeAt
  split
  · next hnil => simp [hnil]
  · have hzero : offset - disk.length = 0 := by omega
    rw [hzero, List.replicate_zero, List.append_nil]

theorem writeAt_length {fill : α} {disk data : List α} {offset : Nat} (h : offset + data.length ≤ disk.length) :
    (writeAt fill disk offset data).length = disk.length := by
  rw [writeAt_of_le h, List.length_append, List.length_append, List.length_take, List.length_drop]
  omega

theorem writeAt_getElem? {fill : α} {disk data : List α} {offset : Nat} (h : offset + data.length ≤ disk.length) (i : Nat) :
    (writeAt fill disk offset data)[i]? =
      if offset ≤ i ∧ i < offset + data.length then data[i - offset]? else disk[i]? := by
  have htake : (disk.take offset).length = offset := by
    rw [List.length_take]
    omega
  rw [writeAt_of_le h, List.append_assoc]
  by_cases hlow : i < offset
  · rw [List.getElem?_append_left (by omega), List.getElem?_take_of_lt hlow, if_neg (by omega)]
  · rw [List.getElem?_append_right (by omega), htake]
    by_cases hhigh : i < offset + data.length
    · rw [List.getElem?_append_left (by omega), if_pos (by omega)]
    · rw [List.getElem?_append_right (by omega), List.getElem?_drop, if_neg (by omega)]
      congr 1
      omega

theorem slice_length (data : List α) (size p : Nat) : (slice data size p).length = min size (data.length - p * size) := by
  rw [slice, List.length_take, List.length_drop]

/-- The element in place `i` is in part `i / size`. -/
theorem slice_getElem? (data : List α) {size p i : Nat} (hsize : 0 < size) (h : i / size = p) :
    (slice data size p)[i - p * size]? = data[i]? := by
  obtain ⟨hlow, hhigh⟩ := (Nat.div_eq_iff hsize).mp h
  rw [slice, List.getElem?_take_of_lt (by omega), List.getElem?_drop]
  congr 1
  omega

/-- A part written at its place is read there, and the rest as before. -/
theorem writeAt_slice (fill : α) {data disk : List α} {size : Nat} (hsize : 0 < size) (hdisk : disk.length = data.length)
    (p : Nat) : (writeAt fill disk (p * size) (slice data size p)).length = data.length ∧
      ∀ i, (writeAt fill disk (p * size) (slice data size p))[i]? = if i / size = p then data[i]? else disk[i]? := by
  have hlen := slice_length data size p
  by_cases hin : p * size ≤ data.length
  · have hfits : p * size + (slice data size p).length ≤ disk.length := by omega
    refine ⟨(writeAt_length hfits).trans hdisk, ?_⟩
    intro i
    rw [writeAt_getElem? hfits]
    by_cases hi : i / size = p
    · rw [if_pos hi]
      obtain ⟨hlow, hhigh⟩ := (Nat.div_eq_iff hsize).mp hi
      by_cases hend : i < p * size + (slice data size p).length
      · rw [if_pos ⟨hlow, hend⟩, slice_getElem? data hsize hi]
      · -- The last part ends with the data.
        rw [if_neg (by omega), List.getElem?_eq_none (by omega), List.getElem?_eq_none (by omega)]
    · rw [if_neg hi, if_neg]
      rintro ⟨hlow, hhigh⟩
      exact hi ((Nat.div_eq_iff hsize).mpr ⟨hlow, by omega⟩)
  · -- A part beyond the end is empty.
    have hnil : slice data size p = [] := List.length_eq_zero_iff.mp (by omega)
    rw [hnil, writeAt, if_pos rfl]
    refine ⟨hdisk, ?_⟩
    intro i
    split
    · next hi =>
      obtain ⟨hlow, -⟩ := (Nat.div_eq_iff hsize).mp hi
      rw [List.getElem?_eq_none (by omega), List.getElem?_eq_none (by omega)]
    · rfl

/-- Blocks written one after another, each at its number. -/
def writeAll (fill : α) (size : Nat) (writes : List (Nat × List α)) (disk : List α) : List α :=
  writes.foldl (fun disk w => writeAt fill disk (w.1 * size) w.2) disk

theorem writeAll_slices (fill : α) {data : List α} {size : Nat} (hsize : 0 < size) (writes : List (Nat × List α))
    (hwrites : ∀ w ∈ writes, w.2 = slice data size w.1) (disk : List α) (hdisk : disk.length = data.length) :
    (writeAll fill size writes disk).length = data.length ∧
      ∀ i, i / size ∈ writes.map Prod.fst → (writeAll fill size writes disk)[i]? = data[i]? := by
  -- The last write of a part counts; before it the disk holds anything.
  induction writes using List.reverseRecOn with
  | nil => exact ⟨hdisk, nofun⟩
  | append_singleton writes w ih =>
    obtain ⟨hlen, hread⟩ := ih fun v hv => hwrites v (List.mem_append_left _ hv)
    have hw : w.2 = slice data size w.1 := hwrites w (List.mem_append_right _ (List.mem_singleton.mpr rfl))
    have hwrite := writeAt_slice fill hsize hlen w.1
    rw [writeAll, List.foldl_append, List.foldl_cons, List.foldl_nil, hw]
    refine ⟨hwrite.1, ?_⟩
    intro i hi
    rw [List.map_append, List.mem_append] at hi
    rw [← writeAll, hwrite.2 i]
    split
    · rfl
    · next hother =>
      refine hread i (hi.resolve_right ?_)
      intro hmem
      exact hother (List.mem_singleton.mp hmem)

/-- With every part written, in any order and as often as may be, the data is there. -/
theorem writeAll_eq {fill : α} {data : List α} {size : Nat} (hsize : 0 < size) {writes : List (Nat × List α)}
    (hwrites : ∀ w ∈ writes, w.2 = slice data size w.1) {disk : List α} (hdisk : disk.length = data.length)
    (hall : ∀ p < divCeil data.length size, p ∈ writes.map Prod.fst) : writeAll fill size writes disk = data := by
  obtain ⟨hlen, hread⟩ := writeAll_slices fill hsize writes hwrites disk hdisk
  apply List.ext_getElem?
  intro i
  by_cases hi : i < data.length
  · refine hread i (hall (i / size) ?_)
    apply Nat.lt_of_not_le
    intro hle
    have hend := (divCeil_le hsize).mp hle
    have hmul := Nat.div_mul_le_self i size
    omega
  · rw [List.getElem?_eq_none (by omega), List.getElem?_eq_none (by omega)]

/-- With every part written once, the lengths add up to that of the data. -/
theorem length_of_perm {data : List α} {size : Nat} (hsize : 0 < size) {writes : List (Nat × List α)}
    (hwrites : ∀ w ∈ writes, w.2 = slice data size w.1)
    (hperm : (writes.map Prod.fst).Perm (List.range (divCeil data.length size))) :
    (writes.flatMap Prod.snd).length = data.length := by
  have hmap : writes.flatMap Prod.snd = (writes.map Prod.fst).flatMap (slice data size) := by
    rw [List.flatMap_map, List.flatMap_def, List.flatMap_def, List.map_congr_left hwrites]
  have hflat := (hperm.flatMap_right (slice data size)).length_eq
  rw [hmap, hflat, parts_flatten data hsize]

end Chunks
