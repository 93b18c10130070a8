import Ferogram.Lib.Chunks
import Ferogram.Lib.Crew
import Ferogram.Mtsender.Sender

/- How `ferogram/src/media.rs` cuts a file into parts, and the file that an upload returns.

   Sizes are natural numbers: a size is at most `isize::MAX`, and no sum or product here
   leaves `usize`. -/
namespace Ferogram.Media
open Chunks
open Mtsender (RpcError InvocationError)

/-- The three-tier table. -/
def uploadTier (fileSize : Nat) : Nat :=
  if fileSize < 1024 * 1024 then 128 * 1024
  else if fileSize < 50 * 1024 * 1024 then 256 * 1024
  else 512 * 1024

/-- `upload_part_size`: the size of a part and the number of parts. -/
def uploadPartSize (fileSize : Nat) : Nat × Nat :=
  let partSize :=
    if 4000 < divCeil fileSize (uploadTier fileSize) then divCeil (divCeil fileSize 4000) 512 * 512
    else uploadTier fileSize
  (partSize, divCeil fileSize partSize)

theorem uploadTier_pos (fileSize : Nat) : 0 < uploadTier fileSize := by
  unfold uploadTier
  split
  · decide
  · split <;> decide

theorem uploadPartSize_pos (fileSize : Nat) : 0 < (uploadPartSize fileSize).1 := by
  unfold uploadPartSize
  dsimp only
  split
  · next hmany =>
    have hsize : 0 < fileSize := by
      apply Nat.pos_of_ne_zero
      intro hzero
      have hle : divCeil fileSize (uploadTier fileSize) ≤ 0 := (divCeil_le (uploadTier_pos fileSize)).mpr (by omega)
      omega
    have hpart : 0 < divCeil (divCeil fileSize 4000) 512 := divCeil_pos (by decide) (divCeil_pos (by decide) hsize)
    omega
  · exact uploadTier_pos fileSize

/-- The number of parts is an `i32`. -/
theorem uploadPartSize_parts_le (fileSize : Nat) : (uploadPartSize fileSize).2 ≤ 4000 := by
  have hpos := uploadPartSize_pos fileSize
  unfold uploadPartSize at hpos ⊢
  dsimp only at hpos ⊢
  split
  · next hmany =>
    rw [if_pos hmany] at hpos
    apply (divCeil_le hpos).mpr
    calc fileSize ≤ divCeil fileSize 4000 * 4000 := le_divCeil_mul (by decide)
      _ ≤ divCeil (divCeil fileSize 4000) 512 * 512 * 4000 := Nat.mul_le_mul_right 4000 (le_divCeil_mul (by decide))
      _ = 4000 * (divCeil (divCeil fileSize 4000) 512 * 512) := Nat.mul_comm _ _
  · next hfew => exact Nat.le_of_not_lt hfew

/-! The layout of an upload. -/

/-- `MAX_PART_SIZE`. -/
def maxPartSize : Nat := 512 * 1024

/-- What the server asks of the parts of a file of `size` bytes, and what the slices of the
upload rely on. -/
structure ValidLayout (size partSize parts : Nat) : Prop where
  partSize_le : partSize ≤ maxPartSize
  divides : partSize ∣ 512 * 1024
  /-- The last part is not empty. -/
  last : (parts - 1) * partSize < size
  covers : size ≤ parts * partSize
  parts_le : size ≤ 4000 * (512 * 1024) → parts ≤ 4000

theorem uploadTier_divides (fileSize : Nat) : uploadTier fileSize ∣ 512 * 1024 := by
  unfold uploadTier
  split
  · exact ⟨4, rfl⟩
  · split
    · exact ⟨2, rfl⟩
    · exact ⟨1, rfl⟩

/-- The table needs more than 4000 parts of the largest files only. -/
theorem tier_parts (fileSize : Nat) : 4000 < divCeil fileSize (uploadTier fileSize) ↔ 4000 * maxPartSize < fileSize := by
  rw [← Nat.not_le, divCeil_le (uploadTier_pos fileSize), Nat.not_le]
  unfold uploadTier maxPartSize
  split
  · omega
  · split <;> omega

theorem divCeil_last {size partSize : Nat} (hpos : 0 < partSize) (hsize : 0 < size) :
    (divCeil size partSize - 1) * partSize < size := by
  apply Nat.lt_of_not_le
  intro hle
  have hparts := (divCeil_le hpos).mpr hle
  have hsome := divCeil_pos hpos hsize
  omega

/-- **The layout of an upload** is what the server asks for exactly if 4000 parts of 512 KB can
hold the file. For a larger one the parts grow past `MAX_PART_SIZE`. -/
theorem uploadPartSize_valid_iff (fileSize : Nat) (h : 0 < fileSize) :
    ValidLayout fileSize (uploadPartSize fileSize).1 (uploadPartSize fileSize).2 ↔ fileSize ≤ 4000 * maxPartSize := by
  have hpos := uploadPartSize_pos fileSize
  constructor
  · intro hvalid
    apply Nat.le_of_not_lt
    intro hlarge
    have hgrown : (uploadPartSize fileSize).1 = divCeil (divCeil fileSize 4000) 512 * 512 :=
      if_pos ((tier_parts fileSize).mpr hlarge)
    have hle := hvalid.partSize_le
    have hceil : fileSize ≤ divCeil fileSize 4000 * 4000 := le_divCeil_mul (by decide)
    have hround : divCeil fileSize 4000 ≤ divCeil (divCeil fileSize 4000) 512 * 512 := le_divCeil_mul (by decide)
    omega
  · intro hsmall
    have htier : (uploadPartSize fileSize).1 = uploadTier fileSize :=
      if_neg (fun hmany => Nat.not_lt.mpr hsmall ((tier_parts fileSize).mp hmany))
    refine ⟨?_, htier ▸ uploadTier_divides fileSize, divCeil_last hpos h, le_divCeil_mul hpos, fun _ => ?_⟩
    · exact Nat.le_of_dvd (by decide) (htier ▸ uploadTier_divides fileSize)
    · exact uploadPartSize_parts_le fileSize

/-- A file of 60 MB is in the third tier. -/
theorem thirdTier_valid : uploadPartSize 60000000 = (512 * 1024, 115) ∧ ValidLayout 60000000 (512 * 1024) 115 := by
  have hsize : uploadPartSize 60000000 = (512 * 1024, 115) := by decide
  have hvalid := (uploadPartSize_valid_iff 60000000 (by decide)).mpr (by decide)
  rw [hsize] at hvalid
  exact ⟨hsize, hvalid⟩

/-- The parts of a file of 4 GB are of more than a megabyte. -/
theorem largest_not_valid : ¬ ∀ fileSize, 0 < fileSize → fileSize ≤ 4 * 1024 * 1024 * 1024 →
    ValidLayout fileSize (uploadPartSize fileSize).1 (uploadPartSize fileSize).2 := by
  intro h
  have hle := (h (4 * 1024 * 1024 * 1024) (by decide) (Nat.le_refl _)).partSize_le
  exact absurd hle (by decide)

/-- `download_chunk_size`. -/
def downloadChunkSize (fileSize : Nat) : Nat := if fileSize < 50 * 1024 * 1024 then 256 * 1024 else 512 * 1024

/-- The lowest of the parts in a window and one more. -/
def minPart (window : List Nat) (part : Nat) : Nat := window.foldr min part

theorem minPart_le {window : List Nat} {part p : Nat} (h : p ∈ part :: window) : minPart window part ≤ p := by
  induction window with
  | nil =>
    obtain rfl := List.mem_singleton.mp h
    exact Nat.le_refl _
  | cons q window ih =>
    have hcons : minPart (q :: window) part = min q (minPart window part) := rfl
    rcases List.mem_cons.mp h with rfl | h
    · have hle := ih (List.mem_cons_self ..)
      omega
    · rcases List.mem_cons.mp h with rfl | h
      · omega
      · have hle := ih (List.mem_cons_of_mem _ h)
        omega

/-- `TransferLimits::normalized`, of a pipeline depth: at least 1 and at most
`MAX_PIPELINE_DEPTH`. -/
def pipelineDepth (configured : Nat) : Nat := max 1 (min configured 8)

theorem pipelineDepth_pos (configured : Nat) : 0 < pipelineDepth configured := by
  unfold pipelineDepth
  omega

/-- `MAX_WORKER_RECONNECTS`. -/
def maxWorkerReconnects : Nat := 5

/-- The DC of a `FILE_MIGRATE`: `rpc.value.unwrap_or(1) as i32`. -/
def redirectDc (rpc : RpcError) : Int32 := (rpc.value.getD 1).toInt32

/-- `BIG_FILE_THRESHOLD`. -/
def bigFileThreshold : Nat := 10 * 1024 * 1024

/-- `InputFile`. -/
inductive InputFile where
  | big (id : Int64) (parts : Nat) (name : String)
  | file (id : Int64) (parts : Nat) (name md5Checksum : String)
  deriving DecidableEq

def InputFile.id : InputFile → Int64
  | .big id _ _ => id
  | .file id _ _ _ => id

/-- `to_input_file`; `md5` is the digest of a third-party crate, in hexadecimal. -/
def toInputFile (md5 : List UInt8 → String) (big : Bool) (fileId : Int64) (totalParts : Nat) (name : String)
    (data : List UInt8) : InputFile :=
  if big then .big fileId totalParts name else .file fileId totalParts name (md5 data)

@[simp] theorem toInputFile_id (md5 : List UInt8 → String) (big : Bool) (fileId : Int64) (totalParts : Nat) (name : String)
    (data : List UInt8) : (toInputFile md5 big fileId totalParts name data).id = fileId := by
  unfold toInputFile
  split <;> rfl

end Ferogram.Media
