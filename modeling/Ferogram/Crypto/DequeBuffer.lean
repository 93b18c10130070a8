import Ferogram.Crypto.DataV2
import Ferogram.Lib.Lockstep

/- `DequeBuffer` (`ferogram-crypto/src/deque_buffer.rs`), in which packets are built: bytes behind
   a reserve, so that a header can be put in front of them in place.

   The fields are the code's, and so are the ways in which an access can go wrong. What is proved:
   `deque_refines`, that no run of the operations goes wrong and that the bytes are those of a list
   to which the same was done; and `doEncryptDataV2_refines`, that a message encrypted in the buffer
   is the one of `encryptDataV2`. Memory is not bounded; what `with_capacity` may reserve is. -/
namespace Ferogram.Crypto

/-- What stops a program. -/
inductive Panic where
  | overflow
  | outOfRange
  | assertion
  | capacity
  deriving DecidableEq, Repr

structure DequeBuffer where
  buf : List UInt8
  head : Nat
  defaultHead : Nat
  deriving DecidableEq, Repr

/-- `rotate_right`. -/
def rotateRight (buf : List UInt8) (k : Nat) : Except Panic (List UInt8) :=
  if k ≤ buf.length then .ok (buf.drop (buf.length - k) ++ buf.take (buf.length - k)) else .error .assertion

/-- `buf[at..at + slice.len()].copy_from_slice(slice)`. -/
def copyFromSlice (buf : List UInt8) (offset : Nat) (slice : List UInt8) : Except Panic (List UInt8) :=
  if offset + slice.length ≤ buf.length then .ok (buf.take offset ++ slice ++ buf.drop (offset + slice.length))
  else .error .outOfRange

namespace DequeBuffer

/-- `isize::MAX`: a `Vec<u8>` has no more room. -/
def maxCapacity : Nat := 2 ^ 63 - 1

/-- What a vector has reserved once it is resized: twice as much as before, if that was too little. -/
def reserved (capacity len : Nat) : Nat := if len ≤ capacity then capacity else max (2 * capacity) len

/-- `checks` is whether additions are checked. Where the sum wraps around, `resize` reserves again. -/
def withCapacity (checks : Bool) (back front : UInt64) : Except Panic DequeBuffer :=
  if checks = true ∧ 2 ^ 64 ≤ front.toNat + back.toNat then .error .overflow
  else if maxCapacity < reserved (front + back).toNat front.toNat then .error .capacity
  else .ok ⟨List.replicate front.toNat 0, front.toNat, front.toNat⟩

def clear (b : DequeBuffer) : Except Panic DequeBuffer :=
  let buf := b.buf.take b.defaultHead
  if b.head ≤ buf.length then
    .ok { b with buf := List.replicate b.head 0 ++ buf.drop b.head, head := b.defaultHead }
  else .error .outOfRange

def extendFront (b : DequeBuffer) (slice : List UInt8) : Except Panic DequeBuffer := do
  let b ←
    if slice.length ≤ b.head then .ok { b with head := b.head - slice.length }
    else
      let shift := slice.length - b.head
      let buf ← rotateRight (b.buf ++ List.replicate shift 0) shift
      .ok { b with buf := buf, head := 0 }
  let buf ← copyFromSlice b.buf b.head slice
  return { b with buf := buf }

def extend (b : DequeBuffer) (bytes : List UInt8) : DequeBuffer := { b with buf := b.buf ++ bytes }

def len (b : DequeBuffer) : Except Panic Nat :=
  if b.head ≤ b.buf.length then .ok (b.buf.length - b.head) else .error .overflow

def isEmpty (b : DequeBuffer) : Bool := b.head = b.buf.length

def asRef (b : DequeBuffer) : Except Panic (List UInt8) :=
  if b.head ≤ b.buf.length then .ok (b.buf.drop b.head) else .error .outOfRange

/-- What `f` does in place to the bytes that `as_mut` gives. -/
def edit (b : DequeBuffer) (f : List UInt8 → Except Panic (List UInt8)) : Except Panic DequeBuffer := do
  let bytes ← f (← b.asRef)
  return { b with buf := b.buf.take b.head ++ bytes }

inductive Op where
  | extend (bytes : List UInt8)
  | extendFront (slice : List UInt8)
  | clear

def step (b : DequeBuffer) : Op → Except Panic DequeBuffer
  | .extend bytes => .ok (b.extend bytes)
  | .extendFront slice => b.extendFront slice
  | .clear => b.clear

def run (b : DequeBuffer) (ops : List Op) : Except Panic DequeBuffer := ops.foldlM step b

/-! The list. -/

/-- What an operation does to a list. -/
def Op.apply (bytes : List UInt8) : Op → List UInt8
  | .extend more => bytes ++ more
  | .extendFront slice => slice ++ bytes
  | .clear => []

/-- The list after the operations. -/
def bytesOf (ops : List Op) : List UInt8 := Run.final Op.apply [] ops

/-- The bytes are behind the head, the head is in the reserve, and the reserve is in the buffer. -/
structure Holds (front : Nat) (b : DequeBuffer) (bytes : List UInt8) : Prop where
  bytes : b.buf.drop b.head = bytes
  defaultHead : b.defaultHead = front
  reserve : b.head ≤ front
  full : front ≤ b.buf.length

/-- What the buffer shows of itself. -/
structure Shows (b : DequeBuffer) (bytes : List UInt8) : Prop where
  asRef : b.asRef = .ok bytes
  len : b.len = .ok bytes.length
  isEmpty : b.isEmpty = bytes.isEmpty

variable {b d : DequeBuffer} {bytes : List UInt8} {n : Nat} {checks : Bool} {back front : UInt64}

theorem Holds.inside (h : Holds n b bytes) : b.head ≤ b.buf.length := Nat.le_trans h.reserve h.full

theorem Holds.shows (h : Holds n b bytes) : b.Shows bytes := by
  have hlen : bytes.length = b.buf.length - b.head := by rw [← h.bytes, List.length_drop]
  have hin := h.inside
  refine ⟨?_, ?_, ?_⟩
  · rw [asRef, if_pos hin, h.bytes]
  · rw [len, if_pos hin, hlen]
  · rw [isEmpty, Bool.eq_iff_iff, decide_eq_true_iff, List.isEmpty_iff, ← List.length_eq_zero_iff, hlen]
    omega

/-! Each operation. -/

/-- A sum that a vector can have room for makes a buffer. -/
theorem withCapacity_of_le (checks : Bool) (h : front.toNat + back.toNat ≤ maxCapacity) :
    withCapacity checks back front = .ok ⟨List.replicate front.toNat 0, front.toNat, front.toNat⟩ := by
  unfold maxCapacity at h
  have hsum : (front + back).toNat = front.toNat + back.toNat := by
    rw [UInt64.toNat_add]
    exact Nat.mod_eq_of_lt (by omega)
  have hroom : reserved (front + back).toNat front.toNat = front.toNat + back.toNat := by
    rw [reserved, hsum, if_pos (Nat.le_add_right _ _)]
  unfold withCapacity maxCapacity
  rw [if_neg (by omega), hroom, if_neg (by omega)]

theorem withCapacity_holds (h : withCapacity checks back front = .ok d) : Holds front.toNat d [] := by
  unfold withCapacity at h
  split at h
  · cases h
  split at h
  · cases h
  · cases h
    have hlen : (List.replicate front.toNat (0 : UInt8)).length = front.toNat := List.length_replicate
    exact ⟨List.drop_eq_nil_of_le (Nat.le_of_eq hlen), rfl, Nat.le_refl _, Nat.le_of_eq hlen.symm⟩

theorem extend_holds (h : Holds n b bytes) (more : List UInt8) : Holds n (b.extend more) (bytes ++ more) := by
  refine ⟨?_, h.defaultHead, h.reserve, ?_⟩
  · show (b.buf ++ more).drop b.head = bytes ++ more
    rw [List.drop_append_of_le_length h.inside, h.bytes]
  · show n ≤ (b.buf ++ more).length
    rw [List.length_append]
    exact Nat.le_add_right_of_le h.full

theorem clear_holds (h : Holds n b bytes) : ∃ b', b.clear = .ok b' ∧ Holds n b' [] := by
  have hlen : (b.buf.take b.defaultHead).length = n := by
    rw [h.defaultHead, List.length_take, Nat.min_eq_left h.full]
  have hcleared : (List.replicate b.head (0 : UInt8) ++ (b.buf.take b.defaultHead).drop b.head).length = n := by
    rw [List.length_append, List.length_replicate, List.length_drop, hlen]
    exact Nat.add_sub_cancel' h.reserve
  unfold clear
  rw [if_pos (hlen ▸ h.reserve)]
  refine ⟨_, rfl, ?_, h.defaultHead, Nat.le_of_eq h.defaultHead, Nat.le_of_eq hcleared.symm⟩
  exact List.drop_eq_nil_of_le (by rw [hcleared, h.defaultHead])

theorem rotateRight_append (buf zeros : List UInt8) : rotateRight (buf ++ zeros) zeros.length = .ok (zeros ++ buf) := by
  have hlen : (buf ++ zeros).length - zeros.length = buf.length := by simp
  rw [rotateRight, if_pos (by simp), hlen, List.drop_left, List.take_left]

/-- The slice stands where it was copied to, and what is behind it stays. -/
theorem copyFromSlice_spec (buf slice : List UInt8) {offset : Nat} (h : offset + slice.length ≤ buf.length) :
    ∃ buf', copyFromSlice buf offset slice = .ok buf' ∧ buf'.length = buf.length ∧
      buf'.drop offset = slice ++ buf.drop (offset + slice.length) := by
  have htake : (buf.take offset).length = offset := by
    rw [List.length_take, Nat.min_eq_left (by omega)]
  refine ⟨_, if_pos h, ?_, ?_⟩
  · simp only [List.length_append, List.length_drop, htake]
    omega
  · rw [List.append_assoc, List.drop_left' htake]

theorem extendFront_holds (h : Holds n b bytes) (slice : List UInt8) :
    ∃ b', b.extendFront slice = .ok b' ∧ Holds n b' (slice ++ bytes) := by
  have hin := h.inside
  unfold extendFront
  by_cases hfits : slice.length ≤ b.head
  · -- the reserve has room
    have hhead : b.head - slice.length + slice.length = b.head := Nat.sub_add_cancel hfits
    obtain ⟨buf, hcopy, hlen, hdrop⟩ := copyFromSlice_spec b.buf slice (hhead ▸ hin)
    refine ⟨{ b with buf := buf, head := b.head - slice.length }, ?_, ?_, h.defaultHead, ?_, ?_⟩
    · rw [if_pos hfits]
      show (copyFromSlice b.buf (b.head - slice.length) slice).bind _ = _
      rw [hcopy]
      rfl
    · show buf.drop (b.head - slice.length) = slice ++ bytes
      rw [hdrop, hhead, h.bytes]
    · exact Nat.le_trans (Nat.sub_le _ _) h.reserve
    · exact hlen ▸ h.full
  · -- the whole reserve, and new bytes that are turned to the front
    have hshift : (List.replicate (slice.length - b.head) (0 : UInt8)).length = slice.length - b.head :=
      List.length_replicate
    have hrotate := rotateRight_append b.buf (List.replicate (slice.length - b.head) 0)
    rw [hshift] at hrotate
    have hroom : 0 + slice.length ≤ (List.replicate (slice.length - b.head) 0 ++ b.buf).length := by
      rw [List.length_append, hshift]
      omega
    obtain ⟨buf, hcopy, hlen, hdrop⟩ := copyFromSlice_spec _ slice hroom
    refine ⟨{ b with buf := buf, head := 0 }, ?_, ?_, h.defaultHead, Nat.zero_le _, ?_⟩
    · rw [if_neg hfits]
      dsimp only
      rw [hrotate]
      show (copyFromSlice (List.replicate (slice.length - b.head) 0 ++ b.buf) 0 slice).bind _ = _
      rw [hcopy]
      rfl
    · show buf.drop 0 = slice ++ bytes
      have hbehind : 0 + slice.length - (slice.length - b.head) = b.head := by omega
      rw [hdrop, List.drop_append, hshift, hbehind, h.bytes, List.drop_eq_nil_of_le (by rw [hshift]; omega),
        List.nil_append]
    · show n ≤ buf.length
      rw [hlen, List.length_append]
      exact Nat.le_add_left_of_le h.full

theorem step_holds (h : Holds n b bytes) (op : Op) : ∃ b', b.step op = .ok b' ∧ Holds n b' (op.apply bytes) := by
  cases op with
  | extend more => exact ⟨_, rfl, extend_holds h more⟩
  | extendFront slice => exact extendFront_holds h slice
  | clear => exact clear_holds h

/-- **The buffer is a list of bytes.** No run of the operations goes wrong, the head stays in the
reserve and in the buffer, and what the buffer shows is the list to which the same was done. -/
theorem deque_refines (h : withCapacity checks back front = .ok d) (ops : List Op) :
    ∃ d', d.run ops = .ok d' ∧ d'.Shows (bytesOf ops) ∧ d'.head ≤ front.toNat ∧ d'.head ≤ d'.buf.length := by
  have hstep : ∀ b bytes op, Holds front.toNat b bytes → ∃ b', step b op = .ok b' ∧ Holds front.toNat b' (op.apply bytes) :=
    fun _ _ op hb => step_holds hb op
  obtain ⟨d', hrun, hholds⟩ := Run.foldlM_refines hstep ops d [] (withCapacity_holds h)
  exact ⟨d', hrun, hholds.shows, hholds.reserve, hholds.inside⟩

/-- A header longer than the reserve. -/
theorem deque_header : ∃ d', run ⟨[0, 0], 2, 2⟩ [.extend [1, 2], .extendFront [7, 8, 9]] = .ok d' ∧
    d'.Shows [7, 8, 9, 1, 2] := by
  have hnew : withCapacity true 4 2 = .ok ⟨[0, 0], 2, 2⟩ := withCapacity_of_le true (by decide)
  obtain ⟨d', hrun, hshows, -⟩ := deque_refines hnew [.extend [1, 2], .extendFront [7, 8, 9]]
  exact ⟨d', hrun, hshows⟩

theorem edit_holds {f : List UInt8 → Except Panic (List UInt8)} {edited : List UInt8} (h : Holds n b bytes)
    (hf : f bytes = .ok edited) (hlen : edited.length = bytes.length) : ∃ b', b.edit f = .ok b' ∧ Holds n b' edited := by
  have htake : (b.buf.take b.head).length = b.head := by rw [List.length_take, Nat.min_eq_left h.inside]
  have hsame : (b.buf.take b.head ++ edited).length = b.buf.length := by
    rw [List.length_append, htake, hlen, ← h.bytes, List.length_drop]
    exact Nat.add_sub_cancel' h.inside
  refine ⟨{ b with buf := b.buf.take b.head ++ edited }, ?_, ?_, h.defaultHead, h.reserve, ?_⟩
  · unfold edit
    rw [h.shows.asRef]
    show (f bytes).bind _ = _
    rw [hf]
    rfl
  · exact List.drop_left' htake
  · exact hsame ▸ h.full

end DequeBuffer

/-! A message encrypted in the buffer. -/

section
open DequeBuffer
variable (P : Primitives)

/-- `aes::ige_encrypt` with its assertion. -/
def igeEncryptInPlace (key iv buffer : List UInt8) : Except Panic (List UInt8) :=
  if buffer.length % 16 = 0 then .ok (igeEncrypt P buffer key iv) else .error .assertion

/-- `do_encrypt_data_v2`. -/
def doEncryptDataV2 (buffer : DequeBuffer) (authKey : AuthKey) (rnd : List.Vector UInt8 32) : Except Panic DequeBuffer := do
  let pad := paddingLen (← buffer.len)
  let buffer := buffer.extend (rnd.1.take pad)
  let msgKey := calcMsgKey P authKey (← buffer.asRef) .client
  let (key, iv) := calcKey P authKey msgKey .client
  let buffer ← buffer.edit (igeEncryptInPlace P key iv)
  let buffer ← buffer.extendFront msgKey
  buffer.extendFront authKey.keyId

variable {P} {n : Nat} {b : DequeBuffer} {bytes : List UInt8}

/-- Nothing goes wrong on the way, and the buffer holds the frame that `encryptDataV2` makes of the
list. -/
theorem doEncryptDataV2_refines (h : Holds n b bytes) (authKey : AuthKey) (rnd : List.Vector UInt8 32) :
    ∃ b', doEncryptDataV2 P b authKey rnd = .ok b' ∧ Holds n b' (encryptDataV2 P bytes authKey rnd) := by
  have hpadded := extend_holds h (rnd.1.take (paddingLen bytes.length))
  have hblocks : 16 ∣ (bytes ++ rnd.1.take (paddingLen bytes.length)).length := by
    obtain ⟨-, hmax, hblocks⟩ := paddingLen_spec bytes.length
    have hrnd : rnd.1.length = 32 := rnd.2
    rw [List.length_append, List.length_take, hrnd, Nat.min_eq_left (by omega)]
    exact hblocks
  unfold doEncryptDataV2 encryptDataV2
  rw [h.shows.len]
  show ∃ b', ((b.extend (rnd.1.take (paddingLen bytes.length))).asRef.bind _) = Except.ok b' ∧ _
  rw [hpadded.shows.asRef]
  dsimp only [Except.bind]
  generalize bytes ++ rnd.1.take (paddingLen bytes.length) = padded at hpadded hblocks ⊢
  generalize b.extend (rnd.1.take (paddingLen bytes.length)) = b at hpadded ⊢
  generalize calcMsgKey P authKey padded .client = msgKey
  have hiv := calcKey_iv_length (P := P) authKey msgKey .client
  generalize calcKey P authKey msgKey .client = keys at hiv ⊢
  obtain ⟨key, iv⟩ := keys
  have hige : igeEncryptInPlace P key iv padded = .ok (igeEncrypt P padded key iv) :=
    if_pos (Nat.mod_eq_zero_of_dvd hblocks)
  obtain ⟨b₁, hedit, h₁⟩ := edit_holds hpadded hige (igeEncrypt_length key hiv hblocks)
  obtain ⟨b₂, hfront, h₂⟩ := extendFront_holds h₁ msgKey
  obtain ⟨b₃, hid, h₃⟩ := extendFront_holds h₂ authKey.keyId
  refine ⟨b₃, ?_, ?_⟩
  · show (b.edit (igeEncryptInPlace P key iv)).bind _ = _
    rw [hedit]
    show (b₁.extendFront msgKey).bind _ = _
    rw [hfront]
    exact hid
  · rw [List.append_assoc]
    exact h₃

end

end Ferogram.Crypto
