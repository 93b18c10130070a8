import Ferogram.Crypto.DataV2
import Ferogram.Lib.Checked

/- AES-256 in the mode of infinite garble extension, `ferogram-crypto/src/aes.rs`.

   The buffer is worked on in place, block by block, with two registers and a third one for the
   block that is put aside before it is overwritten. At the top of a turn `iv1` holds the
   ciphertext block before and `iv2` the plaintext block before, in both directions
   (`encryptBuffer_eq`, `decryptBuffer_eq`); so the loops are the chaining of `Lib/Ige`, and undo
   each other (`ige_inverse`). The block cipher is of a third-party crate and an argument. -/
namespace Ferogram.Aes
open Checked Crypto
open Ige (BlockCipher xor)

/-- `next` is `next_iv2` or `next_iv1`. -/
structure Registers where
  iv1 : List UInt8
  iv2 : List UInt8
  next : List UInt8

section
variable (cipher : BlockCipher 16)

def encryptBlock (r : Registers) (block : List UInt8) : Registers × List UInt8 :=
  let r := { r with next := block }
  let block := xor block r.iv1
  let b := cipher.encrypt block
  let block := xor b r.iv2
  let r := { r with iv1 := block }
  ({ r with iv2 := r.next, next := r.iv2 }, block)

def decryptBlock (r : Registers) (block : List UInt8) : Registers × List UInt8 :=
  let r := { r with next := block }
  let block := xor block r.iv2
  let b := cipher.decrypt block
  let block := xor b r.iv1
  let r := { r with iv1 := r.next, next := r.iv1 }
  ({ r with iv2 := block }, block)

end

/-- `for block in buffer.chunks_mut(16)`: what is in the buffer afterwards. -/
def forChunks (body : Registers → List UInt8 → Registers × List UInt8) : Nat → Registers → List UInt8 → List UInt8
  | 0, _, _ => []
  | n + 1, r, buffer =>
    let (r, block) := body r (buffer.take 16)
    block ++ forChunks body n r (buffer.drop 16)

section
variable (aes256 : List.Vector UInt8 32 → BlockCipher 16)

/-- One of the two directions. -/
def ige (body : Registers → List UInt8 → Registers × List UInt8) (buffer : List UInt8) (iv : List.Vector UInt8 32) :
    Except Stop (List UInt8) :=
  if buffer.length % 16 ≠ 0 then .error .assertion
  else .ok (forChunks body (buffer.length / 16)
    { iv1 := iv.1.take 16, iv2 := iv.1.drop 16, next := List.replicate 16 0 } buffer)

def igeEncrypt (buffer : List UInt8) (key iv : List.Vector UInt8 32) : Except Stop (List UInt8) :=
  ige (encryptBlock (aes256 key)) buffer iv

def igeDecrypt (buffer : List UInt8) (key iv : List.Vector UInt8 32) : Except Stop (List UInt8) :=
  ige (decryptBlock (aes256 key)) buffer iv

end

variable {cipher : BlockCipher 16}

/-- The registers afterwards: the ciphertext block and the plaintext block. -/
theorem encryptBlock_eq (r : Registers) (block : List UInt8) :
    encryptBlock cipher r block =
      ({ iv1 := xor (cipher.encrypt (xor block r.iv1)) r.iv2, iv2 := block, next := r.iv2 },
        xor (cipher.encrypt (xor block r.iv1)) r.iv2) := rfl

theorem decryptBlock_eq (r : Registers) (block : List UInt8) :
    decryptBlock cipher r block =
      ({ iv1 := block, iv2 := xor (cipher.decrypt (xor block r.iv2)) r.iv1, next := r.iv1 },
        xor (cipher.decrypt (xor block r.iv2)) r.iv1) := rfl

theorem encryptBuffer_eq (n : Nat) : ∀ (r : Registers) (buffer : List UInt8),
    forChunks (encryptBlock cipher) n r buffer = Ige.encrypt cipher n r.iv1 r.iv2 buffer := by
  induction n with
  | zero => exact fun _ _ => rfl
  | succ n ih =>
    intro r buffer
    rw [forChunks, encryptBlock_eq]
    exact congrArg (_ ++ ·) (ih _ (buffer.drop 16))

theorem decryptBuffer_eq (n : Nat) : ∀ (r : Registers) (buffer : List UInt8),
    forChunks (decryptBlock cipher) n r buffer = Ige.decrypt cipher n r.iv1 r.iv2 buffer := by
  induction n with
  | zero => exact fun _ _ => rfl
  | succ n ih =>
    intro r buffer
    rw [forChunks, decryptBlock_eq]
    exact congrArg (_ ++ ·) (ih _ (buffer.drop 16))

/-- On whole blocks the loops are the chaining that the messages are modelled with. -/
theorem igeEncrypt_eq (P : Primitives) {buffer : List UInt8} (h : 16 ∣ buffer.length) (key iv : List.Vector UInt8 32) :
    igeEncrypt (fun key => P.aes256 key.1) buffer key iv = .ok (Crypto.igeEncrypt P buffer key.1 iv.1) := by
  rw [igeEncrypt, ige, if_neg (not_not.mpr (Nat.mod_eq_zero_of_dvd h)), encryptBuffer_eq]
  rfl

theorem igeDecrypt_eq (P : Primitives) {buffer : List UInt8} (h : 16 ∣ buffer.length) (key iv : List.Vector UInt8 32) :
    igeDecrypt (fun key => P.aes256 key.1) buffer key iv = .ok (Crypto.igeDecrypt P buffer key.1 iv.1) := by
  rw [igeDecrypt, ige, if_neg (not_not.mpr (Nat.mod_eq_zero_of_dvd h)), decryptBuffer_eq]
  rfl

/-- Both halves of an initialisation vector are as long as a block. -/
theorem halves_length (iv : List.Vector UInt8 32) : (iv.1.take 16).length = 16 ∧ (iv.1.drop 16).length = 16 := by
  have hlen : iv.1.length = 32 := iv.2
  constructor
  · rw [List.length_take, hlen]
    rfl
  · rw [List.length_drop, hlen]

/-- Each direction undoes the other. -/
theorem ige_inverse (aes256 : List.Vector UInt8 32 → Equiv.Perm (List.Vector UInt8 16)) {buffer : List UInt8}
    (h : buffer.length % 16 = 0) (key iv : List.Vector UInt8 32) :
    (∃ out, igeEncrypt (fun key => .ofPerm (aes256 key)) buffer key iv = .ok out ∧
      igeDecrypt (fun key => .ofPerm (aes256 key)) out key iv = .ok buffer) ∧
    (∃ out, igeDecrypt (fun key => .ofPerm (aes256 key)) buffer key iv = .ok out ∧
      igeEncrypt (fun key => .ofPerm (aes256 key)) out key iv = .ok buffer) := by
  obtain ⟨h1, h2⟩ := halves_length iv
  have hblocks : buffer.length = buffer.length / 16 * 16 := by omega
  have hassert : ∀ (body : Registers → List UInt8 → Registers × List UInt8) (out : List UInt8), out.length = buffer.length →
      ige body out iv = .ok (forChunks body (buffer.length / 16)
        { iv1 := iv.1.take 16, iv2 := iv.1.drop 16, next := List.replicate 16 0 } out) := by
    intro body out hout
    rw [ige, hout, if_neg (not_not.mpr h)]
  constructor
  · have hlen : (Ige.encrypt (.ofPerm (aes256 key)) _ _ _ buffer).length = _ := Ige.encrypt_length _ h1 h2 hblocks
    refine ⟨_, hassert _ _ rfl, ?_⟩
    rw [encryptBuffer_eq, igeDecrypt, hassert _ _ (hlen.trans hblocks.symm), decryptBuffer_eq,
      Ige.decrypt_encrypt _ h1 h2 hblocks]
  · have hlen : (Ige.decrypt (.ofPerm (aes256 key)) _ _ _ buffer).length = _ := Ige.decrypt_length _ h1 h2 hblocks
    refine ⟨_, hassert _ _ rfl, ?_⟩
    rw [decryptBuffer_eq, igeEncrypt, hassert _ _ (hlen.trans hblocks.symm), encryptBuffer_eq,
      Ige.encrypt_decrypt _ h1 h2 hblocks]

/-- Two blocks, under the cipher that leaves a block as it is. -/
theorem ige_inverse_identity :
    let key := List.Vector.replicate 32 (1 : UInt8)
    let buffer := List.replicate 32 (7 : UInt8)
    (∃ out, igeEncrypt (fun _ => .ofPerm (Equiv.refl _)) buffer key key = .ok out ∧
      igeDecrypt (fun _ => .ofPerm (Equiv.refl _)) out key key = .ok buffer) ∧
    (∃ out, igeDecrypt (fun _ => .ofPerm (Equiv.refl _)) buffer key key = .ok out ∧
      igeEncrypt (fun _ => .ofPerm (Equiv.refl _)) out key key = .ok buffer) :=
  ige_inverse (fun _ => Equiv.refl _) (by decide) (List.Vector.replicate 32 1) (List.Vector.replicate 32 1)

end Ferogram.Aes
