import Ferogram.Lib.Bytes
import Ferogram.Lib.Ige

/- MTProto 2.0 message encryption (`ferogram-crypto/src/lib.rs`, `auth_key.rs`, `aes.rs`).

   The hash functions and the block cipher are third-party crates and arguments here; all that
   is known of them is the length of what they return and that a block can be decrypted. The
   chaining over blocks is the code's own. `open_frame` is what the other end does with a
   frame of ours: the same derivation of key and initialisation vector, for the client's side. -/
namespace Ferogram.Crypto
open Bytes

structure Primitives where
  sha1 : List UInt8 → List.Vector UInt8 20
  sha256 : List UInt8 → List.Vector UInt8 32
  /-- AES-256 under a key. -/
  aes256 : List UInt8 → Ige.BlockCipher 16

variable (P : Primitives)

def igeEncrypt (buffer key iv : List UInt8) : List UInt8 :=
  Ige.encrypt (P.aes256 key) (buffer.length / 16) (iv.take 16) (iv.drop 16) buffer

def igeDecrypt (buffer key iv : List UInt8) : List UInt8 :=
  Ige.decrypt (P.aes256 key) (buffer.length / 16) (iv.take 16) (iv.drop 16) buffer

variable {P}

theorem igeEncrypt_length {buffer iv : List UInt8} (key : List UInt8) (hiv : iv.length = 32)
    (hbuf : 16 ∣ buffer.length) : (igeEncrypt P buffer key iv).length = buffer.length := by
  unfold igeEncrypt
  rw [Ige.encrypt_length _ (by simp [hiv]) (by simp [hiv]) (Nat.div_mul_cancel hbuf).symm,
    Nat.div_mul_cancel hbuf]

theorem igeDecrypt_length {buffer iv : List UInt8} (key : List UInt8) (hiv : iv.length = 32)
    (hbuf : 16 ∣ buffer.length) : (igeDecrypt P buffer key iv).length = buffer.length := by
  unfold igeDecrypt
  rw [Ige.decrypt_length _ (by simp [hiv]) (by simp [hiv]) (Nat.div_mul_cancel hbuf).symm,
    Nat.div_mul_cancel hbuf]

theorem igeDecrypt_igeEncrypt {buffer iv : List UInt8} (key : List UInt8) (hiv : iv.length = 32)
    (hbuf : 16 ∣ buffer.length) : igeDecrypt P (igeEncrypt P buffer key iv) key iv = buffer := by
  unfold igeDecrypt
  rw [igeEncrypt_length key hiv hbuf]
  exact Ige.decrypt_encrypt _ (by simp [hiv]) (by simp [hiv]) (Nat.div_mul_cancel hbuf).symm

/-! Keys. -/

/-- An authorization key with the two identifiers computed from it. -/
structure AuthKey where
  data : List.Vector UInt8 256
  auxHash : List UInt8
  keyId : List UInt8
  deriving DecidableEq

variable (P) in
def AuthKey.fromBytes (data : List.Vector UInt8 256) : AuthKey :=
  { data := data
    auxHash := (P.sha1 data.1).1.take 8
    keyId := (P.sha1 data.1).1.extract 12 20 }

@[simp] theorem AuthKey.fromBytes_keyId_length (data : List.Vector UInt8 256) :
    (AuthKey.fromBytes P data).keyId.length = 8 := by
  have hsha : (P.sha1 data.1).1.length = 20 := (P.sha1 data.1).2
  simp [fromBytes, hsha]

variable (P) in
/-- What a server answers a key exchange with: `number` is the kind of the answer. -/
def AuthKey.calcNewNonceHash (k : AuthKey) (newNonce : List UInt8) (number : UInt8) : List UInt8 :=
  (P.sha1 (newNonce ++ [number] ++ k.auxHash)).1.drop 4

variable (P) in
/-- The AES key and initialisation vector of the messages of a key exchange. -/
def generateKeyDataFromNonce (serverNonce newNonce : List UInt8) : List UInt8 × List UInt8 :=
  let h1 := (P.sha1 (newNonce ++ serverNonce)).1
  let h2 := (P.sha1 (serverNonce ++ newNonce)).1
  let h3 := (P.sha1 (newNonce ++ newNonce)).1
  (h1 ++ h2.take 12, h2.drop 12 ++ h3 ++ newNonce.take 4)

theorem generateKeyDataFromNonce_iv_length (serverNonce : List UInt8) {newNonce : List UInt8}
    (h : newNonce.length = 32) : (generateKeyDataFromNonce P serverNonce newNonce).2.length = 32 := by
  have hlen : ∀ v : List.Vector UInt8 20, v.1.length = 20 := fun v => v.2
  simp [generateKeyDataFromNonce, hlen, h]

/-- Who encrypted a message. -/
inductive Side where
  | client
  | server

def Side.x : Side → Nat
  | .client => 0
  | .server => 8

variable (P) in
/-- The AES key and initialisation vector of a message. -/
def calcKey (authKey : AuthKey) (msgKey : List UInt8) (side : Side) : List UInt8 × List UInt8 :=
  let x := side.x
  let shaA := (P.sha256 (msgKey ++ authKey.data.1.extract x (x + 36))).1
  let shaB := (P.sha256 (authKey.data.1.extract (40 + x) (40 + x + 36) ++ msgKey)).1
  (shaA.take 8 ++ shaB.extract 8 24 ++ shaA.drop 24, shaB.take 8 ++ shaA.extract 8 24 ++ shaB.drop 24)

theorem calcKey_iv_length (authKey : AuthKey) (msgKey : List UInt8) (side : Side) :
    (calcKey P authKey msgKey side).2.length = 32 := by
  have hlen : ∀ v : List.Vector UInt8 32, v.1.length = 32 := fun v => v.2
  simp [calcKey, hlen]

variable (P) in
/-- The middle of the hash of part of the key and the padded plaintext. -/
def calcMsgKey (authKey : AuthKey) (plaintext : List UInt8) (side : Side) : List UInt8 :=
  (P.sha256 (authKey.data.1.extract (88 + side.x) (88 + side.x + 32) ++ plaintext)).1.extract 8 24

@[simp] theorem calcMsgKey_length (authKey : AuthKey) (plaintext : List UInt8) (side : Side) :
    (calcMsgKey P authKey plaintext side).length = 16 := by
  have hlen : ∀ v : List.Vector UInt8 32, v.1.length = 32 := fun v => v.2
  simp [calcMsgKey, hlen]

/-! Encryption. -/

/-- At least 12 bytes, up to the next multiple of 16. -/
def paddingLen (len : Nat) : Nat :=
  let rem := (len + 12) % 16
  if rem = 0 then 12 else 12 + (16 - rem)

theorem paddingLen_spec (len : Nat) :
    12 ≤ paddingLen len ∧ paddingLen len ≤ 27 ∧ 16 ∣ len + paddingLen len := by
  unfold paddingLen
  dsimp only
  split
  · omega
  · omega

variable (P) in
/-- The key's id, the message key and the ciphertext. -/
def encryptDataV2 (buffer : List UInt8) (authKey : AuthKey) (rnd : List.Vector UInt8 32) : List UInt8 :=
  let buffer := buffer ++ rnd.1.take (paddingLen buffer.length)
  let msgKey := calcMsgKey P authKey buffer .client
  let (key, iv) := calcKey P authKey msgKey .client
  authKey.keyId ++ msgKey ++ igeEncrypt P buffer key iv

/-! Decryption. -/

inductive DecryptError where
  | invalidBuffer
  | authKeyMismatch
  | messageKeyMismatch
  deriving DecidableEq, Repr

variable (P) in
/-- Bytes behind the last whole block are not part of the ciphertext. -/
def decryptDataV2 (buffer : List UInt8) (authKey : AuthKey) : Except DecryptError (List UInt8) :=
  let usableCipherLen := (buffer.length - 24) / 16 * 16
  if buffer.length < 24 ∨ usableCipherLen = 0 then .error .invalidBuffer
  else if authKey.keyId ≠ buffer.take 8 then .error .authKeyMismatch
  else
    let msgKey := buffer.extract 8 24
    let (key, iv) := calcKey P authKey msgKey .server
    let plaintext := igeDecrypt P (buffer.extract 24 (24 + usableCipherLen)) key iv
    if msgKey ≠ calcMsgKey P authKey plaintext .server then .error .messageKeyMismatch
    else .ok plaintext

/-- Fewer bytes than a block after a frame do not change what it decrypts to. -/
theorem decryptDataV2_append (authKey : AuthKey) {frame extra : List UInt8} (hlen : 24 ≤ frame.length)
    (hblocks : 16 ∣ frame.length - 24) (hextra : extra.length ≤ 15) :
    decryptDataV2 P (frame ++ extra) authKey = decryptDataV2 P frame authKey := by
  have husable : ((frame ++ extra).length - 24) / 16 * 16 = (frame.length - 24) / 16 * 16 := by
    rw [List.length_append]
    omega
  have hshort : (frame ++ extra).length < 24 ↔ frame.length < 24 := by
    rw [List.length_append]
    omega
  have hextract : ∀ start stop, stop ≤ frame.length →
      (frame ++ extra).extract start stop = frame.extract start stop := by
    intro start stop hstop
    simp only [List.extract_eq_take_drop]
    by_cases hstart : start ≤ frame.length
    · rw [List.drop_append_of_le_length hstart, List.take_append_of_le_length (by simp; omega)]
    · simp [show stop - start = 0 by omega]
  unfold decryptDataV2
  simp only [husable, hshort]
  rw [hextract 8 24 hlen, hextract 24 _ (by omega), List.take_append_of_le_length (by omega)]

/-! The other end. -/

variable (P) in
/-- What a server that holds the key makes of a frame from the client. -/
def openFrame (frame : List UInt8) (authKey : AuthKey) : Option (List UInt8) :=
  let msgKey := frame.extract 8 24
  let ciphertext := frame.drop 24
  let (key, iv) := calcKey P authKey msgKey .client
  let plaintext := igeDecrypt P ciphertext key iv
  if frame.take 8 = authKey.keyId ∧ 16 ∣ ciphertext.length ∧
      calcMsgKey P authKey plaintext .client = msgKey then some plaintext
  else none

/-- A frame taken apart. -/
theorem openFrame_append {authKey : AuthKey} (hid : authKey.keyId.length = 8) {msgKey : List UInt8}
    (hmsgKey : msgKey.length = 16) (ciphertext : List UInt8) :
    openFrame P (authKey.keyId ++ msgKey ++ ciphertext) authKey =
      let plaintext := igeDecrypt P ciphertext (calcKey P authKey msgKey .client).1
        (calcKey P authKey msgKey .client).2
      if 16 ∣ ciphertext.length ∧ calcMsgKey P authKey plaintext .client = msgKey then some plaintext
      else none := by
  have htake : (authKey.keyId ++ msgKey ++ ciphertext).take 8 = authKey.keyId := by
    rw [List.append_assoc, List.take_left' hid]
  have hmid : (authKey.keyId ++ msgKey ++ ciphertext).extract 8 24 = msgKey := by
    rw [List.extract_eq_take_drop, List.append_assoc, List.drop_left' hid, List.take_left' hmsgKey]
  have hdrop : (authKey.keyId ++ msgKey ++ ciphertext).drop 24 = ciphertext :=
    List.drop_left' (by rw [List.length_append, hid, hmsgKey])
  unfold openFrame
  rw [htake, hmid, hdrop]
  simp only [true_and]

/-- The server reads what was encrypted, with its padding. -/
theorem openFrame_encryptDataV2 (buffer : List UInt8) {authKey : AuthKey} (hid : authKey.keyId.length = 8)
    (rnd : List.Vector UInt8 32) :
    openFrame P (encryptDataV2 P buffer authKey rnd) authKey =
      some (buffer ++ rnd.1.take (paddingLen buffer.length)) := by
  obtain ⟨-, hmax, hblocks⟩ := paddingLen_spec buffer.length
  have hrnd : rnd.1.length = 32 := rnd.2
  have hpadded : 16 ∣ (buffer ++ rnd.1.take (paddingLen buffer.length)).length := by
    rw [List.length_append, List.length_take, hrnd, Nat.min_eq_left (by omega)]
    exact hblocks
  unfold encryptDataV2
  dsimp only
  generalize buffer ++ rnd.1.take (paddingLen buffer.length) = padded at hpadded ⊢
  have hiv := calcKey_iv_length (P := P) authKey (calcMsgKey P authKey padded .client) .client
  rw [openFrame_append hid (calcMsgKey_length authKey padded .client)]
  dsimp only
  rw [igeDecrypt_igeEncrypt _ hiv hpadded, igeEncrypt_length _ hiv hpadded, if_pos ⟨hpadded, rfl⟩]

/-- Hashes that are always zero and a block cipher that leaves a block as it is. With these a
frame is its plaintext behind 24 zero bytes. -/
def plainPrimitives : Primitives where
  sha1 _ := List.Vector.replicate 20 0
  sha256 _ := List.Vector.replicate 32 0
  aes256 _ :=
    { encrypt := id
      decrypt := id
      encrypt_length := fun _ h => h
      decrypt_encrypt := fun _ _ => rfl }

end Ferogram.Crypto
