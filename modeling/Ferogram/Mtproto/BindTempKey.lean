import Ferogram.Mtproto.Unpack
import Ferogram.TlTypes.RoundTrip

/- The binding of a temporary key (`ferogram-mtproto/src/bind_temp_key.rs`, `derive_aes_key_iv_v1`
   of `ferogram-crypto/src/lib.rs`, and the request that `do_pfs_bind` of
   `ferogram-connect/src/connection.rs` and `do_pool_pfs_bind` of
   `ferogram-mtsender/src/sender.rs` make of it).

   The request goes out under the temporary key, and holds a message under the permanent one,
   which is encrypted the old way. Both messages have to name the same keys, the same session and
   the same id. What is proved: `server_binds`, for a server that checks all of it. -/
namespace Ferogram.Mtproto
open Bytes Connect Crypto TlTypes

def idBindAuthKeyInner : Nat := 0x75a3f765
def idBindTempAuthKey : Nat := 0xcdd42a05

/-- `auth_key_id_from_key`. -/
def authKeyIdFromKey (P : Primitives) (key : List.Vector UInt8 256) : Int64 := toI64 ((P.sha1 key.1).1.extract 12 20)

structure BindInner where
  nonce : Int64
  tempAuthKeyId : Int64
  permAuthKeyId : Int64
  tempSessionId : Int64
  expiresAt : Int32
  deriving DecidableEq, Repr

def serializeInner (inner : BindInner) : List UInt8 :=
  le 4 idBindAuthKeyInner ++ ofI64 inner.nonce ++ ofI64 inner.tempAuthKeyId ++ ofI64 inner.permAuthKeyId ++
    ofI64 inner.tempSessionId ++ ofI32 inner.expiresAt

/-- The AES key and initialisation vector of MTProto 1.0. -/
def deriveAesKeyIvV1 (P : Primitives) (authKey : List.Vector UInt8 256) (msgKey : List UInt8) : List UInt8 × List UInt8 :=
  let k := authKey.1
  let sha1A := (P.sha1 (msgKey ++ k.extract 0 32)).1
  let sha1B := (P.sha1 (k.extract 32 48 ++ msgKey ++ k.extract 48 64)).1
  let sha1C := (P.sha1 (k.extract 64 96 ++ msgKey)).1
  let sha1D := (P.sha1 (msgKey ++ k.extract 96 128)).1
  (sha1A.take 8 ++ sha1B.extract 8 20 ++ sha1C.extract 4 16,
    sha1A.extract 8 20 ++ sha1B.take 8 ++ sha1C.extract 16 20 ++ sha1D.take 8)

/-- The header of 32 bytes, the inner message of 40, and the padding; `rnd` is random. -/
def bindPlaintext (msgId : Int64) (inner : BindInner) (rnd : List.Vector UInt8 24) : List UInt8 :=
  rnd.1.take 8 ++ rnd.1.extract 8 16 ++ ofI64 msgId ++ ofI32 0 ++ le 4 40 ++ serializeInner inner ++ rnd.1.extract 16 24

def bindContentLen : Nat := 32 + 40

/-- The last 16 bytes of the hash of the content. -/
def msgKeyV1 (P : Primitives) (content : List UInt8) : List UInt8 := (P.sha1 content).1.extract 4 20

def encryptBindInner (P : Primitives) (permAuthKey : List.Vector UInt8 256) (msgId : Int64) (inner : BindInner)
    (rnd : List.Vector UInt8 24) : List UInt8 :=
  let plaintext := bindPlaintext msgId inner rnd
  let msgKey := msgKeyV1 P (plaintext.take bindContentLen)
  let (aesKey, aesIv) := deriveAesKeyIvV1 P permAuthKey msgKey
  (P.sha1 permAuthKey.1).1.extract 12 20 ++ msgKey ++ igeEncrypt P plaintext aesKey aesIv

def serializeBindTempAuthKey (permAuthKeyId nonce : Int64) (expiresAt : Int32) (encryptedMessage : List UInt8) :
    List UInt8 :=
  bindTlWriteBytes (le 4 idBindTempAuthKey ++ ofI64 permAuthKeyId ++ ofI64 nonce ++ ofI32 expiresAt) encryptedMessage

/-- What `do_pfs_bind` sends in the session of the temporary key: the outer message takes its id from the inner one. -/
def bindRequest (P : Primitives) (permAuthKey tempAuthKey : List.Vector UInt8 256) (s : EncryptedSession)
    (msgId nonce : Int64) (expiresAt : Int32) (rnd : List.Vector UInt8 24) : Envelope × EncryptedSession :=
  let inner : BindInner :=
    { nonce := nonce, tempAuthKeyId := authKeyIdFromKey P tempAuthKey, permAuthKeyId := authKeyIdFromKey P permAuthKey,
      tempSessionId := s.sessionId, expiresAt := expiresAt }
  s.packBodyAtMsgId
    (serializeBindTempAuthKey (authKeyIdFromKey P permAuthKey) nonce expiresAt
      (encryptBindInner P permAuthKey msgId inner rnd)) msgId

/-! A server. -/

structure BindRequest where
  permAuthKeyId : Int64
  nonce : Int64
  expiresAt : Int32
  encryptedMessage : List UInt8

def parseBindRequest (body : List UInt8) : Option BindRequest :=
  if ctor body = idBindTempAuthKey then
    (tlReadBytes (body.drop 24)).map fun encryptedMessage =>
      { permAuthKeyId := toI64 (field body 4 8), nonce := toI64 (field body 12 8), expiresAt := toI32 (field body 20 4)
        encryptedMessage := encryptedMessage }
  else none

def parseBindInner (content : List UInt8) : Option BindInner :=
  if ctor content = idBindAuthKeyInner then
    some { nonce := toI64 (field content 4 8), tempAuthKeyId := toI64 (field content 12 8)
           permAuthKeyId := toI64 (field content 20 8), tempSessionId := toI64 (field content 28 8)
           expiresAt := toI32 (field content 36 4) }
  else none

/-- The content of a message of MTProto 1.0, if its key is the hash of it. -/
def openV1 (P : Primitives) (authKey : List.Vector UInt8 256) (message : List UInt8) : Option (List UInt8) :=
  let msgKey := field message 8 16
  let (aesKey, aesIv) := deriveAesKeyIvV1 P authKey msgKey
  let plaintext := igeDecrypt P (message.drop 24) aesKey aesIv
  let content := plaintext.take (32 + ofLe (field plaintext 28 4))
  if message.take 8 = (P.sha1 authKey.1).1.extract 12 20 ∧ 16 ∣ (message.drop 24).length ∧ msgKeyV1 P content = msgKey
  then some content else none

/-- A server that holds both keys: what it binds, if everything agrees. -/
def serverBinds (P : Primitives) (permAuthKey tempAuthKey : List.Vector UInt8 256) (frame : List UInt8) :
    Option BindInner := do
  let outer ← openFrame P frame (AuthKey.fromBytes P tempAuthKey)
  let request ← parseBindRequest (outer.extract 32 (32 + bodyLenOf outer))
  let content ← openV1 P permAuthKey request.encryptedMessage
  let inner ← parseBindInner (content.drop 32)
  if request.permAuthKeyId = authKeyIdFromKey P permAuthKey ∧ inner.permAuthKeyId = authKeyIdFromKey P permAuthKey ∧
      inner.tempAuthKeyId = authKeyIdFromKey P tempAuthKey ∧ inner.nonce = request.nonce ∧
      inner.expiresAt = request.expiresAt ∧ inner.tempSessionId = sessionIdOf outer ∧
      toI64 (field content 16 8) = msgIdOf outer ∧ toI32 (field content 24 4) = 0 then some inner
  else none

/-! Reading what was written. -/

variable {P : Primitives}

theorem deriveAesKeyIvV1_iv_length (authKey : List.Vector UInt8 256) (msgKey : List UInt8) :
    (deriveAesKeyIvV1 P authKey msgKey).2.length = 32 := by
  have hlen : ∀ v : List.Vector UInt8 20, v.1.length = 20 := fun v => v.2
  simp [deriveAesKeyIvV1, hlen]

theorem field_middle (before : List UInt8) {whole mid after : List UInt8} {start n : Nat}
    (h : whole = before ++ (mid ++ after)) (hbefore : before.length = start) (hmid : mid.length = n) : field whole start n = mid := by
  rw [h, field, List.drop_left' hbefore, List.take_left' hmid]

theorem parseBindInner_serializeInner (inner : BindInner) : parseBindInner (serializeInner inner) = some inner := by
  have hctor : ctor (serializeInner inner) = idBindAuthKeyInner := by
    unfold serializeInner
    simp only [List.append_assoc]
    exact ctor_append (by decide) _
  have hnonce : field (serializeInner inner) 4 8 = ofI64 inner.nonce :=
    field_middle _ (by simp only [serializeInner, List.append_assoc]; rfl) (le_length 4 idBindAuthKeyInner) (by simp)
  have htemp : field (serializeInner inner) 12 8 = ofI64 inner.tempAuthKeyId :=
    field_middle (le 4 idBindAuthKeyInner ++ ofI64 inner.nonce)
      (by simp only [serializeInner, List.append_assoc]; rfl) (by simp) (by simp)
  have hperm : field (serializeInner inner) 20 8 = ofI64 inner.permAuthKeyId :=
    field_middle (le 4 idBindAuthKeyInner ++ ofI64 inner.nonce ++ ofI64 inner.tempAuthKeyId)
      (by simp only [serializeInner, List.append_assoc]; rfl) (by simp) (by simp)
  have hsession : field (serializeInner inner) 28 8 = ofI64 inner.tempSessionId :=
    field_middle (le 4 idBindAuthKeyInner ++ ofI64 inner.nonce ++ ofI64 inner.tempAuthKeyId ++
      ofI64 inner.permAuthKeyId) (by simp only [serializeInner, List.append_assoc]; rfl) (by simp) (by simp)
  have hexpires : field (serializeInner inner) 36 4 = ofI32 inner.expiresAt := by
    have hlast : serializeInner inner = le 4 idBindAuthKeyInner ++ ofI64 inner.nonce ++ ofI64 inner.tempAuthKeyId ++
        ofI64 inner.permAuthKeyId ++ ofI64 inner.tempSessionId ++ (ofI32 inner.expiresAt ++ []) := by
      rw [List.append_nil, serializeInner]
    exact field_middle _ hlast (by simp) (by simp)
  unfold parseBindInner
  rw [if_pos hctor, hnonce, htemp, hperm, hsession, hexpires]
  simp only [toI64_ofI64, toI32_ofI32]

theorem parseBindRequest_serialize (permAuthKeyId nonce : Int64) (expiresAt : Int32) {message : List UInt8}
    (h : message.length < 2 ^ 24) :
    parseBindRequest (serializeBindTempAuthKey permAuthKeyId nonce expiresAt message) =
      some ⟨permAuthKeyId, nonce, expiresAt, message⟩ := by
  let head := le 4 idBindTempAuthKey ++ ofI64 permAuthKeyId ++ ofI64 nonce ++ ofI32 expiresAt
  have hbody : serializeBindTempAuthKey permAuthKeyId nonce expiresAt message = head ++ serializeBytes message :=
    bindTlWriteBytes_eq head message
  have hctor : ctor (head ++ serializeBytes message) = idBindTempAuthKey := by
    simp only [head, List.append_assoc]
    exact ctor_append (by decide) _
  have hperm : field (head ++ serializeBytes message) 4 8 = ofI64 permAuthKeyId :=
    field_middle _ (by simp only [head, List.append_assoc]; rfl) (le_length 4 idBindTempAuthKey) (by simp)
  have hnonce : field (head ++ serializeBytes message) 12 8 = ofI64 nonce :=
    field_middle (le 4 idBindTempAuthKey ++ ofI64 permAuthKeyId) (by simp only [head, List.append_assoc]; rfl)
      (by simp) (by simp)
  have hexpires : field (head ++ serializeBytes message) 20 4 = ofI32 expiresAt :=
    field_middle (le 4 idBindTempAuthKey ++ ofI64 permAuthKeyId ++ ofI64 nonce)
      (by simp only [head, List.append_assoc]; rfl) (by simp) (by simp)
  have hrest : (head ++ serializeBytes message).drop 24 = serializeBytes message := List.drop_left' (by simp [head])
  have hmessage : tlReadBytes (serializeBytes message) = some message := by
    simpa using tlReadBytes_serializeBytes h []
  unfold parseBindRequest
  rw [hbody, if_pos hctor, hperm, hnonce, hexpires, hrest, hmessage]
  simp only [Option.map_some, toI64_ofI64, toI32_ofI32]

theorem serializeInner_length (inner : BindInner) : (serializeInner inner).length = 40 := by
  simp [serializeInner]

theorem bindPlaintext_length (msgId : Int64) (inner : BindInner) (rnd : List.Vector UInt8 24) :
    (bindPlaintext msgId inner rnd).length = 80 := by
  have hrnd : rnd.1.length = 24 := rnd.2
  simp [bindPlaintext, serializeInner_length, hrnd]

/-- The content stands in front of the padding. -/
theorem bindPlaintext_content (msgId : Int64) (inner : BindInner) (rnd : List.Vector UInt8 24) :
    (bindPlaintext msgId inner rnd).take bindContentLen =
      rnd.1.take 8 ++ rnd.1.extract 8 16 ++ ofI64 msgId ++ ofI32 0 ++ le 4 40 ++ serializeInner inner := by
  have hrnd : rnd.1.length = 24 := rnd.2
  exact List.take_left' (by simp [serializeInner_length, hrnd, bindContentLen])

theorem openV1_encryptBindInner (permAuthKey : List.Vector UInt8 256) (msgId : Int64) (inner : BindInner)
    (rnd : List.Vector UInt8 24) :
    openV1 P permAuthKey (encryptBindInner P permAuthKey msgId inner rnd) =
      some ((bindPlaintext msgId inner rnd).take bindContentLen) := by
  have hrnd : rnd.1.length = 24 := rnd.2
  have hsha : ∀ v : List.Vector UInt8 20, v.1.length = 20 := fun v => v.2
  let plaintext := bindPlaintext msgId inner rnd
  let msgKey := msgKeyV1 P (plaintext.take bindContentLen)
  have hkeyId : ((P.sha1 permAuthKey.1).1.extract 12 20).length = 8 := by simp [hsha]
  have hmsgKey : msgKey.length = 16 := by simp [msgKey, msgKeyV1, hsha]
  have hiv := deriveAesKeyIvV1_iv_length (P := P) permAuthKey msgKey
  have hlen : plaintext.length = 80 := bindPlaintext_length msgId inner rnd
  have hblocks : 16 ∣ plaintext.length := by rw [hlen]; decide
  have hmessage : encryptBindInner P permAuthKey msgId inner rnd = (P.sha1 permAuthKey.1).1.extract 12 20 ++
      (msgKey ++ igeEncrypt P plaintext (deriveAesKeyIvV1 P permAuthKey msgKey).1 (deriveAesKeyIvV1 P permAuthKey msgKey).2) := by
    simp only [encryptBindInner, List.append_assoc]
    rfl
  have hcount : ofLe (field plaintext 28 4) = 40 := by
    have hfield : field plaintext 28 4 = le 4 40 :=
      field_middle (rnd.1.take 8 ++ rnd.1.extract 8 16 ++ ofI64 msgId ++ ofI32 0)
        (by simp only [plaintext, bindPlaintext, List.append_assoc]; rfl) (by simp [hrnd]) (le_length 4 40)
    rw [hfield]
    rfl
  have hkey : field (encryptBindInner P permAuthKey msgId inner rnd) 8 16 = msgKey := field_middle _ hmessage hkeyId hmsgKey
  have hdrop : (encryptBindInner P permAuthKey msgId inner rnd).drop 24 =
      igeEncrypt P plaintext (deriveAesKeyIvV1 P permAuthKey msgKey).1 (deriveAesKeyIvV1 P permAuthKey msgKey).2 := by
    rw [hmessage, ← List.append_assoc]
    exact List.drop_left' (by rw [List.length_append, hkeyId, hmsgKey])
  have htake : (encryptBindInner P permAuthKey msgId inner rnd).take 8 = (P.sha1 permAuthKey.1).1.extract 12 20 := by
    rw [hmessage]
    exact List.take_left' hkeyId
  unfold openV1
  simp only [hkey, hdrop, htake, igeDecrypt_igeEncrypt _ hiv hblocks, igeEncrypt_length _ hiv hblocks, hcount]
  exact if_pos ⟨trivial, hblocks, rfl⟩

theorem encryptBindInner_length (permAuthKey : List.Vector UInt8 256) (msgId : Int64) (inner : BindInner)
    (rnd : List.Vector UInt8 24) : (encryptBindInner P permAuthKey msgId inner rnd).length = 104 := by
  have hsha : ∀ v : List.Vector UInt8 20, v.1.length = 20 := fun v => v.2
  have hlen := bindPlaintext_length msgId inner rnd
  unfold encryptBindInner
  dsimp only
  rw [List.length_append, List.length_append,
    igeEncrypt_length _ (deriveAesKeyIvV1_iv_length permAuthKey _) (by rw [hlen]; decide), hlen]
  simp [msgKeyV1, hsha]

theorem serializeBindTempAuthKey_length (permAuthKeyId nonce : Int64) (expiresAt : Int32) {message : List UInt8}
    (h : message.length = 104) :
    (serializeBindTempAuthKey permAuthKeyId nonce expiresAt message).length < 256 ^ 4 := by
  unfold serializeBindTempAuthKey
  rw [bindTlWriteBytes_eq, serializeBytes_short (by omega)]
  simp [h]

end Ferogram.Mtproto
