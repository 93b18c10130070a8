import Ferogram.Crypto.DataV2
import Ferogram.Crypto.Dh
import Ferogram.TlTypes.RoundTrip

/- The key exchange (`ferogram-mtproto/src/authentication.rs`).

   Random bytes and readings of the clock are arguments. RSA, the factorisation of `pq` and the
   primitives are an `Env`; of RSA it is known that what was encrypted for a key can be decrypted
   by its owner. Big integers are natural numbers, and `panicked` stands for the places where the
   source panics (a slice out of range, a difference below zero, a zero modulus). -/
namespace Ferogram.Mtproto
open Bytes Crypto TlTypes

abbrev Int128 := List.Vector UInt8 16
abbrev Int256 := List.Vector UInt8 32

structure Env where
  P : Primitives
  factorize : UInt64 → Option (UInt64 × UInt64)
  /-- `rsa::encrypt_hashed` for the key with a fingerprint, of at most 144 bytes of data. -/
  encryptHashed : (fingerprint : Int64) → (data : List UInt8) → (random : List.Vector UInt8 224) → List UInt8
  decryptHashed : (fingerprint : Int64) → List UInt8 → List UInt8
  /-- The owner of the key finds the data, with padding behind it. -/
  decrypt_encrypt : ∀ fingerprint data random, data.length ≤ 144 →
    data <+: decryptHashed fingerprint (encryptHashed fingerprint data random)

/-! TL types. -/

structure ResPq where
  nonce : Int128
  serverNonce : Int128
  pq : List UInt8
  serverPublicKeyFingerprints : List Int64
  deriving DecidableEq

structure ReqDhParams where
  nonce : Int128
  serverNonce : Int128
  p : List UInt8
  q : List UInt8
  publicKeyFingerprint : Int64
  encryptedData : List UInt8
  deriving DecidableEq

inductive ServerDhParams where
  | fail (nonce serverNonce newNonceHash : Int128)
  | ok (nonce serverNonce : Int128) (encryptedAnswer : List UInt8)
  deriving DecidableEq

structure ServerDhInnerData where
  nonce : Int128
  serverNonce : Int128
  g : Int32
  dhPrime : List UInt8
  gA : List UInt8
  serverTime : Int32
  deriving DecidableEq

structure ClientDhInnerData where
  nonce : Int128
  serverNonce : Int128
  retryId : Int64
  gB : List UInt8
  deriving DecidableEq

structure SetClientDhParams where
  nonce : Int128
  serverNonce : Int128
  encryptedData : List UInt8
  deriving DecidableEq

inductive SetClientDhParamsAnswer where
  | dhGenOk (nonce serverNonce newNonceHash1 : Int128)
  | dhGenRetry (nonce serverNonce newNonceHash2 : Int128)
  | dhGenFail (nonce serverNonce newNonceHash3 : Int128)
  deriving DecidableEq

def ServerDhInnerData.ctorId : UInt32 := 0xb5890dba
def ClientDhInnerData.ctorId : UInt32 := 0x6643b654

def ServerDhInnerData.toBytes (x : ServerDhInnerData) : List UInt8 :=
  ofU32 ctorId ++ (x.nonce.1 ++ (x.serverNonce.1 ++ (ofI32 x.g ++ (serializeBytes x.dhPrime ++
    (serializeBytes x.gA ++ ofI32 x.serverTime)))))

def ServerDhInnerData.deserialize : Reader TlTypes.Error ServerDhInnerData := do
  let id ← readU32
  if id ≠ ctorId then Reader.fail (.unexpectedConstructor id)
  else do
    let nonce ← readExact 16
    let serverNonce ← readExact 16
    let g ← readI32
    let dhPrime ← deserializeBytes
    let gA ← deserializeBytes
    let serverTime ← readI32
    pure { nonce := nonce, serverNonce := serverNonce, g := g, dhPrime := dhPrime, gA := gA
           serverTime := serverTime }

def ClientDhInnerData.toBytes (x : ClientDhInnerData) : List UInt8 :=
  ofU32 ctorId ++ (x.nonce.1 ++ (x.serverNonce.1 ++ (ofI64 x.retryId ++ serializeBytes x.gB)))

def ClientDhInnerData.deserialize : Reader TlTypes.Error ClientDhInnerData := do
  let id ← readU32
  if id ≠ ctorId then Reader.fail (.unexpectedConstructor id)
  else do
    let nonce ← readExact 16
    let serverNonce ← readExact 16
    let retryId ← readI64
    let gB ← deserializeBytes
    pure { nonce := nonce, serverNonce := serverNonce, retryId := retryId, gB := gB }

/-- The four forms of `p_q_inner_data` differ in their id and in what follows the nonces. -/
def pqInner (id : UInt32) (pq p q : List UInt8) (nonce serverNonce : Int128) (newNonce : Int256)
    (rest : List UInt8) : List UInt8 :=
  ofU32 id ++ (tlSerializeBytes pq ++ (tlSerializeBytes p ++ (tlSerializeBytes q ++ (nonce.1 ++
    (serverNonce.1 ++ (newNonce.1 ++ rest))))))

section
variable (pq p q : List UInt8) (nonce serverNonce : Int128) (newNonce : Int256)

def serializePqInnerData : List UInt8 := pqInner 0x83c95aec pq p q nonce serverNonce newNonce []

def serializePqInnerDataTemp (expiresIn : Int32) : List UInt8 :=
  pqInner 0x3c6a84d4 pq p q nonce serverNonce newNonce (ofI32 expiresIn)

def serializePqInnerDataDc (dcId : Int32) : List UInt8 :=
  pqInner 0xa9f55f95 pq p q nonce serverNonce newNonce (ofI32 dcId)

def serializePqInnerDataTempDc (dcId expiresIn : Int32) : List UInt8 :=
  pqInner 0x56fddf88 pq p q nonce serverNonce newNonce (ofI32 dcId ++ ofI32 expiresIn)

end

/-! The steps. -/

inductive AuthError where
  | invalidNonce (got expected : Int128)
  | invalidPqSize (size : Nat)
  | factorizationFailed (pq : UInt64)
  | unknownFingerprints (fingerprints : List Int64)
  | dhParamsFail
  | invalidServerNonce (got expected : Int128)
  | encryptedResponseNotPadded (len : Nat)
  | invalidDhInnerData (error : TlTypes.Error)
  | invalidDhPrime (source : DhError)
  | gParameterOutOfRange (value low high : Nat)
  | dhGenFail
  | invalidAnswerHash (got expected : List UInt8)
  | invalidNewNonceHash (got expected : List UInt8)
  | panicked
  deriving DecidableEq

structure Step1 where
  nonce : Int128
  deriving DecidableEq

structure Step2 where
  nonce : Int128
  serverNonce : Int128
  newNonce : Int256
  deriving DecidableEq

structure DhParamsForRetry where
  dhPrime : List UInt8
  g : UInt32
  gA : List UInt8
  serverTime : Int32
  aesKey : List UInt8
  aesIv : List UInt8
  deriving DecidableEq

structure Step3 where
  nonce : Int128
  serverNonce : Int128
  newNonce : Int256
  timeOffset : Int32
  authKey : List.Vector UInt8 256
  dhParams : DhParamsForRetry
  deriving DecidableEq

structure Finished where
  authKey : List.Vector UInt8 256
  timeOffset : Int32
  firstSalt : Int64
  deriving DecidableEq

inductive FinishResult where
  | done (finished : Finished)
  | retry (retryId : Int64) (dhParams : DhParamsForRetry) (nonce serverNonce : Int128) (newNonce : Int256)
  deriving DecidableEq

/-- Return an error unless something holds. -/
def ensure (c : Prop) [Decidable c] (e : AuthError) : Except AuthError Unit := if c then .ok () else .error e

def checkNonce (got expected : Int128) : Except AuthError Unit :=
  ensure (got = expected) (.invalidNonce got expected)

def checkServerNonce (got expected : Int128) : Except AuthError Unit :=
  ensure (got = expected) (.invalidServerNonce got expected)

def checkNewNonceHash (got expected : List UInt8) : Except AuthError Unit :=
  ensure (got = expected) (.invalidNewNonceHash got expected)

def checkGInRange (val lo hi : Nat) : Except AuthError Unit :=
  ensure (lo < val ∧ val < hi) (.gParameterOutOfRange val lo hi)

/-- The fingerprints of `key_for_fingerprint`. -/
def knownFingerprints : List Int64 := [-3414540481677951611, -5595554452916591101]

def step1 (random : Int128) : Step1 := { nonce := random }

/-- Big-endian without leading zero bytes; the last byte stays. -/
def trimBe (v : UInt64) : List UInt8 :=
  let b := be 8 v.toNat
  b.drop ((b.findIdx? (· ≠ 0)).getD 7)

/-- The first 32 of the random bytes. -/
def newNonceOf (random : List.Vector UInt8 256) : Int256 :=
  ⟨random.1.take 32, by rw [List.length_take, random.2]; rfl⟩

def rnd224Of (random : List.Vector UInt8 256) : List.Vector UInt8 224 :=
  ⟨random.1.drop 32, by rw [List.length_drop, random.2]⟩

/-- The form of `p_q_inner_data` that a caller asks for. -/
def pqInnerOf (tagDc : Bool) (expiresIn : Option Int32) (pq p q : List UInt8) (nonce serverNonce : Int128)
    (newNonce : Int256) (dcId : Int32) : List UInt8 :=
  match tagDc, expiresIn with
  | true, some expiresIn => serializePqInnerDataTempDc pq p q nonce serverNonce newNonce dcId expiresIn
  | true, none => serializePqInnerDataDc pq p q nonce serverNonce newNonce dcId
  | false, some expiresIn => serializePqInnerDataTemp pq p q nonce serverNonce newNonce expiresIn
  | false, none => serializePqInnerData pq p q nonce serverNonce newNonce

def okOr {α : Type} (x : Option α) (e : AuthError) : Except AuthError α :=
  match x with
  | some a => .ok a
  | none => .error e

def doStep2Inner (env : Env) (data : Step1) (response : ResPq) (random : List.Vector UInt8 256) (dcId : Int32)
    (expiresIn : Option Int32) (tagDc : Bool) : Except AuthError (ReqDhParams × Step2) := do
  let nonce := data.nonce
  checkNonce response.nonce nonce
  ensure (response.pq.length = 8) (.invalidPqSize response.pq.length)
  let pq := UInt64.ofNat (ofBe response.pq)
  let (p, q) ← okOr (env.factorize pq) (.factorizationFailed pq)
  let newNonce := newNonceOf random
  let pqInner := pqInnerOf tagDc expiresIn (be 8 pq.toNat) (trimBe p) (trimBe q) nonce response.serverNonce newNonce dcId
  let fingerprint ← okOr (response.serverPublicKeyFingerprints.find? (· ∈ knownFingerprints))
    (.unknownFingerprints response.serverPublicKeyFingerprints)
  pure ({ nonce := nonce, serverNonce := response.serverNonce, p := trimBe p, q := trimBe q
          publicKeyFingerprint := fingerprint
          encryptedData := env.encryptHashed fingerprint pqInner (rnd224Of random) },
        { nonce := nonce, serverNonce := response.serverNonce, newNonce := newNonce })

/-- `1 << (2048 - 64)`. -/
def safety : Nat := 1 <<< (2048 - 64)

/-- The client's private exponent: the first 256 of the random bytes. -/
def exponentOf (random : List.Vector UInt8 272) : Nat := ofBe (random.1.take 256)

/-- A number in the last of 256 bytes. -/
def keyBytes (gabBytes : List UInt8) : Except AuthError (List.Vector UInt8 256) :=
  if h : gabBytes.length ≤ 256 then
    .ok ⟨List.replicate (256 - gabBytes.length) 0 ++ gabBytes, by
      rw [List.length_append, List.length_replicate, Nat.sub_add_cancel h]⟩
  else .error .panicked

def generateClientDhParams (P : Primitives) (dh : DhParamsForRetry) (nonce serverNonce : Int128)
    (newNonce : Int256) (retryId : Int64) (random : List.Vector UInt8 272) (now : Int32) :
    Except AuthError (SetClientDhParams × Step3) := do
  let dhPrime := ofBe dh.dhPrime
  let g := dh.g.toNat
  let gA := ofBe dh.gA
  let timeOffset := dh.serverTime - now
  let b := exponentOf random
  ensure (dhPrime ≠ 0) .panicked
  let gB := modpow g b dhPrime
  checkGInRange gB 1 (dhPrime - 1)
  ensure (safety ≤ dhPrime) .panicked
  checkGInRange gB safety (dhPrime - safety)
  let clientDhInner := ClientDhInnerData.toBytes
    { nonce := nonce, serverNonce := serverNonce, retryId := retryId, gB := toBytesBe gB }
  let digest := (P.sha1 clientDhInner).1
  let padLen := (16 - (20 + clientDhInner.length) % 16) % 16
  let hashed := digest ++ clientDhInner ++ (random.1.drop 256).take padLen
  let gabBytes := toBytesBe (modpow gA b dhPrime)
  let authKey ← keyBytes gabBytes
  pure ({ nonce := nonce, serverNonce := serverNonce
          encryptedData := igeEncrypt P hashed dh.aesKey dh.aesIv },
        { nonce := nonce, serverNonce := serverNonce, newNonce := newNonce, timeOffset := timeOffset
          authKey := authKey, dhParams := dh })

def retryStep3 (P : Primitives) (dhParams : DhParamsForRetry) (nonce serverNonce : Int128) (newNonce : Int256)
    (retryId : Int64) (random : List.Vector UInt8 272) (now : Int32) :
    Except AuthError (SetClientDhParams × Step3) :=
  generateClientDhParams P dhParams nonce serverNonce newNonce retryId random now

/-- What a message of the exchange decrypts to: inner data, behind its hash. -/
def readHashed {α : Type} (P : Primitives) (p : Reader TlTypes.Error α) (plain : List UInt8) :
    Except AuthError α :=
  if plain.length < 20 then .error .panicked
  else
    let gotHash := plain.take 20
    match p.run (plain.drop 20) with
    | .error e => .error (.invalidDhInnerData e)
    | .ok (inner, rest) =>
      let pos := (plain.drop 20).length - rest.length
      let expectedHash := (P.sha1 ((plain.drop 20).take pos)).1
      if gotHash ≠ expectedHash then .error (.invalidAnswerHash gotHash expectedHash) else .ok inner

def doStep3 (P : Primitives) (data : Step2) (response : ServerDhParams) (random : List.Vector UInt8 272)
    (now : Int32) (retryId : Int64) : Except AuthError (SetClientDhParams × Step3) :=
  match response with
  | .fail nonce serverNonce _ => do
    checkNonce nonce data.nonce
    checkServerNonce serverNonce data.serverNonce
    throw .dhParamsFail
  | .ok nonce serverNonce encryptedAnswer => do
    checkNonce nonce data.nonce
    checkServerNonce serverNonce data.serverNonce
    ensure (encryptedAnswer.length % 16 = 0) (.encryptedResponseNotPadded encryptedAnswer.length)
    let (key, iv) := generateKeyDataFromNonce P data.serverNonce.1 data.newNonce.1
    let inner ← readHashed P ServerDhInnerData.deserialize (igeDecrypt P encryptedAnswer key iv)
    checkNonce inner.nonce data.nonce
    checkServerNonce inner.serverNonce data.serverNonce
    (checkPAndG inner.dhPrime inner.g.toUInt32).mapError .invalidDhPrime
    checkGInRange (ofBe inner.gA) safety (ofBe inner.dhPrime - safety)
    generateClientDhParams P
      { dhPrime := inner.dhPrime, g := inner.g.toUInt32, gA := inner.gA, serverTime := inner.serverTime
        aesKey := key, aesIv := iv }
      data.nonce data.serverNonce data.newNonce retryId random now

/-- A first attempt has no `retry_id`. -/
def step3 (P : Primitives) (data : Step2) (response : ServerDhParams) (random : List.Vector UInt8 272)
    (now : Int32) : Except AuthError (SetClientDhParams × Step3) :=
  doStep3 P data response random now 0

namespace SetClientDhParamsAnswer

def nonce : SetClientDhParamsAnswer → Int128
  | dhGenOk n _ _ => n
  | dhGenRetry n _ _ => n
  | dhGenFail n _ _ => n

def serverNonce : SetClientDhParamsAnswer → Int128
  | dhGenOk _ n _ => n
  | dhGenRetry _ n _ => n
  | dhGenFail _ n _ => n

def hash : SetClientDhParamsAnswer → Int128
  | dhGenOk _ _ h => h
  | dhGenRetry _ _ h => h
  | dhGenFail _ _ h => h

def num : SetClientDhParamsAnswer → UInt8
  | dhGenOk _ _ _ => 1
  | dhGenRetry _ _ _ => 2
  | dhGenFail _ _ _ => 3

end SetClientDhParamsAnswer

def firstSaltOf (newNonce : Int256) (serverNonce : Int128) : Int64 :=
  toI64 (List.zipWith (· ^^^ ·) (newNonce.1.take 8) (serverNonce.1.take 8))

def finish (P : Primitives) (data : Step3) (response : SetClientDhParamsAnswer) :
    Except AuthError FinishResult := do
  checkNonce response.nonce data.nonce
  checkServerNonce response.serverNonce data.serverNonce
  let authKey := AuthKey.fromBytes P data.authKey
  checkNewNonceHash response.hash.1 (authKey.calcNewNonceHash P data.newNonce.1 response.num)
  let firstSalt := firstSaltOf data.newNonce data.serverNonce
  if response.num = 1 then
    pure (.done { authKey := authKey.data, timeOffset := data.timeOffset, firstSalt := firstSalt })
  else if response.num = 2 then
    let retryId := toI64 ((P.sha1 authKey.data.1).1.take 8)
    pure (.retry retryId data.dhParams data.nonce data.serverNonce data.newNonce)
  else throw .dhGenFail

end Ferogram.Mtproto
