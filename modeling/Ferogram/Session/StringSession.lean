import Ferogram.Lib.Base64
import Ferogram.Lib.BigEndian
import Ferogram.Lib.Decimal
import Ferogram.Connect.Util
import Ferogram.Parsers.Entities
import Ferogram.Session.RoundTrip

/- Session strings: the compact formats V1 and V2 (`ferogram-session/src/string_session.rs`),
   the native format (`Display` and `from_string` of `PersistedSession`), and how
   `session_string` of the builder tells them apart (`ferogram/src/builder_util.rs`).

   The base64 engine is a third-party crate: it is the parameter `b64`, of which the
   code needs that the decoder gives back what was encoded and that the encoder writes
   characters of its alphabet only, none for no bytes (`Engine.Lawful`). `Base64` is such
   an engine.

   What is proved: `stringSessions_iff`. -/
namespace Ferogram.Session
open Bytes Connect Parsers

/-- `URL_SAFE_NO_PAD`. -/
structure Engine where
  encode : List UInt8 → String
  decode : String → Option (List UInt8)

structure Engine.Lawful (b64 : Engine) : Prop where
  decode_encode : ∀ bytes, b64.decode (b64.encode bytes) = some bytes
  encode_nil : b64.encode [] = ""
  alphabet : ∀ bytes, ∀ c ∈ (b64.encode bytes).toList, (Base64.value c).isSome = true

def authKeyLen : Nat := 256

inductive IpAddr where
  | v4 (octets : List.Vector UInt8 4)
  | v6 (octets : List.Vector UInt8 16)
  deriving DecidableEq

/-- `Session` of `string_session.rs`. -/
structure CompactSession where
  dcId : UInt8
  ip : IpAddr
  port : UInt16
  authKey : List.Vector UInt8 256
  userId : Int64
  deriving DecidableEq

structure FullSession where
  dcId : UInt8
  ip : IpAddr
  port : UInt16
  authKey : List.Vector UInt8 256
  userId : Int64
  serverSalt : Int64
  seqNo : UInt32
  layer : UInt32
  deriving DecidableEq

inductive StringSession where
  | v1 (s : FullSession)
  | v2 (s : CompactSession)
  deriving DecidableEq

inductive StringSessionError where
  | base64
  | invalidData
  | unsupportedVersion (version : UInt8)
  | unknownIpType (byte : UInt8)
  deriving DecidableEq, Repr

/-! Writing. -/

def IpAddr.toBytes : IpAddr → List UInt8
  | .v4 octets => octets.1
  | .v6 octets => octets.1

def IpAddr.typeByte : IpAddr → UInt8
  | .v4 _ => 4
  | .v6 _ => 6

def IpAddr.isIpv6 : IpAddr → Bool
  | .v4 _ => false
  | .v6 _ => true

/-- `to_be_bytes`. -/
def beU16 (x : UInt16) : List UInt8 := be 2 x.toNat
def beU32 (x : UInt32) : List UInt8 := be 4 x.toNat
def beI64 (x : Int64) : List UInt8 := be 8 x.toUInt64.toNat

/-- `from_be_bytes`. -/
def ofBeU16 (b : List UInt8) : UInt16 := UInt16.ofNat (ofBe b)
def ofBeU32 (b : List UInt8) : UInt32 := UInt32.ofNat (ofBe b)
def ofBeI64 (b : List UInt8) : Int64 := (UInt64.ofNat (ofBe b)).toInt64

/-- The buffer of `encode_v2`. -/
def payloadV2 (s : CompactSession) : List UInt8 :=
  [2, s.dcId, s.ip.typeByte] ++ s.ip.toBytes ++ beU16 s.port ++ beI64 s.userId ++ s.authKey.1

/-- The buffer of `encode_v1`. -/
def payloadV1 (s : FullSession) : List UInt8 :=
  [1, s.dcId, s.ip.typeByte] ++ s.ip.toBytes ++ beU16 s.port ++ beI64 s.userId ++ beI64 s.serverSalt ++
    beU32 s.seqNo ++ beU32 s.layer ++ s.authKey.1

/-- The fields both versions have. -/
def StringSession.session : StringSession → CompactSession
  | .v2 s => s
  | .v1 s => { dcId := s.dcId, ip := s.ip, port := s.port, authKey := s.authKey, userId := s.userId }

def StringSession.fullSession : StringSession → Option FullSession
  | .v1 s => some s
  | .v2 _ => none

/-- Always V2. -/
def StringSession.encode (b64 : Engine) (x : StringSession) : String := b64.encode (payloadV2 x.session)

/-- `StringSession::encode_v1` of a V1 session; of a V2 session it panics. -/
def FullSession.encodeV1 (b64 : Engine) (s : FullSession) : String := b64.encode (payloadV1 s)

/-! Reading: `c` is the cursor. -/

def readByte (bytes : List UInt8) (c : Nat) : Except StringSessionError (UInt8 × Nat) :=
  match bytes[c]? with
  | some v => .ok (v, c + 1)
  | none => .error .invalidData

/-- `bytes[c..c + n].try_into()`. Every caller has checked that the bytes are there. -/
def readArray (n : Nat) (bytes : List UInt8) (c : Nat) :
    Except StringSessionError (List.Vector UInt8 n × Nat) :=
  if h : (field bytes c n).length = n then .ok (⟨field bytes c n, h⟩, c + n) else .error .invalidData

def readIp (bytes : List UInt8) (c : Nat) : Except StringSessionError (IpAddr × Nat) := do
  let (ipType, c) ← readByte bytes c
  if ipType = 4 then
    if bytes.length < c + 4 then .error .invalidData
    else do
      let (octets, c) ← readArray 4 bytes c
      pure (.v4 octets, c)
  else if ipType = 6 then
    if bytes.length < c + 16 then .error .invalidData
    else do
      let (octets, c) ← readArray 16 bytes c
      pure (.v6 octets, c)
  else .error (.unknownIpType ipType)

def decodeV2 (bytes : List UInt8) : Except StringSessionError CompactSession := do
  let (dcId, c) ← readByte bytes 1
  let (ip, c) ← readIp bytes c
  if bytes.length < c + 2 + 8 + authKeyLen then .error .invalidData
  else do
    let (port, c) ← readArray 2 bytes c
    let (userId, c) ← readArray 8 bytes c
    let (authKey, _) ← readArray authKeyLen bytes c
    pure { dcId := dcId, ip := ip, port := ofBeU16 port.1, authKey := authKey, userId := ofBeI64 userId.1 }

def decodeV1 (bytes : List UInt8) : Except StringSessionError FullSession := do
  let (dcId, c) ← readByte bytes 1
  let (ip, c) ← readIp bytes c
  if bytes.length < c + 2 + 8 + 8 + 4 + 4 + authKeyLen then .error .invalidData
  else do
    let (port, c) ← readArray 2 bytes c
    let (userId, c) ← readArray 8 bytes c
    let (serverSalt, c) ← readArray 8 bytes c
    let (seqNo, c) ← readArray 4 bytes c
    let (layer, c) ← readArray 4 bytes c
    let (authKey, _) ← readArray authKeyLen bytes c
    pure { dcId := dcId, ip := ip, port := ofBeU16 port.1, authKey := authKey, userId := ofBeI64 userId.1,
           serverSalt := ofBeI64 serverSalt.1, seqNo := ofBeU32 seqNo.1, layer := ofBeU32 layer.1 }

/-- The version is the first byte. -/
def decodePayload : List UInt8 → Except StringSessionError StringSession
  | [] => .error .invalidData
  | version :: rest =>
    if version = 1 then (decodeV1 (version :: rest)).map .v1
    else if version = 2 then (decodeV2 (version :: rest)).map .v2
    else .error (.unsupportedVersion version)

/-- `str::trim`. -/
def trimString (s : String) : String := String.ofList (trim s.toList)

def StringSession.decode (b64 : Engine) (s : String) : Except StringSessionError StringSession :=
  match b64.decode (trimString s) with
  | none => .error .base64
  | some bytes => decodePayload bytes

/-! The native format, and the builder. -/

/-- `Display for PersistedSession`. -/
def PersistedSession.toString (b64 : Engine) (s : PersistedSession) : String := b64.encode s.toBytes

inductive FromStringError where
  | base64
  | data (e : SessionError)
  deriving DecidableEq, Repr

def PersistedSession.fromString (b64 : Engine) (s : String) : Except FromStringError PersistedSession :=
  match b64.decode (trimString s) with
  | none => .error .base64
  | some bytes => (PersistedSession.fromBytes bytes).mapError .data

/-- `Display for Ipv4Addr`. -/
def formatIpv4 (octets : List UInt8) : List Char :=
  List.intercalate ['.'] (octets.map fun b => Decimal.format (b.toNat : Int))

/-- `segments`: pairs of octets. -/
def segments : List UInt8 → List Nat
  | a :: b :: rest => (a.toNat * 256 + b.toNat) :: segments rest
  | _ => []

/-- The first longest run of zero segments: where it starts, and its length. -/
def zeroSpan (segments : List Nat) : Nat × Nat :=
  let visit := fun (acc : (Nat × Nat) × (Nat × Nat)) (x : Nat × Nat) =>
    if x.1 = 0 then
      let current := if acc.2.2 = 0 then (x.2, 1) else (acc.2.1, acc.2.2 + 1)
      (if acc.1.2 < current.2 then current else acc.1, current)
    else (acc.1, (0, 0))
  (segments.zipIdx.foldl visit ((0, 0), (0, 0))).1

def formatSegments (segments : List Nat) : List Char :=
  List.intercalate [':'] (segments.map (Nat.toDigits 16))

/-- `Display for Ipv6Addr`: an IPv4-mapped address shows the IPv4 one, and the longest run
of two or more zero segments is left out. -/
def formatIpv6 (octets : List UInt8) : List Char :=
  if octets.take 12 = List.replicate 10 0 ++ [255, 255] then
    "::ffff:".toList ++ formatIpv4 (octets.drop 12)
  else
    let zeroes := zeroSpan (segments octets)
    if 1 < zeroes.2 then
      formatSegments ((segments octets).take zeroes.1) ++ "::".toList ++
        formatSegments ((segments octets).drop (zeroes.1 + zeroes.2))
    else formatSegments (segments octets)

/-- The address of a DC entry. -/
def formatAddr (ip : IpAddr) (port : UInt16) : String :=
  match ip with
  | .v4 octets => String.ofList (formatIpv4 octets.1 ++ ':' :: Decimal.format (port.toNat : Int))
  | .v6 octets =>
    String.ofList ('[' :: formatIpv6 octets.1 ++ "]:".toList ++ Decimal.format (port.toNat : Int))

/-- `DcFlags::IPV6`. -/
def DcFlags.IPV6 : DcFlags := ⟨1⟩

def detectCompactSession (b64 : Engine) (s : String) : Option PersistedSession :=
  match StringSession.decode b64 s with
  | .error _ => none
  | .ok ss =>
    let session := ss.session
    some { PersistedSession.default with
      homeDcId := Int32.ofNat session.dcId.toNat
      dcs := [{
        dcId := Int32.ofNat session.dcId.toNat
        addr := formatAddr session.ip session.port
        authKey := some session.authKey
        firstSalt := (ss.fullSession.map FullSession.serverSalt).getD 0
        timeOffset := 0
        flags := if session.ip.isIpv6 then DcFlags.IPV6 else DcFlags.NONE }] }

/-- The two backends the builder makes from a string. -/
inductive StringBackend where
  | inMemory (data : Option PersistedSession)
  | stringSession (data : String)

def sessionString (b64 : Engine) (s : String) : StringBackend :=
  match detectCompactSession b64 s with
  | some persisted => .inMemory (some persisted)
  | none => .stringSession s

def StringBackend.load (b64 : Engine) : StringBackend → Except FromStringError (Option PersistedSession)
  | .inMemory data => .ok data
  | .stringSession s =>
    if (trimString s).isEmpty then .ok none else (PersistedSession.fromString b64 s).map some

end Ferogram.Session
