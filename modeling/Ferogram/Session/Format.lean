import Ferogram.Lib.Bytes
import Ferogram.Lib.Utf8

/- The session file: the data that survives a restart and its binary format
   (`ferogram-session/src/lib.rs`, `PersistedSession::to_bytes` and `from_bytes`).

   `from_bytes` keeps a position in the buffer and its macros `r!` advance it; here
   it is a `Reader`, which keeps the bytes from that position on. A count is written
   with `as u8` or `as u16`, that is modulo 2^8 or 2^16, while all the items are
   written. -/
namespace Ferogram.Session
open Bytes Reader

/-- Per-DC option flags. -/
structure DcFlags where
  bits : UInt8
  deriving DecidableEq, Repr

def DcFlags.NONE : DcFlags := ⟨0⟩

/-- One entry in the DC address table. -/
structure DcEntry where
  dcId : Int32
  addr : String
  authKey : Option (List.Vector UInt8 256)
  firstSalt : Int64
  timeOffset : Int32
  flags : DcFlags
  deriving DecidableEq

/-- The update counters, with `(channel_id, pts)` for each channel. -/
structure UpdatesStateSnap where
  pts : Int32
  qts : Int32
  date : Int32
  seq : Int32
  channels : List (Int64 × Int32)
  deriving DecidableEq, Repr

/-- `UpdatesStateSnap::default()`. -/
def UpdatesStateSnap.default : UpdatesStateSnap :=
  { pts := 0, qts := 0, date := 0, seq := 0, channels := [] }

inductive ChannelKind where
  | broadcast
  | megagroup
  | gigagroup
  deriving DecidableEq, Repr

def ChannelKind.fromByte (b : UInt8) : Option ChannelKind :=
  if b = 0 then some .broadcast
  else if b = 1 then some .megagroup
  else if b = 2 then some .gigagroup
  else none

def ChannelKind.toByte : ChannelKind → UInt8
  | .broadcast => 0
  | .megagroup => 1
  | .gigagroup => 2

/-- A cached access hash. `isChannel` is a channel or supergroup, `isChat` a regular
group, neither a user. -/
structure CachedPeer where
  id : Int64
  accessHash : Int64
  isChannel : Bool
  isChat : Bool
  channelKind : Option ChannelKind
  isCommunity : Bool
  deriving DecidableEq, Repr

/-- Where a user without a usable access hash was seen. -/
structure CachedMinPeer where
  userId : Int64
  peerId : Int64
  msgId : Int32
  deriving DecidableEq, Repr

/-- Everything that needs to survive a process restart. -/
structure PersistedSession where
  homeDcId : Int32
  dcs : List DcEntry
  updatesState : UpdatesStateSnap
  peers : List CachedPeer
  minPeers : List CachedMinPeer
  futureAuthToken : Option (List UInt8)
  deriving DecidableEq

/-- `PersistedSession::default()`. -/
def PersistedSession.default : PersistedSession :=
  { homeDcId := 0, dcs := [], updatesState := .default, peers := [], minPeers := [],
    futureAuthToken := none }

/-- The errors of `from_bytes`, both of kind `InvalidData`. -/
inductive SessionError where
  /-- "empty session data" -/
  | empty
  /-- "truncated session" -/
  | truncated
  deriving DecidableEq, Repr

/-! Writing. -/

/-- `len as u8` and `(len as u16).to_le_bytes()`. -/
def countU8 (n : Nat) : List UInt8 := le 1 n
def countU16 (n : Nat) : List UInt8 := le 2 n

def authKeyToBytes : Option (List.Vector UInt8 256) → List UInt8
  | some k => [1] ++ k.1
  | none => [0]

def addrToBytes (addr : String) : List UInt8 := countU8 (Utf8.encode addr).length ++ Utf8.encode addr

def dcToBytes (d : DcEntry) : List UInt8 :=
  ofI32 d.dcId ++ authKeyToBytes d.authKey ++ ofI64 d.firstSalt ++ ofI32 d.timeOffset ++
    addrToBytes d.addr ++ [d.flags.bits]

def channelToBytes (c : Int64 × Int32) : List UInt8 := ofI64 c.1 ++ ofI32 c.2

def updatesToBytes (u : UpdatesStateSnap) : List UInt8 :=
  ofI32 u.pts ++ ofI32 u.qts ++ ofI32 u.date ++ ofI32 u.seq ++ countU16 u.channels.length ++
    u.channels.flatMap channelToBytes

/-- 0 is a user, 1 a channel, 2 a chat. -/
def peerType (p : CachedPeer) : UInt8 := if p.isChat then 2 else if p.isChannel then 1 else 0

/-- `0xFF` for an absent kind. -/
def channelKindByte (p : CachedPeer) : UInt8 := (p.channelKind.map ChannelKind.toByte).getD 0xFF

def peerToBytes (p : CachedPeer) : List UInt8 :=
  ofI64 p.id ++ ofI64 p.accessHash ++ [peerType p] ++ [channelKindByte p] ++
    [if p.isCommunity then 1 else 0]

def minPeerToBytes (m : CachedMinPeer) : List UInt8 :=
  ofI64 m.userId ++ ofI64 m.peerId ++ ofI32 m.msgId

def tokenToBytes : Option (List UInt8) → List UInt8
  | some t => [1] ++ countU16 t.length ++ t
  | none => [0]

/-- `PersistedSession::to_bytes`: the format of version 8. -/
def PersistedSession.toBytes (s : PersistedSession) : List UInt8 :=
  [0x08] ++ ofI32 s.homeDcId ++
  countU8 s.dcs.length ++ s.dcs.flatMap dcToBytes ++
  updatesToBytes s.updatesState ++
  countU16 s.peers.length ++ s.peers.flatMap peerToBytes ++
  countU16 s.minPeers.length ++ s.minPeers.flatMap minPeerToBytes ++
  tokenToBytes s.futureAuthToken

/-! Reading. -/

/-- `r!(n)` and the macros over it. -/
def bytes (n : Nat) : Reader SessionError (List.Vector UInt8 n) := take .truncated n
def readI32 : Reader SessionError Int32 := do let b ← bytes 4; pure (toI32 b.1)
def readI64 : Reader SessionError Int64 := do let b ← bytes 8; pure (toI64 b.1)
def readU8 : Reader SessionError UInt8 := do let b ← bytes 1; pure b.head
def readU16 : Reader SessionError Nat := do let b ← bytes 2; pure (ofLe b.1)

/-- A file with a version byte: `home_dc_id` follows it. -/
def versioned (version : Nat) : Reader SessionError (Int32 × Nat) := do
  let homeDcId ← readI32
  pure (homeDcId, version)

/-- `home_dc_id` and the version. A first byte that is no version is the low byte of
the `home_dc_id` of a version 1 file. -/
def header (firstByte : UInt8) : Reader SessionError (Int32 × Nat) :=
  if firstByte = 0x08 then versioned 8
  else if firstByte = 0x07 then versioned 7
  else if firstByte = 0x06 then versioned 6
  else if firstByte = 0x05 then versioned 5
  else if firstByte = 0x04 then versioned 4
  else if firstByte = 0x03 then versioned 3
  else if firstByte = 0x02 then versioned 2
  else do
    let rest ← bytes 3
    pure (toI32 (firstByte :: rest.1), 1)

def readAuthKey : Reader SessionError (Option (List.Vector UInt8 256)) := do
  let hasKey ← readU8
  if hasKey = 1 then do
    let k ← bytes 256
    pure (some k)
  else pure none

def readAddr : Reader SessionError String := do
  let al ← readU8
  let b ← bytes al.toNat
  pure (Utf8.decodeLossy b.1)

def readFlags (version : Nat) : Reader SessionError DcFlags :=
  if 3 ≤ version then do
    let b ← readU8
    pure ⟨b⟩
  else pure DcFlags.NONE

def readDc (version : Nat) : Reader SessionError DcEntry := do
  let dcId ← readI32
  let authKey ← readAuthKey
  let firstSalt ← readI64
  let timeOffset ← readI32
  let addr ← readAddr
  let flags ← readFlags version
  pure { dcId, addr, authKey, firstSalt, timeOffset, flags }

def readChannel : Reader SessionError (Int64 × Int32) := do
  let cid ← readI64
  let cpts ← readI32
  pure (cid, cpts)

def readUpdates : Reader SessionError UpdatesStateSnap := do
  let pts ← readI32
  let qts ← readI32
  let date ← readI32
  let seq ← readI32
  let chCount ← readU16
  let channels ← many readChannel chCount
  pure { pts, qts, date, seq, channels }

/-- From version 6 on; `0xFF` and unknown kinds are absent. -/
def readChannelKind (version : Nat) : Reader SessionError (Option ChannelKind) :=
  if 6 ≤ version then do
    let kb ← readU8
    pure (if kb = 0xFF then none else ChannelKind.fromByte kb)
  else pure none

/-- From version 8 on. -/
def readCommunity (version : Nat) : Reader SessionError Bool :=
  if 8 ≤ version then do
    let b ← readU8
    pure (b != 0)
  else pure false

def readPeer (version : Nat) : Reader SessionError CachedPeer := do
  let id ← readI64
  let accessHash ← readI64
  let peerType ← readU8
  let channelKind ← readChannelKind version
  let isCommunity ← readCommunity version
  pure { id, accessHash, isChannel := peerType == 1, isChat := peerType == 2, channelKind,
         isCommunity }

def readMinPeer : Reader SessionError CachedMinPeer := do
  let userId ← readI64
  let peerId ← readI64
  let msgId ← readI32
  pure { userId, peerId, msgId }

/-- From version 4 on. -/
def readMinPeers (version : Nat) : Reader SessionError (List CachedMinPeer) :=
  if 4 ≤ version then do
    let count ← readU16
    many readMinPeer count
  else pure []

/-- From version 7 on. -/
def readToken (version : Nat) : Reader SessionError (Option (List UInt8)) :=
  if 7 ≤ version then do
    let hasToken ← readU8
    if hasToken = 1 then do
      let tl ← readU16
      let t ← bytes tl
      pure (some t.1)
    else pure none
  else pure none

/-- Everything after the DC table. -/
def readRest (version : Nat) (homeDcId : Int32) (dcs : List DcEntry) :
    Reader SessionError PersistedSession :=
  if version < 2 then
    pure { homeDcId, dcs, updatesState := .default, peers := [], minPeers := [],
           futureAuthToken := none }
  else do
    let updatesState ← readUpdates
    let peerCount ← readU16
    let peers ← many (readPeer version) peerCount
    let minPeers ← readMinPeers version
    let futureAuthToken ← readToken version
    pure { homeDcId, dcs, updatesState, peers, minPeers, futureAuthToken }

def readBody (h : Int32 × Nat) : Reader SessionError PersistedSession := do
  let dcCount ← readU8
  let dcs ← many (readDc h.2) dcCount.toNat
  readRest h.2 h.1 dcs

def readHeader : Reader SessionError (Int32 × Nat) := do
  let firstByte ← readU8
  header firstByte

def readSession : Reader SessionError PersistedSession := do
  let h ← readHeader
  readBody h

/-- `PersistedSession::from_bytes`. What follows the last field is not looked at. -/
def PersistedSession.fromBytes (buf : List UInt8) : Except SessionError PersistedSession :=
  if buf = [] then .error .empty
  else
    match readSession.run buf with
    | .ok (s, _) => .ok s
    | .error e => .error e

end Ferogram.Session
