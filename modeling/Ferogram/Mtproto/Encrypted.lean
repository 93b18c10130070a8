import Ferogram.Lib.Bytes

/- The client side of an encrypted MTProto session: message ids, sequence numbers and
   the envelope of an outgoing message (`ferogram-mtproto/src/encrypted.rs`).

   A reading of the system clock is an argument of every function that takes one, and
   so are the random bytes of a new session id. A function that packs returns the
   envelope; what goes over the wire is `encrypt_data_v2` of its bytes under the auth
   key. Integer arithmetic wraps. -/
namespace Ferogram.Mtproto
open Bytes

/-- `SystemTime::now().duration_since(UNIX_EPOCH)`. -/
structure Clock where
  secs : UInt64
  nanos : UInt32
  nanos_lt : nanos < 1000000000
  deriving DecidableEq

structure EncryptedSession where
  sessionId : Int64
  sequence : Int32
  lastMsgId : Int64
  salt : Int64
  timeOffset : Int32
  /-- Message ids are multiples of four, and so is whatever takes the place of the last one. -/
  aligned : 4 ∣ lastMsgId.toInt
  deriving DecidableEq, Repr

/-- A message before encryption. -/
structure Envelope where
  salt : Int64
  sessionId : Int64
  msgId : Int64
  seqNo : Int32
  body : List UInt8
  deriving DecidableEq, Repr

def Envelope.bytes (e : Envelope) : List UInt8 :=
  ofI64 e.salt ++ ofI64 e.sessionId ++ ofI64 e.msgId ++ ofI32 e.seqNo ++ le 4 e.body.length ++ e.body

/-- The id the clock asks for: corrected seconds in the upper half, four times the
nanoseconds in the lower half, which must not be zero. -/
def clockMsgId (now : Clock) (timeOffset : Int32) : Int64 :=
  let secs := now.secs + timeOffset.toInt64.toUInt64
  let nanos := now.nanos.toUInt64
  let id := (secs <<< 32) ||| (nanos <<< 2)
  let id := if id &&& 0xFFFFFFFF = 0 then id ||| 4 else id
  id.toInt64

/-! Message ids are multiples of four. -/

/-- An `i64` has the remainder of its bits. -/
theorem toInt_toInt64_emod (x : UInt64) : x.toInt64.toInt % 4 = (x.toNat : Int) % 4 := by
  have h : x.toInt64.toInt = (x.toNat : Int).bmod (2 ^ 64) := BitVec.toInt_eq_toNat_bmod x.toBitVec
  rw [h, Int.bmod_def]
  split <;> omega

theorem clockMsgId_dvd (now : Clock) (timeOffset : Int32) :
    4 ∣ (clockMsgId now timeOffset).toInt := by
  have hid : ((now.secs + timeOffset.toInt64.toUInt64) <<< 32 |||
      now.nanos.toUInt64 <<< 2).toNat % 4 = 0 := by
    rw [UInt64.toNat_or, show (4 : Nat) = 2 ^ 2 from rfl, Nat.or_mod_two_pow]
    simp [UInt64.toNat_shiftLeft, Nat.shiftLeft_eq]
    omega
  unfold clockMsgId
  rw [Int.dvd_iff_emod_eq_zero, toInt_toInt64_emod]
  split
  · rw [UInt64.toNat_or]
    have hor : ∀ a : Nat, a % 4 = 0 → (a ||| 4) % 4 = 0 := by
      intro a ha
      rw [show (4 : Nat) = 2 ^ 2 from rfl] at ha ⊢
      rw [Nat.or_mod_two_pow, ha]
      rfl
    have := hor _ hid
    exact_mod_cast this
  · exact_mod_cast hid

/-- Clearing the two low bits. -/
theorem seed_dvd (m : Int64) : 4 ∣ (m &&& ~~~3).toInt := by
  have hbits : (m &&& ~~~3).toUInt64.toNat % 4 = 0 := by
    show (m.toUInt64 &&& ~~~3).toNat % 2 ^ 2 = 0
    rw [UInt64.toNat_and, Nat.and_mod_two_pow]
    simp
  rw [Int.dvd_iff_emod_eq_zero, ← Int64.toInt64_toUInt64 (m &&& ~~~3), toInt_toInt64_emod]
  exact_mod_cast hbits

/-- The wrapped sum differs from the sum by a multiple of `2 ^ 64`. -/
theorem add_four_dvd {m : Int64} (h : 4 ∣ m.toInt) : 4 ∣ (m + 4).toInt := by
  have hsum : (m + 4).toInt = (m.toInt + 4).bmod (2 ^ 64) := Int64.toInt_add m 4
  rw [hsum, Int.bmod_def]
  split <;> omega

namespace EncryptedSession

/-- The id that comes next: the clock's, or four more than the last where the clock is behind. -/
def nextId (s : EncryptedSession) (now : Clock) : Int64 :=
  let id := clockMsgId now s.timeOffset
  if id ≤ s.lastMsgId then s.lastMsgId + 4 else id

theorem nextId_dvd (s : EncryptedSession) (now : Clock) : 4 ∣ (s.nextId now).toInt := by
  unfold nextId
  dsimp only
  split
  · exact add_four_dvd s.aligned
  · exact clockMsgId_dvd now s.timeOffset

def new (sessionId firstSalt : Int64) (timeOffset : Int32) : EncryptedSession :=
  { sessionId := sessionId, sequence := 0, lastMsgId := 0, salt := firstSalt,
    timeOffset := timeOffset, aligned := Int.dvd_zero 4 }

def nextMsgId (s : EncryptedSession) (now : Clock) : Int64 × EncryptedSession :=
  (s.nextId now, { s with lastMsgId := s.nextId now, aligned := s.nextId_dvd now })

/-- For content-related messages. -/
def nextSeqNo (s : EncryptedSession) : Int32 × EncryptedSession :=
  (s.sequence * 2 + 1, { s with sequence := s.sequence + 1 })

/-- For service messages; the counter stays. -/
def nextSeqNoNcr (s : EncryptedSession) : Int32 := s.sequence * 2

def resetSession (s : EncryptedSession) (fresh : Int64) : EncryptedSession :=
  { s with sessionId := fresh, sequence := 0, lastMsgId := 0, aligned := Int.dvd_zero 4 }

/-- Codes 32 and 33 of `bad_msg_notification`. -/
def correctSeqNo (s : EncryptedSession) (fresh : Int64) : EncryptedSession := s.resetSession fresh

/-- `sequence.saturating_sub(1)`. -/
def undoSeqNo (s : EncryptedSession) : EncryptedSession :=
  { s with sequence := if s.sequence = Int32.minValue then s.sequence else s.sequence - 1 }

/-- Codes 16 and 17 of `bad_msg_notification`. -/
def correctTimeOffset (s : EncryptedSession) (now : Clock) (serverMsgId : Int64) : EncryptedSession :=
  let serverTime := (serverMsgId >>> 32).toInt32
  let localNow := now.secs.toInt64.toInt32
  { s with
    timeOffset := serverTime - localNow
    lastMsgId := if serverMsgId &&& ~~~3 ≤ s.lastMsgId then s.lastMsgId else serverMsgId &&& ~~~3
    aligned := by
      split
      · exact s.aligned
      · exact seed_dvd serverMsgId }

def resetSeqNoOnly (s : EncryptedSession) : EncryptedSession :=
  { s with sequence := 0, lastMsgId := 0, aligned := Int.dvd_zero 4 }

/-- A fresh id and sequence number. -/
def allocMsgSeqno (s : EncryptedSession) (now : Clock) (contentRelated : Bool) :
    (Int64 × Int32) × EncryptedSession :=
  let (msgId, s) := s.nextMsgId now
  if contentRelated then
    let (seqno, s) := s.nextSeqNo
    ((msgId, seqno), s)
  else ((msgId, s.nextSeqNoNcr), s)

def packBodyWithMsgId (s : EncryptedSession) (now : Clock) (body : List UInt8)
    (contentRelated : Bool) : Envelope × EncryptedSession :=
  let ((msgId, seqNo), s) := s.allocMsgSeqno now contentRelated
  ({ salt := s.salt, sessionId := s.sessionId, msgId := msgId, seqNo := seqNo, body := body }, s)

/-- The container itself is not content-related. -/
def packContainer (s : EncryptedSession) (now : Clock) (containerBody : List UInt8) :
    Envelope × EncryptedSession :=
  s.packBodyWithMsgId now containerBody false

/-- The id is the caller's; `last_msg_id` is neither read nor written. -/
def packBodyAtMsgId (s : EncryptedSession) (body : List UInt8) (msgId : Int64) :
    Envelope × EncryptedSession :=
  let (seqNo, s) := s.nextSeqNo
  ({ salt := s.salt, sessionId := s.sessionId, msgId := msgId, seqNo := seqNo, body := body }, s)

/-- `pack_serializable`, `pack_serializable_with_msg_id`, `pack_with_msg_id` and `pack`, on the
bytes of the call. -/
def packSerializable (s : EncryptedSession) (now : Clock) (call : List UInt8) :
    Envelope × EncryptedSession :=
  s.packBodyWithMsgId now call true

def packSerializableWithMsgId (s : EncryptedSession) (now : Clock) (call : List UInt8) :
    Envelope × EncryptedSession :=
  s.packBodyWithMsgId now call true

def packWithMsgId (s : EncryptedSession) (now : Clock) (call : List UInt8) :
    Envelope × EncryptedSession :=
  s.packBodyWithMsgId now call true

def pack (s : EncryptedSession) (now : Clock) (call : List UInt8) : Envelope × EncryptedSession :=
  s.packBodyWithMsgId now call true

end EncryptedSession

end Ferogram.Mtproto
