import Ferogram.Lib.Decimal
import Ferogram.Mtproto.Unpack
import Ferogram.Mtsender.Receive
import Ferogram.Mtsender.Sender

/- `MtpSender::step` (`ferogram-mtsender/src/mtp_sender.rs`): what a poll of it does with what
   is ready, and the frames it takes off a read.

   `MtpSender` is the part that writes and `Receiver` the part that reads; `Duplex` is both,
   on one connection. Times are milliseconds. The frames are counted, and an update names the
   frame it came in; both are for the statements only.

   What is proved: `frames_handed_iff`. The updates of the frames in front of one that fails
   are lost, so they reach the caller only if there are none. -/
namespace Ferogram.Mtsender
open Bytes Connect Mtproto Framing
open Crypto (Primitives)

def pingDelay : Nat := 60 * 1000
def readTimeout : Nat := 90 * 1000

/-- What a connection comes with: the session with its key and the ring of its seen ids, and the
transport as the handshake has left it. `decodedPending` is what it has decoded too far. -/
structure Connection where
  enc : EncryptedSession
  authKey : List.Vector UInt8 256
  seen : SeenMsgIds
  kind : FrameKind
  key : Nat → UInt8
  pos : Position
  tlsRawPending : List UInt8
  decodedPending : List UInt8

/-- What the read buffer begins with: FakeTLS may have decoded bytes already. -/
def Connection.drainFaketlsHandoff (c : Connection) : List UInt8 :=
  if c.kind = .fakeTls then c.decodedPending.take readBufCap else []

structure Duplex where
  sender : MtpSender
  receiver : Receiver
  authKey : List.Vector UInt8 256
  seen : SeenMsgIds
  kind : FrameKind
  key : Nat → UInt8
  nextPing : Nat
  frames : Nat

structure Update where
  frame : Nat
  body : List UInt8
  deriving DecidableEq, Repr

/-! Texts. -/

def hex32 (n : Nat) : String :=
  let digits := Nat.toDigits 16 n
  "0x" ++ String.ofList (List.replicate (8 - digits.length) '0' ++ digits)

def intText (n : Int) : String := String.ofList (Decimal.format n)

/-- As an error of the call. -/
def RecvError.toInvocation (kind : FrameKind) : RecvError → InvocationError
  | .transportCode code =>
    .io ((if kind = .full then "Full transport code " else "transport code ") ++ intText code.toInt)
  | .packetTooShort total => .deserialize ("Full: packet too short (" ++ intText total ++ ")")
  | .crcMismatch actual expected =>
    .deserialize ("Full: CRC mismatch (got " ++ hex32 actual ++ ", expected " ++ hex32 expected ++ ")")
  | .badSeq got expected =>
    .deserialize ("Full: bad seq (got " ++ intText (Int32.ofNat got).toInt ++ ", expected " ++
      intText (Int32.ofNat expected).toInt ++ ")")
  | .bufferOverflow => .io "read buffer overflow: server outpaced frame draining"
  | .unexpectedRecord recType =>
    if recType = 22 then .io "FakeTLS: unexpected Handshake record after handshake completed"
    else .io ("FakeTLS: unexpected TLS record type 0x" ++
      String.ofList (List.replicate (2 - (Nat.toDigits 16 recType.toNat).length) '0' ++ Nat.toDigits 16 recType.toNat))

/-- "decrypt: " and the error. -/
def decryptError (e : UnpackError) : InvocationError :=
  let text := match e with
    | .crypto .invalidBuffer => "Crypto(InvalidBuffer)"
    | .crypto .authKeyMismatch => "Crypto(AuthKeyMismatch)"
    | .crypto .messageKeyMismatch => "Crypto(MessageKeyMismatch)"
    | .frameTooShort => "FrameTooShort"
    | .sessionMismatch => "SessionMismatch"
    | .msgIdTimeWindow => "MsgIdTimeWindow"
    | .duplicateMsgId => "DuplicateMsgId"
    | .invalidMsgId => "InvalidMsgId"
  .deserialize ("decrypt: " ++ text)

/-! Frames. -/

namespace Duplex

section
variable (P : Primitives) (w : World) (fuel : Nat)

/-- Decrypt a payload and dispatch its body. `none` is for want of fuel. -/
def processPayload (d : Duplex) (payload : List UInt8) : Option (Duplex × Except InvocationError (List (List UInt8))) :=
  let (result, seen) := d.sender.enc.unpack P d.authKey d.seen (w.clock d.sender.tick) payload
  let d := { d with seen := seen, sender := { d.sender with tick := d.sender.tick + 1 } }
  match result with
  | .error e => some (d, .error (decryptError e))
  | .ok msg => do
    let (s, updates) ← MtpSender.dispatch w fuel (d.sender.acknowledge msg.msgId) msg.body msg.msgId
    return ({ d with sender := s }, .ok updates)

/-- A frame is taken off the buffer. -/
def take (d : Duplex) (rest : List UInt8) (seqno : UInt32) : Duplex :=
  { d with
    receiver := { d.receiver with readBuf := rest, pos := { d.receiver.pos with seqno := seqno } }
    frames := d.frames + 1 }

/-- Up to as many frames as there are bytes. -/
def drainFrames : Nat → Duplex → List Update → Option (Duplex × Except InvocationError (List Update))
  | 0, d, updates => some (d, .ok updates)
  | n + 1, d, updates =>
    match peelOne d.kind d.receiver.pos.seqno d.receiver.readBuf with
    | .complete payload rest seqno => do
      let (d', result) ← (d.take rest seqno).processPayload P w fuel payload
      match result with
      | .ok u => drainFrames n d' (updates ++ u.map (Update.mk d.frames))
      | .error e => some (d', .error e)
    | .incomplete => some (d, .ok updates)
    | .err e => some (d, .error (e.toInvocation d.kind))

/-- `ingest_read`, then `drain_frames`. -/
def onRead (d : Duplex) (read : List UInt8) : Option (Duplex × Except InvocationError (List Update)) :=
  match d.receiver.ingestRead d.key d.kind read with
  | .error e => some (d, .error (e.toInvocation d.kind))
  | .ok receiver => drainFrames P w fuel receiver.readBuf.length { d with receiver := receiver } []

end

/-! What else is done to a sender. -/

/-- `build_msgs_ack_ping_body`: a `ping_delay_disconnect` of 75 seconds. -/
def pingBody (pingId : Int64) : List UInt8 := le 4 0xf3427b8c ++ ofI64 pingId ++ ofI32 75

/-- The ping goes the way of a request, and nobody waits for its answer. -/
def ping (w : World) (d : Duplex) (now : Nat) (tx : Nat) : Duplex :=
  let s := { d.sender with tick := d.sender.tick + 1 }
  { d with sender := s.enqueue (pingBody (w.random d.sender.tick)) tx, nextPing := now + pingDelay }

/-- `fail_all`, without the answers it gives. -/
def failAll (d : Duplex) : Duplex :=
  { d with sender := { d.sender with requests := [], writeBuf := [], writeHead := 0, pendingAck := [], resendQueue := [] } }

/-- Every request is pending again. -/
def setStream (d : Duplex) (c : Connection) (now : Nat) : Duplex :=
  { d with
    sender := { d.sender with
      enc := c.enc
      requests := d.sender.requests.map fun req => { req with state := .pending }
      pendingAck := []
      resendQueue := []
      writeBuf := []
      writeHead := 0 }
    receiver :=
      { readBuf := c.drainFaketlsHandoff
        pos := c.pos
        tlsRawPending := c.tlsRawPending }
    authKey := c.authKey
    seen := c.seen
    kind := c.kind
    key := c.key
    nextPing := now + pingDelay }

/-! The updates of a read. -/

inductive Op where
  | enqueue (body : List UInt8) (tx : Nat)
  | tryFillWrite
  | wrote (n : Nat)
  | ping (now tx : Nat)
  | read (bytes : List UInt8)
  | failAll
  | setStream (c : Connection) (now : Nat)

section
variable (P : Primitives) (w : World) (fuel : Nat)

/-- With the updates that the caller is handed. -/
def apply (d : Duplex) : Op → Option (Duplex × List Update)
  | .enqueue body tx => some ({ d with sender := d.sender.enqueue body tx }, [])
  | .tryFillWrite => some ({ d with sender := (d.sender.tryFillWrite w).1 }, [])
  | .wrote n => some ({ d with sender := d.sender.wrote n }, [])
  | .ping now tx => some (d.ping w now tx, [])
  | .read bytes => do
    let (d, result) ← d.onRead P w fuel bytes
    return (d, result.toOption.getD [])
  | .failAll => some (d.failAll, [])
  | .setStream c now => some (d.setStream c now, [])

/-- All that the caller is handed. -/
def handed (d : Duplex) : List Op → List Update
  | [] => []
  | op :: ops =>
    match d.apply P w fuel op with
    | some (d, updates) => updates ++ handed d ops
    | none => []

/-- The updates of the frames in front of the first that fails, and its error. -/
def carried : Nat → Duplex → Option (List Update × Option InvocationError)
  | 0, _ => some ([], none)
  | n + 1, d =>
    match peelOne d.kind d.receiver.pos.seqno d.receiver.readBuf with
    | .complete payload rest seqno => do
      let (d', result) ← (d.take rest seqno).processPayload P w fuel payload
      match result with
      | .ok u => do
        let (updates, e) ← carried n d'
        return (u.map (Update.mk d.frames) ++ updates, e)
      | .error e => some ([], some e)
    | .incomplete => some ([], none)
    | .err e => some ([], some (e.toInvocation d.kind))

/-- Of a read. -/
def carriedIn (d : Duplex) (read : List UInt8) : Option (List Update × Option InvocationError) :=
  match d.receiver.ingestRead d.key d.kind read with
  | .error e => some ([], some (e.toInvocation d.kind))
  | .ok receiver => carried P w fuel receiver.readBuf.length { d with receiver := receiver }

end

/-- The updates, or an error in their place. -/
def returned (updates : List Update) : Option InvocationError → Except InvocationError (List Update)
  | none => .ok updates
  | some e => .error e

variable {P : Primitives} {w : World} {fuel : Nat}

theorem processPayload_frames {d d' : Duplex} {payload : List UInt8} {result : Except InvocationError (List (List UInt8))}
    (h : d.processPayload P w fuel payload = some (d', result)) : d'.frames = d.frames := by
  unfold processPayload at h
  dsimp only at h
  split at h
  · cases h
    rfl
  · obtain ⟨x, -, hx⟩ := Option.bind_eq_some_iff.mp h
    cases hx
    rfl

/-- The loop returns what the frames carry, or the error alone. Their numbers are those of the frames
that it takes off. -/
theorem drainFrames_carried (n : Nat) (d : Duplex) (updates : List Update) {d' : Duplex}
    {result : Except InvocationError (List Update)} (h : drainFrames P w fuel n d updates = some (d', result)) :
    ∃ more e, carried P w fuel n d = some (more, e) ∧
      result = returned (updates ++ more) e ∧
      d.frames ≤ d'.frames ∧ ∀ u ∈ more, d.frames ≤ u.frame ∧ u.frame < d'.frames := by
  induction n generalizing d updates with
  | zero =>
    cases h
    exact ⟨[], none, rfl, congrArg Except.ok (List.append_nil updates).symm, Nat.le_refl _, nofun⟩
  | succ n ih =>
    unfold drainFrames at h
    unfold carried
    split at h
    · next payload rest seqno hpeel =>
      obtain ⟨⟨d₁, r⟩, hprocess, h⟩ := Option.bind_eq_some_iff.mp h
      have hframes : d₁.frames = d.frames + 1 := processPayload_frames hprocess
      dsimp only at h ⊢
      rw [hprocess]
      cases r with
      | error e =>
        cases h
        exact ⟨[], some e, rfl, rfl, by omega, nofun⟩
      | ok u =>
        obtain ⟨more, e, hcarried, hresult, hle, hnumbers⟩ := ih _ _ h
        -- the updates of this frame come before those of the later ones
        refine ⟨u.map (Update.mk d.frames) ++ more, e, ?_, ?_, by omega, ?_⟩
        · dsimp only [Option.bind_some, bind, Option.bind] at hcarried ⊢
          rw [hcarried]
          rfl
        · rw [hresult]
          cases e with
          | none => exact congrArg Except.ok (List.append_assoc _ _ _)
          | some e => rfl
        · intro x hx
          rcases List.mem_append.mp hx with hx | hx
          · obtain ⟨body, -, rfl⟩ := List.mem_map.mp hx
            exact ⟨Nat.le_refl _, by dsimp only; omega⟩
          · obtain ⟨hlow, hhigh⟩ := hnumbers x hx
            exact ⟨by omega, hhigh⟩
    · next hpeel =>
      cases h
      exact ⟨[], none, rfl, congrArg Except.ok (List.append_nil updates).symm, Nat.le_refl _, nofun⟩
    · next e hpeel =>
      cases h
      exact ⟨[], some _, rfl, rfl, Nat.le_refl _, nofun⟩

theorem onRead_carried {d d' : Duplex} {read : List UInt8} {result : Except InvocationError (List Update)}
    (h : d.onRead P w fuel read = some (d', result)) :
    ∃ updates e, d.carriedIn P w fuel read = some (updates, e) ∧ result = returned updates e ∧
      d.frames ≤ d'.frames ∧ ∀ u ∈ updates, d.frames ≤ u.frame ∧ u.frame < d'.frames := by
  unfold onRead at h
  unfold carriedIn
  split at h
  · cases h
    exact ⟨[], some _, rfl, rfl, Nat.le_refl _, nofun⟩
  · exact drainFrames_carried _ _ _ h

/-- Later frames have higher numbers. -/
theorem apply_frames {d d' : Duplex} {op : Op} {updates : List Update} (h : d.apply P w fuel op = some (d', updates)) :
    d.frames ≤ d'.frames ∧ ∀ u ∈ updates, d.frames ≤ u.frame := by
  cases op with
  | read bytes =>
    obtain ⟨⟨d₁, result⟩, hread, hupdates⟩ := Option.bind_eq_some_iff.mp h
    cases hupdates
    obtain ⟨more, e, -, rfl, hle, hnumbers⟩ := onRead_carried hread
    refine ⟨hle, fun u hu => ?_⟩
    cases e with
    | none => exact (hnumbers u hu).1
    | some e => cases hu
  | _ =>
    cases h
    exact ⟨Nat.le_refl _, nofun⟩

theorem handed_frames (d : Duplex) (ops : List Op) : ∀ u ∈ d.handed P w fuel ops, d.frames ≤ u.frame := by
  induction ops generalizing d with
  | nil => exact nofun
  | cons op ops ih =>
    intro u hu
    unfold handed at hu
    split at hu
    · next d' updates happly =>
      obtain ⟨hle, hnumbers⟩ := apply_frames happly
      rcases List.mem_append.mp hu with hu | hu
      · exact hnumbers u hu
      · exact Nat.le_trans hle (ih d' u hu)
    · cases hu

theorem handed_read {d d' : Duplex} {read : List UInt8} {result : Except InvocationError (List Update)}
    (h : d.onRead P w fuel read = some (d', result)) (later : List Op) :
    d.handed P w fuel (.read read :: later) = result.toOption.getD [] ++ d'.handed P w fuel later := by
  have happly : d.apply P w fuel (.read read) = some (d', result.toOption.getD []) := by
    change (d.onRead P w fuel read).bind _ = _
    rw [h]
    rfl
  rw [handed, happly]

/-- What a read with an error has taken off is handed over neither now nor later. -/
theorem lost_of_error {d : Duplex} {read : List UInt8} {updates : List Update} {e : InvocationError} {later : List Op}
    (hread : (d.onRead P w fuel read).isSome) (hcarried : d.carriedIn P w fuel read = some (updates, some e))
    (hsub : updates.Sublist (d.handed P w fuel (.read read :: later))) : updates = [] := by
  obtain ⟨⟨d', result⟩, h⟩ := Option.isSome_iff_exists.mp hread
  obtain ⟨updates', e', hcarried', rfl, -, hnumbers⟩ := onRead_carried h
  cases hcarried.symm.trans hcarried'
  rw [handed_read h] at hsub
  apply List.eq_nil_iff_forall_not_mem.mpr
  intro u hu
  -- What comes later comes from frames behind this read.
  have hlate := handed_frames d' later u (hsub.subset hu)
  have hearly := (hnumbers u hu).2
  omega

/-- **Frames in front of a bad one.** Their updates reach the caller, by this read or by anything that
is done later, exactly if no frame fails or they have no updates. -/
theorem frames_handed_iff (P : Primitives) (w : World) (fuel : Nat) (d d' : Duplex) (read : List UInt8)
    (result : Except InvocationError (List Update)) (h : d.onRead P w fuel read = some (d', result)) :
    ∃ updates e, d.carriedIn P w fuel read = some (updates, e) ∧
      ((∃ later, updates.Sublist (d.handed P w fuel (.read read :: later))) ↔ e = none ∨ updates = []) ∧
      (e = none ∨ updates = [] → ∀ later, updates.Sublist (d.handed P w fuel (.read read :: later))) := by
  obtain ⟨updates, e, hcarried, rfl, -, -⟩ := onRead_carried h
  have hall : e = none ∨ updates = [] → ∀ later, updates.Sublist (d.handed P w fuel (.read read :: later)) := by
    intro hcond later
    rw [handed_read h]
    rcases hcond with rfl | rfl
    · exact List.sublist_append_left updates _
    · exact List.nil_sublist _
  refine ⟨updates, e, hcarried, ⟨?_, fun hcond => ⟨[], hall hcond []⟩⟩, hall⟩
  rintro ⟨later, hsub⟩
  cases e with
  | none => exact Or.inl rfl
  | some e => exact Or.inr (lost_of_error (by rw [h]; rfl) hcarried hsub)

/-! A frame with an update, and a transport code behind it. -/

def listening : Duplex where
  sender := idle
  receiver := { readBuf := [], pos := { offset := 0, seqno := 0 }, tlsRawPending := [] }
  authKey := List.Vector.replicate 256 0
  seen := .new
  kind := .abridged
  key _ := 0
  nextPing := pingDelay
  frames := 0

/-- `updatesTooLong`, for session 77 at the time of the clock. -/
def oneUpdate : Envelope where
  salt := 0
  sessionId := 77
  msgId := Int64.ofNat (1700000000 * 2 ^ 32 + 1)
  seqNo := 1
  body := le 4 0xe317af7e

def updateThenCode : List UInt8 :=
  18 :: (List.replicate 24 0 ++ oneUpdate.bytes ++ List.replicate 12 0) ++ [0x80, 0xff, 0xff, 0xff]

theorem updateThenCode_carried : listening.carriedIn Crypto.plainPrimitives plainWorld 1 updateThenCode =
    some ([⟨0, le 4 0xe317af7e⟩], some (.io "transport code -128")) := by
  decide +kernel

theorem updateThenCode_read : (listening.onRead Crypto.plainPrimitives plainWorld 1 updateThenCode).isSome = true := by
  decide +kernel

/-- The update is lost. -/
theorem update_lost : ¬ ∀ (P : Primitives) (w : World) (fuel : Nat) (d : Duplex) (read : List UInt8)
    (updates : List Update) (e : Option InvocationError), (d.onRead P w fuel read).isSome →
    d.carriedIn P w fuel read = some (updates, e) →
    ∃ later, updates.Sublist (d.handed P w fuel (.read read :: later)) := by
  intro h
  obtain ⟨later, hsub⟩ := h _ _ _ _ _ _ _ updateThenCode_read updateThenCode_carried
  cases lost_of_error updateThenCode_read updateThenCode_carried hsub

theorem updateThenCode_handed : ∃ updates e,
    listening.carriedIn Crypto.plainPrimitives plainWorld 1 updateThenCode = some (updates, e) ∧
      ((∃ later, updates.Sublist
        (listening.handed Crypto.plainPrimitives plainWorld 1 (.read updateThenCode :: later))) ↔
          e = none ∨ updates = []) ∧
      (e = none ∨ updates = [] → ∀ later, updates.Sublist
        (listening.handed Crypto.plainPrimitives plainWorld 1 (.read updateThenCode :: later))) := by
  obtain ⟨⟨d', result⟩, h⟩ := Option.isSome_iff_exists.mp updateThenCode_read
  exact frames_handed_iff Crypto.plainPrimitives plainWorld 1 listening d' updateThenCode result h

end Duplex

end Ferogram.Mtsender
