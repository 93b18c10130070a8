import Ferogram.Lib.FirstMatch
import Ferogram.Connect.Util
import Ferogram.Mtproto.Encrypted

/- The single-task sender (`ferogram-mtsender/src/mtp_sender.rs`): requests with their
   state, the frame that carries them out and the messages that come back.

   The receiving end of each request's oneshot channel is a number; `answers` is what
   the channels have been sent, in order. What the sender takes from outside is a
   `World`: the clock, random numbers, the inflater of a third-party crate, and the
   encryption and framing of an envelope. They are indexed by `tick`, the number of
   times the sender has asked for one of them. `dispatch` recurses into containers and
   into inflated messages, whose size nothing bounds, so it carries fuel. -/
namespace Ferogram.Mtsender
open Bytes Connect Mtproto

structure World where
  clock : Nat → Clock
  random : Nat → Int64
  gzInflate : List UInt8 → Option (List UInt8)
  /-- `encrypt_data_v2`, then `frame_encode`. -/
  encode : Nat → Envelope → List UInt8

/-- Not yet serialised; serialised, the write not complete; written, waiting for the
result. -/
inductive MsgState where
  | pending
  | serialised (msgId containerMsgId : Int64)
  | sent (msgId containerMsgId : Int64)
  deriving DecidableEq, Repr

structure RpcError where
  code : Int32
  name : String
  value : Option UInt32
  deriving DecidableEq, Repr

/-- What a call that talks to the server can fail with. -/
inductive InvocationError where
  | rpc (e : RpcError)
  | io (text : String)
  | deserialize (text : String)
  | dropped
  | migrate (dcId : Int32)
  | staleHash
  | peerNotCached (text : String)
  deriving DecidableEq, Repr

/-- What a caller gets. -/
abbrev Outcome := Except RpcError (List UInt8)

structure Request where
  body : List UInt8
  state : MsgState
  tx : Nat
  deriving DecidableEq, Repr

structure MtpSender where
  enc : EncryptedSession
  requests : List Request
  pendingAck : List Int64
  resendQueue : List (List UInt8)
  writeBuf : List UInt8
  writeHead : Nat
  answers : List (Nat × Outcome)
  tick : Nat

namespace MsgState

/-- The id of a request that is on its way or out. -/
def msgId? : MsgState → Option Int64
  | .pending => none
  | .serialised msgId _ | .sent msgId _ => some msgId

def containerMsgId? : MsgState → Option Int64
  | .pending => none
  | .serialised _ containerMsgId | .sent _ containerMsgId => some containerMsgId

end MsgState

/-- `RpcError::from_telegram`: a number after the last underscore is the error's value. -/
def RpcError.fromTelegram (code : Int32) (message : String) : RpcError :=
  let chars := message.toList
  let suffix := (chars.reverse.takeWhile (· ≠ '_')).reverse
  let number := suffix.foldl (fun n c => 10 * n + (c.toNat - '0'.toNat)) 0
  if chars.contains '_' ∧ suffix ≠ [] ∧ suffix.all Char.isDigit ∧ number < 2 ^ 32 then
    { code := code
      name := String.ofList (chars.take (chars.length - suffix.length - 1))
      value := some (UInt32.ofNat number) }
  else { code := code, name := message, value := none }

namespace MtpSender

def enqueue (s : MtpSender) (body : List UInt8) (tx : Nat) : MtpSender :=
  { s with requests := s.requests ++ [{ body := body, state := .pending, tx := tx }] }

/-! The frame that goes out. -/

/-- A frame: its envelope, and the messages the envelope carries. -/
structure Packed where
  envelope : Envelope
  inner : List InnerMessage

/-- The first pending request with the body. -/
def markSerialised (s : MtpSender) (body : List UInt8) (msgId containerMsgId : Int64) : MtpSender :=
  { s with
    requests := FirstMatch.changeFirst (fun req => req.state = .pending ∧ req.body = body)
      (fun req => { req with state := .serialised msgId containerMsgId }) s.requests }

/-- An id and a sequence number for every message of a container. -/
def allocAll (w : World) : Nat → EncryptedSession → List (List UInt8 × Bool) →
    List InnerMessage × EncryptedSession
  | _, enc, [] => ([], enc)
  | tick, enc, (body, contentRelated) :: msgs =>
    let ((msgId, seqno), enc) := enc.allocMsgSeqno (w.clock tick) contentRelated
    let (inner, enc) := allocAll w (tick + 1) enc msgs
    ({ msgId := msgId, seqno := seqno, body := body } :: inner, enc)

/-- What goes into the next frame: acknowledgements, resends, pending requests, each with
whether it is content-related. -/
def collect (s : MtpSender) : List (List UInt8 × Bool) :=
  (if s.pendingAck = [] then [] else [(buildMsgsAckBody s.pendingAck, false)]) ++
    s.resendQueue.map (·, true) ++
    (s.requests.filter (·.state = .pending)).map fun req => (req.body, true)

def packSingle (w : World) (s : MtpSender) (body : List UInt8) (contentRelated : Bool) :
    MtpSender × Packed :=
  let (e, enc) := s.enc.packBodyWithMsgId (w.clock s.tick) body contentRelated
  let s := { s with enc := enc, tick := s.tick + 1 }
  (s.markSerialised body e.msgId e.msgId,
    { envelope := e, inner := [{ msgId := e.msgId, seqno := e.seqNo, body := body }] })

def packContainer (w : World) (s : MtpSender) (msgs : List (List UInt8 × Bool)) :
    MtpSender × Packed :=
  let (inner, enc) := allocAll w s.tick s.enc msgs
  let (e, enc) := enc.packContainer (w.clock (s.tick + msgs.length)) (buildContainerBody inner)
  let s := { s with enc := enc, tick := s.tick + msgs.length + 1 }
  (inner.foldl (fun s m => s.markSerialised m.body m.msgId e.msgId) s,
    { envelope := e, inner := inner })

/-- Pack what is pending into one frame, unless the last one is still being written. -/
def tryFillWrite (w : World) (s : MtpSender) : MtpSender × Option Packed :=
  if s.writeHead < s.writeBuf.length then (s, none)
  else
    let msgs := s.collect
    let s := { s with writeBuf := [], writeHead := 0, pendingAck := [], resendQueue := [] }
    match msgs with
    | [] => (s, none)
    | msgs =>
      let (s, packed) := match msgs with
        | [(body, contentRelated)] => packSingle w s body contentRelated
        | msgs => packContainer w s msgs
      ({ s with writeBuf := w.encode s.tick packed.envelope, tick := s.tick + 1 }, some packed)

/-- `n` more bytes are written. -/
def wrote (s : MtpSender) (n : Nat) : MtpSender :=
  if s.writeBuf.length ≤ s.writeHead + n then
    { s with
      writeBuf := []
      writeHead := 0
      requests := s.requests.map fun req =>
        match req.state with
        | .serialised msgId containerMsgId => { req with state := .sent msgId containerMsgId }
        | _ => req }
  else { s with writeHead := s.writeHead + n }

/-! Messages that come back. -/

/-- `Sent` under this id. -/
def sentAs (msgId : Int64) (req : Request) : Bool :=
  match req.state with
  | .sent id _ => id = msgId
  | _ => false

/-- `Sent` in the container with this id. -/
def sentIn (containerMsgId : Int64) (req : Request) : Bool :=
  match req.state with
  | .sent _ id => id = containerMsgId
  | _ => false

/-- The first request with `p` gets the result. -/
def complete (s : MtpSender) (p : Request → Bool) (result : Outcome) : Option MtpSender :=
  match s.requests.find? p with
  | some req => some { s with
      requests := s.requests.eraseP p
      answers := s.answers ++ [(req.tx, result)] }
  | none => none

def resolve (s : MtpSender) (reqMsgId : Int64) (result : Outcome) : MtpSender :=
  match s.complete (sentAs reqMsgId) result with
  | some s => s
  | none => (s.complete (sentIn reqMsgId) result).getD s

def queueResend (s : MtpSender) (badMsgId : Int64) : MtpSender :=
  { s with
    requests := FirstMatch.changeFirst (fun req => req.state.msgId? = some badMsgId)
      (fun req => { req with state := .pending }) s.requests }

/-- The answer in an `rpc_result`: inflated, and an error if it is an `rpc_error`. -/
def rpcOutcome (w : World) (body : List UInt8) : Outcome :=
  let result := body.drop 12
  let result :=
    if 4 ≤ result.length ∧ ctor result = idGzipPacked then
      ((tlReadBytes (result.drop 4)).bind w.gzInflate).getD result
    else result
  if 8 ≤ result.length ∧ ctor result = idRpcError then
    .error (RpcError.fromTelegram (toI32 (field result 4 4)) ((tlReadString (result.drop 8)).getD ""))
  else .ok result

def onRpcResult (w : World) (s : MtpSender) (body : List UInt8) : MtpSender :=
  if body.length < 12 then s else s.resolve (toI64 (field body 4 8)) (rpcOutcome w body)

def onBadServerSalt (s : MtpSender) (body : List UInt8) : MtpSender :=
  if 28 ≤ body.length then
    let s := { s with enc := { s.enc with salt := toI64 (field body 20 8) } }
    s.queueResend (toI64 (field body 4 8))
  else s

def onBadMsgNotification (w : World) (s : MtpSender) (body : List UInt8) (msgId : Int64) : MtpSender :=
  if 20 ≤ body.length then
    let errorCode := ofLe (field body 16 4)
    let s :=
      if errorCode = 16 ∨ errorCode = 17 then
        { s with enc := s.enc.correctTimeOffset (w.clock s.tick) msgId, tick := s.tick + 1 }
      else if errorCode = 32 ∨ errorCode = 33 then
        { s with enc := s.enc.correctSeqNo (w.random s.tick), tick := s.tick + 1 }
      else s
    s.queueResend (toI64 (field body 4 8))
  else s

/-- The salt is the new session's, and every request that is out is taken back. -/
def onNewSessionCreated (s : MtpSender) (body : List UInt8) : MtpSender :=
  if 28 ≤ body.length then
    { s with
      enc := { s.enc with salt := toI64 (field body 20 8) }
      requests := s.requests.map fun req => { req with state := .pending } }
  else s

def onPong (s : MtpSender) (body : List UInt8) : MtpSender :=
  if 12 ≤ body.length then s.resolve (toI64 (field body 4 8)) (.ok body) else s

/-- Messages with an odd id are acknowledged with the next frame. -/
def acknowledge (s : MtpSender) (msgId : Int64) : MtpSender :=
  if msgId &&& 1 = 1 then { s with pendingAck := s.pendingAck ++ [msgId] } else s

/-- The messages of a container, up to the first that does not fit. -/
def containerItems : Nat → List UInt8 → List InnerMessage
  | 0, _ => []
  | count + 1, rest =>
    if rest.length < 16 then []
    else
      let bytes := ofLe (field rest 12 4)
      if (rest.drop 16).length < bytes then []
      else
        { msgId := toI64 (rest.take 8), seqno := toI32 (field rest 8 4), body := field rest 16 bytes } ::
          containerItems count (rest.drop (16 + bytes))

/-- Dispatch one message after another, and join the updates. -/
def dispatchItems (dispatch : MtpSender → List UInt8 → Int64 → Option (MtpSender × List (List UInt8))) :
    MtpSender → List InnerMessage → Option (MtpSender × List (List UInt8))
  | s, [] => some (s, [])
  | s, m :: items => do
    let (s, u) ← dispatch (s.acknowledge m.msgId) m.body m.msgId
    let (s, updates) ← dispatchItems dispatch s items
    return (s, u ++ updates)

/-- Route a message; what it returns are update bodies. `none` is for want of fuel. -/
def dispatch (w : World) : Nat → MtpSender → List UInt8 → Int64 →
    Option (MtpSender × List (List UInt8))
  | 0, _, _, _ => none
  | fuel + 1, s, body, msgId =>
    if body.length < 4 then some (s, [])
    else if ctor body = idRpcResult then some (s.onRpcResult w body, [])
    else if ctor body = idMsgContainer then
      if body.length < 8 then some (s, [])
      else dispatchItems (dispatch w fuel) s (containerItems (ofLe (field body 4 4)) (body.drop 8))
    else if ctor body = idGzipPacked then
      match (tlReadBytes (body.drop 4)).bind w.gzInflate with
      | some decompressed => dispatch w fuel s decompressed msgId
      | none => some (s, [])
    else if ctor body = idBadServerSalt then some (s.onBadServerSalt body, [])
    else if ctor body = idBadMsgNotification then some (s.onBadMsgNotification w body msgId, [])
    else if ctor body = idNewSessionCreated then some (s.onNewSessionCreated body, [])
    else if ctor body = idMsgsAck then some (s, [])
    else if ctor body = idPong then some (s.onPong body, [])
    else some (s, [body])

end MtpSender

/-! For examples. -/

/-- A clock that stands still, and frames that are not encrypted. -/
def plainWorld : World where
  clock _ := ⟨1700000000, 500, by decide⟩
  random _ := 1
  gzInflate _ := none
  encode _ e := e.bytes

def idle : MtpSender where
  enc := EncryptedSession.new 77 0 0
  requests := []
  pendingAck := []
  resendQueue := []
  writeBuf := []
  writeHead := 0
  answers := []
  tick := 0

end Ferogram.Mtsender
