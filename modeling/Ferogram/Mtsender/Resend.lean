import Ferogram.Mtsender.Sender

/- A rejected message and the requests it carried.

   The server names the message it rejects, by `bad_server_salt` or by
   `bad_msg_notification`; where the message was a container, that is the container's
   id. `queue_resend` looks for a request whose own id it is and for nothing else.

   What is proved: `rejected_resent_iff`, which says for every state and every
   notification when just the unanswered requests the message carried are pending
   again. For a container that is the case only if none is left. -/
namespace Ferogram.Mtsender
open Bytes Connect Mtproto MtpSender

/-- A message of the server that rejects one of ours. -/
inductive Rejection where
  | badServerSalt (badMsgId : Int64) (badMsgSeqno : Int32) (errorCode : UInt32) (newSalt : Int64)
  | badMsgNotification (badMsgId : Int64) (badMsgSeqno : Int32) (errorCode : UInt32)
  deriving DecidableEq, Repr

namespace Rejection

def badMsgId : Rejection → Int64
  | .badServerSalt badMsgId _ _ _ | .badMsgNotification badMsgId _ _ => badMsgId

def bytes : Rejection → List UInt8
  | .badServerSalt badMsgId badMsgSeqno errorCode newSalt =>
    le 4 idBadServerSalt ++ ofI64 badMsgId ++ ofI32 badMsgSeqno ++ le 4 errorCode.toNat ++ ofI64 newSalt
  | .badMsgNotification badMsgId badMsgSeqno errorCode =>
    le 4 idBadMsgNotification ++ ofI64 badMsgId ++ ofI32 badMsgSeqno ++ le 4 errorCode.toNat

end Rejection

/-- An unanswered request that went out in this message: in the container with this id, or
alone under it. -/
def carriedBy (msgId : Int64) (req : Request) : Bool := req.state.containerMsgId? = some msgId

/-- An unanswered request with this id of its own. -/
def bears (msgId : Int64) (req : Request) : Bool := req.state.msgId? = some msgId

/-- The requests after a rejection, as they should be: those the message carried are pending,
the others as before. -/
def resent (msgId : Int64) (requests : List Request) : List Request :=
  requests.map fun req => if carriedBy msgId req then { req with state := .pending } else req

theorem queueResend_requests (s : MtpSender) (msgId : Int64) :
    (s.queueResend msgId).requests = FirstMatch.changeFirst (bears msgId)
      (fun req => { req with state := .pending }) s.requests := rfl

/-- Setting a request back changes it, if it was out. -/
theorem pending_ne {msgId : Int64} {req : Request}
    (h : bears msgId req = true ∨ carriedBy msgId req = true) :
    { req with state := MsgState.pending } ≠ req := by
  intro heq
  have hstate : MsgState.pending = req.state := congrArg Request.state heq
  unfold bears carriedBy at h
  rw [← hstate] at h
  simp [MsgState.msgId?, MsgState.containerMsgId?] at h

theorem queueResend_resent_iff (s : MtpSender) (msgId : Int64) :
    (s.queueResend msgId).requests = resent msgId s.requests ↔
      s.requests.filter (carriedBy msgId) = (s.requests.find? (bears msgId)).toList := by
  rw [queueResend_requests]
  exact FirstMatch.changeFirst_eq_map_iff (fun req h => pending_ne h) s.requests

/-! Both notifications come to `queue_resend`. -/

theorem rejection_badMsgId (r : Rejection) : toI64 (field r.bytes 4 8) = r.badMsgId := by
  cases r with
  | badServerSalt badMsgId seqno code salt =>
    show toI64 (field (le 4 idBadServerSalt ++ ofI64 badMsgId ++ ofI32 seqno ++ le 4 code.toNat ++
      ofI64 salt) (4 + 0) 8) = badMsgId
    simp only [List.append_assoc]
    rw [field_append_left 0 8 (le_length 4 _), field_zero_append (ofI64_length _), toI64_ofI64]
  | badMsgNotification badMsgId seqno code =>
    show toI64 (field (le 4 idBadMsgNotification ++ ofI64 badMsgId ++ ofI32 seqno ++ le 4 code.toNat)
      (4 + 0) 8) = badMsgId
    simp only [List.append_assoc]
    rw [field_append_left 0 8 (le_length 4 _), field_zero_append (ofI64_length _), toI64_ofI64]

theorem onBadServerSalt_requests (s : MtpSender) {body : List UInt8} (h : 28 ≤ body.length) :
    (s.onBadServerSalt body).requests = (s.queueResend (toI64 (field body 4 8))).requests := by
  unfold onBadServerSalt
  rw [if_pos h]
  rfl

theorem onBadMsgNotification_requests (w : World) (s : MtpSender) {body : List UInt8} (msgId : Int64)
    (h : 20 ≤ body.length) : (s.onBadMsgNotification w body msgId).requests =
      (s.queueResend (toI64 (field body 4 8))).requests := by
  unfold onBadMsgNotification
  rw [if_pos h]
  dsimp only
  split
  · rfl
  · split <;> rfl

/-- A rejection is dispatched at once, and what it does to the requests is `queue_resend`. -/
theorem dispatch_rejection (w : World) (fuel : Nat) (s : MtpSender) (r : Rejection) (msgId : Int64) :
    ∃ s', dispatch w (fuel + 1) s r.bytes msgId = some (s', []) ∧
      s'.requests = (s.queueResend r.badMsgId).requests := by
  have hid := rejection_badMsgId r
  cases r with
  | badServerSalt badMsgId seqno code salt =>
    have hctor : ctor (Rejection.badServerSalt badMsgId seqno code salt).bytes = idBadServerSalt := by
      unfold Rejection.bytes
      simp only [List.append_assoc]
      exact ctor_append (by decide) _
    have hlen : (Rejection.badServerSalt badMsgId seqno code salt).bytes.length = 28 := by
      simp [Rejection.bytes]
    refine ⟨s.onBadServerSalt (Rejection.badServerSalt badMsgId seqno code salt).bytes, ?_, ?_⟩
    · rw [dispatch, if_neg (by omega), hctor]
      rfl
    · rw [onBadServerSalt_requests s (by omega), hid]
  | badMsgNotification badMsgId seqno code =>
    have hctor : ctor (Rejection.badMsgNotification badMsgId seqno code).bytes = idBadMsgNotification := by
      unfold Rejection.bytes
      simp only [List.append_assoc]
      exact ctor_append (by decide) _
    have hlen : (Rejection.badMsgNotification badMsgId seqno code).bytes.length = 20 := by
      simp [Rejection.bytes]
    refine ⟨s.onBadMsgNotification w (Rejection.badMsgNotification badMsgId seqno code).bytes msgId, ?_, ?_⟩
    · rw [dispatch, if_neg (by omega), hctor]
      rfl
    · rw [onBadMsgNotification_requests w s msgId (by omega), hid]

theorem rejected_requests (w : World) (fuel : Nat) (s : MtpSender) (r : Rejection) (msgId : Int64)
    (requests : List Request) :
    (∃ s', dispatch w (fuel + 1) s r.bytes msgId = some (s', []) ∧ s'.requests = requests) ↔
      (s.queueResend r.badMsgId).requests = requests := by
  obtain ⟨s', hdispatch, hrequests⟩ := dispatch_rejection w fuel s r msgId
  rw [← hrequests]
  constructor
  · intro ⟨t, ht, heq⟩
    rw [hdispatch] at ht
    cases ht
    exact heq
  · intro heq
    exact ⟨s', hdispatch, heq⟩

/-- A rejection sets back just the unanswered requests the message carried, exactly when these
are the one request that bears the message's id itself, if there is one. -/
theorem rejected_resent_iff (w : World) (fuel : Nat) (s : MtpSender) (r : Rejection) (msgId : Int64) :
    (∃ s', dispatch w (fuel + 1) s r.bytes msgId = some (s', []) ∧
      s'.requests = resent r.badMsgId s.requests) ↔
      s.requests.filter (carriedBy r.badMsgId) = (s.requests.find? (bears r.badMsgId)).toList := by
  rw [rejected_requests, queueResend_resent_iff]

/-! Two requests go out in one container, which the server rejects. -/

def pairFilled : MtpSender × Option Packed :=
  ((idle.enqueue [1, 2, 3, 4] 0).enqueue [5, 6, 7, 8] 1).tryFillWrite plainWorld

/-- The container is written, and its id is rejected for the salt. -/
def pairRejected : MtpSender × Rejection :=
  (pairFilled.1.wrote pairFilled.1.writeBuf.length,
    .badServerSalt ((pairFilled.2.map (·.envelope.msgId)).getD 0) 0 48 99)

/-- Neither request is set back. -/
theorem rejected_pair_lost :
    ¬∃ s', dispatch plainWorld 1 pairRejected.1 pairRejected.2.bytes 1 = some (s', []) ∧
      s'.requests = resent pairRejected.2.badMsgId pairRejected.1.requests := by
  rw [rejected_requests]
  decide

end Ferogram.Mtsender
