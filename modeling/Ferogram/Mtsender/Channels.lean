import Ferogram.Mtsender.Batch
import Ferogram.Mtsender.NewSession
import Ferogram.Mtsender.Resend
import Ferogram.Mtsender.Step

/- The channels a sender holds: one for each request in its queue, and those that have been
   sent an answer.

   Whatever the sender does, a channel is neither lost nor answered twice: it leaves the queue
   when its answer is sent (`MtpSender.complete`), and only then. Two operations are different.
   `enqueue` brings a channel, and `fail_all` empties the queue, with answers of its own. -/
namespace Ferogram.Mtsender
open Bytes Connect Mtproto Framing
open Crypto (Primitives)
open scoped List

namespace MtpSender

/-- The channels in the queue, and those with an answer. -/
def channels (s : MtpSender) : List Nat := s.requests.map (·.tx) ++ s.answers.map (·.1)

/-- Nothing but the states of the requests is different. -/
theorem channels_congr {s s' : MtpSender} (hrequests : s'.requests.map (·.tx) = s.requests.map (·.tx))
    (hanswers : s'.answers = s.answers) : s'.channels = s.channels := by
  rw [channels, hrequests, hanswers]
  rfl

theorem enqueue_channels (s : MtpSender) (body : List UInt8) (tx : Nat) :
    (s.enqueue body tx).channels.Perm (tx :: s.channels) := by
  have hqueue : (s.enqueue body tx).requests.map (·.tx) = s.requests.map (·.tx) ++ [tx] :=
    List.map_append
  rw [channels, hqueue, List.append_assoc]
  exact List.perm_middle

/-! The frame that goes out. -/

theorem markSerialised_channels (s : MtpSender) (body : List UInt8) (msgId containerMsgId : Int64) :
    (s.markSerialised body msgId containerMsgId).channels = s.channels := by
  refine channels_congr ?_ rfl
  apply FirstMatch.map_changeFirst
  intro req
  rfl

theorem foldl_markSerialised_channels (s : MtpSender) (inner : List InnerMessage) (containerMsgId : Int64) :
    (inner.foldl (fun s m => s.markSerialised m.body m.msgId containerMsgId) s).channels = s.channels := by
  induction inner generalizing s with
  | nil => rfl
  | cons m inner ih => exact (ih _).trans (markSerialised_channels s _ _ _)

theorem packSingle_channels (w : World) (s : MtpSender) (body : List UInt8) (contentRelated : Bool) :
    (packSingle w s body contentRelated).1.channels = s.channels :=
  markSerialised_channels _ _ _ _

theorem packContainer_channels (w : World) (s : MtpSender) (msgs : List (List UInt8 × Bool)) :
    (packContainer w s msgs).1.channels = s.channels :=
  foldl_markSerialised_channels _ _ _

theorem tryFillWrite_channels (w : World) (s : MtpSender) : (s.tryFillWrite w).1.channels = s.channels := by
  unfold tryFillWrite
  split
  · rfl
  · dsimp only
    split
    · rfl
    · split
      · exact packSingle_channels w _ _ _
      · exact packContainer_channels w _ _

theorem wrote_channels (s : MtpSender) (n : Nat) : (s.wrote n).channels = s.channels := by
  unfold wrote
  split
  · refine channels_congr ?_ rfl
    rw [List.map_map]
    apply List.map_congr_left
    intro req hreq
    dsimp only [Function.comp]
    split <;> rfl
  · rfl

/-! Messages that come back. -/

/-- The request leaves the queue as its answer is sent. -/
theorem complete_channels {s s' : MtpSender} {p : Request → Bool} {result : Outcome}
    (h : s.complete p result = some s') : s'.channels.Perm s.channels := by
  unfold complete at h
  split at h
  · next req hfind =>
    cases h
    have hqueue := (FirstMatch.perm_eraseP hfind).map (·.tx)
    calc (s.requests.eraseP p).map (·.tx) ++ (s.answers ++ [(req.tx, result)]).map (·.1)
        = ((s.requests.eraseP p).map (·.tx) ++ s.answers.map (·.1)) ++ [req.tx] := by
          rw [List.map_append, ← List.append_assoc]
          rfl
      _ ~ req.tx :: ((s.requests.eraseP p).map (·.tx) ++ s.answers.map (·.1)) := List.perm_append_singleton _ _
      _ ~ s.channels := hqueue.symm.append_right _
  · cases h

theorem resolve_channels (s : MtpSender) (reqMsgId : Int64) (result : Outcome) :
    (s.resolve reqMsgId result).channels.Perm s.channels := by
  unfold resolve
  split
  · next s' h => exact complete_channels h
  · cases h : s.complete (sentIn reqMsgId) result with
    | none => exact List.Perm.refl _
    | some s' => exact complete_channels h

theorem acknowledge_channels (s : MtpSender) (msgId : Int64) : (s.acknowledge msgId).channels = s.channels :=
  channels_congr (congrArg _ (acknowledge_requests s msgId)) (acknowledge_answers s msgId)

theorem queueResend_channels (s : MtpSender) (badMsgId : Int64) : (s.queueResend badMsgId).channels = s.channels := by
  refine channels_congr ?_ rfl
  apply FirstMatch.map_changeFirst
  intro req
  rfl

theorem onRpcResult_channels (w : World) (s : MtpSender) (body : List UInt8) :
    (s.onRpcResult w body).channels.Perm s.channels := by
  unfold onRpcResult
  split
  · exact List.Perm.refl _
  · exact resolve_channels s _ _

theorem onPong_channels (s : MtpSender) (body : List UInt8) : (s.onPong body).channels.Perm s.channels := by
  unfold onPong
  split
  · exact resolve_channels s _ _
  · exact List.Perm.refl _

theorem onBadServerSalt_channels (s : MtpSender) (body : List UInt8) :
    (s.onBadServerSalt body).channels = s.channels := by
  unfold onBadServerSalt
  split
  · exact queueResend_channels _ _
  · rfl

theorem onBadMsgNotification_channels (w : World) (s : MtpSender) (body : List UInt8) (msgId : Int64) :
    (s.onBadMsgNotification w body msgId).channels = s.channels := by
  unfold onBadMsgNotification
  split
  · refine (queueResend_channels _ _).trans ?_
    split
    · rfl
    · split <;> rfl
  · rfl

theorem pendingAgain_channels (s : MtpSender) :
    (s.requests.map fun req => { req with state := .pending }).map (·.tx) = s.requests.map (·.tx) := by
  rw [List.map_map]
  rfl

theorem onNewSessionCreated_channels (s : MtpSender) (body : List UInt8) :
    (s.onNewSessionCreated body).channels = s.channels := by
  unfold onNewSessionCreated
  split
  · exact channels_congr (pendingAgain_channels s) rfl
  · rfl

theorem dispatchItems_channels
    {dispatch : MtpSender → List UInt8 → Int64 → Option (MtpSender × List (List UInt8))}
    (hdispatch : ∀ s body msgId s' updates, dispatch s body msgId = some (s', updates) → s'.channels.Perm s.channels)
    (items : List InnerMessage) (s : MtpSender) {s' : MtpSender} {updates : List (List UInt8)}
    (h : dispatchItems dispatch s items = some (s', updates)) : s'.channels.Perm s.channels := by
  induction items generalizing s updates with
  | nil =>
    cases h
    exact List.Perm.refl _
  | cons m items ih =>
    obtain ⟨⟨s₁, u⟩, hfirst, h⟩ := Option.bind_eq_some_iff.mp h
    obtain ⟨⟨s₂, rest⟩, hrest, h⟩ := Option.bind_eq_some_iff.mp h
    cases h
    have hm := hdispatch _ _ _ _ _ hfirst
    rw [acknowledge_channels] at hm
    exact (ih s₁ hrest).trans hm

theorem dispatch_channels (w : World) (fuel : Nat) (s : MtpSender) (body : List UInt8) (msgId : Int64)
    (s' : MtpSender) (updates : List (List UInt8)) (h : dispatch w fuel s body msgId = some (s', updates)) :
    s'.channels.Perm s.channels := by
  induction fuel generalizing s body msgId updates s' with
  | zero => cases h
  | succ fuel ih =>
    unfold dispatch at h
    split at h
    · cases h
      exact List.Perm.refl _
    split at h
    · cases h
      exact onRpcResult_channels w s body
    split at h
    · split at h
      · cases h
        exact List.Perm.refl _
      · exact dispatchItems_channels ih _ s h
    split at h
    · split at h
      · exact ih _ _ _ _ _ h
      · cases h
        exact List.Perm.refl _
    split at h
    · cases h
      rw [onBadServerSalt_channels]
    split at h
    · cases h
      rw [onBadMsgNotification_channels]
    split at h
    · cases h
      rw [onNewSessionCreated_channels]
    split at h
    · cases h
      exact List.Perm.refl _
    split at h
    · cases h
      exact onPong_channels s body
    · cases h
      exact List.Perm.refl _

end MtpSender

namespace Duplex
variable {P : Primitives} {w : World} {fuel : Nat}

theorem processPayload_channels {d d' : Duplex} {payload : List UInt8}
    {result : Except InvocationError (List (List UInt8))}
    (h : d.processPayload P w fuel payload = some (d', result)) : d'.sender.channels.Perm d.sender.channels := by
  unfold processPayload at h
  dsimp only at h
  split at h
  · cases h
    exact List.Perm.refl _
  · obtain ⟨⟨s, updates⟩, hdispatch, h⟩ := Option.bind_eq_some_iff.mp h
    cases h
    have hs := MtpSender.dispatch_channels _ _ _ _ _ _ _ hdispatch
    rw [MtpSender.acknowledge_channels] at hs
    exact hs

theorem drainFrames_channels (n : Nat) (d : Duplex) (updates : List Update) {d' : Duplex}
    {result : Except InvocationError (List Update)} (h : drainFrames P w fuel n d updates = some (d', result)) :
    d'.sender.channels.Perm d.sender.channels := by
  induction n generalizing d updates with
  | zero =>
    cases h
    exact List.Perm.refl _
  | succ n ih =>
    unfold drainFrames at h
    split at h
    · obtain ⟨⟨d₁, r⟩, hprocess, h⟩ := Option.bind_eq_some_iff.mp h
      have hd₁ := processPayload_channels hprocess
      cases r with
      | error e =>
        cases h
        exact hd₁
      | ok u => exact (ih d₁ _ h).trans hd₁
    · cases h
      exact List.Perm.refl _
    · cases h
      exact List.Perm.refl _

/-- A read loses no request, also when one of its frames is bad. -/
theorem onRead_channels {d d' : Duplex} {read : List UInt8} {result : Except InvocationError (List Update)}
    (h : d.onRead P w fuel read = some (d', result)) : d'.sender.channels.Perm d.sender.channels := by
  unfold onRead at h
  split at h
  · cases h
    exact List.Perm.refl _
  · next receiver hingest => exact drainFrames_channels _ { d with receiver := receiver } _ h

theorem ping_channels (w : World) (d : Duplex) (now tx : Nat) :
    (d.ping w now tx).sender.channels.Perm (tx :: d.sender.channels) :=
  MtpSender.enqueue_channels _ _ _

theorem setStream_channels (d : Duplex) (c : Connection) (now : Nat) :
    (d.setStream c now).sender.channels = d.sender.channels :=
  MtpSender.channels_congr (MtpSender.pendingAgain_channels d.sender) rfl

end Duplex

end Ferogram.Mtsender
