import Ferogram.Mtsender.Step

/- What a read does to a sender, as a relation put together from what the handlers do.

   `dispatch` goes into containers and into what it inflates, and `drain_frames` from one frame
   to the next; at the ends of it there are a few handlers. `Handles` is what a relation between
   senders has to hold of, and the rules are the inductions: `Handles.dispatch` for a message,
   `Handles.onRead` for a read. The relation may mention the replies, those in the messages that
   are dispatched (`repliesIn`), in the order in which they are met. `Resolves` is one such relation:
   answers are added, each to a request that was out. -/
namespace Ferogram.Mtsender
open Bytes Connect Mtproto Framing MtpSender
open Crypto (Primitives)

/-- The id of what was asked, and what it comes to. -/
abbrev Reply := Int64 × Outcome

/-- The replies in a message, results and pongs, wherever they are inside it. -/
def repliesIn (w : World) : Nat → List UInt8 → List Reply
  | 0, _ => []
  | fuel + 1, body =>
    if body.length < 4 then []
    else if ctor body = idRpcResult then
      if body.length < 12 then [] else [(toI64 (field body 4 8), rpcOutcome w body)]
    else if ctor body = idMsgContainer then
      if body.length < 8 then []
      else (containerItems (ofLe (field body 4 4)) (body.drop 8)).flatMap fun m => repliesIn w fuel m.body
    else if ctor body = idGzipPacked then
      match (tlReadBytes (body.drop 4)).bind w.gzInflate with
      | some decompressed => repliesIn w fuel decompressed
      | none => []
    else if ctor body = idPong then
      if 12 ≤ body.length then [(toI64 (field body 4 8), .ok body)] else []
    else []

/-- A message that is none of those with replies. -/
theorem repliesIn_other (w : World) (fuel : Nat) {body : List UInt8} {id : Nat} (hid : ctor body = id)
    (hnone : id ∉ [idRpcResult, idMsgContainer, idGzipPacked, idPong]) : repliesIn w (fuel + 1) body = [] := by
  simp only [List.mem_cons, List.not_mem_nil, or_false, not_or] at hnone
  obtain ⟨hresult, hcontainer, hpacked, hpong⟩ := hnone
  unfold repliesIn
  rw [hid, if_neg hresult, if_neg hcontainer, if_neg hpacked, if_neg hpong, ite_self]

/-- A relation that all handlers are in, each with the replies that it is given. -/
structure Handles (w : World) (R : MtpSender → MtpSender → List Reply → Prop) : Prop where
  refl : ∀ s, R s s []
  trans : ∀ {s s₁ s₂ replies more}, R s s₁ replies → R s₁ s₂ more → R s s₂ (replies ++ more)
  asked : ∀ s, R s { s with tick := s.tick + 1 } []
  acknowledge : ∀ s msgId, R s (s.acknowledge msgId) []
  resolve : ∀ s reqMsgId result, R s (s.resolve reqMsgId result) [(reqMsgId, result)]
  onBadServerSalt : ∀ s body, R s (s.onBadServerSalt body) []
  onBadMsgNotification : ∀ s body msgId, R s (s.onBadMsgNotification w body msgId) []
  onNewSessionCreated : ∀ s body, R s (s.onNewSessionCreated body) []

namespace Handles
variable {w : World} {R : MtpSender → MtpSender → List Reply → Prop}

theorem dispatchItems (h : Handles w R) {fuel : Nat}
    (hdispatch : ∀ s body msgId s' updates, MtpSender.dispatch w fuel s body msgId = some (s', updates) →
      R s s' (repliesIn w fuel body))
    (items : List InnerMessage) (s : MtpSender) {s' : MtpSender} {updates : List (List UInt8)}
    (hrun : MtpSender.dispatchItems (MtpSender.dispatch w fuel) s items = some (s', updates)) :
    R s s' (items.flatMap fun m => repliesIn w fuel m.body) := by
  induction items generalizing s updates with
  | nil =>
    cases hrun
    exact h.refl _
  | cons m items ih =>
    obtain ⟨⟨s₁, u⟩, hfirst, hrun⟩ := Option.bind_eq_some_iff.mp hrun
    obtain ⟨⟨s₂, rest⟩, hrest, hrun⟩ := Option.bind_eq_some_iff.mp hrun
    cases hrun
    have hm : R s s₁ ([] ++ repliesIn w fuel m.body) :=
      h.trans (h.acknowledge s m.msgId) (hdispatch _ _ _ _ _ hfirst)
    exact h.trans hm (ih s₁ hrest)

/-- By induction on the fuel: a container and what is inflated go down by one. -/
theorem dispatch (h : Handles w R) (fuel : Nat) (s : MtpSender) (body : List UInt8) (msgId : Int64) (s' : MtpSender)
    (updates : List (List UInt8)) (hrun : MtpSender.dispatch w fuel s body msgId = some (s', updates)) :
    R s s' (repliesIn w fuel body) := by
  induction fuel generalizing s body msgId updates s' with
  | zero => cases hrun
  | succ fuel ih =>
    unfold MtpSender.dispatch at hrun
    split at hrun
    · next hshort =>
      cases hrun
      rw [repliesIn, if_pos hshort]
      exact h.refl s
    next hlong =>
    split at hrun
    · next hctor =>
      cases hrun
      rw [repliesIn, if_neg hlong, if_pos hctor, MtpSender.onRpcResult]
      split
      · exact h.refl s
      · exact h.resolve s _ _
    next hresult =>
    split at hrun
    · next hctor =>
      rw [repliesIn, if_neg hlong, if_neg hresult, if_pos hctor]
      split at hrun
      · next hempty =>
        cases hrun
        rw [if_pos hempty]
        exact h.refl s
      · next hfull =>
        rw [if_neg hfull]
        exact h.dispatchItems ih _ s hrun
    next hcontainer =>
    split at hrun
    · next hctor =>
      rw [repliesIn, if_neg hlong, if_neg hresult, if_neg hcontainer, if_pos hctor]
      cases hinflate : (tlReadBytes (body.drop 4)).bind w.gzInflate with
      | some decompressed =>
        rw [hinflate] at hrun
        exact ih _ _ _ _ _ hrun
      | none =>
        rw [hinflate] at hrun
        cases hrun
        exact h.refl s
    next hpacked =>
    split at hrun
    · next hctor =>
      cases hrun
      rw [repliesIn_other w fuel hctor (by decide)]
      exact h.onBadServerSalt s body
    split at hrun
    · next hctor =>
      cases hrun
      rw [repliesIn_other w fuel hctor (by decide)]
      exact h.onBadMsgNotification s body msgId
    split at hrun
    · next hctor =>
      cases hrun
      rw [repliesIn_other w fuel hctor (by decide)]
      exact h.onNewSessionCreated s body
    split at hrun
    · next hctor =>
      cases hrun
      rw [repliesIn_other w fuel hctor (by decide)]
      exact h.refl s
    split at hrun
    · next hctor =>
      cases hrun
      rw [repliesIn, if_neg hlong, if_neg hresult, if_neg hcontainer, if_neg hpacked, if_pos hctor, MtpSender.onPong]
      split
      · exact h.resolve s _ _
      · exact h.refl s
    · next hpong =>
      cases hrun
      rw [repliesIn, if_neg hlong, if_neg hresult, if_neg hcontainer, if_neg hpacked, if_neg hpong]
      exact h.refl s

end Handles

/-! A read. -/

namespace Duplex

section
variable (P : Primitives) (w : World) (fuel : Nat)

/-- The messages of the frames that the loop of `drain_frames` decrypts. -/
def accepted : Nat → Duplex → List DecryptedMessage
  | 0, _ => []
  | n + 1, d =>
    match peelOne d.kind d.receiver.pos.seqno d.receiver.readBuf with
    | .complete payload rest seqno =>
      match (d.sender.enc.unpack P d.authKey d.seen (w.clock d.sender.tick) payload).1 with
      | .ok msg =>
        match (d.take rest seqno).processPayload P w fuel payload with
        | some (d', .ok _) => msg :: accepted n d'
        | _ => [msg]
      | .error _ => []
    | _ => []

/-- The messages of a read. -/
def acceptedIn (d : Duplex) (read : List UInt8) : List DecryptedMessage :=
  match d.receiver.ingestRead d.key d.kind read with
  | .error _ => []
  | .ok receiver => accepted P w fuel receiver.readBuf.length { d with receiver := receiver }

end

end Duplex

/-- The replies in some messages. -/
def repliesOf (w : World) (fuel : Nat) (msgs : List DecryptedMessage) : List Reply :=
  msgs.flatMap fun msg => repliesIn w fuel msg.body

namespace Handles
variable {P : Primitives} {w : World} {fuel : Nat} {R : MtpSender → MtpSender → List Reply → Prop}

/-- A frame that cannot be decrypted changes nothing but the tick, another is acknowledged and dispatched. -/
theorem processPayload (h : Handles w R) {d d' : Duplex} {payload : List UInt8}
    {result : Except InvocationError (List (List UInt8))} (hrun : d.processPayload P w fuel payload = some (d', result)) :
    (∃ e e', (d.sender.enc.unpack P d.authKey d.seen (w.clock d.sender.tick) payload).1 = .error e ∧ result = .error e' ∧
      R d.sender d'.sender []) ∨
    ∃ msg updates, (d.sender.enc.unpack P d.authKey d.seen (w.clock d.sender.tick) payload).1 = .ok msg ∧
      result = .ok updates ∧ R d.sender d'.sender (repliesIn w fuel msg.body) := by
  unfold Duplex.processPayload at hrun
  dsimp only at hrun
  split at hrun
  · next e he =>
    cases hrun
    exact .inl ⟨e, _, he, rfl, h.asked d.sender⟩
  · next msg hmsg =>
    obtain ⟨⟨s, updates⟩, hdispatch, hrun⟩ := Option.bind_eq_some_iff.mp hrun
    cases hrun
    have hread : R d.sender _ ([] ++ []) := h.trans (h.asked d.sender) (h.acknowledge _ msg.msgId)
    exact .inr ⟨msg, updates, hmsg, rfl, h.trans hread (h.dispatch _ _ _ _ _ _ hdispatch)⟩

theorem drainFrames (h : Handles w R) (n : Nat) (d : Duplex) (updates : List Update) {d' : Duplex}
    {result : Except InvocationError (List Update)} (hrun : Duplex.drainFrames P w fuel n d updates = some (d', result)) :
    R d.sender d'.sender (repliesOf w fuel (d.accepted P w fuel n)) := by
  induction n generalizing d updates with
  | zero =>
    cases hrun
    exact h.refl _
  | succ n ih =>
    unfold Duplex.drainFrames at hrun
    unfold Duplex.accepted
    split at hrun
    · next payload rest seqno hpeel =>
      obtain ⟨⟨d₁, r⟩, hprocess, hrun⟩ := Option.bind_eq_some_iff.mp hrun
      rcases h.processPayload hprocess with ⟨e, e', hunpack, rfl, hR⟩ | ⟨msg, u, hunpack, rfl, hR⟩
      · cases hrun
        simp only [Duplex.take] at hunpack
        simp only [hpeel, hunpack]
        exact hR
      · simp only [Duplex.take] at hunpack
        simp only [hpeel, hunpack, hprocess]
        exact h.trans hR (ih d₁ _ hrun)
    · next hpeel =>
      cases hrun
      simp only [hpeel]
      exact h.refl _
    · next e hpeel =>
      cases hrun
      simp only [hpeel]
      exact h.refl _

theorem onRead (h : Handles w R) {d d' : Duplex} {read : List UInt8} {result : Except InvocationError (List Update)}
    (hrun : d.onRead P w fuel read = some (d', result)) :
    R d.sender d'.sender (repliesOf w fuel (d.acceptedIn P w fuel read)) := by
  unfold Duplex.onRead at hrun
  unfold Duplex.acceptedIn
  cases hingest : d.receiver.ingestRead d.key d.kind read with
  | error e =>
    rw [hingest] at hrun
    cases hrun
    exact h.refl _
  | ok receiver =>
    rw [hingest] at hrun
    exact h.drainFrames _ { d with receiver := receiver } _ hrun

end Handles

/-! What a read answers. -/

/-- The requests that are left are as they were, or to go out again; those that are answered were out under
the ids that the replies name. -/
structure Resolves (s s' : MtpSender) (replies : List Reply) : Prop where
  requests : ∀ req ∈ s'.requests, req ∈ s.requests ∨ ∃ own ∈ s.requests, req = { own with state := .pending }
  answers : ∃ answers picks, s'.answers = s.answers ++ answers ∧ picks.Sublist replies ∧
    List.Forall₂ (fun (a : Nat × Outcome) (r : Reply) => a.2 = r.2 ∧ ∃ own ∈ s.requests, own.tx = a.1 ∧
      ∃ msgId containerMsgId, own.state = .sent msgId containerMsgId ∧ (r.1 = msgId ∨ r.1 = containerMsgId))
      answers picks

namespace Resolves
variable {s s₁ s₂ : MtpSender} {replies more : List Reply}

/-- Nobody is answered. -/
theorem quiet (hrequests : ∀ req ∈ s₁.requests, req ∈ s.requests ∨ ∃ own ∈ s.requests, req = { own with state := .pending })
    (hanswers : s₁.answers = s.answers) : Resolves s s₁ [] :=
  ⟨hrequests, [], [], by simp [hanswers], List.Sublist.refl _, .nil⟩

theorem same (hrequests : s₁.requests = s.requests) (hanswers : s₁.answers = s.answers) : Resolves s s₁ [] :=
  quiet (fun _ hreq => .inl (hrequests ▸ hreq)) hanswers

theorem trans (h : Resolves s s₁ replies) (h' : Resolves s₁ s₂ more) : Resolves s s₂ (replies ++ more) where
  requests req hreq := by
    rcases h'.requests req hreq with hreq | ⟨own, hown, rfl⟩
    · exact h.requests req hreq
    · rcases h.requests own hown with hown | ⟨first, hfirst, rfl⟩
      · exact .inr ⟨own, hown, rfl⟩
      · exact .inr ⟨first, hfirst, rfl⟩
  answers := by
    obtain ⟨answers, picks, heq, hpicks, hall⟩ := h.answers
    obtain ⟨answers', picks', heq', hpicks', hall'⟩ := h'.answers
    refine ⟨answers ++ answers', picks ++ picks', by rw [heq', heq, List.append_assoc], hpicks.append hpicks', ?_⟩
    apply List.rel_append hall
    apply hall'.imp
    rintro a r ⟨houtcome, own, hown, htx, msgId, containerMsgId, hstate, hid⟩
    -- a request that is out has been so all the time
    rcases h.requests own hown with hown | ⟨first, -, rfl⟩
    · exact ⟨houtcome, own, hown, htx, msgId, containerMsgId, hstate, hid⟩
    · cases hstate

theorem complete {p : Request → Bool} {reqMsgId : Int64} {result : Outcome} (h : s.complete p result = some s₁)
    (hp : ∀ req, p req = true → ∃ msgId containerMsgId, req.state = .sent msgId containerMsgId ∧
      (reqMsgId = msgId ∨ reqMsgId = containerMsgId)) : Resolves s s₁ [(reqMsgId, result)] := by
  unfold MtpSender.complete at h
  split at h
  · next req hfind =>
    cases h
    refine ⟨fun req' hreq => .inl (List.mem_of_mem_eraseP hreq), [(req.tx, result)], [(reqMsgId, result)], rfl,
      List.Sublist.refl _, .cons ⟨rfl, req, List.mem_of_find?_eq_some hfind, rfl, hp req ?_⟩ .nil⟩
    exact List.find?_some hfind
  · cases h

theorem sentAs_state {msgId : Int64} {req : Request} (h : sentAs msgId req = true) :
    ∃ id containerMsgId, req.state = .sent id containerMsgId ∧ (msgId = id ∨ msgId = containerMsgId) := by
  unfold sentAs at h
  split at h
  · next id containerMsgId hstate => exact ⟨id, containerMsgId, hstate, .inl (of_decide_eq_true h).symm⟩
  · cases h

theorem sentIn_state {msgId : Int64} {req : Request} (h : sentIn msgId req = true) :
    ∃ id containerMsgId, req.state = .sent id containerMsgId ∧ (msgId = id ∨ msgId = containerMsgId) := by
  unfold sentIn at h
  split at h
  · next id containerMsgId hstate => exact ⟨id, containerMsgId, hstate, .inr (of_decide_eq_true h).symm⟩
  · cases h

theorem unheard (s : MtpSender) (reply : Reply) : Resolves s s [reply] :=
  ⟨fun _ hreq => .inl hreq, [], [], (List.append_nil _).symm, List.nil_sublist _, .nil⟩

theorem resolve (s : MtpSender) (reqMsgId : Int64) (result : Outcome) :
    Resolves s (s.resolve reqMsgId result) [(reqMsgId, result)] := by
  unfold MtpSender.resolve
  split
  · next s' h => exact complete h fun _ => sentAs_state
  · cases h : s.complete (sentIn reqMsgId) result with
    | none => exact unheard s _
    | some s' => exact complete h fun _ => sentIn_state

theorem queueResend (s : MtpSender) (badMsgId : Int64) : Resolves s (s.queueResend badMsgId) [] := by
  refine quiet (fun req hreq => ?_) rfl
  rcases FirstMatch.mem_changeFirst hreq with hreq | ⟨own, hown, -, heq⟩
  · exact .inl hreq
  · exact .inr ⟨own, hown, heq⟩

/-- The session may have been corrected before. -/
theorem rejected (hrequests : s₁.requests = s.requests) (hanswers : s₁.answers = s.answers) (badMsgId : Int64) :
    Resolves s (s₁.queueResend badMsgId) [] := trans (same hrequests hanswers) (queueResend s₁ badMsgId)

theorem handles (w : World) : Handles w Resolves where
  refl _ := same rfl rfl
  trans := trans
  asked _ := same rfl rfl
  acknowledge s msgId := by
    unfold MtpSender.acknowledge
    split <;> exact same rfl rfl
  resolve := resolve
  onBadServerSalt s body := by
    unfold MtpSender.onBadServerSalt
    split
    · apply rejected <;> rfl
    · exact same rfl rfl
  onBadMsgNotification s body msgId := by
    unfold MtpSender.onBadMsgNotification
    split
    · dsimp only
      split
      · apply rejected <;> rfl
      · split
        · apply rejected <;> rfl
        · exact queueResend s _
    · exact same rfl rfl
  onNewSessionCreated s body := by
    unfold MtpSender.onNewSessionCreated
    split
    · refine quiet (fun req hreq => ?_) rfl
      obtain ⟨own, hown, rfl⟩ := List.mem_map.mp hreq
      exact .inr ⟨own, hown, rfl⟩
    · exact same rfl rfl

end Resolves

end Ferogram.Mtsender
