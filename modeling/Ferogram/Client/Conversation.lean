import Mathlib.Data.List.Forall2
import Ferogram.Client.PeerCache

/- A conversation with one peer, `Conversation` of `ferogram/src/conversation.rs`: calls that wait
   on the update stream, each for an update of its own, and put the others aside.

   The stream is what is still to come of it, and it closes behind the last update. A `Turn` is one
   round of a loop: the time since the call, and whether the stream was ready before the timeout. A
   call whose turns run out has been dropped at its `await`, which takes nothing from the stream.

   What is proved: `conserved_iff`, when every update that the calls read is kept for
   `drain_buffered`, or is given back and is of the peer. `wait_read` takes a raw update of anyone,
   and `wait_click` a click of the user in any group. -/
namespace Ferogram.Conversations
open Peers (Peer)

/-- `peerId` is what `peer_id` gives, none for an empty message; `content` is the rest. -/
structure IncomingMessage (κ : Type) where
  peerId : Option Peer
  content : κ
  deriving DecidableEq

/-- `chatPeer` is where the button was pressed; the message of an inline query has none. -/
structure CallbackQuery (κ : Type) where
  userId : Int64
  chatPeer : Option Peer
  content : κ
  deriving DecidableEq

/-- `other` stands for the variants that no call waits for. -/
inductive Update (κ : Type) where
  | newMessage (msg : IncomingMessage κ)
  | callbackQuery (cb : CallbackQuery κ)
  | raw (content : κ)
  | other (content : κ)
  deriving DecidableEq

/-- The errors of waiting. -/
inductive ConversationError where
  | timeout (deadline : Nat)
  | streamClosed
  deriving DecidableEq

structure Turn where
  elapsed : Nat
  inTime : Bool

/-- How a wait ends. -/
inductive Waited (α : Type) where
  | returned (a : α)
  | failed (e : ConversationError)
  | dropped
  deriving DecidableEq

/-- `stream` is shared with nobody while the conversation lasts. -/
structure Conversation (κ : Type) where
  peer : Peer
  stream : List (Update κ)
  buffered : List (Update κ)

def peerMatches : Option Peer → Peer → Bool
  | some (.user a), .user b => a = b
  | some (.chat a), .chat b => a = b
  | some (.channel a), .channel b => a = b
  | _, _ => false

section
variable {κ α : Type}

def cbPeerMatches (cb : CallbackQuery κ) (convPeer : Peer) : Bool :=
  match cb.chatPeer, convPeer with
  | some (.user a), .user b => a = b
  | some (.chat a), .chat b => a = b
  | some (.channel a), .channel b => a = b
  | _, .user u => cb.userId = u
  | _, _ => false

namespace Conversation

def new (peer : Peer) (stream : List (Update κ)) : Conversation κ := ⟨peer, stream, []⟩

/-- The loop of the three calls. -/
def wait (accept : Update κ → Option α) (deadline : Nat) : List Turn → Conversation κ → Waited α × Conversation κ
  | [], c => (.dropped, c)
  | turn :: turns, c =>
    if deadline - turn.elapsed = 0 then (.failed (.timeout deadline), c)
    else if turn.inTime then
      match c.stream with
      | [] => (.failed .streamClosed, c)
      | upd :: stream =>
        match accept upd with
        | some a => (.returned a, { c with stream := stream })
        | none => wait accept deadline turns { c with stream := stream, buffered := c.buffered ++ [upd] }
    else (.failed (.timeout deadline), c)

/-- The message that `get_response` waits for. -/
def response (peer : Peer) : Update κ → Option (IncomingMessage κ)
  | .newMessage msg => if peerMatches msg.peerId peer then some msg else none
  | _ => none

/-- The click that `wait_click` waits for. -/
def click (peer : Peer) : Update κ → Option (CallbackQuery κ)
  | .callbackQuery cb => if cbPeerMatches cb peer then some cb else none
  | _ => none

/-- What `wait_read` takes for a receipt. -/
def receipt : Update κ → Option Unit
  | .raw _ => some ()
  | _ => none

def getResponse (deadline : Nat) (turns : List Turn) (c : Conversation κ) :
    Waited (IncomingMessage κ) × Conversation κ := wait (response c.peer) deadline turns c

def waitClick (deadline : Nat) (turns : List Turn) (c : Conversation κ) :
    Waited (CallbackQuery κ) × Conversation κ := wait (click c.peer) deadline turns c

def waitRead (deadline : Nat) (turns : List Turn) (c : Conversation κ) : Waited Unit × Conversation κ :=
  wait receipt deadline turns c

def drainBuffered (c : Conversation κ) : List (Update κ) × Conversation κ := (c.buffered, { c with buffered := [] })

end Conversation

/-- A call, with what the clock and the stream do meanwhile. -/
inductive Call where
  | getResponse (deadline : Nat) (turns : List Turn)
  | waitClick (deadline : Nat) (turns : List Turn)
  | waitRead (deadline : Nat) (turns : List Turn)
  | drainBuffered

inductive Outcome (κ : Type) where
  | response (w : Waited (IncomingMessage κ))
  | click (w : Waited (CallbackQuery κ))
  | read (w : Waited Unit)
  | drained (updates : List (Update κ))
  deriving DecidableEq

def Conversation.call (c : Conversation κ) : Call → Outcome κ × Conversation κ
  | .getResponse deadline turns => (c.getResponse deadline turns).map .response id
  | .waitClick deadline turns => (c.waitClick deadline turns).map .click id
  | .waitRead deadline turns => (c.waitRead deadline turns).map .read id
  | .drainBuffered => c.drainBuffered.map .drained id

/-- The conversation after a call. -/
def Conversation.next (c : Conversation κ) (k : Call) : Conversation κ := (c.call k).2

/-- What a call gave, and what was taken from the stream meanwhile. -/
structure Entry (κ : Type) where
  outcome : Outcome κ
  read : List (Update κ)
  deriving DecidableEq

def Conversation.entry (c : Conversation κ) (k : Call) : Entry κ :=
  ⟨(c.call k).1, c.stream.take (c.stream.length - (c.next k).stream.length)⟩

def Conversation.trace : Conversation κ → List Call → List (Entry κ)
  | _, [] => []
  | c, k :: ks => c.entry k :: (c.next k).trace ks

/-- The update that a call gives back. `wait_read` only says that there was one, the last it read. -/
def Entry.returned (e : Entry κ) : Option (Update κ) :=
  match e.outcome with
  | .response (.returned msg) => some (.newMessage msg)
  | .click (.returned cb) => some (.callbackQuery cb)
  | .read (.returned ()) => e.read.getLast?
  | _ => none

def Entry.drained (e : Entry κ) : List (Update κ) :=
  match e.outcome with
  | .drained updates => updates
  | _ => []

/-- The update is of the peer: a message in its chat, a click there, or of the user on the message
of an inline query, or a raw update that counts as one of the peer. -/
def Belongs (ofPeer : κ → Peer → Prop) (peer : Peer) : Update κ → Prop
  | .newMessage msg => msg.peerId = some peer
  | .callbackQuery cb => cb.chatPeer = some peer ∨ cb.chatPeer = none ∧ peer = .user cb.userId
  | .raw content => ofPeer content peer
  | .other _ => False

/-- No update is lost or doubled: what was read is the front of the stream, each call kept what it
read but what it returned, and what was kept has been drained in that order or is still kept. -/
structure Conserved (ofPeer : κ → Peer → Prop) (c : Conversation κ) (calls : List Call) : Prop where
  stream : c.stream = (c.trace calls).flatMap Entry.read ++ (Run.final Conversation.next c calls).stream
  kept : ∃ kept : List (List (Update κ)),
    List.Forall₂ (fun e us => e.read = us ++ e.returned.toList) (c.trace calls) kept ∧
    (c.trace calls).flatMap Entry.drained ++ (Run.final Conversation.next c calls).buffered = c.buffered ++ kept.flatten
  belongs : ∀ e ∈ c.trace calls, ∀ upd, e.returned = some upd → Belongs ofPeer c.peer upd

/-- The updates that come before the deadline. -/
def window (deadline : Nat) (turns : List Turn) (stream : List (Update κ)) : List (Update κ) :=
  stream.take (turns.takeWhile fun turn => turn.elapsed < deadline ∧ turn.inTime).length

/-- The first update in time that `accept` takes. -/
def first (accept : Update κ → Option α) (deadline : Nat) (turns : List Turn) (stream : List (Update κ)) :
    Option (Update κ) := (window deadline turns stream).find? fun upd => (accept upd).isSome

/-- The first raw update that `wait_read` gets is of the peer, and the first click that `wait_click`
takes was not made in another chat. -/
def Fine (ofPeer : κ → Peer → Prop) (c : Conversation κ) : Call → Prop
  | .waitRead deadline turns =>
    ∀ content, first Conversation.receipt deadline turns c.stream = some (.raw content) → ofPeer content c.peer
  | .waitClick deadline turns =>
    ∀ cb, first (Conversation.click c.peer) deadline turns c.stream = some (.callbackQuery cb) →
      cb.chatPeer = none ∨ cb.chatPeer = some c.peer
  | .getResponse _ _ | .drainBuffered => True

end

/-! What matches. -/

section Matching
variable {κ : Type} {peer : Peer}

theorem peerMatches_iff {msgPeer : Option Peer} : peerMatches msgPeer peer = true ↔ msgPeer = some peer := by
  rcases msgPeer with _ | (a | a | a) <;> cases peer <;> simp [peerMatches]

theorem response_eq_some {upd : Update κ} {msg : IncomingMessage κ} :
    Conversation.response peer upd = some msg ↔ upd = .newMessage msg ∧ msg.peerId = some peer := by
  cases upd with
  | newMessage m =>
    simp only [Conversation.response, peerMatches_iff, Option.ite_none_right_eq_some, Option.some.injEq,
      Update.newMessage.injEq]
    constructor
    · rintro ⟨h, rfl⟩
      exact ⟨rfl, h⟩
    · rintro ⟨rfl, h⟩
      exact ⟨h, rfl⟩
  | _ => simp [Conversation.response]

theorem click_eq_some {upd : Update κ} {cb : CallbackQuery κ} :
    Conversation.click peer upd = some cb ↔ upd = .callbackQuery cb ∧ cbPeerMatches cb peer = true := by
  cases upd with
  | callbackQuery q =>
    simp only [Conversation.click, Option.ite_none_right_eq_some, Option.some.injEq, Update.callbackQuery.injEq]
    constructor
    · rintro ⟨h, rfl⟩
      exact ⟨rfl, h⟩
    · rintro ⟨rfl, h⟩
      exact ⟨h, rfl⟩
  | _ => simp [Conversation.click]

theorem receipt_eq_some {upd : Update κ} {u : Unit} :
    Conversation.receipt upd = some u ↔ ∃ content, upd = .raw content := by
  cases upd <;> simp [Conversation.receipt]

/-- In another chat than the peer's, a click of the user is taken too. -/
theorem cbPeerMatches_iff {cb : CallbackQuery κ} : cbPeerMatches cb peer = true ↔
    cb.chatPeer = some peer ∨ peer = .user cb.userId ∧ ∀ a, cb.chatPeer ≠ some (.user a) := by
  obtain ⟨userId, chatPeer, content⟩ := cb
  rcases chatPeer with _ | (a | a | a) <;> cases peer <;> simp [cbPeerMatches, eq_comm]

example : cbPeerMatches (⟨7, some (.chat 5), ()⟩ : CallbackQuery Unit) (.user 7) = true := rfl

end Matching

/-! The first update in time. -/

section First
variable {κ α : Type} (accept : Update κ → Option α) {deadline : Nat}

theorem first_stop {turn : Turn} (h : ¬ (turn.elapsed < deadline ∧ turn.inTime = true)) (turns : List Turn)
    (stream : List (Update κ)) : first accept deadline (turn :: turns) stream = none := by
  rw [first, window, List.takeWhile_cons_of_neg (by simpa using h)]
  rfl

theorem first_go {turn : Turn} (h : turn.elapsed < deadline ∧ turn.inTime = true) (turns : List Turn) (upd : Update κ)
    (stream : List (Update κ)) : first accept deadline (turn :: turns) (upd :: stream) =
      if (accept upd).isSome then some upd else first accept deadline turns stream := by
  rw [first, window, List.takeWhile_cons_of_pos (by simpa using h), List.length_cons, List.take_succ_cons, List.find?_cons]
  cases (accept upd).isSome <;> rfl

theorem first_closed (turns : List Turn) : first accept deadline turns [] = none := by
  rw [first, window, List.take_nil, List.find?_nil]

/-- The update is of those that `accept` takes. -/
theorem accept_of_first {turns : List Turn} {stream : List (Update κ)} {upd : Update κ}
    (h : first accept deadline turns stream = some upd) : ∃ a, accept upd = some a := by
  rw [first] at h
  have haccept := List.find?_some h
  exact Option.isSome_iff_exists.mp haccept

end First

/-! What a call does. -/

section Calls
variable {κ α : Type} {ofPeer : κ → Peer → Prop}

/-- The ways in which a wait from `c` ends: with the update it has taken, or without one. What it
read besides is put behind what was kept. -/
inductive Ends (accept : Update κ → Option α) (c : Conversation κ) (kept : List (Update κ)) :
    Option (Update κ) → Waited α × Conversation κ → Prop where
  | returned (upd : Update κ) (a : α) (stream : List (Update κ)) (haccept : accept upd = some a)
    (hstream : c.stream = kept ++ upd :: stream) :
    Ends accept c kept (some upd) (.returned a, ⟨c.peer, stream, c.buffered ++ kept⟩)
  | without (w : Waited α) (stream : List (Update κ)) (hw : ∀ a, w ≠ .returned a) (hstream : c.stream = kept ++ stream) :
    Ends accept c kept none (w, ⟨c.peer, stream, c.buffered ++ kept⟩)

variable {accept : Update κ → Option α}

/-- A wait that ends at once without an update leaves the conversation as it is. -/
theorem Ends.at_once (c : Conversation κ) {w : Waited α} (hw : ∀ a, w ≠ .returned a) : Ends accept c [] none (w, c) := by
  have h : Ends accept c [] none (w, ⟨c.peer, c.stream, c.buffered ++ []⟩) := .without w c.stream hw rfl
  rwa [List.append_nil] at h

/-- An update that was put aside is the first of those that are kept. -/
theorem Ends.behind {peer : Peer} {upd : Update κ} {stream buffered kept : List (Update κ)} {taken : Option (Update κ)}
    {r : Waited α × Conversation κ} (h : Ends accept ⟨peer, stream, buffered ++ [upd]⟩ kept taken r) :
    Ends accept ⟨peer, upd :: stream, buffered⟩ (upd :: kept) taken r := by
  cases h with
  | returned last a rest haccept hstream =>
    rw [List.append_assoc]
    exact .returned last a rest haccept (congrArg (upd :: ·) hstream)
  | without w rest hw hstream =>
    rw [List.append_assoc]
    exact .without w rest hw (congrArg (upd :: ·) hstream)

/-- A wait ends with the first update in time that it accepts. -/
theorem wait_ends (accept : Update κ → Option α) (deadline : Nat) : ∀ (turns : List Turn) (c : Conversation κ),
    ∃ kept, Ends accept c kept (first accept deadline turns c.stream) (c.wait accept deadline turns)
  | [], c => ⟨[], .at_once c nofun⟩
  | turn :: turns, ⟨peer, stream, buffered⟩ => by
    by_cases hlate : deadline - turn.elapsed = 0
    · rw [first_stop accept (by omega), Conversation.wait, if_pos hlate]
      exact ⟨[], .at_once _ nofun⟩
    · by_cases hready : turn.inTime = true
      · rw [Conversation.wait, if_neg hlate, if_pos hready]
        cases stream with
        | nil =>
          rw [first_closed]
          exact ⟨[], .at_once _ nofun⟩
        | cons upd stream =>
          rw [first_go accept ⟨by omega, hready⟩]
          dsimp only
          cases haccept : accept upd with
          | some a =>
            have h : Ends accept ⟨peer, upd :: stream, buffered⟩ [] (some upd)
                (.returned a, ⟨peer, stream, buffered ++ []⟩) := .returned upd a stream haccept rfl
            rw [List.append_nil] at h
            exact ⟨[], h⟩
          | none =>
            obtain ⟨kept, h⟩ := wait_ends accept deadline turns ⟨peer, stream, buffered ++ [upd]⟩
            exact ⟨upd :: kept, h.behind⟩
      · rw [first_stop accept (by simp [hready]), Conversation.wait, if_neg hlate, if_neg hready]
        exact ⟨[], .at_once _ nofun⟩

/-- The update that a call takes for its own. -/
def Conversation.awaited (c : Conversation κ) : Call → Option (Update κ)
  | .getResponse deadline turns => first (response c.peer) deadline turns c.stream
  | .waitClick deadline turns => first (click c.peer) deadline turns c.stream
  | .waitRead deadline turns => first receipt deadline turns c.stream
  | .drainBuffered => none

/-- What a call does: it reads what it keeps and then what it takes, which it returns. -/
structure Does (c : Conversation κ) (k : Call) (taken : Option (Update κ)) (kept : List (Update κ)) : Prop where
  peer : (c.next k).peer = c.peer
  read : (c.entry k).read = kept ++ taken.toList
  returned : (c.entry k).returned = taken
  stream : c.stream = (c.entry k).read ++ (c.next k).stream
  buffered : (c.entry k).drained ++ (c.next k).buffered = c.buffered ++ kept

/-- What was read is what is gone from the stream. -/
theorem entry_eq {c c' : Conversation κ} {k : Call} {outcome : Outcome κ} {us : List (Update κ)}
    (hcall : c.call k = (outcome, c')) (hstream : c.stream = us ++ c'.stream) : c.entry k = ⟨outcome, us⟩ := by
  have hnext : c.next k = c' := by rw [Conversation.next, hcall]
  rw [Conversation.entry, hnext, hcall, hstream, List.length_append, Nat.add_sub_cancel, List.take_left]

/-- So does a call that waits, if its outcome shows what was accepted and drains nothing. -/
theorem Ends.does {c : Conversation κ} {k : Call} {kept : List (Update κ)} {taken : Option (Update κ)}
    {r : Waited α × Conversation κ} (h : Ends accept c kept taken r) (out : Waited α → Outcome κ)
    (hcall : c.call k = (out r.1, r.2)) (hdrained : ∀ w us, (Entry.mk (out w) us).drained = [])
    (hreturned : ∀ upd a us, accept upd = some a → (Entry.mk (out (.returned a)) (us ++ [upd])).returned = some upd)
    (hfailed : ∀ e us, (Entry.mk (out (.failed e)) us).returned = none)
    (hdropped : ∀ us, (Entry.mk (out .dropped) us).returned = none) : Does c k taken kept := by
  have hnext : c.next k = r.2 := by rw [Conversation.next, hcall]
  cases h with
  | returned upd a stream haccept hstream =>
    have hread : c.stream = (kept ++ [upd]) ++ stream := by
      rw [hstream, List.append_assoc, List.singleton_append]
    have hentry : c.entry k = ⟨out (.returned a), kept ++ [upd]⟩ := entry_eq hcall hread
    refine ⟨by rw [hnext], by rw [hentry]; rfl, ?_, by rw [hentry, hnext]; exact hread, ?_⟩
    · rw [hentry, hreturned upd a kept haccept]
    · rw [hentry, hdrained, hnext, List.nil_append]
  | without w stream hw hstream =>
    have hentry : c.entry k = ⟨out w, kept⟩ := entry_eq hcall hstream
    refine ⟨by rw [hnext], by rw [hentry, Option.toList_none, List.append_nil], ?_,
      by rw [hentry, hnext]; exact hstream, ?_⟩
    · rw [hentry]
      cases w with
      | returned a => exact absurd rfl (hw a)
      | failed e => exact hfailed e kept
      | dropped => exact hdropped kept
    · rw [hentry, hdrained, hnext, List.nil_append]

theorem call_does (c : Conversation κ) : ∀ k : Call, ∃ kept, Does c k (c.awaited k) kept
  | .getResponse deadline turns => by
    obtain ⟨kept, hends⟩ := wait_ends (Conversation.response c.peer) deadline turns c
    refine ⟨kept, hends.does .response rfl (fun _ _ => rfl) ?_ (fun _ _ => rfl) (fun _ => rfl)⟩
    intro upd msg us haccept
    exact congrArg some (response_eq_some.mp haccept).1.symm
  | .waitClick deadline turns => by
    obtain ⟨kept, hends⟩ := wait_ends (Conversation.click c.peer) deadline turns c
    refine ⟨kept, hends.does .click rfl (fun _ _ => rfl) ?_ (fun _ _ => rfl) (fun _ => rfl)⟩
    intro upd cb us haccept
    exact congrArg some (click_eq_some.mp haccept).1.symm
  | .waitRead deadline turns => by
    obtain ⟨kept, hends⟩ := wait_ends Conversation.receipt deadline turns c
    refine ⟨kept, hends.does .read rfl (fun _ _ => rfl) ?_ (fun _ _ => rfl) (fun _ => rfl)⟩
    intro upd _ us _
    exact List.getLast?_concat
  | .drainBuffered => by
    have hentry : c.entry .drainBuffered = ⟨.drained c.buffered, []⟩ := entry_eq rfl rfl
    exact ⟨[], rfl, by rw [hentry]; rfl, rfl, by rw [hentry]; rfl, by rw [hentry]; rfl⟩

/-- What a call takes is of the peer exactly if the call is fine. -/
theorem belongs_iff_fine {c : Conversation κ} :
    ∀ {k : Call}, (∀ upd, c.awaited k = some upd → Belongs ofPeer c.peer upd) ↔ Fine ofPeer c k
  | .getResponse deadline turns => by
    refine iff_of_true (fun upd hawaited => ?_) trivial
    obtain ⟨msg, haccept⟩ := accept_of_first _ hawaited
    obtain ⟨rfl, hpeer⟩ := response_eq_some.mp haccept
    exact hpeer
  | .waitClick deadline turns => by
    constructor
    · intro hbelongs cb hfirst
      exact (hbelongs _ hfirst).symm.imp_left And.left
    · intro hfine upd hawaited
      obtain ⟨cb, haccept⟩ := accept_of_first _ hawaited
      obtain ⟨rfl, hmatches⟩ := click_eq_some.mp haccept
      rcases hfine cb hawaited with hnone | hpeer
      · rcases cbPeerMatches_iff.mp hmatches with hpeer | ⟨huser, _⟩
        · exact .inl hpeer
        · exact .inr ⟨hnone, huser⟩
      · exact .inl hpeer
  | .waitRead deadline turns => by
    constructor
    · intro hbelongs content hfirst
      exact hbelongs _ hfirst
    · intro hfine upd hawaited
      obtain ⟨a, haccept⟩ := accept_of_first _ hawaited
      obtain ⟨content, rfl⟩ := receipt_eq_some.mp haccept
      exact hfine content hawaited
  | .drainBuffered => iff_of_true nofun trivial

end Calls

/-! Runs of calls. -/

section Runs
variable {κ : Type} (ofPeer : κ → Peer → Prop)

/-- Conservation, but for whose the returned updates are, holds in every run. -/
theorem run_keeps : ∀ (calls : List Call) (c : Conversation κ),
    c.stream = (c.trace calls).flatMap Entry.read ++ (Run.final Conversation.next c calls).stream ∧
    ∃ kept : List (List (Update κ)),
      List.Forall₂ (fun e us => e.read = us ++ e.returned.toList) (c.trace calls) kept ∧
      (c.trace calls).flatMap Entry.drained ++ (Run.final Conversation.next c calls).buffered = c.buffered ++ kept.flatten
  | [], c => ⟨rfl, [], .nil, (List.append_nil _).symm⟩
  | k :: ks, c => by
    obtain ⟨us, hdoes⟩ := call_does c k
    obtain ⟨hstream, kept, hall, hkept⟩ := run_keeps ks (c.next k)
    refine ⟨?_, us :: kept, .cons ?_ hall, ?_⟩
    · calc c.stream = (c.entry k).read ++ (c.next k).stream := hdoes.stream
        _ = (c.entry k).read ++ (((c.next k).trace ks).flatMap Entry.read ++
              (Run.final Conversation.next (c.next k) ks).stream) := by rw [← hstream]
        _ = _ := (List.append_assoc _ _ _).symm
    · rw [hdoes.returned, hdoes.read]
    · calc (c.trace (k :: ks)).flatMap Entry.drained ++ (Run.final Conversation.next c (k :: ks)).buffered
          = (c.entry k).drained ++ (((c.next k).trace ks).flatMap Entry.drained ++
              (Run.final Conversation.next (c.next k) ks).buffered) := List.append_assoc _ _ _
        _ = ((c.entry k).drained ++ (c.next k).buffered) ++ kept.flatten := by rw [hkept, List.append_assoc]
        _ = c.buffered ++ (us :: kept).flatten := by rw [hdoes.buffered, List.append_assoc, List.flatten_cons]

theorem run_belongs_iff : ∀ (calls : List Call) (c : Conversation κ),
    (∀ e ∈ c.trace calls, ∀ upd, e.returned = some upd → Belongs ofPeer c.peer upd) ↔
      Run.AllSteps Conversation.next (Fine ofPeer) c calls
  | [], _ => iff_of_true nofun trivial
  | k :: ks, c => by
    obtain ⟨us, hdoes⟩ := call_does c k
    have ih := run_belongs_iff ks (c.next k)
    rw [hdoes.peer] at ih
    rw [Conversation.trace, List.forall_mem_cons, Run.AllSteps, hdoes.returned, belongs_iff_fine, ih]

/-- A conversation conserves the updates of its stream, whatever the calls, the deadlines and the
times, exactly if the calls are fine. Where no raw update counts as one of the peer, what
`wait_read` takes is always lost. -/
theorem conserved_iff (peer : Peer) (stream : List (Update κ)) (calls : List Call) :
    Conserved ofPeer (.new peer stream) calls ↔
      Run.AllSteps Conversation.next (Fine ofPeer) (.new peer stream) calls := by
  rw [← run_belongs_iff]
  constructor
  · intro h
    exact h.belongs
  · intro hbelongs
    obtain ⟨hstream, hkept⟩ := run_keeps calls (.new peer stream)
    exact ⟨hstream, hkept, hbelongs⟩

/-- With user 7, `wait_read` takes a raw update of user 8, and `wait_click` a click in chat 5. -/
theorem not_conserved :
    ¬ Conserved (fun (r : Option Peer) p => r = some p) (.new (.user 7) [.raw (some (.user 8))])
      [.waitRead 5 [⟨0, true⟩]] ∧
    ¬ Conserved (fun (r : Option Peer) p => r = some p)
      (.new (.user 7) [.callbackQuery ⟨7, some (.chat 5), none⟩]) [.waitClick 5 [⟨0, true⟩]] := by
  constructor
  · intro h
    have hbelongs := h.belongs _ (.head _) (.raw (some (.user 8))) rfl
    cases hbelongs
  · intro h
    have hbelongs := h.belongs _ (.head _) (.callbackQuery ⟨7, some (.chat 5), none⟩) rfl
    rcases hbelongs with hpeer | ⟨hnone, _⟩
    · cases hpeer
    · cases hnone

end Runs

end Ferogram.Conversations
