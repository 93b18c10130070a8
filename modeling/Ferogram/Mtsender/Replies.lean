import Ferogram.Mtsender.Dispatching
import Ferogram.Mtsender.SenderLoop

/- Which reply a caller gets (`ferogram-mtsender/src/mtp_sender.rs`).

   A caller's request is put into a frame under an id; the frame is written; later a message
   comes that names the id, or the id of the frame. In between the server may have lost the
   session, the connection may have broken, and the request may have gone out again. Requests
   with equal bodies cannot be told apart in a frame, and a reply may name anything.

   `Dialogue` is a sender on its connections together with a log of what has happened. Every
   request is backed by the log (`Backs`), which each operation keeps; a read answers a request
   that is `Sent` only (`Resolves`). So the answers are replies of the log, in its order, each
   to what its caller asked (`replies_matched`). -/
namespace Ferogram.Mtsender
open Bytes Connect Mtproto MtpSender
open Crypto (Primitives)

namespace Dialogue

inductive Event where
  | enqueued (body : List UInt8) (tx : Nat)
  | framed (packed : Packed)
  /-- To the last byte. -/
  | written
  | received (msgs : List DecryptedMessage)
  /-- The requests are given up, or are to go out on another connection. -/
  | broken

end Dialogue

/-- A sender, and what has happened to it. -/
structure Dialogue where
  duplex : Duplex
  log : List Dialogue.Event

namespace Dialogue

section
variable (P : Primitives) (w : World) (fuel : Nat)

def events (d : Duplex) : Duplex.Op → List Event
  | .enqueue body tx => [.enqueued body tx]
  | .tryFillWrite => ((d.sender.tryFillWrite w).2.map .framed).toList
  | .wrote n => if d.sender.writeBuf.length ≤ d.sender.writeHead + n then [.written] else []
  | .ping _ tx => [.enqueued (Duplex.pingBody (w.random d.sender.tick)) tx]
  | .read bytes => [.received (d.acceptedIn P w fuel bytes)]
  | .failAll | .setStream .. => [.broken]

def next (x : Dialogue) (op : Duplex.Op) : Dialogue :=
  match x.duplex.apply P w fuel op with
  | some (d, _) => { duplex := d, log := x.log ++ events P w fuel x.duplex op }
  | none => x

end

/-- A reply, and what had happened before it came. -/
structure Heard where
  before : List Event
  reply : Reply

section
variable (w : World) (fuel : Nat)

/-- The replies of an event. -/
def Event.replies : Event → List Reply
  | .received msgs => repliesOf w fuel msgs
  | _ => []

/-- The replies of a log, of which a part has gone before. -/
def heardFrom : List Event → List Event → List Heard
  | _, [] => []
  | before, e :: log => (e.replies w fuel).map (Heard.mk before) ++ heardFrom (before ++ [e]) log

def heard (log : List Event) : List Heard := heardFrom w fuel [] log

theorem heardFrom_append (before log more : List Event) :
    heardFrom w fuel before (log ++ more) = heardFrom w fuel before log ++ heardFrom w fuel (before ++ log) more := by
  induction log generalizing before with
  | nil => simp [heardFrom]
  | cons e log ih => simp [heardFrom, ih, List.append_assoc]

theorem heard_append (log more : List Event) :
    heard w fuel (log ++ more) = heard w fuel log ++ heardFrom w fuel log more := heardFrom_append w fuel [] log more

end

/-- The frame has the body in it under the id. -/
def Packs (packed : Packed) (body : List UInt8) (msgId containerMsgId : Int64) : Prop :=
  packed.envelope.msgId = containerMsgId ∧ ∃ m ∈ packed.inner, m.msgId = msgId ∧ m.body = body

/-- Put into a frame on the connection that there is, and since then something more. -/
def Framed (log : List Event) (body : List UInt8) (msgId containerMsgId : Int64) (since : List Event → Prop) : Prop :=
  ∃ before packed after, log = before ++ .framed packed :: after ∧ Packs packed body msgId containerMsgId ∧
    .broken ∉ after ∧ since after

/-- Written to its end on the connection that there is. -/
def WentOut (log : List Event) (body : List UInt8) (msgId containerMsgId : Int64) : Prop :=
  Framed log body msgId containerMsgId (.written ∈ ·)

/-- What the log says of a request, by its state. -/
def Backs (log : List Event) (req : Request) : Prop :=
  .enqueued req.body req.tx ∈ log ∧
    match req.state with
    | .pending => True
    | .serialised msgId containerMsgId => Framed log req.body msgId containerMsgId fun _ => True
    | .sent msgId containerMsgId => WentOut log req.body msgId containerMsgId

/-- The answer is a reply to what the caller asked and what had gone out before, under the id that
the reply names, alone or in a container. -/
def Matches (answer : Nat × Outcome) (h : Heard) : Prop :=
  answer.2 = h.reply.2 ∧ ∃ body msgId containerMsgId, .enqueued body answer.1 ∈ h.before ∧
    WentOut h.before body msgId containerMsgId ∧ (h.reply.1 = msgId ∨ h.reply.1 = containerMsgId)

/-! What the log says goes on being so. -/

section
variable {log more : List Event} {body : List UInt8} {msgId containerMsgId : Int64} {since since' : List Event → Prop}
  {req : Request}

theorem Framed.append (h : Framed log body msgId containerMsgId since) (hmore : .broken ∉ more)
    (hsince : ∀ after, since after → since' (after ++ more)) : Framed (log ++ more) body msgId containerMsgId since' := by
  obtain ⟨before, packed, after, rfl, hpacks, hbroken, hafter⟩ := h
  refine ⟨before, packed, after ++ more, by simp, hpacks, fun hmem => ?_, hsince after hafter⟩
  exact (List.mem_append.mp hmem).elim hbroken hmore

theorem Backs.append (h : Backs log req) (hmore : .broken ∉ more) : Backs (log ++ more) req := by
  obtain ⟨henqueued, hstate⟩ := h
  refine ⟨List.mem_append_left more henqueued, ?_⟩
  cases hreq : req.state with
  | pending => trivial
  | serialised msgId containerMsgId =>
    rw [hreq] at hstate
    exact hstate.append hmore fun _ _ => trivial
  | sent msgId containerMsgId =>
    rw [hreq] at hstate
    exact hstate.append hmore fun _ => List.mem_append_left more

/-- A request that is to go out again needs no frame. -/
theorem Backs.again (h : Backs log req) (more : List Event) : Backs (log ++ more) { req with state := .pending } :=
  ⟨List.mem_append_left more h.1, trivial⟩

theorem Backs.framed (h : Backs log req) {packed : Packed} {m : InnerMessage} (hm : m ∈ packed.inner)
    (hbody : m.body = req.body) :
    Backs (log ++ [.framed packed]) { req with state := .serialised m.msgId packed.envelope.msgId } :=
  ⟨List.mem_append_left _ h.1, log, packed, [], rfl, ⟨rfl, m, hm, rfl, hbody⟩, List.not_mem_nil, trivial⟩

theorem Backs.written (h : Backs log { req with state := .serialised msgId containerMsgId }) :
    Backs (log ++ [.written]) { req with state := .sent msgId containerMsgId } :=
  ⟨List.mem_append_left _ h.1, h.2.append (by simp) fun _ _ => by simp⟩

end

theorem mem_markAll {containerMsgId : Int64} {inner : List InnerMessage} {requests : List Request} {req : Request}
    (h : req ∈ markAll containerMsgId requests inner) : req ∈ requests ∨ ∃ own ∈ requests, ∃ m ∈ inner,
      m.body = own.body ∧ req = { own with state := .serialised m.msgId containerMsgId } := by
  induction inner generalizing requests with
  | nil => exact .inl h
  | cons m inner ih =>
    rcases ih h with h | ⟨own, hown, m', hm', hbody, rfl⟩
    · rcases FirstMatch.mem_changeFirst h with h | ⟨own, hown, hawaits, rfl⟩
      · exact .inl h
      · exact .inr ⟨own, hown, m, List.mem_cons_self .., (of_decide_eq_true hawaits).2.symm, rfl⟩
    · rcases FirstMatch.mem_changeFirst hown with hown | ⟨first, hfirst, -, rfl⟩
      · exact .inr ⟨own, hown, m', List.mem_cons_of_mem m hm', hbody, rfl⟩
      · exact .inr ⟨first, hfirst, m', List.mem_cons_of_mem m hm', hbody, rfl⟩

/-! A run. -/

structure Kept (w : World) (fuel : Nat) (x : Dialogue) : Prop where
  backs : ∀ req ∈ x.duplex.sender.requests, Backs x.log req
  matched : ∃ hits, hits.Sublist (heard w fuel x.log) ∧ List.Forall₂ Matches x.duplex.sender.answers hits

section
variable {P : Primitives} {w : World} {fuel : Nat} {x : Dialogue} {d : Duplex}

/-- Nobody is answered. -/
theorem Kept.onward (h : Kept w fuel x) {more : List Event} (hanswers : d.sender.answers = x.duplex.sender.answers)
    (hbacks : ∀ req ∈ d.sender.requests, Backs (x.log ++ more) req) : Kept w fuel ⟨d, x.log ++ more⟩ := by
  obtain ⟨hits, hsub, hall⟩ := h.matched
  refine ⟨hbacks, hits, ?_, hanswers ▸ hall⟩
  rw [heard_append]
  exact hsub.trans (List.sublist_append_left _ _)

/-- Nothing has happened to the requests. -/
theorem Kept.idle (h : Kept w fuel x) (hanswers : d.sender.answers = x.duplex.sender.answers)
    (hrequests : d.sender.requests = x.duplex.sender.requests) : Kept w fuel ⟨d, x.log ++ []⟩ :=
  h.onward hanswers fun req hreq => (h.backs req (hrequests ▸ hreq)).append List.not_mem_nil

theorem Kept.enqueued (h : Kept w fuel x) {body : List UInt8} {tx : Nat} (hanswers : d.sender.answers = x.duplex.sender.answers)
    (hrequests : d.sender.requests = x.duplex.sender.requests ++ [{ body := body, state := .pending, tx := tx }]) :
    Kept w fuel ⟨d, x.log ++ [.enqueued body tx]⟩ := by
  apply h.onward hanswers
  intro req hreq
  rw [hrequests] at hreq
  rcases List.mem_append.mp hreq with hreq | hreq
  · exact (h.backs req hreq).append (by simp)
  · obtain rfl := List.mem_singleton.mp hreq
    exact ⟨List.mem_append_right _ (List.mem_singleton.mpr rfl), trivial⟩

theorem tryFillWrite_answers (w : World) (s : MtpSender) : (s.tryFillWrite w).1.answers = s.answers := by
  unfold tryFillWrite
  split
  · rfl
  · dsimp only
    split
    · rfl
    · split
      · rfl
      · exact (congrArg MtpSender.answers (foldl_markSerialised _ _ _)).trans rfl

theorem Kept.fill (h : Kept w fuel x) :
    Kept w fuel ⟨{ x.duplex with sender := (x.duplex.sender.tryFillWrite w).1 },
      x.log ++ ((x.duplex.sender.tryFillWrite w).2.map Event.framed).toList⟩ := by
  by_cases hbusy : x.duplex.sender.writeHead < x.duplex.sender.writeBuf.length
  · rw [tryFillWrite, if_pos hbusy]
    exact h.idle rfl rfl
  · by_cases hne : x.duplex.sender.collect = []
    · rw [tryFillWrite, if_neg hbusy, hne]
      exact h.idle rfl rfl
    · obtain ⟨s', packed, htry, -, -, -, hrequests, -⟩ := tryFillWrite_packs (w := w) hbusy hne
      have hanswers := tryFillWrite_answers w x.duplex.sender
      rw [htry] at hanswers ⊢
      apply h.onward hanswers
      intro req hreq
      have hreq : req ∈ s'.requests := hreq
      rw [hrequests] at hreq
      rcases mem_markAll hreq with hreq | ⟨own, hown, m, hm, hbody, rfl⟩
      · exact (h.backs req hreq).append (by simp)
      · exact (h.backs own hown).framed hm hbody

theorem Kept.wrote (h : Kept w fuel x) (n : Nat) :
    Kept w fuel ⟨{ x.duplex with sender := x.duplex.sender.wrote n },
      x.log ++ if x.duplex.sender.writeBuf.length ≤ x.duplex.sender.writeHead + n then [.written] else []⟩ := by
  unfold MtpSender.wrote
  split
  · refine h.onward ?_ fun req hreq => ?_
    · rfl
    obtain ⟨own, hown, rfl⟩ := List.mem_map.mp hreq
    have hbacks := h.backs own hown
    split
    · next msgId containerMsgId hstate =>
      rw [show own = { own with state := .serialised msgId containerMsgId } by rw [← hstate]] at hbacks
      exact hbacks.written
    · exact hbacks.append (by simp)
  · exact h.idle rfl rfl

/-- What is read answers what has gone out before. -/
theorem Kept.read (h : Kept w fuel x) {msgs : List DecryptedMessage}
    (hsettles : Resolves x.duplex.sender d.sender (repliesOf w fuel msgs)) : Kept w fuel ⟨d, x.log ++ [.received msgs]⟩ := by
  obtain ⟨answers, picks, heq, hpicks, hnew⟩ := hsettles.answers
  obtain ⟨hits, hsub, hall⟩ := h.matched
  refine ⟨fun req hreq => ?_, hits ++ picks.map (Heard.mk x.log), ?_, ?_⟩
  · rcases hsettles.requests req hreq with hreq | ⟨own, hown, rfl⟩
    · exact (h.backs req hreq).append (by simp)
    · exact (h.backs own hown).again _
  · rw [heard_append]
    exact hsub.append (by simpa [heardFrom, Event.replies] using hpicks.map _)
  · rw [heq]
    apply List.rel_append hall
    rw [List.forall₂_map_right_iff]
    apply hnew.imp
    rintro a r ⟨houtcome, own, hown, htx, msgId, containerMsgId, hstate, hid⟩
    obtain ⟨henqueued, hout⟩ := h.backs own hown
    rw [hstate] at hout
    exact ⟨houtcome, own.body, msgId, containerMsgId, htx ▸ henqueued, hout, hid⟩

theorem next_kept (h : Kept w fuel x) (op : Duplex.Op) : Kept w fuel (next P w fuel x op) := by
  cases op with
  | enqueue body tx => exact h.enqueued rfl rfl
  | tryFillWrite => exact h.fill
  | wrote n => exact h.wrote n
  | ping now tx => exact h.enqueued rfl rfl
  | read bytes =>
    cases hread : x.duplex.onRead P w fuel bytes with
    | none =>
      rw [show next P w fuel x (.read bytes) = x by simp [next, Duplex.apply, hread]]
      exact h
    | some result =>
      obtain ⟨d, result⟩ := result
      rw [show next P w fuel x (.read bytes) = ⟨d, x.log ++ [.received (x.duplex.acceptedIn P w fuel bytes)]⟩ by
        simp [next, Duplex.apply, hread, events]]
      exact h.read ((Resolves.handles w).onRead hread)
  | failAll => exact h.onward rfl fun req hreq => absurd hreq List.not_mem_nil
  | setStream c now =>
    show Kept w fuel ⟨x.duplex.setStream c now, x.log ++ [.broken]⟩
    refine h.onward ?_ fun req hreq => ?_
    · rfl
    obtain ⟨own, hown, rfl⟩ := List.mem_map.mp hreq
    exact (h.backs own hown).again _

end

end Dialogue

/-- **Every answer is a reply to what its caller asked.** From the connection on, over every run: the
answers that callers get are replies from the messages that were read, in their order, and none answers two callers;
each names the id of the caller's own request, or of the frame, and these had been written to the end on that
connection before the reply came. -/
theorem replies_matched (P : Primitives) (w : World) (fuel : Nat) (c : Connection) (ops : List Duplex.Op) :
    let x := Run.final (Dialogue.next P w fuel) ⟨(SenderLoop.spawn c).duplex, []⟩ ops
    ∃ hits, hits.Sublist (Dialogue.heard w fuel x.log) ∧ List.Forall₂ Dialogue.Matches x.duplex.sender.answers hits := by
  have hstart : Dialogue.Kept w fuel ⟨(SenderLoop.spawn c).duplex, []⟩ :=
    ⟨fun req hreq => absurd hreq List.not_mem_nil, [], List.nil_sublist _, .nil⟩
  have hkept : ∀ x ∈ Run.states (Dialogue.next P w fuel) ⟨(SenderLoop.spawn c).duplex, []⟩ ops, Dialogue.Kept w fuel x :=
    Run.states_inv_all _ (fun x op hx => Dialogue.next_kept hx op) ops _ hstart
  exact (hkept _ (Run.final_mem_states _ ops _)).matched

end Ferogram.Mtsender
