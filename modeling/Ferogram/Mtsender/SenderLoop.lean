import Ferogram.Lib.Run
import Ferogram.Mtsender.Channels
import Ferogram.Mtsender.Dispatching

/- The loop that drives a sender, `sender_loop` of `ferogram-mtsender/src/sender_task.rs`.

   The task is polled now and then, with something ready or nothing: bytes or an error on the
   stream, room to write, room in the channel to the client. Requests and new streams come in
   through channels of their own. `select!` is biased, in the loop as in `step`: the branch
   that stands first is taken. A step that is left for a request is begun anew, with a read
   timeout of its own.

   What is proved: `requests_accounted`. No request gets two values, and while the loop runs
   one that has none is still in the channel or in the queue; after a failure the queue is
   empty. -/
namespace Ferogram.Mtsender
open Bytes Connect Mtproto
open Crypto (Primitives)
open scoped List

namespace SenderLoop

structure RpcEnqueue where
  body : List UInt8
  tx : Nat

/-- What a caller can get from its channel. -/
abbrev Value := Except InvocationError (List UInt8)

inductive Phase where
  /-- `FrameEvent::Connected` is being sent. -/
  | connecting
  /-- In `step`, begun at the time. -/
  | stepping (start : Nat)
  /-- Updates are being sent. -/
  | delivering (updates : List Update)
  /-- `FrameEvent::Error` is being sent. -/
  | notifying (err : InvocationError)
  /-- For a new stream. -/
  | waiting
  | returned
  /-- Want of fuel. -/
  | stuck
  deriving DecidableEq

structure Loop where
  duplex : Duplex
  phase : Phase
  now : Nat
  /-- When the last byte was read from the stream, or the stream came. -/
  lastRead : Nat
  rpc : List RpcEnqueue
  rpcClosed : Bool
  reconnects : List Connection
  reconnectClosed : Bool
  /-- Values that did not come from the server. -/
  failed : List (Nat × InvocationError)
  /-- Every channel that was made, the pings' too. -/
  opened : List Nat

/-- What is ready when the task is polled, so much later than the time before. -/
structure Ready where
  elapsed : Nat
  read : Option (Except String (List UInt8))
  write : Option (Except String Nat)
  /-- Of the channel to the client: there is room, or nobody is there. -/
  send : Option Bool
  /-- The channel of a ping, if one is due. -/
  pingTx : Nat

inductive Event where
  | submit (e : RpcEnqueue)
  | dropRpc
  | request (c : Connection)
  | dropReconnect
  | poll (ready : Ready)

/-- What a poll of `step` comes to. -/
inductive Polled where
  | pending
  | read (bytes : List UInt8)
  | wrote (n : Nat)
  | ping
  | failed (err : InvocationError)

/-- The biased `select!` of `step`. -/
def pollStep (d : Duplex) (start now : Nat) (ready : Ready) : Polled :=
  match ready.read with
  | some (.error text) => .failed (.io text)
  | some (.ok []) => .failed (.io "server closed connection")
  | some (.ok bytes) => .read bytes
  | none =>
    if start + readTimeout ≤ now then
      .failed (.io "read timeout: server silent for 90s, connection likely dead")
    else
      match if d.sender.writeHead < d.sender.writeBuf.length then ready.write else none with
      | some (.error text) => .failed (.io text)
      | some (.ok n) => .wrote n
      | none => if d.nextPing ≤ now then .ping else .pending

theorem read_of_pollStep {d : Duplex} {start now : Nat} {ready : Ready} {bytes : List UInt8}
    (h : pollStep d start now ready = .read bytes) : ready.read = some (.ok bytes) := by
  unfold pollStep at h
  split at h
  · cases h
  · cases h
  · next hread =>
    cases h
    exact hread
  · repeat' split at h
    all_goals cases h

section
variable (P : Primitives) (w : World) (fuel : Nat) (debug : InvocationError → String)

/-- From the top of the loop into `step`. -/
def top (s : Loop) : Loop :=
  let sender := s.rpc.foldl (fun sender e => sender.enqueue e.body e.tx) s.duplex.sender
  let s := { s with duplex := { s.duplex with sender := sender }, rpc := [] }
  if s.rpcClosed then { s with phase := .returned }
  else
    { s with
      duplex := { s.duplex with sender := (s.duplex.sender.tryFillWrite w).1 }
      phase := .stepping s.now }

def setStream (s : Loop) (c : Connection) (rest : List Connection) : Loop :=
  { s with
    duplex := s.duplex.setStream c s.now
    lastRead := s.now
    reconnects := rest
    phase := .connecting }

/-- `fail_all`: every request gets the text of the error. -/
def fail (s : Loop) (err : InvocationError) : Loop :=
  { s with
    duplex := s.duplex.failAll
    failed := s.failed ++ s.duplex.sender.requests.map fun req => (req.tx, .deserialize (debug err))
    phase := .notifying err }

/-- The updates of a step. -/
def deliver (s : Loop) : List Update → Loop
  | [] => top w s
  | updates => { s with phase := .delivering updates }

def onRead (s : Loop) (bytes : List UInt8) : Loop :=
  match s.duplex.onRead P w fuel bytes with
  | none => { s with phase := .stuck }
  | some (d, .ok updates) => deliver w { s with duplex := d, lastRead := s.now } updates
  | some (d, .error err) => fail debug { s with duplex := d, lastRead := s.now } err

/-- The rest of `step`. -/
def stepped (s : Loop) (ready : Ready) : Polled → Loop
  | .pending => s
  | .read bytes => onRead P w fuel debug s bytes
  | .wrote n => top w { s with duplex := { s.duplex with sender := s.duplex.sender.wrote n } }
  | .ping => top w { s with duplex := s.duplex.ping w s.now ready.pingTx, opened := s.opened ++ [ready.pingTx] }
  | .failed err => fail debug s err

/-- The task is polled in a step. -/
def onStep (s : Loop) (start : Nat) (ready : Ready) : Loop :=
  match s.rpc, s.reconnects with
  | e :: rpc, _ => top w { s with duplex := { s.duplex with sender := s.duplex.sender.enqueue e.body e.tx }, rpc := rpc }
  | [], c :: rest => setStream s c rest
  | [], [] => stepped P w fuel debug s ready (pollStep s.duplex start s.now ready)

/-- A new stream has come: requests of the time without one are dropped. -/
def onReconnect (s : Loop) (c : Connection) (rest : List Connection) : Loop :=
  setStream { s with failed := s.failed ++ s.rpc.map fun e => (e.tx, .dropped), rpc := [] } c rest

def onPoll (s : Loop) (ready : Ready) : Loop :=
  match s.phase, ready.send with
  | .connecting, some _ => top w s
  | .delivering (_ :: updates), some true => deliver w s updates
  | .delivering _, some false => { s with phase := .returned }
  | .notifying _, some true => { s with phase := .waiting }
  | .notifying _, some false => { s with phase := .returned }
  | .waiting, _ =>
    match s.reconnects with
    | c :: rest => onReconnect s c rest
    | [] => if s.reconnectClosed then { s with phase := .returned } else s
  | .stepping start, _ => onStep P w fuel debug s start ready
  | _, _ => s

def next (s : Loop) : Event → Loop
  | .submit e => { s with rpc := s.rpc ++ [e], opened := s.opened ++ [e.tx] }
  | .dropRpc => { s with rpcClosed := true }
  | .request c => { s with reconnects := s.reconnects ++ [c] }
  | .dropReconnect => { s with reconnectClosed := true }
  | .poll ready => onPoll P w fuel debug { s with now := s.now + ready.elapsed } ready

end

/-- `spawn_sender_task`, at time 0. -/
def spawn (c : Connection) : Loop where
  duplex :=
    { sender :=
        { enc := c.enc, requests := [], pendingAck := [], resendQueue := [], writeBuf := [], writeHead := 0
          answers := [], tick := 0 }
      receiver := { readBuf := c.drainFaketlsHandoff, pos := c.pos, tlsRawPending := c.tlsRawPending }
      authKey := c.authKey
      seen := c.seen
      kind := c.kind
      key := c.key
      nextPing := pingDelay
      frames := 0 }
  phase := .connecting
  now := 0
  lastRead := 0
  rpc := []
  rpcClosed := false
  reconnects := []
  reconnectClosed := false
  failed := []
  opened := []

/-- What the channels have been sent. -/
def Loop.values (s : Loop) : List (Nat × Value) :=
  (s.duplex.sender.answers.map fun a => (a.1, a.2.mapError .rpc)) ++ s.failed.map fun a => (a.1, .error a.2)

/-! Every request has one value, or is in one place. -/

/-- No stream: the step has failed, and the new one is not there yet. -/
def Phase.down : Phase → Bool
  | .notifying _ | .waiting => true
  | _ => false

/-- The channels of the queue and of the requests that wait to be queued, and those with a value. -/
def Loop.channels (s : Loop) : List Nat := s.duplex.sender.channels ++ s.failed.map (·.1) ++ s.rpc.map (·.tx)

structure Invariant (s : Loop) : Prop where
  opened : s.opened ~ s.channels
  drained : s.phase.down = true → s.duplex.sender.requests = []

theorem foldl_enqueue_channels (rpc : List RpcEnqueue) (sender : MtpSender) :
    (rpc.foldl (fun sender e => sender.enqueue e.body e.tx) sender).channels ~ sender.channels ++ rpc.map (·.tx) := by
  induction rpc generalizing sender with
  | nil => rw [List.map_nil, List.append_nil, List.foldl_nil]
  | cons e rpc ih =>
    calc ((e :: rpc).foldl (fun sender e => sender.enqueue e.body e.tx) sender).channels
        ~ (sender.enqueue e.body e.tx).channels ++ rpc.map (·.tx) := ih _
      _ ~ (e.tx :: sender.channels) ++ rpc.map (·.tx) := (MtpSender.enqueue_channels sender _ _).append_right _
      _ ~ sender.channels ++ e.tx :: rpc.map (·.tx) := List.perm_middle.symm

section
variable {P : Primitives} {w : World} {fuel : Nat} {debug : InvocationError → String}

theorem top_channels (s : Loop) : (top w s).channels ~ s.channels := by
  have hqueue := foldl_enqueue_channels s.rpc s.duplex.sender
  have hmoved : (s.rpc.foldl (fun sender e => sender.enqueue e.body e.tx) s.duplex.sender).channels ++
      s.failed.map (·.1) ++ [] ~ s.channels := by
    calc (s.rpc.foldl (fun sender e => sender.enqueue e.body e.tx) s.duplex.sender).channels ++ s.failed.map (·.1) ++ []
        ~ s.duplex.sender.channels ++ s.rpc.map (·.tx) ++ s.failed.map (·.1) := by
          rw [List.append_nil]
          exact hqueue.append_right _
      _ ~ s.duplex.sender.channels ++ (s.failed.map (·.1) ++ s.rpc.map (·.tx)) := by
          rw [List.append_assoc]
          exact List.perm_append_comm.append_left _
      _ ~ s.channels := by rw [Loop.channels, List.append_assoc]
  unfold top
  dsimp only
  split
  · exact hmoved
  · -- The frame is filled on top.
    rw [Loop.channels, MtpSender.tryFillWrite_channels]
    exact hmoved

theorem top_opened (s : Loop) : (top w s).opened = s.opened := by
  unfold top
  dsimp only
  split <;> rfl

theorem top_live (s : Loop) : (top w s).phase.down = false := by
  unfold top
  dsimp only
  split <;> rfl

/-- The loop goes on with what it has. -/
theorem top_inv {s : Loop} (h : s.opened ~ s.channels) : Invariant (top w s) where
  opened := by
    rw [top_opened]
    exact h.trans (top_channels s).symm
  drained hdown := by
    rw [top_live] at hdown
    cases hdown

theorem setStream_inv {s : Loop} (h : s.opened ~ s.channels) (c : Connection) (rest : List Connection) :
    Invariant (setStream s c rest) where
  opened := by
    have hqueue : (setStream s c rest).channels = s.channels := by
      rw [Loop.channels, setStream, Duplex.setStream_channels]
      rfl
    rw [hqueue]
    exact h
  drained := nofun

/-- Every request of the queue has got an error. -/
theorem fail_inv {s : Loop} (h : s.opened ~ s.channels) (err : InvocationError) : Invariant (fail debug s err) where
  opened := by
    refine h.trans (List.Perm.append_right _ ?_)
    show s.duplex.sender.requests.map (·.tx) ++ s.duplex.sender.answers.map (·.1) ++ s.failed.map (·.1) ~
      s.duplex.sender.answers.map (·.1) ++
        (s.failed ++ s.duplex.sender.requests.map fun req : Request => (req.tx, InvocationError.deserialize (debug err))).map (·.1)
    rw [List.map_append, List.map_map, List.append_assoc, ← List.append_assoc (s.duplex.sender.answers.map _)]
    exact List.perm_append_comm
  drained := fun _ => rfl

theorem deliver_inv {s : Loop} (h : s.opened ~ s.channels) (updates : List Update) : Invariant (deliver w s updates) := by
  cases updates with
  | nil => exact top_inv h
  | cons u updates => exact ⟨h, nofun⟩

theorem onRead_inv {s : Loop} (h : s.opened ~ s.channels) (bytes : List UInt8) :
    Invariant (onRead P w fuel debug s bytes) := by
  have hread : ∀ d result, s.duplex.onRead P w fuel bytes = some (d, result) →
      s.opened ~ ({ s with duplex := d, lastRead := s.now } : Loop).channels := by
    intro d result hd
    refine h.trans (List.Perm.append_right _ (List.Perm.append_right _ ?_))
    exact (Duplex.onRead_channels hd).symm
  unfold onRead
  split
  · exact ⟨h, nofun⟩
  · next d updates hd => exact deliver_inv (hread d _ hd) updates
  · next d err hd => exact fail_inv (hread d _ hd) err

theorem stepped_inv {s : Loop} (h : Invariant s) (ready : Ready) (polled : Polled) :
    Invariant (stepped P w fuel debug s ready polled) := by
  cases polled with
  | pending => exact h
  | read bytes => exact onRead_inv h.opened bytes
  | wrote n =>
    apply top_inv
    have hqueue := MtpSender.wrote_channels s.duplex.sender n
    refine h.opened.trans ?_
    rw [Loop.channels, Loop.channels, hqueue]
  | ping =>
    apply top_inv
    have hqueue := Duplex.ping_channels w s.duplex s.now ready.pingTx
    calc s.opened ++ [ready.pingTx]
        ~ ready.pingTx :: s.opened := List.perm_append_singleton _ _
      _ ~ ready.pingTx :: s.channels := h.opened.cons _
      _ ~ (s.duplex.ping w s.now ready.pingTx).sender.channels ++ s.failed.map (·.1) ++ s.rpc.map (·.tx) :=
        (hqueue.symm.append_right _).append_right _
  | failed err => exact fail_inv h.opened err

theorem onStep_inv {s : Loop} (h : Invariant s) (start : Nat) (ready : Ready) :
    Invariant (onStep P w fuel debug s start ready) := by
  unfold onStep
  split
  · next reconnects e rpc hrpc =>
    apply top_inv
    refine h.opened.trans ?_
    have hqueue := MtpSender.enqueue_channels s.duplex.sender e.body e.tx
    calc s.channels
        = (s.duplex.sender.channels ++ s.failed.map (·.1)) ++ e.tx :: rpc.map (·.tx) := by rw [Loop.channels, hrpc]; rfl
      _ ~ (e.tx :: s.duplex.sender.channels) ++ s.failed.map (·.1) ++ rpc.map (·.tx) := List.perm_middle
      _ ~ (s.duplex.sender.enqueue e.body e.tx).channels ++ s.failed.map (·.1) ++ rpc.map (·.tx) :=
        (hqueue.symm.append_right _).append_right _
  · exact setStream_inv h.opened _ _
  · exact stepped_inv h ready _

theorem onReconnect_inv {s : Loop} (h : s.opened ~ s.channels) (c : Connection) (rest : List Connection) :
    Invariant (onReconnect s c rest) := by
  apply setStream_inv
  refine h.trans ?_
  show s.duplex.sender.channels ++ s.failed.map (·.1) ++ s.rpc.map (·.tx) ~
    s.duplex.sender.channels ++ (s.failed ++ s.rpc.map fun e : RpcEnqueue => (e.tx, InvocationError.dropped)).map (·.1) ++ []
  rw [List.map_append, List.map_map, List.append_nil, List.append_assoc]
  exact List.Perm.refl _

theorem onPoll_inv {s : Loop} (h : Invariant s) (ready : Ready) : Invariant (onPoll P w fuel debug s ready) := by
  unfold onPoll
  split
  · exact top_inv h.opened
  · exact deliver_inv h.opened _
  · exact ⟨h.opened, nofun⟩
  · next hphase hsend => exact ⟨h.opened, fun _ => h.drained (by rw [hphase]; rfl)⟩
  · exact ⟨h.opened, nofun⟩
  · split
    · exact onReconnect_inv h.opened _ _
    · split
      · exact ⟨h.opened, nofun⟩
      · exact h
  · exact onStep_inv h _ ready
  · exact h

theorem next_inv {s : Loop} (h : Invariant s) (event : Event) : Invariant (next P w fuel debug s event) := by
  cases event with
  | submit e =>
    refine ⟨?_, h.drained⟩
    have hrpc : s.duplex.sender.channels ++ s.failed.map (·.1) ++ (s.rpc ++ [e]).map (·.tx) = s.channels ++ [e.tx] := by
      rw [List.map_append, Loop.channels, List.append_assoc _ (s.rpc.map _)]
      rfl
    show s.opened ++ [e.tx] ~ s.duplex.sender.channels ++ s.failed.map (·.1) ++ (s.rpc ++ [e]).map (·.tx)
    rw [hrpc]
    exact h.opened.append_right _
  | dropRpc => exact ⟨h.opened, h.drained⟩
  | request c => exact ⟨h.opened, h.drained⟩
  | dropReconnect => exact ⟨h.opened, h.drained⟩
  | poll ready =>
    apply onPoll_inv
    exact ⟨h.opened, h.drained⟩

theorem spawn_inv (c : Connection) : Invariant (spawn c) := ⟨List.Perm.refl _, nofun⟩

theorem values_channels (s : Loop) : s.values.map (·.1) = s.duplex.sender.answers.map (·.1) ++ s.failed.map (·.1) := by
  rw [Loop.values, List.map_append, List.map_map, List.map_map]
  rfl

end

/-- As often as a channel was made there is a value in it, or its request is in the queue or waits to
be queued. Without a stream the queue is empty. -/
structure Accounted (s : Loop) : Prop where
  counts : ∀ tx, s.opened.count tx = (s.values.map (·.1)).count tx +
    ((s.duplex.sender.requests.map (·.tx)).count tx + (s.rpc.map (·.tx)).count tx)
  drained : s.phase.down = true → s.duplex.sender.requests = []

theorem Invariant.accounted {s : Loop} (h : Invariant s) : Accounted s := by
  refine ⟨fun tx => ?_, h.drained⟩
  have hcount : s.channels.count tx = (s.duplex.sender.requests.map (·.tx)).count tx +
      (s.duplex.sender.answers.map (·.1)).count tx + (s.failed.map (·.1)).count tx + (s.rpc.map (·.tx)).count tx := by
    rw [Loop.channels, MtpSender.channels, List.count_append, List.count_append, List.count_append]
  calc s.opened.count tx
      = s.channels.count tx := h.opened.count_eq tx
    _ = ((s.duplex.sender.answers.map (·.1)).count tx + (s.failed.map (·.1)).count tx) +
        ((s.duplex.sender.requests.map (·.tx)).count tx + (s.rpc.map (·.tx)).count tx) := by
      rw [hcount]
      omega
    _ = _ := by rw [values_channels, List.count_append]

section
variable (P : Primitives) (w : World) (fuel : Nat) (debug : InvocationError → String)

/-- The requests that were submitted without a stream are dropped when the new one is there; none goes
out on it. -/
def DropsStale (s : Loop) (event : Event) : Prop :=
  ∀ ready c rest, event = .poll ready → s.phase = .waiting → s.reconnects = c :: rest →
    (next P w fuel debug s event).duplex.sender.requests = [] ∧
      (next P w fuel debug s event).rpc = [] ∧
        ∀ e ∈ s.rpc, (e.tx, .error .dropped) ∈ (next P w fuel debug s event).values

theorem dropsStale_of_inv {s : Loop} (h : Invariant s) (event : Event) : DropsStale P w fuel debug s event := by
  rintro ready c rest rfl hphase hreconnects
  have hnext : next P w fuel debug s (.poll ready) =
      onReconnect { s with now := s.now + ready.elapsed } c rest := by
    rw [next, onPoll, hphase, hreconnects]
  have hempty : s.duplex.sender.requests = [] := h.drained (by rw [hphase]; rfl)
  rw [hnext]
  refine ⟨?_, rfl, fun e he => ?_⟩
  · show s.duplex.sender.requests.map _ = []
    rw [hempty]
    rfl
  · apply List.mem_append_right
    refine List.mem_map.mpr ⟨(e.tx, .dropped), ?_, rfl⟩
    apply List.mem_append_right
    exact List.mem_map_of_mem he

/-- The server has answered some requests of the queue, and every other one has got an error. -/
def FailedBut (answered : List (Nat × Outcome)) (s s' : Loop) : Prop :=
  ∃ left e, s.duplex.sender.requests.map (·.tx) ~ answered.map Prod.fst ++ left ∧
    s'.duplex.sender.answers = s.duplex.sender.answers ++ answered ∧ s'.failed = s.failed ++ left.map fun tx => (tx, e)

/-- A step that fails gives an error to every request of the queue but those that the server has answered
in what was read in it. -/
def FailsAll (s : Loop) (event : Event) : Prop :=
  ∀ err, s.phase.down = false → (next P w fuel debug s event).phase = .notifying err →
    ∃ answered, FailedBut answered s (next P w fuel debug s event) ∧
      (answered ≠ [] → ∃ ready bytes, event = .poll ready ∧ ready.read = some (.ok bytes))

section
variable {w debug}

variable (debug) in
theorem fail_fails (s : Loop) (err : InvocationError) : FailedBut [] s (fail debug s err) := by
  refine ⟨s.duplex.sender.requests.map (·.tx), .deserialize (debug err), List.Perm.refl _, (List.append_nil _).symm, ?_⟩
  rw [List.map_map]
  rfl

theorem not_notifying_of_live {s : Loop} {err : InvocationError} (h : s.phase.down = false) : s.phase ≠ .notifying err := by
  intro hphase
  rw [hphase] at h
  cases h

theorem deliver_live (s : Loop) (updates : List Update) : (deliver w s updates).phase.down = false := by
  cases updates with
  | nil => exact top_live s
  | cons u updates => rfl

end

theorem onRead_fails {s : Loop} {bytes : List UInt8} {err : InvocationError}
    (hdown : (onRead P w fuel debug s bytes).phase = .notifying err) :
    ∃ answered, FailedBut answered s (onRead P w fuel debug s bytes) := by
  cases hread : s.duplex.onRead P w fuel bytes with
  | none =>
    rw [onRead, hread] at hdown
    cases hdown
  | some r =>
    obtain ⟨d, e | updates⟩ := r
    · have hnext : onRead P w fuel debug s bytes = fail debug { s with duplex := d, lastRead := s.now } e := by
        rw [onRead, hread]
      obtain ⟨answered, -, hanswers, -⟩ := ((Resolves.handles w).onRead hread).answers
      -- Nobody is forgotten in the read, and the answers of before are still there.
      have hqueue : s.duplex.sender.requests.map (·.tx) ~ answered.map Prod.fst ++ d.sender.requests.map (·.tx) := by
        have hchannels := Duplex.onRead_channels hread
        rw [MtpSender.channels, MtpSender.channels, hanswers, List.map_append] at hchannels
        have hmoved := (List.perm_append_comm.trans hchannels.symm).trans List.perm_append_comm
        rw [List.append_assoc] at hmoved
        exact (List.perm_append_left_iff _).mp hmoved
      obtain ⟨left, err, hleft, -, hfailed⟩ := fail_fails debug { s with duplex := d, lastRead := s.now } e
      rw [hnext]
      exact ⟨answered, left, err, hqueue.trans (hleft.append_left _), hanswers, hfailed⟩
    · rw [onRead, hread] at hdown
      exact absurd hdown (not_notifying_of_live (deliver_live _ updates))

theorem stepped_fails {s : Loop} {ready : Ready} {start : Nat} {err : InvocationError} (hphase : s.phase.down = false)
    (hdown : (stepped P w fuel debug s ready (pollStep s.duplex start s.now ready)).phase = .notifying err) :
    ∃ answered, FailedBut answered s (stepped P w fuel debug s ready (pollStep s.duplex start s.now ready)) ∧
      (answered ≠ [] → ∃ bytes, ready.read = some (.ok bytes)) := by
  cases hpoll : pollStep s.duplex start s.now ready with
  | pending =>
    rw [hpoll] at hdown
    exact absurd hdown (not_notifying_of_live hphase)
  | read bytes =>
    rw [hpoll] at hdown
    obtain ⟨answered, hfailed⟩ := onRead_fails P w fuel debug hdown
    exact ⟨answered, hfailed, fun _ => ⟨bytes, read_of_pollStep hpoll⟩⟩
  | wrote n =>
    rw [hpoll] at hdown
    exact absurd hdown (not_notifying_of_live (top_live _))
  | ping =>
    rw [hpoll] at hdown
    exact absurd hdown (not_notifying_of_live (top_live _))
  | failed e => exact ⟨[], fail_fails debug s e, fun h => absurd rfl h⟩

theorem onPoll_fails {s s' : Loop} {ready : Ready} {err : InvocationError} (hup : s.phase.down = false)
    (hs' : onPoll P w fuel debug s ready = s') (hdown : s'.phase = .notifying err) :
    ∃ answered, FailedBut answered s s' ∧ (answered ≠ [] → ∃ bytes, ready.read = some (.ok bytes)) := by
  unfold onPoll at hs'
  split at hs'
  · subst hs'
    exact absurd hdown (not_notifying_of_live (top_live _))
  · subst hs'
    exact absurd hdown (not_notifying_of_live (deliver_live _ _))
  · subst hs'
    cases hdown
  · next hphase hsend => exact absurd hphase (not_notifying_of_live hup)
  · next hphase hsend => exact absurd hphase (not_notifying_of_live hup)
  · next hphase =>
    rw [hphase] at hup
    cases hup
  · next start hphase =>
    unfold onStep at hs'
    split at hs'
    · subst hs'
      exact absurd hdown (not_notifying_of_live (top_live _))
    · subst hs'
      cases hdown
    · subst hs'
      exact stepped_fails P w fuel debug hup hdown
  · subst hs'
    exact absurd hdown (not_notifying_of_live hup)

theorem fails_all (s : Loop) (event : Event) : FailsAll P w fuel debug s event := by
  intro err hup hdown
  cases event with
  | poll ready =>
    obtain ⟨answered, hfailed, hread⟩ := onPoll_fails P w fuel debug (s := { s with now := s.now + ready.elapsed }) hup rfl hdown
    refine ⟨answered, hfailed, fun hne => ?_⟩
    obtain ⟨bytes, hbytes⟩ := hread hne
    exact ⟨ready, bytes, rfl, hbytes⟩
  | _ => exact absurd hdown (not_notifying_of_live hup)

/-- **One value for each request.** In no run is a channel sent two values, or forgotten while the
sender still runs: the request is in the queue, on a stream, or waits to be queued. A step that fails
leaves no request in the queue: what was outstanding has got an error; what is submitted until the new
stream is there is dropped. -/
theorem requests_accounted (c : Connection) (events : List Event) :
    (∀ s ∈ Run.states (next P w fuel debug) (spawn c) events, Accounted s) ∧
      Run.AllSteps (next P w fuel debug) (FailsAll P w fuel debug) (spawn c) events ∧
        Run.AllSteps (next P w fuel debug) (DropsStale P w fuel debug) (spawn c) events := by
  have hstep : ∀ s event, Invariant s → Invariant (next P w fuel debug s event) := fun s event h => next_inv h event
  refine ⟨?_, ?_, ?_⟩
  · intro s hs
    exact (Run.states_inv_all _ hstep events (spawn c) (spawn_inv c) s hs).accounted
  · exact Run.allSteps_of_inv_all _ hstep (fun s event _ => fails_all P w fuel debug s event) events
      (spawn c) (spawn_inv c)
  · exact Run.allSteps_of_inv_all _ hstep (fun s event h => dropsStale_of_inv P w fuel debug h event) events
      (spawn c) (spawn_inv c)

end

/-! A request that the loop returns on, and one that is out when the connection is reset. -/

def plainConnection : Connection where
  enc := EncryptedSession.new 77 0 0
  authKey := List.Vector.replicate 256 0
  seen := .new
  kind := .abridged
  key _ := 0
  pos := { offset := 0, seqno := 0 }
  tlsRawPending := []
  decodedPending := []

/-- Nothing is ready, and no time has gone by. -/
def quiet : Ready where
  elapsed := 0
  read := none
  write := none
  send := none
  pingTx := 0

/-- The request of channel 1 is put into a frame. -/
def oneOut : List Event :=
  [.poll { quiet with send := some true }, .submit { body := [1, 2, 3, 4], tx := 1 }, .poll quiet]

/-- The client is gone, and one more byte is written. -/
def oneOutThenDrop : List Event := oneOut ++ [.dropRpc, .poll { quiet with write := some (.ok 1) }]

/-- The loop of these runs. -/
def plainNext : Loop → Event → Loop := next Crypto.plainPrimitives plainWorld 1 fun _ => ""

/-- Neither has every request one value when the loop returns, nor does an IO error reach those that
are outstanding. -/
theorem unanswered_or_unrecognised :
    (¬ ∀ (P : Primitives) (w : World) (fuel : Nat) (debug : InvocationError → String) (c : Connection)
      (events : List Event), ∀ s ∈ Run.states (next P w fuel debug) (spawn c) events, s.phase = .returned →
        ∀ tx, s.opened.count tx = 1 → (s.values.map (·.1)).count tx = 1) ∧
    ¬ ∀ (P : Primitives) (w : World) (fuel : Nat) (debug : InvocationError → String) (c : Connection)
      (events : List Event), ∀ s ∈ Run.states (next P w fuel debug) (spawn c) events, ∀ ready start text,
        s.phase = .stepping start → s.rpc = [] → s.reconnects = [] →
          pollStep s.duplex start (s.now + ready.elapsed) ready = .failed (.io text) →
            ∀ req ∈ s.duplex.sender.requests,
              (req.tx, .error (.io text)) ∈ (next P w fuel debug s (.poll ready)).values := by
  constructor
  · intro h
    have hmem := Run.final_mem_states plainNext oneOutThenDrop (spawn plainConnection)
    have hone := h _ _ _ _ _ _ _ hmem (by decide +kernel) 1 (by decide +kernel)
    exact absurd hone (by decide +kernel)
  · intro h
    have hmem := Run.final_mem_states plainNext oneOut (spawn plainConnection)
    have hout : ∃ req ∈ (Run.final plainNext (spawn plainConnection) oneOut).duplex.sender.requests, req.tx = 1 := by
      decide +kernel
    obtain ⟨req, hreq, htx⟩ := hout
    have hio := h _ _ _ _ _ _ _ hmem { quiet with read := some (.error "reset") } 0 "reset" (by decide +kernel)
      (List.isEmpty_iff.mp (by decide +kernel)) (List.isEmpty_iff.mp (by decide +kernel)) rfl req hreq
    rw [htx] at hio
    exact absurd hio (by decide +kernel)

end SenderLoop

end Ferogram.Mtsender
