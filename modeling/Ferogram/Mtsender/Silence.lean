import Ferogram.Mtsender.SenderLoop

/- A server that is silent: `READ_TIMEOUT` in `MtpSender::step`.

   The timeout is of a call of `step`, and every call has its own. A write that is done, a ping
   that is due and a request that comes in end the call, and the next one waits 90 seconds from
   its own beginning. The ping is due after 60.

   What is proved:
     1. `detected_iff`: the runs in which nobody waits in `step` for more than `READ_TIMEOUT`
        after the last byte, by what the task finds when it is polled that late.
     2. `silent_undetected`: while pings go out a server may be silent for ever. -/
namespace Ferogram.Mtsender
open Bytes Connect Mtproto
open Crypto (Primitives)

namespace SenderLoop

/-- Nobody is in `step` though the server has been silent for too long. -/
def Detected (s : Loop) : Prop := ∀ start, s.phase = .stepping start → s.now ≤ s.lastRead + readTimeout

/-! What the task finds when it is polled, the time being what `now` says. -/

/-- The result of a write, if there is something to write. -/
def written (s : Loop) (ready : Ready) : Option (Except String Nat) :=
  if s.duplex.sender.writeHead < s.duplex.sender.writeBuf.length then ready.write else none

/-- No request, no stream, nothing from the server, and the time of this call of `step` is not up. -/
def still (s : Loop) (start : Nat) (ready : Ready) : Prop :=
  s.rpc = [] ∧ s.reconnects = [] ∧ ready.read = none ∧ s.now < start + readTimeout

/-- There is nothing to do. -/
def waits (s : Loop) (ready : Ready) : Prop :=
  ∃ start, s.phase = .stepping start ∧ still s start ready ∧ written s ready = none ∧ s.now < s.duplex.nextPing

/-- `step` is called, for the first time or anew. -/
def begins (s : Loop) (ready : Ready) : Prop :=
  match s.phase with
  | .connecting => ready.send ≠ none
  | .delivering [_] => ready.send = some true
  | .stepping start =>
    s.rpc ≠ [] ∨ still s start ready ∧
      ((∃ n, written s ready = some (.ok n)) ∨ written s ready = none ∧ s.duplex.nextPing ≤ s.now)
  | _ => False

section
variable {P : Primitives} {w : World} {fuel : Nat} {debug : InvocationError → String}

theorem detected_of_phase {s : Loop} (h : ∀ start, s.phase ≠ .stepping start) : Detected s :=
  fun start hphase => absurd hphase (h start)

theorem top_detected (s : Loop) : Detected (top w s) ↔ s.rpcClosed = true ∨ s.now ≤ s.lastRead + readTimeout := by
  unfold top
  dsimp only
  split
  · next hclosed => exact iff_of_true (detected_of_phase (fun _ => nofun)) (Or.inl hclosed)
  · next hclosed =>
    constructor
    · intro h
      exact Or.inr (h s.now rfl)
    · intro h start hphase
      exact h.resolve_left hclosed

theorem deliver_detected (s : Loop) (updates : List Update) (h : s.now ≤ s.lastRead + readTimeout) :
    Detected (deliver w s updates) := by
  cases updates with
  | nil => exact (top_detected s).mpr (Or.inr h)
  | cons u updates => exact detected_of_phase (fun _ => nofun)

/-- A read is in time for itself. -/
theorem onRead_detected (s : Loop) (bytes : List UInt8) : Detected (onRead P w fuel debug s bytes) := by
  unfold onRead
  split
  · exact detected_of_phase (fun _ => nofun)
  · exact deliver_detected _ _ (Nat.le_add_right _ _)
  · exact detected_of_phase (fun _ => nofun)

/-- What a late poll of a step has to find. -/
def found (s : Loop) (ready : Ready) : Prop := ¬waits s ready ∧ (begins s ready → s.rpcClosed = true)

theorem found_of_stepping {s : Loop} {start : Nat} (hphase : s.phase = .stepping start) (ready : Ready) :
    found s ready ↔
      ¬(still s start ready ∧ written s ready = none ∧ s.now < s.duplex.nextPing) ∧
        (s.rpc ≠ [] ∨ still s start ready ∧
          ((∃ n, written s ready = some (.ok n)) ∨ written s ready = none ∧ s.duplex.nextPing ≤ s.now) →
            s.rpcClosed = true) := by
  have hwaits : waits s ready ↔ still s start ready ∧ written s ready = none ∧ s.now < s.duplex.nextPing := by
    constructor
    · rintro ⟨start', hphase', h⟩
      cases hphase.symm.trans hphase'
      exact h
    · exact fun h => ⟨start, hphase, h⟩
  rw [found, hwaits, begins, hphase]

/-- With no step to be in. -/
theorem detected_iff_of_found {s s' : Loop} {ready : Ready} (hphase : ∀ start, s'.phase ≠ .stepping start)
    (hfound : found s ready) : Detected s' ↔ (s.lastRead + readTimeout < s.now → found s ready) :=
  iff_of_true (detected_of_phase hphase) fun _ => hfound

/-- With a step that is begun now. -/
theorem top_detected_of_begins {s s' : Loop} {ready : Ready} (hnow : s'.now = s.now) (hread : s'.lastRead = s.lastRead)
    (hclosed : s'.rpcClosed = s.rpcClosed) (hfound : found s ready ↔ s.rpcClosed = true) :
    Detected (top w s') ↔ (s.lastRead + readTimeout < s.now → found s ready) := by
  rw [top_detected, hnow, hread, hclosed, hfound]
  constructor
  · intro h hlate
    exact h.resolve_right (by omega)
  · intro h
    rcases Nat.lt_or_ge (s.lastRead + readTimeout) s.now with hlate | hearly
    · exact Or.inl (h hlate)
    · exact Or.inr hearly

theorem onStep_idle {s : Loop} {start : Nat} {ready : Ready} (hrpc : s.rpc = []) (hreconnects : s.reconnects = []) :
    onStep P w fuel debug s start ready = stepped P w fuel debug s ready (pollStep s.duplex start s.now ready) := by
  rw [onStep, hrpc, hreconnects]

section
variable {s : Loop} {start : Nat} {ready : Ready} (hread : ready.read = none) (htime : ¬start + readTimeout ≤ s.now)
include hread htime

theorem pollStep_writeError {text : String} (hwritten : written s ready = some (.error text)) :
    pollStep s.duplex start s.now ready = .failed (.io text) := by
  rw [written] at hwritten
  rw [pollStep, hread]
  dsimp only
  rw [if_neg htime, hwritten]

theorem pollStep_wrote {n : Nat} (hwritten : written s ready = some (.ok n)) :
    pollStep s.duplex start s.now ready = .wrote n := by
  rw [written] at hwritten
  rw [pollStep, hread]
  dsimp only
  rw [if_neg htime, hwritten]

theorem pollStep_unwritten (hwritten : written s ready = none) :
    pollStep s.duplex start s.now ready = if s.duplex.nextPing ≤ s.now then .ping else .pending := by
  rw [written] at hwritten
  rw [pollStep, hread]
  dsimp only
  rw [if_neg htime, hwritten]

end

/-! A poll of a step that takes nothing from the rest of the client. -/

section Idle
variable {s : Loop} {start : Nat} {ready : Ready} (hphase : s.phase = .stepping start) (hrpc : s.rpc = [])
  (hreconnects : s.reconnects = [])
include hphase hrpc hreconnects

theorem found_of_idle : found s ready ↔
    ¬((ready.read = none ∧ s.now < start + readTimeout) ∧ written s ready = none ∧ s.now < s.duplex.nextPing) ∧
      ((ready.read = none ∧ s.now < start + readTimeout) ∧
        ((∃ n, written s ready = some (.ok n)) ∨ written s ready = none ∧ s.duplex.nextPing ≤ s.now) →
          s.rpcClosed = true) := by
  rw [found_of_stepping hphase ready]
  simp [still, hrpc, hreconnects]

/-- With something to read. -/
theorem stepped_read_detected {result : Except String (List UInt8)} (hread : ready.read = some result) :
    Detected (stepped P w fuel debug s ready (pollStep s.duplex start s.now ready)) ↔
      (s.lastRead + readTimeout < s.now → found s ready) := by
  have hall : found s ready := by
    rw [found_of_idle hphase hrpc hreconnects]
    simp [hread]
  have hpoll : (∃ text, pollStep s.duplex start s.now ready = .failed (.io text)) ∨
      ∃ bytes, pollStep s.duplex start s.now ready = .read bytes := by
    unfold pollStep
    rw [hread]
    cases result with
    | error text => exact Or.inl ⟨text, rfl⟩
    | ok bytes =>
      cases bytes with
      | nil => exact Or.inl ⟨_, rfl⟩
      | cons b bytes => exact Or.inr ⟨_, rfl⟩
  rcases hpoll with ⟨text, hpoll⟩ | ⟨bytes, hpoll⟩
  · rw [hpoll]
    exact detected_iff_of_found (by intro start h; cases h) hall
  · rw [hpoll]
    exact iff_of_true (onRead_detected s bytes) fun _ => hall

/-- When the time of the step is over. -/
theorem stepped_late_detected (hread : ready.read = none) (htime : start + readTimeout ≤ s.now) :
    Detected (stepped P w fuel debug s ready (pollStep s.duplex start s.now ready)) ↔
      (s.lastRead + readTimeout < s.now → found s ready) := by
  have hall : found s ready := by
    rw [found_of_idle hphase hrpc hreconnects]
    simp [Nat.not_lt.mpr htime]
  have hpoll : ∃ text, pollStep s.duplex start s.now ready = .failed (.io text) := by
    unfold pollStep
    rw [hread]
    exact ⟨_, if_pos htime⟩
  obtain ⟨text, hpoll⟩ := hpoll
  rw [hpoll]
  exact detected_iff_of_found (by intro start h; cases h) hall

/-- The rest of the `select!`, when there is nothing to read. -/
theorem stepped_unread_detected (hread : ready.read = none) (htime : ¬start + readTimeout ≤ s.now) :
    Detected (stepped P w fuel debug s ready (pollStep s.duplex start s.now ready)) ↔
      (s.lastRead + readTimeout < s.now → found s ready) := by
  have hfound : found s ready ↔ _ := found_of_idle hphase hrpc hreconnects
  have hearly : s.now < start + readTimeout := Nat.lt_of_not_le htime
  cases hwritten : written s ready with
  | some result =>
    cases result with
    | error text =>
      rw [pollStep_writeError hread htime hwritten]
      refine detected_iff_of_found (by intro start h; cases h) ?_
      rw [hfound]
      simp [hwritten]
    | ok n =>
      rw [pollStep_wrote hread htime hwritten]
      refine top_detected_of_begins (by rfl) (by rfl) (by rfl) ?_
      rw [hfound]
      simp [hwritten, hread, hearly]
  | none =>
    rw [pollStep_unwritten hread htime hwritten]
    by_cases hping : s.duplex.nextPing ≤ s.now
    · rw [if_pos hping]
      refine top_detected_of_begins (by rfl) (by rfl) (by rfl) ?_
      rw [hfound]
      simp [hwritten, hread, hearly, hping]
    · -- nothing happens, and the step goes on
      rw [if_neg hping]
      show Detected s ↔ _
      have hnone : ¬found s ready := by
        rw [hfound]
        simp [hwritten, hread, hearly, Nat.lt_of_not_le hping]
      constructor
      · intro h hlate
        have := h start hphase
        omega
      · intro h start' hphase'
        have hearly := mt h hnone
        omega

end Idle

theorem onStep_detected {s : Loop} {start : Nat} (hphase : s.phase = .stepping start) (ready : Ready) :
    Detected (onStep P w fuel debug s start ready) ↔ (s.lastRead + readTimeout < s.now → found s ready) := by
  have hfound := found_of_stepping hphase ready
  unfold onStep
  split
  · next reconnects e rpc hrpc =>
    refine top_detected_of_begins (by rfl) (by rfl) (by rfl) ?_
    rw [hfound]
    simp [still, hrpc]
  · next c rest hrpc hreconnects =>
    refine detected_iff_of_found (by intro start h; cases h) ?_
    rw [hfound]
    simp [still, hrpc, hreconnects]
  · next hrpc hreconnects =>
    cases hread : ready.read with
    | some result => exact stepped_read_detected hphase hrpc hreconnects hread
    | none =>
      by_cases htime : start + readTimeout ≤ s.now
      · exact stepped_late_detected hphase hrpc hreconnects hread htime
      · exact stepped_unread_detected hphase hrpc hreconnects hread htime

theorem found_of_out {s : Loop} (hout : ∀ start, s.phase ≠ .stepping start) (ready : Ready) :
    found s ready ↔ (begins s ready → s.rpcClosed = true) := by
  refine ⟨fun h => h.2, fun h => ⟨?_, h⟩⟩
  rintro ⟨start, hstart, -⟩
  exact hout start hstart

theorem onPoll_detected (s : Loop) (ready : Ready) :
    Detected (onPoll P w fuel debug s ready) ↔ (s.lastRead + readTimeout < s.now → found s ready) := by
  by_cases hstep : ∃ start, s.phase = .stepping start
  · obtain ⟨start, hphase⟩ := hstep
    rw [onPoll, hphase]
    exact onStep_detected hphase ready
  · have hout : ∀ start, s.phase ≠ .stepping start := fun start h => hstep ⟨start, h⟩
    have hfound := found_of_out hout ready
    unfold onPoll
    split
    · next room hphase hsend =>
      -- connected
      refine top_detected_of_begins (by rfl) (by rfl) (by rfl) ?_
      rw [hfound]
      simp [begins, hphase, hsend]
    · next u updates hphase hsend =>
      -- an update is taken
      cases updates with
      | nil =>
        refine top_detected_of_begins (by rfl) (by rfl) (by rfl) ?_
        rw [hfound]
        simp [begins, hphase, hsend]
      | cons u' updates =>
        refine detected_iff_of_found (by intro start h; cases h) (hfound.mpr ?_)
        simp [begins, hphase]
    · next updates hphase hsend =>
      -- nobody takes the updates
      refine detected_iff_of_found (by intro start h; cases h) (hfound.mpr ?_)
      rw [begins, hphase]
      split <;> simp_all
    · next err hphase hsend =>
      -- the notice is taken
      refine detected_iff_of_found (by intro start h; cases h) (hfound.mpr ?_)
      simp [begins, hphase]
    · next err hphase hsend =>
      -- nobody takes the notice
      refine detected_iff_of_found (by intro start h; cases h) (hfound.mpr ?_)
      simp [begins, hphase]
    · next hphase =>
      -- waiting for a reconnect
      have hall : found s ready := by
        rw [hfound]
        simp [begins, hphase]
      split
      · exact detected_iff_of_found (by intro start h; cases h) hall
      · split
        · exact detected_iff_of_found (by intro start h; cases h) hall
        · exact detected_iff_of_found hout hall
    · next start hphase => exact absurd hphase (hout start)
    · next hwaiting hstepping hconnecting hdelivering hgone hsent hlost =>
      -- nothing is ready
      refine detected_iff_of_found hout (hfound.mpr ?_)
      rw [begins]
      split
      · next hphase =>
        intro hsend
        obtain ⟨room, hroom⟩ := Option.ne_none_iff_exists'.mp hsend
        cases hconnecting room hphase hroom
      · next u hphase =>
        intro hsend
        cases hdelivering u [] hphase hsend
      · next start hphase => exact absurd hphase (hout start)
      · intro h
        cases h

end

/-- What a poll finds that comes more than `READ_TIMEOUT` after the last byte: something to do, if it is
in a step, and no step to begin. When the client is gone, a step that is begun ends the loop. -/
def OnTime (s : Loop) : Event → Prop
  | .poll ready =>
    let s := { s with now := s.now + ready.elapsed }
    s.lastRead + readTimeout < s.now → ¬waits s ready ∧ (begins s ready → s.rpcClosed = true)
  | _ => True

section
variable (P : Primitives) (w : World) (fuel : Nat) (debug : InvocationError → String)

theorem next_detected {s : Loop} (h : Detected s) (event : Event) :
    Detected (next P w fuel debug s event) ↔ OnTime s event := by
  cases event with
  | poll ready => exact onPoll_detected _ ready
  | _ => exact iff_of_true h trivial

/-- **The read timeout.** In every state of a run `step` has been left in time exactly if every late
poll of the run finds what it has to. -/
theorem detected_iff (c : Connection) (events : List Event) :
    (∀ s ∈ Run.states (next P w fuel debug) (spawn c) events, Detected s) ↔
      Run.AllSteps (next P w fuel debug) OnTime (spawn c) events := by
  have hspawn : Detected (spawn c) := detected_of_phase fun _ => nofun
  have hruns := Run.states_iff (I := fun _ => True) (P := Detected) (next P w fuel debug) (fun _ _ _ => trivial)
    (fun s event _ h => next_detected P w fuel debug h event) events (spawn c) trivial
  exact hruns.trans (and_iff_right hspawn)

end

/-! A server that is silent for ever. -/

/-- A minute without anything, and the ping is written, or a part of it. -/
def minutes (sizes : List Nat) : List Event :=
  sizes.flatMap fun n => [.poll { quiet with elapsed := pingDelay }, .poll { quiet with write := some (.ok n) }]

/-- In a step since `k` minutes, with nothing read. -/
structure Unheard (s : Loop) (k : Nat) : Prop where
  phase : s.phase = .stepping (pingDelay * k)
  now : s.now = pingDelay * k
  lastRead : s.lastRead = 0
  rpc : s.rpc = []
  rpcClosed : s.rpcClosed = false
  reconnects : s.reconnects = []
  nextPing : s.duplex.nextPing = pingDelay * k + pingDelay

theorem top_unheard {w : World} {s : Loop} {k : Nat} (hnow : s.now = pingDelay * k) (hread : s.lastRead = 0)
    (hclosed : s.rpcClosed = false) (hreconnects : s.reconnects = [])
    (hping : s.duplex.nextPing = pingDelay * k + pingDelay) : Unheard (top w s) k := by
  unfold top
  dsimp only
  rw [hclosed, if_neg (by decide)]
  exact ⟨congrArg _ hnow, hnow, hread, rfl, rfl, hreconnects, hping⟩

section
variable (P : Primitives) (w : World) (fuel : Nat) (debug : InvocationError → String)

/-- Nothing comes in: the poll of the step decides. -/
theorem poll_unheard {s : Loop} {k : Nat} (h : Unheard s k) (ready : Ready) {polled : Polled}
    (hpoll : pollStep s.duplex (pingDelay * k) (s.now + ready.elapsed) ready = polled) :
    next P w fuel debug s (.poll ready) =
      stepped P w fuel debug { s with now := s.now + ready.elapsed } ready polled := by
  have hphase : next P w fuel debug s (.poll ready) =
      onStep P w fuel debug { s with now := s.now + ready.elapsed } (pingDelay * k) ready := by
    rw [next, onPoll]
    dsimp only
    rw [h.phase]
  rw [hphase, onStep_idle (s := { s with now := s.now + ready.elapsed }) h.rpc h.reconnects, hpoll]

/-- After a minute the ping is due, and the step ends for it. -/
theorem ping_unheard {s : Loop} {k : Nat} (h : Unheard s k) :
    Unheard (next P w fuel debug s (.poll { quiet with elapsed := pingDelay })) (k + 1) := by
  have hnow : s.now + pingDelay = pingDelay * (k + 1) := by rw [h.now, Nat.mul_succ]
  have hpoll : pollStep s.duplex (pingDelay * k) (s.now + pingDelay) { quiet with elapsed := pingDelay } = .ping := by
    have htime : ¬pingDelay * k + readTimeout ≤ s.now + pingDelay := by
      rw [h.now, Nat.add_le_add_iff_left]
      decide
    have hdue : s.duplex.nextPing ≤ s.now + pingDelay := by rw [h.nextPing, h.now]
    unfold pollStep
    dsimp only [quiet]
    rw [if_neg htime, ite_self]
    exact if_pos hdue
  rw [poll_unheard P w fuel debug h { quiet with elapsed := pingDelay } hpoll]
  exact top_unheard hnow h.lastRead h.rpcClosed h.reconnects (by rw [← hnow]; rfl)

/-- What is written of it ends the step again, or there is nothing to write. -/
theorem write_unheard {s : Loop} {k : Nat} (h : Unheard s k) (n : Nat) :
    Unheard (next P w fuel debug s (.poll { quiet with write := some (.ok n) })) k := by
  have hpoll : pollStep s.duplex (pingDelay * k) (s.now + 0) { quiet with write := some (.ok n) } =
      if s.duplex.sender.writeHead < s.duplex.sender.writeBuf.length then .wrote n else .pending := by
    have htime : ¬pingDelay * k + readTimeout ≤ s.now + 0 := by
      have : 0 < readTimeout := by decide
      rw [h.now]
      omega
    have hsoon : ¬s.duplex.nextPing ≤ s.now + 0 := by
      have : 0 < pingDelay := by decide
      rw [h.nextPing, h.now]
      omega
    unfold pollStep
    dsimp only [quiet]
    rw [if_neg htime]
    by_cases hwrite : s.duplex.sender.writeHead < s.duplex.sender.writeBuf.length
    · rw [if_pos hwrite, if_pos hwrite]
    · rw [if_neg hwrite, if_neg hwrite]
      exact if_neg hsoon
  rw [poll_unheard P w fuel debug h { quiet with write := some (.ok n) } hpoll]
  split
  · exact top_unheard h.now h.lastRead h.rpcClosed h.reconnects h.nextPing
  · exact h

theorem minutes_unheard (sizes : List Nat) {s : Loop} {k : Nat} (h : Unheard s k) :
    Unheard (Run.final (next P w fuel debug) s (minutes sizes)) (k + sizes.length) := by
  induction sizes generalizing s k with
  | nil => exact h
  | cons n sizes ih =>
    have hrest := ih (write_unheard P w fuel debug (ping_unheard P w fuel debug h) n)
    rw [List.length_cons, Nat.add_comm sizes.length, ← Nat.add_assoc]
    exact hrest

/-- A server that is silent from the beginning. After any number of minutes the sender is in a step. -/
theorem silent_undetected (c : Connection) (sizes : List Nat) :
    Unheard (Run.final (next P w fuel debug) (spawn c) (.poll { quiet with send := some true } :: minutes sizes))
      sizes.length := by
  have hbegin : Unheard (next P w fuel debug (spawn c) (.poll { quiet with send := some true })) 0 := by
    have hnext : next P w fuel debug (spawn c) (.poll { quiet with send := some true }) = top w (spawn c) := rfl
    have hping : (spawn c).duplex.nextPing = pingDelay * 0 + pingDelay := by
      rw [Nat.mul_zero, Nat.zero_add]
      rfl
    rw [hnext]
    exact top_unheard rfl rfl rfl rfl hping
  have hend := minutes_unheard P w fuel debug sizes hbegin
  rw [Nat.zero_add] at hend
  exact hend

/-- Two minutes after the last byte the sender is in a step. -/
theorem silence_unnoticed : ¬ ∀ (P : Primitives) (w : World) (fuel : Nat) (debug : InvocationError → String)
    (c : Connection) (events : List Event), ∀ s ∈ Run.states (next P w fuel debug) (spawn c) events, Detected s := by
  intro h
  have hmem := Run.final_mem_states plainNext (.poll { quiet with send := some true } :: minutes [1, 1])
    (spawn plainConnection)
  have hstep := silent_undetected Crypto.plainPrimitives plainWorld 1 (fun _ => "") plainConnection [1, 1]
  have hdetected := h _ _ _ _ _ _ _ hmem _ hstep.phase
  rw [plainNext, hstep.now, hstep.lastRead] at hdetected
  exact absurd hdetected (by decide)

end

end SenderLoop

end Ferogram.Mtsender
