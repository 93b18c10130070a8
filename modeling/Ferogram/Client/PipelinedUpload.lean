import Ferogram.Client.Upload

/- The pipelined uploads, `upload_concurrent_pipelined` and `upload_streaming_pipelined` of
   `ferogram/src/media.rs`. Their workers run the same loop; the second reads the parts
   from a file, so that to be ready with a part, or to have a connection, includes what it
   does with the file. It starts by opening it.

   A worker keeps a window of parts that are sent and not acknowledged. On an error it
   throws the window away and rewinds the counter to the lowest part in it, and goes on;
   but where a part could not be enqueued it leaves the filling loop with the window
   empty, which is also how a worker finds that it is done. If no other worker is there to
   take the part again, it is never sent (`lastWorker_leaves`). In a run in which this
   never happens every part is acknowledged (`pipelinedUpload_complete`). -/
namespace Ferogram.Media.PipelinedUpload
open Chunks
open Mtsender (RpcError InvocationError)
open Upload (Shared partSize totalParts Acked AtEnd)

/-- A part that was sent, or is to be, and the file id it is sent under. -/
structure Slot where
  part : Nat
  fileId : Int64
  deriving DecidableEq

/-- Where a worker waits. `leaving` is the lock after the connection that replaces the one
on which a part could not be enqueued, `rewinding` the lock after an error. -/
inductive Pc where
  | starting
  | filling
  | opening (slot : Slot)
  | pausing (slot : Slot)
  | enqueuing (slot : Slot)
  | requeueing (slot : Slot)
  | leaving (slot : Slot)
  | draining
  | flooded (slot : Slot)
  | retrying (slot : Slot)
  | rewinding (slot : Slot)
  | reconnecting
  | redirecting
  | done
  | failed
  deriving DecidableEq

structure Worker where
  workerDc : Int32
  totalReconnects : Nat
  window : List Slot
  pc : Pc
  deriving DecidableEq

inductive Event where
  | lock
  | connection (ok : Bool)
  | ready (ok : Bool)
  | enqueued (ok : Bool)
  | answer (result : Except InvocationError Unit) (fresh : Int64)
  | slept

section Step
variable (depth : Nat) (data : List UInt8)

/-- After the filling loop. -/
def filled (w : Worker) : Worker := { w with pc := if w.window = [] then .done else .draining }

/-- The filling loop, up to where it waits. -/
def fill (s : Shared) (w : Worker) : Shared × Worker :=
  if w.window.length < depth then
    if totalParts data ≤ s.nextPart then (s, filled w)
    else
      ({ s with nextPart := s.nextPart + 1 },
        if s.uploadDc ≠ w.workerDc then
          { w with workerDc := s.uploadDc, pc := .opening ⟨s.nextPart, s.fileId⟩ }
        else { w with pc := .pausing ⟨s.nextPart, s.fileId⟩ })
  else (s, filled w)

/-- An error after which the worker goes on to `pc`, unless there have been too many. -/
def backoff (w : Worker) (pc : Pc) : Worker :=
  if maxWorkerReconnects ≤ w.totalReconnects + 1 then
    { w with totalReconnects := w.totalReconnects + 1, pc := .failed }
  else { w with totalReconnects := w.totalReconnects + 1, pc }

/-- The counter goes back to the lowest of the parts that are given up. -/
def rewind (s : Shared) (w : Worker) (slot : Slot) : Shared :=
  { s with nextPart := min s.nextPart (minPart (w.window.map Slot.part) slot.part) }

/-- The front part was refused. -/
def refused (s : Shared) (w : Worker) (slot : Slot) (err : InvocationError) (fresh : Int64) : Shared × Worker :=
  match err with
  | .rpc rpc =>
    if rpc.code = 420 then (s, { w with pc := .flooded slot })
    else if rpc.code = 303 then
      ({ s with fileId := fresh, uploadDc := redirectDc rpc, nextPart := 0 },
        { w with workerDc := redirectDc rpc, window := [], pc := .redirecting })
    else if rpc.name = "AUTH_KEY_UNREGISTERED" then (s, backoff w (.rewinding slot))
    else if rpc.code ≠ -503 then (s, { w with pc := .failed })
    else (s, backoff w (.rewinding slot))
  | _ => (s, backoff w (.rewinding slot))

def step (s : Shared) (w : Worker) (e : Event) : Shared × Worker :=
  match w.pc, e with
  | .starting, .connection ok => (s, { w with pc := if ok then .filling else .failed })
  | .filling, .lock => fill depth data s w
  | .opening slot, .connection ok =>
    -- The window was of the session before the redirect.
    (s, if ok then { w with window := [], pc := .pausing slot } else { w with pc := .failed })
  | .pausing slot, .ready ok => (s, { w with pc := if ok then .enqueuing slot else .failed })
  | .enqueuing slot, .enqueued ok =>
    (s, if ok then { w with window := w.window ++ [slot], pc := .filling } else backoff w (.requeueing slot))
  | .requeueing slot, .connection ok => (s, { w with pc := if ok then .leaving slot else .failed })
  | .leaving slot, .lock => (rewind s w slot, filled { w with window := [] })
  | .draining, .answer result fresh =>
    match w.window, result with
    | [], _ => (s, w)
    | slot :: window, .ok () =>
      ({ s with acks := ⟨slot.fileId, w.workerDc, slot.part, slice data (partSize data) slot.part⟩ :: s.acks },
        { w with window, pc := .filling })
    | slot :: window, .error err => refused s { w with window } slot err fresh
  | .flooded slot, .slept => (s, { w with pc := .retrying ⟨slot.part, s.fileId⟩ })
  | .retrying slot, .enqueued ok =>
    (s, if ok then { w with window := slot :: w.window, pc := .filling } else { w with pc := .failed })
  | .rewinding slot, .lock => (rewind s w slot, { w with window := [], pc := .reconnecting })
  | .reconnecting, .connection ok => (s, { w with pc := if ok then .filling else .failed })
  | .redirecting, .connection ok => (s, { w with pc := if ok then .filling else .failed })
  | _, _ => (s, w)

end Step

/-- Which of the two functions it is. -/
inductive Source where
  | memory
  | file
  deriving DecidableEq

def Source.firstPc : Source → Pc
  | .memory => .filling
  | .file => .starting

/-- The workers on their connections to the home DC, before the first step. -/
def start (source : Source) (workers : Nat) (fileId : Int64) : Crew Shared Worker :=
  { shared := { nextPart := 0, fileId, uploadDc := 0, acks := [] }
    workers := List.replicate workers { workerDc := 0, totalReconnects := 0, window := [], pc := source.firstPc } }

/-- The steps of the workers, in any order. -/
def run (source : Source) (configured : Nat) (data : List UInt8) (workers : Nat) (fileId : Int64)
    (events : List (Nat × Event)) : Crew Shared Worker :=
  Run.final (Crew.next (step (pipelineDepth configured) data)) (start source workers fileId) events

/-- `Ok`, once every worker has returned without an error; no data is an error from the
start. -/
def returned (md5 : List UInt8 → String) (name : String) (data : List UInt8) (c : Crew Shared Worker) :
    Option InputFile :=
  if data ≠ [] ∧ ∀ w ∈ c.workers, w.pc = .done then
    some (toInputFile md5 (bigFileThreshold < data.length) c.shared.fileId (totalParts data) name data)
  else none

def IsDone (w : Worker) : Prop := w.pc = .done

/-- A worker that leaves because a part could not be enqueued leaves another one behind. -/
def NotLast (c : Crew Shared Worker) (e : Nat × Event) : Prop :=
  match (c.workers[e.1]?).map Worker.pc, e.2 with
  | some (.leaving _), .lock => c.OtherGoesOn IsDone e.1
  | _, _ => True

/-! What the workers owe. -/

/-- The parts a worker has claimed and not got rid of. A connection to another DC makes it
drop the window. -/
def Worker.owed (w : Worker) : List Slot :=
  match w.pc with
  | .opening slot => [slot]
  | .pausing slot | .enqueuing slot | .requeueing slot | .leaving slot | .flooded slot | .retrying slot
  | .rewinding slot => slot :: w.window
  | .done => []
  | _ => w.window

/-- The worker has the part under the file id and DC shared now; one that has failed owes
everything, since the call returns its error. -/
def Owes (s : Shared) (w : Worker) (p : Nat) : Prop :=
  w.pc = .failed ∨ (w.workerDc = s.uploadDc ∧ ⟨p, s.fileId⟩ ∈ w.owed)

variable {data : List UInt8} {s : Shared} {w w' : Worker} {slot : Slot}

theorem Owes.of_done {p : Nat} (hpc : w.pc = .done) : ¬ Owes s w p := by
  unfold Owes Worker.owed
  rw [hpc]
  rintro (hfailed | ⟨-, hmem⟩)
  · cases hfailed
  · cases hmem

theorem minPart_le_of_owed {window : List Slot} {slot' : Slot} (h : slot' ∈ slot :: window) :
    minPart (window.map Slot.part) slot.part ≤ slot'.part := by
  apply minPart_le
  rw [← List.map_cons]
  exact List.mem_map_of_mem h

/-- A step that leaves the shared state alone: the worker keeps its parts or fails. -/
theorem covers_keep (hrun : w.pc ≠ .failed) (hdc : w'.workerDc = w.workerDc) (h : w'.pc = .failed ∨ w.owed ⊆ w'.owed) :
    Crew.StepCovers Shared.nextPart (Acked data) Owes s w s w' := by
  apply Crew.StepCovers.of_worker
  intro p howes
  rcases howes with hfailed | ⟨hdc', hmem⟩
  · exact absurd hfailed hrun
  · exact h.imp_right fun hsub => ⟨hdc.trans hdc', hsub hmem⟩

theorem covers_wait {pc : Pc} (hrun : w.pc ≠ .failed) (h : w.owed ⊆ ({ w with pc } : Worker).owed) (ok : Bool) :
    Crew.StepCovers Shared.nextPart (Acked data) Owes s w s { w with pc := if ok then pc else .failed } := by
  cases ok
  · exact covers_keep hrun rfl (Or.inl rfl)
  · exact covers_keep hrun rfl (Or.inr h)

theorem covers_backoff {pc : Pc} (hrun : w.pc ≠ .failed) {window : List Slot}
    (h : w.owed ⊆ ({ w with window, pc } : Worker).owed) :
    Crew.StepCovers Shared.nextPart (Acked data) Owes s w s (backoff { w with window } pc) := by
  unfold backoff
  split
  · exact covers_keep hrun rfl (Or.inl rfl)
  · exact covers_keep hrun rfl (Or.inr h)

/-- A rewind gives up all that the worker owes. -/
theorem covers_rewind (hrun : w.pc ≠ .failed) (h : w.owed = slot :: w.window) :
    Crew.StepCovers Shared.nextPart (Acked data) Owes s w (rewind s w slot) w' where
  settled := fun _ _ hp => hp
  taken := by
    intro p hp hge
    have hp : p < min s.nextPart (minPart (w.window.map Slot.part) slot.part) := hp
    omega
  self := by
    intro p hp howes
    have hp : p < min s.nextPart (minPart (w.window.map Slot.part) slot.part) := hp
    rcases howes with hfailed | ⟨-, hmem⟩
    · exact absurd hfailed hrun
    · rw [h] at hmem
      have hle : minPart (w.window.map Slot.part) slot.part ≤ p := minPart_le_of_owed hmem
      omega
  others := fun _ _ _ hp => hp

theorem covers_refused {window : List Slot} (hpc : w.pc = .draining) (hwindow : w.window = slot :: window)
    (err : InvocationError) (fresh : Int64) :
    Crew.StepCovers Shared.nextPart (Acked data) Owes s w (refused s { w with window } slot err fresh).1
      (refused s { w with window } slot err fresh).2 := by
  have hrun : w.pc ≠ .failed := by simp [hpc]
  have howed : w.owed = slot :: window := by rw [Worker.owed, hpc]; exact hwindow
  have hagain : Crew.StepCovers Shared.nextPart (Acked data) Owes s w s (backoff { w with window } (.rewinding slot)) :=
    covers_backoff hrun (by rw [howed]; exact List.Subset.refl _)
  cases err with
  | rpc rpc =>
    rw [refused]
    split
    · exact covers_keep hrun rfl (Or.inr (by rw [howed]; exact List.Subset.refl _))
    · split
      · exact Crew.StepCovers.of_zero rfl
      · split
        · exact hagain
        · split
          · exact covers_keep hrun rfl (Or.inl rfl)
          · exact hagain
  | _ => exact hagain

theorem owed_filled (w : Worker) : (filled w).owed = w.window := by
  unfold filled Worker.owed
  by_cases h : w.window = []
  · simp [h]
  · simp [h]

theorem covers_fill (depth : Nat) (hpc : w.pc = .filling) :
    Crew.StepCovers Shared.nextPart (Acked data) Owes s w (fill depth data s w).1 (fill depth data s w).2 := by
  have hrun : w.pc ≠ .failed := by simp [hpc]
  have howed : w.owed = w.window := by rw [Worker.owed, hpc]
  have hfilled : Crew.StepCovers Shared.nextPart (Acked data) Owes s w s (filled w) :=
    covers_keep hrun rfl (Or.inr (by rw [howed, owed_filled]; exact List.Subset.refl _))
  unfold fill
  split
  · split
    · exact hfilled
    · refine ⟨fun _ _ h => h, ?_, ?_, fun _ _ _ h => h⟩
      · intro p hp hge
        obtain rfl : p = s.nextPart := Nat.le_antisymm (Nat.le_of_lt_succ hp) hge
        refine Or.inr (Or.inr ?_)
        split
        · exact ⟨rfl, List.mem_singleton.mpr rfl⟩
        · next hdc => exact ⟨(not_not.mp hdc).symm, List.mem_cons_self ..⟩
      · intro p _ howes
        rcases howes with hfailed | ⟨hdc, hmem⟩
        · exact absurd hfailed hrun
        · rw [howed] at hmem
          rw [if_neg (not_not.mpr hdc.symm)]
          exact Or.inr (Or.inr ⟨hdc, List.mem_cons_of_mem _ hmem⟩)
  · exact hfilled

theorem covers_step (depth : Nat) (e : Event) :
    Crew.StepCovers Shared.nextPart (Acked data) Owes s w (step depth data s w e).1 (step depth data s w e).2 := by
  unfold step
  split
  · next ok hpc => exact covers_wait (by simp [hpc]) (by rw [Worker.owed, hpc]; exact List.Subset.refl _) ok
  · next hpc => exact covers_fill depth hpc
  · next slot ok hpc =>
    cases ok
    · exact covers_keep (by simp [hpc]) rfl (Or.inl rfl)
    · exact covers_keep (by simp [hpc]) rfl (Or.inr (by rw [Worker.owed, hpc]; exact List.Subset.refl _))
  · next slot ok hpc => exact covers_wait (by simp [hpc]) (by rw [Worker.owed, hpc]; exact List.Subset.refl _) ok
  · next slot ok hpc =>
    have howed : w.owed = slot :: w.window := by rw [Worker.owed, hpc]
    have hrun : w.pc ≠ .failed := by simp [hpc]
    cases ok
    · exact covers_backoff hrun (by rw [howed]; exact List.Subset.refl _)
    · refine covers_keep hrun rfl (Or.inr ?_)
      rw [howed]
      intro slot' hmem
      exact List.mem_append.mpr ((List.mem_cons.mp hmem).symm.imp_right List.mem_singleton.mpr)
  · next slot ok hpc => exact covers_wait (by simp [hpc]) (by rw [Worker.owed, hpc]; exact List.Subset.refl _) ok
  · next slot hpc => exact covers_rewind (by simp [hpc]) (by rw [Worker.owed, hpc])
  · next result fresh hpc =>
    split
    · exact Crew.StepCovers.of_worker fun _ h => h
    · next slot window hwindow =>
      refine ⟨fun _ _ h => List.mem_cons_of_mem _ h, fun _ hp hge => absurd hp (Nat.not_lt.mpr hge), ?_, fun _ _ _ h => h⟩
      intro p _ howes
      rcases howes with hfailed | ⟨hdc, hmem⟩
      · rw [hpc] at hfailed
        cases hfailed
      · rw [Worker.owed, hpc, hwindow] at hmem
        rcases List.mem_cons.mp hmem with heq | hmem
        · refine Or.inl ?_
          rw [← heq, Acked, hdc]
          exact List.mem_cons_self ..
        · exact Or.inr (Or.inr ⟨hdc, hmem⟩)
    · next slot window err hwindow => exact covers_refused hpc hwindow err fresh
  · next slot hpc =>
    -- The part is sent again under the file id shared now.
    apply Crew.StepCovers.of_worker
    intro p howes
    rcases howes with hfailed | ⟨hdc, hmem⟩
    · rw [hpc] at hfailed
      cases hfailed
    · rw [Worker.owed, hpc] at hmem
      refine Or.inr ⟨hdc, ?_⟩
      rcases List.mem_cons.mp hmem with rfl | hmem
      · exact List.mem_cons_self ..
      · exact List.mem_cons_of_mem _ hmem
  · next slot ok hpc =>
    have hrun : w.pc ≠ .failed := by simp [hpc]
    cases ok
    · exact covers_keep hrun rfl (Or.inl rfl)
    · exact covers_keep hrun rfl (Or.inr (by rw [Worker.owed, hpc]; exact List.Subset.refl _))
  · next slot hpc => exact covers_rewind (by simp [hpc]) (by rw [Worker.owed, hpc])
  · next ok hpc => exact covers_wait (by simp [hpc]) (by rw [Worker.owed, hpc]; exact List.Subset.refl _) ok
  · next ok hpc => exact covers_wait (by simp [hpc]) (by rw [Worker.owed, hpc]; exact List.Subset.refl _) ok
  · exact Crew.StepCovers.of_worker fun _ h => h

/-! When a worker is done. -/

theorem step_done (depth : Nat) (h : w.pc = .done) (e : Event) : step depth data s w e = (s, w) := by
  unfold step
  rw [h]

theorem backoff_pc (w : Worker) (pc : Pc) : (backoff w pc).pc = .failed ∨ (backoff w pc).pc = pc := by
  unfold backoff
  split
  · exact Or.inl rfl
  · exact Or.inr rfl

theorem backoff_ne_done {pc : Pc} (h : pc ≠ .done) : (backoff w pc).pc ≠ .done := by
  rcases backoff_pc w pc with hpc | hpc
  · rw [hpc]
    nofun
  · rwa [hpc]

theorem refused_ne_done (err : InvocationError) (fresh : Int64) : (refused s w slot err fresh).2.pc ≠ .done := by
  have hagain : (backoff w (.rewinding slot)).pc ≠ .done := backoff_ne_done nofun
  cases err with
  | rpc rpc =>
    rw [refused]
    split
    · nofun
    · split
      · nofun
      · split
        · exact hagain
        · split
          · nofun
          · exact hagain
  | _ => exact hagain

/-- A worker finishes at the end, or because a part could not be enqueued. -/
theorem done_cases {depth : Nat} (hdepth : 0 < depth) (hrun : w.pc ≠ .done) (e : Event)
    (h : (step depth data s w e).2.pc = .done) :
    AtEnd data (step depth data s w e).1 ∨ ∃ slot, w.pc = .leaving slot ∧ e = .lock := by
  unfold step at h ⊢
  split at h
  · next ok hpc => cases ok <;> cases h
  · refine Or.inl ?_
    unfold fill at h ⊢
    split at h
    · next hroom =>
      rw [if_pos hroom]
      split at h
      · next hend => rwa [if_pos hend]
      · split at h <;> cases h
    · next hfull =>
      -- A full window is not empty.
      unfold filled at h
      split at h
      · next hempty =>
        rw [hempty, List.length_nil] at hfull
        exact absurd hdepth hfull
      · cases h
  · next slot ok hpc => cases ok <;> cases h
  · next slot ok hpc => cases ok <;> cases h
  · next slot ok hpc =>
    cases ok
    · exact absurd h (backoff_ne_done nofun)
    · cases h
  · next slot ok hpc => cases ok <;> cases h
  · next slot hpc => exact Or.inr ⟨slot, hpc, rfl⟩
  · next result fresh hpc =>
    split at h
    · exact absurd h hrun
    · cases h
    · exact absurd h (refused_ne_done _ fresh)
  · cases h
  · next slot ok hpc => cases ok <;> cases h
  · cases h
  · next ok hpc => cases ok <;> cases h
  · next ok hpc => cases ok <;> cases h
  · exact absurd h hrun

/-! Whole runs. -/

/-- The invariant of a run. -/
structure Inv (data : List UInt8) (c : Crew Shared Worker) : Prop where
  covered : c.Covered Shared.nextPart (Acked data) Owes
  attended : c.Attended (AtEnd data) IsDone

theorem start_inv (source : Source) (workers : Nat) (fileId : Int64) : Inv data (start source (workers + 1) fileId) where
  covered := fun _ hp => absurd hp (Nat.not_lt_zero _)
  attended := by
    refine Or.inr ⟨⟨0, 0, [], source.firstPc⟩, ?_, by cases source <;> nofun⟩
    exact List.mem_replicate.mpr ⟨Nat.succ_ne_zero workers, rfl⟩

theorem next_inv {depth : Nat} (hdepth : 0 < depth) {c : Crew Shared Worker} (e : Nat × Event) (hlast : NotLast c e)
    (hc : Inv data c) : Inv data (Crew.next (step depth data) c e) := by
  cases hw : c.workers[e.1]? with
  | none => rwa [Crew.next_none _ hw]
  | some w =>
    by_cases hdone : w.pc = .done
    · rwa [Crew.next_of_step_eq _ hw (step_done depth hdone e.2)]
    · rw [Crew.next_some _ hw]
      refine ⟨hc.covered.set hw (covers_step depth e.2), Crew.Attended.set hw ?_⟩
      intro h
      refine (done_cases hdepth hdone e.2 h).imp_right ?_
      rintro ⟨slot, hpc, he⟩
      rw [NotLast, hw, Option.map_some, hpc, he] at hlast
      exact hlast

/-- **The pipelined uploads.** In a run in which no worker leaves as the last one because it
could not enqueue a part: if a file is returned, every part is acknowledged with its slice of
the data under the file's id (and on the DC stored last), and the slices make up the data. -/
theorem pipelinedUpload_complete (source : Source) (configured : Nat) (md5 : List UInt8 → String) (name : String)
    (data : List UInt8) (workers : Nat) (fileId : Int64) (events : List (Nat × Event)) (file : InputFile)
    (hlast : Run.AllSteps (Crew.next (step (pipelineDepth configured) data)) NotLast (start source (workers + 1) fileId)
      events)
    (h : returned md5 name data (run source configured data (workers + 1) fileId events) = some file) :
    (∀ p < totalParts data,
      ⟨file.id, (run source configured data (workers + 1) fileId events).shared.uploadDc, p,
          slice data (partSize data) p⟩ ∈
        (run source configured data (workers + 1) fileId events).shared.acks) ∧
    (List.range (totalParts data)).flatMap (slice data (partSize data)) = data := by
  have hinv : Inv data (run source configured data (workers + 1) fileId events) :=
    Run.states_inv (I := Inv data) _ (fun _ e hnot hc => next_inv (pipelineDepth_pos configured) e hnot hc) events _
      (start_inv source workers fileId) hlast _ (Run.final_mem_states _ events _)
  refine ⟨?_, parts_flatten data (uploadPartSize_pos data.length)⟩
  intro p hp
  unfold returned at h
  split at h
  · next hreturned =>
    have hall := hreturned.2
    obtain rfl := Option.some.inj h
    rw [toInputFile_id]
    have hend : totalParts data ≤ _ := hinv.attended.reached hall
    exact hinv.covered.settled (Nat.lt_of_lt_of_le hp hend) fun w hw => Owes.of_done (hall w hw)
  · cases h

/-- Two workers: the first cannot enqueue the part and leaves, and the second sends it. -/
def handedOver : List (Nat × Event) :=
  [(0, .lock), (0, .ready true), (0, .enqueued false), (0, .connection true), (0, .lock), (1, .lock), (1, .ready true),
    (1, .enqueued true), (1, .lock), (1, .answer (.ok ()) 0), (1, .lock)]

theorem handedOver_complete :
    returned (fun _ => "") "a.bin" [1, 2, 3] (run .memory 1 [1, 2, 3] 2 8 handedOver) = some (.file 8 1 "a.bin" "") ∧
    ∀ p < totalParts [1, 2, 3],
      ⟨8, 0, p, slice [1, 2, 3] (partSize [1, 2, 3]) p⟩ ∈ (run .memory 1 [1, 2, 3] 2 8 handedOver).shared.acks := by
  have hrun : returned (fun _ => "") "a.bin" [1, 2, 3] (run .memory 1 [1, 2, 3] 2 8 handedOver) =
      some (.file 8 1 "a.bin" "") := by decide
  have hall := pipelinedUpload_complete .memory 1 (fun _ => "") "a.bin" [1, 2, 3] 1 8 handedOver (.file 8 1 "a.bin" "")
    ⟨trivial, trivial, trivial, trivial, ⟨1, ⟨0, 0, [], .filling⟩, by decide, rfl, nofun⟩, trivial, trivial, trivial, trivial,
      trivial, trivial, trivial⟩ hrun
  exact ⟨hrun, hall.1⟩

/-- A single worker that cannot enqueue the only part and gets another connection: it leaves, a
file is returned, and the part was never acknowledged. -/
theorem lastWorker_leaves :
    returned (fun _ => "") "a.bin" [1, 2, 3] (run .memory 1 [1, 2, 3] 1 8
      [(0, .lock), (0, .ready true), (0, .enqueued false), (0, .connection true), (0, .lock)]) =
        some (.file 8 1 "a.bin" "") ∧
    ¬ ∀ p < totalParts [1, 2, 3], ∃ dc, ⟨8, dc, p, slice [1, 2, 3] (partSize [1, 2, 3]) p⟩ ∈ (run .memory 1 [1, 2, 3] 1 8
      [(0, .lock), (0, .ready true), (0, .enqueued false), (0, .connection true), (0, .lock)]).shared.acks := by
  refine ⟨by decide, ?_⟩
  intro h
  obtain ⟨dc, hmem⟩ := h 0 (by decide)
  cases hmem

end Ferogram.Media.PipelinedUpload
