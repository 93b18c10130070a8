import Ferogram.Client.Parts

/- The pipelined download to a file, `download_concurrent_to_file_pipelined` of
   `ferogram/src/media.rs`.

   The workers claim parts from a shared counter, keep a window of requests that are on
   their way, and send each part they receive to the writer, which puts it at its place in
   a file of the full size and counts the bytes. On an error a worker throws its window
   away and rewinds the counter to the lowest part in it; where a request could not be
   enqueued it rewinds to that part, keeps the window, and leaves if it is empty. Any
   worker that fails makes the others stop.

   The channel to the writer is in order and is closed when the last worker is gone; that
   a worker waits while it is full changes nothing here, and where the writer fails the
   call fails. So the writer is what it does with all the parts sent.

   A part can be lost only if the last worker leaves after a failed enqueue, and the
   number of bytes is right only if a rewind takes back no part of another worker and none
   that was received: `pipelinedDownload_complete`. -/
namespace Ferogram.Media.PipelinedDownload
open Chunks
open Mtsender (RpcError InvocationError)

/-- `upload.File`, or what does not parse as one. -/
inductive Reply where
  | file (bytes : List UInt8)
  | cdnRedirect
  | malformed
  deriving DecidableEq

/-- Where a worker waits. After a failed enqueue it is `requeueing` for a connection and
then for the lock; after an error `reopening` and `rewinding`. -/
inductive Pc where
  | top
  | filling
  | enqueuing (part : Nat)
  | requeueing (part : Nat)
  | requeueLock (part : Nat)
  | draining
  | flooded (part : Nat)
  | reopening (part : Nat)
  | rewinding (part : Nat)
  | done
  | failed
  deriving DecidableEq

structure Worker where
  workerDc : Int32
  totalReconnects : Nat
  window : List Nat
  pc : Pc
  deriving DecidableEq

/-- `sent` are the parts handed to the writer. -/
structure Shared where
  nextPart : Nat
  abort : Bool
  sent : List (Nat × List UInt8)
  deriving DecidableEq

inductive Event where
  | go
  | lock
  | connection (ok : Bool)
  | enqueued (ok : Bool)
  | answer (result : Except InvocationError Reply)

def chunk (size : Nat) : Nat := downloadChunkSize size
def nParts (size : Nat) : Nat := divCeil size (chunk size)

section Step
variable (depth size : Nat)

/-- The length a part must have. -/
def expected (part : Nat) : Nat := if part = nParts size - 1 then size - part * chunk size else chunk size

/-- `abort.store(true)` and an error. -/
def giveUp (s : Shared) (w : Worker) : Shared × Worker := ({ s with abort := true }, { w with pc := .failed })

/-- After the filling loop. -/
def filled (w : Worker) : Worker := { w with pc := if w.window = [] then .done else .draining }

/-- The head of the filling loop. -/
def again (s : Shared) (w : Worker) : Worker :=
  if w.window.length < depth ∧ s.abort = false then { w with pc := .filling } else filled w

/-- An error after which the worker goes on to `pc`, unless there have been too many. -/
def backoff (s : Shared) (w : Worker) (pc : Pc) : Shared × Worker :=
  if maxWorkerReconnects ≤ w.totalReconnects + 1 then
    giveUp s { w with totalReconnects := w.totalReconnects + 1 }
  else (s, { w with totalReconnects := w.totalReconnects + 1, pc })

/-- The answer to the front request. -/
def answered (s : Shared) (w : Worker) (part : Nat) (result : Except InvocationError Reply) : Shared × Worker :=
  match result with
  | .ok (.file bytes) =>
    if bytes.length ≠ expected size part then giveUp s w
    else ({ s with sent := s.sent ++ [(part, bytes)] }, { w with pc := .top })
  | .ok .cdnRedirect => giveUp s w
  | .ok .malformed => (s, { w with pc := .failed })
  | .error (.rpc rpc) =>
    if rpc.code = 420 then (s, { w with pc := .flooded part })
    else if rpc.code = 303 then (s, { w with workerDc := redirectDc rpc, pc := .reopening part })
    else backoff s w (.reopening part)
  | .error _ => backoff s w (.reopening part)

def step (s : Shared) (w : Worker) (e : Event) : Shared × Worker :=
  match w.pc, e with
  | .top, .go => (s, if s.abort then { w with pc := .done } else again depth s w)
  | .filling, .lock =>
    if nParts size ≤ s.nextPart then (s, filled w)
    else ({ s with nextPart := s.nextPart + 1 }, { w with pc := .enqueuing s.nextPart })
  | .enqueuing part, .enqueued ok =>
    if ok then (s, again depth s { w with window := w.window ++ [part] }) else backoff s w (.requeueing part)
  | .requeueing part, .connection ok => if ok then (s, { w with pc := .requeueLock part }) else giveUp s w
  | .requeueLock part, .lock => ({ s with nextPart := min s.nextPart part }, filled w)
  | .draining, .answer result =>
    match w.window with
    | [] => (s, w)
    | part :: window => answered size s { w with window } part result
  | .flooded part, .enqueued ok =>
    if ok then (s, { w with window := part :: w.window, pc := .top }) else giveUp s w
  | .reopening part, .connection ok => if ok then (s, { w with pc := .rewinding part }) else giveUp s w
  | .rewinding part, .lock =>
    ({ s with nextPart := min s.nextPart (minPart w.window part) }, { w with window := [], pc := .top })
  | _, _ => (s, w)

end Step

/-- The workers on their connections to the file's DC, before the first step. -/
def start (workers : Nat) (dc : Int32) : Crew Shared Worker :=
  { shared := { nextPart := 0, abort := false, sent := [] }
    workers := List.replicate workers { workerDc := dc, totalReconnects := 0, window := [], pc := .top } }

/-- The steps of the workers, in any order. -/
def run (configured size workers : Nat) (dc : Int32) (events : List (Nat × Event)) : Crew Shared Worker :=
  Run.final (Crew.next (step (pipelineDepth configured) size)) (start workers dc) events

/-- The writer: the number of bytes written, and the file, which was allocated in full. -/
def written (size : Nat) (sent : List (Nat × List UInt8)) : Nat × List UInt8 :=
  sent.foldl (fun state m => (state.1 + m.2.length, writeAt 0 state.2 (m.1 * chunk size) m.2))
    (0, List.replicate size 0)

/-- `Ok`, once every worker has returned without an error, with the number of bytes and the
file. -/
def returned (size : Nat) (c : Crew Shared Worker) : Option (Nat × List UInt8) :=
  if ∀ w ∈ c.workers, w.pc = .done then some (written size c.shared.sent) else none

def IsDone (w : Worker) : Prop := w.pc = .done

/-- The server answers a request with the bytes of the file. -/
def Serves (file : List UInt8) (c : Crew Shared Worker) (e : Nat × Event) : Prop :=
  match c.workers[e.1]?, e.2 with
  | some ⟨_, _, part :: _, .draining⟩, .answer (.ok reply) => reply = .file (slice file (chunk file.length) part)
  | _, _ => True

/-- A worker that leaves because a request could not be enqueued leaves another one behind. -/
def NotLast (c : Crew Shared Worker) (e : Nat × Event) : Prop :=
  match c.workers[e.1]?, e.2 with
  | some ⟨_, _, [], .requeueLock _⟩, .lock => c.OtherGoesOn IsDone e.1
  | _, _ => True

/-- A rewind takes back only parts that the worker itself gives up with it. -/
def OwnParts (c : Crew Shared Worker) (e : Nat × Event) : Prop :=
  match c.workers[e.1]?, e.2 with
  | some ⟨_, _, _, .requeueLock part⟩, .lock => ∀ q, part ≤ q → q < c.shared.nextPart → q = part
  | some ⟨_, _, window, .rewinding part⟩, .lock =>
    ∀ q, minPart window part ≤ q → q < c.shared.nextPart → q ∈ part :: window
  | _, _ => True

/-! What the workers owe. -/

/-- The parts a worker has claimed and neither sent on nor given up. -/
def Worker.owed (w : Worker) : List Nat :=
  match w.pc with
  | .enqueuing part | .requeueing part | .requeueLock part | .flooded part | .reopening part | .rewinding part =>
    part :: w.window
  | .done => []
  | _ => w.window

/-- The part is with the writer; once a worker has given up, nothing more is needed. -/
def Settled (s : Shared) (p : Nat) : Prop := s.abort = true ∨ p ∈ s.sent.map Prod.fst

/-- A worker that has failed owes everything, since the call returns its error. -/
def Owes (_s : Shared) (w : Worker) (p : Nat) : Prop := w.pc = .failed ∨ p ∈ w.owed

def AtEnd (size : Nat) (s : Shared) : Prop := s.abort = true ∨ nParts size ≤ s.nextPart

variable {depth size : Nat} {s s' : Shared} {w w' : Worker} {part : Nat}

theorem owed_filled (w : Worker) : (filled w).owed = w.window := by
  unfold filled Worker.owed
  by_cases h : w.window = [] <;> simp [h]

theorem owed_again (depth : Nat) (s : Shared) (w : Worker) : (again depth s w).owed = w.window := by
  unfold again
  split
  · rfl
  · exact owed_filled w

/-- Once a worker has given up. -/
theorem covers_abort (h : s'.abort = true) : Crew.StepCovers Shared.nextPart Settled Owes s w s' w' where
  settled := fun _ _ _ => Or.inl h
  taken := fun _ _ _ => Or.inl (Or.inl h)
  self := fun _ _ _ => Or.inl (Or.inl h)
  others := fun _ _ _ howes => howes

/-- A step that leaves the shared state alone: the worker keeps its parts or fails. -/
theorem covers_keep (hrun : w.pc ≠ .failed) (h : w'.pc = .failed ∨ w.owed ⊆ w'.owed) :
    Crew.StepCovers Shared.nextPart Settled Owes s w s w' := by
  apply Crew.StepCovers.of_worker
  intro p howes
  have hmem := howes.resolve_left hrun
  exact h.imp_right fun hsub => hsub hmem

theorem covers_backoff (hrun : w.pc ≠ .failed) {window : List Nat} {pc : Pc}
    (h : w.owed ⊆ ({ w with window, pc } : Worker).owed) :
    Crew.StepCovers Shared.nextPart Settled Owes s w (backoff s { w with window } pc).1
      (backoff s { w with window } pc).2 := by
  unfold backoff
  split
  · exact covers_abort rfl
  · exact covers_keep hrun (Or.inr h)

/-- The counter goes back to `m`, and the worker keeps what it owes below. -/
theorem covers_back {m : Nat} (hrun : w.pc ≠ .failed) (h : ∀ p ∈ w.owed, p < m → p ∈ w'.owed) :
    Crew.StepCovers Shared.nextPart Settled Owes s w { s with nextPart := min s.nextPart m } w' where
  settled := fun _ _ hp => hp
  taken := by
    intro p hp hge
    have hp : p < min s.nextPart m := hp
    omega
  self := by
    intro p hp howes
    have hp : p < min s.nextPart m := hp
    exact Or.inr (Or.inr (h p (howes.resolve_left hrun) (by omega)))
  others := fun _ _ _ howes => howes

theorem covers_answered {window : List Nat} (hpc : w.pc = .draining) (hwindow : w.window = part :: window)
    (result : Except InvocationError Reply) :
    Crew.StepCovers Shared.nextPart Settled Owes s w (answered size s { w with window } part result).1
      (answered size s { w with window } part result).2 := by
  have hrun : w.pc ≠ .failed := by simp [hpc]
  have howed : w.owed = part :: window := by rw [Worker.owed, hpc]; exact hwindow
  have hagain : Crew.StepCovers Shared.nextPart Settled Owes s w (backoff s { w with window } (.reopening part)).1
      (backoff s { w with window } (.reopening part)).2 :=
    covers_backoff hrun (by rw [howed]; exact List.Subset.refl _)
  unfold answered
  split
  · split
    · exact covers_abort rfl
    · refine ⟨?_, fun _ hp hge => absurd hp (Nat.not_lt.mpr hge), ?_, fun _ _ _ howes => howes⟩
      · intro p _ hp
        exact hp.imp_right fun hmem => by rw [List.map_append]; exact List.mem_append_left _ hmem
      · intro p _ howes
        have hmem := howes.resolve_left hrun
        rw [howed] at hmem
        rcases List.mem_cons.mp hmem with rfl | hmem
        · refine Or.inl (Or.inr ?_)
          rw [List.map_append]
          exact List.mem_append_right _ (List.mem_singleton.mpr rfl)
        · exact Or.inr (Or.inr hmem)
  · exact covers_abort rfl
  · exact covers_keep hrun (Or.inl rfl)
  · split
    · exact covers_keep hrun (Or.inr (by rw [howed]; exact List.Subset.refl _))
    · split
      · exact covers_keep hrun (Or.inr (by rw [howed]; exact List.Subset.refl _))
      · exact hagain
  · exact hagain

theorem covers_step (e : Event) :
    Crew.StepCovers Shared.nextPart Settled Owes s w (step depth size s w e).1 (step depth size s w e).2 := by
  unfold step
  split
  · next hpc =>
    -- top of the loop
    split
    · next habort => exact covers_abort habort
    · exact covers_keep (by simp [hpc]) (Or.inr (by rw [owed_again, Worker.owed, hpc]; exact List.Subset.refl _))
  · next hpc =>
    -- a claim
    have hrun : w.pc ≠ .failed := by simp [hpc]
    have howed : w.owed = w.window := by rw [Worker.owed, hpc]
    split
    · exact covers_keep hrun (Or.inr (by rw [owed_filled, howed]; exact List.Subset.refl _))
    · refine ⟨fun _ _ h => h, ?_, ?_, fun _ _ _ h => h⟩
      · intro p hp hge
        obtain rfl : p = s.nextPart := Nat.le_antisymm (Nat.le_of_lt_succ hp) hge
        exact Or.inr (Or.inr (List.mem_cons_self ..))
      · intro p _ howes
        have hmem := howes.resolve_left hrun
        rw [howed] at hmem
        exact Or.inr (Or.inr (List.mem_cons_of_mem _ hmem))
  · next part ok hpc =>
    -- a request goes out
    have hrun : w.pc ≠ .failed := by simp [hpc]
    have howed : w.owed = part :: w.window := by rw [Worker.owed, hpc]
    split
    · refine covers_keep hrun (Or.inr ?_)
      rw [howed, owed_again]
      intro p hmem
      exact List.mem_append.mpr ((List.mem_cons.mp hmem).symm.imp_right List.mem_singleton.mpr)
    · exact covers_backoff hrun (by rw [howed]; exact List.Subset.refl _)
  · next part ok hpc =>
    -- a connection to put the part back on
    split
    · exact covers_keep (by simp [hpc]) (Or.inr (by rw [Worker.owed, hpc]; exact List.Subset.refl _))
    · exact covers_abort rfl
  · next part hpc =>
    -- the part is put back
    refine covers_back (by simp [hpc]) ?_
    intro p hmem hlt
    rw [Worker.owed, hpc] at hmem
    rw [owed_filled]
    rcases List.mem_cons.mp hmem with rfl | hmem
    · exact absurd hlt (Nat.lt_irrefl _)
    · exact hmem
  · next result hpc =>
    -- an answer
    split
    · exact Crew.StepCovers.of_worker fun _ h => h
    · next part window hwindow => exact covers_answered hpc hwindow result
  · next part ok hpc =>
    -- the request again, after a flood wait
    split
    · exact covers_keep (by simp [hpc]) (Or.inr (by rw [Worker.owed, hpc]; exact List.Subset.refl _))
    · exact covers_abort rfl
  · next part ok hpc =>
    -- a connection to start the window again on
    split
    · exact covers_keep (by simp [hpc]) (Or.inr (by rw [Worker.owed, hpc]; exact List.Subset.refl _))
    · exact covers_abort rfl
  · next part hpc =>
    -- the window is given up
    refine covers_back (by simp [hpc]) ?_
    intro p hmem hlt
    rw [Worker.owed, hpc] at hmem
    exact absurd hlt (Nat.not_lt.mpr (minPart_le hmem))
  · exact Crew.StepCovers.of_worker fun _ h => h

/-! When a worker is done. -/

theorem step_done (h : w.pc = .done) (e : Event) : step depth size s w e = (s, w) := by
  unfold step
  rw [h]

theorem filled_done (h : (filled w).pc = .done) : w.window = [] := by
  unfold filled at h
  split at h
  · assumption
  · cases h

/-- With room for a part the head of the loop goes on, unless a worker has given up. -/
theorem again_done (hdepth : 0 < depth) (h : (again depth s w).pc = .done) : s.abort = true := by
  unfold again at h
  split at h
  · cases h
  · next hstop =>
    have hempty := filled_done h
    rw [hempty, List.length_nil] at hstop
    simpa [hdepth] using hstop

theorem backoff_ne_done {pc : Pc} (h : pc ≠ .done) : (backoff s w pc).2.pc ≠ .done := by
  unfold backoff
  split
  · nofun
  · exact h

theorem answered_ne_done (result : Except InvocationError Reply) : (answered size s w part result).2.pc ≠ .done := by
  unfold answered
  split
  · split <;> nofun
  · nofun
  · nofun
  · split
    · nofun
    · split
      · nofun
      · exact backoff_ne_done nofun
  · exact backoff_ne_done nofun

/-- A worker finishes at the end, or because a request could not be enqueued. -/
theorem done_cases (hdepth : 0 < depth) (hrun : w.pc ≠ .done) (e : Event)
    (h : (step depth size s w e).2.pc = .done) :
    AtEnd size (step depth size s w e).1 ∨ (∃ part, w.pc = .requeueLock part) ∧ w.window = [] ∧ e = .lock := by
  unfold step at h ⊢
  split at h
  · split at h
    · next habort => exact Or.inl (Or.inl habort)
    · exact Or.inl (Or.inl (again_done hdepth h))
  · split at h
    · next hend =>
      rw [if_pos hend]
      exact Or.inl (Or.inr hend)
    · cases h
  · split at h
    · next hok =>
      rw [if_pos hok]
      exact Or.inl (Or.inl (again_done hdepth h))
    · exact absurd h (backoff_ne_done nofun)
  · split at h <;> cases h
  · next part hpc => exact Or.inr ⟨⟨part, hpc⟩, filled_done h, rfl⟩
  · split at h
    · exact absurd h hrun
    · exact absurd h (answered_ne_done _)
  · split at h <;> cases h
  · split at h <;> cases h
  · cases h
  · exact absurd h hrun

/-! What a step does with what is shared. -/

theorem backoff_shared {pc : Pc} :
    (backoff s w pc).1 = s ∨ ((backoff s w pc).1 = { s with abort := true } ∧ (backoff s w pc).2.pc = .failed) := by
  unfold backoff
  split
  · exact Or.inr ⟨rfl, rfl⟩
  · exact Or.inl rfl

/-- Nothing, the end of it all, a claim, a part for the writer, or a rewind. -/
theorem shared_cases (depth size : Nat) (s : Shared) (w : Worker) (e : Event) : (step depth size s w e).1 = s ∨
    ((step depth size s w e).1 = { s with abort := true } ∧ (step depth size s w e).2.pc = .failed) ∨
    (s.nextPart < nParts size ∧ (step depth size s w e).1 = { s with nextPart := s.nextPart + 1 }) ∨
    (∃ part window bytes, w.pc = .draining ∧ w.window = part :: window ∧ e = .answer (.ok (.file bytes)) ∧
      (step depth size s w e).1 = { s with sent := s.sent ++ [(part, bytes)] }) ∨
    ∃ m, (step depth size s w e).1 = { s with nextPart := min s.nextPart m } := by
  have hback : ∀ {w : Worker} {pc : Pc}, (backoff s w pc).1 = s ∨
      ((backoff s w pc).1 = { s with abort := true } ∧ (backoff s w pc).2.pc = .failed) := backoff_shared
  unfold step
  split
  · -- top of the loop
    exact Or.inl rfl
  · -- a claim
    split
    · exact Or.inl rfl
    · next hroom => exact Or.inr (Or.inr (Or.inl ⟨Nat.lt_of_not_le hroom, rfl⟩))
  · -- a request goes out
    split
    · exact Or.inl rfl
    · exact hback.imp_right Or.inl
  · -- a connection to put the part back on
    split
    · exact Or.inl rfl
    · exact Or.inr (Or.inl ⟨rfl, rfl⟩)
  · -- the part is put back
    exact Or.inr (Or.inr (Or.inr (Or.inr ⟨_, rfl⟩)))
  · next result hpc =>
    -- an answer
    split
    · exact Or.inl rfl
    · next part window hwindow =>
      unfold answered
      split
      · split
        · exact Or.inr (Or.inl ⟨rfl, rfl⟩)
        · exact Or.inr (Or.inr (Or.inr (Or.inl ⟨part, window, _, hpc, hwindow, rfl, rfl⟩)))
      · exact Or.inr (Or.inl ⟨rfl, rfl⟩)
      · exact Or.inl rfl
      · split
        · exact Or.inl rfl
        · split
          · exact Or.inl rfl
          · exact hback.imp_right Or.inl
      · exact hback.imp_right Or.inl
  · -- the request again, after a flood wait
    split
    · exact Or.inl rfl
    · exact Or.inr (Or.inl ⟨rfl, rfl⟩)
  · -- a connection to start the window again on
    split
    · exact Or.inl rfl
    · exact Or.inr (Or.inl ⟨rfl, rfl⟩)
  · -- the window is given up
    exact Or.inr (Or.inr (Or.inr (Or.inr ⟨_, rfl⟩)))
  · exact Or.inl rfl

theorem step_failed (h : w.pc = .failed) (e : Event) : step depth size s w e = (s, w) := by
  unfold step
  rw [h]

/-! Whole runs. -/

/-- The invariant of a run against a server with the file. -/
structure Inv (file : List UInt8) (c : Crew Shared Worker) : Prop where
  covered : c.Covered Shared.nextPart Settled Owes
  attended : c.Attended (AtEnd file.length) IsDone
  served : ∀ m ∈ c.shared.sent, m.2 = slice file (chunk file.length) m.1
  aborted : c.shared.abort = true → ∃ w ∈ c.workers, w.pc = .failed
  bound : c.shared.nextPart ≤ nParts file.length

theorem start_inv (file : List UInt8) (workers : Nat) (dc : Int32) : Inv file (start (workers + 1) dc) where
  covered := fun _ hp => absurd hp (Nat.not_lt_zero _)
  attended := by
    refine Or.inr ⟨⟨dc, 0, [], .top⟩, ?_, nofun⟩
    exact List.mem_replicate.mpr ⟨Nat.succ_ne_zero workers, rfl⟩
  served := nofun
  aborted := nofun
  bound := Nat.zero_le _

theorem served_of_serves {file : List UInt8} {c : Crew Shared Worker} {e : Nat × Event} (h : Serves file c e)
    (hw : c.workers[e.1]? = some w) (hpc : w.pc = .draining) {window : List Nat} (hwindow : w.window = part :: window)
    {reply : Reply} (he : e.2 = .answer (.ok reply)) : reply = .file (slice file (chunk file.length) part) := by
  obtain ⟨dc, n, window', pc⟩ := w
  obtain rfl : pc = .draining := hpc
  obtain rfl : window' = part :: window := hwindow
  unfold Serves at h
  rw [hw, he] at h
  exact h

theorem next_inv {file : List UInt8} (hdepth : 0 < depth) {c : Crew Shared Worker} (e : Nat × Event)
    (hserves : Serves file c e) (hlast : NotLast c e) (hc : Inv file c) :
    Inv file (Crew.next (step depth file.length) c e) := by
  cases hw : c.workers[e.1]? with
  | none => rwa [Crew.next_none _ hw]
  | some w =>
    by_cases hdone : w.pc = .done
    · -- who is done has left another behind, or there is nothing left
      rwa [Crew.next_of_step_eq _ hw (step_done hdone e.2)]
    rw [Crew.next_some _ hw]
    have hcases := shared_cases depth file.length c.shared w e.2
    refine ⟨hc.covered.set hw (covers_step e.2), Crew.Attended.set hw ?_, ?_, ?_, ?_⟩
    · -- only an answer adds to the file
      intro h
      refine (done_cases hdepth hdone e.2 h).imp_right ?_
      rintro ⟨⟨part, hpc⟩, hwindow, he⟩
      obtain ⟨dc, n, window, pc⟩ := w
      obtain rfl : pc = .requeueLock part := hpc
      obtain rfl : window = [] := hwindow
      unfold NotLast at hlast
      rw [hw, he] at hlast
      exact hlast
    · -- a failed worker is the reason to abort
      rcases hcases with h | ⟨h, -⟩ | ⟨-, h⟩ | ⟨part, window, bytes, hpc, hwindow, he, h⟩ | ⟨m, h⟩
      · rw [h]
        exact hc.served
      · rw [h]
        exact hc.served
      · rw [h]
        exact hc.served
      · rw [h]
        intro m hm
        rcases List.mem_append.mp hm with hm | hm
        · exact hc.served m hm
        · obtain rfl := List.mem_singleton.mp hm
          exact Reply.file.inj (served_of_serves hserves hw hpc hwindow he)
      · rw [h]
        exact hc.served
    · -- claims stop at the number of parts
      intro habort
      have hkeep : c.shared.abort = true → ∃ v ∈ c.workers.set e.1 (step depth file.length c.shared w e.2).2, v.pc = .failed :=
        fun habort => Crew.exists_set hw (fun hfailed => by rw [step_failed hfailed]; exact hfailed) (fun _ h => h)
          (hc.aborted habort)
      rcases hcases with h | ⟨-, hfailed⟩ | ⟨-, h⟩ | ⟨part, window, bytes, -, -, -, h⟩ | ⟨m, h⟩
      · rw [h] at habort
        exact hkeep habort
      · exact ⟨_, List.mem_set (List.getElem?_eq_some_iff.mp hw).1 _, hfailed⟩
      · rw [h] at habort
        exact hkeep habort
      · rw [h] at habort
        exact hkeep habort
      · rw [h] at habort
        exact hkeep habort
    · rcases hcases with h | ⟨h, -⟩ | ⟨hroom, h⟩ | ⟨part, window, bytes, -, -, -, h⟩ | ⟨m, h⟩
      · rw [h]
        exact hc.bound
      · rw [h]
        exact hc.bound
      · rw [h]
        exact hroom
      · rw [h]
        exact hc.bound
      · rw [h]
        exact Nat.le_trans (Nat.min_le_left _ _) hc.bound

/-! Each part once. -/

/-- How often the part is with the writer, and how often it is due there or with a worker. -/
def sentCount (s : Shared) (p : Nat) : Nat := (s.sent.map Prod.fst).count p
def dueCount (s : Shared) (p : Nat) : Nat := if p < s.nextPart then 1 else 0

/-- Every part below the counter is once with the writer or a worker, and the others are
nowhere. -/
def Even (c : Crew Shared Worker) : Prop :=
  c.Balanced sentCount (fun w p => w.owed.count p) dueCount

/-- One worker's step keeps it so, where no part of this worker was there too often. -/
def StepEven (s : Shared) (w : Worker) (s' : Shared) (w' : Worker) : Prop :=
  s'.abort = true ∨ ∀ p, sentCount s p + w.owed.count p ≤ dueCount s p →
    sentCount s' p + w'.owed.count p + dueCount s p = sentCount s p + w.owed.count p + dueCount s' p

theorem even_keep (h : w.owed.Perm w'.owed) : StepEven s w s w' := by
  refine Or.inr fun p _ => ?_
  rw [h.count_eq]

theorem even_backoff {window : List Nat} {pc : Pc} (h : w.owed.Perm ({ w with window, pc } : Worker).owed) :
    StepEven s w (backoff s { w with window } pc).1 (backoff s { w with window } pc).2 := by
  unfold backoff
  split
  · exact Or.inl rfl
  · exact even_keep h

/-- A rewind to `m` where each part from there on is one the worker gives up. -/
theorem even_back {m : Nat} (hle : ∀ p, w'.owed.count p ≤ w.owed.count p)
    (hlow : ∀ p, p < m → w'.owed.count p = w.owed.count p)
    (hhigh : ∀ p, m ≤ p → p < s.nextPart → w'.owed.count p < w.owed.count p) :
    StepEven s w { s with nextPart := min s.nextPart m } w' := by
  refine Or.inr fun p hp => ?_
  have hcount := hle p
  have hdue : dueCount { s with nextPart := min s.nextPart m } p = if p < min s.nextPart m then 1 else 0 := rfl
  have hsent : sentCount { s with nextPart := min s.nextPart m } p = sentCount s p := rfl
  have hold : dueCount s p = if p < s.nextPart then 1 else 0 := rfl
  rw [hold] at hp
  rw [hdue, hsent, hold]
  by_cases hnext : p < s.nextPart
  · by_cases hm : p < m
    · have heq := hlow p hm
      rw [if_pos hnext, if_pos (by omega)]
      omega
    · have hlt := hhigh p (Nat.le_of_not_lt hm) hnext
      rw [if_pos hnext] at hp
      rw [if_pos hnext, if_neg (by omega)]
      omega
  · rw [if_neg hnext] at hp
    rw [if_neg hnext, if_neg (by omega)]
    omega

theorem even_answered {window : List Nat} (hpc : w.pc = .draining) (hwindow : w.window = part :: window)
    {result : Except InvocationError Reply} (hparses : result ≠ .ok .malformed) :
    StepEven s w (answered size s { w with window } part result).1 (answered size s { w with window } part result).2 := by
  have howed : w.owed = part :: window := by rw [Worker.owed, hpc]; exact hwindow
  have hkeep : w.owed.Perm (part :: window) := by rw [howed]
  have hagain : StepEven s w (backoff s { w with window } (.reopening part)).1
      (backoff s { w with window } (.reopening part)).2 := even_backoff hkeep
  unfold answered
  split
  · split
    · exact Or.inl rfl
    · next bytes hlen =>
      refine Or.inr fun p _ => ?_
      have hsent : sentCount { s with sent := s.sent ++ [(part, bytes)] } p = sentCount s p + [part].count p := by
        rw [sentCount, List.map_append, List.count_append]
        rfl
      have hcons : (part :: window).count p = [part].count p + window.count p := by
        rw [← List.singleton_append, List.count_append]
      have hdue : dueCount { s with sent := s.sent ++ [(part, bytes)] } p = dueCount s p := rfl
      have hrest : ({ w with window := window, pc := .top } : Worker).owed = window := rfl
      rw [hsent, hdue, hrest, howed, hcons]
      omega
  · exact Or.inl rfl
  · exact absurd rfl hparses
  · split
    · exact even_keep hkeep
    · split
      · exact even_keep hkeep
      · exact hagain
  · exact hagain

theorem even_claim (howed : w.owed = w.window) :
    StepEven s w { s with nextPart := s.nextPart + 1 } { w with pc := .enqueuing s.nextPart } := by
  refine Or.inr fun p _ => ?_
  have hnew : ({ w with pc := .enqueuing s.nextPart } : Worker).owed = s.nextPart :: w.window := rfl
  have hdue : dueCount { s with nextPart := s.nextPart + 1 } p = if p < s.nextPart + 1 then 1 else 0 := rfl
  have hsent : sentCount { s with nextPart := s.nextPart + 1 } p = sentCount s p := rfl
  rw [hnew, hdue, hsent, howed, dueCount]
  by_cases hp : p = s.nextPart
  · rw [hp, List.count_cons_self, if_neg (Nat.lt_irrefl _), if_pos (Nat.lt_succ_self _)]
    omega
  · rw [List.count_cons_of_ne (Ne.symm hp)]
    by_cases hlt : p < s.nextPart
    · rw [if_pos hlt, if_pos (by omega)]
    · rw [if_neg hlt, if_neg (by omega)]

theorem even_step (e : Event)
    (hparses : ∀ part window, w.pc = .draining → w.window = part :: window → e ≠ .answer (.ok .malformed))
    (hfill : ∀ part, w.pc = .requeueLock part → e = .lock → ∀ q, part ≤ q → q < s.nextPart → q = part)
    (hrewind : ∀ part, w.pc = .rewinding part → e = .lock →
      ∀ q, minPart w.window part ≤ q → q < s.nextPart → q ∈ part :: w.window) :
    StepEven s w (step depth size s w e).1 (step depth size s w e).2 := by
  unfold step
  split
  · next hpc =>
    -- top of the loop
    split
    · next habort => exact Or.inl habort
    · exact even_keep (by rw [owed_again, Worker.owed, hpc])
  · next hpc =>
    -- a claim
    have howed : w.owed = w.window := by rw [Worker.owed, hpc]
    split
    · exact even_keep (by rw [owed_filled, howed])
    · exact even_claim howed
  · next part ok hpc =>
    -- a request goes out
    have howed : w.owed = part :: w.window := by rw [Worker.owed, hpc]
    split
    · exact even_keep (by rw [howed, owed_again]; exact (List.perm_append_singleton part w.window).symm)
    · exact even_backoff (by rw [howed]; exact List.Perm.refl _)
  · next part ok hpc =>
    -- a connection to put the part back on
    split
    · exact even_keep (by rw [Worker.owed, hpc]; exact List.Perm.refl _)
    · exact Or.inl rfl
  · next part hpc =>
    -- the part is put back
    have howed : w.owed = part :: w.window := by rw [Worker.owed, hpc]
    apply even_back
    · intro p
      rw [owed_filled, howed]
      exact List.count_le_count_cons
    · intro p hp
      rw [owed_filled, howed, List.count_cons_of_ne (by omega)]
    · intro p hge hlt
      obtain rfl := hfill part hpc rfl p hge hlt
      rw [owed_filled, howed, List.count_cons_self]
      exact Nat.lt_succ_self _
  · next result hpc =>
    -- an answer
    split
    · exact even_keep (List.Perm.refl _)
    · next part window hwindow =>
      exact even_answered hpc hwindow fun heq => hparses part window hpc hwindow (by rw [heq])
  · next part ok hpc =>
    -- the request again, after a flood wait
    split
    · exact even_keep (by rw [Worker.owed, hpc]; exact List.Perm.refl _)
    · exact Or.inl rfl
  · next part ok hpc =>
    -- a connection to start the window again on
    split
    · exact even_keep (by rw [Worker.owed, hpc]; exact List.Perm.refl _)
    · exact Or.inl rfl
  · next part hpc =>
    -- the window is given up
    have howed : w.owed = part :: w.window := by rw [Worker.owed, hpc]
    have hnone : ({ w with window := [], pc := .top } : Worker).owed = [] := rfl
    apply even_back
    · intro p
      rw [hnone, List.count_nil]
      exact Nat.zero_le _
    · intro p hp
      rw [hnone, List.count_nil, howed]
      exact (List.count_eq_zero.mpr fun hmem => absurd hp (Nat.not_lt.mpr (minPart_le hmem))).symm
    · intro p hge hlt
      rw [hnone, List.count_nil, howed]
      exact List.count_pos_iff.mpr (hrewind part hpc rfl p hge hlt)
  · exact even_keep (List.Perm.refl _)

theorem next_even {file : List UInt8} {c : Crew Shared Worker} (e : Nat × Event) (hserves : Serves file c e)
    (hown : OwnParts c e) (hc : c.shared.abort = true ∨ Even c) :
    (Crew.next (step depth file.length) c e).shared.abort = true ∨ Even (Crew.next (step depth file.length) c e) := by
  cases hw : c.workers[e.1]? with
  | none => rwa [Crew.next_none _ hw]
  | some w =>
    rw [Crew.next_some _ hw]
    rcases hc with habort | heven
    · refine Or.inl ?_
      rcases shared_cases depth file.length c.shared w e.2 with h | ⟨h, -⟩ | ⟨-, h⟩ | ⟨_, _, _, -, -, -, h⟩ | ⟨m, h⟩
      · rw [h]
        exact habort
      · rw [h]
      · rw [h]
        exact habort
      · rw [h]
        exact habort
      · rw [h]
        exact habort
    · have hstep : StepEven c.shared w (step depth file.length c.shared w e.2).1
          (step depth file.length c.shared w e.2).2 := by
        apply even_step
        · intro part window hpc hwindow he
          have hreply := served_of_serves hserves hw hpc hwindow he
          cases hreply
        · intro part hpc he
          obtain ⟨dc, n, window, pc⟩ := w
          obtain rfl : pc = .requeueLock part := hpc
          unfold OwnParts at hown
          rw [hw, he] at hown
          exact hown
        · intro part hpc he
          obtain ⟨dc, n, window, pc⟩ := w
          obtain rfl : pc = .rewinding part := hpc
          unfold OwnParts at hown
          rw [hw, he] at hown
          exact hown
      exact hstep.imp_right fun h => Crew.Balanced.set heven hw h

theorem start_even (workers : Nat) (dc : Int32) : Even (start workers dc) := by
  intro p
  have hnone : Crew.total (fun w : Worker => w.owed.count p) (start workers dc).workers = 0 := by
    apply Crew.total_eq_zero
    intro w hw
    obtain rfl := List.eq_of_mem_replicate hw
    rfl
  rw [hnone]
  rfl

/-! The end of a run. -/

theorem chunk_pos (size : Nat) : 0 < chunk size := by
  unfold chunk downloadChunkSize
  split <;> decide

/-- The writer counts the bytes of all the parts, and writes them one after another. -/
theorem written_eq (size : Nat) (sent : List (Nat × List UInt8)) :
    written size sent = ((sent.flatMap Prod.snd).length, writeAll 0 (chunk size) sent (List.replicate size 0)) := by
  induction sent using List.reverseRecOn with
  | nil => rfl
  | append_singleton sent m ih =>
    rw [written, List.foldl_append, ← written, ih, List.foldl_cons, List.foldl_nil, writeAll, writeAll,
      List.foldl_append, List.flatMap_append, List.flatMap_singleton, List.length_append]
    rfl

theorem done_owed (h : w.pc = .done) : w.owed = [] := by rw [Worker.owed, h]

theorem Owes.of_done {p : Nat} (h : w.pc = .done) : ¬ Owes s w p := by
  rintro (hfailed | hmem)
  · rw [h] at hfailed
    cases hfailed
  · rw [done_owed h] at hmem
    cases hmem

/-- Once all have finished, every part is with the writer. -/
theorem sent_of_done {file : List UInt8} {c : Crew Shared Worker} (hc : Inv file c)
    (hall : ∀ w ∈ c.workers, w.pc = .done) :
    c.shared.abort = false ∧ c.shared.nextPart = nParts file.length ∧
      ∀ p < nParts file.length, p ∈ c.shared.sent.map Prod.fst := by
  have hnofail : ¬ ∃ w ∈ c.workers, w.pc = .failed := by
    rintro ⟨w, hw, hfailed⟩
    rw [hall w hw] at hfailed
    cases hfailed
  have habort : c.shared.abort ≠ true := fun h => hnofail (hc.aborted h)
  have hend : nParts file.length ≤ c.shared.nextPart := (hc.attended.reached hall).resolve_left habort
  refine ⟨by simpa using habort, Nat.le_antisymm hc.bound hend, ?_⟩
  intro p hp
  have hsettled := hc.covered.settled (Nat.lt_of_lt_of_le hp hend) fun w hw => Owes.of_done (hall w hw)
  exact hsettled.resolve_left habort

/-- Once all have finished and each part is there once, the parts are those of the file. -/
theorem perm_of_even {size : Nat} {c : Crew Shared Worker} (hc : Even c) (hall : ∀ w ∈ c.workers, w.pc = .done)
    (hend : c.shared.nextPart = nParts size) : (c.shared.sent.map Prod.fst).Perm (List.range (nParts size)) := by
  apply List.perm_iff_count.mpr
  intro p
  have hnone : Crew.total (fun w : Worker => w.owed.count p) c.workers = 0 := by
    apply Crew.total_eq_zero
    intro w hw
    rw [done_owed (hall w hw)]
    rfl
  have heven := hc p
  rw [hnone, Nat.add_zero, sentCount, dueCount, hend] at heven
  rw [heven, List.nodup_range.count]
  simp only [List.mem_range]

/-- **The pipelined download.** From a server that answers with the file's bytes, in a run in
which no worker leaves as the last one because it could not enqueue a part: if `Ok(n)` is
returned, every part was sent to the writer with its bytes and what is on disk is the file.
Where moreover every rewind takes back only parts that the worker itself gives up, `n` is the
size. -/
theorem pipelinedDownload_complete (configured : Nat) (file : List UInt8) (workers : Nat) (dc : Int32)
    (events : List (Nat × Event)) (n : Nat) (disk : List UInt8)
    (hserves : Run.AllSteps (Crew.next (step (pipelineDepth configured) file.length)) (Serves file)
      (start (workers + 1) dc) events)
    (hlast : Run.AllSteps (Crew.next (step (pipelineDepth configured) file.length)) NotLast (start (workers + 1) dc) events)
    (h : returned file.length (run configured file.length (workers + 1) dc events) = some (n, disk)) :
    (∀ p < nParts file.length, (p, slice file (chunk file.length) p) ∈
      (run configured file.length (workers + 1) dc events).shared.sent) ∧
    disk = file ∧
    (Run.AllSteps (Crew.next (step (pipelineDepth configured) file.length)) OwnParts (start (workers + 1) dc) events →
      n = file.length) := by
  have hinv : Inv file (run configured file.length (workers + 1) dc events) :=
    Run.states_inv (I := Inv file) _ (fun _ e hgood hc => next_inv (pipelineDepth_pos configured) e hgood.1 hgood.2 hc)
      events _ (start_inv file workers dc) (Run.allSteps_and _ hserves hlast) _ (Run.final_mem_states _ events _)
  unfold returned at h
  split at h
  · next hall =>
    obtain ⟨habort, hend, hsent⟩ := sent_of_done hinv hall
    rw [written_eq] at h
    obtain ⟨rfl, rfl⟩ := Prod.mk.inj (Option.some.inj h)
    refine ⟨?_, ?_, ?_⟩
    · intro p hp
      obtain ⟨m, hm, rfl⟩ := List.mem_map.mp (hsent p hp)
      rw [← hinv.served m hm]
      exact hm
    · exact writeAll_eq (chunk_pos _) hinv.served List.length_replicate hsent
    · intro hown
      have heven := Run.states_inv (I := fun c => c.shared.abort = true ∨ Even c) _
        (fun _ e hgood hc => next_even e hgood.1 hgood.2 hc) events _ (Or.inr (start_even (workers + 1) dc))
        (Run.allSteps_and _ hserves hown) _ (Run.final_mem_states _ events _)
      rcases heven with habort' | heven
      · rw [run] at habort
        rw [habort] at habort'
        cases habort'
      · exact length_of_perm (chunk_pos _) hinv.served (perm_of_even heven hall hend)
  · cases h

/-- Two workers: the first cannot enqueue the part and leaves, and the second fetches it. -/
def handedOver : List (Nat × Event) :=
  [(0, .go), (0, .lock), (0, .enqueued false), (0, .connection true), (0, .lock), (1, .go), (1, .lock),
    (1, .enqueued true), (1, .answer (.ok (.file [1, 2, 3]))), (1, .go), (1, .lock)]

theorem handedOver_fetched : returned 3 (run 1 3 2 4 handedOver) = some (3, [1, 2, 3]) ∧
    (∀ p < nParts 3, (p, slice [1, 2, 3] (chunk 3) p) ∈ (run 1 3 2 4 handedOver).shared.sent) ∧
    3 = ([1, 2, 3] : List UInt8).length := by
  have hrun : returned 3 (run 1 3 2 4 handedOver) = some (3, [1, 2, 3]) := by decide
  have hall := pipelinedDownload_complete 1 [1, 2, 3] 1 4 handedOver 3 [1, 2, 3]
    ⟨trivial, trivial, trivial, trivial, trivial, trivial, trivial, trivial, rfl, trivial, trivial, trivial⟩
    ⟨trivial, trivial, trivial, trivial, ⟨1, ⟨4, 0, [], .top⟩, by decide, rfl, nofun⟩, trivial, trivial, trivial,
      trivial, trivial, trivial, trivial⟩ hrun
  refine ⟨hrun, hall.1, hall.2.2 ?_⟩
  exact ⟨trivial, trivial, trivial, trivial, fun q _ hq => Nat.lt_one_iff.mp hq, trivial, trivial, trivial, trivial,
    trivial, trivial, trivial⟩

def leftAlone : List (Nat × Event) :=
  [(0, .go), (0, .lock), (0, .enqueued false), (0, .connection true), (0, .lock)]

/-- A single worker that cannot enqueue the only part and gets another connection: it leaves,
`Ok(0)` is returned, and the file is all zeros. -/
theorem lastPart_lost :
    Run.AllSteps (Crew.next (step (pipelineDepth 1) 3)) (Serves [1, 2, 3]) (start 1 4) leftAlone ∧
    returned 3 (run 1 3 1 4 leftAlone) = some (0, [0, 0, 0]) :=
  ⟨⟨trivial, trivial, trivial, trivial, trivial, trivial⟩, by decide⟩

end Ferogram.Media.PipelinedDownload
