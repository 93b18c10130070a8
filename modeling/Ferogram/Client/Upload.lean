import Ferogram.Client.Parts

/- The parallel upload, `upload_concurrent` of `ferogram/src/media.rs`.

   The workers share the next part, the file id and the DC, which are read together under
   one lock; a redirect replaces all three. Each worker sends one part at a time on a
   connection of its own and goes on with the next when the server has acknowledged it. A
   step below is what a worker does between two points where it waits: for the lock, for a
   connection, for the handle, for an answer.

   The proof is the invariant `Crew.Covered`: under the file id and DC that are shared
   now, every part below the counter is acknowledged, or in the hands of a worker that
   sends it under just these. When all workers are done the counter is at the end
   (`Crew.Attended`), and what a finished worker owes is nothing. -/
namespace Ferogram.Media
open Chunks
open Mtsender (RpcError InvocationError)

/-- A part that the server has acknowledged. -/
structure Ack where
  fileId : Int64
  dc : Int32
  part : Nat
  bytes : List UInt8
  deriving DecidableEq

namespace Upload

/-- Where a worker waits: for the lock, for the first connection to a new DC, for the
handle to let it go on, for the answer, or for a connection to send the part again. -/
inductive Pc where
  | claiming
  | opening (part : Nat) (fileId : Int64)
  | pausing (part : Nat) (fileId : Int64)
  | sending (part : Nat) (fileId : Int64)
  | reopening (part : Nat) (fileId : Int64)
  | done
  | failed
  deriving DecidableEq

structure Worker where
  workerDc : Int32
  totalReconnects : Nat
  pc : Pc
  deriving DecidableEq

structure Shared where
  nextPart : Nat
  fileId : Int64
  uploadDc : Int32
  acks : List Ack
  deriving DecidableEq

/-- What a worker has waited for. A redirect draws the `fresh` file id. -/
inductive Event where
  | lock
  | connection (ok : Bool)
  | handle (ok : Bool)
  | answer (result : Except InvocationError Unit) (fresh : Int64)

section Step
variable (data : List UInt8)

def partSize : Nat := (uploadPartSize data.length).1
def totalParts : Nat := (uploadPartSize data.length).2

/-- Another connection to the worker's DC, unless there have been too many. -/
def reconnect (w : Worker) (part : Nat) (fileId : Int64) : Worker :=
  if maxWorkerReconnects ≤ w.totalReconnects + 1 then
    { w with totalReconnects := w.totalReconnects + 1, pc := .failed }
  else { w with totalReconnects := w.totalReconnects + 1, pc := .reopening part fileId }

/-- The part was refused. -/
def refused (s : Shared) (w : Worker) (part : Nat) (fileId : Int64) (err : InvocationError) (fresh : Int64) :
    Shared × Worker :=
  match err with
  | .rpc rpc =>
    if rpc.code = 420 then (s, w)
    else if rpc.code = 303 then
      ({ s with fileId := fresh, uploadDc := redirectDc rpc, nextPart := 0 },
        { w with workerDc := redirectDc rpc, pc := .reopening part fileId })
    else if rpc.name = "AUTH_KEY_UNREGISTERED" then (s, reconnect w part fileId)
    else if rpc.code ≠ -503 then (s, { w with pc := .failed })
    else (s, reconnect w part fileId)
  | _ => (s, reconnect w part fileId)

/-- The next part, with the file id and the DC it is claimed under. -/
def claim (s : Shared) (w : Worker) : Shared × Worker :=
  if totalParts data ≤ s.nextPart then (s, { w with pc := .done })
  else
    ({ s with nextPart := s.nextPart + 1 },
      if s.uploadDc ≠ w.workerDc then { w with workerDc := s.uploadDc, pc := .opening s.nextPart s.fileId }
      else { w with pc := .pausing s.nextPart s.fileId })

def step (s : Shared) (w : Worker) (e : Event) : Shared × Worker :=
  match w.pc, e with
  | .claiming, .lock => claim data s w
  | .opening part fileId, .connection ok => (s, { w with pc := if ok then .pausing part fileId else .failed })
  | .pausing part fileId, .handle ok => (s, { w with pc := if ok then .sending part fileId else .failed })
  | .sending part fileId, .answer (.ok ()) _ =>
    ({ s with acks := ⟨fileId, w.workerDc, part, slice data (partSize data) part⟩ :: s.acks },
      { w with pc := .claiming })
  | .sending part fileId, .answer (.error err) fresh => refused s w part fileId err fresh
  | .reopening part fileId, .connection ok => (s, { w with pc := if ok then .sending part fileId else .failed })
  | _, _ => (s, w)

end Step

/-- The workers on their connections to the home DC, before the first step. -/
def start (workers : Nat) (fileId : Int64) : Crew Shared Worker :=
  { shared := { nextPart := 0, fileId, uploadDc := 0, acks := [] }
    workers := List.replicate workers { workerDc := 0, totalReconnects := 0, pc := .claiming } }

/-- The steps of the workers, in any order. -/
def run (data : List UInt8) (workers : Nat) (fileId : Int64) (events : List (Nat × Event)) : Crew Shared Worker :=
  Run.final (Crew.next (step data)) (start workers fileId) events

/-- `Ok`, once every worker has returned without an error; no data is an error from the
start. -/
def returned (md5 : List UInt8 → String) (name : String) (data : List UInt8) (c : Crew Shared Worker) :
    Option InputFile :=
  if data ≠ [] ∧ ∀ w ∈ c.workers, w.pc = .done then
    some (toInputFile md5 (bigFileThreshold < data.length) c.shared.fileId (totalParts data) name data)
  else none

/-! What the workers owe. -/

/-- The part in the worker's hands, with the file id it is sent under. -/
def Pc.holds : Pc → Option (Nat × Int64)
  | .opening part fileId | .pausing part fileId | .sending part fileId | .reopening part fileId => some (part, fileId)
  | _ => none

/-- The part is acknowledged under the file id and DC shared now. -/
def Acked (data : List UInt8) (s : Shared) (p : Nat) : Prop :=
  ⟨s.fileId, s.uploadDc, p, slice data (partSize data) p⟩ ∈ s.acks

/-- The worker sends the part under the file id and DC shared now; one that has failed owes
everything, since the call returns its error. -/
def Owes (s : Shared) (w : Worker) (p : Nat) : Prop :=
  w.pc = .failed ∨ (w.workerDc = s.uploadDc ∧ w.pc.holds = some (p, s.fileId))

variable {data : List UInt8} {s : Shared} {w : Worker} {p : Nat}

theorem Owes.of_done (hpc : w.pc = .done) : ¬ Owes s w p := by
  unfold Owes
  rw [hpc]
  rintro (hfailed | ⟨-, hholds⟩)
  · cases hfailed
  · cases hholds

theorem Owes.of_claiming (hpc : w.pc = .claiming) : ¬ Owes s w p := by
  intro h
  rcases h with h | ⟨-, h⟩
  · rw [hpc] at h
    cases h
  · rw [hpc] at h
    cases h

/-- A worker that holds the same part for the same DC, or has failed. -/
theorem Owes.hold {w' : Worker} (h : Owes s w p) (hrun : w.pc ≠ .failed) (hdc : w'.workerDc = w.workerDc)
    (hpc : w'.pc = .failed ∨ w'.pc.holds = w.pc.holds) : Owes s w' p := by
  rcases h with h | ⟨hdc', hholds⟩
  · exact absurd h hrun
  · rcases hpc with hpc | hpc
    · exact Or.inl hpc
    · exact Or.inr ⟨hdc.trans hdc', hpc.trans hholds⟩

theorem reconnect_workerDc (w : Worker) (part : Nat) (fileId : Int64) : (reconnect w part fileId).workerDc = w.workerDc := by
  unfold reconnect
  split <;> rfl

theorem reconnect_pc (w : Worker) (part : Nat) (fileId : Int64) :
    (reconnect w part fileId).pc = .failed ∨ (reconnect w part fileId).pc = .reopening part fileId := by
  unfold reconnect
  split
  · exact Or.inl rfl
  · exact Or.inr rfl

theorem covers_reconnect {part : Nat} {fileId : Int64} (hpc : w.pc = .sending part fileId) :
    Crew.StepCovers Shared.nextPart (Acked data) Owes s w s (reconnect w part fileId) := by
  apply Crew.StepCovers.of_worker
  intro p h
  refine h.hold (by simp [hpc]) (reconnect_workerDc w part fileId) ?_
  rcases reconnect_pc w part fileId with h | h
  · exact Or.inl h
  · exact Or.inr (by rw [h, hpc]; rfl)

/-- What a refused part leaves. -/
theorem covers_refused {part : Nat} {fileId : Int64} (hpc : w.pc = .sending part fileId) (err : InvocationError)
    (fresh : Int64) :
    Crew.StepCovers Shared.nextPart (Acked data) Owes s w (refused s w part fileId err fresh).1
      (refused s w part fileId err fresh).2 := by
  have hagain : Crew.StepCovers Shared.nextPart (Acked data) Owes s w s (reconnect w part fileId) :=
    covers_reconnect hpc
  cases err with
  | rpc rpc =>
    rw [refused]
    split
    · exact Crew.StepCovers.of_worker fun _ h => h
    · split
      · exact Crew.StepCovers.of_zero rfl
      · split
        · exact hagain
        · split
          · exact Crew.StepCovers.of_worker fun _ _ => Or.inl rfl
          · exact hagain
  | _ => exact hagain

theorem covers_claim (hpc : w.pc = .claiming) :
    Crew.StepCovers Shared.nextPart (Acked data) Owes s w (claim data s w).1 (claim data s w).2 := by
  unfold claim
  split
  · exact Crew.StepCovers.of_worker fun _ h => absurd h (Owes.of_claiming hpc)
  · refine ⟨fun _ _ h => h, ?_, fun _ _ h => absurd h (Owes.of_claiming hpc), fun _ _ _ h => h⟩
    intro p hp hge
    obtain rfl : p = s.nextPart := Nat.le_antisymm (Nat.le_of_lt_succ hp) hge
    refine Or.inr (Or.inr ?_)
    split
    · exact ⟨rfl, rfl⟩
    · next hdc => exact ⟨(not_not.mp hdc).symm, rfl⟩

/-- The worker goes on with the part it holds, or fails. -/
theorem covers_wait {part : Nat} {fileId : Int64} {pc : Pc} (hpc : w.pc.holds = some (part, fileId))
    (hgo : pc.holds = some (part, fileId)) (ok : Bool) :
    Crew.StepCovers Shared.nextPart (Acked data) Owes s w s { w with pc := if ok then pc else .failed } := by
  apply Crew.StepCovers.of_worker
  intro p h
  refine h.hold ?_ rfl ?_
  · intro hfailed
    rw [hfailed] at hpc
    cases hpc
  · cases ok
    · exact Or.inl rfl
    · exact Or.inr (hgo.trans hpc.symm)

theorem covers_step (e : Event) :
    Crew.StepCovers Shared.nextPart (Acked data) Owes s w (step data s w e).1 (step data s w e).2 := by
  unfold step
  split
  · next hpc => exact covers_claim hpc
  · next part fileId ok hpc => exact covers_wait (by rw [hpc]; rfl) rfl ok
  · next part fileId ok hpc => exact covers_wait (by rw [hpc]; rfl) rfl ok
  · next part fileId fresh hpc =>
    refine ⟨fun _ _ h => List.mem_cons_of_mem _ h, fun _ hp hge => absurd hp (Nat.not_lt.mpr hge), ?_, fun _ _ _ h => h⟩
    intro p _ h
    rcases h with h | ⟨hdc, hholds⟩
    · rw [hpc] at h
      cases h
    · rw [hpc] at hholds
      obtain ⟨rfl, rfl⟩ := Prod.mk.inj (Option.some.inj hholds)
      refine Or.inl ?_
      rw [Acked, hdc]
      exact List.mem_cons_self ..
  · next part fileId err fresh hpc => exact covers_refused hpc err fresh
  · next part fileId ok hpc => exact covers_wait (by rw [hpc]; rfl) rfl ok
  · exact Crew.StepCovers.of_worker fun _ h => h

/-! When a worker is done. -/

/-- The counter is at the end. -/
def AtEnd (data : List UInt8) (s : Shared) : Prop := totalParts data ≤ s.nextPart

def IsDone (w : Worker) : Prop := w.pc = .done

theorem step_done (h : w.pc = .done) (e : Event) : step data s w e = (s, w) := by
  unfold step
  rw [h]

theorem refused_pc (part : Nat) (fileId : Int64) (err : InvocationError) (fresh : Int64)
    (h : (refused s w part fileId err fresh).2.pc = .done) : w.pc = .done := by
  have hagain : (reconnect w part fileId).pc ≠ .done := by
    rcases reconnect_pc w part fileId with h | h <;> rw [h] <;> nofun
  cases err with
  | rpc rpc =>
    rw [refused] at h
    split at h
    · exact h
    · split at h
      · cases h
      · split at h
        · exact absurd h hagain
        · split at h
          · cases h
          · exact absurd h hagain
  | _ => exact absurd h hagain

/-- A worker finishes only at the end. -/
theorem atEnd_of_done (hrun : w.pc ≠ .done) (e : Event) (h : (step data s w e).2.pc = .done) :
    AtEnd data (step data s w e).1 := by
  unfold step at h ⊢
  split at h
  · unfold claim at h ⊢
    split at h
    · next hend => rwa [if_pos hend]
    · split at h <;> cases h
  · next ok hpc => cases ok <;> cases h
  · next ok hpc => cases ok <;> cases h
  · cases h
  · next part fileId err fresh hpc => exact absurd (refused_pc part fileId err fresh h) hrun
  · next ok hpc => cases ok <;> cases h
  · exact absurd h hrun

/-! Whole runs. -/

/-- The invariant of a run. -/
structure Inv (data : List UInt8) (c : Crew Shared Worker) : Prop where
  covered : c.Covered Shared.nextPart (Acked data) Owes
  attended : c.Attended (AtEnd data) IsDone

theorem start_inv (workers : Nat) (fileId : Int64) : Inv data (start (workers + 1) fileId) where
  covered := fun _ hp => absurd hp (Nat.not_lt_zero _)
  attended := by
    refine Or.inr ⟨⟨0, 0, .claiming⟩, ?_, nofun⟩
    exact List.mem_replicate.mpr ⟨Nat.succ_ne_zero workers, rfl⟩

theorem next_inv {c : Crew Shared Worker} (hc : Inv data c) (e : Nat × Event) : Inv data (Crew.next (step data) c e) := by
  cases hw : c.workers[e.1]? with
  | none => rwa [Crew.next_none _ hw]
  | some w =>
    by_cases hdone : w.pc = .done
    · rwa [Crew.next_of_step_eq _ hw (step_done hdone e.2)]
    · rw [Crew.next_some _ hw]
      exact ⟨hc.covered.set hw (covers_step e.2), Crew.Attended.set hw fun h => Or.inl (atEnd_of_done hdone e.2 h)⟩

theorem run_inv (data : List UInt8) (workers : Nat) (fileId : Int64) (events : List (Nat × Event)) :
    Inv data (run data (workers + 1) fileId events) :=
  Run.states_inv_all (I := Inv data) (Crew.next (step data)) (fun _ e hc => next_inv hc e) events _
    (start_inv workers fileId) _ (Run.final_mem_states _ events _)

/-- **The parallel upload.** If it returns a file, every part is acknowledged with its slice of
the data under the file's id and on the DC stored last, and the slices make up the data. -/
theorem upload_complete (md5 : List UInt8 → String) (name : String) (data : List UInt8) (workers : Nat)
    (fileId : Int64) (events : List (Nat × Event)) (file : InputFile)
    (h : returned md5 name data (run data (workers + 1) fileId events) = some file) :
    (∀ p < totalParts data,
      ⟨file.id, (run data (workers + 1) fileId events).shared.uploadDc, p, slice data (partSize data) p⟩ ∈
        (run data (workers + 1) fileId events).shared.acks) ∧
    (List.range (totalParts data)).flatMap (slice data (partSize data)) = data := by
  have hinv := run_inv data workers fileId events
  refine ⟨?_, parts_flatten data (uploadPartSize_pos data.length)⟩
  intro p hp
  unfold returned at h
  split at h
  · next hreturned =>
    have hall := hreturned.2
    obtain rfl := Option.some.inj h
    rw [toInputFile_id]
    have hend : totalParts data ≤ _ := hinv.attended.reached hall
    exact hinv.covered.settled (Nat.lt_of_lt_of_le hp hend) fun w hw => Owes.of_done (hall w hw)
  · cases h

/-- Two workers: the first is redirected to DC 4, and the second takes the upload from the start
there, under the new file id. -/
def redirected : List (Nat × Event) :=
  [(0, .lock), (0, .handle true), (0, .answer (.error (.rpc ⟨303, "FILE_MIGRATE", some 4⟩)) 9), (1, .lock),
    (1, .connection true), (1, .handle true), (1, .answer (.ok ()) 0), (1, .lock), (0, .connection true),
    (0, .answer (.ok ()) 0), (0, .lock)]

theorem redirected_complete :
    returned (fun _ => "") "a.bin" [1, 2, 3] (run [1, 2, 3] 2 8 redirected) = some (.file 9 1 "a.bin" "") ∧
    ∀ p < totalParts [1, 2, 3],
      ⟨9, 4, p, slice [1, 2, 3] (partSize [1, 2, 3]) p⟩ ∈ (run [1, 2, 3] 2 8 redirected).shared.acks := by
  have hrun : returned (fun _ => "") "a.bin" [1, 2, 3] (run [1, 2, 3] 2 8 redirected) =
      some (.file 9 1 "a.bin" "") := by decide
  exact ⟨hrun, (upload_complete (fun _ => "") "a.bin" [1, 2, 3] 1 8 redirected (.file 9 1 "a.bin" "") hrun).1⟩

end Upload

end Ferogram.Media
