import Ferogram.Client.Resumable

/- How old an upload session is, to `upload_resumable` of `ferogram/src/client/files.rs`.

   Calls with the same data and name follow each other, each dropped where the next begins. The
   model keeps for every checkpoint the time of the call that drew its file id, which the code
   does not: it writes the time of the checkpoint that the call has found, also of one that it
   throws away, and without one the time of the write.

   What is proved: `uploadAge_timely`. Where no call that has thrown a checkpoint away writes one,
   and the others write their first ones in the millisecond of their start, the age of a file id
   is what decides. -/
namespace Ferogram.Media.UploadAge
open Resumable

/-- A call under way. When its file id was drawn, and whether it found a checkpoint that it did
not use. -/
structure Underway where
  upload : Upload
  createdMs : UInt64
  discarded : Bool

/-- `storedMs` is when the file id of the checkpoint that is there was drawn. -/
structure Timed where
  world : World
  storedMs : UInt64
  running : Option Underway

inductive Input where
  | call (readable : Bool) (nowMs : UInt64) (fresh : Int64)
  | event (e : Event)

/-- The reading of the clock for the checkpoint that is stored, if one is. -/
def stores (u : Upload) (e : Event) : Option UInt64 :=
  match u.phase, e with
  | .saving _, .saved .done nowMs => some nowMs
  | .failing _, .saved .done nowMs => some nowMs
  | _, _ => none

section
variable (env : Env) (data : List UInt8) (name : String)

def call (x : Timed) (readable : Bool) (nowMs : UInt64) (fresh : Int64) : Underway where
  upload := begin env data name x.world readable nowMs fresh
  createdMs := if (resumed env data name x.world readable nowMs).isSome then x.storedMs else nowMs
  discarded := (existing env data name x.world readable).isSome && (resumed env data name x.world readable nowMs).isNone

def timedNext (x : Timed) : Input → Timed
  | .call readable nowMs fresh => { x with running := some (call env data name x readable nowMs fresh) }
  | .event e =>
    match x.running with
    | none => x
    | some r =>
      { world := (step env data name x.world r.upload e).1
        storedMs := if (stores r.upload e).isSome then r.createdMs else x.storedMs
        running := some { r with upload := (step env data name x.world r.upload e).2 } }

/-- What a later call makes of the checkpoint: up to the age it goes on from it, and from then on
it starts again. -/
structure Decides (s : World) (cp : UploadCheckpoint) (createdMs nowMs : UInt64) (fresh : Int64) : Prop where
  young : nowMs.toNat - createdMs.toNat < uploadSessionTtlMs.toNat →
    (begin env data name s true nowMs fresh).fileId = cp.fileId ∧
      (begin env data name s true nowMs fresh).startPart = (cp.lastPart + 1).toNat
  old : uploadSessionTtlMs.toNat ≤ nowMs.toNat - createdMs.toNat →
    (begin env data name s true nowMs fresh).fileId = fresh ∧ (begin env data name s true nowMs fresh).startPart = 0

/-- The checkpoint that is there has the time at which its file id was drawn, and that time decides. -/
def Timely (x : Timed) : Prop :=
  ∀ cp, x.world.checkpoints (uploadKey env data name) = some cp →
    cp.startedMs = x.storedMs ∧ ∀ nowMs fresh, Decides env data name x.world cp x.storedMs nowMs fresh

/-- A checkpoint is stored by a call that has thrown none away, and that has gone on from one or
was started at this time. -/
def Punctual (x : Timed) : Input → Prop
  | .call _ _ _ => True
  | .event e => ∀ r, x.running = some r → ∀ nowMs, stores r.upload e = some nowMs →
      r.discarded = false ∧ (r.upload.startedMs = none → nowMs = r.createdMs)

/-- What holds while all are punctual. -/
structure Kept (x : Timed) : Prop where
  stored : ∀ cp, x.world.checkpoints (uploadKey env data name) = some cp →
    cp.startedMs = x.storedMs ∧ cp.totalParts = totalParts data ∧ cp.partSize = partSize data
  running : ∀ r, x.running = some r → r.discarded = false →
    ∀ startedMs, r.upload.startedMs = some startedMs → startedMs = r.createdMs

end

variable {env : Env} {data : List UInt8} {name : String}

/-- Of a checkpoint for the same data, the age decides. -/
theorem usable_iff {cp : UploadCheckpoint} (htotal : cp.totalParts = totalParts data) (hsize : cp.partSize = partSize data)
    (nowMs : UInt64) :
    usable data nowMs cp = true ↔ nowMs.toNat - cp.startedMs.toNat < uploadSessionTtlMs.toNat := by
  unfold usable
  simp only [htotal, hsize, and_true, decide_eq_true_eq]
  split
  · next hlt =>
    rw [UInt64.lt_iff_toNat_lt] at hlt
    rw [Nat.sub_eq_zero_of_le (Nat.le_of_lt hlt)]
    exact UInt64.lt_iff_toNat_lt
  · next hle =>
    have hle' : cp.startedMs ≤ nowMs := UInt64.not_lt.mp hle
    rw [UInt64.lt_iff_toNat_lt, UInt64.toNat_sub_of_le _ _ hle']

theorem existing_readable {s : World} {cp : UploadCheckpoint} (h : s.checkpoints (uploadKey env data name) = some cp) :
    existing env data name s true = some cp := h

/-- What a call begins with, if it finds a checkpoint. -/
theorem begin_resumed {s : World} {cp : UploadCheckpoint} {readable : Bool} {nowMs : UInt64}
    (h : resumed env data name s readable nowMs = some cp) (fresh : Int64) :
    (begin env data name s readable nowMs fresh).fileId = cp.fileId ∧
      (begin env data name s readable nowMs fresh).startPart = (cp.lastPart + 1).toNat := by
  unfold begin
  rw [h]
  exact ⟨rfl, rfl⟩

theorem begin_fresh {s : World} {readable : Bool} {nowMs : UInt64} (h : resumed env data name s readable nowMs = none)
    (fresh : Int64) : (begin env data name s readable nowMs fresh).fileId = fresh ∧
      (begin env data name s readable nowMs fresh).startPart = 0 := by
  unfold begin
  rw [h]
  exact ⟨rfl, rfl⟩

theorem begin_startedMs (s : World) (readable : Bool) (nowMs : UInt64) (fresh : Int64) :
    (begin env data name s readable nowMs fresh).startedMs =
      (existing env data name s readable).map UploadCheckpoint.startedMs := by
  unfold begin
  cases resumed env data name s readable nowMs <;> rfl

theorem Kept.timely {x : Timed} (h : Kept env data name x) : Timely env data name x := by
  intro cp hcp
  obtain ⟨hstarted, htotal, hsize⟩ := h.stored cp hcp
  refine ⟨hstarted, fun nowMs fresh => ?_⟩
  have husable := usable_iff htotal hsize nowMs
  rw [hstarted] at husable
  have hresumed : resumed env data name x.world true nowMs = if usable data nowMs cp then some cp else none := by
    rw [resumed, existing_readable hcp, Option.filter_some]
  constructor
  · intro hyoung
    rw [if_pos (husable.mpr hyoung)] at hresumed
    exact begin_resumed hresumed fresh
  · intro hold
    rw [if_neg (fun hus => Nat.not_lt.mpr hold (husable.mp hus))] at hresumed
    exact begin_fresh hresumed fresh

/-! A step. -/

theorem step_startedMs (s : World) (u : Upload) (e : Event) : (step env data name s u e).2.startedMs = u.startedMs := by
  unfold step
  split <;> rfl

theorem setCheckpoint_self (s : World) (cp : Option UploadCheckpoint) :
    (setCheckpoint env data name s cp).checkpoints (uploadKey env data name) = cp := if_pos rfl

/-- The checkpoint that a step stores. -/
theorem checkpoint_stored {u : Upload} {e : Event} {nowMs : UInt64} (h : stores u e = some nowMs) (s : World) :
    (step env data name s u e).1.checkpoints (uploadKey env data name) = some (checkpoint env data name u nowMs) := by
  unfold stores at h
  split at h
  · next hphase =>
    obtain rfl := Option.some.inj h
    unfold step
    rw [hphase]
    exact setCheckpoint_self s _
  · next hphase =>
    obtain rfl := Option.some.inj h
    unfold step
    rw [hphase]
    exact setCheckpoint_self s _
  · cases h

theorem checkpoint_deleted {s : World} {ok : Bool} {cp : UploadCheckpoint}
    (h : (deleteUpload env data name s ok).checkpoints (uploadKey env data name) = some cp) :
    s.checkpoints (uploadKey env data name) = some cp := by
  cases ok with
  | false => exact h
  | true =>
    rw [deleteUpload, if_pos rfl, setCheckpoint_self] at h
    cases h

/-- A write that is not done. -/
theorem checkpoint_unsaved {s : World} {write : Write} {cp cp' : UploadCheckpoint} (hwrite : write ≠ .done)
    (h : (saveUpload env data name s cp' write).checkpoints (uploadKey env data name) = some cp) :
    s.checkpoints (uploadKey env data name) = some cp := by
  cases write with
  | done => exact absurd rfl hwrite
  | refused => exact h
  | cutOff =>
    rw [saveUpload, setCheckpoint_self] at h
    cases h

/-- Where a step stores none, one that is there was there before. -/
theorem checkpoint_kept {s : World} {u : Upload} {e : Event} {cp : UploadCheckpoint} (hstores : stores u e = none)
    (h : (step env data name s u e).1.checkpoints (uploadKey env data name) = some cp) :
    s.checkpoints (uploadKey env data name) = some cp := by
  unfold step at h
  split at h
  · exact checkpoint_deleted h
  · exact h
  · exact h
  · exact h
  · exact h
  · next hphase =>
    refine checkpoint_unsaved ?_ h
    rintro rfl
    simp [stores, hphase] at hstores
  · next hphase =>
    refine checkpoint_unsaved ?_ h
    rintro rfl
    simp [stores, hphase] at hstores
  · exact checkpoint_deleted h
  · exact h

/-- The start of a call. -/
theorem Kept.call {x : Timed} (h : Kept env data name x) (readable : Bool) (nowMs : UInt64) (fresh : Int64) :
    Kept env data name (timedNext env data name x (.call readable nowMs fresh)) := by
  refine ⟨h.stored, fun r hr hdiscarded startedMs hstarted => ?_⟩
  obtain rfl : UploadAge.call env data name x readable nowMs fresh = r := Option.some.inj hr
  rw [UploadAge.call] at hdiscarded hstarted ⊢
  dsimp only at hdiscarded hstarted ⊢
  rw [begin_startedMs] at hstarted
  obtain ⟨cp, hexisting, rfl⟩ := Option.map_eq_some_iff.mp hstarted
  -- the checkpoint was found, and so it is the one that the call goes on from
  rw [hexisting] at hdiscarded
  cases hresumed : resumed env data name x.world readable nowMs with
  | none =>
    rw [hresumed] at hdiscarded
    cases hdiscarded
  | some cp' =>
    obtain rfl : cp' = cp := by
      rw [resumed, hexisting] at hresumed
      exact (Option.some.inj (Option.filter_eq_some_iff.mp hresumed).1).symm
    exact (h.stored cp' (found_of_resumed hresumed)).1

theorem Kept.event {x : Timed} (h : Kept env data name x) (e : Event) (hpunctual : Punctual x (.event e)) :
    Kept env data name (timedNext env data name x (.event e)) := by
  cases hrunning : x.running with
  | none =>
    have hnext : timedNext env data name x (.event e) = x := by
      unfold timedNext
      rw [hrunning]
    rwa [hnext]
  | some r =>
    have hnext : timedNext env data name x (.event e) =
        { world := (step env data name x.world r.upload e).1
          storedMs := if (stores r.upload e).isSome then r.createdMs else x.storedMs
          running := some { r with upload := (step env data name x.world r.upload e).2 } } := by
      unfold timedNext
      rw [hrunning]
    rw [hnext]
    refine ⟨fun cp hcp => ?_, fun r' hr' hdiscarded startedMs hstarted => ?_⟩
    · cases hstores : stores r.upload e with
      | none => exact h.stored cp (checkpoint_kept hstores hcp)
      | some nowMs =>
        obtain rfl : checkpoint env data name r.upload nowMs = cp :=
          Option.some.inj ((checkpoint_stored hstores x.world).symm.trans hcp)
        refine ⟨?_, rfl, rfl⟩
        obtain ⟨hdiscarded, htime⟩ := hpunctual r hrunning nowMs hstores
        change r.upload.startedMs.getD nowMs = r.createdMs
        cases hstarted : r.upload.startedMs with
        | none => exact htime hstarted
        | some startedMs => exact h.running r hrunning hdiscarded startedMs hstarted
    · obtain rfl := Option.some.inj hr'
      dsimp only at hdiscarded hstarted ⊢
      rw [step_startedMs] at hstarted
      exact h.running r hrunning hdiscarded startedMs hstarted

/-- **The age of an upload session.** In every run of calls in which checkpoints are stored
punctually, the one that is there has the time of the call that drew its file id, and a later
call goes on from it exactly while the file id is young. -/
theorem uploadAge_timely (env : Env) (data : List UInt8) (name : String) (s : World)
    (hnone : s.checkpoints (uploadKey env data name) = none) (inputs : List Input)
    (hpunctual : Run.AllSteps (timedNext env data name) Punctual { world := s, storedMs := 0, running := none } inputs) :
    ∀ x ∈ Run.states (timedNext env data name) { world := s, storedMs := 0, running := none } inputs,
      Timely env data name x := by
  have hstart : Kept env data name { world := s, storedMs := 0, running := none } := by
    refine ⟨fun cp hcp => ?_, nofun⟩
    cases hnone.symm.trans hcp
  intro x hx
  refine Kept.timely (Run.states_inv (timedNext env data name) ?_ inputs _ hstart hpunctual x hx)
  intro x i hi h
  cases i with
  | call readable nowMs fresh => exact h.call readable nowMs fresh
  | event e => exact h.event e hi

/-! A file of two bytes, one part. -/

/-- A digest that is always the same. -/
def oneKey : Env where
  sha256 _ := ""
  resolveMime _ := "application/octet-stream"
  md5 _ := ""

/-- A call that stores a checkpoint behind its part, at the time `savedMs`, and is dropped. -/
def dropped (nowMs savedMs : UInt64) (fresh : Int64) : List Input :=
  [.call true nowMs fresh, .event (.handle (.ok ())), .event (.answer (.ok ())), .event (.saved .done savedMs)]

/-- The same behind an expired checkpoint, which has to be deleted first. -/
def droppedAfter (nowMs savedMs : UInt64) (fresh : Int64) : List Input :=
  [.call true nowMs fresh, .event (.deleted true), .event (.handle (.ok ())), .event (.answer (.ok ())),
    .event (.saved .done savedMs)]

/-- One punctual call. -/
theorem dropped_timely : Timely oneKey [1, 2] "a"
    (Run.final (timedNext oneKey [1, 2] "a") { world := .new, storedMs := 0, running := none } (dropped 1000 1000 7)) := by
  refine uploadAge_timely oneKey [1, 2] "a" .new rfl (dropped 1000 1000 7) ?_ _ (Run.final_mem_states _ _ _)
  refine ⟨trivial, ?_, ?_, ?_, trivial⟩
  · intro r hr nowMs h
    obtain rfl := Option.some.inj hr
    cases h
  · intro r hr nowMs h
    obtain rfl := Option.some.inj hr
    cases h
  · intro r hr nowMs h
    obtain rfl := Option.some.inj hr
    obtain rfl := Option.some.inj h
    exact ⟨rfl, fun _ => rfl⟩

/-- The reading of the clock in an input. -/
def reading : Input → Option UInt64
  | .call _ nowMs _ => some nowMs
  | .event (.saved _ nowMs) => some nowMs
  | .event _ => none

/-- The second call throws the expired checkpoint of the first away, and writes its time for the
new file id. -/
theorem expired_time_kept : ¬ ∀ (env : Env) (data : List UInt8) (name : String) (s : World) (inputs : List Input),
    s.checkpoints (uploadKey env data name) = none → (inputs.filterMap reading).Pairwise (· ≤ ·) →
    ∀ x ∈ Run.states (timedNext env data name) { world := s, storedMs := 0, running := none } inputs,
      Timely env data name x := by
  intro h
  have hlast := h oneKey [1, 2] "a" .new (dropped 1000 1000 7 ++ droppedAfter 3301000 3301000 8) rfl (by decide) _
    (Run.final_mem_states _ _ _)
  obtain ⟨hstarted, -⟩ := hlast _ rfl
  exact absurd hstarted (by decide)

end Ferogram.Media.UploadAge
