import Ferogram.Client.Parts
import Ferogram.Lib.Run

/- The resumable upload, `upload_resumable` of `ferogram/src/client/files.rs`, with the
   checkpoints of `ferogram/src/resume.rs`.

   A checkpoint names the file id of an upload and the last part that the server has
   acknowledged; a later upload that finds it goes on from there. It is found by a digest of
   the name and the first 64 KB, and compared by the size and number of the parts. A step
   below is what an upload does between two points where it waits, and an upload may be
   dropped at each of them: then the steps end. Files may fail to be written, read or
   deleted, and a write that is cut off leaves a file that cannot be read.

   What is proved: `resumable_exact`. The parts that an upload skips are those of the data
   the checkpoint was made for (`Own`). -/
namespace Ferogram.Media
open Chunks
open Mtsender (InvocationError)

namespace Resumable

/-- `UploadCheckpoint`. -/
structure UploadCheckpoint where
  key : String
  fileId : Int64
  lastPart : Int
  totalParts : Nat
  partSize : Nat
  total : Nat
  big : Bool
  name : String
  mimeType : String
  startedMs : UInt64
  deriving DecidableEq

/-- A part the server has acknowledged. -/
structure Acked where
  fileId : Int64
  part : Nat
  bytes : List UInt8
  deriving DecidableEq

/-- The directory of the checkpoints, and what the server has acknowledged, the last first. -/
structure World where
  checkpoints : String → Option UploadCheckpoint
  acks : List Acked

/-- What the server has last acknowledged for a part. -/
def World.lastAck (s : World) (fileId : Int64) (part : Nat) : Option (List UInt8) :=
  (s.acks.find? fun a => a.fileId = fileId ∧ a.part = part).map Acked.bytes

/-- `sha256!` in hexadecimal, `resolve_mime` without a type of its own, and the digest of
`to_input_file`. -/
structure Env where
  sha256 : List UInt8 → String
  resolveMime : String → String
  md5 : List UInt8 → String

/-- `UPLOAD_SESSION_TTL_MS`. -/
def uploadSessionTtlMs : UInt64 := 55 * 60 * 1000

inductive Phase where
  | clearing
  | polling (part : Nat)
  | sending (part attempt : Nat)
  | saving (part : Nat)
  | failing (err : InvocationError)
  | purging
  | returned (result : Except InvocationError InputFile)

structure Upload where
  fileId : Int64
  startPart : Nat
  mimeType : String
  /-- Of the checkpoint that was there. -/
  startedMs : Option UInt64
  lastGoodPart : Int
  phase : Phase

inductive Write where
  | done
  | refused
  | cutOff

/-- What an upload has waited for. -/
inductive Event where
  | deleted (ok : Bool)
  | handle (result : Except InvocationError Unit)
  | answer (result : Except InvocationError Unit)
  | saved (write : Write) (nowMs : UInt64)

section Step
variable (env : Env) (data : List UInt8) (name : String)

def partSize : Nat := (uploadPartSize data.length).1
def totalParts : Nat := (uploadPartSize data.length).2

/-- `upload_key`. -/
def uploadKey : String := env.sha256 (data.take 65536 ++ name.toUTF8.toList)

/-- The checkpoint is younger than an hour and of the same geometry. -/
def usable (nowMs : UInt64) (cp : UploadCheckpoint) : Bool :=
  (if nowMs < cp.startedMs then 0 else nowMs - cp.startedMs) < uploadSessionTtlMs ∧
    cp.totalParts = totalParts data ∧ cp.partSize = partSize data

/-- The checkpoint that is there, if its file can be read. -/
def existing (s : World) (readable : Bool) : Option UploadCheckpoint :=
  if readable then s.checkpoints (uploadKey env data name) else none

/-- The checkpoint that the upload goes on from. -/
def resumed (s : World) (readable : Bool) (nowMs : UInt64) : Option UploadCheckpoint :=
  (existing env data name s readable).filter (usable data nowMs)

/-- The next part, or the end. -/
def continueAt (part : Nat) : Phase := if part < totalParts data then .polling part else .purging

/-- Up to the first wait; `fresh` is the file id that is drawn. -/
def begin (s : World) (readable : Bool) (nowMs : UInt64) (fresh : Int64) : Upload :=
  let found := existing env data name s readable
  match resumed env data name s readable nowMs with
  | some cp =>
    { fileId := cp.fileId
      startPart := (cp.lastPart + 1).toNat
      mimeType := if cp.mimeType = "" then env.resolveMime name else cp.mimeType
      startedMs := found.map UploadCheckpoint.startedMs
      lastGoodPart := (cp.lastPart + 1).toNat - 1
      phase := if data = [] then .returned (.error (.deserialize "cannot upload empty file"))
        else continueAt data (cp.lastPart + 1).toNat }
  | none =>
    { fileId := fresh
      startPart := 0
      mimeType := env.resolveMime name
      startedMs := found.map UploadCheckpoint.startedMs
      lastGoodPart := -1
      phase := if data = [] then .returned (.error (.deserialize "cannot upload empty file"))
        else if found = none then continueAt data 0 else .clearing }

def checkpoint (u : Upload) (nowMs : UInt64) : UploadCheckpoint where
  key := uploadKey env data name
  fileId := u.fileId
  lastPart := u.lastGoodPart
  totalParts := totalParts data
  partSize := partSize data
  total := data.length
  big := bigFileThreshold < data.length
  name := name
  mimeType := u.mimeType
  startedMs := u.startedMs.getD nowMs

def setCheckpoint (s : World) (cp : Option UploadCheckpoint) : World :=
  { s with checkpoints := fun key => if key = uploadKey env data name then cp else s.checkpoints key }

def deleteUpload (s : World) (ok : Bool) : World := if ok then setCheckpoint env data name s none else s

def saveUpload (s : World) (cp : UploadCheckpoint) : Write → World
  | .done => setCheckpoint env data name s (some cp)
  | .refused => s
  | .cutOff => setCheckpoint env data name s none

def step (s : World) (u : Upload) (e : Event) : World × Upload :=
  match u.phase, e with
  | .clearing, .deleted ok => (deleteUpload env data name s ok, { u with phase := continueAt data 0 })
  | .polling part, .handle (.ok ()) => (s, { u with phase := .sending part 0 })
  | .polling _, .handle (.error err) => (s, { u with phase := .returned (.error err) })
  | .sending part _, .answer (.ok ()) =>
    ({ s with acks := ⟨u.fileId, part, slice data (partSize data) part⟩ :: s.acks },
      { u with
        lastGoodPart := part
        phase := if part % 10 = 0 then .saving part else continueAt data (part + 1) })
  | .sending part attempt, .answer (.error err) =>
    (s, { u with phase := if attempt < 5 then .sending part (attempt + 1) else .failing err })
  | .saving part, .saved write nowMs =>
    (saveUpload env data name s (checkpoint env data name u nowMs) write, { u with phase := continueAt data (part + 1) })
  | .failing err, .saved write nowMs =>
    (saveUpload env data name s (checkpoint env data name u nowMs) write, { u with phase := .returned (.error err) })
  | .purging, .deleted ok =>
    (deleteUpload env data name s ok,
      { u with phase := .returned (.ok (toInputFile env.md5 (bigFileThreshold < data.length) u.fileId (totalParts data) name data)) })
  | _, _ => (s, u)

/-- One call, up to its end or to where it is dropped. -/
structure Attempt where
  readable : Bool
  nowMs : UInt64
  fresh : Int64
  events : List Event

def attempt (s : World) (a : Attempt) : World × Upload :=
  Run.final (fun x e => step env data name x.1 x.2 e) (s, begin env data name s a.readable a.nowMs a.fresh) a.events

/-- Calls with the same data and name, one after another. -/
def attempts (s : World) (as : List Attempt) : World := as.foldl (fun s a => (attempt env data name s a).1) s

end Step

/-! One upload. -/

theorem lastAck_cons (s : World) (fileId : Int64) (part : Nat) (bytes : List UInt8) (f : Int64) (p : Nat) :
    World.lastAck { s with acks := ⟨fileId, part, bytes⟩ :: s.acks } f p =
      if fileId = f ∧ part = p then some bytes else s.lastAck f p := by
  unfold World.lastAck
  rw [List.find?_cons]
  by_cases h : fileId = f ∧ part = p
  · rw [if_pos h, decide_eq_true h]
    rfl
  · rw [if_neg h, decide_eq_false h]

variable {env : Env} {data : List UInt8} {name : String}

theorem lastAck_deleteUpload (s : World) (ok : Bool) (f : Int64) (p : Nat) :
    (deleteUpload env data name s ok).lastAck f p = s.lastAck f p := by
  cases ok <;> rfl

theorem lastAck_saveUpload (s : World) (cp : UploadCheckpoint) (write : Write) (f : Int64) (p : Nat) :
    (saveUpload env data name s cp write).lastAck f p = s.lastAck f p := by
  cases write <;> rfl

/-- The part that comes next. -/
def Phase.upTo : Phase → Option Nat
  | .clearing => some 0
  | .polling part | .sending part _ => some part
  | .saving part => some (part + 1)
  | _ => none

/-- What the upload has sent since it began in `s₀`, and what it has skipped. -/
structure Sent (data : List UInt8) (s₀ s : World) (u : Upload) : Prop where
  skipped : ∀ p < u.startPart, s.lastAck u.fileId p = s₀.lastAck u.fileId p
  sent : ∀ p, u.startPart ≤ p → (p : Int) ≤ u.lastGoodPart → s.lastAck u.fileId p = some (slice data (partSize data) p)
  start : (u.startPart : Int) ≤ u.lastGoodPart + 1
  next : ∀ p, u.phase.upTo = some p → u.lastGoodPart + 1 = p
  complete : u.phase = .purging ∨ (∃ file, u.phase = .returned (.ok file)) → (totalParts data : Int) ≤ u.lastGoodPart + 1
  file : ∀ file, u.phase = .returned (.ok file) → file.id = u.fileId

section Step
variable {s₀ s : World} {u : Upload}

/-- The acknowledgements and the part reached stay as they are. -/
theorem Sent.stay (h : Sent data s₀ s u) {s' : World} {phase : Phase} (hacks : ∀ f p, s'.lastAck f p = s.lastAck f p)
    (hnext : ∀ p, phase.upTo = some p → u.lastGoodPart + 1 = p)
    (hcomplete : phase = .purging ∨ (∃ file, phase = .returned (.ok file)) → (totalParts data : Int) ≤ u.lastGoodPart + 1)
    (hfile : ∀ file, phase = .returned (.ok file) → file.id = u.fileId) : Sent data s₀ s' { u with phase } where
  skipped := fun p hp => (hacks u.fileId p).trans (h.skipped p hp)
  sent := fun p hp hle => (hacks u.fileId p).trans (h.sent p hp hle)
  start := h.start
  next := hnext
  complete := hcomplete
  file := hfile

theorem continueAt_upTo {part p : Nat} (h : (continueAt data part).upTo = some p) : p = part := by
  unfold continueAt at h
  split at h
  · exact (Option.some.inj h).symm
  · cases h

theorem continueAt_complete {part : Nat}
    (h : continueAt data part = .purging ∨ ∃ file, continueAt data part = .returned (.ok file)) : totalParts data ≤ part := by
  unfold continueAt at h
  split at h
  · rcases h with h | ⟨file, h⟩ <;> cases h
  · next hlt => exact Nat.le_of_not_lt hlt

theorem continueAt_file {part : Nat} {file : InputFile} (h : continueAt data part = .returned (.ok file)) : False := by
  unfold continueAt at h
  split at h <;> cases h

theorem Sent.continue (h : Sent data s₀ s u) {s' : World} {part : Nat} (hacks : ∀ f p, s'.lastAck f p = s.lastAck f p)
    (hpart : u.lastGoodPart + 1 = part) : Sent data s₀ s' { u with phase := continueAt data part } := by
  refine h.stay hacks ?_ ?_ fun file hfile => (continueAt_file hfile).elim
  · intro p hp
    rw [hpart, continueAt_upTo hp]
  · intro hdone
    rw [hpart]
    exact Int.ofNat_le.mpr (continueAt_complete hdone)

/-- A part is acknowledged. -/
theorem Sent.acknowledged {part n : Nat} (h : Sent data s₀ s u) (hphase : u.phase = .sending part n) :
    Sent data s₀ { s with acks := ⟨u.fileId, part, slice data (partSize data) part⟩ :: s.acks }
      { u with
        lastGoodPart := part
        phase := if part % 10 = 0 then .saving part else continueAt data (part + 1) } := by
  have hnext : u.lastGoodPart + 1 = part := h.next part (by rw [hphase]; rfl)
  have hstart := h.start
  refine ⟨?_, ?_, ?_, ?_, ?_, ?_⟩
  · -- what was skipped has no answer still
    intro p hp
    dsimp only at hp ⊢
    rw [lastAck_cons, if_neg (by omega)]
    exact h.skipped p hp
  · -- what was sent, with this part
    intro p hp hle
    dsimp only at hp hle ⊢
    rw [lastAck_cons]
    split
    · next heq => rw [heq.2]
    · next hne =>
      have hother : part ≠ p := fun heq => hne ⟨rfl, heq⟩
      exact h.sent p hp (by omega)
  · dsimp only
    omega
  · -- what comes next
    intro p hp
    dsimp only at hp ⊢
    split at hp
    · obtain rfl : part + 1 = p := Option.some.inj hp
      omega
    · rw [continueAt_upTo hp]
      omega
  · intro hdone
    dsimp only at hdone ⊢
    split at hdone
    · rcases hdone with hdone | ⟨file, hdone⟩ <;> cases hdone
    · have hle := continueAt_complete hdone
      omega
  · intro file hfile
    dsimp only at hfile
    split at hfile
    · cases hfile
    · exact (continueAt_file hfile).elim

theorem step_sent (h : Sent data s₀ s u) (e : Event) :
    Sent data s₀ (step env data name s u e).1 (step env data name s u e).2 := by
  have hnone : ∀ {err : InvocationError}, Sent data s₀ s { u with phase := .returned (.error err) } := fun {err} =>
    h.stay (fun _ _ => rfl) nofun (fun hdone => by rcases hdone with hdone | ⟨_, hdone⟩ <;> cases hdone) nofun
  unfold step
  split
  · next ok hphase =>
    exact h.continue (lastAck_deleteUpload s ok) (h.next 0 (by rw [hphase]; rfl))
  · next part hphase =>
    refine h.stay (fun _ _ => rfl) ?_ (fun hdone => by rcases hdone with hdone | ⟨_, hdone⟩ <;> cases hdone) nofun
    intro p hp
    exact h.next p (by rw [hphase]; exact hp)
  · exact hnone
  · next part n hphase => exact h.acknowledged hphase
  · next part n err hphase =>
    refine h.stay (fun _ _ => rfl) ?_ ?_ ?_
    · intro p hp
      split at hp
      · exact h.next p (by rw [hphase]; exact hp)
      · cases hp
    · intro hdone
      split at hdone <;> rcases hdone with hdone | ⟨_, hdone⟩ <;> cases hdone
    · intro file hfile
      split at hfile <;> cases hfile
  · next part write nowMs hphase =>
    exact h.continue (lastAck_saveUpload s _ write) (h.next (part + 1) (by rw [hphase]; rfl))
  · next err write nowMs hphase =>
    refine h.stay (lastAck_saveUpload s _ write) nofun ?_ nofun
    intro hdone
    rcases hdone with hdone | ⟨_, hdone⟩ <;> cases hdone
  · next ok hphase =>
    refine h.stay (lastAck_deleteUpload s ok) nofun (fun _ => h.complete (Or.inl hphase)) ?_
    intro file hfile
    cases hfile
    exact toInputFile_id ..
  · exact h

end Step

/-! Whole calls. -/

theorem Sent.init {u : Upload} (s : World) (hlast : u.lastGoodPart + 1 = u.startPart)
    (hphase : (∃ err, u.phase = .returned (.error err)) ∨ u.phase = continueAt data u.startPart ∨
      (u.phase = .clearing ∧ u.startPart = 0)) : Sent data s s u := by
  refine ⟨fun _ _ => rfl, fun p hp hle => by omega, by omega, ?_, ?_, ?_⟩
  · intro p hp
    rcases hphase with ⟨err, h⟩ | h | ⟨h, hzero⟩ <;> rw [h] at hp
    · cases hp
    · rw [hlast, continueAt_upTo hp]
    · rw [hlast, hzero, ← Option.some.inj hp]
  · intro hdone
    rcases hphase with ⟨err, h⟩ | h | ⟨h, -⟩ <;> rw [h] at hdone
    · rcases hdone with hdone | ⟨file, hdone⟩ <;> cases hdone
    · have hle := continueAt_complete hdone
      omega
    · rcases hdone with hdone | ⟨file, hdone⟩ <;> cases hdone
  · intro file hfile
    rcases hphase with ⟨err, h⟩ | h | ⟨h, -⟩ <;> rw [h] at hfile
    · cases hfile
    · exact (continueAt_file hfile).elim
    · cases hfile

theorem begin_sent (s : World) (readable : Bool) (nowMs : UInt64) (fresh : Int64) :
    Sent data s s (begin env data name s readable nowMs fresh) := by
  unfold begin
  dsimp only
  split
  · apply Sent.init
    · dsimp only
      omega
    · dsimp only
      split
      · exact Or.inl ⟨_, rfl⟩
      · exact Or.inr (Or.inl rfl)
  · apply Sent.init
    · rfl
    · dsimp only
      split
      · exact Or.inl ⟨_, rfl⟩
      · split
        · exact Or.inr (Or.inl rfl)
        · exact Or.inr (Or.inr ⟨rfl, rfl⟩)

/-- A call keeps its file id and its first part. -/
theorem step_fixed (s : World) (u : Upload) (e : Event) : (step env data name s u e).2.fileId = u.fileId ∧
    (step env data name s u e).2.startPart = u.startPart := by
  unfold step
  split <;> exact ⟨rfl, rfl⟩

/-- Every part that the checkpoint counts is acknowledged with the data's. -/
def Own (env : Env) (data : List UInt8) (name : String) (s : World) : Prop :=
  ∀ cp, s.checkpoints (uploadKey env data name) = some cp →
    ∀ p : Nat, (p : Int) ≤ cp.lastPart → s.lastAck cp.fileId p = some (slice data (partSize data) p)

theorem own_setCheckpoint {s : World} {cp : Option UploadCheckpoint}
    (h : ∀ c, cp = some c → ∀ p : Nat, (p : Int) ≤ c.lastPart → s.lastAck c.fileId p = some (slice data (partSize data) p)) :
    Own env data name (setCheckpoint env data name s cp) := by
  intro c hc p hp
  rw [setCheckpoint] at hc
  dsimp only at hc
  rw [if_pos rfl] at hc
  exact h c hc p hp

theorem Own.delete {s : World} (h : Own env data name s) (ok : Bool) : Own env data name (deleteUpload env data name s ok) := by
  cases ok with
  | false => exact h
  | true => exact own_setCheckpoint nofun

theorem Own.save {s : World} (h : Own env data name s) {cp : UploadCheckpoint}
    (hcp : ∀ p : Nat, (p : Int) ≤ cp.lastPart → s.lastAck cp.fileId p = some (slice data (partSize data) p)) (write : Write) :
    Own env data name (saveUpload env data name s cp write) := by
  cases write with
  | done =>
    apply own_setCheckpoint
    intro c hc
    exact Option.some.inj hc ▸ hcp
  | refused => exact h
  | cutOff => exact own_setCheckpoint nofun

section Step
variable {s₀ s : World} {u : Upload}

/-- All that the upload counts is acknowledged with the data's, if what it skips is. -/
theorem Sent.all (h : Sent data s₀ s u)
    (hskipped : ∀ p < u.startPart, s₀.lastAck u.fileId p = some (slice data (partSize data) p)) (p : Nat)
    (hp : (p : Int) ≤ u.lastGoodPart) : s.lastAck u.fileId p = some (slice data (partSize data) p) := by
  by_cases hstart : p < u.startPart
  · rw [h.skipped p hstart, hskipped p hstart]
  · exact h.sent p (Nat.le_of_not_lt hstart) hp

theorem step_own (h : Sent data s₀ s u)
    (hskipped : ∀ p < u.startPart, s₀.lastAck u.fileId p = some (slice data (partSize data) p)) (hown : Own env data name s)
    (e : Event) : Own env data name (step env data name s u e).1 := by
  have hsaved : ∀ nowMs (p : Nat), (p : Int) ≤ (checkpoint env data name u nowMs).lastPart →
      s.lastAck (checkpoint env data name u nowMs).fileId p = some (slice data (partSize data) p) :=
    fun _ p hp => h.all hskipped p hp
  unfold step
  split
  · exact hown.delete _
  · exact hown
  · exact hown
  · intro cp hcp p hp
    dsimp only
    rw [lastAck_cons]
    split
    · next heq => rw [heq.2]
    · exact hown cp hcp p hp
  · exact hown
  · exact hown.save (hsaved _) _
  · exact hown.save (hsaved _) _
  · exact hown.delete _
  · exact hown

end Step

theorem found_of_resumed {s : World} {readable : Bool} {nowMs : UInt64} {cp : UploadCheckpoint}
    (h : resumed env data name s readable nowMs = some cp) : s.checkpoints (uploadKey env data name) = some cp := by
  have hexisting : existing env data name s readable = some cp := (Option.filter_eq_some_iff.mp h).1
  unfold existing at hexisting
  split at hexisting
  · exact hexisting
  · cases hexisting

theorem skipped_own {s : World} (hown : Own env data name s) (readable : Bool) (nowMs : UInt64) (fresh : Int64) :
    ∀ p < (begin env data name s readable nowMs fresh).startPart,
      s.lastAck (begin env data name s readable nowMs fresh).fileId p = some (slice data (partSize data) p) := by
  intro p hp
  unfold begin at hp ⊢
  dsimp only at hp ⊢
  cases hresumed : resumed env data name s readable nowMs with
  | none =>
    rw [hresumed] at hp
    exact absurd hp (Nat.not_lt_zero p)
  | some cp =>
    rw [hresumed] at hp
    dsimp only at hp ⊢
    exact hown cp (found_of_resumed hresumed) p (by omega)

/-- What holds of a call of its own data and name all along. -/
structure Running (env : Env) (data : List UInt8) (name : String) (s₀ : World) (u₀ : Upload) (x : World × Upload) : Prop where
  sent : Sent data s₀ x.1 x.2
  fileId : x.2.fileId = u₀.fileId
  startPart : x.2.startPart = u₀.startPart
  own : Own env data name s₀ → Own env data name x.1
  others : ∀ key, key ≠ uploadKey env data name → x.1.checkpoints key = s₀.checkpoints key

theorem others_step (s : World) (u : Upload) (e : Event) {key : String} (h : key ≠ uploadKey env data name) :
    (step env data name s u e).1.checkpoints key = s.checkpoints key := by
  have hset : ∀ cp, (setCheckpoint env data name s cp).checkpoints key = s.checkpoints key := fun cp => if_neg h
  have hdelete : ∀ ok, (deleteUpload env data name s ok).checkpoints key = s.checkpoints key := by
    intro ok
    cases ok with
    | false => rfl
    | true => exact hset none
  have hsave : ∀ cp write, (saveUpload env data name s cp write).checkpoints key = s.checkpoints key := by
    intro cp write
    cases write with
    | done => exact hset (some cp)
    | refused => rfl
    | cutOff => exact hset none
  unfold step
  split
  · exact hdelete _
  · rfl
  · rfl
  · rfl
  · rfl
  · exact hsave _ _
  · exact hsave _ _
  · exact hdelete _
  · rfl

theorem attempt_running (env : Env) (data : List UInt8) (name : String) (s : World) (a : Attempt) :
    Running env data name s (begin env data name s a.readable a.nowMs a.fresh) (attempt env data name s a) := by
  refine Run.states_inv_all (I := Running env data name s (begin env data name s a.readable a.nowMs a.fresh))
    (fun x e => step env data name x.1 x.2 e) ?_ a.events _ ?_ _ (Run.final_mem_states _ a.events _)
  · intro x e hx
    obtain ⟨hfileId, hstartPart⟩ := @step_fixed env data name x.1 x.2 e
    refine ⟨step_sent hx.sent e, hfileId.trans hx.fileId, hstartPart.trans hx.startPart, ?_, ?_⟩
    · intro hown
      refine step_own hx.sent ?_ (hx.own hown) e
      rw [hx.fileId, hx.startPart]
      exact skipped_own hown a.readable a.nowMs a.fresh
    · intro key hkey
      rw [others_step x.1 x.2 e hkey, hx.others key hkey]
  · exact ⟨begin_sent s a.readable a.nowMs a.fresh, rfl, rfl, id, fun _ _ => rfl⟩

theorem attempts_own {s : World} (h : Own env data name s) (as : List Attempt) :
    Own env data name (attempts env data name s as) := by
  induction as generalizing s with
  | nil => exact h
  | cons a as ih => exact ih ((attempt_running env data name s a).own h)

theorem attempts_others (s : World) {key : String} (hkey : key ≠ uploadKey env data name) (as : List Attempt) :
    (attempts env data name s as).checkpoints key = s.checkpoints key := by
  induction as generalizing s with
  | nil => rfl
  | cons a as ih => exact (ih (attempt env data name s a).1).trans ((attempt_running env data name s a).others key hkey)

/-- What is acknowledged when a call has returned a file. -/
theorem lastAck_returned (s : World) (a : Attempt) {file : InputFile}
    (h : (attempt env data name s a).2.phase = .returned (.ok file)) {p : Nat} (hp : p < totalParts data) :
    (attempt env data name s a).1.lastAck file.id p =
      match resumed env data name s a.readable a.nowMs with
      | some cp => if (p : Int) ≤ cp.lastPart then s.lastAck cp.fileId p else some (slice data (partSize data) p)
      | none => some (slice data (partSize data) p) := by
  have hrun := attempt_running env data name s a
  have hcomplete := hrun.sent.complete (Or.inr ⟨file, h⟩)
  have hskipped := hrun.sent.skipped p
  have hsent := hrun.sent.sent p
  rw [hrun.fileId, hrun.startPart] at hskipped hsent
  rw [hrun.sent.file file h, hrun.fileId]
  unfold begin at hskipped hsent ⊢
  dsimp only at hskipped hsent ⊢
  cases hresumed : resumed env data name s a.readable a.nowMs with
  | none =>
    rw [hresumed] at hsent
    exact hsent (Nat.zero_le p) (by omega)
  | some cp =>
    rw [hresumed] at hskipped hsent
    dsimp only at hskipped hsent ⊢
    split
    · exact hskipped (by omega)
    · exact hsent (by omega) (by omega)

/-- **A resumed upload.** After interrupted uploads of `d₁`, an upload of `d₂` under the same name
that returns a file has every part of it last acknowledged with the slice of `d₂` exactly if
`d₁` and `d₂` agree in the parts of the checkpoint it goes on from, if it goes on from one. -/
theorem resumable_exact (env : Env) (name : String) (d₁ d₂ : List UInt8) (s : World)
    (hnone₁ : s.checkpoints (uploadKey env d₁ name) = none) (hnone₂ : s.checkpoints (uploadKey env d₂ name) = none)
    (earlier : List Attempt) (a : Attempt) (file : InputFile)
    (h : (attempt env d₂ name (attempts env d₁ name s earlier) a).2.phase = .returned (.ok file)) :
    (∀ p < totalParts d₂, (attempt env d₂ name (attempts env d₁ name s earlier) a).1.lastAck file.id p =
      some (slice d₂ (partSize d₂) p)) ↔
    ∀ cp, resumed env d₂ name (attempts env d₁ name s earlier) a.readable a.nowMs = some cp →
      ∀ p < totalParts d₂, (p : Int) ≤ cp.lastPart → slice d₁ (partSize d₁) p = slice d₂ (partSize d₂) p := by
  have hown : Own env d₁ name (attempts env d₁ name s earlier) := by
    apply attempts_own
    intro cp hcp
    cases hnone₁.symm.trans hcp
  cases hresumed : resumed env d₂ name (attempts env d₁ name s earlier) a.readable a.nowMs with
  | none =>
    refine ⟨fun _ _ => nofun, fun _ p hp => ?_⟩
    rw [lastAck_returned _ a h hp, hresumed]
  | some cp =>
    -- The checkpoint was found under the name and beginning that the two have in common.
    have hfound := found_of_resumed hresumed
    have hkey : uploadKey env d₂ name = uploadKey env d₁ name := by
      by_contra hne
      rw [attempts_others s hne, hnone₂] at hfound
      cases hfound
    rw [hkey] at hfound
    have hslices : ∀ p : Nat, (p : Int) ≤ cp.lastPart →
        (attempts env d₁ name s earlier).lastAck cp.fileId p = some (slice d₁ (partSize d₁) p) := hown cp hfound
    constructor
    · intro hall c hc p hp hle
      obtain rfl := Option.some.inj hc
      have hack := hall p hp
      rw [lastAck_returned _ a h hp, hresumed] at hack
      dsimp only at hack
      rw [if_pos hle, hslices p hle] at hack
      exact Option.some.inj hack
    · intro hagree p hp
      rw [lastAck_returned _ a h hp, hresumed]
      dsimp only
      split
      · next hle => rw [hslices p hle, hagree cp rfl p hp hle]
      · rfl

/-! Two files of two parts. -/

/-- Digests that are the bytes themselves. -/
def plainEnv : Env where
  sha256 bytes := String.ofList (bytes.map fun b => Char.ofNat b.toNat)
  resolveMime _ := "application/octet-stream"
  md5 _ := ""

/-- Nothing sent yet. -/
def World.new : World := { checkpoints := fun _ => none, acks := [] }

/-- The first part and its checkpoint, and no more. -/
def firstPart : Attempt where
  readable := true
  nowMs := 1000
  fresh := 7
  events := [.handle (.ok ()), .answer (.ok ()), .saved .done 1000]

/-- One more part. -/
def secondPart : Attempt where
  readable := true
  nowMs := 2000
  fresh := 8
  events := [.handle (.ok ()), .answer (.ok ()), .deleted true]

section TwoParts
variable {env : Env} {d₁ d₂ : List UInt8} {name : String}

/-- The checkpoint of an upload that is dropped after its first part. -/
def firstCheckpoint (env : Env) (data : List UInt8) (name : String) : UploadCheckpoint where
  key := uploadKey env data name
  fileId := 7
  lastPart := 0
  totalParts := 2
  partSize := 131072
  total := data.length
  big := bigFileThreshold < data.length
  name := name
  mimeType := env.resolveMime name
  startedMs := 1000

theorem firstPart_left (h : uploadPartSize d₁.length = (131072, 2)) (hne : d₁ ≠ []) :
    attempts env d₁ name .new [firstPart] =
      setCheckpoint env d₁ name ⟨fun _ => none, [⟨7, 0, slice d₁ 131072 0⟩]⟩ (some (firstCheckpoint env d₁ name)) := by
  simp [attempts, attempt, firstPart, Run.final, step, begin, resumed, existing, World.new, continueAt, totalParts, partSize, h,
    hne, saveUpload, checkpoint, firstCheckpoint]

theorem first_resumed (h : uploadPartSize d₂.length = (131072, 2)) (hkey : uploadKey env d₂ name = uploadKey env d₁ name)
    (acks : List Acked) : resumed env d₂ name
      (setCheckpoint env d₁ name ⟨fun _ => none, acks⟩ (some (firstCheckpoint env d₁ name))) true 2000 =
        some (firstCheckpoint env d₁ name) := by
  have husable : usable d₂ 2000 (firstCheckpoint env d₁ name) = true := by
    simp [usable, firstCheckpoint, uploadSessionTtlMs, totalParts, partSize, h]
  simp [resumed, existing, setCheckpoint, hkey, husable]

theorem secondPart_returned (h : uploadPartSize d₂.length = (131072, 2)) (hne : d₂ ≠ [])
    (hkey : uploadKey env d₂ name = uploadKey env d₁ name) (acks : List Acked) :
    (attempt env d₂ name (setCheckpoint env d₁ name ⟨fun _ => none, acks⟩ (some (firstCheckpoint env d₁ name)))
      secondPart).2.phase = .returned (.ok (toInputFile env.md5 (bigFileThreshold < d₂.length) 7 2 name d₂)) := by
  have hlast : (firstCheckpoint env d₁ name).lastPart = 0 := rfl
  have hfile : (firstCheckpoint env d₁ name).fileId = 7 := rfl
  simp [attempt, secondPart, Run.final, step, begin, first_resumed h hkey, hlast, hfile, continueAt, totalParts, partSize, h, hne]

end TwoParts

/-- Two files of 256 KB that are the same in the first 64 KB. -/
def blackFile : List UInt8 := List.replicate 262144 0
def whiteFile : List UInt8 := List.replicate 65536 0 ++ List.replicate 196608 255

theorem black_parts : uploadPartSize blackFile.length = (131072, 2) := by
  rw [blackFile, List.length_replicate]
  decide

theorem white_parts : uploadPartSize whiteFile.length = (131072, 2) := by
  rw [whiteFile, List.length_append, List.length_replicate, List.length_replicate]
  decide

theorem same_key (env : Env) (name : String) : uploadKey env whiteFile name = uploadKey env blackFile name := by
  have hprefix : whiteFile.take 65536 = blackFile.take 65536 := by
    rw [whiteFile, blackFile, List.take_left' List.length_replicate, List.take_replicate]
    rfl
  rw [uploadKey, uploadKey, hprefix]

/-- The byte behind the first 64 KB. -/
theorem slice_byte (data : List UInt8) : (slice data 131072 0)[65536]? = data[65536]? := by
  rw [slice, Nat.zero_mul, List.drop_zero, List.getElem?_take_of_lt (by decide)]

theorem parts_differ : slice blackFile 131072 0 ≠ slice whiteFile 131072 0 := by
  intro h
  have hbyte : (slice blackFile 131072 0)[65536]? = (slice whiteFile 131072 0)[65536]? := by rw [h]
  rw [slice_byte, slice_byte, blackFile, whiteFile, List.getElem?_append_right (Nat.le_of_eq List.length_replicate),
    List.length_replicate, List.getElem?_replicate, List.getElem?_replicate] at hbyte
  cases hbyte

/-- The second file is uploaded after the first part of the first one: the result has that part. -/
theorem files_mixed : ¬ ∀ (env : Env) (name : String) (d₁ d₂ : List UInt8) (s : World) (earlier : List Attempt) (a : Attempt)
    (file : InputFile), s.checkpoints (uploadKey env d₁ name) = none → s.checkpoints (uploadKey env d₂ name) = none →
    (attempt env d₂ name (attempts env d₁ name s earlier) a).2.phase = .returned (.ok file) →
    ∀ p < totalParts d₂, (attempt env d₂ name (attempts env d₁ name s earlier) a).1.lastAck file.id p =
      some (slice d₂ (partSize d₂) p) := by
  intro h
  have hsize : partSize whiteFile = 131072 := congrArg Prod.fst white_parts
  have htotal : totalParts whiteFile = 2 := congrArg Prod.snd white_parts
  have hblack : blackFile ≠ [] := List.ne_nil_of_length_pos (by rw [blackFile, List.length_replicate]; decide)
  have hwhite : whiteFile ≠ [] :=
    List.ne_nil_of_length_pos (by rw [whiteFile, List.length_append, List.length_replicate]; omega)
  have hleft : attempts plainEnv blackFile "a" .new [firstPart] = _ := firstPart_left black_parts hblack
  have hreturned := secondPart_returned white_parts hwhite (same_key plainEnv "a") [⟨7, 0, slice blackFile 131072 0⟩]
  rw [← hleft] at hreturned
  have hack := h plainEnv "a" blackFile whiteFile .new [firstPart] secondPart _ rfl rfl hreturned 0 (by omega)
  -- The part comes from the checkpoint.
  have hresumed : resumed plainEnv whiteFile "a" (attempts plainEnv blackFile "a" .new [firstPart]) secondPart.readable
      secondPart.nowMs = some (firstCheckpoint plainEnv blackFile "a") := by
    rw [hleft]
    exact first_resumed white_parts (same_key plainEnv "a") _
  rw [lastAck_returned _ _ hreturned (by omega), hresumed] at hack
  dsimp only at hack
  have hzero : ((0 : Nat) : Int) ≤ (firstCheckpoint plainEnv blackFile "a").lastPart := Int.le_refl 0
  rw [if_pos hzero, hleft, hsize] at hack
  exact parts_differ (Option.some.inj hack)

/-- Of two bytes, when they are sent. -/
def onePart : Upload where
  fileId := 7
  startPart := 0
  mimeType := "application/octet-stream"
  startedMs := none
  lastGoodPart := 0
  phase := .saving 0

theorem onePart_left : attempts plainEnv [1, 2] "a" .new [firstPart] =
    setCheckpoint plainEnv [1, 2] "a" ⟨fun _ => none, [⟨7, 0, [1, 2]⟩]⟩
      (some (checkpoint plainEnv [1, 2] "a" onePart 1000)) := by
  rfl

/-- Two bytes, of which the answer to the last call was lost: the upload goes on at its end. -/
theorem resumed_same : (∀ p < totalParts [1, 2],
      (attempt plainEnv [1, 2] "a" (attempts plainEnv [1, 2] "a" .new [firstPart]) ⟨true, 2000, 8, [.deleted true]⟩).1.lastAck
        (InputFile.file 7 1 "a" "").id p = some (slice ([1, 2] : List UInt8) (partSize [1, 2]) p)) ↔
    ∀ cp, resumed plainEnv [1, 2] "a" (attempts plainEnv [1, 2] "a" .new [firstPart]) true 2000 = some cp →
      ∀ p < totalParts [1, 2], (p : Int) ≤ cp.lastPart →
        slice ([1, 2] : List UInt8) (partSize [1, 2]) p = slice [1, 2] (partSize [1, 2]) p :=
  resumable_exact plainEnv "a" [1, 2] [1, 2] .new rfl rfl [firstPart] ⟨true, 2000, 8, [.deleted true]⟩
    (.file 7 1 "a" "") (by
      have husable : usable [1, 2] 2000 (checkpoint plainEnv [1, 2] "a" onePart 1000) = true := by rfl
      have hresumed : resumed plainEnv [1, 2] "a" (attempts plainEnv [1, 2] "a" .new [firstPart]) true 2000 =
          some (checkpoint plainEnv [1, 2] "a" onePart 1000) := by
        rw [onePart_left, resumed, existing, if_pos rfl, setCheckpoint]
        dsimp only
        rw [if_pos rfl]
        exact Option.filter_eq_some_iff.mpr ⟨rfl, husable⟩
      rw [attempt, begin, hresumed]
      rfl)

end Resumable

end Ferogram.Media
