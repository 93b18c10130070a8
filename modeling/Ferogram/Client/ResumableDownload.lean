import Mathlib.Data.List.Infix
import Ferogram.Client.SequentialDownload

/- The resumable download, `download_resumable` of `ferogram/src/client/files.rs`, with the
   checkpoints of `ferogram/src/resume.rs`.

   An interrupted call saves the bytes that it has, and a checkpoint beside them. The next one
   takes them up again; it asks for the file from the last whole megabyte on, and skips what it
   has already. The feature is on and the media has a location; the files of the directory can
   be read and written. A call that is dropped while it downloads leaves the directory as it is.

   What is proved: `resumable_download_exact`. What is saved is the beginning of the file, and
   does not get shorter (`Saved`); a download from an aligned offset overlaps it exactly. -/
namespace Ferogram.Media.ResumableDownload
open Mtsender (InvocationError)
open SequentialDownload (Kind Turn Answer Download NoRedirect)

/-- `DownloadCheckpoint`. -/
structure DownloadCheckpoint where
  key : String
  offset : Nat
  total : Nat
  sha256Partial : String
  deriving DecidableEq

/-- The directory of the checkpoints and of the partial files. -/
structure Directory where
  checkpoints : String → Option DownloadCheckpoint
  partials : String → Option (List UInt8)

/-- What a call makes of the media: the DC, the key of the location, and the size, if it is known. -/
structure Target where
  dcId : Int32
  key : String
  total : Option Nat

namespace Directory

def deleteDownload (dir : Directory) (key : String) : Directory :=
  { dir with checkpoints := fun k => if k = key then none else dir.checkpoints k }

def removePartial (dir : Directory) (key : String) : Directory :=
  { dir with partials := fun k => if k = key then none else dir.partials k }

def writePartial (dir : Directory) (key : String) (bytes : List UInt8) : Directory :=
  { dir with partials := fun k => if k = key then some bytes else dir.partials k }

def saveDownload (dir : Directory) (cp : DownloadCheckpoint) : Directory :=
  { dir with checkpoints := fun k => if k = cp.key then some cp else dir.checkpoints k }

/-- The bytes that are taken up again, and the offset to go on from. -/
def restore (dir : Directory) (key : String) : Directory × List UInt8 × Nat :=
  match dir.checkpoints key, dir.partials key with
  | none, _ => (dir, [], 0)
  | some _, none => (dir.deleteDownload key, [], 0)
  | some _, some bytes =>
    if bytes = [] then (dir.deleteDownload key, [], 0)
    else (dir, bytes, bytes.length / (1024 * 1024) * (1024 * 1024))

end Directory

/-- A call, with all that is decided outside. -/
structure Call where
  /-- What the buffer of the caller holds. -/
  dest : List UInt8
  opened : Except InvocationError Unit
  homeDcId : Int32
  connection : Except InvocationError Unit
  turns : List (Turn Answer)

/-- A write to memory does not fail. -/
def toMemory (t : Turn Answer) : Turn Answer := { t with written := .ok (), flushed := .ok () }

/-- What is left by a call; one that was dropped has no result. -/
structure Outcome where
  dir : Directory
  dest : List UInt8
  result : Option (Except InvocationError Nat)

/-- The part of the tail that is not there yet. -/
def extend (dest tail : List UInt8) (resumeOffset : Nat) : List UInt8 :=
  dest ++ tail.drop (min (dest.length - resumeOffset) tail.length)

section
variable (file : List UInt8) (target : Target)

/-- `download_streaming`, into the tail. -/
def streamed (resumeOffset : Nat) (c : Call) : Download :=
  SequentialDownload.run (.streaming true resumeOffset) file c.homeDcId target.dcId c.connection (c.turns.map toMemory)

def downloadResumable (dir : Directory) (c : Call) : Outcome :=
  match c.opened with
  | .error err => { dir := dir, dest := c.dest, result := some (.error err) }
  | .ok () =>
    let (dir, dest, resumeOffset) := dir.restore target.key
    let d := streamed file target resumeOffset c
    match d.result with
    | none => { dir := dir, dest := dest, result := none }
    | some (.ok ()) =>
      let dest := extend dest d.bytes resumeOffset
      { dir := (dir.deleteDownload target.key).removePartial target.key, dest := dest, result := some (.ok dest.length) }
    | some (.error err) =>
      let dest := extend dest d.bytes resumeOffset
      let cp := { key := target.key, offset := dest.length, total := target.total.getD 0, sha256Partial := "" }
      { dir := (dir.writePartial target.key dest).saveDownload cp, dest := dest, result := some (.error err) }

def next (dir : Directory) (c : Call) : Directory := (downloadResumable file target dir c).dir

/-- The call has not come to its end. -/
def Interrupted (dir : Directory) (c : Call) : Prop :=
  ∀ n, (downloadResumable file target dir c).result ≠ some (.ok n)

/-- No CDN redirect has reached the loop. -/
def Unredirected (dir : Directory) (c : Call) : Prop :=
  NoRedirect (.streaming true (dir.restore target.key).2.2) file c.homeDcId target.dcId c.connection (c.turns.map toMemory)

/-- The length of the partial file. -/
def savedLength (dir : Directory) : Nat := ((dir.partials target.key).getD []).length

/-- Where a call goes on with so many bytes saved. -/
def resumeFrom (saved : Nat) : Nat := saved / (1024 * 1024) * (1024 * 1024)

/-- A call that returns an error behind its beginning leaves what was saved and what it has received, in a
partial file; one that is dropped, or does not begin, leaves what was saved. -/
def Keeps (dir : Directory) (c : Call) : Prop :=
  (∀ err, c.opened = .ok () → (downloadResumable file target dir c).result = some (.error err) →
    ∃ bytes, (next file target dir c).partials target.key = some bytes ∧
      bytes.length = max (savedLength target dir) (resumeFrom (savedLength target dir) +
        (streamed file target (resumeFrom (savedLength target dir)) c).bytes.length)) ∧
  ((downloadResumable file target dir c).result = none ∨ (∃ err, c.opened = .error err) →
    (next file target dir c).partials target.key = dir.partials target.key)

/-- The partial file is the beginning of the file, and if there is something in it there is a checkpoint. -/
structure Saved (dir : Directory) : Prop where
  isPrefix : ∀ bytes, dir.partials target.key = some bytes → bytes <+: file
  checkpoint : ∀ bytes, dir.partials target.key = some bytes → bytes ≠ [] → (dir.checkpoints target.key).isSome = true

end

/-! The seam. -/

theorem extend_eq (dest tail : List UInt8) (resumeOffset : Nat) :
    extend dest tail resumeOffset = dest ++ tail.drop (dest.length - resumeOffset) := by
  unfold extend
  by_cases hle : dest.length - resumeOffset ≤ tail.length
  · rw [Nat.min_eq_left hle]
  · rw [Nat.min_eq_right (by omega), List.drop_length, List.drop_eq_nil_of_le (by omega)]

theorem length_le_extend (dest tail : List UInt8) (resumeOffset : Nat) :
    dest.length ≤ (extend dest tail resumeOffset).length := by
  rw [extend, List.length_append]
  exact Nat.le_add_right _ _

theorem length_extend {dest : List UInt8} (tail : List UInt8) {resumeOffset : Nat} (hle : resumeOffset ≤ dest.length) :
    (extend dest tail resumeOffset).length = max dest.length (resumeOffset + tail.length) := by
  rw [extend_eq, List.length_append, List.length_drop]
  omega

/-- What is behind the bytes that are there, seen from the offset. -/
theorem drop_overlap {file dest : List UInt8} {resumeOffset : Nat} (hle : resumeOffset ≤ dest.length) :
    (file.drop resumeOffset).drop (dest.length - resumeOffset) = file.drop dest.length := by
  rw [List.drop_drop, Nat.add_sub_cancel' hle]

theorem extend_prefix {file dest tail : List UInt8} {resumeOffset : Nat} (hdest : dest <+: file)
    (hle : resumeOffset ≤ dest.length) (htail : tail <+: file.drop resumeOffset) :
    extend dest tail resumeOffset <+: file := by
  rw [extend_eq]
  have hfile : dest ++ file.drop dest.length = file := List.prefix_iff_eq_append.mp hdest
  have hrest : tail.drop (dest.length - resumeOffset) <+: file.drop dest.length := by
    rw [← drop_overlap hle]
    exact List.IsPrefix.drop htail _
  calc dest ++ tail.drop (dest.length - resumeOffset) <+: dest ++ file.drop dest.length :=
        (List.prefix_append_right_inj dest).mpr hrest
    _ = file := hfile

theorem extend_all {file dest : List UInt8} {resumeOffset : Nat} (hdest : dest <+: file)
    (hle : resumeOffset ≤ dest.length) : extend dest (file.drop resumeOffset) resumeOffset = file := by
  rw [extend_eq, drop_overlap hle]
  exact List.prefix_iff_eq_append.mp hdest

/-! One call, then any number of them. -/

section
variable {file : List UInt8} {target : Target} {dir : Directory}

/-- The bytes that a call takes up are those that are saved, and it goes on from among them. -/
structure Restored (file : List UInt8) (target : Target) (dir dir' : Directory) (dest : List UInt8) (resumeOffset : Nat) :
    Prop where
  saved : Saved file target dir'
  partials : dir'.partials target.key = dir.partials target.key
  taken : dest = (dir.partials target.key).getD []
  isPrefix : dest <+: file
  offset : resumeOffset = resumeFrom dest.length

theorem resumeFrom_zero : resumeFrom 0 = 0 := by decide

theorem Restored.le {dir' : Directory} {dest : List UInt8} {resumeOffset : Nat}
    (h : Restored file target dir dir' dest resumeOffset) : resumeOffset ≤ dest.length := by
  rw [h.offset]
  exact Nat.div_mul_le_self _ _

theorem Restored.aligned {dir' : Directory} {dest : List UInt8} {resumeOffset : Nat}
    (h : Restored file target dir dir' dest resumeOffset) : resumeOffset % (1024 * 1024) = 0 := by
  rw [h.offset]
  exact Nat.mul_mod_left _ _

theorem restore_restored (h : Saved file target dir) :
    Restored file target dir (dir.restore target.key).1 (dir.restore target.key).2.1 (dir.restore target.key).2.2 := by
  -- there are no bytes without a checkpoint, and a checkpoint without bytes is deleted
  have hempty : ∀ bytes, dir.partials target.key = some bytes → dir.checkpoints target.key = none → bytes = [] := by
    intro bytes hp hcp
    by_contra hne
    have hsome := h.checkpoint bytes hp hne
    rw [hcp] at hsome
    cases hsome
  have hdeleted : (∀ bytes, dir.partials target.key = some bytes → bytes = []) →
      Saved file target (dir.deleteDownload target.key) :=
    fun hnone => ⟨h.isPrefix, fun bytes hp hne => absurd (hnone bytes hp) hne⟩
  unfold Directory.restore
  cases hcp : dir.checkpoints target.key with
  | none =>
    refine ⟨h, rfl, ?_, List.nil_prefix, resumeFrom_zero.symm⟩
    cases hp : dir.partials target.key with
    | none => rfl
    | some bytes => exact (hempty bytes hp hcp).symm
  | some cp =>
    cases hp : dir.partials target.key with
    | none => exact ⟨hdeleted (by simp [hp]), rfl, by rw [hp]; rfl, List.nil_prefix, resumeFrom_zero.symm⟩
    | some bytes =>
      dsimp only
      split
      · next hnil => exact ⟨hdeleted (by simp [hp, hnil]), rfl, by rw [hp]; exact hnil.symm, List.nil_prefix, resumeFrom_zero.symm⟩
      · exact ⟨h, rfl, by rw [hp]; rfl, h.isPrefix bytes hp, rfl⟩

/-- From an aligned offset, the tail is what follows. -/
theorem isPrefix_streamed (c : Call) {resumeOffset : Nat} (h : resumeOffset % (1024 * 1024) = 0) :
    (streamed file target resumeOffset c).bytes <+: file.drop resumeOffset := by
  have hstart : (Kind.streaming true resumeOffset).start = resumeOffset := by
    simp only [Kind.start]
    omega
  have hprefix := SequentialDownload.run_prefix (.streaming true resumeOffset) file c.homeDcId target.dcId c.connection
    (c.turns.map toMemory)
  rwa [hstart] at hprefix

/-- The directory after a call that was interrupted. -/
theorem interrupted_saved {dir' : Directory} {dest : List UInt8} {resumeOffset : Nat}
    (h : Restored file target dir dir' dest resumeOffset) (c : Call) (cp : DownloadCheckpoint) (hkey : cp.key = target.key) :
    Saved file target ((dir'.writePartial target.key
        (extend dest (streamed file target resumeOffset c).bytes resumeOffset)).saveDownload cp) ∧
      savedLength target dir ≤ savedLength target ((dir'.writePartial target.key
        (extend dest (streamed file target resumeOffset c).bytes resumeOffset)).saveDownload cp) := by
  have hstored : ((dir'.writePartial target.key
      (extend dest (streamed file target resumeOffset c).bytes resumeOffset)).saveDownload cp).partials target.key =
        some (extend dest (streamed file target resumeOffset c).bytes resumeOffset) := if_pos rfl
  refine ⟨⟨fun bytes hbytes => ?_, fun bytes _ _ => ?_⟩, ?_⟩
  · obtain rfl := Option.some.inj (hstored.symm.trans hbytes)
    exact extend_prefix h.isPrefix h.le (isPrefix_streamed c h.aligned)
  · have hcp : ((dir'.writePartial target.key
        (extend dest (streamed file target resumeOffset c).bytes resumeOffset)).saveDownload cp).checkpoints target.key =
          some cp := if_pos hkey.symm
    rw [hcp]
    rfl
  · rw [savedLength, savedLength, hstored, ← h.taken]
    exact length_le_extend _ _ _

theorem next_saved (h : Saved file target dir) (c : Call) (hint : Interrupted file target dir c) :
    Saved file target (next file target dir c) ∧ savedLength target dir ≤ savedLength target (next file target dir c) := by
  have hrestored := restore_restored h
  unfold next
  unfold Interrupted at hint
  unfold downloadResumable at hint ⊢
  cases hopened : c.opened with
  | error err => exact ⟨h, Nat.le_refl _⟩
  | ok u =>
    rw [hopened] at hint
    dsimp only at hint ⊢
    cases hresult : (streamed file target (dir.restore target.key).2.2 c).result with
    | none =>
      -- dropped
      refine ⟨hrestored.saved, ?_⟩
      rw [savedLength, savedLength, hrestored.partials]
    | some r =>
      cases r with
      | ok u =>
        rw [hresult] at hint
        exact absurd rfl (hint _)
      | error err => exact interrupted_saved hrestored c _ rfl

theorem next_keeps (h : Saved file target dir) (c : Call) : Keeps file target dir c := by
  have hrestored := restore_restored h
  have hlength : (dir.restore target.key).2.1.length = savedLength target dir := congrArg List.length hrestored.taken
  have hoffset : (dir.restore target.key).2.2 = resumeFrom (savedLength target dir) := by rw [hrestored.offset, hlength]
  unfold Keeps next downloadResumable
  cases hopened : c.opened with
  | error err => exact ⟨fun _ hok => (nomatch hok), fun _ => rfl⟩
  | ok u =>
    dsimp only
    rw [← hoffset]
    cases hresult : (streamed file target (dir.restore target.key).2.2 c).result with
    | none => exact ⟨fun _ _ herr => (nomatch herr), fun _ => hrestored.partials⟩
    | some r =>
      cases r with
      | ok u => exact ⟨fun _ _ herr => (nomatch herr), fun hnone => by rcases hnone with h | ⟨_, h⟩ <;> cases h⟩
      | error err =>
        refine ⟨fun _ _ _ => ⟨_, if_pos rfl, ?_⟩, fun hnone => by rcases hnone with h | ⟨_, h⟩ <;> cases h⟩
        rw [length_extend _ hrestored.le, hlength]

/-- A call that comes to its end has the file. -/
theorem completed_exact (h : Saved file target dir) {c : Call} {n : Nat}
    (hok : (downloadResumable file target dir c).result = some (.ok n)) (hno : Unredirected file target dir c) :
    (downloadResumable file target dir c).dest = file ∧ n = file.length := by
  have hrestored := restore_restored h
  unfold downloadResumable at hok ⊢
  cases hopened : c.opened with
  | error err =>
    rw [hopened] at hok
    cases hok
  | ok u =>
    rw [hopened] at hok
    dsimp only at hok ⊢
    cases hresult : (streamed file target (dir.restore target.key).2.2 c).result with
    | none =>
      rw [hresult] at hok
      cases hok
    | some r =>
      cases r with
      | error err =>
        rw [hresult] at hok
        cases hok
      | ok u =>
        rw [hresult] at hok
        have hbytes : (streamed file target (dir.restore target.key).2.2 c).bytes =
            file.drop (dir.restore target.key).2.2 := by
          have haligned := hrestored.aligned
          have hstart : (Kind.streaming true (dir.restore target.key).2.2).start = (dir.restore target.key).2.2 := by
            simp only [Kind.start]
            omega
          have hall := (SequentialDownload.run_complete hno hresult).1
          rwa [hstart] at hall
        dsimp only at hok ⊢
        rw [hbytes, extend_all hrestored.isPrefix hrestored.le] at hok ⊢
        exact ⟨rfl, (Except.ok.inj (Option.some.inj hok)).symm⟩

end

/-- **A resumable download** that was interrupted any number of times: what is saved is the
beginning of the file, never shorter than before, with all that the calls have received; and what the
last call returns is the file. -/
theorem resumable_download_exact (file : List UInt8) (target : Target) (dir : Directory)
    (hstored : dir.partials target.key = none) (calls : List Call) (last : Call) (n : Nat)
    (hint : Run.AllSteps (next file target) (Interrupted file target) dir calls)
    (hok : (downloadResumable file target (Run.final (next file target) dir calls) last).result = some (.ok n))
    (hno : Unredirected file target (Run.final (next file target) dir calls) last) :
    (∀ x ∈ Run.states (next file target) dir calls, ∀ bytes, x.partials target.key = some bytes → bytes <+: file) ∧
      Run.AllSteps (next file target)
        (fun x c => savedLength target x ≤ savedLength target (next file target x c)) dir calls ∧
      Run.AllSteps (next file target) (Keeps file target) dir calls ∧
      (downloadResumable file target (Run.final (next file target) dir calls) last).dest = file ∧ n = file.length := by
  have hsaved : Saved file target dir := by
    refine ⟨fun bytes h => ?_, fun bytes h => ?_⟩
    · rw [hstored] at h
      cases h
    · rw [hstored] at h
      cases h
  have hstates := Run.states_inv (I := Saved file target) (next file target) (fun _ c hc hx => (next_saved hx c hc).1) calls dir hsaved hint
  refine ⟨fun x hx => (hstates x hx).isPrefix, ?_, ?_, ?_⟩
  · exact Run.allSteps_of_inv (I := Saved file target) (next file target) (fun _ c hc hx => (next_saved hx c hc).1)
      (fun _ c hc hx => (next_saved hx c hc).2) calls dir hsaved hint
  · exact Run.allSteps_of_inv (I := Saved file target) (next file target) (fun _ c hc hx => (next_saved hx c hc).1)
      (fun _ c _ hx => next_keeps hx c) calls dir hsaved hint
  · exact completed_exact (hstates _ (Run.final_mem_states _ calls dir)) hok hno

/-- A call with these answers. -/
def answeredCall (answers : List Answer) : Call where
  dest := []
  opened := .ok ()
  homeDcId := 2
  connection := .ok ()
  turns := answers.map fun answer => { handle := .ok (), answer := answer, written := .ok (), connection := .ok (), flushed := .ok () }

def emptyDirectory : Directory := { checkpoints := fun _ => none, partials := fun _ => none }

/-- One byte more than half a megabyte. -/
def twoChunks : List UInt8 := List.replicate (512 * 1024) 7 ++ [9]

def twoChunksTarget : Target := { dcId := 4, key := "a", total := some (512 * 1024 + 1) }

theorem twoChunks_length : twoChunks.length = 512 * 1024 + 1 := by
  rw [twoChunks, List.length_append, List.length_replicate, List.length_singleton]

/-- The first part comes, and not the second. -/
def interrupted : Call := answeredCall [.part, .error .dropped]

section
variable {file : List UInt8} (target : Target)

theorem streamed_interrupted (hlen : file.length = 512 * 1024 + 1) : (streamed file target 0 interrupted).result = some (.error .dropped) ∧
    (streamed file target 0 interrupted).bytes = file.take (512 * 1024) := by
  constructor <;>
    simp [streamed, interrupted, answeredCall, SequentialDownload.run, Run.final, SequentialDownload.next, Download.turn,
      Download.polled, Download.answered, SequentialDownload.serve, Download.received, Download.stored, Download.begin,
      Download.getFile, toMemory, SequentialDownload.chunk, hlen, Kind.start, Download.fail]

theorem streamed_completed (hlen : file.length = 512 * 1024 + 1) : (streamed file target 0 (answeredCall [.part, .part])).result = some (.ok ()) ∧
    (streamed file target 0 (answeredCall [.part, .part])).bytes = file := by
  constructor <;>
    simp [streamed, answeredCall, SequentialDownload.run, Run.final, SequentialDownload.next, Download.turn,
      Download.polled, Download.answered, SequentialDownload.serve, Download.received, Download.stored, Download.begin,
      Download.getFile, toMemory, SequentialDownload.chunk, hlen, Kind.start, Download.finish]
  rw [List.take_of_length_le (i := 524288) (l := List.drop 524288 file) (by simp [hlen])]
  exact List.take_append_drop _ _

/-- Half a megabyte is saved; the next call begins at 0 again. -/
theorem restore_interrupted (hlen : file.length = 512 * 1024 + 1) : (downloadResumable file target emptyDirectory interrupted).result = some (.error .dropped) ∧
    ((next file target emptyDirectory interrupted).restore target.key).2 = (file.take (512 * 1024), 0) := by
  obtain ⟨hresult, hbytes⟩ := streamed_interrupted target hlen
  have hne : file.take (512 * 1024) ≠ [] := by
    intro hnil
    have hlength := congrArg List.length hnil
    rw [List.length_take, hlen] at hlength
    exact absurd hlength (by decide)
  have hcall : downloadResumable file target emptyDirectory interrupted =
      { dir := (emptyDirectory.writePartial target.key (file.take (512 * 1024))).saveDownload
          { key := target.key, offset := (file.take (512 * 1024)).length, total := target.total.getD 0, sha256Partial := "" }
        dest := file.take (512 * 1024)
        result := some (.error .dropped) } := by
    have hextend : extend [] (file.take (512 * 1024)) 0 = file.take (512 * 1024) := by rw [extend_eq]; rfl
    have hopened : interrupted.opened = .ok () := rfl
    have hrestore : emptyDirectory.restore target.key = (emptyDirectory, [], 0) := rfl
    rw [downloadResumable, hopened]
    dsimp only
    rw [hrestore]
    dsimp only
    rw [hresult, hbytes, hextend]
  refine ⟨by rw [hcall], ?_⟩
  rw [next, hcall]
  simp [Directory.restore, Directory.saveDownload, Directory.writePartial, hne, hlen]

theorem interrupted_interrupted (hlen : file.length = 512 * 1024 + 1) : Interrupted file target emptyDirectory interrupted := by
  intro n h
  rw [(restore_interrupted target hlen).1] at h
  cases h

theorem unredirected_parts (dir : Directory) : Unredirected file target dir (answeredCall [.part, .part]) :=
  ⟨(fun h => nomatch h.2.2.1), (fun h => nomatch h.2.2.1), trivial⟩

theorem completed_result (hlen : file.length = 512 * 1024 + 1) :
    (downloadResumable file target (next file target emptyDirectory interrupted) (answeredCall [.part, .part])).result =
      some (.ok (512 * 1024 + 1)) := by
  obtain ⟨-, hrestore⟩ := restore_interrupted target hlen
  obtain ⟨hdone, hbytes⟩ := streamed_completed target hlen
  generalize next file target emptyDirectory interrupted = dir at hrestore ⊢
  have hopened : (answeredCall [.part, .part]).opened = .ok () := rfl
  have hrestored : dir.restore target.key = ((dir.restore target.key).1, file.take (512 * 1024), 0) :=
    Prod.ext rfl hrestore
  have hlength : (extend (file.take (512 * 1024)) file 0).length = 512 * 1024 + 1 := by
    rw [length_extend _ (Nat.zero_le _), List.length_take, hlen]
    decide
  rw [downloadResumable, hopened, hrestored]
  dsimp only
  rw [hdone, hbytes]
  dsimp only
  rw [hlength]

end

/-- The half megabyte that is saved comes once more, and is skipped. -/
theorem second_call_exact :
    (downloadResumable twoChunks twoChunksTarget emptyDirectory interrupted).result = some (.error .dropped) ∧
    Keeps twoChunks twoChunksTarget emptyDirectory interrupted ∧
    (streamed twoChunks twoChunksTarget 0 interrupted).bytes = twoChunks.take (512 * 1024) ∧
    (downloadResumable twoChunks twoChunksTarget (next twoChunks twoChunksTarget emptyDirectory interrupted)
      (answeredCall [.part, .part])).dest = twoChunks := by
  have hexact : ∀ file : List UInt8, file.length = 512 * 1024 + 1 →
      (downloadResumable file twoChunksTarget emptyDirectory interrupted).result = some (.error .dropped) ∧
      Keeps file twoChunksTarget emptyDirectory interrupted ∧
      (streamed file twoChunksTarget 0 interrupted).bytes = file.take (512 * 1024) ∧
      (downloadResumable file twoChunksTarget (next file twoChunksTarget emptyDirectory interrupted)
        (answeredCall [.part, .part])).dest = file := by
    intro file hlen
    obtain ⟨-, -, ⟨hkeeps, -⟩, hdest, -⟩ := resumable_download_exact file twoChunksTarget emptyDirectory rfl [interrupted]
      (answeredCall [.part, .part]) _ ⟨interrupted_interrupted twoChunksTarget hlen, trivial⟩
      (completed_result twoChunksTarget hlen) (unredirected_parts twoChunksTarget _)
    exact ⟨(restore_interrupted twoChunksTarget hlen).1, hkeeps, (streamed_interrupted twoChunksTarget hlen).2, hdest⟩
  exact hexact twoChunks twoChunks_length

end Ferogram.Media.ResumableDownload
