import Ferogram.Client.ConcurrentDownload
import Ferogram.Lib.Lockstep

/- The downloads over one connection, `download_sequential` and `download_streaming` of
   `ferogram/src/media.rs`, and `DownloadIter::next` beside them.

   A turn of the loop is one request, with everything that is decided outside: whether the
   transfer was cancelled, the answer of the server, what became of the write and of a new
   connection. The server has the file, and a part that it sends is the one that was asked
   for; that a dead key is taken out of the options of its DC concerns the connection only.

   What is proved: `sequential_exact_iff`. A part that is shorter than asked is the end of the
   file, and so is the redirect to a CDN for the two loops, but not for the iterator. -/
namespace Ferogram.Media.SequentialDownload
open Mtsender (RpcError InvocationError)
open ConcurrentDownload (Reply GetFile)

/-- `chunk`, of both loops. -/
def chunk : Nat := 512 * 1024

/-- `MAX_REOPEN`. -/
def maxReopen : Nat := 3

/-- What both loops have in common is one model; `handle` is whether there is a control block. -/
inductive Kind where
  | sequential
  | streaming (handle : Bool) (startOffset : Nat)
  deriving DecidableEq

/-- Where the download starts; a start offset is aligned down to 1 MB. -/
def Kind.start : Kind → Nat
  | .sequential => 0
  | .streaming _ startOffset => startOffset / (1024 * 1024) * (1024 * 1024)

/-- One turn; a write that fails has written some of the bytes. -/
structure Turn (α : Type) where
  handle : Except InvocationError Unit
  answer : α
  written : Except (Nat × InvocationError) Unit
  connection : Except InvocationError Unit
  flushed : Except InvocationError Unit

/-- `bytes` are those in the buffer, or written. -/
structure Download where
  workerDc : Int32
  offset : Nat
  bytes : List UInt8
  reopenAttempts : Nat
  result : Option (Except InvocationError Unit)
  deriving DecidableEq

namespace Download

def getFile (d : Download) : GetFile where
  precise := true
  cdnSupported := false
  offset := d.offset
  limit := chunk

def fail (d : Download) (err : InvocationError) : Download := { d with result := some (.error err) }

variable {α : Type} (kind : Kind)

/-- `poll_pause_cancel`, if there is a handle. -/
def polled (t : Turn α) : Except InvocationError Unit :=
  match kind with
  | .streaming true _ => t.handle
  | _ => .ok ()

/-- Behind the loop. -/
def finish (d : Download) (t : Turn α) : Download :=
  match kind with
  | .sequential => { d with result := some (.ok ()) }
  | .streaming _ _ => { d with result := some t.flushed }

/-- A part that has been stored. -/
def stored (d : Download) (t : Turn α) (part : List UInt8) : Download :=
  let d := { d with bytes := d.bytes ++ part }
  if part.length < chunk then d.finish kind t else { d with offset := d.offset + chunk }

def received (d : Download) (t : Turn α) (part : List UInt8) : Download :=
  let d := { d with reopenAttempts := 0 }
  match kind, t.written with
  | .streaming _ _, .error (n, err) => { d with bytes := d.bytes ++ part.take n }.fail err
  | _, _ => d.stored kind t part

/-- `open_worker_conn`. -/
def reopen (d : Download) (t : Turn α) : Download :=
  match t.connection with
  | .ok () => d
  | .error err => d.fail err

def refused (d : Download) (t : Turn α) (rpc : RpcError) : Download :=
  if rpc.name = "FILE_MIGRATE" ∨ rpc.name = "FILE_MIGRATE_X" then
    let newDc := (rpc.value.getD 0).toInt32
    if newDc = 0 ∨ newDc = d.workerDc then d.fail (.rpc rpc) else { d with workerDc := newDc }.reopen t
  else if rpc.name = "AUTH_KEY_UNREGISTERED" then
    let d := { d with reopenAttempts := d.reopenAttempts + 1 }
    if maxReopen < d.reopenAttempts then d.fail (.rpc rpc) else d.reopen t
  else d.fail (.rpc rpc)

def answered (d : Download) (t : Turn (Except InvocationError Reply)) : Download :=
  match t.answer with
  | .ok (.file part) => d.received kind t part
  | .ok .cdnRedirect => d.finish kind t
  | .ok (.malformed err) => d.fail err
  | .error (.rpc rpc) => d.refused t rpc
  | .error err => d.fail err

def turn (d : Download) (t : Turn (Except InvocationError Reply)) : Download :=
  match d.result, polled kind t with
  | some _, _ => d
  | none, .error err => d.fail err
  | none, .ok () => d.answered kind t

/-- Up to the loop. -/
def begin (homeDcId dcId : Int32) (connection : Except InvocationError Unit) : Download where
  workerDc := if dcId = 0 then homeDcId else dcId
  offset := kind.start
  bytes := []
  reopenAttempts := 0
  result := match connection with
    | .ok () => none
    | .error err => some (.error err)

end Download

/-! The iterator. -/

/-- `results` are what the calls of `next` have returned; `retrying` is when a call waits for its
second answer. -/
structure DownloadIter where
  request : Option GetFile
  connected : Bool
  done : Bool
  dcId : Int32
  retrying : Bool
  results : List (Except InvocationError (Option (List UInt8)))

/-- What a call waits for: the first connection, which may fail, or an answer; a redirect
to another DC needs a connection there. -/
inductive IterTurn (α : Type) where
  | unopened (err : InvocationError)
  | answered (answer : α) (connection : Except InvocationError Unit)

def IterTurn.answer {α : Type} : IterTurn α → Option α
  | .unopened _ => none
  | .answered answer _ => some answer

def cdnIgnored : InvocationError :=
  .deserialize "upload.fileCdnRedirect received (cdn_supported=false was ignored by server)"

namespace DownloadIter

def new (dcId : Int32) : DownloadIter where
  request := some { precise := true, cdnSupported := false, offset := 0, limit := 512 * 1024 }
  connected := false
  done := false
  dcId := dcId
  retrying := false
  results := []

/-- `start_at`: the offset is aligned down to the size of a chunk. -/
def startAt (it : DownloadIter) (offset : Nat) : DownloadIter :=
  { it with request := it.request.map fun r => { r with offset := offset / r.limit * r.limit } }

/-- A call of `next` returns. -/
def give (it : DownloadIter) (result : Except InvocationError (Option (List UInt8))) : DownloadIter :=
  { it with retrying := false, results := it.results ++ [result] }

def parsed (it : DownloadIter) (req : GetFile) : Reply → DownloadIter
  | .file part =>
    let it := if part.length < req.limit then { it with done := true } else it
    if part = [] ∧ part.length < req.limit then it.give (.ok none)
    else { it with request := some { req with offset := req.offset + req.limit } }.give (.ok (some part))
  | .cdnRedirect => { it with done := true }.give (.error cdnIgnored)
  | .malformed err => it.give (.error err)

def answered (it : DownloadIter) (req : GetFile) (connection : Except InvocationError Unit) :
    Except InvocationError Reply → DownloadIter
  | .ok reply => it.parsed req reply
  | .error (.rpc rpc) =>
    if rpc.code = 303 ∧ it.retrying = false then
      let it := { it with dcId := redirectDc rpc }
      match connection with
      | .ok () => { it with retrying := true }
      | .error err => it.give (.error err)
    else it.give (.error (.rpc rpc))
  | .error err => it.give (.error err)

def turn (it : DownloadIter) (t : IterTurn (Except InvocationError Reply)) : DownloadIter :=
  match it.done, it.request, t with
  | false, some _, .unopened err => if it.connected then it else it.give (.error err)
  | false, some req, .answered answer connection => { it with connected := true }.answered req connection answer
  | _, _, _ => it

/-- The bytes that the calls have returned. -/
def bytes (it : DownloadIter) : List UInt8 :=
  it.results.flatMap fun
    | .ok (some part) => part
    | _ => []

/-- The iteration has come to its end, and the call that ended it returned no error. -/
def Ended (it : DownloadIter) : Prop := it.done = true ∧ ∃ part, it.results.getLast? = some (.ok part)

end DownloadIter

/-! The server. -/

/-- What it answers. -/
inductive Answer where
  | part
  | cdnRedirect
  | malformed (err : InvocationError)
  | error (err : InvocationError)
  deriving DecidableEq

section Server
variable (kind : Kind) (file : List UInt8)

/-- The answer to a request; there are no bytes behind the end of the file. -/
def serve (req : GetFile) : Answer → Except InvocationError Reply
  | .part => .ok (.file ((file.drop req.offset).take req.limit))
  | .cdnRedirect => .ok .cdnRedirect
  | .malformed err => .ok (.malformed err)
  | .error err => .error err

/-- A turn with the server. -/
def next (d : Download) (t : Turn Answer) : Download :=
  d.turn kind { t with answer := serve file d.getFile t.answer }

/-- The same for the iterator. -/
def iterNext (it : DownloadIter) (t : IterTurn Answer) : DownloadIter :=
  match it.request, t with
  | some req, .answered answer connection => it.turn (.answered (serve file req answer) connection)
  | _, .unopened err => it.turn (.unopened err)
  | none, _ => it

/-- A download with the server. -/
def run (homeDcId dcId : Int32) (connection : Except InvocationError Unit) (turns : List (Turn Answer)) : Download :=
  Run.final (next kind file) (.begin kind homeDcId dcId connection) turns

/-- The iterator, called again and again, from where the download starts. -/
def iterRun (dcId : Int32) (turns : List (IterTurn Answer)) : DownloadIter :=
  Run.final (iterNext file) ((DownloadIter.new dcId).startAt kind.start) turns

/-- Success means all the bytes, and that the iterator gives the same ones, with the same answers. -/
def Exact (homeDcId dcId : Int32) (connection : Except InvocationError Unit) (turns : List (Turn Answer)) : Prop :=
  (run kind file homeDcId dcId connection turns).result = some (.ok ()) →
    (run kind file homeDcId dcId connection turns).bytes = file.drop kind.start ∧
      ∀ iterTurns : List (IterTurn Answer), iterTurns.filterMap IterTurn.answer = turns.map Turn.answer →
        (iterRun kind file dcId iterTurns).Ended ∧
          (iterRun kind file dcId iterTurns).bytes = (run kind file homeDcId dcId connection turns).bytes

/-- The loop is told to go to a CDN, and nothing fails in this turn. -/
def Redirected (d : Download) (t : Turn Answer) : Prop :=
  d.result = none ∧ Download.polled kind t = .ok () ∧ t.answer = .cdnRedirect ∧
    (Download.finish kind d t).result = some (.ok ())

end Server

/-! What a turn does. -/

section Turns
variable {kind : Kind} {file : List UInt8}

/-- The answer plays no part in the polling, nor behind the loop. -/
theorem polled_answer {α β : Type} (t : Turn α) (a : β) :
    Download.polled kind { t with answer := a } = Download.polled kind t := by
  unfold Download.polled
  split <;> rfl

theorem finish_answer {α β : Type} (d : Download) (t : Turn α) (a : β) :
    Download.finish kind d { t with answer := a } = Download.finish kind d t := by
  cases kind <;> rfl

@[simp] theorem getFile_offset (d : Download) : d.getFile.offset = d.offset := rfl
@[simp] theorem getFile_limit (d : Download) : d.getFile.limit = chunk := rfl

theorem next_of_result {d : Download} {r : Except InvocationError Unit} (h : d.result = some r) (t : Turn Answer) :
    next kind file d t = d := by
  unfold next Download.turn
  rw [h]

theorem iterNext_of_done {it : DownloadIter} (h : it.done = true) (t : IterTurn Answer) : iterNext file it t = it := by
  unfold iterNext DownloadIter.turn
  cases it.request <;> cases t <;> simp [h]

@[simp] theorem give_last (it : DownloadIter) (r : Except InvocationError (Option (List UInt8))) :
    (it.give r).results.getLast? = some r := List.getLast?_concat

@[simp] theorem give_error_bytes (it : DownloadIter) (err : InvocationError) :
    (it.give (.error err)).bytes = it.bytes := by
  simp [DownloadIter.give, DownloadIter.bytes]

@[simp] theorem give_none_bytes (it : DownloadIter) : (it.give (.ok none)).bytes = it.bytes := by
  simp [DownloadIter.give, DownloadIter.bytes]

@[simp] theorem give_some_bytes (it : DownloadIter) (part : List UInt8) :
    (it.give (.ok (some part))).bytes = it.bytes ++ part := by
  simp [DownloadIter.give, DownloadIter.bytes]

/-- Both are at the same place, with the same bytes. -/
structure Going (kind : Kind) (file : List UInt8) (d : Download) (it : DownloadIter) : Prop where
  running : d.result = none
  iterating : it.done = false
  request : it.request = some d.getFile
  same : it.bytes = d.bytes
  rest : d.bytes ++ file.drop d.offset = file.drop kind.start

/-- Both are on their way, or the download has failed, or both are through. -/
def Together (kind : Kind) (file : List UInt8) (d : Download) (it : DownloadIter) : Prop :=
  Going kind file d it ∨ (∃ err, d.result = some (.error err)) ∨
    (d.result = some (.ok ()) ∧ d.bytes = file.drop kind.start ∧ it.Ended ∧ it.bytes = d.bytes)

/-- An answer that is an error leaves the iterator where it is. -/
theorem iter_error {it : DownloadIter} {req : GetFile} (hopen : it.done = false) (hreq : it.request = some req)
    (err : InvocationError) (connection : Except InvocationError Unit) :
    (iterNext file it (.answered (.error err) connection)).done = false ∧
      (iterNext file it (.answered (.error err) connection)).request = some req ∧
      (iterNext file it (.answered (.error err) connection)).bytes = it.bytes := by
  have hturn : iterNext file it (.answered (.error err) connection) =
      { it with connected := true }.answered req connection (.error err) := by
    unfold iterNext DownloadIter.turn serve
    simp [hopen, hreq]
  rw [hturn]
  cases err with
  | rpc rpc =>
    unfold DownloadIter.answered
    dsimp only
    split
    · -- a redirect to another DC
      cases connection with
      | ok u => exact ⟨hopen, hreq, rfl⟩
      | error e => exact ⟨hopen, hreq, give_error_bytes _ e⟩
    · exact ⟨hopen, hreq, give_error_bytes _ _⟩
  | _ => exact ⟨hopen, hreq, give_error_bytes _ _⟩

/-- A reopened connection changes nothing else, or fails. -/
theorem reopen_cases (d : Download) {α : Type} (t : Turn α) : d.reopen t = d ∨ ∃ err, d.reopen t = d.fail err := by
  unfold Download.reopen
  cases t.connection with
  | ok u => exact Or.inl rfl
  | error err => exact Or.inr ⟨err, rfl⟩

/-- An error that the loop survives leaves it where it is. -/
theorem refused_cases (d : Download) {α : Type} (t : Turn α) (rpc : RpcError) :
    (d.refused t rpc).bytes = d.bytes ∧ ((∃ err, (d.refused t rpc).result = some (.error err)) ∨
      ((d.refused t rpc).result = d.result ∧ (d.refused t rpc).offset = d.offset)) := by
  have hreopen : ∀ d' : Download, d'.result = d.result → d'.offset = d.offset → d'.bytes = d.bytes →
      (d'.reopen t).bytes = d.bytes ∧ ((∃ err, (d'.reopen t).result = some (.error err)) ∨
        ((d'.reopen t).result = d.result ∧ (d'.reopen t).offset = d.offset)) := by
    intro d' hresult hoffset hbytes
    rcases reopen_cases d' t with heq | ⟨err, heq⟩
    · rw [heq]
      exact ⟨hbytes, Or.inr ⟨hresult, hoffset⟩⟩
    · rw [heq]
      exact ⟨hbytes, Or.inl ⟨err, rfl⟩⟩
  unfold Download.refused
  dsimp only
  split
  · split
    · exact ⟨rfl, Or.inl ⟨_, rfl⟩⟩
    · exact hreopen _ rfl rfl rfl
  · split
    · split
      · exact ⟨rfl, Or.inl ⟨_, rfl⟩⟩
      · exact hreopen _ rfl rfl rfl
    · exact ⟨rfl, Or.inl ⟨_, rfl⟩⟩

/-- Both have failed to get a part, or the download gave up. -/
theorem Going.of_error {d d' : Download} {it : DownloadIter} (h : Going kind file d it) (err : InvocationError)
    (connection : Except InvocationError Unit)
    (hsame : d'.bytes = d.bytes)
    (hd : (∃ e, d'.result = some (.error e)) ∨ (d'.result = d.result ∧ d'.offset = d.offset)) :
    Together kind file d' (iterNext file it (.answered (.error err) connection)) := by
  obtain ⟨hopen, hreq, hbytes⟩ := @iter_error file it d.getFile h.iterating h.request err connection
  rcases hd with ⟨e, he⟩ | ⟨hresult, hoffset⟩
  · exact Or.inr (Or.inl ⟨e, he⟩)
  · refine Or.inl ⟨hresult.trans h.running, hopen, ?_, ?_, ?_⟩
    · rw [hreq, Download.getFile, Download.getFile, hoffset]
    · rw [hbytes, hsame, h.same]
    · rw [hsame, hoffset, h.rest]

/-- A part shorter than asked ends the iteration. -/
theorem parsed_short (it : DownloadIter) {req : GetFile} {part : List UInt8} (h : part.length < req.limit) :
    (it.parsed req (.file part)).Ended ∧ (it.parsed req (.file part)).bytes = it.bytes ++ part := by
  unfold DownloadIter.parsed
  simp only [if_pos h]
  by_cases hempty : part = []
  · rw [if_pos ⟨hempty, h⟩, hempty, List.append_nil]
    exact ⟨⟨rfl, none, give_last _ _⟩, give_none_bytes _⟩
  · rw [if_neg (fun hnone => hempty hnone.1)]
    exact ⟨⟨rfl, some part, give_last _ _⟩, give_some_bytes _ part⟩

theorem parsed_full (it : DownloadIter) {req : GetFile} {part : List UInt8} (h : ¬ part.length < req.limit) :
    it.parsed req (.file part) =
      { it with request := some { req with offset := req.offset + req.limit } }.give (.ok (some part)) := by
  unfold DownloadIter.parsed
  dsimp only
  rw [if_neg h, if_neg (fun hempty => h hempty.2)]

theorem finish_cases (kind : Kind) (d : Download) {α : Type} (t : Turn α) :
    (Download.finish kind d t).bytes = d.bytes ∧ ((Download.finish kind d t).result = some (.ok ()) ∨
      ∃ err, (Download.finish kind d t).result = some (.error err)) := by
  cases kind with
  | sequential => exact ⟨rfl, Or.inl rfl⟩
  | streaming handle startOffset =>
    refine ⟨rfl, ?_⟩
    cases hf : t.flushed with
    | ok u => exact Or.inl (congrArg some hf)
    | error err => exact Or.inr ⟨err, congrArg some hf⟩

/-- A part is stored, or the beginning of it and the loop is left. -/
theorem received_cases (kind : Kind) (d : Download) {α : Type} (t : Turn α) (part : List UInt8) :
    d.received kind t part = { d with reopenAttempts := 0 }.stored kind t part ∨
      ∃ piece err, piece <+: part ∧
        d.received kind t part = { d with reopenAttempts := 0, bytes := d.bytes ++ piece }.fail err := by
  unfold Download.received
  dsimp only
  cases kind with
  | sequential => exact Or.inl rfl
  | streaming handle startOffset =>
    cases hwritten : t.written with
    | ok u => exact Or.inl rfl
    | error e => exact Or.inr ⟨part.take e.1, e.2, List.take_prefix e.1 part, rfl⟩

/-- The part that was asked for. -/
theorem Going.of_part {d : Download} {it : DownloadIter} (h : Going kind file d it) (t : Turn (Except InvocationError Reply))
    (connection : Except InvocationError Unit) :
    Together kind file (d.received kind t ((file.drop d.offset).take chunk)) (iterNext file it (.answered .part connection)) := by
  have hturn : iterNext file it (.answered .part connection) =
      { it with connected := true }.parsed d.getFile (.file ((file.drop d.offset).take chunk)) := by
    unfold iterNext DownloadIter.turn serve
    simp [h.iterating, h.request, DownloadIter.answered]
  -- what is behind the part
  have hrest : d.bytes ++ (file.drop d.offset).take chunk ++ file.drop (d.offset + chunk) = file.drop kind.start := by
    rw [List.append_assoc, ← List.drop_drop, List.take_append_drop, h.rest]
  have hstored : Together kind file ({ d with reopenAttempts := 0 }.stored kind t ((file.drop d.offset).take chunk))
      (iterNext file it (.answered .part connection)) := by
    rw [hturn]
    unfold Download.stored
    dsimp only
    by_cases hshort : ((file.drop d.offset).take chunk).length < chunk
    · -- the last part
      have hend : file.drop (d.offset + chunk) = [] := by
        apply List.drop_eq_nil_of_le
        rw [List.length_take, List.length_drop] at hshort
        omega
      rw [hend, List.append_nil] at hrest
      rw [if_pos hshort]
      obtain ⟨hended, hbytes⟩ := @parsed_short { it with connected := true } d.getFile _ hshort
      obtain ⟨hsame, hok | herr⟩ := finish_cases kind
        { d with reopenAttempts := 0, bytes := d.bytes ++ (file.drop d.offset).take chunk } t
      · refine Or.inr (Or.inr ⟨hok, hsame.trans hrest, hended, ?_⟩)
        rw [hbytes, hsame]
        exact congrArg (· ++ _) h.same
      · exact Or.inr (Or.inl herr)
    · -- a full part
      rw [if_neg hshort, parsed_full _ hshort]
      refine Or.inl ⟨h.running, h.iterating, rfl, ?_, hrest⟩
      rw [give_some_bytes]
      exact congrArg (· ++ _) h.same
  rcases received_cases kind d t ((file.drop d.offset).take chunk) with heq | ⟨piece, err, -, heq⟩
  · rwa [heq]
  · rw [heq]
    exact Or.inr (Or.inl ⟨err, rfl⟩)

/-- A turn of both with one answer. -/
theorem Going.turn {d : Download} {it : DownloadIter} (h : Going kind file d it) {t : Turn Answer}
    (hno : ¬ Redirected kind d t) (connection : Except InvocationError Unit) :
    Together kind file (next kind file d t) (iterNext file it (.answered t.answer connection)) := by
  unfold next Download.turn
  rw [h.running]
  rw [polled_answer]
  cases hp : Download.polled kind t with
  | error err => exact Or.inr (Or.inl ⟨err, rfl⟩)
  | ok u =>
    dsimp only
    unfold Download.answered
    dsimp only
    cases ha : t.answer with
    | part => exact h.of_part _ connection
    | cdnRedirect =>
      -- the flush behind the loop has failed
      dsimp only [serve]
      refine Or.inr (Or.inl ?_)
      rw [finish_answer]
      rcases (finish_cases kind d t).2 with hok | herr
      · exact absurd ⟨h.running, hp, ha, hok⟩ hno
      · exact herr
    | malformed err => exact Or.inr (Or.inl ⟨err, rfl⟩)
    | error err =>
      cases err with
      | rpc rpc =>
        obtain ⟨hsame, hresult⟩ := refused_cases d { t with answer := serve file d.getFile (.error (.rpc rpc)) } rpc
        exact h.of_error (.rpc rpc) connection hsame hresult
      | _ => exact h.of_error _ connection rfl (Or.inl ⟨_, rfl⟩)

/-- A failed first connection of the iterator. -/
theorem Together.unopened {d : Download} {it : DownloadIter} (h : Together kind file d it) (err : InvocationError) :
    Together kind file d (iterNext file it (.unopened err)) := by
  rcases h with h | h | ⟨hresult, hbytes, hended, hsame⟩
  · have hturn : iterNext file it (.unopened err) = if it.connected then it else it.give (.error err) := by
      unfold iterNext DownloadIter.turn
      simp [h.iterating, h.request]
    rw [hturn]
    split
    · exact Or.inl h
    · exact Or.inl ⟨h.running, h.iterating, h.request, (give_error_bytes it err).trans h.same, h.rest⟩
  · exact Or.inr (Or.inl h)
  · rw [iterNext_of_done hended.1]
    exact Or.inr (Or.inr ⟨hresult, hbytes, hended, hsame⟩)

/-- What has been received, and what is still to come while the loop runs. -/
structure Rest (kind : Kind) (file : List UInt8) (d : Download) : Prop where
  received : d.bytes <+: file.drop kind.start
  rest : d.result = none → d.bytes ++ file.drop d.offset = file.drop kind.start

theorem Rest.of_same {d d' : Download} (h : Rest kind file d) (hbytes : d'.bytes = d.bytes)
    (hrest : (∃ r, d'.result = some r) ∨ (d'.result = d.result ∧ d'.offset = d.offset)) : Rest kind file d' := by
  refine ⟨hbytes ▸ h.received, fun hrunning => ?_⟩
  rcases hrest with ⟨r, hr⟩ | ⟨hresult, hoffset⟩
  · exact absurd (hrunning.symm.trans hr) nofun
  · rw [hbytes, hoffset]
    exact h.rest (hresult ▸ hrunning)

/-- A part, of which all or the beginning is stored. -/
theorem Rest.of_part {d : Download} (h : Rest kind file d) (hrunning : d.result = none)
    (t : Turn (Except InvocationError Reply)) :
    Rest kind file (d.received kind t ((file.drop d.offset).take chunk)) := by
  have hpart : ∀ piece, piece <+: file.drop d.offset → d.bytes ++ piece <+: file.drop kind.start := by
    intro piece hpiece
    rw [← h.rest hrunning]
    exact (List.prefix_append_right_inj d.bytes).mpr hpiece
  have hwhole := hpart _ (List.take_prefix chunk (file.drop d.offset))
  have hstored : Rest kind file ({ d with reopenAttempts := 0 }.stored kind t ((file.drop d.offset).take chunk)) := by
    unfold Download.stored
    dsimp only
    split
    · obtain ⟨hsame, hok | ⟨err, herr⟩⟩ := finish_cases kind
        { d with reopenAttempts := 0, bytes := d.bytes ++ (file.drop d.offset).take chunk } t
      · exact ⟨hsame ▸ hwhole, fun hnone => absurd (hnone.symm.trans hok) nofun⟩
      · exact ⟨hsame ▸ hwhole, fun hnone => absurd (hnone.symm.trans herr) nofun⟩
    · refine ⟨hwhole, fun _ => ?_⟩
      rw [List.append_assoc, ← List.drop_drop, List.take_append_drop, h.rest hrunning]
  rcases received_cases kind d t ((file.drop d.offset).take chunk) with heq | ⟨piece, err, hpiece, heq⟩
  · rwa [heq]
  · rw [heq]
    exact ⟨hpart piece (hpiece.trans (List.take_prefix chunk _)), nofun⟩

theorem next_rest {d : Download} (h : Rest kind file d) (t : Turn Answer) : Rest kind file (next kind file d t) := by
  cases hresult : d.result with
  | some r => rwa [next_of_result hresult]
  | none =>
    unfold next Download.turn
    rw [hresult]
    cases Download.polled kind { t with answer := serve file d.getFile t.answer } with
    | error err => exact h.of_same rfl (Or.inl ⟨_, rfl⟩)
    | ok u =>
      dsimp only
      unfold Download.answered
      dsimp only
      cases t.answer with
      | part => exact h.of_part hresult _
      | cdnRedirect =>
        dsimp only [serve]
        rw [finish_answer]
        obtain ⟨hsame, hok | ⟨err, herr⟩⟩ := finish_cases kind d t
        · exact h.of_same hsame (Or.inl ⟨_, hok⟩)
        · exact h.of_same hsame (Or.inl ⟨_, herr⟩)
      | malformed err => exact h.of_same rfl (Or.inl ⟨_, rfl⟩)
      | error err =>
        cases err with
        | rpc rpc =>
          obtain ⟨hbytes, hlost | hsame⟩ := refused_cases d { t with answer := serve file d.getFile (.error (.rpc rpc)) } rpc
          · obtain ⟨e, he⟩ := hlost
            exact h.of_same hbytes (Or.inl ⟨_, he⟩)
          · exact h.of_same hbytes (Or.inr hsame)
        | _ => exact h.of_same rfl (Or.inl ⟨_, rfl⟩)

/-- Over any number of turns without a redirect. -/
theorem Together.run {turns : List (Turn Answer)} {iterTurns : List (IterTurn Answer)} {d : Download} {it : DownloadIter}
    (h : Together kind file d it) (hno : Run.AllSteps (next kind file) (fun d t => ¬ Redirected kind d t) d turns)
    (hsame : iterTurns.filterMap IterTurn.answer = turns.map Turn.answer) :
    Together kind file (Run.final (next kind file) d turns) (Run.final (iterNext file) it iterTurns) := by
  have hheard : turns.filterMap (fun t => some t.answer) = iterTurns.filterMap IterTurn.answer := by
    rw [List.filterMap_eq_map']
    exact hsame.symm
  refine Run.final_lockstep ?_ ?_ ?_ turns iterTurns d it h hno hheard
  · intro _ _ _ _ _ hsilent
    cases hsilent
  · intro d it k h hsilent
    cases k with
    | unopened err => exact h.unopened err
    | answered answer connection => cases hsilent
  · intro d it t k a hno h ht hk
    cases k with
    | unopened err => cases hk
    | answered answer connection =>
      obtain rfl : answer = t.answer := Option.some.inj (hk.trans ht.symm)
      rcases h with h | ⟨err, herr⟩ | ⟨hresult, hbytes, hended, hsame⟩
      · exact h.turn hno connection
      · rw [next_of_result herr]
        exact Or.inr (Or.inl ⟨err, herr⟩)
      · rw [next_of_result hresult, iterNext_of_done hended.1]
        exact Or.inr (Or.inr ⟨hresult, hbytes, hended, hsame⟩)

/-- A download that is still running. -/
theorem Together.going {d : Download} {it : DownloadIter} (h : Together kind file d it) (hrunning : d.result = none) :
    Going kind file d it := by
  rcases h with h | ⟨err, herr⟩ | ⟨hresult, -⟩
  · exact h
  · exact absurd (hrunning.symm.trans herr) nofun
  · exact absurd (hrunning.symm.trans hresult) nofun

/-- The redirect: the download is through, and the iterator has failed. -/
theorem Going.redirected {d : Download} {it : DownloadIter} (h : Going kind file d it) {t : Turn Answer}
    (hred : Redirected kind d t) :
    (next kind file d t).result = some (.ok ()) ∧ (iterNext file it (.answered t.answer (.ok ()))).done = true ∧
      (iterNext file it (.answered t.answer (.ok ()))).results.getLast? = some (.error cdnIgnored) := by
  obtain ⟨hrunning, hpolled, hanswer, hok⟩ := hred
  have hturn : next kind file d t = Download.finish kind d t := by
    unfold next Download.turn
    rw [hrunning, polled_answer, hpolled, hanswer]
    exact finish_answer d t _
  have hiter : iterNext file it (.answered t.answer (.ok ())) =
      { it with connected := true, done := true }.give (.error cdnIgnored) := by
    rw [hanswer]
    unfold iterNext DownloadIter.turn serve
    simp [h.iterating, h.request, DownloadIter.answered, DownloadIter.parsed]
  refine ⟨?_, ?_, ?_⟩
  · rw [hturn, hok]
  · rw [hiter]
    rfl
  · rw [hiter]
    exact give_last _ _

theorem aligned_start (kind : Kind) : kind.start / (512 * 1024) * (512 * 1024) = kind.start := by
  cases kind with
  | sequential => rfl
  | streaming handle startOffset =>
    simp only [Kind.start]
    omega

theorem begin_together (kind : Kind) (file : List UInt8) (homeDcId dcId : Int32)
    (connection : Except InvocationError Unit) :
    Together kind file (.begin kind homeDcId dcId connection) ((DownloadIter.new dcId).startAt kind.start) := by
  cases connection with
  | error err => exact Or.inr (Or.inl ⟨err, rfl⟩)
  | ok u =>
    refine Or.inl ⟨rfl, rfl, ?_, rfl, rfl⟩
    unfold DownloadIter.startAt DownloadIter.new
    rw [Option.map_some, aligned_start]
    rfl

end Turns

/-- The loop is told to go to a CDN in no turn. -/
def NoRedirect (kind : Kind) (file : List UInt8) (homeDcId dcId : Int32) (connection : Except InvocationError Unit)
    (turns : List (Turn Answer)) : Prop :=
  Run.AllSteps (next kind file) (fun d t => ¬ Redirected kind d t) (.begin kind homeDcId dcId connection) turns

/-- The same answers, and connections that do not fail. -/
def echo (turns : List (Turn Answer)) : List (IterTurn Answer) := turns.map fun t => .answered t.answer (.ok ())

theorem echo_answers : ∀ turns, (echo turns).filterMap IterTurn.answer = turns.map Turn.answer
  | [] => rfl
  | t :: turns => congrArg (t.answer :: ·) (echo_answers turns)

section Runs
variable {kind : Kind} {file : List UInt8} {homeDcId dcId : Int32} {connection : Except InvocationError Unit}
  {turns : List (Turn Answer)}

/-- What a download has received at any time is the beginning of what it is to receive. -/
theorem run_prefix (kind : Kind) (file : List UInt8) (homeDcId dcId : Int32) (connection : Except InvocationError Unit)
    (turns : List (Turn Answer)) : (run kind file homeDcId dcId connection turns).bytes <+: file.drop kind.start := by
  have hbegin : Rest kind file (.begin kind homeDcId dcId connection) := ⟨List.nil_prefix, fun _ => rfl⟩
  exact (Run.states_inv_all (I := Rest kind file) (next kind file) (fun _ t h => next_rest h t) turns _ hbegin _
    (Run.final_mem_states _ turns _)).received

/-- A download that is not redirected, and returns success. -/
theorem run_complete (hno : NoRedirect kind file homeDcId dcId connection turns) :
    Exact kind file homeDcId dcId connection turns := by
  intro hok
  have hend : ∀ iterTurns : List (IterTurn Answer), iterTurns.filterMap IterTurn.answer = turns.map Turn.answer →
      (run kind file homeDcId dcId connection turns).bytes = file.drop kind.start ∧
        (iterRun kind file dcId iterTurns).Ended ∧
        (iterRun kind file dcId iterTurns).bytes = (run kind file homeDcId dcId connection turns).bytes := by
    intro iterTurns hsame
    rcases (begin_together kind file homeDcId dcId connection).run hno hsame with h | ⟨err, herr⟩ | ⟨-, hbytes, hended, hiter⟩
    · exact absurd (h.running.symm.trans hok) nofun
    · exact absurd (herr.symm.trans hok) nofun
    · exact ⟨hbytes, hended, hiter⟩
  refine ⟨?_, fun iterTurns hsame => (hend iterTurns hsame).2⟩
  exact (hend (echo turns) (echo_answers turns)).1

end Runs

/-- **The sequential downloads** return success with all the bytes, and with those of the iterator,
exactly if the server does not redirect them to a CDN. -/
theorem sequential_exact_iff (kind : Kind) (file : List UInt8) (homeDcId dcId : Int32)
    (connection : Except InvocationError Unit) (turns : List (Turn Answer)) :
    Exact kind file homeDcId dcId connection turns ↔ NoRedirect kind file homeDcId dcId connection turns := by
  have hbegin := begin_together kind file homeDcId dcId connection
  constructor
  · intro hexact
    by_contra hsome
    obtain ⟨before, t, after, rfl, hbefore, hred⟩ := Run.exists_first turns _ hsome
    rw [not_not] at hred
    -- The iterator hears the same and needs no connection that fails.
    have htogether := hbegin.run hbefore (echo_answers before)
    obtain ⟨hresult, hdone, hlast⟩ := (htogether.going hred.1).redirected hred
    have hrun : run kind file homeDcId dcId connection (before ++ t :: after) =
        next kind file (Run.final (next kind file) (.begin kind homeDcId dcId connection) before) t := by
      rw [run, Run.final_append]
      exact Run.final_of_fixed (fun t => next_of_result hresult t) after
    have hiter : iterRun kind file dcId (echo (before ++ t :: after)) =
        iterNext file (Run.final (iterNext file) ((DownloadIter.new dcId).startAt kind.start) (echo before))
          (.answered t.answer (.ok ())) := by
      rw [iterRun, echo, List.map_append, Run.final_append]
      exact Run.final_of_fixed (fun t => iterNext_of_done hdone t) _
    obtain ⟨-, hagree⟩ := hexact (by rw [hrun]; exact hresult)
    obtain ⟨⟨-, part, hpart⟩, -⟩ := hagree (echo (before ++ t :: after)) (echo_answers _)
    rw [hiter, hlast] at hpart
    cases hpart
  · exact run_complete

/-- The first answer is the redirect, and nothing fails. -/
def redirectedAtOnce : List (Turn Answer) :=
  [{ handle := .ok (), answer := .cdnRedirect, written := .ok (), connection := .ok (), flushed := .ok () }]

/-- Nothing of a file has been received, and the download returns success. -/
theorem redirected_cut : ¬ ∀ (kind : Kind) (file : List UInt8) (homeDcId dcId : Int32)
    (connection : Except InvocationError Unit) (turns : List (Turn Answer)),
    Exact kind file homeDcId dcId connection turns := by
  intro h
  have hbytes := (h .sequential [1] 2 0 (.ok ()) redirectedAtOnce rfl).1
  exact absurd hbytes (by decide)

end Ferogram.Media.SequentialDownload
