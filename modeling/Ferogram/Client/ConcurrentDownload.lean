import Mathlib.Data.List.Nodup
import Ferogram.Client.PipelinedDownload

/- The parallel download to memory, `download_concurrent` of `ferogram/src/media.rs`.

   The workers claim parts from a shared counter and request one part at a time; what they
   receive goes through a bounded channel to the caller, which puts it into the slot of its
   part. A worker that gives up stores the abort flag and then returns its error. The caller
   looks at the flag after each part; it stops receiving when the flag is set or the channel
   is closed, takes what is still buffered, and waits for the workers. The first error among
   them is its own; without one it joins the slots that are filled.

   The model begins when the connections of the workers are open: there is at least one,
   else the download is sequential. A worker may also panic, anywhere.

   What is proved: `download_complete`. Who sets the flag returns an error, so if nobody did,
   no worker has left early, the channel was empty when it was closed, and every slot is
   filled with the one answer for its part. -/
namespace Ferogram.Media.ConcurrentDownload
open Chunks
open Mtsender (RpcError InvocationError)
open PipelinedDownload (chunk nParts expected chunk_pos)

/-- `upload.File`, or the error for what does not parse as one. -/
inductive Reply where
  | file (bytes : List UInt8)
  | cdnRedirect
  | malformed (err : InvocationError)
  deriving DecidableEq

/-- Where a worker waits. `reopening` is for a new connection, after a pause or at once;
`failing` is behind the store of the flag. -/
inductive Pc where
  | top
  | claiming
  | calling (part : Nat)
  | flooded (part : Nat)
  | reopening (part : Nat)
  | sending (part : Nat) (bytes : List UInt8)
  | failing (err : InvocationError)
  | done
  | failed (err : InvocationError)
  deriving DecidableEq

structure Worker where
  workerDc : Int32
  totalReconnects : Nat
  pc : Pc
  deriving DecidableEq

/-- `closed` is when the receiver is gone. What was ever sent, and what the server has answered
for a part, are for the statements. -/
structure Shared where
  nextPart : Nat
  abort : Bool
  channel : List (Nat × List UInt8)
  closed : Bool
  sent : List (Nat × List UInt8)
  answered : List (Nat × List UInt8)
  deriving DecidableEq

inductive WorkerEvent where
  | go
  | lock
  | answer (result : Except InvocationError Reply)
  | slept
  | connection (result : Except InvocationError Unit)
  | panic (err : InvocationError)

section Step
variable (size capacity : Nat)

/-- `abort.store(true)`, before an error. -/
def giveUp (s : Shared) (w : Worker) (err : InvocationError) : Shared × Worker :=
  ({ s with abort := true }, { w with pc := .failing err })

/-- A pause and a new connection, unless there have been too many, or somebody has failed. -/
def backoff (s : Shared) (w : Worker) (part : Nat) (err : InvocationError) : Shared × Worker :=
  let w := { w with totalReconnects := w.totalReconnects + 1 }
  if maxWorkerReconnects ≤ w.totalReconnects then giveUp s w err
  else if s.abort then giveUp s w err
  else (s, { w with pc := .reopening part })

def wrongLength (part got : Nat) : InvocationError :=
  .deserialize ("download part " ++ toString part ++ ": expected " ++ toString (expected size part) ++ " B, got " ++
    toString got ++ " B")

def cdnRedirected : InvocationError :=
  .deserialize "upload.fileCdnRedirect: CDN redirect received in concurrent download"

/-- `upload.getFile`, of the location. -/
structure GetFile where
  precise : Bool
  cdnSupported : Bool
  offset : Nat
  limit : Nat

def getFile (part : Nat) : GetFile where
  precise := true
  cdnSupported := false
  offset := part * chunk size
  limit := chunk size

/-- The answer to the request for the part. -/
def answered (s : Shared) (w : Worker) (part : Nat) : Except InvocationError Reply → Shared × Worker
  | .ok (.file bytes) =>
    let s := { s with answered := s.answered ++ [(part, bytes)] }
    if bytes.length ≠ expected size part then giveUp s w (wrongLength size part bytes.length)
    else (s, { w with pc := .sending part bytes })
  | .ok .cdnRedirect => giveUp s w cdnRedirected
  | .ok (.malformed err) => (s, { w with pc := .failed err })
  | .error (.rpc rpc) =>
    if rpc.code = 420 then if s.abort then giveUp s w (.rpc rpc) else (s, { w with pc := .flooded part })
    else if rpc.code = 303 then (s, { w with workerDc := redirectDc rpc, pc := .reopening part })
    else if rpc.name = "AUTH_KEY_UNREGISTERED" then backoff s w part (.rpc rpc)
    else if rpc.code ≠ -503 then giveUp s w (.rpc rpc)
    else backoff s w part (.rpc rpc)
  | .error err => backoff s w part err

def step (s : Shared) (w : Worker) (e : WorkerEvent) : Shared × Worker :=
  match w.pc, e with
  | .done, _ => (s, w)
  | .failed _, _ => (s, w)
  | _, .panic err => (s, { w with pc := .failed err })
  | .top, .go => (s, { w with pc := if s.abort then .done else .claiming })
  | .claiming, .lock =>
    if nParts size ≤ s.nextPart then (s, { w with pc := .done })
    else ({ s with nextPart := s.nextPart + 1 }, { w with pc := .calling s.nextPart })
  | .calling part, .answer result => answered size s w part result
  | .flooded part, .slept => (s, { w with pc := .calling part })
  | .reopening part, .connection (.ok ()) => (s, { w with pc := .calling part })
  | .reopening _, .connection (.error err) => giveUp s w err
  | .sending part bytes, .go =>
    if s.closed then (s, { w with pc := .done })
    else if s.channel.length < capacity then
      ({ s with channel := s.channel ++ [(part, bytes)], sent := s.sent ++ [(part, bytes)] }, { w with pc := .top })
    else (s, w)
  | .failing err, .go => (s, { w with pc := .failed err })
  | _, _ => (s, w)

end Step

/-! The caller. -/

/-- `checking` is between a part and the look at the flag. -/
inductive Phase where
  | receiving
  | checking
  | draining
  | joining
  | returned (result : Except InvocationError (List UInt8))
  deriving DecidableEq

structure System where
  crew : Crew Shared Worker
  parts : List (Option (List UInt8))
  joined : List Nat
  phase : Phase

inductive Event where
  | worker (i : Nat) (e : WorkerEvent)
  | go
  | join (i : Nat)

/-- Its sender is dropped. -/
def Pc.ended : Pc → Bool
  | .done | .failed _ => true
  | _ => false

/-- The part at the front of the channel is put into its slot. -/
def System.take (x : System) (m : Nat × List UInt8) (rest : List (Nat × List UInt8)) (phase : Phase) : System :=
  { x with
    crew := { x.crew with shared := { x.crew.shared with channel := rest } }
    parts := x.parts.set m.1 (some m.2)
    phase := phase }

/-- The receiver is dropped with the call. -/
def System.finish (x : System) (result : Except InvocationError (List UInt8)) : System :=
  { x with
    crew := { x.crew with shared := { x.crew.shared with closed := true } }
    phase := .returned result }

def assemble (size : Nat) (parts : List (Option (List UInt8))) : List UInt8 := (parts.filterMap id).flatten.take size

section
variable (size capacity : Nat)

def go (x : System) : System :=
  match x.phase, x.crew.shared.channel with
  | .receiving, m :: rest => x.take m rest .checking
  | .receiving, [] => if x.crew.workers.all (·.pc.ended) then { x with phase := .draining } else x
  | .checking, _ => { x with phase := if x.crew.shared.abort then .draining else .receiving }
  | .draining, m :: rest => x.take m rest .draining
  | .draining, [] => { x with phase := .joining }
  | .joining, _ =>
    if (List.range x.crew.workers.length).all (· ∈ x.joined) then x.finish (.ok (assemble size x.parts)) else x
  | .returned _, _ => x

/-- `join_next`, with this one. -/
def join (x : System) (i : Nat) : System :=
  match x.phase, x.crew.workers[i]? with
  | .joining, some w =>
    if i ∈ x.joined then x
    else
      match w.pc with
      | .done => { x with joined := i :: x.joined }
      | .failed err => x.finish (.error err)
      | _ => x
  | _, _ => x

def next (x : System) : Event → System
  | .worker i e => { x with crew := Crew.next (step size capacity) x.crew (i, e) }
  | .go => go size x
  | .join i => join x i

end

/-- The workers on their connections, before the first step. -/
def start (size workers : Nat) (dc : Int32) : System where
  crew :=
    { shared := { nextPart := 0, abort := false, channel := [], closed := false, sent := [], answered := [] }
      workers := List.replicate workers { workerDc := dc, totalReconnects := 0, pc := .top } }
  parts := List.replicate (nParts size) none
  joined := []
  phase := .receiving

/-- The steps of the workers and the caller, in any order. -/
def run (size workers : Nat) (dc : Int32) (events : List Event) : System :=
  Run.final (next size (workers * 2)) (start size workers dc) events

/-! What a worker can do. -/

/-- The part a worker requests. -/
def Pc.awaits : Pc → Option Nat
  | .calling part | .flooded part | .reopening part => some part
  | _ => none

/-- The part a worker has claimed and not sent. -/
def Pc.part? : Pc → Option Nat
  | .calling part | .flooded part | .reopening part | .sending part _ => some part
  | _ => none

/-- With an error, or about to return one. -/
def Pc.fails : Pc → Bool
  | .failing _ | .failed _ => true
  | _ => false

/-- A step of a worker. -/
inductive Moves (size : Nat) (s : Shared) (w : Worker) : Shared → Worker → Prop where
  | stay : Moves size s w s w
  | finish (hend : s.abort = true ∨ nParts size ≤ s.nextPart ∨ s.closed = true) (hpart : w.pc.part? = none ∨ s.closed = true)
      (hrun : w.pc.fails = false) : Moves size s w s { w with pc := .done }
  | look (hpc : w.pc = .top) : Moves size s w s { w with pc := .claiming }
  | claim (hpc : w.pc = .claiming) (hroom : s.nextPart < nParts size) :
      Moves size s w { s with nextPart := s.nextPart + 1 } { w with pc := .calling s.nextPart }
  | retry (part : Nat) (w' : Worker) (hpc : w.pc.awaits = some part) (hpc' : w'.pc.awaits = some part) :
      Moves size s w s w'
  | accept (part : Nat) (bytes : List UInt8) (hpc : w.pc = .calling part) (hlen : bytes.length = expected size part) :
      Moves size s w { s with answered := s.answered ++ [(part, bytes)] } { w with pc := .sending part bytes }
  | short (part : Nat) (bytes : List UInt8) (err : InvocationError) (hpc : w.pc = .calling part) :
      Moves size s w { s with answered := s.answered ++ [(part, bytes)], abort := true } { w with pc := .failing err }
  | giveUp (w' : Worker) (hpc' : w'.pc.fails = true) : Moves size s w { s with abort := true } w'
  | fail (err : InvocationError) : Moves size s w s { w with pc := .failed err }
  | send (part : Nat) (bytes : List UInt8) (hpc : w.pc = .sending part bytes) :
      Moves size s w { s with channel := s.channel ++ [(part, bytes)], sent := s.sent ++ [(part, bytes)] }
        { w with pc := .top }

section
variable {size capacity : Nat} {s s' : Shared} {w w' : Worker} {part : Nat}

theorem backoff_moves (hpc : w.pc = .calling part) (err : InvocationError) :
    Moves size s w (backoff s w part err).1 (backoff s w part err).2 := by
  have hawaits : w.pc.awaits = some part := by rw [hpc]; rfl
  unfold backoff
  dsimp only
  split
  · exact .giveUp _ rfl
  · split
    · exact .giveUp _ rfl
    · exact .retry part _ hawaits rfl

theorem answered_moves (hpc : w.pc = .calling part) (result : Except InvocationError Reply) :
    Moves size s w (answered size s w part result).1 (answered size s w part result).2 := by
  have hawaits : w.pc.awaits = some part := by rw [hpc]; rfl
  have hback : ∀ err, Moves size s w (backoff s w part err).1 (backoff s w part err).2 := backoff_moves hpc
  unfold answered
  split
  · next bytes =>
    dsimp only
    split
    · exact .short part bytes _ hpc
    · next hlen => exact .accept part bytes hpc (Classical.not_not.mp hlen)
  · exact .giveUp _ rfl
  · exact .fail _
  · split
    · split
      · exact .giveUp _ rfl
      · exact .retry part _ hawaits rfl
    split
    · exact .retry part _ hawaits rfl
    split
    · exact hback _
    split
    · exact .giveUp _ rfl
    · exact hback _
  · exact hback _

/-- Whatever the event, a worker does one of these things. -/
theorem step_moves (s : Shared) (w : Worker) (e : WorkerEvent) :
    Moves size s w (step size capacity s w e).1 (step size capacity s w e).2 := by
  unfold step
  split
  · exact .stay
  · exact .stay
  · exact .fail _
  · next hpc =>
    split
    · next habort => exact .finish (Or.inl habort) (Or.inl (by rw [hpc]; rfl)) (by rw [hpc]; rfl)
    · exact .look hpc
  · next hpc =>
    split
    · next hend => exact .finish (Or.inr (Or.inl hend)) (Or.inl (by rw [hpc]; rfl)) (by rw [hpc]; rfl)
    · next hroom => exact .claim hpc (Nat.lt_of_not_le hroom)
  · next hpc => exact answered_moves hpc _
  · next hpc => exact .retry _ _ (by rw [hpc]; rfl) rfl
  · next hpc => exact .retry _ _ (by rw [hpc]; rfl) rfl
  · exact .giveUp _ rfl
  · next part bytes hpc =>
    split
    · next hclosed => exact .finish (Or.inr (Or.inr hclosed)) (Or.inr hclosed) (by rw [hpc]; rfl)
    · split
      · exact .send part bytes hpc
      · exact .stay
  · exact .fail _
  · exact .stay

/-- A worker whose sender is dropped does nothing. -/
theorem step_ended (h : w.pc.ended = true) (e : WorkerEvent) : step size capacity s w e = (s, w) := by
  unfold step
  cases hpc : w.pc with
  | done => rfl
  | failed err => rfl
  | _ =>
    rw [hpc] at h
    cases h

theorem part?_of_awaits {pc : Pc} (h : pc.awaits = some part) : pc.part? = some part := by
  cases pc <;> first | exact h | cases h

theorem fails_of_awaits {pc : Pc} (h : pc.awaits = some part) : pc.fails = false := by
  cases pc <;> first | rfl | cases h

theorem awaits_of_fails {pc : Pc} (h : pc.fails = true) : pc.awaits = none := by
  cases pc <;> first | rfl | cases h

/-- A worker that fails goes on to return its error. -/
theorem fails_of_moves (h : Moves size s w s' w') (hfails : w.pc.fails = true) : w'.pc.fails = true := by
  cases h with
  | stay => exact hfails
  | finish hend hpart hrun =>
    rw [hrun] at hfails
    cases hfails
  | look hpc =>
    rw [hpc] at hfails
    cases hfails
  | claim hpc hroom =>
    rw [hpc] at hfails
    cases hfails
  | retry part w' hpc hpc' =>
    rw [fails_of_awaits hpc] at hfails
    cases hfails
  | accept part bytes hpc hlen =>
    rw [hpc] at hfails
    cases hfails
  | short part bytes err hpc => rfl
  | giveUp w' hpc' => exact hpc'
  | fail err => rfl
  | send part bytes hpc =>
    rw [hpc] at hfails
    cases hfails

/-! Every claimed part is sent, or a worker has it. -/

/-- Nothing is needed when the call has returned. -/
def Settled (s : Shared) (p : Nat) : Prop := s.closed = true ∨ p ∈ s.sent.map Prod.fst

/-- A worker that fails owes everything, since the call returns an error. -/
def Owes (_s : Shared) (w : Worker) (p : Nat) : Prop := w.pc.fails = true ∨ w.pc.part? = some p

def AtEnd (size : Nat) (s : Shared) : Prop := s.abort = true ∨ nParts size ≤ s.nextPart ∨ s.closed = true

def IsDone (w : Worker) : Prop := w.pc = .done

/-- A step that keeps the counter and what was sent. -/
theorem covers_self (hnext : s'.nextPart = s.nextPart) (hclosed : s'.closed = s.closed) (hsent : s'.sent = s.sent)
    (h : ∀ p, Owes s w p → Settled s' p ∨ Owes s' w' p) :
    Crew.StepCovers Shared.nextPart Settled Owes s w s' w' where
  settled := by
    intro p _ hp
    rw [Settled, hclosed, hsent]
    exact hp
  taken := by
    intro p hp hge
    rw [hnext] at hp
    exact absurd hp (Nat.not_lt.mpr hge)
  self := fun p _ hp => h p hp
  others := fun _ _ _ howes => howes

theorem covers_moves (h : Moves size s w s' w') : Crew.StepCovers Shared.nextPart Settled Owes s w s' w' := by
  -- From a place without a part nothing is owed.
  have hnone : w.pc.fails = false → w.pc.part? = none → ∀ p, ¬Owes s w p := by
    rintro hfails hpart p (howes | howes)
    · rw [hfails] at howes
      cases howes
    · rw [hpart] at howes
      cases howes
  cases h with
  | stay => exact Crew.StepCovers.of_worker fun _ h => h
  | finish hend hpart hrun =>
    refine covers_self rfl rfl rfl fun p howes => ?_
    rcases hpart with hpart | hclosed
    · exact absurd howes (hnone hrun hpart p)
    · exact Or.inl (Or.inl hclosed)
  | look hpc =>
    exact covers_self rfl rfl rfl fun p howes => absurd howes (hnone (by rw [hpc]; rfl) (by rw [hpc]; rfl) p)
  | claim hpc hroom =>
    refine ⟨fun _ _ h => h, ?_, ?_, fun _ _ _ h => h⟩
    · intro p hp hge
      obtain rfl : p = s.nextPart := Nat.le_antisymm (Nat.le_of_lt_succ hp) hge
      exact Or.inr (Or.inr rfl)
    · intro p _ howes
      exact absurd howes (hnone (by rw [hpc]; rfl) (by rw [hpc]; rfl) p)
  | retry part w' hpc hpc' =>
    refine covers_self rfl rfl rfl fun p howes => Or.inr (Or.inr ?_)
    rcases howes with howes | howes
    · rw [fails_of_awaits hpc] at howes
      cases howes
    · rw [part?_of_awaits hpc'] 
      exact (part?_of_awaits hpc).symm.trans howes
  | accept part bytes hpc hlen =>
    refine covers_self rfl rfl rfl fun p howes => Or.inr (Or.inr ?_)
    rw [Owes, hpc] at howes
    exact howes.resolve_left nofun
  | short part bytes err hpc => exact covers_self rfl rfl rfl fun p _ => Or.inr (Or.inl rfl)
  | giveUp w' hpc' => exact covers_self rfl rfl rfl fun p _ => Or.inr (Or.inl hpc')
  | fail err => exact covers_self rfl rfl rfl fun p _ => Or.inr (Or.inl rfl)
  | send part bytes hpc =>
    refine ⟨?_, fun _ hp hge => absurd hp (Nat.not_lt.mpr hge), ?_, fun _ _ _ h => h⟩
    · intro p _ hp
      refine hp.imp_right fun hmem => ?_
      rw [List.map_append]
      exact List.mem_append_left _ hmem
    · intro p _ howes
      rw [Owes, hpc] at howes
      obtain rfl : part = p := Option.some.inj (howes.resolve_left nofun)
      refine Or.inl (Or.inr ?_)
      rw [List.map_append]
      exact List.mem_append_right _ (List.mem_singleton.mpr rfl)

/-- A worker is done at the end only. -/
theorem done_of_moves (h : Moves size s w s' w') (hrun : w.pc ≠ .done) (hdone : w'.pc = .done) : AtEnd size s' := by
  cases h with
  | stay => exact absurd hdone hrun
  | finish hend _ _ => exact hend
  | retry part w' _ hpc' =>
    rw [hdone] at hpc'
    cases hpc'
  | giveUp w' hpc' =>
    rw [hdone] at hpc'
    cases hpc'
  | _ => cases hdone

/-! Every part is answered once. -/

def answeredCount (s : Shared) (p : Nat) : Nat := (s.answered.map Prod.fst).count p
def awaitCount (w : Worker) (p : Nat) : Nat := if w.pc.awaits = some p then 1 else 0
def dueCount (s : Shared) (p : Nat) : Nat := if p < s.nextPart then 1 else 0

theorem awaitCount_none (h : w.pc.awaits = none) (p : Nat) : awaitCount w p = 0 := by
  rw [awaitCount, h]
  exact if_neg nofun

theorem answeredCount_append (s : Shared) (part : Nat) (bytes : List UInt8) (p : Nat) :
    ((s.answered ++ [(part, bytes)]).map Prod.fst).count p = answeredCount s p + if part = p then 1 else 0 := by
  rw [List.map_append, List.count_append, answeredCount]
  simp [List.count_singleton]

/-- What is answered and awaited grows only with what is claimed. -/
theorem once_moves (h : Moves size s w s' w') (p : Nat) : answeredCount s' p + awaitCount w' p + dueCount s p ≤
    answeredCount s p + awaitCount w p + dueCount s' p := by
  -- an answer turns one that is waited for into one that is there
  have hanswer : ∀ part bytes, w.pc = .calling part →
      ((s.answered ++ [(part, bytes)]).map Prod.fst).count p = answeredCount s p + awaitCount w p := by
    intro part bytes hpc
    rw [answeredCount_append, awaitCount, hpc]
    simp [Pc.awaits]
  cases h with
  | stay => exact Nat.le_refl _
  | finish _ _ _ =>
    rw [awaitCount_none (w := { w with pc := .done }) rfl]
    omega
  | look hpc =>
    rw [awaitCount_none (w := { w with pc := .claiming }) rfl]
    omega
  | claim hpc hroom =>
    have hnew : awaitCount { w with pc := .calling s.nextPart } p = if s.nextPart = p then 1 else 0 := by
      simp [awaitCount, Pc.awaits]
    have hdue : dueCount { s with nextPart := s.nextPart + 1 } p = if p < s.nextPart + 1 then 1 else 0 := rfl
    have hold : dueCount s p = if p < s.nextPart then 1 else 0 := rfl
    rw [hnew, hdue, hold]
    show answeredCount s p + _ + _ ≤ _
    split <;> split <;> split <;> omega
  | retry part w' hpc hpc' =>
    exact Nat.le_of_eq (by rw [awaitCount, awaitCount, hpc, hpc'])
  | accept part bytes hpc hlen =>
    rw [awaitCount_none (w := { w with pc := .sending part bytes }) rfl]
    show List.count p _ + 0 + dueCount s p ≤ answeredCount s p + awaitCount w p + dueCount s p
    rw [hanswer part bytes hpc]
    omega
  | short part bytes err hpc =>
    rw [awaitCount_none (w := { w with pc := .failing err }) rfl]
    show List.count p _ + 0 + dueCount s p ≤ answeredCount s p + awaitCount w p + dueCount s p
    rw [hanswer part bytes hpc]
    omega
  | giveUp w' hpc' =>
    rw [awaitCount_none (awaits_of_fails hpc')]
    show answeredCount s p + 0 + dueCount s p ≤ answeredCount s p + awaitCount w p + dueCount s p
    omega
  | fail err =>
    rw [awaitCount_none (w := { w with pc := .failed err }) rfl]
    omega
  | send part bytes hpc =>
    rw [awaitCount_none (w := { w with pc := .top }) rfl]
    show answeredCount s p + 0 + dueCount s p ≤ answeredCount s p + awaitCount w p + dueCount s p
    omega

/-! The workers of a run. -/

/-- An answer with the length that the part must have. -/
def Accepted (size : Nat) (s : Shared) (m : Nat × List UInt8) : Prop := m ∈ s.answered ∧ m.2.length = expected size m.1

structure CrewInv (size : Nat) (c : Crew Shared Worker) : Prop where
  covered : c.Covered Shared.nextPart Settled Owes
  attended : c.Attended (AtEnd size) IsDone
  once : c.Within answeredCount awaitCount dueCount
  aborted : c.shared.abort = true → ∃ w ∈ c.workers, w.pc.fails = true
  bound : c.shared.nextPart ≤ nParts size
  sending : ∀ w ∈ c.workers, ∀ part bytes, w.pc = .sending part bytes → Accepted size c.shared (part, bytes)
  sent : ∀ m ∈ c.shared.sent, Accepted size c.shared m

theorem answered_of_moves (h : Moves size s w s' w') : ∃ more, s'.answered = s.answered ++ more := by
  cases h with
  | accept part bytes _ _ => exact ⟨_, rfl⟩
  | short part bytes _ _ => exact ⟨_, rfl⟩
  | _ => exact ⟨[], (List.append_nil _).symm⟩

theorem accepted_of_moves (h : Moves size s w s' w') {m : Nat × List UInt8} (hm : Accepted size s m) :
    Accepted size s' m := by
  obtain ⟨more, hmore⟩ := answered_of_moves h
  refine ⟨?_, hm.2⟩
  rw [hmore]
  exact List.mem_append_left _ hm.1

theorem abort_of_moves (h : Moves size s w s' w') (habort : s'.abort = true) : s.abort = true ∨ w'.pc.fails = true := by
  cases h with
  | short part bytes err hpc => exact Or.inr rfl
  | giveUp w' hpc' => exact Or.inr hpc'
  | _ => exact Or.inl habort

theorem sending_of_moves (h : Moves size s w s' w')
    (hsending : ∀ part bytes, w.pc = .sending part bytes → Accepted size s (part, bytes)) (part : Nat)
    (bytes : List UInt8) (hpc' : w'.pc = .sending part bytes) : Accepted size s' (part, bytes) := by
  cases h with
  | stay => exact hsending part bytes hpc'
  | retry q w' _ hawaits =>
    rw [hpc'] at hawaits
    cases hawaits
  | accept q received hpc hlen =>
    cases hpc'
    exact ⟨List.mem_append_right _ (List.mem_singleton.mpr rfl), hlen⟩
  | giveUp w' hfails =>
    rw [hpc'] at hfails
    cases hfails
  | _ => cases hpc'

theorem sent_of_moves (h : Moves size s w s' w') : s'.sent = s.sent ∧ s'.channel = s.channel ∨
    ∃ part bytes, w.pc = .sending part bytes ∧ s'.sent = s.sent ++ [(part, bytes)] ∧
      s'.channel = s.channel ++ [(part, bytes)] := by
  cases h with
  | send part bytes hpc => exact Or.inr ⟨part, bytes, hpc, rfl, rfl⟩
  | _ => exact Or.inl ⟨rfl, rfl⟩

theorem closed_of_moves (h : Moves size s w s' w') : s'.closed = s.closed := by
  cases h <;> rfl

theorem bound_of_moves (h : Moves size s w s' w') (hbound : s.nextPart ≤ nParts size) : s'.nextPart ≤ nParts size := by
  cases h with
  | claim hpc hroom => exact hroom
  | _ => exact hbound

theorem CrewInv.worker {c : Crew Shared Worker} (hc : CrewInv size c) (e : Nat × WorkerEvent) :
    CrewInv size (Crew.next (step size capacity) c e) := by
  cases hw : c.workers[e.1]? with
  | none => rwa [Crew.next_none _ hw]
  | some w =>
    by_cases hdone : w.pc = .done
    · rwa [Crew.next_of_step_eq _ hw (step_ended (by rw [hdone]; rfl) e.2)]
    rw [Crew.next_some _ hw]
    have hmoves : Moves size c.shared w (step size capacity c.shared w e.2).1 (step size capacity c.shared w e.2).2 :=
      step_moves c.shared w e.2
    have hmem := List.mem_of_getElem? hw
    have hself : (step size capacity c.shared w e.2).2 ∈ c.workers.set e.1 (step size capacity c.shared w e.2).2 :=
      List.mem_set (List.getElem?_eq_some_iff.mp hw).1 _
    refine ⟨hc.covered.set hw (covers_moves hmoves), Crew.Attended.set hw fun h => Or.inl (done_of_moves hmoves hdone h),
      hc.once.set hw (once_moves hmoves), ?_, bound_of_moves hmoves hc.bound, ?_, ?_⟩
    · intro habort
      rcases abort_of_moves hmoves habort with hold | hfails
      · exact Crew.exists_set hw (fails_of_moves hmoves) (fun _ h => h) (hc.aborted hold)
      · exact ⟨_, hself, hfails⟩
    · refine Crew.forall_set ?_ (sending_of_moves hmoves (hc.sending w hmem))
      intro v hv part bytes hpc
      exact accepted_of_moves hmoves (hc.sending v hv part bytes hpc)
    · intro m hm
      rcases sent_of_moves hmoves with ⟨h, -⟩ | ⟨part, bytes, hpc, h, -⟩
      · rw [h] at hm
        exact accepted_of_moves hmoves (hc.sent m hm)
      · rw [h] at hm
        rcases List.mem_append.mp hm with hm | hm
        · exact accepted_of_moves hmoves (hc.sent m hm)
        · obtain rfl := List.mem_singleton.mp hm
          exact accepted_of_moves hmoves (hc.sending w hmem part bytes hpc)

/-- The caller takes from the channel, or closes it. -/
theorem CrewInv.caller {c : Crew Shared Worker} (hc : CrewInv size c) (channel : List (Nat × List UInt8)) (closed : Bool)
    (hclosed : c.shared.closed = true → closed = true) :
    CrewInv size { c with shared := { c.shared with channel := channel, closed := closed } } where
  covered := fun p hp => (hc.covered p hp).imp_left fun h => h.imp_left hclosed
  attended := hc.attended.imp_left fun h => h.imp_right fun h => h.imp_right hclosed
  once := hc.once
  aborted := hc.aborted
  bound := hc.bound
  sending := hc.sending
  sent := hc.sent

/-- No part is answered twice. -/
theorem CrewInv.eq_of_answered {c : Crew Shared Worker} (hc : CrewInv size c) {p : Nat} {bytes bytes' : List UInt8}
    (h : (p, bytes) ∈ c.shared.answered) (h' : (p, bytes') ∈ c.shared.answered) : bytes = bytes' := by
  have hnodup : (c.shared.answered.map Prod.fst).Nodup := by
    rw [List.nodup_iff_count_le_one]
    intro q
    have hle : answeredCount c.shared q + Crew.total (fun w => awaitCount w q) c.workers ≤ dueCount c.shared q := hc.once q
    have hdue : dueCount c.shared q ≤ 1 := by
      unfold dueCount
      split <;> decide
    rw [answeredCount] at hle
    omega
  exact congrArg Prod.snd (List.inj_on_of_nodup_map hnodup h h' rfl)

theorem CrewInv.claimed {c : Crew Shared Worker} (hc : CrewInv size c) {m : Nat × List UInt8}
    (h : m ∈ c.shared.answered) : m.1 < nParts size := by
  refine Nat.lt_of_lt_of_le ?_ hc.bound
  have hle : answeredCount c.shared m.1 + Crew.total (fun w => awaitCount w m.1) c.workers ≤ dueCount c.shared m.1 :=
    hc.once m.1
  have hpos : 0 < answeredCount c.shared m.1 := List.count_pos_iff.mpr (List.mem_map_of_mem h)
  rw [dueCount] at hle
  split at hle
  · assumption
  · omega

/-! The call. -/

/-- Past the receiving loop. -/
def Phase.late : Phase → Bool
  | .draining | .joining => true
  | _ => false

/-- All parts have been answered, each once and at its length, and the result is the answers in the
order of the parts. -/
def Exact (size : Nat) (answered : List (Nat × List UInt8)) (out : List UInt8) : Prop :=
  out.length = size ∧ ∃ data : Nat → List UInt8,
    (∀ p bytes, (p, bytes) ∈ answered ↔ p < nParts size ∧ bytes = data p) ∧
      (∀ p < nParts size, (data p).length = expected size p) ∧ out = (List.range (nParts size)).flatMap data

structure Inv (size : Nat) (x : System) : Prop where
  crew : CrewInv size x.crew
  length : x.parts.length = nParts size
  slots : ∀ p bytes, x.parts[p]? = some (some bytes) → (p, bytes) ∈ x.crew.shared.sent
  kept : ∀ m ∈ x.crew.shared.sent, m ∈ x.crew.shared.channel ∨ x.parts[m.1]? = some (some m.2)
  channel : ∀ m ∈ x.crew.shared.channel, m ∈ x.crew.shared.sent
  late : x.phase.late = true → x.crew.shared.abort = true ∨
    x.crew.shared.channel = [] ∧ ∀ w ∈ x.crew.workers, w.pc.ended = true
  joined : ∀ i ∈ x.joined, ∃ w, x.crew.workers[i]? = some w ∧ w.pc = .done
  closed : x.crew.shared.closed = true → ∃ result, x.phase = .returned result
  result : ∀ out, x.phase = .returned (.ok out) →
    (∀ w ∈ x.crew.workers, w.pc = .done) ∧ Exact size x.crew.shared.answered out

theorem abort_kept (h : Moves size s w s' w') (habort : s.abort = true) : s'.abort = true := by
  cases h <;> first | exact habort | rfl

theorem Inv.worker {x : System} (hx : Inv size x) (i : Nat) (e : WorkerEvent) :
    Inv size (next size capacity x (.worker i e)) := by
  show Inv size { x with crew := Crew.next (step size capacity) x.crew (i, e) }
  have hcrew : CrewInv size (Crew.next (step size capacity) x.crew (i, e)) := hx.crew.worker (i, e)
  cases hw : x.crew.workers[i]? with
  | none =>
    rw [Crew.next_none _ (e := (i, e)) hw]
    exact hx
  | some w =>
    by_cases hended : w.pc.ended = true
    · rw [Crew.next_of_step_eq _ (e := (i, e)) hw (step_ended hended e)]
      exact hx
    have hrun : w.pc ≠ .done := fun hdone => hended (by rw [hdone]; rfl)
    have hmoves : Moves size x.crew.shared w (step size capacity x.crew.shared w e).1
        (step size capacity x.crew.shared w e).2 := step_moves x.crew.shared w e
    have hsent := sent_of_moves hmoves
    rw [Crew.next_some _ (e := (i, e)) hw] at hcrew ⊢
    refine ⟨hcrew, hx.length, ?_, ?_, ?_, ?_, ?_, ?_, ?_⟩
    · -- a slot that is filled was sent
      intro p bytes hslot
      have hold := hx.slots p bytes hslot
      rcases hsent with ⟨h, -⟩ | ⟨part, received, -, h, -⟩
      · exact h ▸ hold
      · show _ ∈ (step size capacity x.crew.shared w e).1.sent
        rw [h]
        exact List.mem_append_left _ hold
    · -- what was sent is in the channel or in its slot
      intro m hm
      rcases hsent with ⟨h, hchannel⟩ | ⟨part, received, -, h, hchannel⟩
      · show m ∈ (step size capacity x.crew.shared w e).1.channel ∨ _
        rw [hchannel]
        exact hx.kept m (h ▸ hm)
      · show m ∈ (step size capacity x.crew.shared w e).1.channel ∨ _
        rw [hchannel]
        rcases List.mem_append.mp (h ▸ hm : m ∈ _ ++ _) with hm | hm
        · exact (hx.kept m hm).imp_left (List.mem_append_left _)
        · exact Or.inl (List.mem_append_right _ hm)
    · -- what is in the channel was sent
      intro m hm
      rcases hsent with ⟨h, hchannel⟩ | ⟨part, received, -, h, hchannel⟩
      · exact h ▸ hx.channel m (hchannel ▸ hm)
      · show m ∈ (step size capacity x.crew.shared w e).1.sent
        rw [h]
        rcases List.mem_append.mp (hchannel ▸ hm : m ∈ _ ++ _) with hm | hm
        · exact List.mem_append_left _ (hx.channel m hm)
        · exact List.mem_append_right _ hm
    · -- an abort is never taken back
      intro hlate
      rcases hx.late hlate with habort | ⟨-, hall⟩
      · exact Or.inl (abort_kept hmoves habort)
      · exact absurd (hall w (List.mem_of_getElem? hw)) hended
    · -- a joined worker makes no step
      intro j hj
      obtain ⟨v, hv, hdone⟩ := hx.joined j hj
      have hne : i ≠ j := by
        rintro rfl
        obtain rfl := Option.some.inj (hw.symm.trans hv)
        exact hrun hdone
      exact ⟨v, (List.getElem?_set_ne hne).trans hv, hdone⟩
    · intro hclosed
      rw [closed_of_moves hmoves] at hclosed
      exact hx.closed hclosed
    · -- a result is there only when all are done
      intro out hphase
      exact absurd ((hx.result out hphase).1 w (List.mem_of_getElem? hw)) hrun

/-- A part comes out of the channel. -/
theorem Inv.take {x : System} (hx : Inv size x) {m : Nat × List UInt8} {rest : List (Nat × List UInt8)}
    (hchannel : x.crew.shared.channel = m :: rest) {phase : Phase}
    (hphase : ∀ result, phase ≠ .returned result) (hopen : x.crew.shared.closed = false)
    (hlate : phase.late = true → x.crew.shared.abort = true) : Inv size (x.take m rest phase) := by
  have hm : m ∈ x.crew.shared.sent := hx.channel m (hchannel ▸ List.mem_cons_self ..)
  have hlt : m.1 < x.parts.length := hx.length ▸ hx.crew.claimed (hx.crew.sent m hm).1
  refine ⟨hx.crew.caller rest _ id, ?_, ?_, ?_, ?_, ?_, hx.joined, ?_, ?_⟩
  · exact (List.length_set ..).trans hx.length
  · intro p bytes hslot
    rw [System.take, List.getElem?_set] at hslot
    split at hslot
    · next hp =>
      obtain rfl := Option.some.inj (Option.some.inj hslot)
      rw [← hp]
      exact hm
    · exact hx.slots p bytes hslot
  · intro m' hm'
    by_cases hp : m.1 = m'.1
    · -- The part was sent once.
      have heq : m.2 = m'.2 := hx.crew.eq_of_answered (hx.crew.sent m hm).1 (by rw [hp]; exact (hx.crew.sent m' hm').1)
      refine Or.inr ?_
      show (x.parts.set m.1 (some m.2))[m'.1]? = _
      rw [← hp, List.getElem?_set_self hlt, heq]
    · rcases hx.kept m' hm' with hin | hslot
      · rw [hchannel] at hin
        rcases List.mem_cons.mp hin with rfl | hin
        · exact absurd rfl hp
        · exact Or.inl hin
      · exact Or.inr ((List.getElem?_set_ne hp).trans hslot)
  · intro m' hm'
    exact hx.channel m' (hchannel ▸ List.mem_cons_of_mem m hm')
  · exact fun h => Or.inl (hlate h)
  · intro hclosed
    rw [System.take, hopen] at hclosed
    cases hclosed
  · exact fun out h => absurd h (hphase _)

/-- The length of a part is that of the slice of any file of the size. -/
theorem expected_slice {file : List UInt8} {p : Nat} (hp : p < nParts file.length) :
    expected file.length p = (slice file (chunk file.length) p).length := by
  have hchunk := chunk_pos file.length
  have hlast : nParts file.length ≤ p + 1 ↔ file.length ≤ (p + 1) * chunk file.length := divCeil_le hchunk
  rw [Nat.succ_mul] at hlast
  rw [slice_length, expected]
  split
  · next heq =>
    have hle := hlast.mp (by omega)
    omega
  · next hne =>
    have hlt := mt hlast.mpr (by omega)
    omega

theorem length_of_expected {data : Nat → List UInt8} (hdata : ∀ p < nParts size, (data p).length = expected size p) :
    ((List.range (nParts size)).flatMap data).length = size := by
  let file : List UInt8 := List.replicate size 0
  have hsize : file.length = size := List.length_replicate
  have hparts : (List.range (nParts size)).flatMap (slice file (chunk size)) = file := by
    have hflat := parts_flatten file (chunk_pos size)
    rw [hsize] at hflat
    exact hflat
  have hlengths : (List.range (nParts size)).map (fun p => (data p).length) =
      (List.range (nParts size)).map (fun p => (slice file (chunk size) p).length) := by
    apply List.map_congr_left
    intro p hp
    have hlt : p < nParts file.length := by rw [hsize]; exact List.mem_range.mp hp
    have hslice := expected_slice hlt
    rw [hsize] at hslice
    rw [hdata p (List.mem_range.mp hp), hslice]
  calc ((List.range (nParts size)).flatMap data).length
      = ((List.range (nParts size)).map fun p => (data p).length).sum := List.length_flatMap
    _ = ((List.range (nParts size)).map fun p => (slice file (chunk size) p).length).sum := by rw [hlengths]
    _ = ((List.range (nParts size)).flatMap (slice file (chunk size))).length := List.length_flatMap.symm
    _ = size := by rw [hparts, hsize]

theorem Owes.of_done {s : Shared} {w : Worker} {p : Nat} (h : w.pc = .done) : ¬ Owes s w p := by
  unfold Owes
  rw [h]
  rintro (hfails | hpart)
  · cases hfails
  · cases hpart

/-- When all workers have come back without an error, nobody has set the flag, and every slot is filled. -/
theorem Inv.filled {x : System} (hx : Inv size x) (hphase : x.phase = .joining)
    (hall : ∀ w ∈ x.crew.workers, w.pc = .done) {p : Nat} (hp : p < nParts size) :
    ∃ bytes, x.parts[p]? = some (some bytes) ∧ Accepted size x.crew.shared (p, bytes) := by
  have hfails : ¬∃ w ∈ x.crew.workers, w.pc.fails = true := by
    rintro ⟨w, hw, hfails⟩
    rw [hall w hw] at hfails
    cases hfails
  have habort : x.crew.shared.abort ≠ true := fun h => hfails (hx.crew.aborted h)
  have hopen : x.crew.shared.closed ≠ true := by
    intro h
    obtain ⟨result, hreturned⟩ := hx.closed h
    rw [hphase] at hreturned
    cases hreturned
  have hempty : x.crew.shared.channel = [] := ((hx.late (by rw [hphase]; rfl)).resolve_left habort).1
  have hend : nParts size ≤ x.crew.shared.nextPart :=
    ((hx.crew.attended.reached hall).resolve_left habort).resolve_right hopen
  have hsettled := hx.crew.covered.settled (Nat.lt_of_lt_of_le hp hend) fun w hw => Owes.of_done (hall w hw)
  obtain ⟨⟨q, bytes⟩, hm, rfl⟩ := List.mem_map.mp (hsettled.resolve_left hopen)
  refine ⟨bytes, (hx.kept _ hm).resolve_left ?_, hx.crew.sent _ hm⟩
  rw [hempty]
  exact List.not_mem_nil

theorem Inv.exact {x : System} (hx : Inv size x) (hphase : x.phase = .joining)
    (hall : ∀ w ∈ x.crew.workers, w.pc = .done) : Exact size x.crew.shared.answered (assemble size x.parts) := by
  let data : Nat → List UInt8 := fun p => ((x.parts[p]?).getD none).getD []
  have hdata : ∀ p < nParts size, x.parts[p]? = some (some (data p)) ∧ Accepted size x.crew.shared (p, data p) := by
    intro p hp
    obtain ⟨bytes, hslot, haccepted⟩ := hx.filled hphase hall hp
    have heq : data p = bytes := by
      show ((x.parts[p]?).getD none).getD [] = bytes
      rw [hslot]
      rfl
    rw [heq]
    exact ⟨hslot, haccepted⟩
  have hparts : x.parts = (List.range (nParts size)).map fun p => some (data p) := by
    apply List.ext_getElem?
    intro p
    by_cases hp : p < nParts size
    · rw [(hdata p hp).1, List.getElem?_map, List.getElem?_range hp]
      rfl
    · rw [List.getElem?_eq_none (by rw [hx.length]; omega),
        List.getElem?_eq_none (by rw [List.length_map, List.length_range]; omega)]
  have hjoin : (x.parts.filterMap id).flatten = (List.range (nParts size)).flatMap data := by
    rw [hparts, List.filterMap_map, List.flatMap_def]
    show (List.filterMap (some ∘ data) _).flatten = _
    rw [List.filterMap_eq_map]
  have hlen : ((List.range (nParts size)).flatMap data).length = size :=
    length_of_expected fun p hp => (hdata p hp).2.2
  have hout : assemble size x.parts = (List.range (nParts size)).flatMap data := by
    rw [assemble, hjoin]
    exact List.take_of_length_le (Nat.le_of_eq hlen)
  rw [hout]
  refine ⟨hlen, data, ?_, fun p hp => (hdata p hp).2.2, rfl⟩
  intro p bytes
  constructor
  · intro h
    have hp := hx.crew.claimed h
    exact ⟨hp, hx.crew.eq_of_answered h (hdata p hp).2.1⟩
  · rintro ⟨hp, rfl⟩
    exact (hdata p hp).2.1

/-- The call returns. -/
theorem Inv.finish {x : System} (hx : Inv size x) (result : Except InvocationError (List UInt8))
    (hresult : ∀ out, result = .ok out → (∀ w ∈ x.crew.workers, w.pc = .done) ∧ Exact size x.crew.shared.answered out) :
    Inv size (x.finish result) := by
  refine ⟨hx.crew.caller _ true (fun _ => rfl), hx.length, hx.slots, hx.kept, hx.channel, nofun, hx.joined,
    fun _ => ⟨result, rfl⟩, ?_⟩
  intro out hout
  exact hresult out (Phase.returned.inj hout)

/-- The call goes on to another place. -/
theorem Inv.enter {x : System} (hx : Inv size x) {phase : Phase} (hopen : ∀ result, x.phase ≠ .returned result)
    (hphase : ∀ result, phase ≠ .returned result)
    (hlate : phase.late = true → x.crew.shared.abort = true ∨
      x.crew.shared.channel = [] ∧ ∀ w ∈ x.crew.workers, w.pc.ended = true) : Inv size { x with phase := phase } := by
  refine ⟨hx.crew, hx.length, hx.slots, hx.kept, hx.channel, hlate, hx.joined, ?_, fun out h => absurd h (hphase _)⟩
  intro hclosed
  obtain ⟨result, hreturned⟩ := hx.closed hclosed
  exact absurd hreturned (hopen result)

theorem Inv.go {x : System} (hx : Inv size x) : Inv size (go size x) := by
  have hopen : (∀ result, x.phase ≠ .returned result) → x.crew.shared.closed = false := by
    intro h
    rw [← Bool.not_eq_true]
    intro hclosed
    obtain ⟨result, hreturned⟩ := hx.closed hclosed
    exact h result hreturned
  unfold ConcurrentDownload.go
  split
  · next m rest hphase hchannel =>
    exact hx.take hchannel (by nofun) (hopen (by rw [hphase]; nofun)) (by nofun)
  · next hphase hchannel =>
    split
    · next hall => exact hx.enter (by rw [hphase]; nofun) (by nofun) fun _ => Or.inr ⟨hchannel, by simpa using hall⟩
    · exact hx
  · next hphase =>
    refine hx.enter (by rw [hphase]; nofun) (by split <;> nofun) fun hlate => ?_
    split at hlate
    · next habort => exact Or.inl habort
    · cases hlate
  · next m rest hphase hchannel =>
    refine hx.take hchannel (by nofun) (hopen (by rw [hphase]; nofun)) fun _ => ?_
    refine (hx.late (by rw [hphase]; rfl)).resolve_right fun h => ?_
    rw [hchannel] at h
    cases h.1
  · next hphase hchannel => exact hx.enter (by rw [hphase]; nofun) (by nofun) fun _ => hx.late (by rw [hphase]; rfl)
  · next hphase =>
    split
    · next hjoined =>
      have hall : ∀ w ∈ x.crew.workers, w.pc = .done := by
        intro w hw
        obtain ⟨i, hi⟩ := List.mem_iff_getElem?.mp hw
        have hmem : i ∈ x.joined := by
          have := List.all_eq_true.mp hjoined i (List.mem_range.mpr (List.getElem?_eq_some_iff.mp hi).1)
          exact of_decide_eq_true this
        obtain ⟨v, hv, hdone⟩ := hx.joined i hmem
        obtain rfl := Option.some.inj (hi.symm.trans hv)
        exact hdone
      refine hx.finish _ ?_
      rintro out ⟨⟩
      exact ⟨hall, hx.exact hphase hall⟩
    · exact hx
  · exact hx

theorem Inv.join {x : System} (hx : Inv size x) (i : Nat) : Inv size (join x i) := by
  unfold ConcurrentDownload.join
  split
  · next w hphase hw =>
    split
    · exact hx
    · split
      · next hdone =>
        refine ⟨hx.crew, hx.length, hx.slots, hx.kept, hx.channel, hx.late, ?_, hx.closed, hx.result⟩
        intro j hj
        rcases List.mem_cons.mp hj with rfl | hj
        · exact ⟨w, hw, hdone⟩
        · exact hx.joined j hj
      · exact hx.finish _ (fun out h => by cases h)
      · exact hx
  · exact hx

theorem Inv.next {x : System} (hx : Inv size x) (e : Event) : Inv size (next size capacity x e) := by
  cases e with
  | worker i e => exact hx.worker i e
  | go => exact hx.go
  | join i => exact hx.join i

theorem start_inv (size : Nat) {workers : Nat} (hworkers : 0 < workers) (dc : Int32) : Inv size (start size workers dc) where
  crew :=
    { covered := fun _ hp => absurd hp (Nat.not_lt_zero _)
      attended := by
        refine Or.inr ⟨{ workerDc := dc, totalReconnects := 0, pc := .top }, ?_, nofun⟩
        exact List.mem_replicate.mpr ⟨Nat.pos_iff_ne_zero.mp hworkers, rfl⟩
      once := by
        intro p
        have hnone : Crew.total (fun w : Worker => awaitCount w p) (start size workers dc).crew.workers = 0 := by
          apply Crew.total_eq_zero
          intro w hw
          obtain rfl := List.eq_of_mem_replicate hw
          rfl
        rw [hnone]
        exact Nat.zero_le _
      aborted := nofun
      bound := Nat.zero_le _
      sending := by
        intro w hw part bytes hpc
        obtain rfl := List.eq_of_mem_replicate hw
        cases hpc
      sent := nofun }
  length := List.length_replicate
  slots := by
    intro p bytes hslot
    cases List.eq_of_mem_replicate (List.mem_of_getElem? hslot)
  kept := nofun
  channel := nofun
  late := nofun
  joined := nofun
  closed := nofun
  result := nofun

theorem run_inv (size : Nat) {workers : Nat} (hworkers : 0 < workers) (dc : Int32) (events : List Event) :
    Inv size (run size workers dc events) :=
  Run.states_inv_all (next size (workers * 2)) (fun _ e hx => hx.next e) events _ (start_inv size hworkers dc) _
    (Run.final_mem_states _ events _)

end

/-- **The parallel download.** However the workers and the caller take turns and whatever the server
answers, a result is the answers for all the parts in their order, of the size of the file; and with a
part for which no answer of its length has come, the call returns an error. -/
theorem download_complete (size workers : Nat) (hworkers : 0 < workers) (dc : Int32) (events : List Event)
    (result : Except InvocationError (List UInt8)) (hreturned : (run size workers dc events).phase = .returned result) :
    (∀ out, result = .ok out → Exact size (run size workers dc events).crew.shared.answered out) ∧
      ((∃ p < nParts size, ∀ bytes, (p, bytes) ∈ (run size workers dc events).crew.shared.answered →
        bytes.length ≠ expected size p) → ∃ err, result = .error err) := by
  have hx := run_inv size hworkers dc events
  have hexact : ∀ out, result = .ok out → Exact size (run size workers dc events).crew.shared.answered out := by
    rintro out rfl
    exact (hx.result out hreturned).2
  refine ⟨hexact, ?_⟩
  rintro ⟨p, hp, hmissing⟩
  cases result with
  | error err => exact ⟨err, rfl⟩
  | ok out =>
    obtain ⟨-, data, hanswered, hlengths, -⟩ := hexact out rfl
    exact absurd (hlengths p hp) (hmissing (data p) ((hanswered p (data p)).mpr ⟨hp, rfl⟩))

/-- Two workers and a file of two parts: the second part is there first, and then there is nothing left to do. -/
def twoParts (first second : List UInt8) : List Event :=
  [.worker 0 .go, .worker 1 .go, .worker 0 .lock, .worker 1 .lock, .worker 1 (.answer (.ok (.file second))), .worker 1 .go,
    .go, .go, .worker 0 (.answer (.ok (.file first))), .worker 0 .go, .worker 1 .go, .worker 1 .lock, .go, .go,
    .worker 0 .go, .worker 0 .lock, .go, .go, .join 1, .join 0, .go]

theorem twoParts_returned {first second : List UInt8} (hfirst : first.length = 262144) (hsecond : second.length = 1) :
    (run 262145 2 4 (twoParts first second)).phase = .returned (.ok (first ++ second)) := by
  have hparts : nParts 262145 = 2 := by decide
  have hexpected : expected 262145 0 = 262144 ∧ expected 262145 1 = 1 := by decide
  have htake : (first ++ second).take 262145 = first ++ second := by
    apply List.take_of_length_le
    exact Nat.le_of_eq (by rw [List.length_append, hfirst, hsecond])
  simp [run, start, twoParts, Run.final, next, Crew.next, step, answered, go, join, System.take, System.finish, assemble,
    Pc.ended, hparts, hexpected, hfirst, hsecond, htake]
  rw [if_pos fun p hp => by omega]

theorem twoParts_complete :
    (run 262145 2 4 (twoParts (List.replicate 262144 7) [8])).phase = .returned (.ok (List.replicate 262144 7 ++ [8])) ∧
      Exact 262145 (run 262145 2 4 (twoParts (List.replicate 262144 7) [8])).crew.shared.answered
        (List.replicate 262144 7 ++ [8]) := by
  have hreturned := twoParts_returned (List.length_replicate (n := 262144) (a := (7 : UInt8))) (List.length_singleton (a := 8))
  exact ⟨hreturned, (download_complete 262145 2 (by decide) 4 _ _ hreturned).1 _ rfl⟩

end Ferogram.Media.ConcurrentDownload
