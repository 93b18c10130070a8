import Ferogram.Lib.Semaphore
import Ferogram.Client.Parts

/- The limits on concurrent transfers: `ferogram/src/transfer_limits.rs`, the worker tables of
   `ferogram/src/media.rs`, and the semaphore every transfer takes its workers' permits from
   (`ClientInner::worker_semaphore`).

   The semaphore has `max_tcp_connections` permits, of which only 0 is ruled out, and a transfer
   asks for up to four of them at once. What is proved: `workers_within_permits_iff`. -/
namespace Ferogram.Media

/-- `MAX_WORKERS_PER_FILE`. -/
def maxWorkersPerFile : Nat := 4

/-- `MAX_GLOBAL_SENDERS`. -/
def maxGlobalSenders : Nat := 12

structure TransferLimits where
  downloadTcpConnections : Nat
  uploadTcpConnections : Nat
  maxTcpConnections : Nat
  downloadPipelineDepth : Nat
  uploadPipelineDepth : Nat
  bypassTcpAllotments : Bool
  deriving DecidableEq, Repr

/-- `usize::clamp` from 1. -/
def clampTo (limit n : Nat) : Nat := max 1 (min n limit)

namespace TransferLimits

/-- `TransferLimits::default`. -/
def default : TransferLimits where
  downloadTcpConnections := maxWorkersPerFile
  uploadTcpConnections := maxWorkersPerFile
  maxTcpConnections := maxGlobalSenders
  downloadPipelineDepth := 1
  uploadPipelineDepth := 1
  bypassTcpAllotments := false

def normalized (l : TransferLimits) : TransferLimits where
  downloadTcpConnections := clampTo maxWorkersPerFile l.downloadTcpConnections
  uploadTcpConnections := clampTo maxWorkersPerFile l.uploadTcpConnections
  maxTcpConnections := max l.maxTcpConnections 1
  downloadPipelineDepth := pipelineDepth l.downloadPipelineDepth
  uploadPipelineDepth := pipelineDepth l.uploadPipelineDepth
  bypassTcpAllotments := l.bypassTcpAllotments

end TransferLimits

/-- A table of workers by file size: one below the first bound, two below the second, three below
the third, and `MAX_WORKERS_PER_FILE` from there on. -/
def tiered (two three four fileSize : Nat) : Nat :=
  if fileSize < two then 1
  else if fileSize < three then 2
  else if fileSize < four then 3
  else maxWorkersPerFile

def mib : Nat := 1024 * 1024

def downloadWorkerCount (fileSize maxWorkers : Nat) : Nat :=
  min (tiered (10 * mib) (50 * mib) (300 * mib) fileSize) (max maxWorkers 1)

def uploadWorkerCount (fileSize maxWorkers : Nat) : Nat :=
  min (tiered (10 * mib) (100 * mib) (500 * mib) fileSize) (max maxWorkers 1)

inductive Direction where
  | download
  | upload
  deriving DecidableEq, Repr

/-- The direction's ceiling for one file. -/
def TransferLimits.tcpConnections (l : TransferLimits) : Direction → Nat
  | .download => l.downloadTcpConnections
  | .upload => l.uploadTcpConnections

/-- `n_workers`, from the limits as the client keeps them: in every transfer the direction's
ceiling, or the table's count below it. -/
def nWorkers (l : TransferLimits) (d : Direction) (fileSize : Nat) : Nat :=
  if l.bypassTcpAllotments then l.tcpConnections d
  else
    match d with
    | .download => downloadWorkerCount fileSize l.downloadTcpConnections
    | .upload => uploadWorkerCount fileSize l.uploadTcpConnections

/-- What a transfer asks `acquire_many` for: `n_workers as u32`. -/
def askedPermits (configured : TransferLimits) (d : Direction) (fileSize : Nat) : Nat :=
  nWorkers configured.normalized d fileSize % 2 ^ 32

/-- What the semaphore is created with. -/
def workerPermits (configured : TransferLimits) : Nat := configured.normalized.maxTcpConnections

/-! What is asked for. -/

/-- Below this size a transfer has no use for more than `k` workers, for `k` from 1 to 3. -/
def Direction.tierBound : Direction → Nat → Nat
  | _, 1 => 10 * mib
  | .download, 2 => 50 * mib
  | .upload, 2 => 100 * mib
  | .download, _ => 300 * mib
  | .upload, _ => 500 * mib

/-- A transfer that has no use for more than `k` workers, or is not given more. -/
def AtMost (k : Nat) (configured : TransferLimits) (d : Direction) (fileSize : Nat) : Prop :=
  configured.tcpConnections d ≤ k ∨ configured.bypassTcpAllotments = false ∧ fileSize < d.tierBound k

theorem clampTo_le_iff {limit n k : Nat} (hpos : 1 ≤ k) (hlimit : k < limit) : clampTo limit n ≤ k ↔ n ≤ k := by
  unfold clampTo
  omega

theorem clampTo_pos (limit n : Nat) : 1 ≤ clampTo limit n := Nat.le_max_left 1 _

theorem clampTo_le {limit : Nat} (h : 1 ≤ limit) (n : Nat) : clampTo limit n ≤ limit := by
  unfold clampTo
  omega

theorem tiered_pos (two three four fileSize : Nat) : 1 ≤ tiered two three four fileSize := by
  unfold tiered maxWorkersPerFile
  split_ifs <;> omega

/-- The table by its bounds: at most `k` workers below the `k`th. -/
theorem tiered_le_iff {two three four : Nat} (h₁ : two ≤ three) (h₂ : three ≤ four) (fileSize : Nat) :
    (tiered two three four fileSize ≤ 1 ↔ fileSize < two) ∧
      (tiered two three four fileSize ≤ 2 ↔ fileSize < three) ∧
      (tiered two three four fileSize ≤ 3 ↔ fileSize < four) := by
  unfold tiered maxWorkersPerFile
  refine ⟨?_, ?_, ?_⟩ <;> split_ifs <;> omega

/-- Workers by a table or, without it, the ceiling. -/
def workersBy (bypass : Bool) (two three four ceiling fileSize : Nat) : Nat :=
  if bypass then ceiling else min (tiered two three four fileSize) (max ceiling 1)

theorem nWorkers_normalized (l : TransferLimits) (d : Direction) (fileSize : Nat) :
    nWorkers l.normalized d fileSize =
      workersBy l.bypassTcpAllotments (d.tierBound 1) (d.tierBound 2) (d.tierBound 3)
        (clampTo maxWorkersPerFile (l.tcpConnections d)) fileSize := by
  cases d <;> rfl

/-- Up to `k` workers: a file below the `k`th bound, or a ceiling as low. -/
theorem workersBy_le_iff {two three four : Nat} (h₁ : two ≤ three) (h₂ : three ≤ four) (bypass : Bool)
    (n fileSize : Nat) {k bound : Nat} (hk : k = 1 ∧ bound = two ∨ k = 2 ∧ bound = three ∨ k = 3 ∧ bound = four) :
    workersBy bypass two three four (clampTo maxWorkersPerFile n) fileSize ≤ k ↔
      n ≤ k ∨ bypass = false ∧ fileSize < bound := by
  obtain ⟨h1, h2, h3⟩ := tiered_le_iff h₁ h₂ fileSize
  have hclamp : clampTo maxWorkersPerFile n ≤ k ↔ n ≤ k := clampTo_le_iff (by omega) (by unfold maxWorkersPerFile; omega)
  have hone : max (clampTo maxWorkersPerFile n) 1 = clampTo maxWorkersPerFile n := Nat.max_eq_left (clampTo_pos _ n)
  unfold workersBy
  cases bypass with
  | true => simpa using hclamp
  | false =>
    have htier : tiered two three four fileSize ≤ k ↔ fileSize < bound := by
      rcases hk with ⟨rfl, rfl⟩ | ⟨rfl, rfl⟩ | ⟨rfl, rfl⟩
      · exact h1
      · exact h2
      · exact h3
    have hmin : min (tiered two three four fileSize) (clampTo maxWorkersPerFile n) ≤ k ↔
        tiered two three four fileSize ≤ k ∨ clampTo maxWorkersPerFile n ≤ k := by omega
    rw [if_neg (by decide), hone, hmin, htier, hclamp, or_comm]
    simp

/-- Up to three workers are needed exactly where the file is small or the ceiling is low. -/
theorem nWorkers_le_iff (l : TransferLimits) (d : Direction) (fileSize : Nat) {k : Nat} (hk : k ∈ [1, 2, 3]) :
    nWorkers l.normalized d fileSize ≤ k ↔ AtMost k l d fileSize := by
  have h₁ : d.tierBound 1 ≤ d.tierBound 2 := by cases d <;> decide
  have h₂ : d.tierBound 2 ≤ d.tierBound 3 := by cases d <;> decide
  rw [nWorkers_normalized]
  refine workersBy_le_iff h₁ h₂ l.bypassTcpAllotments (l.tcpConnections d) fileSize ?_
  simp only [List.mem_cons, List.not_mem_nil, or_false] at hk
  rcases hk with rfl | rfl | rfl
  · exact .inl ⟨rfl, rfl⟩
  · exact .inr (.inl ⟨rfl, rfl⟩)
  · exact .inr (.inr ⟨rfl, rfl⟩)

theorem nWorkers_bounds (l : TransferLimits) (d : Direction) (fileSize : Nat) :
    1 ≤ nWorkers l.normalized d fileSize ∧ nWorkers l.normalized d fileSize ≤ maxWorkersPerFile := by
  have hpos := clampTo_pos maxWorkersPerFile (l.tcpConnections d)
  have hle := clampTo_le (show 1 ≤ maxWorkersPerFile by decide) (l.tcpConnections d)
  have htier := tiered_pos (d.tierBound 1) (d.tierBound 2) (d.tierBound 3) fileSize
  rw [nWorkers_normalized]
  unfold workersBy
  split <;> omega

/-- The cast to `u32` loses nothing. -/
theorem askedPermits_eq (l : TransferLimits) (d : Direction) (fileSize : Nat) :
    askedPermits l d fileSize = nWorkers l.normalized d fileSize := by
  have hle : nWorkers l.normalized d fileSize ≤ 4 := (nWorkers_bounds l d fileSize).2
  exact Nat.mod_eq_of_lt (by omega)

/-! Against what there is. -/

/-- What a transfer asks for is there, and so a transfer that has the client to itself begins. -/
structure WithinPermits (configured : TransferLimits) (d : Direction) (fileSize : Nat) : Prop where
  pos : 1 ≤ askedPermits configured d fileSize
  le : askedPermits configured d fileSize ≤ workerPermits configured
  begins : ∀ caller, ⟨caller, askedPermits configured d fileSize⟩ ∈
    (Semaphore.next (Semaphore.new (workerPermits configured))
      (.acquire ⟨caller, askedPermits configured d fileSize⟩)).held

/-- With `max_tcp_connections` of at most three, the file is small enough for so few workers, or
the direction's own ceiling is as low. -/
def EnoughPermits (configured : TransferLimits) (d : Direction) (fileSize : Nat) : Prop :=
  ∀ k ∈ [1, 2, 3], configured.maxTcpConnections ≤ k → AtMost k configured d fileSize

theorem askedPermits_le_iff (l : TransferLimits) (d : Direction) (fileSize : Nat) :
    askedPermits l d fileSize ≤ workerPermits l ↔ EnoughPermits l d fileSize := by
  have hfour : nWorkers l.normalized d fileSize ≤ 4 := (nWorkers_bounds l d fileSize).2
  have hpermits : workerPermits l = max l.maxTcpConnections 1 := rfl
  rw [askedPermits_eq, hpermits]
  constructor
  · intro h k hk hmax
    refine (nWorkers_le_iff l d fileSize hk).mp ?_
    simp only [List.mem_cons, List.not_mem_nil, or_false] at hk
    omega
  · intro h
    by_cases hmany : 4 ≤ l.maxTcpConnections
    · omega
    · have hmem : max l.maxTcpConnections 1 ∈ [1, 2, 3] := by
        simp only [List.mem_cons, List.not_mem_nil, or_false]
        omega
      exact (nWorkers_le_iff l d fileSize hmem).mpr (h _ hmem (Nat.le_max_left ..))

theorem workers_within_permits_iff (configured : TransferLimits) (d : Direction) (fileSize : Nat) :
    WithinPermits configured d fileSize ↔ EnoughPermits configured d fileSize := by
  rw [← askedPermits_le_iff]
  constructor
  · exact fun h => h.le
  · intro hle
    refine ⟨?_, hle, fun caller => (Semaphore.alone_granted_iff _ _).mpr hle⟩
    rw [askedPermits_eq]
    exact (nWorkers_bounds configured d fileSize).1

/-- Two connections in all, and a large file. -/
def fewConnections : TransferLimits := { TransferLimits.default with maxTcpConnections := 2 }

theorem large_upload_exceeds : ¬ ∀ (configured : TransferLimits) (d : Direction) (fileSize : Nat),
    WithinPermits configured d fileSize := by
  intro h
  have hle := (h fewConnections .upload (500 * mib)).le
  revert hle
  decide

end Ferogram.Media
