import Mathlib.Algebra.Group.Nat.Defs
import Mathlib.Data.List.Basic
import Mathlib.Order.Basic

/- The circuit breaker, a `RetryPolicy` of `ferogram-mtsender/src/retry.rs`.

   A call of `should_retry` takes the lock and reads the clock once, so a run is the list of
   those readings, in milliseconds. `ControlFlow::Continue` is the delay it comes with, and
   `Break` is `none`.

   The counter starts from 0, and from 1 after a cooldown, because the call that ends the
   cooldown is told to retry as well; so a threshold of 1 lets one call through after every
   cooldown. What is proved: `contract_iff`, for every run. -/
namespace Ferogram.Mtsender

inductive CbState where
  | closed (consecutiveFailures : Nat)
  | opened (trippedAt : Nat)
  deriving DecidableEq, Repr

/-- `CircuitBreaker::new` asserts that the threshold is at least 1. -/
structure CircuitBreaker where
  threshold : Nat
  cooldown : Nat
  threshold_pos : 1 ≤ threshold

/-- A call: when it was made, what it was told, and whether it tripped the breaker. -/
structure BreakerCall where
  time : Nat
  verdict : Option Nat
  tripped : Bool
  deriving DecidableEq, Repr

namespace BreakerCall

/-- `ControlFlow::Continue`. -/
def continued (c : BreakerCall) : Bool := c.verdict.isSome

/-- How many calls were told to retry. -/
def continues (calls : List BreakerCall) : Nat := calls.countP continued

end BreakerCall
open BreakerCall (continues)

namespace CircuitBreaker

/-- 200 ms, doubled with every failure up to 3.2 s. -/
def backoffMs (newCount : Nat) : Nat := 200 * 2 ^ min (newCount - 1) 4

def shouldRetry (b : CircuitBreaker) (s : CbState) (now : Nat) : BreakerCall × CbState :=
  match s with
  | .opened trippedAt =>
    -- `elapsed` saturates at zero
    if b.cooldown ≤ now - trippedAt then (⟨now, some 200, false⟩, .closed 1)
    else (⟨now, none, false⟩, .opened trippedAt)
  | .closed consecutiveFailures =>
    let newCount := consecutiveFailures + 1
    if b.threshold ≤ newCount then (⟨now, none, true⟩, .opened now)
    else (⟨now, some (backoffMs newCount), false⟩, .closed newCount)

/-- The calls of a run from a state. -/
def calls (b : CircuitBreaker) : CbState → List Nat → List BreakerCall
  | _, [] => []
  | s, now :: nows => (b.shouldRetry s now).1 :: calls b (b.shouldRetry s now).2 nows

/-- `CircuitBreaker::new`. -/
def start : CbState := .closed 0

/-! What is promised. -/

/-- No call is told to retry between a trip and the end of its cooldown. -/
def SilentWhileOpen (b : CircuitBreaker) (cs : List BreakerCall) : Prop :=
  cs.Pairwise fun trip c => trip.tripped = true → c.continued = true → trip.time + b.cooldown ≤ c.time

/-- Between two trips, and before the first, fewer calls are told to retry than the threshold. -/
def BoundedBetweenTrips (b : CircuitBreaker) (cs : List BreakerCall) : Prop :=
  ∀ before between trip after, cs = before ++ (between ++ trip :: after) →
    (∀ c ∈ before.getLast?, c.tripped = true) → (∀ c ∈ between, c.tripped = false) → trip.tripped = true →
    continues between ≤ b.threshold - 1

structure Contract (b : CircuitBreaker) (nows : List Nat) : Prop where
  silent : b.SilentWhileOpen (b.calls start nows)
  bounded : b.BoundedBetweenTrips (b.calls start nows)

/-- The threshold is 2 or more; or nobody calls again once a call has come after the cooldown of
the first one. -/
def Unspent (b : CircuitBreaker) (nows : List Nat) : Prop :=
  2 ≤ b.threshold ∨ ∀ now ∈ nows.tail.dropLast, now < nows.headD 0 + b.cooldown

/-! One call. -/

section
variable {b : CircuitBreaker}

theorem calls_time {s : CbState} {nows : List Nat} {c : BreakerCall} (h : c ∈ b.calls s nows) : c.time ∈ nows := by
  induction nows generalizing s with
  | nil => cases h
  | cons now nows ih =>
    rcases List.mem_cons.mp h with rfl | h
    · have htime : (b.shouldRetry s now).1.time = now := by
        unfold shouldRetry
        cases s <;> dsimp only <;> split <;> rfl
      rw [htime]
      exact List.mem_cons_self ..
    · exact List.mem_cons_of_mem _ (ih h)

theorem shouldRetry_opened {t now : Nat} (h : b.cooldown ≤ now - t) :
    b.shouldRetry (.opened t) now = (⟨now, some 200, false⟩, .closed 1) := if_pos h

theorem shouldRetry_waiting {t now : Nat} (h : now - t < b.cooldown) :
    b.shouldRetry (.opened t) now = (⟨now, none, false⟩, .opened t) := if_neg (Nat.not_le.mpr h)

theorem shouldRetry_trip {n now : Nat} (h : b.threshold ≤ n + 1) :
    b.shouldRetry (.closed n) now = (⟨now, none, true⟩, .opened now) := if_pos h

theorem shouldRetry_counting {n now : Nat} (h : n + 1 < b.threshold) :
    b.shouldRetry (.closed n) now = (⟨now, some (backoffMs (n + 1)), false⟩, .closed (n + 1)) :=
  if_neg (Nat.not_le.mpr h)

/-- Only a call that trips the breaker leaves it open from then on. -/
theorem shouldRetry_tripped {s : CbState} {now : Nat} (h : (b.shouldRetry s now).1.tripped = true) :
    (b.shouldRetry s now).2 = .opened now := by
  cases s with
  | opened t =>
    by_cases hwait : b.cooldown ≤ now - t
    · rw [shouldRetry_opened hwait] at h
      cases h
    · rw [shouldRetry_waiting (Nat.lt_of_not_le hwait)] at h
      cases h
  | closed n =>
    by_cases htrip : b.threshold ≤ n + 1
    · rw [shouldRetry_trip htrip]
    · rw [shouldRetry_counting (Nat.lt_of_not_le htrip)] at h
      cases h

/-! No call retries while the breaker is open. -/

theorem opened_silent {t : Nat} {nows : List Nat} (hsorted : nows.Pairwise (· ≤ ·)) (hlater : ∀ now ∈ nows, t ≤ now) :
    ∀ c ∈ b.calls (.opened t) nows, c.continued = true → t + b.cooldown ≤ c.time := by
  induction nows with
  | nil => intro c h; cases h
  | cons now nows ih =>
    intro c hc hcontinued
    have hnow := hlater now (List.mem_cons_self ..)
    by_cases hwait : b.cooldown ≤ now - t
    · -- this call ends the cooldown, and the others are not before it
      have htime : now ≤ c.time := by
        rcases List.mem_cons.mp (calls_time hc) with heq | hmem
        · exact Nat.le_of_eq heq.symm
        · exact List.rel_of_pairwise_cons hsorted hmem
      omega
    · have hstay := shouldRetry_waiting (Nat.lt_of_not_le hwait)
      rw [calls, hstay] at hc
      rcases List.mem_cons.mp hc with rfl | hc
      · cases hcontinued
      · exact ih hsorted.of_cons (fun now' h => hlater now' (List.mem_cons_of_mem _ h)) c hc hcontinued

theorem calls_silent (nows : List Nat) : ∀ s, nows.Pairwise (· ≤ ·) → b.SilentWhileOpen (b.calls s nows) := by
  induction nows with
  | nil => exact fun _ _ => List.Pairwise.nil
  | cons now nows ih =>
    intro s hsorted
    refine List.Pairwise.cons (fun c hc htripped hcontinued => ?_) (ih _ hsorted.of_cons)
    have hopen := shouldRetry_tripped htripped
    have htime : (b.shouldRetry s now).1.time = now := by
      have hmem : (b.shouldRetry s now).1.time ∈ [now] := calls_time (b := b) (s := s) (List.mem_cons_self ..)
      exact List.mem_singleton.mp hmem
    rw [hopen] at hc
    rw [htime]
    exact opened_silent hsorted.of_cons (fun _ h => List.rel_of_pairwise_cons hsorted h) c hc hcontinued

/-! The count between two trips. -/

theorem calls_eq_cons {s : CbState} {nows : List Nat} {c : BreakerCall} {cs : List BreakerCall}
    (h : b.calls s nows = c :: cs) :
    ∃ now nows', nows = now :: nows' ∧ c = (b.shouldRetry s now).1 ∧ cs = b.calls (b.shouldRetry s now).2 nows' := by
  cases nows with
  | nil => cases h
  | cons now nows =>
    obtain ⟨hc, hcs⟩ := List.cons.inj h
    exact ⟨now, nows, rfl, hc.symm, hcs.symm⟩

/-- From `n` failures on, the threshold leaves room for so many retries. -/
theorem closed_bounded {between rest : List BreakerCall} : ∀ {n : Nat} {nows : List Nat},
    b.calls (.closed n) nows = between ++ rest → (∀ c ∈ between, c.tripped = false) → n < b.threshold →
      continues between ≤ b.threshold - 1 - n := by
  induction between with
  | nil => exact fun _ _ _ => Nat.zero_le _
  | cons c between ih =>
    intro n nows h huntripped hn
    obtain ⟨now, nows', rfl, rfl, hrest⟩ := calls_eq_cons h
    by_cases htrip : b.threshold ≤ n + 1
    · have hc := huntripped _ (List.mem_cons_self ..)
      rw [shouldRetry_trip htrip] at hc
      cases hc
    · have hcount : b.shouldRetry (.closed n) now = _ := shouldRetry_counting (Nat.lt_of_not_le htrip)
      rw [hcount] at hrest ⊢
      have hle := ih hrest.symm (fun c hc => huntripped c (List.mem_cons_of_mem _ hc)) (by omega)
      have hone : continues (⟨now, some (backoffMs (n + 1)), false⟩ :: between) = continues between + 1 :=
        List.countP_cons_of_pos rfl
      rw [hone]
      omega

/-- The call that ends the cooldown is one of those that are counted. -/
theorem opened_bounded (htwo : 2 ≤ b.threshold) {between rest : List BreakerCall} : ∀ {t : Nat} {nows : List Nat},
    b.calls (.opened t) nows = between ++ rest → (∀ c ∈ between, c.tripped = false) →
      continues between ≤ b.threshold - 1 := by
  induction between with
  | nil => exact fun _ _ => Nat.zero_le _
  | cons c between ih =>
    intro t nows h huntripped
    obtain ⟨now, nows', rfl, rfl, hrest⟩ := calls_eq_cons h
    have hothers : ∀ c ∈ between, c.tripped = false := fun c hc => huntripped c (List.mem_cons_of_mem _ hc)
    by_cases hwait : b.cooldown ≤ now - t
    · rw [shouldRetry_opened hwait] at hrest ⊢
      have hle := closed_bounded hrest.symm hothers (by omega)
      have hone : continues (⟨now, some 200, false⟩ :: between) = continues between + 1 :=
        List.countP_cons_of_pos rfl
      rw [hone]
      omega
    · rw [shouldRetry_waiting (Nat.lt_of_not_le hwait)] at hrest ⊢
      have hnone : continues (⟨now, none, false⟩ :: between) = continues between :=
        List.countP_cons_of_neg Bool.false_ne_true
      rw [hnone]
      exact ih hrest.symm hothers

/-- What follows a trip is a run from the open breaker. -/
theorem calls_after_trip {before rest : List BreakerCall} : ∀ {s : CbState} {nows : List Nat},
    b.calls s nows = before ++ rest → before ≠ [] → (∀ c ∈ before.getLast?, c.tripped = true) →
      ∃ t nows', rest = b.calls (.opened t) nows' := by
  induction before with
  | nil => exact fun _ hne => absurd rfl hne
  | cons c before ih =>
    intro s nows h _ hlast
    obtain ⟨now, nows', rfl, rfl, hrest⟩ := calls_eq_cons h
    by_cases hnil : before = []
    · subst hnil
      rw [shouldRetry_tripped (hlast _ rfl)] at hrest
      exact ⟨now, nows', hrest⟩
    · apply ih hrest.symm hnil
      intro c hc
      apply hlast
      rwa [List.getLast?_cons_of_ne_nil hnil]

theorem bounded_of_two (htwo : 2 ≤ b.threshold) (nows : List Nat) : b.BoundedBetweenTrips (b.calls start nows) := by
  intro before between trip after h hbefore hbetween _
  by_cases hnil : before = []
  · rw [hnil, List.nil_append] at h
    exact closed_bounded h hbetween b.threshold_pos
  · obtain ⟨t, nows', hrest⟩ := calls_after_trip h hnil hbefore
    exact opened_bounded htwo hrest.symm hbetween

/-! A threshold of 1. -/

/-- No trip, as long as only the last call can come after the cooldown. -/
theorem opened_untripped {t : Nat} {nows : List Nat} (hlater : ∀ now ∈ nows, t ≤ now)
    (h : ∀ now ∈ nows.dropLast, now < t + b.cooldown) : ∀ c ∈ b.calls (.opened t) nows, c.tripped = false := by
  induction nows with
  | nil => intro c hc; cases hc
  | cons now nows ih =>
    cases nows with
    | nil =>
      intro c hc
      obtain rfl := List.mem_singleton.mp hc
      unfold shouldRetry
      dsimp only
      split <;> rfl
    | cons now' nows =>
      intro c hc
      have hafter := hlater now (List.mem_cons_self ..)
      have hbefore := h now (List.mem_cons_self ..)
      rw [calls, shouldRetry_waiting (by omega)] at hc
      rcases List.mem_cons.mp hc with rfl | hc
      · rfl
      · exact ih (fun now hmem => hlater now (List.mem_cons_of_mem _ hmem))
          (fun now hmem => h now (List.mem_cons_of_mem _ hmem)) c hc

/-- A call after the cooldown is told to retry, and the next one trips the breaker again. -/
theorem opened_retries (hone : b.threshold = 1) {t now : Nat} {nows : List Nat} (hmem : now ∈ nows.dropLast)
    (h : t + b.cooldown ≤ now) : ∃ between trip after, b.calls (.opened t) nows = between ++ trip :: after ∧
      (∀ c ∈ between, c.tripped = false) ∧ trip.tripped = true ∧ continues between = 1 := by
  induction nows with
  | nil => cases hmem
  | cons first nows ih =>
    cases nows with
    | nil => cases hmem
    | cons second nows =>
      by_cases hwait : b.cooldown ≤ first - t
      · refine ⟨[⟨first, some 200, false⟩], ⟨second, none, true⟩, b.calls (.opened second) nows, ?_, ?_, rfl, rfl⟩
        · rw [calls, calls, shouldRetry_opened hwait, shouldRetry_trip (by omega)]
          rfl
        · intro c hc
          obtain rfl := List.mem_singleton.mp hc
          rfl
      · rcases List.mem_cons.mp hmem with rfl | hmem
        · omega
        · obtain ⟨between, trip, after, heq, hbetween, htrip, hcount⟩ := ih hmem
          refine ⟨⟨first, none, false⟩ :: between, trip, after, ?_, ?_, htrip, hcount⟩
          · rw [calls, shouldRetry_waiting (Nat.lt_of_not_le hwait), heq]
            rfl
          · intro c hc
            rcases List.mem_cons.mp hc with rfl | hc
            · rfl
            · exact hbetween c hc

/-- With a threshold of 1 every count between two trips has to be nothing. -/
theorem bounded_one_iff (hone : b.threshold = 1) {first : Nat} {rest : List Nat} (hlater : ∀ now ∈ rest, first ≤ now) :
    b.BoundedBetweenTrips (b.calls start (first :: rest)) ↔ ∀ now ∈ rest.dropLast, now < first + b.cooldown := by
  have hcalls : b.calls start (first :: rest) = ⟨first, none, true⟩ :: b.calls (.opened first) rest := by
    rw [calls, start, shouldRetry_trip (by omega)]
  rw [hcalls]
  constructor
  · intro h now hmem
    by_contra hafter
    obtain ⟨between, trip, after, heq, hbetween, htrip, hcount⟩ :=
      opened_retries hone hmem (Nat.le_of_not_lt hafter)
    have hle := h [⟨first, none, true⟩] between trip after (by rw [heq]; rfl) (by simp) hbetween htrip
    omega
  · intro h before between trip after heq hbefore hbetween htrip
    have huntripped := opened_untripped hlater h
    -- the first call is the only trip, so nothing is in front of it
    cases before with
    | nil =>
      cases between with
      | nil => exact Nat.zero_le _
      | cons c between =>
        have hc := hbetween c (List.mem_cons_self ..)
        rw [← (List.cons.inj heq).1] at hc
        cases hc
    | cons c before =>
      have hmem : trip ∈ b.calls (.opened first) rest := by
        rw [(List.cons.inj heq).2]
        simp
      rw [huntripped trip hmem] at htrip
      cases htrip

end

theorem contract_iff (b : CircuitBreaker) (nows : List Nat) (hsorted : nows.Pairwise (· ≤ ·)) :
    b.Contract nows ↔ b.Unspent nows := by
  have hsilent := calls_silent (b := b) nows start hsorted
  by_cases htwo : 2 ≤ b.threshold
  · exact ⟨fun _ => .inl htwo, fun _ => ⟨hsilent, bounded_of_two htwo nows⟩⟩
  · have hone : b.threshold = 1 := by
      have hpos := b.threshold_pos
      omega
    have hunspent : b.Unspent nows ↔ ∀ now ∈ nows.tail.dropLast, now < nows.headD 0 + b.cooldown :=
      or_iff_right htwo
    rw [hunspent]
    cases nows with
    | nil => exact ⟨fun _ _ h => (by cases h), fun _ => ⟨hsilent, by simp [BoundedBetweenTrips, calls]⟩⟩
    | cons first rest =>
      have hbounded := bounded_one_iff hone (fun now h => List.rel_of_pairwise_cons hsorted h)
      exact ⟨fun h => hbounded.mp h.bounded, fun h => ⟨hsilent, hbounded.mpr h⟩⟩

/-- A trip, a call after its cooldown, and a call more. -/
theorem contract_kept : (CircuitBreaker.mk 2 1000 (by decide)).Contract [0, 10, 1500, 1600] :=
  (contract_iff ⟨2, 1000, by decide⟩ [0, 10, 1500, 1600] (by decide)).mpr (.inl (by decide))

/-- A threshold of 1 lets one call through between two trips. -/
theorem threshold_one_retries : ¬ ∀ (b : CircuitBreaker) (nows : List Nat), nows.Pairwise (· ≤ ·) → b.Contract nows := by
  intro h
  have hle := (h ⟨1, 1000, by decide⟩ [0, 1000, 1001] (by decide)).bounded [⟨0, none, true⟩]
    [⟨1000, some 200, false⟩] ⟨1001, none, true⟩ [] (by decide) (by decide) (by decide) rfl
  revert hle
  decide

end CircuitBreaker

end Ferogram.Mtsender
