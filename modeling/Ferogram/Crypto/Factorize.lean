import Mathlib.Algebra.Order.Ring.Nat
import Mathlib.Data.Nat.ModEq
import Mathlib.Data.Nat.GCD.Basic
import Mathlib.Tactic.Ring
import Ferogram.Lib.Checked
import Ferogram.Lib.Orbit

/- The factorisation of `pq`, `ferogram-crypto/src/factorize.rs`: Brent's variant of Pollard's
   rho, with the greatest common divisor taken once for a batch of steps.

   `u128` is checked, so an overflow would be seen; the loops that might not end have fuel.

   What is proved: `factorize_exact_iff`. What is returned for an odd number is a divisor and
   what is left (`factorizeWith_meets`). A round is longer than the orbit at some time, and then
   a difference in it is zero, so the rounds come to an end. Below 13 a batch is empty, and no
   batch ends the round (`factorize_tiny`). -/
namespace Ferogram.Factorize
open Checked

def mul (a b : Nat) : Except Stop Nat := fit (2 ^ 128) (a * b)

def add (a b : Nat) : Except Stop Nat := fit (2 ^ 128) (a + b)

def gcd (a b : Nat) : Nat := if _h : b = 0 then a else gcd b (a % b)
termination_by b
decreasing_by exact Nat.mod_lt a (Nat.pos_of_ne_zero _h)

def modpowLoop (m result n e : Nat) : Except Stop Nat :=
  if h : e = 0 then .ok result
  else do
    let result ← if e % 2 = 1 then (mul result n).bind (rem · m) else .ok result
    let n ← (mul n n).bind (rem · m)
    modpowLoop m result n (e / 2)
termination_by e
decreasing_by omega

def modpow (n e m : Nat) : Except Stop Nat :=
  if m = 1 then .ok 0 else (rem n m).bind fun n => modpowLoop m 1 n e

def absSub (a b : Nat) : Nat := max a b - min a b

/-- The variables of `factorize_with`. -/
structure Rho where
  y : Nat
  g : Nat
  r : Nat
  q : Nat
  x : Nat
  ys : Nat
  k : Nat

section
variable (fuel pq c m : Nat)

/-- `(modpow(y, 2, pq) + c) % pq`. -/
def step (y : Nat) : Except Stop Nat := do
  let square ← modpow y 2 pq
  let sum ← add square c
  rem sum pq

def advance (s : Rho) : Except Stop Rho := do
  let y ← step pq c s.y
  pure { s with y := y }

def batchStep (s : Rho) : Except Stop Rho := do
  let y ← step pq c s.y
  let product ← mul s.q (absSub s.x y)
  let q ← rem product pq
  pure { s with y := y, q := q }

/-- One turn of the inner loop. -/
def batch (s : Rho) : Except Stop Rho := do
  let s ← times (batchStep pq c) (min m (s.r - s.k)) { s with ys := s.y }
  let s := { s with g := gcd s.q pq }
  let k ← add s.k m
  pure { s with k := k }

/-- One turn of the outer loop. -/
def round (s : Rho) : Except Stop Rho := do
  let s ← times (advance pq c) s.r { s with x := s.y }
  let s ← loop (fun s => s.k < s.r && s.g = 1) (batch pq c m) fuel { s with k := 0 }
  let r ← mul s.r 2
  pure { s with r := r }

def fallbackStep (s : Rho) : Except Stop Rho := do
  let ys ← step pq c s.ys
  pure { s with ys := ys, g := gcd (absSub s.x ys) pq }

/-- Single steps from the beginning of the last batch. -/
def fallback (s : Rho) : Except Stop Rho := do
  let s ← fallbackStep pq c s
  loop (fun s => s.g ≤ 1) (fallbackStep pq c) fuel s

/-- `(p.min(q), p.max(q))`. -/
def inOrder (p q : UInt64) : UInt64 × UInt64 := if p ≤ q then (p, q) else (q, p)

def begin (y : Nat) : Rho := { y := y, g := 1, r := 1, q := 1, x := 0, ys := 0, k := 0 }

def factorizeWith : Except Stop (UInt64 × UInt64) :=
  if pq % 2 = 0 then .ok (2, UInt64.ofNat (pq / 2))
  else do
    let y ← mul 3 (pq / 7)
    let m ← mul 7 (pq / 13)
    let s ← loop (fun s => s.g = 1) (round fuel pq c m) fuel (begin y)
    let s ← (if s.g = pq then fallback fuel pq c s else .ok s)
    let q ← div pq s.g
    pure (inOrder (UInt64.ofNat s.g) (UInt64.ofNat q))

/-- One attempt after the other. -/
def tryAttempts : List Nat → Except Stop (Option (UInt64 × UInt64))
  | [] => .ok none
  | attempt :: attempts => do
    let c ← mul attempt (pq / 103)
    let (p, q) ← factorizeWith fuel pq c
    if p ≠ 1 then pure (some (p, q)) else tryAttempts attempts

end

def attempts : List Nat := [43, 47, 53, 59, 61]

def factorize (fuel : Nat) (pq : UInt64) : Except Stop (Option (UInt64 × UInt64)) := tryAttempts fuel pq.toNat attempts

/-! The arithmetic. -/

theorem gcd_eq (a b : Nat) : gcd a b = Nat.gcd a b := by
  induction a, b using gcd.induct with
  | case1 a => rw [gcd, dif_pos rfl, Nat.gcd_zero_right]
  | case2 a b h ih => rw [gcd, dif_neg h, ih, Nat.gcd_comm b, ← Nat.gcd_rec, Nat.gcd_comm]

theorem mul_of_lt {a b : Nat} (h : a * b < 2 ^ 128) : mul a b = .ok (a * b) := fit_of_lt h

theorem add_of_lt {a b : Nat} (h : a + b < 2 ^ 128) : add a b = .ok (a + b) := fit_of_lt h

theorem absSub_le {a b n : Nat} (ha : a ≤ n) (hb : b ≤ n) : absSub a b ≤ n := by
  unfold absSub
  omega

theorem absSub_self (a : Nat) : absSub a a = 0 := by
  unfold absSub
  omega

/-- Products of two numbers of 64 bits fit. -/
theorem mul_lt {a b : Nat} (ha : a < 2 ^ 64) (hb : b < 2 ^ 64) : a * b < 2 ^ 128 :=
  calc a * b < 2 ^ 64 * 2 ^ 64 := Nat.mul_lt_mul'' ha hb
    _ = 2 ^ 128 := by rw [← Nat.pow_add]

theorem mulRem_of_lt {a b m : Nat} (ha : a < 2 ^ 64) (hb : b < 2 ^ 64) (hm : 0 < m) :
    (mul a b).bind (rem · m) = .ok (a * b % m) := by
  rw [mul_of_lt (mul_lt ha hb)]
  exact rem_of_pos hm

theorem modpow_two {pq y : Nat} (hpq : 1 < pq) (hbound : pq < 2 ^ 64) : modpow y 2 pq = .ok (y * y % pq) := by
  have hmod : ∀ z, z % pq < 2 ^ 64 := fun z => Nat.lt_trans (Nat.mod_lt z (by omega)) hbound
  unfold modpow
  rw [if_neg (by omega), rem_of_pos (by omega)]
  change modpowLoop pq 1 (y % pq) 2 = _
  rw [modpowLoop, dif_neg (by decide), if_neg (by decide), mulRem_of_lt (hmod y) (hmod y) (by omega)]
  change modpowLoop pq 1 (y % pq * (y % pq) % pq) 1 = _
  rw [modpowLoop, dif_neg (by decide), if_pos rfl, mulRem_of_lt (by decide) (hmod _) (by omega),
    mulRem_of_lt (hmod _) (hmod _) (by omega)]
  change modpowLoop pq (1 * (y % pq * (y % pq) % pq) % pq) _ 0 = _
  rw [modpowLoop, dif_pos rfl, Nat.one_mul, Nat.mod_mod, ← Nat.mul_mod]

/-- The map whose orbit is walked. -/
def walk (pq c z : Nat) : Nat := (z * z + c) % pq

theorem walk_lt {pq : Nat} (hpq : 0 < pq) (c z : Nat) : walk pq c z < pq := Nat.mod_lt _ hpq

theorem step_eq {pq c : Nat} (hpq : 1 < pq) (hbound : pq < 2 ^ 64) (hc : c < 2 ^ 64) (y : Nat) :
    step pq c y = .ok (walk pq c y) := by
  have hsquare : y * y % pq < 2 ^ 64 := Nat.lt_trans (Nat.mod_lt _ (by omega)) hbound
  unfold step
  rw [modpow_two hpq hbound]
  change (add (y * y % pq) c).bind (rem · pq) = _
  rw [add_of_lt (by omega)]
  change rem (y * y % pq + c) pq = _
  rw [rem_of_pos (by omega), walk, Nat.mod_add_mod]

/-! The walk. -/

/-- What an odd number that is walked for brings with it. -/
structure Setting (pq c m : Nat) : Prop where
  thirteen : 13 ≤ pq
  bound : pq < 2 ^ 64
  constant : c < 2 ^ 64
  batch : m = 7 * (pq / 13)

namespace Setting
variable {pq c m : Nat}

theorem pos (h : Setting pq c m) : 0 < pq := Nat.lt_of_lt_of_le (by decide) h.thirteen

theorem step_eq (h : Setting pq c m) (y : Nat) : step pq c y = .ok (walk pq c y) :=
  Factorize.step_eq (Nat.lt_of_lt_of_le (by decide) h.thirteen) h.bound h.constant y

theorem batch_pos (h : Setting pq c m) : 0 < m := by
  have hthirteen := h.thirteen
  have hbatch := h.batch
  omega

theorem batch_le (h : Setting pq c m) : m ≤ pq := by
  have hbatch := h.batch
  omega

end Setting

/-- There is a step, among the next `n`, that gives a divisor. -/
def Found (pq c n : Nat) (s : Rho) : Prop :=
  ∃ i, 0 < i ∧ i ≤ n ∧ 1 < Nat.gcd (absSub s.x ((walk pq c)^[i] s.ys)) pq

/-- Inside of a batch that began at `ys`, behind `i` steps. -/
structure InBatch (pq c : Nat) (s₀ : Rho) (i : Nat) (s : Rho) : Prop where
  same : s = { s₀ with ys := s₀.y, y := s.y, q := s.q }
  y : s.y = (walk pq c)^[i] s₀.y
  q : s.q ≤ pq
  found : Nat.gcd s.q pq = 1 ∨ Found pq c i s
  met : ∀ j, 0 < j → j ≤ i → (walk pq c)^[j] s₀.y = s₀.x → s.q = 0

section Batch
variable {total : Prop} {pq c m : Nat}

theorem Found.mono {n n' : Nat} {s s' : Rho} (h : Found pq c n s) (hle : n ≤ n') (hx : s'.x = s.x) (hys : s'.ys = s.ys) :
    Found pq c n' s' := by
  obtain ⟨i, hpos, hi, hgcd⟩ := h
  refine ⟨i, hpos, Nat.le_trans hi hle, ?_⟩
  rwa [hx, hys]

theorem batchStep_meets (h : Setting pq c m) {s₀ : Rho} (hx : s₀.x < pq) {i : Nat} {s : Rho} (hs : InBatch pq c s₀ i s) :
    Meets total (batchStep pq c s) (InBatch pq c s₀ (i + 1)) := by
  have hsx : s.x = s₀.x := by rw [hs.same]
  have hys : s.ys = s₀.y := by rw [hs.same]
  have hwalk : walk pq c s.y = (walk pq c)^[i + 1] s₀.y := by rw [hs.y, Function.iterate_succ_apply']
  have hdiff : absSub s.x (walk pq c s.y) ≤ pq := by
    rw [hsx]
    exact absSub_le (Nat.le_of_lt hx) (Nat.le_of_lt (walk_lt h.pos c s.y))
  have hproduct : s.q * absSub s.x (walk pq c s.y) < 2 ^ 128 :=
    mul_lt (Nat.lt_of_le_of_lt hs.q h.bound) (Nat.lt_of_le_of_lt hdiff h.bound)
  have heq : batchStep pq c s =
      .ok { s with y := walk pq c s.y, q := s.q * absSub s.x (walk pq c s.y) % pq } := by
    unfold batchStep
    rw [h.step_eq]
    change (mul s.q (absSub s.x (walk pq c s.y))).bind _ = _
    rw [mul_of_lt hproduct]
    change (rem (s.q * absSub s.x (walk pq c s.y)) pq).bind _ = _
    rw [rem_of_pos h.pos]
    rfl
  refine Meets.of_ok heq ⟨?_, hwalk, Nat.le_of_lt (Nat.mod_lt _ h.pos), ?_, ?_⟩
  · rw [hs.same]
  · -- one of two factors has a divisor in common with `pq` if the product has
    have hgcd : Nat.gcd (s.q * absSub s.x (walk pq c s.y) % pq) pq = Nat.gcd (s.q * absSub s.x (walk pq c s.y)) pq :=
      (Nat.gcd_rec pq _).symm.trans (Nat.gcd_comm pq _)
    rcases hs.found with hone | hfound
    · by_cases hnew : Nat.gcd (absSub s.x (walk pq c s.y)) pq = 1
      · refine Or.inl ?_
        change Nat.gcd (s.q * absSub s.x (walk pq c s.y) % pq) pq = 1
        rw [hgcd]
        exact Nat.Coprime.mul_left hone hnew
      · refine Or.inr ⟨i + 1, Nat.succ_pos i, Nat.le_refl _, ?_⟩
        change 1 < Nat.gcd (absSub s.x ((walk pq c)^[i + 1] s.ys)) pq
        rw [hys, ← hwalk]
        have hpos : 0 < Nat.gcd (absSub s.x (walk pq c s.y)) pq := Nat.gcd_pos_of_pos_right _ h.pos
        omega
    · exact Or.inr (hfound.mono (Nat.le_succ i) rfl rfl)
  · intro j hpos hle hj
    change s.q * absSub s.x (walk pq c s.y) % pq = 0
    rcases Nat.lt_or_eq_of_le hle with hlt | rfl
    · rw [hs.met j hpos (Nat.le_of_lt_succ hlt) hj, Nat.zero_mul, Nat.zero_mod]
    · rw [hwalk, hj, hsx, absSub_self, Nat.mul_zero, Nat.zero_mod]

/-- Inside of the round of `r`, which began `2 * (r - 1)` steps behind `y₀`; `n` steps of it are left. -/
structure InRound (pq c y₀ r n : Nat) (s : Rho) : Prop where
  length : s.r = r
  x : s.x = (walk pq c)^[2 * (r - 1)] y₀
  g : s.g = Nat.gcd s.q pq
  q : s.q ≤ pq
  y : s.g = 1 → s.y = (walk pq c)^[2 * (r - 1) + r + min s.k r] y₀
  unmet : s.g = 1 → ∀ j, 0 < j → j ≤ min s.k r → (walk pq c)^[2 * (r - 1) + r + j] y₀ ≠ s.x
  found : s.g ≠ 1 → Found pq c pq s
  left : n = r - s.k

/-- A batch goes on in the round, and finds a point that is met. -/
theorem InRound.batched (h : Setting pq c m) {y₀ r n : Nat} {s s₂ : Rho} (hs : InRound pq c y₀ r n s) (hg : s.g = 1)
    (hk : s.k < r) (hs₂ : InBatch pq c s (min m (r - s.k)) s₂) :
    InRound pq c y₀ r (r - (s₂.k + m)) { s₂ with g := gcd s₂.q pq, k := s₂.k + m } := by
  have hk₂ : s₂.k = s.k := by rw [hs₂.same]
  have hx₂ : s₂.x = s.x := by rw [hs₂.same]
  have hr₂ : s₂.r = r := by rw [hs₂.same]; exact hs.length
  have hmin : min s.k r = s.k := Nat.min_eq_left (Nat.le_of_lt hk)
  have hlength : min (s₂.k + m) r = s.k + min m (r - s.k) := by omega
  refine ⟨hr₂, hx₂.trans hs.x, gcd_eq _ _, hs₂.q, fun _ => ?_, fun hone j hpos hle => ?_, fun hne => ?_, rfl⟩
  · change s₂.y = (walk pq c)^[2 * (r - 1) + r + min (s₂.k + m) r] y₀
    have hadd : 2 * (r - 1) + r + (s.k + min m (r - s.k)) = min m (r - s.k) + (2 * (r - 1) + r + s.k) := by omega
    rw [hs₂.y, hs.y hg, hmin, hlength, hadd, Function.iterate_add_apply _ (min m (r - s.k))]
  · change j ≤ min (s₂.k + m) r at hle
    change _ ≠ s₂.x
    rw [hx₂]
    by_cases hold : j ≤ s.k
    · exact hs.unmet hg j hpos (by rwa [hmin])
    · -- a point that was met makes the product zero
      intro hmet
      have hzero : s₂.q = 0 := by
        refine hs₂.met (j - s.k) (by omega) (by omega) ?_
        have hadd : 2 * (r - 1) + r + j = (j - s.k) + (2 * (r - 1) + r + s.k) := by omega
        rw [hs.y hg, hmin, ← Function.iterate_add_apply, ← hadd, hmet]
      have hall : gcd s₂.q pq = pq := by rw [gcd_eq, hzero, Nat.gcd_zero_left]
      have hthirteen := h.thirteen
      change gcd s₂.q pq = 1 at hone
      omega
  · change gcd s₂.q pq ≠ 1 at hne
    rw [gcd_eq] at hne
    rcases hs₂.found with hone | hfound
    · exact absurd hone hne
    · exact hfound.mono (Nat.le_trans (Nat.min_le_left _ _) h.batch_le) rfl rfl

theorem batch_meets (h : Setting pq c m) {y₀ r : Nat} (hy₀ : y₀ < pq) (hr : r ≤ 2 ^ 65) {n : Nat} {s : Rho}
    (hs : InRound pq c y₀ r n s) (hcond : (s.k < s.r && s.g = 1) = true) :
    Meets total (batch pq c m s) fun s' => ∃ n' < n, InRound pq c y₀ r n' s' := by
  obtain ⟨hk, hg⟩ : s.k < s.r ∧ s.g = 1 := by simpa using hcond
  rw [hs.length] at hk
  have hx : s.x < pq := by
    rw [hs.x]
    exact Orbit.iterate_lt (fun z _ => walk_lt h.pos c z) hy₀ _
  have hcoprime : Nat.gcd s.q pq = 1 := hs.g.symm.trans hg
  have hstart : InBatch pq c s 0 { s with ys := s.y } :=
    ⟨rfl, rfl, hs.q, Or.inl hcoprime, fun j hpos hle => absurd hpos (by omega)⟩
  have htimes : Meets total (times (batchStep pq c) (min m (s.r - s.k)) { s with ys := s.y })
      (InBatch pq c s (0 + min m (s.r - s.k))) :=
    times_meets _ 0 _ hstart fun _ _ _ _ hj => batchStep_meets h hx hj
  rw [Nat.zero_add, hs.length] at htimes
  unfold batch
  rw [hs.length]
  refine htimes.bind fun s₂ hs₂ => ?_
  have hk₂ : s₂.k = s.k := by rw [hs₂.same]
  have hm := h.batch_le
  have hbound := h.bound
  change Meets total ((add s₂.k m).bind _) _
  rw [add_of_lt (by omega)]
  refine Meets.of_ok rfl ⟨r - (s₂.k + m), ?_, hs.batched h hg hk hs₂⟩
  have hleft := hs.left
  have hpos := h.batch_pos
  omega

/-- Between the rounds; `n` bounds those that are left. -/
structure Between (pq c y₀ n : Nat) (s : Rho) : Prop where
  g : s.g = Nat.gcd s.q pq
  q : s.q ≤ pq
  y : s.g = 1 → s.y = (walk pq c)^[2 * (s.r - 1)] y₀
  pos : 0 < s.r
  r : s.g = 1 → s.r ≤ 2 ^ 65
  found : s.g ≠ 1 → Found pq c pq s
  left : n = 2 ^ 67 - s.r

theorem advance_meets (h : Setting pq c m) (s₀ : Rho) {i : Nat} {s : Rho} (hs : s = { s₀ with y := (walk pq c)^[i] s₀.y }) :
    Meets total (advance pq c s) fun s' => s' = { s₀ with y := (walk pq c)^[i + 1] s₀.y } := by
  have heq : advance pq c s = .ok { s with y := walk pq c s.y } := by
    unfold advance
    rw [h.step_eq]
    rfl
  refine Meets.of_ok heq ?_
  rw [hs, Function.iterate_succ_apply']

/-- In a round that is longer than the orbit a point is met again. -/
theorem round_short (h : Setting pq c m) {y₀ r n : Nat} (hy₀ : y₀ < pq) {s : Rho} (hs : InRound pq c y₀ r n s)
    (hone : s.g = 1) (hk : r ≤ s.k) : r < pq := by
  by_contra hlong
  have hthirteen := h.thirteen
  obtain ⟨j, hpos, hle, hmet⟩ := Orbit.exists_return (fun z _ => walk_lt h.pos c z) hy₀
    (show pq ≤ 2 * (r - 1) by omega) (show pq ≤ r by omega)
  refine hs.unmet hone j hpos ?_ ?_
  · rwa [Nat.min_eq_right hk]
  · rw [hmet, hs.x]

theorem round_meets {fuel : Nat} (htotal : total → 2 ^ 67 < fuel) (h : Setting pq c m) {y₀ : Nat} (hy₀ : y₀ < pq) {n : Nat} {s : Rho}
    (hs : Between pq c y₀ n s) (hcond : decide (s.g = 1) = true) :
    Meets total (round fuel pq c m s) fun s' => ∃ n' < n, Between pq c y₀ n' s' := by
  have hg : s.g = 1 := of_decide_eq_true hcond
  have hr := hs.r hg
  have hpos := hs.pos
  unfold round
  have htimes : Meets total (times (advance pq c) s.r { s with x := s.y }) fun t =>
      t = { s with x := s.y, y := (walk pq c)^[0 + s.r] s.y } :=
    times_meets (I := fun i t => t = { s with x := s.y, y := (walk pq c)^[i] s.y }) s.r 0 _ rfl
      fun _ _ _ _ hj => advance_meets h { s with x := s.y } hj
  rw [Nat.zero_add] at htimes
  refine htimes.bind fun s₁ hs₁ => ?_
  have hy₁ : (walk pq c)^[s.r] s.y = (walk pq c)^[2 * (s.r - 1) + s.r] y₀ := by
    rw [hs.y hg, ← Function.iterate_add_apply, Nat.add_comm s.r]
  have hround : InRound pq c y₀ s.r s.r { s₁ with k := 0 } := by
    rw [hs₁]
    refine ⟨rfl, hs.y hg, hs.g, hs.q, fun _ => ?_, fun _ j hjpos hle => absurd hjpos ?_, fun hne => absurd hg hne, rfl⟩
    · change (walk pq c)^[s.r] s.y = (walk pq c)^[2 * (s.r - 1) + s.r + min 0 s.r] y₀
      rw [hy₁, Nat.zero_min, Nat.add_zero]
    · change j ≤ min 0 s.r at hle
      omega
  have hloop : Meets total (loop (fun s => s.k < s.r && s.g = 1) (batch pq c m) fuel { s₁ with k := 0 })
      fun s₂ => (decide (s₂.k < s₂.r) && decide (s₂.g = 1)) = false ∧ ∃ n', InRound pq c y₀ s.r n' s₂ :=
    loop_meets (fun n t ht hcond => batch_meets h hy₀ hr ht hcond) fuel s.r _ hround
      fun hT => by have hfuel := htotal hT; omega
  refine hloop.bind fun s₂ ⟨hended, n₂, hs₂⟩ => ?_
  have hr₂ := hs₂.length
  change Meets total ((mul s₂.r 2).bind _) _
  rw [mul_of_lt (by omega)]
  refine Meets.of_ok rfl ⟨2 ^ 67 - s₂.r * 2, ?_, ?_⟩
  · have hleft := hs.left
    omega
  · have hend : s₂.g = 1 → s.r ≤ s₂.k := by
      intro hone
      simp only [hone, decide_true, Bool.and_true, decide_eq_false_iff_not] at hended
      omega
    refine ⟨hs₂.g, hs₂.q, fun hone => ?_, ?_, fun hone => ?_, hs₂.found, rfl⟩
    · change s₂.y = (walk pq c)^[2 * (s₂.r * 2 - 1)] y₀
      have hsteps : 2 * (s.r - 1) + s.r + s.r = 2 * (s₂.r * 2 - 1) := by omega
      rw [hs₂.y hone, Nat.min_eq_right (hend hone), hsteps]
    · change 0 < s₂.r * 2
      omega
    · have hshort := round_short h hy₀ hs₂ hone (hend hone)
      have hbound := h.bound
      change s₂.r * 2 ≤ 2 ^ 65
      omega

/-! Single steps. -/

/-- A divisor is there, or it is `n` steps away. -/
structure Seeking (pq c n : Nat) (s : Rho) : Prop where
  g : s.g = Nat.gcd (absSub s.x s.ys) pq
  near : 1 < s.g ∨ (0 < n ∧ 1 < Nat.gcd (absSub s.x ((walk pq c)^[n] s.ys)) pq)

theorem fallbackStep_meets (h : Setting pq c m) {n : Nat} (hn : 0 < n) {s : Rho}
    (hs : 1 < Nat.gcd (absSub s.x ((walk pq c)^[n] s.ys)) pq) :
    Meets total (fallbackStep pq c s) (Seeking pq c (n - 1)) := by
  have heq : fallbackStep pq c s =
      .ok { s with ys := walk pq c s.ys, g := gcd (absSub s.x (walk pq c s.ys)) pq } := by
    unfold fallbackStep
    rw [h.step_eq]
    rfl
  obtain ⟨i, rfl⟩ : ∃ i, n = i + 1 := ⟨n - 1, by omega⟩
  rw [Function.iterate_succ_apply] at hs
  refine Meets.of_ok heq ⟨gcd_eq _ _, ?_⟩
  cases i with
  | zero =>
    refine Or.inl ?_
    change 1 < gcd (absSub s.x (walk pq c s.ys)) pq
    rw [gcd_eq]
    exact hs
  | succ i => exact Or.inr ⟨Nat.succ_pos i, hs⟩

theorem fallback_meets {fuel : Nat} (htotal : total → 2 ^ 67 < fuel) (h : Setting pq c m) {s : Rho} (hs : Found pq c pq s) :
    Meets total (fallback fuel pq c s) fun s' => 1 < s'.g ∧ s'.g ∣ pq := by
  obtain ⟨i, hpos, hle, hgcd⟩ := hs
  have hbound := h.bound
  unfold fallback
  refine (fallbackStep_meets h hpos hgcd).bind fun s₁ hs₁ => ?_
  refine (loop_meets (fun n t ht hcond => ?_) fuel (i - 1) s₁ hs₁ fun hT => ?_).mono fun s' ⟨hended, n, hs'⟩ => ?_
  · have hle : t.g ≤ 1 := of_decide_eq_true hcond
    rcases ht.near with hlt | ⟨hn, hfar⟩
    · omega
    · exact (fallbackStep_meets h hn hfar).mono fun t' ht' => ⟨n - 1, by omega, ht'⟩
  · have hfuel := htotal hT
    omega
  · have hnot : ¬ s'.g ≤ 1 := of_decide_eq_false hended
    refine ⟨by omega, ?_⟩
    rw [hs'.g]
    exact Nat.gcd_dvd_right _ _

/-! The factors. -/

/-- Two factors of `pq`, the smaller one first. -/
def Factors (pq : Nat) (r : UInt64 × UInt64) : Prop := r.1.toNat * r.2.toNat = pq ∧ r.1 ≤ r.2

theorem inOrder_factors {pq g : Nat} (hbound : pq < 2 ^ 64) (hpos : 0 < pq) (hg : g ∣ pq) :
    Factors pq (inOrder (UInt64.ofNat g) (UInt64.ofNat (pq / g))) := by
  have hle : g ≤ pq := Nat.le_of_dvd hpos hg
  have hp : (UInt64.ofNat g).toNat = g := UInt64.toNat_ofNat_of_lt' (Nat.lt_of_le_of_lt hle hbound)
  have hq : (UInt64.ofNat (pq / g)).toNat = pq / g :=
    UInt64.toNat_ofNat_of_lt' (Nat.lt_of_le_of_lt (Nat.div_le_self pq g) hbound)
  have hproduct : g * (pq / g) = pq := Nat.mul_div_cancel' hg
  unfold Factors inOrder
  split
  case isTrue h =>
    rw [hp, hq]
    exact ⟨hproduct, h⟩
  case isFalse h =>
    rw [hp, hq, Nat.mul_comm]
    exact ⟨hproduct, UInt64.le_of_lt (UInt64.not_le.mp h)⟩

theorem factorizeWith_meets {fuel : Nat} (htotal : total → 2 ^ 67 < fuel) (hodd : pq % 2 = 1) (hthirteen : 13 ≤ pq)
    (hbound : pq < 2 ^ 64) (hc : c < 2 ^ 64) : Meets total (factorizeWith fuel pq c) (Factors pq) := by
  have h : Setting pq c (7 * (pq / 13)) := ⟨hthirteen, hbound, hc, rfl⟩
  have hy₀ : 3 * (pq / 7) < pq := by omega
  unfold factorizeWith
  rw [if_neg (by omega), mul_of_lt (by omega), mul_of_lt (by omega)]
  have hbegin : Between pq c (3 * (pq / 7)) (2 ^ 67 - 1) (begin (3 * (pq / 7))) :=
    ⟨(Nat.gcd_one_left pq).symm, h.pos, fun _ => rfl, Nat.one_pos, fun _ => Nat.one_le_two_pow, fun hne => absurd rfl hne, rfl⟩
  refine Meets.bind (P := fun s : Rho => s.g ≠ 1 ∧ s.g ∣ pq ∧ Found pq c pq s) ?_ fun s ⟨hne, hdvd, hfound⟩ => ?_
  · refine (loop_meets (fun n t ht hcond => round_meets htotal h hy₀ ht hcond) fuel (2 ^ 67 - 1) _ hbegin
      fun hT => ?_).mono fun s ⟨hended, n, hs⟩ => ?_
    · have hfuel := htotal hT
      omega
    · have hne : s.g ≠ 1 := of_decide_eq_false hended
      refine ⟨hne, ?_, hs.found hne⟩
      rw [hs.g]
      exact Nat.gcd_dvd_right _ _
  · refine Meets.bind (P := fun s : Rho => s.g ∣ pq) ?_ fun s' hdvd' => ?_
    · split
      · exact (fallback_meets htotal h hfound).mono fun s' hs' => hs'.2
      · exact Meets.of_ok rfl hdvd
    · rw [div_of_pos (Nat.pos_of_dvd_of_pos hdvd' h.pos)]
      exact Meets.of_ok rfl (inOrder_factors hbound h.pos hdvd')

end Batch

/-! The attempts. -/

section Attempts
variable {total : Prop} {fuel pq : Nat}

/-- The answer is a factorisation, or none. -/
def Answers (pq : Nat) (answer : Option (UInt64 × UInt64)) : Prop :=
  ∀ p q, answer = some (p, q) → p.toNat * q.toNat = pq ∧ 1 < p.toNat ∧ p ≤ q

theorem constant_eq {attempt : Nat} (hbound : pq < 2 ^ 64) (hattempt : attempt ∈ attempts) :
    attempt * (pq / 103) < 2 ^ 64 ∧ mul attempt (pq / 103) = .ok (attempt * (pq / 103)) := by
  have hle : attempt ≤ 61 := by
    revert attempt
    decide
  have hlt : attempt * (pq / 103) ≤ 61 * (pq / 103) := Nat.mul_le_mul_right _ hle
  exact ⟨by omega, mul_of_lt (by omega)⟩

theorem tryAttempts_meets (htotal : total → 2 ^ 67 < fuel) (hodd : pq % 2 = 1) (hthirteen : 13 ≤ pq) (hbound : pq < 2 ^ 64)
    (rest : List Nat) : (∀ attempt ∈ rest, attempt ∈ attempts) → Meets total (tryAttempts fuel pq rest) (Answers pq) := by
  induction rest with
  | nil => exact fun _ => Meets.of_ok rfl fun p q h => by cases h
  | cons attempt rest ih =>
    intro hall
    obtain ⟨hhead, hrest⟩ := List.forall_mem_cons.mp hall
    obtain ⟨hc, hmul⟩ := constant_eq hbound hhead
    unfold tryAttempts
    rw [hmul]
    change Meets total ((factorizeWith fuel pq (attempt * (pq / 103))).bind _) _
    refine Meets.bind (factorizeWith_meets htotal hodd hthirteen hbound hc) fun ⟨p, q⟩ hfactors => ?_
    obtain ⟨hproduct, hle⟩ : p.toNat * q.toNat = pq ∧ p ≤ q := hfactors
    dsimp only
    split
    case isTrue hp =>
      refine Meets.of_ok rfl fun p' q' heq => ?_
      obtain ⟨rfl, rfl⟩ := Prod.mk.inj (Option.some.inj heq)
      refine ⟨hproduct, ?_, hle⟩
      have hone : p.toNat ≠ 1 := fun h => hp (UInt64.toNat_inj.mp h)
      have hzero : p.toNat ≠ 0 := by
        intro h
        rw [h, Nat.zero_mul] at hproduct
        omega
      omega
    case isFalse => exact ih hrest

theorem factorize_even {fuel : Nat} {pq : UInt64} (h : pq.toNat % 2 = 0) :
    factorize fuel pq = .ok (some (2, UInt64.ofNat (pq.toNat / 2))) := by
  obtain ⟨-, hmul⟩ := constant_eq pq.toNat_lt (by decide : 43 ∈ attempts)
  have hwith : factorizeWith fuel pq.toNat (43 * (pq.toNat / 103)) = .ok (2, UInt64.ofNat (pq.toNat / 2)) := if_pos h
  unfold factorize attempts tryAttempts
  rw [hmul]
  change (factorizeWith fuel pq.toNat (43 * (pq.toNat / 103))).bind _ = _
  rw [hwith]
  rfl

/-- A step returns also for one. -/
theorem exists_step (hpos : 0 < pq) (hbound : pq < 2 ^ 64) (y : Nat) : ∃ y', step pq 0 y = .ok y' := by
  by_cases hone : pq = 1
  · subst hone
    exact ⟨0, rfl⟩
  · exact ⟨_, step_eq (by omega) hbound (by decide) y⟩

/-- Where a batch is empty, a round does not end. -/
theorem round_diverges (hpos : 0 < pq) (hbound : pq < 2 ^ 64) (y : Nat) :
    round fuel pq 0 0 (begin y) = .error .outOfFuel := by
  obtain ⟨y', hy'⟩ := exists_step hpos hbound y
  have htimes : times (advance pq 0) 1 { begin y with x := y } = .ok { begin y with x := y, y := y' } := by
    have hadvance : advance pq 0 { begin y with x := y } = .ok { begin y with x := y, y := y' } := by
      unfold advance
      change (step pq 0 y).bind _ = _
      rw [hy']
      rfl
    unfold times
    rw [hadvance]
    rfl
  have hloop : loop (fun s : Rho => s.k < s.r && s.g = 1) (batch pq 0 0) fuel { begin y with x := y, y := y', k := 0 } =
      .error .outOfFuel := by
    refine loop_diverges (I := fun s => s.k = 0 ∧ s.r = 1 ∧ s.g = 1 ∧ s.q = 1) (fun s hs => ?_) (fun s hs => ?_) fuel _
      ⟨rfl, rfl, rfl, rfl⟩
    · simp [hs.1, hs.2.1, hs.2.2.1]
    · have hgcd : gcd s.q pq = 1 := by rw [gcd_eq, hs.2.2.2, Nat.gcd_one_left]
      refine Or.inr ⟨{ s with ys := s.y, g := gcd s.q pq, k := s.k + 0 }, ?_, hs.1, hs.2.1, hgcd, hs.2.2.2⟩
      unfold batch
      rw [Nat.zero_min, hs.1]
      rfl
  unfold round
  change (times (advance pq 0) 1 { begin y with x := y }).bind _ = _
  rw [htimes]
  change (loop _ (batch pq 0 0) fuel { begin y with x := y, y := y', k := 0 }).bind _ = _
  rw [hloop]
  rfl

/-- No answer for the odd numbers below 13. -/
theorem factorize_tiny (fuel : Nat) {pq : UInt64} (hodd : pq.toNat % 2 = 1) (htiny : pq.toNat < 13) :
    factorize fuel pq = .error .outOfFuel := by
  have hbound := pq.toNat_lt
  have hbatch : mul 7 (pq.toNat / 13) = .ok 0 := by
    rw [Nat.div_eq_of_lt htiny]
    rfl
  have hconstant : mul 43 (pq.toNat / 103) = .ok 0 := by
    rw [Nat.div_eq_of_lt (by omega)]
    rfl
  have hwith : factorizeWith fuel pq.toNat 0 = .error .outOfFuel := by
    unfold factorizeWith
    rw [if_neg (by omega), mul_of_lt (by omega), hbatch]
    change (loop (fun s : Rho => s.g = 1) (round fuel pq.toNat 0 0) fuel (begin (3 * (pq.toNat / 7)))).bind _ = _
    cases hfuel : fuel with
    | zero => rfl
    | succ left =>
      rw [← hfuel, hfuel, loop, ← hfuel, if_pos (by rfl), round_diverges (by omega) hbound]
      rfl
  unfold factorize attempts tryAttempts
  rw [hconstant]
  change (factorizeWith fuel pq.toNat 0).bind _ = _
  rw [hwith]
  rfl

end Attempts

/-! More fuel gives no other answer. -/

theorem round_below {fuel fuel' : Nat} (hle : fuel ≤ fuel') (pq c m : Nat) (s : Rho) :
    Below (round fuel pq c m s) (round fuel' pq c m s) :=
  (Below.refl _).bind fun _ => (loop_below (fun _ => Below.refl _) fuel hle _).bind fun _ => Below.refl _

theorem fallback_below {fuel fuel' : Nat} (hle : fuel ≤ fuel') (pq c : Nat) (s : Rho) :
    Below (fallback fuel pq c s) (fallback fuel' pq c s) :=
  (Below.refl _).bind fun s => loop_below (fun _ => Below.refl _) fuel hle s

theorem factorizeWith_below {fuel fuel' : Nat} (hle : fuel ≤ fuel') (pq c : Nat) :
    Below (factorizeWith fuel pq c) (factorizeWith fuel' pq c) := by
  unfold factorizeWith
  split
  · exact Below.refl _
  · refine (Below.refl _).bind fun y => (Below.refl _).bind fun m => ?_
    refine (loop_below (round_below hle pq c m) fuel hle _).bind fun s => Below.bind ?_ fun _ => Below.refl _
    split
    · exact fallback_below hle pq c s
    · exact Below.refl _

theorem factorize_below {fuel fuel' : Nat} (hle : fuel ≤ fuel') (pq : UInt64) : Below (factorize fuel pq) (factorize fuel' pq) := by
  have hall : ∀ rest, Below (tryAttempts fuel pq.toNat rest) (tryAttempts fuel' pq.toNat rest) := by
    intro rest
    induction rest with
    | nil => exact Below.refl _
    | cons attempt rest ih =>
      unfold tryAttempts
      refine (Below.refl _).bind fun c => (factorizeWith_below hle pq.toNat c).bind fun ⟨p, q⟩ => ?_
      dsimp only
      split
      · exact Below.refl _
      · exact ih
  exact hall attempts

/-- What the factorisation is to do: its answers are factors in order, whatever the fuel nothing
overflows, and for an odd number from 13 on all its loops come to an end. -/
structure Correct (pq : UInt64) : Prop where
  answers : ∀ fuel p q, factorize fuel pq = .ok (some (p, q)) → p.toNat * q.toNat = pq.toNat ∧ 1 < p.toNat ∧ p ≤ q
  noOverflow : ∀ fuel stop, factorize fuel pq = .error stop → stop = .outOfFuel
  ends : pq.toNat % 2 = 1 → 13 ≤ pq.toNat → ∃ answer, ∀ fuel, 2 ^ 67 < fuel → factorize fuel pq = .ok answer

theorem correct_of_odd {pq : UInt64} (hodd : pq.toNat % 2 = 1) (hthirteen : 13 ≤ pq.toNat) : Correct pq := by
  have hmeets : ∀ fuel, Meets (2 ^ 67 < fuel) (factorize fuel pq) (Answers pq.toNat) := fun fuel =>
    tryAttempts_meets (fun h => h) hodd hthirteen pq.toNat_lt attempts fun _ h => h
  refine ⟨fun fuel p q h => (hmeets fuel).of_returned h p q rfl, fun fuel stop h => (hmeets fuel).stop h, fun _ _ => ?_⟩
  obtain ⟨answer, h, -⟩ := (hmeets (2 ^ 67 + 1)).returned (Nat.lt_succ_self _)
  exact ⟨answer, fun fuel hfuel => (factorize_below hfuel pq).eq_of_ok h⟩

/-- There is an answer for all other numbers than the odd ones below 13. -/
theorem factorize_converges {pq : UInt64} (h : pq.toNat % 2 = 1 → 13 ≤ pq.toNat) :
    ∃ answer, Converges (factorize · pq) answer := by
  rcases Nat.mod_two_eq_zero_or_one pq.toNat with heven | hodd
  · exact ⟨_, 0, fun fuel _ => factorize_even heven⟩
  · obtain ⟨answer, hends⟩ := (correct_of_odd hodd (h hodd)).ends hodd (h hodd)
    exact ⟨answer, 2 ^ 67, hends⟩

/-- An even number is halved; the half is to be no smaller than two. -/
theorem correct_even_iff {pq : UInt64} (heven : pq.toNat % 2 = 0) : Correct pq ↔ pq ≠ 0 ∧ pq ≠ 2 := by
  have hhalf : (UInt64.ofNat (pq.toNat / 2)).toNat = pq.toNat / 2 :=
    UInt64.toNat_ofNat_of_lt' (Nat.lt_of_le_of_lt (Nat.div_le_self _ 2) pq.toNat_lt)
  constructor
  · intro h
    obtain ⟨-, -, hle⟩ := h.answers 0 2 (UInt64.ofNat (pq.toNat / 2)) (factorize_even heven)
    have hle : 2 ≤ pq.toNat / 2 := by
      rw [← hhalf]
      exact UInt64.le_iff_toNat_le.mp hle
    constructor
    · rintro rfl
      exact absurd hle (by decide)
    · rintro rfl
      exact absurd hle (by decide)
  · rintro ⟨hzero, htwo⟩
    have hzero : pq.toNat ≠ 0 := fun h => hzero (UInt64.toNat_inj.mp h)
    have htwo : pq.toNat ≠ 2 := fun h => htwo (UInt64.toNat_inj.mp h)
    refine ⟨fun fuel p q h => ?_, fun fuel stop h => ?_, fun hodd => absurd hodd (by omega)⟩
    · rw [factorize_even heven] at h
      obtain ⟨rfl, rfl⟩ := Prod.mk.inj (Option.some.inj (Except.ok.inj h))
      rw [hhalf]
      refine ⟨?_, by decide, UInt64.le_iff_toNat_le.mpr ?_⟩
      · change 2 * (pq.toNat / 2) = pq.toNat
        omega
      · rw [hhalf]
        change 2 ≤ pq.toNat / 2
        omega
    · rw [factorize_even heven] at h
      cases h

/-- For a number that has no answer nothing is promised. -/
theorem correct_of_tiny {pq : UInt64} (hodd : pq.toNat % 2 = 1) (htiny : pq.toNat < 13) : Correct pq := by
  refine ⟨fun fuel p q h => ?_, fun fuel stop h => ?_, fun _ h => absurd h (Nat.not_le_of_lt htiny)⟩
  · rw [factorize_tiny fuel hodd htiny] at h
    cases h
  · rw [factorize_tiny fuel hodd htiny] at h
    exact (Except.error.inj h).symm

/-- **Factorisation.** It is correct for all numbers but zero and two. -/
theorem factorize_exact_iff (pq : UInt64) : Correct pq ↔ pq ≠ 0 ∧ pq ≠ 2 := by
  rcases Nat.mod_two_eq_zero_or_one pq.toNat with heven | hodd
  · exact correct_even_iff heven
  · have hne : pq ≠ 0 ∧ pq ≠ 2 := by
      constructor
      · rintro rfl
        exact absurd hodd (by decide)
      · rintro rfl
        exact absurd hodd (by decide)
    refine iff_of_true ?_ hne
    by_cases hthirteen : 13 ≤ pq.toNat
    · exact correct_of_odd hodd hthirteen
    · exact correct_of_tiny hodd (by omega)

/-- Two is its own only prime factor, and zero has none. -/
theorem two_not_correct : ¬ Correct 2 ∧ ¬ Correct 0 := by
  refine ⟨fun h => ?_, fun h => ?_⟩
  · have htwo : factorize 0 2 = .ok (some (2, 1)) := by decide
    exact absurd (h.answers 0 2 1 htwo).2.2 (by decide)
  · have hzero : factorize 0 0 = .ok (some (2, 0)) := by decide
    exact absurd (h.answers 0 2 0 hzero).2.2 (by decide)

end Ferogram.Factorize
