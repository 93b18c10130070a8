import Mathlib.Logic.Function.Iterate
import Mathlib.Data.Finset.Card
import Mathlib.Data.Finset.Range

/- The orbit of a point under a map that keeps the numbers below a bound: it comes back. From
   the bound on it is periodic (`exists_period`), and so, from there, in any stretch of its
   length a point of the orbit is met again (`exists_return`). -/
namespace Orbit
variable {f : Nat → Nat} {bound y : Nat}

theorem iterate_lt (hf : ∀ z < bound, f z < bound) (hy : y < bound) (n : Nat) : f^[n] y < bound := by
  induction n with
  | zero => exact hy
  | succ n ih =>
    rw [Function.iterate_succ_apply']
    exact hf _ ih

theorem exists_period (hf : ∀ z < bound, f z < bound) (hy : y < bound) :
    ∃ period, 0 < period ∧ period ≤ bound ∧ ∀ n, bound ≤ n → f^[n + period] y = f^[n] y := by
  -- two of the first points are the same
  have hmaps : ∀ n ∈ Finset.range (bound + 1), f^[n] y ∈ Finset.range bound :=
    fun n _ => Finset.mem_range.mpr (iterate_lt hf hy n)
  have hcard : (Finset.range bound).card < (Finset.range (bound + 1)).card := by
    rw [Finset.card_range, Finset.card_range]
    exact Nat.lt_succ_self bound
  obtain ⟨i, hi, j, hj, hne, hsame⟩ := Finset.exists_ne_map_eq_of_card_lt_of_maps_to hcard hmaps
  rw [Finset.mem_range] at hi hj
  wlog hlt : i < j generalizing i j with hwlog
  · exact hwlog j hj i hi hne.symm hsame.symm (by omega)
  refine ⟨j - i, by omega, by omega, fun n hn => ?_⟩
  have hleft : n + (j - i) = (n - i) + j := by omega
  have hright : n = (n - i) + i := by omega
  calc f^[n + (j - i)] y = f^[n - i] (f^[j] y) := by rw [hleft, Function.iterate_add_apply]
    _ = f^[n - i] (f^[i] y) := by rw [hsame]
    _ = f^[n] y := by rw [← Function.iterate_add_apply, ← hright]

theorem exists_return (hf : ∀ z < bound, f z < bound) (hy : y < bound) {n length : Nat} (hn : bound ≤ n)
    (hlength : bound ≤ length) : ∃ i, 0 < i ∧ i ≤ length ∧ f^[n + length + i] y = f^[n] y := by
  obtain ⟨period, hpos, hle, hperiod⟩ := exists_period hf hy
  have hmany : ∀ k, f^[n + period * k] y = f^[n] y := by
    intro k
    induction k with
    | zero => rfl
    | succ k ih =>
      have hsplit : n + period * (k + 1) = n + period * k + period := by
        rw [Nat.mul_succ, Nat.add_assoc]
      rw [hsplit, hperiod _ (by omega), ih]
  -- the first multiple of the period behind the length
  have hdiv := Nat.div_add_mod length period
  have hmod := Nat.mod_lt length hpos
  have hsucc : period * (length / period + 1) = period * (length / period) + period := Nat.mul_succ ..
  refine ⟨period * (length / period + 1) - length, by omega, by omega, ?_⟩
  have hsum : n + length + (period * (length / period + 1) - length) = n + period * (length / period + 1) := by omega
  rw [hsum, hmany]

end Orbit
