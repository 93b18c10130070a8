import Mathlib.Data.Int.Order.Basic
import Mathlib.Data.List.Basic

/- Integers in decimal: printing one, and reading one of a bounded type. A
   sign may stand in front, at least one digit must follow, nothing but digits
   may, and a value outside the bounds is refused. -/
namespace Decimal

def format (n : Int) : List Char :=
  if n < 0 then '-' :: Nat.toDigits 10 n.natAbs else Nat.toDigits 10 n.natAbs

def parseDigits (digits : List Char) : Option Nat :=
  if digits ≠ [] ∧ digits.all Char.isDigit then some (Nat.ofDigitChars 10 digits 0) else none

/-- A value of the type whose values run from `lo` to `hi`. -/
def parse (lo hi : Int) (s : List Char) : Option Int :=
  let value : Option Int :=
    match s with
    | '-' :: digits => (parseDigits digits).map fun n : Nat => -(n : Int)
    | '+' :: digits => (parseDigits digits).map fun n : Nat => (n : Int)
    | digits => (parseDigits digits).map fun n : Nat => (n : Int)
  value.filter fun n => lo ≤ n ∧ n ≤ hi

theorem parseDigits_toDigits (n : Nat) : parseDigits (Nat.toDigits 10 n) = some n := by
  have hall : (Nat.toDigits 10 n).all Char.isDigit = true :=
    List.all_eq_true.mpr fun c hc => Nat.isDigit_of_mem_toDigits (by decide) (by decide) hc
  unfold parseDigits
  rw [if_pos ⟨Nat.toDigits_ne_nil, hall⟩, Nat.ofDigitChars_ten_toDigits]

/-- What is printed are digits, and a minus sign perhaps. -/
theorem mem_format {n : Int} {c : Char} (h : c ∈ format n) : c.isDigit = true ∨ c = '-' := by
  unfold format at h
  split at h
  · rcases List.mem_cons.mp h with rfl | h
    · exact Or.inr rfl
    · exact Or.inl (Nat.isDigit_of_mem_toDigits (by decide) (by decide) h)
  · exact Or.inl (Nat.isDigit_of_mem_toDigits (by decide) (by decide) h)

theorem parse_format {lo hi n : Int} (hlo : lo ≤ n) (hhi : n ≤ hi) : parse lo hi (format n) = some n := by
  have hkeep : (some n).filter (fun n => decide (lo ≤ n ∧ n ≤ hi)) = some n := by
    simp [hlo, hhi]
  unfold parse format
  by_cases hn : n < 0
  · have habs : -(n.natAbs : Int) = n := by omega
    have hvalue : (parseDigits (Nat.toDigits 10 n.natAbs)).map (fun k : Nat => -(k : Int)) = some n := by
      rw [parseDigits_toDigits, Option.map_some, habs]
    rw [if_pos hn]
    exact (congrArg _ hvalue).trans hkeep
  · have habs : (n.natAbs : Int) = n := by omega
    -- the first character is a digit, so neither sign is read
    obtain ⟨d, ds, hd⟩ := List.exists_cons_of_ne_nil (Nat.toDigits_ne_nil (n := n.natAbs) (b := 10))
    have hdigit : d.isDigit = true :=
      Nat.isDigit_of_mem_toDigits (by decide) (by decide) (hd ▸ List.mem_cons_self)
    have hminus : d ≠ '-' := by rintro rfl; exact absurd hdigit (by decide)
    have hplus : d ≠ '+' := by rintro rfl; exact absurd hdigit (by decide)
    have hparse := parseDigits_toDigits n.natAbs
    rw [hd] at hparse
    simp only [if_neg hn, hd]
    split
    · next h => exact absurd (List.cons.inj h).1 hminus
    · next h => exact absurd (List.cons.inj h).1 hplus
    · rw [hparse, Option.map_some, habs]
      exact hkeep

end Decimal
