import Mathlib.Data.Nat.Digits.Defs

/- Unsigned numbers below a bound, read in a radix up to 16 digit by digit. What `Nat.toDigits`
   writes is read as the number again (`fromStrRadix_toDigits`). -/
namespace Radix

inductive IntErrorKind where
  | empty
  | invalidDigit
  | posOverflow
  deriving DecidableEq, Repr

def hexDigit (c : Char) : Option Nat :=
  if '0' ≤ c ∧ c ≤ '9' then some (c.toNat - '0'.toNat)
  else if 'a' ≤ c ∧ c ≤ 'f' then some (c.toNat - 'a'.toNat + 10)
  else if 'A' ≤ c ∧ c ≤ 'F' then some (c.toNat - 'A'.toNat + 10)
  else none

/-- `char::to_digit`. -/
def toDigit (radix : Nat) (c : Char) : Option Nat := (hexDigit c).filter (· < radix)

/-- The loop over the digits. -/
def readDigits (bound radix : Nat) : Nat → List Char → Except IntErrorKind Nat
  | acc, [] => .ok acc
  | acc, c :: cs =>
    match toDigit radix c with
    | none => .error .invalidDigit
    | some x => if acc * radix + x < bound then readDigits bound radix (acc * radix + x) cs else .error .posOverflow

/-- `from_str_radix` of an unsigned type. A plus sign may stand in front of digits. -/
def fromStrRadix (bound radix : Nat) : List Char → Except IntErrorKind Nat
  | [] => .error .empty
  | ['+'] => .error .invalidDigit
  | '+' :: digits => readDigits bound radix 0 digits
  | digits => readDigits bound radix 0 digits

variable {bound radix : Nat}

theorem toDigit_digitChar (hradix : radix ≤ 16) {d : Nat} (hd : d < radix) : toDigit radix d.digitChar = some d := by
  have hhex : ∀ d < 16, hexDigit d.digitChar = some d := by decide
  rw [toDigit, hhex d (by omega), Option.filter_some, if_pos (by simpa using hd)]

theorem readDigits_append (cs ds : List Char) : ∀ {acc n : Nat}, readDigits bound radix acc cs = .ok n →
    readDigits bound radix acc (cs ++ ds) = readDigits bound radix n ds := by
  induction cs with
  | nil =>
    intro acc n h
    cases h
    rfl
  | cons c cs ih =>
    intro acc n h
    rw [List.cons_append, readDigits]
    rw [readDigits] at h
    split at h
    · cases h
    · split at h
      · next hlt =>
        simp only [if_pos hlt]
        exact ih h
      · cases h

/-- What is read has digits only. -/
theorem hexDigit_of_readDigits (cs : List Char) : ∀ {acc n : Nat}, readDigits bound radix acc cs = .ok n →
    ∀ c ∈ cs, hexDigit c ≠ none := by
  induction cs with
  | nil => exact fun _ c hc => absurd hc List.not_mem_nil
  | cons d cs ih =>
    intro acc n h
    rw [readDigits] at h
    split at h
    · cases h
    · next x hx =>
      split at h
      · intro c hc
        rcases List.mem_cons.mp hc with rfl | hc
        · intro hnone
          rw [toDigit, hnone] at hx
          cases hx
        · exact ih h c hc
      · cases h

theorem readDigits_toDigits (hradix : 1 < radix) (hsmall : radix ≤ 16) (n : Nat) (hn : n < bound) :
    readDigits bound radix 0 (Nat.toDigits radix n) = .ok n := by
  induction n using Nat.strong_induction_on with
  | _ n ih =>
    by_cases h : n < radix
    · rw [Nat.toDigits_of_lt_base h, readDigits, toDigit_digitChar hsmall h]
      simp [hn, readDigits]
    · have hless : n / radix < n := Nat.div_lt_self (by omega) hradix
      have hmod : n % radix < radix := Nat.mod_lt n (by omega)
      have hsum : n / radix * radix + n % radix = n := Nat.div_add_mod' n radix
      rw [Nat.toDigits_of_base_le hradix (by omega), readDigits_append _ _ (ih _ hless (by omega)), readDigits,
        toDigit_digitChar hsmall hmod]
      simp [hsum, hn, readDigits]

theorem readDigits_lt (cs : List Char) : ∀ {acc n : Nat}, acc < bound → readDigits bound radix acc cs = .ok n →
    n < bound := by
  induction cs with
  | nil =>
    intro acc n hacc h
    cases h
    exact hacc
  | cons d cs ih =>
    intro acc n _ h
    rw [readDigits] at h
    split at h
    · cases h
    · split at h
      · next hlt => exact ih hlt h
      · cases h

theorem fromStrRadix_lt {s : List Char} {n : Nat} (hbound : 0 < bound) (h : fromStrRadix bound radix s = .ok n) :
    n < bound := by
  unfold fromStrRadix at h
  split at h
  · cases h
  · cases h
  · exact readDigits_lt _ hbound h
  · exact readDigits_lt _ hbound h

theorem hexDigit_of_mem_toDigits (hradix : 1 < radix) (hsmall : radix ≤ 16) {n : Nat} {c : Char}
    (hc : c ∈ Nat.toDigits radix n) : hexDigit c ≠ none :=
  hexDigit_of_readDigits _ (readDigits_toDigits hradix hsmall n (Nat.lt_succ_self n)) c hc

theorem fromStrRadix_toDigits (hradix : 1 < radix) (hsmall : radix ≤ 16) {n : Nat} (hn : n < bound) :
    fromStrRadix bound radix (Nat.toDigits radix n) = .ok n := by
  have hread := readDigits_toDigits hradix hsmall n hn
  -- a digit stands in front
  obtain ⟨d, ds, hd⟩ := List.exists_cons_of_ne_nil (Nat.toDigits_ne_nil (n := n) (b := radix))
  have hplus : d ≠ '+' := by
    rintro rfl
    rw [hd, readDigits] at hread
    have hnone : toDigit radix '+' = none := by
      rw [toDigit, show hexDigit '+' = none by decide]
      rfl
    simp [hnone] at hread
  rw [hd] at hread ⊢
  unfold fromStrRadix
  split
  · next h => cases h
  · next h => exact absurd (List.cons.inj h).1 hplus
  · next h => exact absurd (List.cons.inj h).1 hplus
  · exact hread

end Radix
