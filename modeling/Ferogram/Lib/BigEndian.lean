import Mathlib.Data.Nat.Log
import Ferogram.Lib.Bytes

/- Big-endian numbers: of a fixed width, of the least width, and bytes brought to a fixed
   width by zeros in front. Bringing any bytes to `n` bytes is writing the number they denote
   with `n` bytes (`padLeft_eq_be`). A block behind its length is read back with what
   follows it (`block_be`). -/
namespace Bytes

/-- The low `n` bytes of `w`, the most significant first. -/
def be (n w : Nat) : List UInt8 := (le n w).reverse

/-- The number that big-endian bytes denote. -/
def ofBe (l : List UInt8) : Nat := ofLe l.reverse

/-- As few bytes as it takes, one for zero: `to_bytes_be` of a big integer. -/
def toBytesBe (w : Nat) : List UInt8 := be (Nat.log 256 w + 1) w

/-- The last `n` bytes, behind zeros where there are fewer. -/
def padLeft (n : Nat) (data : List UInt8) : List UInt8 :=
  List.replicate (n - data.length) 0 ++ data.drop (data.length - n)

@[simp] theorem be_length (n w : Nat) : (be n w).length = n := by
  simp [be]

/-- The same with its length. -/
def beVec (n w : Nat) : List.Vector UInt8 n := ⟨be n w, be_length n w⟩

theorem beVec_val (n w : Nat) : (beVec n w).1 = be n w := rfl

theorem ofBe_be (n w : Nat) : ofBe (be n w) = w % 256 ^ n := by
  rw [ofBe, be, List.reverse_reverse, ofLe_le]

theorem ofBe_be_of_lt {n w : Nat} (h : w < 256 ^ n) : ofBe (be n w) = w := by
  rw [ofBe_be, Nat.mod_eq_of_lt h]

theorem ofBe_lt (l : List UInt8) : ofBe l < 256 ^ l.length := by
  have h := ofLe_lt l.reverse
  rwa [List.length_reverse] at h

/-- Equally many bytes that denote the same number are the same bytes. -/
theorem ofBe_inj {l₁ l₂ : List UInt8} (hlen : l₁.length = l₂.length) (h : ofBe l₁ = ofBe l₂) : l₁ = l₂ := by
  apply List.reverse_inj.mp
  apply ofLe_inj _ h
  rwa [List.length_reverse, List.length_reverse]

theorem be_ofBe {l : List UInt8} {n : Nat} (h : l.length = n) : be n (ofBe l) = l := by
  have hlt : ofBe l < 256 ^ n := h ▸ ofBe_lt l
  apply ofBe_inj
  · rw [be_length, h]
  · rw [ofBe_be_of_lt hlt]

@[simp] theorem ofBe_toBytesBe (w : Nat) : ofBe (toBytesBe w) = w :=
  ofBe_be_of_lt (Nat.lt_pow_succ_log_self (by decide) w)

theorem toBytesBe_length {w n : Nat} (hn : 0 < n) (h : w < 256 ^ n) : (toBytesBe w).length ≤ n := by
  rw [toBytesBe, be_length]
  by_cases hw : w = 0
  · rw [hw, Nat.log_zero_right]
    omega
  · exact Nat.log_lt_of_lt_pow hw h

/-! Padding. -/

theorem ofLe_append (a b : List UInt8) : ofLe (a ++ b) = ofLe a + 256 ^ a.length * ofLe b := by
  induction a with
  | nil => simp [ofLe]
  | cons x a ih =>
    simp only [List.cons_append, ofLe, ih, List.length_cons, Nat.pow_succ', Nat.mul_add, Nat.mul_assoc]
    omega

theorem ofLe_replicate_zero (n : Nat) : ofLe (List.replicate n 0) = 0 := by
  induction n with
  | zero => rfl
  | succ n ih => simp [List.replicate_succ, ofLe, ih]

/-- The low bytes of a number. -/
theorem ofLe_take (l : List UInt8) (n : Nat) : ofLe (l.take n) = ofLe l % 256 ^ n := by
  by_cases hn : n ≤ l.length
  · have hlen : (l.take n).length = n := by simp [hn]
    have hlt : ofLe (l.take n) < 256 ^ n := by
      have h := ofLe_lt (l.take n)
      rwa [hlen] at h
    calc ofLe (l.take n) = ofLe (l.take n) % 256 ^ n := (Nat.mod_eq_of_lt hlt).symm
      _ = (ofLe (l.take n) + 256 ^ n * ofLe (l.drop n)) % 256 ^ n := (Nat.add_mul_mod_self_left _ _ _).symm
      _ = ofLe (l.take n ++ l.drop n) % 256 ^ n := by rw [ofLe_append, hlen]
      _ = ofLe l % 256 ^ n := by rw [List.take_append_drop]
  · have hle : l.length ≤ n := by omega
    have hlt : ofLe l < 256 ^ n := Nat.lt_of_lt_of_le (ofLe_lt l) (Nat.pow_le_pow_right (by decide) hle)
    rw [List.take_of_length_le hle, Nat.mod_eq_of_lt hlt]

@[simp] theorem padLeft_length (n : Nat) (data : List UInt8) : (padLeft n data).length = n := by
  simp [padLeft]
  omega

theorem ofBe_padLeft (n : Nat) (data : List UInt8) : ofBe (padLeft n data) = ofBe data % 256 ^ n := by
  have hrev : (padLeft n data).reverse = data.reverse.take n ++ List.replicate (n - data.length) 0 := by
    rw [padLeft, List.reverse_append, List.reverse_replicate, List.take_reverse]
  rw [ofBe, hrev, ofLe_append, ofLe_replicate_zero, Nat.mul_zero, Nat.add_zero, ofLe_take]
  rfl

/-- Padding bytes is writing their number with that many bytes. -/
theorem padLeft_eq_be (n : Nat) (data : List UInt8) : padLeft n data = be n (ofBe data) := by
  apply ofBe_inj
  · rw [padLeft_length, be_length]
  · rw [ofBe_padLeft, ofBe_be]

/-- As few bytes as it takes, brought to `n` bytes. -/
theorem zeros_toBytesBe {w n : Nat} (hn : 0 < n) (h : w < 256 ^ n) :
    List.replicate (n - (toBytesBe w).length) 0 ++ toBytesBe w = be n w := by
  have hshort := toBytesBe_length hn h
  have hpad := padLeft_eq_be n (toBytesBe w)
  rw [ofBe_toBytesBe] at hpad
  rw [← hpad, padLeft, Nat.sub_eq_zero_of_le hshort, List.drop_zero]

/-! Blocks behind their length. -/

/-- The block behind a length of `k` bytes, and what follows it. -/
def block (k : Nat) (l : List UInt8) : Option (List UInt8 × List UInt8) :=
  let len := ofBe (l.take k)
  if l.length < k + len then none else some ((l.drop k).take len, l.drop (k + len))

/-- A length that is the number of the bytes behind it. -/
def wholeBlock (k : Nat) (l : List UInt8) : Option (List UInt8) :=
  match block k l with
  | some (b, []) => some b
  | _ => none

theorem block_be {k : Nat} {b : List UInt8} (h : b.length < 256 ^ k) (rest : List UInt8) :
    block k (be k b.length ++ (b ++ rest)) = some (b, rest) := by
  have hlen : (be k b.length).length = k := be_length _ _
  have hshort : ¬ (be k b.length ++ (b ++ rest)).length < k + b.length := by
    rw [List.length_append, List.length_append, hlen]
    omega
  unfold block
  rw [List.take_left' hlen, ofBe_be_of_lt h]
  dsimp only
  rw [if_neg hshort, ← List.drop_drop, List.drop_left' hlen, List.take_left' rfl, List.drop_left' rfl]

theorem wholeBlock_be {k : Nat} {b : List UInt8} (h : b.length < 256 ^ k) :
    wholeBlock k (be k b.length ++ b) = some b := by
  have hblock := block_be h []
  rw [List.append_nil] at hblock
  rw [wholeBlock, hblock]

end Bytes
