import Mathlib.Data.Nat.Init

/- A stream cipher: byte `i` of the stream is combined with byte `i` of the keystream.
   A piece of the stream is enciphered from its position on, and the pieces may be cut
   anywhere (`mask_append`). Enciphering twice gives the text back, and a piece cut out of the
   enciphered stream is deciphered by the keystream from there on (`mask_slice`). -/
namespace Keystream

/-- The bytes from position `pos` of the stream on. -/
def mask (key : Nat → UInt8) : Nat → List UInt8 → List UInt8
  | _, [] => []
  | pos, b :: l => (b ^^^ key pos) :: mask key (pos + 1) l

variable (key : Nat → UInt8)

@[simp] theorem mask_length (pos : Nat) (l : List UInt8) : (mask key pos l).length = l.length := by
  induction l generalizing pos with
  | nil => rfl
  | cons b l ih => simp [mask, ih]

theorem mask_append (pos : Nat) (l₁ l₂ : List UInt8) :
    mask key pos (l₁ ++ l₂) = mask key pos l₁ ++ mask key (pos + l₁.length) l₂ := by
  induction l₁ generalizing pos with
  | nil => rfl
  | cons b l₁ ih =>
    have hpos : pos + (b :: l₁).length = pos + 1 + l₁.length := by
      rw [List.length_cons]
      omega
    rw [hpos]
    exact congrArg ((b ^^^ key pos) :: ·) (ih (pos + 1))

@[simp] theorem mask_mask (pos : Nat) (l : List UInt8) : mask key pos (mask key pos l) = l := by
  induction l generalizing pos with
  | nil => rfl
  | cons b l ih => simp only [mask, ih, UInt8.xor_assoc, UInt8.xor_self, UInt8.xor_zero]

theorem mask_drop (n pos : Nat) (l : List UInt8) : (mask key pos l).drop n = mask key (pos + n) (l.drop n) := by
  induction n generalizing pos l with
  | zero => rfl
  | succ n ih =>
    cases l with
    | nil => rfl
    | cons b l =>
      have hpos : pos + 1 + n = pos + (n + 1) := by omega
      rw [mask, List.drop_succ_cons, List.drop_succ_cons, ih, hpos]

theorem mask_take (n pos : Nat) (l : List UInt8) : (mask key pos l).take n = mask key pos (l.take n) := by
  induction n generalizing pos l with
  | zero => rfl
  | succ n ih =>
    cases l with
    | nil => rfl
    | cons b l => rw [mask, List.take_succ_cons, List.take_succ_cons, mask, ih]

/-- A keystream that starts later. -/
theorem mask_shift (d pos : Nat) (l : List UInt8) : mask (fun i => key (d + i)) pos l = mask key (d + pos) l := by
  induction l generalizing pos with
  | nil => rfl
  | cons b l ih =>
    rw [mask, mask, ih, Nat.add_assoc]

theorem mask_slice (d n : Nat) (l : List UInt8) :
    mask (fun i => key (d + i)) 0 (((mask key 0 l).drop d).take n) = (l.drop d).take n := by
  rw [mask_shift, mask_drop, mask_take, Nat.zero_add, Nat.add_zero, mask_mask]

/-- The beginning of an enciphered stream is deciphered to the beginning of the stream. -/
theorem mask_of_prefix {pos : Nat} {l start : List UInt8} (h : start <+: mask key pos l) :
    mask key pos start = l.take start.length := by
  rw [List.prefix_iff_eq_take] at h
  calc mask key pos start = mask key pos ((mask key pos l).take start.length) := congrArg (mask key pos) h
    _ = l.take start.length := by rw [mask_take, mask_mask]

end Keystream
