import Mathlib.Data.List.Basic

/- Strings as UTF-8 bytes, and decoding that replaces what is not UTF-8, as
   `String::from_utf8_lossy` does: each maximal piece that could have begun a
   character becomes one U+FFFD.

   Decoding the bytes of a string gives the string (`decodeLossy_encode`). Of a
   string cut short, what decodes has at most as many characters as the string
   and is the string itself only when hardly anything is missing
   (`decodeLossy_take`). -/
namespace Utf8

/-- The bytes of a string. -/
def encode (s : String) : List UInt8 := s.toList.flatMap String.utf8EncodeChar

/-- Whether `b` may follow the leading byte `lead` of three or four bytes: no overlong
forms, no surrogates, nothing above U+10FFFF. -/
def mayFollow (lead b : UInt8) : Bool :=
  if lead = 0xE0 then 0xA0 ≤ b && b ≤ 0xBF
  else if lead = 0xED then 0x80 ≤ b && b ≤ 0x9F
  else if lead = 0xF0 then 0x90 ≤ b && b ≤ 0xBF
  else if lead = 0xF4 then 0x80 ≤ b && b ≤ 0x8F
  else if 0xE1 ≤ lead && lead ≤ 0xF3 then 0x80 ≤ b && b ≤ 0xBF
  else false

/-- A continuation byte. -/
def continues (b : UInt8) : Bool := 0x80 ≤ b && b ≤ 0xBF

/-- How many bytes one replacement character stands for, at bytes that do not begin
with a character. -/
def malformedLength : List UInt8 → Nat
  | lead :: b₁ :: b₂ :: _ =>
    if mayFollow lead b₁ then
      if 0xF0 ≤ lead && continues b₂ then 3 else 2
    else 1
  | [lead, b₁] => if mayFollow lead b₁ then 2 else 1
  | _ => 1

/-- The character at the front of the bytes, if there is one. -/
def frontChar (l : List UInt8) : Option Char := l.toByteArray.utf8DecodeChar? 0

/-- The characters of `l`; `fuel` bounds their number. -/
def decodeChars : Nat → List UInt8 → List Char
  | 0, _ => []
  | _, [] => []
  | fuel + 1, b :: l =>
    match frontChar (b :: l) with
    | some c => c :: decodeChars fuel ((b :: l).drop c.utf8Size)
    | none => '\uFFFD' :: decodeChars fuel ((b :: l).drop (malformedLength (b :: l)))

/-- `String::from_utf8_lossy`. -/
def decodeLossy (l : List UInt8) : String := String.ofList (decodeChars l.length l)

theorem frontChar_encode (c : Char) (l : List UInt8) :
    frontChar (String.utf8EncodeChar c ++ l) = some c := by
  unfold frontChar
  rw [List.toByteArray_append]
  exact ByteArray.utf8DecodeChar?_utf8EncodeChar_append

theorem decodeChars_cons (fuel : Nat) (c : Char) (l : List UInt8) :
    decodeChars (fuel + 1) (String.utf8EncodeChar c ++ l) = c :: decodeChars fuel l := by
  have hfront := frontChar_encode c l
  have hdrop : (String.utf8EncodeChar c ++ l).drop c.utf8Size = l := by
    rw [← String.length_utf8EncodeChar, List.drop_left]
  obtain ⟨b, rest, hb⟩ := List.exists_cons_of_ne_nil (l := String.utf8EncodeChar c ++ l)
    (by simp [String.utf8EncodeChar_ne_nil])
  rw [hb] at hfront hdrop ⊢
  rw [decodeChars, hfront]
  simp only [hdrop]

theorem decodeChars_flatMap (cs : List Char) : ∀ fuel, cs.length ≤ fuel →
    decodeChars fuel (cs.flatMap String.utf8EncodeChar) = cs := by
  induction cs with
  | nil =>
    intro fuel _
    cases fuel <;> rfl
  | cons c cs ih =>
    intro fuel hfuel
    obtain ⟨fuel, rfl⟩ : ∃ n, fuel = n + 1 := ⟨fuel - 1, by simp at hfuel; omega⟩
    rw [List.flatMap_cons, decodeChars_cons, ih fuel (by simpa using hfuel)]

/-- A string has at least as many bytes as characters. -/
theorem length_le_flatMap (cs : List Char) :
    cs.length ≤ (cs.flatMap String.utf8EncodeChar).length := by
  induction cs with
  | nil => simp
  | cons c cs ih =>
    have := c.utf8Size_pos
    rw [List.flatMap_cons, List.length_append, List.length_cons, String.length_utf8EncodeChar]
    omega

/-- Decoding the bytes of a string gives the string back. -/
@[simp] theorem decodeLossy_encode (s : String) : decodeLossy (encode s) = s := by
  unfold decodeLossy encode
  rw [decodeChars_flatMap _ _ (length_le_flatMap _), String.ofList_toList]

/-- `String::from_utf8`: the bytes of a string, or nothing. -/
def decode? (l : List UInt8) : Option String :=
  l.toByteArray.utf8Decode?.map (fun cs => String.ofList cs.toList)

theorem decode?_encode (s : String) : decode? (encode s) = some s := by
  have hbytes : (encode s).toByteArray = s.toList.utf8Encode := rfl
  unfold decode?
  rw [hbytes, List.utf8Decode?_utf8Encode, Option.map_some, String.ofList_toList]

/-- Every character takes at least one byte. -/
theorem decodeChars_length (fuel : Nat) : ∀ l : List UInt8, (decodeChars fuel l).length ≤ l.length := by
  have hpos : ∀ l, 0 < malformedLength l := by
    intro l
    unfold malformedLength
    split
    · split
      · split <;> decide
      · decide
    · split <;> decide
    · decide
  induction fuel with
  | zero => intro l; simp [decodeChars]
  | succ fuel ih =>
    intro l
    cases l with
    | nil => simp [decodeChars]
    | cons b l =>
      rw [decodeChars]
      split
      · next c _ =>
        have := ih ((b :: l).drop c.utf8Size)
        have := c.utf8Size_pos
        simp only [List.length_cons, List.length_drop] at *
        omega
      · have := ih ((b :: l).drop (malformedLength (b :: l)))
        have := hpos (b :: l)
        simp only [List.length_cons, List.length_drop] at *
        omega

theorem flatMap_length_le (cs : List Char) :
    (cs.flatMap String.utf8EncodeChar).length ≤ 4 * cs.length := by
  induction cs with
  | nil => simp
  | cons c cs ih =>
    have := c.utf8Size_le_four
    rw [List.flatMap_cons, List.length_append, List.length_cons, String.length_utf8EncodeChar]
    omega

/-- If the first `k` bytes of a string decode to as many characters as it has, at most
twelve bytes are missing. -/
theorem decodeChars_take (cs : List Char) : ∀ fuel k : Nat,
    (decodeChars fuel ((cs.flatMap String.utf8EncodeChar).take k)).length = cs.length →
      (cs.flatMap String.utf8EncodeChar).length ≤ k + 12 := by
  induction cs with
  | nil => intro fuel k _; simp
  | cons c cs ih =>
    intro fuel k h
    rw [List.flatMap_cons] at h ⊢
    have hc := c.utf8Size_le_four
    by_cases hk : c.utf8Size ≤ k
    · -- the first character is there whole
      have htake : (String.utf8EncodeChar c ++ cs.flatMap String.utf8EncodeChar).take k =
          String.utf8EncodeChar c ++ (cs.flatMap String.utf8EncodeChar).take (k - c.utf8Size) := by
        rw [List.take_append, String.length_utf8EncodeChar,
          List.take_of_length_le (by rw [String.length_utf8EncodeChar]; exact hk)]
      cases fuel with
      | zero => simp [decodeChars] at h
      | succ fuel =>
        rw [htake, decodeChars_cons] at h
        have := ih fuel (k - c.utf8Size) (by simpa using h)
        rw [List.length_append, String.length_utf8EncodeChar]
        omega
    · -- nothing but a piece of the first character is left
      have hle := decodeChars_length fuel
        ((String.utf8EncodeChar c ++ cs.flatMap String.utf8EncodeChar).take k)
      rw [h, List.length_take, List.length_cons] at hle
      have := flatMap_length_le cs
      rw [List.length_append, String.length_utf8EncodeChar]
      omega

/-- A string cut short by more than twelve bytes does not decode to itself. -/
theorem decodeLossy_take {s : String} {k : Nat} (h : decodeLossy ((encode s).take k) = s) :
    (encode s).length ≤ k + 12 := by
  unfold decodeLossy at h
  apply decodeChars_take s.toList _ k
  have hlist := congrArg String.toList h
  rw [String.toList_ofList] at hlist
  exact congrArg List.length hlist

end Utf8
