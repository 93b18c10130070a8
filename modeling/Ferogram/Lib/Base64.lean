import Mathlib.Data.List.Basic

/- Base64 with the URL-safe alphabet and without padding: three bytes are four
   characters of six bits, and one or two bytes at the end are two or three. The decoder
   is strict: a single character at the end, a character outside the alphabet and
   nonzero bits that belong to no byte are refused. -/
namespace Base64

/-- The character of a six-bit value. -/
def char (n : Nat) : Char :=
  if n < 26 then Char.ofNat (65 + n)
  else if n < 52 then Char.ofNat (71 + n)
  else if n < 62 then Char.ofNat (n - 4)
  else if n = 62 then '-'
  else '_'

def value (c : Char) : Option Nat :=
  if 65 ≤ c.toNat ∧ c.toNat ≤ 90 then some (c.toNat - 65)
  else if 97 ≤ c.toNat ∧ c.toNat ≤ 122 then some (c.toNat - 71)
  else if 48 ≤ c.toNat ∧ c.toNat ≤ 57 then some (c.toNat + 4)
  else if c = '-' then some 62
  else if c = '_' then some 63
  else none

/-- The six-bit values of bytes. -/
def sextets : List UInt8 → List Nat
  | [] => []
  | [a] => [a.toNat / 4, a.toNat % 4 * 16]
  | [a, b] => [a.toNat / 4, a.toNat % 4 * 16 + b.toNat / 16, b.toNat % 16 * 4]
  | a :: b :: c :: rest =>
    a.toNat / 4 :: (a.toNat % 4 * 16 + b.toNat / 16) :: (b.toNat % 16 * 4 + c.toNat / 64) ::
      c.toNat % 64 :: sextets rest

/-- The bytes of six-bit values. -/
def octets : List Nat → Option (List UInt8)
  | [] => some []
  | [_] => none
  | [w, x] => if x % 16 = 0 then some [UInt8.ofNat (w * 4 + x / 16)] else none
  | [w, x, y] =>
    if y % 4 = 0 then some [UInt8.ofNat (w * 4 + x / 16), UInt8.ofNat (x % 16 * 16 + y / 4)] else none
  | w :: x :: y :: z :: rest =>
    (octets rest).map fun bytes =>
      UInt8.ofNat (w * 4 + x / 16) :: UInt8.ofNat (x % 16 * 16 + y / 4) :: UInt8.ofNat (y % 4 * 64 + z) :: bytes

def encode (bytes : List UInt8) : String := String.ofList ((sextets bytes).map char)

def decode (s : String) : Option (List UInt8) := (s.toList.mapM value).bind octets

theorem value_char {n : Nat} (h : n < 64) : value (char n) = some n := by
  have hall : ∀ n : Fin 64, value (char n) = some n.1 := by decide
  exact hall ⟨n, h⟩

theorem sextets_lt : ∀ (bytes : List UInt8), ∀ n ∈ sextets bytes, n < 64
  | [], n, h => by simp [sextets] at h
  | [a], n, h => by
    have := a.toNat_lt
    simp only [sextets, List.mem_cons, List.not_mem_nil, or_false] at h
    omega
  | [a, b], n, h => by
    have := a.toNat_lt
    have := b.toNat_lt
    simp only [sextets, List.mem_cons, List.not_mem_nil, or_false] at h
    omega
  | a :: b :: c :: rest, n, h => by
    have := a.toNat_lt
    have := b.toNat_lt
    have := c.toNat_lt
    simp only [sextets, List.mem_cons] at h
    rcases h with h | h | h | h | h
    · omega
    · omega
    · omega
    · omega
    · exact sextets_lt rest n h

theorem ofNat_of_eq {n : Nat} {a : UInt8} (h : n = a.toNat) : UInt8.ofNat n = a := by
  rw [h, UInt8.ofNat_toNat]

theorem octets_sextets : ∀ bytes : List UInt8, octets (sextets bytes) = some bytes
  | [] => rfl
  | [a] => by
    have ha := a.toNat_lt
    rw [sextets, octets, if_pos (by omega), ofNat_of_eq (a := a) (by omega)]
  | [a, b] => by
    have ha := a.toNat_lt
    have hb := b.toNat_lt
    rw [sextets, octets, if_pos (by omega), ofNat_of_eq (a := a) (by omega),
      ofNat_of_eq (a := b) (by omega)]
  | a :: b :: c :: rest => by
    have ha := a.toNat_lt
    have hb := b.toNat_lt
    have hc := c.toNat_lt
    rw [sextets, octets, octets_sextets rest, Option.map_some, ofNat_of_eq (a := a) (by omega),
      ofNat_of_eq (a := b) (by omega), ofNat_of_eq (a := c) (by omega)]

theorem mapM_value_char : ∀ ns : List Nat, (∀ n ∈ ns, n < 64) → (ns.map char).mapM value = some ns
  | [], _ => rfl
  | n :: ns, h => by
    have ih := mapM_value_char ns fun m hm => h m (List.mem_cons_of_mem n hm)
    rw [List.map_cons, List.mapM_cons, value_char (h n List.mem_cons_self), ih]
    rfl

/-- What is encoded is decoded again. -/
theorem decode_encode (bytes : List UInt8) : decode (encode bytes) = some bytes := by
  rw [decode, encode, String.toList_ofList, mapM_value_char _ (sextets_lt bytes)]
  exact octets_sextets bytes

/-- Only characters of the alphabet are written. -/
theorem value_of_mem_encode {bytes : List UInt8} {c : Char} (h : c ∈ (encode bytes).toList) :
    (value c).isSome = true := by
  rw [encode, String.toList_ofList] at h
  obtain ⟨n, hn, rfl⟩ := List.mem_map.mp h
  rw [value_char (sextets_lt bytes n hn)]
  rfl

end Base64
