import Mathlib.Algebra.Order.Ring.Nat
import Mathlib.Data.List.Infix
import Mathlib.Data.List.TakeWhile

/- Texts with positions in bytes. A text is a list of characters; a position is
   good for a slice if it stands between two characters of the UTF-8 form
   (`cut`), and a slice anywhere else has no result. Searching gives good
   positions (`findStr_eq_some`, `rfindStr_eq_some`), an ASCII byte is found
   where its character stands (`bytes_takeWhile`), and lowering ASCII letters
   moves no position (`cut_toAsciiLowercase`). -/
namespace Str

/-- The length of the UTF-8 form. -/
def byteLen (s : List Char) : Nat := (s.map Char.utf8Size).sum

def bytes (s : List Char) : List UInt8 := s.flatMap String.utf8EncodeChar

/-- `b'c'`. -/
def asciiByte (c : Char) : UInt8 := UInt8.ofNat c.toNat

/-- The first position from `j` on with a byte, or the end. -/
def scanTo (b : UInt8) (bs : List UInt8) (j : Nat) : Nat := j + ((bs.drop j).takeWhile (· ≠ b)).length

/-- The text in front of a position and the text behind it. -/
def cut : List Char → Nat → Option (List Char × List Char)
  | s, 0 => some ([], s)
  | [], _ + 1 => none
  | c :: s, n + 1 =>
    if c.utf8Size ≤ n + 1 then (cut s (n + 1 - c.utf8Size)).map fun r => (c :: r.1, r.2) else none

/-- `&s[..n]`. -/
def sliceTo (s : List Char) (n : Nat) : Option (List Char) := (cut s n).map Prod.fst

/-- `&s[n..]`. -/
def sliceFrom (s : List Char) (n : Nat) : Option (List Char) := (cut s n).map Prod.snd

/-- `&s[m..n]`. -/
def slice (s : List Char) (m n : Nat) : Option (List Char) :=
  if m ≤ n then (sliceTo s n).bind fun a => sliceFrom a m else none

/-- Where the first character with `p` starts. -/
def find (p : Char → Bool) : List Char → Option Nat
  | [] => none
  | c :: s => if p c then some 0 else (find p s).map (c.utf8Size + ·)

/-- Where a text starts for the first time. -/
def findStr (pat : List Char) : List Char → Option Nat
  | [] => if pat.isPrefixOf [] then some 0 else none
  | c :: s => if pat.isPrefixOf (c :: s) then some 0 else (findStr pat s).map (c.utf8Size + ·)

/-- What stands in front of a text where it starts for the first time. -/
def beforeStr (pat : List Char) : List Char → List Char
  | [] => []
  | c :: s => if pat.isPrefixOf (c :: s) then [] else c :: beforeStr pat s

/-- Where a text starts for the last time. -/
def rfindStr (pat : List Char) : List Char → Option Nat
  | [] => if pat.isPrefixOf [] then some 0 else none
  | c :: s =>
    match rfindStr pat s with
    | some n => some (c.utf8Size + n)
    | none => if pat.isPrefixOf (c :: s) then some 0 else none

def toAsciiLowercase (s : List Char) : List Char := s.map Char.toLower

section
variable {s a b : List Char} {c : Char} {m n : Nat}

@[simp] theorem byteLen_nil : byteLen [] = 0 := rfl

@[simp] theorem byteLen_cons (c : Char) (s : List Char) : byteLen (c :: s) = c.utf8Size + byteLen s := by
  simp [byteLen]

@[simp] theorem byteLen_append (a b : List Char) : byteLen (a ++ b) = byteLen a + byteLen b := by
  simp [byteLen]

theorem length_le_byteLen (s : List Char) : s.length ≤ byteLen s := by
  induction s with
  | nil => simp
  | cons c s ih =>
    have := c.utf8Size_pos
    rw [List.length_cons, byteLen_cons]
    omega

theorem byteLen_eq_zero : byteLen s = 0 ↔ s = [] := by
  have := length_le_byteLen s
  constructor
  · intro h
    exact List.length_eq_zero_iff.mp (by omega)
  · rintro rfl
    rfl

/-! Slices. -/

theorem cut_zero (s : List Char) : cut s 0 = some ([], s) := by
  cases s <;> rfl

theorem cut_cons (c : Char) (s : List Char) (n : Nat) :
    cut (c :: s) (c.utf8Size + n) = (cut s n).map fun r => (c :: r.1, r.2) := by
  obtain ⟨k, hk⟩ : ∃ k, c.utf8Size + n = k + 1 := ⟨c.utf8Size + n - 1, by have := c.utf8Size_pos; omega⟩
  rw [hk, cut, if_pos (by omega), ← hk, Nat.add_sub_cancel_left]

@[simp] theorem cut_append (a b : List Char) : cut (a ++ b) (byteLen a) = some (a, b) := by
  induction a with
  | nil => exact cut_zero b
  | cons c a ih => rw [List.cons_append, byteLen_cons, cut_cons, ih, Option.map_some]

theorem eq_of_cut : ∀ {s a b : List Char} {n}, cut s n = some (a, b) → s = a ++ b ∧ byteLen a = n
  | s, _, _, 0, h => by
    rw [cut_zero] at h
    obtain ⟨rfl, rfl⟩ := Prod.mk.inj (Option.some.inj h)
    exact ⟨rfl, rfl⟩
  | [], _, _, n + 1, h => nomatch h
  | c :: s, _, _, n + 1, h => by
    unfold cut at h
    split at h
    · next hle =>
      obtain ⟨⟨a', b'⟩, hcut, heq⟩ := Option.map_eq_some_iff.mp h
      obtain ⟨rfl, rfl⟩ := Prod.mk.inj heq
      obtain ⟨rfl, hlen⟩ := eq_of_cut hcut
      refine ⟨rfl, ?_⟩
      rw [byteLen_cons, hlen]
      omega
    · cases h

/-- A position is good exactly if it is the length of a beginning. -/
theorem cut_eq_some_iff : cut s n = some (a, b) ↔ s = a ++ b ∧ byteLen a = n := by
  constructor
  · exact eq_of_cut
  · rintro ⟨rfl, rfl⟩
    exact cut_append a b

@[simp] theorem sliceTo_append (a b : List Char) : sliceTo (a ++ b) (byteLen a) = some a := by
  simp [sliceTo]

@[simp] theorem sliceFrom_append (a b : List Char) : sliceFrom (a ++ b) (byteLen a) = some b := by
  simp [sliceFrom]

/-- Behind a character of one byte. -/
theorem sliceFrom_append_cons (a b : List Char) (hc : c.utf8Size = 1) :
    sliceFrom (a ++ c :: b) (byteLen a + 1) = some b := by
  have h := sliceFrom_append (a ++ [c]) b
  rwa [List.append_assoc, byteLen_append, byteLen_cons, byteLen_nil, hc] at h

theorem sliceFrom_eq_some_iff : sliceFrom s n = some b ↔ ∃ a, s = a ++ b ∧ byteLen a = n := by
  simp only [sliceFrom, Option.map_eq_some_iff, Prod.exists, cut_eq_some_iff, exists_eq_right]

theorem sliceTo_eq_some_iff : sliceTo s n = some a ↔ ∃ b, s = a ++ b ∧ byteLen a = n := by
  simp only [sliceTo, Option.map_eq_some_iff, Prod.exists, cut_eq_some_iff, exists_and_right, exists_eq_right]

theorem sliceFrom_zero (s : List Char) : sliceFrom s 0 = some s := by
  rw [sliceFrom, cut_zero, Option.map_some]

theorem sliceFrom_byteLen (s : List Char) : sliceFrom s (byteLen s) = some [] := by
  have := sliceFrom_append s []
  rwa [List.append_nil] at this

/-- Past the end there is nothing, not even the empty text. -/
theorem sliceFrom_of_lt (h : byteLen s < n) : sliceFrom s n = none := by
  cases hs : sliceFrom s n with
  | none => rfl
  | some b =>
    obtain ⟨a, rfl, rfl⟩ := sliceFrom_eq_some_iff.mp hs
    rw [byteLen_append] at h
    omega

theorem slice_append (a m b : List Char) : slice (a ++ (m ++ b)) (byteLen a) (byteLen a + byteLen m) = some m := by
  have hto := sliceTo_append (a ++ m) b
  rw [byteLen_append, List.append_assoc] at hto
  rw [slice, if_pos (Nat.le_add_right _ _), hto, Option.bind_some, sliceFrom_append]

/-- A slice of one byte at the front. -/
theorem sliceFrom_one (c : Char) (s : List Char) : sliceFrom (c :: s) 1 = if c.utf8Size = 1 then some s else none := by
  have hpos := c.utf8Size_pos
  show ((if c.utf8Size ≤ 1 then _ else none : Option _).map Prod.snd) = _
  by_cases hc : c.utf8Size = 1
  · rw [if_pos (by omega), if_pos hc, hc, Nat.sub_self, cut_zero]
    rfl
  · rw [if_neg (by omega), if_neg hc]
    rfl

/-! Searching. -/

theorem find_eq (p : Char → Bool) (s : List Char) :
    find p s = if s.any p then some (byteLen (s.takeWhile (!p ·))) else none := by
  induction s with
  | nil => rfl
  | cons c s ih =>
    unfold find
    rw [ih]
    cases hc : p c <;> cases hs : s.any p <;> simp [hc, hs]

/-- `find(p).unwrap_or(len)`. -/
theorem find_getD (p : Char → Bool) (s : List Char) :
    (find p s).getD (byteLen s) = byteLen (s.takeWhile (!p ·)) := by
  rw [find_eq]
  split
  · rfl
  · next hnone =>
    have hall : ∀ c ∈ s, (!p c) = true := by
      intro c hc
      cases hp : p c
      · rfl
      · exact absurd (List.any_eq_true.mpr ⟨c, hc, hp⟩) hnone
    rw [Option.getD_none, List.takeWhile_eq_self_iff.mpr hall]

/-- A text that is somewhere is found first behind `beforeStr`. -/
theorem findStr_of_append (pat : List Char) (a b : List Char) :
    findStr pat (a ++ (pat ++ b)) = some (byteLen (beforeStr pat (a ++ (pat ++ b)))) := by
  induction a with
  | nil =>
    rw [List.nil_append]
    cases hs : pat ++ b with
    | nil =>
      obtain ⟨rfl, rfl⟩ := List.append_eq_nil_iff.mp hs
      rfl
    | cons c s =>
      have hpre : pat.isPrefixOf (c :: s) = true := List.isPrefixOf_iff_prefix.mpr ⟨b, hs⟩
      rw [findStr, beforeStr, if_pos hpre, if_pos hpre, byteLen_nil]
  | cons c a ih =>
    rw [List.cons_append, findStr, beforeStr]
    split
    · rfl
    · rw [ih, Option.map_some, byteLen_cons]

/-- Where a text is found it stands, and the position is good. -/
theorem findStr_eq_some {pat s : List Char} {n : Nat} (h : findStr pat s = some n) :
    ∃ b, s = beforeStr pat s ++ (pat ++ b) ∧ byteLen (beforeStr pat s) = n := by
  induction s generalizing n with
  | nil =>
    unfold findStr at h
    split at h
    · next hpre =>
      obtain rfl := Option.some.inj h
      obtain ⟨b, hb⟩ := List.isPrefixOf_iff_prefix.mp hpre
      exact ⟨b, hb.symm, rfl⟩
    · cases h
  | cons c s ih =>
    unfold findStr at h
    unfold beforeStr
    split at h
    · next hpre =>
      obtain rfl := Option.some.inj h
      obtain ⟨b, hb⟩ := List.isPrefixOf_iff_prefix.mp hpre
      rw [if_pos hpre]
      exact ⟨b, hb.symm, rfl⟩
    · next hpre =>
      obtain ⟨m, hm, rfl⟩ := Option.map_eq_some_iff.mp h
      obtain ⟨b, hb, rfl⟩ := ih hm
      rw [if_neg hpre, byteLen_cons]
      exact ⟨b, congrArg (c :: ·) hb, rfl⟩

theorem findStr_isSome_iff {pat s : List Char} : (findStr pat s).isSome ↔ pat <:+: s := by
  constructor
  · intro h
    obtain ⟨n, hn⟩ := Option.isSome_iff_exists.mp h
    obtain ⟨b, hb, -⟩ := findStr_eq_some hn
    exact ⟨_, b, by rw [List.append_assoc]; exact hb.symm⟩
  · rintro ⟨a, b, rfl⟩
    rw [List.append_assoc, findStr_of_append]
    rfl

theorem findStr_eq_none_iff {pat s : List Char} : findStr pat s = none ↔ ¬ pat <:+: s := by
  rw [← findStr_isSome_iff, Option.not_isSome_iff_eq_none]

theorem sliceTo_takeWhile (p : Char → Bool) (s : List Char) :
    sliceTo s (byteLen (s.takeWhile p)) = some (s.takeWhile p) := by
  have := sliceTo_append (s.takeWhile p) (s.dropWhile p)
  rwa [List.takeWhile_append_dropWhile] at this

theorem sliceFrom_takeWhile (p : Char → Bool) (s : List Char) :
    sliceFrom s (byteLen (s.takeWhile p)) = some (s.dropWhile p) := by
  have := sliceFrom_append (s.takeWhile p) (s.dropWhile p)
  rwa [List.takeWhile_append_dropWhile] at this

end

/-! Bytes. -/

theorem bytes_length (s : List Char) : (bytes s).length = byteLen s := by
  induction s with
  | nil => rfl
  | cons c s ih =>
    rw [byteLen_cons, ← ih]
    simp [bytes]

theorem bytes_append (a b : List Char) : bytes (a ++ b) = bytes a ++ bytes b := List.flatMap_append

/-- The bytes of a character that is not ASCII are not ASCII. -/
theorem utf8EncodeChar_of_mem {c : Char} {b : UInt8} (hmem : b ∈ String.utf8EncodeChar c) (hb : b.toNat < 128) :
    String.utf8EncodeChar c = [b] ∧ c.toNat = b.toNat := by
  have hbig : ∀ {n k m : Nat}, 128 ≤ n → k < m → n + m ≤ 256 → 128 ≤ (UInt8.ofNat (k + n)).toNat := by
    intro n k m hn hk hle
    rw [UInt8.toNat_ofNat', Nat.mod_eq_of_lt (by omega)]
    omega
  have hmod : ∀ k m : Nat, 0 < m → k % m < m := fun k m hm => Nat.mod_lt k hm
  unfold String.utf8EncodeChar at hmem ⊢
  simp only at hmem ⊢
  by_cases h1 : c.val.toNat ≤ 0x7f
  · rw [if_pos h1] at hmem ⊢
    obtain rfl := List.mem_singleton.mp hmem
    refine ⟨rfl, ?_⟩
    rw [UInt8.toNat_ofNat', Nat.mod_eq_of_lt (by omega)]
    rfl
  · exfalso
    rw [if_neg h1] at hmem
    have hall : 128 ≤ b.toNat := by
      split at hmem
      · rcases List.mem_cons.mp hmem with rfl | hmem
        · exact hbig (by omega) (hmod _ 0x20 (by omega)) (by omega)
        · rw [List.mem_singleton.mp hmem]
          exact hbig (by omega) (hmod _ 0x40 (by omega)) (by omega)
      · split at hmem
        · simp only [List.mem_cons, List.not_mem_nil, or_false] at hmem
          rcases hmem with rfl | rfl | rfl
          · exact hbig (by omega) (hmod _ 0x10 (by omega)) (by omega)
          · exact hbig (by omega) (hmod _ 0x40 (by omega)) (by omega)
          · exact hbig (by omega) (hmod _ 0x40 (by omega)) (by omega)
        · simp only [List.mem_cons, List.not_mem_nil, or_false] at hmem
          rcases hmem with rfl | rfl | rfl | rfl
          · exact hbig (by omega) (hmod _ 0x08 (by omega)) (by omega)
          · exact hbig (by omega) (hmod _ 0x40 (by omega)) (by omega)
          · exact hbig (by omega) (hmod _ 0x40 (by omega)) (by omega)
          · exact hbig (by omega) (hmod _ 0x40 (by omega)) (by omega)
    omega

/-- An ASCII character is one byte. -/
theorem utf8EncodeChar_ascii {c : Char} (hc : c.toNat < 128) : String.utf8EncodeChar c = [asciiByte c] := by
  unfold String.utf8EncodeChar
  have hle : c.val.toNat ≤ 0x7f := Nat.lt_succ_iff.mp hc
  simp only [hle, if_true]
  rfl

theorem utf8Size_ascii {c : Char} (hc : c.toNat < 128) : c.utf8Size = 1 := by
  rw [← String.length_utf8EncodeChar, utf8EncodeChar_ascii hc, List.length_singleton]

/-- A byte of an ASCII character is met in that character only. -/
theorem eq_of_asciiByte_mem {c d : Char} (hc : c.toNat < 128) (h : asciiByte c ∈ String.utf8EncodeChar d) : d = c := by
  have hnat : (asciiByte c).toNat = c.toNat := by
    rw [asciiByte, UInt8.toNat_ofNat', Nat.mod_eq_of_lt (by omega)]
  have hd := (utf8EncodeChar_of_mem h (by omega)).2
  rw [hnat] at hd
  exact Char.toNat_inj.mp hd

theorem bytes_cons (c : Char) (s : List Char) : bytes (c :: s) = String.utf8EncodeChar c ++ bytes s :=
  List.flatMap_cons

theorem bytes_takeWhile {c : Char} (hc : c.toNat < 128) (s : List Char) :
    (bytes s).takeWhile (· ≠ asciiByte c) = bytes (s.takeWhile (· ≠ c)) := by
  induction s with
  | nil => rfl
  | cons d s ih =>
    rw [bytes_cons]
    by_cases hd : d = c
    · rw [hd, utf8EncodeChar_ascii hc]
      simp [bytes]
    · have hall : ∀ b ∈ String.utf8EncodeChar d, decide (b ≠ asciiByte c) = true := by
        intro b hb
        apply decide_eq_true
        rintro rfl
        exact hd (eq_of_asciiByte_mem hc hb)
      have htake : (d :: s).takeWhile (· ≠ c) = d :: s.takeWhile (· ≠ c) := by simp [hd]
      rw [List.takeWhile_append_of_pos hall, ih, htake, bytes_cons]

/-- The scan for an ASCII byte stops between two characters. -/
theorem scanTo_bytes {c : Char} (hc : c.toNat < 128) (pre s : List Char) :
    scanTo (asciiByte c) (bytes (pre ++ s)) (byteLen pre) = byteLen pre + byteLen (s.takeWhile (· ≠ c)) := by
  have hdrop : (bytes (pre ++ s)).drop (byteLen pre) = bytes s := by
    rw [bytes_append, ← bytes_length, List.drop_left]
  rw [scanTo, hdrop, bytes_takeWhile hc, bytes_length]

/-- The byte at the start of a character. -/
theorem bytes_getElem? (pre : List Char) (d : Char) (s : List Char) :
    ∃ b, (bytes (pre ++ d :: s))[byteLen pre]? = some b ∧ ∀ c : Char, c.toNat < 128 → (b = asciiByte c ↔ d = c) := by
  obtain ⟨b, rest, hb⟩ := List.exists_cons_of_ne_nil (String.utf8EncodeChar_ne_nil (c := d))
  refine ⟨b, ?_, fun c hc => ⟨?_, ?_⟩⟩
  · rw [bytes_append, ← bytes_length, List.getElem?_append_right (Nat.le_refl _), Nat.sub_self, bytes_cons, hb]
    rfl
  · rintro rfl
    exact eq_of_asciiByte_mem hc (hb ▸ List.mem_cons_self)
  · rintro rfl
    rw [utf8EncodeChar_ascii hc] at hb
    exact (List.cons.inj hb).1.symm

/-! Lower case. -/

theorem toLower_utf8Size (c : Char) : c.toLower.utf8Size = c.utf8Size := by
  by_cases hup : 65 ≤ c.toNat ∧ c.toNat ≤ 90
  · have hc : c.toNat < 128 := by omega
    have hlower : c.toLower.toNat < 128 := by
      unfold Char.toLower
      split
      · show (c.val + ('a'.val - 'A'.val)).toNat < 128
        have : c.val.toNat = c.toNat := rfl
        rw [UInt32.toNat_add]
        show (c.val.toNat + 32) % 2 ^ 32 < 128
        omega
      · exact hc
    rw [utf8Size_ascii hc, utf8Size_ascii hlower]
  · have hsame : c.toLower = c := by
      unfold Char.toLower
      rw [dif_neg]
      rintro ⟨h1, h2⟩
      exact hup ⟨h1, h2⟩
    rw [hsame]

theorem toLower_eq_iff {c d : Char} (hd : d.toNat < 65) : c.toLower = d ↔ c = d := by
  unfold Char.toLower
  split
  · next hup =>
    have h1 : 65 ≤ c.toNat := hup.1
    have h2 : c.toNat ≤ 90 := hup.2
    constructor
    · intro h
      have hval : (c.val + 32).toNat = d.toNat := congrArg Char.toNat h
      rw [UInt32.toNat_add] at hval
      have hval : (c.toNat + 32) % 2 ^ 32 = d.toNat := hval
      omega
    · rintro rfl
      omega
  · exact Iff.rfl

/-- Lowering ASCII letters moves no position. -/
theorem cut_toAsciiLowercase : ∀ (s : List Char) (n : Nat),
    cut (toAsciiLowercase s) n = (cut s n).map fun r => (toAsciiLowercase r.1, toAsciiLowercase r.2)
  | s, 0 => by simp only [cut_zero, Option.map_some, toAsciiLowercase, List.map_nil]
  | [], n + 1 => rfl
  | c :: s, n + 1 => by
    have ih := cut_toAsciiLowercase s (n + 1 - c.utf8Size)
    unfold toAsciiLowercase at ih ⊢
    rw [List.map_cons, cut, cut, toLower_utf8Size, ih]
    split
    · cases cut s (n + 1 - c.utf8Size) <;> rfl
    · rfl

theorem sliceFrom_toAsciiLowercase (s : List Char) (n : Nat) :
    sliceFrom (toAsciiLowercase s) n = (sliceFrom s n).map toAsciiLowercase := by
  unfold sliceFrom
  rw [cut_toAsciiLowercase]
  cases cut s n <;> rfl

theorem byteLen_toAsciiLowercase (s : List Char) : byteLen (toAsciiLowercase s) = byteLen s := by
  induction s with
  | nil => rfl
  | cons c s ih =>
    show byteLen (c.toLower :: toAsciiLowercase s) = _
    rw [byteLen_cons, byteLen_cons, toLower_utf8Size, ih]

/-- In front of a text in lower case, and behind it. -/
def splitLower (pat s : List Char) : Option (List Char × List Char) :=
  let k := (beforeStr pat (toAsciiLowercase s)).length
  if pat <:+: toAsciiLowercase s then some (s.take k, s.drop (k + pat.length)) else none

theorem splitLower_eq_some {pat s a b : List Char} (h : splitLower pat s = some (a, b)) :
    ∃ p, s = a ++ (p ++ b) ∧ toAsciiLowercase p = pat ∧
      findStr pat (toAsciiLowercase s) = some (byteLen a) := by
  unfold splitLower at h
  simp only at h
  split at h
  · next hmem =>
    obtain ⟨rfl, rfl⟩ := Prod.mk.inj (Option.some.inj h)
    obtain ⟨n, hn⟩ := Option.isSome_iff_exists.mp (findStr_isSome_iff.mpr hmem)
    obtain ⟨b', hb, hlen⟩ := findStr_eq_some hn
    obtain ⟨a', r, rfl, ha', hr⟩ := List.map_eq_append_iff.mp hb
    obtain ⟨p, b, rfl, hp, -⟩ := List.map_eq_append_iff.mp hr
    have hka : (beforeStr pat (toAsciiLowercase (a' ++ (p ++ b)))).length = a'.length := by
      rw [← ha', List.length_map]
    have hkp : pat.length = p.length := by rw [← hp, List.length_map]
    refine ⟨p, ?_, hp, ?_⟩
    · rw [hka, hkp, List.take_left, ← List.append_assoc, ← List.length_append, List.drop_left, List.append_assoc]
    · rw [hn, ← hlen, hka, List.take_left, ← ha']
      exact congrArg some (byteLen_toAsciiLowercase a')
  · cases h

theorem findStr_lower (pat s : List Char) :
    findStr pat (toAsciiLowercase s) = (splitLower pat s).map fun r => byteLen r.1 := by
  cases h : splitLower pat s with
  | some r =>
    obtain ⟨-, -, -, hfind⟩ := splitLower_eq_some h
    exact hfind
  | none =>
    apply findStr_eq_none_iff.mpr
    unfold splitLower at h
    simp only at h
    split at h
    · cases h
    · next hmem => exact hmem

theorem rfindStr_eq_some {pat s : List Char} {n : Nat} (h : rfindStr pat s = some n) :
    ∃ a b, s = a ++ (pat ++ b) ∧ byteLen a = n := by
  induction s generalizing n with
  | nil =>
    unfold rfindStr at h
    split at h
    · next hpre =>
      obtain rfl := Option.some.inj h
      obtain ⟨b, hb⟩ := List.isPrefixOf_iff_prefix.mp hpre
      exact ⟨[], b, hb.symm, rfl⟩
    · cases h
  | cons c s ih =>
    unfold rfindStr at h
    split at h
    · next m hm =>
      obtain rfl := Option.some.inj h
      obtain ⟨a, b, rfl, rfl⟩ := ih hm
      exact ⟨c :: a, b, rfl, byteLen_cons c a⟩
    · split at h
      · next hpre =>
        obtain rfl := Option.some.inj h
        obtain ⟨b, hb⟩ := List.isPrefixOf_iff_prefix.mp hpre
        exact ⟨[], b, hb.symm, rfl⟩
      · cases h

/-! Boundaries. -/

/-- A position between two characters. -/
def Boundary (s : List Char) (n : Nat) : Prop := ∃ a b, s = a ++ b ∧ byteLen a = n

section
variable {s t pat : List Char} {m n : Nat}

theorem Boundary.zero (s : List Char) : Boundary s 0 := ⟨[], s, rfl, rfl⟩

theorem Boundary.byteLen (s : List Char) : Boundary s (byteLen s) := ⟨s, [], (List.append_nil s).symm, rfl⟩

theorem Boundary.sliceFrom (h : Boundary s n) : ∃ b, sliceFrom s n = some b := by
  obtain ⟨a, b, rfl, rfl⟩ := h
  exact ⟨b, sliceFrom_append a b⟩

theorem Boundary.sliceTo (h : Boundary s n) : ∃ a, sliceTo s n = some a := by
  obtain ⟨a, b, rfl, rfl⟩ := h
  exact ⟨a, sliceTo_append a b⟩

/-- Two boundaries in their order are good for a slice. -/
theorem Boundary.slice (hm : Boundary s m) (hn : Boundary s n) (h : m ≤ n) : ∃ t, slice s m n = some t := by
  obtain ⟨a, b, rfl, rfl⟩ := hm
  obtain ⟨a', b', heq, rfl⟩ := hn
  rcases List.append_eq_append_iff.mp heq with ⟨c, rfl, -⟩ | ⟨c, rfl, -⟩
  · refine ⟨c, ?_⟩
    rw [heq, List.append_assoc, byteLen_append, slice_append]
  · rw [byteLen_append] at h
    obtain rfl := byteLen_eq_zero.mp (show Str.byteLen c = 0 by omega)
    refine ⟨[], ?_⟩
    have := slice_append a' [] b
    simpa using this

/-- A position behind a slice. -/
theorem Boundary.add (h : Str.sliceFrom s m = some t) (hn : Boundary t n) : Boundary s (m + n) := by
  obtain ⟨a, rfl, rfl⟩ := sliceFrom_eq_some_iff.mp h
  obtain ⟨b, c, rfl, rfl⟩ := hn
  exact ⟨a ++ b, c, (List.append_assoc a b c).symm, byteLen_append a b⟩

theorem boundary_findStr (h : findStr pat s = some n) : Boundary s n ∧ Boundary s (n + byteLen pat) := by
  obtain ⟨b, hb, hn⟩ := findStr_eq_some h
  refine ⟨⟨_, _, hb, hn⟩, beforeStr pat s ++ pat, b, ?_, ?_⟩
  · rw [List.append_assoc]
    exact hb
  · rw [byteLen_append, hn]

theorem boundary_lower : Boundary (toAsciiLowercase s) n ↔ Boundary s n := by
  constructor
  · rintro ⟨a, b, heq, rfl⟩
    obtain ⟨a', b', rfl, rfl, rfl⟩ := List.map_eq_append_iff.mp heq
    exact ⟨a', b', rfl, (byteLen_toAsciiLowercase a').symm⟩
  · rintro ⟨a, b, rfl, rfl⟩
    exact ⟨toAsciiLowercase a, toAsciiLowercase b, List.map_append, byteLen_toAsciiLowercase a⟩

theorem boundary_rfindStr (h : rfindStr pat s = some n) : Boundary s n := by
  obtain ⟨a, b, heq, hn⟩ := rfindStr_eq_some h
  exact ⟨a, pat ++ b, heq, hn⟩

theorem boundary_find {p : Char → Bool} (h : find p s = some n) :
    Boundary s n ∧ ((∀ c, p c = true → c.utf8Size = 1) → Boundary s (n + 1)) := by
  rw [find_eq] at h
  split at h
  · next hany =>
    obtain rfl := Option.some.inj h
    have hsplit := List.takeWhile_append_dropWhile (p := (!p ·)) (l := s)
    refine ⟨⟨_, _, hsplit.symm, rfl⟩, fun hsize => ?_⟩
    cases hdrop : s.dropWhile (!p ·) with
    | nil =>
      obtain ⟨c, hc, hpc⟩ := List.any_eq_true.mp hany
      have := List.dropWhile_eq_nil_iff.mp hdrop c hc
      simp [hpc] at this
    | cons c rest =>
      have hpc : p c = true := by
        have := List.head?_dropWhile_not (!p ·) s
        rw [hdrop] at this
        simpa using this
      rw [hdrop] at hsplit
      refine ⟨s.takeWhile (!p ·) ++ [c], rest, ?_, ?_⟩
      · rw [List.append_assoc]
        exact hsplit.symm
      · rw [byteLen_append, byteLen_cons, byteLen_nil, hsize c hpc]
  · cases h

end

/-! First and last. -/

/-- A text is found where it stands or before. -/
theorem findStr_le (pat a b : List Char) : ∃ n, findStr pat (a ++ (pat ++ b)) = some n ∧ n ≤ byteLen a := by
  refine ⟨_, findStr_of_append pat a b, ?_⟩
  induction a with
  | nil =>
    rw [List.nil_append]
    cases hs : pat ++ b with
    | nil => exact Nat.le_refl 0
    | cons c s =>
      have hpre : pat.isPrefixOf (c :: s) = true := List.isPrefixOf_iff_prefix.mpr ⟨b, hs⟩
      rw [beforeStr, if_pos hpre]
  | cons c a ih =>
    rw [List.cons_append, beforeStr]
    split
    · exact Nat.zero_le _
    · rw [byteLen_cons, byteLen_cons]
      exact Nat.add_le_add_left ih _

/-- Its last place is there or behind. -/
theorem le_rfindStr (pat a b : List Char) : ∃ n, rfindStr pat (a ++ (pat ++ b)) = some n ∧ byteLen a ≤ n := by
  induction a with
  | nil =>
    rw [List.nil_append]
    cases hs : pat ++ b with
    | nil =>
      obtain ⟨rfl, -⟩ := List.append_eq_nil_iff.mp hs
      exact ⟨0, rfl, Nat.le_refl 0⟩
    | cons c s =>
      have hpre : pat.isPrefixOf (c :: s) = true := List.isPrefixOf_iff_prefix.mpr ⟨b, hs⟩
      rw [rfindStr]
      cases rfindStr pat s with
      | some n => exact ⟨_, rfl, Nat.zero_le _⟩
      | none => exact ⟨0, if_pos hpre, Nat.le_refl 0⟩
  | cons c a ih =>
    obtain ⟨n, hn, hle⟩ := ih
    rw [List.cons_append, rfindStr, hn]
    refine ⟨_, rfl, ?_⟩
    rw [byteLen_cons]
    exact Nat.add_le_add_left hle _

theorem slice_eq_some {s t : List Char} {m n : Nat} (h : slice s m n = some t) :
    ∃ a b, s = a ++ (t ++ b) ∧ byteLen a = m ∧ byteLen a + byteLen t = n := by
  unfold slice at h
  split at h
  · obtain ⟨u, hu, ht⟩ := Option.bind_eq_some_iff.mp h
    obtain ⟨b, rfl, hn⟩ := sliceTo_eq_some_iff.mp hu
    obtain ⟨a, rfl, hm⟩ := sliceFrom_eq_some_iff.mp ht
    refine ⟨a, b, List.append_assoc a t b, hm, ?_⟩
    rw [← hn, byteLen_append]
  · cases h

/-- Of two texts in front the one with more bytes goes on behind the other. -/
theorem append_of_byteLen_le {a b c d : List Char} (h : a ++ b = c ++ d) (hle : byteLen a ≤ byteLen c) :
    ∃ e, c = a ++ e ∧ b = e ++ d := by
  rcases List.append_eq_append_iff.mp h with ⟨e, rfl, rfl⟩ | ⟨e, rfl, rfl⟩
  · exact ⟨e, rfl, rfl⟩
  · rw [byteLen_append] at hle
    obtain rfl := byteLen_eq_zero.mp (show byteLen e = 0 by omega)
    exact ⟨[], by rw [List.append_nil, List.append_nil], rfl⟩

end Str
