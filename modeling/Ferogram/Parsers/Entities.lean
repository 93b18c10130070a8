import Mathlib.Algebra.Group.Int.Defs
import Mathlib.Algebra.Order.Ring.Nat
import Mathlib.Data.List.Basic
import Mathlib.Data.Int.Order.Basic
import Ferogram.Lib.Decimal

/- The message entities the formatting parsers and generators exchange, and
   the string functions they call. Texts are lists of characters; offsets and
   lengths are the schema's `i32` counts of UTF-16 units, so the counters that
   produce them wrap where the source's would overflow. -/
namespace Ferogram.Parsers

/-- `char::len_utf16`. -/
def lenUtf16 (c : Char) : Nat := if c.val ≤ 0xFFFF then 1 else 2

def utf16Len (text : List Char) : Nat := (text.map lenUtf16).sum

/-- `char::is_whitespace`, the Unicode property White_Space. -/
def isWhitespace (c : Char) : Bool :=
  let n := c.toNat
  (9 ≤ n && n ≤ 13) || n == 0x20 || n == 0x85 || n == 0xA0 || n == 0x1680 || (0x2000 ≤ n && n ≤ 0x200A) ||
    n == 0x2028 || n == 0x2029 || n == 0x202F || n == 0x205F || n == 0x3000

def trimStart (s : List Char) : List Char := s.dropWhile isWhitespace

def trimEndMatches (p : Char → Bool) (s : List Char) : List Char := (s.reverse.dropWhile p).reverse

def trim (s : List Char) : List Char := trimEndMatches isWhitespace (trimStart s)

def stripPrefix (pfx s : List Char) : Option (List Char) :=
  if pfx.isPrefixOf s then some (s.drop pfx.length) else none

/-- Up to the first `c`, and after it. -/
def splitAtChar (c : Char) : List Char → Option (List Char × List Char)
  | [] => none
  | x :: xs => if x = c then some ([], xs) else (splitAtChar c xs).map fun r => (x :: r.1, r.2)

/-- `str::lines`. -/
def Rich.lines : List Char → List (List Char)
  | [] => []
  | c :: s =>
    if c = '\n' then [] :: Rich.lines s
    else if c = '\r' ∧ s.head? = some '\n' then Rich.lines s
    else
      match Rich.lines s with
      | [] => [[c]]
      | l :: ls => (c :: l) :: ls

/-- `parse::<i64>`. -/
def parseI64 (s : List Char) : Option Int64 :=
  (Decimal.parse (-9223372036854775808) 9223372036854775807 s).map Int64.ofInt

/-- `parse::<i32>`. -/
def parseI32 (s : List Char) : Option Int32 :=
  (Decimal.parse (-2147483648) 2147483647 s).map Int32.ofInt

/-- A link target that names a user. -/
def mentionPrefix : List Char := "tg://user?id=".toList

/-- The formatting flags of a date. -/
structure DateFlags where
  relative : Bool
  shortTime : Bool
  longTime : Bool
  shortDate : Bool
  longDate : Bool
  dayOfWeek : Bool
deriving DecidableEq

/-- The kinds of entity, with what each carries. The kinds that neither side formats (mentions,
    hashtags, commands and so on) are kept apart by their constructor id only. -/
inductive EntityKind where
  | bold
  | italic
  | underline
  | strike
  | spoiler
  | code
  | pre (language : List Char)
  | textUrl (url : List Char)
  | mentionName (userId : Int64)
  | customEmoji (documentId : Int64)
  | blockquote (collapsed : Bool)
  | formattedDate (flags : DateFlags) (date : Int32)
  | other (constructorId : UInt32)
deriving DecidableEq

structure MessageEntity where
  offset : Int32
  length : Int32
  kind : EntityKind
deriving DecidableEq

/-- Where an entity ends, as the generators compute it. -/
def MessageEntity.stop (e : MessageEntity) : Int32 := e.offset + e.length

/-- The entity covers `mid`, which is not empty, after `pre`. -/
structure MessageEntity.Covers (e : MessageEntity) (pre mid : List Char) : Prop where
  offset_eq : e.offset.toInt = utf16Len pre
  length_eq : e.length.toInt = utf16Len mid
  mid_ne_nil : mid ≠ []

/-- In range, on character boundaries and not empty. -/
def MessageEntity.InText (e : MessageEntity) (text : List Char) : Prop :=
  ∃ pre mid post, text = pre ++ (mid ++ post) ∧ e.Covers pre mid

/-- The end of the entity is an `i32` as well. -/
def MessageEntity.Fits (e : MessageEntity) : Prop := e.offset.toInt + e.length.toInt < 2 ^ 31

instance (e : MessageEntity) : Decidable e.Fits := inferInstanceAs (Decidable (_ < _))

/-! Trimming. -/

/-- Nothing is trimmed where the last character stays. -/
theorem trimEndMatches_eq_self {p : Char → Bool} {s : List Char} (h : ∀ c, s.getLast? = some c → p c = false) :
    trimEndMatches p s = s := by
  have hrev : s.reverse.dropWhile p = s.reverse := by
    cases hr : s.reverse with
    | nil => rfl
    | cons c r =>
      have hc : s.getLast? = some c := by
        rw [List.getLast?_eq_head?_reverse, hr]
        rfl
      simp [h c hc]
  rw [trimEndMatches, hrev, List.reverse_reverse]

/-! Cutting at a character. -/

theorem splitAtChar_eq_some {c : Char} {l a b : List Char} (h : splitAtChar c l = some (a, b)) :
    l = a ++ c :: b ∧ c ∉ a := by
  induction l generalizing a with
  | nil => cases h
  | cons x xs ih =>
    simp only [splitAtChar] at h
    split at h
    · next hx =>
      obtain ⟨rfl, rfl⟩ := Prod.mk.inj (Option.some.inj h)
      exact ⟨by rw [hx]; rfl, by simp⟩
    · next hx =>
      obtain ⟨r, hr, h⟩ := Option.map_eq_some_iff.mp h
      obtain ⟨rfl, rfl⟩ := Prod.mk.inj h
      obtain ⟨hl, hc⟩ := ih hr
      exact ⟨by rw [hl]; rfl, by simp [Ne.symm hx, hc]⟩

theorem splitAtChar_append {c : Char} {a b : List Char} (h : c ∉ a) :
    splitAtChar c (a ++ c :: b) = some (a, b) := by
  induction a with
  | nil => simp [splitAtChar]
  | cons x a ih =>
    simp only [List.mem_cons, not_or] at h
    simp [splitAtChar, Ne.symm h.1, ih h.2]

theorem splitAtChar_eq_none {c : Char} {s : List Char} (h : splitAtChar c s = none) : c ∉ s := by
  intro hmem
  obtain ⟨a, b, rfl, hnot⟩ := List.eq_append_cons_of_mem hmem
  rw [splitAtChar_append hnot] at h
  cases h

theorem splitAtChar_length {c : Char} {l a b : List Char} (h : splitAtChar c l = some (a, b)) :
    b.length < l.length := by
  rw [(splitAtChar_eq_some h).1]
  simp only [List.length_append, List.length_cons]
  omega

/-! Prefixes and numbers. -/

theorem stripPrefix_append (pfx s : List Char) : stripPrefix pfx (pfx ++ s) = some s := by
  simp [stripPrefix]

theorem parseI64_format (n : Int64) : parseI64 (Decimal.format n.toInt) = some n := by
  have h1 := n.le_toInt
  have h2 := n.toInt_lt
  unfold parseI64
  rw [Decimal.parse_format (by omega) (by omega), Option.map_some, Int64.ofInt_toInt]

theorem parseI32_format (n : Int32) : parseI32 (Decimal.format n.toInt) = some n := by
  have h1 := n.le_toInt
  have h2 := n.toInt_lt
  unfold parseI32
  rw [Decimal.parse_format (by omega) (by omega), Option.map_some, Int32.ofInt_toInt]

/-! Counting UTF-16 units. -/

theorem lenUtf16_pos (c : Char) : 0 < lenUtf16 c := by
  unfold lenUtf16
  split <;> omega

@[simp] theorem utf16Len_nil : utf16Len [] = 0 := rfl

@[simp] theorem utf16Len_cons (c : Char) (text : List Char) :
    utf16Len (c :: text) = lenUtf16 c + utf16Len text := by
  simp [utf16Len]

@[simp] theorem utf16Len_append (a b : List Char) : utf16Len (a ++ b) = utf16Len a + utf16Len b := by
  simp [utf16Len]

theorem utf16Len_pos {text : List Char} (h : text ≠ []) : 0 < utf16Len text := by
  cases text with
  | nil => exact absurd rfl h
  | cons c text =>
    have := lenUtf16_pos c
    rw [utf16Len_cons]
    omega

/-- No boundary of a text lies inside one of its characters. -/
theorem boundary_gap {a b before after : List Char} {c : Char} (h : a ++ b = before ++ c :: after)
    (hlt : utf16Len before < utf16Len a) : utf16Len before + lenUtf16 c ≤ utf16Len a := by
  rcases List.append_eq_append_iff.mp h with ⟨x, rfl, -⟩ | ⟨x, rfl, hx⟩
  · rw [utf16Len_append] at hlt
    omega
  · cases x with
    | nil => simp at hlt
    | cons d x =>
      obtain ⟨rfl, -⟩ := List.cons.inj hx
      rw [utf16Len_append, utf16Len_cons]
      omega

/-! Counters of `i32`. -/

theorem toInt_ofNat_of_fits {n : Nat} (h : n < 2 ^ 31) : (Int32.ofNat n).toInt = n :=
  Int32.toInt_ofNat_of_lt h

theorem ofNat_of_toInt {x : Int32} {n : Nat} (h : x.toInt = n) : x = Int32.ofNat n := by
  have hlt := x.toInt_lt
  apply Int32.toInt.inj
  rw [toInt_ofNat_of_fits (by omega), h]

variable {e : MessageEntity} {pre mid : List Char}

theorem MessageEntity.Covers.offset_ofNat (h : e.Covers pre mid) : e.offset = Int32.ofNat (utf16Len pre) :=
  ofNat_of_toInt h.offset_eq

theorem MessageEntity.Covers.length_ofNat (h : e.Covers pre mid) : e.length = Int32.ofNat (utf16Len mid) :=
  ofNat_of_toInt h.length_eq

theorem MessageEntity.Covers.stop_ofNat (h : e.Covers pre mid) : e.stop = Int32.ofNat (utf16Len (pre ++ mid)) := by
  rw [MessageEntity.stop, h.offset_ofNat, h.length_ofNat, utf16Len_append, Int32.ofNat_add]

theorem MessageEntity.Covers.stop_toInt (h : e.Covers pre mid) (hfits : e.Fits) :
    e.stop.toInt = utf16Len (pre ++ mid) := by
  have hsum : utf16Len (pre ++ mid) < 2 ^ 31 := by
    have := hfits
    unfold MessageEntity.Fits at this
    rw [h.offset_eq, h.length_eq] at this
    rw [utf16Len_append]
    omega
  rw [h.stop_ofNat, toInt_ofNat_of_fits hsum]

end Ferogram.Parsers
