import Ferogram.Client.PeerCache
import Ferogram.Lib.Str
import Ferogram.Parsers.Trim

/- The peers that a text can name, `ferogram/src/peer_ref.rs`: `normalize_str` reads a borrowed
   text, `normalize_owned` an owned one, with the phone number and the user name taken in place,
   and `normalize_phone` (`ferogram/src/util.rs`) decides what a phone number is.

   What is proved: `normalizeOwned_eq_iff`. The two readers differ where an owned text is a plus
   sign and too many digits for a phone number. -/
namespace Ferogram.Peers
open Parsers (trim stripPrefix parseI64)

inductive PeerRef where
  | username (name : List Char)
  | id (id : Int64)
  | peer (p : Peer)
  | input (ip : InputPeer)
  | inviteHash (hash : List Char)
  | phone (digits : List Char)
  deriving DecidableEq

def MAX_PHONE_DIGITS : Nat := 15
def MIN_PHONE_DIGITS : Nat := 5

/-- The digits of a number that is written with separators. -/
def phoneDigits : List Char → Option (List Char)
  | [] => some []
  | c :: rest =>
    if c.isDigit then (phoneDigits rest).map (c :: ·)
    else if c ∈ [' ', '-', '.', '(', ')'] then phoneDigits rest
    else none

def normalizePhone (s : List Char) : Option (List Char) :=
  let rest := (stripPrefix ['+'] s).getD s
  -- a byte that is an ASCII digit is a character that is one
  if rest.all Char.isDigit then
    if MIN_PHONE_DIGITS ≤ Str.byteLen rest ∧ Str.byteLen rest ≤ MAX_PHONE_DIGITS then some ('+' :: rest) else none
  else
    match phoneDigits rest with
    | none => none
    | some digits =>
      if MIN_PHONE_DIGITS ≤ Str.byteLen digits ∧ Str.byteLen digits ≤ MAX_PHONE_DIGITS then some ('+' :: digits)
      else none

namespace PeerRef

/-- What stands behind a mark, up to a query. -/
def hashBehind (mark link : List Char) : Option (List Char) :=
  match (Str.findStr mark link).bind fun pos => Str.sliceFrom link (pos + Str.byteLen mark) with
  | some hash => if hash = [] then none else some (hash.takeWhile (· ≠ '?'))
  | none => none

def parseInviteHash (link : List Char) : Option (List Char) :=
  let joined :=
    match stripPrefix "tg://join?invite=".toList link with
    | some rest =>
      let hash := rest.takeWhile (· ≠ '&')
      if hash = [] then none else some hash
    | none => none
  (joined.or (hashBehind "/+".toList link)).or (hashBehind "/joinchat/".toList link)

end PeerRef

def tmePrefixes : List (List Char) :=
  ["https://t.me/", "http://t.me/", "https://telegram.me/", "http://telegram.me/", "https://telegram.dog/",
    "http://telegram.dog/", "t.me/", "telegram.me/", "telegram.dog/"].map String.toList

def parseTmeUsername (s : List Char) : Option (List Char) :=
  match tmePrefixes.findSome? (stripPrefix · s) with
  | none => none
  | some path =>
    if path.head? = some '+' ∨ "joinchat/".toList.isPrefixOf path then none
    else if "c/".toList.isPrefixOf path then none
    else
      let name := path.takeWhile (· ≠ '/')
      if name = [] then none else some name

def normalizeStr (s : List Char) : PeerRef :=
  let s := trim s
  match PeerRef.parseInviteHash s with
  | some hash => .inviteHash hash
  | none =>
    match parseTmeUsername s with
    | some name => .username name
    | none =>
      match if s.head? = some '+' then normalizePhone s else none with
      | some phone => .phone phone
      | none =>
        match parseI64 s with
        | some id => .id id
        | none => .username (s.dropWhile (· = '@'))

def normalizeOwned (s : List Char) : PeerRef :=
  let trimmed := trim s
  if Str.byteLen trimmed ≠ Str.byteLen s then normalizeStr trimmed
  else if (PeerRef.parseInviteHash s).isSome ∨ (parseTmeUsername s).isSome then normalizeStr s
  else if s.head? = some '+' ∧ 5 < Str.byteLen s ∧ (s.drop 1).all Char.isDigit then .phone s
  else if s.head? = some '+' then normalizeStr s
  else if (parseI64 s).isSome then normalizeStr s
  else
    -- one byte is one character here
    let leadingAts := ((Str.bytes s).takeWhile (· = Str.asciiByte '@')).length
    .username (s.drop leadingAts)

inductive CowStr where
  | borrowed (s : List Char)
  | owned (s : List Char)
  deriving DecidableEq

namespace PeerRef

/-- `From<&str>`. -/
def fromStr (s : List Char) : PeerRef := normalizeStr s

/-- `From<String>`. -/
def fromString (s : List Char) : PeerRef := normalizeStr s

/-- `From<Cow<str>>`. -/
def fromCow : CowStr → PeerRef
  | .borrowed s => normalizeStr s
  | .owned s => normalizeOwned s

end PeerRef

/-! Phone numbers. -/

theorem byteLen_digits {ds : List Char} (h : ds.all Char.isDigit = true) : Str.byteLen ds = ds.length := by
  induction ds with
  | nil => rfl
  | cons d ds ih =>
    simp only [List.all_cons, Bool.and_eq_true] at h
    have hd : d.toNat < 128 := by
      have := h.1
      simp only [Char.isDigit, Bool.and_eq_true, decide_eq_true_eq] at this
      have h57 : d.val.toNat ≤ '9'.val.toNat := this.2
      have h9 : '9'.val.toNat = 57 := rfl
      show d.val.toNat < 128
      omega
    rw [Str.byteLen_cons, Str.utf8Size_ascii hd, ih h.2, List.length_cons, Nat.add_comm]

theorem isWhitespace_of_digit {c : Char} (h : c.isDigit = true) : Parsers.isWhitespace c = false := by
  simp only [Char.isDigit, Bool.and_eq_true, decide_eq_true_eq] at h
  have h48 : 48 ≤ c.toNat := h.1
  have h57 : c.toNat ≤ 57 := h.2
  simp only [Parsers.isWhitespace, Bool.or_eq_false_iff, Bool.and_eq_false_iff, decide_eq_false_iff_not, beq_eq_false_iff_ne]
  omega

theorem phoneDigits_all : ∀ {s ds : List Char}, phoneDigits s = some ds → ds.all Char.isDigit = true
  | [], ds, h => by
    obtain rfl := Option.some.inj h
    rfl
  | c :: rest, ds, h => by
    unfold phoneDigits at h
    split at h
    · next hc =>
      obtain ⟨t, ht, rfl⟩ := Option.map_eq_some_iff.mp h
      rw [List.all_cons, hc, phoneDigits_all ht]
      rfl
    · split at h
      · exact phoneDigits_all h
      · exact absurd h (by simp)

/-- A plus sign and five to fifteen digits. -/
def IsPhone (s : List Char) : Prop :=
  ∃ ds : List Char, s = '+' :: ds ∧ ds.all Char.isDigit = true ∧ MIN_PHONE_DIGITS ≤ ds.length ∧
    ds.length ≤ MAX_PHONE_DIGITS

theorem normalizePhone_isPhone {s p : List Char} (h : normalizePhone s = some p) : IsPhone p := by
  have hread : ∀ {ds : List Char}, ds.all Char.isDigit = true →
      (if MIN_PHONE_DIGITS ≤ Str.byteLen ds ∧ Str.byteLen ds ≤ MAX_PHONE_DIGITS then some ('+' :: ds) else none) =
        some p → IsPhone p := by
    intro ds hall h
    rw [byteLen_digits hall] at h
    split at h
    · next hlen => exact ⟨ds, (Option.some.inj h).symm, hall, hlen⟩
    · exact absurd h (by simp)
  unfold normalizePhone at h
  simp only at h
  split at h
  · next hall => exact hread hall h
  · split at h
    · exact absurd h (by simp)
    · next ds hds => exact hread (phoneDigits_all hds) h

theorem normalizePhone_self {s : List Char} (h : IsPhone s) : normalizePhone s = some s := by
  obtain ⟨ds, rfl, hall, hlen⟩ := h
  have hrest : (stripPrefix ['+'] ('+' :: ds)).getD ('+' :: ds) = ds :=
    congrArg (Option.getD · ('+' :: ds)) (Parsers.stripPrefix_append ['+'] ds)
  unfold normalizePhone
  simp only [hrest, hall, if_true, byteLen_digits hall, hlen, and_self]

/-! The two readers. -/

/-- A plus sign and more digits than a phone number has. -/
def TooLong (s : List Char) : Prop :=
  ∃ ds : List Char, s = '+' :: ds ∧ ds.all Char.isDigit = true ∧ MAX_PHONE_DIGITS < ds.length

section
variable {s : List Char}

/-- A phone that is read is one. -/
theorem normalizeStr_phone {p : List Char} (h : normalizeStr s = .phone p) : IsPhone p := by
  unfold normalizeStr at h
  simp only at h
  split at h
  · exact absurd h (by simp)
  · split at h
    · exact absurd h (by simp)
    · split at h
      · next hp =>
        obtain rfl := PeerRef.phone.inj h
        split at hp
        · exact normalizePhone_isPhone hp
        · exact absurd hp (by simp)
      · split at h <;> exact absurd h (by simp)

theorem normalizeStr_trim (s : List Char) : normalizeStr (trim s) = normalizeStr s := by
  unfold normalizeStr
  rw [Parsers.trim_trim]

/-- Where trimming takes no byte off, it does nothing. -/
theorem trim_of_byteLen (h : Str.byteLen (trim s) = Str.byteLen s) : trim s = s := by
  obtain ⟨a, b, hs, -, -⟩ := Parsers.trim_split s
  have hlen := congrArg Str.byteLen hs
  rw [Str.byteLen_append, Str.byteLen_append, h] at hlen
  have ha := Str.byteLen_eq_zero.mp (show Str.byteLen a = 0 by omega)
  have hb := Str.byteLen_eq_zero.mp (show Str.byteLen b = 0 by omega)
  rw [ha, hb, List.append_nil, List.nil_append] at hs
  exact hs.symm

theorem leadingAts_length (s : List Char) :
    ((Str.bytes s).takeWhile (· = Str.asciiByte '@')).length = (s.takeWhile (· = '@')).length := by
  induction s with
  | nil => rfl
  | cons c s ih =>
    rw [Str.bytes_cons]
    by_cases hc : c = '@'
    · rw [hc, Str.utf8EncodeChar_ascii (by decide)]
      simp [ih]
    · obtain ⟨b, rest, hb⟩ := List.exists_cons_of_ne_nil (String.utf8EncodeChar_ne_nil (c := c))
      have hne : b ≠ Str.asciiByte '@' := by
        rintro rfl
        exact hc (Str.eq_of_asciiByte_mem (by decide) (hb ▸ List.mem_cons_self))
      simp [hb, hne, hc]

theorem drop_leadingAts (s : List Char) :
    s.drop ((Str.bytes s).takeWhile (· = Str.asciiByte '@')).length = s.dropWhile (· = '@') := by
  have hsplit : s = s.takeWhile (· = '@') ++ s.dropWhile (· = '@') := List.takeWhile_append_dropWhile.symm
  rw [leadingAts_length]
  calc s.drop (s.takeWhile (· = '@')).length
      = (s.takeWhile (· = '@') ++ s.dropWhile (· = '@')).drop (s.takeWhile (· = '@')).length := by rw [← hsplit]
    _ = s.dropWhile (· = '@') := List.drop_left

/-- A plus sign and digits is no link. -/
theorem no_link {ds : List Char} (h : ds.all Char.isDigit = true) :
    PeerRef.parseInviteHash ('+' :: ds) = none ∧ parseTmeUsername ('+' :: ds) = none := by
  have hslash : '/' ∉ '+' :: ds := by
    intro hmem
    rcases List.mem_cons.mp hmem with h' | hmem
    · exact absurd h' (by decide)
    · exact absurd (List.all_eq_true.mp h _ hmem) (by decide)
  have hbehind : ∀ mark : List Char, '/' ∈ mark → PeerRef.hashBehind mark ('+' :: ds) = none := by
    intro mark hmark
    have hfind : Str.findStr mark ('+' :: ds) = none :=
      Str.findStr_eq_none_iff.mpr fun hwithin => hslash (hwithin.subset hmark)
    unfold PeerRef.hashBehind
    rw [hfind]
    rfl
  constructor
  · unfold PeerRef.parseInviteHash
    rw [hbehind _ (by decide), hbehind _ (by decide)]
    rfl
  · rfl

end

theorem trim_plus {ds : List Char} (h : ds.all Char.isDigit = true) : trim ('+' :: ds) = '+' :: ds := by
  apply Parsers.trim_eq_self
  intro c hc
  rcases List.mem_cons.mp hc with rfl | hc
  · decide
  · exact isWhitespace_of_digit (List.all_eq_true.mp h c hc)

/-- A plus sign and at least five digits are taken for a phone number, however many there are. -/
theorem normalizeOwned_plus {ds : List Char} (h : ds.all Char.isDigit = true) (hlen : MIN_PHONE_DIGITS ≤ ds.length) :
    normalizeOwned ('+' :: ds) = .phone ('+' :: ds) := by
  have hbytes : 5 < Str.byteLen ('+' :: ds) := by
    have h5 : MIN_PHONE_DIGITS = 5 := rfl
    rw [Str.byteLen_cons, byteLen_digits h, show '+'.utf8Size = 1 from rfl]
    omega
  have hfast : ('+' :: ds).head? = some '+' ∧ 5 < Str.byteLen ('+' :: ds) ∧ (('+' :: ds).drop 1).all Char.isDigit = true :=
    ⟨rfl, hbytes, h⟩
  have hlink : ¬ ((PeerRef.parseInviteHash ('+' :: ds)).isSome = true ∨ (parseTmeUsername ('+' :: ds)).isSome = true) := by
    simp [no_link h]
  unfold normalizeOwned
  simp only [trim_plus h]
  rw [if_neg (not_not.mpr rfl), if_neg hlink, if_pos hfast]

theorem normalizeStr_clean {s : List Char} (htrim : trim s = s) (hhash : PeerRef.parseInviteHash s = none)
    (hname : parseTmeUsername s = none) :
    normalizeStr s =
      match if s.head? = some '+' then normalizePhone s else none with
      | some phone => .phone phone
      | none =>
        match parseI64 s with
        | some id => .id id
        | none => .username (s.dropWhile (· = '@')) := by
  unfold normalizeStr
  simp only [htrim, hhash, hname]

theorem normalizeOwned_eq {s : List Char} (h : ¬ TooLong s) : normalizeOwned s = normalizeStr s := by
  unfold normalizeOwned
  simp only
  split
  · exact normalizeStr_trim s
  · next hbytes =>
    have htrim := trim_of_byteLen (not_not.mp hbytes)
    split
    · rfl
    · next hlink =>
      simp only [not_or, Bool.not_eq_true, Option.isSome_eq_false_iff, Option.isNone_iff_eq_none] at hlink
      split
      · next hfast =>
        obtain ⟨hplus, hlen, hall⟩ := hfast
        obtain ⟨ds, rfl⟩ := List.head?_eq_some_iff.mp hplus
        rw [List.drop_one, List.tail_cons] at hall
        rw [Str.byteLen_cons, byteLen_digits hall, show '+'.utf8Size = 1 from rfl] at hlen
        -- the digits are at least five, and not too many
        have hphone : IsPhone ('+' :: ds) :=
          ⟨ds, rfl, hall, show 5 ≤ ds.length by omega, Nat.not_lt.mp fun hlt => h ⟨ds, rfl, hall, hlt⟩⟩
        rw [normalizeStr_clean htrim hlink.1 hlink.2, if_pos hplus, normalizePhone_self hphone]
      · split
        · rfl
        · next hplus =>
          split
          · rfl
          · next hid =>
            rw [Bool.not_eq_true, Option.isSome_eq_false_iff, Option.isNone_iff_eq_none] at hid
            rw [normalizeStr_clean htrim hlink.1 hlink.2, if_neg hplus, hid, drop_leadingAts]

/-- An owned text is read as a borrowed one is, unless it is a plus sign and more than fifteen
    digits; and so with every form that `PeerRef::from` takes. -/
theorem normalizeOwned_eq_iff (s : List Char) :
    (normalizeOwned s = normalizeStr s ∧ PeerRef.fromString s = PeerRef.fromStr s ∧
      PeerRef.fromCow (.borrowed s) = PeerRef.fromStr s ∧ PeerRef.fromCow (.owned s) = PeerRef.fromStr s) ↔
      ¬ TooLong s := by
  have hall : (normalizeOwned s = normalizeStr s ∧ PeerRef.fromString s = PeerRef.fromStr s ∧
      PeerRef.fromCow (.borrowed s) = PeerRef.fromStr s ∧ PeerRef.fromCow (.owned s) = PeerRef.fromStr s) ↔
      normalizeOwned s = normalizeStr s :=
    ⟨fun h => h.1, fun h => ⟨h, rfl, rfl, h⟩⟩
  rw [hall]
  constructor
  · rintro heq ⟨ds, rfl, hdigits, hlong⟩
    have hmin : MIN_PHONE_DIGITS ≤ MAX_PHONE_DIGITS := by decide
    rw [normalizeOwned_plus hdigits (by omega)] at heq
    obtain ⟨ds', hds, -, -, hshort⟩ := normalizeStr_phone heq.symm
    obtain rfl := (List.cons.inj hds).2
    omega
  · exact normalizeOwned_eq

/-- Sixteen digits: an owned text is a phone number, a borrowed one the id of a user. -/
theorem normalizeOwned_long :
    ¬ ∀ s : List Char, normalizeOwned s = normalizeStr s := by
  intro h
  have hne : normalizeOwned "+1234567890123456".toList ≠ normalizeStr "+1234567890123456".toList := by decide +kernel
  exact hne (h _)

end Ferogram.Peers
