import Ferogram.TlParser.SameWords

/- The derived constructor id. `tl_id` takes the first `#` for the tag of an id, wherever it stands,
   and hashes the white space as it is written; so the text it hashes is the canonical one exactly
   if there is no `#` and the white space is single spaces (`derivedId_iff`). -/
namespace Ferogram.TlParser
open TlGen Parsers Words Radix

variable {c : Char} {s : List Char} {d : Definition}

/-- The words of a text with single spaces between them. -/
def canonicalText (s : List Char) : List Char := [' '].intercalate (words isWhitespace s)

/-- The white space inside a text is single spaces. -/
def SingleSpaced (s : List Char) : Prop := Single isWhitespace ' ' (trim s)

theorem canonicalText_eq_iff (s : List Char) : trim s = canonicalText s ↔ SingleSpaced s := by
  rw [canonicalText, ← words_trim, eq_comm]
  exact intercalate_words_iff (by decide) (fun _ => trim_first) fun _ => trim_last

/-- Only white space is lost in the canonical text. -/
theorem count_canonicalText (hc : isWhitespace c = false) (s : List Char) : (canonicalText s).count c = s.count c := by
  have hspace : c ≠ ' ' := by
    rintro rfl
    exact absurd hc (by decide)
  have hjoin : ∀ ws : List (List Char), ([' '].intercalate ws).count c = ws.flatten.count c := by
    intro ws
    induction ws with
    | nil => rfl
    | cons w ws ih =>
      by_cases hnil : ws = []
      · simp [hnil, List.intercalate]
      · rw [intercalate_cons_of_ne_nil hnil, List.count_append, List.count_cons_of_ne hspace.symm, ih,
          List.flatten_cons, List.count_append]
  rw [canonicalText, hjoin, flatten_words, List.count_filter (by simp [hc])]

theorem mem_trim_iff (hc : isWhitespace c = false) : c ∈ trim s ↔ c ∈ s := by
  refine ⟨mem_of_mem_trim, fun h => ?_⟩
  obtain ⟨a, b, hs, ha, hb⟩ := trim_split s
  rw [hs] at h
  rcases List.mem_append.mp h with h | h
  · exact absurd (List.all_eq_true.mp ha c h) (by simp [hc])
  · rcases List.mem_append.mp h with h | h
    · exact h
    · exact absurd (List.all_eq_true.mp hb c h) (by simp [hc])

theorem hashedText_of_not_mem (h : '#' ∉ s) : hashedText (trim s) = trim s := by
  have hnot : '#' ∉ trim s := fun hmem => h (mem_of_mem_trim hmem)
  unfold hashedText
  rw [splitAtChar_of_not_mem hnot]
  exact trim_trim s

/-- The first `#` is taken out. -/
theorem count_hashedText (h : '#' ∈ s) : (hashedText s).count '#' < s.count '#' := by
  unfold hashedText
  cases hcut : splitAtChar '#' s with
  | none => exact absurd h (splitAtChar_eq_none hcut)
  | some r =>
    obtain ⟨before, afterHash⟩ := r
    obtain ⟨rfl, -⟩ := splitAtChar_eq_some hcut
    have hbefore : (trimEndMatches isWhitespace before).count '#' = before.count '#' :=
      count_trimEndMatches (by decide) before
    have hafter : (afterHash.dropWhile isAsciiHexdigit).count '#' ≤ afterHash.count '#' :=
      (List.dropWhile_sublist _).count_le _
    simp only
    rw [count_trim (by decide), List.count_append, List.count_append, List.count_cons_self]
    omega

theorem hashedText_eq_canonicalText_iff (s : List Char) :
    hashedText (trim s) = canonicalText s ↔ '#' ∉ s ∧ SingleSpaced s := by
  constructor
  · intro h
    have hhash : '#' ∉ s := by
      intro hmem
      have hless := count_hashedText ((mem_trim_iff (by decide)).mpr hmem)
      rw [h, count_canonicalText (by decide), count_trim (by decide)] at hless
      exact Nat.lt_irrefl _ hless
    rw [hashedText_of_not_mem hhash] at h
    exact ⟨hhash, (canonicalText_eq_iff s).mp h⟩
  · rintro ⟨hhash, hsingle⟩
    rw [hashedText_of_not_mem hhash]
    exact (canonicalText_eq_iff s).mpr hsingle

/-- **The derived id.** Where no id stands in the text, the id is the CRC-32 of the text that
`tl_id` hashes. This is the canonical text exactly if there is no `#` and the white space is single
spaces; then the id is the CRC-32 of the canonical text. -/
theorem derivedId_iff (h : fromStr s = .ok d) (hid : explicitId s = none) :
    d.id = crc32 (Str.bytes (hashedText (trim s))) ∧
      (hashedText (trim s) = canonicalText s ↔ '#' ∉ s ∧ SingleSpaced s) ∧
      ('#' ∉ s ∧ SingleSpaced s → d.id = crc32 (Str.bytes (canonicalText s))) := by
  have hiff := hashedText_eq_canonicalText_iff s
  have hderived : d.id = crc32 (Str.bytes (hashedText (trim s))) := by
    obtain ⟨-, ty, typeDefs, -, -, hread⟩ := fromStr_iff.mp h
    have hread := hread.id
    rw [show (splitId (splitHead (lhsText s)).1).2 = none from hid] at hread
    exact (Except.ok.inj hread).symm
  exact ⟨hderived, hiff, fun hcond => by rw [hderived, hiff.mpr hcond]⟩

/-- The condition is on the text: two texts may have one CRC-32. -/
example : tlId "aacttpVe  = B".toList = crc32 (Str.bytes (canonicalText "aacttpVe  = B".toList)) := by decide +kernel

instance (s : List Char) : Decidable (SingleSpaced s) := inferInstanceAs (Decidable (Single _ _ _))

theorem derivedId_boolFalse : ∃ d, fromStr "boolFalse = Bool".toList = .ok d ∧
    d.id = crc32 (Str.bytes (canonicalText "boolFalse = Bool".toList)) := by
  have hread : (fromStr "boolFalse = Bool".toList).toOption.map (·.id) = some 0xbc799737 := by decide +kernel
  obtain ⟨d, hd, -⟩ := exists_of_map hread
  exact ⟨d, hd, (derivedId_iff hd (by decide +kernel)).2.2 (by decide +kernel)⟩

/-- A flags field is taken for the tag of an id, and a second space is hashed. -/
theorem derivedId_wrong :
    (∃ d, fromStr "a b:# = C".toList = .ok d ∧ explicitId "a b:# = C".toList = none ∧
      d.id ≠ crc32 (Str.bytes (canonicalText "a b:# = C".toList))) ∧
    ∃ d d', fromStr "a = B".toList = .ok d ∧ fromStr "a  = B".toList = .ok d' ∧
      canonicalText "a = B".toList = canonicalText "a  = B".toList ∧ d.id ≠ d'.id := by
  have hflags : (fromStr "a b:# = C".toList).toOption.map (·.id) = some 4003702227 := by decide +kernel
  have hone : (fromStr "a = B".toList).toOption.map (·.id) = some 3819402243 := by decide +kernel
  have htwo : (fromStr "a  = B".toList).toOption.map (·.id) = some 847024059 := by decide +kernel
  obtain ⟨d, hd, hid⟩ := exists_of_map hflags
  obtain ⟨d₁, hd₁, hid₁⟩ := exists_of_map hone
  obtain ⟨d₂, hd₂, hid₂⟩ := exists_of_map htwo
  refine ⟨⟨d, hd, by decide +kernel, ?_⟩, d₁, d₂, hd₁, hd₂, by decide +kernel, ?_⟩
  · rw [hid]
    decide +kernel
  · rw [hid₁, hid₂]
    decide

end Ferogram.TlParser
