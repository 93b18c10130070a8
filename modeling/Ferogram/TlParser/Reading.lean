import Ferogram.TlParser.Params

/- What is read in the text of a definition. The text is cut at the first equals sign into the left
   side and the result type; on the left stand a name, perhaps an id, and the tokens
   (`paramTokens`). `fromStr_iff` says of which texts a definition is read. -/
namespace Ferogram.TlParser
open TlGen Parsers Words Radix

variable {c : Char} {s raw lhs tyStr : List Char} {d : Definition} {typeDefs : List String}

/-! The parts of a text. -/

def lhsText (s : List Char) : List Char := trim ((trim s).takeWhile (· ≠ '='))

def resultText (s : List Char) : List Char :=
  trim (trimEndMatches (· == ';') (trim (((trim s).dropWhile (· ≠ '=')).drop 1)))

/-- The tokens behind the name. -/
def paramTokens (s : List Char) : List (List Char) := words isWhitespace (splitHead (lhsText s)).2

/-- The id that stands behind the name. -/
def explicitId (s : List Char) : Option (List Char) := (splitId (splitHead (lhsText s)).1).2

theorem splitAtChar_eq_takeWhile (h : c ∈ s) :
    splitAtChar c s = some (s.takeWhile (· ≠ c), (s.dropWhile (· ≠ c)).drop 1) := by
  obtain ⟨a, b, rfl, hc⟩ := List.eq_append_cons_of_mem h
  have ha : ∀ x ∈ a, decide (x ≠ c) = true := fun x hx => decide_eq_true fun hxc => hc (hxc ▸ hx)
  rw [splitAtChar_append hc, List.takeWhile_append_of_pos ha, List.dropWhile_append_of_pos ha,
    List.takeWhile_cons_of_neg (by simp), List.dropWhile_cons_of_neg (by simp), List.append_nil, List.drop_one,
    List.tail_cons]

theorem fromStr_eq (h : '=' ∈ trim s) : fromStr s = fromSides (trim s) (lhsText s) (resultText s) := by
  have hnil : (trim s).isEmpty = false := by
    rw [List.isEmpty_eq_false_iff]
    exact List.ne_nil_of_mem h
  simp only [fromStr, hnil, Bool.false_eq_true, if_false, splitAtChar_eq_takeWhile h, lhsText, resultText]

theorem equals_of_fromStr (h : fromStr s = .ok d) : '=' ∈ trim s := by
  simp only [fromStr] at h
  split at h
  · cases h
  · split at h
    · cases h
    · next a b hsplit => exact (splitAtChar_eq_some hsplit).1 ▸ List.mem_append_right _ List.mem_cons_self

/-- What the left side says. -/
structure Read (raw lhs : List Char) (d : Definition) (typeDefs : List String) : Prop where
  name : (splitId (splitHead lhs).1).1 = dotted (d.ns.map String.toList) d.name.toList
  nsParts : ∀ part ∈ d.ns, part.toList ≠ [] ∧ '.' ∉ part.toList
  namePart : d.name.toList ≠ [] ∧ '.' ∉ d.name.toList
  id : idFrom raw (splitId (splitHead lhs).1).2 = .ok d.id
  params : readParams [] [] (words isWhitespace (splitHead lhs).2) = .ok (d.params, typeDefs)
  category : d.category = .types

theorem fromSides_iff : fromSides raw lhs tyStr = .ok d ↔
    ∃ ty typeDefs, typeFromStr tyStr = .ok ty ∧ d.ty = markDeclared typeDefs ty ∧ Read raw lhs d typeDefs := by
  constructor
  · intro h
    unfold fromSides at h
    split at h
    · cases h
    · split at h
      · cases h
      · next ty hty =>
        obtain ⟨ns, name, hcut⟩ := exists_splitName (splitId (splitHead lhs).1).1
        simp only [hcut, map_ofList_toList, String.ofList_toList] at h
        split at h
        · cases h
        · next hfull =>
          split at h
          · cases h
          · next id hid =>
            split at h
            · cases h
            · next params typeDefs hparams =>
              cases h
              rw [Bool.not_eq_true, Bool.or_eq_false_iff] at hfull
              obtain ⟨hname, hparts, hdot⟩ := splitName_iff.mp ⟨hcut, hfull.1⟩
              exact ⟨ty, typeDefs, hty, rfl, hname, hparts, ⟨by simpa using hfull.2, hdot⟩, hid, hparams, rfl⟩
  · rintro ⟨ty, typeDefs, hty, hmark, hread⟩
    have hnil : tyStr.isEmpty = false := by
      rw [List.isEmpty_eq_false_iff, (typeFromStr_iff.mp hty).1]
      exact sourceText_ne_nil (typeFromStr_iff.mp hty).2
    obtain ⟨hcut, hns⟩ := splitName_iff.mpr ⟨hread.name, hread.nsParts, hread.namePart.2⟩
    have hfull : ((d.ns.map String.toList).any List.isEmpty || d.name.toList.isEmpty) = false := by
      rw [hns, Bool.false_or, List.isEmpty_eq_false_iff]
      exact hread.namePart.1
    unfold fromSides
    simp only [hnil, hty, hcut, hfull, hread.id, hread.params, Bool.false_eq_true, if_false, map_ofList_toList,
      String.ofList_toList, ← hmark, ← hread.category]

/-- **What is read as a definition.** -/
theorem fromStr_iff : fromStr s = .ok d ↔ '=' ∈ trim s ∧
    ∃ ty typeDefs, typeFromStr (resultText s) = .ok ty ∧ d.ty = markDeclared typeDefs ty ∧
      Read (trim s) (lhsText s) d typeDefs := by
  constructor
  · intro h
    have heq := equals_of_fromStr h
    rw [fromStr_eq heq] at h
    exact ⟨heq, fromSides_iff.mp h⟩
  · rintro ⟨heq, h⟩
    rw [fromStr_eq heq]
    exact fromSides_iff.mpr h

/-- The value that a computation shows to be there. -/
theorem exists_of_map {ε α β : Type} {e : Except ε α} {f : α → β} {b : β} (h : e.toOption.map f = some b) :
    ∃ a, e = .ok a ∧ f a = b := by
  cases e with
  | ok a => exact ⟨a, rfl, Option.some.inj h⟩
  | error e => cases h

end Ferogram.TlParser
