import Ferogram.Parsers.Markdown

/- Reading MarkdownV2 piece by piece. Every round of the parser's loop takes
   at least one character (`step_progress`), so the loop never runs out of fuel
   and can be read as a run from one state to the next (`run_cons`). The lemmas
   after it say what the run makes of the pieces a generator writes: an escaped
   or plain character of the text (`run_escaped`) and a style delimiter
   (`run_tag`). -/
namespace Ferogram.Parsers
open Splice TagStack

/-! Scanning for a closing character. -/

theorem splitFence_length {l a b : List Char} (h : splitFence l = some (a, b)) : b.length ≤ l.length := by
  induction l generalizing a with
  | nil => cases h
  | cons x xs ih =>
    simp only [splitFence] at h
    split at h
    · obtain ⟨rfl, rfl⟩ := Prod.mk.inj (Option.some.inj h)
      simp only [List.length_cons]
      omega
    · obtain ⟨r, hr, h⟩ := Option.map_eq_some_iff.mp h
      obtain ⟨rfl, rfl⟩ := Prod.mk.inj h
      have := ih hr
      simp only [List.length_cons]
      omega

theorem splitLabel_length {depth : Nat} {l a b : List Char} (h : splitLabel depth l = some (a, b)) :
    b.length ≤ l.length := by
  induction l generalizing a depth with
  | nil => cases h
  | cons x xs ih =>
    have hlater : ∀ d, (splitLabel d xs).map (fun r => (x :: r.1, r.2)) = some (a, b) →
        b.length ≤ (x :: xs).length := by
      intro d h
      obtain ⟨r, hr, h⟩ := Option.map_eq_some_iff.mp h
      obtain ⟨-, rfl⟩ := Prod.mk.inj h
      have := ih hr
      simp only [List.length_cons]
      omega
    simp only [splitLabel] at h
    split at h
    · exact hlater _ h
    · split at h
      · split at h
        · obtain ⟨-, rfl⟩ := Prod.mk.inj (Option.some.inj h)
          simp
        · exact hlater _ h
      · exact hlater _ h

theorem splitTarget_length {l a b : List Char} (h : splitTarget l = some (a, b)) : b.length ≤ l.length := by
  unfold splitTarget at h
  split at h
  · have := splitAtChar_length h
    simp only [List.length_cons]
    omega
  · cases h

/-! Progress. -/

namespace MdState

variable {s s' : MdState} {c : Char} {chars rest : List Char}

/-- A reader takes a character at least. -/
def Takes (read : List Char → Option (MdState × List Char)) : Prop :=
  ∀ c chars s' rest, read (c :: chars) = some (s', rest) → rest.length ≤ chars.length

theorem readEscape_takes (s : MdState) : Takes s.readEscape := by
  intro c chars s' rest h
  unfold readEscape at h
  split at h
  · next heq =>
    split at h
    · obtain ⟨-, rfl⟩ := Prod.mk.inj (Option.some.inj h)
      rw [(List.cons.inj heq).2]
      simp
    · cases h
  · cases h

theorem readCodeBlock_takes (s : MdState) : Takes s.readCodeBlock := by
  intro c chars s' rest h
  unfold readCodeBlock at h
  split at h
  · next heq =>
    obtain ⟨r, hr, h⟩ := Option.map_eq_some_iff.mp h
    obtain ⟨-, rfl⟩ := Prod.mk.inj h
    have := splitFence_length hr
    rw [(List.cons.inj heq).2]
    simp only [List.length_cons]
    omega
  · cases h

theorem readInlineCode_takes (s : MdState) : Takes s.readInlineCode := by
  intro c chars s' rest h
  unfold readInlineCode at h
  split at h
  · next heq =>
    obtain ⟨r, hr, h⟩ := Option.map_eq_some_iff.mp h
    obtain ⟨-, rfl⟩ := Prod.mk.inj h
    have := splitAtChar_length hr
    rw [(List.cons.inj heq).2]
    omega
  · cases h

theorem readEmoji_takes (s : MdState) : Takes s.readEmoji := by
  intro c chars s' rest h
  unfold readEmoji at h
  split at h
  · next heq =>
    obtain ⟨r, hr, h⟩ := Option.map_eq_some_iff.mp h
    obtain ⟨-, rfl⟩ := Prod.mk.inj h
    simp only [parseEmojiLink, Option.bind_eq_bind] at hr
    obtain ⟨label, hlabel, hr⟩ := Option.bind_eq_some_iff.mp hr
    obtain ⟨url, hurl, hr⟩ := Option.bind_eq_some_iff.mp hr
    obtain ⟨docId, -, hr⟩ := Option.bind_eq_some_iff.mp hr
    obtain rfl := Option.some.inj hr
    have h1 := splitAtChar_length hlabel
    have h2 := splitTarget_length hurl
    rw [(List.cons.inj heq).2]
    simp only [List.length_cons]
    omega
  · cases h

theorem readLink_takes (s : MdState) : Takes s.readLink := by
  intro c chars s' rest h
  unfold readLink at h
  split at h
  · next heq =>
    obtain ⟨r, hr, h⟩ := Option.map_eq_some_iff.mp h
    obtain ⟨-, rfl⟩ := Prod.mk.inj h
    simp only [parseLinkEntity, Option.bind_eq_bind] at hr
    obtain ⟨label, hlabel, hr⟩ := Option.bind_eq_some_iff.mp hr
    obtain ⟨url, hurl, hr⟩ := Option.bind_eq_some_iff.mp hr
    obtain rfl := Option.some.inj hr
    have h1 := splitLabel_length hlabel
    have h2 := splitTarget_length hurl
    rw [(List.cons.inj heq).2]
    dsimp only
    omega
  · cases h

theorem readTwoCharTag_takes (s : MdState) : Takes s.readTwoCharTag := by
  intro c chars s' rest h
  unfold readTwoCharTag at h
  split at h <;> first
    | next heq =>
      obtain ⟨-, rfl⟩ := Prod.mk.inj (Option.some.inj h)
      simp [(List.cons.inj heq).2]
    | cases h

theorem readOneCharTag_takes (s : MdState) : Takes s.readOneCharTag := by
  intro c chars s' rest h
  unfold readOneCharTag at h
  split at h <;> first
    | next heq =>
      obtain ⟨-, rfl⟩ := Prod.mk.inj (Option.some.inj h)
      simp [(List.cons.inj heq).2]
    | cases h

theorem Takes.orElse {f g : List Char → Option (MdState × List Char)} (hf : Takes f) (hg : Takes g) :
    Takes fun chars => f chars <|> g chars := by
  intro c chars s' rest h
  cases hfc : f (c :: chars) with
  | none => exact hg c chars s' rest (by simpa [hfc] using h)
  | some r => exact hf c chars s' rest (by simpa [hfc] using h)

theorem readInline_progress (s : MdState) (c : Char) (chars : List Char) :
    (s.readInline (c :: chars)).2.length ≤ chars.length := by
  have htakes := (readEscape_takes s).orElse ((readCodeBlock_takes s).orElse ((readInlineCode_takes s).orElse
    ((readEmoji_takes s).orElse ((readLink_takes s).orElse
      ((readTwoCharTag_takes s).orElse (readOneCharTag_takes s))))))
  unfold readInline
  generalize hr : (s.readEscape (c :: chars) <|> _) = r
  cases r with
  | none => simp [readPlain]
  | some r => exact htakes c chars r.1 r.2 hr

theorem skipSpace_length (rest : List Char) : (skipSpace rest).length ≤ rest.length := by
  unfold skipSpace
  split <;> simp

theorem quoteMark_length {collapsed : Bool} (h : quoteMark (c :: chars) = some (collapsed, rest)) :
    rest.length ≤ chars.length := by
  unfold quoteMark at h
  split at h
  · next heq =>
    obtain ⟨-, rfl⟩ := Prod.mk.inj (Option.some.inj h)
    rw [(List.cons.inj heq).2]
    simp only [List.length_cons]
    omega
  · next heq =>
    obtain ⟨-, rfl⟩ := Prod.mk.inj (Option.some.inj h)
    rw [(List.cons.inj heq).2]
  · cases h

/-- Every round takes a character. -/
theorem step_progress (s : MdState) (c : Char) (chars : List Char) :
    (s.step (c :: chars)).2.length ≤ chars.length := by
  unfold step
  cases hline : s.atLineStart
  · exact readInline_progress _ c chars
  · cases hmark : quoteMark (c :: chars) with
    | none => simpa [hmark] using readInline_progress s.leaveLineStart c chars
    | some m =>
      obtain ⟨collapsed, rest⟩ := m
      have h1 := quoteMark_length hmark
      have h2 := skipSpace_length rest
      simp only [if_true]
      omega

theorem loop_fuel : ∀ (m n : Nat) (s : MdState) (chars : List Char), chars.length ≤ m → chars.length ≤ n →
    loop m s chars = loop n s chars
  | _, _, _, [], _, _ => by simp [loop]
  | 0, _, _, _ :: _, hm, _ => by simp at hm
  | _, 0, _, _ :: _, _, hn => by simp at hn
  | m + 1, n + 1, s, c :: chars, hm, hn => by
    simp only [List.length_cons] at hm hn
    have := step_progress s c chars
    simp only [loop]
    exact loop_fuel m n _ _ (by omega) (by omega)

/-- The whole run over what is left. -/
def run (s : MdState) (chars : List Char) : MdState := loop chars.length s chars

@[simp] theorem run_nil (s : MdState) : s.run [] = s := by
  simp [run, loop]

theorem run_cons (s : MdState) (c : Char) (chars : List Char) :
    s.run (c :: chars) = (s.step (c :: chars)).1.run (s.step (c :: chars)).2 := by
  have := step_progress s c chars
  unfold run
  simp only [List.length_cons, loop]
  exact loop_fuel _ _ _ _ this le_rfl

/-! A character of the text. -/

@[simp] theorem leaveLineStart_atLineStart (s : MdState) : s.leaveLineStart.atLineStart = false := by
  unfold leaveLineStart
  split
  · rfl
  · next h => simpa using h

theorem step_of_no_mark (s : MdState) (h : quoteMark chars = none) : s.step chars = s.leaveLineStart.readInline chars := by
  unfold step
  cases s.atLineStart <;> simp [h]

theorem readEscape_of_ne (h : c ≠ '\\') : s.readEscape (c :: rest) = none := by
  unfold readEscape
  split
  · next heq => exact absurd (List.cons.inj heq).1 h
  · rfl

theorem readCodeBlock_of_ne (h : c ≠ '`') : s.readCodeBlock (c :: rest) = none := by
  unfold readCodeBlock
  split
  · next heq => exact absurd (List.cons.inj heq).1 h
  · rfl

theorem readInlineCode_of_ne (h : c ≠ '`') : s.readInlineCode (c :: rest) = none := by
  unfold readInlineCode
  split
  · next heq => exact absurd (List.cons.inj heq).1 h
  · rfl

theorem readEmoji_of_ne (h : c ≠ '!') : s.readEmoji (c :: rest) = none := by
  unfold readEmoji
  split
  · next heq => exact absurd (List.cons.inj heq).1 h
  · rfl

theorem readLink_of_ne (h : c ≠ '[') : s.readLink (c :: rest) = none := by
  unfold readLink
  split
  · next heq => exact absurd (List.cons.inj heq).1 h
  · rfl

/-- A character that starts nothing else is left to the style delimiters. -/
theorem readInline_of_ne (h1 : c ≠ '\\') (h2 : c ≠ '`') (h3 : c ≠ '!') (h4 : c ≠ '[') :
    s.readInline (c :: rest) =
      (s.readTwoCharTag (c :: rest) <|> s.readOneCharTag (c :: rest)).getD (s.readPlain (c :: rest)) := by
  unfold readInline
  rw [readEscape_of_ne h1, readCodeBlock_of_ne h2, readInlineCode_of_ne h2, readEmoji_of_ne h3, readLink_of_ne h4]
  simp

theorem quoteMark_of_ne (h1 : c ≠ '*') (h2 : c ≠ '>') : quoteMark (c :: rest) = none := by
  unfold quoteMark
  split
  · next heq => exact absurd (List.cons.inj heq).1 h1
  · next heq => exact absurd (List.cons.inj heq).1 h2
  · rfl

theorem readTwoCharTag_of_ne (h1 : c ≠ '*') (h2 : c ≠ '_') (h3 : c ≠ '|') : s.readTwoCharTag (c :: rest) = none := by
  unfold readTwoCharTag
  split
  · next heq => exact absurd (List.cons.inj heq).1 h1
  · next heq => exact absurd (List.cons.inj heq).1 h2
  · next heq => exact absurd (List.cons.inj heq).1 h3
  · rfl

theorem readOneCharTag_of_ne (h1 : c ≠ '*') (h2 : c ≠ '_') (h3 : c ≠ '~') : s.readOneCharTag (c :: rest) = none := by
  unfold readOneCharTag
  split
  · next heq => exact absurd (List.cons.inj heq).1 h1
  · next heq => exact absurd (List.cons.inj heq).1 h2
  · next heq => exact absurd (List.cons.inj heq).1 h3
  · rfl

/-- A character that needs no escape is none of those that mean something. -/
theorem ne_of_not_escapable {d : Char} (h : isV2Escapable c = false) (hd : isV2Escapable d = true) : c ≠ d := by
  rintro rfl
  rw [h] at hd
  cases hd

/-- A character of the text taken as it is. -/
def takeChar (s : MdState) (c : Char) : MdState := { s.leaveLineStart.pushChar c with atLineStart := c = '\n' }

theorem run_escape (s : MdState) (rest : List Char) (h : isV2Escapable c = true) :
    s.run ('\\' :: c :: rest) = (s.takeChar c).run rest := by
  have hne : c ≠ '\n' := by rintro rfl; exact absurd h (by decide)
  have htake : s.leaveLineStart.pushChar c = s.takeChar c := by
    have hline : (s.leaveLineStart.pushChar c).atLineStart = false := leaveLineStart_atLineStart s
    simp only [takeChar, hne, decide_false, ← hline]
  rw [run_cons, step_of_no_mark s (quoteMark_of_ne (by decide) (by decide))]
  simp [readInline, readEscape, h, htake]

theorem run_plain (s : MdState) (rest : List Char) (h : isV2Escapable c = false) :
    s.run (c :: rest) = (s.takeChar c).run rest := by
  have hne : ∀ d, isV2Escapable d = true → c ≠ d := fun d hd => ne_of_not_escapable h hd
  rw [run_cons, step_of_no_mark s (quoteMark_of_ne (hne _ (by decide)) (hne _ (by decide))),
    readInline_of_ne (hne _ (by decide)) (hne _ (by decide)) (hne _ (by decide)) (hne _ (by decide)),
    readTwoCharTag_of_ne (hne _ (by decide)) (hne _ (by decide)) (hne _ (by decide)),
    readOneCharTag_of_ne (hne _ (by decide)) (hne _ (by decide)) (hne _ (by decide))]
  rfl

/-- A character of the text as it is written outside verbatim ranges. -/
def written (c : Char) : List Char := if isV2Escapable c then ['\\', c] else [c]

theorem run_written (s : MdState) (c : Char) (rest : List Char) :
    s.run (written c ++ rest) = (s.takeChar c).run rest := by
  unfold written
  cases h : isV2Escapable c
  · exact run_plain s rest h
  · exact run_escape s rest h

/-- Outside quotes and verbatim ranges a character is written so. -/
theorem body_eq_written {ents : List MessageEntity} {w : MdWriter}
    (hquote : w.atLineStart = true → quoteAt ents w.utf16Pos = none)
    (hverbatim : inVerbatim ents w.utf16Pos = false) : w.body ents c = written c := by
  cases hline : w.atLineStart
  · simp [MdWriter.body, hline, hverbatim, written]
  · simp [MdWriter.body, hline, hquote hline, quotePrefix, hverbatim, written]

theorem quoteAt_eq_none {ents : List MessageEntity} {pos : Int32} (h : ∀ e ∈ ents, e.kind.quote? = none) :
    quoteAt ents pos = none := by
  unfold quoteAt
  rw [List.find?_eq_none.mpr]
  · rfl
  · intro e he
    simp [h e he]

theorem inVerbatim_eq_false {ents : List MessageEntity} {pos : Int32} (h : ∀ e ∈ ents, e.kind.isVerbatim = false) :
    inVerbatim ents pos = false := by
  apply List.any_eq_false.mpr
  intro e he
  simp [h e he]

end MdState

end Ferogram.Parsers
