import Ferogram.Parsers.HtmlRead
import Ferogram.Parsers.MarkdownSingle
import Ferogram.Parsers.MarkdownStyles
import Ferogram.Parsers.MarkdownV1

/- Where the entities of a parsed message lie. All three parsers keep a text, the
   entities so far, the offsets of what is open, and a counter of UTF-16 units;
   `Tracks` is what holds of these after every round: the counter stands at the
   end of the text, every open offset at an earlier end, and every entity covers a
   piece of the text, which is empty only where markup that encloses no text was
   to be read when the counter stood there. The counter is an `i32` and wraps; nothing of this
   depends on it until offsets are read as numbers, so what is proved for texts
   below 2^31 units (`parsed_entities_inside`) fails above
   (`entity_offset_negative`). -/
namespace Ferogram.Parsers
open TagStack

/-- A position that does not cut a character in two. -/
def OnBoundary (text : List Char) (n : Int) : Prop := ∃ pre post, text = pre ++ post ∧ n = utf16Len pre

/-- In range and on character boundaries; the length may be 0. -/
structure MessageEntity.Inside (e : MessageEntity) (text : List Char) : Prop where
  offset_nonneg : 0 ≤ e.offset.toInt
  stop_le : e.offset.toInt + e.length.toInt ≤ utf16Len text
  starts : OnBoundary text e.offset.toInt
  stops : OnBoundary text (e.offset.toInt + e.length.toInt)

/-- What a parser comes to in the source: its state, and what it still has to read. -/
inductive Visits {σ : Type} (step : σ → List Char → σ × List Char) (init : σ) (src : List Char) : σ → List Char → Prop
  | start : Visits step init src init src
  | next {s : σ} {c : Char} {chars : List Char} (h : Visits step init src s (c :: chars)) :
    Visits step init src (step s (c :: chars)).1 (step s (c :: chars)).2

/-- When the parser stands where the entity begins, markup of its kind that encloses no text is to be read. -/
def EmptyAt {σ : Type} (step : σ → List Char → σ × List Char) (init : σ) (off : σ → Int32) (src : List Char)
    (e : MessageEntity) : Prop :=
  ∃ s markup after, Visits step init src s (markup ++ after) ∧ EmptyMarkup e.kind markup ∧ e.offset = off s

/-- The empty entities are those of `E`. -/
structure Tracks (E : MessageEntity → Prop) (out : List Char) (ents : List MessageEntity) (opens : List Int32) (off : Int32) : Prop where
  off_eq : off = Int32.ofNat (utf16Len out)
  opens_at : ∀ start ∈ opens, ∃ pre, pre <+: out ∧ start = Int32.ofNat (utf16Len pre)
  ents_in : ∀ e ∈ ents, ∃ pre mid post, out = pre ++ (mid ++ post) ∧ e.offset = Int32.ofNat (utf16Len pre) ∧
    e.length = Int32.ofNat (utf16Len mid) ∧ (mid = [] → E e)

namespace Tracks
variable {E : MessageEntity → Prop} {out : List Char} {ents : List MessageEntity} {opens : List Int32} {off : Int32}

theorem init (E : MessageEntity → Prop) : Tracks E [] [] [] 0 where
  off_eq := rfl
  opens_at := fun _ h => absurd h List.not_mem_nil
  ents_in := fun _ h => absurd h List.not_mem_nil

variable (h : Tracks E out ents opens off)
include h

theorem push (text : List Char) : Tracks E (out ++ text) ents opens (off + Int32.ofNat (utf16Len text)) where
  off_eq := by rw [h.off_eq, utf16Len_append, Int32.ofNat_add]
  opens_at := by
    intro start hstart
    obtain ⟨pre, hpre, hat⟩ := h.opens_at start hstart
    exact ⟨pre, hpre.trans (List.prefix_append out text), hat⟩
  ents_in := by
    intro e he
    obtain ⟨pre, mid, post, hout, hrest⟩ := h.ents_in e he
    exact ⟨pre, mid, post ++ text, by rw [hout]; simp, hrest⟩

theorem mono {opens' : List Int32} (hsub : ∀ start ∈ opens', start ∈ opens) : Tracks E out ents opens' off :=
  ⟨h.off_eq, fun start hstart => h.opens_at start (hsub start hstart), h.ents_in⟩

/-- Something is opened here. -/
theorem opened {opens' : List Int32} (hsub : ∀ start ∈ opens', start = off ∨ start ∈ opens) :
    Tracks E out ents opens' off where
  off_eq := h.off_eq
  opens_at := by
    intro start hstart
    rcases hsub start hstart with rfl | hstart
    · exact ⟨out, List.prefix_rfl, h.off_eq⟩
    · exact h.opens_at start hstart
  ents_in := h.ents_in

/-- What was open becomes an entity, if it holds anything. -/
theorem closed {start : Int32} (hstart : start ∈ opens) (hpos : 0 < off - start) (kind : EntityKind) :
    Tracks E out (ents ++ [⟨start, off - start, kind⟩]) opens off where
  off_eq := h.off_eq
  opens_at := h.opens_at
  ents_in := by
    intro e he
    rcases List.mem_append.mp he with he | he
    · exact h.ents_in e he
    · obtain rfl := List.mem_singleton.mp he
      obtain ⟨pre, ⟨mid, hout⟩, hat⟩ := h.opens_at start hstart
      have hlen : off - start = Int32.ofNat (utf16Len mid) := by
        rw [h.off_eq, hat, ← hout, utf16Len_append, Int32.ofNat_add, Int32.add_comm, Int32.add_sub_cancel]
      refine ⟨pre, mid, [], by rw [List.append_nil, hout], hat, hlen, ?_⟩
      rintro rfl
      rw [hlen] at hpos
      exact absurd hpos (by decide)

/-- A text that is an entity as a whole. -/
theorem span (text : List Char) {kind : EntityKind} (hempty : text = [] → E ⟨off, Int32.ofNat (utf16Len text), kind⟩) :
    Tracks E (out ++ text) (ents ++ [⟨off, Int32.ofNat (utf16Len text), kind⟩]) opens
      (off + Int32.ofNat (utf16Len text)) where
  off_eq := (h.push text).off_eq
  opens_at := (h.push text).opens_at
  ents_in := by
    intro e he
    rcases List.mem_append.mp he with he | he
    · exact (h.push text).ents_in e he
    · obtain rfl := List.mem_singleton.mp he
      exact ⟨out, text, [], by rw [List.append_nil], h.off_eq, rfl, hempty⟩

/-- In a text whose length is an `i32`. -/
theorem inside (hfits : utf16Len out < 2 ^ 31) {e : MessageEntity} (he : e ∈ ents) :
    e.Inside out ∧ (0 < e.length ∨ (e.length = 0 ∧ E e)) := by
  obtain ⟨pre, mid, post, hout, hoff, hlen, hempty⟩ := h.ents_in e he
  have htotal : utf16Len out = utf16Len pre + (utf16Len mid + utf16Len post) := by
    rw [hout, utf16Len_append, utf16Len_append]
  have hoff' : e.offset.toInt = utf16Len pre := by rw [hoff, toInt_ofNat_of_fits (by omega)]
  have hlen' : e.length.toInt = utf16Len mid := by rw [hlen, toInt_ofNat_of_fits (by omega)]
  refine ⟨⟨by omega, by omega, ⟨pre, mid ++ post, hout, hoff'⟩, ⟨pre ++ mid, post, ?_, ?_⟩⟩, ?_⟩
  · rw [hout, List.append_assoc]
  · rw [hoff', hlen', utf16Len_append]
    omega
  · by_cases hmid : mid = []
    · refine Or.inr ⟨?_, hempty hmid⟩
      rw [hlen, hmid]
      rfl
    · have hpos := utf16Len_pos hmid
      refine Or.inl (Int32.lt_iff_toInt_lt.mpr ?_)
      rw [hlen', Int32.toInt_zero]
      omega

end Tracks

/-- Empty markup that is to be read here makes an entity of `E`. -/
def Excused (E : MessageEntity → Prop) (off : Int32) (chars : List Char) : Prop :=
  ∀ length kind markup after, chars = markup ++ after → EmptyMarkup kind markup → E ⟨off, length, kind⟩

theorem Visits.excused {σ : Type} {step : σ → List Char → σ × List Char} {init s : σ} {src chars : List Char}
    (h : Visits step init src s chars) (off : σ → Int32) : Excused (EmptyAt step init off src) (off s) chars := by
  rintro length kind markup after rfl hempty
  exact ⟨s, markup, after, h, hempty, rfl⟩

/-- What a reader makes of the state, if it reads anything, has the property. -/
def Keeps {σ : Type} (T : σ → Prop) (E : MessageEntity → Prop) (off : Int32) (read : List Char → Option (σ × List Char)) : Prop :=
  ∀ chars s' rest, Excused E off chars → read chars = some (s', rest) → T s'

section Readers
variable {σ : Type} {T : σ → Prop} {E : MessageEntity → Prop} {off : Int32}

theorem Keeps.orElse {f g : List Char → Option (σ × List Char)} (hf : Keeps T E off f) (hg : Keeps T E off g) :
    Keeps T E off fun chars => f chars <|> g chars := by
  intro chars s' rest hexcused h
  rcases some_of_orElse h with h | h
  · exact hf chars s' rest hexcused h
  · exact hg chars s' rest hexcused h

theorem Keeps.span {read : List Char → Option (σ × List Char)} {span : List Char → Option (List Char × EntityKind × List Char)}
    {push : List Char → EntityKind → σ}
    (hpush : ∀ text kind, (text = [] → E ⟨off, Int32.ofNat (utf16Len text), kind⟩) → T (push text kind))
    (hspan : TakesSpan span) (hread : ∀ chars, read chars = (span chars).map fun r => (push r.1 r.2.1, r.2.2)) : Keeps T E off read := by
  intro chars s' rest hexcused hr
  rw [hread] at hr
  obtain ⟨⟨text, kind, after⟩, hs, heq⟩ := Option.map_eq_some_iff.mp hr
  obtain ⟨rfl, rfl⟩ := Prod.mk.inj heq
  obtain ⟨markup, rfl, hempty⟩ := hspan _ _ _ _ hs
  exact hpush text kind fun hnone => hexcused _ kind markup _ rfl (hempty hnone)

end Readers

/-! Markdown V1. -/

namespace MdV1State
variable {E : MessageEntity → Prop} {chars : List Char} {s : MdV1State}

def Tracked (E : MessageEntity → Prop) (s : MdV1State) : Prop :=
  Tracks E s.out s.ents (s.openStack.map Prod.snd) s.utf16Off

theorem Tracked.toggleTagV1 (h : s.Tracked E) (tag : MarkdownTagV1) : (s.toggleTagV1 tag).Tracked E := by
  unfold MdV1State.toggleTagV1
  cases hr : removeLast (fun t => t.1 = tag) s.openStack with
  | none =>
    refine Tracks.opened h fun start hstart => ?_
    rw [List.map_append, List.mem_append] at hstart
    rcases hstart with hstart | hstart
    · exact Or.inr hstart
    · exact Or.inl (List.mem_singleton.mp hstart)
  | some r =>
    obtain ⟨⟨tag', startOff⟩, stack⟩ := r
    obtain ⟨hmem, hsub⟩ := mem_map_of_removeLast Prod.snd hr
    simp only
    split
    · next hpos => exact Tracks.mono (Tracks.closed h hmem hpos tag.kind) hsub
    · exact Tracks.mono h hsub

theorem Tracked.pushSpan (h : s.Tracked E) {text : List Char} {kind : EntityKind}
    (hempty : text = [] → E ⟨s.utf16Off, Int32.ofNat (utf16Len text), kind⟩) : (s.pushSpan text kind).Tracked E :=
  Tracks.span h text hempty

theorem readEscape_keeps (h : s.Tracked E) : Keeps (Tracked E) E s.utf16Off s.readEscape := by
  intro chars s' rest _ hread
  unfold readEscape at hread
  split at hread
  · next c after heq =>
    split at hread
    · obtain ⟨rfl, rfl⟩ := Prod.mk.inj (Option.some.inj hread)
      exact Tracks.push h [c]
    · cases hread
  · cases hread

theorem readSpan_keeps (h : s.Tracked E) : Keeps (Tracked E) E s.utf16Off s.readSpan :=
  @Keeps.span _ _ _ _ _ _ s.pushSpan (fun _ _ => h.pushSpan) readSpan_takes fun _ => rfl

theorem readTwoCharTag_keeps (h : s.Tracked E) : Keeps (Tracked E) E s.utf16Off s.readTwoCharTag := by
  intro chars s' rest _ hread
  unfold readTwoCharTag at hread
  split at hread <;> first
    | obtain ⟨rfl, rfl⟩ := Prod.mk.inj (Option.some.inj hread)
      exact h.toggleTagV1 _
    | cases hread

theorem readOneCharTag_keeps (h : s.Tracked E) : Keeps (Tracked E) E s.utf16Off s.readOneCharTag := by
  intro chars s' rest _ hread
  unfold readOneCharTag at hread
  split at hread <;> first
    | obtain ⟨rfl, rfl⟩ := Prod.mk.inj (Option.some.inj hread)
      exact h.toggleTagV1 _
    | cases hread

theorem Tracked.step (h : s.Tracked E) {c : Char} (hexcused : Excused E s.utf16Off (c :: chars)) :
    (s.step (c :: chars)).1.Tracked E := by
  have hkeeps := (readEscape_keeps h).orElse ((readSpan_keeps h).orElse
    ((readTwoCharTag_keeps h).orElse (readOneCharTag_keeps h)))
  unfold MdV1State.step
  generalize hr : (s.readEscape (c :: chars) <|> _) = r
  cases r with
  | none => exact Tracks.push h [c]
  | some r => exact hkeeps _ r.1 r.2 hexcused hr

/-- Markup that encloses no text is to be read where the entity begins. -/
abbrev EmptyAt (src : List Char) : MessageEntity → Prop := Parsers.EmptyAt MdV1State.step .init MdV1State.utf16Off src

theorem Tracked.loop {src : List Char} : ∀ (fuel : Nat) (chars : List Char) (s : MdV1State), s.Tracked (EmptyAt src) →
    Visits MdV1State.step .init src s chars → (MdV1State.loop fuel s chars).Tracked (EmptyAt src)
  | _, [], _, h, _ => by simpa [MdV1State.loop] using h
  | 0, _ :: _, _, h, _ => h
  | fuel + 1, _ :: _, _, h, hvisits => Tracked.loop fuel _ _ (h.step (hvisits.excused MdV1State.utf16Off)) hvisits.next

end MdV1State

theorem tracked_parseMarkdownV1 (text : List Char) :
    ∃ opens off, Tracks (MdV1State.EmptyAt text) (parseMarkdownV1 text).1 (parseMarkdownV1 text).2 opens off :=
  ⟨_, _, MdV1State.Tracked.loop text.length text .init (Tracks.init _) .start⟩

/-! Markdown V2. -/

namespace MdState
variable {E : MessageEntity → Prop} {chars : List Char} {s : MdState}

def Tracked (E : MessageEntity → Prop) (s : MdState) : Prop :=
  Tracks E s.out s.ents (s.openStack.map Prod.snd ++ s.bqStartOff.toList) s.utf16Off

theorem Tracked.pushChar (h : s.Tracked E) (c : Char) : (s.pushChar c).Tracked E := by
  have hpush := Tracks.push h [c]
  rwa [utf16Len_cons, utf16Len_nil, Nat.add_zero] at hpush

theorem Tracked.toggleTagV2 (h : s.Tracked E) (tag : MarkdownTagV2) : (s.toggleTagV2 tag).Tracked E := by
  unfold MdState.toggleTagV2
  cases hr : removeLast (fun t => t.1 = tag) s.openStack with
  | none =>
    refine Tracks.opened h fun start hstart => ?_
    simp only [List.map_append, List.map_cons, List.map_nil, List.mem_append, List.mem_singleton] at hstart ⊢
    tauto
  | some r =>
    obtain ⟨⟨tag', startOff⟩, stack⟩ := r
    obtain ⟨hopen, hstarts⟩ := mem_map_of_removeLast Prod.snd hr
    have hmem : startOff ∈ s.openStack.map Prod.snd ++ s.bqStartOff.toList := List.mem_append_left _ hopen
    have hsub : ∀ start ∈ stack.map Prod.snd ++ s.bqStartOff.toList,
        start ∈ s.openStack.map Prod.snd ++ s.bqStartOff.toList := by
      intro start hstart
      exact List.mem_append.mpr ((List.mem_append.mp hstart).imp_left (hstarts start))
    simp only
    split
    · next hpos => exact Tracks.mono (Tracks.closed h hmem hpos tag.kind) hsub
    · exact Tracks.mono h hsub

theorem Tracked.closeQuote (h : s.Tracked E) : s.closeQuote.Tracked E := by
  unfold MdState.closeQuote
  cases hq : s.bqStartOff with
  | none => exact h
  | some startOff =>
    have hmem : startOff ∈ s.openStack.map Prod.snd ++ s.bqStartOff.toList := by simp [hq]
    have hsub : ∀ start ∈ s.openStack.map Prod.snd ++ (none : Option Int32).toList,
        start ∈ s.openStack.map Prod.snd ++ s.bqStartOff.toList := by
      intro start hstart
      rw [Option.toList_none, List.append_nil] at hstart
      exact List.mem_append_left _ hstart
    simp only
    split
    · next hpos => exact Tracks.mono (Tracks.closed h hmem hpos (.blockquote s.bqCollapsed)) hsub
    · exact Tracks.mono h hsub

theorem closeQuote_utf16Off (s : MdState) : s.closeQuote.utf16Off = s.utf16Off := by
  unfold MdState.closeQuote
  cases s.bqStartOff with
  | none => rfl
  | some startOff =>
    simp only
    split <;> rfl

theorem Tracked.openQuote (h : s.Tracked E) (collapsed : Bool) : (s.openQuote collapsed).Tracked E := by
  unfold MdState.openQuote
  split
  · refine Tracks.opened h.closeQuote fun start hstart => ?_
    simp only [List.mem_append, Option.toList_some, List.mem_singleton] at hstart
    rcases hstart with hstart | rfl
    · exact Or.inr (List.mem_append_left _ hstart)
    · exact Or.inl s.closeQuote_utf16Off.symm
  · exact h

theorem Tracked.leaveLineStart (h : s.Tracked E) : s.leaveLineStart.Tracked E := by
  unfold MdState.leaveLineStart
  split
  · exact h.closeQuote
  · exact h

theorem leaveLineStart_utf16Off (s : MdState) : s.leaveLineStart.utf16Off = s.utf16Off := by
  unfold MdState.leaveLineStart
  split
  · exact s.closeQuote_utf16Off
  · rfl

/-- Code is pushed behind its entity, a label before it. -/
theorem pushCode_eq (s : MdState) (code : List Char) (kind : EntityKind) :
    (s.pushEnt ⟨s.utf16Off, Int32.ofNat (utf16Len code), kind⟩).pushStr code = s.pushSpan code kind := by
  have hlen : ∀ a b : Int32, a + b - a = b := by
    intro a b
    rw [Int32.add_comm, Int32.add_sub_cancel]
  simp [MdState.pushSpan, pushStr_eq, pushEnt, hlen]

theorem Tracked.pushSpan (h : s.Tracked E) {text : List Char} {kind : EntityKind}
    (hempty : text = [] → E ⟨s.utf16Off, Int32.ofNat (utf16Len text), kind⟩) : (s.pushSpan text kind).Tracked E := by
  rw [← pushCode_eq, pushStr_eq]
  exact Tracks.span h text hempty

theorem readEscape_keeps (h : s.Tracked E) : Keeps (Tracked E) E s.utf16Off s.readEscape := by
  intro chars s' rest _ hread
  unfold readEscape at hread
  split at hread
  · next c after heq =>
    split at hread
    · obtain ⟨rfl, rfl⟩ := Prod.mk.inj (Option.some.inj hread)
      exact h.pushChar c
    · cases hread
  · cases hread

/-- The spans of V2 are those of V1. -/
theorem span_keeps (h : s.Tracked E) {read : List Char → Option (MdState × List Char)}
    {span : List Char → Option (List Char × EntityKind × List Char)}
    (hspan : TakesSpan span) (hread : ∀ chars, read chars = (span chars).map fun r => (s.pushSpan r.1 r.2.1, r.2.2)) :
    Keeps (Tracked E) E s.utf16Off read :=
  .span (fun _ _ => h.pushSpan) hspan hread

theorem readCodeBlock_eq (s : MdState) (chars : List Char) :
    s.readCodeBlock chars = (readFenced chars).map fun r => (s.pushSpan r.1 r.2.1, r.2.2) := by
  unfold readCodeBlock
  split
  · show Option.map _ _ = Option.map _ (Option.map _ _)
    rw [Option.map_map]
    congr 1
    funext r
    exact congrArg (·, r.2) (pushCode_eq s _ _)
  · next hno =>
    have hnone : readFenced chars = none := by
      unfold readFenced
      split
      · exact absurd rfl (hno _)
      · rfl
    rw [hnone]
    rfl

theorem readInlineCode_eq (s : MdState) (chars : List Char) :
    s.readInlineCode chars = (readBackticked chars).map fun r => (s.pushSpan r.1 r.2.1, r.2.2) := by
  unfold readInlineCode
  split
  · show Option.map _ _ = Option.map _ (Option.map _ _)
    rw [Option.map_map]
    congr 1
    funext r
    exact congrArg (·, r.2) (pushCode_eq s _ _)
  · next hno =>
    have hnone : readBackticked chars = none := by
      unfold readBackticked
      split
      · exact absurd rfl (hno _)
      · rfl
    rw [hnone]
    rfl

theorem readEmoji_eq (s : MdState) (chars : List Char) :
    s.readEmoji chars = (readEmojiSpan chars).map fun r => (s.pushSpan r.1 r.2.1, r.2.2) := by
  unfold readEmoji
  split
  · show Option.map _ _ = Option.map _ (Option.map _ _)
    rw [Option.map_map]
    rfl
  · next hno =>
    have hnone : readEmojiSpan chars = none := by
      unfold readEmojiSpan
      split
      · exact absurd rfl (hno _)
      · rfl
    rw [hnone]
    rfl

theorem readLink_eq (s : MdState) (chars : List Char) :
    s.readLink chars = (readLinkSpan chars).map fun r => (s.pushSpan r.1 r.2.1, r.2.2) := by
  unfold readLink
  split
  · rfl
  · next hno =>
    have hnone : readLinkSpan chars = none := by
      unfold readLinkSpan
      split
      · exact absurd rfl (hno _)
      · rfl
    rw [hnone]
    rfl

theorem readTwoCharTag_keeps (h : s.Tracked E) : Keeps (Tracked E) E s.utf16Off s.readTwoCharTag := by
  intro chars s' rest _ hread
  unfold readTwoCharTag at hread
  split at hread <;> first
    | obtain ⟨rfl, rfl⟩ := Prod.mk.inj (Option.some.inj hread)
      exact h.toggleTagV2 _
    | cases hread

theorem readOneCharTag_keeps (h : s.Tracked E) : Keeps (Tracked E) E s.utf16Off s.readOneCharTag := by
  intro chars s' rest _ hread
  unfold readOneCharTag at hread
  split at hread <;> first
    | obtain ⟨rfl, rfl⟩ := Prod.mk.inj (Option.some.inj hread)
      exact h.toggleTagV2 _
    | cases hread

theorem Tracked.readInline (h : s.Tracked E) {c : Char} (hexcused : Excused E s.utf16Off (c :: chars)) :
    (s.readInline (c :: chars)).1.Tracked E := by
  have hkeeps := (readEscape_keeps h).orElse ((span_keeps h readFenced_takes (readCodeBlock_eq s)).orElse
    ((span_keeps h readBackticked_takes (readInlineCode_eq s)).orElse
      ((span_keeps h readEmojiSpan_takes (readEmoji_eq s)).orElse
        ((span_keeps h readLinkSpan_takes (readLink_eq s)).orElse
          ((readTwoCharTag_keeps h).orElse (readOneCharTag_keeps h))))))
  unfold MdState.readInline
  generalize hr : (s.readEscape (c :: chars) <|> _) = r
  cases r with
  | none => exact h.pushChar c
  | some r => exact hkeeps _ r.1 r.2 hexcused hr

theorem Tracked.step (h : s.Tracked E) {c : Char} (hexcused : Excused E s.utf16Off (c :: chars)) :
    (s.step (c :: chars)).1.Tracked E := by
  unfold MdState.step
  split
  · next collapsed rest hmark => exact h.openQuote collapsed
  · exact h.leaveLineStart.readInline (s.leaveLineStart_utf16Off ▸ hexcused)

/-- Markup that encloses no text is to be read where the entity begins. -/
abbrev EmptyAt (src : List Char) : MessageEntity → Prop := Parsers.EmptyAt MdState.step .init MdState.utf16Off src

theorem Tracked.loop {src : List Char} : ∀ (fuel : Nat) (chars : List Char) (s : MdState), s.Tracked (EmptyAt src) →
    Visits MdState.step .init src s chars → (MdState.loop fuel s chars).Tracked (EmptyAt src)
  | _, [], _, h, _ => by simpa [MdState.loop] using h
  | 0, _ :: _, _, h, _ => h
  | fuel + 1, _ :: _, _, h, hvisits => Tracked.loop fuel _ _ (h.step (hvisits.excused MdState.utf16Off)) hvisits.next

end MdState

theorem tracked_parseMarkdownV2 (text : List Char) :
    ∃ opens off, Tracks (MdState.EmptyAt text) (parseMarkdownV2 text).1 (parseMarkdownV2 text).2 opens off :=
  ⟨_, _, (MdState.Tracked.loop text.length text .init (Tracks.init _) .start).closeQuote⟩

/-! HTML. No entity is empty. -/

namespace HtmlState
variable {s s' : HtmlState}

def Tracked (s : HtmlState) : Prop := Tracks (fun _ => False) s.out s.ents (s.stack.map HtmlEntry.startOff) s.utf16Off

theorem Tracked.pushText (h : s.Tracked) (text : List Char) : (s.pushText text).Tracked := Tracks.push h text

theorem Tracked.pushTag (h : s.Tracked) (tag : HtmlTag) : (s.pushTag tag).Tracked := by
  refine Tracks.opened h fun start hstart => ?_
  simp only [HtmlState.pushTag, List.map_append, List.map_cons, List.map_nil, List.mem_append,
    List.mem_singleton] at hstart
  tauto

theorem Tracked.openCode (h : s.Tracked) (attrs : List (List Char × List Char)) : (s.openCode attrs).Tracked := by
  unfold HtmlState.openCode
  split
  · next last hlast =>
    split
    · refine Tracks.opened h fun start hstart => ?_
      obtain ⟨init, hstack⟩ := List.getLast?_eq_some_iff.mp hlast
      simp only [hstack, List.dropLast_concat, List.map_append, List.map_cons, List.map_nil, List.mem_append,
        List.mem_cons, List.not_mem_nil, or_false] at hstart ⊢
      tauto
    · exact h.pushTag .code
  · exact h.pushTag .code

/-- Every open tag pushes an entry, but `<br>` and a `<code>` in a `<pre>`. -/
theorem Tracked.openTag (h : s.Tracked) (tagName : List Char) (attrs : List (List Char × List Char)) :
    (s.openTag tagName attrs).Tracked := by
  have hite : ∀ {c : Prop} [Decidable c] {a b : HtmlState}, a.Tracked → b.Tracked → (if c then a else b).Tracked := by
    intro c _ a b ha hb
    split
    · exact ha
    · exact hb
  unfold HtmlState.openTag
  refine hite (h.pushTag _) (hite (h.pushTag _) (hite (h.pushTag _) (hite (h.pushTag _) (hite (h.pushTag _) ?_))))
  refine hite (h.pushTag _) (hite (h.pushTag _) (hite (h.pushTag _) (hite (h.openCode attrs) ?_)))
  exact hite (h.pushTag _) (hite (h.pushTag _) (hite (h.pushTag _) (hite (h.pushText _) (h.pushTag _))))

theorem Tracked.closeEntry (h : s.Tracked) (tagName : List Char) : (s.closeEntry tagName).Tracked := by
  unfold HtmlState.closeEntry
  split
  · exact h
  · next entry stack hr =>
    obtain ⟨hmem, hsub⟩ := mem_map_of_removeLast HtmlEntry.startOff hr
    by_cases hpos : 0 < s.utf16Off - entry.startOff
    · simp only [if_pos hpos]
      cases entry.kind? with
      | none =>
        simp only [Option.map_none, Option.toList_none, List.append_nil]
        exact Tracks.mono h hsub
      | some kind => exact Tracks.mono (Tracks.closed h hmem hpos kind) hsub
    · simp only [if_neg hpos, List.append_nil]
      exact Tracks.mono h hsub

theorem Tracked.closeTag (h : s.Tracked) (tagName : List Char) : (s.closeTag tagName).Tracked := by
  unfold HtmlState.closeTag
  split
  · split
    · next hr => exact Tracks.mono h (mem_map_of_removeLast HtmlEntry.startOff hr).2
    · exact h.closeEntry tagName
  · exact h.closeEntry tagName

theorem Tracked.readTag (h : s.Tracked) {content : List Char} (hread : s.readTag content = some s') : s'.Tracked := by
  unfold HtmlState.readTag at hread
  split at hread
  · obtain ⟨tag, -, rfl⟩ := Option.map_eq_some_iff.mp hread
    exact h.closeTag tag.1
  · obtain ⟨tag, -, rfl⟩ := Option.map_eq_some_iff.mp hread
    exact h.openTag tag.1 tag.2

theorem Tracked.step (h : s.Tracked) {html rest : List Char} (hstep : s.step html = some (s', rest)) : s'.Tracked := by
  unfold HtmlState.step at hstep
  split at hstep
  · obtain ⟨rfl, -⟩ := Prod.mk.inj (Option.some.inj hstep)
    exact h
  · split at hstep
    · obtain ⟨t, hread, heq⟩ := Option.map_eq_some_iff.mp hstep
      obtain ⟨rfl, -⟩ := Prod.mk.inj heq
      exact h.readTag hread
    · obtain ⟨rfl, -⟩ := Prod.mk.inj (Option.some.inj hstep)
      exact h.pushText _

theorem Tracked.loop : ∀ (fuel : Nat) (s : HtmlState) (html : List Char), s.Tracked →
    HtmlState.loop fuel s html = some s' → s'.Tracked
  | _, s, [], h, hloop => by
    rw [HtmlState.loop] at hloop
    exact Option.some.inj hloop ▸ h
  | 0, _, _ :: _, _, hloop => nomatch hloop
  | fuel + 1, s, c :: html, h, hloop => by
    obtain ⟨next, hstep, hloop⟩ := Option.bind_eq_some_iff.mp hloop
    exact Tracked.loop fuel next.1 next.2 (h.step hstep) hloop

end HtmlState

theorem tracked_parseHtml {html : List Char} {r : List Char × List MessageEntity} (h : parseHtml html = some r) :
    ∃ opens off, Tracks (fun _ => False) r.1 r.2 opens off := by
  obtain ⟨s, hloop, rfl⟩ := Option.map_eq_some_iff.mp h
  exact ⟨_, _, HtmlState.Tracked.loop html.length .init html (Tracks.init _) hloop⟩

/-! All three. -/

/-- Every entity lies in the text, and has a positive length unless it is one of `E`. -/
def EntitiesInside (E : MessageEntity → Prop) (r : List Char × List MessageEntity) : Prop :=
  ∀ e ∈ r.2, e.Inside r.1 ∧ (0 < e.length ∨ (e.length = 0 ∧ E e))

theorem Tracks.entitiesInside {E : MessageEntity → Prop} {out : List Char} {ents : List MessageEntity} {opens : List Int32}
    {off : Int32} (h : Tracks E out ents opens off) (hfits : utf16Len out < 2 ^ 31) : EntitiesInside E (out, ents) :=
  fun _ he => h.inside hfits he

theorem parsed_entities_inside (text : List Char) :
    (utf16Len (parseMarkdownV1 text).1 < 2 ^ 31 → EntitiesInside (MdV1State.EmptyAt text) (parseMarkdownV1 text)) ∧
      (utf16Len (parseMarkdown text).1 < 2 ^ 31 → EntitiesInside (MdState.EmptyAt text) (parseMarkdown text)) ∧
      ∀ r, parseHtml text = some r → utf16Len r.1 < 2 ^ 31 → ∀ e ∈ r.2, e.Inside r.1 ∧ 0 < e.length := by
  refine ⟨fun hfits => ?_, fun hfits => ?_, fun r hr hfits e he => ?_⟩
  · obtain ⟨opens, off, h⟩ := tracked_parseMarkdownV1 text
    exact h.entitiesInside hfits
  · obtain ⟨opens, off, h⟩ := tracked_parseMarkdownV2 text
    exact h.entitiesInside hfits
  · obtain ⟨opens, off, h⟩ := tracked_parseHtml hr
    obtain ⟨hin, hpos⟩ := h.inside hfits he
    exact ⟨hin, hpos.resolve_right And.right⟩

/-- A bold word, empty code and an emoji of two units. -/
theorem parsed_entities_inside_small :
    EntitiesInside (MdState.EmptyAt "*a*``😀".toList) (parseMarkdown "*a*``😀".toList) ∧
      ∀ e ∈ [(⟨0, 1, .bold⟩ : MessageEntity)], e.Inside ['a'] ∧ 0 < e.length :=
  ⟨(parsed_entities_inside _).2.1 (by decide),
    (parsed_entities_inside "<b>a</b>".toList).2.2 (['a'], [⟨0, 1, .bold⟩]) (by decide) (by decide)⟩

/-! Above. -/

theorem parse_code_behind (n : Nat) :
    parseMarkdown (List.replicate n 'a' ++ "`b`".toList) =
      (List.replicate n 'a' ++ ['b'], [⟨Int32.ofNat n, 1, .code⟩]) := by
  apply Single.parse_of_has
  obtain ⟨s, hs, -, hrun⟩ := Single.has_init.run_text (List.replicate n 'a') "`b`".toList
  have hwritten : (List.replicate n 'a').flatMap MdState.written = List.replicate n 'a' := by
    have hplain : ∀ m : Nat, (List.replicate m 'a').flatMap MdState.written = List.replicate m 'a' := by
      intro m
      induction m with
      | zero => rfl
      | succ m ih =>
        rw [List.replicate_succ, List.flatMap_cons, ih]
        rfl
    exact hplain n
  have hcode := s.run_code (show '`' ∉ ['b'] by decide) (by simp) []
  have hspan := hs.leaveLineStart.pushCode ['b'] .code
  rw [hwritten] at hrun
  rw [List.nil_append, utf16Len_replicate] at hspan
  rw [hrun, show "`b`".toList = ['`'] ++ (['b'] ++ (['`'] ++ [])) from rfl, hcode, MdState.run_nil]
  have hclose : ∀ s' : MdState, s'.bqStartOff = none → s'.closeQuote = s' := by
    intro s' hno
    simp [MdState.closeQuote, hno]
  rw [hclose _ hspan.no_quote]
  exact hspan

theorem offset_negative_of_length {n : Nat} (hn : n = 2147483648) :
    ∃ e ∈ (parseMarkdown (List.replicate n 'a' ++ "`b`".toList)).2, e.offset.toInt < 0 := by
  rw [parse_code_behind]
  refine ⟨_, List.mem_singleton_self _, ?_⟩
  show (Int32.ofNat n).toInt < 0
  rw [hn]
  decide

/-- Behind 2^31 characters the counter has wrapped; and a block of newlines is an entity of length 0. -/
theorem entity_offset_negative :
    (∃ e ∈ (parseMarkdown (List.replicate 2147483648 'a' ++ "`b`".toList)).2, e.offset.toInt < 0) ∧
      (parseMarkdown "```\n\n\n```".toList).2 = [⟨0, 0, .pre []⟩] :=
  ⟨offset_negative_of_length rfl, by decide⟩

end Ferogram.Parsers
