import Ferogram.Parsers.MarkdownRead

/- One link, code or quote entity through MarkdownV2 and back. The generator
   writes the text before the entity, the entity's own text between its
   delimiters (or line prefixes) and the text behind it (`generate_around`,
   `generate_quoted`); the parser takes the middle in one of its sub-loops, which
   read labels and code as they stand. -/
namespace Ferogram.Parsers
open Splice

/-! What is generated for one entity. -/

namespace MdWriter

/-- The writer behind a piece of text. -/
def skip (w : MdWriter) (cs : List Char) : MdWriter := cs.foldl next w

theorem skip_utf16Pos {w : MdWriter} {pre : List Char} (hw : w.utf16Pos = Int32.ofNat (utf16Len pre)) (cs : List Char) :
    (w.skip cs).utf16Pos = Int32.ofNat (utf16Len (pre ++ cs)) := by
  induction cs generalizing w pre with
  | nil => simpa [skip] using hw
  | cons c cs ih =>
    have hnext : (w.next c).utf16Pos = Int32.ofNat (utf16Len (pre ++ [c])) := by
      simp [next, hw, Int32.ofNat_add]
    have := ih hnext
    rwa [List.append_assoc] at this

end MdWriter

theorem utf16Len_snoc_le (a : List Char) (c : Char) (cs : List Char) :
    utf16Len a + lenUtf16 c ≤ utf16Len (a ++ c :: cs) := by
  simp only [utf16Len_append, utf16Len_cons]
  omega

theorem next_utf16Pos {w : MdWriter} {a : List Char} (hw : w.utf16Pos = Int32.ofNat (utf16Len a)) (c : Char) :
    (w.next c).utf16Pos = Int32.ofNat (utf16Len (a ++ [c])) := by
  simp [MdWriter.next, hw, Int32.ofNat_add]

/-- Characters written one way, with no marker among them. -/
theorem splice_written {e : MessageEntity} {f : Char → List Char} :
    ∀ (cs a : List Char) (w : MdWriter), w.utf16Pos = Int32.ofNat (utf16Len a) →
      (∀ (w : MdWriter) (c : Char) (p : Nat), utf16Len a ≤ p → p < utf16Len (a ++ cs) →
        w.utf16Pos = Int32.ofNat p → w.body [e] c = f c) →
      splice (fun w : MdWriter => w.utf16Pos.toInt) MdWriter.next (MdWriter.body [e]) w [] cs = cs.flatMap f := by
  intro cs
  induction cs with
  | nil =>
    intro a w _ _
    rfl
  | cons c cs ih =>
    intro a w hw hbody
    have hc := lenUtf16_pos c
    have hsplit : a ++ c :: cs = a ++ [c] ++ cs := by simp
    have hlen : utf16Len (a ++ [c]) = utf16Len a + lenUtf16 c := by simp
    have hle := utf16Len_snoc_le a c cs
    have hrest := ih (a ++ [c]) (w.next c) (next_utf16Pos hw c)
      (fun w d p h1 h2 => hbody w d p (by omega) (by rw [hsplit]; exact h2))
    rw [splice_unmarked_cons, hbody w c _ le_rfl (by omega) hw, hrest, List.flatMap_cons]

/-- One entity over the middle of a text whose positions are all `i32`s. -/
structure Single (e : MessageEntity) (pre mid post : List Char) : Prop where
  covers : e.Covers pre mid
  short : utf16Len (pre ++ (mid ++ post)) < 2 ^ 31

/-- How the entity's own text is written between its delimiters. -/
def writtenAs (kind : EntityKind) (c : Char) : List Char :=
  if kind.isVerbatim then [c] else MdState.written c

namespace Single

variable {e : MessageEntity} {pre mid post : List Char} (hs : Single e pre mid post)

include hs

theorem short_mid : utf16Len (pre ++ mid) < 2 ^ 31 := by
  have := hs.short
  simp only [utf16Len_append] at this ⊢
  omega

theorem fits : e.Fits := by
  have := hs.short_mid
  rw [utf16Len_append] at this
  rw [MessageEntity.Fits, hs.covers.offset_eq, hs.covers.length_eq]
  omega

/-- The entity holds the positions of its own text and no others. -/
theorem holds_iff {p : Nat} (hp : p < 2 ^ 31) :
    e.Holds (Int32.ofNat p) ↔ utf16Len pre ≤ p ∧ p < utf16Len (pre ++ mid) := by
  have hmid := hs.short_mid
  have hpre : utf16Len pre < 2 ^ 31 := by
    rw [utf16Len_append] at hmid
    omega
  rw [MessageEntity.Holds, hs.covers.offset_ofNat, hs.covers.stop_ofNat, Int32.le_iff_toInt_le,
    Int32.lt_iff_toInt_lt, toInt_ofNat_of_fits hpre, toInt_ofNat_of_fits hp, toInt_ofNat_of_fits hmid]
  omega

theorem inVerbatim_iff {p : Nat} (hp : p < 2 ^ 31) :
    inVerbatim [e] (Int32.ofNat p) = true ↔
      e.kind.isVerbatim = true ∧ utf16Len pre ≤ p ∧ p < utf16Len (pre ++ mid) := by
  simp only [inVerbatim, List.any_cons, List.any_nil, Bool.or_false, decide_eq_true_eq]
  rw [hs.holds_iff hp]

/-- Outside the entity the text is escaped. -/
theorem body_outside {w : MdWriter} {p : Nat} (hp : p < 2 ^ 31) (hw : w.utf16Pos = Int32.ofNat p)
    (hout : p < utf16Len pre ∨ utf16Len (pre ++ mid) ≤ p) (c : Char) : w.body [e] c = MdState.written c := by
  have hnot : ¬ e.Holds w.utf16Pos := by
    rw [hw, hs.holds_iff hp]
    omega
  apply MdState.body_eq_written
  · intro _
    simp [quoteAt, hnot]
  · simp [inVerbatim, hnot]

theorem body_inside (hquote : e.kind.quote? = none) {w : MdWriter} {p : Nat} (hp : p < 2 ^ 31)
    (hw : w.utf16Pos = Int32.ofNat p) (h1 : utf16Len pre ≤ p) (h2 : p < utf16Len (pre ++ mid)) (c : Char) :
    w.body [e] c = writtenAs e.kind c := by
  have hq : quoteAt [e] w.utf16Pos = none := MdState.quoteAt_eq_none (by simpa using hquote)
  have hv := hs.inVerbatim_iff hp
  rw [← hw] at hv
  unfold writtenAs
  cases hkind : e.kind.isVerbatim
  · have hno : inVerbatim [e] w.utf16Pos = false := by
      apply Bool.eq_false_iff.mpr
      intro h
      rw [hkind] at hv
      exact absurd (hv.mp h).1 (by simp)
    exact MdState.body_eq_written (fun _ => hq) hno
  · have hyes : inVerbatim [e] w.utf16Pos = true := hv.mpr ⟨hkind, h1, h2⟩
    cases hline : w.atLineStart <;> simp [MdWriter.body, hq, quotePrefix, hyes, hline]

/-- An entity that is no quote: the text before it, its own between the delimiters, the text behind it. -/
theorem generate_around (hquote : e.kind.quote? = none) :
    generateMarkdown (pre ++ (mid ++ post)) [e] =
      pre.flatMap MdState.written ++ (openText insertion e ++ (mid.flatMap (writtenAs e.kind) ++
        (closeText insertion e ++ post.flatMap MdState.written))) := by
  have hshort := hs.short
  have htotal : utf16Len (pre ++ (mid ++ post)) = utf16Len pre + (utf16Len mid + utf16Len post) := by simp
  have hpm : utf16Len (pre ++ mid) = utf16Len pre + utf16Len mid := by simp
  have hpos : ∀ a, (MdWriter.skip { utf16Pos := 0, atLineStart := true } a).utf16Pos = Int32.ofNat (utf16Len a) := by
    have h0 : ({ utf16Pos := 0, atLineStart := true } : MdWriter).utf16Pos = Int32.ofNat (utf16Len []) := rfl
    exact MdWriter.skip_utf16Pos h0
  have hbefore := splice_written pre [] { utf16Pos := 0, atLineStart := true } rfl
    (fun w c p _ h2 hw => hs.body_outside (by simp at h2; omega) hw (Or.inl (by simpa using h2)) c)
  have hown := splice_written mid pre _ (hpos pre)
    (fun w c p h1 h2 hw => hs.body_inside hquote (by omega) hw h1 h2 c)
  have hbehind := splice_written post (pre ++ mid) _ (hpos (pre ++ mid))
    (fun w c p h1 h2 hw => hs.body_outside (by simp at h2; omega) hw (Or.inr h1) c)
  refine (hs.covers.splice_around hs.fits ?_).trans ?_
  · intro a
    exact congrArg Int32.toInt (hpos a)
  · unfold MdWriter.skip at hown hbehind
    rw [hbefore, hown, hbehind]

end Single

/-! What is generated for a quote. -/

/-- Quoted text: a prefix at every line start. -/
def quoteLines (collapsed : Bool) : Bool → List Char → List Char
  | _, [] => []
  | atLineStart, c :: cs =>
    (if atLineStart then quotePrefix (some collapsed) else []) ++
      (MdState.written c ++ quoteLines collapsed (c = '\n') cs)

/-- Whether a text that follows begins a line. -/
def endsLine (text : List Char) : Prop := text = [] ∨ text.getLast? = some '\n'

namespace MdWriter

theorem skip_atLineStart (w : MdWriter) {cs : List Char} (hline : cs = [] → w.atLineStart = true) (h : endsLine cs) :
    (w.skip cs).atLineStart = true := by
  rcases h with rfl | h
  · exact hline rfl
  · obtain ⟨ds, rfl⟩ := List.getLast?_eq_some_iff.mp h
    simp [skip, List.foldl_append, next]

end MdWriter

namespace Single

variable {e : MessageEntity} {pre mid post : List Char} (hs : Single e pre mid post)

/-- Text inside a quote. -/
theorem splice_inside {collapsed : Bool} (hkind : e.kind = .blockquote collapsed) :
    ∀ (cs a : List Char) (w : MdWriter), w.utf16Pos = Int32.ofNat (utf16Len a) →
      (∀ p : Nat, utf16Len a ≤ p → p < utf16Len (a ++ cs) → e.Holds (Int32.ofNat p)) →
      splice (fun w : MdWriter => w.utf16Pos.toInt) MdWriter.next (MdWriter.body [e]) w [] cs =
        quoteLines collapsed w.atLineStart cs := by
  intro cs
  induction cs with
  | nil =>
    intro a w _ _
    rfl
  | cons c cs ih =>
    intro a w hw hin
    have hc := lenUtf16_pos c
    have hsplit : a ++ c :: cs = a ++ [c] ++ cs := by simp
    have hlen : utf16Len (a ++ [c]) = utf16Len a + lenUtf16 c := by simp
    have hle := utf16Len_snoc_le a c cs
    have hholds : e.Holds w.utf16Pos := by
      rw [hw]
      exact hin _ le_rfl (by omega)
    have hquote : quoteAt [e] w.utf16Pos = some collapsed := by
      simp [quoteAt, hholds, hkind, EntityKind.quote?]
    have hverb : inVerbatim [e] w.utf16Pos = false :=
      MdState.inVerbatim_eq_false (by simp [hkind, EntityKind.isVerbatim])
    have hbody : w.body [e] c =
        (if w.atLineStart then quotePrefix (some collapsed) else []) ++ MdState.written c := by
      simp [MdWriter.body, hquote, hverb, MdState.written]
    have hrest := ih (a ++ [c]) (w.next c) (next_utf16Pos hw c) (fun p h1 h2 => hin p (by omega) (by rw [hsplit]; exact h2))
    rw [splice_unmarked_cons, hbody, hrest]
    simp only [quoteLines, List.append_assoc]
    rfl

include hs

/-- A quote that begins a line: its lines with their prefixes, between the text before it and behind it. -/
theorem generate_quoted {collapsed : Bool} (hkind : e.kind = .blockquote collapsed) (hpre : endsLine pre) :
    generateMarkdown (pre ++ (mid ++ post)) [e] =
      pre.flatMap MdState.written ++ (quoteLines collapsed true mid ++ post.flatMap MdState.written) := by
  have hnone : entityMarkers insertion [e] = [] := by
    simp [entityMarkers, markersOf, insertion, hkind, order]
  have hshort := hs.short
  have hpm : utf16Len (pre ++ mid) = utf16Len pre + utf16Len mid := by simp
  have htotal : utf16Len (pre ++ (mid ++ post)) = utf16Len pre + (utf16Len mid + utf16Len post) := by simp
  have hstart : generateMarkdown (pre ++ (mid ++ post)) [e] =
      splice (fun w : MdWriter => w.utf16Pos.toInt) MdWriter.next (MdWriter.body [e])
        { utf16Pos := 0, atLineStart := true } [] (pre ++ (mid ++ post)) := by
    unfold generateMarkdown generateMarkdownV2
    rw [hnone]
  have hw : (MdWriter.skip { utf16Pos := 0, atLineStart := true } pre).utf16Pos = Int32.ofNat (utf16Len pre) := by
    have h0 : ({ utf16Pos := 0, atLineStart := true } : MdWriter).utf16Pos = Int32.ofNat (utf16Len []) := rfl
    exact MdWriter.skip_utf16Pos h0 pre
  have hline : (MdWriter.skip { utf16Pos := 0, atLineStart := true } pre).atLineStart = true :=
    MdWriter.skip_atLineStart _ (fun _ => rfl) hpre
  have hbefore := splice_written pre [] { utf16Pos := 0, atLineStart := true } rfl
    (fun w c p _ h2 hw => hs.body_outside (by simp at h2; omega) hw (Or.inl (by simpa using h2)) c)
  have hown := splice_inside hkind mid pre _ hw (fun p h1 h2 => (hs.holds_iff (by omega)).mpr ⟨h1, h2⟩)
  have hbehind := splice_written post (pre ++ mid) _ (MdWriter.skip_utf16Pos hw mid)
    (fun w c p h1 h2 hw => hs.body_outside (by simp at h2; omega) hw (Or.inr h1) c)
  rw [hline] at hown
  unfold MdWriter.skip at hown hbehind
  rw [hstart, splice_unmarked_append, splice_unmarked_append, hbefore, hown, hbehind]

end Single

/-! Reading it back. -/

namespace MdState

variable {s : MdState} {t cs rest : List Char} {es : List MessageEntity}

/-- The parser has read `t`, with the entities `es`, and is in no quote. -/
structure Has (t : List Char) (es : List MessageEntity) (s : MdState) : Prop where
  out_eq : s.out = t
  off_eq : s.utf16Off = Int32.ofNat (utf16Len t)
  ents_eq : s.ents = es
  no_quote : s.bqStartOff = none

theorem Has.leaveLineStart (h : Has t es s) : Has t es s.leaveLineStart := by
  have hleave : s.leaveLineStart = { s with atLineStart := false } ∨ s.leaveLineStart = s := by
    unfold MdState.leaveLineStart
    split
    · simp [closeQuote, h.no_quote]
    · exact Or.inr rfl
  rcases hleave with hleave | hleave <;> rw [hleave]
  · exact ⟨h.out_eq, h.off_eq, h.ents_eq, h.no_quote⟩
  · exact h

theorem has_takeChar (hleave : Has t es s.leaveLineStart) (c : Char) : Has (t ++ [c]) es (s.takeChar c) := by
  refine ⟨?_, ?_, hleave.ents_eq, hleave.no_quote⟩
  · show s.leaveLineStart.out ++ [c] = _
    rw [hleave.out_eq]
  · show s.leaveLineStart.utf16Off + _ = _
    simp [hleave.off_eq, Int32.ofNat_add]

/-- Whether a line starts behind some text, if one does at its beginning. -/
def lineStartAfter (cs : List Char) (before : Bool) : Bool :=
  match cs.getLast? with
  | some c => c = '\n'
  | none => before

theorem lineStartAfter_cons (c : Char) (cs : List Char) (before : Bool) :
    lineStartAfter (c :: cs) before = lineStartAfter cs (c = '\n') := by
  unfold lineStartAfter
  rw [List.getLast?_cons]
  cases cs.getLast? <;> rfl

/-- Text outside the entity. -/
theorem Has.run_text (h : Has t es s) (cs rest : List Char) :
    ∃ s', Has (t ++ cs) es s' ∧ s'.atLineStart = lineStartAfter cs s.atLineStart ∧
      s.run (cs.flatMap written ++ rest) = s'.run rest := by
  induction cs generalizing t s with
  | nil => exact ⟨s, by simpa using h, rfl, rfl⟩
  | cons c cs ih =>
    obtain ⟨s', hs', hline, hrun⟩ := ih (has_takeChar h.leaveLineStart c)
    refine ⟨s', by simpa using hs', ?_, ?_⟩
    · rw [hline, lineStartAfter_cons]
      rfl
    · rw [List.flatMap_cons, List.append_assoc, run_written, hrun]

theorem pushStr_eq (s : MdState) (text : List Char) :
    s.pushStr text =
      { s with out := s.out ++ text, utf16Off := s.utf16Off + Int32.ofNat (utf16Len text) } := by
  unfold pushStr
  induction text generalizing s with
  | nil =>
    cases s
    simp
  | cons c text ih =>
    rw [List.foldl_cons, ih]
    simp [pushChar, Int32.ofNat_add, Int32.add_assoc]

/-- Text taken as an entity as a whole. -/
theorem Has.pushSpan (h : Has t es s) (text : List Char) (kind : EntityKind) :
    Has (t ++ text) (es ++ [⟨Int32.ofNat (utf16Len t), Int32.ofNat (utf16Len text), kind⟩]) (s.pushSpan text kind) := by
  refine ⟨?_, ?_, ?_, ?_⟩
  · simp [MdState.pushSpan, pushStr_eq, pushEnt, h.out_eq]
  · simp [MdState.pushSpan, pushStr_eq, pushEnt, h.off_eq, Int32.ofNat_add]
  · have hlen : ∀ a b : Int32, a + b - a = b := by
      intro a b
      rw [Int32.add_comm, Int32.add_sub_cancel]
    simp [MdState.pushSpan, pushStr_eq, pushEnt, h.off_eq, h.ents_eq, hlen]
  · simp [MdState.pushSpan, pushStr_eq, pushEnt, h.no_quote]

/-- Code, whose entity comes first. -/
theorem Has.pushCode (h : Has t es s) (code : List Char) (kind : EntityKind) :
    Has (t ++ code) (es ++ [⟨Int32.ofNat (utf16Len t), Int32.ofNat (utf16Len code), kind⟩])
      ((s.pushEnt ⟨s.utf16Off, Int32.ofNat (utf16Len code), kind⟩).pushStr code) := by
  refine ⟨?_, ?_, ?_, ?_⟩
  · simp [pushStr_eq, pushEnt, h.out_eq]
  · simp [pushStr_eq, pushEnt, h.off_eq, Int32.ofNat_add]
  · simp [pushStr_eq, pushEnt, h.off_eq, h.ents_eq]
  · simp [pushStr_eq, pushEnt, h.no_quote]

theorem splitLabel_append {label : List Char} (h : ∀ c ∈ label, c ≠ '[' ∧ c ≠ ']') (rest : List Char) :
    splitLabel 1 (label ++ ']' :: rest) = some (label, rest) := by
  induction label with
  | nil => simp [splitLabel]
  | cons c label ih =>
    have hc := h c List.mem_cons_self
    simp [splitLabel, hc.1, hc.2, ih fun d hd => h d (List.mem_cons_of_mem _ hd)]

/-- A link whose label has no brackets and whose target no closing parenthesis. -/
theorem run_link (s : MdState) {label url : List Char} (hlabel : ∀ c ∈ label, c ≠ '[' ∧ c ≠ ']') (hurl : ')' ∉ url)
    (rest : List Char) :
    s.run (['['] ++ (label ++ ([']', '('] ++ url ++ [')'] ++ rest))) =
      (s.leaveLineStart.pushSpan label (linkKind url)).run rest := by
  have hread : s.leaveLineStart.readLink ('[' :: (label ++ ']' :: '(' :: (url ++ ')' :: rest))) =
      some (s.leaveLineStart.pushSpan label (linkKind url), rest) := by
    simp [readLink, parseLinkEntity, splitLabel_append hlabel, splitTarget, splitAtChar_append hurl]
  have htext : ['['] ++ (label ++ ([']', '('] ++ url ++ [')'] ++ rest)) =
      '[' :: (label ++ ']' :: '(' :: (url ++ ')' :: rest)) := by
    simp
  rw [htext, run_cons, step_of_no_mark s (quoteMark_of_ne (by decide) (by decide))]
  unfold readInline
  rw [readEscape_of_ne (by decide), readCodeBlock_of_ne (by decide), readInlineCode_of_ne (by decide),
    readEmoji_of_ne (by decide), hread]
  rfl

/-- A target that ends in a number has no closing parenthesis. -/
theorem not_mem_target {pfx : List Char} (hpfx : ')' ∉ pfx) (n : Int) : ')' ∉ pfx ++ Decimal.format n := by
  intro h
  rcases List.mem_append.mp h with h | h
  · exact hpfx h
  · rcases Decimal.mem_format h with h | h
    · exact absurd h (by decide)
    · exact absurd h (by decide)

/-- A custom emoji whose label has no closing bracket. -/
theorem run_emoji (s : MdState) {label : List Char} (hlabel : ']' ∉ label) (documentId : Int64) (rest : List Char) :
    s.run (['!', '['] ++ (label ++ ([']', '('] ++ emojiPrefix ++ Decimal.format documentId.toInt ++ [')'] ++ rest))) =
      (s.leaveLineStart.pushSpan label (.customEmoji documentId)).run rest := by
  have hurl : ')' ∉ emojiPrefix ++ Decimal.format documentId.toInt := not_mem_target (by decide) _
  have hread : s.leaveLineStart.readEmoji
      ('!' :: '[' :: (label ++ ']' :: '(' :: (emojiPrefix ++ Decimal.format documentId.toInt ++ ')' :: rest))) =
        some (s.leaveLineStart.pushSpan label (.customEmoji documentId), rest) := by
    simp only [readEmoji, parseEmojiLink, splitAtChar_append hlabel, splitTarget, Option.bind_eq_bind,
      Option.bind_some, splitAtChar_append hurl, stripPrefix_append, parseI64_format, Option.map_some]
  have htext : ['!', '['] ++ (label ++ ([']', '('] ++ emojiPrefix ++ Decimal.format documentId.toInt ++ [')'] ++ rest)) =
      '!' :: '[' :: (label ++ ']' :: '(' :: (emojiPrefix ++ Decimal.format documentId.toInt ++ ')' :: rest)) := by
    simp
  rw [htext, run_cons, step_of_no_mark s (quoteMark_of_ne (by decide) (by decide))]
  unfold readInline
  rw [readEscape_of_ne (by decide), readCodeBlock_of_ne (by decide), readInlineCode_of_ne (by decide), hread]
  rfl

theorem run_code (s : MdState) {code : List Char} (hcode : '`' ∉ code) (hne : code ≠ []) (rest : List Char) :
    s.run (['`'] ++ (code ++ (['`'] ++ rest))) =
      ((s.leaveLineStart.pushEnt ⟨s.leaveLineStart.utf16Off, Int32.ofNat (utf16Len code), .code⟩).pushStr code).run
        rest := by
  have hblock : s.leaveLineStart.readCodeBlock ('`' :: (code ++ '`' :: rest)) = none := by
    obtain ⟨c, code, rfl⟩ := List.exists_cons_of_ne_nil hne
    have hc : c ≠ '`' := fun h => hcode (h ▸ List.mem_cons_self)
    simp [readCodeBlock, hc]
  have hread : s.leaveLineStart.readInlineCode ('`' :: (code ++ '`' :: rest)) =
      some ((s.leaveLineStart.pushEnt ⟨s.leaveLineStart.utf16Off, Int32.ofNat (utf16Len code), .code⟩).pushStr code,
        rest) := by
    simp [readInlineCode, splitAtChar_append hcode]
  show s.run ('`' :: (code ++ '`' :: rest)) = _
  rw [run_cons, step_of_no_mark s (quoteMark_of_ne (by decide) (by decide))]
  unfold readInline
  rw [readEscape_of_ne (by decide), hblock, hread]
  rfl

/-! Code blocks. -/

/-- The delimiter of a code block. -/
def fence : List Char := ['`', '`', '`']

theorem fence_append {a b : List Char} (ha : ¬ fence <:+: a) (hb : ¬ fence <:+: b) : ¬ fence <:+: a ++ '\n' :: b := by
  induction a with
  | nil =>
    rw [List.nil_append, List.infix_cons_iff]
    simp only [fence] at hb ⊢
    simpa using hb
  | cons c a ih =>
    rw [List.infix_cons_iff, not_or] at ha
    rw [List.cons_append, List.infix_cons_iff, not_or]
    refine ⟨?_, ih ha.2⟩
    -- a fence at the front would lie in `c :: a`, which the newline ends
    intro hpre
    apply ha.1
    match a, hpre with
    | [], hpre => simp [fence] at hpre
    | [d], hpre => simp [fence] at hpre
    | d :: e :: a, hpre => simpa [fence] using hpre

theorem splitFence_append {block : List Char} (h : ¬ fence <:+: block ++ ['\n']) (rest : List Char) :
    splitFence (block ++ '\n' :: (fence ++ rest)) = some (block ++ ['\n'], rest) := by
  induction block with
  | nil => simp [splitFence, fence]
  | cons c block ih =>
    rw [List.cons_append, List.infix_cons_iff, not_or] at h
    have hnext := ih h.2
    have hnot : ∀ after, ¬ (c = '`' ∧ block ++ '\n' :: (fence ++ rest) = '`' :: '`' :: after) := by
      rintro after ⟨rfl, heq⟩
      apply h.1
      rcases block with _ | ⟨d, _ | ⟨e, block⟩⟩
      · simp at heq
      · simp at heq
      · simp only [List.cons_append, List.cons.injEq] at heq
        obtain ⟨rfl, rfl, -⟩ := heq
        simp [fence]
    rw [List.cons_append]
    unfold splitFence
    split
    · next heq => exact absurd ⟨rfl, heq⟩ (hnot _)
    · rw [hnext]
      rfl

theorem trimEnd_newline {code : List Char} (h : code.getLast? ≠ some '\n') :
    trimEndMatches (· == '\n') (code ++ ['\n']) = code := by
  have hskip : trimEndMatches (· == '\n') (code ++ ['\n']) = trimEndMatches (· == '\n') code := by
    simp [trimEndMatches]
  rw [hskip]
  apply trimEndMatches_eq_self
  intro c hc
  apply beq_false_of_ne
  rintro rfl
  exact h hc

/-- A code block whose language fits on its line and whose code ends without a newline. -/
theorem run_pre (s : MdState) {lang code : List Char} (hline : '\n' ∉ lang) (hlang : ¬ fence <:+: lang)
    (hcode : ¬ fence <:+: code) (hlast : code.getLast? ≠ some '\n') (rest : List Char) :
    s.run ((['`', '`', '`'] ++ lang ++ ['\n']) ++ (code ++ (['\n', '`', '`', '`'] ++ rest))) =
      ((s.leaveLineStart.pushEnt ⟨s.leaveLineStart.utf16Off, Int32.ofNat (utf16Len code), .pre (trim lang)⟩).pushStr
        code).run rest := by
  have hfence : ¬ fence <:+: (lang ++ '\n' :: code) ++ ['\n'] := by
    apply fence_append (fence_append hlang hcode)
    decide
  have hsplit : splitBlock ((lang ++ '\n' :: code) ++ ['\n']) = (trim lang, code) := by
    have hassoc : (lang ++ '\n' :: code) ++ ['\n'] = lang ++ '\n' :: (code ++ ['\n']) := by simp
    rw [splitBlock, hassoc, splitAtChar_append hline]
    simp only
    rw [trimEnd_newline hlast]
  have htext : (['`', '`', '`'] ++ lang ++ ['\n']) ++ (code ++ (['\n', '`', '`', '`'] ++ rest)) =
      '`' :: '`' :: '`' :: ((lang ++ '\n' :: code) ++ '\n' :: (fence ++ rest)) := by
    simp [fence]
  have hread : s.leaveLineStart.readCodeBlock ('`' :: '`' :: '`' :: ((lang ++ '\n' :: code) ++ '\n' :: (fence ++ rest))) =
      some ((s.leaveLineStart.pushEnt
        ⟨s.leaveLineStart.utf16Off, Int32.ofNat (utf16Len code), .pre (trim lang)⟩).pushStr code, rest) := by
    simp only [readCodeBlock, splitFence_append hfence, Option.map_some, hsplit]
  rw [htext, run_cons, step_of_no_mark s (quoteMark_of_ne (by decide) (by decide))]
  unfold readInline
  rw [readEscape_of_ne (by decide), hread]
  rfl

/-! Quotes. -/

/-- The parser has read `t`, with the entities `es`, and is in a quote. -/
structure InQuote (t : List Char) (es : List MessageEntity) (start : Int32) (collapsed : Bool) (s : MdState) :
    Prop where
  out_eq : s.out = t
  off_eq : s.utf16Off = Int32.ofNat (utf16Len t)
  ents_eq : s.ents = es
  start_eq : s.bqStartOff = some start
  type_eq : s.bqCollapsed = collapsed

variable {start : Int32} {collapsed : Bool}

theorem run_quotePrefix (s : MdState) (hline : s.atLineStart = true) (collapsed : Bool) (rest : List Char) :
    s.run (quotePrefix (some collapsed) ++ rest) = ({ s.openQuote collapsed with atLineStart := false }).run rest := by
  cases collapsed with
  | false =>
    show s.run ('>' :: ' ' :: rest) = _
    rw [run_cons]
    simp [step, hline, quoteMark, skipSpace]
  | true =>
    show s.run ('*' :: '*' :: '>' :: ' ' :: rest) = _
    rw [run_cons]
    simp [step, hline, quoteMark, skipSpace]

/-- The first prefix opens the quote. -/
theorem Has.openQuote (h : Has t es s) (collapsed : Bool) :
    InQuote t es (Int32.ofNat (utf16Len t)) collapsed { s.openQuote collapsed with atLineStart := false } := by
  have hopen : s.openQuote collapsed = { s with bqStartOff := some s.utf16Off, bqCollapsed := collapsed } := by
    simp [MdState.openQuote, h.no_quote, closeQuote]
  rw [hopen]
  exact ⟨h.out_eq, h.off_eq, h.ents_eq, by rw [← h.off_eq], rfl⟩

/-- Another prefix goes on with it. -/
theorem InQuote.openQuote (h : InQuote t es start collapsed s) :
    InQuote t es start collapsed { s.openQuote collapsed with atLineStart := false } := by
  have hopen : s.openQuote collapsed = s := by
    simp [MdState.openQuote, h.start_eq, h.type_eq]
  rw [hopen]
  exact ⟨h.out_eq, h.off_eq, h.ents_eq, h.start_eq, h.type_eq⟩

theorem InQuote.takeChar (h : InQuote t es start collapsed s) (hline : s.atLineStart = false) (c : Char) :
    InQuote (t ++ [c]) es start collapsed (s.takeChar c) := by
  have hleave : s.leaveLineStart = s := by simp [MdState.leaveLineStart, hline]
  have htake : s.takeChar c = { s.pushChar c with atLineStart := c = '\n' } := by
    rw [MdState.takeChar, hleave]
  rw [htake]
  refine ⟨?_, ?_, h.ents_eq, h.start_eq, h.type_eq⟩
  · simp [pushChar, h.out_eq]
  · simp [pushChar, h.off_eq, Int32.ofNat_add]

/-- Quoted text, from inside the quote. -/
theorem InQuote.run_lines (h : InQuote t es start collapsed s) (cs rest : List Char) :
    ∃ s', InQuote (t ++ cs) es start collapsed s' ∧
      s'.atLineStart = lineStartAfter cs s.atLineStart ∧
      s.run (quoteLines collapsed s.atLineStart cs ++ rest) = s'.run rest := by
  induction cs generalizing t s with
  | nil => exact ⟨s, by simpa using h, rfl, rfl⟩
  | cons c cs ih =>
    -- past the prefix, if the line starts here
    obtain ⟨s₁, h₁, hline₁, hrun₁⟩ : ∃ s₁, InQuote t es start collapsed s₁ ∧ s₁.atLineStart = false ∧
        ∀ rest, s.run ((if s.atLineStart then quotePrefix (some collapsed) else []) ++ rest) = s₁.run rest := by
      cases hline : s.atLineStart
      · exact ⟨s, h, hline, fun rest => rfl⟩
      · exact ⟨_, h.openQuote, rfl, fun rest => run_quotePrefix s hline collapsed rest⟩
    obtain ⟨s', h', hline', hrun'⟩ := ih (h₁.takeChar hline₁ c)
    refine ⟨s', by simpa using h', ?_, ?_⟩
    · rw [hline', lineStartAfter_cons]
      rfl
    · rw [quoteLines, List.append_assoc, List.append_assoc, hrun₁, run_written, ← hrun']
      rfl

/-- Quoted text from its first prefix on. -/
theorem Has.run_lines (h : Has t es s) (hline : s.atLineStart = true) {cs : List Char} (hne : cs ≠ [])
    (collapsed : Bool) (rest : List Char) :
    ∃ s', InQuote (t ++ cs) es (Int32.ofNat (utf16Len t)) collapsed s' ∧
      s'.atLineStart = lineStartAfter cs false ∧
      s.run (quoteLines collapsed true cs ++ rest) = s'.run rest := by
  obtain ⟨s', h', hline', hrun'⟩ := (h.openQuote collapsed).run_lines cs rest
  obtain ⟨c, cs, rfl⟩ := List.exists_cons_of_ne_nil hne
  refine ⟨s', h', hline', ?_⟩
  rw [← hrun', quoteLines, quoteLines, List.append_assoc, if_pos rfl, run_quotePrefix s hline]
  rfl

/-- The end of the quote. -/
theorem InQuote.closeQuote {t₀ mid : List Char} (h : InQuote (t₀ ++ mid) es (Int32.ofNat (utf16Len t₀)) collapsed s)
    (hne : mid ≠ []) (hshort : utf16Len mid < 2 ^ 31) :
    Has (t₀ ++ mid) (es ++ [⟨Int32.ofNat (utf16Len t₀), Int32.ofNat (utf16Len mid), .blockquote collapsed⟩])
      s.closeQuote := by
  have hlen : s.utf16Off - Int32.ofNat (utf16Len t₀) = Int32.ofNat (utf16Len mid) := by
    rw [h.off_eq, utf16Len_append, Int32.ofNat_add, Int32.add_comm, Int32.add_sub_cancel]
  have hpos : 0 < Int32.ofNat (utf16Len mid) := by
    have := utf16Len_pos hne
    rw [Int32.lt_iff_toInt_lt, Int32.toInt_zero, toInt_ofNat_of_fits hshort]
    omega
  have hclose : s.closeQuote =
      { s.pushEnt (makeBlockquote (Int32.ofNat (utf16Len t₀)) (Int32.ofNat (utf16Len mid)) collapsed) with
        bqStartOff := none } := by
    simp [MdState.closeQuote, h.start_eq, hlen, hpos, h.type_eq]
  rw [hclose]
  refine ⟨h.out_eq, h.off_eq, ?_, rfl⟩
  simp [pushEnt, h.ents_eq, makeBlockquote]

end MdState

/-! The round trip. -/

/-- What a single entity must look like to come back: labels that need no escapes, a target without
    a closing parenthesis that is no mention, code without its own delimiter, a language that is one
    trimmed line, and a quote of whole lines. -/
def ComesBack (pre mid post : List Char) : EntityKind → Prop
  | .textUrl url =>
    (∀ c ∈ mid, isV2Escapable c = false) ∧ ')' ∉ url ∧ (stripPrefix mentionPrefix url).bind parseI64 = none
  | .mentionName _ => ∀ c ∈ mid, isV2Escapable c = false
  | .customEmoji _ => ∀ c ∈ mid, isV2Escapable c = false
  | .code => '`' ∉ mid
  | .pre language =>
    ¬ MdState.fence <:+: mid ∧ mid.getLast? ≠ some '\n' ∧ trim language = language ∧ '\n' ∉ language ∧
      ¬ MdState.fence <:+: language
  | .blockquote _ => endsLine pre ∧ (post = [] ∨ mid.getLast? = some '\n')
  | _ => False

namespace Single

variable {e : MessageEntity} {pre mid post : List Char} (hs : Single e pre mid post)

theorem flatMap_writtenAs_verbatim {kind : EntityKind} (h : kind.isVerbatim = true) (cs : List Char) :
    cs.flatMap (writtenAs kind) = cs := by
  have hsame : writtenAs kind = fun c => [c] := by
    funext c
    simp [writtenAs, h]
  rw [hsame, List.flatMap_singleton']

theorem flatMap_writtenAs_label {kind : EntityKind} (h : kind.isVerbatim = false) {cs : List Char}
    (hlabel : ∀ c ∈ cs, isV2Escapable c = false) : cs.flatMap (writtenAs kind) = cs := by
  induction cs with
  | nil => rfl
  | cons c cs ih =>
    have hc : writtenAs kind c = [c] := by
      simp [writtenAs, h, MdState.written, hlabel c List.mem_cons_self]
    rw [List.flatMap_cons, hc, ih fun d hd => hlabel d (List.mem_cons_of_mem _ hd)]
    rfl

theorem parse_of_has {chars t : List Char} {es : List MessageEntity}
    (h : (MdState.run .init chars).closeQuote.Has t es) : parseMarkdown chars = (t, es) := by
  have hparse : parseMarkdown chars =
      ((MdState.run .init chars).closeQuote.out, (MdState.run .init chars).closeQuote.ents) := rfl
  rw [hparse, h.out_eq, h.ents_eq]

theorem has_init : MdState.Has [] [] .init := ⟨rfl, rfl, rfl, rfl⟩

include hs

theorem eq_mk : e = ⟨Int32.ofNat (utf16Len pre), Int32.ofNat (utf16Len mid), e.kind⟩ := by
  rw [← hs.covers.offset_ofNat, ← hs.covers.length_ofNat]

/-- An entity that is read in one piece comes back. -/
theorem parse_of_piece (hquote : e.kind.quote? = none)
    (hread : ∀ s : MdState, s.Has pre [] → ∃ s' : MdState, s'.Has (pre ++ mid) [e] ∧ ∀ rest,
      s.run (openText insertion e ++ (mid.flatMap (writtenAs e.kind) ++ (closeText insertion e ++ rest))) = s'.run rest) :
    parseMarkdown (generateMarkdown (pre ++ (mid ++ post)) [e]) = (pre ++ (mid ++ post), [e]) := by
  apply parse_of_has
  rw [hs.generate_around hquote]
  obtain ⟨s₁, h₁, -, hrun₁⟩ := has_init.run_text pre (openText insertion e ++ (mid.flatMap (writtenAs e.kind) ++
    (closeText insertion e ++ post.flatMap MdState.written)))
  rw [List.nil_append] at h₁
  obtain ⟨s₂, h₂, hrun₂⟩ := hread s₁ h₁
  obtain ⟨s₃, h₃, -, hrun₃⟩ := h₂.run_text post []
  rw [List.append_nil, MdState.run_nil] at hrun₃
  rw [hrun₁, hrun₂, hrun₃]
  have hclose : s₃.closeQuote = s₃ := by simp [MdState.closeQuote, h₃.no_quote]
  rw [hclose]
  rwa [List.append_assoc] at h₃

/-- A link, mention or custom emoji, whose label is taken as it stands. -/
theorem parse_of_label {url : List Char} (hlabel : ∀ c ∈ mid, isV2Escapable c = false) (hurl : ')' ∉ url)
    (hmarks : insertion e = some (['['], [']', '('] ++ url ++ [')'])) (hkind : linkKind url = e.kind)
    (hverb : e.kind.isVerbatim = false) (hquote : e.kind.quote? = none) :
    parseMarkdown (generateMarkdown (pre ++ (mid ++ post)) [e]) = (pre ++ (mid ++ post), [e]) := by
  apply hs.parse_of_piece hquote
  intro s h
  have hbrackets : ∀ c ∈ mid, c ≠ '[' ∧ c ≠ ']' := by
    intro c hc
    exact ⟨MdState.ne_of_not_escapable (hlabel c hc) (by decide), MdState.ne_of_not_escapable (hlabel c hc) (by decide)⟩
  have hspan := h.leaveLineStart.pushSpan mid e.kind
  rw [List.nil_append, ← hs.eq_mk] at hspan
  refine ⟨_, hspan, ?_⟩
  intro rest
  have hmid := flatMap_writtenAs_label hverb hlabel
  have hopen : openText insertion e = ['['] := by simp [openText, hmarks]
  have hclose : closeText insertion e = [']', '('] ++ url ++ [')'] := by simp [closeText, hmarks]
  rw [hopen, hclose, hmid, MdState.run_link s hbrackets hurl, hkind]

theorem parse_emoji {documentId : Int64} (hkind : e.kind = .customEmoji documentId)
    (hlabel : ∀ c ∈ mid, isV2Escapable c = false) :
    parseMarkdown (generateMarkdown (pre ++ (mid ++ post)) [e]) = (pre ++ (mid ++ post), [e]) := by
  apply hs.parse_of_piece (by rw [hkind]; rfl)
  intro s h
  have hbracket : ']' ∉ mid := fun hmem => absurd (hlabel _ hmem) (by decide)
  have hspan := h.leaveLineStart.pushSpan mid e.kind
  rw [List.nil_append, ← hs.eq_mk] at hspan
  refine ⟨_, hspan, ?_⟩
  intro rest
  have hmid : mid.flatMap (writtenAs e.kind) = mid := flatMap_writtenAs_label (by rw [hkind]; rfl) hlabel
  have hopen : openText insertion e = ['!', '['] := by simp [openText, insertion, hkind]
  have hclose : closeText insertion e =
      [']', '('] ++ emojiPrefix ++ Decimal.format documentId.toInt ++ [')'] := by
    simp [closeText, insertion, hkind]
  rw [hopen, hclose, hmid, MdState.run_emoji s hbracket, hkind]

theorem parse_code (hkind : e.kind = .code) (hcode : '`' ∉ mid) :
    parseMarkdown (generateMarkdown (pre ++ (mid ++ post)) [e]) = (pre ++ (mid ++ post), [e]) := by
  apply hs.parse_of_piece (by rw [hkind]; rfl)
  intro s h
  have hspan := h.leaveLineStart.pushCode mid e.kind
  rw [List.nil_append, ← hs.eq_mk] at hspan
  refine ⟨_, hspan, ?_⟩
  intro rest
  have hmid : mid.flatMap (writtenAs e.kind) = mid := flatMap_writtenAs_verbatim (by rw [hkind]; rfl) mid
  have hopen : openText insertion e = ['`'] := by simp [openText, insertion, hkind]
  have hclose : closeText insertion e = ['`'] := by simp [closeText, insertion, hkind]
  rw [hopen, hclose, hmid, MdState.run_code s hcode hs.covers.mid_ne_nil, hkind]

theorem parse_pre {language : List Char} (hkind : e.kind = .pre language)
    (hback : ComesBack pre mid post (.pre language)) :
    parseMarkdown (generateMarkdown (pre ++ (mid ++ post)) [e]) = (pre ++ (mid ++ post), [e]) := by
  obtain ⟨hcode, hlast, htrim, hline, hlang⟩ := hback
  apply hs.parse_of_piece (by rw [hkind]; rfl)
  intro s h
  have hspan := h.leaveLineStart.pushCode mid e.kind
  rw [List.nil_append, ← hs.eq_mk] at hspan
  refine ⟨_, hspan, ?_⟩
  intro rest
  have hmid : mid.flatMap (writtenAs e.kind) = mid := flatMap_writtenAs_verbatim (by rw [hkind]; rfl) mid
  have hopen : openText insertion e = ['`', '`', '`'] ++ language ++ ['\n'] := by
    simp [openText, insertion, hkind, htrim]
  have hclose : closeText insertion e = ['\n', '`', '`', '`'] := by simp [closeText, insertion, hkind]
  rw [hopen, hclose, hmid, MdState.run_pre s hline hlang hcode hlast, hkind, htrim]

theorem parse_quote {collapsed : Bool} (hkind : e.kind = .blockquote collapsed)
    (hback : ComesBack pre mid post (.blockquote collapsed)) :
    parseMarkdown (generateMarkdown (pre ++ (mid ++ post)) [e]) = (pre ++ (mid ++ post), [e]) := by
  obtain ⟨hpre, hpost⟩ := hback
  have hmid : utf16Len mid < 2 ^ 31 := by
    have := hs.short_mid
    rw [utf16Len_append] at this
    omega
  obtain ⟨s₁, h₁, hline₁, hrun₁⟩ := has_init.run_text pre
    (quoteLines collapsed true mid ++ post.flatMap MdState.written)
  rw [List.nil_append] at h₁
  have hstart : s₁.atLineStart = true := by
    rw [hline₁]
    rcases hpre with rfl | hpre
    · rfl
    · simp [MdState.lineStartAfter, hpre]
  obtain ⟨s₂, h₂, hline₂, hrun₂⟩ := h₁.run_lines hstart hs.covers.mid_ne_nil collapsed
    (post.flatMap MdState.written)
  have hclosed := h₂.closeQuote hs.covers.mid_ne_nil hmid
  rw [List.nil_append, ← hkind, ← hs.eq_mk] at hclosed
  apply parse_of_has
  rw [hs.generate_quoted hkind hpre, hrun₁, hrun₂]
  cases post with
  | nil => simpa using hclosed
  | cons c cs =>
    -- the next line closes the quote
    have hlast := hpost.resolve_left (by simp)
    have hline : s₂.atLineStart = true := by
      rw [hline₂]
      simp [MdState.lineStartAfter, hlast]
    have hleave : MdState.Has (pre ++ mid) [e] s₂.leaveLineStart := by
      have hleft : s₂.leaveLineStart = { s₂.closeQuote with atLineStart := false } := by
        simp [MdState.leaveLineStart, hline]
      rw [hleft]
      exact ⟨hclosed.out_eq, hclosed.off_eq, hclosed.ents_eq, hclosed.no_quote⟩
    obtain ⟨s₃, h₃, -, hrun₃⟩ := (MdState.has_takeChar hleave c).run_text cs []
    rw [List.append_nil, MdState.run_nil] at hrun₃
    have hend : s₃.closeQuote = s₃ := by simp [MdState.closeQuote, h₃.no_quote]
    rw [List.flatMap_cons, MdState.run_written, hrun₃, hend]
    simpa using h₃

end Single

/-- Markdown generated from a text and one link, code or quote entity is parsed back to both. -/
theorem single_entity_round_trip (e : MessageEntity) (pre mid post : List Char) (hcov : e.Covers pre mid)
    (hshort : utf16Len (pre ++ (mid ++ post)) < 2 ^ 31) (hback : ComesBack pre mid post e.kind) :
    parseMarkdown (generateMarkdown (pre ++ (mid ++ post)) [e]) = (pre ++ (mid ++ post), [e]) := by
  have hs : Single e pre mid post := ⟨hcov, hshort⟩
  cases hkind : e.kind with
  | textUrl url =>
    rw [hkind] at hback
    obtain ⟨hlabel, hurl, hmention⟩ := hback
    apply hs.parse_of_label hlabel hurl
    · simp [insertion, hkind]
    · simp [linkKind, hmention, hkind]
    · rw [hkind]; rfl
    · rw [hkind]; rfl
  | mentionName userId =>
    rw [hkind] at hback
    have hurl := MdState.not_mem_target (show ')' ∉ mentionPrefix by decide) userId.toInt
    apply hs.parse_of_label hback hurl
    · simp [insertion, hkind]
    · simp [linkKind, stripPrefix_append, parseI64_format, hkind]
    · rw [hkind]; rfl
    · rw [hkind]; rfl
  | customEmoji documentId =>
    rw [hkind] at hback
    exact hs.parse_emoji hkind hback
  | code =>
    rw [hkind] at hback
    exact hs.parse_code hkind hback
  | pre language =>
    rw [hkind] at hback
    exact hs.parse_pre hkind hback
  | blockquote collapsed =>
    rw [hkind] at hback
    exact hs.parse_quote hkind hback
  | bold | italic | underline | strike | spoiler | formattedDate | other =>
    rw [hkind] at hback
    exact absurd hback id

/-- A link behind a character that is escaped. -/
theorem single_link_round_trip :
    parseMarkdown (generateMarkdown ['!', 'y'] [⟨1, 1, .textUrl ['u']⟩]) = (['!', 'y'], [⟨1, 1, .textUrl ['u']⟩]) :=
  single_entity_round_trip ⟨1, 1, .textUrl ['u']⟩ ['!'] ['y'] [] ⟨rfl, rfl, by decide⟩ (by decide)
    ⟨by simp [isV2Escapable], by decide, by decide⟩

/-- The label of a link is not unescaped (`a\.b` comes back), and a target that names a user makes a
    mention. -/
theorem single_link_changes :
    (MessageEntity.Covers ⟨0, 3, .textUrl ['u']⟩ [] ['a', '.', 'b'] ∧ ')' ∉ ['u'] ∧
      parseMarkdown (generateMarkdown ['a', '.', 'b'] [⟨0, 3, .textUrl ['u']⟩]) ≠
        (['a', '.', 'b'], [⟨0, 3, .textUrl ['u']⟩])) ∧
    (MessageEntity.Covers ⟨0, 1, .textUrl (mentionPrefix ++ ['7'])⟩ [] ['a'] ∧ ')' ∉ mentionPrefix ++ ['7'] ∧
      parseMarkdown (generateMarkdown ['a'] [⟨0, 1, .textUrl (mentionPrefix ++ ['7'])⟩]) ≠
        (['a'], [⟨0, 1, .textUrl (mentionPrefix ++ ['7'])⟩])) :=
  ⟨⟨⟨rfl, rfl, by decide⟩, by decide, by decide⟩, ⟨rfl, rfl, by decide⟩, by decide, by decide⟩

end Ferogram.Parsers
