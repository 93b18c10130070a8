import Ferogram.Parsers.RichInline

/- Escaped delimiters inside a span of rich markdown. The loop reads a backslash
   with the character behind it, but the searches for a closing mark look at the
   characters one by one: they find an escaped mark as well, and the brackets of
   a label count whether they are escaped or not.

   `Written w t` says that `w` is `t` with a backslash in front of every
   delimiter. `protects_iff` says for which texts the span then holds `t`. -/
namespace Ferogram.Parsers.Rich
open Str

/-- The characters of the marks, and of those that are tried before. -/
def marks : List Char := ['=', '|', '~', '*', '_', '$']

/-- The characters that can open a span or a tag, or an escape; `!` does it only in front of a bracket. -/
def openers : List Char := '\\' :: '<' :: '`' :: '[' :: marks

def delimiters : List Char := ']' :: openers

/-- A text with a backslash in front of each of its delimiters, and what it stands for. -/
inductive Written : List Char → List Char → Prop
  | nil : Written [] []
  | escaped (c : Char) {w t : List Char} (h : Written w t) : Written ('\\' :: c :: w) (c :: t)
  | plain {c : Char} {w t : List Char} (hc : c ∉ delimiters) (h : Written w t) : Written (c :: w) (c :: t)

/-! The spans. -/

inductive SpanKind where
  | marked
  | spoiler
  | strike
  | bold
  | boldLine
  | italic
  | italicLine
  | link (target : {url : List Char // ')' ∉ url})

/-- The mark that opens and closes a span, and whether it stands there twice. -/
def SpanKind.mark? : SpanKind → Option (Char × Bool)
  | .marked => some ('=', true)
  | .spoiler => some ('|', true)
  | .strike => some ('~', true)
  | .bold => some ('*', true)
  | .boldLine => some ('_', true)
  | .italic => some ('*', false)
  | .italicLine => some ('_', false)
  | .link _ => none

def markText : Char × Bool → List Char
  | (ch, true) => [ch, ch]
  | (ch, false) => [ch]

def SpanKind.opening (kind : SpanKind) : List Char := (kind.mark?.map markText).getD ['[']

def SpanKind.closing : SpanKind → List Char
  | .link target => ']' :: '(' :: (target.val ++ [')'])
  | kind => (kind.mark?.map markText).getD []

def SpanKind.wrap? : SpanKind → Option Wrap
  | .marked => some .marked
  | .spoiler => some .spoiler
  | .strike => some .strike
  | .bold => some .bold
  | .boldLine => some .bold
  | .italic => some .italic
  | .italicLine => some .italic
  | .link target => (stripUrlTitle target.val).map .link

/-- Between its marks, `w` is one span, and that holds `t`. -/
def SpanKind.Protects (kind : SpanKind) (w t : List Char) : Prop :=
  ∃ fuel wrap, kind.wrap? = some wrap ∧
    parseRichInlineMd fuel (kind.opening ++ (w ++ kind.closing)) = some (wrap.apply (rtPlain t))

/-- The depth in brackets behind a character; none where it comes to 0. -/
def depthBehind (depth : Nat) (c : Char) : Option Nat :=
  if c = '[' then some (depth + 1) else if c = ']' then if depth = 1 then none else some (depth - 1) else some depth

/-- The depth behind a text. -/
def bracketDepth (depth : Nat) (text : List Char) : Option Nat := text.foldlM depthBehind depth

/-- What a text must not hold: its mark, if that is a single one; the mark at its end, if that is a double one;
    and a label must hold its brackets in pairs. -/
def SpanKind.Spares (kind : SpanKind) (t : List Char) : Prop :=
  match kind.mark? with
  | some (ch, true) => t.getLast? ≠ some ch
  | some (ch, false) => ch ∉ t
  | none => bracketDepth 1 t = some 1

/-- The text inside a piece of rich text. -/
def RichText.inner? : RichText → Option RichText
  | .bold text | .italic text | .underline text | .strike text | .fixed text | .marked text | .spoiler text
  | .subscript text | .superscript text | .url text _ | .email text _ | .phone text _ | .mentionName text _
  | .anchor text _ | .date text _ _ => some text
  | _ => none

theorem Wrap.apply_inner (wrap : Wrap) (rt : RichText) : (wrap.apply rt).inner? = some rt := by
  cases wrap with
  | link url =>
    show (buildLinkRt rt url).inner? = some rt
    unfold buildLinkRt
    split
    · rfl
    · split
      · rfl
      · split
        · rfl
        · split
          · rfl
          · unfold parseTgScheme
            split <;> rfl
  | _ => rfl

theorem RichText.isEmpty_of_inner {rt text : RichText} (h : rt.inner? = some text) : rt.isEmpty = false := by
  cases rt with
  | empty => cases h
  | _ => rfl

theorem filter_wrap (wrap : Wrap) (rt : RichText) (rest : List RichText) :
    (wrap.apply rt :: rest).filter (!·.isEmpty) = wrap.apply rt :: rest.filter (!·.isEmpty) := by
  apply List.filter_cons_of_pos
  rw [RichText.isEmpty_of_inner (wrap.apply_inner rt)]
  rfl

theorem rtConcat_wrap (wrap : Wrap) (rt : RichText) (rest : List RichText) {text : RichText}
    (h : (rtConcat (wrap.apply rt :: rest)).inner? = some text) : text = rt := by
  unfold rtConcat at h
  rw [filter_wrap] at h
  cases hrest : rest.filter (!·.isEmpty) with
  | nil =>
    rw [hrest] at h
    exact Option.some.inj (h.symm.trans (wrap.apply_inner rt))
  | cons a l =>
    rw [hrest] at h
    cases h

theorem rtPlain_of_ne {text : List Char} (h : text ≠ []) : rtPlain text = .plain text := if_neg h

/-- A part of plain text stays one. -/
theorem rtConcat_plain {text : List Char} (h : text ≠ []) (rest : List RichText) :
    rtConcat (rtPlain text :: rest) = .plain text ∨ ∃ texts, rtConcat (rtPlain text :: rest) = .concat texts := by
  unfold rtConcat
  rw [rtPlain_of_ne h, List.filter_cons_of_pos rfl]
  cases rest.filter (!·.isEmpty) with
  | nil => exact .inl rfl
  | cons a l => exact .inr ⟨_, rfl⟩

/-! Written texts. -/

section
variable {w t s : List Char} {ch : Char}

theorem Written.head_ne (h : Written w t) (hch : ch ∈ delimiters) (hback : ch ≠ '\\') : w.head? ≠ some ch := by
  intro hhead
  cases h with
  | nil => cases hhead
  | escaped c h => exact hback (Option.some.inj hhead).symm
  | plain hc h => exact hc (Option.some.inj hhead ▸ hch)

theorem Written.head_append_ne (h : Written w t) (hch : ch ∈ delimiters) (hback : ch ≠ '\\')
    (hs : s.head? ≠ some ch) : (w ++ s).head? ≠ some ch := by
  cases w with
  | nil => exact hs
  | cons c w => exact h.head_ne hch hback

/-- The last character of a written text, with its backslash if it has one. -/
theorem Written.last (h : Written w t) : w = [] ∧ t = [] ∨ ∃ pre tpre tok c, Written pre tpre ∧ w = pre ++ tok ∧
    t = tpre ++ [c] ∧ (tok = ['\\', c] ∨ tok = [c] ∧ c ∉ delimiters) := by
  induction h with
  | nil => exact .inl ⟨rfl, rfl⟩
  | escaped c h ih =>
    rcases ih with ⟨rfl, rfl⟩ | ⟨pre, tpre, tok, d, hpre, rfl, rfl, htok⟩
    · exact .inr ⟨[], [], ['\\', c], c, .nil, rfl, rfl, .inl rfl⟩
    · exact .inr ⟨'\\' :: c :: pre, c :: tpre, tok, d, hpre.escaped c, rfl, rfl, htok⟩
  | plain hc h ih =>
    rcases ih with ⟨rfl, rfl⟩ | ⟨pre, tpre, tok, d, hpre, rfl, rfl, htok⟩
    · exact .inr ⟨[], [], [_], _, .nil, rfl, rfl, .inr ⟨rfl, hc⟩⟩
    · exact .inr ⟨_ :: pre, _ :: tpre, tok, d, hpre.plain hc, rfl, rfl, htok⟩

/-- Of the delimiters only escaped ones stand there. -/
theorem Written.not_mem (h : Written w t) (hback : ch ≠ '\\') (hnot : ch ∉ t) : ch ∉ w := by
  induction h with
  | nil => exact hnot
  | escaped c h ih =>
    rw [List.mem_cons, not_or] at hnot
    simp only [List.mem_cons, not_or]
    exact ⟨hback, hnot.1, ih hnot.2⟩
  | plain hc h ih =>
    rw [List.mem_cons, not_or] at hnot ⊢
    exact ⟨hnot.1, ih hnot.2⟩

/-- The first place of a delimiter. -/
theorem Written.split (h : Written w t) (hch : ch ∈ delimiters) (hback : ch ≠ '\\') (hmem : ch ∈ t) :
    ∃ pre tpre w' t', Written pre tpre ∧ w = pre ++ '\\' :: ch :: w' ∧ t = tpre ++ ch :: t' ∧ ch ∉ pre := by
  induction h with
  | nil => cases hmem
  | @escaped c w t h ih =>
    by_cases hc : c = ch
    · subst hc
      exact ⟨[], [], w, t, .nil, rfl, rfl, List.not_mem_nil⟩
    · have hmem' : ch ∈ t := (List.mem_cons.mp hmem).resolve_left (Ne.symm hc)
      obtain ⟨pre, tpre, w', t', hpre, rfl, rfl, hnot⟩ := ih hmem'
      refine ⟨'\\' :: c :: pre, c :: tpre, w', t', hpre.escaped c, rfl, rfl, ?_⟩
      simp only [List.mem_cons, not_or]
      exact ⟨hback, Ne.symm hc, hnot⟩
  | @plain c w t hc h ih =>
    have hne : ch ≠ c := fun heq => hc (heq ▸ hch)
    obtain ⟨pre, tpre, w', t', hpre, rfl, rfl, hnot⟩ := ih ((List.mem_cons.mp hmem).resolve_left hne)
    refine ⟨c :: pre, c :: tpre, w', t', hpre.plain hc, rfl, rfl, ?_⟩
    rw [List.mem_cons, not_or]
    exact ⟨hne, hnot⟩

end

/-! A turn. -/

section
variable {c : Char} {rest : List Char}

theorem readMdEscape_of_ne (h : c ≠ '\\') : readMdEscape (c :: rest) = none := by
  unfold readMdEscape
  split
  · next heq => exact absurd (List.cons.inj heq).1 h
  · rfl

theorem twoCharSpan_of_ne {ch : Char} (w : Wrap) (h : c ≠ ch) : twoCharSpan ch w (c :: rest) = none := by
  unfold twoCharSpan
  split
  · next heq =>
    obtain ⟨rfl, rfl⟩ := List.cons.inj heq
    exact if_neg fun hand => h hand.1
  · rfl

theorem oneCharSpan_of_ne {ch : Char} (span : List Char → Span) (h : c ≠ ch) :
    oneCharSpan ch span (c :: rest) = none := if_neg h

theorem tryParseMdLink_of_ne (h : rest.head? ≠ some '[') : tryParseMdLink rest = some none := by
  unfold tryParseMdLink
  split
  · exact absurd rfl h
  · rfl

theorem imageSpan_of_ne (h : c = '!' → rest.head? ≠ some '[') : imageSpan (c :: rest) = some none := by
  unfold imageSpan
  split
  · next heq =>
    obtain ⟨rfl, rfl⟩ := List.cons.inj heq
    rw [tryParseMdLink_of_ne (h rfl)]
    rfl
  · rfl

/-- Up to the delimiters, with no escape, no tag, no code and no image. -/
theorem mdInlineTurn_eq (hesc : readMdEscape (c :: rest) = none) (htag : c ≠ '<') (hcode : c ≠ '`')
    (himage : c = '!' → rest.head? ≠ some '[') {link : Option (Span × List Char)}
    (hlink : linkSpan (c :: rest) = some link) :
    mdInlineTurn c rest =
      some (link.getD ((readMdDelimiters (c :: rest)).getD (.literal [c], rest))) := by
  have htagSpan : tagSpan (c :: rest) = some none := if_neg fun h => htag (Option.some.inj h)
  have hfence : readMdFence (c :: rest) = none := by
    unfold readMdFence
    split
    · next heq => exact absurd (List.cons.inj heq).1 hcode
    · rfl
  unfold mdInlineTurn
  simp only [hesc, htagSpan, hfence, oneCharSpan_of_ne _ hcode, imageSpan_of_ne himage, hlink, Option.bind_eq_bind,
    Option.bind_some]
  cases link <;> rfl

theorem linkSpan_of_ne (h : c ≠ '[') : linkSpan (c :: rest) = some none := by
  unfold linkSpan
  have hne : (c :: rest).head? ≠ some '[' := fun hhead => h (Option.some.inj hhead)
  rw [tryParseMdLink_of_ne hne]
  rfl

theorem readMdDelimiters_of_not_mem (h : c ∉ marks) : readMdDelimiters (c :: rest) = none := by
  have hne : ∀ d ∈ marks, c ≠ d := fun d hd heq => h (heq ▸ hd)
  unfold readMdDelimiters
  rw [twoCharSpan_of_ne _ (hne '=' (by decide)), twoCharSpan_of_ne _ (hne '|' (by decide)),
    twoCharSpan_of_ne _ (hne '~' (by decide)), twoCharSpan_of_ne _ (hne '*' (by decide)),
    oneCharSpan_of_ne _ (hne '*' (by decide)), twoCharSpan_of_ne _ (hne '_' (by decide)),
    oneCharSpan_of_ne _ (hne '_' (by decide)), oneCharSpan_of_ne _ (hne '$' (by decide))]
  rfl

/-- A character that opens nothing. -/
theorem mdInlineTurn_literal (h : c ∉ openers) (himage : c = '!' → rest.head? ≠ some '[') :
    mdInlineTurn c rest = some (.literal [c], rest) := by
  have hne : ∀ d ∈ openers, c ≠ d := fun d hd heq => h (heq ▸ hd)
  have hmarks : c ∉ marks := fun hmem => h (by unfold openers; simp [hmem])
  rw [mdInlineTurn_eq (readMdEscape_of_ne (hne '\\' (by decide))) (hne '<' (by decide)) (hne '`' (by decide)) himage
    (linkSpan_of_ne (hne '[' (by decide))), readMdDelimiters_of_not_mem hmarks]
  rfl

theorem mdInlineTurn_escaped : mdInlineTurn '\\' (c :: rest) = some (.literal [c], rest) := rfl

/-- A backslash at the end. -/
theorem mdInlineTurn_backslash : mdInlineTurn '\\' [] = some (.literal ['\\'], []) := by
  rw [mdInlineTurn_eq rfl (by decide) (by decide) (fun h => absurd h (by decide)) (linkSpan_of_ne (by decide))]
  rfl

end

/-! The loop. -/

section
variable {w t s buf : List Char} {fuel : Nat}

/-- A written text goes to the buffer as what it stands for, a turn for each character. -/
theorem mdInlineLoop_written (h : Written w t) (hs : s.head? ≠ some '[') (fuel : Nat) (buf : List Char) :
    mdInlineLoop fuel buf (w ++ s) =
      if t.length ≤ fuel then mdInlineLoop (fuel - t.length) (buf ++ t) s else none := by
  induction h generalizing fuel buf with
  | nil => simp
  | @escaped c w t h ih =>
    cases fuel with
    | zero => rfl
    | succ fuel =>
      rw [List.cons_append, List.cons_append, mdInlineLoop, mdInlineTurn_escaped]
      simp only [Option.bind_eq_bind, Option.bind_some, goOn, ih, List.append_assoc, List.singleton_append, List.length_cons,
        Nat.add_le_add_iff_right, Nat.add_sub_add_right]
  | @plain c w t hc h ih =>
    cases fuel with
    | zero => rfl
    | succ fuel =>
      have hopen : c ∉ openers := fun hmem => hc (List.mem_cons_of_mem _ hmem)
      have himage : c = '!' → (w ++ s).head? ≠ some '[' := fun _ => h.head_append_ne (by decide) (by decide) hs
      rw [List.cons_append, mdInlineLoop, mdInlineTurn_literal hopen himage]
      simp only [Option.bind_eq_bind, Option.bind_some, goOn, ih, List.append_assoc, List.singleton_append, List.length_cons,
        Nat.add_le_add_iff_right, Nat.add_sub_add_right]

theorem rtConcat_flush (text : List Char) : rtConcat (flush id text) = rtPlain text := by
  by_cases h : text = []
  · rw [h]
    rfl
  · show rtConcat (if text = [] then [] else [rtPlain text]) = rtPlain text
    rw [if_neg h, rtPlain_of_ne h]
    rfl

/-- With enough fuel a written text is plain text. -/
theorem parseRichInlineMd_written (h : Written w t) (fuel : Nat) :
    parseRichInlineMd (t.length + 1 + fuel) w = some (rtPlain t) := by
  have hloop := mdInlineLoop_written (s := []) h (fun h => nomatch h) (t.length + 1 + fuel) []
  rw [List.append_nil, if_pos (by omega), show t.length + 1 + fuel - t.length = fuel + 1 from by omega] at hloop
  unfold parseRichInlineMd
  rw [hloop]
  exact congrArg some (rtConcat_flush t)

/-- What stands in the buffer comes first. -/
theorem mdInlineLoop_first {fuel : Nat} {buf chars : List Char} {parts : List RichText} (hbuf : buf ≠ [])
    (h : mdInlineLoop fuel buf chars = some parts) : ∃ more rest, parts = rtPlain (buf ++ more) :: rest := by
  have hflush : flush id buf = [rtPlain buf] := if_neg hbuf
  induction fuel generalizing buf chars parts with
  | zero => cases h
  | succ fuel ih =>
    cases chars with
    | nil => exact ⟨[], [], by rw [← Option.some.inj h, hflush, List.append_nil]⟩
    | cons c rest =>
      rw [mdInlineLoop] at h
      obtain ⟨⟨span, rest'⟩, -, h⟩ := Option.bind_eq_some_iff.mp h
      cases span with
      | literal text =>
        obtain ⟨more, parts', rfl⟩ := ih (List.append_ne_nil_of_left_ne_nil hbuf text) h
          (if_neg (List.append_ne_nil_of_left_ne_nil hbuf text))
        exact ⟨text ++ more, parts', by rw [List.append_assoc]⟩
      | flushed text =>
        obtain ⟨parts', -, h⟩ := Option.bind_eq_some_iff.mp h
        exact ⟨[], parts', by rw [← Option.some.inj h, hflush, List.append_nil]; rfl⟩
      | leaf rt =>
        obtain ⟨parts', -, h⟩ := Option.bind_eq_some_iff.mp h
        exact ⟨[], rt :: parts', by rw [← Option.some.inj h, hflush, List.append_nil]; rfl⟩
      | wrap wrap inner =>
        obtain ⟨rt, -, h⟩ := Option.bind_eq_some_iff.mp h
        obtain ⟨parts', -, h⟩ := Option.bind_eq_some_iff.mp h
        exact ⟨[], wrap.apply rt :: parts', by rw [← Option.some.inj h, hflush, List.append_nil]; rfl⟩

/-- A text that goes on as plain text in another way is not read as `t`. -/
theorem parse_ne {fuel : Nat} {pre tpre s t : List Char} {c : Char} {rt : RichText} (hpre : Written pre tpre)
    (hc : c ≠ '[') (hturn : mdInlineTurn c s = some (.literal [c], s)) (hne : ∀ more, t ≠ tpre ++ c :: more)
    (h : parseRichInlineMd fuel (pre ++ c :: s) = some rt) : rt ≠ rtPlain t := by
  obtain ⟨parts, hloop, rfl⟩ := Option.map_eq_some_iff.mp h
  rw [mdInlineLoop_written (s := c :: s) hpre fun hhead => hc (Option.some.inj hhead)] at hloop
  split at hloop
  · cases hleft : fuel - tpre.length with
    | zero =>
      rw [hleft] at hloop
      cases hloop
    | succ left =>
      rw [hleft, mdInlineLoop, hturn] at hloop
      obtain ⟨more, parts', rfl⟩ := mdInlineLoop_first (by simp) hloop
      have hnil : ([] ++ tpre ++ [c] ++ more : List Char) = tpre ++ c :: more := by simp
      rw [hnil]
      intro heq
      have hplain : rtPlain t = .plain (tpre ++ c :: more) := by
        have htext : tpre ++ c :: more ≠ [] := by simp
        rcases rtConcat_plain htext parts' with hone | ⟨texts, hmany⟩
        · exact heq.symm.trans hone
        · rw [hmany] at heq
          unfold rtPlain at heq
          split at heq <;> cases heq
      unfold rtPlain at hplain
      split at hplain
      · cases hplain
      · exact hne more (RichText.plain.inj hplain)
  · cases hloop

/-- A turn that finds the whole text between the marks. -/
theorem parse_of_turn {c : Char} {rest w t : List Char} {wrap : Wrap} (hw : Written w t)
    (hturn : mdInlineTurn c rest = some (.wrap wrap w, [])) :
    parseRichInlineMd (t.length + 2) (c :: rest) = some (wrap.apply (rtPlain t)) := by
  have hinner := parseRichInlineMd_written hw 0
  have hloop : mdInlineLoop (t.length + 2) [] (c :: rest) = some [wrap.apply (rtPlain t)] := by
    rw [mdInlineLoop, hturn]
    show ((mdInlineLoop (t.length + 1) [] w).map rtConcat).bind _ = _
    rw [show (mdInlineLoop (t.length + 1) [] w).map rtConcat = some (rtPlain t) from hinner]
    rfl
  unfold parseRichInlineMd
  rw [hloop]
  show some (rtConcat [wrap.apply (rtPlain t)]) = _
  unfold rtConcat
  rw [filter_wrap]
  rfl

/-- A turn that finds another text. -/
theorem parse_ne_of_turn {c : Char} {rest inner after t : List Char} {wrap : Wrap}
    (hturn : mdInlineTurn c rest = some (.wrap wrap inner, after))
    (hinner : ∀ fuel rt, parseRichInlineMd fuel inner = some rt → rt ≠ rtPlain t) (fuel : Nat) (wrap' : Wrap) :
    parseRichInlineMd fuel (c :: rest) ≠ some (wrap'.apply (rtPlain t)) := by
  intro h
  obtain ⟨parts, hloop, heq⟩ := Option.map_eq_some_iff.mp h
  cases fuel with
  | zero => cases hloop
  | succ fuel =>
    rw [mdInlineLoop, hturn] at hloop
    simp only [Option.bind_eq_bind, Option.bind_some, goOn] at hloop
    obtain ⟨rt, hrt, hloop⟩ := Option.bind_eq_some_iff.mp hloop
    obtain ⟨parts', -, hparts⟩ := Option.bind_eq_some_iff.mp hloop
    have hparts : wrap.apply rt :: parts' = parts := Option.some.inj hparts
    rw [← hparts] at heq
    have hwrap := rtConcat_wrap wrap rt parts' ((congrArg RichText.inner? heq).trans (wrap'.apply_inner _))
    exact hinner fuel rt hrt hwrap.symm

end

/-! The closing mark. -/

section
variable {w t s : List Char} {ch : Char}

theorem findTwoCharClose_cons {c : Char} {rest : List Char} (h : c = ch → rest.head? ≠ some ch) :
    findTwoCharClose ch (c :: rest) = (findTwoCharClose ch rest).map fun r => (c :: r.1, r.2) := by
  cases rest with
  | nil => rfl
  | cons d rest => exact if_neg fun hand => h hand.1 (congrArg some hand.2)

/-- In a written text no two delimiters stand side by side. -/
theorem findTwoCharClose_written (hw : Written w t) (hch : ch ∈ delimiters) (hback : ch ≠ '\\')
    (hs : s.head? ≠ some ch) :
    findTwoCharClose ch (w ++ s) = (findTwoCharClose ch s).map fun r => (w ++ r.1, r.2) := by
  induction hw with
  | nil => simp
  | escaped c h ih =>
    have hhead := h.head_append_ne hch hback hs
    rw [List.cons_append, List.cons_append, findTwoCharClose_cons fun h => absurd h.symm hback,
      findTwoCharClose_cons fun _ => hhead, ih]
    cases findTwoCharClose ch s <;> rfl
  | @plain c w t hc h ih =>
    have hne : c ≠ ch := fun heq => hc (heq ▸ hch)
    rw [List.cons_append, findTwoCharClose_cons fun heq => absurd heq hne, ih]
    cases findTwoCharClose ch s <;> rfl

/-- A double mark is found behind the text, or one too early. -/
theorem findTwoCharClose_closing (hw : Written w t) (hch : ch ∈ delimiters) (hback : ch ≠ '\\') :
    (t.getLast? ≠ some ch → findTwoCharClose ch (w ++ [ch, ch]) = some (w, [])) ∧
    (t.getLast? = some ch → ∃ pre tpre, Written pre tpre ∧ t = tpre ++ [ch] ∧
      findTwoCharClose ch (w ++ [ch, ch]) = some (pre ++ ['\\'], [ch])) := by
  have hmark : findTwoCharClose ch [ch, ch] = some ([], []) := if_pos ⟨rfl, rfl⟩
  rcases hw.last with ⟨rfl, rfl⟩ | ⟨pre, tpre, tok, c, hpre, rfl, rfl, htok⟩
  · exact ⟨fun _ => hmark, fun h => nomatch h⟩
  · have hlast : (tpre ++ [c]).getLast? = some c := List.getLast?_concat
    rw [hlast]
    have hfound : ∀ r, findTwoCharClose ch (tok ++ [ch, ch]) = some r → (tok ++ [ch, ch]).head? ≠ some ch →
        findTwoCharClose ch (pre ++ tok ++ [ch, ch]) = some (pre ++ r.1, r.2) := by
      intro r hr hhead
      rw [List.append_assoc, findTwoCharClose_written hpre hch hback hhead, hr]
      rfl
    rcases htok with rfl | ⟨rfl, hc⟩
    · have hhead : (['\\', c] ++ [ch, ch]).head? ≠ some ch := fun h => hback (Option.some.inj h).symm
      have hskip : findTwoCharClose ch (['\\', c] ++ [ch, ch]) =
          (findTwoCharClose ch [c, ch, ch]).map fun r => ('\\' :: r.1, r.2) :=
        findTwoCharClose_cons fun h => absurd h.symm hback
      constructor
      · intro hne
        have hc : c ≠ ch := fun heq => hne (congrArg some heq)
        rw [hfound (['\\', c], []) _ hhead]
        rw [hskip, findTwoCharClose_cons fun heq => absurd heq hc, hmark]
        rfl
      · intro heq
        obtain rfl := Option.some.inj heq
        refine ⟨pre, tpre, hpre, rfl, hfound (['\\'], [c]) ?_ hhead⟩
        rw [hskip]
        have hearly : findTwoCharClose c [c, c, c] = some ([], [c]) := if_pos ⟨rfl, rfl⟩
        rw [hearly]
        rfl
    · have hne : c ≠ ch := fun heq => hc (heq ▸ hch)
      refine ⟨fun _ => ?_, fun heq => absurd (Option.some.inj heq) hne⟩
      rw [hfound ([c], []) _ fun h => hne (Option.some.inj h)]
      rw [List.singleton_append, findTwoCharClose_cons fun heq => absurd heq hne, hmark]
      rfl

theorem splitLabel_cons (depth : Nat) (c : Char) (rest : List Char) :
    splitLabel depth (c :: rest) =
      match depthBehind depth c with
      | none => some ([], rest)
      | some d => (splitLabel d rest).map fun r => (c :: r.1, r.2) := by
  rw [splitLabel]
  unfold depthBehind
  split
  · rfl
  · split
    · split <;> rfl
    · rfl

theorem depthBehind_ne {depth d : Nat} {c : Char} (h : depthBehind depth c = some d) (hdepth : depth ≠ 0) : d ≠ 0 := by
  unfold depthBehind at h
  split at h
  · cases h
    omega
  · split at h
    · split at h
      · cases h
      · cases h
        omega
    · cases h
      exact hdepth

theorem depthBehind_eq_none {depth : Nat} {c : Char} (h : depthBehind depth c = none) : c = ']' := by
  unfold depthBehind at h
  split at h
  · cases h
  · split at h
    · assumption
    · cases h

theorem depthBehind_of_ne {depth : Nat} {c : Char} (hopen : c ≠ '[') (hclose : c ≠ ']') :
    depthBehind depth c = some depth := by
  unfold depthBehind
  rw [if_neg hopen, if_neg hclose]

/-- A label goes on behind a written text at the depth of that, or ends in it at an escaped bracket. -/
theorem splitLabel_written (hw : Written w t) (s : List Char) (depth : Nat) (hdepth : depth ≠ 0) :
    (∃ d, d ≠ 0 ∧ bracketDepth depth t = some d ∧
      splitLabel depth (w ++ s) = (splitLabel d s).map fun r => (w ++ r.1, r.2)) ∨
    ∃ pre tpre t' after, bracketDepth depth t = none ∧ Written pre tpre ∧ t = tpre ++ ']' :: t' ∧
      splitLabel depth (w ++ s) = some (pre ++ ['\\'], after) := by
  induction hw generalizing depth with
  | nil => exact .inl ⟨depth, hdepth, rfl, by simp⟩
  | @escaped c w t h ih =>
    have hback : depthBehind depth '\\' = some depth := depthBehind_of_ne (by decide) (by decide)
    rw [List.cons_append, List.cons_append, splitLabel_cons, hback]
    simp only
    rw [splitLabel_cons]
    have hdeep : bracketDepth depth (c :: t) = (depthBehind depth c).bind (bracketDepth · t) := List.foldlM_cons
    rw [hdeep]
    cases hc : depthBehind depth c with
    | none =>
      obtain rfl := depthBehind_eq_none hc
      exact .inr ⟨[], [], t, w ++ s, rfl, .nil, rfl, rfl⟩
    | some d =>
      rcases ih d (depthBehind_ne hc hdepth) with ⟨d', hd', hdeep, hfound⟩ | ⟨pre, tpre, t', after, hdeep, hpre, rfl, hfound⟩
      · refine .inl ⟨d', hd', hdeep, ?_⟩
        simp only
        rw [hfound]
        cases splitLabel d' s <;> rfl
      · refine .inr ⟨'\\' :: c :: pre, c :: tpre, t', after, hdeep, hpre.escaped c, rfl, ?_⟩
        simp only
        rw [hfound]
        rfl
  | @plain c w t hc h ih =>
    have hne : ∀ d ∈ delimiters, c ≠ d := fun d hd heq => hc (heq ▸ hd)
    have hsame : depthBehind depth c = some depth := depthBehind_of_ne (hne '[' (by decide)) (hne ']' (by decide))
    have hdeep : bracketDepth depth (c :: t) = (depthBehind depth c).bind (bracketDepth · t) := List.foldlM_cons
    rw [List.cons_append, splitLabel_cons, hdeep, hsame]
    rcases ih depth hdepth with ⟨d', hd', hdeep, hfound⟩ | ⟨pre, tpre, t', after, hdeep, hpre, rfl, hfound⟩
    · refine .inl ⟨d', hd', hdeep, ?_⟩
      simp only
      rw [hfound]
      cases splitLabel d' s <;> rfl
    · refine .inr ⟨c :: pre, c :: tpre, t', after, hdeep, hpre.plain hc, rfl, ?_⟩
      simp only
      rw [hfound]
      rfl

/-- A single mark is found behind the text, or at its first escaped one. -/
theorem splitAtChar_closing (hw : Written w t) (hch : ch ∈ delimiters) (hback : ch ≠ '\\') :
    (ch ∉ t → splitAtChar ch (w ++ [ch]) = some (w, [])) ∧
    (ch ∈ t → ∃ pre tpre t' after, Written pre tpre ∧ t = tpre ++ ch :: t' ∧
      splitAtChar ch (w ++ [ch]) = some (pre ++ ['\\'], after)) := by
  refine ⟨fun hnot => splitAtChar_append (hw.not_mem hback hnot), fun hmem => ?_⟩
  obtain ⟨pre, tpre, w', t', hpre, rfl, rfl, hnot⟩ := hw.split hch hback hmem
  refine ⟨pre, tpre, t', w' ++ [ch], hpre, rfl, ?_⟩
  have hsplit : pre ++ '\\' :: ch :: w' ++ [ch] = (pre ++ ['\\']) ++ ch :: (w' ++ [ch]) := by simp
  rw [hsplit]
  apply splitAtChar_append
  simp only [List.mem_append, List.mem_singleton, not_or]
  exact ⟨hnot, hback⟩

end

/-! The theorem. -/

section
variable {w t : List Char}

/-- What is read instead, where an escaped mark is taken for the closing one. -/
theorem parse_early_ne {pre tpre t' : List Char} {ch : Char} (hpre : Written pre tpre) (hback : ch ≠ '\\')
    (ht : t = tpre ++ ch :: t') (fuel : Nat) (rt : RichText) (h : parseRichInlineMd fuel (pre ++ ['\\']) = some rt) :
    rt ≠ rtPlain t := by
  refine parse_ne hpre (by decide) mdInlineTurn_backslash (fun more heq => ?_) h
  rw [ht] at heq
  exact hback (List.cons.inj (List.append_cancel_left heq)).1

/-- A turn that finds the text up to `found`. -/
theorem protects_iff_of_turn {kind : SpanKind} {wrap : Wrap} {c : Char} {rest : List Char}
    {found : Option (List Char × List Char)} (hw : Written w t) (hwrap : kind.wrap? = some wrap)
    (hchars : kind.opening ++ (w ++ kind.closing) = c :: rest)
    (hturn : ∀ r, found = some r → mdInlineTurn c rest = some (.wrap wrap r.1, r.2))
    (hgood : kind.Spares t → found = some (w, []))
    (hbad : ¬ kind.Spares t → ∃ pre tpre ch t' after, Written pre tpre ∧ ch ≠ '\\' ∧ t = tpre ++ ch :: t' ∧
      found = some (pre ++ ['\\'], after)) : kind.Protects w t ↔ kind.Spares t := by
  constructor
  · rintro ⟨fuel, wrap', -, h⟩
    by_contra hnot
    obtain ⟨pre, tpre, ch, t', after, hpre, hback, ht, hfound⟩ := hbad hnot
    rw [hchars] at h
    exact parse_ne_of_turn (hturn _ hfound) (parse_early_ne hpre hback ht) fuel wrap' h
  · intro h
    refine ⟨t.length + 2, wrap, hwrap, ?_⟩
    rw [hchars]
    exact parse_of_turn hw (hturn _ (hgood h))

/-- A double mark. -/
theorem protects_iff_two {kind : SpanKind} {wrap : Wrap} {ch : Char} (hw : Written w t) (hwrap : kind.wrap? = some wrap)
    (hmark : kind.mark? = some (ch, true)) (hch : ch ∈ delimiters) (hback : ch ≠ '\\')
    (hchars : kind.opening ++ (w ++ kind.closing) = ch :: ch :: (w ++ [ch, ch]))
    (hturn : ∀ r, findTwoCharClose ch (w ++ [ch, ch]) = some r →
      mdInlineTurn ch (ch :: (w ++ [ch, ch])) = some (.wrap wrap r.1, r.2)) :
    kind.Protects w t ↔ kind.Spares t := by
  obtain ⟨hgood, hbad⟩ := findTwoCharClose_closing hw hch hback
  have hspares : kind.Spares t ↔ t.getLast? ≠ some ch := by
    unfold SpanKind.Spares
    rw [hmark]
  refine protects_iff_of_turn hw hwrap hchars hturn (fun h => hgood (hspares.mp h)) fun h => ?_
  obtain ⟨pre, tpre, hpre, ht, hfound⟩ := hbad (not_not.mp fun hne => h (hspares.mpr hne))
  exact ⟨pre, tpre, ch, [], [ch], hpre, hback, ht, hfound⟩

/-- A single mark. -/
theorem protects_iff_one {kind : SpanKind} {wrap : Wrap} {ch : Char} (hw : Written w t) (hwrap : kind.wrap? = some wrap)
    (hmark : kind.mark? = some (ch, false)) (hch : ch ∈ delimiters) (hback : ch ≠ '\\')
    (hchars : kind.opening ++ (w ++ kind.closing) = ch :: (w ++ [ch]))
    (hturn : ∀ r, splitAtChar ch (w ++ [ch]) = some r → mdInlineTurn ch (w ++ [ch]) = some (.wrap wrap r.1, r.2)) :
    kind.Protects w t ↔ kind.Spares t := by
  obtain ⟨hgood, hbad⟩ := splitAtChar_closing hw hch hback
  have hspares : kind.Spares t ↔ ch ∉ t := by
    unfold SpanKind.Spares
    rw [hmark]
  refine protects_iff_of_turn hw hwrap hchars hturn (fun h => hgood (hspares.mp h)) fun h => ?_
  obtain ⟨pre, tpre, t', after, hpre, ht, hfound⟩ := hbad (not_not.mp fun hne => h (hspares.mpr hne))
  exact ⟨pre, tpre, ch, t', after, hpre, hback, ht, hfound⟩

/-- At a mark nothing but the delimiters is left to try. -/
theorem mdInlineTurn_mark {c : Char} {rest : List Char} {span : Span × List Char}
    (h : c ∉ ['\\', '<', '`', '!', '[']) (hfound : readMdDelimiters (c :: rest) = some span) :
    mdInlineTurn c rest = some span := by
  simp only [List.mem_cons, List.not_mem_nil, or_false, not_or] at h
  obtain ⟨hback, htag, hcode, himage, hlink⟩ := h
  rw [mdInlineTurn_eq (readMdEscape_of_ne hback) htag hcode (fun h => absurd h himage) (linkSpan_of_ne hlink), hfound]
  rfl

theorem twoCharSpan_found {ch : Char} {wrap : Wrap} {rest : List Char} {r : List Char × List Char}
    (h : findTwoCharClose ch rest = some r) : twoCharSpan ch wrap (ch :: ch :: rest) = some (.wrap wrap r.1, r.2) := by
  show (if ch = ch ∧ ch = ch then _ else none) = _
  rw [if_pos ⟨rfl, rfl⟩, h]
  rfl

theorem oneCharSpan_found {ch : Char} {wrap : Wrap} {rest : List Char} {r : List Char × List Char}
    (h : splitAtChar ch rest = some r) : oneCharSpan ch (.wrap wrap) (ch :: rest) = some (.wrap wrap r.1, r.2) := by
  show (if ch = ch then _ else none) = _
  rw [if_pos rfl, h]
  rfl

/-- A single mark is not taken for a double one. -/
theorem twoCharSpan_single {ch : Char} (wrap : Wrap) (hw : Written w t) (hch : ch ∈ delimiters) (hback : ch ≠ '\\') :
    twoCharSpan ch wrap (ch :: (w ++ [ch])) = none := by
  cases w with
  | nil =>
    show (if ch = ch ∧ ch = ch then (findTwoCharClose ch []).map _ else none) = none
    rw [if_pos ⟨rfl, rfl⟩]
    rfl
  | cons c w => exact if_neg fun h => hw.head_ne hch hback (congrArg some h.2)

/-- The turn at a link. -/
theorem mdInlineTurn_bracket {rest : List Char} {link : Option (Span × List Char)}
    (hlink : linkSpan ('[' :: rest) = some link) :
    mdInlineTurn '[' rest = some (link.getD (.literal ['['], rest)) := by
  rw [mdInlineTurn_eq (readMdEscape_of_ne (by decide)) (by decide) (by decide) (fun h => absurd h (by decide)) hlink,
    readMdDelimiters_of_not_mem (by decide)]
  rfl

/-- What comes of a label that is found. -/
theorem linkSpan_label {chars label rest : List Char} (h : splitLabel 1 chars = some (label, rest)) :
    ∃ link, linkSpan ('[' :: chars) = some link ∧
      ∀ span, link = some span → ∃ url, span.1 = .wrap (.link url) label := by
  unfold linkSpan tryParseMdLink
  simp only [h]
  cases htarget : splitTarget rest with
  | none => exact ⟨none, rfl, fun _ h => nomatch h⟩
  | some r =>
    obtain ⟨url, hurl⟩ := stripUrlTitle_isSome r.1
    simp only [hurl]
    refine ⟨_, rfl, fun span h => ?_⟩
    obtain rfl := Option.some.inj h
    exact ⟨url, rfl⟩

theorem linkSpan_unclosed {chars : List Char} (h : splitLabel 1 chars = none) : linkSpan ('[' :: chars) = some none := by
  unfold linkSpan tryParseMdLink
  simp only [h]
  rfl

/-- No link, or one with another label. -/
theorem parse_ne_of_bracket {chars : List Char} {link : Option (Span × List Char)}
    (hlink : linkSpan ('[' :: chars) = some link)
    (hother : ∀ span, link = some span → ∃ url label, span.1 = .wrap (.link url) label ∧
      ∀ fuel rt, parseRichInlineMd fuel label = some rt → rt ≠ rtPlain t) (fuel : Nat) (wrap : Wrap) :
    parseRichInlineMd fuel ('[' :: chars) ≠ some (wrap.apply (rtPlain t)) := by
  have hturn := mdInlineTurn_bracket hlink
  cases link with
  | some span =>
    obtain ⟨url, label, hspan, hne⟩ := hother span rfl
    obtain ⟨kind, after⟩ := span
    subst hspan
    exact parse_ne_of_turn hturn hne fuel wrap
  | none =>
    intro h
    obtain ⟨parts, hloop, heq⟩ := Option.map_eq_some_iff.mp h
    cases fuel with
    | zero => cases hloop
    | succ fuel =>
      -- the bracket stays in front of everything
      rw [mdInlineLoop, hturn] at hloop
      obtain ⟨more, parts', rfl⟩ := mdInlineLoop_first (by simp) hloop
      have hinner := (congrArg RichText.inner? heq).trans (wrap.apply_inner _)
      have htext : [] ++ ['['] ++ more ≠ [] := by simp
      rcases rtConcat_plain htext parts' with hone | ⟨texts, hmany⟩
      · rw [hone] at hinner
        cases hinner
      · rw [hmany] at hinner
        cases hinner

/-- What the text of a link is. -/
theorem link_text (target : {url : List Char // ')' ∉ url}) (w : List Char) :
    (SpanKind.link target).opening ++ (w ++ (SpanKind.link target).closing) =
      '[' :: (w ++ ']' :: '(' :: (target.val ++ [')'])) := rfl

/-- The label that is found is the text. -/
theorem protects_of_label {target : {url : List Char // ')' ∉ url}} (hw : Written w t)
    (hlabel : splitLabel 1 (w ++ ']' :: '(' :: (target.val ++ [')'])) = some (w, '(' :: (target.val ++ [')']))) :
    (SpanKind.link target).Protects w t := by
  obtain ⟨url, hurl⟩ := stripUrlTitle_isSome target.val
  have htarget : splitTarget ('(' :: (target.val ++ [')'])) = some (target.val, []) := splitAtChar_append target.property
  have hlink : linkSpan ('[' :: (w ++ ']' :: '(' :: (target.val ++ [')']))) = some (some (.wrap (.link url) w, [])) := by
    unfold linkSpan tryParseMdLink
    simp only [hlabel, htarget, hurl, Option.map_some]
  refine ⟨t.length + 2, .link url, ?_, ?_⟩
  · show (stripUrlTitle target.val).map Wrap.link = _
    rw [hurl]
    rfl
  · rw [link_text]
    exact parse_of_turn hw (mdInlineTurn_bracket hlink)

/-- There is no link, or one with another label. -/
theorem not_protects_of_link {target : {url : List Char // ')' ∉ url}} {link : Option (Span × List Char)}
    (hlink : linkSpan ('[' :: (w ++ ']' :: '(' :: (target.val ++ [')']))) = some link)
    (hother : ∀ span, link = some span → ∃ url label, span.1 = .wrap (.link url) label ∧
      ∀ fuel rt, parseRichInlineMd fuel label = some rt → rt ≠ rtPlain t) : ¬ (SpanKind.link target).Protects w t := by
  rintro ⟨fuel, wrap, -, h⟩
  rw [link_text] at h
  exact parse_ne_of_bracket hlink hother fuel wrap h

theorem protects_link_iff (hw : Written w t) (target : {url : List Char // ')' ∉ url}) :
    (SpanKind.link target).Protects w t ↔ bracketDepth 1 t = some 1 := by
  rcases splitLabel_written hw (']' :: '(' :: (target.val ++ [')'])) 1 (by decide) with
    ⟨d, hd, hdeep, hfound⟩ | ⟨pre, tpre, t', after, hdeep, hpre, ht, hfound⟩
  · rw [hdeep]
    rw [splitLabel_cons] at hfound
    by_cases hone : d = 1
    · -- the label is the text
      subst hone
      refine iff_of_true (protects_of_label hw ?_) rfl
      rw [hfound]
      show some (w ++ [], _) = _
      rw [List.append_nil]
    · -- a bracket is open: the label goes on into the target
      refine iff_of_false ?_ fun h => hone (Option.some.inj h)
      have hclose : depthBehind d ']' = some (d - 1) := by
        unfold depthBehind
        rw [if_neg (by decide), if_pos rfl, if_neg hone]
      rw [hclose] at hfound
      cases hrest : splitLabel (d - 1) ('(' :: (target.val ++ [')'])) with
      | none =>
        simp only [hrest] at hfound
        exact not_protects_of_link (linkSpan_unclosed hfound) fun _ h => nomatch h
      | some r =>
        simp only [hrest] at hfound
        obtain ⟨link, hlink, hspan⟩ := linkSpan_label hfound
        refine not_protects_of_link hlink fun span h => ?_
        obtain ⟨url, hspan⟩ := hspan span h
        refine ⟨url, _, hspan, fun fuel rt hrt => ?_⟩
        refine parse_ne hw (by decide) (mdInlineTurn_literal (by decide) fun h => absurd h (by decide)) (fun more heq => ?_) hrt
        have hlen := congrArg List.length heq
        rw [List.length_append, List.length_cons] at hlen
        omega
  · -- an escaped bracket closes the label
    rw [hdeep]
    refine iff_of_false ?_ fun h => nomatch h
    obtain ⟨link, hlink, hspan⟩ := linkSpan_label hfound
    refine not_protects_of_link hlink fun span h => ?_
    obtain ⟨url, hspan⟩ := hspan span h
    exact ⟨url, _, hspan, parse_early_ne hpre (by decide) ht⟩

theorem protects_italic_iff (hw : Written w t) : SpanKind.italic.Protects w t ↔ SpanKind.italic.Spares t := by
  refine protects_iff_one hw rfl rfl (by decide) (by decide) rfl fun r hr => ?_
  refine mdInlineTurn_mark (by decide) ?_
  unfold readMdDelimiters
  rw [twoCharSpan_of_ne _ (by decide), twoCharSpan_of_ne _ (by decide), twoCharSpan_of_ne _ (by decide),
    twoCharSpan_single _ hw (by decide) (by decide), oneCharSpan_found hr]
  rfl

/-- **A span of rich markdown holds its escaped text** exactly if the text does not have the mark of the span where
    that is taken for the closing one. -/
theorem protects_iff (kind : SpanKind) (w t : List Char) (hw : Written w t) : kind.Protects w t ↔ kind.Spares t := by
  cases kind with
  | marked =>
    refine protects_iff_two hw rfl rfl (by decide) (by decide) rfl fun r hr => ?_
    refine mdInlineTurn_mark (by decide) ?_
    unfold readMdDelimiters
    rw [twoCharSpan_found hr]
    rfl
  | spoiler =>
    refine protects_iff_two hw rfl rfl (by decide) (by decide) rfl fun r hr => ?_
    refine mdInlineTurn_mark (by decide) ?_
    unfold readMdDelimiters
    rw [twoCharSpan_of_ne _ (by decide), twoCharSpan_found hr]
    rfl
  | strike =>
    refine protects_iff_two hw rfl rfl (by decide) (by decide) rfl fun r hr => ?_
    refine mdInlineTurn_mark (by decide) ?_
    unfold readMdDelimiters
    rw [twoCharSpan_of_ne _ (by decide), twoCharSpan_of_ne _ (by decide), twoCharSpan_found hr]
    rfl
  | bold =>
    refine protects_iff_two hw rfl rfl (by decide) (by decide) rfl fun r hr => ?_
    refine mdInlineTurn_mark (by decide) ?_
    unfold readMdDelimiters
    rw [twoCharSpan_of_ne _ (by decide), twoCharSpan_of_ne _ (by decide), twoCharSpan_of_ne _ (by decide),
      twoCharSpan_found hr]
    rfl
  | boldLine =>
    refine protects_iff_two hw rfl rfl (by decide) (by decide) rfl fun r hr => ?_
    refine mdInlineTurn_mark (by decide) ?_
    unfold readMdDelimiters
    rw [twoCharSpan_of_ne _ (by decide), twoCharSpan_of_ne _ (by decide), twoCharSpan_of_ne _ (by decide),
      twoCharSpan_of_ne _ (by decide), oneCharSpan_of_ne _ (by decide), twoCharSpan_found hr]
    rfl
  | italic => exact protects_italic_iff hw
  | italicLine =>
    refine protects_iff_one hw rfl rfl (by decide) (by decide) rfl fun r hr => ?_
    refine mdInlineTurn_mark (by decide) ?_
    unfold readMdDelimiters
    rw [twoCharSpan_of_ne _ (by decide), twoCharSpan_of_ne _ (by decide), twoCharSpan_of_ne _ (by decide),
      twoCharSpan_of_ne _ (by decide), oneCharSpan_of_ne _ (by decide), twoCharSpan_single _ hw (by decide) (by decide),
      oneCharSpan_found hr]
    rfl
  | link target => exact protects_link_iff hw target

/-- `a\*b` for `a*b`. -/
theorem written_star : Written ['a', '\\', '*', 'b'] ['a', '*', 'b'] :=
  .plain (by decide) (.escaped '*' (.plain (by decide) .nil))

/-- A star inside of bold text. -/
theorem protects_bold_star : SpanKind.bold.Protects ['a', '\\', '*', 'b'] ['a', '*', 'b'] :=
  (protects_iff .bold _ _ written_star).mpr (by decide : (['a', '*', 'b'] : List Char).getLast? ≠ some '*')

/-- An escaped star closes italic text. -/
theorem italic_closed_early : ¬ ∀ (kind : SpanKind) (w t : List Char), Written w t → kind.Protects w t := by
  intro h
  have hspares := (protects_italic_iff written_star).mp (h .italic _ _ written_star)
  exact hspares (by decide : '*' ∈ (['a', '*', 'b'] : List Char))

end

end Ferogram.Parsers.Rich
