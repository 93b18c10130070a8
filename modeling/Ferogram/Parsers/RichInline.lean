import Ferogram.Parsers.MarkdownV1
import Ferogram.Parsers.RichTag

/- The inline parsers of rich messages. A turn looks at what is left of the text
   and finds a span in front of it; the parsers put the spans together, and are
   called again for the text inside one. `mdInlineTurn` and `htmlInlineTurn` are
   the loop bodies of `parse_rich_inline_md` and `parse_rich_html_inline`.

   A turn takes a character at least, and calls for shorter texts only; the one
   thing that can go wrong is a tag (`mdInlineTurn_spec`, `htmlInlineTurn_spec`,
   `TagFine`). -/
namespace Ferogram.Parsers.Rich
open Str

/-! Markdown. -/

/-- `strip_url_title`: the target without a title in quotes. -/
def stripUrlTitle (s : List Char) : Option (List Char) :=
  let s := trim s
  match findStr [' ', '"'] s with
  | some q => (sliceTo s q).map trim
  | none =>
    match findStr [' ', '\''] s with
    | some q => (sliceTo s q).map trim
    | none => some s

/-- `try_parse_md_link`, from the `[` on: the target, the label and what follows. -/
def tryParseMdLink : List Char → Option (Option (List Char × List Char × List Char))
  | '[' :: chars =>
    match splitLabel 1 chars with
    | some (label, rest) =>
      match splitTarget rest with
      | some (urlPart, rest) => (stripUrlTitle urlPart).map fun url => some (url, label, rest)
      | none => some none
    | none => some none
  | _ => some none

/-- `find_two_char_close`: up to the next two, and behind them. -/
def findTwoCharClose (ch : Char) : List Char → Option (List Char × List Char)
  | [] => none
  | [_] => none
  | c :: d :: rest =>
    if c = ch ∧ d = ch then some ([], rest) else (findTwoCharClose ch (d :: rest)).map fun r => (c :: r.1, r.2)

/-- Two of `ch` around a text. -/
def twoCharSpan (ch : Char) (w : Wrap) : List Char → Option (Span × List Char)
  | c :: d :: rest =>
    if c = ch ∧ d = ch then (findTwoCharClose ch rest).map fun r => (.wrap w r.1, r.2) else none
  | _ => none

/-- One of `ch` around a text; `find_one_char_close` is `splitAtChar`. -/
def oneCharSpan (ch : Char) (span : List Char → Span) : List Char → Option (Span × List Char)
  | c :: rest => if c = ch then (splitAtChar ch rest).map fun r => (span r.1, r.2) else none
  | _ => none

def readMdEscape : List Char → Option (Span × List Char)
  | '\\' :: c :: rest => some (.literal [c], rest)
  | _ => none

/-- Three backticks stand for themselves. -/
def readMdFence : List Char → Option (Span × List Char)
  | '`' :: '`' :: '`' :: rest => some (.literal ['`', '`', '`'], rest)
  | _ => none

/-- `![alt](url)`: an emoji, a date, or its text. -/
def emojiSpan (url alt : List Char) : Span :=
  match (stripPrefix emojiPrefix url).bind parseI64 with
  | some docId => .leaf (.customEmoji docId alt)
  | none =>
    if timePrefix.isPrefixOf url ∨ "tg://user?".toList.isPrefixOf url then
      match parseTgScheme url (rtPlain alt) with
      | some p => .leaf p
      | none => .flushed alt
    else .flushed alt

/-- The delimiters, in the order in which they are tried. -/
def readMdDelimiters (chars : List Char) : Option (Span × List Char) :=
  twoCharSpan '=' .marked chars <|> twoCharSpan '|' .spoiler chars <|> twoCharSpan '~' .strike chars <|>
    twoCharSpan '*' .bold chars <|> oneCharSpan '*' (.wrap .italic) chars <|> twoCharSpan '_' .bold chars <|>
    oneCharSpan '_' (.wrap .italic) chars <|> oneCharSpan '$' (fun src => .leaf (.math src)) chars

def tagSpan (chars : List Char) : Option (Option (Span × List Char)) :=
  if chars.head? = some '<' then
    (tryParseHtmlInlineTag chars 0 chars.length).map fun r => r.map fun (next, span) => (span, chars.drop next)
  else some none

def imageSpan : List Char → Option (Option (Span × List Char))
  | '!' :: chars => (tryParseMdLink chars).map fun r => r.map fun (url, alt, rest) => (emojiSpan url alt, rest)
  | _ => some none

def linkSpan (chars : List Char) : Option (Option (Span × List Char)) :=
  (tryParseMdLink chars).map fun r => r.map fun (url, label, rest) => (.wrap (.link url) label, rest)

/-- A turn of `parse_rich_inline_md`, which fails only where a slice does. -/
def mdInlineTurn (c : Char) (rest : List Char) : Option (Span × List Char) :=
  let chars := c :: rest
  match readMdEscape chars with
  | some r => some r
  | none => do
    match ← tagSpan chars with
    | some r => some r
    | none =>
      match readMdFence chars <|> oneCharSpan '`' (fun code => .leaf (.fixed (rtPlain code))) chars with
      | some r => some r
      | none =>
        match ← imageSpan chars with
        | some r => some r
        | none =>
          match ← linkSpan chars with
          | some r => some r
          | none => some ((readMdDelimiters chars).getD (.literal [c], rest))

/-! HTML. -/

/-- `&…;`, up to a blank. -/
def readHtmlEntity : List Char → Option (Span × List Char)
  | '&' :: rest =>
    let body := rest.takeWhile fun c => c ≠ ';' ∧ c ≠ ' '
    if (rest.drop body.length).head? = some ';' then
      some (.literal (decodeHtmlEntities ('&' :: (body ++ [';']))), rest.drop (body.length + 1))
    else none
  | _ => none

/-- A turn of `parse_rich_html_inline`. -/
def htmlInlineTurn (c : Char) (rest : List Char) : Option (Span × List Char) :=
  match readHtmlEntity (c :: rest) with
  | some r => some r
  | none => (tagSpan (c :: rest)).map fun r => r.getD (.literal [c], rest)

/-! The parsers. -/

/-- What the buffer holds, as a part. -/
def flush (decode : List Char → List Char) (buf : List Char) : List RichText :=
  if buf = [] then [] else [rtPlain (decode buf)]

/-- A loop at a span: the text of a span goes to `inline`, and `go` is the loop from a buffer and what is left. -/
def goOn (decode : List Char → List Char) (inline : List Char → Option RichText)
    (go : List Char → List Char → Option (List RichText)) (buf : List Char) (span : Span) (rest : List Char) :
    Option (List RichText) :=
  match span with
  | .literal text => go (buf ++ text) rest
  | .flushed text => do
    let parts ← go text rest
    return flush decode buf ++ parts
  | .leaf rt => do
    let parts ← go [] rest
    return flush decode buf ++ rt :: parts
  | .wrap w inner => do
    let inner ← inline inner
    let parts ← go [] rest
    return flush decode buf ++ w.apply inner :: parts

/-- The loop of `parse_rich_inline_md`. -/
def mdInlineLoop : Nat → List Char → List Char → Option (List RichText)
  | 0, _, _ => none
  | _ + 1, buf, [] => some (flush id buf)
  | fuel + 1, buf, c :: rest => do
    let (span, rest) ← mdInlineTurn c rest
    goOn id (fun inner => (mdInlineLoop fuel [] inner).map rtConcat) (mdInlineLoop fuel) buf span rest

def parseRichInlineMd (fuel : Nat) (text : List Char) : Option RichText :=
  (mdInlineLoop fuel [] text).map rtConcat

/-- The loop of `parse_rich_html_inline`; the text inside a tag is read as markdown. -/
def htmlInlineLoop : Nat → List Char → List Char → Option (List RichText)
  | 0, _, _ => none
  | _ + 1, buf, [] => some (flush decodeHtmlEntities buf)
  | fuel + 1, buf, c :: rest => do
    let (span, rest) ← htmlInlineTurn c rest
    goOn decodeHtmlEntities (parseRichInlineMd fuel) (htmlInlineLoop fuel) buf span rest

def parseRichHtmlInline (fuel : Nat) (html : List Char) : Option RichText :=
  (htmlInlineLoop fuel [] html).map rtConcat

/-! Where a tag goes wrong. -/

/-- If the tag takes the text in front of its first closing tag, that text has no more bytes than there are
    characters left. -/
def ContentFits (isSelfClosing : Bool) (tagName : List Char) (attrs : List (List Char × List Char))
    (behind : List Char) : Prop :=
  ∀ tag, isSelfClosing = false → inlineTag? tagName attrs = some tag → tag.takesContent = true →
    closeTag tagName <:+: behind → byteLen (beforeStr (closeTag tagName) behind) ≤ behind.length

/-- A tag in front has attributes that can be read, and a content that fits. -/
def TagFine (chars : List Char) : Prop :=
  ∀ tagRaw behind, chars = '<' :: (tagRaw ++ '>' :: behind) → '>' ∉ tagRaw →
    Sliced.AttrsFine (tagAttrs tagRaw) ∧ ∀ attrs, Sliced.parseAttrs (tagAttrs tagRaw) = some attrs →
      ContentFits (tagRaw.getLast? = some '/') (tagNameOf tagRaw) attrs behind

theorem tagFine_of_ne {c : Char} (h : c ≠ '<') (rest : List Char) : TagFine (c :: rest) :=
  fun _ _ heq => absurd (List.cons.inj heq).1 h

/-- The rest and what is called for are shorter. -/
def Shorter (chars : List Char) (r : Span × List Char) : Prop :=
  r.2.length < chars.length ∧ ∀ inner, r.1.inner? = some inner → inner.length < chars.length

theorem inner_span {tag : InlineTag} {inner text : List Char} (h : (tag.span text).inner? = some inner) :
    inner = text ∧ tag.takesContent = true := by
  cases tag <;> first
    | exact ⟨(Option.some.inj h).symm, rfl⟩
    | cases h

theorem sliceChars_isSome_iff (chars : List Char) (start n : Nat) (h : start ≤ chars.length) :
    (∃ inner, sliceChars chars start (start + n) = some inner) ↔ n ≤ (chars.drop start).length := by
  rw [List.length_drop]
  unfold sliceChars
  split
  · exact iff_of_true ⟨_, rfl⟩ (by omega)
  · exact iff_of_false (fun ⟨_, h⟩ => nomatch h) (by omega)

theorem sliceChars_length {chars inner : List Char} {a b : Nat} (h : sliceChars chars a b = some inner) :
    inner.length ≤ chars.length - a := by
  unfold sliceChars at h
  split at h
  · obtain rfl := Option.some.inj h
    rw [List.length_drop, List.length_take]
    omega
  · cases h

section
variable {chars tagName : List Char} {start : Nat} {isSelfClosing : Bool} {attrs : List (List Char × List Char)}

theorem closeInlineTag_isSome_iff (isSelfClosing : Bool) (tagName : List Char) (attrs : List (List Char × List Char))
    (hstart : start ≤ chars.length) :
    (∃ r, closeInlineTag chars start isSelfClosing tagName attrs = some r) ↔
      ContentFits isSelfClosing tagName attrs (chars.drop start) := by
  by_cases hself : isSelfClosing = true ∨ tagName = "br".toList
  · have hnone : ContentFits isSelfClosing tagName attrs (chars.drop start) := by
      intro tag hopen hinline
      rcases hself with hself | hbr
      · exact nomatch hself.symm.trans hopen
      · have hname := (inlineTag?_isSome_iff tagName attrs).mp (Option.isSome_iff_exists.mpr ⟨tag, hinline⟩)
        exact absurd (hbr ▸ hname) not_mem_br
    refine iff_of_true ?_ hnone
    unfold closeInlineTag
    rw [if_pos hself]
    split <;> exact ⟨_, rfl⟩
  · obtain ⟨hopen, hbr⟩ := not_or.mp hself
    obtain rfl : isSelfClosing = false := Bool.eq_false_iff.mpr hopen
    cases hinline : inlineTag? tagName attrs with
    | none =>
      refine iff_of_true ⟨none, ?_⟩ fun tag _ h => nomatch hinline.symm.trans h
      unfold closeInlineTag
      rw [if_neg hself, hinline]
    | some tag =>
      cases hfind : findStr (closeTag tagName) (chars.drop start) with
      | none =>
        refine iff_of_true ⟨none, ?_⟩ fun _ _ _ _ h => absurd h (findStr_eq_none_iff.mp hfind)
        unfold closeInlineTag
        rw [if_neg hself, hinline]
        simp only [sliceChars, hstart, Nat.le_refl, and_self, if_true, List.take_length, hfind, Option.bind_eq_bind,
          Option.bind_some]
      | some cl =>
        obtain ⟨b, hb, hcl⟩ := findStr_eq_some hfind
        have hinfix : closeTag tagName <:+: chars.drop start :=
          findStr_isSome_iff.mp (Option.isSome_iff_exists.mpr ⟨cl, hfind⟩)
        have hfits : ContentFits false tagName attrs (chars.drop start) ↔
            (tag.takesContent = true → cl ≤ (chars.drop start).length) := by
          rw [← hcl]
          constructor
          · exact fun h htakes => h tag rfl hinline htakes hinfix
          · intro h tag' _ hinline' htakes _
            obtain rfl := Option.some.inj (hinline.symm.trans hinline')
            exact h htakes
        rw [closeInlineTag_eq hstart hbr hinline hfind, hfits]
        cases tag.takesContent with
        | false => exact iff_of_true ⟨_, rfl⟩ fun h => absurd h Bool.false_ne_true
        | true =>
          rw [if_pos rfl, ← sliceChars_isSome_iff chars start cl hstart]
          cases sliceChars chars start (start + cl) <;> simp

/-- What is found is behind the tag, and what is called for is shorter. -/
theorem closeInlineTag_shorter (hstart : start ≤ chars.length) {next : Nat} {span : Span}
    (h : closeInlineTag chars start isSelfClosing tagName attrs = some (some (next, span))) :
    start ≤ next ∧ ∀ inner, span.inner? = some inner → inner.length ≤ chars.length - start := by
  by_cases hself : isSelfClosing = true ∨ tagName = "br".toList
  · unfold closeInlineTag at h
    rw [if_pos hself] at h
    split at h
    · obtain ⟨rfl, rfl⟩ := Prod.mk.inj (Option.some.inj (Option.some.inj h))
      exact ⟨Nat.le_refl _, fun inner hinner => nomatch hinner⟩
    · cases h
  · obtain ⟨hopen, hbr⟩ := not_or.mp hself
    obtain rfl : isSelfClosing = false := Bool.eq_false_iff.mpr hopen
    cases hinline : inlineTag? tagName attrs with
    | none =>
      unfold closeInlineTag at h
      rw [if_neg hself, hinline] at h
      cases h
    | some tag =>
      cases hfind : findStr (closeTag tagName) (chars.drop start) with
      | none =>
        unfold closeInlineTag at h
        rw [if_neg hself, hinline] at h
        simp only [sliceChars, hstart, Nat.le_refl, and_self, if_true, List.take_length, hfind, Option.bind_eq_bind,
          Option.bind_some] at h
        cases h
      | some cl =>
        rw [closeInlineTag_eq hstart hbr hinline hfind] at h
        obtain ⟨inner, hinner, heq⟩ := Option.map_eq_some_iff.mp h
        obtain ⟨rfl, rfl⟩ := Prod.mk.inj (Option.some.inj heq)
        refine ⟨by omega, fun text htext => ?_⟩
        obtain ⟨rfl, htakes⟩ := inner_span htext
        rw [htakes, if_pos rfl] at hinner
        exact sliceChars_length hinner

end

section
variable {chars rest : List Char}

theorem takeWhile_of_not_mem {d : Char} (h : d ∉ rest) : rest.takeWhile (· ≠ d) = rest := by
  apply List.takeWhile_eq_self_iff.mpr
  intro c hc
  exact decide_eq_true (ne_of_mem_of_not_mem hc h)

/-- No tag ends here. -/
theorem tryParse_of_open (h : '>' ∉ rest) :
    tryParseHtmlInlineTag ('<' :: rest) 0 ('<' :: rest).length = some none := by
  have hdrop : (('<' :: rest).take ('<' :: rest).length).drop (0 + 1) = rest := by
    rw [List.take_length]
    rfl
  unfold tryParseHtmlInlineTag tagEnd
  rw [hdrop, takeWhile_of_not_mem h]
  simp only [List.length_cons]
  rw [if_pos (by omega)]

theorem tagFine_iff {tagRaw behind : List Char} (hgt : '>' ∉ tagRaw) :
    TagFine ('<' :: (tagRaw ++ '>' :: behind)) ↔
      Sliced.AttrsFine (tagAttrs tagRaw) ∧ ∀ attrs, Sliced.parseAttrs (tagAttrs tagRaw) = some attrs →
        ContentFits (tagRaw.getLast? = some '/') (tagNameOf tagRaw) attrs behind := by
  constructor
  · exact fun h => h tagRaw behind rfl hgt
  · intro h raw after heq hraw
    have hsplit := splitAtChar_append (b := behind) hgt
    rw [(List.cons.inj heq).2, splitAtChar_append hraw] at hsplit
    obtain ⟨rfl, rfl⟩ := Prod.mk.inj (Option.some.inj hsplit)
    exact h

/-- A turn at a tag. -/
theorem tagSpan_spec (chars : List Char) :
    ((∃ r, tagSpan chars = some r) ↔ TagFine chars) ∧ ∀ r, tagSpan chars = some (some r) → Shorter chars r := by
  by_cases hhead : chars.head? = some '<'
  · obtain ⟨rest, rfl⟩ := List.head?_eq_some_iff.mp hhead
    unfold tagSpan
    rw [if_pos hhead]
    by_cases hmem : '>' ∈ rest
    · obtain ⟨tagRaw, behind, rfl, hgt⟩ := List.eq_append_cons_of_mem hmem
      have htag : (('<' :: (tagRaw ++ '>' :: behind)).take ('<' :: (tagRaw ++ '>' :: behind)).length).drop 0 =
          '<' :: (tagRaw ++ '>' :: behind) := by
        rw [List.take_length]
        rfl
      have hle := afterOpen_le (Nat.le_refl _) htag
      have hpos : 0 < afterOpen 0 tagRaw := Nat.succ_pos _
      have hbehind : ('<' :: (tagRaw ++ '>' :: behind)).drop (afterOpen 0 tagRaw) = behind := by
        have hsplit : '<' :: (tagRaw ++ '>' :: behind) = ('<' :: (tagRaw ++ ['>'])) ++ behind := by simp
        have hlen : afterOpen 0 tagRaw = ('<' :: (tagRaw ++ ['>'])).length := by
          simp [afterOpen]
          omega
        rw [hsplit, hlen, List.drop_left]
      have hsome := fun attrs => closeInlineTag_isSome_iff (tagRaw.getLast? = some '/') (tagNameOf tagRaw) attrs hle
      rw [hbehind] at hsome
      rw [tryParse_tag (Nat.le_refl _) htag hgt, tagFine_iff hgt, ← Sliced.parseAttrs_isSome_iff]
      cases Sliced.parseAttrs (tagAttrs tagRaw) with
      | none => simp
      | some attrs =>
        simp only [Option.bind_some, Option.some.injEq, exists_eq', true_and, forall_eq', ← hsome]
        refine ⟨by simp, fun r hr => ?_⟩
        obtain ⟨found, hfound, heq⟩ := Option.map_eq_some_iff.mp hr
        obtain ⟨⟨next, span⟩, rfl, rfl⟩ := Option.map_eq_some_iff.mp heq
        obtain ⟨hnext, hinner⟩ := closeInlineTag_shorter hle hfound
        refine ⟨?_, fun inner h => ?_⟩
        · show (List.drop next _).length < _
          rw [List.length_drop, List.length_cons]
          omega
        · have := hinner inner h
          rw [List.length_cons] at this ⊢
          omega
    · rw [tryParse_of_open hmem]
      refine ⟨iff_of_true ⟨none, rfl⟩ ?_, fun r h => nomatch Option.some.inj h⟩
      intro tagRaw behind heq
      exact absurd (by rw [(List.cons.inj heq).2]; simp) hmem
  · unfold tagSpan
    rw [if_neg hhead]
    refine ⟨iff_of_true ⟨none, rfl⟩ ?_, fun r h => nomatch Option.some.inj h⟩
    rintro tagRaw behind rfl
    exact absurd rfl hhead

end

/-! A turn of the parsers. -/

theorem stripUrlTitle_isSome (s : List Char) : ∃ url, stripUrlTitle s = some url := by
  have hslice : ∀ (pat : List Char) (q : Nat), findStr pat (trim s) = some q →
      ∃ url, (sliceTo (trim s) q).map trim = some url := by
    intro pat q h
    obtain ⟨b, hb, hq⟩ := findStr_eq_some h
    rw [sliceTo_eq_some_iff.mpr ⟨_, hb, hq⟩]
    exact ⟨_, rfl⟩
  unfold stripUrlTitle
  simp only
  split
  · next q h => exact hslice _ q h
  · split
    · next q h => exact hslice _ q h
    · exact ⟨_, rfl⟩

/-- A link is shorter than the text that it is found in. -/
theorem tryParseMdLink_spec (chars : List Char) : ∃ r, tryParseMdLink chars = some r ∧
    ∀ url label rest, r = some (url, label, rest) → label.length < chars.length ∧ rest.length < chars.length := by
  have hno : ∃ r : Option (List Char × List Char × List Char), some none = some r ∧
      ∀ url label rest, r = some (url, label, rest) → label.length < chars.length ∧ rest.length < chars.length :=
    ⟨none, rfl, fun _ _ _ h => nomatch h⟩
  unfold tryParseMdLink
  split
  · next chars =>
    split
    · next label rest hlabel =>
      split
      · next urlPart rest' htarget =>
        obtain ⟨url, hurl⟩ := stripUrlTitle_isSome urlPart
        rw [hurl]
        refine ⟨_, rfl, fun u l r h => ?_⟩
        obtain ⟨-, rfl, rfl⟩ : url = u ∧ label = l ∧ rest' = r := by simpa using h
        have hlen := congrArg List.length (splitLabel_eq_some hlabel)
        have hrest := splitTarget_length htarget
        rw [List.length_append, List.length_cons] at hlen
        rw [List.length_cons]
        omega
      · exact hno
    · exact hno
  · exact hno

theorem findTwoCharClose_shorter {ch : Char} : ∀ {s a b : List Char}, findTwoCharClose ch s = some (a, b) →
    a.length + 2 ≤ s.length ∧ b.length + 2 ≤ s.length
  | [], _, _, h => nomatch h
  | [_], _, _, h => nomatch h
  | c :: d :: rest, a, b, h => by
    unfold findTwoCharClose at h
    split at h
    · obtain ⟨rfl, rfl⟩ := Prod.mk.inj (Option.some.inj h)
      exact ⟨Nat.le_add_left _ _, Nat.le_refl _⟩
    · obtain ⟨⟨a', b'⟩, hfound, heq⟩ := Option.map_eq_some_iff.mp h
      obtain ⟨rfl, rfl⟩ := Prod.mk.inj heq
      obtain ⟨ha, hb⟩ := findTwoCharClose_shorter hfound
      simp only [List.length_cons] at ha hb ⊢
      omega

theorem twoCharSpan_shorter {ch : Char} {w : Wrap} {chars : List Char} {r : Span × List Char}
    (h : twoCharSpan ch w chars = some r) : Shorter chars r := by
  unfold twoCharSpan at h
  split at h
  · split at h
    · obtain ⟨⟨a, b⟩, hfound, rfl⟩ := Option.map_eq_some_iff.mp h
      obtain ⟨ha, hb⟩ := findTwoCharClose_shorter hfound
      refine ⟨?_, fun inner hinner => ?_⟩
      · simp only [List.length_cons]
        omega
      · obtain rfl := Option.some.inj hinner
        simp only [List.length_cons]
        omega
    · cases h
  · cases h

theorem oneCharSpan_shorter {ch : Char} {span : List Char → Span}
    (hspan : ∀ text inner, (span text).inner? = some inner → inner = text) {chars : List Char} {r : Span × List Char}
    (h : oneCharSpan ch span chars = some r) : Shorter chars r := by
  unfold oneCharSpan at h
  split at h
  · split at h
    · obtain ⟨⟨a, b⟩, hfound, rfl⟩ := Option.map_eq_some_iff.mp h
      have hlen := congrArg List.length (splitAtChar_eq_some hfound).1
      rw [List.length_append, List.length_cons] at hlen
      refine ⟨?_, fun inner hinner => ?_⟩
      · simp only [List.length_cons]
        omega
      · obtain rfl := hspan _ _ hinner
        simp only [List.length_cons]
        omega
    · cases h
  · cases h

theorem readMdDelimiters_shorter {chars : List Char} {r : Span × List Char} (h : readMdDelimiters chars = some r) :
    Shorter chars r := by
  have hwrap : ∀ (w : Wrap) (text inner : List Char), (Span.wrap w text).inner? = some inner → inner = text :=
    fun _ _ _ h => (Option.some.inj h).symm
  unfold readMdDelimiters at h
  rcases some_of_orElse h with h | h
  · exact twoCharSpan_shorter h
  rcases some_of_orElse h with h | h
  · exact twoCharSpan_shorter h
  rcases some_of_orElse h with h | h
  · exact twoCharSpan_shorter h
  rcases some_of_orElse h with h | h
  · exact twoCharSpan_shorter h
  rcases some_of_orElse h with h | h
  · exact oneCharSpan_shorter (hwrap _) h
  rcases some_of_orElse h with h | h
  · exact twoCharSpan_shorter h
  rcases some_of_orElse h with h | h
  · exact oneCharSpan_shorter (hwrap _) h
  · exact oneCharSpan_shorter (fun _ _ h => by cases h) h

/-- A text that goes to the buffer. -/
theorem shorter_literal (c : Char) (rest text rest' : List Char) (h : rest'.length ≤ rest.length) :
    Shorter (c :: rest) (.literal text, rest') :=
  ⟨Nat.lt_succ_of_le h, fun _ h => nomatch h⟩

theorem emojiSpan_inner (url alt : List Char) : (emojiSpan url alt).inner? = none := by
  unfold emojiSpan
  split
  · rfl
  · split
    · split <;> rfl
    · rfl

theorem imageSpan_spec (chars : List Char) : ∃ r, imageSpan chars = some r ∧ ∀ r', r = some r' → Shorter chars r' := by
  unfold imageSpan
  split
  · next chars =>
    obtain ⟨r, hr, hshort⟩ := tryParseMdLink_spec chars
    rw [hr]
    refine ⟨_, rfl, fun r' h => ?_⟩
    obtain ⟨⟨url, alt, rest⟩, hlink, rfl⟩ := Option.map_eq_some_iff.mp h
    refine ⟨Nat.lt_succ_of_lt (hshort _ _ _ hlink).2, fun inner h => ?_⟩
    rw [emojiSpan_inner] at h
    cases h
  · exact ⟨none, rfl, fun _ h => nomatch h⟩

theorem linkSpan_spec (chars : List Char) : ∃ r, linkSpan chars = some r ∧ ∀ r', r = some r' → Shorter chars r' := by
  obtain ⟨r, hr, hshort⟩ := tryParseMdLink_spec chars
  unfold linkSpan
  rw [hr]
  refine ⟨_, rfl, fun r' h => ?_⟩
  obtain ⟨⟨url, label, rest⟩, hlink, rfl⟩ := Option.map_eq_some_iff.mp h
  obtain ⟨hlabel, hrest⟩ := hshort _ _ _ hlink
  refine ⟨hrest, fun inner h => ?_⟩
  obtain rfl := Option.some.inj h
  exact hlabel

theorem readMdEscape_eq_some {c : Char} {rest : List Char} {r : Span × List Char} (h : readMdEscape (c :: rest) = some r) :
    c = '\\' ∧ Shorter (c :: rest) r := by
  unfold readMdEscape at h
  split at h
  · next d after heq =>
    obtain ⟨rfl, rfl⟩ := List.cons.inj heq
    obtain rfl := Option.some.inj h
    exact ⟨rfl, shorter_literal _ _ _ _ (Nat.le_succ _)⟩
  · cases h

theorem readMdCode_shorter {chars : List Char} {r : Span × List Char}
    (h : (readMdFence chars <|> oneCharSpan '`' (fun code => .leaf (.fixed (rtPlain code))) chars) = some r) :
    Shorter chars r := by
  rcases some_of_orElse h with h | h
  · unfold readMdFence at h
    split at h
    · obtain rfl := Option.some.inj h
      exact shorter_literal _ _ _ _ (by simp only [List.length_cons]; omega)
    · cases h
  · exact oneCharSpan_shorter (fun _ _ h => by cases h) h

/-- A turn fails exactly at a tag that goes wrong, and takes a character at least. -/
theorem mdInlineTurn_spec (c : Char) (rest : List Char) :
    ((∃ r, mdInlineTurn c rest = some r) ↔ TagFine (c :: rest)) ∧
      ∀ r, mdInlineTurn c rest = some r → Shorter (c :: rest) r := by
  unfold mdInlineTurn
  simp only
  cases hesc : readMdEscape (c :: rest) with
  | some r =>
    obtain ⟨rfl, hshort⟩ := readMdEscape_eq_some hesc
    refine ⟨iff_of_true ⟨r, rfl⟩ (tagFine_of_ne (by decide) rest), fun r' h => ?_⟩
    obtain rfl := Option.some.inj h
    exact hshort
  | none =>
    obtain ⟨htag, hshort⟩ := tagSpan_spec (c :: rest)
    simp only [← htag]
    cases hspan : tagSpan (c :: rest) with
    | none =>
      refine ⟨iff_of_false ?_ ?_, fun _ h => by cases h⟩ <;>
      · rintro ⟨_, h⟩
        cases h
    | some found =>
      simp only [Option.bind_eq_bind, Option.bind_some]
      cases found with
      | some r =>
        refine ⟨iff_of_true ⟨r, rfl⟩ ⟨_, rfl⟩, fun r' h => ?_⟩
        obtain rfl := Option.some.inj h
        exact hshort _ hspan
      | none =>
        simp only
        cases hcode : (readMdFence (c :: rest) <|>
            oneCharSpan '`' (fun code => .leaf (.fixed (rtPlain code))) (c :: rest)) with
        | some r =>
          refine ⟨iff_of_true ⟨r, rfl⟩ ⟨_, rfl⟩, fun r' h => ?_⟩
          obtain rfl := Option.some.inj h
          exact readMdCode_shorter hcode
        | none =>
          obtain ⟨image, himage, hisshort⟩ := imageSpan_spec (c :: rest)
          obtain ⟨link, hlink, hlshort⟩ := linkSpan_spec (c :: rest)
          simp only [himage, hlink, Option.bind_some]
          cases image with
          | some r =>
            refine ⟨iff_of_true ⟨r, rfl⟩ ⟨_, rfl⟩, fun r' h => ?_⟩
            obtain rfl := Option.some.inj h
            exact hisshort _ rfl
          | none =>
            cases link with
            | some r =>
              refine ⟨iff_of_true ⟨r, rfl⟩ ⟨_, rfl⟩, fun r' h => ?_⟩
              obtain rfl := Option.some.inj h
              exact hlshort _ rfl
            | none =>
              refine ⟨iff_of_true ⟨_, rfl⟩ ⟨_, rfl⟩, fun r' h => ?_⟩
              obtain rfl := Option.some.inj h
              cases hdelim : readMdDelimiters (c :: rest) with
              | some r => exact readMdDelimiters_shorter hdelim
              | none => exact shorter_literal _ _ _ _ (Nat.le_refl _)

theorem readHtmlEntity_eq_some {c : Char} {rest : List Char} {r : Span × List Char}
    (h : readHtmlEntity (c :: rest) = some r) : c = '&' ∧ Shorter (c :: rest) r := by
  unfold readHtmlEntity at h
  split at h
  · next after heq =>
    obtain ⟨rfl, rfl⟩ := List.cons.inj heq
    simp only at h
    split at h
    · obtain rfl := Option.some.inj h
      refine ⟨rfl, shorter_literal _ _ _ _ ?_⟩
      rw [List.length_drop]
      exact Nat.sub_le _ _
    · cases h
  · cases h

theorem htmlInlineTurn_spec (c : Char) (rest : List Char) :
    ((∃ r, htmlInlineTurn c rest = some r) ↔ TagFine (c :: rest)) ∧
      ∀ r, htmlInlineTurn c rest = some r → Shorter (c :: rest) r := by
  unfold htmlInlineTurn
  cases hent : readHtmlEntity (c :: rest) with
  | some r =>
    obtain ⟨rfl, hshort⟩ := readHtmlEntity_eq_some hent
    refine ⟨iff_of_true ⟨r, rfl⟩ (tagFine_of_ne (by decide) rest), fun r' h => ?_⟩
    obtain rfl := Option.some.inj h
    exact hshort
  | none =>
    obtain ⟨htag, hshort⟩ := tagSpan_spec (c :: rest)
    rw [← htag]
    cases hspan : tagSpan (c :: rest) with
    | none =>
      refine ⟨iff_of_false ?_ ?_, fun _ h => by cases h⟩ <;>
      · rintro ⟨_, h⟩
        cases h
    | some found =>
      refine ⟨iff_of_true ⟨_, rfl⟩ ⟨_, rfl⟩, fun r' h => ?_⟩
      obtain rfl := Option.some.inj h
      cases found with
      | some r => exact hshort _ hspan
      | none => exact shorter_literal _ _ _ _ (Nat.le_refl _)

end Ferogram.Parsers.Rich
