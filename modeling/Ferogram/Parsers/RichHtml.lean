import Ferogram.Parsers.RichBlocks

/- `parse_rich_html`. What is left of the text stands for the position in it, and
   a step is given by the bytes that it goes on (`advance`). A turn skips white
   space, reads a block tag if one is in front, and a paragraph otherwise.

   The loop stays at a text that begins like a block tag but is none, or is one
   whose body is never reached for want of a `>` (`StuckTag`). A paragraph is
   read byte by byte outside of tags, so a slice fails at any character of several
   bytes there, and at an inline tag that does not end (`TextFine`). And it fails
   where a list or table has an item left open, and where a tag is not read
   (`HtmlTag.Fine`). `parseRichHtml_total_iff` says that nothing else goes
   wrong. -/
namespace Ferogram.Parsers.Rich
open Str Descent

/-- `u8::is_ascii_whitespace`. -/
def isAsciiWhitespace (c : Char) : Bool := c ∈ [' ', '\t', '\n', '\x0c', '\r']

def skipWhitespace (html : List Char) : List Char := html.dropWhile isAsciiWhitespace

/-- The position `n` bytes on; at the end and behind it the loop is over. -/
def advance (rem : List Char) (n : Nat) : Option (List Char) :=
  if byteLen rem ≤ n then some [] else sliceFrom rem n

/-! Tags. -/

/-- `consume_tag`: the body, if there is one, and how far the position goes. -/
def consumeTag (tag rem : List Char) : Option (Option (List Char) × Nat) :=
  match find (· == '>') rem with
  | none => some (none, 0)
  | some openEnd => do
    let behind ← sliceFrom rem (openEnd + 1)
    match findStr (closeTag tag) (toAsciiLowercase behind) with
    | none => some (none, openEnd + 1)
    | some closePos => do
      let body ← sliceTo behind closePos
      some (some body, openEnd + 1 + (closePos + byteLen (closeTag tag)))

/-- Where the `>` of the tag is, or the end. -/
def openEnd (rem : List Char) : Nat := (find (· == '>') rem).getD (byteLen rem)

def cleanTagRaw (raw : List Char) : List Char := trim (trimEndMatches (· == '/') raw)

def consumeSelfClosingTag (rem : List Char) : Option (List Char × Nat) := do
  let raw ← slice rem 1 (openEnd rem)
  some (cleanTagRaw raw, openEnd rem + 1)

def consumeSelfClosingOrPair (tag rem : List Char) : Option (List Char × Nat) := do
  let opened ← sliceTo rem (openEnd rem)
  let raw ← slice rem 1 (openEnd rem)
  if opened.getLast? = some '/' then some (cleanTagRaw raw, openEnd rem + 1)
  else do
    let behind ← sliceFrom rem (openEnd rem + 1)
    match findStr (closeTag tag) (toAsciiLowercase behind) with
    | some stop => some (cleanTagRaw raw, openEnd rem + 1 + (stop + byteLen (closeTag tag)))
    | none => some (cleanTagRaw raw, openEnd rem + 1)

def extractPreContentFromBody (body : List Char) : Option (List Char × List Char) := do
  let lo := toAsciiLowercase body
  let code : List Char := "<code".toList
  if code <:+: lo then do
    let lang := (← extractBetween body "class=\"language-".toList ['"']).getD []
    let behindGt (s : List Char) (n : Option Nat) : Option (List Char) :=
      sliceFrom s (match n with
        | some i => i + 1
        | none => 0)
    let text ←
      match ← extractBetween body ['>'] "</code>".toList with
      | some c => some c
      | none => do
        match ← extractBetween body code "</code>".toList with
        | some c => behindGt c (find (· == '>') c)
        | none => behindGt body (find (· == '>') lo)
    some (lang, decodeHtmlEntities text)
  else some ([], decodeHtmlEntities body)

inductive HtmlTag where
  | heading (level : Nat)
  | paragraph
  | pre
  | footer
  | hr
  | blockquote
  | aside
  | ul
  | ol
  | table
  | details
  | img
  | video
  | audio
  | figure
  | collage
  | slideshow
  | map
  | mathBlock
  | anchor
  | comment
deriving DecidableEq

/-- `<name>` or `<name ` in front. -/
def startsTag (name lower : List Char) : Bool :=
  ('<' :: (name ++ ['>'])).isPrefixOf lower || ('<' :: (name ++ [' '])).isPrefixOf lower

/-- The tag that `try_parse_block_tag` goes by. -/
def htmlTag? (rem : List Char) : Option HtmlTag :=
  let lower := toAsciiLowercase rem
  match [1, 2, 3, 4, 5, 6].find? fun level => startsTag (headingName level) lower with
  | some level => some (.heading level)
  | none =>
    if startsTag "p".toList lower then some .paragraph
    else if startsTag "pre".toList lower then some .pre
    else if startsTag "footer".toList lower then some .footer
    else if "<hr".toList.isPrefixOf lower then some .hr
    else if "<blockquote".toList.isPrefixOf lower then some .blockquote
    else if "<aside".toList.isPrefixOf lower then some .aside
    else if "<ul".toList.isPrefixOf lower then some .ul
    else if "<ol".toList.isPrefixOf lower then some .ol
    else if "<table".toList.isPrefixOf lower then some .table
    else if "<details".toList.isPrefixOf lower then some .details
    else if "<img ".toList.isPrefixOf lower then some .img
    else if "<video ".toList.isPrefixOf lower then some .video
    else if "<audio ".toList.isPrefixOf lower then some .audio
    else if "<figure".toList.isPrefixOf lower then some .figure
    else if "<tg-collage".toList.isPrefixOf lower then some .collage
    else if "<tg-slideshow".toList.isPrefixOf lower then some .slideshow
    else if "<tg-map".toList.isPrefixOf lower then some .map
    else if "<tg-math-block".toList.isPrefixOf lower then some .mathBlock
    else if "<a ".toList.isPrefixOf lower ∧ "name=".toList <:+: lower then some .anchor
    else if "<!--".toList.isPrefixOf lower ∨ "<!".toList.isPrefixOf lower then some .comment
    else none

/-- The name that the body of a tag is closed by. -/
def HtmlTag.bodyName? : HtmlTag → Option (List Char)
  | .heading level => some (headingName level)
  | .paragraph => some "p".toList
  | .pre => some "pre".toList
  | .footer => some "footer".toList
  | .blockquote => some "blockquote".toList
  | .aside => some "aside".toList
  | .ul => some "ul".toList
  | .ol => some "ol".toList
  | .table => some "table".toList
  | .details => some "details".toList
  | .figure => some "figure".toList
  | .collage => some "tg-collage".toList
  | .slideshow => some "tg-slideshow".toList
  | .mathBlock => some "tg-math-block".toList
  | _ => none

/-- A block that is made of the body of a tag; without a body the tag is passed over. -/
def withBody (tag rem : List Char) (k : List Char → Option (List Piece)) : Option (Option (List Piece) × Nat) := do
  match ← consumeTag tag rem with
  | (none, n) => some (none, n)
  | (some body, n) => (k body).map fun pieces => (some pieces, n)

/-- What `parse_tag` is given of an opening tag. -/
def openTag (rem : List Char) : List Char := (rem.takeWhile (· ≠ '>')).dropWhile (· = '<')

/-- A medium, if it has a source. -/
def mediaPieces (attrs : List (List Char × List Char)) (spoiler : Bool) : List Piece :=
  let src := (attr "src".toList attrs).getD []
  if src = [] then [] else [.block (mediaBlock src emptyCaption spoiler)]

def detailsPieces (rem full : List Char) : Option (List Piece) := do
  let isOpen := "<details open".toList.isPrefixOf (toAsciiLowercase rem) || "open".toList.isPrefixOf full
  let summary := (← extractBetween full "<summary>".toList summaryClose).getD []
  let body ← sliceFrom full (bodyStart full)
  some [.details isOpen (.html summary) (trim body)]

/-- What is read of a tag: the pieces, if it is one, and how far the position goes. -/
def HtmlTag.read (rem : List Char) : HtmlTag → Option (Option (List Piece) × Nat)
  | .heading level => withBody (headingName level) rem fun body => some [.block (headingBlock level (.html body))]
  | .paragraph => withBody "p".toList rem fun body => some [.block (.paragraph (.html body))]
  | .pre => withBody "pre".toList rem fun body =>
    (extractPreContentFromBody body).map fun r => [.block (.preformatted (rtPlain r.2) r.1)]
  | .footer => withBody "footer".toList rem fun body => some [.block (.footer (.html body))]
  | .hr => some (some [.block .divider], openEnd rem + 1)
  | .blockquote => withBody "blockquote".toList rem fun body =>
    (splitCite body).map fun r => [.block (.blockquote (.html r.1) (.html r.2))]
  | .aside => withBody "aside".toList rem fun body =>
    (splitCite body).map fun r => [.block (.pullquote (.html r.1) (.html r.2))]
  | .ul => withBody "ul".toList rem fun body => (parseHtmlListItems body).map fun items => [.block (.list items)]
  | .ol => do
    let (_, attrs) ← Sliced.parseTag (openTag rem)
    let listType := attr "type".toList attrs
    withBody "ol".toList rem fun body => (parseHtmlOrderedListItems body listType).map fun items =>
      [.block (.orderedList (hasAttr "reversed".toList attrs) items ((attr "start".toList attrs).bind parseI32) listType)]
  | .table => do
    let (_, attrs) ← Sliced.parseTag (openTag rem)
    withBody "table".toList rem fun body => (parseHtmlTable body).map fun r =>
      [.block (.table (hasAttr "bordered".toList attrs) (hasAttr "striped".toList attrs)
        (hasAttr "compact".toList attrs) r.1 r.2)]
  | .details => withBody "details".toList rem (detailsPieces rem)
  | .img => do
    let (raw, n) ← consumeSelfClosingTag rem
    let (_, attrs) ← Sliced.parseTag raw
    some (some (mediaPieces attrs (hasAttr "tg-spoiler".toList attrs)), n)
  | .video => do
    let (raw, n) ← consumeSelfClosingOrPair "video".toList rem
    let (_, attrs) ← Sliced.parseTag raw
    some (some (mediaPieces attrs (hasAttr "tg-spoiler".toList attrs)), n)
  | .audio => do
    let (raw, n) ← consumeSelfClosingOrPair "audio".toList rem
    let (_, attrs) ← Sliced.parseTag raw
    some (some (mediaPieces attrs false), n)
  | .figure => withBody "figure".toList rem fun body =>
    figureBlocks .html (decide ("<tg-map".toList <:+: toAsciiLowercase body)) body
  | .collage => withBody "tg-collage".toList rem fun body =>
    (extractCollageItems body).map fun r => [.block (.collage r.1 (r.2.getD emptyCaption))]
  | .slideshow => withBody "tg-slideshow".toList rem fun body =>
    (extractCollageItems body).map fun r => [.block (.slideshow r.1 (r.2.getD emptyCaption))]
  | .map => do
    let (raw, n) ← consumeSelfClosingTag rem
    let (_, attrs) ← Sliced.parseTag raw
    some (some [.block (mapBlock attrs emptyCaption)], n)
  | .mathBlock => withBody "tg-math-block".toList rem fun body => some [.block (.math body)]
  | .anchor => do
    let (raw, n) ← consumeSelfClosingOrPair "a".toList rem
    let (_, attrs) ← Sliced.parseTag raw
    let name := (attr "name".toList attrs).getD []
    some (some (if name = [] then [] else [.block (.anchor name)]), n)
  | .comment => some (some [], min (openEnd rem + 1) (byteLen rem))

/-- The block tag in front. -/
def blockTag? (rem : List Char) : Option HtmlTag := if rem.head? = some '<' then htmlTag? rem else none

def tryParseBlockTag (rem : List Char) : Option (Option (List Piece) × Nat) :=
  match blockTag? rem with
  | some tag => tag.read rem
  | none => some (none, 0)

/-! Paragraphs. -/

/-- A turn of the loop of `parse_text_paragraph`: over an inline tag, or one byte. A position past the end is not
    sliced here, but by the slice behind the loop. -/
def textTurn (rem : List Char) : Option (Option (Nat × List Char)) :=
  if rem = [] then some none
  else if rem.head? = some '<' then
    if isBlockHtmlTag rem then some none
    else (sliceFrom rem (openEnd rem + 1)).map fun rest => some (openEnd rem + 1, rest)
  else (sliceFrom rem 1).map fun rest => some (1, rest)

/-- `parse_text_paragraph`: the paragraph, if there is one, and how far the position goes. -/
def parseTextParagraph (rem : List Char) : Option (Option Piece × Nat) := do
  let n := (← loop textTurn (rem.length + 1) rem).sum
  if n = 0 then some (none, 0)
  else do
    let textRaw ← sliceTo rem n
    let decoded := decodeHtmlEntities textRaw
    some (if trim decoded = [] then none else some (.block (.paragraph (.html decoded))), n)

/-! The loop. -/

def htmlTurn (html : List Char) : Option (Option (List Piece × List Char)) :=
  let rem := skipWhitespace html
  if rem = [] then some none
  else do
    match ← tryParseBlockTag rem with
    | (some pieces, n) => (advance rem n).map fun rest => some (pieces, rest)
    | (none, n) => do
      let rem ← sliceFrom rem n
      let (paragraph, m) ← parseTextParagraph rem
      (advance rem m).map fun rest => some (paragraph.toList, rest)

/-- `parse_rich_html`. -/
def parseRichHtml (fuel : Nat) (html : List Char) : Option (List PageBlock) := parseBlocks id htmlTurn fuel html

/-! Where it goes wrong. -/

/-- A text that begins like a block, and is no tag that is read, or one with a body that does not end. -/
structure StuckTag (html : List Char) : Prop where
  block : isBlockHtmlTag html = true
  unread : ∀ tag, htmlTag? html = some tag → tag.bodyName?.isSome ∧ '>' ∉ html

/-- The body of the tag, if it has one. -/
def BodyFine (name rem : List Char) (P : List Char → Prop) : Prop :=
  ∀ body rest, splitItem (closeTag name) rem = some (body, rest) → P body

/-- The text of a tag that closes itself. -/
def selfClosingTag (rem : List Char) : List Char := cleanTagRaw ((rem.drop 1).takeWhile (· ≠ '>'))

def HtmlTag.Fine (rem : List Char) : HtmlTag → Prop
  | .ul => BodyFine "ul".toList rem ListFine
  | .ol => TagRead (openTag rem) ∧ BodyFine "ol".toList rem ListFine
  | .table => TagRead (openTag rem) ∧ BodyFine "table".toList rem TableFine
  | .figure => BodyFine "figure".toList rem fun body =>
    FigureFine (decide ("<tg-map".toList <:+: toAsciiLowercase body)) body
  | .img => TagRead (selfClosingTag rem)
  | .map => TagRead (selfClosingTag rem)
  | .video => ('>' ∈ rem ∨ rem.getLast? = some '/') ∧ TagRead (selfClosingTag rem)
  | .audio => ('>' ∈ rem ∨ rem.getLast? = some '/') ∧ TagRead (selfClosingTag rem)
  | .anchor => ('>' ∈ rem ∨ rem.getLast? = some '/') ∧ TagRead (selfClosingTag rem)
  | _ => True

/-- A step of a paragraph: over an inline tag that ends, or a character of one byte. -/
def StepFine (rem : List Char) : Prop :=
  ∀ c rest, rem = c :: rest →
    if c = '<' then isBlockHtmlTag rem = true ∨ '>' ∈ rest else c.utf8Size = 1

def TextFine (text : List Char) : Prop := ∀ t, Reached (loopNext textTurn) text t → StepFine t

/-- What a tag leaves to the paragraph: everything if it does not end, and what is behind it if it is not closed. -/
def unreadBody (name? : Option (List Char)) (rem : List Char) : Option (List Char) :=
  name?.bind fun name =>
    match splitAtChar '>' rem with
    | none => some rem
    | some (_, behind) => if (splitLower (closeTag name) behind).isSome then none else some behind

/-- The text that the paragraph is read from. -/
def paragraphText (rem : List Char) : Option (List Char) :=
  match blockTag? rem with
  | none => some rem
  | some tag => unreadBody tag.bodyName? rem

/-- The loop goes on from here, a block tag in front is read, and so is the paragraph. -/
structure HtmlFine (html : List Char) : Prop where
  moves : ¬ StuckTag html
  tag : ∀ tag, blockTag? (skipWhitespace html) = some tag → tag.Fine (skipWhitespace html)
  text : ∀ text, paragraphText (skipWhitespace html) = some text → TextFine text

/-! Where a tag ends. -/

section
variable {rem behind : List Char} {n : Nat}

theorem openEnd_eq (rem : List Char) : openEnd rem = byteLen (rem.takeWhile (· ≠ '>')) := by
  have hnot : (fun c : Char => !(c == '>')) = fun c => decide (c ≠ '>') := by
    funext c
    by_cases hc : c = '>' <;> simp [hc]
  rw [openEnd, find_getD, hnot]

theorem openEnd_of_not_mem (h : '>' ∉ rem) : openEnd rem = byteLen rem := by
  rw [openEnd_eq, takeWhile_of_not_mem h]

/-- Behind the `>`. -/
theorem sliceFrom_openEnd (h : '>' ∈ rem) : ∃ a behind, splitAtChar '>' rem = some (a, behind) ∧
    openEnd rem = byteLen a ∧ sliceFrom rem (openEnd rem + 1) = some behind ∧ behind.length < rem.length := by
  obtain ⟨a, behind, rfl, hnot⟩ := List.eq_append_cons_of_mem h
  have hend : openEnd (a ++ '>' :: behind) = byteLen a := by
    rw [openEnd_eq, (HtmlState.takeWhile_ne_append hnot).1]
  refine ⟨a, behind, splitAtChar_append hnot, hend, ?_, ?_⟩
  · rw [hend]
    exact sliceFrom_append_cons a behind rfl
  · rw [List.length_append, List.length_cons]
    omega

theorem advance_of_slice {rest : List Char} (h : sliceFrom rem n = some rest) : advance rem n = some rest := by
  unfold advance
  split
  · next hle =>
    obtain ⟨a, rfl, rfl⟩ := sliceFrom_eq_some_iff.mp h
    rw [byteLen_append] at hle
    rw [byteLen_eq_zero.mp (show byteLen rest = 0 by omega)]
  · exact h

/-- Behind the tag there is less, also if it does not end. -/
theorem advance_openEnd (hne : rem ≠ []) :
    ∃ rest, advance rem (openEnd rem + 1) = some rest ∧ rest.length < rem.length := by
  by_cases hgt : '>' ∈ rem
  · obtain ⟨a, behind, -, -, hbehind, hless⟩ := sliceFrom_openEnd hgt
    exact ⟨behind, advance_of_slice hbehind, hless⟩
  · refine ⟨[], ?_, List.length_pos_iff.mpr hne⟩
    rw [advance, if_pos (by rw [openEnd_of_not_mem hgt]; omega)]

/-- A tag with a body: it is left to the paragraph, or it is cut out and the position is behind its closing tag. -/
theorem consumeTag_spec (tag rem : List Char) :
    (∃ text n, unreadBody (some tag) rem = some text ∧ consumeTag tag rem = some (none, n) ∧
      sliceFrom rem n = some text ∧ splitItem (closeTag tag) rem = none) ∨
    ∃ body rest n, unreadBody (some tag) rem = none ∧ consumeTag tag rem = some (some body, n) ∧
      sliceFrom rem n = some rest ∧ splitItem (closeTag tag) rem = some (body, rest) := by
  unfold unreadBody consumeTag splitItem
  rw [find_splitAtChar]
  cases hsplit : splitAtChar '>' rem with
  | none => exact Or.inl ⟨rem, 0, rfl, rfl, sliceFrom_zero rem, rfl⟩
  | some r =>
    obtain ⟨a, behind⟩ := r
    obtain ⟨rfl, -⟩ := splitAtChar_eq_some hsplit
    have hbehind : sliceFrom (a ++ '>' :: behind) (byteLen a + 1) = some behind := sliceFrom_append_cons a behind rfl
    simp only [Option.map_some, hbehind, findStr_lower, Option.bind_eq_bind, Option.bind_some]
    cases hclose : splitLower (closeTag tag) behind with
    | none => exact Or.inl ⟨behind, byteLen a + 1, rfl, rfl, hbehind, rfl⟩
    | some r =>
      obtain ⟨body, rest⟩ := r
      obtain ⟨p, rfl, hp, -⟩ := splitLower_eq_some hclose
      refine Or.inr ⟨body, rest, byteLen a + 1 + (byteLen body + byteLen (closeTag tag)), rfl, ?_, ?_, rfl⟩
      · simp only [Option.map_some, sliceTo_append, Option.bind_some]
      · refine sliceFrom_eq_some_iff.mpr ⟨a ++ '>' :: (body ++ p), by simp, ?_⟩
        rw [← hp, byteLen_toAsciiLowercase, byteLen_append, byteLen_cons, byteLen_append,
          show ('>' : Char).utf8Size = 1 from rfl]
        omega

end

/-! Tags that are read. -/

/-- A result is there exactly if the tag is fine. It leaves a text to the paragraph, or goes on with less. -/
structure Reads (text? : Option (List Char)) (rem : List Char) (result : Option (Option (List Piece) × Nat))
    (Fine : Prop) : Prop where
  isSome_iff : (∃ r, result = some r) ↔ Fine
  unread : ∀ n, result = some (none, n) → ∃ text, text? = some text ∧ sliceFrom rem n = some text
  goes : ∀ pieces n, result = some (some pieces, n) → text? = none ∧
    (∃ rest, advance rem n = some rest ∧ rest.length < rem.length) ∧
    ∀ p ∈ pieces, ∀ body, p.body? = some body → body.length < rem.length

section
variable {rem name : List Char} {text? : Option (List Char)} {Fine : Prop}

theorem body_shorter {closing body rest : List Char} (h : splitItem closing rem = some (body, rest)) :
    body.length < rem.length := by
  obtain ⟨⟨tag, behind⟩, hsplit, hclose⟩ := Option.bind_eq_some_iff.mp h
  obtain ⟨rfl, -⟩ := splitAtChar_eq_some hsplit
  obtain ⟨p, hbody, -⟩ := splitLower_eq_some hclose
  obtain rfl : behind = body ++ (p ++ rest) := hbody
  simp only [List.length_append, List.length_cons]
  omega

/-- The blocks with a body. -/
theorem reads_withBody {k : List Char → Option (List Piece)} {P : List Char → Prop}
    (hk : ∀ body, (∃ pieces, k body = some pieces) ↔ P body)
    (hbody : ∀ body pieces, k body = some pieces → ∀ p ∈ pieces, ∀ b, p.body? = some b → b.length ≤ body.length) :
    Reads (unreadBody (some name) rem) rem (withBody name rem k) (BodyFine name rem P) := by
  unfold withBody BodyFine
  rcases consumeTag_spec name rem with ⟨text, n, htext, htag, hslice, hsplit⟩ | ⟨body, rest, n, hnone, htag, hslice, hsplit⟩
  · rw [htag, hsplit, htext]
    exact ⟨iff_of_true ⟨_, rfl⟩ fun _ _ h => (nomatch h), fun m h => by cases h; exact ⟨text, rfl, hslice⟩,
      fun _ _ h => nomatch h⟩
  · rw [htag, hsplit, hnone]
    refine ⟨?_, fun m h => ?_, fun pieces m h => ?_⟩
    · refine (exists_map_iff (k body) _).trans ((hk body).trans ⟨fun h body' rest' heq => ?_, fun h => h body rest rfl⟩)
      obtain ⟨rfl, -⟩ := Prod.mk.inj (Option.some.inj heq)
      exact h
    · obtain ⟨pieces, -, heq⟩ := Option.map_eq_some_iff.mp h
      cases heq
    · obtain ⟨pieces', hpieces, heq⟩ := Option.map_eq_some_iff.mp h
      cases heq
      refine ⟨rfl, ⟨rest, advance_of_slice hslice, splitItem_shorter hsplit⟩, fun p hp b hb => ?_⟩
      exact Nat.lt_of_le_of_lt (hbody body pieces hpieces p hp b hb) (body_shorter hsplit)

/-- One block is made of the body. -/
theorem reads_block {α : Type} {x : List Char → Option α} {P : List Char → Prop}
    (hx : ∀ body, (∃ a, x body = some a) ↔ P body) (f : α → Block Inline) :
    Reads (unreadBody (some name) rem) rem (withBody name rem fun body => (x body).map fun a => [.block (f a)])
      (BodyFine name rem P) := by
  refine reads_withBody (fun body => (exists_map_iff _ _).trans (hx body)) fun body pieces h p hp b hb => ?_
  obtain ⟨a, -, rfl⟩ := Option.map_eq_some_iff.mp h
  rw [List.mem_singleton.mp hp] at hb
  cases hb

/-- The attributes are read first. -/
theorem reads_tag {text : List Char} {x : List (List Char × List Char) → Option (Option (List Piece) × Nat)}
    (hx : ∀ attrs, Reads text? rem (x attrs) Fine) :
    Reads text? rem ((Sliced.parseTag text).bind fun tag => x tag.2) (TagRead text ∧ Fine) := by
  unfold TagRead
  rw [← Sliced.parseTag_isSome_iff]
  cases Sliced.parseTag text with
  | none => exact ⟨by simp, fun _ h => (nomatch h), fun _ _ h => nomatch h⟩
  | some tag =>
    obtain ⟨hiff, hunread, hgoes⟩ := hx tag.2
    exact ⟨hiff.trans (by simp), hunread, hgoes⟩

/-- The blocks without a body are made of their attributes. -/
theorem reads_attrs {x : Option (List Char × Nat)} {raw : List Char} {P : Prop} (hx : (∃ r, x = some r) ↔ P)
    (hraw : ∀ r, x = some r → r.1 = raw ∧ ∃ rest, advance rem r.2 = some rest ∧ rest.length < rem.length)
    {f : List (List Char × List Char) → List Piece} (hf : ∀ attrs, ∀ p ∈ f attrs, p.body? = none) :
    Reads none rem (x.bind fun r => (Sliced.parseTag r.1).bind fun tag => some (some (f tag.2), r.2)) (P ∧ TagRead raw) := by
  rw [← hx]
  unfold TagRead
  rw [← Sliced.parseTag_isSome_iff]
  cases x with
  | none => exact ⟨by simp, fun _ h => (nomatch h), fun _ _ h => nomatch h⟩
  | some r =>
    obtain ⟨rfl, hrest⟩ := hraw r rfl
    simp only [Option.bind_some]
    cases Sliced.parseTag r.1 with
    | none => exact ⟨by simp, fun _ h => (nomatch h), fun _ _ h => nomatch h⟩
    | some tag =>
      refine ⟨by simp, fun _ h => (nomatch h), fun pieces n h => ?_⟩
      cases h
      refine ⟨rfl, hrest, fun p hp body hbody => ?_⟩
      rw [hf tag.2 p hp] at hbody
      cases hbody

/-- The blocks that are nothing but their tag. -/
theorem reads_pieces {pieces : List Piece} {n : Nat} (hrest : ∃ rest, advance rem n = some rest ∧ rest.length < rem.length)
    (hpieces : ∀ p ∈ pieces, p.body? = none) : Reads none rem (some (some pieces, n)) True := by
  refine ⟨iff_of_true ⟨_, rfl⟩ trivial, fun _ h => (nomatch h), fun pieces' m h => ?_⟩
  cases h
  refine ⟨rfl, hrest, fun p hp body hbody => ?_⟩
  rw [hpieces p hp] at hbody
  cases hbody

end

/-! Tags that close themselves. -/

theorem sliceTo_openEnd (rem : List Char) : sliceTo rem (openEnd rem) = some (rem.takeWhile (· ≠ '>')) := by
  rw [openEnd_eq, sliceTo_takeWhile]

section
variable {rem : List Char} (hlt : rem.head? = some '<')
include hlt

theorem slice_raw : slice rem 1 (openEnd rem) = some ((rem.drop 1).takeWhile (· ≠ '>')) := by
  obtain ⟨rest, rfl⟩ := List.head?_eq_some_iff.mp hlt
  have h := slice_append ['<'] (rest.takeWhile (· ≠ '>')) (rest.dropWhile (· ≠ '>'))
  rw [List.takeWhile_append_dropWhile] at h
  rw [openEnd_eq]
  exact h

theorem consumeSelfClosingTag_eq : consumeSelfClosingTag rem = some (selfClosingTag rem, openEnd rem + 1) := by
  unfold consumeSelfClosingTag
  rw [slice_raw hlt]
  rfl

theorem consumeSelfClosingOrPair_spec (tag : List Char) :
    ((∃ r, consumeSelfClosingOrPair tag rem = some r) ↔ '>' ∈ rem ∨ rem.getLast? = some '/') ∧
      ∀ r, consumeSelfClosingOrPair tag rem = some r → r.1 = selfClosingTag rem ∧
        ∃ rest, advance rem r.2 = some rest ∧ rest.length < rem.length := by
  have hne : rem ≠ [] := by
    rintro rfl
    cases hlt
  have hgoes := advance_openEnd hne
  unfold consumeSelfClosingOrPair
  simp only [sliceTo_openEnd rem, slice_raw hlt, Option.bind_eq_bind, Option.bind_some]
  split
  · next hself =>
    refine ⟨iff_of_true ⟨_, rfl⟩ ?_, fun r h => ?_⟩
    · by_cases hgt : '>' ∈ rem
      · exact Or.inl hgt
      · rw [takeWhile_of_not_mem hgt] at hself
        exact Or.inr hself
    · cases h
      exact ⟨rfl, hgoes⟩
  · next hself =>
    by_cases hgt : '>' ∈ rem
    · obtain ⟨a, behind, -, -, hbehind, hless⟩ := sliceFrom_openEnd hgt
      simp only [hbehind, findStr_lower, Option.bind_some]
      cases hclose : splitLower (closeTag tag) behind with
      | none => exact ⟨iff_of_true ⟨_, rfl⟩ (Or.inl hgt), fun r h => by cases h; exact ⟨rfl, hgoes⟩⟩
      | some r =>
        obtain ⟨body, rest⟩ := r
        obtain ⟨p, rfl, hp, -⟩ := splitLower_eq_some hclose
        refine ⟨iff_of_true ⟨_, rfl⟩ (Or.inl hgt), fun r h => ?_⟩
        cases h
        refine ⟨rfl, rest, advance_of_slice ?_, ?_⟩
        · obtain ⟨c, hrem, hc⟩ := sliceFrom_eq_some_iff.mp hbehind
          refine sliceFrom_eq_some_iff.mpr ⟨c ++ (body ++ p), by rw [hrem]; simp, ?_⟩
          rw [byteLen_append, hc, byteLen_append, ← hp, byteLen_toAsciiLowercase]
        · rw [List.length_append, List.length_append] at hless
          omega
    · have hmissing : sliceFrom rem (openEnd rem + 1) = none := by
        apply sliceFrom_of_lt
        rw [openEnd_of_not_mem hgt]
        exact Nat.lt_succ_self _
      rw [takeWhile_of_not_mem hgt] at hself
      rw [hmissing]
      exact ⟨iff_of_false (fun ⟨_, h⟩ => nomatch h) fun h => h.elim hgt hself, fun _ h => nomatch h⟩

end

/-! Every tag. -/

theorem extractPreContentFromBody_isSome (body : List Char) : ∃ r, extractPreContentFromBody body = some r := by
  have hgt : ∀ (s : List Char) (n : Option Nat), (∀ i, n = some i → Boundary s (i + 1)) →
      ∃ t, sliceFrom s (match n with
        | some i => i + 1
        | none => 0) = some t := by
    intro s n h
    cases n with
    | none => exact ⟨s, sliceFrom_zero s⟩
    | some i => exact (h i rfl).sliceFrom
  obtain ⟨lang, hlang⟩ := extractBetween_isSome body "class=\"language-".toList ['"']
  obtain ⟨inner, hinner⟩ := extractBetween_isSome body ['>'] "</code>".toList
  obtain ⟨code, hcode⟩ := extractBetween_isSome body "<code".toList "</code>".toList
  unfold extractPreContentFromBody
  simp only [hlang, hinner, hcode, Option.bind_eq_bind, Option.bind_some]
  split
  · cases inner with
    | some c => exact ⟨_, rfl⟩
    | none =>
      cases code with
      | some c =>
        obtain ⟨text, htext⟩ := hgt c (find (· == '>') c) fun i hi => (boundary_find hi).2 gt_utf8Size
        simp only [htext, Option.bind_some]
        exact ⟨_, rfl⟩
      | none =>
        obtain ⟨text, htext⟩ := hgt body (find (· == '>') (toAsciiLowercase body)) fun i hi =>
          boundary_lower.mp ((boundary_find hi).2 gt_utf8Size)
        simp only [htext, Option.bind_some]
        exact ⟨_, rfl⟩
  · exact ⟨_, rfl⟩

theorem mediaPieces_body (attrs : List (List Char × List Char)) (spoiler : Bool) :
    ∀ p ∈ mediaPieces attrs spoiler, p.body? = none := by
  intro p hp
  unfold mediaPieces at hp
  simp only at hp
  split at hp
  · exact absurd hp List.not_mem_nil
  · rw [List.mem_singleton.mp hp]
    rfl

/-- A tag is read exactly if it is fine, and goes on. -/
def HtmlTag.Goes (tag : HtmlTag) (rem : List Char) : Prop :=
  Reads (unreadBody tag.bodyName? rem) rem (tag.read rem) (tag.Fine rem)

section
variable {rem : List Char}

/-- The blocks whose body is read whatever it is. -/
theorem goes_block {α : Type} {tag : HtmlTag} {name : List Char} {x : List Char → Option α}
    (hx : ∀ body, ∃ a, x body = some a) (f : α → Block Inline) (hname : tag.bodyName? = some name)
    (hread : tag.read rem = withBody name rem fun body => (x body).map fun a => [.block (f a)])
    (hfine : tag.Fine rem) : tag.Goes rem := by
  have h : Reads (unreadBody (some name) rem) rem _ _ :=
    reads_block (P := fun _ => True) (fun body => iff_of_true (hx body) trivial) f
  unfold HtmlTag.Goes
  rw [hname, hread]
  exact ⟨h.isSome_iff.trans (iff_of_true (fun _ _ _ => trivial) hfine), h.unread, h.goes⟩

theorem detailsPieces_spec (rem full : List Char) :
    ∃ isOpen title body, detailsPieces rem full = some [.details isOpen title body] ∧ body.length ≤ full.length := by
  obtain ⟨summary, hsummary⟩ := extractBetween_isSome full "<summary>".toList summaryClose
  obtain ⟨body, hbody⟩ := (bodyStart_boundary full).sliceFrom
  unfold detailsPieces
  simp only [hsummary, hbody, Option.bind_eq_bind, Option.bind_some]
  exact ⟨_, _, _, rfl, Nat.le_trans (trim_length body) (sliceFrom_length hbody)⟩

theorem goes_details : HtmlTag.details.Goes rem := by
  have h : Reads (unreadBody (some "details".toList) rem) rem (withBody "details".toList rem (detailsPieces rem)) _ :=
    reads_withBody (P := fun _ => True) ?_ ?_
  · exact ⟨h.isSome_iff.trans (iff_of_true (fun _ _ _ => trivial) trivial), h.unread, h.goes⟩
  · intro full
    obtain ⟨isOpen, title, body, hpieces, -⟩ := detailsPieces_spec rem full
    exact iff_of_true ⟨_, hpieces⟩ trivial
  · intro full pieces h p hp b hb
    obtain ⟨isOpen, title, body, hpieces, hle⟩ := detailsPieces_spec rem full
    obtain rfl := Option.some.inj (hpieces.symm.trans h)
    rw [List.mem_singleton.mp hp] at hb
    obtain rfl := Option.some.inj hb
    exact hle

/-- The blocks that are made of their attributes. -/
theorem goes_selfClosing {tag : HtmlTag} (hlt : rem.head? = some '<')
    {f : List (List Char × List Char) → List Piece} (hf : ∀ attrs, ∀ p ∈ f attrs, p.body? = none)
    (hname : tag.bodyName? = none) (hfine : tag.Fine rem ↔ TagRead (selfClosingTag rem))
    (hread : tag.read rem = (consumeSelfClosingTag rem).bind fun r =>
      (Sliced.parseTag r.1).bind fun t => some (some (f t.2), r.2)) : tag.Goes rem := by
  have hne : rem ≠ [] := by
    rintro rfl
    cases hlt
  have hraw : ∀ r, consumeSelfClosingTag rem = some r → r.1 = selfClosingTag rem ∧
      ∃ rest, advance rem r.2 = some rest ∧ rest.length < rem.length := by
    intro r hr
    rw [consumeSelfClosingTag_eq hlt] at hr
    cases hr
    exact ⟨rfl, advance_openEnd hne⟩
  have h := reads_attrs (iff_of_true ⟨_, consumeSelfClosingTag_eq hlt⟩ trivial) hraw hf
  rw [true_and] at h
  unfold HtmlTag.Goes
  rw [hname, hread]
  exact ⟨h.isSome_iff.trans hfine.symm, h.unread, h.goes⟩

theorem goes_pair {tag : HtmlTag} (hlt : rem.head? = some '<') (name : List Char)
    {f : List (List Char × List Char) → List Piece} (hf : ∀ attrs, ∀ p ∈ f attrs, p.body? = none)
    (hname : tag.bodyName? = none)
    (hfine : tag.Fine rem ↔ ('>' ∈ rem ∨ rem.getLast? = some '/') ∧ TagRead (selfClosingTag rem))
    (hread : tag.read rem = (consumeSelfClosingOrPair name rem).bind fun r =>
      (Sliced.parseTag r.1).bind fun t => some (some (f t.2), r.2)) : tag.Goes rem := by
  obtain ⟨hsome, hrest⟩ := consumeSelfClosingOrPair_spec hlt name
  have h := reads_attrs hsome hrest hf
  unfold HtmlTag.Goes
  rw [hname, hread]
  exact ⟨h.isSome_iff.trans hfine.symm, h.unread, h.goes⟩

theorem goes_figure : HtmlTag.figure.Goes rem :=
  reads_withBody (k := fun body => figureBlocks .html (decide ("<tg-map".toList <:+: toAsciiLowercase body)) body)
    (fun body => figureBlocks_isSome_iff Inline.html _ body) fun _ _ h p hp b hb => by
      rw [figureBlocks_body h p hp] at hb
      cases hb

theorem goes_ol : HtmlTag.ol.Goes rem :=
  reads_tag fun attrs => reads_block
    (fun body => parseHtmlOrderedListItems_isSome_iff body (attr "type".toList attrs)) fun items =>
      .orderedList (hasAttr "reversed".toList attrs) items ((attr "start".toList attrs).bind parseI32)
        (attr "type".toList attrs)

theorem goes_table : HtmlTag.table.Goes rem :=
  reads_tag fun attrs => reads_block parseHtmlTable_isSome_iff fun r =>
    .table (hasAttr "bordered".toList attrs) (hasAttr "striped".toList attrs) (hasAttr "compact".toList attrs) r.1 r.2

theorem HtmlTag.goes (hlt : rem.head? = some '<') (tag : HtmlTag) : tag.Goes rem := by
  have hne : rem ≠ [] := by
    rintro rfl
    cases hlt
  cases tag with
  | heading level =>
    exact goes_block (x := some) (fun body => ⟨body, rfl⟩) (fun body => headingBlock level (.html body)) rfl rfl trivial
  | paragraph =>
    exact goes_block (x := some) (fun body => ⟨body, rfl⟩) (fun body => .paragraph (.html body)) rfl rfl trivial
  | footer => exact goes_block (x := some) (fun body => ⟨body, rfl⟩) (fun body => .footer (.html body)) rfl rfl trivial
  | mathBlock => exact goes_block (x := some) (fun body => ⟨body, rfl⟩) (fun body => .math body) rfl rfl trivial
  | pre =>
    exact goes_block extractPreContentFromBody_isSome (fun r => .preformatted (rtPlain r.2) r.1) rfl rfl trivial
  | blockquote => exact goes_block splitCite_isSome (fun r => .blockquote (.html r.1) (.html r.2)) rfl rfl trivial
  | aside => exact goes_block splitCite_isSome (fun r => .pullquote (.html r.1) (.html r.2)) rfl rfl trivial
  | collage =>
    exact goes_block extractCollageItems_isSome (fun r => .collage r.1 (r.2.getD emptyCaption)) rfl rfl trivial
  | slideshow =>
    exact goes_block extractCollageItems_isSome (fun r => .slideshow r.1 (r.2.getD emptyCaption)) rfl rfl trivial
  | details => exact goes_details
  | ul => exact reads_block parseHtmlListItems_isSome_iff fun items => .list items
  | ol => exact goes_ol
  | table => exact goes_table
  | figure => exact goes_figure
  | img =>
    exact goes_selfClosing hlt (f := fun attrs => mediaPieces attrs (hasAttr "tg-spoiler".toList attrs))
      (fun attrs => mediaPieces_body attrs _) rfl Iff.rfl rfl
  | map =>
    refine goes_selfClosing hlt (f := fun attrs => [.block (mapBlock attrs emptyCaption)]) (fun attrs p hp => ?_) rfl
      Iff.rfl rfl
    rw [List.mem_singleton.mp hp]
    rfl
  | video =>
    exact goes_pair hlt "video".toList (f := fun attrs => mediaPieces attrs (hasAttr "tg-spoiler".toList attrs))
      (fun attrs => mediaPieces_body attrs _) rfl Iff.rfl rfl
  | audio =>
    exact goes_pair hlt "audio".toList (f := fun attrs => mediaPieces attrs false)
      (fun attrs => mediaPieces_body attrs _) rfl Iff.rfl rfl
  | anchor =>
    refine goes_pair hlt "a".toList (f := fun attrs => if (attr "name".toList attrs).getD [] = [] then [] else
      [.block (.anchor ((attr "name".toList attrs).getD []))]) (fun attrs p hp => ?_) rfl Iff.rfl rfl
    split at hp
    · exact absurd hp List.not_mem_nil
    · rw [List.mem_singleton.mp hp]
      rfl
  | hr =>
    refine reads_pieces (advance_openEnd hne) fun p hp => ?_
    rw [List.mem_singleton.mp hp]
    rfl
  | comment =>
    refine reads_pieces ?_ fun p hp => absurd hp List.not_mem_nil
    obtain ⟨rest, hrest, hless⟩ := advance_openEnd hne
    refine ⟨rest, Eq.trans ?_ hrest, hless⟩
    rcases Nat.le_total (openEnd rem + 1) (byteLen rem) with hle | hle
    · rw [Nat.min_eq_left hle]
    · rw [Nat.min_eq_right hle, advance, advance, if_pos (Nat.le_refl _), if_pos hle]

end

/-! Paragraphs. -/

section
variable {rem : List Char}

theorem textTurn_isSome_iff (rem : List Char) : (∃ r, textTurn rem = some r) ↔ StepFine rem := by
  cases rem with
  | nil => exact iff_of_true ⟨none, rfl⟩ fun _ _ h => nomatch h
  | cons c rest =>
    have hfine : StepFine (c :: rest) ↔
        if c = '<' then isBlockHtmlTag (c :: rest) = true ∨ '>' ∈ rest else c.utf8Size = 1 := by
      constructor
      · exact fun h => h c rest rfl
      · intro h d rest' heq
        obtain ⟨rfl, rfl⟩ := List.cons.inj heq
        exact h
    rw [hfine]
    unfold textTurn
    rw [if_neg (List.cons_ne_nil _ _), List.head?_cons]
    by_cases hc : c = '<'
    · rw [if_pos (congrArg some hc), if_pos hc]
      cases hblock : isBlockHtmlTag (c :: rest) with
      | true => exact iff_of_true ⟨none, rfl⟩ (Or.inl rfl)
      | false =>
        simp only [Bool.false_eq_true, if_false, false_or]
        rw [exists_map_iff]
        by_cases hgt : '>' ∈ rest
        · obtain ⟨a, behind, -, -, hbehind, -⟩ := sliceFrom_openEnd (List.mem_cons_of_mem c hgt)
          exact iff_of_true ⟨behind, hbehind⟩ hgt
        · have hnot : '>' ∉ c :: rest := by
            rw [hc, List.mem_cons, not_or]
            exact ⟨by decide, hgt⟩
          rw [openEnd_of_not_mem hnot, sliceFrom_of_lt (Nat.lt_succ_self _)]
          exact iff_of_false (fun ⟨_, h⟩ => nomatch h) hgt
    · rw [if_neg (fun h => hc (Option.some.inj h)), if_neg hc, exists_map_iff, sliceFrom_one]
      split
      · next h => exact iff_of_true ⟨rest, rfl⟩ h
      · next h => exact iff_of_false (fun ⟨_, h⟩ => nomatch h) h

/-- A turn goes on by its bytes, and by one at least. -/
theorem textTurn_slice {n : Nat} {rest : List Char} (h : textTurn rem = some (some (n, rest))) :
    sliceFrom rem n = some rest ∧ 0 < n := by
  unfold textTurn at h
  split at h
  · cases h
  · split at h
    · split at h
      · cases h
      · obtain ⟨rest', hrest, heq⟩ := Option.map_eq_some_iff.mp h
        cases heq
        exact ⟨hrest, Nat.succ_pos _⟩
    · obtain ⟨rest', hrest, heq⟩ := Option.map_eq_some_iff.mp h
      cases heq
      exact ⟨hrest, Nat.one_pos⟩

theorem sliceFrom_shorter {n : Nat} {rest : List Char} (h : sliceFrom rem n = some rest) (hn : 0 < n) :
    rest.length < rem.length := by
  obtain ⟨a, rfl, rfl⟩ := sliceFrom_eq_some_iff.mp h
  have ha : a ≠ [] := by
    rintro rfl
    exact absurd hn (Nat.lt_irrefl 0)
  have := List.length_pos_iff.mpr ha
  rw [List.length_append]
  omega

/-- Where a paragraph ends at once. -/
theorem textTurn_done (h : textTurn rem = some none) : rem = [] ∨ isBlockHtmlTag rem = true := by
  unfold textTurn at h
  split at h
  · next hnil => exact Or.inl hnil
  · split at h
    · split at h
      · next hblock => exact Or.inr hblock
      · obtain ⟨_, -, heq⟩ := Option.map_eq_some_iff.mp h
        cases heq
    · obtain ⟨_, -, heq⟩ := Option.map_eq_some_iff.mp h
      cases heq

theorem textTurn_of_block (h : isBlockHtmlTag rem = true) : textTurn rem = some none := by
  have hlt := head_of_block h
  have hne : rem ≠ [] := by
    rintro rfl
    cases hlt
  rw [textTurn, if_neg hne, if_pos hlt, if_pos h]

/-- The bytes of the turns are a beginning of the text, and if there are none the first turn is the last. -/
theorem textLoop_sum {fuel : Nat} {l : List Nat} (h : loop textTurn fuel rem = some l) :
    Boundary rem l.sum ∧ (l.sum = 0 → textTurn rem = some none) := by
  refine loop_rule (P := fun s l => Boundary s l.sum ∧ (l.sum = 0 → textTurn s = some none))
    (fun s hs => ⟨Boundary.zero s, fun _ => hs⟩) (fun s n t l hs hl => ?_) h
  obtain ⟨hslice, hpos⟩ := textTurn_slice hs
  rw [List.sum_cons]
  exact ⟨Boundary.add hslice hl.1, fun hzero => absurd hzero (by omega)⟩

theorem textLoop_isSome_iff (rem : List Char) :
    (∃ l, loop textTurn (rem.length + 1) rem = some l) ↔ TextFine rem := by
  have hless : ∀ s n t, textTurn s = some (some (n, t)) → t.length < s.length := fun s n t h =>
    sliceFrom_shorter (textTurn_slice h).1 (textTurn_slice h).2
  rw [loop_isSome_iff hless (Nat.lt_succ_self _)]
  exact forall₂_congr fun t _ => textTurn_isSome_iff t

theorem parseTextParagraph_isSome_iff (rem : List Char) :
    (∃ r, parseTextParagraph rem = some r) ↔ TextFine rem := by
  rw [← textLoop_isSome_iff]
  unfold parseTextParagraph
  cases hl : loop textTurn (rem.length + 1) rem with
  | none => simp
  | some l =>
    refine iff_of_true ?_ ⟨l, rfl⟩
    simp only [Option.bind_eq_bind, Option.bind_some]
    split
    · exact ⟨_, rfl⟩
    · obtain ⟨text, htext⟩ := (textLoop_sum hl).1.sliceTo
      simp only [htext, Option.bind_some]
      exact ⟨_, rfl⟩

/-- The paragraph has no body, and it goes on unless it ends at once. -/
theorem parseTextParagraph_goes {paragraph : Option Piece} {m : Nat}
    (h : parseTextParagraph rem = some (paragraph, m)) :
    (∀ p ∈ paragraph.toList, p.body? = none) ∧ ∃ rest, advance rem m = some rest ∧
      (rest.length < rem.length ∨ rest = rem ∧ (rem = [] ∨ isBlockHtmlTag rem = true)) := by
  unfold parseTextParagraph at h
  obtain ⟨l, hl, h⟩ := Option.bind_eq_some_iff.mp h
  obtain ⟨hbound, hdone⟩ := textLoop_sum hl
  simp only at h
  split at h
  · next hzero =>
    cases h
    exact ⟨fun p hp => absurd hp List.not_mem_nil, rem, advance_of_slice (sliceFrom_zero rem),
      Or.inr ⟨rfl, textTurn_done (hdone hzero)⟩⟩
  · next hpos =>
    obtain ⟨text, -, h⟩ := Option.bind_eq_some_iff.mp h
    cases h
    obtain ⟨rest, hrest⟩ := hbound.sliceFrom
    refine ⟨fun p hp => ?_, rest, advance_of_slice hrest, Or.inl (sliceFrom_shorter hrest (Nat.pos_of_ne_zero hpos))⟩
    split at hp
    · exact absurd hp List.not_mem_nil
    · rw [List.mem_singleton.mp hp]
      rfl

/-- At a block there is no paragraph. -/
theorem parseTextParagraph_of_block (h : isBlockHtmlTag rem = true) : parseTextParagraph rem = some (none, 0) := by
  have hloop : loop textTurn (rem.length + 1) rem = some [] := by
    unfold loop
    rw [textTurn_of_block h]
    rfl
  unfold parseTextParagraph
  rw [hloop]
  rfl

end

/-! The whole parser. -/

section
variable {rem html : List Char}

/-- Every tag in front is fine. -/
def TagsFine (rem : List Char) : Prop := ∀ tag, blockTag? rem = some tag → tag.Fine rem

theorem tryParseBlockTag_reads (rem : List Char) :
    Reads (paragraphText rem) rem (tryParseBlockTag rem) (TagsFine rem) := by
  unfold paragraphText tryParseBlockTag TagsFine
  cases htag : blockTag? rem with
  | none =>
    exact ⟨iff_of_true ⟨_, rfl⟩ fun _ h => (nomatch h), fun n h => by cases h; exact ⟨rem, rfl, sliceFrom_zero rem⟩,
      fun _ _ h => nomatch h⟩
  | some tag =>
    have hlt : rem.head? = some '<' := by
      unfold blockTag? at htag
      split at htag
      · next hlt => exact hlt
      · cases htag
    obtain ⟨hiff, hunread, hgoes⟩ := tag.goes hlt
    exact ⟨hiff.trans ⟨fun h tag' heq => Option.some.inj heq ▸ h, fun h => h tag rfl⟩, hunread, hgoes⟩

/-- Nothing is read of a text that is left as it was. -/
theorem unreadBody_self {name? : Option (List Char)} (h : unreadBody name? rem = some rem) :
    name?.isSome ∧ '>' ∉ rem := by
  obtain ⟨name, rfl, hunread⟩ := Option.bind_eq_some_iff.mp h
  refine ⟨rfl, ?_⟩
  cases hsplit : splitAtChar '>' rem with
  | none => exact splitAtChar_eq_none hsplit
  | some r =>
    obtain ⟨a, behind⟩ := r
    rw [hsplit] at hunread
    simp only at hunread
    split at hunread
    · cases hunread
    · have hless := splitAtChar_length hsplit
      rw [Option.some.inj hunread] at hless
      exact absurd hless (Nat.lt_irrefl _)

/-- A block at which nothing is read is where the loop stays. -/
theorem stuckTag_iff : StuckTag rem ↔ isBlockHtmlTag rem = true ∧ paragraphText rem = some rem := by
  unfold paragraphText blockTag?
  constructor
  · rintro ⟨hblock, hunread⟩
    refine ⟨hblock, ?_⟩
    rw [if_pos (head_of_block hblock)]
    cases htag : htmlTag? rem with
    | none => rfl
    | some tag =>
      obtain ⟨hname, hgt⟩ := hunread tag htag
      obtain ⟨name, hname⟩ := Option.isSome_iff_exists.mp hname
      show unreadBody tag.bodyName? rem = some rem
      rw [hname, unreadBody, Option.bind_some]
      cases hsplit : splitAtChar '>' rem with
      | none => rfl
      | some r =>
        rw [(splitAtChar_eq_some hsplit).1] at hgt
        simp at hgt
  · rintro ⟨hblock, htext⟩
    rw [if_pos (head_of_block hblock)] at htext
    refine ⟨hblock, fun tag htag => ?_⟩
    rw [htag] at htext
    exact unreadBody_self htext

theorem skipWhitespace_suffix (html : List Char) : skipWhitespace html <:+ html := List.dropWhile_suffix _

theorem skipWhitespace_of_block (h : isBlockHtmlTag html = true) : skipWhitespace html = html := by
  obtain ⟨rest, rfl⟩ := List.head?_eq_some_iff.mp (head_of_block h)
  rfl

theorem textFine_nil : TextFine [] := by
  intro t ht
  rcases reached_iff.mp ht with rfl | ⟨l, hl, u, hmem, -⟩
  · exact fun _ _ h => nomatch h
  · obtain rfl := Option.some.inj hl
    exact absurd hmem List.not_mem_nil

/-- From a text that is fine the loop goes on with less. -/
theorem htmlTurn_good (hfine : HtmlFine html) : ∃ r, htmlTurn html = some r ∧ ∀ pieces rest,
    r = some (pieces, rest) → rest.length < html.length ∧
      ∀ p ∈ pieces, ∀ body, p.body? = some body → body.length < html.length := by
  have hskip := (skipWhitespace_suffix html).length_le
  obtain ⟨hiff, hunread, hgoes⟩ := tryParseBlockTag_reads (skipWhitespace html)
  obtain ⟨⟨pieces?, n⟩, hread⟩ := hiff.mpr hfine.tag
  unfold htmlTurn
  simp only
  split
  · exact ⟨none, rfl, fun _ _ h => nomatch h⟩
  next hne =>
  rw [hread]
  simp only [Option.bind_eq_bind, Option.bind_some]
  cases pieces? with
  | some pieces =>
    obtain ⟨-, ⟨rest, hrest, hless⟩, hbody⟩ := hgoes pieces n hread
    simp only [hrest, Option.map_some]
    refine ⟨_, rfl, fun pieces' rest' heq => ?_⟩
    cases heq
    exact ⟨Nat.lt_of_lt_of_le hless hskip, fun p hp body hb => Nat.lt_of_lt_of_le (hbody p hp body hb) hskip⟩
  | none =>
    obtain ⟨text, htext, hslice⟩ := hunread n hread
    obtain ⟨⟨paragraph, m⟩, hpar⟩ := (parseTextParagraph_isSome_iff text).mpr (hfine.text text htext)
    obtain ⟨hbody, rest, hrest, hless⟩ := parseTextParagraph_goes hpar
    simp only [hslice, hpar, hrest, Option.bind_some, Option.map_some]
    refine ⟨_, rfl, fun pieces' rest' heq => ?_⟩
    cases heq
    refine ⟨?_, fun p hp body hb => ?_⟩
    · have htextle := sliceFrom_length hslice
      rcases hless with hless | ⟨rfl, rfl | hblock⟩
      · omega
      · have := List.length_pos_iff.mpr hne
        rw [List.length_nil]
        omega
      · -- the paragraph ended at once, at a block: something was passed over in front of it
        apply Nat.lt_of_le_of_ne (Nat.le_trans htextle hskip)
        intro hsame
        have hrem : skipWhitespace html = html := (skipWhitespace_suffix html).eq_of_length (by omega)
        obtain ⟨a, ha, -⟩ := sliceFrom_eq_some_iff.mp hslice
        have htexthtml : rest = html := by
          have hsuf : rest <:+ html := ⟨a, by rw [← ha, hrem]⟩
          exact hsuf.eq_of_length hsame
        rw [hrem, htexthtml] at htext
        rw [htexthtml] at hblock
        exact hfine.moves (stuckTag_iff.mpr ⟨hblock, htext⟩)
    · rw [hbody p hp] at hb
      cases hb

/-- From any other text it fails, or it stays. -/
theorem htmlTurn_bad (hbad : ¬ HtmlFine html) {r : Option (List Piece × List Char)} (h : htmlTurn html = some r) :
    ∃ pieces, r = some (pieces, html) := by
  obtain ⟨hiff, hunread, hgoes⟩ := tryParseBlockTag_reads (skipWhitespace html)
  unfold htmlTurn at h
  simp only at h
  split at h
  · next hnil =>
    -- at the end everything is fine
    refine absurd ⟨fun hstuck => ?_, fun tag htag => ?_, fun text htext => ?_⟩ hbad
    · rw [skipWhitespace_of_block hstuck.block] at hnil
      have := head_of_block hstuck.block
      rw [hnil] at this
      cases this
    · rw [hnil] at htag
      cases htag
    · rw [hnil] at htext
      obtain rfl := Option.some.inj htext
      exact textFine_nil
  · obtain ⟨⟨pieces?, n⟩, hread, h⟩ := Option.bind_eq_some_iff.mp h
    have htags := hiff.mp ⟨_, hread⟩
    have hstuck : StuckTag html := by
      by_contra hmoves
      obtain ⟨text, htext, hnot⟩ : ∃ text, paragraphText (skipWhitespace html) = some text ∧ ¬ TextFine text := by
        by_contra hall
        push Not at hall
        exact hbad ⟨hmoves, htags, hall⟩
      cases pieces? with
      | some pieces =>
        rw [(hgoes pieces n hread).1] at htext
        cases htext
      | none =>
        obtain ⟨text', htext', hslice⟩ := hunread n hread
        obtain rfl := Option.some.inj (htext.symm.trans htext')
        simp only [hslice, Option.bind_eq_bind, Option.bind_some] at h
        obtain ⟨par, hpar, -⟩ := Option.bind_eq_some_iff.mp h
        exact hnot ((parseTextParagraph_isSome_iff text).mp ⟨par, hpar⟩)
    obtain ⟨hblock, htext⟩ := stuckTag_iff.mp hstuck
    rw [skipWhitespace_of_block hblock] at h hread hgoes hunread
    cases pieces? with
    | some pieces =>
      rw [(hgoes pieces n hread).1] at htext
      cases htext
    | none =>
      obtain ⟨text', htext', hslice⟩ := hunread n hread
      obtain rfl := Option.some.inj (htext.symm.trans htext')
      simp only [hslice, parseTextParagraph_of_block hblock, advance_of_slice (sliceFrom_zero html),
        Option.bind_eq_bind, Option.bind_some, Option.map_some] at h
      exact ⟨_, (Option.some.inj h).symm⟩

end

/-- The HTML parser is total on a text exactly if, in its run, the loop meets fine texts only and every inline tag is
    fine. -/
theorem parseRichHtml_total_iff (text : List Char) : Total id htmlTurn List.length text ↔
    ∀ s, Reached (blockNext id htmlTurn) (.inl text) s → Sum.elim HtmlFine InlineState.Fine s :=
  total_iff (fun _ => htmlTurn_good) (fun _ hbad _ => htmlTurn_bad hbad) text

/-- A character of two bytes outside of tags: the position is set inside of it. A tag whose name goes on: the loop
    stays at it. A list item that is left open: the slice behind it fails. -/
theorem parseRichHtml_not_total :
    (htmlTurn ['é'] = none ∧ ¬ Total id htmlTurn List.length ['é']) ∧
    (htmlTurn "<h1x>".toList = some (some ([], "<h1x>".toList)) ∧ (∀ fuel, parseRichHtml fuel "<h1x>".toList = none) ∧
      ¬ Total id htmlTurn List.length "<h1x>".toList) ∧
    htmlTurn "<ul><li>a</ul>".toList = none ∧ ¬ Total id htmlTurn List.length "<ul><li>a</ul>".toList := by
  have hbyte : htmlTurn ['é'] = none := rfl
  have hstay : htmlTurn "<h1x>".toList = some (some ([], "<h1x>".toList)) := rfl
  have hitem : htmlTurn "<ul><li>a</ul>".toList = none := rfl
  exact ⟨⟨hbyte, not_total_of_fail hbyte⟩, ⟨hstay, parseBlocks_of_stay hstay, not_total_of_stay hstay⟩,
    hitem, not_total_of_fail hitem⟩

end Ferogram.Parsers.Rich
