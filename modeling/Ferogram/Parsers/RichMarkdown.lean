import Ferogram.Parsers.RichBlocks

/- `parse_rich_markdown`. A turn of its loop looks at the first line that is
   left, and reads a block from there; `mdLineTurn` is the loop body, and
   `MdTag.read` the part of it for HTML blocks.

   Two tests are made of a line, and where the first accepts it and the second
   does not, the loop stays where it is: a heading of seven `#` or more, a list
   number that is no `i32`, and a rule that is written in another way
   (`StuckLine`). A slice fails in a `details` block that ends in front of its
   body, in a list or table with an item left open, and where a tag is not read
   (`MdTag.Fine`). `parseRichMarkdown_total_iff` says that nothing else goes
   wrong. -/
namespace Ferogram.Parsers.Rich
open Str Descent

/-! Lines. -/

/-- `join("\n")`. -/
def joinLines (ls : List (List Char)) : List Char := ['\n'].intercalate ls

/-- The lines in front of the first that `closes`, and those behind it. -/
def upTo (closes : List Char → Bool) : List (List Char) → List (List Char) × List (List Char)
  | [] => ([], [])
  | l :: rest => if closes l then ([], rest) else (l :: (upTo closes rest).1, (upTo closes rest).2)

/-- The same, the line that closes among the first. -/
def upThrough (closes : List Char → Bool) : List (List Char) → List (List Char) × List (List Char)
  | [] => ([], [])
  | l :: rest => if closes l then ([l], rest) else (l :: (upThrough closes rest).1, (upThrough closes rest).2)

/-! Markdown blocks. -/

def fence : List Char := ['`', '`', '`']

def dollars : List Char := ['$', '$']

def parseCodeBlock (line : List Char) (rest : List (List Char)) : List Piece × List (List Char) :=
  match stripPrefix fence (trimStart line) with
  | none => ([], line :: rest)
  | some lang =>
    let r := upTo (fun l => trim l = fence) rest
    let code := joinLines r.1
    if trim lang = "math".toList then ([.block (.math code)], r.2)
    else ([.block (.preformatted (rtPlain code) (trim lang))], r.2)

def parseMathBlockDollar (rest : List (List Char)) : List Piece × List (List Char) :=
  let r := upTo (fun l => trim l = dollars) rest
  ([.block (.math (joinLines r.1))], r.2)

def quoteContent (line : List Char) : List Char :=
  let content := (stripPrefix ['>'] line).getD []
  (stripPrefix [' '] content).getD content

def parseBlockquote (lines : List (List Char)) : List Piece × List (List Char) :=
  let quoted := lines.takeWhile fun l => l.head? = some '>'
  ([.block (.blockquote (.md (joinLines (quoted.map quoteContent))) (.done .empty))],
    lines.dropWhile fun l => l.head? = some '>')

def listUnorderedStart (line : List Char) : Bool :=
  let t := trimStart line
  (['-', ' '].isPrefixOf t || ['*', ' '].isPrefixOf t || ['+', ' '].isPrefixOf t) &&
    !(t ∈ ["---".toList, "***".toList, "___".toList])

def listOrderedStart (line : List Char) : Bool :=
  let t := trimStart line
  t.head?.any Char.isDigit && (t.dropWhile Char.isDigit).head?.any fun c => c == '.' || c == ')'

def parseListItemUnordered (line : List Char) : Option (Option Bool × List Char) := do
  let t := trimStart line
  let rest ← stripPrefix ['-', ' '] t <|> stripPrefix ['*', ' '] t <|> stripPrefix ['+', ' '] t
  match stripPrefix "[ ] ".toList rest with
  | some r => some (some false, r)
  | none =>
    match stripPrefix "[x] ".toList rest <|> stripPrefix "[X] ".toList rest with
    | some r => some (some true, r)
    | none => some (none, rest)

/-- `parse_list_item_ordered`; it has a result where the slices are good. -/
def parseListItemOrdered (line : List Char) : Option (Option (Int32 × List Char)) :=
  let t := trimStart line
  match find (fun c => c == '.' || c == ')') t with
  | none => some none
  | some dot => do
    match parseI32 (← sliceTo t dot) with
    | none => some none
    | some num => do
      let rest ← sliceFrom t (dot + 1)
      some (some (num, trimStart rest))

def parseUnorderedList : List (List Char) → List (ListItem Inline) × List (List Char)
  | [] => ([], [])
  | line :: rest =>
    match parseListItemUnordered line with
    | some (checked, text) =>
      let r := parseUnorderedList rest
      ({ checkbox := checked.isSome, checked := checked.getD false, text := .md text } :: r.1, r.2)
    | none => ([], line :: rest)

def parseOrderedList : List (List Char) → Option (List (OrderedItem Inline) × List (List Char))
  | [] => some ([], [])
  | line :: rest => do
    match ← parseListItemOrdered line with
    | some (num, text) => do
      let r ← parseOrderedList rest
      some ({ text := .md text, value := some num, itemType := none } :: r.1, r.2)
    | none => some ([], line :: rest)

def stripSuffix (sfx s : List Char) : Option (List Char) :=
  if sfx.isSuffixOf s then some (s.take (s.length - sfx.length)) else none

def splitTableRow (line : List Char) : List (List Char) :=
  let t := trim line
  let t := (stripPrefix ['|'] t).getD t
  let t := (stripSuffix ['|'] t).getD t
  t.splitOn '|'

inductive Align where
  | left
  | center
  | right
deriving DecidableEq

def columnAlign (col : List Char) : Align :=
  let c := trim col
  if c.head? = some ':' ∧ c.getLast? = some ':' then .center
  else if c.getLast? = some ':' then .right
  else .left

def startsRow (line : List Char) : Bool := (trimStart line).head? = some '|'

/-- The alignments from the separator, and the lines behind it. -/
def tableAligns : List (List Char) → List Align × List (List Char)
  | [] => ([], [])
  | sep :: rest => if startsRow sep ∧ '-' ∈ sep then ((splitTableRow sep).map columnAlign, rest) else ([], sep :: rest)

def tableRow (header : Bool) (aligns : List Align) (cells : List (List Char)) : List (TableCell Inline) :=
  cells.mapIdx fun i c =>
    { header, alignCenter := aligns[i]? = some .center, alignRight := aligns[i]? = some .right, valignMiddle := false,
      valignBottom := false, text := .md (trim c), colspan := none, rowspan := none }

def parseTable (line : List Char) (rest : List (List Char)) : Option (List Piece × List (List Char)) :=
  let headers := splitTableRow line
  if headers = [] then none
  else
    let (aligns, rest) := tableAligns rest
    let rows := (rest.takeWhile startsRow).map fun row => tableRow false aligns (splitTableRow row)
    some ([.block (.table false false false (.done .empty) (tableRow true aligns headers :: rows))],
      rest.dropWhile startsRow)

/-- `try_parse_media_line`. -/
def tryParseMediaLine (line : List Char) : Option (Option (Block Inline)) :=
  match (stripPrefix "![](".toList line).bind (stripSuffix [')']) with
  | none => some none
  | some inner => do
    let url ← stripUrlTitle inner
    let title ← extractTitleFromUrlPart inner
    let caption := if title = [] then emptyCaption else captionText (.md title)
    some (some (mediaBlock url caption false))

/-- The lines at which a paragraph ends. -/
def endsParagraph (line : List Char) : Bool :=
  trim line = [] || line.head? = some '#' || line.head? = some '>' || listUnorderedStart line || listOrderedStart line ||
    startsRow line || trim line ∈ ["---".toList, "***".toList, "___".toList] || fence.isPrefixOf (trimStart line) ||
    ((trimStart line).head? = some '<' && isBlockHtmlTag (trim line))

def parseParagraph (lines : List (List Char)) : List Piece × List (List Char) :=
  ([.block (.paragraph (.md (joinLines (lines.takeWhile (!endsParagraph ·)))))], lines.dropWhile (!endsParagraph ·))

/-! HTML blocks in markdown. -/

inductive MdTag where
  | details
  | collage
  | slideshow
  | aside
  | mathBlock
  | footer
  | map
  | figure
  | anchor
  | blockquote
  | heading (level : Nat)
  | paragraph
  | pre
  | hr
  | ul
  | ol
  | table
deriving DecidableEq

def hrTags : List (List Char) := ["<hr/>".toList, "<hr>".toList, "<hr />".toList]

/-- The tag that `try_parse_html_block` goes by. -/
def mdTag? (trimmed : List Char) : Option MdTag :=
  let lower := toAsciiLowercase trimmed
  if "<details".toList.isPrefixOf lower then some .details
  else if "<tg-collage".toList.isPrefixOf lower then some .collage
  else if "<tg-slideshow".toList.isPrefixOf lower then some .slideshow
  else if "<aside".toList.isPrefixOf lower then some .aside
  else if "<tg-math-block".toList.isPrefixOf lower then some .mathBlock
  else if "<footer".toList.isPrefixOf lower then some .footer
  else if "<tg-map".toList.isPrefixOf lower then some .map
  else if "<figure".toList.isPrefixOf lower then some .figure
  else if "<a ".toList.isPrefixOf lower ∧ "name=".toList <:+: trimmed then some .anchor
  else if "<blockquote".toList.isPrefixOf lower then some .blockquote
  else
    match [1, 2, 3, 4, 5, 6].find? fun level => ('<' :: headingName level).isPrefixOf lower with
    | some level => some (.heading level)
    | none =>
      if "<p>".toList.isPrefixOf lower ∨ "<p ".toList.isPrefixOf lower then some .paragraph
      else if "<pre".toList.isPrefixOf lower then some .pre
      else if trimmed ∈ hrTags then some .hr
      else if "<ul".toList.isPrefixOf lower then some .ul
      else if "<ol".toList.isPrefixOf lower then some .ol
      else if "<table".toList.isPrefixOf lower then some .table
      else none

/-- The text between the brackets of the tag. -/
def insideTag (trimmed : List Char) : List Char := trim ((trimmed.dropWhile (· = '<')).takeWhile (· ≠ '>'))

def insideMapTag (trimmed : List Char) : List Char :=
  trim (trimEndMatches (· == '/') (trimEndMatches (· == '>') (trimmed.dropWhile (· = '<'))))

def detailsClose : List Char := "</details>".toList

/-- The lines of a `details` block, in one text. -/
def detailsText (line : List Char) (rest : List (List Char)) : List Char × List (List Char) :=
  let r := upTo (fun l => toAsciiLowercase (trim l) = detailsClose) rest
  (joinLines (line :: r.1), r.2)

def bodyEnd (full : List Char) : Nat := (rfindStr detailsClose full).getD (byteLen full)

def parseDetailsBlock (line : List Char) (rest : List (List Char)) : Option (List Piece × List (List Char)) := do
  let (_, attrs) ← Sliced.parseTag (insideTag (trim line))
  let lower := toAsciiLowercase line
  let isOpen := attrs.any (·.1 = "open".toList) || decide (" open".toList <:+: lower) ||
    decide (" open>".toList <:+: lower)
  let (full, rest) := detailsText line rest
  let summary := (← extractBetween full "<summary>".toList summaryClose).getD []
  let body ← slice full (bodyStart full) (bodyEnd full)
  some ([.details isOpen (.md summary) (trim body)], rest)

def parseCollageBlock (tag line : List Char) (rest : List (List Char)) :
    Option (List Media × Caption Inline × List (List Char)) := do
  let r := upThrough (fun l => (closeTag tag).isPrefixOf (toAsciiLowercase (trim l))) rest
  let (items, caption) ← extractCollageItems (joinLines (line :: r.1))
  some (items, caption.getD emptyCaption, r.2)

def figureClose : List Char := "</figure>".toList

/-- The lines of a figure, in one text. -/
def figureText (line : List Char) (rest : List (List Char)) : List Char × List (List Char) :=
  if figureClose <:+: line then (line, rest)
  else
    let r := upThrough (fun l => figureClose <:+: toAsciiLowercase (trim l)) rest
    (joinLines (line :: r.1), r.2)

/-- `extract_multiline_tag`. -/
def extractMultilineTag (tag : List Char) (rest : List (List Char)) : List Char × List (List Char) :=
  let r := upThrough (fun l => closeTag tag <:+: toAsciiLowercase (trim l)) rest
  (joinLines r.1, r.2)

/-- What is read from the line of a tag on. -/
def MdTag.read (line : List Char) (rest : List (List Char)) : MdTag → Option (List Piece × List (List Char))
  | .details => parseDetailsBlock line rest
  | .collage => do
    let (items, caption, rest) ← parseCollageBlock "tg-collage".toList line rest
    some ([.block (.collage items caption)], rest)
  | .slideshow => do
    let (items, caption, rest) ← parseCollageBlock "tg-slideshow".toList line rest
    some ([.block (.slideshow items caption)], rest)
  | .aside => do
    let (text, credit) ← splitCite (← extractTagBody (trim line) "aside".toList)
    some ([.block (.pullquote (.md text) (.md credit))], rest)
  | .mathBlock => do
    let src ← extractTagBody (trim line) "tg-math-block".toList
    some ([.block (.math src)], rest)
  | .footer => do
    let content ← extractTagBody (trim line) "footer".toList
    some ([.block (.footer (.md content))], rest)
  | .map => do
    let (_, attrs) ← Sliced.parseTag (insideMapTag (trim line))
    some ([.block (mapBlock attrs emptyCaption)], rest)
  | .figure => do
    let (content, rest) := figureText line rest
    let pieces ← figureBlocks .md (decide ("<tg-map".toList <:+: content)) content
    some (pieces, rest)
  | .anchor => do
    let (_, attrs) ← Sliced.parseTag (insideTag (trim line))
    some ([.block (.anchor ((attr "name".toList attrs).getD []))], rest)
  | .blockquote => do
    let (text, credit) ← splitCite (← extractTagBody (trim line) "blockquote".toList)
    some ([.block (.blockquote (.md text) (.md credit))], rest)
  | .heading level => do
    let content ← extractTagBody (trim line) (headingName level)
    some ([.block (headingBlock level (.md content))], rest)
  | .paragraph => do
    let content ← extractTagBody (trim line) "p".toList
    some ([.block (.paragraph (.md content))], rest)
  | .pre => do
    let (lang, code) ← extractPreContent (trim line)
    some ([.block (.preformatted (rtPlain code) lang)], rest)
  | .hr => some ([.block .divider], rest)
  | .ul => do
    let (content, rest) := extractMultilineTag "ul".toList rest
    let items ← parseHtmlListItems content
    some ([.block (.list items)], rest)
  | .ol => do
    let (_, attrs) ← Sliced.parseTag (insideTag (trim line))
    let listType := attr "type".toList attrs
    let (content, rest) := extractMultilineTag "ol".toList rest
    let items ← parseHtmlOrderedListItems content listType
    some ([.block (.orderedList (hasAttr "reversed".toList attrs) items
      ((attr "start".toList attrs).bind parseI32) listType)], rest)
  | .table => do
    let (_, attrs) ← Sliced.parseTag (insideTag (trim line))
    let (content, rest) := extractMultilineTag "table".toList rest
    let (title, rows) ← parseHtmlTable content
    some ([.block (.table (hasAttr "bordered".toList attrs) (hasAttr "striped".toList attrs)
      (hasAttr "compact".toList attrs) title rows)], rest)

/-! The loop. -/

def dividers : List (List Char) :=
  ["---".toList, "***".toList, "___".toList, "- - -".toList, "* * *".toList, "_ _ _".toList]

/-- How many `#` the line starts with. -/
def headingLevel (line : List Char) : Nat := (line.takeWhile (· = '#')).length

/-- The tag of the HTML block that begins in the line. -/
def lineTag? (line : List Char) : Option MdTag :=
  if (trim line).head? = some '<' then mdTag? (trim line) else none

/-- From an HTML block on: the second half of the loop body. -/
def mdBlockTurn (line : List Char) (rest : List (List Char)) : Option (List Piece × List (List Char)) := do
  let trimmed := trim line
  match lineTag? line with
  | some tag => tag.read line rest
  | none =>
    if listUnorderedStart line then
      let r := parseUnorderedList (line :: rest)
      some ([.block (.list r.1)], r.2)
    else if listOrderedStart line then do
      let r ← parseOrderedList (line :: rest)
      some ([.block (.orderedList false r.1 (r.1.head?.bind (·.value)) none)], r.2)
    else
      match (if startsRow line then parseTable line rest else none) with
      | some r => some r
      | none => do
        let media : Option (Option (Block Inline)) :=
          if "![](".toList.isPrefixOf trimmed then tryParseMediaLine trimmed else some none
        match ← media with
        | some b => some ([.block b], rest)
        | none => some (parseParagraph (line :: rest))

/-- The loop body of `parse_rich_markdown` at a line. -/
def mdLineTurn (line : List Char) (rest : List (List Char)) : Option (List Piece × List (List Char)) :=
  let trimmed := trim line
  if ['[', '^'].isPrefixOf line ∧ "]:".toList <:+: line then some ([], rest)
  else if trimmed = [] then some ([], rest)
  else if fence.isPrefixOf (trimStart line) then some (parseCodeBlock line rest)
  else if trimmed = dollars ∨ (dollars.isPrefixOf line ∧ ¬ dollars.isSuffixOf (trimEndMatches isWhitespace line) ∧
      trimStart line = line) then
    some (parseMathBlockDollar rest)
  else if dollars.isPrefixOf trimmed ∧ dollars.isSuffixOf trimmed ∧ 4 < byteLen trimmed then
    (slice trimmed 2 (byteLen trimmed - 2)).map fun src => ([.block (.math (trim src))], rest)
  else if trimmed ∈ dividers then some ([.block .divider], rest)
  else if line.head? = some '#' ∧ headingLevel line ≤ 6 then
    (sliceFrom line (headingLevel line)).map fun text =>
      ([.block (headingBlock (headingLevel line) (.md (trim (trimEndMatches (· == '#') (trimStart text)))))], rest)
  else if line.head? = some '>' then some (parseBlockquote (line :: rest))
  else mdBlockTurn line rest

def mdTurn : List (List Char) → Option (Option (List Piece × List (List Char)))
  | [] => some none
  | line :: rest => (mdLineTurn line rest).map some

/-- `parse_rich_markdown`. -/
def parseRichMarkdown (fuel : Nat) (text : List Char) : Option (List PageBlock) :=
  parseBlocks lines mdTurn fuel (lines text)

/-! Where it goes wrong. -/

/-- A line that one test accepts and the next one refuses. -/
inductive StuckLine (line : List Char) : Prop
  | heading : 6 < headingLevel line → StuckLine line
  | number : listOrderedStart line = true → parseI32 ((trimStart line).takeWhile Char.isDigit) = none → StuckLine line
  | rule : "<hr".toList <+: toAsciiLowercase (trim line) → trim line ∉ hrTags → StuckLine line

/-- If the block is closed within its text, its summary is closed in front of that. -/
def DetailsFine (full : List Char) : Prop :=
  detailsClose <:+: full → ∃ before behind, full = before ++ (summaryClose ++ behind) ∧ detailsClose <:+: behind

def MdTag.Fine (line : List Char) (rest : List (List Char)) : MdTag → Prop
  | .details => TagRead (insideTag (trim line)) ∧ DetailsFine (detailsText line rest).1
  | .map => TagRead (insideMapTag (trim line))
  | .figure => FigureFine (decide ("<tg-map".toList <:+: (figureText line rest).1)) (figureText line rest).1
  | .anchor => TagRead (insideTag (trim line))
  | .ul => ListFine (extractMultilineTag "ul".toList rest).1
  | .ol => TagRead (insideTag (trim line)) ∧ ListFine (extractMultilineTag "ol".toList rest).1
  | .table => TagRead (insideTag (trim line)) ∧ TableFine (extractMultilineTag "table".toList rest).1
  | _ => True

/-- The loop goes on from the first line, and a block that begins there is read. -/
def MdFine : List (List Char) → Prop
  | [] => True
  | line :: rest => ¬ StuckLine line ∧ ∀ tag, lineTag? line = some tag → tag.Fine line rest

/-! Sizes. -/

/-- What the lines take, each with its end. -/
def linesSize (ls : List (List Char)) : Nat := (ls.map fun l => l.length + 1).sum

@[simp] theorem linesSize_cons (l : List Char) (ls : List (List Char)) :
    linesSize (l :: ls) = l.length + 1 + linesSize ls := by simp [linesSize]

theorem linesSize_suffix {a b : List (List Char)} (h : a <:+ b) : linesSize a ≤ linesSize b := by
  obtain ⟨c, rfl⟩ := h
  unfold linesSize
  rw [List.map_append, List.sum_append]
  exact Nat.le_add_left _ _

theorem linesSize_lines (s : List Char) : linesSize (lines s) ≤ s.length + 1 := by
  induction s with
  | nil => exact Nat.zero_le _
  | cons c s ih =>
    unfold lines
    split
    · rw [linesSize_cons, List.length_cons, List.length_nil]
      omega
    · split
      · rw [List.length_cons]
        omega
      · split
        · rw [linesSize_cons, List.length_cons, List.length_cons]
          exact Nat.add_le_add_right (by simp) 1
        · next l ls hl =>
          rw [hl, linesSize_cons] at ih
          rw [linesSize_cons, List.length_cons, List.length_cons]
          omega

theorem joinLines_length (l : List Char) (ls : List (List Char)) :
    (joinLines (l :: ls)).length + 1 = linesSize (l :: ls) := by
  induction ls generalizing l with
  | nil => simp [joinLines, linesSize]
  | cons m ls ih =>
    have h : joinLines (l :: m :: ls) = l ++ '\n' :: joinLines (m :: ls) := by
      simp [joinLines, List.intercalate]
    rw [h, linesSize_cons, ← ih m, List.length_append, List.length_cons]
    omega

theorem upTo_suffix (closes : List Char → Bool) (ls : List (List Char)) : (upTo closes ls).2 <:+ ls := by
  induction ls with
  | nil => exact List.suffix_refl _
  | cons l ls ih =>
    unfold upTo
    split
    · exact List.suffix_cons _ _
    · exact ih.trans (List.suffix_cons _ _)

theorem upTo_size (closes : List Char → Bool) (ls : List (List Char)) :
    linesSize (upTo closes ls).1 ≤ linesSize ls := by
  induction ls with
  | nil => exact Nat.le_refl _
  | cons l ls ih =>
    unfold upTo
    split
    · exact Nat.zero_le _
    · rw [linesSize_cons, linesSize_cons]
      exact Nat.add_le_add_left ih _

theorem upThrough_suffix (closes : List Char → Bool) (ls : List (List Char)) : (upThrough closes ls).2 <:+ ls := by
  induction ls with
  | nil => exact List.suffix_refl _
  | cons l ls ih =>
    unfold upThrough
    split
    · exact List.suffix_cons _ _
    · exact ih.trans (List.suffix_cons _ _)

/-! Details. -/

theorem detailsFine_iff (full : List Char) : DetailsFine full ↔ bodyStart full ≤ bodyEnd full := by
  have hpos : 0 < byteLen detailsClose := by decide
  unfold bodyStart bodyEnd
  cases hclose : rfindStr detailsClose full with
  | none =>
    have hno : ¬ detailsClose <:+: full := by
      rintro ⟨a, b, rfl⟩
      obtain ⟨n, hn, -⟩ := le_rfindStr detailsClose a b
      rw [List.append_assoc, hn] at hclose
      cases hclose
    refine iff_of_true (fun h => absurd h hno) ?_
    cases hsum : findStr summaryClose full with
    | none => exact Nat.le_refl _
    | some i =>
      obtain ⟨b, hb, rfl⟩ := findStr_eq_some hsum
      have hlen := congrArg byteLen hb
      rw [byteLen_append, byteLen_append] at hlen
      show _ + _ ≤ byteLen full
      omega
  | some e =>
    obtain ⟨a, b, hab, rfl⟩ := rfindStr_eq_some hclose
    have hmem : detailsClose <:+: full := ⟨a, b, by rw [hab, List.append_assoc]⟩
    show _ ↔ _ ≤ byteLen a
    cases hsum : findStr summaryClose full with
    | none =>
      have hlen := congrArg byteLen hab
      rw [byteLen_append, byteLen_append] at hlen
      refine iff_of_false (fun h => ?_) (fun h => ?_)
      · obtain ⟨before, behind, hsplit, -⟩ := h hmem
        apply findStr_eq_none_iff.mp hsum
        exact ⟨before, behind, by rw [hsplit, List.append_assoc]⟩
      · have h : byteLen full ≤ byteLen a := h
        omega
    | some i =>
      constructor
      · intro h
        obtain ⟨before, behind, hsplit, c, d, rfl⟩ := h hmem
        obtain ⟨n, hn, hle⟩ := findStr_le summaryClose before (c ++ detailsClose ++ d)
        rw [← hsplit, hsum] at hn
        obtain rfl := Option.some.inj hn
        obtain ⟨m, hm, hle'⟩ := le_rfindStr detailsClose (before ++ (summaryClose ++ c)) d
        have hsame : before ++ (summaryClose ++ c) ++ (detailsClose ++ d) = full := by
          rw [hsplit]
          simp only [List.append_assoc]
        rw [hsame, hclose] at hm
        obtain rfl := Option.some.inj hm
        rw [byteLen_append, byteLen_append] at hle'
        show _ + _ ≤ _
        omega
      · intro h _
        obtain ⟨q, hq, hi⟩ := findStr_eq_some hsum
        have h : i + byteLen summaryClose ≤ byteLen a := h
        have hsplit : (beforeStr summaryClose full ++ summaryClose) ++ q = a ++ (detailsClose ++ b) := by
          rw [← hab, List.append_assoc]
          exact hq.symm
        obtain ⟨c, -, hqc⟩ := append_of_byteLen_le hsplit (by rw [byteLen_append, hi]; exact h)
        exact ⟨_, q, hq, c, b, by rw [hqc, List.append_assoc]⟩

theorem parseDetailsBlock_isSome_iff (line : List Char) (rest : List (List Char)) :
    (∃ r, parseDetailsBlock line rest = some r) ↔
      TagRead (insideTag (trim line)) ∧ DetailsFine (detailsText line rest).1 := by
  have hread := Sliced.parseTag_isSome_iff (insideTag (trim line))
  obtain ⟨summary, hsummary⟩ := extractBetween_isSome (detailsText line rest).1 "<summary>".toList summaryClose
  rw [detailsFine_iff]
  unfold TagRead
  rw [← hread]
  unfold parseDetailsBlock
  generalize detailsText line rest = r at hsummary ⊢
  obtain ⟨full, rest'⟩ := r
  simp only [hsummary, Option.bind_eq_bind, Option.bind_some]
  cases Sliced.parseTag (insideTag (trim line)) with
  | none => exact iff_of_false (fun ⟨_, h⟩ => nomatch h) fun ⟨⟨_, h⟩, _⟩ => nomatch h
  | some tag =>
    simp only [Option.bind_some, Option.some.injEq, exists_eq', true_and]
    have hend : Boundary full (bodyEnd full) := by
      unfold bodyEnd
      cases hclose : rfindStr detailsClose full with
      | none => exact Boundary.byteLen _
      | some e => exact boundary_rfindStr hclose
    constructor
    · rintro ⟨r, hr⟩
      obtain ⟨body, hbody, -⟩ := Option.bind_eq_some_iff.mp hr
      obtain ⟨a, b, -, h1, h2⟩ := slice_eq_some hbody
      omega
    · intro hle
      obtain ⟨body, hbody⟩ := (bodyStart_boundary _).slice hend hle
      rw [hbody]
      exact ⟨_, rfl⟩

/-- What a turn leaves is behind the line, and every body that it finds is less than what was there. -/
def Goes (line : List Char) (rest : List (List Char)) (r : List Piece × List (List Char)) : Prop :=
  r.2 <:+ rest ∧ ∀ p ∈ r.1, ∀ body, p.body? = some body → linesSize (lines body) < linesSize (line :: rest)

theorem goes_of_block {line : List Char} {rest rest' : List (List Char)} (h : rest' <:+ rest) (b : Block Inline) :
    Goes line rest ([.block b], rest') :=
  ⟨h, fun _ hp _ hbody => by rw [List.mem_singleton.mp hp] at hbody; cases hbody⟩

theorem parseDetailsBlock_goes {line : List Char} {rest : List (List Char)} {r : List Piece × List (List Char)}
    (h : parseDetailsBlock line rest = some r) : Goes line rest r := by
  unfold parseDetailsBlock at h
  obtain ⟨tag, -, h⟩ := Option.bind_eq_some_iff.mp h
  obtain ⟨summary, -, h⟩ := Option.bind_eq_some_iff.mp h
  obtain ⟨body, hbody, h⟩ := Option.bind_eq_some_iff.mp h
  have hbody : slice (detailsText line rest).1 (bodyStart (detailsText line rest).1)
    (bodyEnd (detailsText line rest).1) = some body := hbody
  obtain rfl := Option.some.inj h
  refine ⟨upTo_suffix _ rest, fun p hp text htext => ?_⟩
  obtain rfl := List.mem_singleton.mp hp
  obtain rfl := Option.some.inj htext
  have hfull : (detailsText line rest).1.length + 1 ≤ linesSize (line :: rest) := by
    show (joinLines (line :: (upTo _ rest).1)).length + 1 ≤ _
    rw [joinLines_length, linesSize_cons, linesSize_cons]
    exact Nat.add_le_add_left (upTo_size _ rest) _
  have htrim := trim_length body
  obtain ⟨a, b, hsplit, hstart, -⟩ := slice_eq_some hbody
  have hlen := congrArg List.length hsplit
  rw [List.length_append, List.length_append] at hlen
  unfold bodyStart at hstart
  cases hsum : findStr summaryClose (detailsText line rest).1 with
  | none =>
    have hall : byteLen a = byteLen (detailsText line rest).1 := by
      rw [hsum] at hstart
      exact hstart
    have hbytes := congrArg byteLen hsplit
    rw [byteLen_append, byteLen_append] at hbytes
    obtain rfl := byteLen_eq_zero.mp (show byteLen body = 0 by omega)
    rw [linesSize_cons]
    exact Nat.lt_of_lt_of_le (Nat.succ_pos _) (Nat.le_add_right _ _)
  | some i =>
    rw [hsum] at hstart
    obtain ⟨q, hq, rfl⟩ := findStr_eq_some hsum
    have hcut : (beforeStr summaryClose (detailsText line rest).1 ++ summaryClose) ++ q = a ++ (body ++ b) := by
      rw [← hsplit, List.append_assoc]
      exact hq.symm
    obtain ⟨c, ha, -⟩ := append_of_byteLen_le hcut (Nat.le_of_eq (by rw [byteLen_append]; exact hstart.symm))
    have hsize := congrArg List.length ha
    rw [List.length_append, List.length_append, show summaryClose.length = 10 from rfl] at hsize
    have hlines := linesSize_lines (trim body)
    omega

theorem figureText_suffix (line : List Char) (rest : List (List Char)) : (figureText line rest).2 <:+ rest := by
  unfold figureText
  split
  · exact List.suffix_refl _
  · exact upThrough_suffix _ _

theorem parseCollageBlock_spec (tag line : List Char) (rest : List (List Char)) :
    ∃ items caption rest', parseCollageBlock tag line rest = some (items, caption, rest') ∧ rest' <:+ rest := by
  unfold parseCollageBlock
  obtain ⟨r, hr⟩ := extractCollageItems_isSome (joinLines (line :: (upThrough (fun l =>
    (closeTag tag).isPrefixOf (toAsciiLowercase (trim l))) rest).1))
  simp only [hr, Option.bind_eq_bind, Option.bind_some]
  exact ⟨_, _, _, rfl, upThrough_suffix _ rest⟩

/-- A block that is read, and its texts. -/
theorem read_block {α : Type} {x : Option α} (line : List Char) {rest rest' : List (List Char)} {Fine : Prop}
    (hx : (∃ a, x = some a) ↔ Fine) (hrest : rest' <:+ rest) (f : α → Block Inline) :
    ((∃ r, (x.bind fun a => some ([Piece.block (f a)], rest')) = some r) ↔ Fine) ∧
      ∀ r, (x.bind fun a => some ([Piece.block (f a)], rest')) = some r → Goes line rest r := by
  cases x with
  | none => exact ⟨by simpa using hx, fun r h => nomatch h⟩
  | some a =>
    refine ⟨iff_of_true ⟨_, rfl⟩ (hx.mp ⟨a, rfl⟩), fun r h => ?_⟩
    obtain rfl := Option.some.inj h
    exact goes_of_block hrest (f a)

/-- A tag is read exactly if it is fine, and what is left is behind it. -/
def MdTag.Reads (tag : MdTag) (line : List Char) (rest : List (List Char)) : Prop :=
  ((∃ r, tag.read line rest = some r) ↔ tag.Fine line rest) ∧ ∀ r, tag.read line rest = some r → Goes line rest r

section
variable (line : List Char) (rest : List (List Char))

theorem MdTag.reads_of_eq {tag : MdTag} (hfine : tag.Fine line rest) {b : Block Inline} {rest' : List (List Char)}
    (h : tag.read line rest = some ([.block b], rest')) (hrest : rest' <:+ rest) : tag.Reads line rest := by
  refine ⟨iff_of_true ⟨_, h⟩ hfine, fun r hr => ?_⟩
  obtain rfl := Option.some.inj (h.symm.trans hr)
  exact goes_of_block hrest b

theorem MdTag.reads_collage : MdTag.collage.Reads line rest := by
  obtain ⟨items, caption, rest', h, hrest⟩ := parseCollageBlock_spec "tg-collage".toList line rest
  refine MdTag.reads_of_eq line rest trivial (b := .collage items caption) ?_ hrest
  simp only [MdTag.read, h, Option.bind_eq_bind, Option.bind_some]

theorem MdTag.reads_slideshow : MdTag.slideshow.Reads line rest := by
  obtain ⟨items, caption, rest', h, hrest⟩ := parseCollageBlock_spec "tg-slideshow".toList line rest
  refine MdTag.reads_of_eq line rest trivial (b := .slideshow items caption) ?_ hrest
  simp only [MdTag.read, h, Option.bind_eq_bind, Option.bind_some]

theorem MdTag.reads_aside : MdTag.aside.Reads line rest := by
  obtain ⟨body, hbody⟩ := extractTagBody_isSome (trim line) "aside".toList
  obtain ⟨cite, hcite⟩ := splitCite_isSome body
  refine MdTag.reads_of_eq line rest trivial (b := .pullquote (.md cite.1) (.md cite.2)) ?_ (List.suffix_refl rest)
  simp only [MdTag.read, hbody, hcite, Option.bind_eq_bind, Option.bind_some]

theorem MdTag.reads_blockquote : MdTag.blockquote.Reads line rest := by
  obtain ⟨body, hbody⟩ := extractTagBody_isSome (trim line) "blockquote".toList
  obtain ⟨cite, hcite⟩ := splitCite_isSome body
  refine MdTag.reads_of_eq line rest trivial (b := .blockquote (.md cite.1) (.md cite.2)) ?_ (List.suffix_refl rest)
  simp only [MdTag.read, hbody, hcite, Option.bind_eq_bind, Option.bind_some]

theorem MdTag.reads_pre : MdTag.pre.Reads line rest := by
  obtain ⟨r, hr⟩ := extractPreContent_isSome (trim line)
  refine MdTag.reads_of_eq line rest trivial (b := .preformatted (rtPlain r.2) r.1) ?_ (List.suffix_refl rest)
  simp only [MdTag.read, hr, Option.bind_eq_bind, Option.bind_some]

/-- The tags whose body is the text of a block. -/
theorem MdTag.reads_body {tag : MdTag} {name : List Char} {f : List Char → Block Inline}
    (hfine : tag.Fine line rest)
    (heq : tag.read line rest = (extractTagBody (trim line) name).bind fun body => some ([.block (f body)], rest)) :
    tag.Reads line rest := by
  obtain ⟨body, hbody⟩ := extractTagBody_isSome (trim line) name
  rw [hbody] at heq
  exact MdTag.reads_of_eq line rest hfine heq (List.suffix_refl rest)

/-- The tags whose attributes are a block. -/
theorem MdTag.reads_attrs (text : List Char) {tag : MdTag} {f : List (List Char × List Char) → Block Inline}
    (hfine : tag.Fine line rest ↔ TagRead text)
    (heq : tag.read line rest = (Sliced.parseTag text).bind fun r => some ([.block (f r.2)], rest)) :
    tag.Reads line rest := by
  have hread := Sliced.parseTag_isSome_iff text
  unfold MdTag.Reads
  rw [heq, hfine]
  exact read_block line hread (List.suffix_refl rest) fun r => f r.2

theorem MdTag.reads_figure : MdTag.figure.Reads line rest := by
  have hiff := figureBlocks_isSome_iff Inline.md (decide ("<tg-map".toList <:+: (figureText line rest).1))
    (figureText line rest).1
  have heq : MdTag.figure.read line rest =
      (figureBlocks Inline.md (decide ("<tg-map".toList <:+: (figureText line rest).1)) (figureText line rest).1).map
        fun pieces => (pieces, (figureText line rest).2) := by
    unfold MdTag.read
    obtain ⟨content, rest'⟩ := figureText line rest
    show Option.bind (figureBlocks Inline.md (decide ("<tg-map".toList <:+: content)) content) _ = Option.map _ _
    cases figureBlocks Inline.md (decide ("<tg-map".toList <:+: content)) content <;> rfl
  unfold MdTag.Reads
  rw [heq]
  refine ⟨(exists_map_iff _ _).trans hiff, fun r h => ?_⟩
  obtain ⟨pieces, hp, rfl⟩ := Option.map_eq_some_iff.mp h
  refine ⟨figureText_suffix line rest, fun p hp' body hbody' => ?_⟩
  rw [figureBlocks_body hp p hp'] at hbody'
  cases hbody'

theorem MdTag.reads_ul : MdTag.ul.Reads line rest := by
  have h := read_block line (parseHtmlListItems_isSome_iff (extractMultilineTag "ul".toList rest).1)
    (upThrough_suffix (fun l => closeTag "ul".toList <:+: toAsciiLowercase (trim l)) rest) fun items => .list items
  exact h

/-- A tag that is read first, and then a list or a table. -/
theorem reads_tag_then {α : Type} (text : List Char) {x : List (List Char × List Char) → Option α}
    {Fine : Prop} (hx : ∀ attrs, (∃ a, x attrs = some a) ↔ Fine) {rest' : List (List Char)} (hrest : rest' <:+ rest)
    (f : List (List Char × List Char) → α → Block Inline) :
    ((∃ r, ((Sliced.parseTag text).bind fun tag => (x tag.2).bind fun a =>
        some ([Piece.block (f tag.2 a)], rest')) = some r) ↔ TagRead text ∧ Fine) ∧
      ∀ r, ((Sliced.parseTag text).bind fun tag => (x tag.2).bind fun a =>
        some ([Piece.block (f tag.2 a)], rest')) = some r → Goes line rest r := by
  unfold TagRead
  rw [← Sliced.parseTag_isSome_iff]
  cases Sliced.parseTag text with
  | none => exact ⟨by simp, fun r h => nomatch h⟩
  | some tag =>
    obtain ⟨hiff, hgoes⟩ := read_block line (hx tag.2) hrest (f tag.2)
    exact ⟨hiff.trans (by simp), hgoes⟩

theorem MdTag.reads_ol : MdTag.ol.Reads line rest :=
  reads_tag_then line rest (insideTag (trim line))
    (fun attrs => parseHtmlOrderedListItems_isSome_iff (extractMultilineTag "ol".toList rest).1 (attr "type".toList attrs))
    (upThrough_suffix (fun l => closeTag "ol".toList <:+: toAsciiLowercase (trim l)) rest) fun attrs items =>
      .orderedList (hasAttr "reversed".toList attrs) items ((attr "start".toList attrs).bind parseI32)
        (attr "type".toList attrs)

theorem MdTag.reads_table : MdTag.table.Reads line rest :=
  reads_tag_then line rest (insideTag (trim line)) (fun _ => parseHtmlTable_isSome_iff (extractMultilineTag "table".toList rest).1)
    (upThrough_suffix (fun l => closeTag "table".toList <:+: toAsciiLowercase (trim l)) rest) fun attrs r =>
      .table (hasAttr "bordered".toList attrs) (hasAttr "striped".toList attrs) (hasAttr "compact".toList attrs) r.1 r.2

theorem MdTag.reads (tag : MdTag) : tag.Reads line rest := by
  cases tag with
  | details => exact ⟨parseDetailsBlock_isSome_iff line rest, fun r h => parseDetailsBlock_goes h⟩
  | collage => exact MdTag.reads_collage line rest
  | slideshow => exact MdTag.reads_slideshow line rest
  | aside => exact MdTag.reads_aside line rest
  | blockquote => exact MdTag.reads_blockquote line rest
  | mathBlock => exact MdTag.reads_body line rest trivial rfl
  | footer => exact MdTag.reads_body line rest trivial rfl
  | heading level => exact MdTag.reads_body line rest trivial rfl
  | paragraph => exact MdTag.reads_body line rest trivial rfl
  | pre => exact MdTag.reads_pre line rest
  | map =>
    exact MdTag.reads_attrs line rest (insideMapTag (trim line)) (f := (mapBlock · emptyCaption)) Iff.rfl rfl
  | anchor =>
    exact MdTag.reads_attrs line rest (insideTag (trim line))
      (f := fun attrs => .anchor ((attr "name".toList attrs).getD [])) Iff.rfl rfl
  | hr => exact MdTag.reads_of_eq line rest trivial rfl (List.suffix_refl rest)
  | ul => exact MdTag.reads_ul line rest
  | figure => exact MdTag.reads_figure line rest
  | ol => exact MdTag.reads_ol line rest
  | table => exact MdTag.reads_table line rest

end

/-! The first character that is no white space. -/

/-- A line that starts with a character starts with it when trimmed, if that is no white space. -/
theorem lead_of_head {line : List Char} {c : Char} (h : line.head? = some c) (hc : isWhitespace c = false) :
    (trimStart line).head? = some c := by
  obtain ⟨t, rfl⟩ := List.head?_eq_some_iff.mp h
  unfold trimStart
  rw [List.dropWhile_cons, hc]
  rfl

theorem lead_lower {line : List Char} {pat : List Char} (h : pat.isPrefixOf (toAsciiLowercase (trim line)) = true)
    (hpat : pat.head? = some '<') : (trimStart line).head? = some '<' := by
  rw [← head_trim]
  exact head_of_lower_prefix h hpat

section
variable {line : List Char} {c : Char} (hlead : (trimStart line).head? = some c)
include hlead

theorem head_ne_of_lead {d : Char} (hd : isWhitespace d = false) (hne : d ≠ c) : line.head? ≠ some d := by
  intro h
  exact hne (Option.some.inj ((lead_of_head h hd).symm.trans hlead))

theorem lineTag_of_lead (htag : c = '<' → mdTag? (trim line) = none) : lineTag? line = none := by
  unfold lineTag?
  split
  · next h =>
    rw [head_trim, hlead] at h
    exact htag (Option.some.inj h)
  · rfl

theorem listUnorderedStart_of_lead (hc : c ∉ ['-', '*', '+']) : listUnorderedStart line = false := by
  have hne : ∀ d, (trimStart line).head? = some d → d ∈ ['-', '*', '+'] → False := by
    intro d hd hmem
    obtain rfl := Option.some.inj (hlead.symm.trans hd)
    exact hc hmem
  apply Bool.eq_false_iff.mpr
  intro h
  unfold listUnorderedStart at h
  simp only [Bool.and_eq_true, Bool.or_eq_true] at h
  rcases h.1 with (h | h) | h
  · exact hne '-' (head_of_isPrefixOf h rfl) (by decide)
  · exact hne '*' (head_of_isPrefixOf h rfl) (by decide)
  · exact hne '+' (head_of_isPrefixOf h rfl) (by decide)

/-- The tests in front of the HTML blocks. -/
theorem mdLineTurn_of_lead (hc : c ∉ ['[', '`', '$', '-', '*', '_', '>'])
    (hheading : ¬ (line.head? = some '#' ∧ headingLevel line ≤ 6)) (rest : List (List Char)) :
    mdLineTurn line rest = mdBlockTurn line rest := by
  have hne : ∀ d, (trimStart line).head? = some d → d ∈ ['[', '`', '$', '-', '*', '_', '>'] → False := by
    intro d hd hmem
    obtain rfl := Option.some.inj (hlead.symm.trans hd)
    exact hc hmem
  have htrim : ∀ d, (trim line).head? = some d → d ∈ ['[', '`', '$', '-', '*', '_', '>'] → False := by
    intro d hd
    rw [head_trim] at hd
    exact hne d hd
  have hline : ∀ d, line.head? = some d → isWhitespace d = false → d ∈ ['[', '`', '$', '-', '*', '_', '>'] → False :=
    fun d hd hws => hne d (lead_of_head hd hws)
  have hempty : trim line ≠ [] := by
    intro h
    have := head_trim line
    rw [h, hlead] at this
    cases this
  have hdiv : trim line ∉ dividers := by
    intro h
    have hall : ∀ l ∈ dividers, l.head?.any (['[', '`', '$', '-', '*', '_', '>'].contains ·) = true := by decide
    obtain ⟨d, hd, hmem⟩ := (Option.any_eq_true _ _).mp (hall _ h)
    exact htrim d hd (List.contains_iff_mem.mp hmem)
  unfold mdLineTurn
  simp only
  rw [if_neg (fun h => hline '[' (head_of_isPrefixOf h.1 rfl) (by decide) (by decide)), if_neg hempty,
    if_neg (fun h => hne '`' (head_of_isPrefixOf h rfl) (by decide)),
    if_neg (fun h => h.elim (fun h => htrim '$' (by rw [h]; rfl) (by decide))
      fun h => hline '$' (head_of_isPrefixOf h.1 rfl) (by decide) (by decide)),
    if_neg (fun h => htrim '$' (head_of_isPrefixOf h.1 rfl) (by decide)), if_neg hdiv, if_neg hheading,
    if_neg (fun h => hline '>' h (by decide) (by decide))]

/-- The tests behind the HTML blocks: nothing but a paragraph is left. -/
theorem mdBlockTurn_of_lead (hc : c ∉ ['-', '*', '+', '|', '!']) (hdigit : c.isDigit = false)
    (htag : c = '<' → mdTag? (trim line) = none) (rest : List (List Char)) :
    mdBlockTurn line rest = some (parseParagraph (line :: rest)) := by
  have hne : ∀ d, (trimStart line).head? = some d → d ∈ ['-', '*', '+', '|', '!'] → False := by
    intro d hd hmem
    obtain rfl := Option.some.inj (hlead.symm.trans hd)
    exact hc hmem
  have hnone := lineTag_of_lead hlead htag
  have hul : listUnorderedStart line = false :=
    listUnorderedStart_of_lead hlead fun hmem => hc (List.mem_append_left ['|', '!'] hmem)
  have hol : listOrderedStart line = false := by
    unfold listOrderedStart
    simp only [hlead, Option.any_some, hdigit, Bool.false_and]
  have hrow : startsRow line = false := decide_eq_false fun h => hne '|' h (by decide)
  have hmedia : "![](".toList.isPrefixOf (trim line) = false := by
    apply Bool.eq_false_iff.mpr
    intro h
    have := head_of_isPrefixOf (c := '!') h rfl
    rw [head_trim] at this
    exact hne '!' this (by decide)
  unfold mdBlockTurn
  simp only [hnone, hul, hol, hrow, hmedia, Bool.false_eq_true, if_false, Option.bind_eq_bind, Option.bind_some]

end

/-- A paragraph that ends where it begins. -/
theorem parseParagraph_stuck {line : List Char} (h : endsParagraph line = true) (rest : List (List Char)) :
    (parseParagraph (line :: rest)).2 = line :: rest := by
  unfold parseParagraph
  simp [h]

theorem not_mem_of_digit {c : Char} (h : c.isDigit = true) {l : List Char} (hl : l.all (!·.isDigit) = true) : c ∉ l := by
  intro hmem
  have := List.all_eq_true.mp hl c hmem
  rw [h] at this
  cases this

/-- The number of an item is what stands in front of its dot. -/
theorem parseListItemOrdered_eq {line : List Char} (h : listOrderedStart line = true) :
    ∃ text, parseListItemOrdered line = some ((parseI32 ((trimStart line).takeWhile Char.isDigit)).map fun num => (num, text)) := by
  unfold listOrderedStart at h
  simp only [Bool.and_eq_true] at h
  obtain ⟨hdigit, hdot⟩ := h
  have hsplit := List.takeWhile_append_dropWhile (p := Char.isDigit) (l := trimStart line)
  cases hdrop : (trimStart line).dropWhile Char.isDigit with
  | nil => rw [hdrop] at hdot; cases hdot
  | cons d text =>
    rw [hdrop] at hdot hsplit
    have hd : (d == '.' || d == ')') = true := hdot
    have hnot : ∀ c ∈ (trimStart line).takeWhile Char.isDigit, (!(c == '.' || c == ')')) = true := by
      intro c hc
      have hcd := List.mem_takeWhile_imp hc
      have := not_mem_of_digit hcd (l := ['.', ')']) (by decide)
      simpa using this
    have hfind : find (fun c => c == '.' || c == ')') (trimStart line) =
        some (byteLen ((trimStart line).takeWhile Char.isDigit)) := by
      rw [find_eq, ← hsplit]
      have htake : (((trimStart line).takeWhile Char.isDigit) ++ d :: text).takeWhile (fun c => !(c == '.' || c == ')')) =
          (trimStart line).takeWhile Char.isDigit := by
        rw [List.takeWhile_append_of_pos hnot, List.takeWhile_cons, hd]
        simp
      rw [hsplit] at htake ⊢
      rw [htake, if_pos]
      rw [← hsplit, List.any_append, List.any_cons, hd]
      simp
    have hto : sliceTo (trimStart line) (byteLen ((trimStart line).takeWhile Char.isDigit)) =
        some ((trimStart line).takeWhile Char.isDigit) := sliceTo_takeWhile _ _
    have hfrom : sliceFrom (trimStart line) (byteLen ((trimStart line).takeWhile Char.isDigit) + 1) = some text := by
      have hsize : d.utf8Size = 1 := by
        rcases Bool.or_eq_true_iff.mp hd with h | h <;> rw [beq_iff_eq.mp h] <;> rfl
      apply sliceFrom_eq_some_iff.mpr
      refine ⟨(trimStart line).takeWhile Char.isDigit ++ [d], ?_, ?_⟩
      · rw [List.append_assoc]
        exact hsplit.symm
      · rw [byteLen_append, byteLen_cons, byteLen_nil, hsize]
    refine ⟨trimStart text, ?_⟩
    unfold parseListItemOrdered
    simp only [hfind, hto, hfrom, Option.bind_eq_bind, Option.bind_some]
    cases parseI32 ((trimStart line).takeWhile Char.isDigit) <;> rfl

theorem heading_stuck {line : List Char} (hlevel : 6 < headingLevel line) (rest : List (List Char)) :
    ∃ pieces, mdLineTurn line rest = some (pieces, line :: rest) := by
  obtain ⟨t, rfl⟩ : ∃ t, line = '#' :: t := by
    cases line with
    | nil => exact absurd hlevel (Nat.not_lt_zero _)
    | cons c t =>
      by_cases hc : c = '#'
      · exact ⟨t, by rw [hc]⟩
      · unfold headingLevel at hlevel
        rw [List.takeWhile_cons, if_neg (by simpa using hc)] at hlevel
        exact absurd hlevel (Nat.not_lt_zero _)
  have hlead : (trimStart ('#' :: t)).head? = some '#' := lead_of_head rfl (by decide)
  rw [mdLineTurn_of_lead hlead (by decide) (fun h => absurd h.2 (Nat.not_le.mpr hlevel)),
    mdBlockTurn_of_lead hlead (by decide) (by decide) (fun h => absurd h (by decide))]
  refine ⟨_, congrArg some (Prod.ext rfl (parseParagraph_stuck ?_ rest))⟩
  simp [endsParagraph]

theorem number_stuck {line : List Char} (hol : listOrderedStart line = true)
    (hnum : parseI32 ((trimStart line).takeWhile Char.isDigit) = none) (rest : List (List Char)) :
    ∃ pieces, mdLineTurn line rest = some (pieces, line :: rest) := by
  obtain ⟨text, hitem⟩ := parseListItemOrdered_eq hol
  rw [hnum, Option.map_none] at hitem
  have hdigit : ∃ c, (trimStart line).head? = some c ∧ c.isDigit = true := by
    unfold listOrderedStart at hol
    simp only [Bool.and_eq_true] at hol
    cases hhead : (trimStart line).head? with
    | none => rw [hhead] at hol; cases hol.1
    | some c => rw [hhead] at hol; exact ⟨c, rfl, hol.1⟩
  obtain ⟨c, hlead, hc⟩ := hdigit
  have hnot := fun l hl => not_mem_of_digit hc (l := l) hl
  have hnone := lineTag_of_lead hlead fun h => absurd (List.mem_singleton.mpr h) (hnot ['<'] (by decide))
  have hul := listUnorderedStart_of_lead hlead (hnot _ (by decide))
  have hline := head_ne_of_lead hlead (d := '#') (by decide) fun h => hnot ['#'] (by decide) (List.mem_singleton.mpr h.symm)
  rw [mdLineTurn_of_lead hlead (hnot _ (by decide)) (fun h => hline h.1)]
  unfold mdBlockTurn
  simp only [hnone, hul, hol, parseOrderedList, hitem, Bool.false_eq_true, if_false, if_true, Option.bind_eq_bind,
    Option.bind_some]
  exact ⟨_, rfl⟩

theorem rule_stuck {line : List Char} (hhr : "<hr".toList <+: toAsciiLowercase (trim line)) (hnot : trim line ∉ hrTags)
    (rest : List (List Char)) : ∃ pieces, mdLineTurn line rest = some (pieces, line :: rest) := by
  obtain ⟨t, ht⟩ := hhr
  have hlower : toAsciiLowercase (trim line) = '<' :: 'h' :: 'r' :: t := ht.symm
  have hlead : (trimStart line).head? = some '<' :=
    lead_lower (show "<hr".toList.isPrefixOf _ = true from List.isPrefixOf_iff_prefix.mpr ⟨t, ht⟩) rfl
  have htag : mdTag? (trim line) = none := by
    unfold mdTag?
    simp only [hlower]
    simp [List.isPrefixOf, headingName, hnot]
  have hblock : isBlockHtmlTag (trim line) = true := by
    unfold isBlockHtmlTag
    rw [hlower]
    exact List.any_eq_true.mpr ⟨"<hr", by decide, rfl⟩
  have hline := head_ne_of_lead hlead (d := '#') (by decide) (by decide)
  rw [mdLineTurn_of_lead hlead (by decide) (fun h => hline h.1),
    mdBlockTurn_of_lead hlead (by decide) (by decide) (fun _ => htag)]
  refine ⟨_, congrArg some (Prod.ext rfl (parseParagraph_stuck ?_ rest))⟩
  simp [endsParagraph, hlead, hblock]

/-- A stuck line fails, or it stays where it is. -/
theorem mdTurn_stuck {line : List Char} (h : StuckLine line) (rest : List (List Char)) :
    ∃ pieces, mdLineTurn line rest = some (pieces, line :: rest) := by
  cases h with
  | heading hlevel => exact heading_stuck hlevel rest
  | number hol hnum => exact number_stuck hol hnum rest
  | rule hhr hnot => exact rule_stuck hhr hnot rest

/-! Every other line is read. -/

section
variable {line : List Char} {rest : List (List Char)}

theorem parseCodeBlock_goes (h : fence.isPrefixOf (trimStart line) = true) : Goes line rest (parseCodeBlock line rest) := by
  unfold parseCodeBlock stripPrefix
  rw [if_pos h]
  simp only
  split <;> exact goes_of_block (upTo_suffix _ rest) _

theorem dollars_slice {s : List Char} (hpre : dollars.isPrefixOf s = true) (hsuf : dollars.isSuffixOf s = true)
    (hlen : 4 < byteLen s) : ∃ src, slice s 2 (byteLen s - 2) = some src := by
  obtain ⟨t, ht⟩ := List.isPrefixOf_iff_prefix.mp hpre
  obtain ⟨u, hu⟩ := List.isSuffixOf_iff_suffix.mp hsuf
  have hsize := congrArg byteLen hu
  rw [byteLen_append, show byteLen dollars = 2 from rfl] at hsize
  exact Boundary.slice ⟨dollars, t, ht.symm, rfl⟩ ⟨u, dollars, hu.symm, by omega⟩ (by omega)

theorem heading_slice (line : List Char) : ∃ text, sliceFrom line (headingLevel line) = some text := by
  have hsize : byteLen (line.takeWhile (· = '#')) = headingLevel line := by
    apply (bytes_eq_chars_iff _).mpr
    intro c hc
    have hhash := List.mem_takeWhile_imp (p := fun c => decide (c = '#')) hc
    rw [of_decide_eq_true hhash]
    rfl
  rw [← hsize]
  exact ⟨_, sliceFrom_takeWhile _ _⟩

theorem parseBlockquote_goes (h : line.head? = some '>') : Goes line rest (parseBlockquote (line :: rest)) := by
  unfold parseBlockquote
  rw [List.dropWhile_cons, h]
  exact goes_of_block (List.dropWhile_suffix _) _

theorem parseUnorderedList_suffix (ls : List (List Char)) : (parseUnorderedList ls).2 <:+ ls := by
  induction ls with
  | nil => exact List.suffix_refl _
  | cons l ls ih =>
    unfold parseUnorderedList
    split
    · exact ih.trans (List.suffix_cons _ _)
    · exact List.suffix_refl _

theorem parseUnorderedList_goes (h : listUnorderedStart line = true) :
    (parseUnorderedList (line :: rest)).2 <:+ rest := by
  have hitem : ∃ item, parseListItemUnordered line = some item := by
    have hrest : ∃ r, (stripPrefix ['-', ' '] (trimStart line) <|> stripPrefix ['*', ' '] (trimStart line) <|>
        stripPrefix ['+', ' '] (trimStart line)) = some r := by
      unfold listUnorderedStart at h
      simp only [Bool.and_eq_true, Bool.or_eq_true] at h
      unfold stripPrefix
      rcases h.1 with (h | h) | h
      · rw [if_pos h]
        exact ⟨_, rfl⟩
      · rw [if_pos h]
        split <;> exact ⟨_, rfl⟩
      · rw [if_pos h]
        split
        · exact ⟨_, rfl⟩
        · split <;> exact ⟨_, rfl⟩
    obtain ⟨r, hr⟩ := hrest
    unfold parseListItemUnordered
    simp only [hr, Option.bind_eq_bind, Option.bind_some]
    split
    · exact ⟨_, rfl⟩
    · split <;> exact ⟨_, rfl⟩
  obtain ⟨item, hitem⟩ := hitem
  unfold parseUnorderedList
  rw [hitem]
  exact parseUnorderedList_suffix rest

/-- The slices of an item are good. -/
theorem parseListItemOrdered_isSome (line : List Char) : ∃ r, parseListItemOrdered line = some r := by
  unfold parseListItemOrdered
  simp only
  cases hdot : find (fun c => c == '.' || c == ')') (trimStart line) with
  | none => exact ⟨none, rfl⟩
  | some dot =>
    obtain ⟨hto, hfrom⟩ := boundary_find hdot
    have hsize : ∀ c : Char, (c == '.' || c == ')') = true → c.utf8Size = 1 := by
      intro c hc
      rcases Bool.or_eq_true_iff.mp hc with h | h <;> rw [beq_iff_eq.mp h] <;> rfl
    obtain ⟨num, hnum⟩ := hto.sliceTo
    obtain ⟨text, htext⟩ := (hfrom hsize).sliceFrom
    simp only [hnum, htext, Option.bind_eq_bind, Option.bind_some]
    cases parseI32 num <;> exact ⟨_, rfl⟩

theorem parseOrderedList_spec (ls : List (List Char)) : ∃ r, parseOrderedList ls = some r ∧ r.2 <:+ ls := by
  induction ls with
  | nil => exact ⟨_, rfl, List.suffix_refl _⟩
  | cons l ls ih =>
    obtain ⟨item, hitem⟩ := parseListItemOrdered_isSome l
    obtain ⟨r, hr, hsuf⟩ := ih
    unfold parseOrderedList
    simp only [hitem, hr, Option.bind_eq_bind, Option.bind_some]
    cases item with
    | none => exact ⟨_, rfl, List.suffix_refl _⟩
    | some item => exact ⟨_, rfl, hsuf.trans (List.suffix_cons _ _)⟩

theorem parseOrderedList_goes (h : listOrderedStart line = true) (hstuck : ¬ StuckLine line) :
    ∃ r, parseOrderedList (line :: rest) = some r ∧ r.2 <:+ rest := by
  obtain ⟨text, hitem⟩ := parseListItemOrdered_eq h
  obtain ⟨r, hr, hsuf⟩ := parseOrderedList_spec rest
  cases hnum : parseI32 ((trimStart line).takeWhile Char.isDigit) with
  | none => exact absurd (StuckLine.number h hnum) hstuck
  | some num =>
    rw [hnum, Option.map_some] at hitem
    unfold parseOrderedList
    simp only [hitem, hr, Option.bind_eq_bind, Option.bind_some]
    exact ⟨_, rfl, hsuf⟩

theorem parseTable_goes (line : List Char) (rest : List (List Char)) :
    ∃ r, parseTable line rest = some r ∧ Goes line rest r := by
  have hheaders : splitTableRow line ≠ [] := List.splitOn_ne_nil _ _
  have hrest : (tableAligns rest).2 <:+ rest := by
    unfold tableAligns
    split
    · exact List.suffix_refl _
    · split
      · exact List.suffix_cons _ _
      · exact List.suffix_refl _
  unfold parseTable
  simp only
  rw [if_neg hheaders]
  exact ⟨_, rfl, goes_of_block ((List.dropWhile_suffix _).trans hrest) _⟩

theorem tryParseMediaLine_isSome (line : List Char) : ∃ r, tryParseMediaLine line = some r := by
  unfold tryParseMediaLine
  split
  · exact ⟨none, rfl⟩
  · next inner _ =>
    obtain ⟨url, hurl⟩ := stripUrlTitle_isSome inner
    obtain ⟨title, htitle⟩ := extractTitleFromUrlPart_isSome inner
    simp only [hurl, htitle, Option.bind_eq_bind, Option.bind_some]
    exact ⟨_, rfl⟩

theorem ite_some_eq_none {α : Type} {p : Prop} [Decidable p] {a : α} {x : Option α} :
    (if p then some a else x) = none ↔ ¬ p ∧ x = none := by
  by_cases hp : p <;> simp [hp]

/-- A block tag that no test takes is a rule written in another way. -/
theorem rule_of_none {trimmed : List Char} (hblock : isBlockHtmlTag trimmed = true) (htag : mdTag? trimmed = none) :
    "<hr".toList <+: toAsciiLowercase trimmed ∧ trimmed ∉ hrTags := by
  unfold mdTag? at htag
  simp only [ite_some_eq_none] at htag
  obtain ⟨hdetails, hcollage, hslideshow, haside, hmath, hfooter, hmap, hfigure, -, hquote, hrest⟩ := htag
  split at hrest
  · cases hrest
  · next hheading =>
    simp only [ite_some_eq_none] at hrest
    obtain ⟨hp, hpre, hhr, hul, hol, htable, -⟩ := hrest
    refine ⟨?_, hhr⟩
    have hlevel : ∀ level ∈ [1, 2, 3, 4, 5, 6], ¬ ('<' :: headingName level).isPrefixOf (toAsciiLowercase trimmed) = true :=
      List.find?_eq_none.mp hheading
    obtain ⟨tag, hmem, hprefix⟩ := List.any_eq_true.mp hblock
    simp only [blockTags, List.mem_cons, List.not_mem_nil, or_false] at hmem
    rcases hmem with rfl | rfl | rfl | rfl | rfl | rfl | rfl | rfl | rfl | rfl | rfl | rfl | rfl | rfl | rfl | rfl |
      rfl | rfl | rfl | rfl | rfl | rfl
    · exact absurd hprefix hdetails
    · exact absurd hprefix hcollage
    · exact absurd hprefix hslideshow
    · exact absurd hprefix haside
    · exact absurd hprefix hmath
    · exact absurd hprefix hfooter
    · exact absurd hprefix hmap
    · exact absurd hprefix hfigure
    · exact absurd hprefix hquote
    · exact absurd hprefix (hlevel 1 (by decide))
    · exact absurd hprefix (hlevel 2 (by decide))
    · exact absurd hprefix (hlevel 3 (by decide))
    · exact absurd hprefix (hlevel 4 (by decide))
    · exact absurd hprefix (hlevel 5 (by decide))
    · exact absurd hprefix (hlevel 6 (by decide))
    · exact absurd (Or.inl hprefix) hp
    · exact absurd (Or.inr hprefix) hp
    · exact absurd hprefix hpre
    · exact List.isPrefixOf_iff_prefix.mp hprefix
    · exact absurd hprefix hul
    · exact absurd hprefix hol
    · exact absurd hprefix htable

/-- From an HTML block on: a line that does not begin anything else. -/
theorem mdBlockTurn_goes (hstuck : ¬ StuckLine line) (htag : ∀ tag, lineTag? line = some tag → tag.Fine line rest)
    (hempty : trim line ≠ []) (hfence : fence.isPrefixOf (trimStart line) = false) (hdiv : trim line ∉ dividers)
    (hhash : line.head? ≠ some '#') (hquote : line.head? ≠ some '>') :
    ∃ r, mdBlockTurn line rest = some r ∧ Goes line rest r := by
  unfold mdBlockTurn
  simp only
  split
  · next tag hfound =>
    obtain ⟨hiff, hgoes⟩ := MdTag.reads line rest tag
    obtain ⟨r, hr⟩ := hiff.mpr (htag tag hfound)
    exact ⟨r, hr, hgoes r hr⟩
  · next hnone =>
    split
    · next hul => exact ⟨_, rfl, goes_of_block (parseUnorderedList_goes hul) _⟩
    · next hul =>
      split
      · next hol =>
        obtain ⟨r, hr, hsuf⟩ : ∃ r, parseOrderedList (line :: rest) = some r ∧ r.2 <:+ rest :=
          parseOrderedList_goes hol hstuck
        rw [hr]
        exact ⟨_, rfl, goes_of_block hsuf _⟩
      · next hol =>
        obtain ⟨table, htable, hgoes⟩ := parseTable_goes line rest
        cases hrow : startsRow line with
        | true =>
          simp only [if_true, htable]
          exact ⟨table, rfl, hgoes⟩
        | false =>
          simp only [Bool.false_eq_true, if_false]
          obtain ⟨media, hmedia⟩ : ∃ media, (if "![](".toList.isPrefixOf (trim line) = true then
              tryParseMediaLine (trim line) else some none) = some media := by
            split
            · exact tryParseMediaLine_isSome _
            · exact ⟨none, rfl⟩
          rw [hmedia]
          cases media with
          | some b => exact ⟨_, rfl, goes_of_block (List.suffix_refl _) b⟩
          | none =>
            have hends : endsParagraph line = false := by
              have hsome : ∀ h : (trimStart line).head? = some '<', mdTag? (trim line) = none := by
                intro h
                rwa [lineTag?, if_pos (by rw [head_trim]; exact h)] at hnone
              unfold endsParagraph
              simp only [Bool.or_eq_false_iff, decide_eq_false_iff_not, Bool.and_eq_false_imp, decide_eq_true_eq]
              refine ⟨⟨⟨⟨⟨⟨⟨⟨hempty, hhash⟩, hquote⟩, Bool.eq_false_iff.mpr hul⟩, Bool.eq_false_iff.mpr hol⟩, hrow⟩, ?_⟩,
                hfence⟩, ?_⟩
              · exact fun h => hdiv (List.mem_append_left (dividers.drop 3) h)
              · intro h
                apply Bool.eq_false_iff.mpr
                intro hblock
                obtain ⟨hhr, hnot⟩ := rule_of_none hblock (hsome h)
                exact hstuck (.rule hhr hnot)
            refine ⟨_, rfl, ?_⟩
            unfold parseParagraph
            rw [List.dropWhile_cons, hends]
            exact goes_of_block (List.dropWhile_suffix _) _

theorem mdLineTurn_goes (hstuck : ¬ StuckLine line) (htag : ∀ tag, lineTag? line = some tag → tag.Fine line rest) :
    ∃ r, mdLineTurn line rest = some r ∧ Goes line rest r := by
  have hskip : Goes line rest ([], rest) := ⟨List.suffix_refl _, fun _ h => absurd h List.not_mem_nil⟩
  unfold mdLineTurn
  simp only
  split
  · exact ⟨_, rfl, hskip⟩
  split
  · exact ⟨_, rfl, hskip⟩
  next hempty =>
  split
  · next hfence => exact ⟨_, rfl, parseCodeBlock_goes hfence⟩
  next hfence =>
  split
  · exact ⟨_, rfl, goes_of_block (upTo_suffix _ rest) _⟩
  split
  · next hmath =>
    obtain ⟨src, hsrc⟩ := dollars_slice hmath.1 hmath.2.1 hmath.2.2
    rw [hsrc]
    exact ⟨_, rfl, goes_of_block (List.suffix_refl _) _⟩
  split
  · exact ⟨_, rfl, goes_of_block (List.suffix_refl _) _⟩
  next hdiv =>
  split
  · obtain ⟨text, htext⟩ := heading_slice line
    rw [htext]
    exact ⟨_, rfl, goes_of_block (List.suffix_refl _) _⟩
  next hheading =>
  split
  · next hquote => exact ⟨_, rfl, parseBlockquote_goes hquote⟩
  next hquote =>
  refine mdBlockTurn_goes hstuck htag hempty (Bool.eq_false_iff.mpr hfence) hdiv (fun hhash => hheading ⟨hhash, ?_⟩) hquote
  exact Nat.le_of_not_lt fun h => hstuck (.heading h)

end

/-! The whole parser. -/

/-- Lines that are not fine fail, or they stay. -/
theorem mdTurn_bad {ls : List (List Char)} (hbad : ¬ MdFine ls) {r : Option (List Piece × List (List Char))}
    (h : mdTurn ls = some r) : ∃ pieces, r = some (pieces, ls) := by
  cases ls with
  | nil => exact absurd trivial hbad
  | cons line rest =>
    by_cases hstuck : StuckLine line
    · obtain ⟨pieces, hturn⟩ := mdTurn_stuck hstuck rest
      rw [mdTurn, hturn, Option.map_some] at h
      exact ⟨pieces, (Option.some.inj h).symm⟩
    · obtain ⟨tag, htag, hnot⟩ : ∃ tag, lineTag? line = some tag ∧ ¬ tag.Fine line rest := by
        by_contra hall
        push Not at hall
        exact hbad ⟨hstuck, hall⟩
      have hlead : (trimStart line).head? = some '<' := by
        unfold lineTag? at htag
        split at htag
        · next hlt => rwa [head_trim] at hlt
        · cases htag
      have hline := head_ne_of_lead hlead (d := '#') (by decide) (by decide)
      rw [mdTurn, mdLineTurn_of_lead hlead (by decide) (fun hh => hline hh.1)] at h
      obtain ⟨r', hr', -⟩ := Option.map_eq_some_iff.mp h
      unfold mdBlockTurn at hr'
      simp only [htag] at hr'
      exact absurd ((MdTag.reads line rest tag).1.mp ⟨r', hr'⟩) hnot

theorem mdTurn_good {ls : List (List Char)} (hfine : MdFine ls) : ∃ r, mdTurn ls = some r ∧ ∀ pieces rest,
    r = some (pieces, rest) → linesSize rest < linesSize ls ∧
      ∀ p ∈ pieces, ∀ body, p.body? = some body → linesSize (lines body) < linesSize ls := by
  cases ls with
  | nil => exact ⟨none, rfl, fun _ _ h => nomatch h⟩
  | cons line rest =>
    obtain ⟨r, hr, hsuf, hbody⟩ := mdLineTurn_goes hfine.1 hfine.2
    refine ⟨some r, by rw [mdTurn, hr, Option.map_some], fun pieces rest' h => ?_⟩
    obtain rfl := Option.some.inj h
    refine ⟨?_, hbody⟩
    have hle := linesSize_suffix hsuf
    rw [linesSize_cons]
    show linesSize rest' < _
    have hle : linesSize rest' ≤ linesSize rest := hle
    omega

/-- The markdown parser is total on a text exactly if, in its run, the loop meets fine lines only and every inline
    tag is fine. -/
theorem parseRichMarkdown_total_iff (text : List Char) : Total lines mdTurn linesSize text ↔
    ∀ s, Reached (blockNext lines mdTurn) (.inl (lines text)) s → Sum.elim MdFine InlineState.Fine s :=
  total_iff (fun _ => mdTurn_good) (fun _ hbad _ => mdTurn_bad hbad) text

/-- A rule in capitals: the loop stays at it. A `details` block on one line: the slice of its body fails. -/
theorem parseRichMarkdown_not_total :
    (mdTurn (lines "<HR>".toList) = some (some ([.block (.paragraph (.md []))], lines "<HR>".toList)) ∧
      (∀ fuel, parseRichMarkdown fuel "<HR>".toList = none) ∧ ¬ Total lines mdTurn linesSize "<HR>".toList) ∧
    mdTurn (lines "<details>x</details>".toList) = none ∧
      ¬ Total lines mdTurn linesSize "<details>x</details>".toList := by
  have hstay : mdTurn (lines "<HR>".toList) = some (some ([.block (.paragraph (.md []))], lines "<HR>".toList)) := rfl
  have hfail : mdTurn (lines "<details>x</details>".toList) = none := rfl
  exact ⟨⟨hstay, parseBlocks_of_stay hstay, not_total_of_stay hstay⟩, hfail, not_total_of_fail hfail⟩

end Ferogram.Parsers.Rich
