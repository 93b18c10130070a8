import Ferogram.Parsers.RichInline

/- What the parsers of rich markdown and of rich HTML share: media, the helpers
   that cut a text out between two tags, and figures. The helpers look for a text
   in lower case and cut the original at the position found, which is a boundary
   of both; none of them fails. A figure fails where the attributes of its map are
   not read. -/
namespace Ferogram.Parsers.Rich
open Str Descent

/-! Texts that are still to be parsed. -/

inductive Inline where
  | md (text : List Char)
  | html (text : List Char)
  | done (rt : RichText)

/-- A block with its texts, a `details` block with the text of its blocks, or texts that are parsed for nothing. -/
inductive Piece where
  | block (b : Block Inline)
  | details (isOpen : Bool) (title : Inline) (body : List Char)
  | dropped (texts : List Inline)

def Piece.texts : Piece → List Inline
  | .block b => b.texts
  | .details _ title _ => [title]
  | .dropped texts => texts

def Piece.body? : Piece → Option (List Char)
  | .details _ _ body => some body
  | _ => none

def emptyCaption : Caption Inline := ⟨.done .empty, .done .empty⟩

def captionText (text : Inline) : Caption Inline := ⟨text, .done .empty⟩

def captionTextCredit (text credit : Inline) : Caption Inline := ⟨text, credit⟩

/-! Media. -/

inductive MediaKind where
  | photo
  | video
  | audio
  | voice
  | animation
deriving DecidableEq

def endsWithAny (path : List Char) (extensions : List String) : Bool :=
  extensions.any fun e => e.toList.isSuffixOf path

def mediaKindFromUrl (url : List Char) : MediaKind :=
  let path := (toAsciiLowercase url).takeWhile (· ≠ '?')
  if endsWithAny path [".ogg", ".oga"] then .voice
  else if endsWithAny path [".mp3", ".m4a", ".flac", ".wav"] then .audio
  else if endsWithAny path [".gif"] then .animation
  else if endsWithAny path [".mp4", ".mov", ".webm", ".avi"] then .video
  else .photo

def media (url : List Char) (spoiler : Bool) : Media :=
  match mediaKindFromUrl url with
  | .photo => .photo url spoiler
  | .video | .animation => .video spoiler
  | .audio | .voice => .audio

def mediaBlock (url : List Char) (caption : Caption Inline) (spoiler : Bool) : Block Inline :=
  .media (media url spoiler) caption

/-- The latitude, the longitude and the zoom of a map. -/
def mapBlock (attrs : List (List Char × List Char)) (caption : Caption Inline) : Block Inline :=
  .map (attr "lat".toList attrs) (attr "long".toList attrs) (((attr "zoom".toList attrs).bind parseI32).getD 15) caption

/-! Cutting texts out. -/

def splitCite (html : List Char) : Option (List Char × List Char) :=
  match findStr "<cite>".toList (toAsciiLowercase html) with
  | some citeStart => do
    let text ← sliceTo html citeStart
    let after ← sliceFrom html (citeStart + byteLen "<cite>".toList)
    let credit ←
      match findStr "</cite>".toList (toAsciiLowercase after) with
      | some i => sliceTo after i
      | none => some after
    some (text, credit)
  | none => some (html, [])

def extractBetween (s opn close : List Char) : Option (Option (List Char)) :=
  let lo := toAsciiLowercase s
  match findStr (toAsciiLowercase opn) lo with
  | none => some none
  | some i => do
    let start := i + byteLen opn
    let rest ← sliceFrom lo start
    match findStr (toAsciiLowercase close) rest with
    | none => some none
    | some j => (slice s start (start + j)).map some

def extractAttrValue (tagBody name : List Char) : Option (Option (List Char)) :=
  let needle := name ++ ['=', '"']
  match findStr needle tagBody with
  | none => some none
  | some i => do
    let start := i + byteLen needle
    let rest ← sliceFrom tagBody start
    match find (· == '"') rest with
    | none => some none
    | some j => (slice tagBody start (j + start)).map some

/-- The first source among the parts of a figure. -/
def firstSrc : List (List Char) → Option (Option (List Char))
  | [] => some none
  | part :: parts =>
    if "img ".toList.isPrefixOf part ∨ "video ".toList.isPrefixOf part ∨ "audio ".toList.isPrefixOf part then do
      match ← extractAttrValue part "src".toList with
      | some src => some (some src)
      | none => firstSrc parts
    else firstSrc parts

def extractSrcFromFigure (html : List Char) : Option (Option (List Char)) := firstSrc (html.splitOn '<')

def extractCollageItems (html : List Char) : Option (List Media × Option (Caption Inline)) := do
  let parts := (html.splitOn '<').filter fun part => "img ".toList.isPrefixOf part ∨ "video ".toList.isPrefixOf part
  let srcs ← parts.mapM fun part => extractAttrValue part "src".toList
  let caption ←
    match ← extractBetween html "<figcaption>".toList "</figcaption>".toList with
    | some c => (splitCite c).map fun (t, cr) => some (captionTextCredit (.md t) (.md cr))
    | none => some none
  some ((srcs.filterMap id).map (media · false), caption)

def extractTagBody (html tag : List Char) : Option (List Char) := do
  let lo := toAsciiLowercase html
  let start := (findStr ('<' :: tag) lo).getD 0
  let opened ← sliceFrom html start
  let afterOpen :=
    match find (· == '>') opened with
    | some i => start + i + 1
    | none => byteLen html
  let stop := (rfindStr (closeTag tag) lo).getD (byteLen html)
  slice html (min afterOpen stop) stop

def extractPreContent (html : List Char) : Option (List Char × List Char) := do
  match ← extractBetween html "class=\"language-".toList ['"'] with
  | some lang => do
    let code ←
      match ← extractBetween html ['>'] "</code>".toList with
      | some code => some (some code)
      | none => extractBetween html "<code".toList "</code>".toList
    let code := code.getD []
    some (lang, (stripPrefix ['>'] (code.dropWhile (· ≠ '>'))).getD code)
  | none => (extractTagBody html "pre".toList).map fun code => ([], code)

def extractTitleFromUrlPart (s : List Char) : Option (List Char) :=
  match findStr [' ', '"'] s with
  | some q => do
    let after ← sliceFrom s (q + 2)
    match rfindStr ['"'] after with
    | some close => sliceTo after close
    | none => some []
  | none => some []

def headingName (level : Nat) : List Char := ['h', Nat.digitChar level]

/-! Blocks. -/

/-- The tags at which a block begins. -/
def blockTags : List String :=
  ["<details", "<tg-collage", "<tg-slideshow", "<aside", "<tg-math-block", "<footer", "<tg-map", "<figure",
    "<blockquote", "<h1", "<h2", "<h3", "<h4", "<h5", "<h6", "<p>", "<p ", "<pre", "<hr", "<ul", "<ol", "<table"]

def isBlockHtmlTag (s : List Char) : Bool := blockTags.any fun tag => tag.toList.isPrefixOf (toAsciiLowercase s)

def headingBlock (level : Nat) (text : Inline) : Block Inline := .heading (if level ≤ 5 then level else 6) text

def hasAttr (name : List Char) (attrs : List (List Char × List Char)) : Bool := attrs.any (·.1 = name)

def summaryClose : List Char := "</summary>".toList

/-- Where the body starts: behind the summary, or at the end. -/
def bodyStart (full : List Char) : Nat :=
  match findStr summaryClose full with
  | some i => i + byteLen summaryClose
  | none => byteLen full

/-- What is made of a figure; `inline` says in which language its caption is. -/
def figureBlocks (inline : List Char → Inline) (hasMap : Bool) (content : List Char) : Option (List Piece) := do
  let captionRaw := (← extractBetween content "<figcaption>".toList "</figcaption>".toList).getD []
  let (text, credit) ← splitCite captionRaw
  let caption := if text = [] then emptyCaption else captionTextCredit (inline text) (inline credit)
  let spoiler := decide ("tg-spoiler".toList <:+: content)
  if hasMap then do
    let part := (← extractBetween content "<tg-map".toList "/>".toList).getD []
    let (_, attrs) ← Sliced.parseTag ("tg-map ".toList ++ part)
    some [.block (mapBlock attrs caption)]
  else do
    match ← extractSrcFromFigure content with
    | some url => some [.block (mediaBlock url caption spoiler)]
    | none => some [.dropped caption.texts]

/-! No helper fails. -/

theorem gt_utf8Size : ∀ c : Char, (c == '>') = true → c.utf8Size = 1 := by
  intro c h
  rw [beq_iff_eq.mp h]
  rfl

theorem splitCite_isSome (html : List Char) : ∃ r, splitCite html = some r := by
  unfold splitCite
  cases hcite : findStr "<cite>".toList (toAsciiLowercase html) with
  | none => exact ⟨_, rfl⟩
  | some citeStart =>
    obtain ⟨hstart, hend⟩ := boundary_findStr hcite
    obtain ⟨text, htext⟩ := (boundary_lower.mp hstart).sliceTo
    obtain ⟨after, hafter⟩ := (boundary_lower.mp hend).sliceFrom
    simp only [htext, hafter, Option.bind_eq_bind, Option.bind_some]
    cases hclose : findStr "</cite>".toList (toAsciiLowercase after) with
    | none => exact ⟨_, rfl⟩
    | some i =>
      obtain ⟨credit, hcredit⟩ := (boundary_lower.mp (boundary_findStr hclose).1).sliceTo
      exact ⟨(text, credit), by simp only [hcredit, Option.bind_some]⟩

theorem extractBetween_isSome (s opn close : List Char) : ∃ r, extractBetween s opn close = some r := by
  unfold extractBetween
  simp only
  cases hopen : findStr (toAsciiLowercase opn) (toAsciiLowercase s) with
  | none => exact ⟨none, rfl⟩
  | some i =>
    have hstart := (boundary_findStr hopen).2
    rw [byteLen_toAsciiLowercase] at hstart
    obtain ⟨rest, hrest⟩ := hstart.sliceFrom
    simp only [hrest, Option.bind_eq_bind, Option.bind_some]
    cases hclose : findStr (toAsciiLowercase close) rest with
    | none => exact ⟨none, rfl⟩
    | some j =>
      have hend := Boundary.add hrest (boundary_findStr hclose).1
      obtain ⟨t, ht⟩ := (boundary_lower.mp hstart).slice (boundary_lower.mp hend) (Nat.le_add_right _ _)
      exact ⟨some t, by simp only [ht, Option.map_some]⟩

theorem extractAttrValue_isSome (tagBody name : List Char) : ∃ r, extractAttrValue tagBody name = some r := by
  unfold extractAttrValue
  simp only
  cases hneedle : findStr (name ++ ['=', '"']) tagBody with
  | none => exact ⟨none, rfl⟩
  | some i =>
    obtain ⟨-, hstart⟩ := boundary_findStr hneedle
    obtain ⟨rest, hrest⟩ := hstart.sliceFrom
    simp only [hrest, Option.bind_eq_bind, Option.bind_some]
    cases hclose : find (· == '"') rest with
    | none => exact ⟨none, rfl⟩
    | some j =>
      have hend := Boundary.add hrest (boundary_find hclose).1
      rw [Nat.add_comm] at hend
      obtain ⟨t, ht⟩ := hstart.slice hend (Nat.le_add_left _ _)
      exact ⟨some t, by simp only [ht, Option.map_some]⟩

theorem firstSrc_isSome : ∀ parts : List (List Char), ∃ r, firstSrc parts = some r
  | [] => ⟨none, rfl⟩
  | part :: parts => by
    unfold firstSrc
    split
    · obtain ⟨src, hsrc⟩ := extractAttrValue_isSome part "src".toList
      rw [hsrc]
      cases src with
      | none => exact firstSrc_isSome parts
      | some src => exact ⟨_, rfl⟩
    · exact firstSrc_isSome parts

theorem extractCollageItems_isSome (html : List Char) : ∃ r, extractCollageItems html = some r := by
  unfold extractCollageItems
  simp only
  have hsrcs := (Rich.mapM_isSome (fun part => extractAttrValue part "src".toList)
    ((html.splitOn '<').filter fun part => "img ".toList.isPrefixOf part ∨ "video ".toList.isPrefixOf part)).mpr
      fun part _ => Option.isSome_iff_exists.mpr (extractAttrValue_isSome part _)
  obtain ⟨srcs, hsrcs⟩ := Option.isSome_iff_exists.mp hsrcs
  obtain ⟨caption, hcaption⟩ := extractBetween_isSome html "<figcaption>".toList "</figcaption>".toList
  rw [hsrcs]
  simp only [hcaption, Option.bind_eq_bind, Option.bind_some]
  cases caption with
  | none => exact ⟨_, rfl⟩
  | some c =>
    obtain ⟨r, hr⟩ := splitCite_isSome c
    simp only [hr, Option.map_some, Option.bind_some]
    exact ⟨_, rfl⟩

theorem extractTagBody_isSome (html tag : List Char) : ∃ body, extractTagBody html tag = some body := by
  unfold extractTagBody
  have hstart : Boundary html ((findStr ('<' :: tag) (toAsciiLowercase html)).getD 0) := by
    cases hopen : findStr ('<' :: tag) (toAsciiLowercase html) with
    | none => exact Boundary.zero html
    | some i => exact boundary_lower.mp (boundary_findStr hopen).1
  have hstop : Boundary html ((rfindStr (closeTag tag) (toAsciiLowercase html)).getD (byteLen html)) := by
    cases hclose : rfindStr (closeTag tag) (toAsciiLowercase html) with
    | none => exact Boundary.byteLen html
    | some i => exact boundary_lower.mp (boundary_rfindStr hclose)
  obtain ⟨opened, hopened⟩ := hstart.sliceFrom
  simp only [hopened, Option.bind_eq_bind, Option.bind_some]
  have hmin : ∀ n, Boundary html n →
      Boundary html (min n ((rfindStr (closeTag tag) (toAsciiLowercase html)).getD (byteLen html))) := by
    intro n hn
    rcases min_choice n ((rfindStr (closeTag tag) (toAsciiLowercase html)).getD (byteLen html)) with h | h
    · rw [h]
      exact hn
    · rw [h]
      exact hstop
  apply Boundary.slice _ hstop (Nat.min_le_right _ _)
  apply hmin
  cases hgt : find (· == '>') opened with
  | none => exact Boundary.byteLen html
  | some i =>
    show Boundary html ((findStr ('<' :: tag) (toAsciiLowercase html)).getD 0 + (i + 1))
    exact Boundary.add hopened ((boundary_find hgt).2 gt_utf8Size)

theorem extractPreContent_isSome (html : List Char) : ∃ r, extractPreContent html = some r := by
  unfold extractPreContent
  obtain ⟨lang, hlang⟩ := extractBetween_isSome html "class=\"language-".toList ['"']
  rw [hlang]
  cases lang with
  | none =>
    obtain ⟨body, hbody⟩ := extractTagBody_isSome html "pre".toList
    exact ⟨([], body), by simp only [hbody, Option.bind_eq_bind, Option.bind_some, Option.map_some]⟩
  | some lang =>
    obtain ⟨code, hcode⟩ := extractBetween_isSome html ['>'] "</code>".toList
    obtain ⟨code', hcode'⟩ := extractBetween_isSome html "<code".toList "</code>".toList
    simp only [hcode, hcode', Option.bind_eq_bind, Option.bind_some]
    cases code <;> exact ⟨_, rfl⟩

theorem extractTitleFromUrlPart_isSome (s : List Char) : ∃ title, extractTitleFromUrlPart s = some title := by
  unfold extractTitleFromUrlPart
  cases hq : findStr [' ', '"'] s with
  | none => exact ⟨[], rfl⟩
  | some q =>
    obtain ⟨after, hafter⟩ := (boundary_findStr hq).2.sliceFrom
    rw [show byteLen [' ', '"'] = 2 from rfl] at hafter
    simp only [hafter, Option.bind_eq_bind, Option.bind_some]
    cases hclose : rfindStr ['"'] after with
    | none => exact ⟨[], rfl⟩
    | some close => exact (boundary_rfindStr hclose).sliceTo

theorem bodyStart_boundary (full : List Char) : Boundary full (bodyStart full) := by
  unfold bodyStart
  cases hsum : findStr summaryClose full with
  | none => exact Boundary.byteLen _
  | some i => exact (boundary_findStr hsum).2

/-! Where a block begins. -/

theorem head_of_isPrefixOf {pat s : List Char} {c : Char} (h : pat.isPrefixOf s = true) (hpat : pat.head? = some c) :
    s.head? = some c := by
  obtain ⟨t, rfl⟩ := List.isPrefixOf_iff_prefix.mp h
  rw [List.head?_append, hpat]
  rfl

theorem head_of_lower_prefix {pat s : List Char} (h : pat.isPrefixOf (toAsciiLowercase s) = true)
    (hpat : pat.head? = some '<') : s.head? = some '<' := by
  have hlt := head_of_isPrefixOf h hpat
  cases s with
  | nil => cases hlt
  | cons c s =>
    have hc : c.toLower = '<' := Option.some.inj hlt
    rw [(toLower_eq_iff (by decide)).mp hc]
    rfl

theorem head_of_block {s : List Char} (h : isBlockHtmlTag s = true) : s.head? = some '<' := by
  have hall : ∀ tag ∈ blockTags, tag.toList.head? = some '<' := by decide
  obtain ⟨tag, hmem, hprefix⟩ := List.any_eq_true.mp h
  exact head_of_lower_prefix hprefix (hall tag hmem)

/-! Figures. -/

/-- The attributes of a tag are read. -/
def TagRead (text : List Char) : Prop := Sliced.AttrsFine ((text.dropWhile (!isWhitespace ·)).drop 1)

/-- The attributes of a map in the figure are read. -/
def FigureFine (hasMap : Bool) (content : List Char) : Prop :=
  hasMap = true → ∀ part, extractBetween content "<tg-map".toList "/>".toList = some part →
    TagRead ("tg-map ".toList ++ part.getD [])

theorem figureBlocks_isSome_iff (inline : List Char → Inline) (hasMap : Bool) (content : List Char) :
    (∃ pieces, figureBlocks inline hasMap content = some pieces) ↔ FigureFine hasMap content := by
  obtain ⟨raw, hraw⟩ := extractBetween_isSome content "<figcaption>".toList "</figcaption>".toList
  obtain ⟨cite, hcite⟩ := splitCite_isSome (raw.getD [])
  obtain ⟨part, hpart⟩ := extractBetween_isSome content "<tg-map".toList "/>".toList
  obtain ⟨src, hsrc⟩ : ∃ src, extractSrcFromFigure content = some src := firstSrc_isSome _
  have hread := Sliced.parseTag_isSome_iff ("tg-map ".toList ++ part.getD [])
  unfold figureBlocks FigureFine TagRead
  simp only [hraw, hcite, hpart, hsrc, Option.bind_eq_bind, Option.bind_some, Option.some.injEq, forall_eq', ← hread]
  cases hasMap with
  | false => cases src <;> simp
  | true => cases Sliced.parseTag ("tg-map ".toList ++ part.getD []) <;> simp

theorem figureBlocks_body {inline : List Char → Inline} {hasMap : Bool} {content : List Char} {pieces : List Piece}
    (h : figureBlocks inline hasMap content = some pieces) : ∀ p ∈ pieces, p.body? = none := by
  unfold figureBlocks at h
  obtain ⟨raw, -, h⟩ := Option.bind_eq_some_iff.mp h
  obtain ⟨cite, -, h⟩ := Option.bind_eq_some_iff.mp h
  intro p hp
  cases hasMap with
  | true =>
    obtain ⟨part, -, h⟩ := Option.bind_eq_some_iff.mp h
    obtain ⟨tag, -, h⟩ := Option.bind_eq_some_iff.mp h
    obtain rfl := Option.some.inj h
    rw [List.mem_singleton.mp hp]
    rfl
  | false =>
    obtain ⟨src, -, h⟩ := Option.bind_eq_some_iff.mp h
    cases src with
    | none =>
      obtain rfl := Option.some.inj h
      rw [List.mem_singleton.mp hp]
      rfl
    | some url =>
      obtain rfl := Option.some.inj h
      rw [List.mem_singleton.mp hp]
      rfl

end Ferogram.Parsers.Rich
