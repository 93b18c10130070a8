import Ferogram.Lib.TagStack
import Ferogram.Parsers.Placed

/- MarkdownV2, both ways. `parseMarkdownV2` walks the characters once: at a
   line start it looks for a quote mark, then it tries escapes, code blocks,
   inline code, custom emoji, links, the style delimiters and a plain character,
   in this order. `generateMarkdownV2` splices the delimiters of the entities
   into the text, escaping what is not verbatim and prefixing quoted lines. -/
namespace Ferogram.Parsers
open Splice TagStack

/-! Parsing. -/

def isV2Escapable (c : Char) : Bool :=
  c ∈ ['_', '*', '[', ']', '(', ')', '~', '\\', '`', '>', '#', '+', '-', '=', '|', '\x7b', '\x7d', '.', '!']

inductive MarkdownTagV2 where
  | bold
  | italic
  | underline
  | strike
  | spoiler
deriving DecidableEq

def MarkdownTagV2.kind : MarkdownTagV2 → EntityKind
  | .bold => .bold
  | .italic => .italic
  | .underline => .underline
  | .strike => .strike
  | .spoiler => .spoiler

def makeEntityV2 (tag : MarkdownTagV2) (offset length : Int32) : MessageEntity := ⟨offset, length, tag.kind⟩

def makeBlockquote (offset length : Int32) (collapsed : Bool) : MessageEntity :=
  ⟨offset, length, .blockquote collapsed⟩

structure MdState where
  out : List Char
  ents : List MessageEntity
  openStack : List (MarkdownTagV2 × Int32)
  utf16Off : Int32
  bqStartOff : Option Int32
  bqCollapsed : Bool
  atLineStart : Bool
deriving DecidableEq

namespace MdState

def init : MdState :=
  { out := [], ents := [], openStack := [], utf16Off := 0, bqStartOff := none, bqCollapsed := false,
    atLineStart := true }

def pushChar (s : MdState) (c : Char) : MdState :=
  { s with out := s.out ++ [c], utf16Off := s.utf16Off + Int32.ofNat (lenUtf16 c) }

def pushStr (s : MdState) (text : List Char) : MdState := text.foldl pushChar s

def pushEnt (s : MdState) (e : MessageEntity) : MdState := { s with ents := s.ents ++ [e] }

/-- Closes the quote that is open, if one is; an empty one leaves no entity. -/
def closeQuote (s : MdState) : MdState :=
  match s.bqStartOff with
  | none => s
  | some startOff =>
    let length := s.utf16Off - startOff
    let s := if 0 < length then s.pushEnt (makeBlockquote startOff length s.bqCollapsed) else s
    { s with bqStartOff := none }

/-- A quote mark: opens a quote, goes on with one of its type, or closes one of the other type first. -/
def openQuote (s : MdState) (collapsed : Bool) : MdState :=
  if s.bqStartOff = none ∨ s.bqCollapsed ≠ collapsed then
    { s.closeQuote with bqStartOff := some s.utf16Off, bqCollapsed := collapsed }
  else s

/-- `toggle_tag_v2`. -/
def toggleTagV2 (s : MdState) (tag : MarkdownTagV2) : MdState :=
  match removeLast (fun t => t.1 = tag) s.openStack with
  | some ((_, startOff), stack) =>
    let length := s.utf16Off - startOff
    let s := { s with openStack := stack }
    if 0 < length then s.pushEnt (makeEntityV2 tag startOff length) else s
  | none => { s with openStack := s.openStack ++ [(tag, s.utf16Off)] }

end MdState

/-- The quote mark at a line start: whether it is the expandable one, and what follows. -/
def quoteMark : List Char → Option (Bool × List Char)
  | '*' :: '*' :: '>' :: rest => some (true, rest)
  | '>' :: rest => some (false, rest)
  | _ => none

def skipSpace : List Char → List Char
  | ' ' :: rest => rest
  | rest => rest

/-- Up to the next fence of three backticks, and after it. -/
def splitFence : List Char → Option (List Char × List Char)
  | [] => none
  | c :: rest =>
    match c, rest with
    | '`', '`' :: '`' :: after => some ([], after)
    | _, _ => (splitFence rest).map fun r => (c :: r.1, r.2)

/-- The language line and the code of a block. -/
def splitBlock (block : List Char) : List Char × List Char :=
  match splitAtChar '\n' block with
  | some (lang, code) => (trim lang, trimEndMatches (· == '\n') code)
  | none => ([], block)

/-- The label up to the bracket that closes it, brackets inside it counted, and what follows. -/
def splitLabel : Nat → List Char → Option (List Char × List Char)
  | _, [] => none
  | depth, c :: rest =>
    if c = '[' then (splitLabel (depth + 1) rest).map fun r => (c :: r.1, r.2)
    else if c = ']' then
      if depth = 1 then some ([], rest) else (splitLabel (depth - 1) rest).map fun r => (c :: r.1, r.2)
    else (splitLabel depth rest).map fun r => (c :: r.1, r.2)

/-- The target in parentheses after a label, and what follows. -/
def splitTarget : List Char → Option (List Char × List Char)
  | '(' :: rest => splitAtChar ')' rest
  | _ => none

def emojiPrefix : List Char := "tg://emoji?id=".toList

/-- `parse_emoji_link`, from behind the `![`: the label, the document and what follows. -/
def parseEmojiLink (chars : List Char) : Option (List Char × Int64 × List Char) := do
  let (label, rest) ← splitAtChar ']' chars
  let (url, rest) ← splitTarget rest
  let docId ← (stripPrefix emojiPrefix url).bind parseI64
  some (label, docId, rest)

/-- The kind of entity a link makes: a mention if its target is one. -/
def linkKind (url : List Char) : EntityKind :=
  match (stripPrefix mentionPrefix url).bind parseI64 with
  | some uid => .mentionName uid
  | none => .textUrl url

/-- `parse_link_entity`, from behind the `[`: the label, the kind and what follows. -/
def parseLinkEntity (chars : List Char) : Option (List Char × EntityKind × List Char) := do
  let (label, rest) ← splitLabel 1 chars
  let (url, rest) ← splitTarget rest
  some (label, linkKind url, rest)

namespace MdState

/-- Text that is one entity as a whole. -/
def pushSpan (s : MdState) (text : List Char) (kind : EntityKind) : MdState :=
  (s.pushStr text).pushEnt ⟨s.utf16Off, (s.pushStr text).utf16Off - s.utf16Off, kind⟩

def readEscape (s : MdState) : List Char → Option (MdState × List Char)
  | '\\' :: c :: rest => if isV2Escapable c then some (s.pushChar c, rest) else none
  | _ => none

def readCodeBlock (s : MdState) : List Char → Option (MdState × List Char)
  | '`' :: '`' :: '`' :: chars =>
    (splitFence chars).map fun (block, rest) =>
      let (lang, code) := splitBlock block
      ((s.pushEnt ⟨s.utf16Off, Int32.ofNat (utf16Len code), .pre lang⟩).pushStr code, rest)
  | _ => none

def readInlineCode (s : MdState) : List Char → Option (MdState × List Char)
  | '`' :: chars =>
    (splitAtChar '`' chars).map fun (code, rest) =>
      ((s.pushEnt ⟨s.utf16Off, Int32.ofNat (utf16Len code), .code⟩).pushStr code, rest)
  | _ => none

def readEmoji (s : MdState) : List Char → Option (MdState × List Char)
  | '!' :: '[' :: chars =>
    (parseEmojiLink chars).map fun (label, docId, rest) => (s.pushSpan label (.customEmoji docId), rest)
  | _ => none

def readLink (s : MdState) : List Char → Option (MdState × List Char)
  | '[' :: chars => (parseLinkEntity chars).map fun (label, kind, rest) => (s.pushSpan label kind, rest)
  | _ => none

def readTwoCharTag (s : MdState) : List Char → Option (MdState × List Char)
  | '*' :: '*' :: rest => some (s.toggleTagV2 .bold, rest)
  | '_' :: '_' :: rest => some (s.toggleTagV2 .underline, rest)
  | '|' :: '|' :: rest => some (s.toggleTagV2 .spoiler, rest)
  | _ => none

def readOneCharTag (s : MdState) : List Char → Option (MdState × List Char)
  | '*' :: rest => some (s.toggleTagV2 .bold, rest)
  | '_' :: rest => some (s.toggleTagV2 .italic, rest)
  | '~' :: rest => some (s.toggleTagV2 .strike, rest)
  | _ => none

def readPlain (s : MdState) : List Char → MdState × List Char
  | [] => (s, [])
  | c :: rest => ({ s.pushChar c with atLineStart := c = '\n' }, rest)

/-- What is not a quote mark, once the line start has been dealt with. -/
def readInline (s : MdState) (chars : List Char) : MdState × List Char :=
  ((s.readEscape chars <|> s.readCodeBlock chars <|> s.readInlineCode chars <|> s.readEmoji chars <|>
    s.readLink chars <|> s.readTwoCharTag chars <|> s.readOneCharTag chars)).getD (s.readPlain chars)

/-- Past a line start that opens no quote. -/
def leaveLineStart (s : MdState) : MdState :=
  if s.atLineStart then { s.closeQuote with atLineStart := false } else s

/-- One round of the loop. -/
def step (s : MdState) (chars : List Char) : MdState × List Char :=
  match if s.atLineStart then quoteMark chars else none with
  | some (collapsed, rest) => ({ s.openQuote collapsed with atLineStart := false }, skipSpace rest)
  | none => s.leaveLineStart.readInline chars

/-- The loop; every round takes a character at least. -/
def loop : Nat → MdState → List Char → MdState
  | _, s, [] => s
  | 0, s, _ :: _ => s
  | fuel + 1, s, c :: chars => loop fuel (s.step (c :: chars)).1 (s.step (c :: chars)).2

end MdState

def parseMarkdownV2 (text : List Char) : List Char × List MessageEntity :=
  let s := (MdState.loop text.length .init text).closeQuote
  (s.out, s.ents)

def parseMarkdown (text : List Char) : List Char × List MessageEntity := parseMarkdownV2 text

/-! Generating. -/

/-- The delimiters inserted around an entity. -/
def insertion (e : MessageEntity) : Option (List Char × List Char) :=
  match e.kind with
  | .bold => some (['*'], ['*'])
  | .italic => some (['_'], ['_'])
  | .underline => some (['_', '_'], ['_', '_'])
  | .strike => some (['~'], ['~'])
  | .spoiler => some (['|', '|'], ['|', '|'])
  | .code => some (['`'], ['`'])
  | .pre language => some (['`', '`', '`'] ++ trim language ++ ['\n'], ['\n', '`', '`', '`'])
  | .textUrl url => some (['['], [']', '('] ++ url ++ [')'])
  | .mentionName userId => some (['['], [']', '('] ++ mentionPrefix ++ Decimal.format userId.toInt ++ [')'])
  | .customEmoji documentId =>
    some (['!', '['], [']', '('] ++ emojiPrefix ++ Decimal.format documentId.toInt ++ [')'])
  | _ => none

def MessageEntity.Holds (e : MessageEntity) (pos : Int32) : Prop := e.offset ≤ pos ∧ pos < e.stop

instance (e : MessageEntity) (pos : Int32) : Decidable (e.Holds pos) := inferInstanceAs (Decidable (_ ∧ _))

def EntityKind.isVerbatim : EntityKind → Bool
  | .code => true
  | .pre _ => true
  | _ => false

def EntityKind.quote? : EntityKind → Option Bool
  | .blockquote collapsed => some collapsed
  | _ => none

/-- The type of the first quote that holds a position. -/
def quoteAt (entities : List MessageEntity) (pos : Int32) : Option Bool :=
  (entities.find? fun e => e.kind.quote?.isSome ∧ e.Holds pos).bind fun e => e.kind.quote?

def inVerbatim (entities : List MessageEntity) (pos : Int32) : Bool :=
  entities.any fun e => e.kind.isVerbatim ∧ e.Holds pos

structure MdWriter where
  utf16Pos : Int32
  atLineStart : Bool

/-- The prefix of a quoted line. -/
def quotePrefix : Option Bool → List Char
  | some true => ['*', '*', '>', ' ']
  | some false => ['>', ' ']
  | none => []

/-- What is written for a character besides the insertions. -/
def MdWriter.body (entities : List MessageEntity) (w : MdWriter) (c : Char) : List Char :=
  (if w.atLineStart then quotePrefix (quoteAt entities w.utf16Pos) else []) ++
    (if !inVerbatim entities w.utf16Pos && isV2Escapable c then ['\\', c] else [c])

def MdWriter.next (w : MdWriter) (c : Char) : MdWriter :=
  { utf16Pos := w.utf16Pos + Int32.ofNat (lenUtf16 c), atLineStart := c = '\n' }

def generateMarkdownV2 (text : List Char) (entities : List MessageEntity) : List Char :=
  splice (fun w : MdWriter => w.utf16Pos.toInt) MdWriter.next (MdWriter.body entities)
    { utf16Pos := 0, atLineStart := true } (entityMarkers insertion entities) text

def generateMarkdown (text : List Char) (entities : List MessageEntity) : List Char :=
  generateMarkdownV2 text entities

end Ferogram.Parsers
