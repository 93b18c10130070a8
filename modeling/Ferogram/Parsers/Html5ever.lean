import Ferogram.Parsers.HtmlRead

/- The other `parse_html`, over the tokenizer of html5ever, which is a parameter here: what
   the sink does with each token. An open tag puts an entity of length 0 into the result; a
   close tag looks for the last entity of its kind there, and gives it its length.

   `Spells` says that the built-in parser, too, finds these tokens in a string
   (`HtmlState.run_spells`); what is left to compare is what the two do with them. -/
namespace Ferogram.Parsers
open TagStack

/-- What the tokenizer hands over; `other` are the tokens that are ignored. -/
inductive Token where
  | startTag (name : List Char) (attrs : List (List Char × List Char))
  | endTag (name : List Char)
  | characters (text : List Char)
  | other
deriving DecidableEq

/-- The constructors of `MessageEntity`. -/
inductive Variant where
  | bold
  | italic
  | underline
  | strike
  | spoiler
  | code
  | pre
  | textUrl
  | mentionName
  | customEmoji
  | blockquote
  | formattedDate
  | other
deriving DecidableEq

def EntityKind.variant : EntityKind → Variant
  | .bold => .bold
  | .italic => .italic
  | .underline => .underline
  | .strike => .strike
  | .spoiler => .spoiler
  | .code => .code
  | .pre _ => .pre
  | .textUrl _ => .textUrl
  | .mentionName _ => .mentionName
  | .customEmoji _ => .customEmoji
  | .blockquote _ => .blockquote
  | .formattedDate _ _ => .formattedDate
  | .other _ => .other

def MessageEntity.variant (e : MessageEntity) : Variant := e.kind.variant

/-- The language that a `<code>` names. -/
def codeLanguage (attrs : List (List Char × List Char)) : List Char :=
  ((attr "class".toList attrs).bind (stripPrefix "language-".toList)).getD []

structure Sink where
  text : List Char
  entities : List MessageEntity
  offset : Int32
deriving DecidableEq

/-! The tags. Their names are compared by one instance here. -/

section

local instance lawfulBEq_name : LawfulBEq (List Char) := inferInstance

/-- The tag that the built-in parser puts on its stack, for the supported tags. -/
def elementTag (name : List Char) (attrs : List (List Char × List Char)) : Option HtmlTag :=
  if name ∈ ["b".toList, "strong".toList] then some .bold
  else if name ∈ ["i".toList, "em".toList] then some .italic
  else if name ∈ ["u".toList, "ins".toList] then some .underline
  else if name ∈ ["s".toList, "del".toList, "strike".toList] then some .strike
  else if name = "tg-spoiler".toList then some .spoiler
  else if name = "span".toList then
    if attrs.any fun a => a.1 = "class".toList ∧ a.2 = "tg-spoiler".toList then some .spanSpoiler else none
  else if name = "blockquote".toList then some (.blockquote (attrs.any fun a => a.1 = "expandable".toList))
  else if name = "tg-time".toList then
    some (.tgTime (((attr "unix".toList attrs).bind parseI32).getD 0)
      (parseTgTimeFormat ((attr "format".toList attrs).getD [])))
  else if name = "code".toList then some .code
  else if name = "pre".toList then some .pre
  else if name = "a".toList then some (.link ((attr "href".toList attrs).getD []))
  else if name = "tg-emoji".toList then
    some (.customEmoji (((attr "emoji-id".toList attrs).bind parseI64).getD 0))
  else none

namespace Sink

def init : Sink := { text := [], entities := [], offset := 0 }

def pushText (s : Sink) (text : List Char) : Sink :=
  { s with text := s.text ++ text, offset := s.offset + Int32.ofNat (utf16Len text) }

def push (s : Sink) (kind : EntityKind) : Sink := { s with entities := s.entities ++ [⟨s.offset, 0, kind⟩] }

/-- An entity that ends at an offset; without text it is removed. -/
def endAt (offset : Int32) (e : MessageEntity) : Option MessageEntity :=
  if offset - e.offset = 0 then none else some { e with length := offset - e.offset }

/-- `close_ent!`: the last entity of the kind. -/
def closeEnt (s : Sink) (kind : Variant) : Sink :=
  { s with entities := updateLast (fun e => e.variant = kind) (endAt s.offset) s.entities }

/-- The last entity is a code block of length 0. -/
def inPre (s : Sink) : Bool := s.entities.getLast?.any fun e => e.variant = .pre ∧ e.length = 0

def setLanguage (s : Sink) (language : List Char) : Sink :=
  { s with
    entities := s.entities.dropLast ++ (s.entities.getLast?.map fun e => { e with kind := .pre language }).toList }

def startTag (s : Sink) (name : List Char) (attrs : List (List Char × List Char)) : Sink :=
  if name ∈ ["b".toList, "strong".toList] then s.push .bold
  else if name ∈ ["i".toList, "em".toList] then s.push .italic
  else if name ∈ ["u".toList, "ins".toList] then s.push .underline
  else if name ∈ ["s".toList, "del".toList, "strike".toList] then s.push .strike
  else if name = "tg-spoiler".toList then s.push .spoiler
  else if name = "span".toList then
    if attrs.any fun a => a.1 = "class".toList ∧ a.2 = "tg-spoiler".toList then s.push .spoiler else s
  else if name = "blockquote".toList then s.push (.blockquote (attrs.any fun a => a.1 = "expandable".toList))
  else if name = "tg-time".toList then
    s.push (.formattedDate (parseTgTimeFormat ((attr "format".toList attrs).getD []))
      (((attr "unix".toList attrs).bind parseI32).getD 0))
  else if name = "code".toList then
    if s.inPre then s.setLanguage (codeLanguage attrs) else s.push .code
  else if name = "pre".toList then s.push (.pre [])
  else if name = "a".toList then
    let href := (attr "href".toList attrs).getD []
    match stripPrefix mentionPrefix href with
    | some id =>
      match parseI64 id with
      | some uid => s.push (.mentionName uid)
      | none => s
    | none => s.push (.textUrl href)
  else if name = "tg-emoji".toList then s.push (.customEmoji (((attr "emoji-id".toList attrs).bind parseI64).getD 0))
  else if name = "br".toList then s.pushText ['\n']
  else s

/-- `</a>` looks at the last entity to tell a mention from a link. -/
def closeLink (s : Sink) : Sink :=
  if s.entities.getLast?.any fun e => e.variant = .mentionName then s.closeEnt .mentionName else s.closeEnt .textUrl

def endTag (s : Sink) (name : List Char) : Sink :=
  if name ∈ ["b".toList, "strong".toList] then s.closeEnt .bold
  else if name ∈ ["i".toList, "em".toList] then s.closeEnt .italic
  else if name ∈ ["u".toList, "ins".toList] then s.closeEnt .underline
  else if name ∈ ["s".toList, "del".toList, "strike".toList] then s.closeEnt .strike
  else if name ∈ ["tg-spoiler".toList, "span".toList] then s.closeEnt .spoiler
  else if name = "blockquote".toList then s.closeEnt .blockquote
  else if name = "tg-time".toList then s.closeEnt .formattedDate
  else if name = "code".toList then if s.inPre then s else s.closeEnt .code
  else if name = "pre".toList then s.closeEnt .pre
  else if name = "a".toList then s.closeLink
  else if name = "tg-emoji".toList then s.closeEnt .customEmoji
  else s

def processToken (s : Sink) : Token → Sink
  | .startTag name attrs => s.startTag name attrs
  | .endTag name => s.endTag name
  | .characters text => s.pushText text
  | .other => s

def feed (s : Sink) (tokens : List Token) : Sink := tokens.foldl processToken s

end Sink

end

/-- `parse_html` with the feature `html5ever`; `tokenize` is the tokenizer of that crate. -/
def parseHtml5ever (tokenize : List Char → List Token) (html : List Char) : List Char × List MessageEntity :=
  let sink := Sink.init.feed (tokenize html)
  (sink.text, sink.entities)

/-! The built-in parser on tokens. -/

namespace HtmlState

def readToken (s : HtmlState) : Token → HtmlState
  | .startTag name attrs => s.openTag name attrs
  | .endTag name => s.closeTag name
  | .characters text => s.pushText text
  | .other => s

def feed (s : HtmlState) (tokens : List Token) : HtmlState := tokens.foldl readToken s

end HtmlState

/-- The built-in parser finds these tokens in the string. A stretch of text may be more than
    one token. -/
inductive Spells : List Char → List Token → Prop where
  | nil : Spells [] []
  | startTag {content name : List Char} {attrs : List (List Char × List Char)} {html : List Char} {tokens : List Token}
      (hgt : '>' ∉ content) (hslash : content.head? ≠ some '/') (hread : parseTag (trim content) = some (name, attrs))
      (h : Spells html tokens) : Spells ('<' :: (content ++ '>' :: html)) (.startTag name attrs :: tokens)
  | endTag {content name : List Char} {attrs : List (List Char × List Char)} {html : List Char} {tokens : List Token}
      (hgt : '>' ∉ content) (hread : parseTag (trim content) = some (name, attrs)) (h : Spells html tokens) :
      Spells ('<' :: ('/' :: content ++ '>' :: html)) (.endTag name :: tokens)
  | text {raw : List Char} {texts : List (List Char)} {html : List Char} {tokens : List Token} (hne : raw ≠ [])
      (hlt : '<' ∉ raw) (hend : html = [] ∨ html.head? = some '<') (hread : decodeHtmlEntities raw = texts.flatten)
      (h : Spells html tokens) : Spells (raw ++ html) (texts.map .characters ++ tokens)

namespace HtmlState

theorem feed_append (s : HtmlState) (a b : List Token) : s.feed (a ++ b) = (s.feed a).feed b := by
  rw [feed, List.foldl_append]
  rfl

theorem feed_characters (s : HtmlState) (texts : List (List Char)) :
    s.feed (texts.map .characters) = s.pushText texts.flatten := by
  induction texts generalizing s with
  | nil => exact (pushText_nil s).symm
  | cons text texts ih =>
    rw [List.flatten_cons, ← pushText_append]
    exact ih (s.pushText text)

theorem run_spells {html : List Char} {tokens : List Token} (h : Spells html tokens) (s : HtmlState) :
    s.run html = some (s.feed tokens) := by
  induction h generalizing s with
  | nil => exact run_nil s
  | startTag hgt hslash hread h ih =>
    rw [run_open s hgt hslash hread, ih]
    rfl
  | @endTag content name attrs html tokens hgt hread h ih =>
    have hgt' : '>' ∉ '/' :: content := by simpa using hgt
    have htag : s.readTag ('/' :: content) = some (s.closeTag name) := by simp [readTag, hread]
    rw [run_tag s hgt' html, htag, Option.bind_some, ih]
    rfl
  | text hne hlt hend hread h ih =>
    rw [run_text s hlt hne hend, hread, ih, feed_append, feed_characters]

end HtmlState

theorem parseHtml_spells {html : List Char} {tokens : List Token} (h : Spells html tokens) :
    parseHtml html = some ((HtmlState.init.feed tokens).out, (HtmlState.init.feed tokens).ents) := by
  have hrun : HtmlState.loop html.length .init html = some (HtmlState.init.feed tokens) := HtmlState.run_spells h .init
  rw [parseHtml, hrun]
  rfl

end Ferogram.Parsers
