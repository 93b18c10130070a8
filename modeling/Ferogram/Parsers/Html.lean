import Ferogram.Lib.Replace
import Ferogram.Lib.TagStack
import Ferogram.Parsers.Placed

/- HTML, both ways, with the built-in tokenizer. `parseHtml` alternates between
   tags and stretches of text: an open tag is pushed with the offset it stands
   at, a close tag takes the last open tag of its name off the stack and turns it
   into an entity, and text is unescaped by a chain of replacements. A slice that
   would cut a character in two panics in the source; the parser then has no
   result. `generateHtml` splices the tags of the entities into the escaped
   text. -/
namespace Ferogram.Parsers
open Replace Splice TagStack

/-! Tags and their attributes. -/

/-- The value of a quoted attribute, and what follows its closing quote (or quotes). -/
def quotedValue (quote : Char) (inner : List Char) : List Char × List Char :=
  (inner.takeWhile (· ≠ quote), trimStart ((inner.dropWhile (· ≠ quote)).dropWhile (· = quote)))

/-- What follows the key of an attribute: its value, and the attributes behind it. A key without
    `=` is a boolean attribute. -/
def attrValue (rem : List Char) : List Char × List Char :=
  match rem with
  | '=' :: rest =>
    match trimStart rest with
    | '"' :: inner => quotedValue '"' inner
    | '\'' :: inner => quotedValue '\'' inner
    | bare => (bare.takeWhile (!isWhitespace ·), trimStart (bare.dropWhile (!isWhitespace ·)))
  | rem => ([], rem)

/-- The loop of `parse_attrs`; every round takes a character at least. With an empty key one byte is
    cut off, which panics in the middle of a character. -/
def attrsLoop : Nat → List Char → Option (List (List Char × List Char))
  | _, [] => some []
  | 0, _ :: _ => none
  | fuel + 1, c :: rest =>
    let key := (c :: rest).takeWhile fun c => !(c == '=' || isWhitespace c)
    if key = [] then
      if c.utf8Size = 1 then attrsLoop fuel rest else none
    else
      let (value, rem) := attrValue (trimStart ((c :: rest).drop key.length))
      (attrsLoop fuel rem).map fun attrs => (key, value) :: attrs

def parseAttrs (s : List Char) : Option (List (List Char × List Char)) :=
  attrsLoop (trim s).length (trim s)

def parseTag (s : List Char) : Option (List Char × List (List Char × List Char)) :=
  (parseAttrs ((s.dropWhile (!isWhitespace ·)).drop 1)).map fun attrs =>
    (trimEndMatches (· == '/') (s.takeWhile (!isWhitespace ·)), attrs)

/-- The first attribute of a name. -/
def attr (name : List Char) (attrs : List (List Char × List Char)) : Option (List Char) :=
  (attrs.find? fun a => a.1 = name).map Prod.snd

def decodeHtmlEntities (s : List Char) : List Char :=
  replaceAll "&nbsp;".toList ['\u00A0'] (replaceAll "&#39;".toList ['\''] (replaceAll "&quot;".toList ['"']
    (replaceAll "&gt;".toList ['>'] (replaceAll "&lt;".toList ['<'] (replaceAll "&amp;".toList ['&'] s)))))

/-- `parse_tg_time_format`. -/
def parseTgTimeFormat (fmt : List Char) : DateFlags :=
  let longTime := decide (['t', 't'] <:+: fmt) || fmt.contains 'T'
  let longDate := fmt.contains 'D'
  { relative := fmt.contains 'r' || fmt.contains 'R'
    shortTime := !longTime && fmt.contains 't'
    longTime
    shortDate := !longDate && fmt.contains 'd'
    longDate
    dayOfWeek := fmt.contains 'w' || fmt.contains 'W' }

/-- `tg_time_flags_to_format`; without a flag, the time. -/
def tgTimeFlagsToFormat (flags : DateFlags) : List Char :=
  let s := (if flags.dayOfWeek then ['w'] else []) ++
    (if flags.longDate then ['D'] else if flags.shortDate then ['d'] else []) ++
    (if flags.longTime then ['t', 't'] else if flags.shortTime then ['t'] else []) ++
    (if flags.relative then ['r'] else [])
  if s = [] then ['t'] else s

inductive HtmlTag where
  | bold
  | italic
  | underline
  | strike
  | spoiler
  | spanSpoiler
  | code
  | codeInPre
  | pre
  | link (url : List Char)
  | customEmoji (id : Int64)
  | blockquote (collapsed : Bool)
  | tgTime (unix : Int32) (flags : DateFlags)
  | unknown
deriving DecidableEq

def HtmlTag.closesWith (tagName : List Char) : HtmlTag → Bool
  | .bold => tagName ∈ ["b".toList, "strong".toList]
  | .italic => tagName ∈ ["i".toList, "em".toList]
  | .underline => tagName ∈ ["u".toList, "ins".toList]
  | .strike => tagName ∈ ["s".toList, "del".toList, "strike".toList]
  | .spoiler => tagName = "tg-spoiler".toList
  | .spanSpoiler => tagName = "span".toList
  | .code => tagName = "code".toList
  | .codeInPre => false
  | .pre => tagName = "pre".toList
  | .link _ => tagName = "a".toList
  | .customEmoji _ => tagName = "tg-emoji".toList
  | .blockquote _ => tagName = "blockquote".toList
  | .tgTime _ _ => tagName = "tg-time".toList
  | .unknown => false

structure HtmlEntry where
  tag : HtmlTag
  startOff : Int32
  extra : Option (List Char)
deriving DecidableEq

/-- What a tag makes of the text it held. -/
def HtmlEntry.kind? (entry : HtmlEntry) : Option EntityKind :=
  match entry.tag with
  | .bold => some .bold
  | .italic => some .italic
  | .underline => some .underline
  | .strike => some .strike
  | .spoiler => some .spoiler
  | .spanSpoiler => some .spoiler
  | .code => some .code
  | .codeInPre => none
  | .pre => some (.pre (entry.extra.getD []))
  | .link url =>
    match stripPrefix mentionPrefix url with
    | some s => (parseI64 s).map .mentionName
    | none => some (.textUrl url)
  | .customEmoji id => some (.customEmoji id)
  | .blockquote collapsed => some (.blockquote collapsed)
  | .tgTime unix flags => some (.formattedDate flags unix)
  | .unknown => none

structure HtmlState where
  out : List Char
  ents : List MessageEntity
  stack : List HtmlEntry
  utf16Off : Int32
deriving DecidableEq

namespace HtmlState

def init : HtmlState := { out := [], ents := [], stack := [], utf16Off := 0 }

def pushText (s : HtmlState) (text : List Char) : HtmlState :=
  { s with out := s.out ++ text, utf16Off := s.utf16Off + Int32.ofNat (utf16Len text) }

def pushTag (s : HtmlState) (tag : HtmlTag) : HtmlState :=
  { s with stack := s.stack ++ [⟨tag, s.utf16Off, none⟩] }

/-- Takes the last open tag of a name off the stack; if it held some text, it becomes an entity. -/
def closeEntry (s : HtmlState) (tagName : List Char) : HtmlState :=
  match removeLast (fun entry => entry.tag.closesWith tagName) s.stack with
  | none => s
  | some (entry, stack) =>
    let length := s.utf16Off - entry.startOff
    let new := if 0 < length then (entry.kind?.map fun kind => ⟨entry.startOff, length, kind⟩).toList else []
    { s with stack := stack, ents := s.ents ++ new }

/-- A close tag; `</code>` inside `<pre>` only takes off the mark of that. -/
def closeTag (s : HtmlState) (tagName : List Char) : HtmlState :=
  if tagName = "code".toList then
    match removeLast (fun entry => entry.tag = .codeInPre) s.stack with
    | some (_, stack) => { s with stack := stack }
    | none => s.closeEntry tagName
  else s.closeEntry tagName

/-- `<code>`: directly inside `<pre>` it names the language. -/
def openCode (s : HtmlState) (attrs : List (List Char × List Char)) : HtmlState :=
  match s.stack.getLast? with
  | some last =>
    if last.tag = .pre then
      let lang := ((attr "class".toList attrs).bind (stripPrefix "language-".toList)).getD []
      { s with stack := s.stack.dropLast ++ [{ last with extra := some lang }, ⟨.codeInPre, s.utf16Off, none⟩] }
    else s.pushTag .code
  | none => s.pushTag .code

def openTag (s : HtmlState) (tagName : List Char) (attrs : List (List Char × List Char)) : HtmlState :=
  if tagName ∈ ["b".toList, "strong".toList] then s.pushTag .bold
  else if tagName ∈ ["i".toList, "em".toList] then s.pushTag .italic
  else if tagName ∈ ["u".toList, "ins".toList] then s.pushTag .underline
  else if tagName ∈ ["s".toList, "del".toList, "strike".toList] then s.pushTag .strike
  else if tagName = "tg-spoiler".toList then s.pushTag .spoiler
  else if tagName = "span".toList then
    s.pushTag (if attrs.any fun a => a.1 = "class".toList ∧ a.2 = "tg-spoiler".toList then .spanSpoiler else .unknown)
  else if tagName = "blockquote".toList then
    s.pushTag (.blockquote (attrs.any fun a => a.1 = "expandable".toList))
  else if tagName = "tg-time".toList then
    s.pushTag (.tgTime (((attr "unix".toList attrs).bind parseI32).getD 0)
      (parseTgTimeFormat ((attr "format".toList attrs).getD [])))
  else if tagName = "code".toList then s.openCode attrs
  else if tagName = "pre".toList then s.pushTag .pre
  else if tagName = "a".toList then s.pushTag (.link ((attr "href".toList attrs).getD []))
  else if tagName = "tg-emoji".toList then
    s.pushTag (.customEmoji (((attr "emoji-id".toList attrs).bind parseI64).getD 0))
  else if tagName = "br".toList then s.pushText ['\n']
  else s.pushTag .unknown

/-- What stands between `<` and `>`. -/
def readTag (s : HtmlState) (content : List Char) : Option HtmlState :=
  match content with
  | '/' :: rest => (parseTag (trim rest)).map fun tag => s.closeTag tag.1
  | content => (parseTag (trim content)).map fun tag => s.openTag tag.1 tag.2

/-- One round of the loop: a tag, or text up to the next one. -/
def step (s : HtmlState) : List Char → Option (HtmlState × List Char)
  | [] => some (s, [])
  | c :: rest =>
    if c = '<' then
      (s.readTag (rest.takeWhile (· ≠ '>'))).map fun s => (s, (rest.dropWhile (· ≠ '>')).drop 1)
    else some (s.pushText (decodeHtmlEntities (c :: rest.takeWhile (· ≠ '<'))), rest.dropWhile (· ≠ '<'))

/-- The loop; every round takes a character at least. -/
def loop : Nat → HtmlState → List Char → Option HtmlState
  | _, s, [] => some s
  | 0, _, _ :: _ => none
  | fuel + 1, s, c :: html => (s.step (c :: html)).bind fun next => loop fuel next.1 next.2

end HtmlState

def parseHtml (html : List Char) : Option (List Char × List MessageEntity) :=
  (HtmlState.loop html.length .init html).map fun s => (s.out, s.ents)

/-! Generating. -/

def escapeHtml (s : List Char) : List Char :=
  replaceAll ['"'] "&quot;".toList (replaceAll ['>'] "&gt;".toList (replaceAll ['<'] "&lt;".toList
    (replaceAll ['&'] "&amp;".toList s)))

/-- The tags put around an entity. -/
def htmlTags (e : MessageEntity) : Option (List Char × List Char) :=
  match e.kind with
  | .bold => some ("<b>".toList, "</b>".toList)
  | .italic => some ("<i>".toList, "</i>".toList)
  | .underline => some ("<u>".toList, "</u>".toList)
  | .strike => some ("<s>".toList, "</s>".toList)
  | .spoiler => some ("<tg-spoiler>".toList, "</tg-spoiler>".toList)
  | .code => some ("<code>".toList, "</code>".toList)
  | .pre language =>
    let lang := if language = [] then [] else " class=\"language-".toList ++ language ++ ['"']
    some ("<pre><code".toList ++ lang ++ ['>'], "</code></pre>".toList)
  | .textUrl url => some ("<a href=\"".toList ++ escapeHtml url ++ "\">".toList, "</a>".toList)
  | .mentionName userId =>
    some ("<a href=\"".toList ++ mentionPrefix ++ Decimal.format userId.toInt ++ "\">".toList, "</a>".toList)
  | .customEmoji documentId =>
    some ("<tg-emoji emoji-id=\"".toList ++ Decimal.format documentId.toInt ++ "\">".toList, "</tg-emoji>".toList)
  | .blockquote collapsed =>
    some (if collapsed then "<blockquote expandable>".toList else "<blockquote>".toList, "</blockquote>".toList)
  | .formattedDate flags date =>
    some ("<tg-time unix=\"".toList ++ Decimal.format date.toInt ++ "\" format=\"".toList ++
      tgTimeFlagsToFormat flags ++ "\">".toList, "</tg-time>".toList)
  | .other _ => none

def escapeChar (c : Char) : List Char :=
  if c = '&' then "&amp;".toList
  else if c = '<' then "&lt;".toList
  else if c = '>' then "&gt;".toList
  else if c = '"' then "&quot;".toList
  else [c]

def generateHtml (text : List Char) (entities : List MessageEntity) : List Char :=
  splice Int32.toInt (fun pos c => pos + Int32.ofNat (lenUtf16 c)) (fun _ c => escapeChar c) 0
    (entityMarkers htmlTags entities) text

end Ferogram.Parsers
