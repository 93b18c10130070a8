import Ferogram.Parsers.Html5ever

/- Properly nested HTML over the supported tags, as a forest: its tokens, its text, and the
   entities it should give, each with the text between an element's two tags.

   `Forest.Apart` says that the sink's searches find what they should: at its close tag the
   entity found is the one the element has put there, or none where it has put none, and a
   `<code>` finds an open code block just where it stands directly in one. Inside the
   `<code>` of a code block there is no other one for the built-in parser to mistake for it.
   The lengths are `i32`s. -/
namespace Ferogram.Parsers

/-! Elements. -/

/-- An element with a supported tag. -/
structure Element where
  name : List Char
  attrs : List (List Char × List Char)
  tag : HtmlTag
  supported : elementTag name attrs = some tag

/-- The kind of entity a tag makes, for a code block in the language. -/
def HtmlTag.kind? (tag : HtmlTag) (language : List Char) : Option EntityKind :=
  (⟨tag, 0, some language⟩ : HtmlEntry).kind?

def HtmlTag.variant? (tag : HtmlTag) : Option Variant := (tag.kind? []).map EntityKind.variant

/-- Text, or a line break. -/
inductive Leaf where
  | characters (text : List Char)
  | br (attrs : List (List Char × List Char))

def Leaf.token : Leaf → Token
  | .characters text => .characters text
  | .br attrs => .startTag "br".toList attrs

def Leaf.text : Leaf → List Char
  | .characters text => text
  | .br _ => ['\n']

inductive Forest where
  | nil
  | leaf (l : Leaf) (rest : Forest)
  | element (e : Element) (inner rest : Forest)

namespace Forest

def tokens : Forest → List Token
  | nil => []
  | leaf l rest => l.token :: rest.tokens
  | element e inner rest => .startTag e.name e.attrs :: (inner.tokens ++ .endTag e.name :: rest.tokens)

def text : Forest → List Char
  | nil => []
  | leaf l rest => l.text ++ rest.text
  | element _ inner rest => inner.text ++ rest.text

/-- The length of the text, as it is counted. -/
def width (f : Forest) : Int32 := Int32.ofNat (utf16Len f.text)

/-- The language named by the last `<code>` of the forest, of those that are not inside another
    element. -/
def codeLang (language : Option (List Char)) : Forest → Option (List Char)
  | nil => language
  | leaf _ rest => rest.codeLang language
  | element e _ rest => rest.codeLang (if e.tag = .code then some (codeLanguage e.attrs) else language)

/-- The kind of entity an element makes; a `<code>` directly in a code block makes none. -/
def kindOf (inPre : Bool) (e : Element) (inner : Forest) : Option EntityKind :=
  if e.tag = .code ∧ inPre = true then none else e.tag.kind? ((inner.codeLang none).getD [])

/-- The entities of a forest that starts at an offset, in the order in which they open. -/
def entities (inPre : Bool) (offset : Int32) : Forest → List MessageEntity
  | nil => []
  | leaf l rest => rest.entities inPre (offset + Int32.ofNat (utf16Len l.text))
  | element e inner rest =>
    (if inner.width = 0 then [] else ((kindOf inPre e inner).map fun kind => ⟨offset, inner.width, kind⟩).toList) ++
      (inner.entities (e.tag = .pre) offset ++ rest.entities inPre (offset + inner.width))

/-! The condition. -/

/-- A constructor, and whether the entity is still open. -/
abbrev Mark := Variant × Bool

def opened (v : Variant) : Mark := (v, true)
def ended (v : Variant) : Mark := (v, false)

/-- The constructor of the entity an element makes. -/
def variantOf (inPre : Bool) (e : Element) : Option Variant :=
  if e.tag = .code ∧ inPre = true then none else e.tag.variant?

/-- An element without text makes no entity. -/
def own (inPre : Bool) (e : Element) (inner : Forest) : List Variant :=
  if inner.width = 0 then [] else (variantOf inPre e).toList

/-- The constructors of the forest's entities. -/
def made (inPre : Bool) : Forest → List Variant
  | nil => []
  | leaf _ rest => rest.made inPre
  | element e inner rest => own inPre e inner ++ (inner.made (e.tag = .pre) ++ rest.made inPre)

/-- The constructor that a close tag goes for, if there is one. -/
def finds (tag : HtmlTag) (marks : List Mark) : Option Variant :=
  let present (v : Variant) : Option Variant := if v ∈ marks.map Prod.fst then some v else none
  match tag with
  | .link _ => if marks.getLast?.any fun m => m.1 = .mentionName then some .mentionName else present .textUrl
  | .code => if marks.getLast? = some (opened .pre) then none else present .code
  | tag => tag.variant?.bind present

/-- At its tags, an element finds what it should: `before` are the entities in front of it and
    around it, `after` those inside it. -/
structure Finds (inPre marked : Bool) (before : List Mark) (e : Element) (after : List Variant) : Prop where
  opening : e.tag = .code → (before.getLast? = some (opened .pre) ↔ inPre = true) ∧ (inPre = true ∨ marked = false)
  closing : finds e.tag (before ++ ((variantOf inPre e).map opened).toList ++ after.map ended) = variantOf inPre e
  own : ∀ v ∈ variantOf inPre e, v ∉ after

/-- In front of and around the forest are the entities `before`; `marked` says that it is inside
    the `<code>` of a code block. -/
def Apart (inPre marked : Bool) (before : List Mark) : Forest → Prop
  | nil => True
  | leaf _ rest => rest.Apart inPre marked before
  | element e inner rest =>
    0 ≤ inner.width ∧
    Finds inPre marked before e (inner.made (e.tag = .pre)) ∧
    inner.Apart (e.tag = .pre) (marked || (inPre && e.tag = .code)) (before ++ ((variantOf inPre e).map opened).toList) ∧
    rest.Apart inPre marked (before ++ (own inPre e inner ++ inner.made (e.tag = .pre)).map ended)

instance (inPre marked : Bool) (before : List Mark) (e : Element) (after : List Variant) :
    Decidable (Finds inPre marked before e after) :=
  decidable_of_iff
    ((e.tag = .code → (before.getLast? = some (opened .pre) ↔ inPre = true) ∧ (inPre = true ∨ marked = false)) ∧
      finds e.tag (before ++ ((variantOf inPre e).map opened).toList ++ after.map ended) = variantOf inPre e ∧
      ∀ v ∈ variantOf inPre e, v ∉ after)
    ⟨fun h => ⟨h.1, h.2.1, h.2.2⟩, fun h => ⟨h.opening, h.closing, h.own⟩⟩

instance Apart.decidable : ∀ (inPre marked : Bool) (before : List Mark) (f : Forest), Decidable (f.Apart inPre marked before)
  | _, _, _, nil => instDecidableTrue
  | inPre, marked, before, leaf _ rest => Apart.decidable inPre marked before rest
  | inPre, marked, before, element e inner rest =>
    have := Apart.decidable (e.tag = .pre) (marked || (inPre && e.tag = .code))
      (before ++ ((variantOf inPre e).map opened).toList) inner
    have := Apart.decidable inPre marked (before ++ (own inPre e inner ++ inner.made (e.tag = .pre)).map ended) rest
    inferInstanceAs (Decidable (_ ∧ _ ∧ _ ∧ _))

end Forest

end Ferogram.Parsers
