import Mathlib.Data.List.TakeWhile
import Ferogram.Parsers.MarkdownRead

/- Markdown V1, the legacy format. `parseMarkdownV1` walks the characters once
   and tries escapes, code blocks, inline code, custom emoji, links, the style
   delimiters and a plain character, in this order. Its spans of code, emoji and
   links are those of V2 (`readSpan`); there are no quotes, and the delimiters
   are others. Every round takes a character at least (`step_suffix`). -/
namespace Ferogram.Parsers
open TagStack

/-! Spans: text that is one entity as a whole. -/

/-- A code block: its code, the kind and what follows. -/
def readFenced : List Char → Option (List Char × EntityKind × List Char)
  | '`' :: '`' :: '`' :: chars =>
    (splitFence chars).map fun (block, rest) =>
      let (lang, code) := splitBlock block
      (code, .pre lang, rest)
  | _ => none

def readBackticked : List Char → Option (List Char × EntityKind × List Char)
  | '`' :: chars => (splitAtChar '`' chars).map fun (code, rest) => (code, .code, rest)
  | _ => none

def readEmojiSpan : List Char → Option (List Char × EntityKind × List Char)
  | '!' :: '[' :: chars => (parseEmojiLink chars).map fun (label, docId, rest) => (label, .customEmoji docId, rest)
  | _ => none

def readLinkSpan : List Char → Option (List Char × EntityKind × List Char)
  | '[' :: chars => parseLinkEntity chars
  | _ => none

def readSpan (chars : List Char) : Option (List Char × EntityKind × List Char) :=
  readFenced chars <|> readBackticked chars <|> readEmojiSpan chars <|> readLinkSpan chars

/-! The parser. -/

inductive MarkdownTagV1 where
  | bold
  | italic
  | strike
  | spoiler
deriving DecidableEq

def MarkdownTagV1.kind : MarkdownTagV1 → EntityKind
  | .bold => .bold
  | .italic => .italic
  | .strike => .strike
  | .spoiler => .spoiler

def makeEntityV1 (tag : MarkdownTagV1) (offset length : Int32) : MessageEntity := ⟨offset, length, tag.kind⟩

/-- What a backslash escapes. -/
def isV1Escapable (c : Char) : Bool := c ∈ ['*', '_', '~', '|', '[', ']', '(', ')', '`', '\\', '!']

structure MdV1State where
  out : List Char
  ents : List MessageEntity
  openStack : List (MarkdownTagV1 × Int32)
  utf16Off : Int32
deriving DecidableEq

namespace MdV1State

def init : MdV1State := { out := [], ents := [], openStack := [], utf16Off := 0 }

def pushStr (s : MdV1State) (text : List Char) : MdV1State :=
  { s with out := s.out ++ text, utf16Off := s.utf16Off + Int32.ofNat (utf16Len text) }

def pushEnt (s : MdV1State) (e : MessageEntity) : MdV1State := { s with ents := s.ents ++ [e] }

def pushSpan (s : MdV1State) (text : List Char) (kind : EntityKind) : MdV1State :=
  (s.pushEnt ⟨s.utf16Off, Int32.ofNat (utf16Len text), kind⟩).pushStr text

/-- `toggle_tag_v1`. -/
def toggleTagV1 (s : MdV1State) (tag : MarkdownTagV1) : MdV1State :=
  match removeLast (fun t => t.1 = tag) s.openStack with
  | some ((_, startOff), stack) =>
    let length := s.utf16Off - startOff
    let s := { s with openStack := stack }
    if 0 < length then s.pushEnt (makeEntityV1 tag startOff length) else s
  | none => { s with openStack := s.openStack ++ [(tag, s.utf16Off)] }

def readEscape (s : MdV1State) : List Char → Option (MdV1State × List Char)
  | '\\' :: c :: rest => if isV1Escapable c then some (s.pushStr [c], rest) else none
  | _ => none

def readSpan (s : MdV1State) (chars : List Char) : Option (MdV1State × List Char) :=
  (Parsers.readSpan chars).map fun (text, kind, rest) => (s.pushSpan text kind, rest)

def readTwoCharTag (s : MdV1State) : List Char → Option (MdV1State × List Char)
  | '*' :: '*' :: rest => some (s.toggleTagV1 .bold, rest)
  | '_' :: '_' :: rest => some (s.toggleTagV1 .italic, rest)
  | '~' :: '~' :: rest => some (s.toggleTagV1 .strike, rest)
  | '|' :: '|' :: rest => some (s.toggleTagV1 .spoiler, rest)
  | _ => none

def readOneCharTag (s : MdV1State) : List Char → Option (MdV1State × List Char)
  | '*' :: rest => some (s.toggleTagV1 .bold, rest)
  | '_' :: rest => some (s.toggleTagV1 .italic, rest)
  | _ => none

def readPlain (s : MdV1State) : List Char → MdV1State × List Char
  | [] => (s, [])
  | c :: rest => (s.pushStr [c], rest)

/-- One round of the loop. -/
def step (s : MdV1State) (chars : List Char) : MdV1State × List Char :=
  (s.readEscape chars <|> s.readSpan chars <|> s.readTwoCharTag chars <|> s.readOneCharTag chars).getD
    (s.readPlain chars)

/-- The loop; every round takes a character at least. -/
def loop : Nat → MdV1State → List Char → MdV1State
  | _, s, [] => s
  | 0, s, _ :: _ => s
  | fuel + 1, s, c :: chars => loop fuel (s.step (c :: chars)).1 (s.step (c :: chars)).2

end MdV1State

def parseMarkdownV1 (text : List Char) : List Char × List MessageEntity :=
  let s := MdV1State.loop text.length .init text
  (s.out, s.ents)

/-! What a span is in the text. -/

theorem splitFence_eq_some {l a b : List Char} (h : splitFence l = some (a, b)) : l = a ++ ['`', '`', '`'] ++ b := by
  induction l generalizing a with
  | nil => cases h
  | cons x xs ih =>
    simp only [splitFence] at h
    split at h
    · obtain ⟨rfl, rfl⟩ := Prod.mk.inj (Option.some.inj h)
      rfl
    · obtain ⟨r, hr, h⟩ := Option.map_eq_some_iff.mp h
      obtain ⟨rfl, rfl⟩ := Prod.mk.inj h
      rw [ih hr]
      rfl

theorem splitLabel_eq_some {depth : Nat} {l a b : List Char} (h : splitLabel depth l = some (a, b)) :
    l = a ++ ']' :: b := by
  induction l generalizing a depth with
  | nil => cases h
  | cons x xs ih =>
    have hlater : ∀ d, (splitLabel d xs).map (fun r => (x :: r.1, r.2)) = some (a, b) → x :: xs = a ++ ']' :: b := by
      intro d h
      obtain ⟨r, hr, h⟩ := Option.map_eq_some_iff.mp h
      obtain ⟨rfl, rfl⟩ := Prod.mk.inj h
      rw [ih hr]
      rfl
    simp only [splitLabel] at h
    split at h
    · exact hlater _ h
    · split at h
      · next hclose =>
        split at h
        · obtain ⟨rfl, rfl⟩ := Prod.mk.inj (Option.some.inj h)
          rw [hclose]
          rfl
        · exact hlater _ h
      · exact hlater _ h

theorem splitTarget_eq_some {l a b : List Char} (h : splitTarget l = some (a, b)) : l = '(' :: (a ++ ')' :: b) := by
  unfold splitTarget at h
  split at h
  · rw [(splitAtChar_eq_some h).1]
  · cases h

theorem some_of_orElse {α : Type} {f g : Option α} {a : α} (h : (f <|> g) = some a) : f = some a ∨ g = some a := by
  cases f with
  | none => exact Or.inr h
  | some b => exact Or.inl h

/-- Markup that encloses no text. -/
inductive EmptyMarkup : EntityKind → List Char → Prop
  | code : EmptyMarkup .code ['`', '`']
  | fences : EmptyMarkup (.pre []) ['`', '`', '`', '`', '`', '`']
  /-- A code block that holds nothing but newlines. -/
  | block (lang newlines : List Char) (h : ∀ c ∈ newlines, c = '\n') :
    EmptyMarkup (.pre (trim lang)) (['`', '`', '`'] ++ (lang ++ '\n' :: newlines) ++ ['`', '`', '`'])
  | emoji (docId : Int64) (url : List Char) : EmptyMarkup (.customEmoji docId) ('!' :: '[' :: ']' :: '(' :: (url ++ [')']))
  | link (url : List Char) : EmptyMarkup (linkKind url) ('[' :: ']' :: '(' :: (url ++ [')']))

/-- A span stands in front, and one without text is empty markup. -/
def TakesSpan (span : List Char → Option (List Char × EntityKind × List Char)) : Prop :=
  ∀ chars text kind rest, span chars = some (text, kind, rest) →
    ∃ markup, chars = markup ++ rest ∧ (text = [] → EmptyMarkup kind markup)

theorem forall_of_trimEndMatches {p : Char → Bool} {s : List Char} (h : trimEndMatches p s = []) :
    ∀ c ∈ s, p c = true := by
  have hdrop : s.reverse.dropWhile p = [] := List.reverse_eq_nil_iff.mp h
  exact fun c hc => List.dropWhile_eq_nil_iff.mp hdrop c (List.mem_reverse.mpr hc)

theorem readFenced_takes : TakesSpan readFenced := by
  intro chars text kind rest h
  unfold readFenced at h
  split at h
  · next chars =>
    obtain ⟨⟨block, after⟩, hfence, heq⟩ := Option.map_eq_some_iff.mp h
    obtain ⟨htext, hrest⟩ := Prod.mk.inj heq
    obtain ⟨rfl, rfl⟩ := Prod.mk.inj hrest
    obtain rfl : (splitBlock block).2 = text := htext
    refine ⟨['`', '`', '`'] ++ block ++ ['`', '`', '`'], ?_, ?_⟩
    · rw [splitFence_eq_some hfence]
      simp
    · intro hnone
      revert hnone
      unfold splitBlock
      intro hnone
      cases hline : splitAtChar '\n' block with
      | none =>
        rw [hline] at hnone
        obtain rfl : block = [] := hnone
        exact EmptyMarkup.fences
      | some r =>
        obtain ⟨lang, code⟩ := r
        rw [hline] at hnone
        have hall : ∀ c ∈ code, c = '\n' := fun c hc => of_decide_eq_true (forall_of_trimEndMatches hnone c hc)
        rw [(splitAtChar_eq_some hline).1]
        exact EmptyMarkup.block lang code hall
  · cases h

theorem readBackticked_takes : TakesSpan readBackticked := by
  intro chars text kind rest h
  unfold readBackticked at h
  split at h
  · next chars =>
    obtain ⟨⟨code, after⟩, hcode, heq⟩ := Option.map_eq_some_iff.mp h
    obtain ⟨rfl, hrest⟩ := Prod.mk.inj heq
    obtain ⟨rfl, rfl⟩ := Prod.mk.inj hrest
    refine ⟨'`' :: (code ++ ['`']), ?_, ?_⟩
    · rw [(splitAtChar_eq_some hcode).1]
      simp
    · rintro rfl
      exact EmptyMarkup.code
  · cases h

theorem readEmojiSpan_takes : TakesSpan readEmojiSpan := by
  intro chars text kind rest h
  unfold readEmojiSpan at h
  split at h
  · next chars =>
    obtain ⟨⟨label, docId, after⟩, hlink, heq⟩ := Option.map_eq_some_iff.mp h
    obtain ⟨rfl, hrest⟩ := Prod.mk.inj heq
    obtain ⟨rfl, rfl⟩ := Prod.mk.inj hrest
    unfold parseEmojiLink at hlink
    obtain ⟨⟨label', behind⟩, hlabel, hlink⟩ := Option.bind_eq_some_iff.mp hlink
    obtain ⟨⟨url, rest⟩, htarget, hlink⟩ := Option.bind_eq_some_iff.mp hlink
    obtain ⟨id, -, hlink⟩ := Option.bind_eq_some_iff.mp hlink
    obtain ⟨rfl, hbehind'⟩ := Prod.mk.inj (Option.some.inj hlink)
    obtain ⟨rfl, rfl⟩ := Prod.mk.inj hbehind'
    have hchars := (splitAtChar_eq_some hlabel).1
    have hbehind := splitTarget_eq_some htarget
    refine ⟨'!' :: '[' :: (label' ++ ']' :: '(' :: (url ++ [')'])), ?_, ?_⟩
    · rw [hchars, show behind = '(' :: (url ++ ')' :: rest) from hbehind]
      simp
    · rintro rfl
      exact EmptyMarkup.emoji id url
  · cases h

theorem readLinkSpan_takes : TakesSpan readLinkSpan := by
  intro chars text kind rest h
  unfold readLinkSpan at h
  split at h
  · next chars =>
    unfold parseLinkEntity at h
    obtain ⟨⟨label, behind⟩, hlabel, h⟩ := Option.bind_eq_some_iff.mp h
    obtain ⟨⟨url, after⟩, htarget, h⟩ := Option.bind_eq_some_iff.mp h
    obtain ⟨rfl, heq⟩ := Prod.mk.inj (Option.some.inj h)
    obtain ⟨rfl, rfl⟩ := Prod.mk.inj heq
    have hchars := splitLabel_eq_some hlabel
    have hbehind := splitTarget_eq_some htarget
    refine ⟨'[' :: (label ++ ']' :: '(' :: (url ++ [')'])), ?_, ?_⟩
    · rw [hchars, show behind = '(' :: (url ++ ')' :: after) from hbehind]
      simp
    · rintro rfl
      exact EmptyMarkup.link url
  · cases h

theorem readSpan_takes : TakesSpan readSpan := by
  intro chars text kind rest h
  unfold readSpan at h
  rcases some_of_orElse h with h | h
  · exact readFenced_takes _ _ _ _ h
  rcases some_of_orElse h with h | h
  · exact readBackticked_takes _ _ _ _ h
  rcases some_of_orElse h with h | h
  · exact readEmojiSpan_takes _ _ _ _ h
  · exact readLinkSpan_takes _ _ _ _ h

end Ferogram.Parsers
