import Mathlib.Data.List.TakeWhile
import Ferogram.Parsers.Html
import Ferogram.Parsers.Trim

/- Reading HTML piece by piece. Every round of the parser's loop takes a
   character at least, so the loop can be read as a run (`run_tag`, `run_text`).
   The tags the generator writes are read back with their attributes
   (`parseTag_attr`), and what they do to the parser is the same for every state:
   an entity's opening tags push its entries (`run_opening`), its closing tags
   take entries off by name (`run_closing`). -/
namespace Ferogram.Parsers
open Replace Splice TagStack

namespace HtmlState

variable {s s' : HtmlState} {c : Char} {html rest : List Char}

@[simp] theorem pushText_nil (s : HtmlState) : s.pushText [] = s := by
  simp [pushText]

theorem pushText_append (s : HtmlState) (a b : List Char) : (s.pushText a).pushText b = s.pushText (a ++ b) := by
  simp [pushText, Int32.ofNat_add, Int32.add_assoc]

/-! The loop as a run. -/

theorem step_progress (h : s.step (c :: html) = some (s', rest)) : rest.length ≤ html.length := by
  simp only [step] at h
  split at h
  · obtain ⟨t, -, h⟩ := Option.map_eq_some_iff.mp h
    obtain ⟨-, rfl⟩ := Prod.mk.inj h
    have h1 := (List.dropWhile_sublist (l := html) (p := fun c => decide (c ≠ '>'))).length_le
    have h2 := List.length_drop (l := html.dropWhile fun c => decide (c ≠ '>')) (i := 1)
    omega
  · obtain ⟨-, rfl⟩ := Prod.mk.inj (Option.some.inj h)
    exact (List.dropWhile_sublist _).length_le

theorem loop_fuel : ∀ (m n : Nat) (s : HtmlState) (html : List Char), html.length ≤ m → html.length ≤ n →
    loop m s html = loop n s html
  | _, _, _, [], _, _ => by simp [loop]
  | 0, _, _, _ :: _, hm, _ => by simp at hm
  | _, 0, _, _ :: _, _, hn => by simp at hn
  | m + 1, n + 1, s, c :: html, hm, hn => by
    simp only [List.length_cons] at hm hn
    simp only [loop]
    cases hstep : s.step (c :: html) with
    | none => rfl
    | some next =>
      have := step_progress hstep
      exact loop_fuel m n _ _ (by omega) (by omega)

/-- The whole run over what is left. -/
def run (s : HtmlState) (html : List Char) : Option HtmlState := loop html.length s html

@[simp] theorem run_nil (s : HtmlState) : s.run [] = some s := by
  simp [run, loop]

theorem run_cons (s : HtmlState) (c : Char) (html : List Char) :
    s.run (c :: html) = (s.step (c :: html)).bind fun next => next.1.run next.2 := by
  unfold run
  simp only [List.length_cons, loop]
  cases hstep : s.step (c :: html) with
  | none => rfl
  | some next => exact loop_fuel _ _ _ _ (step_progress hstep) le_rfl

theorem takeWhile_ne_append {d : Char} {a b : List Char} (h : d ∉ a) :
    (a ++ d :: b).takeWhile (· ≠ d) = a ∧ (a ++ d :: b).dropWhile (· ≠ d) = d :: b := by
  have hall : ∀ x ∈ a, decide (x ≠ d) = true := by
    intro x hx
    exact decide_eq_true fun heq => h (heq ▸ hx)
  constructor
  · rw [List.takeWhile_append_of_pos hall]
    simp
  · rw [List.dropWhile_append_of_pos hall]
    simp

/-- A tag, from `<` to the first `>`. -/
theorem run_tag (s : HtmlState) {content : List Char} (h : '>' ∉ content) (rest : List Char) :
    s.run ('<' :: (content ++ '>' :: rest)) = (s.readTag content).bind fun s => s.run rest := by
  obtain ⟨htake, hdrop⟩ := takeWhile_ne_append (b := rest) h
  rw [run_cons]
  simp only [step, if_true, htake, hdrop]
  cases s.readTag content <;> rfl

/-- A stretch of text, up to the next tag or the end. -/
theorem run_text (s : HtmlState) {text : List Char} (h : '<' ∉ text) (hne : text ≠ []) (hrest : rest = [] ∨ rest.head? = some '<') :
    s.run (text ++ rest) = (s.pushText (decodeHtmlEntities text)).run rest := by
  obtain ⟨c, text, rfl⟩ := List.exists_cons_of_ne_nil hne
  simp only [List.mem_cons, not_or] at h
  have hsplit : (text ++ rest).takeWhile (· ≠ '<') = text ∧ (text ++ rest).dropWhile (· ≠ '<') = rest := by
    rcases hrest with rfl | hrest
    · have hall : ∀ x ∈ text, decide (x ≠ '<') = true := fun x hx => decide_eq_true fun heq => h.2 (heq ▸ hx)
      rw [List.append_nil]
      exact ⟨List.takeWhile_eq_self_iff.mpr hall, List.dropWhile_eq_nil_iff.mpr hall⟩
    · obtain ⟨rest, rfl⟩ : ∃ r, rest = '<' :: r := by
        cases rest with
        | nil => cases hrest
        | cons d r => exact ⟨r, by rw [Option.some.inj hrest]⟩
      exact takeWhile_ne_append h.2
  have hstep : s.step (c :: (text ++ rest)) = some (s.pushText (decodeHtmlEntities (c :: text)), rest) := by
    simp only [step, if_neg (Ne.symm h.1), hsplit.1, hsplit.2]
  rw [List.cons_append, run_cons, hstep]
  rfl

end HtmlState

/-! Reading a tag's name and attributes. -/

/-- A character that is neither whitespace nor an equals sign. -/
def isNameChar (c : Char) : Bool := !(c == '=' || isWhitespace c)

theorem isWhitespace_of_nameChar {c : Char} (h : isNameChar c = true) : isWhitespace c = false := by
  unfold isNameChar at h
  cases hc : isWhitespace c
  · rfl
  · simp [hc] at h

/-- One attribute in double quotes, with others behind it. -/
theorem attrsLoop_quoted {key value tail : List Char} (fuel : Nat) (hkey : key.all isNameChar = true) (hne : key ≠ [])
    (hvalue : '"' ∉ value) (htail : tail.head? ≠ some '"') :
    attrsLoop (fuel + 1) (key ++ '=' :: '"' :: (value ++ '"' :: tail)) =
      (attrsLoop fuel (trimStart tail)).map fun attrs => (key, value) :: attrs := by
  obtain ⟨k, ks, rfl⟩ := List.exists_cons_of_ne_nil hne
  have htake : (k :: (ks ++ '=' :: '"' :: (value ++ '"' :: tail))).takeWhile (fun c => !(c == '=' || isWhitespace c)) =
      k :: ks := by
    show List.takeWhile isNameChar _ = _
    rw [← List.cons_append, List.takeWhile_append_of_pos (List.all_eq_true.mp hkey)]
    simp [isNameChar]
  have hvalues := HtmlState.takeWhile_ne_append (b := tail) hvalue
  have hquotes : ('"' :: tail).dropWhile (· = '"') = tail := by
    cases tail with
    | nil => rfl
    | cons d tail =>
      have hd : d ≠ '"' := by
        rintro rfl
        exact htail rfl
      simp [hd]
  have hws : isWhitespace '=' = false := by decide
  have hws' : isWhitespace '"' = false := by decide
  have hdrop : (k :: (ks ++ '=' :: '"' :: (value ++ '"' :: tail))).drop (k :: ks).length =
      '=' :: '"' :: (value ++ '"' :: tail) := by
    rw [← List.cons_append, List.drop_left]
  rw [List.cons_append]
  simp only [attrsLoop, htake, hdrop]
  simp only [reduceCtorEq, if_false, trimStart, List.dropWhile_cons, hws, hws', Bool.false_eq_true, attrValue,
    quotedValue, hvalues.1, hvalues.2, hquotes]

theorem trimEnd_slash {name : List Char} (h : name.getLast? ≠ some '/') : trimEndMatches (· == '/') name = name := by
  apply trimEndMatches_eq_self
  intro c hc
  apply beq_false_of_ne
  rintro rfl
  exact h hc

theorem parseTag_split {name attrs : List Char} (hname : name.all isNameChar = true)
    (hslash : name.getLast? ≠ some '/') :
    parseTag (name ++ ' ' :: attrs) = (parseAttrs attrs).map fun attrs => (name, attrs) := by
  have hall : ∀ c ∈ name, (!isWhitespace c) = true := by
    intro c hc
    rw [isWhitespace_of_nameChar (List.all_eq_true.mp hname c hc)]
    rfl
  have hspace : isWhitespace ' ' = true := by decide
  have htake : (name ++ ' ' :: attrs).takeWhile (!isWhitespace ·) = name := by
    rw [List.takeWhile_append_of_pos hall]
    simp [hspace]
  have hdrop : (name ++ ' ' :: attrs).dropWhile (!isWhitespace ·) = ' ' :: attrs := by
    rw [List.dropWhile_append_of_pos hall]
    simp [hspace]
  unfold parseTag
  rw [htake, hdrop, trimEnd_slash hslash]
  rfl

/-- `key="value"`. -/
def attrText (key value : List Char) : List Char := key ++ '=' :: '"' :: (value ++ ['"'])

/-- The text of an attribute that stands for itself: a name that is not empty, a value without quotes. -/
structure AttrOk (key value : List Char) : Prop where
  key_ok : key.all isNameChar = true
  key_ne : key ≠ []
  value_ok : '"' ∉ value

theorem attrText_head {key value : List Char} (h : AttrOk key value) (rest : List Char) :
    ∃ a, (attrText key value ++ rest).head? = some a ∧ isWhitespace a = false := by
  obtain ⟨k, ks, rfl⟩ := List.exists_cons_of_ne_nil h.key_ne
  exact ⟨k, rfl, isWhitespace_of_nameChar (List.all_eq_true.mp h.key_ok k List.mem_cons_self)⟩

theorem attrText_last (key value : List Char) (pre : List Char) :
    (pre ++ attrText key value).getLast? = some '"' := by
  have hend : pre ++ attrText key value = (pre ++ (key ++ '=' :: '"' :: value)) ++ ['"'] := by simp [attrText]
  rw [hend, List.getLast?_concat]

/-- A tag with one attribute. -/
theorem parseTag_attr {name key value : List Char} (hname : name.all isNameChar = true)
    (hslash : name.getLast? ≠ some '/') (h : AttrOk key value) :
    parseTag (name ++ ' ' :: attrText key value) = some (name, [(key, value)]) := by
  obtain ⟨a, hhead, ha⟩ := attrText_head h []
  rw [List.append_nil] at hhead
  have htrim : trim (attrText key value) = attrText key value :=
    trim_of_ends hhead (attrText_last key value []) ha (by decide)
  obtain ⟨fuel, hfuel⟩ : ∃ fuel, (attrText key value).length = fuel + 1 :=
    Nat.exists_eq_succ_of_ne_zero (by simp [attrText])
  have hattrs : parseAttrs (attrText key value) = some [(key, value)] := by
    unfold parseAttrs
    rw [htrim, hfuel]
    unfold attrText
    rw [attrsLoop_quoted fuel h.key_ok h.key_ne h.value_ok (by simp)]
    simp [trimStart, attrsLoop]
  rw [parseTag_split hname hslash, hattrs]
  rfl

/-- A tag with two attributes. -/
theorem parseTag_attr_attr {name key value key' value' : List Char} (hname : name.all isNameChar = true)
    (hslash : name.getLast? ≠ some '/') (h : AttrOk key value) (h' : AttrOk key' value') :
    parseTag (name ++ ' ' :: (attrText key value ++ ' ' :: attrText key' value')) =
      some (name, [(key, value), (key', value')]) := by
  obtain ⟨a, hhead, ha⟩ := attrText_head h (' ' :: attrText key' value')
  obtain ⟨b, hhead', hb⟩ := attrText_head h' []
  rw [List.append_nil] at hhead'
  have hlast : (attrText key value ++ ' ' :: attrText key' value').getLast? = some '"' := by
    have := attrText_last key' value' (attrText key value ++ [' '])
    simpa using this
  have htrim := trim_of_ends hhead hlast ha (by decide)
  have hskip : trimStart (' ' :: attrText key' value') = attrText key' value' := by
    obtain ⟨k, ks, hk⟩ := List.exists_cons_of_ne_nil (l := attrText key' value') (by simp [attrText])
    rw [hk] at hhead'
    obtain rfl := Option.some.inj hhead'
    have hspace : isWhitespace ' ' = true := by decide
    simp [trimStart, hk, hspace, hb]
  obtain ⟨fuel, hfuel⟩ : ∃ fuel, (attrText key value ++ ' ' :: attrText key' value').length = fuel + 1 + 1 := by
    refine ⟨(attrText key value).length + (attrText key' value').length - 1, ?_⟩
    have : 0 < (attrText key value).length := List.length_pos_iff.mpr (by simp [attrText])
    simp only [List.length_append, List.length_cons]
    omega
  have hattrs : parseAttrs (attrText key value ++ ' ' :: attrText key' value') =
      some [(key, value), (key', value')] := by
    have htext : attrText key value ++ ' ' :: attrText key' value' =
        key ++ '=' :: '"' :: (value ++ '"' :: ' ' :: attrText key' value') := by simp [attrText]
    unfold parseAttrs
    rw [htrim, hfuel, htext, attrsLoop_quoted (fuel + 1) h.key_ok h.key_ne h.value_ok (by simp), hskip]
    unfold attrText
    rw [attrsLoop_quoted fuel h'.key_ok h'.key_ne h'.value_ok (by simp)]
    simp [trimStart, attrsLoop]
  rw [parseTag_split hname hslash, hattrs]
  rfl

theorem attr_head (name value : List Char) (attrs : List (List Char × List Char)) :
    attr name ((name, value) :: attrs) = some value := by
  simp [attr]

/-! What the tags of an entity do. -/

/-- The close tags the generator writes. -/
inductive CloseTag where
  | b
  | i
  | u
  | s
  | tgSpoiler
  | code
  | pre
  | a
  | tgEmoji
  | blockquote
  | tgTime
deriving DecidableEq

def CloseTag.name : CloseTag → List Char
  | .b => "b".toList
  | .i => "i".toList
  | .u => "u".toList
  | .s => "s".toList
  | .tgSpoiler => "tg-spoiler".toList
  | .code => "code".toList
  | .pre => "pre".toList
  | .a => "a".toList
  | .tgEmoji => "tg-emoji".toList
  | .blockquote => "blockquote".toList
  | .tgTime => "tg-time".toList

namespace EntityKind

/-- The tag that closes an entity, for the kinds that have tags. -/
def closer? : EntityKind → Option CloseTag
  | .bold => some .b
  | .italic => some .i
  | .underline => some .u
  | .strike => some .s
  | .spoiler => some .tgSpoiler
  | .code => some .code
  | .pre _ => some .pre
  | .textUrl _ => some .a
  | .mentionName _ => some .a
  | .customEmoji _ => some .tgEmoji
  | .blockquote _ => some .blockquote
  | .formattedDate _ _ => some .tgTime
  | .other _ => none

/-- The close tags written for it. -/
def closeTags : EntityKind → List CloseTag
  | .pre _ => [.code, .pre]
  | kind => kind.closer?.toList

/-- The tag the parser makes of its open tag. -/
def htmlTag : EntityKind → HtmlTag
  | .bold => .bold
  | .italic => .italic
  | .underline => .underline
  | .strike => .strike
  | .spoiler => .spoiler
  | .code => .code
  | .pre _ => .pre
  | .textUrl url => .link (escapeHtml url)
  | .mentionName userId => .link (mentionPrefix ++ Decimal.format userId.toInt)
  | .customEmoji documentId => .customEmoji documentId
  | .blockquote collapsed => .blockquote collapsed
  | .formattedDate flags date => .tgTime date (parseTgTimeFormat (tgTimeFlagsToFormat flags))
  | .other _ => .unknown

/-- What an entity's open tags leave on the stack. -/
def entries (off : Int32) : EntityKind → List HtmlEntry
  | .pre language => [⟨.pre, off, some language⟩, ⟨.codeInPre, off, none⟩]
  | .other _ => []
  | kind => [⟨kind.htmlTag, off, none⟩]

/-- The language of a code block stands in its tag as it is, so it must not end the tag or the
    attribute. -/
def LanguageOk : EntityKind → Prop
  | .pre language => '"' ∉ language ∧ '>' ∉ language
  | _ => True

end EntityKind

namespace HtmlState

/-- An entity's opening tags. `<code>` looks at the entry it is put on. -/
def opened (s : HtmlState) (e : MessageEntity) : HtmlState :=
  match e.kind with
  | .code => s.openCode []
  | kind => { s with stack := s.stack ++ kind.entries s.utf16Off }

/-- An entity's closing tags. -/
def closed (s : HtmlState) (e : MessageEntity) : HtmlState :=
  e.kind.closeTags.foldl (fun s k => s.closeTag k.name) s

theorem readTag_open (s : HtmlState) {content name : List Char} {attrs : List (List Char × List Char)}
    (hslash : content.head? ≠ some '/') (h : parseTag (trim content) = some (name, attrs)) :
    s.readTag content = some (s.openTag name attrs) := by
  unfold readTag
  split
  · exact absurd rfl hslash
  · rw [h]
    rfl

theorem run_open (s : HtmlState) {content name : List Char} {attrs : List (List Char × List Char)}
    (hgt : '>' ∉ content) (hslash : content.head? ≠ some '/') (h : parseTag (trim content) = some (name, attrs))
    (rest : List Char) : s.run ('<' :: (content ++ '>' :: rest)) = (s.openTag name attrs).run rest := by
  rw [run_tag s hgt, readTag_open s hslash h]
  rfl

theorem run_close (s : HtmlState) (k : CloseTag) (rest : List Char) :
    s.run ('<' :: '/' :: (k.name ++ '>' :: rest)) = (s.closeTag k.name).run rest := by
  have hgt : '>' ∉ '/' :: k.name := by cases k <;> decide
  have hread : s.readTag ('/' :: k.name) = some (s.closeTag k.name) := by
    have hparse : parseTag (trim k.name) = some (k.name, []) := by cases k <;> decide
    simp [readTag, hparse]
  rw [← List.cons_append, run_tag s hgt, hread]
  rfl

/-- An entity's closing tags. -/
theorem run_closing (s : HtmlState) (e : MessageEntity) (rest : List Char) :
    s.run (closeText htmlTags e ++ rest) = (s.closed e).run rest := by
  have htext : closeText htmlTags e = e.kind.closeTags.flatMap fun k => '<' :: '/' :: (k.name ++ ['>']) := by
    unfold closeText htmlTags
    cases e.kind <;> rfl
  rw [htext]
  unfold closed
  generalize e.kind.closeTags = ks
  induction ks generalizing s with
  | nil => rfl
  | cons k ks ih =>
    rw [List.flatMap_cons, List.append_assoc, List.cons_append, List.cons_append, List.append_assoc]
    exact (run_close s k _).trans (ih _)

/-- An open tag with one attribute. -/
theorem run_open_attr (s : HtmlState) {name key value : List Char} {a : Char} (hhead : name.head? = some a)
    (ha : a ≠ '/') (hname : name.all isNameChar = true) (hlast : name.getLast? ≠ some '/') (hgt : '>' ∉ name ++ key)
    (h : AttrOk key value) (hvalue : '>' ∉ value) (rest : List Char) :
    s.run ('<' :: ((name ++ ' ' :: attrText key value) ++ '>' :: rest)) = (s.openTag name [(key, value)]).run rest := by
  have hfirst : (name ++ ' ' :: attrText key value).head? = some a := by
    cases name with
    | nil => cases hhead
    | cons n name => exact hhead
  have hend : (name ++ ' ' :: attrText key value).getLast? = some '"' := by
    have := attrText_last key value (name ++ [' '])
    simpa using this
  have hws : isWhitespace a = false := isWhitespace_of_nameChar (List.all_eq_true.mp hname a (List.mem_of_head? hhead))
  apply run_open s
  · simp only [List.mem_append, not_or] at hgt
    simp [attrText, hgt.1, hgt.2, hvalue]
  · rw [hfirst]
    simpa using ha
  · rw [trim_of_ends hfirst hend hws (by decide)]
    exact parseTag_attr hname hlast h

theorem not_mem_escapeHtml (url : List Char) : '"' ∉ escapeHtml url ∧ '>' ∉ escapeHtml url := by
  unfold escapeHtml
  constructor
  · intro h
    rcases mem_replaceAll_singleton h with h | h
    · exact h.2 rfl
    · exact absurd h (by decide)
  · intro h
    rcases mem_replaceAll_singleton h with ⟨h, -⟩ | h
    · rcases mem_replaceAll_singleton h with h | h
      · exact h.2 rfl
      · exact absurd h (by decide)
    · exact absurd h (by decide)

/-- A number in an attribute ends neither the attribute nor the tag. -/
theorem not_mem_format (n : Int) : '"' ∉ Decimal.format n ∧ '>' ∉ Decimal.format n := by
  constructor <;>
  · intro h
    rcases Decimal.mem_format h with h | h <;> exact absurd h (by decide)

/-- Directly inside `<pre>` the code tag names the language. -/
theorem openCode_in_pre (s : HtmlState) {attrs : List (List Char × List Char)} {language : List Char}
    (h : ((attr "class".toList attrs).bind (stripPrefix "language-".toList)).getD [] = language) :
    (s.pushTag .pre).openTag "code".toList attrs =
      { s with stack := s.stack ++ EntityKind.entries s.utf16Off (.pre language) } := by
  have hlast : (s.pushTag .pre).stack.getLast? = some ⟨.pre, s.utf16Off, none⟩ := List.getLast?_concat
  have hrest : (s.pushTag .pre).stack.dropLast = s.stack := List.dropLast_concat
  have hopen : (s.pushTag .pre).openTag "code".toList attrs = (s.pushTag .pre).openCode attrs := rfl
  rw [hopen, ← h]
  unfold openCode
  rw [hlast, hrest]
  rfl

/-- The tags of a code block. -/
theorem run_pre_opening (s : HtmlState) {language : List Char} (hlang : '"' ∉ language ∧ '>' ∉ language)
    (rest : List Char) :
    s.run ("<pre><code".toList ++ (if language = [] then [] else " class=\"language-".toList ++ language ++ ['"']) ++
        ['>'] ++ rest) =
      HtmlState.run { s with stack := s.stack ++ EntityKind.entries s.utf16Off (.pre language) } rest := by
  have hpre : ∀ rest, s.run ('<' :: ("pre".toList ++ '>' :: rest)) = (s.pushTag .pre).run rest := by
    intro rest
    exact run_open s (by decide) (by decide) (show _ = some ("pre".toList, []) by decide) rest
  by_cases hempty : language = []
  · have htext : "<pre><code".toList ++ (if language = [] then [] else " class=\"language-".toList ++ language ++ ['"']) ++
        ['>'] ++ rest = '<' :: ("pre".toList ++ '>' :: ('<' :: ("code".toList ++ '>' :: rest))) := by
      rw [if_pos hempty]
      rfl
    rw [htext, hpre, run_open _ (by decide) (by decide) (show _ = some ("code".toList, []) by decide),
      openCode_in_pre s (show _ = language by rw [hempty]; rfl)]
  · have hend : '<' :: ("pre".toList ++ '>' :: ('<' :: (("code".toList ++ ' ' ::
        attrText "class".toList ("language-".toList ++ language)) ++ '>' :: rest))) =
          "<pre><code class=\"language-".toList ++ ((language ++ ['"']) ++ '>' :: rest) := rfl
    have htext : "<pre><code".toList ++ (if language = [] then [] else " class=\"language-".toList ++ language ++ ['"']) ++
        ['>'] ++ rest = "<pre><code class=\"language-".toList ++ ((language ++ ['"']) ++ '>' :: rest) := by
      rw [if_neg hempty, List.append_assoc, List.append_assoc, List.append_assoc " class=\"language-".toList]
      rfl
    have hok : AttrOk "class".toList ("language-".toList ++ language) :=
      ⟨by decide, by decide, fun h => (List.mem_append.mp h).elim (by decide) hlang.1⟩
    have hgt : '>' ∉ "language-".toList ++ language := fun h => (List.mem_append.mp h).elim (by decide) hlang.2
    have hname : ((attr "class".toList [("class".toList, "language-".toList ++ language)]).bind
        (stripPrefix "language-".toList)).getD [] = language := by
      rw [attr_head, Option.bind_some, stripPrefix_append]
      rfl
    rw [htext, ← hend, hpre,
      run_open_attr _ (a := 'c') (by decide) (by decide) (by decide) (by decide) (by decide) hok hgt,
      openCode_in_pre s hname]

/-- A tag without attributes. -/
theorem run_plain_opening (s : HtmlState) {name : List Char} {tag : HtmlTag} (hgt : '>' ∉ name)
    (hslash : name.head? ≠ some '/') (hparse : parseTag (trim name) = some (name, []))
    (hopen : s.openTag name [] = s.pushTag tag) (rest : List Char) :
    s.run ('<' :: (name ++ '>' :: rest)) = (s.pushTag tag).run rest := by
  rw [run_open s hgt hslash hparse, hopen]

/-- A link. -/
theorem run_link_opening (s : HtmlState) {url : List Char} (h : '"' ∉ url ∧ '>' ∉ url) (rest : List Char) :
    s.run ("<a href=\"".toList ++ (url ++ ("\">".toList ++ rest))) = (s.pushTag (.link url)).run rest := by
  have htext : "<a href=\"".toList ++ (url ++ ("\">".toList ++ rest)) =
      '<' :: (("a".toList ++ ' ' :: attrText "href".toList url) ++ '>' :: rest) := by
    have : (url ++ ("\">".toList ++ rest)) = (url ++ ['"']) ++ '>' :: rest := by
      rw [List.append_assoc]
      rfl
    rw [this]
    rfl
  have hopen : s.openTag "a".toList [("href".toList, url)] = s.pushTag (.link url) := by
    show s.pushTag (.link ((attr "href".toList [("href".toList, url)]).getD [])) = _
    rw [attr_head]
    rfl
  rw [htext, run_open_attr s (a := 'a') rfl (by decide) (by decide) (by decide) (by decide)
    ⟨by decide, by decide, h.1⟩ h.2, hopen]

/-- A custom emoji. -/
theorem run_emoji_opening (s : HtmlState) (documentId : Int64) (rest : List Char) :
    s.run ("<tg-emoji emoji-id=\"".toList ++ (Decimal.format documentId.toInt ++ ("\">".toList ++ rest))) =
      (s.pushTag (.customEmoji documentId)).run rest := by
  obtain ⟨hquote, hgt⟩ := not_mem_format documentId.toInt
  have htext : "<tg-emoji emoji-id=\"".toList ++ (Decimal.format documentId.toInt ++ ("\">".toList ++ rest)) =
      '<' :: (("tg-emoji".toList ++ ' ' :: attrText "emoji-id".toList (Decimal.format documentId.toInt)) ++
        '>' :: rest) := by
    have : (Decimal.format documentId.toInt ++ ("\">".toList ++ rest)) =
        (Decimal.format documentId.toInt ++ ['"']) ++ '>' :: rest := by
      rw [List.append_assoc]
      rfl
    rw [this]
    rfl
  have hopen : s.openTag "tg-emoji".toList [("emoji-id".toList, Decimal.format documentId.toInt)] =
      s.pushTag (.customEmoji documentId) := by
    show s.pushTag (.customEmoji (((attr "emoji-id".toList
      [("emoji-id".toList, Decimal.format documentId.toInt)]).bind parseI64).getD 0)) = _
    rw [attr_head, Option.bind_some, parseI64_format]
    rfl
  rw [htext, run_open_attr s (a := 't') rfl (by decide) (by decide) (by decide) (by decide)
    ⟨by decide, by decide, hquote⟩ hgt, hopen]

theorem not_mem_tgTimeFlagsToFormat (flags : DateFlags) :
    '"' ∉ tgTimeFlagsToFormat flags ∧ '>' ∉ tgTimeFlagsToFormat flags := by
  obtain ⟨relative, shortTime, longTime, shortDate, longDate, dayOfWeek⟩ := flags
  cases relative <;> cases shortTime <;> cases longTime <;> cases shortDate <;> cases longDate <;> cases dayOfWeek <;>
    decide

/-- A date. -/
theorem run_date_opening (s : HtmlState) (flags : DateFlags) (date : Int32) (rest : List Char) :
    s.run ("<tg-time unix=\"".toList ++ (Decimal.format date.toInt ++ ("\" format=\"".toList ++
        (tgTimeFlagsToFormat flags ++ ("\">".toList ++ rest))))) =
      (s.pushTag (.tgTime date (parseTgTimeFormat (tgTimeFlagsToFormat flags)))).run rest := by
  obtain ⟨hquote, hgt⟩ := not_mem_format date.toInt
  obtain ⟨hquote', hgt'⟩ := not_mem_tgTimeFlagsToFormat flags
  have hparse : parseTag ("tg-time".toList ++ ' ' :: (attrText "unix".toList (Decimal.format date.toInt) ++
      ' ' :: attrText "format".toList (tgTimeFlagsToFormat flags))) = some ("tg-time".toList,
        [("unix".toList, Decimal.format date.toInt), ("format".toList, tgTimeFlagsToFormat flags)]) :=
    parseTag_attr_attr (by decide) (by decide) ⟨by decide, by decide, hquote⟩ ⟨by decide, by decide, hquote'⟩
  have hopen : s.openTag "tg-time".toList
      [("unix".toList, Decimal.format date.toInt), ("format".toList, tgTimeFlagsToFormat flags)] =
        s.pushTag (.tgTime date (parseTgTimeFormat (tgTimeFlagsToFormat flags))) := by
    show s.pushTag (.tgTime (((attr "unix".toList [("unix".toList, Decimal.format date.toInt), _]).bind
      parseI32).getD 0) (parseTgTimeFormat (tgTimeFlagsToFormat flags))) = _
    rw [attr_head, Option.bind_some, parseI32_format]
    rfl
  generalize Decimal.format date.toInt = d at *
  generalize tgTimeFlagsToFormat flags = f at *
  have htext : "<tg-time unix=\"".toList ++ (d ++ ("\" format=\"".toList ++ (f ++ ("\">".toList ++ rest)))) =
      '<' :: (("tg-time".toList ++ ' ' :: (attrText "unix".toList d ++ ' ' :: attrText "format".toList f)) ++
        '>' :: rest) := by
    unfold attrText
    simp only [List.append_assoc, List.cons_append]
    rfl
  have hends : trim ("tg-time".toList ++ ' ' :: (attrText "unix".toList d ++ ' ' :: attrText "format".toList f)) =
      "tg-time".toList ++ ' ' :: (attrText "unix".toList d ++ ' ' :: attrText "format".toList f) := by
    have hlast := attrText_last "format".toList f ("tg-time".toList ++ ' ' :: (attrText "unix".toList d ++ [' ']))
    simp only [List.append_assoc, List.cons_append, List.nil_append] at hlast
    exact trim_of_ends (x := 't') rfl hlast (by decide) (by decide)
  have hclosed : '>' ∉ "tg-time".toList ++ ' ' :: (attrText "unix".toList d ++ ' ' :: attrText "format".toList f) := by
    have hname : '>' ∉ "tg-time".toList := by decide
    have hkey : '>' ∉ "unix".toList := by decide
    have hkey' : '>' ∉ "format".toList := by decide
    simp only [attrText, List.mem_append, List.mem_cons, List.not_mem_nil, hname, hkey, hkey', hgt, hgt', or_false,
      false_or]
    decide
  have hslash : ("tg-time".toList ++ ' ' :: (attrText "unix".toList d ++ ' ' :: attrText "format".toList f)).head? ≠
      some '/' := by
    show some 't' ≠ some '/'
    decide
  rw [htext, run_open s hclosed hslash (hends.symm ▸ hparse), hopen]

theorem opened_of_entries_nil (s : HtmlState) {e : MessageEntity} {constructorId : UInt32}
    (h : e.kind = .other constructorId) : s.opened e = s := by
  unfold opened
  rw [h]
  simp [EntityKind.entries]

/-- An entity's opening tags. -/
theorem run_opening (s : HtmlState) {e : MessageEntity} (h : e.kind.LanguageOk) (rest : List Char) :
    s.run (openText htmlTags e ++ rest) = (s.opened e).run rest := by
  obtain ⟨off, len, kind⟩ := e
  cases kind with
  | bold => exact run_plain_opening s (by decide) (by decide) (show _ = some ("b".toList, []) by decide) rfl rest
  | italic => exact run_plain_opening s (by decide) (by decide) (show _ = some ("i".toList, []) by decide) rfl rest
  | underline => exact run_plain_opening s (by decide) (by decide) (show _ = some ("u".toList, []) by decide) rfl rest
  | strike => exact run_plain_opening s (by decide) (by decide) (show _ = some ("s".toList, []) by decide) rfl rest
  | spoiler =>
    exact run_plain_opening s (by decide) (by decide) (show _ = some ("tg-spoiler".toList, []) by decide) rfl rest
  | code =>
    show s.run ('<' :: ("code".toList ++ '>' :: rest)) = (s.openTag "code".toList []).run rest
    exact run_open s (by decide) (by decide) (by decide) rest
  | pre language => exact run_pre_opening s h rest
  | textUrl url =>
    have hrun := run_link_opening s (not_mem_escapeHtml url) rest
    rw [← List.append_assoc, ← List.append_assoc] at hrun
    exact hrun
  | mentionName userId =>
    obtain ⟨hquote, hgt⟩ := not_mem_format userId.toInt
    have hurl : '"' ∉ mentionPrefix ++ Decimal.format userId.toInt ∧ '>' ∉ mentionPrefix ++ Decimal.format userId.toInt :=
      ⟨fun h => (List.mem_append.mp h).elim (by decide) hquote, fun h => (List.mem_append.mp h).elim (by decide) hgt⟩
    have hrun := run_link_opening s hurl rest
    simp only [← List.append_assoc] at hrun
    exact hrun
  | customEmoji documentId =>
    have hrun := run_emoji_opening s documentId rest
    rw [← List.append_assoc, ← List.append_assoc] at hrun
    exact hrun
  | blockquote collapsed =>
    cases collapsed with
    | false =>
      exact run_plain_opening s (by decide) (by decide) (show _ = some ("blockquote".toList, []) by decide) rfl rest
    | true =>
      show s.run ('<' :: ("blockquote expandable".toList ++ '>' :: rest)) =
        (s.openTag "blockquote".toList [("expandable".toList, [])]).run rest
      exact run_open s (by decide) (by decide) (by decide) rest
  | formattedDate flags date =>
    have hrun := run_date_opening s flags date rest
    simp only [← List.append_assoc] at hrun
    exact hrun
  | other constructorId => rw [opened_of_entries_nil s rfl]; rfl

end HtmlState

end Ferogram.Parsers
