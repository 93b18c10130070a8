import Ferogram.Parsers.HtmlForest

/- Where the two HTML backends agree. On a forest whose searches find what they should
   (`Forest.Apart`) both return the text and the entities of the forest: the built-in parser
   (`HtmlState.feed_forest`), which has them in the order in which they close, and the sink
   (`Sink.feed_forest`), in whose result an entity stands where it was opened. -/
namespace Ferogram.Parsers
open TagStack

/-! What the tags of an element do. -/

/-- Two functions that branch on the same question. -/
theorem ite_both {α β : Type} {R : α → β → Prop} {c : Prop} [Decidable c] {x y : α} {a b : β} (hpos : R x a) (hneg : R y b) :
    R (if c then x else y) (if c then a else b) := by
  split
  · exact hpos
  · exact hneg

theorem ite_of {α : Type} {P : α → Prop} {c : Prop} [Decidable c] {x y : α} (hpos : c → P x) (hneg : P y) :
    P (if c then x else y) := by
  split
  · next h => exact hpos h
  · exact hneg

def HtmlState.openElement (s : HtmlState) (attrs : List (List Char × List Char)) (tag : HtmlTag) : HtmlState :=
  if tag = .code then s.openCode attrs else s.pushTag tag

def Sink.openElement (s : Sink) (attrs : List (List Char × List Char)) (tag : HtmlTag) : Sink :=
  if tag = .code then if s.inPre then s.setLanguage (codeLanguage attrs) else s.push .code
  else match tag.kind? [] with
    | some kind => s.push kind
    | none => s

def Sink.closeElement (s : Sink) (tag : HtmlTag) : Sink :=
  match tag with
  | .link _ => s.closeLink
  | .code => if s.inPre then s else s.closeEnt .code
  | tag => match tag.variant? with
    | some v => s.closeEnt v
    | none => s

namespace Element
variable (e : Element)

theorem openTag_eq (s : HtmlState) : s.openTag e.name e.attrs = s.openElement e.attrs e.tag := by
  refine (?_ : ∀ tag, elementTag e.name e.attrs = some tag → s.openTag e.name e.attrs = s.openElement e.attrs tag) _ e.supported
  have hsame : ∀ {tag : HtmlTag} {s' : HtmlState}, s' = s.openElement e.attrs tag →
      ∀ tag', some tag = some tag' → s' = s.openElement e.attrs tag' := by
    intro tag s' h tag' htag
    rw [h, Option.some.inj htag]
  have hspan : ∀ (b : Bool) (tag : HtmlTag), (if b = true then some HtmlTag.spanSpoiler else none) = some tag →
      s.pushTag (if b = true then .spanSpoiler else .unknown) = s.openElement e.attrs tag := by
    intro b tag h
    cases b
    · cases h
    · cases h
      rfl
  unfold elementTag HtmlState.openTag
  repeat' refine ite_both (R := fun o s' => ∀ tag, o = some tag → s' = s.openElement e.attrs tag) ?_ ?_
  any_goals exact hsame rfl
  · exact hspan _
  all_goals nofun

theorem startTag_eq (s : Sink) : s.startTag e.name e.attrs = s.openElement e.attrs e.tag := by
  refine (?_ : ∀ tag, elementTag e.name e.attrs = some tag → s.startTag e.name e.attrs = s.openElement e.attrs tag) _
    e.supported
  have hsame : ∀ {tag : HtmlTag} {s' : Sink}, s' = s.openElement e.attrs tag →
      ∀ tag', some tag = some tag' → s' = s.openElement e.attrs tag' := by
    intro tag s' h tag' htag
    rw [h, Option.some.inj htag]
  have hnone : ∀ (s' : Sink) (tag' : HtmlTag), none = some tag' → s' = s.openElement e.attrs tag' := by
    intro s' tag' htag
    cases htag
  unfold elementTag Sink.startTag
  repeat' refine ite_both (R := fun o s' => ∀ tag, o = some tag → s' = s.openElement e.attrs tag) ?_ ?_
  any_goals exact hsame rfl
  any_goals exact hnone _
  -- A link: the sink asks for the number first.
  refine hsame ?_
  unfold Sink.openElement HtmlTag.kind? HtmlEntry.kind?
  dsimp only
  cases stripPrefix mentionPrefix ((attr "href".toList e.attrs).getD []) with
  | none => rfl
  | some id =>
    dsimp only
    cases parseI64 id <;> rfl

theorem endTag_eq (s : Sink) : s.endTag e.name = s.closeElement e.tag := by
  refine (?_ : ∀ tag, elementTag e.name e.attrs = some tag → s.endTag e.name = s.closeElement tag) _ e.supported
  have hsame : ∀ {tag : HtmlTag} {s' : Sink}, s' = s.closeElement tag →
      ∀ tag', some tag = some tag' → s' = s.closeElement tag' := by
    intro tag s' h tag' htag
    rw [h, Option.some.inj htag]
  unfold elementTag Sink.endTag
  iterate 4 refine ite_both (R := fun o s' => ∀ tag, o = some tag → s' = s.closeElement tag) (hsame rfl) ?_
  -- The sink has one question for the two spoilers.
  by_cases hspoiler : e.name = "tg-spoiler".toList
  · rw [if_pos hspoiler, if_pos (List.mem_cons.mpr (Or.inl hspoiler))]
    exact hsame rfl
  · by_cases hspan : e.name = "span".toList
    · rw [if_neg hspoiler, if_pos hspan, if_pos (List.mem_cons_of_mem _ (List.mem_singleton.mpr hspan))]
      intro tag htag
      split at htag
      · cases htag
        rfl
      · cases htag
    · have hneither : e.name ∉ ["tg-spoiler".toList, "span".toList] := by
        intro h
        exact (List.mem_cons.mp h).elim hspoiler fun h => hspan (List.mem_singleton.mp h)
      rw [if_neg hspoiler, if_neg hspan, if_neg hneither]
      repeat' refine ite_both (R := fun o s' => ∀ tag, o = some tag → s' = s.closeElement tag) ?_ ?_
      any_goals exact hsame rfl
      all_goals nofun

theorem closesWith : e.tag.closesWith e.name = true := by
  refine (?_ : ∀ tag, elementTag e.name e.attrs = some tag → tag.closesWith e.name = true) _ e.supported
  unfold elementTag
  repeat' refine ite_of (P := fun o => ∀ tag : HtmlTag, o = some tag → tag.closesWith e.name = true) (fun h => ?_) ?_
  all_goals
    intro tag htag
    cases htag
  all_goals first | exact decide_eq_true h | exact decide_eq_true ‹e.name = "span".toList›

theorem name_eq_code : e.name = "code".toList ↔ e.tag = .code := by
  constructor
  · intro h
    have hcode : elementTag e.name e.attrs = some .code := by
      rw [h]
      rfl
    exact Option.some.inj (e.supported.symm.trans hcode)
  · intro h
    have hclose := e.closesWith
    rw [h] at hclose
    exact of_decide_eq_true hclose

end Element

theorem Leaf.processToken (l : Leaf) (s : Sink) : s.processToken l.token = s.pushText l.text := by
  cases l <;> rfl

/-! The built-in parser on a forest. -/

theorem Leaf.readToken (l : Leaf) (s : HtmlState) : s.readToken l.token = s.pushText l.text := by
  cases l <;> rfl

theorem HtmlTag.kind?_entry (tag : HtmlTag) (offset : Int32) (extra : Option (List Char)) :
    (⟨tag, offset, extra⟩ : HtmlEntry).kind? = tag.kind? (extra.getD []) := by
  cases tag <;> rfl

theorem HtmlTag.kind?_of_ne_pre {tag : HtmlTag} (h : tag ≠ .pre) (language language' : List Char) :
    tag.kind? language = tag.kind? language' := by
  cases tag <;> first | rfl | exact absurd rfl h

theorem HtmlTag.variant?_eq (tag : HtmlTag) (language : List Char) :
    (tag.kind? language).map EntityKind.variant = tag.variant? := by
  by_cases h : tag = .pre
  · rw [h]
    rfl
  · rw [variant?, kind?_of_ne_pre h language []]

theorem add_sub_self (a b : Int32) : a + b - a = b := by
  rw [Int32.add_comm, Int32.add_sub_cancel]

theorem pos_iff_of_nonneg {w : Int32} (h : 0 ≤ w) : 0 < w ↔ w ≠ 0 := by
  rw [Int32.lt_iff_le_and_ne]
  exact ⟨fun hw => hw.2.symm, fun hw => ⟨h, hw.symm⟩⟩

namespace Forest

theorem width_leaf (l : Leaf) (rest : Forest) : (leaf l rest).width = Int32.ofNat (utf16Len l.text) + rest.width := by
  rw [width, text, utf16Len_append, Int32.ofNat_add, width]

theorem width_element (e : Element) (inner rest : Forest) : (element e inner rest).width = inner.width + rest.width := by
  rw [width, text, utf16Len_append, Int32.ofNat_add, width, width]

/-- The entity of an element itself. -/
def entity? (inPre : Bool) (offset : Int32) (e : Element) (inner : Forest) : List MessageEntity :=
  if inner.width = 0 then [] else ((kindOf inPre e inner).map fun kind => ⟨offset, inner.width, kind⟩).toList

theorem entities_element (inPre : Bool) (offset : Int32) (e : Element) (inner rest : Forest) :
    (element e inner rest).entities inPre offset = entity? inPre offset e inner ++
      (inner.entities (e.tag = .pre) offset ++ rest.entities inPre (offset + inner.width)) := rfl

end Forest

namespace HtmlState
open Forest

/-- The open code block that the parser is directly in, on top of its stack. -/
def frame (pre : Option Int32) (language : Option (List Char)) : List HtmlEntry :=
  (pre.map fun offset => ⟨.pre, offset, language⟩).toList

theorem closeEntry_top {s : HtmlState} {name : List Char} {base : List HtmlEntry} {entry : HtmlEntry}
    (hs : s.stack = base ++ [entry]) (hname : entry.tag.closesWith name = true) : s.closeEntry name =
    { s with
      stack := base
      ents := s.ents ++ if 0 < s.utf16Off - entry.startOff then
        (entry.kind?.map fun kind => ⟨entry.startOff, s.utf16Off - entry.startOff, kind⟩).toList else [] } := by
  have htop : removeLast (fun entry : HtmlEntry => entry.tag.closesWith name) (base ++ [entry]) = some (entry, base) :=
    removeLast_top (p := fun entry : HtmlEntry => entry.tag.closesWith name) hname base
  rw [closeEntry, hs, htop]

/-- The close tag of an element on top of the stack. -/
theorem closeTag_top (e : Element) {s : HtmlState} {base : List HtmlEntry} {offset : Int32} {extra : Option (List Char)}
    (hs : s.stack = base ++ [⟨e.tag, offset, extra⟩]) (hmarks : e.tag = .code → ∀ x ∈ base, x.tag ≠ .codeInPre) :
    s.closeTag e.name =
    { s with
      stack := base
      ents := s.ents ++ if 0 < s.utf16Off - offset then
        ((e.tag.kind? (extra.getD [])).map fun kind => ⟨offset, s.utf16Off - offset, kind⟩).toList else [] } := by
  have hclose := closeEntry_top hs e.closesWith
  rw [HtmlTag.kind?_entry] at hclose
  unfold closeTag
  split
  · next hcode =>
    have htag : e.tag = .code := e.name_eq_code.mp hcode
    have hnone : removeLast (fun entry : HtmlEntry => entry.tag = .codeInPre) s.stack = none := by
      apply removeLast_eq_none.mpr
      intro x hx
      apply decide_eq_false
      rw [hs] at hx
      rcases List.mem_append.mp hx with hx | hx
      · exact hmarks htag x hx
      · rw [List.mem_singleton.mp hx]
        rw [htag]
        nofun
    rw [hnone]
    exact hclose
  · exact hclose

/-- `</code>` with the mark of a `<code>` directly in a code block on top of the stack. -/
theorem closeTag_mark (e : Element) (he : e.tag = .code) {s : HtmlState} {base : List HtmlEntry} {offset : Int32}
    (hs : s.stack = base ++ [⟨.codeInPre, offset, none⟩]) : s.closeTag e.name = { s with stack := base } := by
  have htop : removeLast (fun entry : HtmlEntry => entry.tag = .codeInPre) (base ++ [⟨.codeInPre, offset, none⟩]) =
      some (⟨.codeInPre, offset, none⟩, base) := removeLast_top rfl base
  rw [closeTag, if_pos (e.name_eq_code.mpr he), hs, htop]

theorem feed_element (s : HtmlState) (e : Element) (inner rest : Forest) : s.feed (element e inner rest).tokens =
    (((s.openElement e.attrs e.tag).feed inner.tokens).closeTag e.name).feed rest.tokens := by
  rw [← e.openTag_eq]
  exact feed_append (s.openTag e.name e.attrs) inner.tokens (.endTag e.name :: rest.tokens)

/-- The entity that a close tag makes, where the element has a length. -/
theorem closed_entity {inPre : Bool} {e : Element} {inner : Forest} {offset : Int32} {kind : Option EntityKind}
    (hkind : kindOf inPre e inner = kind) (hwidth : 0 ≤ inner.width) :
    (if 0 < offset + inner.width - offset then
      (kind.map fun kind => (⟨offset, offset + inner.width - offset, kind⟩ : MessageEntity)).toList else []) =
      entity? inPre offset e inner := by
  rw [add_sub_self, entity?, hkind]
  by_cases h : inner.width = 0
  · rw [if_pos h, if_neg (by rw [h]; decide)]
  · rw [if_neg h, if_pos ((pos_iff_of_nonneg hwidth).mpr h)]

/-- The parser is directly in the code block `pre`, if there is one, and inside the `<code>` of a
code block only if it is `marked`. -/
structure At (s : HtmlState) (pre : Option Int32) (marked : Bool) (base : List HtmlEntry) (language : Option (List Char)) :
    Prop where
  stack : s.stack = base ++ frame pre language
  top : pre = none → ∀ entry, base.getLast? = some entry → entry.tag ≠ .pre
  marks : marked = false → ∀ entry ∈ base, entry.tag ≠ .codeInPre

/-- What a forest does: its entities come in the order in which they close. -/
def Reads (s : HtmlState) (f : Forest) (pre : Option Int32) (base : List HtmlEntry) (language : Option (List Char)) : Prop :=
  ∃ ents, ents.Perm (f.entities pre.isSome s.utf16Off) ∧ s.feed f.tokens =
    { out := s.out ++ f.text
      ents := s.ents ++ ents
      stack := base ++ frame pre (f.codeLang language)
      utf16Off := s.utf16Off + f.width }

variable {s : HtmlState} {pre : Option Int32} {marked : Bool} {base : List HtmlEntry} {language : Option (List Char)}

theorem Reads.nil (h : At s pre marked base language) : Reads s .nil pre base language := by
  refine ⟨[], List.Perm.refl _, ?_⟩
  have hwidth : Forest.nil.width = 0 := rfl
  rw [hwidth, Int32.add_zero, List.append_nil, codeLang, ← h.stack]
  exact (congrArg (fun out => { s with out }) (List.append_nil s.out)).symm

theorem Reads.leaf {l : Leaf} {rest : Forest} (h : Reads (s.pushText l.text) rest pre base language) :
    Reads s (.leaf l rest) pre base language := by
  obtain ⟨ents, hperm, hfeed⟩ := h
  refine ⟨ents, hperm, ?_⟩
  have hstep : s.feed (Forest.leaf l rest).tokens = (s.pushText l.text).feed rest.tokens := by
    rw [← l.readToken]
    rfl
  rw [hstep, hfeed, width_leaf, ← Int32.add_assoc, Forest.text, ← List.append_assoc]
  rfl

/-- The element of a forest, from what is inside it and what follows it. -/
theorem Reads.element {e : Element} {inner rest : Forest} {s₁ : HtmlState} (pre₁ : Option Int32) (base₁ : List HtmlEntry)
    {language₁ language' : Option (List Char)} (hpre₁ : pre₁.isSome = decide (e.tag = .pre))
    (hopen : s.openElement e.attrs e.tag = s₁) (hout : s₁.out = s.out) (hents : s₁.ents = s.ents)
    (hoff : s₁.utf16Off = s.utf16Off) (hinner : Reads s₁ inner pre₁ base₁ language₁)
    (hclose : ∀ s₂ : HtmlState, s₂.stack = base₁ ++ frame pre₁ (inner.codeLang language₁) →
      s₂.utf16Off = s.utf16Off + inner.width → s₂.closeTag e.name =
        { s₂ with stack := base ++ frame pre language', ents := s₂.ents ++ entity? pre.isSome s.utf16Off e inner })
    (hlanguage : rest.codeLang language' = (Forest.element e inner rest).codeLang language)
    (hrest : ∀ s₃ : HtmlState, s₃.stack = base ++ frame pre language' → s₃.utf16Off = s.utf16Off + inner.width →
      Reads s₃ rest pre base language') : Reads s (.element e inner rest) pre base language := by
  obtain ⟨ents₁, hperm₁, hfeed₁⟩ := hinner
  have hnext := hclose (s₁.feed inner.tokens) (by rw [hfeed₁]) (by rw [hfeed₁, hoff])
  obtain ⟨ents₂, hperm₂, hfeed₂⟩ := hrest ((s₁.feed inner.tokens).closeTag e.name) (by rw [hnext])
    (by rw [hnext, hfeed₁, hoff])
  refine ⟨ents₁ ++ (entity? pre.isSome s.utf16Off e inner ++ ents₂), ?_, ?_⟩
  · rw [hnext, hfeed₁, hoff] at hperm₂
    rw [hoff, hpre₁] at hperm₁
    rw [entities_element, ← List.append_assoc, ← List.append_assoc]
    exact ((hperm₁.append_right _).trans List.perm_append_comm).append hperm₂
  · rw [feed_element, hopen, hfeed₂, hnext, hfeed₁, hlanguage, hout, hents, hoff, width_element, Forest.text]
    simp only [List.append_assoc, Int32.add_assoc]

/-- An element that is pushed on the stack. -/
theorem Reads.pushed {e : Element} {inner rest : Forest} (hat : At s pre marked base language)
    (hopen : s.openElement e.attrs e.tag = s.pushTag e.tag) (hown : ¬ (e.tag = .code ∧ pre.isSome = true))
    (hmarked : e.tag = .code → marked = false) (hwidth : 0 ≤ inner.width)
    (hinner : ∀ {pre₁ : Option Int32} {base₁ : List HtmlEntry}, pre₁.isSome = decide (e.tag = .pre) →
      At (s.pushTag e.tag) pre₁ marked base₁ none → Reads (s.pushTag e.tag) inner pre₁ base₁ none)
    (hrest : ∀ {s₃ : HtmlState} {language : Option (List Char)}, At s₃ pre marked base language →
      s₃.utf16Off = s.utf16Off + inner.width → Reads s₃ rest pre base language) :
    Reads s (.element e inner rest) pre base language := by
  have hframe : ∀ x ∈ frame pre language, x.tag = .pre := by
    intro x hx
    cases pre with
    | none => cases hx
    | some offset => rw [List.mem_singleton.mp hx]
  have hstack : (s.pushTag e.tag).stack = base ++ frame pre language ++ [⟨e.tag, s.utf16Off, none⟩] := by
    rw [pushTag, hat.stack]
  have hmarks : marked = false → ∀ x ∈ base ++ frame pre language, x.tag ≠ .codeInPre := by
    intro h x hx
    rcases List.mem_append.mp hx with hx | hx
    · exact hat.marks h x hx
    · rw [hframe x hx]
      nofun
  have hlanguage : frame pre (if e.tag = .code then some (codeLanguage e.attrs) else language) = frame pre language := by
    cases pre with
    | none => rfl
    | some offset => rw [if_neg fun h => hown ⟨h, rfl⟩]
  by_cases hpre : e.tag = .pre
  · have hpush : (s.pushTag e.tag).stack = (base ++ frame pre language) ++ frame (some s.utf16Off) none := by
      rw [hstack, hpre]
      rfl
    refine Reads.element (some s.utf16Off) (base ++ frame pre language) (by rw [hpre]; rfl) hopen rfl rfl rfl
      (hinner (by rw [hpre]; rfl) ⟨hpush, nofun, hmarks⟩) ?_ rfl ?_
    · intro s₂ hs₂ hoff
      have htop : s₂.stack = (base ++ frame pre language) ++ [⟨e.tag, s.utf16Off, inner.codeLang none⟩] := by
        rw [hs₂, hpre]
        rfl
      rw [closeTag_top e htop (fun h => hmarks (hmarked h)), hoff, closed_entity (if_neg hown) hwidth, hlanguage]
    · exact fun s₃ hs₃ hoff => hrest ⟨hs₃, hat.top, hat.marks⟩ hoff
  · have hpush : (s.pushTag e.tag).stack = (base ++ frame pre language ++ [⟨e.tag, s.utf16Off, none⟩]) ++ frame none none := by
      rw [hstack]
      exact (List.append_nil _).symm
    have hother : ¬ e.tag = .codeInPre := by
      intro h
      have hclose := e.closesWith
      rw [h] at hclose
      cases hclose
    refine Reads.element none (base ++ frame pre language ++ [⟨e.tag, s.utf16Off, none⟩]) (by rw [decide_eq_false hpre]; rfl)
      hopen rfl rfl rfl
      (hinner (by rw [decide_eq_false hpre]; rfl) ⟨hpush, ?_, ?_⟩) ?_ rfl ?_
    · intro _ entry hentry
      rw [List.getLast?_concat] at hentry
      rw [← Option.some.inj hentry]
      exact hpre
    · intro h x hx
      rcases List.mem_append.mp hx with hx | hx
      · exact hmarks h x hx
      · rw [List.mem_singleton.mp hx]
        exact hother
    · intro s₂ hs₂ hoff
      have htop : s₂.stack = (base ++ frame pre language) ++ [⟨e.tag, s.utf16Off, none⟩] := by
        rw [hs₂]
        exact List.append_nil _
      have hkind : kindOf pre.isSome e inner = e.tag.kind? ((none : Option (List Char)).getD []) :=
        (if_neg hown).trans (HtmlTag.kind?_of_ne_pre hpre _ _)
      rw [closeTag_top e htop (fun h => hmarks (hmarked h)), hoff, closed_entity hkind hwidth, hlanguage]
    · exact fun s₃ hs₃ hoff => hrest ⟨hs₃, hat.top, hat.marks⟩ hoff

/-- A `<code>` directly in a code block. -/
theorem Reads.inPre {e : Element} {inner rest : Forest} {offset : Int32} (hat : At s (some offset) marked base language)
    (hcode : e.tag = .code)
    (hinner : ∀ {s₁ : HtmlState} {base₁ : List HtmlEntry}, At s₁ none true base₁ none → Reads s₁ inner none base₁ none)
    (hrest : ∀ {s₃ : HtmlState} {language : Option (List Char)}, At s₃ (some offset) marked base language →
      s₃.utf16Off = s.utf16Off + inner.width → Reads s₃ rest (some offset) base language) :
    Reads s (.element e inner rest) (some offset) base language := by
  have hbelow : s.stack = base ++ [⟨.pre, offset, language⟩] := hat.stack
  have hopen : s.openElement e.attrs e.tag =
      { s with stack := base ++ frame (some offset) (some (codeLanguage e.attrs)) ++ [⟨.codeInPre, s.utf16Off, none⟩] } := by
    rw [openElement, if_pos hcode, openCode, hbelow, List.getLast?_concat, List.dropLast_concat, List.append_assoc]
    rfl
  refine Reads.element none
    (base ++ frame (some offset) (some (codeLanguage e.attrs)) ++ [⟨.codeInPre, s.utf16Off, none⟩])
    (by rw [hcode]; rfl) hopen rfl rfl rfl (hinner ⟨(List.append_nil _).symm, ?_, nofun⟩) ?_ rfl ?_
  · intro _ entry hentry
    rw [List.getLast?_concat] at hentry
    rw [← Option.some.inj hentry]
    nofun
  · intro s₂ hs₂ _
    have hnone : entity? true s.utf16Off e inner = [] := by
      have hkind : kindOf true e inner = none := if_pos ⟨hcode, rfl⟩
      rw [entity?, hkind]
      split <;> rfl
    have hlanguage : (if e.tag = .code then some (codeLanguage e.attrs) else language) = some (codeLanguage e.attrs) :=
      if_pos hcode
    rw [closeTag_mark e hcode (hs₂.trans (List.append_nil _)), Option.isSome_some, hnone, List.append_nil, hlanguage]
  · exact fun s₃ hs₃ hoff => hrest ⟨hs₃, nofun, hat.marks⟩ hoff

theorem feed_forest : ∀ (f : Forest) {s : HtmlState} {pre : Option Int32} {marked : Bool} {before : List Mark}
    {base : List HtmlEntry} {language : Option (List Char)}, f.Apart pre.isSome marked before →
    At s pre marked base language → Reads s f pre base language
  | .nil, _, _, _, _, _, _, _, hat => Reads.nil hat
  | .leaf l rest, s, pre, marked, before, base, language, h, hat =>
    Reads.leaf (feed_forest rest (s := s.pushText l.text) h ⟨hat.stack, hat.top, hat.marks⟩)
  | .element e inner rest, s, pre, marked, before, base, language, ⟨hwidth, hfinds, hinner, hrest⟩, hat => by
    have hnext : ∀ {s₃ : HtmlState} {language : Option (List Char)}, At s₃ pre marked base language →
        s₃.utf16Off = s.utf16Off + inner.width → Reads s₃ rest pre base language :=
      fun hat₃ _ => feed_forest rest hrest hat₃
    by_cases hcode : e.tag = .code
    · cases pre with
      | some offset =>
        refine Reads.inPre hat hcode ?_ hnext
        intro s₁ base₁ hat₁
        generalize before ++ ((variantOf _ e).map Forest.opened).toList = before₁ at hinner
        have hin : inner.Apart false true before₁ := by simpa [hcode] using hinner
        exact feed_forest inner hin hat₁
      | none =>
        have hmarked : marked = false := (hfinds.opening hcode).2.resolve_left nofun
        refine Reads.pushed hat ?_ (fun h => absurd h.2 nofun) (fun _ => hmarked) hwidth ?_ hnext
        · rw [openElement, if_pos hcode, hcode, openCode]
          have hbase : s.stack = base := hat.stack.trans (List.append_nil _)
          rw [hbase]
          split
          · next last hlast => rw [if_neg (hat.top rfl last hlast)]
          · rfl
        · intro pre₁ base₁ hpre₁ hat₁
          generalize before ++ ((variantOf _ e).map Forest.opened).toList = before₁ at hinner
          have hin : inner.Apart pre₁.isSome marked before₁ := by simpa [hcode, hpre₁] using hinner
          exact feed_forest inner hin hat₁
    · refine Reads.pushed hat (if_neg hcode) (fun h => absurd h.1 hcode) (fun h => absurd h hcode) hwidth ?_ hnext
      intro pre₁ base₁ hpre₁ hat₁
      generalize before ++ ((variantOf _ e).map Forest.opened).toList = before₁ at hinner
      have hin : inner.Apart pre₁.isSome marked before₁ := by simpa [hcode, hpre₁] using hinner
      exact feed_forest inner hin hat₁

end HtmlState

/-! The sink on a forest. -/

/-- An entity in the sink's list: its constructor, and whether it has no length yet. -/
def MessageEntity.mark (e : MessageEntity) : Forest.Mark := (e.variant, decide (e.length = 0))

namespace Forest

theorem variantOf_eq (inPre : Bool) (e : Element) (inner : Forest) :
    (kindOf inPre e inner).map EntityKind.variant = variantOf inPre e := by
  unfold kindOf variantOf
  split
  · rfl
  · exact e.tag.variant?_eq _

theorem mark_entity? (inPre : Bool) (offset : Int32) (e : Element) (inner : Forest) :
    (entity? inPre offset e inner).map MessageEntity.mark = (own inPre e inner).map ended := by
  unfold entity? own
  split
  · rfl
  · next hwidth =>
    rw [← variantOf_eq inPre e inner]
    cases kindOf inPre e inner with
    | none => rfl
    | some kind => exact congrArg (fun b => [(kind.variant, b)]) (decide_eq_false hwidth)

theorem mark_entities (f : Forest) (inPre : Bool) (offset : Int32) :
    (f.entities inPre offset).map MessageEntity.mark = (f.made inPre).map ended := by
  induction f generalizing inPre offset with
  | nil => rfl
  | leaf l rest ih => exact ih inPre _
  | element e inner rest ihinner ihrest =>
    rw [entities_element, made, List.map_append, List.map_append, List.map_append, List.map_append, mark_entity?, ihinner,
      ihrest]

theorem length_ne_zero_of_mark {es : List MessageEntity} {vs : List Variant} (h : es.map MessageEntity.mark = vs.map ended) :
    ∀ x ∈ es, x.length ≠ 0 := by
  intro x hx hzero
  have hmem : x.mark ∈ vs.map ended := h ▸ List.mem_map_of_mem hx
  obtain ⟨v, -, hv⟩ := List.mem_map.mp hmem
  have hflag : decide (x.length = 0) = false := (congrArg Prod.snd hv).symm
  exact of_decide_eq_false hflag hzero

theorem variant_mem_of_mark {es : List MessageEntity} {vs : List Variant} (h : es.map MessageEntity.mark = vs.map ended)
    {x : MessageEntity} (hx : x ∈ es) : x.variant ∈ vs := by
  have hmem : x.mark ∈ vs.map ended := h ▸ List.mem_map_of_mem hx
  obtain ⟨v, hv, heq⟩ := List.mem_map.mp hmem
  have hvariant : v = x.variant := congrArg Prod.fst heq
  exact hvariant ▸ hv

end Forest

namespace Sink
open Forest

def marks (s : Sink) : List Mark := s.entities.map MessageEntity.mark

theorem closeEnt_of_absent {s : Sink} {v : Variant} (h : v ∉ s.marks.map Prod.fst) : s.closeEnt v = s := by
  rw [closeEnt, updateLast_of_none]
  intro x hx
  apply decide_eq_false
  intro heq
  exact h (List.mem_map.mpr ⟨x.mark, List.mem_map_of_mem hx, heq⟩)

theorem getLast?_marks (s : Sink) : s.marks.getLast? = s.entities.getLast?.map MessageEntity.mark := List.getLast?_map

theorem inPre_iff (s : Sink) : s.inPre = true ↔ s.marks.getLast? = some (Forest.opened .pre) := by
  rw [getLast?_marks, inPre]
  cases s.entities.getLast? with
  | none => exact ⟨nofun, nofun⟩
  | some x => simp [MessageEntity.mark, Forest.opened]

/-- A close tag closes the last entity of the constructor that it goes for. -/
theorem closeElement_eq (s : Sink) (tag : HtmlTag) :
    s.closeElement tag = match finds tag s.marks with
      | some v => s.closeEnt v
      | none => s := by
  have hpresent : ∀ v, s.closeEnt v = match (if v ∈ s.marks.map Prod.fst then some v else none) with
      | some v => s.closeEnt v
      | none => s := by
    intro v
    by_cases h : v ∈ s.marks.map Prod.fst
    · rw [if_pos h]
    · rw [if_neg h]
      exact closeEnt_of_absent h
  cases tag with
  | link url =>
    have hlast : (s.marks.getLast?.any fun m => decide (m.1 = .mentionName)) =
        s.entities.getLast?.any fun e => decide (e.variant = .mentionName) := by
      rw [getLast?_marks]
      cases s.entities.getLast? <;> rfl
    rw [closeElement, closeLink, finds, hlast]
    split
    · rfl
    · exact hpresent _
  | code =>
    rw [closeElement, finds]
    by_cases h : s.inPre = true
    · rw [if_pos h, if_pos ((inPre_iff s).mp h)]
    · rw [if_neg h, if_neg (fun hlast => h ((inPre_iff s).mpr hlast))]
      exact hpresent _
  | codeInPre => rfl
  | unknown => rfl
  | _ => exact hpresent _

theorem closeElement_none {s : Sink} {tag : HtmlTag} (h : finds tag s.marks = none) : s.closeElement tag = s := by
  rw [closeElement_eq, h]

theorem closeElement_own {s : Sink} {tag : HtmlTag} {u v : List MessageEntity} {x : MessageEntity}
    (hs : s.entities = u ++ x :: v) (h : finds tag s.marks = some x.variant) (hv : ∀ y ∈ v, y.variant ≠ x.variant) :
    s.closeElement tag = { s with entities := u ++ (endAt s.offset x).toList ++ v } := by
  have hclose : updateLast (fun e => decide (e.variant = x.variant)) (endAt s.offset) (u ++ x :: v) =
      u ++ (endAt s.offset x).toList ++ v := updateLast_append (decide_eq_true rfl) fun y hy => decide_eq_false (hv y hy)
  rw [closeElement_eq, h]
  dsimp only
  rw [closeEnt, hs, hclose]

theorem feed_append (s : Sink) (a b : List Token) : s.feed (a ++ b) = (s.feed a).feed b := by
  rw [feed, List.foldl_append]
  rfl

theorem feed_element (s : Sink) (e : Element) (inner rest : Forest) : s.feed (element e inner rest).tokens =
    (((s.openElement e.attrs e.tag).feed inner.tokens).closeElement e.tag).feed rest.tokens := by
  rw [← e.startTag_eq, ← e.endTag_eq]
  exact feed_append (s.startTag e.name e.attrs) inner.tokens (.endTag e.name :: rest.tokens)

/-- The entity of the code block that the sink is directly in; it is still open. -/
def frame (pre : Option Int32) (language : Option (List Char)) : List MessageEntity :=
  (pre.map fun offset => ⟨offset, 0, .pre (language.getD [])⟩).toList

/-- In front of and around the sink's place are the entities `before`; those in `later` were made
since the code block that it is directly in. -/
structure At (s : Sink) (pre : Option Int32) (before : List Mark) (base : List MessageEntity) (language : Option (List Char))
    (later : List MessageEntity) : Prop where
  entities : s.entities = base ++ frame pre language ++ later
  marks : s.marks = before
  later : ∀ x ∈ later, x.length ≠ 0

/-- What a forest does: its entities stand where they were opened. -/
def Reads (s : Sink) (f : Forest) (pre : Option Int32) (base : List MessageEntity) (language : Option (List Char))
    (later : List MessageEntity) : Prop :=
  s.feed f.tokens =
    { text := s.text ++ f.text
      entities := base ++ frame pre (f.codeLang language) ++ (later ++ f.entities pre.isSome s.offset)
      offset := s.offset + f.width }

variable {s : Sink} {pre : Option Int32} {marked : Bool} {before : List Mark} {base later : List MessageEntity}
  {language : Option (List Char)}

theorem Reads.nil (h : At s pre before base language later) : Reads s .nil pre base language later := by
  have hwidth : Forest.nil.width = 0 := rfl
  have hentities : Forest.nil.entities pre.isSome s.offset = [] := rfl
  rw [Reads, hwidth, hentities, Int32.add_zero, List.append_nil, codeLang, ← h.entities]
  exact (congrArg (fun text => { s with text }) (List.append_nil s.text)).symm

theorem Reads.leaf {l : Leaf} {rest : Forest} (h : Reads (s.pushText l.text) rest pre base language later) :
    Reads s (.leaf l rest) pre base language later := by
  have hstep : s.feed (Forest.leaf l rest).tokens = (s.pushText l.text).feed rest.tokens := by
    rw [← l.processToken]
    rfl
  have htext : s.text ++ (Forest.leaf l rest).text = s.text ++ l.text ++ rest.text := (List.append_assoc ..).symm
  rw [Reads, hstep, h, width_leaf, ← Int32.add_assoc, htext]
  rfl

/-- The element of a forest, from what is inside it and what follows it. -/
theorem Reads.element {e : Element} {inner rest : Forest} {s₁ : Sink} (pre₁ : Option Int32)
    (base₁ : List MessageEntity) {language₁ language' : Option (List Char)} (hpre₁ : pre₁.isSome = decide (e.tag = .pre))
    (hopen : s.openElement e.attrs e.tag = s₁) (htext : s₁.text = s.text) (hoff : s₁.offset = s.offset)
    (hinner : Reads s₁ inner pre₁ base₁ language₁ [])
    (hclose : ∀ s₂ : Sink, s₂.entities = base₁ ++ frame pre₁ (inner.codeLang language₁) ++
        inner.entities (e.tag = .pre) s.offset → s₂.offset = s.offset + inner.width → s₂.closeElement e.tag =
        { s₂ with
          entities := base ++ frame pre language' ++
            (later ++ (entity? pre.isSome s.offset e inner ++ inner.entities (e.tag = .pre) s.offset)) })
    (hlanguage : rest.codeLang language' = (Forest.element e inner rest).codeLang language)
    (hrest : ∀ s₃ : Sink, s₃.entities = base ++ frame pre language' ++
        (later ++ (entity? pre.isSome s.offset e inner ++ inner.entities (e.tag = .pre) s.offset)) →
      s₃.offset = s.offset + inner.width → Reads s₃ rest pre base language'
        (later ++ (entity? pre.isSome s.offset e inner ++ inner.entities (e.tag = .pre) s.offset))) :
    Reads s (.element e inner rest) pre base language later := by
  have hafter : (s₁.feed inner.tokens).entities = base₁ ++ frame pre₁ (inner.codeLang language₁) ++
      inner.entities (e.tag = .pre) s.offset := by
    rw [hinner, hoff, hpre₁]
    rfl
  have hoff₂ : (s₁.feed inner.tokens).offset = s.offset + inner.width := by rw [hinner, hoff]
  have hnext := hclose (s₁.feed inner.tokens) hafter hoff₂
  have hlast := hrest ((s₁.feed inner.tokens).closeElement e.tag) (by rw [hnext]) (by rw [hnext, hoff₂])
  have htext₂ : (s₁.feed inner.tokens).text = s.text ++ inner.text := by rw [hinner, htext]
  rw [Reads, feed_element, hopen, hlast, hnext, hlanguage]
  simp only [hoff₂, htext₂, width_element, Forest.text, entities_element, List.append_assoc, Int32.add_assoc]

/-- The marks once an element has been closed. -/
theorem marks_after {s : Sink} {e : Element} {inner : Forest} (offset : Int32) (us : List MessageEntity) {inPre : Bool}
    (hs : s.entities = us ++ (entity? inPre offset e inner ++ inner.entities (e.tag = .pre) offset))
    (hus : us.map MessageEntity.mark = before) :
    s.marks = before ++ (own inPre e inner ++ inner.made (e.tag = .pre)).map ended := by
  rw [marks, hs, List.map_append, List.map_append, mark_entity?, mark_entities, hus, List.map_append]

theorem later_after {e : Element} {inner : Forest} {inPre : Bool} {offset : Int32} (hlater : ∀ x ∈ later, x.length ≠ 0) :
    ∀ x ∈ later ++ (entity? inPre offset e inner ++ inner.entities (e.tag = .pre) offset), x.length ≠ 0 := by
  intro x hx
  rcases List.mem_append.mp hx with hx | hx
  · exact hlater x hx
  · rcases List.mem_append.mp hx with hx | hx
    · exact length_ne_zero_of_mark (mark_entity? inPre offset e inner) x hx
    · exact length_ne_zero_of_mark (mark_entities inner _ offset) x hx

theorem endAt_own {offset : Int32} {kind : EntityKind} (w : Int32) :
    (endAt (offset + w) ⟨offset, 0, kind⟩).toList = if w = 0 then [] else [⟨offset, w, kind⟩] := by
  unfold endAt
  dsimp only
  rw [add_sub_self]
  split <;> rfl

/-- Behind the open tag of an element that makes an entity: the sink is inside it, and the entity gets
its language there. -/
theorem at_push {e : Element} {kind : EntityKind} (hat : At s pre before base language later) (inner : Forest)
    (hown : ¬ (e.tag = .code ∧ pre.isSome = true)) (hkind : e.tag.kind? [] = some kind) :
    ∃ (pre₁ : Option Int32) (base₁ : List MessageEntity) (kind' : EntityKind), pre₁.isSome = decide (e.tag = .pre) ∧
      At (s.push kind) pre₁ (before ++ ((variantOf pre.isSome e).map Forest.opened).toList) base₁ none [] ∧
      kindOf pre.isSome e inner = some kind' ∧
      ∀ ents, base₁ ++ frame pre₁ (inner.codeLang none) ++ ents =
        base ++ frame pre language ++ later ++ ⟨s.offset, 0, kind'⟩ :: ents := by
  have hpush : (s.push kind).entities = base ++ frame pre language ++ later ++ [⟨s.offset, 0, kind⟩] := by
    rw [push, hat.entities]
  have hmarks : (s.push kind).marks = before ++ ((variantOf pre.isSome e).map Forest.opened).toList := by
    rw [marks, push, List.map_append, ← hat.marks, variantOf, if_neg hown, HtmlTag.variant?, hkind]
    rfl
  by_cases hpre : e.tag = .pre
  · rw [hpre] at hkind
    obtain rfl := Option.some.inj hkind
    refine ⟨some s.offset, base ++ frame pre language ++ later, .pre ((inner.codeLang none).getD []), by rw [hpre]; rfl,
      ⟨?_, hmarks, nofun⟩, ?_, ?_⟩
    · rw [hpush, List.append_nil]
      rfl
    · rw [kindOf, if_neg hown, hpre]
      rfl
    · intro ents
      simp [frame]
  · refine ⟨none, base ++ frame pre language ++ later ++ [⟨s.offset, 0, kind⟩], kind, by rw [decide_eq_false hpre]; rfl,
      ⟨?_, hmarks, nofun⟩, ?_, ?_⟩
    · rw [hpush, List.append_nil]
      exact (List.append_nil _).symm
    · rw [kindOf, if_neg hown, HtmlTag.kind?_of_ne_pre hpre _ [], hkind]
    · intro ents
      simp [frame]

/-- In front of the close tag. -/
theorem marks_inside {e : Element} {inner : Forest} {kind' : EntityKind} (hat : At s pre before base language later)
    (hkind' : kindOf pre.isSome e inner = some kind') {s₂ : Sink}
    (hs₂ : s₂.entities = base ++ frame pre language ++ later ++ ⟨s.offset, 0, kind'⟩ :: inner.entities (e.tag = .pre) s.offset) :
    s₂.marks = before ++ ((variantOf pre.isSome e).map Forest.opened).toList ++ (inner.made (e.tag = .pre)).map ended := by
  rw [marks, hs₂, List.map_append, List.map_cons, mark_entities, ← hat.entities, ← marks, hat.marks,
    ← variantOf_eq pre.isSome e inner, hkind', List.append_assoc]
  rfl

/-- The close tag of an element that has made an entity. -/
theorem close_pushed {e : Element} {inner : Forest} {kind' : EntityKind} (hat : At s pre before base language later)
    (hkind' : kindOf pre.isSome e inner = some kind') (hfinds : Finds pre.isSome marked before e (inner.made (e.tag = .pre)))
    {s₂ : Sink} (hoff : s₂.offset = s.offset + inner.width)
    (hs₂ : s₂.entities = base ++ frame pre language ++ later ++ ⟨s.offset, 0, kind'⟩ :: inner.entities (e.tag = .pre) s.offset) :
    s₂.closeElement e.tag =
      { s₂ with
        entities := base ++ frame pre language ++
          (later ++ (entity? pre.isSome s.offset e inner ++ inner.entities (e.tag = .pre) s.offset)) } := by
  have hvariantOf : variantOf pre.isSome e = some kind'.variant := by
    rw [← variantOf_eq pre.isSome e inner, hkind']
    rfl
  have hown : entity? pre.isSome s.offset e inner =
      (endAt (s.offset + inner.width) ⟨s.offset, 0, kind'⟩).toList := by
    rw [endAt_own, entity?, hkind']
    rfl
  have hfind : finds e.tag s₂.marks = some kind'.variant := by
    rw [marks_inside hat hkind' hs₂, hfinds.closing, hvariantOf]
  have hinside : ∀ y ∈ inner.entities (e.tag = .pre) s.offset, y.variant ≠ kind'.variant := by
    intro y hy heq
    exact hfinds.own kind'.variant hvariantOf (heq ▸ variant_mem_of_mark (mark_entities inner _ s.offset) hy)
  rw [closeElement_own hs₂ hfind hinside, hoff, ← hown]
  simp only [List.append_assoc]

/-- Behind the close tag. -/
theorem at_after {e : Element} {inner : Forest} {language' : Option (List Char)} (hat : At s pre before base language later)
    (hlanguage : frame pre language' = frame pre language) {s₃ : Sink}
    (hs₃ : s₃.entities = base ++ frame pre language' ++
      (later ++ (entity? pre.isSome s.offset e inner ++ inner.entities (e.tag = .pre) s.offset))) :
    At s₃ pre (before ++ (own pre.isSome e inner ++ inner.made (e.tag = .pre)).map ended) base language'
      (later ++ (entity? pre.isSome s.offset e inner ++ inner.entities (e.tag = .pre) s.offset)) := by
  refine ⟨hs₃, marks_after s.offset (base ++ frame pre language ++ later) ?_ ?_, later_after hat.later⟩
  · rw [hs₃, hlanguage]
    simp only [List.append_assoc]
  · rw [← hat.entities, ← marks, hat.marks]

theorem frame_of_own {e : Element} (hown : ¬ (e.tag = .code ∧ pre.isSome = true)) :
    frame pre (if e.tag = .code then some (codeLanguage e.attrs) else language) = frame pre language := by
  cases pre with
  | none => rfl
  | some offset => rw [if_neg fun h => hown ⟨h, rfl⟩]

/-- An element that makes an entity. -/
theorem Reads.pushed {e : Element} {inner rest : Forest} (kind : EntityKind) (hat : At s pre before base language later)
    (hown : ¬ (e.tag = .code ∧ pre.isSome = true)) (hopen : s.openElement e.attrs e.tag = s.push kind)
    (hkind : e.tag.kind? [] = some kind) (hfinds : Finds pre.isSome marked before e (inner.made (e.tag = .pre)))
    (hinner : ∀ {pre₁ : Option Int32} {base₁ : List MessageEntity}, pre₁.isSome = decide (e.tag = .pre) →
      At (s.push kind) pre₁ (before ++ ((variantOf pre.isSome e).map Forest.opened).toList) base₁ none [] →
      Reads (s.push kind) inner pre₁ base₁ none [])
    (hrest : ∀ {s₃ : Sink} {language : Option (List Char)} {later : List MessageEntity},
      At s₃ pre (before ++ (own pre.isSome e inner ++ inner.made (e.tag = .pre)).map ended) base language later →
      Reads s₃ rest pre base language later) :
    Reads s (.element e inner rest) pre base language later := by
  obtain ⟨pre₁, base₁, kind', hpre₁, hat₁, hkind', hinside⟩ := at_push hat inner hown hkind
  refine Reads.element pre₁ base₁ hpre₁ hopen rfl rfl (hinner hpre₁ hat₁) ?_ rfl ?_
  · intro s₂ hs₂ hoff
    rw [frame_of_own hown]
    exact close_pushed hat hkind' hfinds hoff (hs₂.trans (hinside _))
  · intro s₃ hs₃ _
    exact hrest (at_after hat (frame_of_own hown) hs₃)

/-- An element that makes no entity: a `<code>` directly in a code block, of which nothing was made
yet, or a link to a user without a number. -/
theorem Reads.silent {e : Element} {inner rest : Forest} (language' : Option (List Char))
    (hat : At s pre before base language later) (hnone : variantOf pre.isSome e = none) (hpre : e.tag ≠ .pre)
    (hopen : s.openElement e.attrs e.tag = { s with entities := base ++ frame pre language' ++ later })
    (hlanguage : frame pre language' = frame pre (if e.tag = .code then some (codeLanguage e.attrs) else language))
    (hfinds : Finds pre.isSome marked before e (inner.made (e.tag = .pre)))
    (hinner : ∀ {s₁ : Sink} {base₁ : List MessageEntity},
      At s₁ none (before ++ ((variantOf pre.isSome e).map Forest.opened).toList) base₁ none [] →
      Reads s₁ inner none base₁ none [])
    (hrest : ∀ {s₃ : Sink} {language : Option (List Char)} {later : List MessageEntity},
      At s₃ pre (before ++ (own pre.isSome e inner ++ inner.made (e.tag = .pre)).map ended) base language later →
      Reads s₃ rest pre base language later) :
    Reads s (.element e inner rest) pre base language later := by
  have hown : entity? pre.isSome s.offset e inner = [] := by
    have hkind : kindOf pre.isSome e inner = none := by
      rw [← variantOf_eq pre.isSome e inner] at hnone
      exact Option.map_eq_none_iff.mp hnone
    rw [entity?, hkind]
    split <;> rfl
  have hmarks : (base ++ frame pre language' ++ later).map MessageEntity.mark = before := by
    have hframe : (frame pre language').map MessageEntity.mark = (frame pre language).map MessageEntity.mark := by
      cases pre <;> rfl
    rw [List.map_append, List.map_append, hframe, ← List.map_append, ← List.map_append, ← hat.entities, ← marks, hat.marks]
  refine Reads.element none (base ++ frame pre language' ++ later) (by rw [decide_eq_false hpre]; rfl) hopen rfl rfl
    (hinner ⟨by simp [frame], ?_, nofun⟩) ?_ rfl ?_
  · rw [hnone]
    exact hmarks.trans (List.append_nil _).symm
  · intro s₂ hs₂ _
    have hentities : s₂.entities = base ++ frame pre language' ++ later ++ inner.entities (e.tag = .pre) s.offset := by
      rw [hs₂]
      simp [frame]
    have hmarks₂ : s₂.marks = before ++ ((variantOf pre.isSome e).map Forest.opened).toList ++
        (inner.made (e.tag = .pre)).map ended := by
      rw [marks, hentities, List.map_append, hmarks, mark_entities, hnone]
      exact congrArg (fun ms => ms ++ _) (List.append_nil before).symm
    rw [closeElement_none (by rw [hmarks₂, hfinds.closing, hnone]), hown, ← hlanguage, List.nil_append,
      ← List.append_assoc, ← hentities]
  · intro s₃ hs₃ _
    refine hrest ⟨hs₃, marks_after s.offset (base ++ frame pre language' ++ later) ?_ hmarks,
      later_after hat.later⟩
    rw [hs₃, ← hlanguage]
    simp only [List.append_assoc]

/-- Nothing was made since the code block that is the last to be opened. -/
theorem At.later_nil {s : Sink} {pre : Option Int32} {before : List Mark} {base later : List MessageEntity}
    {language : Option (List Char)} {v : Variant} (hat : At s pre before base language later)
    (hlast : s.marks.getLast? = some (Forest.opened v)) : later = [] := by
  rcases List.eq_nil_or_concat later with h | ⟨us, x, h⟩
  · exact h
  · have hx : s.marks.getLast? = some x.mark := by
      rw [getLast?_marks, hat.entities, h, List.concat_eq_append, ← List.append_assoc, List.getLast?_concat]
      rfl
    have hflag : decide (x.length = 0) = true := congrArg Prod.snd (Option.some.inj (hx.symm.trans hlast))
    exact absurd (of_decide_eq_true hflag) (hat.later x (by simp [h]))

theorem feed_forest : ∀ (f : Forest) {s : Sink} {pre : Option Int32} {marked : Bool} {before : List Mark}
    {base later : List MessageEntity} {language : Option (List Char)}, f.Apart pre.isSome marked before →
    At s pre before base language later → Reads s f pre base language later
  | .nil, _, _, _, _, _, _, _, _, hat => Reads.nil hat
  | .leaf l rest, s, pre, marked, before, base, later, language, h, hat =>
    Reads.leaf (feed_forest rest (s := s.pushText l.text) h ⟨hat.entities, hat.marks, hat.later⟩)
  | .element e inner rest, s, pre, marked, before, base, later, language, ⟨hwidth, hfinds, hinner, hrest⟩, hat => by
    have hnext : ∀ {s₃ : Sink} {language : Option (List Char)} {later : List MessageEntity},
        At s₃ pre (before ++ (own pre.isSome e inner ++ inner.made (e.tag = .pre)).map ended) base language later →
        Reads s₃ rest pre base language later := fun hat₃ => feed_forest rest hrest hat₃
    by_cases hcode : e.tag = .code
    · cases pre with
      | some offset =>
        have hlast : s.marks.getLast? = some (Forest.opened .pre) := by
          rw [hat.marks]
          exact ((hfinds.opening hcode).1).mpr rfl
        have hlater : later = [] := hat.later_nil hlast
        have hpre : e.tag ≠ .pre := by simp [hcode]
        refine Reads.silent (some (codeLanguage e.attrs)) hat (if_pos ⟨hcode, rfl⟩) hpre ?_ (by rw [if_pos hcode])
          hfinds ?_ hnext
        · have hentities : s.entities = base ++ [⟨offset, 0, .pre (language.getD [])⟩] := by
            rw [hat.entities, hlater, List.append_nil]
            rfl
          rw [openElement, if_pos hcode, if_pos ((inPre_iff s).mpr hlast), setLanguage, hentities, List.dropLast_concat,
            List.getLast?_concat, hlater, List.append_nil]
          rfl
        · intro s₁ base₁ hat₁
          rw [decide_eq_false hpre] at hinner
          exact feed_forest inner hinner hat₁
      | none =>
        have hnotlast : ¬ s.inPre = true := by
          rw [inPre_iff, hat.marks]
          exact fun h => absurd ((hfinds.opening hcode).1.mp h) nofun
        refine Reads.pushed .code hat (fun h => absurd h.2 nofun) ?_ (by rw [hcode]; rfl) hfinds ?_ hnext
        · rw [openElement, if_pos hcode, if_neg hnotlast]
        · intro pre₁ base₁ hpre₁ hat₁
          rw [← hpre₁] at hinner
          exact feed_forest inner hinner hat₁
    · cases hkind : e.tag.kind? [] with
      | some kind =>
        refine Reads.pushed kind hat (fun h => absurd h.1 hcode) ?_ hkind hfinds ?_ hnext
        · rw [openElement, if_neg hcode, hkind]
        · intro pre₁ base₁ hpre₁ hat₁
          rw [← hpre₁] at hinner
          exact feed_forest inner hinner hat₁
      | none =>
        have hpre : e.tag ≠ .pre := by
          intro h
          rw [h] at hkind
          cases hkind
        refine Reads.silent language hat ?_ hpre ?_ (by rw [if_neg hcode]) hfinds ?_ hnext
        · rw [variantOf, if_neg (fun h => hcode h.1), HtmlTag.variant?, hkind]
          rfl
        · rw [openElement, if_neg hcode, hkind, ← hat.entities]
        · intro s₁ base₁ hat₁
          rw [decide_eq_false hpre] at hinner
          exact feed_forest inner hinner hat₁

end Sink

/-! The two together. -/

/-- The two backends return the same text and the same entities, in whatever order. -/
def SameResult (tokenize : List Char → List Token) (html : List Char) : Prop :=
  ∃ text ents, parseHtml html = some (text, ents) ∧ (parseHtml5ever tokenize html).1 = text ∧
    (parseHtml5ever tokenize html).2.Perm ents

theorem same_of_apart {tokenize : List Char → List Token} {html : List Char} {f : Forest} (hspells : Spells html f.tokens)
    (htokens : tokenize html = f.tokens) (h : f.Apart false false []) : SameResult tokenize html := by
  have hreads : HtmlState.Reads .init f none [] none := HtmlState.feed_forest f h ⟨rfl, nofun, nofun⟩
  obtain ⟨ents, hperm, hbuiltin⟩ := hreads
  have hsink : Sink.Reads .init f none [] none [] := Sink.feed_forest f h ⟨rfl, rfl, nofun⟩
  refine ⟨f.text, ents, ?_, ?_, ?_⟩
  · rw [parseHtml_spells hspells, hbuiltin]
    rfl
  · rw [parseHtml5ever, htokens, hsink]
    rfl
  · rw [parseHtml5ever, htokens, hsink]
    exact hperm.symm

end Ferogram.Parsers
