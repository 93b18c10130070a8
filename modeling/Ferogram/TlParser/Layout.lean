import Ferogram.TlParser.Iterator
import Ferogram.TlParser.SameWords

/- Schemas and their layouts. A schema is written as sections of lines; a line is code with a
   comment behind it perhaps, and the tokens of a section's code are those of its definitions with
   a semicolon behind each, the last one of a section perhaps missing. The iterator is to yield the
   definitions, each with the category of its section.

   Sections are read one by one (`readLines_sections`): each yields the pieces that a semicolon
   ends, and what is behind the last one goes over to the next. -/
namespace Ferogram.TlParser
open TlGen Parsers Words

/-! Layouts. -/

/-- A line, with what stands behind `//`. -/
structure Line where
  code : List Char
  comment : Option (List Char)

def Line.text (l : Line) : List Char :=
  l.code ++
    match l.comment with
    | some comment => '/' :: '/' :: comment
    | none => []

/-- The line has no line break, and its first `//` is that of the comment. -/
structure Line.Fine (l : Line) : Prop where
  whole : '\n' ∉ l.text
  code : ¬ ['/', '/'] <:+: l.code ++ if l.comment.isSome then ['/'] else []

instance (l : Line) : Decidable l.Fine :=
  decidable_of_iff ('\n' ∉ l.text ∧ ¬ ['/', '/'] <:+: l.code ++ if l.comment.isSome then ['/'] else [])
    ⟨fun h => ⟨h.1, h.2⟩, fun h => ⟨h.whole, h.code⟩⟩

def markerText : Category → List Char
  | .types => typesMarker
  | .functions => functionsMarker

/-- A section as it is written, and the texts of its definitions. -/
structure Section where
  category : Category
  /-- The line of the marker. The first section may have none. -/
  marker : List Line
  lines : List Line
  defs : List (List Char)
  /-- The semicolon behind the last definition is missing. -/
  missing : Bool

/-- Words and semicolons. -/
def codeTokens (code : List Char) : List (List Char) := tokens isWhitespace ';' code

/-- The tokens of definitions with a semicolon behind each. -/
def writtenTokens (defs : List (List Char)) : List (List Char) := defs.flatMap fun t => words isWhitespace t ++ [[';']]

structure Section.Laid (s : Section) : Prop where
  fine : ∀ l ∈ s.marker ++ s.lines, l.Fine
  plain : ∀ l ∈ s.lines, ∀ c, trim l.code ≠ markerText c
  tokens : s.lines.flatMap (fun l => codeTokens l.code) =
    if s.missing then (writtenTokens s.defs).dropLast else writtenTokens s.defs
  whole : ∀ t ∈ s.defs, ';' ∉ t
  some : s.missing = true → s.defs ≠ []

instance (s : Section) : Decidable s.Laid :=
  decidable_of_iff ((∀ l ∈ s.marker ++ s.lines, l.Fine) ∧
      (∀ l ∈ s.lines, trim l.code ≠ markerText .types ∧ trim l.code ≠ markerText .functions) ∧
      (s.lines.flatMap (fun l => codeTokens l.code) =
        if s.missing then (writtenTokens s.defs).dropLast else writtenTokens s.defs) ∧
      (∀ t ∈ s.defs, ';' ∉ t) ∧ (s.missing = true → s.defs ≠ []))
    ⟨fun ⟨h1, h2, h3, h4, h5⟩ => ⟨h1, fun l hl c => by cases c; exacts [(h2 l hl).1, (h2 l hl).2], h3, h4, h5⟩,
      fun h => ⟨h.fine, fun l hl => ⟨h.plain l hl .types, h.plain l hl .functions⟩, h.tokens, h.whole, h.some⟩⟩

/-- The section begins with the marker of its category. -/
def Section.Marked (s : Section) : Prop := ∃ l, s.marker = [l] ∧ trim l.code = markerText s.category

/-- The text is the sections, line by line. -/
structure Layout (sections : List Section) (src : List Char) : Prop where
  first : ∀ s, sections.head? = some s → s.Marked ∨ (s.marker = [] ∧ s.category = .types)
  others : ∀ s ∈ sections.tail, s.Marked
  laid : ∀ s ∈ sections, s.Laid
  src : src = ['\n'].intercalate ((sections.flatMap fun s => s.marker ++ s.lines).map Line.text)

def inCategory (category : Category) (item : Item) : Item := item.map fun d => { d with category := category }

/-- What the iterator is to yield. -/
def expected (sections : List Section) : List Item :=
  sections.flatMap fun s => s.defs.map fun t => inCategory s.category (fromStr t)

/-- The code of lines, each behind a space. -/
def joinedLines (lines : List Line) : List Char :=
  ((lines.map fun l => trim l.code).filter (!·.isEmpty)).flatMap (' ' :: ·)

def Section.joined (s : Section) : List Char := joinedLines s.lines

/-- The result types stand in the joined lines as they stand in the texts. -/
def Section.KeepsTypes (s : Section) : Prop :=
  ((s.joined.splitOn ';').map resultText).take s.defs.length = s.defs.map resultText

instance (s : Section) : Decidable s.KeepsTypes := inferInstanceAs (Decidable (_ = _))

/-- The result types are kept, and where a semicolon is missing no definition follows and the text
ends in a section of the same category. -/
structure Keeps (sections : List Section) : Prop where
  types : ∀ s ∈ sections, s.KeepsTypes
  ended : ∀ pre s post, sections = pre ++ s :: post → s.missing = true →
    (∀ t ∈ post, t.defs = []) ∧ ∀ t, post.getLast? = some t → t.category = s.category

/-! Lines. -/

variable {l : Line} {s : List Char} {category : Category} {pending : List Char}

theorem beforeStr_of_not_contains {pat : List Char} (h : ¬ pat <:+: s) : Str.beforeStr pat s = s := by
  induction s with
  | nil => rfl
  | cons c s ih =>
    have hpre : ¬ pat.isPrefixOf (c :: s) = true := fun hp => h (List.isPrefixOf_iff_prefix.mp hp).isInfix
    rw [Str.beforeStr, if_neg hpre, ih fun hin => h (hin.trans (List.suffix_cons c s).isInfix)]

/-- A character that is not looked for makes no difference at the end. -/
theorem beforeStr_concat {pat : List Char} {c : Char} (hc : c ∉ pat) (s : List Char) :
    Str.beforeStr pat (s ++ [c]) = Str.beforeStr pat s ∨ Str.beforeStr pat (s ++ [c]) = Str.beforeStr pat s ++ [c] := by
  have hpre : ∀ u : List Char, pat.isPrefixOf (u ++ [c]) = pat.isPrefixOf u := by
    intro u
    rw [Bool.eq_iff_iff, List.isPrefixOf_iff_prefix, List.isPrefixOf_iff_prefix, List.prefix_concat_iff]
    exact or_iff_right fun heq => hc (heq ▸ by simp)
  induction s with
  | nil =>
    have hone : Str.beforeStr pat ([] ++ [c]) = if pat.isPrefixOf [c] then [] else [c] := rfl
    rw [hone]
    split
    · exact Or.inl rfl
    · exact Or.inr rfl
  | cons d s ih =>
    have h := hpre (d :: s)
    rw [List.cons_append] at h ⊢
    rw [Str.beforeStr, Str.beforeStr, h]
    split
    · exact Or.inl rfl
    · exact ih.imp (congrArg (d :: ·)) (congrArg (d :: ·))

theorem stripComment_concat (s : List Char) : stripComment (s ++ ['\r']) = stripComment s := by
  unfold stripComment
  have hslashes : '\r' ∉ ['/', '/'] := by decide
  rcases beforeStr_concat hslashes s with h | h
  · rw [h]
  · rw [h]
    exact trim_append (a := []) (b := ['\r']) rfl (by decide) _

/-- The code is what stands in front of the comment. -/
theorem beforeStr_comment (comment : List Char) {code : List Char} (h : ¬ ['/', '/'] <:+: code ++ ['/']) :
    Str.beforeStr ['/', '/'] (code ++ '/' :: '/' :: comment) = code := by
  induction code with
  | nil => rfl
  | cons c code ih =>
    have hrest : ¬ ['/', '/'] <:+: code ++ ['/'] := fun hin => h (hin.trans (List.suffix_cons c _).isInfix)
    have hpre : ¬ ['/', '/'].isPrefixOf (c :: (code ++ '/' :: '/' :: comment)) = true := by
      rw [List.isPrefixOf_iff_prefix]
      intro hp
      obtain ⟨rfl, hnext⟩ := List.cons_prefix_cons.mp hp
      apply h
      cases code with
      | nil => exact ⟨[], [], rfl⟩
      | cons d code =>
        obtain ⟨rfl, -⟩ := List.cons_prefix_cons.mp hnext
        exact ⟨[], code ++ ['/'], rfl⟩
    rw [List.cons_append, Str.beforeStr, if_neg hpre, ih hrest]

theorem stripComment_text (h : l.Fine) : stripComment l.text = trim l.code := by
  obtain ⟨code, comment⟩ := l
  have hcode := h.code
  unfold stripComment Line.text
  cases comment with
  | none =>
    simp only [Option.isSome_none, Bool.false_eq_true, if_false, List.append_nil] at hcode ⊢
    rw [beforeStr_of_not_contains hcode]
  | some comment =>
    simp only [Option.isSome_some, if_true] at hcode ⊢
    rw [beforeStr_comment comment hcode]

/-! Lines of a text. -/

theorem lines_cons {a : List Char} (ha : '\n' ∉ a) (b : List Char) :
    ∃ a', Rich.lines (a ++ '\n' :: b) = a' :: Rich.lines b ∧ (a = a' ∨ a = a' ++ ['\r']) := by
  induction a with
  | nil => exact ⟨[], by rw [List.nil_append, Rich.lines, if_pos rfl], Or.inl rfl⟩
  | cons c a ih =>
    simp only [List.mem_cons, not_or] at ha
    obtain ⟨a', hlines, ha'⟩ := ih ha.2
    rw [List.cons_append, Rich.lines, if_neg (Ne.symm ha.1)]
    by_cases hcr : c = '\r' ∧ (a ++ '\n' :: b).head? = some '\n'
    · rw [if_pos hcr, hlines]
      refine ⟨a', rfl, Or.inr ?_⟩
      have hnil : a = [] := by
        cases a with
        | nil => rfl
        | cons d a =>
          obtain rfl := Option.some.inj hcr.2
          exact absurd List.mem_cons_self ha.2
      subst hnil
      have ha'nil : a' = [] := by
        rcases ha' with h | h
        · exact h.symm
        · exact absurd h (by simp)
      rw [ha'nil, hcr.1]
      rfl
    · rw [if_neg hcr, hlines]
      exact ⟨c :: a', rfl, ha'.imp (congrArg (c :: ·)) (congrArg (c :: ·))⟩

theorem lines_last {a : List Char} (ha : '\n' ∉ a) (hnil : a ≠ []) : Rich.lines a = [a] := by
  induction a with
  | nil => exact absurd rfl hnil
  | cons c a ih =>
    simp only [List.mem_cons, not_or] at ha
    have hcr : ¬ (c = '\r' ∧ a.head? = some '\n') := fun h => ha.2 (List.mem_of_mem_head? h.2)
    rw [Rich.lines, if_neg (Ne.symm ha.1), if_neg hcr]
    cases a with
    | nil => rfl
    | cons d a => rw [ih ha.2 (List.cons_ne_nil d a)]

/-- The lines of a text that is put together from lines. -/
theorem readLines_joined {texts : List (List Char)} (h : ∀ t ∈ texts, '\n' ∉ t) (category : Category)
    (pending : List Char) : readLines category pending (Rich.lines (['\n'].intercalate texts)) =
      readLines category pending texts := by
  induction texts generalizing category pending with
  | nil => rfl
  | cons t texts ih =>
    have ht := h t List.mem_cons_self
    by_cases hnil : texts = []
    · subst hnil
      have hone : ['\n'].intercalate [t] = t := by simp [List.intercalate]
      rw [hone]
      by_cases htnil : t = []
      · subst htnil
        rfl
      · rw [lines_last ht htnil]
    · obtain ⟨t', hlines, ht'⟩ := lines_cons ht (['\n'].intercalate texts)
      have hstrip : stripComment t' = stripComment t := by
        rcases ht' with rfl | rfl
        · rfl
        · exact (stripComment_concat t').symm
      have hrest := ih fun u hu => h u (List.mem_cons_of_mem _ hu)
      rw [intercalate_cons_of_ne_nil hnil, hlines, readLines, readLines, hstrip]
      simp only [hrest]

/-! Pieces. -/

theorem parseParts_append (category : Category) (a b : List (List Char)) :
    parseParts category (a ++ b) = parseParts category a ++ parseParts category b := by
  simp [parseParts]

theorem parseParts_congr {a b : List (List Char)} (h : a.map trim = b.map trim) (category : Category) :
    parseParts category a = parseParts category b := by
  rw [parseParts, parseParts, h]

/-- White space in front of a text stands in front of its first piece. -/
theorem pieces_white {w : List Char} (hw : w.all isWhitespace = true) (s : List Char) :
    (ended ';' (w ++ s)).map trim = (ended ';' s).map trim ∧ trim (unended ';' (w ++ s)) = trim (unended ';' s) := by
  have hmem : ';' ∉ w := fun hmem => absurd (List.all_eq_true.mp hw _ hmem) (by decide)
  have htrim : ∀ u, trim (w ++ u) = trim u := by
    intro u
    have := trim_append (b := []) hw rfl u
    rwa [List.append_nil] at this
  have hsplit := splitOn_append_of_not_mem hmem s
  rw [splitOn_eq_ended, splitOn_eq_ended] at hsplit
  have hpieces : (ended ';' (w ++ s)).map trim ++ [trim (unended ';' (w ++ s))] =
      (ended ';' s).map trim ++ [trim (unended ';' s)] := by
    have := congrArg (List.map trim) hsplit
    rw [List.map_append, List.map_singleton] at this
    rw [this]
    cases ended ';' s with
    | nil => simp [htrim]
    | cons v vs => simp [htrim]
  have := List.append_inj' hpieces rfl
  exact ⟨this.1, List.singleton_inj.mp this.2⟩

/-- A text that does not end in white space is white space and what is trimmed of it. -/
theorem exists_white {u : List Char} (h : ∀ c, u.getLast? = some c → isWhitespace c = false) :
    ∃ w, w.all isWhitespace = true ∧ u = w ++ trim u := by
  obtain ⟨a, b, hu, ha, hb⟩ := trim_split u
  rcases List.eq_nil_or_concat b with rfl | ⟨b, c, rfl⟩
  · rw [List.append_nil] at hu
    exact ⟨a, ha, hu⟩
  · have hlast : u.getLast? = some c := by
      rw [hu, List.concat_eq_append, ← List.append_assoc, ← List.append_assoc, List.getLast?_concat]
    have hc : isWhitespace c = true := List.all_eq_true.mp hb c (by simp)
    exact absurd hc (by simp [h c hlast])

/-- What may be pending. -/
def Pending (p : List Char) : Prop := trim p = p ∧ ';' ∉ p

theorem pending_unended (s : List Char) : Pending (trim (unended ';' s)) :=
  ⟨trim_trim _, fun hmem => not_mem_unended ';' s (mem_of_mem_trim hmem)⟩

section
variable {p code : List Char}

/-- A line is gathered behind what is pending. -/
theorem accumulate_eq (hp : Pending p) (hcode : trim code = code) (hnil : code ≠ []) (category : Category) :
    accumulate category p code =
      (parseParts category (ended ';' (p ++ ' ' :: code)), trim (unended ';' (p ++ ' ' :: code))) := by
  obtain ⟨glued, hglued, htrim, hwhite⟩ : ∃ glued, (if p.isEmpty then code else p ++ ' ' :: code) = glued ∧
      trim glued = glued ∧ ((ended ';' glued).map trim = (ended ';' (p ++ ' ' :: code)).map trim ∧
        trim (unended ';' glued) = trim (unended ';' (p ++ ' ' :: code))) := by
    cases p with
    | nil =>
      obtain ⟨h1, h2⟩ := pieces_white (w := [' ']) (by decide) code
      exact ⟨code, rfl, hcode, h1.symm, h2.symm⟩
    | cons c p =>
      refine ⟨c :: p ++ ' ' :: code, rfl, ?_, rfl, rfl⟩
      apply trim_eq_self_of_ends
      · intro d hd
        rw [List.head?_append_of_ne_nil _ (List.cons_ne_nil c p), ← hp.1] at hd
        exact trim_first hd
      · intro d hd
        rw [List.getLast?_append_of_ne_nil _ (List.cons_ne_nil _ _), List.getLast?_cons_of_ne_nil hnil, ← hcode] at hd
        exact trim_last hd
  rw [accumulate, hglued, ← hwhite.2, ← parseParts_congr hwhite.1]
  split
  · rfl
  · next h =>
    have hnone : ';' ∉ glued := by simpa using h
    obtain ⟨hended, hself⟩ := unended_of_not_mem hnone
    rw [hended, hself, htrim]
    rfl

/-- The pieces of a text that is gathered line by line. -/
theorem gather_append (hnil : code ≠ []) (hcode : trim code = code) (more : List Char) (category : Category) :
    parseParts category (ended ';' (p ++ ' ' :: code)) ++
        parseParts category (ended ';' (trim (unended ';' (p ++ ' ' :: code)) ++ more)) =
      parseParts category (ended ';' (p ++ (' ' :: code ++ more))) ∧
    trim (unended ';' (trim (unended ';' (p ++ ' ' :: code)) ++ more)) =
      trim (unended ';' (p ++ (' ' :: code ++ more))) := by
  have hlast : ∀ c, (unended ';' (p ++ ' ' :: code)).getLast? = some c → isWhitespace c = false := by
    intro c hc
    obtain ⟨a, ha⟩ := unended_suffix ';' (p ++ ' ' :: code)
    have hne : unended ';' (p ++ ' ' :: code) ≠ [] := by
      intro hnil
      rw [hnil] at hc
      cases hc
    have hsame := congrArg List.getLast? ha
    rw [List.getLast?_append_of_ne_nil _ hne, hc, List.getLast?_append_of_ne_nil _ (List.cons_ne_nil _ _),
      List.getLast?_cons_of_ne_nil hnil, ← hcode] at hsame
    exact trim_last hsame.symm
  obtain ⟨w, hw, hsplit⟩ := exists_white hlast
  have happend := ended_append ';' (p ++ ' ' :: code) more
  rw [List.append_assoc] at happend
  have hwhite := pieces_white hw (trim (unended ';' (p ++ ' ' :: code)) ++ more)
  rw [← List.append_assoc, ← hsplit] at hwhite
  refine ⟨?_, ?_⟩
  · rw [happend.1, parseParts_append, parseParts_congr hwhite.1]
  · rw [happend.2, hwhite.2]

end

/-! Sections. -/

theorem handleSeparator_marker (c : Category) : handleSeparator (markerText c) = some c ∧ markerText c ≠ [] := by
  cases c <;> decide

theorem handleSeparator_plain (h : ∀ c, trim s ≠ markerText c) : handleSeparator (trim s) = none := by
  have h1 : trim s ≠ functionsMarker := h .functions
  have h2 : trim s ≠ typesMarker := h .types
  unfold handleSeparator
  simp only [trim_trim]
  rw [if_neg h1, if_neg h2]

/-- Lines of code: what a semicolon ends is yielded, the rest is pending. -/
theorem readLines_lines {lines : List Line} (hfine : ∀ l ∈ lines, l.Fine)
    (hplain : ∀ l ∈ lines, ∀ c, trim l.code ≠ markerText c) (category : Category) (more : List (List Char)) :
    ∀ p, Pending p → readLines category p (lines.map Line.text ++ more) =
      parseParts category (ended ';' (p ++ joinedLines lines)) ++
        readLines category (trim (unended ';' (p ++ joinedLines lines))) more := by
  induction lines with
  | nil =>
    intro p hp
    obtain ⟨hended, hself⟩ := unended_of_not_mem hp.2
    have hnil : p ++ joinedLines [] = p := List.append_nil p
    rw [hnil, hended, hself, hp.1]
    rfl
  | cons l lines ih =>
    intro p hp
    specialize ih (fun l hl => hfine l (List.mem_cons_of_mem _ hl)) fun l hl => hplain l (List.mem_cons_of_mem _ hl)
    rw [List.map_cons, List.cons_append, readLines, stripComment_text (hfine l List.mem_cons_self)]
    by_cases hblank : (trim l.code).isEmpty = true
    · have hjoin : joinedLines (l :: lines) = joinedLines lines := by simp [joinedLines, hblank]
      rw [if_pos hblank, hjoin]
      exact ih p hp
    · have hnil : trim l.code ≠ [] := by simpa using hblank
      have hjoin : joinedLines (l :: lines) = ' ' :: trim l.code ++ joinedLines lines := by
        simp [joinedLines, hnil]
      have hsep := handleSeparator_plain (hplain l List.mem_cons_self)
      obtain ⟨hparts, hpending⟩ := gather_append (p := p) hnil (trim_trim _) (joinedLines lines) category
      rw [if_neg hblank, hsep]
      simp only [accumulate_eq hp (trim_trim _) hnil]
      rw [ih _ (pending_unended _), hjoin, ← hpending, ← List.append_assoc, hparts]

theorem readLines_marker (hfine : l.Fine) {c : Category} (h : trim l.code = markerText c) (more : List (List Char)) :
    readLines category pending (l.text :: more) = readLines c pending more := by
  obtain ⟨hsep, hnil⟩ := handleSeparator_marker c
  have hblank : ¬ (markerText c).isEmpty = true := by simpa using hnil
  rw [readLines, stripComment_text hfine, h, if_neg hblank, hsep]

/-- Section by section, with what is pending at the end of each. -/
def readSections : Category → List Char → List Section → List Item
  | category, pending, [] => lastItems category pending
  | _, pending, s :: rest =>
    parseParts s.category (ended ';' (pending ++ s.joined)) ++
      readSections s.category (trim (unended ';' (pending ++ s.joined))) rest

theorem readLines_sections {sections : List Section} (hlaid : ∀ s ∈ sections, s.Laid) :
    ∀ (category : Category) {p}, Pending p →
      (∀ s, sections.head? = some s → s.Marked ∨ (s.marker = [] ∧ s.category = category)) →
      (∀ s ∈ sections.tail, s.Marked) →
      readLines category p ((sections.flatMap fun s => s.marker ++ s.lines).map Line.text) =
        readSections category p sections := by
  induction sections with
  | nil => exact fun _ _ _ _ _ => rfl
  | cons s rest ih =>
    intro category p hp hfirst hothers
    have hs := hlaid s List.mem_cons_self
    have hlines : ∀ category more, readLines category p (s.lines.map Line.text ++ more) =
        parseParts category (ended ';' (p ++ s.joined)) ++
          readLines category (trim (unended ';' (p ++ s.joined))) more := fun category more =>
      readLines_lines (fun l hl => hs.fine l (List.mem_append_right _ hl)) hs.plain category more p hp
    have hrest := ih (fun t ht => hlaid t (List.mem_cons_of_mem _ ht)) s.category
      (pending_unended (p ++ s.joined)) (fun t ht => Or.inl (hothers t (List.mem_of_mem_head? ht)))
      fun t ht => hothers t (List.mem_of_mem_tail ht)
    rw [List.flatMap_cons, List.map_append, readSections, ← hrest]
    rcases hfirst s rfl with ⟨l, hmarker, hcode⟩ | ⟨hmarker, hcat⟩
    · rw [hmarker, List.singleton_append, List.map_cons, List.cons_append,
        readLines_marker (hs.fine l (by simp [hmarker])) hcode]
      exact hlines _ _
    · rw [hmarker, List.nil_append, ← hcat]
      exact hlines _ _

/-- What the iterator yields of a layout. -/
theorem readLines_layout {sections : List Section} {src : List Char} (h : Layout sections src) :
    readLines .types [] (Rich.lines src) = readSections .types [] sections := by
  rw [h.src, readLines_joined]
  · exact readLines_sections h.laid _ ⟨rfl, List.not_mem_nil⟩ h.first h.others
  · intro t ht
    obtain ⟨l, hl, rfl⟩ := List.mem_map.mp ht
    obtain ⟨s, hs, hl⟩ := List.mem_flatMap.mp hl
    exact ((h.laid s hs).fine l hl).whole

end Ferogram.TlParser
