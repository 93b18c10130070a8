import Mathlib.Data.List.Nodup
import Mathlib.Data.List.Perm.Basic
import Mathlib.Data.List.Pairwise
import Ferogram.Parsers.MarkdownRead

/- Style entities through MarkdownV2 and back. At one position of the text the
   generator writes the delimiters that open there and then those that close
   there, each kind at most once; the parser reads the run greedily, which can
   only exchange an italic mark with an underline mark after it, and toggles each
   tag once (`run_tags`). What is open and what has been closed at a position is
   the invariant (`Before`, `After`) that the walk over the text keeps
   (`after_of_before`, `before_of_after`). -/
namespace Ferogram.Parsers
open Splice TagStack

namespace MarkdownTagV2

/-- The delimiter of a tag, the same for opening and closing. -/
def text : MarkdownTagV2 → List Char
  | .bold => ['*']
  | .italic => ['_']
  | .underline => ['_', '_']
  | .strike => ['~']
  | .spoiler => ['|', '|']

theorem kind_injective {a b : MarkdownTagV2} (h : a.kind = b.kind) : a = b := by
  cases a <;> cases b <;> first | rfl | cases h

end MarkdownTagV2

/-- The tag of a style, for the kinds that are one. -/
def EntityKind.style? : EntityKind → Option MarkdownTagV2
  | .bold => some .bold
  | .italic => some .italic
  | .underline => some .underline
  | .strike => some .strike
  | .spoiler => some .spoiler
  | _ => none

theorem EntityKind.style?_eq_some {k : EntityKind} {t : MarkdownTagV2} : k.style? = some t ↔ k = t.kind := by
  cases k <;> cases t <;> simp [EntityKind.style?, MarkdownTagV2.kind]

theorem EntityKind.quote?_of_style {k : EntityKind} (h : k.style?.isSome) : k.quote? = none := by
  cases k <;> simp_all [EntityKind.style?, EntityKind.quote?]

theorem EntityKind.isVerbatim_of_style {k : EntityKind} (h : k.style?.isSome) : k.isVerbatim = false := by
  cases k <;> simp_all [EntityKind.style?, EntityKind.isVerbatim]

/-! Reading delimiters. -/

namespace MdState

variable {s : MdState} {rest : List Char}

/-- What follows a tag's delimiter does not make a longer one of it. -/
def Apart : MarkdownTagV2 → List Char → Prop
  | .bold, rest => rest.head? ≠ some '*'
  | .italic, rest => rest.head? ≠ some '_'
  | _, _ => True

theorem run_tag (s : MdState) {t : MarkdownTagV2} (h : Apart t rest) :
    s.run (t.text ++ rest) = (s.leaveLineStart.toggleTagV2 t).run rest := by
  have hinline : ∀ (c : Char) (chars : List Char), c ≠ '\\' → c ≠ '`' → c ≠ '!' → c ≠ '[' →
      quoteMark (c :: chars) = none → s.run (c :: chars) =
        ((s.leaveLineStart.readTwoCharTag (c :: chars) <|> s.leaveLineStart.readOneCharTag (c :: chars)).getD
          (s.leaveLineStart.readPlain (c :: chars))).1.run
        ((s.leaveLineStart.readTwoCharTag (c :: chars) <|> s.leaveLineStart.readOneCharTag (c :: chars)).getD
          (s.leaveLineStart.readPlain (c :: chars))).2 := by
    intro c chars h1 h2 h3 h4 hmark
    rw [run_cons, step_of_no_mark s hmark, readInline_of_ne h1 h2 h3 h4]
  cases t with
  | bold =>
    cases rest with
    | nil => exact hinline _ _ (by decide) (by decide) (by decide) (by decide) rfl
    | cons d rest =>
      have hd : d ≠ '*' := by rintro rfl; exact h rfl
      have hmark : quoteMark ('*' :: d :: rest) = none := by simp [quoteMark, hd]
      -- one star, as what follows is no star
      have htwo : s.leaveLineStart.readTwoCharTag ('*' :: d :: rest) = none := by simp [readTwoCharTag, hd]
      simp only [MarkdownTagV2.text, List.cons_append, List.nil_append]
      rw [hinline _ _ (by decide) (by decide) (by decide) (by decide) hmark, htwo]
      rfl
  | italic =>
    cases rest with
    | nil => exact hinline _ _ (by decide) (by decide) (by decide) (by decide) rfl
    | cons d rest =>
      have hd : d ≠ '_' := by rintro rfl; exact h rfl
      have htwo : s.leaveLineStart.readTwoCharTag ('_' :: d :: rest) = none := by simp [readTwoCharTag, hd]
      simp only [MarkdownTagV2.text, List.cons_append, List.nil_append]
      rw [hinline _ _ (by decide) (by decide) (by decide) (by decide)
        (quoteMark_of_ne (by decide) (by decide)), htwo]
      rfl
  | underline =>
    exact hinline _ _ (by decide) (by decide) (by decide) (by decide) (quoteMark_of_ne (by decide) (by decide))
  | strike =>
    simp only [MarkdownTagV2.text, List.cons_append, List.nil_append]
    rw [hinline _ _ (by decide) (by decide) (by decide) (by decide) (quoteMark_of_ne (by decide) (by decide)),
      readTwoCharTag_of_ne (by decide) (by decide) (by decide)]
    rfl
  | spoiler =>
    exact hinline _ _ (by decide) (by decide) (by decide) (by decide) (quoteMark_of_ne (by decide) (by decide))

/-- What follows the delimiters does not look like one. -/
def Quiet (rest : List Char) : Prop := rest.head? ≠ some '*' ∧ rest.head? ≠ some '_'

theorem quiet_written (c : Char) (rest : List Char) : Quiet (written c ++ rest) := by
  unfold written
  cases h : isV2Escapable c
  · exact ⟨by simpa using ne_of_not_escapable h (by decide), by simpa using ne_of_not_escapable h (by decide)⟩
  · simp [Quiet]

theorem apart_tags {t : MarkdownTagV2} {ts : List MarkdownTagV2} (hrest : Quiet rest) (ht : t ∉ ts)
    (hunder : t = .italic → ts.head? ≠ some .underline) : Apart t (ts.flatMap MarkdownTagV2.text ++ rest) := by
  cases ts with
  | nil =>
    cases t <;> first | exact hrest.1 | exact hrest.2 | trivial
  | cons u ts =>
    cases t <;> cases u <;> simp_all [Apart, MarkdownTagV2.text]

/-! What a run of delimiters does to the open tags and to the entities. -/

/-- Each of the tags toggled once, from `s` to `s'`: a tag that was open is closed here, with an
    entity if it is not empty, and a tag that was not is opened here. -/
structure Toggled (ts : List MarkdownTagV2) (s s' : MdState) : Prop where
  out_eq : s'.out = s.out
  off_eq : s'.utf16Off = s.utf16Off
  quote_eq : s'.bqStartOff = s.bqStartOff
  stack_nodup : (s.openStack.map Prod.fst).Nodup → (s'.openStack.map Prod.fst).Nodup
  mem_stack : ∀ t o, (t, o) ∈ s'.openStack ↔
    if t ∈ ts then t ∉ s.openStack.map Prod.fst ∧ o = s.utf16Off else (t, o) ∈ s.openStack
  new_ents : ∃ new, s'.ents = s.ents ++ new ∧ new.Nodup ∧
    ∀ e, e ∈ new ↔ ∃ t ∈ ts, ∃ o, (t, o) ∈ s.openStack ∧ 0 < s.utf16Off - o ∧
      e = makeEntityV2 t o (s.utf16Off - o)

theorem Toggled.nil (s : MdState) : Toggled [] s s where
  out_eq := rfl
  off_eq := rfl
  quote_eq := rfl
  stack_nodup h := h
  mem_stack := by simp
  new_ents := ⟨[], by simp⟩

theorem Toggled.of_perm {ts ts' : List MarkdownTagV2} {s s' : MdState} (h : Toggled ts s s') (hp : ts.Perm ts') :
    Toggled ts' s s' where
  out_eq := h.out_eq
  off_eq := h.off_eq
  quote_eq := h.quote_eq
  stack_nodup := h.stack_nodup
  mem_stack := by simpa only [hp.mem_iff] using h.mem_stack
  new_ents := by simpa only [hp.mem_iff] using h.new_ents

theorem leaveLineStart_of_no_quote {s : MdState} (h : s.bqStartOff = none) :
    s.leaveLineStart = { s with atLineStart := false } := by
  cases hline : s.atLineStart <;> simp [leaveLineStart, closeQuote, h, hline]
  cases s
  simp_all

/-- A tag of a stack without doubles stands at one offset only. -/
theorem offset_unique {stack : List (MarkdownTagV2 × Int32)} (h : (stack.map Prod.fst).Nodup)
    {t : MarkdownTagV2} {o o' : Int32} (h1 : (t, o) ∈ stack) (h2 : (t, o') ∈ stack) : o = o' :=
  (Prod.mk.inj (List.inj_on_of_nodup_map h h1 h2 rfl)).2

/-- A tag that is not open is opened: no later toggle touches it. -/
theorem Toggled.opened {t : MarkdownTagV2} {ts : List MarkdownTagV2} {s s' : MdState}
    (hnodup : (s.openStack.map Prod.fst).Nodup) (ht : t ∉ ts) (hnot : t ∉ s.openStack.map Prod.fst)
    (h : Toggled ts { s with openStack := s.openStack ++ [(t, s.utf16Off)] } s') : Toggled (t :: ts) s s' := by
  refine ⟨h.out_eq, h.off_eq, h.quote_eq, fun _ => h.stack_nodup ?_, ?_, ?_⟩
  · have hdisj : ∀ a ∈ s.openStack.map Prod.fst, a ∉ [t] := by
      intro a ha hat
      exact hnot (List.mem_singleton.mp hat ▸ ha)
    simpa [List.nodup_append] using ⟨by simpa using hnodup, by simpa using hdisj⟩
  · intro u o
    rw [h.mem_stack]
    by_cases hu : u = t
    · subst hu
      have hgone : (u, o) ∉ s.openStack := fun hmem => hnot (List.mem_map.mpr ⟨_, hmem, rfl⟩)
      simp [ht, hgone, hnot]
    · simp [hu]
  · obtain ⟨new, hents, hnew, hmem⟩ := h.new_ents
    refine ⟨new, hents, hnew, ?_⟩
    intro e
    rw [hmem]
    constructor
    · rintro ⟨u, hu, o, ho, hlen, rfl⟩
      have hut : u ≠ t := fun heq => ht (heq ▸ hu)
      refine ⟨u, List.mem_cons_of_mem _ hu, o, ?_, hlen, rfl⟩
      simpa [hut] using ho
    · rintro ⟨u, hu, o, ho, hlen, rfl⟩
      have hut : u ≠ t := by
        rintro rfl
        exact hnot (List.mem_map.mpr ⟨_, ho, rfl⟩)
      exact ⟨u, (List.mem_cons.mp hu).resolve_left hut, o, List.mem_append_left _ ho, hlen, rfl⟩

section
variable {u v : List (MarkdownTagV2 × Int32)} {t : MarkdownTagV2} {start : Int32}

/-- What is left of a stack without doubles when a tag is taken out. -/
theorem mem_taken (hnodup : ((u ++ (t, start) :: v).map Prod.fst).Nodup) (y : MarkdownTagV2) (o : Int32) :
    (y, o) ∈ u ++ v ↔ y ≠ t ∧ (y, o) ∈ u ++ (t, start) :: v := by
  simp only [List.map_append, List.map_cons, List.nodup_middle, List.nodup_cons] at hnodup
  constructor
  · intro hmem
    refine ⟨?_, by simp only [List.mem_append, List.mem_cons] at hmem ⊢; tauto⟩
    rintro rfl
    apply hnodup.1
    rw [← List.map_append]
    exact List.mem_map.mpr ⟨_, hmem, rfl⟩
  · rintro ⟨hne, hmem⟩
    simp only [List.mem_append, List.mem_cons, Prod.mk.injEq, hne, false_and, false_or] at hmem
    exact List.mem_append.mpr hmem

theorem nodup_taken (hnodup : ((u ++ (t, start) :: v).map Prod.fst).Nodup) : ((u ++ v).map Prod.fst).Nodup := by
  simp only [List.map_append, List.map_cons, List.nodup_middle, List.nodup_cons] at hnodup
  simpa using hnodup.2

end

/-- The entity that the close of a tag makes, if it is not empty. -/
def closedEnts (t : MarkdownTagV2) (start len : Int32) : List MessageEntity :=
  if 0 < len then [makeEntityV2 t start len] else []

theorem mem_closedEnts {t : MarkdownTagV2} {start len : Int32} {e : MessageEntity} :
    e ∈ closedEnts t start len ↔ 0 < len ∧ e = makeEntityV2 t start len := by
  unfold closedEnts
  split <;> simp [*]

theorem nodup_closedEnts (t : MarkdownTagV2) (start len : Int32) : (closedEnts t start len).Nodup := by
  unfold closedEnts
  split <;> simp

/-- A tag that is open is closed: it leaves the stack, and its entity comes in front of the others. -/
theorem Toggled.closed {t : MarkdownTagV2} {ts : List MarkdownTagV2} {s s' : MdState}
    {u v : List (MarkdownTagV2 × Int32)} {start : Int32} (hnodup : (s.openStack.map Prod.fst).Nodup)
    (ht : t ∉ ts) (hstack : s.openStack = u ++ (t, start) :: v)
    (h : Toggled ts { s with openStack := u ++ v, ents := s.ents ++ closedEnts t start (s.utf16Off - start) } s') :
    Toggled (t :: ts) s s' := by
  have hopen : (t, start) ∈ s.openStack := by simp [hstack]
  have hrest : ∀ y o, (y, o) ∈ u ++ v ↔ y ≠ t ∧ (y, o) ∈ s.openStack := by
    rw [hstack] at hnodup ⊢
    exact mem_taken hnodup
  refine ⟨h.out_eq, h.off_eq, h.quote_eq, fun _ => h.stack_nodup ?_, ?_, ?_⟩
  · rw [hstack] at hnodup
    exact nodup_taken hnodup
  · -- what is open
    intro y o
    rw [h.mem_stack]
    by_cases hy : y = t
    · subst hy
      have hin : y ∈ s.openStack.map Prod.fst := List.mem_map.mpr ⟨_, hopen, rfl⟩
      simp only [ht, List.mem_cons_self, if_false, if_true, hin, not_true, false_and, iff_false]
      exact fun hmem => ((hrest y o).mp hmem).1 rfl
    · have hmap : y ∈ (u ++ v).map Prod.fst ↔ y ∈ s.openStack.map Prod.fst := by
        simp only [List.mem_map, Prod.exists, exists_and_right, exists_eq_right]
        exact exists_congr fun o => by rw [hrest]; simp [hy]
      simp only [List.mem_cons, hy, false_or, hmap]
      split
      · rfl
      · rw [hrest]; simp [hy]
  · -- what has been closed
    obtain ⟨new, hents, hnew, hmem⟩ := h.new_ents
    refine ⟨closedEnts t start (s.utf16Off - start) ++ new, by rw [hents, List.append_assoc], ?_, ?_⟩
    · apply List.Nodup.append (nodup_closedEnts _ _ _) hnew
      intro e he hen
      obtain ⟨y, hy, o, ho, -, heq⟩ := (hmem e).mp hen
      have hkind := congrArg MessageEntity.kind ((mem_closedEnts.mp he).2.symm.trans heq)
      exact ht (MarkdownTagV2.kind_injective hkind ▸ hy)
    · intro e
      rw [List.mem_append, mem_closedEnts, hmem]
      constructor
      · rintro (⟨hlen, rfl⟩ | ⟨y, hy, o, ho, hlen, rfl⟩)
        · exact ⟨t, List.mem_cons_self, start, hopen, hlen, rfl⟩
        · exact ⟨y, List.mem_cons_of_mem _ hy, o, ((hrest y o).mp ho).2, hlen, rfl⟩
      · rintro ⟨y, hy, o, ho, hlen, rfl⟩
        rcases List.mem_cons.mp hy with rfl | hy
        · obtain rfl := offset_unique hnodup hopen ho
          exact Or.inl ⟨hlen, rfl⟩
        · have hyt : y ≠ t := fun heq => ht (heq ▸ hy)
          exact Or.inr ⟨y, hy, o, (hrest y o).mpr ⟨hyt, ho⟩, hlen, rfl⟩

/-- One toggle and then others, of other tags. -/
theorem Toggled.cons {t : MarkdownTagV2} {ts : List MarkdownTagV2} {s s' : MdState}
    (hnodup : (s.openStack.map Prod.fst).Nodup) (ht : t ∉ ts) (h : Toggled ts (s.toggleTagV2 t) s') :
    Toggled (t :: ts) s s' := by
  cases hlast : removeLast (fun x : MarkdownTagV2 × Int32 => decide (x.1 = t)) s.openStack with
  | none =>
    have hnot : t ∉ s.openStack.map Prod.fst := by
      intro hmem
      obtain ⟨x, hx, rfl⟩ := List.mem_map.mp hmem
      simpa using removeLast_eq_none.mp hlast x hx
    have htog : s.toggleTagV2 t = { s with openStack := s.openStack ++ [(t, s.utf16Off)] } := by
      simp [toggleTagV2, hlast]
    rw [htog] at h
    exact .opened hnodup ht hnot h
  | some x =>
    obtain ⟨⟨t', start⟩, stack⟩ := x
    obtain ⟨u, v, hstack, rfl, hx, -⟩ := removeLast_eq_some hlast
    obtain rfl : t' = t := by simpa using hx
    have htog : s.toggleTagV2 t' =
        { s with openStack := u ++ v, ents := s.ents ++ closedEnts t' start (s.utf16Off - start) } := by
      simp only [toggleTagV2, hlast, closedEnts]
      split <;> simp [pushEnt]
    rw [htog] at h
    exact .closed hnodup ht hstack h

/-- One delimiter and then others: a step of `run_tags`. -/
theorem run_tag_cons {t : MarkdownTagV2} {ts : List MarkdownTagV2} {s : MdState} {chars : List Char}
    (hnodup : (s.openStack.map Prod.fst).Nodup) (hquote : s.bqStartOff = none) (ht : t ∉ ts)
    (hapart : Apart t chars)
    (ih : ∀ s : MdState, (s.openStack.map Prod.fst).Nodup → s.bqStartOff = none →
      ∃ s', Toggled ts s s' ∧ s.run chars = s'.run rest) :
    ∃ s', Toggled (t :: ts) s s' ∧ s.run (t.text ++ chars) = s'.run rest := by
  have hleave := leaveLineStart_of_no_quote hquote
  have hone : Toggled [t] s.leaveLineStart (s.leaveLineStart.toggleTagV2 t) :=
    Toggled.cons (by rw [hleave]; exact hnodup) (by simp) (Toggled.nil _)
  obtain ⟨s', htog, hrun⟩ := ih (s.leaveLineStart.toggleTagV2 t)
    (hone.stack_nodup (by rw [hleave]; exact hnodup)) (by rw [hone.quote_eq, hleave]; exact hquote)
  refine ⟨s', ?_, by rw [run_tag s hapart, hrun]⟩
  have hall := Toggled.cons (by rw [hleave]; exact hnodup) ht htog
  rw [hleave] at hall
  exact ⟨hall.out_eq, hall.off_eq, hall.quote_eq, hall.stack_nodup, hall.mem_stack, hall.new_ents⟩

/-- No italic mark with an underline mark behind it. -/
def Readable : List MarkdownTagV2 → Prop
  | [] => True
  | t :: ts => (t = .italic → ts.head? ≠ some .underline) ∧ Readable ts

/-- The only marks that can be read otherwise than they were written are an italic mark and an
    underline mark behind it: three underscores are read as the underline mark first. -/
theorem exists_readable {ts : List MarkdownTagV2} (h : ts.Nodup) :
    ∃ us, us.Perm ts ∧ us.flatMap MarkdownTagV2.text = ts.flatMap MarkdownTagV2.text ∧ Readable us := by
  induction ts with
  | nil => exact ⟨[], .nil, rfl, trivial⟩
  | cons t ts ih =>
    obtain ⟨us, hperm, htext, hread⟩ := ih (List.nodup_cons.mp h).2
    by_cases hswap : t = .italic ∧ us.head? = some .underline
    · obtain ⟨rfl, hhead⟩ := hswap
      obtain ⟨vs, rfl⟩ : ∃ vs, us = .underline :: vs := by
        cases us with
        | nil => cases hhead
        | cons u vs => exact ⟨vs, by rw [Option.some.inj hhead]⟩
      have hnodup : (MarkdownTagV2.underline :: vs).Nodup := hperm.nodup_iff.mpr (List.nodup_cons.mp h).2
      refine ⟨.underline :: .italic :: vs, (List.Perm.swap _ _ _).trans (hperm.cons _), ?_, ?_⟩
      · have hcons : (MarkdownTagV2.italic :: ts).flatMap MarkdownTagV2.text =
            MarkdownTagV2.italic.text ++ ts.flatMap MarkdownTagV2.text := List.flatMap_cons
        rw [hcons, ← htext]
        rfl
      · refine ⟨by simp, fun _ hvs => ?_, hread.2⟩
        exact (List.nodup_cons.mp hnodup).1 (List.mem_of_head? hvs)
    · exact ⟨t :: us, hperm.cons t, by simp [htext], fun heq hhead => hswap ⟨heq, hhead⟩, hread⟩

theorem run_readable (ts : List MarkdownTagV2) (hts : ts.Nodup) (hread : Readable ts) (hrest : Quiet rest) :
    ∀ s : MdState, (s.openStack.map Prod.fst).Nodup → s.bqStartOff = none →
      ∃ s', Toggled ts s s' ∧ s.run (ts.flatMap MarkdownTagV2.text ++ rest) = s'.run rest := by
  induction ts with
  | nil => exact fun s _ _ => ⟨s, Toggled.nil s, rfl⟩
  | cons t ts ih =>
    intro s hnodup hquote
    obtain ⟨ht, hts⟩ := List.nodup_cons.mp hts
    obtain ⟨s', htog, hrun⟩ := run_tag_cons hnodup hquote ht (apart_tags hrest ht hread.1) (ih hts hread.2)
    refine ⟨s', htog, ?_⟩
    rw [← hrun, List.flatMap_cons, List.append_assoc]

/-- A run of delimiters toggles each tag once. -/
theorem run_tags {ts : List MarkdownTagV2} (hts : ts.Nodup) (hrest : Quiet rest) (s : MdState)
    (hnodup : (s.openStack.map Prod.fst).Nodup) (hquote : s.bqStartOff = none) :
    ∃ s', Toggled ts s s' ∧ s.run (ts.flatMap MarkdownTagV2.text ++ rest) = s'.run rest := by
  obtain ⟨us, hperm, htext, hread⟩ := exists_readable hts
  obtain ⟨s', htog, hrun⟩ := run_readable us (hperm.nodup_iff.mpr hts) hread hrest s hnodup hquote
  exact ⟨s', htog.of_perm hperm, by rw [← htext, hrun]⟩

end MdState

/-! Where the delimiters of the entities stand. -/

namespace MessageEntity

/-- Entities of one kind have a character between them. -/
def Separated (a b : MessageEntity) : Prop :=
  a.kind = b.kind → a.stop.toInt < b.offset.toInt ∨ b.stop.toInt < a.offset.toInt

instance : Std.Symm Separated where
  symm _ _ h hkind := (h hkind.symm).symm

end MessageEntity

/-- Style entities of a text: not empty, inside it, on its character boundaries, those of one kind
    apart from each other. -/
structure Styled (text : List Char) (ents : List MessageEntity) : Prop extends Placed text ents where
  style : ∀ e ∈ ents, e.kind.style?.isSome
  separated : ents.Pairwise MessageEntity.Separated

namespace Styled

variable {text : List Char} {ents : List MessageEntity} (hs : Styled text ents)
include hs

theorem eq_of_near {a b : MessageEntity} (ha : a ∈ ents) (hb : b ∈ ents) (hkind : a.kind = b.kind)
    (h1 : b.offset.toInt ≤ a.stop.toInt) (h2 : a.offset.toInt ≤ b.stop.toInt) : a = b := by
  by_contra hne
  have hsep := hs.separated.forall ha hb hne hkind
  omega

theorem nodup : ents.Nodup := by
  apply hs.separated.imp_of_mem
  intro a b ha hb hsep
  rintro rfl
  have := hs.offset_lt_stop ha
  have := hsep rfl
  omega

end Styled

/-- The tags whose delimiters stand at a position, in the order they are written. -/
def tagsAt (ents : List MessageEntity) (p : Int) : List MarkdownTagV2 :=
  ((ents.filter fun e => e.offset.toInt = p) ++ ents.filter fun e => e.stop.toInt = p).filterMap
    fun e => e.kind.style?

theorem mem_tagsAt {ents : List MessageEntity} {p : Int} {t : MarkdownTagV2} :
    t ∈ tagsAt ents p ↔ ∃ e ∈ ents, e.kind = t.kind ∧ (e.offset.toInt = p ∨ e.stop.toInt = p) := by
  simp only [tagsAt, List.mem_filterMap, List.mem_append, List.mem_filter, decide_eq_true_eq,
    EntityKind.style?_eq_some]
  constructor
  · rintro ⟨e, ⟨he, h⟩ | ⟨he, h⟩, hkind⟩
    · exact ⟨e, he, hkind, Or.inl h⟩
    · exact ⟨e, he, hkind, Or.inr h⟩
  · rintro ⟨e, he, hkind, h | h⟩
    · exact ⟨e, Or.inl ⟨he, h⟩, hkind⟩
    · exact ⟨e, Or.inr ⟨he, h⟩, hkind⟩

/-- The parser before the delimiters at a position: what has been read of the text, the tags open
    there, the entities closed so far. -/
structure Before (ents : List MessageEntity) (pre : List Char) (s : MdState) : Prop where
  out_eq : s.out = pre
  off_eq : s.utf16Off = Int32.ofNat (utf16Len pre)
  no_quote : s.bqStartOff = none
  stack_nodup : (s.openStack.map Prod.fst).Nodup
  mem_stack : ∀ t o, (t, o) ∈ s.openStack ↔
    ∃ e ∈ ents, e.kind = t.kind ∧ e.offset = o ∧ e.offset.toInt < utf16Len pre ∧ utf16Len pre ≤ e.stop.toInt
  ents_perm : s.ents.Perm (ents.filter fun e => e.stop.toInt < utf16Len pre)

/-- The parser behind the delimiters at a position. -/
structure After (ents : List MessageEntity) (pre : List Char) (s : MdState) : Prop where
  out_eq : s.out = pre
  off_eq : s.utf16Off = Int32.ofNat (utf16Len pre)
  no_quote : s.bqStartOff = none
  stack_nodup : (s.openStack.map Prod.fst).Nodup
  mem_stack : ∀ t o, (t, o) ∈ s.openStack ↔
    ∃ e ∈ ents, e.kind = t.kind ∧ e.offset = o ∧ e.offset.toInt ≤ utf16Len pre ∧ utf16Len pre < e.stop.toInt
  ents_perm : s.ents.Perm (ents.filter fun e => e.stop.toInt ≤ utf16Len pre)

section Walk

variable {text : List Char} {ents : List MessageEntity} (hs : Styled text ents)
include hs

/-- Each kind has one delimiter at most at a position. -/
theorem tagsAt_nodup (p : Int) : (tagsAt ents p).Nodup := by
  have hone : ∀ a ∈ ents, ∀ b ∈ ents, (a.offset.toInt = p ∨ a.stop.toInt = p) →
      (b.offset.toInt = p ∨ b.stop.toInt = p) → a.kind = b.kind → a = b := by
    intro a ha b hb h1 h2 hkind
    have hla := hs.offset_lt_stop ha
    have hlb := hs.offset_lt_stop hb
    exact hs.eq_of_near ha hb hkind (by omega) (by omega)
  have hlist : ((ents.filter fun e => e.offset.toInt = p) ++ ents.filter fun e => e.stop.toInt = p).Nodup := by
    apply List.Nodup.append (hs.nodup.filter _) (hs.nodup.filter _)
    intro e he he'
    have h1 := of_decide_eq_true (List.mem_filter.mp he).2
    have h2 := of_decide_eq_true (List.mem_filter.mp he').2
    have := hs.offset_lt_stop (List.mem_filter.mp he).1
    omega
  apply List.pairwise_filterMap.mpr
  apply hlist.imp_of_mem
  intro a b ha hb hne t ht t' ht' heq
  subst heq
  have hmem : ∀ e, e ∈ (ents.filter fun e => e.offset.toInt = p) ++ ents.filter (fun e => e.stop.toInt = p) →
      e ∈ ents ∧ (e.offset.toInt = p ∨ e.stop.toInt = p) := by
    intro e he
    simp only [List.mem_append, List.mem_filter, decide_eq_true_eq] at he
    tauto
  have hkind : a.kind = b.kind :=
    (EntityKind.style?_eq_some.mp ht).trans (EntityKind.style?_eq_some.mp ht').symm
  exact hne (hone a (hmem a ha).1 b (hmem b hb).1 (hmem a ha).2 (hmem b hb).2 hkind)

/-- What is written at a position are the delimiters of the tags there. -/
theorem texts_insertions (p : Int) :
    texts (markersAt p (entityMarkers insertion ents)) = (tagsAt ents p).flatMap MarkdownTagV2.text := by
  have hone : ∀ e ∈ ents, ∃ t, e.kind.style? = some t ∧ openText insertion e = t.text ∧ closeText insertion e = t.text := by
    intro e he
    obtain ⟨t, ht⟩ := Option.isSome_iff_exists.mp (hs.style e he)
    have hkind := EntityKind.style?_eq_some.mp ht
    refine ⟨t, ht, ?_⟩
    cases t <;> simp [openText, closeText, insertion, hkind, MarkdownTagV2.kind, MarkdownTagV2.text]
  have hall : ∀ (f : MessageEntity → List Char) (l : List MessageEntity),
      (∀ e ∈ l, ∃ t, e.kind.style? = some t ∧ f e = t.text) →
        l.flatMap f = (l.filterMap fun e => e.kind.style?).flatMap MarkdownTagV2.text := by
    intro f l hl
    induction l with
    | nil => rfl
    | cons e l ih =>
      obtain ⟨t, ht, hf⟩ := hl e List.mem_cons_self
      rw [List.flatMap_cons, List.filterMap_cons_some (f := fun e : MessageEntity => e.kind.style?) ht,
        List.flatMap_cons, hf,
        ih fun e he => hl e (List.mem_cons_of_mem _ he)]
  unfold tagsAt
  rw [texts_entityMarkers, List.filterMap_append, List.flatMap_append]
  congr 1
  · apply hall
    intro e he
    obtain ⟨t, ht, ho, -⟩ := hone e (List.mem_filter.mp he).1
    exact ⟨t, ht, ho⟩
  · apply hall
    intro e he
    obtain ⟨t, ht, -, hc⟩ := hone e (List.mem_filter.mp he).1
    exact ⟨t, ht, hc⟩

/-- The open tags behind the delimiters of a position. -/
theorem mem_stack_after {pre : List Char} {s s' : MdState} (hb : Before ents pre s)
    (htog : MdState.Toggled (tagsAt ents (utf16Len pre)) s s') (t : MarkdownTagV2) (o : Int32) :
    (t, o) ∈ s'.openStack ↔ ∃ e ∈ ents, e.kind = t.kind ∧ e.offset = o ∧ e.offset.toInt ≤ utf16Len pre ∧
      utf16Len pre < e.stop.toInt := by
  rw [htog.mem_stack]
  by_cases ht : t ∈ tagsAt ents (utf16Len pre)
  · obtain ⟨e, he, hkind, hpos⟩ := mem_tagsAt.mp ht
    have hlt := hs.offset_lt_stop he
    rw [if_pos ht]
    constructor
    · rintro ⟨hclosed, rfl⟩
      rcases hpos with hpos | hpos
      · exact ⟨e, he, hkind, by rw [hb.off_eq]; exact ofNat_of_toInt hpos, by omega, by omega⟩
      · -- a tag that closes here was open
        have hopen := (hb.mem_stack t e.offset).mpr ⟨e, he, hkind, rfl, by omega, by omega⟩
        exact absurd (List.mem_map.mpr ⟨_, hopen, rfl⟩) hclosed
    · rintro ⟨a, ha, hakind, rfl, h1, h2⟩
      obtain rfl := hs.eq_of_near ha he (hakind.trans hkind.symm) (by omega) (by omega)
      have hstart : a.offset.toInt = utf16Len pre := by omega
      refine ⟨?_, by rw [hb.off_eq]; exact ofNat_of_toInt hstart⟩
      intro hmem
      obtain ⟨⟨u, o⟩, hu, rfl⟩ := List.mem_map.mp hmem
      obtain ⟨b, hbe, hbkind, -, h3, h4⟩ := (hb.mem_stack u o).mp hu
      obtain rfl := hs.eq_of_near ha hbe (hakind.trans hbkind.symm) (by omega) (by omega)
      omega
  · rw [if_neg ht, hb.mem_stack]
    apply exists_congr
    intro e
    constructor
    · rintro ⟨he, hkind, ho, h1, h2⟩
      have hne : e.stop.toInt ≠ utf16Len pre := fun h => ht (mem_tagsAt.mpr ⟨e, he, hkind, Or.inr h⟩)
      exact ⟨he, hkind, ho, by omega, by omega⟩
    · rintro ⟨he, hkind, ho, h1, h2⟩
      have hne : e.offset.toInt ≠ utf16Len pre := fun h => ht (mem_tagsAt.mpr ⟨e, he, hkind, Or.inl h⟩)
      exact ⟨he, hkind, ho, by omega, by omega⟩

/-- The delimiters of a position close the entities that stop there. -/
theorem mem_closed {pre : List Char} {s : MdState} (hb : Before ents pre s) (e : MessageEntity) :
    (∃ t ∈ tagsAt ents (utf16Len pre), ∃ o, (t, o) ∈ s.openStack ∧ 0 < s.utf16Off - o ∧
      e = makeEntityV2 t o (s.utf16Off - o)) ↔ e ∈ ents ∧ e.stop.toInt = utf16Len pre := by
  constructor
  · rintro ⟨t, ht, o, ho, -, rfl⟩
    obtain ⟨a, ha, hakind, rfl, h1, h2⟩ := (hb.mem_stack t o).mp ho
    obtain ⟨b, hbe, hbkind, hpos⟩ := mem_tagsAt.mp ht
    have hlt := hs.offset_lt_stop hbe
    obtain rfl := hs.eq_of_near ha hbe (hakind.trans hbkind.symm) (by omega) (by omega)
    have hstop : a.stop.toInt = utf16Len pre := by omega
    have hoff : s.utf16Off = a.stop := by rw [hb.off_eq, ← ofNat_of_toInt hstop]
    have hsame : makeEntityV2 t a.offset (s.utf16Off - a.offset) = a := by
      rw [hoff, (hs.length_eq ha).1, makeEntityV2, ← hakind]
    rw [hsame]
    exact ⟨ha, hstop⟩
  · rintro ⟨he, hstop⟩
    obtain ⟨t, ht⟩ := Option.isSome_iff_exists.mp (hs.style e he)
    have hkind := EntityKind.style?_eq_some.mp ht
    have hlt := hs.offset_lt_stop he
    have hoff : s.utf16Off = e.stop := by rw [hb.off_eq, ← ofNat_of_toInt hstop]
    obtain ⟨hlen, hpos⟩ := hs.length_eq he
    refine ⟨t, mem_tagsAt.mpr ⟨e, he, hkind, Or.inr hstop⟩, e.offset,
      (hb.mem_stack t e.offset).mpr ⟨e, he, hkind, rfl, by omega, by omega⟩, ?_, ?_⟩
    · rw [hoff, hlen]
      exact hpos
    · rw [hoff, hlen, makeEntityV2, ← hkind]

theorem after_of_before {pre : List Char} {s s' : MdState} (hb : Before ents pre s)
    (htog : MdState.Toggled (tagsAt ents (utf16Len pre)) s s') : After ents pre s' where
  out_eq := htog.out_eq.trans hb.out_eq
  off_eq := htog.off_eq.trans hb.off_eq
  no_quote := htog.quote_eq.trans hb.no_quote
  stack_nodup := htog.stack_nodup hb.stack_nodup
  mem_stack := mem_stack_after hs hb htog
  ents_perm := by
    obtain ⟨new, hents, hnodup, hmem⟩ := htog.new_ents
    have hnew : new.Perm (ents.filter fun e => e.stop.toInt = utf16Len pre) := by
      apply (List.perm_ext_iff_of_nodup hnodup (hs.nodup.filter _)).mpr
      intro e
      rw [hmem, mem_closed hs hb, List.mem_filter, decide_eq_true_eq]
    rw [hents]
    exact (hb.ents_perm.append hnew).trans (filter_lt_append_eq _ _ _)

/-- A character of the text, and on to the next position. -/
theorem before_of_after {pre cs : List Char} {c : Char} {s : MdState} (htext : text = pre ++ c :: cs)
    (ha : After ents pre s) : Before ents (pre ++ [c]) (s.takeChar c) := by
  have hpos := lenUtf16_pos c
  have hleave := MdState.leaveLineStart_of_no_quote ha.no_quote
  refine ⟨?_, ?_, ?_, ?_, ?_, ?_⟩
  · simp [MdState.takeChar, MdState.pushChar, hleave, ha.out_eq]
  · simp [MdState.takeChar, MdState.pushChar, hleave, ha.off_eq, Int32.ofNat_add]
  · simp [MdState.takeChar, MdState.pushChar, hleave, ha.no_quote]
  · simpa [MdState.takeChar, MdState.pushChar, hleave] using ha.stack_nodup
  · intro t o
    have hstack : (s.takeChar c).openStack = s.openStack := by
      simp [MdState.takeChar, MdState.pushChar, hleave]
    rw [hstack, ha.mem_stack]
    apply exists_congr
    intro e
    apply and_congr_right
    intro he
    have hgap := hs.gap htext he
    simp only [utf16Len_append, utf16Len_cons, utf16Len_nil]
    constructor
    · rintro ⟨hkind, ho, h1, h2⟩
      exact ⟨hkind, ho, by omega, by omega⟩
    · rintro ⟨hkind, ho, h1, h2⟩
      exact ⟨hkind, ho, by omega, by omega⟩
  · have hents : (s.takeChar c).ents = s.ents := by simp [MdState.takeChar, MdState.pushChar, hleave]
    rw [hents]
    refine ha.ents_perm.trans (List.Perm.of_eq (List.filter_congr ?_))
    intro e he
    have hgap := hs.gap htext he
    simp only [utf16Len_append, utf16Len_cons, utf16Len_nil]
    exact decide_eq_decide.mpr (by omega)

/-- The walk over the text. -/
theorem after_run (cs pre : List Char) (s : MdState) (w : MdWriter) (htext : text = pre ++ cs)
    (hb : Before ents pre s) (hw : w.utf16Pos = Int32.ofNat (utf16Len pre)) :
    After ents text (s.run (splice (fun w : MdWriter => w.utf16Pos.toInt) MdWriter.next (MdWriter.body ents) w
      (markersFrom (utf16Len pre) (entityMarkers insertion ents)) cs)) := by
  have htags := tagsAt_nodup hs (utf16Len pre)
  induction cs generalizing pre s w with
  | nil =>
    obtain rfl : text = pre := by simpa using htext
    rw [hs.toPlaced.splice_nil, texts_insertions hs]
    have hquiet : MdState.Quiet [] := by simp [MdState.Quiet]
    obtain ⟨s', htog, hrun⟩ := MdState.run_tags htags hquiet s hb.stack_nodup hb.no_quote
    rw [List.append_nil, MdState.run_nil] at hrun
    rw [hrun]
    exact after_of_before hs hb htog
  | cons c cs ih =>
    have hbody : w.body ents c = MdState.written c := by
      apply MdState.body_eq_written
      · exact fun _ => MdState.quoteAt_eq_none fun e he => EntityKind.quote?_of_style (hs.style e he)
      · exact MdState.inVerbatim_eq_false fun e he => EntityKind.isVerbatim_of_style (hs.style e he)
    rw [hs.toPlaced.splice_cons htext w (by rw [hw]), texts_insertions hs, hbody]
    obtain ⟨s', htog, hrun⟩ := MdState.run_tags htags (MdState.quiet_written c _) s hb.stack_nodup hb.no_quote
    rw [hrun, MdState.run_written]
    apply ih
    · rw [htext]
      simp
    · exact before_of_after hs htext (after_of_before hs hb htog)
    · simp [MdWriter.next, hw, Int32.ofNat_add]
    · exact tagsAt_nodup hs _

theorem before_init : Before ents [] .init := by
  refine ⟨rfl, rfl, rfl, List.nodup_nil, ?_, ?_⟩
  · intro t o
    simp only [MdState.init, List.not_mem_nil, utf16Len_nil, false_iff, not_exists, not_and]
    intro e he _ _ hlt
    have := hs.offset_nonneg he
    omega
  · refine List.Perm.of_eq (List.filter_eq_nil_iff.mpr ?_).symm
    intro e he
    have h1 := hs.offset_nonneg he
    have h2 := hs.offset_lt_stop he
    rw [utf16Len_nil, decide_eq_true_eq]
    omega

theorem parse_generate_styled :
    (parseMarkdown (generateMarkdown text ents)).1 = text ∧
      (parseMarkdown (generateMarkdown text ents)).2.Perm ents := by
  have hafter := after_run hs text [] .init { utf16Pos := 0, atLineStart := true } rfl (before_init hs) rfl
  rw [hs.toPlaced.markersFrom_start] at hafter
  have hclose : (MdState.run .init (generateMarkdown text ents)).closeQuote =
      MdState.run .init (generateMarkdown text ents) := by
    have hquote : (MdState.run .init (generateMarkdown text ents)).bqStartOff = none := hafter.no_quote
    simp [MdState.closeQuote, hquote]
  have hall : (ents.filter fun e => e.stop.toInt ≤ (utf16Len text : Int)) = ents :=
    List.filter_eq_self.mpr fun e he => decide_eq_true (hs.stop_le he)
  have hparse : parseMarkdown (generateMarkdown text ents) =
      ((MdState.run .init (generateMarkdown text ents)).out, (MdState.run .init (generateMarkdown text ents)).ents) := by
    have : parseMarkdown (generateMarkdown text ents) =
        ((MdState.run .init (generateMarkdown text ents)).closeQuote.out,
          (MdState.run .init (generateMarkdown text ents)).closeQuote.ents) := rfl
    rw [this, hclose]
  rw [hparse]
  exact ⟨hafter.out_eq, hafter.ents_perm.trans (List.Perm.of_eq hall)⟩

end Walk

/-- Markdown generated from a text and its style entities, in any order, is parsed back to the text
    and the same entities, as a multiset. -/
theorem styles_round_trip (text : List Char) (ents : List MessageEntity)
    (hstyle : ∀ e ∈ ents, e.kind.style?.isSome) (hin : ∀ e ∈ ents, e.InText text)
    (hsep : ents.Pairwise MessageEntity.Separated) (hfits : ∀ e ∈ ents, e.Fits) :
    (parseMarkdown (generateMarkdown text ents)).1 = text ∧
      (parseMarkdown (generateMarkdown text ents)).2.Perm ents :=
  parse_generate_styled ⟨⟨hin, hfits⟩, hstyle, hsep⟩

/-- Bold over a whole text and italic over its end. -/
theorem styles_round_trip_overlap :
    (parseMarkdown (generateMarkdown ['_', 'b'] [⟨1, 1, .italic⟩, ⟨0, 2, .bold⟩])).1 = ['_', 'b'] ∧
      (parseMarkdown (generateMarkdown ['_', 'b'] [⟨1, 1, .italic⟩, ⟨0, 2, .bold⟩])).2.Perm
        [⟨1, 1, .italic⟩, ⟨0, 2, .bold⟩] := by
  apply styles_round_trip
  · decide
  · intro e he
    rcases List.mem_pair.mp he with rfl | rfl
    · exact ⟨['_'], ['b'], [], rfl, rfl, rfl, by decide⟩
    · exact ⟨[], ['_', 'b'], [], rfl, rfl, rfl, by decide⟩
  · refine List.pairwise_pair.mpr ?_
    intro h
    cases h
  · intro e he
    rcases List.mem_pair.mp he with rfl | rfl
    · show (1 : Int32).toInt + (1 : Int32).toInt < 2 ^ 31
      decide
    · show (0 : Int32).toInt + (2 : Int32).toInt < 2 ^ 31
      decide

/-! An entity whose end is not an `i32`. -/

/-- The last unit an `i32` can count, in bold: its end wraps, and the closing mark is written first. -/
def lastUnit : MessageEntity := ⟨2147483647, 1, .bold⟩

/-- All units before it. -/
def allButLast : MessageEntity := ⟨0, 2147483647, .bold⟩

theorem entityMarkers_lastUnit :
    entityMarkers insertion [lastUnit] = [⟨-2147483648, false, ['*']⟩, ⟨2147483647, true, ['*']⟩] := rfl

theorem entityMarkers_allButLast :
    entityMarkers insertion [allButLast] = [⟨0, true, ['*']⟩, ⟨2147483647, false, ['*']⟩] := rfl

theorem body_bold {e : MessageEntity} (he : e.kind = .bold) :
    MdWriter.body [e] = fun _ c => MdState.written c := by
  funext w c
  apply MdState.body_eq_written
  · exact fun _ => MdState.quoteAt_eq_none fun a ha => by rw [List.mem_singleton.mp ha, he]; rfl
  · exact MdState.inVerbatim_eq_false fun a ha => by rw [List.mem_singleton.mp ha, he]; rfl

theorem generate_lastUnit (c : Char) (text : List Char) :
    generateMarkdown (c :: text) [lastUnit] = generateMarkdown (c :: text) [allButLast] := by
  unfold generateMarkdown generateMarkdownV2
  rw [entityMarkers_lastUnit, entityMarkers_allButLast, body_bold (e := lastUnit) rfl,
    body_bold (e := allButLast) rfl]
  -- the first mark is due at the start of the text either way
  have hdue : ∀ p : Int, p ≤ 0 → ∀ isOpen isOpen' : Bool,
      splice (fun w : MdWriter => w.utf16Pos.toInt) MdWriter.next (fun _ c => MdState.written c)
        { utf16Pos := 0, atLineStart := true } [⟨p, isOpen, ['*']⟩, ⟨2147483647, isOpen', ['*']⟩] (c :: text) =
      '*' :: (MdState.written c ++
        splice (fun w : MdWriter => w.utf16Pos.toInt) MdWriter.next (fun _ c => MdState.written c)
          (MdWriter.next { utf16Pos := 0, atLineStart := true } c) [⟨2147483647, isOpen', ['*']⟩] text) := by
    intro p hp isOpen isOpen'
    simp [splice, hp, texts]
  rw [hdue _ (by decide), hdue _ (by decide)]
  congr 2
  exact splice_congr _ _ _ text _ _ _ rfl

theorem utf16Len_replicate (n : Nat) : utf16Len (List.replicate n 'a') = n := by
  induction n with
  | zero => rfl
  | succ n ih =>
    rw [List.replicate_succ, utf16Len_cons, ih]
    have : lenUtf16 'a' = 1 := rfl
    omega

theorem lastUnit_lost {n : Nat} (hn : n = 2147483647) :
    lastUnit.InText (List.replicate n 'a' ++ ['a']) ∧
      ¬ (parseMarkdown (generateMarkdown (List.replicate n 'a' ++ ['a']) [lastUnit])).2.Perm [lastUnit] := by
  have hlen := utf16Len_replicate n
  have hunits : (2147483647 : Int32).toInt = utf16Len (List.replicate n 'a') := by
    rw [hlen]
    have : (2147483647 : Int32).toInt = 2147483647 := by decide
    omega
  constructor
  · exact ⟨List.replicate n 'a', ['a'], [], by simp, hunits, rfl, by simp⟩
  · have hstyled : Styled (List.replicate n 'a' ++ ['a']) [allButLast] := by
      refine ⟨⟨?_, ?_⟩, ?_, List.pairwise_singleton _ _⟩
      · intro e he
        rw [List.mem_singleton.mp he]
        refine ⟨[], List.replicate n 'a', ['a'], rfl, rfl, hunits, ?_⟩
        exact List.ne_nil_of_length_pos (by rw [List.length_replicate]; omega)
      · intro e he
        rw [List.mem_singleton.mp he]
        show (0 : Int32).toInt + (2147483647 : Int32).toInt < 2 ^ 31
        decide
      · intro e he
        rw [List.mem_singleton.mp he]
        rfl
    have hcons : List.replicate n 'a' ++ ['a'] = 'a' :: List.replicate n 'a' := by
      rw [← List.replicate_succ', List.replicate_succ]
    have hback := (parse_generate_styled hstyled).2
    rw [hcons] at hback ⊢
    rw [generate_lastUnit]
    intro hperm
    exact absurd (hback.symm.trans hperm) (by decide)

/-- In a text of `2 ^ 31` units, bold over the last one comes back as bold over all the others. -/
theorem last_unit_moves :
    (∀ e ∈ [lastUnit], e.kind.style?.isSome) ∧
      (∀ e ∈ [lastUnit], e.InText (List.replicate 2147483647 'a' ++ ['a'])) ∧
      [lastUnit].Pairwise MessageEntity.Separated ∧
      ¬ ((parseMarkdown (generateMarkdown (List.replicate 2147483647 'a' ++ ['a']) [lastUnit])).1 =
          List.replicate 2147483647 'a' ++ ['a'] ∧
        (parseMarkdown (generateMarkdown (List.replicate 2147483647 'a' ++ ['a']) [lastUnit])).2.Perm
          [lastUnit]) := by
  obtain ⟨hin, hlost⟩ := lastUnit_lost (n := 2147483647) rfl
  refine ⟨by decide, ?_, List.pairwise_singleton _ _, fun h => hlost h.2⟩
  intro e he
  rw [List.mem_singleton.mp he]
  exact hin

end Ferogram.Parsers
