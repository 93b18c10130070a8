import Mathlib.Data.List.Pairwise
import Ferogram.Parsers.HtmlStack

/- Entities through HTML and back. At each place in the text the parser has, for
   every closing name, the entities that are open there on the stack of that name
   and those that ended before among its own (`Holding`). Opening tags put the
   entities that start at a place on top (`Holding.opening`); the closing tags of
   a place take off as many as end there, and these are the ones that do
   (`Holding.closing`), provided no two entities of one name stand in each
   other's way (`Clear`, `LongestFirst`). -/
namespace Ferogram.Parsers
open Replace Splice TagStack

/-! The kinds that come back. -/

/-- Some flag is set, and neither the time nor the date is both short and long. -/
def DateFlags.Plain (flags : DateFlags) : Prop :=
  flags ≠ ⟨false, false, false, false, false, false⟩ ∧ ¬ (flags.shortTime ∧ flags.longTime) ∧
    ¬ (flags.shortDate ∧ flags.longDate)

theorem DateFlags.Plain.parse_format {flags : DateFlags} (h : flags.Plain) :
    parseTgTimeFormat (tgTimeFlagsToFormat flags) = flags := by
  obtain ⟨hsome, htime, hdate⟩ := h
  obtain ⟨relative, shortTime, longTime, shortDate, longDate, dayOfWeek⟩ := flags
  revert hsome htime hdate
  cases relative <;> cases shortTime <;> cases longTime <;> cases shortDate <;> cases longDate <;> cases dayOfWeek <;>
    decide

namespace EntityKind

/-- A kind that has tags, with attributes that are read back as they are written. -/
def ComesBack : EntityKind → Prop
  | .pre language => '"' ∉ language ∧ '>' ∉ language
  | .textUrl url => PlainUrl url
  | .formattedDate flags _ => flags.Plain
  | .other _ => False
  | _ => True

theorem ComesBack.languageOk {kind : EntityKind} (h : kind.ComesBack) : kind.LanguageOk := by
  cases kind <;> first | exact h | trivial

theorem ComesBack.closer_ne_none {kind : EntityKind} (h : kind.ComesBack) : kind.closer? ≠ none := by
  cases kind with
  | other constructorId => exact absurd h id
  | _ => simp [closer?]

/-- What is kept beside the tag. -/
def extra : EntityKind → Option (List Char)
  | .pre language => some language
  | _ => none

theorem filter_entries (off : Int32) (kind : EntityKind) (k : CloseTag) :
    (kind.entries off).filter (fun entry => entry.tag.closer? = some k) =
      if kind.closer? = some k then [⟨kind.htmlTag, off, kind.extra⟩] else [] := by
  cases kind <;> cases k <;> rfl

theorem countP_entries_isMark (off : Int32) (kind : EntityKind) :
    (kind.entries off).countP HtmlEntry.isMark = if kind.closer? = some .pre then 1 else 0 := by
  cases kind <;> rfl

/-- How often a name occurs among the closing tags. -/
theorem count_closeTags (kind : EntityKind) (j : CloseTag) :
    kind.closeTags.count j = (if kind.closer? = some j then 1 else 0) +
      if j = .code ∧ kind.closer? = some .pre then 1 else 0 := by
  cases kind <;> cases j <;> rfl

end EntityKind

namespace MessageEntity

/-- The entity as an open tag. -/
def entry (e : MessageEntity) : HtmlEntry := ⟨e.kind.htmlTag, e.offset, e.kind.extra⟩

theorem kind_entry {e : MessageEntity} (h : e.kind.ComesBack) : e.entry.kind? = some e.kind := by
  obtain ⟨off, len, kind⟩ := e
  cases kind with
  | textUrl url => exact kind_of_link h off
  | mentionName userId =>
    simp only [entry, EntityKind.htmlTag, HtmlEntry.kind?, stripPrefix_append, parseI64_format, Option.map_some]
  | formattedDate flags date =>
    have hflags : parseTgTimeFormat (tgTimeFlagsToFormat flags) = flags := DateFlags.Plain.parse_format h
    simp only [entry, EntityKind.htmlTag, HtmlEntry.kind?, hflags]
  | other constructorId => exact absurd h id
  | _ => rfl

/-- Two entities that do not stand in each other's way. -/
structure Clear (a b : MessageEntity) : Prop where
  /-- One holds the other, or they are disjoint. -/
  nested : a.stop.toInt ≤ b.offset.toInt ∨ b.stop.toInt ≤ a.offset.toInt ∨
    (a.offset.toInt ≤ b.offset.toInt ∧ b.stop.toInt ≤ a.stop.toInt) ∨
    (b.offset.toInt ≤ a.offset.toInt ∧ a.stop.toInt ≤ b.stop.toInt)
  /-- Those with one closing tag do not touch. -/
  touching : a.kind.closer? = b.kind.closer? → a.stop ≠ b.offset ∧ b.stop ≠ a.offset
  /-- No code ends inside a code block or where one starts. -/
  code : a.kind.closer? = some .code → b.kind.closer? = some .pre →
    ¬ (b.offset.toInt ≤ a.stop.toInt ∧ a.stop.toInt < b.stop.toInt)
  code' : b.kind.closer? = some .code → a.kind.closer? = some .pre →
    ¬ (a.offset.toInt ≤ b.stop.toInt ∧ b.stop.toInt < a.stop.toInt)

instance : Std.Symm Clear where
  symm _ _ h := ⟨by have := h.nested; omega, fun hkind => (h.touching hkind.symm).symm, h.code', h.code⟩

theorem clear_iff (a b : MessageEntity) : a.Clear b ↔
    (a.stop.toInt ≤ b.offset.toInt ∨ b.stop.toInt ≤ a.offset.toInt ∨
      (a.offset.toInt ≤ b.offset.toInt ∧ b.stop.toInt ≤ a.stop.toInt) ∨
      (b.offset.toInt ≤ a.offset.toInt ∧ a.stop.toInt ≤ b.stop.toInt)) ∧
    (a.kind.closer? = b.kind.closer? → a.stop ≠ b.offset ∧ b.stop ≠ a.offset) ∧
    (a.kind.closer? = some .code → b.kind.closer? = some .pre →
      ¬ (b.offset.toInt ≤ a.stop.toInt ∧ a.stop.toInt < b.stop.toInt)) ∧
    (b.kind.closer? = some .code → a.kind.closer? = some .pre →
      ¬ (a.offset.toInt ≤ b.stop.toInt ∧ b.stop.toInt < a.stop.toInt)) :=
  ⟨fun h => ⟨h.nested, h.touching, h.code, h.code'⟩, fun h => ⟨h.1, h.2.1, h.2.2.1, h.2.2.2⟩⟩

instance (a b : MessageEntity) : Decidable (a.Clear b) := decidable_of_iff _ (clear_iff a b).symm

/-- Of two with one closing tag that start together, the first in the list is not the shorter one, or
    they differ in nothing but their ends. -/
def LongestFirst (a b : MessageEntity) : Prop :=
  a.kind.closer? = b.kind.closer? → a.offset = b.offset → b.stop.toInt ≤ a.stop.toInt ∨ a.kind = b.kind

instance (a b : MessageEntity) : Decidable (a.LongestFirst b) :=
  inferInstanceAs (Decidable (_ → _ → _ ∨ _))

end MessageEntity

/-- Entities that all come back, clear of each other. -/
structure Separable (text : List Char) (ents : List MessageEntity) : Prop extends Placed text ents where
  comesBack : ∀ e ∈ ents, e.kind.ComesBack
  clear : ents.Pairwise MessageEntity.Clear
  longestFirst : ents.Pairwise MessageEntity.LongestFirst

theorem Separable.clear_of_mem {text : List Char} {ents : List MessageEntity} (hs : Separable text ents)
    {a b : MessageEntity} (ha : a ∈ ents) (hb : b ∈ ents) : a.Clear b := by
  apply hs.clear.forall_of_forall _ ha hb
  intro e he
  have hlt := hs.offset_lt_stop he
  have hne : e.stop ≠ e.offset := by
    intro heq
    rw [heq] at hlt
    omega
  refine ⟨by omega, fun _ => ⟨hne, hne⟩, ?_, ?_⟩ <;>
  · intro hcode hpre
    rw [hcode] at hpre
    cases hpre

/-! What the parser has at a place. -/

/-- Of two entities on one stack the lower one ends last, or it does not matter which is which. -/
def Under (a b : MessageEntity) : Prop := b.stop.toInt ≤ a.stop.toInt ∨ a.entry = b.entry

/-- Open in front of the tags of a place, -/
def openBefore (p : Int) (e : MessageEntity) : Bool := e.offset.toInt < p ∧ p ≤ e.stop.toInt

/-- between its opening and its closing tags, -/
def openAt (p : Int) (e : MessageEntity) : Bool := e.offset.toInt ≤ p ∧ p ≤ e.stop.toInt

/-- and behind them. -/
def openAfter (p : Int) (e : MessageEntity) : Bool := e.offset.toInt ≤ p ∧ p < e.stop.toInt

/-- Ended in front of the tags of a place, -/
def doneBefore (p : Int) (e : MessageEntity) : Bool := e.stop.toInt < p

/-- and behind them. -/
def doneAfter (p : Int) (e : MessageEntity) : Bool := e.stop.toInt ≤ p

/-- For every closing name, the entities open now are on its stack and those done are its own. -/
structure Holding (ents : List MessageEntity) (now done : MessageEntity → Bool) (s : HtmlState) : Prop where
  marked : s.PreMarked
  marks_eq : s.marks = ents.countP fun e => decide (e.kind.closer? = some .pre) && now e
  stack_eq : ∀ k, ∃ spans : List MessageEntity,
    spans.Perm (ents.filter fun e => decide (e.kind.closer? = some k) && now e) ∧ spans.Pairwise Under ∧
      s.stackOf k = spans.map MessageEntity.entry
  ents_perm : ∀ k, (s.entsOf k).Perm (ents.filter fun e => decide (e.kind.closer? = some k) && done e)
  tagged : ∀ e ∈ s.ents, e.kind.closer? ≠ none

namespace Holding

variable {text : List Char} {ents : List MessageEntity} {now done : MessageEntity → Bool} {s : HtmlState}

theorem congr (h : Holding ents now done s) {now' done' : MessageEntity → Bool} (hnow : ∀ e ∈ ents, now' e = now e)
    (hdone : ∀ e ∈ ents, done' e = done e) : Holding ents now' done' s := by
  have hfilter : ∀ k, (ents.filter fun e => decide (e.kind.closer? = some k) && now' e) =
      ents.filter fun e => decide (e.kind.closer? = some k) && now e := by
    intro k
    apply List.filter_congr
    intro e he
    rw [hnow e he]
  constructor
  · exact h.marked
  · rw [h.marks_eq, List.countP_eq_length_filter, List.countP_eq_length_filter, hfilter]
  · intro k
    rw [hfilter]
    exact h.stack_eq k
  · intro k
    refine (h.ents_perm k).trans (List.Perm.of_eq (List.filter_congr ?_))
    intro e he
    rw [hdone e he]
  · exact h.tagged

theorem pre_length (h : Holding ents now done s) : (s.stackOf .pre).length = s.marks := by
  obtain ⟨spans, hperm, -, hstack⟩ := h.stack_eq .pre
  rw [hstack, List.length_map, hperm.length_eq, h.marks_eq, List.countP_eq_length_filter]

theorem pushText (h : Holding ents now done s) (text : List Char) : Holding ents now done (s.pushText text) :=
  ⟨h.marked, h.marks_eq, h.stack_eq, h.ents_perm, h.tagged⟩

/-! The tags of a list of entities. -/

theorem filter_flatMap_entries (off : Int32) (k : CloseTag) (es : List MessageEntity) (hes : ∀ e ∈ es, e.offset = off) :
    (es.flatMap fun e => e.kind.entries off).filter (fun entry => entry.tag.closer? = some k) =
      (es.filter fun e => e.kind.closer? = some k).map MessageEntity.entry := by
  induction es with
  | nil => rfl
  | cons e es ih =>
    have he := hes e List.mem_cons_self
    rw [List.flatMap_cons, List.filter_append, ih fun a ha => hes a (List.mem_cons_of_mem _ ha),
      EntityKind.filter_entries, List.filter_cons]
    by_cases hk : e.kind.closer? = some k
    · simp [hk, MessageEntity.entry, he]
    · simp [hk]

theorem countP_flatMap_entries (off : Int32) (es : List MessageEntity) :
    (es.flatMap fun e => e.kind.entries off).countP HtmlEntry.isMark =
      es.countP fun e => e.kind.closer? = some .pre := by
  induction es with
  | nil => rfl
  | cons e es ih =>
    rw [List.flatMap_cons, List.countP_append, ih, EntityKind.countP_entries_isMark, List.countP_cons]
    simp [Nat.add_comm]

theorem closedAll_eq (es : List MessageEntity) (s : HtmlState) :
    es.foldl HtmlState.closed s = s.closeAll (es.flatMap fun e => e.kind.closeTags) := by
  induction es generalizing s with
  | nil => rfl
  | cons e es ih =>
    rw [List.foldl_cons, ih, List.flatMap_cons]
    unfold HtmlState.closeAll HtmlState.closed
    rw [List.foldl_append]

theorem count_flatMap_closeTags (j : CloseTag) (es : List MessageEntity) :
    (es.flatMap fun e => e.kind.closeTags).count j = (es.countP fun e => e.kind.closer? = some j) +
      if j = .code then es.countP fun e => e.kind.closer? = some .pre else 0 := by
  induction es with
  | nil => simp
  | cons e es ih =>
    rw [List.flatMap_cons, List.count_append, ih, EntityKind.count_closeTags, List.countP_cons, List.countP_cons]
    by_cases hj : j = .code
    · simp only [hj, true_and, if_true, decide_eq_true_eq]
      omega
    · simp only [hj, false_and, if_false, decide_eq_true_eq]
      omega

theorem closeAll_tagged (ks : List CloseTag) {s : HtmlState} (h : ∀ e ∈ s.ents, e.kind.closer? ≠ none) :
    ∀ e ∈ (s.closeAll ks).ents, e.kind.closer? ≠ none := by
  induction ks generalizing s with
  | nil => exact h
  | cons k ks ih =>
    apply ih
    show ∀ e ∈ (s.closeTag k.name).ents, e.kind.closer? ≠ none
    rcases HtmlState.closeTag_cases s k with ⟨-, mark, stack, -, hs⟩ | ⟨-, ⟨-, hs⟩ | ⟨entry, stack, hr, hs⟩⟩
    · rw [hs]
      exact h
    · rw [hs]
      exact h
    · obtain ⟨-, -, -, -, hentry, -⟩ := removeLast_eq_some hr
      rw [hs]
      intro e he
      rcases List.mem_append.mp he with he | he
      · exact h e he
      · rw [HtmlEntry.closer_of_made (of_decide_eq_true hentry) (Option.mem_toList.mp he)]
        simp

/-! The tags of a place. -/

def startingAt (ents : List MessageEntity) (p : Int) : List MessageEntity := ents.filter fun e => e.offset.toInt = p

def endingAt (ents : List MessageEntity) (p : Int) : List MessageEntity := ents.filter fun e => e.stop.toInt = p

variable (hs : Separable text ents) {p : Nat}
include hs

/-- Those that hold a place and those that start there. -/
theorem held_append_starting (k : CloseTag) :
    ((ents.filter fun e => decide (e.kind.closer? = some k) && openBefore p e) ++
        (startingAt ents p).filter fun e => e.kind.closer? = some k).Perm
      (ents.filter fun e => decide (e.kind.closer? = some k) && openAt p e) := by
  unfold startingAt
  rw [List.filter_filter]
  apply filter_append_filter_perm
  · intro e he
    have := hs.offset_lt_stop he
    unfold openBefore openAt
    rw [← Bool.and_or_distrib_left, ← Bool.decide_or]
    congr 1
    exact decide_eq_decide.mpr (by omega)
  · intro e he hnow
    have hlt := of_decide_eq_true (Bool.and_eq_true_iff.mp hnow).2
    have hne : ¬ e.offset.toInt = (p : Int) := by omega
    simp [hne]

/-- Those that go on behind a place and those that end there. -/
theorem later_append_ending (k : CloseTag) :
    ((ents.filter fun e => decide (e.kind.closer? = some k) && openAfter p e) ++
        (endingAt ents p).filter fun e => e.kind.closer? = some k).Perm
      (ents.filter fun e => decide (e.kind.closer? = some k) && openAt p e) := by
  unfold endingAt
  rw [List.filter_filter]
  apply filter_append_filter_perm
  · intro e he
    have := hs.offset_lt_stop he
    unfold openAfter openAt
    rw [← Bool.and_or_distrib_left, ← Bool.decide_or]
    congr 1
    exact decide_eq_decide.mpr (by omega)
  · intro e he hnow
    have hlt := of_decide_eq_true (Bool.and_eq_true_iff.mp hnow).2
    have hne : ¬ e.stop.toInt = (p : Int) := by omega
    simp [hne]

/-- One that holds a place holds whatever with its closing tag starts there; two that start there
    stand in the order of the list. -/
theorem under_starting {k : CloseTag} {spans : List MessageEntity}
    (hspans : spans.Perm (ents.filter fun e => decide (e.kind.closer? = some k) && openBefore p e))
    (hunder : spans.Pairwise Under) :
    (spans ++ (startingAt ents p).filter fun e => e.kind.closer? = some k).Pairwise Under := by
  apply List.pairwise_append.mpr
  refine ⟨hunder, ?_, ?_⟩
  · apply List.Pairwise.imp_of_mem _ ((hs.longestFirst.filter _).filter _)
    intro a b ha hb hab
    obtain ⟨ha, hka⟩ := List.mem_filter.mp ha
    obtain ⟨hb, hkb⟩ := List.mem_filter.mp hb
    have hkind := (of_decide_eq_true hka).trans (of_decide_eq_true hkb).symm
    have hstart : a.offset = b.offset := by
      apply Int32.toInt.inj
      exact (of_decide_eq_true (List.mem_filter.mp ha).2).trans (of_decide_eq_true (List.mem_filter.mp hb).2).symm
    rcases hab hkind hstart with hle | heq
    · exact Or.inl hle
    · right
      unfold MessageEntity.entry
      rw [heq, hstart]
  · intro a ha b hb
    obtain ⟨ha, hnow⟩ := List.mem_filter.mp (hspans.subset ha)
    obtain ⟨hka, hnow⟩ := Bool.and_eq_true_iff.mp hnow
    obtain ⟨hb, hkb⟩ := List.mem_filter.mp hb
    obtain ⟨hb, hstart⟩ := List.mem_filter.mp hb
    have hclear := hs.clear_of_mem ha hb
    have hkind := (of_decide_eq_true hka).trans (of_decide_eq_true hkb).symm
    have htouch : a.stop.toInt ≠ b.offset.toInt := fun heq => (hclear.touching hkind).1 (Int32.toInt.inj heq)
    have hnest := hclear.nested
    have hlt := hs.offset_lt_stop hb
    have hnow := of_decide_eq_true hnow
    have hstart := of_decide_eq_true hstart
    exact Or.inl (by omega)

/-- The opening tags of a place put those that start there on top. -/
theorem opening (h : Holding ents (openBefore p) done s) (hoff : s.utf16Off = Int32.ofNat p) :
    Holding ents (openAt p) done ((startingAt ents p).foldl HtmlState.opened s) := by
  have hoffsets : ∀ e ∈ startingAt ents p, e.offset = s.utf16Off := by
    intro e he
    rw [hoff]
    exact ofNat_of_toInt (of_decide_eq_true (List.mem_filter.mp he).2)
  rw [HtmlState.openedAll_eq h.marked h.pre_length]
  constructor
  · exact MarksBehind.append h.marked (MarksBehind.flatMap (fun e => HtmlState.marksBehind_entries _ _) _)
  · have hmarks := h.marks_eq
    have hlen := (held_append_starting hs (p := p) .pre).length_eq
    unfold HtmlState.marks at hmarks ⊢
    rw [List.length_append, ← List.countP_eq_length_filter, ← List.countP_eq_length_filter,
      ← List.countP_eq_length_filter] at hlen
    rw [List.countP_append, countP_flatMap_entries, hmarks]
    exact hlen
  · intro k
    obtain ⟨spans, hspans, hunder, hstack⟩ := h.stack_eq k
    refine ⟨spans ++ (startingAt ents p).filter (fun e => e.kind.closer? = some k), ?_, ?_, ?_⟩
    · exact (hspans.append_right _).trans (held_append_starting hs k)
    · exact under_starting hs hspans hunder
    · unfold HtmlState.stackOf at hstack ⊢
      rw [List.filter_append, hstack, filter_flatMap_entries _ _ _ hoffsets, List.map_append]
  · exact h.ents_perm
  · exact h.tagged

/-- Closed where it ends, an entity's entry becomes the entity. -/
theorem made_entry {e : MessageEntity} (he : e ∈ ents) {off : Int32} (hoff : off = Int32.ofNat p)
    (hstop : e.stop.toInt = (p : Int)) : e.entry.made off = some e := by
  obtain ⟨hlen, hpos⟩ := hs.length_eq he
  have hend : off = e.stop := hoff.trans (ofNat_of_toInt hstop).symm
  have hlength : off - e.entry.startOff = e.length := by
    rw [hend]
    exact hlen
  unfold HtmlEntry.made
  rw [hlength, if_pos hpos, MessageEntity.kind_entry (hs.comesBack e he)]
  rfl

/-- Where a code ends, no code block goes on. -/
theorem no_code_or_no_block :
    ((endingAt ents p).countP fun e => e.kind.closer? = some .code) = 0 ∨
      (ents.countP fun e => decide (e.kind.closer? = some .pre) && openAfter p e) = 0 := by
  by_cases hcode : ∃ a ∈ ents, a.stop.toInt = (p : Int) ∧ a.kind.closer? = some .code
  · right
    obtain ⟨a, ha, hstop, hka⟩ := hcode
    apply List.countP_eq_zero.mpr
    intro b hb hlater
    obtain ⟨hkb, hlater⟩ := Bool.and_eq_true_iff.mp hlater
    have hno := (hs.clear_of_mem ha hb).code hka (of_decide_eq_true hkb)
    have hlater := of_decide_eq_true hlater
    omega
  · left
    apply List.countP_eq_zero.mpr
    intro a ha hka
    obtain ⟨ha, hstop⟩ := List.mem_filter.mp ha
    exact hcode ⟨a, ha, of_decide_eq_true hstop, of_decide_eq_true hka⟩

/-- What ends at a place lies on top of what goes on. -/
theorem split_stack (h : Holding ents (openAt p) done s) (k : CloseTag) :
    ∃ later ending : List MessageEntity, s.stackOf k = later.map MessageEntity.entry ++ ending.map MessageEntity.entry ∧
      later.Perm (ents.filter fun e => decide (e.kind.closer? = some k) && openAfter p e) ∧ later.Pairwise Under ∧
      ending.Perm ((endingAt ents p).filter fun e => e.kind.closer? = some k) := by
  obtain ⟨spans, hspans, hunder, hstack⟩ := h.stack_eq k
  refine ⟨spans.filter fun e => (p : Int) < e.stop.toInt, spans.filter fun e => e.stop.toInt = (p : Int), ?_, ?_,
    hunder.filter _, ?_⟩
  · rw [hstack]
    apply map_later_append_now hunder
    intro e he
    have hnow := (List.mem_filter.mp (hspans.subset he)).2
    exact (of_decide_eq_true (Bool.and_eq_true_iff.mp hnow).2).2
  · refine (hspans.filter _).trans (List.Perm.of_eq ?_)
    rw [List.filter_filter]
    apply List.filter_congr
    intro e _
    unfold openAt openAfter
    rw [Bool.and_left_comm, ← Bool.decide_and]
    congr 1
    exact decide_eq_decide.mpr (by omega)
  · refine (hspans.filter _).trans (List.Perm.of_eq ?_)
    unfold endingAt
    rw [List.filter_filter, List.filter_filter]
    apply List.filter_congr
    intro e he
    have := hs.offset_lt_stop he
    unfold openAt
    rw [Bool.and_left_comm, ← Bool.decide_and]
    congr 1
    exact decide_eq_decide.mpr (by omega)

/-- How many tags of each name the closing tags of a place take off: as many as end there. -/
theorem pops_ending (h : Holding ents (openAt p) done s) (k : CloseTag) :
    HtmlState.pops k s.marks ((endingAt ents p).flatMap fun e => e.kind.closeTags) =
      (endingAt ents p).countP fun e => e.kind.closer? = some k := by
  have hpres := (later_append_ending hs (p := p) .pre).length_eq
  rw [List.length_append, ← List.countP_eq_length_filter, ← List.countP_eq_length_filter,
    ← List.countP_eq_length_filter, ← h.marks_eq] at hpres
  have hcases := no_code_or_no_block hs (p := p)
  unfold HtmlState.pops
  rw [count_flatMap_closeTags]
  by_cases hk : k = .code
  · subst hk
    simp only [if_true]
    omega
  · simp [hk]

theorem marks_ending (h : Holding ents (openAt p) done s) :
    (s.closeAll ((endingAt ents p).flatMap fun e => e.kind.closeTags)).marks =
      ents.countP fun e => decide (e.kind.closer? = some .pre) && openAfter p e := by
  have hpres := (later_append_ending hs (p := p) .pre).length_eq
  rw [List.length_append, ← List.countP_eq_length_filter, ← List.countP_eq_length_filter,
    ← List.countP_eq_length_filter, ← h.marks_eq] at hpres
  have hcases := no_code_or_no_block hs (p := p)
  rw [HtmlState.marks_closeAll, count_flatMap_closeTags, if_pos rfl]
  omega

/-- The closing tags of a place take off what ends there, and it becomes the entities it was. -/
theorem closing (h : Holding ents (openAt p) (doneBefore p) s) (hoff : s.utf16Off = Int32.ofNat p) :
    Holding ents (openAfter p) (doneAfter p) ((endingAt ents p).foldl HtmlState.closed s) := by
  have hmarked := h.marked.closedAll (endingAt ents p)
  have hparts := fun k => HtmlState.parts_closeAll k ((endingAt ents p).flatMap fun e => e.kind.closeTags) s
  rw [closedAll_eq] at hmarked ⊢
  constructor
  · exact hmarked
  · exact marks_ending hs h
  · -- what stays open is below what is closed
    intro k
    obtain ⟨later, ending, hstack, hlater, hunder, hending⟩ := split_stack hs h k
    refine ⟨later, hlater, hunder, ?_⟩
    have hlen := hending.length_eq
    rw [← List.countP_eq_length_filter] at hlen
    rw [(hparts k).1, pops_ending hs h, hstack, ← hlen]
    simp
  · -- what is closed becomes an entity
    intro k
    obtain ⟨later, ending, hstack, -, -, hending⟩ := split_stack hs h k
    have hlen := hending.length_eq
    rw [← List.countP_eq_length_filter] at hlen
    have hmade : (ending.map MessageEntity.entry).filterMap (fun entry => entry.made s.utf16Off) = ending := by
      rw [List.filterMap_map]
      refine (List.filterMap_congr ?_).trans List.filterMap_some
      intro e he
      obtain ⟨he, -⟩ := List.mem_filter.mp (hending.subset he)
      obtain ⟨he, hstop⟩ := List.mem_filter.mp he
      exact made_entry hs he hoff (of_decide_eq_true hstop)
    have hdrop : (s.stackOf k).drop ((s.stackOf k).length - ending.length) = ending.map MessageEntity.entry := by
      rw [hstack]
      simp
    have hents := (hparts k).2
    rw [pops_ending hs h, ← hlen, hdrop, hmade] at hents
    refine hents.trans (((h.ents_perm k).append hending).trans ?_)
    unfold endingAt
    rw [List.filter_filter]
    apply filter_append_filter_perm
    · intro e _
      unfold doneBefore doneAfter
      rw [← Bool.and_or_distrib_left, ← Bool.decide_or]
      congr 1
      exact decide_eq_decide.mpr (by omega)
    · intro e _ hlt
      have hlt := of_decide_eq_true (Bool.and_eq_true_iff.mp hlt).2
      have hne : ¬ e.stop.toInt = (p : Int) := by omega
      simp [hne]
  · exact closeAll_tagged _ h.tagged

end Holding

/-! The whole text. -/

theorem decodeHtmlEntities_cons {c : Char} (hc : c ≠ '&') (t : List Char) :
    decodeHtmlEntities (c :: t) = c :: decodeHtmlEntities t := by
  have hone : ∀ pat : List Char, pat.head? = some '&' → ∀ rep t : List Char,
      replaceAll pat rep (c :: t) = c :: replaceAll pat rep t := by
    intro pat hpat rep t
    apply replaceAll_cons
    intro hpre
    cases pat with
    | nil => cases hpat
    | cons a pat => exact hc ((List.cons_prefix_cons.mp hpre).1.symm.trans (Option.some.inj hpat))
  unfold decodeHtmlEntities
  rw [hone "&amp;".toList rfl, hone "&lt;".toList rfl, hone "&gt;".toList rfl, hone "&quot;".toList rfl,
    hone "&#39;".toList rfl, hone "&nbsp;".toList rfl]

theorem escapeChar_of_not_mem {c : Char} (h : c ∉ ['&', '<', '>', '"']) : escapeChar c = [c] := by
  rw [escapeChar_eq_escapeOnly, escapeOnly_of_not_mem h]

namespace HtmlState

/-- A character that is neither a tag's nor an entity's beginning. -/
theorem run_char (s : HtmlState) {c : Char} (hlt : c ≠ '<') (hamp : c ≠ '&') (rest : List Char) :
    s.run (c :: rest) = (s.pushText [c]).run rest := by
  have hsplit := List.takeWhile_append_dropWhile (p := fun c => decide (c ≠ '<')) (l := rest)
  have hstep : s.run (c :: rest) = (s.pushText (c :: decodeHtmlEntities (rest.takeWhile (· ≠ '<')))).run
      (rest.dropWhile (· ≠ '<')) := by
    rw [run_cons]
    simp only [step, if_neg hlt, decodeHtmlEntities_cons hamp]
    rfl
  have hnext : rest.dropWhile (· ≠ '<') = [] ∨ (rest.dropWhile (· ≠ '<')).head? = some '<' := by
    have hhead := List.head?_dropWhile_not (fun c => decide (c ≠ '<')) rest
    cases hd : rest.dropWhile (· ≠ '<') with
    | nil => exact Or.inl rfl
    | cons d ds =>
      rw [hd] at hhead
      exact Or.inr (by simpa using hhead)
  rw [hstep]
  by_cases hempty : rest.takeWhile (· ≠ '<') = []
  · rw [hempty, List.nil_append] at hsplit
    rw [hempty, hsplit]
    rfl
  · have hmem : '<' ∉ rest.takeWhile (· ≠ '<') := by
      intro h
      simpa using List.mem_takeWhile_imp h
    have htail := run_text (s.pushText [c]) hmem hempty hnext
    rw [hsplit, pushText_append] at htail
    rw [htail]
    rfl

theorem run_openings (s : HtmlState) {es : List MessageEntity} (h : ∀ e ∈ es, e.kind.LanguageOk) (rest : List Char) :
    s.run (es.flatMap (openText htmlTags) ++ rest) = (es.foldl opened s).run rest := by
  induction es generalizing s with
  | nil => rfl
  | cons e es ih =>
    rw [List.flatMap_cons, List.append_assoc, run_opening s (h e List.mem_cons_self),
      ih _ fun a ha => h a (List.mem_cons_of_mem _ ha)]
    rfl

theorem run_closings (s : HtmlState) (es : List MessageEntity) (rest : List Char) :
    s.run (es.flatMap (closeText htmlTags) ++ rest) = (es.foldl closed s).run rest := by
  induction es generalizing s with
  | nil => rfl
  | cons e es ih =>
    rw [List.flatMap_cons, List.append_assoc, run_closing s, ih]
    rfl

theorem closedAll_out (es : List MessageEntity) (s : HtmlState) : (es.foldl closed s).out = s.out := by
  induction es generalizing s with
  | nil => rfl
  | cons e es ih => exact (ih _).trans (closed_out s e)

/-- All the tags of a place. -/
def passTags (ents : List MessageEntity) (p : Int) (s : HtmlState) : HtmlState :=
  (Holding.endingAt ents p).foldl closed ((Holding.startingAt ents p).foldl opened s)

theorem run_passTags {ents : List MessageEntity} (h : ∀ e ∈ ents, e.kind.LanguageOk) (p : Int) (s : HtmlState)
    (rest : List Char) :
    s.run (texts (markersAt p (entityMarkers htmlTags ents)) ++ rest) = (passTags ents p s).run rest := by
  rw [texts_entityMarkers, List.append_assoc, run_openings s fun e he => h e (List.mem_filter.mp he).1, run_closings]
  rfl

end HtmlState

namespace Separable

variable {text : List Char} {ents : List MessageEntity} (hs : Separable text ents)
include hs

/-- The tags of a place: what starts there is open, what ends there is done. -/
theorem passTags {p : Nat} {s : HtmlState} (h : Holding ents (openBefore p) (doneBefore p) s)
    (hoff : s.utf16Off = Int32.ofNat p) :
    Holding ents (openAfter p) (doneAfter p) (HtmlState.passTags ents p s) ∧
      (HtmlState.passTags ents p s).utf16Off = s.utf16Off ∧ (HtmlState.passTags ents p s).out = s.out := by
  have hopen := HtmlState.openedAll_eq h.marked h.pre_length (Holding.startingAt ents p)
  have hopenoff : ((Holding.startingAt ents p).foldl HtmlState.opened s).utf16Off = s.utf16Off := by rw [hopen]
  unfold HtmlState.passTags
  refine ⟨(h.opening hs hoff).closing hs (hopenoff.trans hoff), ?_, ?_⟩
  · rw [Holding.closedAll_eq, HtmlState.closeAll_utf16Off, hopenoff]
  · rw [HtmlState.closedAll_out, hopen]

/-- Behind the tags of a place and the character there is the next place: nothing starts or ends
    inside a character. -/
theorem next_place {pre cs : List Char} {c : Char} (hpre : text = pre ++ c :: cs) {s : HtmlState}
    (h : Holding ents (openAfter (utf16Len pre)) (doneAfter (utf16Len pre)) s) :
    Holding ents (openBefore (utf16Len (pre ++ [c]))) (doneBefore (utf16Len (pre ++ [c]))) (s.pushText [c]) := by
  have hlen : utf16Len (pre ++ [c]) = utf16Len pre + lenUtf16 c := by simp
  have hwidth := lenUtf16_pos c
  apply (h.pushText [c]).congr
  · intro e he
    have hgap := hs.gap hpre he
    exact decide_eq_decide.mpr (by omega)
  · intro e he
    have hgap := hs.gap hpre he
    exact decide_eq_decide.mpr (by omega)

/-- The induction over the text: the parser in front of each character holds what is open and done
    there. -/
theorem run_walk (htext : ∀ c ∈ text, c ∉ ['&', '<', '>', '"']) : ∀ (cs pre : List Char) (s : HtmlState),
    text = pre ++ cs → Holding ents (openBefore (utf16Len pre)) (doneBefore (utf16Len pre)) s →
    s.utf16Off = Int32.ofNat (utf16Len pre) → s.out = pre →
    ∃ s', s.run (splice Int32.toInt (fun pos c => pos + Int32.ofNat (lenUtf16 c)) (fun _ c => escapeChar c)
        (Int32.ofNat (utf16Len pre)) (markersFrom (utf16Len pre) (entityMarkers htmlTags ents)) cs) = some s' ∧
      s'.out = text ∧ Holding ents (openAfter (utf16Len text)) (doneAfter (utf16Len text)) s' := by
  have hlang : ∀ e ∈ ents, e.kind.LanguageOk := fun e he => (hs.comesBack e he).languageOk
  intro cs
  induction cs with
  | nil =>
    intro pre s hpre h hoff hout
    obtain rfl : text = pre := by simpa using hpre
    obtain ⟨hhold, -, hout'⟩ := hs.passTags h hoff
    refine ⟨HtmlState.passTags ents (utf16Len text) s, ?_, hout'.trans hout, hhold⟩
    have hrun := HtmlState.run_passTags hlang (utf16Len text) s []
    rw [List.append_nil, HtmlState.run_nil] at hrun
    rw [hs.splice_nil, hrun]
  | cons c cs ih =>
    intro pre s hpre h hoff hout
    obtain ⟨hhold, hoff', hout'⟩ := hs.passTags h hoff
    have hc : c ∉ ['&', '<', '>', '"'] := htext c (by rw [hpre]; simp)
    have hplain : c ≠ '<' ∧ c ≠ '&' := by
      simp only [List.mem_cons, not_or] at hc
      exact ⟨hc.2.1, hc.1⟩
    have hpos : Int32.ofNat (utf16Len pre) + Int32.ofNat (lenUtf16 c) = Int32.ofNat (utf16Len (pre ++ [c])) := by
      rw [utf16Len_append, Int32.ofNat_add]
      simp
    have hnextoff : ((HtmlState.passTags ents (utf16Len pre) s).pushText [c]).utf16Off =
        Int32.ofNat (utf16Len (pre ++ [c])) := by
      rw [← hpos, ← hoff, ← hoff']
      simp [HtmlState.pushText]
    have hnextout : ((HtmlState.passTags ents (utf16Len pre) s).pushText [c]).out = pre ++ [c] := by
      simp [HtmlState.pushText, hout', hout]
    obtain ⟨s', hrun, hout'', hend⟩ :=
      ih (pre ++ [c]) _ (by rw [hpre]; simp) (hs.next_place hpre hhold) hnextoff hnextout
    refine ⟨s', ?_, hout'', hend⟩
    rw [hs.splice_cons hpre _ rfl, HtmlState.run_passTags hlang, escapeChar_of_not_mem hc, List.singleton_append,
      HtmlState.run_char _ hplain.1 hplain.2, hpos, hrun]

theorem holding_init : Holding ents (openBefore (utf16Len [])) (doneBefore (utf16Len [])) .init := by
  have hnone : ∀ e ∈ ents, openBefore (utf16Len []) e = false ∧ doneBefore (utf16Len []) e = false := by
    intro e he
    have h1 := hs.offset_nonneg he
    have h2 := hs.offset_lt_stop he
    constructor <;>
    · apply decide_eq_false
      rw [utf16Len_nil]
      omega
  have hempty : ∀ k, (ents.filter fun e => decide (e.kind.closer? = some k) && openBefore (utf16Len []) e) = [] := by
    intro k
    apply List.filter_eq_nil_iff.mpr
    intro e he
    rw [(hnone e he).1, Bool.and_false]
    exact Bool.false_ne_true
  constructor
  · exact MarksBehind.of_no_marks (by simp [HtmlState.init])
  · rw [List.countP_eq_length_filter, hempty]
    rfl
  · intro k
    exact ⟨[], by rw [hempty], List.Pairwise.nil, rfl⟩
  · intro k
    refine List.Perm.of_eq (List.filter_eq_nil_iff.mpr ?_).symm
    intro e he
    rw [(hnone e he).2, Bool.and_false]
    exact Bool.false_ne_true
  · intro e he
    cases he

end Separable

/-- Nested or disjoint entities come back through HTML as a multiset, with the text they cover, when
    those with one closing tag neither touch nor start together in the wrong order and no code ends
    inside a code block or where one starts. -/
theorem html_entities_round_trip (text : List Char) (ents : List MessageEntity)
    (htext : ∀ c ∈ text, c ∉ ['&', '<', '>', '"']) (hin : ∀ e ∈ ents, e.InText text) (hfits : ∀ e ∈ ents, e.Fits)
    (hkinds : ∀ e ∈ ents, e.kind.ComesBack) (hclear : ents.Pairwise MessageEntity.Clear)
    (horder : ents.Pairwise MessageEntity.LongestFirst) :
    ∃ es, parseHtml (generateHtml text ents) = some (text, es) ∧ es.Perm ents := by
  have hs : Separable text ents := ⟨⟨hin, hfits⟩, hkinds, hclear, horder⟩
  obtain ⟨s, hrun, hout, hend⟩ := hs.run_walk htext text [] .init rfl hs.holding_init rfl rfl
  rw [hs.markersFrom_start] at hrun
  have hloop : HtmlState.loop (generateHtml text ents).length .init (generateHtml text ents) = some s := hrun
  refine ⟨s.ents, ?_, ?_⟩
  · unfold parseHtml
    rw [hloop, Option.map_some, hout]
  · apply perm_of_filter_perm fun e : MessageEntity => e.kind.closer?
    intro k
    cases k with
    | none =>
      have hleft : (s.ents.filter fun e => e.kind.closer? = none) = [] :=
        List.filter_eq_nil_iff.mpr fun e he => by simpa using hend.tagged e he
      have hright : (ents.filter fun e => e.kind.closer? = none) = [] :=
        List.filter_eq_nil_iff.mpr fun e he => by simpa using (hkinds e he).closer_ne_none
      rw [hleft, hright]
    | some k =>
      refine (hend.ents_perm k).trans (List.Perm.of_eq (List.filter_congr ?_))
      intro e he
      have hdone : doneAfter (utf16Len text) e = true := decide_eq_true (hs.stop_le he)
      rw [hdone, Bool.and_true]

/-- A code block, a link in a link and a date that touches the code block, all in a quote. -/
theorem html_entities_round_trip_nested :
    ∃ es, parseHtml (generateHtml "abcde".toList [⟨0, 2, .pre "rs".toList⟩, ⟨0, 5, .blockquote true⟩,
        ⟨2, 1, .formattedDate ⟨true, false, false, false, true, false⟩ 7⟩, ⟨2, 3, .textUrl "u".toList⟩,
        ⟨3, 1, .textUrl "v".toList⟩]) = some ("abcde".toList, es) ∧
      es.Perm [⟨0, 2, .pre "rs".toList⟩, ⟨0, 5, .blockquote true⟩,
        ⟨2, 1, .formattedDate ⟨true, false, false, false, true, false⟩ 7⟩, ⟨2, 3, .textUrl "u".toList⟩,
        ⟨3, 1, .textUrl "v".toList⟩] := by
  apply html_entities_round_trip
  · simp
  · intro e he
    simp only [List.mem_cons, List.not_mem_nil, or_false] at he
    obtain rfl | rfl | rfl | rfl | rfl := he
    · exact ⟨[], ['a', 'b'], ['c', 'd', 'e'], rfl, rfl, rfl, by decide⟩
    · exact ⟨[], ['a', 'b', 'c', 'd', 'e'], [], rfl, rfl, rfl, by decide⟩
    · exact ⟨['a', 'b'], ['c'], ['d', 'e'], rfl, rfl, rfl, by decide⟩
    · exact ⟨['a', 'b'], ['c', 'd', 'e'], [], rfl, rfl, rfl, by decide⟩
    · exact ⟨['a', 'b', 'c'], ['d'], ['e'], rfl, rfl, rfl, by decide⟩
  · decide
  · intro e he
    simp only [List.mem_cons, List.not_mem_nil, or_false] at he
    obtain rfl | rfl | rfl | rfl | rfl := he
    · exact ⟨by decide, by decide⟩
    · trivial
    · exact ⟨by decide, by decide, by decide⟩
    · exact ⟨by simp, by decide⟩
    · exact ⟨by simp, by decide⟩
  · decide
  · decide

/-- A date without a flag comes back with the time, and two bold entities that touch come back as one. -/
theorem html_entities_change :
    parseHtml (generateHtml "a".toList [⟨0, 1, .formattedDate ⟨false, false, false, false, false, false⟩ 7⟩]) =
      some ("a".toList, [⟨0, 1, .formattedDate ⟨false, true, false, false, false, false⟩ 7⟩]) ∧
    parseHtml (generateHtml "ab".toList [⟨0, 1, .bold⟩, ⟨1, 1, .bold⟩]) = some ("ab".toList, [⟨0, 2, .bold⟩]) := by
  decide

end Ferogram.Parsers
