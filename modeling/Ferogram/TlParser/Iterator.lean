import Ferogram.Lib.Lazy
import Ferogram.TlParser.Definition

/- `TlIterator`, which reads a schema line by line. `turn` is the body of the loop of `next`, and a
   call makes turns until it has an item or is done; it never runs out of them. What all calls
   together yield is `readLines` of the lines (`calls_new`). -/
namespace Ferogram.TlParser
open TlGen Parsers

abbrev Item := Except ParseError Definition

structure TlIterator where
  lines : List (List Char)
  category : Category
  /-- What has been read and is not ended by a semicolon yet. -/
  pending : List Char
  ready : List Item
  eof : Bool

def TlIterator.new (src : List Char) : TlIterator := ⟨Rich.lines src, .types, [], [], false⟩

def functionsMarker : List Char := "---functions---".toList

def typesMarker : List Char := "---types---".toList

/-- `handle_separator`. -/
def handleSeparator (line : List Char) : Option Category :=
  let trimmed := trim line
  if trimmed = functionsMarker then some .functions
  else if trimmed = typesMarker then some .types
  else none

def stripComment (line : List Char) : List Char := trim (Str.beforeStr ['/', '/'] line)

/-- The loop over the parts between semicolons. Empty ones are skipped. -/
def parseParts (category : Category) (raw : List (List Char)) : List Item :=
  ((raw.map trim).filter (!·.isEmpty)).map fun part => (fromStr part).map fun d => { d with category := category }

def TlIterator.flushPending (it : TlIterator) : TlIterator :=
  { it with pending := [], ready := it.ready ++ parseParts it.category (it.pending.splitOn ';') }

/-- A line of code behind what is pending: the definitions that are complete, and what is pending then. -/
def accumulate (category : Category) (pending trimmed : List Char) : List Item × List Char :=
  let glued := if pending.isEmpty then trimmed else pending ++ ' ' :: trimmed
  if glued.contains ';' then
    let split := glued.splitOn ';'
    (parseParts category split.dropLast, trim (split.getLast?.getD []))
  else ([], glued)

/-- What a turn of the loop comes to. -/
inductive Turn where
  | item (item : Item)
  | done
  | again

def TlIterator.turn (it : TlIterator) : Turn × TlIterator :=
  match it.ready with
  | item :: ready => (.item item, { it with ready := ready })
  | [] =>
    if it.eof then
      if (trim it.pending).isEmpty then (.done, it) else (.again, it.flushPending)
    else
      match it.lines with
      | [] => (.again, { it with eof := true })
      | line :: lines =>
        let trimmed := stripComment line
        if trimmed.isEmpty then (.again, { it with lines := lines })
        else
          match handleSeparator trimmed with
          | some category => (.again, { it with lines := lines, category := category })
          | none =>
            let (items, pending) := accumulate it.category it.pending trimmed
            (.again, { it with lines := lines, ready := it.ready ++ items, pending := pending })

def TlIterator.nextWithin : Nat → TlIterator → Option (Option Item × TlIterator)
  | 0, _ => none
  | fuel + 1, it =>
    match it.turn with
    | (.item item, it) => some (some item, it)
    | (.done, it) => some (none, it)
    | (.again, it) => nextWithin fuel it

/-- A line a turn, and three at the end of the text. -/
def TlIterator.next (it : TlIterator) : Option (Option Item × TlIterator) := it.nextWithin (it.lines.length + 3)

/-! What is yielded. -/

/-- What is pending at the end of the text. -/
def lastItems (category : Category) (pending : List Char) : List Item :=
  if (trim pending).isEmpty then [] else parseParts category (pending.splitOn ';')

def readLines : Category → List Char → List (List Char) → List Item
  | category, pending, [] => lastItems category pending
  | category, pending, line :: lines =>
    if (stripComment line).isEmpty then readLines category pending lines
    else
      match handleSeparator (stripComment line) with
      | some category => readLines category pending lines
      | none =>
        (accumulate category pending (stripComment line)).1 ++
          readLines category (accumulate category pending (stripComment line)).2 lines

/-- What the iterator is going to yield. -/
def TlIterator.outputs (it : TlIterator) : List Item :=
  it.ready ++ if it.eof then lastItems it.category it.pending else readLines it.category it.pending it.lines

/-- How many turns there are at most before the iterator is done. -/
def TlIterator.size (it : TlIterator) : Nat :=
  if it.eof then if (trim it.pending).isEmpty then 0 else 1 else it.lines.length + 2

variable {it : TlIterator}

theorem trim_nil : trim [] = [] := rfl

/-- One turn: an item, the end, or nothing yet. -/
theorem turn_cases (it : TlIterator) :
    (∃ item it', it.turn = (.item item, it') ∧ it.outputs = item :: it'.outputs) ∨
    (it.turn = (.done, it) ∧ it.outputs = []) ∨
    ∃ it', it.turn = (.again, it') ∧ it'.outputs = it.outputs ∧ it'.size < it.size := by
  obtain ⟨lines, category, pending, ready, eof⟩ := it
  cases ready with
  | cons item ready => exact Or.inl ⟨item, _, rfl, rfl⟩
  | nil =>
    cases eof with
    | true =>
      by_cases h : (trim pending).isEmpty = true
      · refine Or.inr (Or.inl ?_)
        simp [TlIterator.turn, TlIterator.outputs, lastItems, h]
      · refine Or.inr (Or.inr ⟨TlIterator.flushPending ⟨lines, category, pending, [], true⟩, ?_⟩)
        simp [TlIterator.turn, TlIterator.outputs, TlIterator.size, TlIterator.flushPending, lastItems, trim_nil, h]
    | false =>
      refine Or.inr (Or.inr ?_)
      cases lines with
      | nil =>
        refine ⟨⟨[], category, pending, [], true⟩, rfl, rfl, ?_⟩
        by_cases h : (trim pending).isEmpty = true <;> simp [TlIterator.size, h]
      | cons line lines =>
        by_cases hblank : (stripComment line).isEmpty = true
        · refine ⟨⟨lines, category, pending, [], false⟩, ?_⟩
          simp [TlIterator.turn, TlIterator.outputs, TlIterator.size, readLines, hblank]
        · cases hsep : handleSeparator (stripComment line) with
          | some category' =>
            refine ⟨⟨lines, category', pending, [], false⟩, ?_⟩
            simp [TlIterator.turn, TlIterator.outputs, TlIterator.size, readLines, hblank, hsep]
          | none =>
            refine ⟨⟨lines, category, (accumulate category pending (stripComment line)).2,
              (accumulate category pending (stripComment line)).1, false⟩, ?_⟩
            simp [TlIterator.turn, TlIterator.outputs, TlIterator.size, readLines, hblank, hsep]

theorem nextWithin_spec (fuel : Nat) : ∀ it : TlIterator, it.size < fuel →
    ∃ it', it.nextWithin fuel = some (it.outputs.head?, it') ∧ it'.outputs = it.outputs.tail := by
  induction fuel with
  | zero => exact fun it h => absurd h (Nat.not_lt_zero _)
  | succ fuel ih =>
    intro it hsize
    rw [TlIterator.nextWithin]
    rcases turn_cases it with ⟨item, it', hturn, hout⟩ | ⟨hturn, hout⟩ | ⟨it', hturn, hsame, hless⟩
    · rw [hturn, hout]
      exact ⟨it', rfl, rfl⟩
    · rw [hturn, hout]
      exact ⟨it, rfl, hout⟩
    · rw [hturn, ← hsame]
      exact ih it' (by omega)

theorem size_lt (it : TlIterator) : it.size < it.lines.length + 3 := by
  unfold TlIterator.size
  split
  · split <;> omega
  · omega

/-- A call yields the next item. -/
theorem next_spec (it : TlIterator) :
    ∃ it', it.next = some (it.outputs.head?, it') ∧ it'.outputs = it.outputs.tail :=
  nextWithin_spec _ it (size_lt it)

/-- **The calls.** However often the iterator is called, it yields the items of the text in order,
and then nothing. -/
theorem calls_new (src : List Char) (m : Nat) : ∃ it',
    Lazy.calls TlIterator.next m (.new src) = some ((readLines .types [] (Rich.lines src)).take m, it') := by
  have hyields : Lazy.Yields TlIterator.next (readLines .types [] (Rich.lines src))
      (fun n it => it.outputs = (readLines .types [] (Rich.lines src)).drop n) := by
    intro n it h
    obtain ⟨it', hnext, hrest⟩ := next_spec it
    refine ⟨it', ?_, ?_⟩
    · rw [hnext, h, List.head?_drop]
    · show it'.outputs = _
      rw [hrest, h, List.tail_drop]
  obtain ⟨it', hcalls, -⟩ := hyields.calls m (n := 0) (s := .new src) rfl
  exact ⟨it', by simpa using hcalls⟩

end Ferogram.TlParser
