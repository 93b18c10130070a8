import Ferogram.Lib.StableSort
import Ferogram.Lib.SortedVec
import Ferogram.Lib.Call
import Ferogram.Msgbox.Adaptor

/- Creation and state management of the message box: the first half of
   `ferogram-msgbox/src/lib.rs`, in the order of the source.

   A call that may panic is a `Call`; it leaves a box also when it panics,
   because unwinding does not undo the writes and the lock is not poisoned.
   `dbg` says whether `debug_assert!` is compiled in. Integer arithmetic wraps. -/
namespace Ferogram.Msgbox
open Ferogram.Tl StableSort

/-- A call on the box. -/
abbrev BoxCall (α : Type) := Call MessageBoxes Panic α

def nextUpdatesDeadline (now : Instant) : Instant := now + NO_UPDATES_TIMEOUT

namespace MessageBoxes

/-- An empty box. -/
def new (now : Instant) : MessageBoxes :=
  { entries := [], date := NO_DATE, seq := NO_SEQ, gettingDiffFor := [],
    channelDiffInFlight := none, nextDeadline := nextUpdatesDeadline now }

/-- A live entry with nothing buffered. -/
def freshEntry (key : Key) (pts : Int32) (deadline : Instant) : LiveEntry :=
  { key := key, pts := pts, deadline := deadline, possibleGap := none }

/-- A box from a persisted snapshot. Every entry is queued for a difference. -/
def load (now : Instant) (state : UpdatesStateSnap) : MessageBoxes :=
  let deadline := nextUpdatesDeadline now
  let common := if state.pts ≠ NO_PTS then [freshEntry .common state.pts deadline] else []
  let secondary := if state.qts ≠ NO_PTS then [freshEntry .secondary state.qts deadline] else []
  let channels := state.channels.map (fun c => freshEntry (.channel c.id) c.pts deadline)
  let entries := sortByKey LiveEntry.key (common ++ secondary ++ channels)
  { entries := entries, date := state.date, seq := state.seq,
    gettingDiffFor := entries.map LiveEntry.key, channelDiffInFlight := none,
    nextDeadline := deadline }

/-- `binary_search_by_key(&key, |e| e.key)` on the entries. -/
def position (s : MessageBoxes) (key : Key) : Except Nat Nat :=
  SortedVec.search LiveEntry.key key s.entries

def entry (s : MessageBoxes) (key : Key) : Option LiveEntry :=
  match s.position key with
  | .ok i => s.entries[i]?
  | .error _ => none

def updateEntry (s : MessageBoxes) (key : Key) (f : LiveEntry → LiveEntry) : Bool × MessageBoxes :=
  match s.position key with
  | .ok i => (true, { s with entries := s.entries.modify i f })
  | .error _ => (false, s)

/-- `f` returns what its closure writes to the caller's locals. -/
def forceUpdateEntry {α : Type} (s : MessageBoxes) (entry : LiveEntry)
    (f : LiveEntry → LiveEntry × α) : MessageBoxes × α :=
  match s.position entry.key with
  | .ok i =>
    let r := f (s.entries[i]?.getD entry)
    ({ s with entries := s.entries.set i r.1 }, r.2)
  | .error i =>
    let r := f entry
    ({ s with entries := s.entries.insertIdx i r.1 }, r.2)

def setEntry (s : MessageBoxes) (entry : LiveEntry) : MessageBoxes :=
  match s.position entry.key with
  | .ok i => { s with entries := s.entries.set i entry }
  | .error i => { s with entries := s.entries.insertIdx i entry }

def setPts (s : MessageBoxes) (now : Instant) (key : Key) (pts : Int32) : MessageBoxes :=
  let (found, s') := s.updateEntry key (fun e => { e with pts := pts })
  if found then s' else s'.setEntry (freshEntry key pts (nextUpdatesDeadline now))

def popEntry (s : MessageBoxes) (key : Key) : Option LiveEntry × MessageBoxes :=
  match s.position key with
  | .ok i => (s.entries[i]?, { s with entries := s.entries.eraseIdx i })
  | .error _ => (none, s)

/-- Forget what is buffered for `key`. -/
def clearGap (s : MessageBoxes) (key : Key) : Bool × MessageBoxes :=
  s.updateEntry key (fun e => { e with possibleGap := none })

/-- The local `old_deadline` of `reset_deadline`. -/
def oldDeadline (s : MessageBoxes) (key : Key) : Instant :=
  match s.entry key with
  | some e => e.deadline
  | none => s.nextDeadline

def resetDeadline (s : MessageBoxes) (key : Key) (deadline : Instant) : MessageBoxes :=
  let oldDeadline := s.oldDeadline key
  let s' := (s.updateEntry key (fun e => { e with deadline := deadline })).2
  if s'.nextDeadline = oldDeadline then
    { s' with
      nextDeadline := s'.entries.foldl (fun d e => min d e.effectiveDeadline) deadline }
  else s'

/-- `Duration::from_secs(t as _)` of a negative `t` is above `i64::MAX` seconds,
and adding it to an `Instant` panics. -/
def resetTimeout (now : Instant) (key : Key) (timeout : Option Int32) : BoxCall Unit :=
  match timeout with
  | none => Call.edit (fun s => s.resetDeadline key (nextUpdatesDeadline now))
  | some t =>
    if t < 0 then Call.fail .instantOverflow
    else Call.edit (fun s => s.resetDeadline key (now + t.toInt.toNat * 1000000000))

def tryBeginGetDiff (s : MessageBoxes) (key : Key) : MessageBoxes :=
  if s.gettingDiffFor.contains key then s
  else
    let (found, s') := s.clearGap key
    if found then { s' with gettingDiffFor := s'.gettingDiffFor ++ [key] } else s'

/-- What `try_end_get_diff` does to the box. -/
def endGetDiff (s : MessageBoxes) (now : Instant) (key : Key) : MessageBoxes :=
  match s.gettingDiffFor.idxOf? key with
  | none => s
  | some i =>
    resetDeadline { s with gettingDiffFor := s.gettingDiffFor.eraseIdx i } key
      (nextUpdatesDeadline now)

def tryEndGetDiff (dbg : Bool) (now : Instant) (key : Key) : BoxCall Unit := do
  let queued ← Call.read (fun s => s.gettingDiffFor.contains key)
  if queued then
    Call.edit (fun s => s.endGetDiff now key)
    let gap ← Call.read (fun s => (s.entry key).any (fun e => e.possibleGap.isSome))
    if dbg && gap then Call.fail .gapWhileGettingDifference else pure ()
  else pure ()

def isEmpty (s : MessageBoxes) : Bool := s.entries.isEmpty

def setState (dbg : Bool) (now : Instant) (state : State) : BoxCall Unit := do
  let empty ← Call.read isEmpty
  if dbg && !empty then Call.fail .stateAlreadySet
  else
    Call.edit (fun s =>
      let deadline := nextUpdatesDeadline now
      let s := s.setEntry (freshEntry .common state.pts deadline)
      let s := s.setEntry (freshEntry .secondary state.qts deadline)
      { s with date := state.date, seq := state.seq, nextDeadline := deadline })

def trySetChannelState (s : MessageBoxes) (now : Instant) (id : Int) (pts : Int32) : MessageBoxes :=
  match s.entry (.channel id) with
  | some _ => s
  | none => s.setEntry (freshEntry (.channel id) pts (nextUpdatesDeadline now))

def sessionState (s : MessageBoxes) : UpdatesStateSnap :=
  { pts := ((s.entry .common).map LiveEntry.pts).getD NO_PTS
    qts := ((s.entry .secondary).map LiveEntry.pts).getD NO_PTS
    date := s.date
    seq := s.seq
    channels := s.entries.filterMap (fun e =>
      match e.key with
      | .channel id => some { id := id, pts := e.pts }
      | _ => none) }

/-- The keys whose deadline has passed. -/
def dueKeys (s : MessageBoxes) (now : Instant) : List Key :=
  (s.entries.filter (fun e => e.effectiveDeadline ≤ now)).map LiveEntry.key

def checkDeadlines (s : MessageBoxes) (now : Instant) : Instant × MessageBoxes :=
  if s.gettingDiffFor ≠ [] then (now, s)
  else
    let s :=
      if s.nextDeadline ≤ now then
        let s := { s with gettingDiffFor := s.gettingDiffFor ++ s.dueKeys now }
        -- clear the buffers of the entries about to be fetched
        let s := s.gettingDiffFor.foldl (fun s key => (s.clearGap key).2) s
        if s.gettingDiffFor = [] then { s with nextDeadline := nextUpdatesDeadline now } else s
      else s
    (s.nextDeadline, s)

/-- The request to execute; `.error` is the `expect` on the common entry. -/
def getDifference (s : MessageBoxes) : Except Panic (Option GetDifference) :=
  if s.gettingDiffFor.contains .common || s.gettingDiffFor.contains .secondary then
    match s.entry .common with
    | none => .error .commonEntryMissing
    | some e => .ok (some
        { pts := e.pts, ptsLimit := none, ptsTotalLimit := none,
          date := if s.date < 1 then 1 else s.date
          qts := ((s.entry .secondary).map LiveEntry.pts).getD NO_PTS, qtsLimit := none })
  else .ok none

/-- The first queued channel whose request is not in flight. -/
def nextChannel (s : MessageBoxes) : Option Int :=
  s.gettingDiffFor.findSome? (fun k =>
    match k with
    | .channel id => if s.channelDiffInFlight ≠ some id then some id else none
    | _ => none)

def getChannelDifference : BoxCall (Option (Int × GetChannelDifference)) := do
  let channel ← Call.read nextChannel
  match channel with
  | none => pure none
  | some id =>
    let e ← Call.read (fun s => s.entry (.channel id))
    match e with
    | none => Call.fail .channelEntryMissing
    | some e =>
      Call.edit (fun s => { s with channelDiffInFlight := some id })
      pure (some (id,
        { force := false, channelId := id, accessHash := 0, filter := .empty, pts := e.pts,
          limit := 0 }))

end MessageBoxes

end Ferogram.Msgbox
