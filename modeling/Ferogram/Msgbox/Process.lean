import Ferogram.Msgbox.Boxes

/- The normal update flow: `MessageBoxes::process_updates`. The loop over the
   sorted batch carries the box, the approved updates and the flag
   `have_unresolved_gaps`; one turn of it is `processUpdate`. The closure that
   `process_updates` hands to `force_update_entry` is `LiveEntry.feed`, and the
   loop that empties the buffer of a closed gap is `drain`. -/
namespace Ferogram.Msgbox
open Ferogram.Tl StableSort

/-- The drain loop, over the stack of buffered updates with its top first. It
returns the counter it stops at, the updates it delivers and what is left. -/
def drain (pts : Int32) : List PtsUpdate → Int32 × List Update × List PtsUpdate
  | [] => (pts, [], [])
  | u :: rest =>
    if pts + u.info.count = u.info.pts then
      let r := drain u.info.pts rest
      (r.1, u.update :: r.2.1, r.2.2)
    else if u.info.pts < pts + u.info.count then drain pts rest
    else (pts, [], u :: rest)

/-- `gap.updates.sort_by_key(|u| -update_sort_key(u))`, popped from the end. -/
def gapStack (updates : List PtsUpdate) : List PtsUpdate :=
  (sortByKey (fun u => -updateSortKey u.update) updates).reverse

/-- What one update writes to the locals of `process_updates`. -/
structure Fed where
  delivered : List Update
  gapDeadline : Option Instant
  deriving DecidableEq

namespace LiveEntry

/-- The match on the counter: in order, duplicate, or ahead of a gap. -/
def accept (e : LiveEntry) (now deadline : Instant) (u : PtsUpdate) : LiveEntry × List Update :=
  if e.pts + u.info.count = u.info.pts then
    ({ e with pts := u.info.pts, deadline := deadline }, [u.update])
  else if u.info.pts < e.pts + u.info.count then (e, [])
  else
    let gap := e.possibleGap.getD { deadline := now + POSSIBLE_GAP_TIMEOUT, updates := [] }
    ({ e with possibleGap := some { gap with updates := gap.updates ++ [u] } }, [])

/-- Try to drain the buffer now that the counter may have advanced. -/
def drainGap (e : LiveEntry) : LiveEntry × Fed :=
  match e.possibleGap with
  | none => (e, { delivered := [], gapDeadline := none })
  | some gap =>
    let r := drain e.pts (gapStack gap.updates)
    if r.2.2 = [] then
      ({ e with pts := r.1, possibleGap := none }, { delivered := r.2.1, gapDeadline := none })
    else
      ({ e with pts := r.1, possibleGap := some { gap with updates := r.2.2.reverse } },
        { delivered := r.2.1, gapDeadline := some gap.deadline })

/-- The closure of `process_updates`. -/
def feed (e : LiveEntry) (now deadline : Instant) (u : PtsUpdate) : LiveEntry × Fed :=
  let a := e.accept now deadline u
  let d := a.1.drainGap
  (d.1, { delivered := a.2 ++ d.2.delivered, gapDeadline := d.2.gapDeadline })

end LiveEntry

/-- The locals of the loop. -/
structure Batch where
  box : MessageBoxes
  result : List Update
  haveUnresolvedGaps : Bool
  deriving DecidableEq

namespace MessageBoxes

/-- `updateChannelTooLong`: adopt the counter it carries and queue the channel. -/
def channelTooLong (s : MessageBoxes) (deadline : Instant) (id : Int) (pts : Option Int32) :
    MessageBoxes :=
  let s := match pts with
    | some pts => s.setEntry (freshEntry (.channel id) pts deadline)
    | none => s
  s.tryBeginGetDiff (.channel id)

/-- The live path of one update of a key that is not queued. -/
def feedLive (s : MessageBoxes) (now deadline : Instant) (u : PtsUpdate) : MessageBoxes × Fed :=
  let fresh := freshEntry u.info.key (u.info.pts - u.info.count) deadline
  let (s, fed) := s.forceUpdateEntry fresh (fun e => e.feed now deadline u)
  ({ s with nextDeadline := min s.nextDeadline (fed.gapDeadline.getD deadline) }, fed)

/-- One update of a key a difference is being fetched for. -/
def feedQueued (s : MessageBoxes) (now : Instant) (key : Key) : MessageBoxes :=
  s.resetDeadline key (nextUpdatesDeadline now)

end MessageBoxes

/-- An update with ordering metadata, in the loop. -/
def Batch.processPts (b : Batch) (now deadline : Instant) (u : PtsUpdate) : Batch :=
  if b.box.gettingDiffFor.contains u.info.key then
    { b with box := b.box.feedQueued now u.info.key, result := b.result ++ [u.update] }
  else
    let (box, fed) := b.box.feedLive now deadline u
    { box := box, result := b.result ++ fed.delivered,
      haveUnresolvedGaps := b.haveUnresolvedGaps || fed.gapDeadline.isSome }

/-- One turn of the loop. -/
def Batch.processUpdate (now deadline : Instant) (b : Batch) (update : Update) : Batch :=
  match update with
  | .channelTooLong id pts => { b with box := b.box.channelTooLong deadline id pts }
  | update =>
    match h : PtsInfo.fromUpdate update with
    | none => { b with result := b.result ++ [update] }
    | some info => b.processPts now deadline { update := update, info := info, from_update := h }

namespace MessageBoxes

/-- The loop over the sorted batch. -/
def processAll (s : MessageBoxes) (now : Instant) (updates : List Update) : Batch :=
  (sortByKey updateSortKey updates).foldl (Batch.processUpdate now (nextUpdatesDeadline now))
    { box := s, result := [], haveUnresolvedGaps := false }

/-- A batch that has passed the `seq` check. -/
def processCombined (s : MessageBoxes) (now : Instant) (c : UpdatesCombined) :
    UpdateAndPeers × MessageBoxes :=
  let newDate := if c.date = NO_DATE then s.date else c.date
  let newSeq := if c.seq = NO_SEQ then s.seq else c.seq
  let b := s.processAll now c.updates
  let box :=
    if b.result ≠ [] && !b.haveUnresolvedGaps then { b.box with date := newDate, seq := newSeq }
    else b.box
  ((b.result, c.users, c.chats), box)

/-- `MessageBoxes::process_updates`. -/
def processUpdates (s : MessageBoxes) (now : Instant) (updates : UpdatesLike) :
    Except Gap UpdateAndPeers × MessageBoxes :=
  match adapt updates with
  | .error _ => (.error .gap, s.tryBeginGetDiff .common)
  | .ok c =>
    if c.seqStart ≠ NO_SEQ ∧ c.seqStart < s.seq + 1 then
      -- a `seq` already applied
      (.ok ([], c.users, c.chats), s)
    else if c.seqStart ≠ NO_SEQ ∧ s.seq + 1 < c.seqStart then
      (.error .gap, s.tryBeginGetDiff .common)
    else
      let (r, s') := s.processCombined now c
      (.ok r, s')

end MessageBoxes

end Ferogram.Msgbox
