import Ferogram.Msgbox.Process

/- Applying the results of `updates.getDifference` and
   `updates.getChannelDifference`, and giving up on them: the last part of
   `ferogram-msgbox/src/lib.rs`. -/
namespace Ferogram.Msgbox
open Ferogram.Tl

/-- Why a channel difference ends early. -/
inductive PrematureEndReason where
  | temporaryServerIssues
  | banned
  deriving DecidableEq, Repr

/-- A message of a difference, as an update outside the ordering. -/
def wrapNewMessage (message : Message) : Update := .newMessage message NO_PTS 0
def wrapNewEncryptedMessage (message : Blob) : Update := .newEncryptedMessage message NO_PTS
def wrapNewChannelMessage (message : Message) : Update := .newChannelMessage message NO_PTS 0

namespace MessageBoxes

/-- `process_updates(..).expect(..)` on re-fed updates. -/
def refeedUpdates (now : Instant) (panic : Panic) (updates : List Update) (users : List User)
    (chats : List Chat) : BoxCall UpdateAndPeers := do
  let r ← Call.update (fun s => s.processUpdates now (refeed updates users chats))
  match r with
  | .ok result => pure result
  | .error _ => Call.fail panic

def applyDifferenceType (now : Instant) (d : DifferenceBody) : BoxCall UpdateAndPeers := do
  Call.edit (fun s =>
    let s := { s with date := d.state.date, seq := d.state.seq }
    let s := s.setPts now .common d.state.pts
    s.setPts now .secondary d.state.qts)
  let (result, users, chats) ←
    refeedUpdates now .gapApplyingDifference d.otherUpdates d.users d.chats
  let msgs := d.newMessages.map wrapNewMessage ++ d.newEncryptedMessages.map wrapNewEncryptedMessage
  pure (msgs ++ result, users, chats)

/-- `Key::Common` and `Key::Secondary` leave the queue. -/
def finishDifference (dbg : Bool) (now : Instant) (result : UpdateAndPeers) :
    BoxCall UpdateAndPeers := do
  tryEndGetDiff dbg now .common
  tryEndGetDiff dbg now .secondary
  pure result

def applyDifference (dbg : Bool) (now : Instant) (difference : Difference) :
    BoxCall UpdateAndPeers := do
  let pending ← Call.read (fun s =>
    s.gettingDiffFor.contains .common || s.gettingDiffFor.contains .secondary)
  if !pending then pure ([], [], [])
  else
    match difference with
    | .empty date seq =>
      Call.edit (fun s => { s with date := date, seq := seq })
      finishDifference dbg now ([], [], [])
    | .difference d =>
      let result ← applyDifferenceType now d
      finishDifference dbg now result
    | .slice d => applyDifferenceType now d
    | .tooLong pts =>
      Call.edit (fun s => s.setPts now .common pts)
      finishDifference dbg now ([], [], [])

def endChannelDifference (dbg : Bool) (now : Instant) (reason : PrematureEndReason) :
    BoxCall Unit := do
  let inFlight ← Call.read channelDiffInFlight
  Call.edit (fun s => { s with channelDiffInFlight := none })
  match inFlight with
  | none => pure ()
  | some channelId =>
    let queued ← Call.read (fun s => s.gettingDiffFor.contains (.channel channelId))
    if !queued then pure ()
    else
      match reason with
      | .temporaryServerIssues =>
        Call.edit (fun s => (s.clearGap (.channel channelId)).2)
        tryEndGetDiff dbg now (.channel channelId)
      | .banned =>
        Call.edit (fun s => (s.clearGap (.channel channelId)).2)
        tryEndGetDiff dbg now (.channel channelId)
        Call.edit (fun s => (s.popEntry (.channel channelId)).2)

/-- A final difference takes the channel off the queue. -/
def endIfFinal (dbg : Bool) (now : Instant) (channelId : Int) (final : Bool) : BoxCall Unit :=
  if final then tryEndGetDiff dbg now (.channel channelId) else pure ()

/-- A well-formed channel difference, up to the point where the channel's
deadline is set from the server's timeout. -/
def applyChannelBody (dbg : Bool) (now : Instant) (channelId : Int) (d : ChannelDifferenceBody) :
    BoxCall UpdateAndPeers := do
  endIfFinal dbg now channelId d.final
  Call.edit (fun s => s.setPts now (.channel channelId) d.pts)
  let (result, users, chats) ←
    refeedUpdates now .gapApplyingChannelDifference d.otherUpdates d.users d.chats
  pure (d.newMessages.map wrapNewChannelMessage ++ result, users, chats)

def applyChannelDifference (dbg : Bool) (now : Instant) (difference : ChannelDifference) :
    BoxCall UpdateAndPeers := do
  let inFlight ← Call.read channelDiffInFlight
  Call.edit (fun s => { s with channelDiffInFlight := none })
  match inFlight with
  | none => pure ([], [], [])
  | some channelId =>
    let queued ← Call.read (fun s => s.gettingDiffFor.contains (.channel channelId))
    if !queued then pure ([], [], [])
    else
      Call.edit (fun s => (s.clearGap (.channel channelId)).2)
      match adaptChannelDifference difference with
      | .error _ =>
        -- no pts to advance to: give up and let the channel retry
        Call.edit (fun s => { s with channelDiffInFlight := some channelId })
        endChannelDifference dbg now .temporaryServerIssues
        pure ([], [], [])
      | .ok d =>
        let result ← applyChannelBody dbg now channelId d
        resetTimeout now (.channel channelId) d.timeout
        pure result

def abortDifference (dbg : Bool) (now : Instant) : BoxCall Unit := do
  Call.edit (fun s => (s.clearGap .common).2)
  tryEndGetDiff dbg now .common
  Call.edit (fun s => (s.clearGap .secondary).2)
  tryEndGetDiff dbg now .secondary

def forceResetCommonPts (s : MessageBoxes) (now : Instant) (pts qts date seq : Int32) :
    MessageBoxes :=
  let s := s.setPts now .common pts
  let s := s.setPts now .secondary qts
  { s with date := date, seq := seq }

end MessageBoxes

end Ferogram.Msgbox
