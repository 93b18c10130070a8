import Ferogram.Msgbox.Tl
import Mathlib.Data.Int.Order.Basic

/- The state of the message box (`ferogram-msgbox/src/defs.rs`) and the metadata
   of an update (`PtsInfo::from_update` in `adaptor.rs`).

   Time is a natural number of nanoseconds. A public operation reads the clock
   once, as under the fake clock of the crate's own tests; the reading is an
   argument `now` of every definition that needs it.

   An update is buffered only after `PtsInfo::from_update` returned something for
   it, and the drain loop relies on that (`expect("only updates with pts may be
   buffered as gaps")`). `PtsUpdate` carries the metadata and the proof that it
   belongs to the update, so the buffer cannot hold anything else. -/
namespace Ferogram.Msgbox
open Ferogram.Tl

/-- A clock reading, in nanoseconds. -/
abbrev Instant := Nat

/-- `seq` is `0` when it does not matter. -/
def NO_SEQ : Int32 := 0
/-- A `pts` or `qts` of `0` takes the update out of the ordering. -/
def NO_PTS : Int32 := 0
/-- The `date` of dummy containers. -/
def NO_DATE : Int32 := 0
/-- Half a second before a gap is declared real. -/
def POSSIBLE_GAP_TIMEOUT : Nat := 500 * 1000000
/-- Fifteen minutes without updates before the client fetches on its own. -/
def NO_UPDATES_TIMEOUT : Nat := 15 * 60 * 1000000000

/-- The key of an entry: the account's `pts`, its `qts`, or a channel's `pts`. -/
inductive Key where
  | common
  | secondary
  | channel (id : Int)
  deriving DecidableEq, Repr

namespace Key

/-- The derived order: `common`, `secondary`, then the channels by id. -/
def le : Key → Key → Bool
  | .common, _ => true
  | .secondary, .common => false
  | .secondary, _ => true
  | .channel _, .common => false
  | .channel _, .secondary => false
  | .channel a, .channel b => decide (a ≤ b)

instance : LE Key := ⟨fun a b => le a b = true⟩
instance : LT Key := ⟨fun a b => a ≤ b ∧ ¬ b ≤ a⟩
instance : DecidableLE Key := fun a b => inferInstanceAs (Decidable (le a b = true))
instance : DecidableLT Key := fun a b => inferInstanceAs (Decidable (a ≤ b ∧ ¬ b ≤ a))

theorem le_iff {a b : Key} : a ≤ b ↔ le a b = true := Iff.rfl

instance : LinearOrder Key where
  le_refl a := by cases a <;> simp [le_iff, le]
  le_trans a b c := by
    cases a <;> cases b <;> cases c <;> simp [le_iff, le]
    exact fun h₁ h₂ => le_trans h₁ h₂
  le_antisymm a b := by
    cases a <;> cases b <;> simp [le_iff, le]
    exact fun h₁ h₂ => le_antisymm h₁ h₂
  le_total a b := by
    cases a <;> cases b <;> simp [le_iff, le]
    exact le_total _ _
  lt_iff_le_not_ge _ _ := Iff.rfl
  toDecidableLE := inferInstance
  toDecidableEq := inferInstance
  toDecidableLT := inferInstance

end Key

/-- The ordering metadata of one update: after it, the counter of `key` is at
`pts`, and it accounts for the last `count` steps. -/
structure PtsInfo where
  key : Key
  pts : Int32
  count : Int32
  deriving DecidableEq, Repr

/-- The channel a message is in, if it is in one. -/
def messageChannelId : Message → Option Int
  | .message m =>
    match m.peerId with
    | .channel c => some c
    | _ => none
  | .service peerId _ =>
    match peerId with
    | .channel c => some c
    | _ => none
  | .empty _ _ => none

/-- The metadata an update carries in its own fields, before the sentinel
`NO_PTS` is filtered out. -/
def PtsInfo.raw : Update → Option PtsInfo
  | .newMessage _ pts count => some ⟨.common, pts, count⟩
  | .deleteMessages _ pts count => some ⟨.common, pts, count⟩
  | .readHistoryInbox _ pts count => some ⟨.common, pts, count⟩
  | .readHistoryOutbox _ pts count => some ⟨.common, pts, count⟩
  | .webPage _ pts count => some ⟨.common, pts, count⟩
  | .readMessagesContents _ pts count => some ⟨.common, pts, count⟩
  | .editMessage _ pts count => some ⟨.common, pts, count⟩
  | .folderPeers _ pts count => some ⟨.common, pts, count⟩
  | .pinnedMessages _ pts count => some ⟨.common, pts, count⟩
  | .newChannelMessage m pts count =>
    (messageChannelId m).map (fun c => ⟨.channel c, pts, count⟩)
  | .editChannelMessage m pts count =>
    (messageChannelId m).map (fun c => ⟨.channel c, pts, count⟩)
  | .deleteChannelMessages c _ pts count => some ⟨.channel c, pts, count⟩
  | .readChannelInbox c _ pts => some ⟨.channel c, pts, 0⟩
  | .channelWebPage c _ pts count => some ⟨.channel c, pts, count⟩
  | .pinnedChannelMessages c _ pts count => some ⟨.channel c, pts, count⟩
  | .channelTooLong c pts => pts.map (fun pts => ⟨.channel c, pts, 0⟩)
  | .newEncryptedMessage _ qts => some ⟨.secondary, qts, 1⟩
  | .chatParticipant _ qts => some ⟨.secondary, qts, 1⟩
  | .channelParticipant _ qts => some ⟨.secondary, qts, 1⟩
  | .botStopped _ qts => some ⟨.secondary, qts, 1⟩
  | .botChatInviteRequester _ qts => some ⟨.secondary, qts, 1⟩
  | .botChatBoost _ qts => some ⟨.secondary, qts, 1⟩
  | .botMessageReaction _ qts => some ⟨.secondary, qts, 1⟩
  | .messagePollVote _ qts => some ⟨.secondary, qts, 1⟩
  | .other _ => none

/-- `PtsInfo::from_update`. -/
def PtsInfo.fromUpdate (u : Update) : Option PtsInfo :=
  match PtsInfo.raw u with
  | none => none
  | some info => if info.pts = NO_PTS then none else some info

/-- `update_sort_key`: where the update starts. -/
def updateSortKey (u : Update) : Int32 :=
  match PtsInfo.fromUpdate u with
  | some info => info.pts - info.count
  | none => NO_PTS

/-- An update together with its metadata. -/
structure PtsUpdate where
  update : Update
  info : PtsInfo
  from_update : PtsInfo.fromUpdate update = some info
  deriving DecidableEq

/-- Updates buffered behind a gap, and when to stop waiting for it to close. -/
structure PossibleGap where
  deadline : Instant
  updates : List PtsUpdate
  deriving DecidableEq

/-- A live entry of the box. -/
structure LiveEntry where
  key : Key
  pts : Int32
  /-- When a difference is fetched if nothing arrives before. -/
  deadline : Instant
  possibleGap : Option PossibleGap
  deriving DecidableEq

/-- `LiveEntry::effective_deadline`. -/
def LiveEntry.effectiveDeadline (e : LiveEntry) : Instant :=
  match e.possibleGap with
  | some gap => min gap.deadline e.deadline
  | none => e.deadline

/-- The container: `MessageBoxes`. -/
structure MessageBoxes where
  entries : List LiveEntry
  date : Int32
  seq : Int32
  /-- Keys a difference must be fetched for. -/
  gettingDiffFor : List Key
  /-- The channel whose request has been handed out and not answered. -/
  channelDiffInFlight : Option Int
  /-- Cached minimum deadline across all entries. -/
  nextDeadline : Instant
  deriving DecidableEq

/-- Returned when the caller has to fetch a difference. -/
inductive Gap where
  | gap
  deriving DecidableEq, Repr

/-- Anything treated as an update batch. The `request_body` of a sent message is
given by what its bytes decode to: `none` when there are none or they are not a
`messages.sendMessage`. -/
inductive UpdatesLike where
  | updates (u : Updates)
  | connectionClosed
  | malformedUpdates
  | affectedMessages (affected : AffectedMessages)
  | affectedChannelMessages (affected : AffectedMessages) (channelId : Int)
  | sentMessage (pts ptsCount : Int32) (request : Option SendMessage)
      (update : UpdateShortSentMessage)
  deriving DecidableEq, Repr

structure ChannelState where
  id : Int
  pts : Int32
  deriving DecidableEq, Repr

/-- What is persisted of the box. -/
structure UpdatesStateSnap where
  pts : Int32
  qts : Int32
  date : Int32
  seq : Int32
  channels : List ChannelState
  deriving DecidableEq, Repr

/-- Updates, users and chats. -/
abbrev UpdateAndPeers := List Update × List User × List Chat

/-- The ways a call on the box can panic. -/
inductive Panic where
  /-- `expect("Common entry must exist when diffing it")` -/
  | commonEntryMissing
  /-- `expect("Channel entry must exist when diffing it")` -/
  | channelEntryMissing
  /-- `expect("gap detected while applying difference - should not happen")` -/
  | gapApplyingDifference
  /-- `expect("gap detected while applying channel difference")` -/
  | gapApplyingChannelDifference
  /-- Adding a duration to an `Instant` overflowed. -/
  | instantOverflow
  /-- `debug_assert!(self.is_empty())` -/
  | stateAlreadySet
  /-- `debug_assert!(.., "gaps shouldn't be created while getting difference")` -/
  | gapWhileGettingDifference
  deriving DecidableEq, Repr

/-! The sentinel, and what it means for sorting. -/

theorem fromUpdate_eq_some {u : Update} {info : PtsInfo} :
    PtsInfo.fromUpdate u = some info ↔ PtsInfo.raw u = some info ∧ info.pts ≠ NO_PTS := by
  unfold PtsInfo.fromUpdate
  cases h : PtsInfo.raw u with
  | none => simp
  | some i =>
    simp only [Option.some.injEq]
    split
    · next h0 =>
      constructor
      · intro h'; cases h'
      · rintro ⟨rfl, hne⟩; exact absurd h0 hne
    · next h0 =>
      constructor
      · rintro h'; cases h'; exact ⟨rfl, h0⟩
      · rintro ⟨rfl, _⟩; rfl

theorem PtsUpdate.sortKey (u : PtsUpdate) :
    updateSortKey u.update = u.info.pts - u.info.count := by
  simp [updateSortKey, u.from_update]

end Ferogram.Msgbox
