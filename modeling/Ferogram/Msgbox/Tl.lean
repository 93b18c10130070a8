import Mathlib.Order.Basic

/- The TL objects the message box works on, with the fields it reads. A field
   nobody reads is not lost: the remaining fields of an object are kept together
   as their serialised bytes (`Blob`), so an update that goes through the box
   comes out as the same value.

   Counters (`pts`, `qts`, `seq`, `date`) are `i32` in the schema and are
   `Int32` here, with its wrapping arithmetic; identifiers are never computed
   with and are integers. -/
namespace Ferogram.Tl

/-- Serialised fields that nothing in the model looks into. -/
abbrev Blob := List UInt8
abbrev User := Blob
abbrev Chat := Blob

inductive Peer where
  | user (userId : Int)
  | chat (chatId : Int)
  | channel (channelId : Int)
  deriving DecidableEq, Repr

inductive InputPeer where
  | empty
  | peerSelf
  | user (userId accessHash : Int)
  | chat (chatId : Int)
  | channel (channelId accessHash : Int)
  | userFromMessage (userId : Int) (rest : Blob)
  | channelFromMessage (channelId : Int) (rest : Blob)
  deriving DecidableEq, Repr

inductive MessageReplyHeader where
  | messageReplyHeader (quote : Bool) (replyToMsgId : Option Int32) (replyToPeerId : Option Peer)
      (replyToTopId : Option Int32) (quoteText quoteEntities quoteRich : Option Blob)
      (quoteOffset : Option Int32) (rest : Blob)
  | messageReplyStoryHeader (peer : Peer) (storyId : Int32)
  deriving DecidableEq, Repr

/-- The body of a plain message. -/
structure MessageBody where
  out : Bool
  mentioned : Bool
  mediaUnread : Bool
  silent : Bool
  noforwards : Bool := false
  invertMedia : Bool := false
  id : Int32
  fromId : Option Peer
  peerId : Peer
  fwdFrom : Option Blob := none
  viaBotId : Option Int := none
  replyTo : Option MessageReplyHeader
  date : Int32
  message : String
  media : Option Blob := none
  replyMarkup : Option Blob := none
  entities : Option Blob
  ttlPeriod : Option Int32
  effect : Option Int := none
  /-- Flags and options that the adaptors leave at their defaults. -/
  rest : Blob := []
  deriving DecidableEq, Repr

inductive Message where
  | message (body : MessageBody)
  | service (peerId : Peer) (rest : Blob)
  | empty (id : Int32) (peerId : Option Peer)
  deriving DecidableEq, Repr

/-- `tl::enums::Update`: every constructor that carries a `pts` or `qts`, and
the rest together. -/
inductive Update where
  | newMessage (message : Message) (pts ptsCount : Int32)
  | deleteMessages (messages : List Int32) (pts ptsCount : Int32)
  | readHistoryInbox (rest : Blob) (pts ptsCount : Int32)
  | readHistoryOutbox (rest : Blob) (pts ptsCount : Int32)
  | webPage (rest : Blob) (pts ptsCount : Int32)
  | readMessagesContents (rest : Blob) (pts ptsCount : Int32)
  | editMessage (message : Message) (pts ptsCount : Int32)
  | folderPeers (rest : Blob) (pts ptsCount : Int32)
  | pinnedMessages (rest : Blob) (pts ptsCount : Int32)
  | newChannelMessage (message : Message) (pts ptsCount : Int32)
  | editChannelMessage (message : Message) (pts ptsCount : Int32)
  | deleteChannelMessages (channelId : Int) (messages : List Int32) (pts ptsCount : Int32)
  | readChannelInbox (channelId : Int) (rest : Blob) (pts : Int32)
  | channelWebPage (channelId : Int) (rest : Blob) (pts ptsCount : Int32)
  | pinnedChannelMessages (channelId : Int) (rest : Blob) (pts ptsCount : Int32)
  | channelTooLong (channelId : Int) (pts : Option Int32)
  | newEncryptedMessage (message : Blob) (qts : Int32)
  | chatParticipant (rest : Blob) (qts : Int32)
  | channelParticipant (rest : Blob) (qts : Int32)
  | botStopped (rest : Blob) (qts : Int32)
  | botChatInviteRequester (rest : Blob) (qts : Int32)
  | botChatBoost (rest : Blob) (qts : Int32)
  | botMessageReaction (rest : Blob) (qts : Int32)
  | messagePollVote (rest : Blob) (qts : Int32)
  | other (rest : Blob)
  deriving DecidableEq, Repr

/-- `updatesCombined`, the form every batch is brought into. -/
structure UpdatesCombined where
  updates : List Update
  users : List User
  chats : List Chat
  date : Int32
  seqStart : Int32
  seq : Int32
  deriving DecidableEq, Repr

/-- `updates`. -/
structure UpdatesBatch where
  updates : List Update
  users : List User
  chats : List Chat
  date : Int32
  seq : Int32
  deriving DecidableEq, Repr

structure UpdateShort where
  update : Update
  date : Int32
  deriving DecidableEq, Repr

/-- The fields `updateShortMessage` and `updateShortChatMessage` share. -/
structure ShortMessage where
  out : Bool
  mentioned : Bool
  mediaUnread : Bool
  silent : Bool
  id : Int32
  message : String
  pts : Int32
  ptsCount : Int32
  date : Int32
  fwdFrom : Option Blob
  viaBotId : Option Int
  replyTo : Option MessageReplyHeader
  entities : Option Blob
  ttlPeriod : Option Int32
  deriving DecidableEq, Repr

structure UpdateShortMessage extends ShortMessage where
  userId : Int
  deriving DecidableEq, Repr

structure UpdateShortChatMessage extends ShortMessage where
  fromId : Int
  chatId : Int
  deriving DecidableEq, Repr

structure UpdateShortSentMessage where
  out : Bool
  id : Int32
  pts : Int32
  ptsCount : Int32
  date : Int32
  media : Option Blob
  entities : Option Blob
  ttlPeriod : Option Int32
  deriving DecidableEq, Repr

inductive Updates where
  | tooLong
  | updateShortMessage (short : UpdateShortMessage)
  | updateShortChatMessage (short : UpdateShortChatMessage)
  | updateShort (short : UpdateShort)
  | combined (combined : UpdatesCombined)
  | updates (updates : UpdatesBatch)
  | updateShortSentMessage (short : UpdateShortSentMessage)
  deriving DecidableEq, Repr

structure AffectedMessages where
  pts : Int32
  ptsCount : Int32
  deriving DecidableEq, Repr

inductive InputReplyTo where
  | message (replyToMsgId : Int32) (topMsgId : Option Int32) (replyToPeerId : Option InputPeer)
      (quoteText quoteEntities quoteRich : Option Blob) (quoteOffset : Option Int32)
  | story (peer : InputPeer) (storyId : Int32)
  | monoForum (rest : Blob)
  | ephemeralMessage (rest : Blob)
  deriving DecidableEq, Repr

/-- `messages.sendMessage`, as far as a sent message is rebuilt from it. -/
structure SendMessage where
  silent : Bool
  noforwards : Bool
  invertMedia : Bool
  peer : InputPeer
  replyTo : Option InputReplyTo
  message : String
  replyMarkup : Option Blob
  entities : Option Blob
  sendAs : Option InputPeer
  effect : Option Int
  deriving DecidableEq, Repr

/-- `updates.state`. -/
structure State where
  pts : Int32
  qts : Int32
  date : Int32
  seq : Int32
  deriving DecidableEq, Repr

/-- `updates.difference` and, with its `intermediate_state`, `updates.differenceSlice`. -/
structure DifferenceBody where
  newMessages : List Message
  newEncryptedMessages : List Blob
  otherUpdates : List Update
  chats : List Chat
  users : List User
  state : State
  deriving DecidableEq, Repr

inductive Difference where
  | empty (date seq : Int32)
  | difference (d : DifferenceBody)
  | slice (d : DifferenceBody)
  | tooLong (pts : Int32)
  deriving DecidableEq, Repr

inductive Dialog where
  | dialog (pts : Option Int32)
  | folder
  | community
  deriving DecidableEq, Repr

/-- `updates.channelDifference`. -/
structure ChannelDifferenceBody where
  final : Bool
  pts : Int32
  timeout : Option Int32
  newMessages : List Message
  otherUpdates : List Update
  chats : List Chat
  users : List User
  deriving DecidableEq, Repr

inductive ChannelDifference where
  | empty (final : Bool) (pts : Int32) (timeout : Option Int32)
  | tooLong (final : Bool) (timeout : Option Int32) (dialog : Dialog) (chats : List Chat)
      (users : List User)
  | channelDifference (d : ChannelDifferenceBody)
  deriving DecidableEq, Repr

/-- The `updates.getDifference` request. -/
structure GetDifference where
  pts : Int32
  ptsLimit : Option Int32
  ptsTotalLimit : Option Int32
  date : Int32
  qts : Int32
  qtsLimit : Option Int32
  deriving DecidableEq, Repr

inductive ChannelMessagesFilter where
  | empty
  | filter (rest : Blob)
  deriving DecidableEq, Repr

/-- The `updates.getChannelDifference` request. -/
structure GetChannelDifference where
  force : Bool
  channelId : Int
  accessHash : Int
  filter : ChannelMessagesFilter
  pts : Int32
  limit : Int32
  deriving DecidableEq, Repr

end Ferogram.Tl
