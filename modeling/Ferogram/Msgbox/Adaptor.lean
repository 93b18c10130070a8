import Ferogram.Msgbox.Defs

/- `ferogram-msgbox/src/adaptor.rs`: every `UpdatesLike` is brought into the one
   form the state machine works on, an `updatesCombined`, or is a gap right away;
   the three shapes of a channel difference are flattened into one.

   The adaptors only build containers: what the rest of the development needs of
   them is which updates a batch holds (`UpdatesLike.contents`) and that a re-fed
   difference carries no `seq` (`adapt_refeed`). -/
namespace Ferogram.Msgbox
open Ferogram.Tl

def wrapUpdates (u : UpdatesBatch) : UpdatesCombined :=
  { updates := u.updates, users := u.users, chats := u.chats, date := u.date,
    seqStart := u.seq, seq := u.seq }

def wrapShort (short : UpdateShort) : UpdatesCombined :=
  { updates := [short.update], users := [], chats := [], date := short.date,
    seqStart := NO_SEQ, seq := NO_SEQ }

/-- The message both short forms stand for, given who sent it and where. -/
def shortMessageBody (short : ShortMessage) (fromId peerId : Peer) : Message :=
  .message
    { out := short.out, mentioned := short.mentioned, mediaUnread := short.mediaUnread,
      silent := short.silent, id := short.id, fromId := some fromId, peerId := peerId,
      fwdFrom := short.fwdFrom, viaBotId := short.viaBotId, replyTo := short.replyTo,
      date := short.date, message := short.message, entities := short.entities,
      ttlPeriod := short.ttlPeriod }

def shortMessageToCombined (short : UpdateShortMessage) : UpdatesCombined :=
  wrapShort
    { update := .newMessage (shortMessageBody short.toShortMessage (.user short.userId)
        (.user short.userId)) short.pts short.ptsCount
      date := short.date }

def shortChatMessageToCombined (short : UpdateShortChatMessage) : UpdatesCombined :=
  wrapShort
    { update := .newMessage (shortMessageBody short.toShortMessage (.user short.fromId)
        (.chat short.chatId)) short.pts short.ptsCount
      date := short.date }

def shortSentMessageToCombined (short : UpdateShortSentMessage) : UpdatesCombined :=
  wrapShort
    { update := .newMessage (.empty short.id none) short.pts short.ptsCount
      date := short.date }

def affectedMessagesToCombined (affected : AffectedMessages) : UpdatesCombined :=
  wrapShort { update := .deleteMessages [] affected.pts affected.ptsCount, date := 0 }

def affectedChannelMessagesToCombined (affected : AffectedMessages) (channelId : Int) :
    UpdatesCombined :=
  wrapShort
    { update := .deleteChannelMessages channelId [] affected.pts affected.ptsCount, date := 0 }

def peerFromInput : InputPeer → Peer
  | .empty => .user 0
  | .peerSelf => .user 0
  | .user userId _ => .user userId
  | .chat chatId => .chat chatId
  | .channel channelId _ => .channel channelId
  | .userFromMessage userId _ => .user userId
  | .channelFromMessage channelId _ => .channel channelId

def replyHeaderFromInput : InputReplyTo → Option MessageReplyHeader
  | .message replyToMsgId topMsgId replyToPeerId quoteText quoteEntities quoteRich quoteOffset =>
    some (.messageReplyHeader quoteOffset.isSome (some replyToMsgId)
      (replyToPeerId.map peerFromInput) topMsgId quoteText quoteEntities quoteRich quoteOffset [])
  | .story peer storyId => some (.messageReplyStoryHeader (peerFromInput peer) storyId)
  | .monoForum _ => none
  | .ephemeralMessage _ => none

/-- The outgoing message a confirmed `messages.sendMessage` stands for. -/
def sentMessageBody (req : SendMessage) (update : UpdateShortSentMessage) : Message :=
  .message
    { out := update.out, mentioned := false, mediaUnread := false, silent := req.silent,
      noforwards := req.noforwards, invertMedia := req.invertMedia, id := update.id,
      fromId := req.sendAs.map peerFromInput, peerId := peerFromInput req.peer,
      replyTo := req.replyTo.bind replyHeaderFromInput, date := update.date,
      message := req.message, media := update.media, replyMarkup := req.replyMarkup,
      entities := update.entities.or req.entities, ttlPeriod := update.ttlPeriod,
      effect := req.effect }

def adaptUpdates : Updates → Except Gap UpdatesCombined
  | .tooLong => .error .gap
  | .updateShortMessage s => .ok (shortMessageToCombined s)
  | .updateShortChatMessage s => .ok (shortChatMessageToCombined s)
  | .updateShort s => .ok (wrapShort s)
  | .combined c => .ok c
  | .updates u => .ok (wrapUpdates u)
  | .updateShortSentMessage s => .ok (shortSentMessageToCombined s)

def adapt : UpdatesLike → Except Gap UpdatesCombined
  | .updates u => adaptUpdates u
  | .connectionClosed => .error .gap
  | .malformedUpdates => .error .gap
  | .affectedMessages affected => .ok (affectedMessagesToCombined affected)
  | .affectedChannelMessages affected channelId =>
    .ok (affectedChannelMessagesToCombined affected channelId)
  | .sentMessage pts ptsCount request update =>
    match request with
    | some req =>
      .ok (wrapShort
        { update := .newMessage (sentMessageBody req update) pts ptsCount, date := update.date })
    -- no body or not a sendMessage: advance pts silently
    | none => .ok (affectedMessagesToCombined { pts := pts, ptsCount := ptsCount })

def adaptChannelDifference : ChannelDifference → Except Gap ChannelDifferenceBody
  | .empty final pts timeout =>
    .ok { final := final, pts := pts, timeout := timeout, newMessages := [], otherUpdates := [],
          chats := [], users := [] }
  | .tooLong final timeout dialog chats users =>
    match dialog with
    | .dialog (some pts) =>
      .ok { final := final, pts := pts, timeout := timeout, newMessages := [],
            otherUpdates := [], chats := chats, users := users }
    | .dialog none => .error .gap
    | .folder => .error .gap
    | .community => .error .gap
  | .channelDifference d => .ok d

/-- The container `apply_difference` and `apply_channel_difference` re-feed
other updates in. -/
def refeed (updates : List Update) (users : List User) (chats : List Chat) : UpdatesLike :=
  .updates (.updates
    { updates := updates, users := users, chats := chats, date := NO_DATE, seq := NO_SEQ })

theorem adapt_refeed (updates : List Update) (users : List User) (chats : List Chat) :
    adapt (refeed updates users chats) = .ok
      { updates := updates, users := users, chats := chats, date := NO_DATE, seqStart := NO_SEQ,
        seq := NO_SEQ } := rfl

/-- The updates a batch holds, none when it is a gap. -/
def UpdatesLike.contents (b : UpdatesLike) : List Update :=
  match adapt b with
  | .ok c => c.updates
  | .error _ => []

end Ferogram.Msgbox
