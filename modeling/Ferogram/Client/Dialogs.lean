import Ferogram.TlTypes.Codec
import Ferogram.Client.PeerCache
import Ferogram.Mtsender.Step

/- Dialogs, chat folders and the iterators over them: `ferogram/src/dialog.rs` and the part of
   `ferogram/src/client/dialogs.rs` that makes iterators.

   `getDialogs` stands for `get_dialogs_raw_with_count` with a server behind it, and `inputOf` for
   `peer_to_input` on a cache that has the users and chats of the page; `now` is the clock that a
   mute is compared with. The loop of a folder's iterator is as long as the lists it reads, so it
   carries fuel. -/
namespace Ferogram.Dialogs
open Bytes TlTypes Mtsender
open Peers (InputPeer Peer)

/-! The offset peer as bytes. -/

def idInputPeerEmpty : UInt32 := 0x7f3b18ea
def idInputPeerSelf : UInt32 := 0x7da07ec9
def idInputPeerChat : UInt32 := 0x35a95cb9
def idInputPeerUser : UInt32 := 0xdde8a54c
def idInputPeerChannel : UInt32 := 0x27bcbbfc
def idInputPeerUserFromMessage : UInt32 := 0xa87b0a1c
def idInputPeerChannelFromMessage : UInt32 := 0xbd2a0840

/-- `InputPeer::to_bytes`. -/
def toBytes : InputPeer → List UInt8
  | .empty => ofU32 idInputPeerEmpty
  | .peerSelf => ofU32 idInputPeerSelf
  | .chat chatId => ofU32 idInputPeerChat ++ ofI64 chatId
  | .user userId accessHash => ofU32 idInputPeerUser ++ (ofI64 userId ++ ofI64 accessHash)
  | .channel channelId accessHash => ofU32 idInputPeerChannel ++ (ofI64 channelId ++ ofI64 accessHash)
  | .userFromMessage peer msgId userId =>
    ofU32 idInputPeerUserFromMessage ++ (toBytes peer ++ (ofI32 msgId ++ ofI64 userId))
  | .channelFromMessage peer msgId channelId =>
    ofU32 idInputPeerChannelFromMessage ++ (toBytes peer ++ (ofI32 msgId ++ ofI64 channelId))

/-- What follows a constructor id; `inner` reads a peer inside this one. -/
def readInputPeerOf (inner : Reader Error InputPeer) (id : UInt32) : Reader Error InputPeer :=
  if id = idInputPeerEmpty then pure .empty
  else if id = idInputPeerSelf then pure .peerSelf
  else if id = idInputPeerChat then do
    let chatId ← readI64
    pure (.chat chatId)
  else if id = idInputPeerUser then do
    let userId ← readI64
    let accessHash ← readI64
    pure (.user userId accessHash)
  else if id = idInputPeerChannel then do
    let channelId ← readI64
    let accessHash ← readI64
    pure (.channel channelId accessHash)
  else if id = idInputPeerUserFromMessage then do
    let peer ← inner
    let msgId ← readI32
    let userId ← readI64
    pure (.userFromMessage peer msgId userId)
  else if id = idInputPeerChannelFromMessage then do
    let peer ← inner
    let msgId ← readI32
    let channelId ← readI64
    pure (.channelFromMessage peer msgId channelId)
  else Reader.fail (.unexpectedConstructor id)

/-- `InputPeer::deserialize`; a peer inside another takes bytes of its own. -/
def readInputPeer : Nat → Reader Error InputPeer
  | 0 => Reader.fail .unexpectedEof
  | fuel + 1 => do
    let id ← readU32
    readInputPeerOf (readInputPeer fuel) id

/-! Dialogs. -/

/-- The fields of `dialog` that are looked at. -/
structure RawDialog where
  peer : Peer
  topMessage : Int32
  unreadCount : Int32
  muteUntil : Option Int32
  folderId : Option Int32
  deriving DecidableEq

inductive RawDialogEnum where
  | dialog (d : RawDialog)
  | folder
  | community
  deriving DecidableEq

inductive DialogMessage where
  | message (date : Int32)
  | service (date : Int32)
  | empty
  deriving DecidableEq

/-- The user of a dialog, if it is one and not `userEmpty`. -/
structure DialogUser where
  bot : Bool
  contact : Bool
  deriving DecidableEq

inductive DialogChat where
  | channel (broadcast : Bool)
  | other
  deriving DecidableEq

structure Dialog where
  raw : RawDialogEnum
  message : Option DialogMessage
  entity : Option (Option DialogUser)
  chat : Option DialogChat
  deriving DecidableEq

namespace Dialog

def peer (d : Dialog) : Option Peer :=
  match d.raw with
  | .dialog r => some r.peer
  | _ => none

def unreadCount (d : Dialog) : Int32 :=
  match d.raw with
  | .dialog r => r.unreadCount
  | _ => 0

def topMessage (d : Dialog) : Int32 :=
  match d.raw with
  | .dialog r => r.topMessage
  | _ => 0

/-- The date of the dialog's message, as `next` takes it. -/
def date (d : Dialog) : Int32 :=
  match d.message with
  | some (.message date) => date
  | some (.service date) => date
  | _ => 0

end Dialog

def peerId : Peer → Int64
  | .user userId => userId
  | .chat chatId => chatId
  | .channel channelId => channelId

def inputPeerId : InputPeer → Option Int64
  | .user userId _ => some userId
  | .chat chatId => some chatId
  | .channel channelId _ => some channelId
  | _ => none

/-- `peer_id_set`; of `peer_id_index` only the keys are looked at. -/
def peerIdSet (list : List InputPeer) : List Int64 := list.filterMap inputPeerId

structure DialogFilterBody where
  id : Int32
  contacts : Bool
  nonContacts : Bool
  groups : Bool
  broadcasts : Bool
  bots : Bool
  excludeMuted : Bool
  excludeRead : Bool
  excludeArchived : Bool
  pinnedPeers : List InputPeer
  includePeers : List InputPeer
  excludePeers : List InputPeer
  deriving DecidableEq

inductive DialogFilter where
  | default
  | dialogFilter (f : DialogFilterBody)
  | chatlist (id : Int32) (pinnedPeers includePeers : List InputPeer)
  deriving DecidableEq

structure FlattenedDialogFilter where
  isDefault : Bool := false
  includeContacts : Bool := false
  includeNonContacts : Bool := false
  includeGroups : Bool := false
  includeBroadcasts : Bool := false
  includeBots : Bool := false
  excludeMuted : Bool := false
  excludeRead : Bool := false
  excludeArchived : Bool := false
  includePeers : List Int64 := []
  excludePeers : List Int64 := []
  pinnedPeers : List Int64 := []
  deriving DecidableEq

def FlattenedDialogFilter.ofFilter : DialogFilter → FlattenedDialogFilter
  | .default => { isDefault := true }
  -- a shared folder has its lists only
  | .chatlist _ pinnedPeers includePeers =>
    { includePeers := peerIdSet includePeers, pinnedPeers := peerIdSet pinnedPeers }
  | .dialogFilter f =>
    { includeContacts := f.contacts
      includeNonContacts := f.nonContacts
      includeGroups := f.groups
      includeBroadcasts := f.broadcasts
      includeBots := f.bots
      excludeMuted := f.excludeMuted
      excludeRead := f.excludeRead
      excludeArchived := f.excludeArchived
      includePeers := peerIdSet f.includePeers
      excludePeers := peerIdSet f.excludePeers
      pinnedPeers := peerIdSet f.pinnedPeers }

def dialogFilterId : DialogFilter → Int32
  | .default => 0
  | .dialogFilter f => f.id
  | .chatlist id _ _ => id

def scanArchiveFor (filter : FlattenedDialogFilter) : Bool := !filter.isDefault && !filter.excludeArchived

/-- By the kind of chat, when no list of the folder names the peer. -/
def Dialog.matchesKind (d : Dialog) (filter : FlattenedDialogFilter) : Bool :=
  let isBot := (d.entity.bind id).any DialogUser.bot
  let isContact := (d.entity.bind id).any DialogUser.contact
  let isBroadcast := d.chat = some (.channel true)
  let isGroup := d.chat.isSome && !isBroadcast
  filter.includeBots && isBot ||
    filter.includeContacts && d.entity.isSome && isContact && !isBot ||
    filter.includeNonContacts && d.entity.isSome && !isContact && !isBot ||
    filter.includeGroups && isGroup ||
    filter.includeBroadcasts && isBroadcast

def Dialog.matchesFilter (now : Int32) (filter : FlattenedDialogFilter) (d : Dialog) : Bool :=
  if filter.isDefault then true
  else
    match d.raw with
    | .dialog r =>
      let id := peerId r.peer
      if id ∈ filter.excludePeers then false
      else if id ∈ filter.pinnedPeers ∨ id ∈ filter.includePeers then true
      else if filter.excludeArchived ∧ r.folderId = some 1 then false
      else if filter.excludeRead ∧ r.unreadCount = 0 then false
      else if filter.excludeMuted ∧ r.muteUntil.any (now < ·) then false
      else d.matchesKind filter
    | _ => false

/-! The iterator over dialogs. -/

structure GetDialogs where
  excludePinned : Bool
  folderId : Option Int32
  offsetDate : Int32
  offsetId : Int32
  offsetPeer : InputPeer
  limit : Int32
  hash : Int64
  deriving DecidableEq

structure DialogCursor where
  offsetDate : Int32
  offsetId : Int32
  offsetPeer : List UInt8
  excludePinned : Bool
  folderId : Option Int32
  total : Option Int32
  deriving DecidableEq

/-- Where the next page begins. -/
structure Offset where
  date : Int32
  id : Int32
  peer : InputPeer
  deriving DecidableEq

structure DialogIter where
  offset : Offset
  excludePinned : Bool
  folderId : Option Int32
  done : Bool
  buffer : List Dialog
  total : Option Int32
  deriving DecidableEq

/-- `PAGE_SIZE`. -/
def pageSize : Nat := 100

/-- `Client::iter_dialogs`. -/
def iterDialogs : DialogIter where
  offset := ⟨0, 0, .empty⟩
  excludePinned := false
  folderId := none
  done := false
  buffer := []
  total := none

namespace DialogIter

def withExcludePinned (it : DialogIter) (v : Bool) : DialogIter := { it with excludePinned := v }

def withFolderId (it : DialogIter) (id : Option Int32) : DialogIter := { it with folderId := id }

def cursor (it : DialogIter) : DialogCursor where
  offsetDate := it.offset.date
  offsetId := it.offset.id
  offsetPeer := toBytes it.offset.peer
  excludePinned := it.excludePinned
  folderId := it.folderId
  total := it.total

def request (it : DialogIter) (o : Offset) : GetDialogs where
  excludePinned := it.excludePinned
  folderId := it.folderId
  offsetDate := o.date
  offsetId := o.id
  offsetPeer := o.peer
  limit := Int32.ofNat pageSize
  hash := 0

end DialogIter

/-- What the iterators call on the client. -/
structure Client where
  getDialogs : GetDialogs → Except InvocationError (List Dialog × Option Int32)
  inputOf : Peer → Except InvocationError InputPeer

/-- The offset behind the last dialog of a page. A dialog without a peer leaves the offset's. -/
def Client.advance (c : Client) (o : Offset) (page : List Dialog) : Except InvocationError Offset × Offset :=
  match page.getLast? with
  | none => (.ok o, o)
  | some last =>
    let o := { o with date := last.date, id := last.topMessage }
    match last.peer with
    | none => (.ok o, o)
    | some peer =>
      match c.inputOf peer with
      | .ok input => (.ok { o with peer := input }, { o with peer := input })
      | .error e => (.error e, o)

namespace DialogIter

def next (c : Client) (it : DialogIter) : Except InvocationError (Option Dialog) × DialogIter :=
  match it.buffer with
  | d :: buffer => (.ok (some d), { it with buffer := buffer })
  | [] =>
    if it.done then (.ok none, it)
    else
      match c.getDialogs (it.request it.offset) with
      | .error e => (.error e, it)
      | .ok (dialogs, count) =>
        let it := { it with
          total := it.total.or count
          done := dialogs.isEmpty || dialogs.length < pageSize || it.done }
        match c.advance it.offset dialogs with
        | (.error e, o) => (.error e, { it with offset := o })
        | (.ok _, o) => (.ok dialogs.head?, { it with offset := o, buffer := dialogs.tail })

end DialogIter

def deserializeError : Error → InvocationError
  | .unexpectedEof => .deserialize "unexpected end of buffer"
  | .unexpectedConstructor id => .deserialize ("unexpected constructor id: " ++ hex32 id.toNat)

/-- `Client::iter_dialogs_from`. -/
def iterDialogsFrom (cursor : DialogCursor) : Except InvocationError DialogIter :=
  match (readInputPeer (cursor.offsetPeer.length + 1)).run cursor.offsetPeer with
  | .error e => .error (deserializeError e)
  | .ok (peer, _) => .ok
    { offset := ⟨cursor.offsetDate, cursor.offsetId, peer⟩
      excludePinned := cursor.excludePinned
      folderId := cursor.folderId
      done := false
      buffer := []
      total := cursor.total }

/-! The iterator over a folder. -/

structure DialogFilterCursor where
  filterId : Int32
  main : DialogCursor
  archived : DialogCursor
  inArchive : Bool
  deriving DecidableEq

structure DialogFilterIter where
  filterId : Int32
  filter : FlattenedDialogFilter
  main : DialogIter
  archived : DialogIter
  scanArchive : Bool
  inArchive : Bool
  deriving DecidableEq

namespace DialogFilterIter

/-- The loop; `none` is for want of fuel. -/
def next (c : Client) (now : Int32) : Nat → DialogFilterIter →
    Option (Except InvocationError (Option Dialog) × DialogFilterIter)
  | 0, _ => none
  | fuel + 1, it =>
    if it.inArchive then
      match it.archived.next c with
      | (.error e, archived) => some (.error e, { it with archived := archived })
      | (.ok none, archived) => some (.ok none, { it with archived := archived })
      | (.ok (some d), archived) =>
        if d.matchesFilter now it.filter then some (.ok (some d), { it with archived := archived })
        else next c now fuel { it with archived := archived }
    else
      match it.main.next c with
      | (.error e, main) => some (.error e, { it with main := main })
      | (.ok none, main) =>
        if it.scanArchive then next c now fuel { it with main := main, inArchive := true }
        else some (.ok none, { it with main := main })
      | (.ok (some d), main) =>
        if d.matchesFilter now it.filter then some (.ok (some d), { it with main := main })
        else next c now fuel { it with main := main }

def cursor (it : DialogFilterIter) : DialogFilterCursor where
  filterId := it.filterId
  main := it.main.cursor
  archived := it.archived.cursor
  inArchive := it.inArchive

end DialogFilterIter

/-- `resolve_dialog_filter`, of the folders that the server has. -/
def resolveDialogFilter (filters : List DialogFilter) (filterId : Int32) : Except InvocationError DialogFilter :=
  if filterId = 0 then .ok .default
  else
    match filters.find? (dialogFilterId · = filterId) with
    | some f => .ok f
    | none => .error (.deserialize ("no dialog filter with id " ++ toString filterId.toInt))

/-- `Client::iter_dialogs_in_filter`. -/
def iterDialogsInFilter (filters : List DialogFilter) (filterId : Int32) : Except InvocationError DialogFilterIter := do
  let filter := FlattenedDialogFilter.ofFilter (← resolveDialogFilter filters filterId)
  return {
    filterId := filterId
    filter := filter
    main := iterDialogs.withFolderId (some 0)
    archived := iterDialogs.withFolderId (some 1)
    scanArchive := scanArchiveFor filter
    inArchive := false }

/-- `Client::iter_dialogs_in_filter_from`. -/
def iterDialogsInFilterFrom (filters : List DialogFilter) (cursor : DialogFilterCursor) :
    Except InvocationError DialogFilterIter := do
  let filter := FlattenedDialogFilter.ofFilter (← resolveDialogFilter filters cursor.filterId)
  let main ← iterDialogsFrom cursor.main
  let archived ← iterDialogsFrom cursor.archived
  return {
    filterId := cursor.filterId
    filter := filter
    main := main
    archived := archived
    scanArchive := scanArchiveFor filter
    inArchive := cursor.inArchive }

end Ferogram.Dialogs
