import Ferogram.Lib.Assoc
import Ferogram.Lib.Run
import Ferogram.Session.Format

/- The peer cache, `PeerCache` of `ferogram/src/peer_cache.rs`, and everything that
   writes to it: its own functions, `dispatch_updates` and the restore of `connect` in
   `client/mod.rs`, and `get_participants_filtered` in `participants.rs`. A hash map or
   set is an association list; the reverse indices by username and phone, which nothing
   here reads, are left out.

   A full user or channel takes the place of what was known of it as min, and a min one
   is noted only where there is no full one; three writes do one and not the other. -/
namespace Ferogram.Peers
open Session (CachedPeer CachedMinPeer)

/-- `ChannelKind` of the client, beside the one of the session file. -/
inductive ChannelKind where
  | broadcast
  | megagroup
  | gigagroup
  deriving DecidableEq, Repr

def ChannelKind.ofSession : Session.ChannelKind → ChannelKind
  | .broadcast => .broadcast
  | .megagroup => .megagroup
  | .gigagroup => .gigagroup

def ChannelKind.toSession : ChannelKind → Session.ChannelKind
  | .broadcast => .broadcast
  | .megagroup => .megagroup
  | .gigagroup => .gigagroup

@[simp] theorem ChannelKind.ofSession_toSession (k : ChannelKind) : ofSession k.toSession = k := by
  cases k <;> rfl

/-! What the cache reads of the TL objects. -/

structure UserData where
  id : Int64
  accessHash : Option Int64
  min : Bool
  deriving DecidableEq

inductive User where
  | empty (id : Int64)
  | user (u : UserData)
  deriving DecidableEq

structure Channel where
  id : Int64
  accessHash : Option Int64
  min : Bool
  megagroup : Bool
  gigagroup : Bool
  deriving DecidableEq

def Channel.kind (ch : Channel) : ChannelKind :=
  if ch.megagroup then .megagroup else if ch.gigagroup then .gigagroup else .broadcast

inductive Chat where
  | empty (id : Int64)
  | chat (id : Int64)
  | forbidden (id : Int64)
  | channel (c : Channel)
  | channelForbidden (id accessHash : Int64)
  | community (id : Int64) (accessHash : Option Int64) (min : Bool)
  | communityForbidden (id : Int64) (accessHash : Option Int64)
  deriving DecidableEq

inductive InputPeer where
  | empty
  | peerSelf
  | chat (chatId : Int64)
  | user (userId accessHash : Int64)
  | channel (channelId accessHash : Int64)
  | userFromMessage (peer : InputPeer) (msgId : Int32) (userId : Int64)
  | channelFromMessage (peer : InputPeer) (msgId : Int32) (channelId : Int64)
  deriving DecidableEq

inductive Peer where
  | user (userId : Int64)
  | chat (chatId : Int64)
  | channel (channelId : Int64)
  deriving DecidableEq

/-- The cache; `cacheMinPeers` is the experimental flag it looks at. -/
structure PeerCache where
  users : Assoc Int64 Int64
  channels : Assoc Int64 (Int64 × Option ChannelKind)
  communities : Assoc Int64 Int64
  chats : Assoc Int64 Unit
  channelsMin : Assoc Int64 Unit
  minContexts : Assoc Int64 (Int64 × Int32)
  cacheMinPeers : Bool

namespace PeerCache

def new (cacheMinPeers : Bool) : PeerCache :=
  { users := ∅, channels := ∅, communities := ∅, chats := ∅, channelsMin := ∅, minContexts := ∅, cacheMinPeers }

/-! The writes. -/

/-- A user with its hash; zero never replaces a hash. -/
def putUser (c : PeerCache) (id hash : Int64) : PeerCache :=
  { c with users := Assoc.put (hash = 0) id hash c.users, minContexts := c.minContexts.erase id }

/-- A channel with its hash and kind. -/
def putChannel (c : PeerCache) (id hash : Int64) (kind : Option ChannelKind) : PeerCache :=
  { c with channels := Assoc.put (hash = 0) id (hash, kind) c.channels, channelsMin := c.channelsMin.erase id }

def putCommunity (c : PeerCache) (id hash : Int64) : PeerCache :=
  { c with communities := Assoc.put (hash = 0) id hash c.communities }

def putChat (c : PeerCache) (id : Int64) : PeerCache := { c with chats := c.chats.insert id () }

/-- The message a min user was seen in, unless the user is known. -/
def putContext (c : PeerCache) (userId peerId : Int64) (msgId : Int32) : PeerCache :=
  if c.cacheMinPeers ∧ userId ∉ c.users then
    { c with minContexts := c.minContexts.insert userId (peerId, msgId) }
  else c

/-- A channel without a hash, unless it is known. -/
def putMinChannel (c : PeerCache) (id : Int64) : PeerCache :=
  if id ∈ c.channels then c else { c with channelsMin := c.channelsMin.insert id () }

def cacheUser (c : PeerCache) : User → PeerCache
  | .empty _ => c
  | .user u =>
    if u.min then c
    else match u.accessHash with
      | some hash => c.putUser u.id hash
      | none => c

def cacheUserWithContext (c : PeerCache) (user : User) (peerId : Int64) (msgId : Int32) : PeerCache :=
  match user with
  | .empty _ => c
  | .user u =>
    if u.min then c.putContext u.id peerId msgId
    else match u.accessHash with
      | some hash => c.putUser u.id hash
      | none => c

def cacheChat (c : PeerCache) : Chat → PeerCache
  | .channel ch =>
    if ch.min then c.putMinChannel ch.id
    else match ch.accessHash with
      | some hash => c.putChannel ch.id hash (some ch.kind)
      | none => c
  | .channelForbidden id accessHash => c.putChannel id accessHash (some .broadcast)
  | .chat id | .forbidden id => c.putChat id
  | .community id accessHash min =>
    if min then c
    else match accessHash with
      | some hash => c.putCommunity id hash
      | none => c
  | .communityForbidden id accessHash =>
    match accessHash with
    | some hash => c.putCommunity id hash
    | none => c
  | .empty _ => c

/-- The id under which a min user's context names the container. -/
def containerPeerId : InputPeer → Option Int64
  | .channel channelId _ => some channelId
  | .chat chatId => some chatId
  | .user userId _ => some userId
  | .peerSelf => some 0
  | _ => none

def cacheInputPeer (c : PeerCache) : InputPeer → PeerCache
  | .user userId accessHash => c.putUser userId accessHash
  | .channel channelId accessHash =>
    if accessHash ≠ 0 then
      -- An entry that is there keeps its kind.
      let kind := (c.channels.lookup channelId).bind Prod.snd
      { c with
        channels := c.channels.insert channelId (accessHash, kind)
        channelsMin := c.channelsMin.erase channelId }
    else
      { c with
        channels := Assoc.orInsert channelId (0, none) c.channels
        channelsMin := c.channelsMin.erase channelId }
  | .chat chatId => c.putChat chatId
  | .userFromMessage peer msgId userId =>
    match containerPeerId peer with
    | some peerId => (c.cacheInputPeer peer).putContext userId peerId msgId
    | none => c.cacheInputPeer peer
  | .channelFromMessage peer _ channelId =>
    let c := c.cacheInputPeer peer
    { c with channelsMin := c.channelsMin.insert channelId () }
  | .empty | .peerSelf => c

def invalidatePeer (c : PeerCache) : Peer → PeerCache
  | .user userId => { c with users := c.users.erase userId, minContexts := c.minContexts.erase userId }
  | .channel channelId =>
    { c with channels := c.channels.erase channelId, channelsMin := c.channelsMin.erase channelId }
  | .chat _ => c

/-- `dispatch_updates`, for a channel seen in `saved_from_peer`. -/
def registerSeen (c : PeerCache) (id : Int64) : PeerCache :=
  if id ∉ c.channels ∧ id ∉ c.channelsMin then { c with channelsMin := c.channelsMin.insert id () } else c

/-- `get_participants_filtered`, for one user of the answer: each is written under a lock
of its own. -/
def cacheParticipant (c : PeerCache) (u : UserData) : PeerCache :=
  match u.accessHash with
  | some hash => { c with users := c.users.insert u.id hash }
  | none => c

/-- `connect`, for one record of the session. -/
def restorePeer (c : PeerCache) (p : CachedPeer) : PeerCache :=
  if p.isCommunity then { c with communities := Assoc.orInsert p.id p.accessHash c.communities }
  else if p.isChat then { c with chats := c.chats.insert p.id () }
  else if p.isChannel then
    if p.accessHash ≠ 0 then
      { c with channels := Assoc.orInsert p.id (p.accessHash, p.channelKind.map .ofSession) c.channels }
    else c.putMinChannel p.id
  else { c with users := Assoc.orInsert p.id p.accessHash c.users }

def restoreMinPeer (c : PeerCache) (m : CachedMinPeer) : PeerCache :=
  if m.userId ∈ c.users then c else { c with minContexts := c.minContexts.insert m.userId (m.peerId, m.msgId) }

/-- `connect`: a session without peers is not looked at. -/
def restore (c : PeerCache) (peers : List CachedPeer) (minPeers : List CachedMinPeer) : PeerCache :=
  if peers.isEmpty then c else minPeers.foldl restoreMinPeer (peers.foldl restorePeer c)

end PeerCache

inductive Op where
  | cacheUser (user : User)
  | cacheUserWithContext (user : User) (peerId : Int64) (msgId : Int32)
  | cacheChat (chat : Chat)
  | cacheInputPeer (ip : InputPeer)
  | invalidatePeer (peer : Peer)
  | registerSeen (id : Int64)
  | cacheParticipant (u : UserData)
  | restore (peers : List CachedPeer) (minPeers : List CachedMinPeer)
  deriving DecidableEq

def next (c : PeerCache) : Op → PeerCache
  | .cacheUser user => c.cacheUser user
  | .cacheUserWithContext user peerId msgId => c.cacheUserWithContext user peerId msgId
  | .cacheChat chat => c.cacheChat chat
  | .cacheInputPeer ip => c.cacheInputPeer ip
  | .invalidatePeer peer => c.invalidatePeer peer
  | .registerSeen id => c.registerSeen id
  | .cacheParticipant u => c.cacheParticipant u
  | .restore peers minPeers => c.restore peers minPeers

/-! What a restore leaves, key by key. -/

/-- The hash that a record has for the user. -/
def userRecord (id : Int64) (p : CachedPeer) : Option Int64 :=
  if !p.isCommunity && !p.isChat && !p.isChannel && p.id == id then some p.accessHash else none

/-- The hash that a record has for the channel; zero is a channel known as min. -/
def channelRecord (id : Int64) (p : CachedPeer) : Option Int64 :=
  if !p.isCommunity && !p.isChat && p.isChannel && p.id == id then some p.accessHash else none

/-- The entry that a record makes for the channel. -/
def fullRecord (id : Int64) (p : CachedPeer) : Option (Int64 × Option ChannelKind) :=
  if !p.isCommunity && !p.isChat && p.isChannel && p.accessHash != 0 && p.id == id then
    some (p.accessHash, p.channelKind.map .ofSession)
  else none

def communityRecord (id : Int64) (p : CachedPeer) : Option Int64 :=
  if p.isCommunity && p.id == id then some p.accessHash else none

def chatRecord (id : Int64) (p : CachedPeer) : Option Unit :=
  if !p.isCommunity && p.isChat && p.id == id then some () else none

def contextRecord (userId : Int64) (m : CachedMinPeer) : Option (Int64 × Int32) :=
  if m.userId = userId then some (m.peerId, m.msgId) else none

/-- The first records. -/
def firstUser (id : Int64) (peers : List CachedPeer) : Option Int64 := peers.findSome? (userRecord id)

def firstChannel (id : Int64) (peers : List CachedPeer) : Option Int64 := peers.findSome? (channelRecord id)

/-- The last context, which is the one that stays. -/
def lastContext (userId : Int64) (minPeers : List CachedMinPeer) : Option (Int64 × Int32) :=
  minPeers.reverse.findSome? (contextRecord userId)

theorem fullRecord_of_zero {id : Int64} {p : CachedPeer} (h : channelRecord id p = some 0) : fullRecord id p = none := by
  unfold channelRecord at h
  split at h
  · next hp =>
    have hash : p.accessHash = 0 := Option.some.inj h
    simp [fullRecord, hash]
  · cases h

theorem channelRecord_of_full {id : Int64} {p : CachedPeer} {e : Int64 × Option ChannelKind}
    (h : fullRecord id p = some e) : channelRecord id p = some e.1 ∧ e.1 ≠ 0 := by
  unfold fullRecord at h
  split at h
  · next hp =>
    obtain rfl := Option.some.inj h
    simp only [Bool.and_eq_true, bne_iff_ne] at hp
    simp [channelRecord, hp]
  · cases h

theorem exists_fullRecord {id hash : Int64} {p : CachedPeer} (h : channelRecord id p = some hash) (hne : hash ≠ 0) :
    ∃ e, fullRecord id p = some e := by
  unfold channelRecord at h
  split at h
  · next hp =>
    obtain rfl := Option.some.inj h
    simp only [Bool.and_eq_true] at hp
    exact ⟨(p.accessHash, p.channelKind.map .ofSession), by simp [fullRecord, hp, hne]⟩
  · cases h

theorem fullRecord_eq_none {id : Int64} {p : CachedPeer} (h : channelRecord id p = none) : fullRecord id p = none := by
  cases hf : fullRecord id p with
  | none => rfl
  | some e =>
    rw [(channelRecord_of_full hf).1] at h
    cases h

namespace PeerCache

/-! A channel marked as min touches nothing else. -/

@[simp] theorem putMinChannel_users (c : PeerCache) (id : Int64) : (c.putMinChannel id).users = c.users := by
  unfold putMinChannel; split <;> rfl

@[simp] theorem putMinChannel_channels (c : PeerCache) (id : Int64) : (c.putMinChannel id).channels = c.channels := by
  unfold putMinChannel; split <;> rfl

@[simp] theorem putMinChannel_communities (c : PeerCache) (id : Int64) :
    (c.putMinChannel id).communities = c.communities := by
  unfold putMinChannel; split <;> rfl

@[simp] theorem putMinChannel_chats (c : PeerCache) (id : Int64) : (c.putMinChannel id).chats = c.chats := by
  unfold putMinChannel; split <;> rfl

@[simp] theorem putMinChannel_minContexts (c : PeerCache) (id : Int64) :
    (c.putMinChannel id).minContexts = c.minContexts := by
  unfold putMinChannel; split <;> rfl

theorem mem_putMinChannel {c : PeerCache} {id k : Int64} :
    k ∈ (c.putMinChannel id).channelsMin ↔ k ∈ c.channelsMin ∨ (k = id ∧ id ∉ c.channels) := by
  unfold putMinChannel
  split
  · next h => simp [h]
  · next h => simp [AList.mem_insert, h, or_comm]

/-! One record of the loop, then the loop. -/

theorem restorePeer_users (c : PeerCache) (p : CachedPeer) (k : Int64) :
    AList.lookup k (c.restorePeer p).users = (AList.lookup k c.users).or (userRecord k p) := by
  unfold restorePeer userRecord
  cases p.isCommunity <;> cases p.isChat <;> cases p.isChannel <;>
    simp [Assoc.lookup_orInsert, eq_comm (a := k)]
  split <;> simp

theorem restorePeer_channels (c : PeerCache) (p : CachedPeer) (k : Int64) :
    AList.lookup k (c.restorePeer p).channels = (AList.lookup k c.channels).or (fullRecord k p) := by
  unfold restorePeer fullRecord
  cases p.isCommunity <;> cases p.isChat <;> cases p.isChannel <;> simp
  by_cases hash : p.accessHash = 0
  · simp [hash]
  · simp [hash, Assoc.lookup_orInsert, eq_comm (a := k)]

theorem restorePeer_channelsMin (c : PeerCache) (p : CachedPeer) (k : Int64) :
    k ∈ (c.restorePeer p).channelsMin ↔ k ∈ c.channelsMin ∨ (k ∉ c.channels ∧ channelRecord k p = some 0) := by
  unfold restorePeer channelRecord
  cases p.isCommunity <;> cases p.isChat <;> cases p.isChannel <;> simp
  by_cases hash : p.accessHash = 0
  · simp only [hash, if_pos, mem_putMinChannel, and_true]
    constructor
    · rintro (h | ⟨rfl, h⟩)
      · exact Or.inl h
      · exact Or.inr ⟨h, rfl⟩
    · rintro (h | ⟨h, rfl⟩)
      · exact Or.inl h
      · exact Or.inr ⟨rfl, h⟩
  · simp [hash]

theorem restorePeer_communities (c : PeerCache) (p : CachedPeer) (k : Int64) :
    AList.lookup k (c.restorePeer p).communities = (AList.lookup k c.communities).or (communityRecord k p) := by
  unfold restorePeer communityRecord
  cases p.isCommunity <;> cases p.isChat <;> cases p.isChannel <;>
    simp [Assoc.lookup_orInsert, eq_comm (a := k)]
  split <;> simp

theorem restorePeer_chats (c : PeerCache) (p : CachedPeer) (k : Int64) :
    AList.lookup k (c.restorePeer p).chats = (AList.lookup k c.chats).or (chatRecord k p) := by
  unfold restorePeer chatRecord
  cases p.isCommunity <;> cases p.isChat <;> cases p.isChannel <;> simp
  · split <;> simp
  all_goals
    rw [Assoc.lookup_insert_if, eq_comm]
    cases AList.lookup k c.chats <;> simp [eq_comm (a := k)]

theorem restorePeer_minContexts (c : PeerCache) (p : CachedPeer) : (c.restorePeer p).minContexts = c.minContexts := by
  unfold restorePeer
  cases p.isCommunity <;> cases p.isChat <;> cases p.isChannel <;> simp
  split <;> simp

theorem restorePeers_users (c : PeerCache) (peers : List CachedPeer) (k : Int64) :
    AList.lookup k (peers.foldl restorePeer c).users = (AList.lookup k c.users).or (firstUser k peers) :=
  Assoc.lookup_foldl_or (fun c => AList.lookup k (PeerCache.users c)) (fun c p => restorePeer_users c p k) peers c

theorem restorePeers_channels (c : PeerCache) (peers : List CachedPeer) (k : Int64) :
    AList.lookup k (peers.foldl restorePeer c).channels =
      (AList.lookup k c.channels).or (peers.findSome? (fullRecord k)) :=
  Assoc.lookup_foldl_or (fun c => AList.lookup k (PeerCache.channels c)) (fun c p => restorePeer_channels c p k) peers c

theorem restorePeers_communities (c : PeerCache) (peers : List CachedPeer) (k : Int64) :
    AList.lookup k (peers.foldl restorePeer c).communities =
      (AList.lookup k c.communities).or (peers.findSome? (communityRecord k)) :=
  Assoc.lookup_foldl_or (fun c => AList.lookup k (PeerCache.communities c)) (fun c p => restorePeer_communities c p k)
    peers c

theorem restorePeers_chats (c : PeerCache) (peers : List CachedPeer) (k : Int64) :
    AList.lookup k (peers.foldl restorePeer c).chats =
      (AList.lookup k c.chats).or (peers.findSome? (chatRecord k)) :=
  Assoc.lookup_foldl_or (fun c => AList.lookup k (PeerCache.chats c)) (fun c p => restorePeer_chats c p k) peers c

/-- The first record of a channel decides whether the restore marks it as min. -/
theorem restorePeers_channelsMin (c : PeerCache) (peers : List CachedPeer) (k : Int64) :
    k ∈ (peers.foldl restorePeer c).channelsMin ↔
      k ∈ c.channelsMin ∨ (k ∉ c.channels ∧ firstChannel k peers = some 0) := by
  induction peers generalizing c with
  | nil => simp [firstChannel]
  | cons p peers ih =>
    have hchannels : k ∈ (c.restorePeer p).channels ↔ k ∈ c.channels ∨ (fullRecord k p).isSome = true := by
      rw [← AList.lookup_isSome, ← AList.lookup_isSome, restorePeer_channels]
      simp
    rw [List.foldl_cons, ih, restorePeer_channelsMin, hchannels, firstChannel, firstChannel, List.findSome?_cons]
    cases hrecord : channelRecord k p with
    | none => simp [fullRecord_eq_none hrecord]
    | some hash =>
      by_cases hzero : hash = 0
      · obtain rfl := hzero
        simp only [fullRecord_of_zero hrecord]
        simp
        tauto
      · obtain ⟨e, he⟩ := exists_fullRecord hrecord hzero
        simp [he, hzero]

theorem restorePeers_minContexts (c : PeerCache) (peers : List CachedPeer) :
    (peers.foldl restorePeer c).minContexts = c.minContexts := by
  induction peers generalizing c with
  | nil => rfl
  | cons p peers ih => rw [List.foldl_cons, ih, restorePeer_minContexts]

/-- The loop over the min peers touches the contexts only. -/
theorem restoreMinPeers_eq (c : PeerCache) (minPeers : List CachedMinPeer) :
    minPeers.foldl restoreMinPeer c = { c with minContexts := (minPeers.foldl restoreMinPeer c).minContexts } := by
  induction minPeers generalizing c with
  | nil => rfl
  | cons m minPeers ih =>
    rw [List.foldl_cons, ih]
    unfold restoreMinPeer
    split <;> rfl

theorem restoreMinPeer_minContexts (c : PeerCache) (m : CachedMinPeer) (k : Int64) :
    AList.lookup k (c.restoreMinPeer m).minContexts =
      if k ∈ c.users then AList.lookup k c.minContexts else (contextRecord k m).or (AList.lookup k c.minContexts) := by
  unfold restoreMinPeer contextRecord
  by_cases hm : m.userId ∈ c.users
  · rw [if_pos hm]
    by_cases hk : m.userId = k
    · simp [← hk, hm]
    · simp [hk]
  · rw [if_neg hm, Assoc.lookup_insert_if]
    by_cases hk : m.userId = k
    · simp [← hk, hm]
    · simp [hk, Ne.symm hk]

theorem restoreMinPeers_minContexts (c : PeerCache) (minPeers : List CachedMinPeer) (k : Int64) :
    AList.lookup k (minPeers.foldl restoreMinPeer c).minContexts =
      if k ∈ c.users then AList.lookup k c.minContexts else (lastContext k minPeers).or (AList.lookup k c.minContexts) := by
  induction minPeers generalizing c with
  | nil => simp [lastContext]
  | cons m minPeers ih =>
    have husers : ([m].foldl restoreMinPeer c).users = c.users := by rw [restoreMinPeers_eq]
    rw [List.foldl_cons, List.foldl_nil] at husers
    rw [List.foldl_cons, ih, husers, restoreMinPeer_minContexts]
    by_cases hk : k ∈ c.users
    · rw [if_pos hk, if_pos hk, if_pos hk]
    · rw [if_neg hk, if_neg hk, if_neg hk, lastContext, lastContext, List.reverse_cons, List.findSome?_append,
        List.findSome?_singleton, Option.or_assoc]

end PeerCache

end Ferogram.Peers
