import Ferogram.Client.PeerCache

/- What a restart leaves of the peer cache: `build_persisted_session` flattens the maps
   into records and `connect` restores an empty cache from them, both in `client/mod.rs`.

   The records tell a channel from a min channel by its hash alone, the contexts come back
   only where there is a record at all, and a context of a user that is known is left
   out. So a cache comes back exactly when no channel has hash zero, no channel and no
   user with a context is kept in both places, and the contexts are not all there is
   (`restart_keeps_iff`). -/
namespace Ferogram.Peers
open Session (CachedPeer CachedMinPeer)
open PeerCache

/-- The entries of each map, in the order in which it is gone through. -/
structure Iteration (c : PeerCache) where
  users : List (Sigma fun _ : Int64 => Int64)
  channels : List (Sigma fun _ : Int64 => Int64 × Option ChannelKind)
  communities : List (Sigma fun _ : Int64 => Int64)
  chats : List (Sigma fun _ : Int64 => Unit)
  channelsMin : List (Sigma fun _ : Int64 => Unit)
  minContexts : List (Sigma fun _ : Int64 => Int64 × Int32)
  users_perm : users.Perm c.users.entries
  channels_perm : channels.Perm c.channels.entries
  communities_perm : communities.Perm c.communities.entries
  chats_perm : chats.Perm c.chats.entries
  channelsMin_perm : channelsMin.Perm c.channelsMin.entries
  minContexts_perm : minContexts.Perm c.minContexts.entries

/-! The records, `build_persisted_session`. -/

def userPeer (e : Sigma fun _ : Int64 => Int64) : CachedPeer :=
  { id := e.1, accessHash := e.2, isChannel := false, isChat := false, channelKind := none, isCommunity := false }

def channelPeer (e : Sigma fun _ : Int64 => Int64 × Option ChannelKind) : CachedPeer :=
  { id := e.1, accessHash := e.2.1, isChannel := true, isChat := false, channelKind := e.2.2.map ChannelKind.toSession
    isCommunity := false }

def chatPeer (e : Sigma fun _ : Int64 => Unit) : CachedPeer :=
  { id := e.1, accessHash := 0, isChannel := false, isChat := true, channelKind := none, isCommunity := false }

def minChannelPeer (e : Sigma fun _ : Int64 => Unit) : CachedPeer :=
  { id := e.1, accessHash := 0, isChannel := true, isChat := false, channelKind := none, isCommunity := false }

def communityPeer (e : Sigma fun _ : Int64 => Int64) : CachedPeer :=
  { id := e.1, accessHash := e.2, isChannel := false, isChat := false, channelKind := none, isCommunity := true }

def contextPeer (e : Sigma fun _ : Int64 => Int64 × Int32) : CachedMinPeer :=
  { userId := e.1, peerId := e.2.1, msgId := e.2.2 }

namespace Iteration
variable {c : PeerCache} (it : Iteration c)

def peers : List CachedPeer :=
  it.users.map userPeer ++ it.channels.map channelPeer ++ it.chats.map chatPeer ++
    it.channelsMin.map minChannelPeer ++ it.communities.map communityPeer

def minPeers : List CachedMinPeer := it.minContexts.map contextPeer

/-- The cache after the restart. -/
def restarted : PeerCache := (new c.cacheMinPeers).restore it.peers it.minPeers

end Iteration

/-- The same entries, whatever their order. -/
structure SameCache (a b : PeerCache) : Prop where
  users : ∀ id, AList.lookup id a.users = AList.lookup id b.users
  channels : ∀ id, AList.lookup id a.channels = AList.lookup id b.channels
  communities : ∀ id, AList.lookup id a.communities = AList.lookup id b.communities
  chats : ∀ id, id ∈ a.chats ↔ id ∈ b.chats
  channelsMin : ∀ id, id ∈ a.channelsMin ↔ id ∈ b.channelsMin
  minContexts : ∀ id, AList.lookup id a.minContexts = AList.lookup id b.minContexts

/-- The caches that come back. -/
structure Restorable (c : PeerCache) : Prop where
  hashes : ∀ id hash kind, AList.lookup id c.channels = some (hash, kind) → hash ≠ 0
  channelsMin : ∀ id, id ∈ c.channels → id ∉ c.channelsMin
  contexts : ∀ id, id ∈ c.users → id ∉ c.minContexts
  peers : ∀ id, id ∈ c.minContexts →
    ∃ k, k ∈ c.users ∨ k ∈ c.channels ∨ k ∈ c.communities ∨ k ∈ c.chats ∨ k ∈ c.channelsMin

/-! What the records say, key by key. -/

/-- The records of one map, for one key. -/
theorem findSome?_records {α β ρ : Type} {m : Assoc Int64 α} {l : List (Sigma fun _ : Int64 => α)}
    (h : l.Perm m.entries) {k : Int64} {make : (Sigma fun _ : Int64 => α) → ρ} {read : ρ → Option β} {f : α → Option β}
    (hread : ∀ e, read (make e) = if e.1 = k then f e.2 else none) :
    (l.map make).findSome? read = (AList.lookup k m).bind f := by
  rw [List.findSome?_map, ← Assoc.findSome?_entries h k f]
  congr 1
  funext e
  exact hread e

namespace Iteration
variable {c : PeerCache} (it : Iteration c)

/-- All the records, for one key: what is read of each kind of them. -/
theorem findSome?_peers {β : Type} (read : CachedPeer → Option β) (k : Int64) (ofUser : Int64 → Option β)
    (ofChannel : Int64 × Option ChannelKind → Option β) (ofChat ofMin : Unit → Option β)
    (ofCommunity : Int64 → Option β)
    (husers : ∀ e, read (userPeer e) = if e.1 = k then ofUser e.2 else none)
    (hchannels : ∀ e, read (channelPeer e) = if e.1 = k then ofChannel e.2 else none)
    (hchats : ∀ e, read (chatPeer e) = if e.1 = k then ofChat e.2 else none)
    (hmin : ∀ e, read (minChannelPeer e) = if e.1 = k then ofMin e.2 else none)
    (hcommunities : ∀ e, read (communityPeer e) = if e.1 = k then ofCommunity e.2 else none) :
    it.peers.findSome? read =
      (((((AList.lookup k c.users).bind ofUser).or ((AList.lookup k c.channels).bind ofChannel)).or
        ((AList.lookup k c.chats).bind ofChat)).or ((AList.lookup k c.channelsMin).bind ofMin)).or
        ((AList.lookup k c.communities).bind ofCommunity) := by
  rw [peers, List.findSome?_append, List.findSome?_append, List.findSome?_append, List.findSome?_append,
    findSome?_records it.users_perm husers, findSome?_records it.channels_perm hchannels,
    findSome?_records it.chats_perm hchats, findSome?_records it.channelsMin_perm hmin,
    findSome?_records it.communities_perm hcommunities]

theorem firstUser_peers (k : Int64) : firstUser k it.peers = AList.lookup k c.users := by
  have h := it.findSome?_peers (userRecord k) k some (fun _ => none) (fun _ => none) (fun _ => none) (fun _ => none)
    (by simp [userRecord, userPeer]) (by simp [userRecord, channelPeer]) (by simp [userRecord, chatPeer])
    (by simp [userRecord, minChannelPeer]) (by simp [userRecord, communityPeer])
  simpa [firstUser] using h

/-- The entry that a channel's own record makes. -/
theorem fullRecord_channelPeer (k : Int64) (e : Sigma fun _ : Int64 => Int64 × Option ChannelKind) :
    fullRecord k (channelPeer e) = if e.1 = k then (if e.2.1 ≠ 0 then some e.2 else none) else none := by
  have hkind : (e.2.2.map ChannelKind.toSession).map ChannelKind.ofSession = e.2.2 := by
    cases e.2.2 with
    | none => rfl
    | some kind => exact congrArg some (ChannelKind.ofSession_toSession kind)
  unfold fullRecord channelPeer
  rw [hkind]
  by_cases hzero : e.2.1 = 0 <;> simp [hzero]

theorem fullRecords_peers (k : Int64) : it.peers.findSome? (fullRecord k) =
    (AList.lookup k c.channels).bind fun e => if e.1 ≠ 0 then some e else none := by
  have h := it.findSome?_peers (fullRecord k) k (fun _ => none) (fun e => if e.1 ≠ 0 then some e else none)
    (fun _ => none) (fun _ => none) (fun _ => none)
    (by simp [fullRecord, userPeer]) (fullRecord_channelPeer k) (by simp [fullRecord, chatPeer])
    (by simp [fullRecord, minChannelPeer]) (by simp [fullRecord, communityPeer])
  simpa using h

theorem firstChannel_peers (k : Int64) : firstChannel k it.peers =
    ((AList.lookup k c.channels).bind fun e => some e.1).or ((AList.lookup k c.channelsMin).bind fun _ => some 0) := by
  have h := it.findSome?_peers (channelRecord k) k (fun _ => none) (fun e => some e.1) (fun _ => none) (fun _ => some 0)
    (fun _ => none) (by simp [channelRecord, userPeer]) (by simp [channelRecord, channelPeer])
    (by simp [channelRecord, chatPeer]) (by simp [channelRecord, minChannelPeer]) (by simp [channelRecord, communityPeer])
  simpa [firstChannel] using h

theorem communityRecords_peers (k : Int64) :
    it.peers.findSome? (communityRecord k) = AList.lookup k c.communities := by
  have h := it.findSome?_peers (communityRecord k) k (fun _ => none) (fun _ => none) (fun _ => none) (fun _ => none) some
    (by simp [communityRecord, userPeer]) (by simp [communityRecord, channelPeer]) (by simp [communityRecord, chatPeer])
    (by simp [communityRecord, minChannelPeer]) (by simp [communityRecord, communityPeer])
  simpa using h

theorem chatRecords_peers (k : Int64) : it.peers.findSome? (chatRecord k) = AList.lookup k c.chats := by
  have h := it.findSome?_peers (chatRecord k) k (fun _ => none) (fun _ => none) some (fun _ => none) (fun _ => none)
    (by simp [chatRecord, userPeer]) (by simp [chatRecord, channelPeer]) (by simp [chatRecord, chatPeer])
    (by simp [chatRecord, minChannelPeer]) (by simp [chatRecord, communityPeer])
  simpa using h

theorem lastContext_minPeers (k : Int64) : lastContext k it.minPeers = AList.lookup k c.minContexts := by
  have hperm : it.minContexts.reverse.Perm c.minContexts.entries :=
    (List.reverse_perm it.minContexts).trans it.minContexts_perm
  have hread : ∀ e, contextRecord k (contextPeer e) = if e.1 = k then some e.2 else none := by
    intro e
    rfl
  rw [lastContext, minPeers, ← List.map_reverse, findSome?_records hperm hread, Option.bind_fun_some]

/-! The cache that is restored from them. -/

theorem restarted_eq (h : it.peers ≠ []) : it.restarted =
    { it.peers.foldl restorePeer (new c.cacheMinPeers) with
      minContexts := (it.minPeers.foldl restoreMinPeer (it.peers.foldl restorePeer (new c.cacheMinPeers))).minContexts } := by
  rw [restarted, restore, if_neg (by simp [h]), restoreMinPeers_eq]

theorem restarted_users (h : it.peers ≠ []) (k : Int64) :
    AList.lookup k it.restarted.users = AList.lookup k c.users := by
  rw [restarted_eq it h, restorePeers_users, firstUser_peers, new, AList.lookup_empty, Option.none_or]

theorem restarted_channels (h : it.peers ≠ []) (k : Int64) : AList.lookup k it.restarted.channels =
    (AList.lookup k c.channels).bind fun e => if e.1 ≠ 0 then some e else none := by
  rw [restarted_eq it h, restorePeers_channels, fullRecords_peers, new, AList.lookup_empty, Option.none_or]

theorem restarted_communities (h : it.peers ≠ []) (k : Int64) :
    AList.lookup k it.restarted.communities = AList.lookup k c.communities := by
  rw [restarted_eq it h, restorePeers_communities, communityRecords_peers, new, AList.lookup_empty, Option.none_or]

theorem restarted_chats (h : it.peers ≠ []) (k : Int64) :
    AList.lookup k it.restarted.chats = AList.lookup k c.chats := by
  rw [restarted_eq it h, restorePeers_chats, chatRecords_peers, new, AList.lookup_empty, Option.none_or]

theorem mem_restarted_channelsMin (h : it.peers ≠ []) (k : Int64) :
    k ∈ it.restarted.channelsMin ↔ firstChannel k it.peers = some 0 := by
  rw [restarted_eq it h]
  simp [restorePeers_channelsMin, new]

theorem restarted_minContexts (h : it.peers ≠ []) (k : Int64) : AList.lookup k it.restarted.minContexts =
    if k ∈ c.users then none else AList.lookup k c.minContexts := by
  have hmem : k ∈ (it.peers.foldl restorePeer (new c.cacheMinPeers)).users ↔ k ∈ c.users := by
    have husers := restarted_users it h k
    rw [restarted_eq it h] at husers
    rw [← AList.lookup_isSome, ← AList.lookup_isSome, husers]
  have hnew : AList.lookup k (new c.cacheMinPeers).minContexts = none := AList.lookup_empty k
  rw [restarted_eq it h, restoreMinPeers_minContexts, restorePeers_minContexts, lastContext_minPeers, hnew, Option.or_none]
  simp only [hmem]

/-- There are records exactly when there is something besides contexts. -/
theorem peers_ne_nil_iff : it.peers ≠ [] ↔
    ∃ k, k ∈ c.users ∨ k ∈ c.channels ∨ k ∈ c.communities ∨ k ∈ c.chats ∨ k ∈ c.channelsMin := by
  simp only [exists_or, Assoc.exists_mem_iff it.users_perm, Assoc.exists_mem_iff it.channels_perm,
    Assoc.exists_mem_iff it.communities_perm, Assoc.exists_mem_iff it.chats_perm,
    Assoc.exists_mem_iff it.channelsMin_perm, peers, Ne, List.append_eq_nil_iff, List.map_eq_nil_iff]
  tauto

/-- Without records nothing comes back. -/
theorem restarted_of_nil (h : it.peers = []) : it.restarted = new c.cacheMinPeers := by
  rw [restarted, h]
  rfl

/-- Where there are records, only channels and contexts can be lost. -/
theorem sameCache_of_peers (h : it.peers ≠ []) : SameCache c it.restarted ↔ Restorable c := by
  constructor
  · intro hsame
    have hhashes : ∀ id hash kind, AList.lookup id c.channels = some (hash, kind) → hash ≠ 0 := by
      rintro id hash kind hlook rfl
      have hlost := hsame.channels id
      rw [restarted_channels it h, hlook] at hlost
      cases hlost
    refine ⟨hhashes, ?_, ?_, fun _ _ => it.peers_ne_nil_iff.mp h⟩
    · intro id hin hmin
      obtain ⟨⟨hash, kind⟩, hlook⟩ := Assoc.lookup_of_mem hin
      have hfirst := (mem_restarted_channelsMin it h id).mp ((hsame.channelsMin id).mp hmin)
      rw [firstChannel_peers, hlook] at hfirst
      exact hhashes id hash kind hlook (Option.some.inj hfirst)
    · intro id hin hcontext
      obtain ⟨context, hlook⟩ := Assoc.lookup_of_mem hcontext
      have hlost := hsame.minContexts id
      rw [restarted_minContexts it h, if_pos hin, hlook] at hlost
      cases hlost
  · intro hc
    constructor
    · exact fun id => (restarted_users it h id).symm
    · intro id
      rw [restarted_channels it h]
      cases hlook : AList.lookup id c.channels with
      | none => rfl
      | some e => rw [Option.bind_some, if_pos (hc.hashes id e.1 e.2 hlook)]
    · exact fun id => (restarted_communities it h id).symm
    · intro id
      rw [← AList.lookup_isSome, ← AList.lookup_isSome, restarted_chats it h]
    · intro id
      rw [mem_restarted_channelsMin it h, firstChannel_peers]
      cases hlook : AList.lookup id c.channels with
      | none =>
        rw [Option.bind_none, Option.none_or, ← AList.lookup_isSome]
        cases AList.lookup id c.channelsMin <;> simp
      | some e =>
        -- a channel with a hash is no min channel
        have hnot := hc.channelsMin id (Assoc.mem_of_lookup hlook)
        have hhash := hc.hashes id e.1 e.2 hlook
        simp [hnot, hhash]
    · intro id
      rw [restarted_minContexts it h]
      split
      · next hin => exact AList.lookup_eq_none.mpr (hc.contexts id hin)
      · rfl

end Iteration

/-- **The restart.** The cache comes back exactly when no channel has hash zero or is also a
min channel, no user has a context as well, and contexts are not all there is. -/
theorem restart_keeps_iff (c : PeerCache) (it : Iteration c) : SameCache c it.restarted ↔ Restorable c := by
  by_cases h : it.peers = []
  · have hempty := it.peers_ne_nil_iff.not.mp (not_not.mpr h)
    have hno : ∀ k, k ∉ c.users ∧ k ∉ c.channels ∧ k ∉ c.communities ∧ k ∉ c.chats ∧ k ∉ c.channelsMin := by
      intro k
      have hk := not_exists.mp hempty k
      simpa only [not_or] using hk
    rw [it.restarted_of_nil h]
    constructor
    · intro hsame
      refine ⟨?_, fun id hin => absurd hin (hno id).2.1, fun id hin => absurd hin (hno id).1, ?_⟩
      · intro id hash kind hlook
        exact absurd (Assoc.mem_of_lookup hlook) (hno id).2.1
      · intro id hcontext
        obtain ⟨context, hlook⟩ := Assoc.lookup_of_mem hcontext
        have hlost := hsame.minContexts id
        rw [hlook] at hlost
        cases hlost
    · intro hc
      have hcontexts : ∀ id, id ∉ c.minContexts := fun id hcontext => hempty (hc.peers id hcontext)
      have hlook : ∀ {α : Type} {m : Assoc Int64 α} {id : Int64}, id ∉ m →
          AList.lookup id m = AList.lookup id (∅ : Assoc Int64 α) := fun hnot => AList.lookup_eq_none.mpr hnot
      exact ⟨fun id => hlook (hno id).1, fun id => hlook (hno id).2.1, fun id => hlook (hno id).2.2.1,
        fun id => iff_of_false (hno id).2.2.2.1 (AList.notMem_empty id),
        fun id => iff_of_false (hno id).2.2.2.2 (AList.notMem_empty id), fun id => hlook (hcontexts id)⟩
  · exact it.sameCache_of_peers h

/-- A channel that was cached with hash zero. -/
def zeroHash : PeerCache := Run.final next (new false) [.cacheChat (.channel ⟨7, some 0, false, false, false⟩)]

/-- The entries in the order of the lists. -/
def inOrder (c : PeerCache) : Iteration c :=
  { users := c.users.entries, channels := c.channels.entries, communities := c.communities.entries
    chats := c.chats.entries, channelsMin := c.channelsMin.entries, minContexts := c.minContexts.entries
    users_perm := List.Perm.refl _, channels_perm := List.Perm.refl _, communities_perm := List.Perm.refl _
    chats_perm := List.Perm.refl _, channelsMin_perm := List.Perm.refl _, minContexts_perm := List.Perm.refl _ }

/-- It comes back as a min channel. -/
theorem zeroHash_lost : ¬ SameCache zeroHash (inOrder zeroHash).restarted := by
  intro h
  have hin : (7 : Int64) ∈ (inOrder zeroHash).restarted.channelsMin := by decide
  have hout : (7 : Int64) ∉ zeroHash.channelsMin := by decide
  exact hout ((h.channelsMin 7).mpr hin)

end Ferogram.Peers
