import Ferogram.Client.PeerConsistency
import Ferogram.Mtsender.Step

/- The lookups of the peer cache, `user_input_peer` and `channel_input_peer` of
   `ferogram/src/peer_cache.rs`, and `peer_to_input` over them.

   The message that a min user was seen in is kept with the bare id of its container; which
   kind of peer that is, is guessed by asking the channels, the min channels, the chats and the
   users, in this order.

   What is proved: `inputPeer_usable_iff`, when an input peer that was put into the cache comes
   out of it again. -/
namespace Ferogram.Peers
open Mtsender (InvocationError intText)

/-- The flags that the lookups look at. -/
structure Experimental where
  allowZeroHash : Bool
  allowMissingChannelHash : Bool
  deriving DecidableEq

namespace PeerCache

def missingChannelHash (userId peerId : Int64) : InvocationError :=
  .peerNotCached ("min user " ++ intText userId.toInt ++ " was seen in channel " ++ intText peerId.toInt ++
    ", but that channel is only known as a min channel (no access_hash). Resolve the channel first, or enable " ++
    "ExperimentalFeatures::allow_missing_channel_hash.")

def missingContainer (userId peerId : Int64) : InvocationError :=
  .peerNotCached ("min user " ++ intText userId.toInt ++ " was seen in peer " ++ intText peerId.toInt ++
    ", but that peer is not cached (not a known channel, chat, or user). " ++
    "Ensure the containing chat flows through the update loop first.")

def missingUser (userId : Int64) : InvocationError :=
  .peerNotCached ("no access_hash cached for user " ++ intText userId.toInt ++
    ". Ensure at least one message from this user flows through the update loop before using them as a peer, or call " ++
    "client.resolve_peer() first.")

def missingChannel (channelId : Int64) : InvocationError :=
  .peerNotCached ("no access_hash cached for channel " ++ intText channelId.toInt ++
    ". Ensure the channel flows through the update loop before using it as a peer, or call client.resolve_peer() first.")

def missingCommunity (communityId : Int64) : InvocationError :=
  .peerNotCached ("no access_hash cached for community " ++ intText communityId.toInt ++
    ". Ensure the community flows through the update loop before using it as a peer, or call " ++
    "client.resolve_peer() first.")

variable (x : Experimental) (c : PeerCache)

/-- The container of the message that the user was seen in. -/
def container (userId peerId : Int64) : Except InvocationError InputPeer :=
  match AList.lookup peerId c.channels with
  | some (hash, _) => .ok (.channel peerId hash)
  | none =>
    if peerId ∈ c.channelsMin then
      if x.allowMissingChannelHash then .ok (.channel peerId 0) else .error (missingChannelHash userId peerId)
    else if peerId ∈ c.chats then .ok (.chat peerId)
    else match AList.lookup peerId c.users with
      | some hash => .ok (.user peerId hash)
      | none => .error (missingContainer userId peerId)

def userInputPeer (userId : Int64) : Except InvocationError InputPeer :=
  if userId = 0 then .ok .peerSelf
  else match AList.lookup userId c.users with
    | some hash => .ok (.user userId hash)
    | none =>
      match AList.lookup userId c.minContexts with
      | some (peerId, msgId) => (c.container x userId peerId).map fun peer => .userFromMessage peer msgId userId
      | none => if x.allowZeroHash then .ok (.user userId 0) else .error (missingUser userId)

def channelInputPeer (channelId : Int64) : Except InvocationError InputPeer :=
  match AList.lookup channelId c.channels with
  | some (hash, _) => .ok (.channel channelId hash)
  | none => if x.allowZeroHash then .ok (.channel channelId 0) else .error (missingChannel channelId)

/-- A community is addressed like a channel. -/
def communityInputPeer (communityId : Int64) : Except InvocationError InputPeer :=
  match AList.lookup communityId c.communities with
  | some hash => .ok (.channel communityId hash)
  | none => if x.allowZeroHash then .ok (.channel communityId 0) else .error (missingCommunity communityId)

def peerToInput : Peer → Except InvocationError InputPeer
  | .user userId => c.userInputPeer x userId
  | .chat chatId => .ok (.chat chatId)
  | .channel channelId =>
    if channelId ∈ c.channels then c.channelInputPeer x channelId
    else if channelId ∈ c.communities then c.communityInputPeer x channelId
    else c.channelInputPeer x channelId

end PeerCache

/-- The peer that an input peer names. -/
def InputPeer.peer : InputPeer → Option Peer
  | .user userId _ | .userFromMessage _ _ userId => some (.user userId)
  | .channel channelId _ | .channelFromMessage _ _ channelId => some (.channel channelId)
  | .chat chatId => some (.chat chatId)
  | .empty | .peerSelf => none

/-- A peer with a hash, or one that needs none. -/
def Plain : InputPeer → Prop
  | .user _ accessHash | .channel _ accessHash => accessHash ≠ 0
  | .chat _ => True
  | _ => False

/-- What a caller hands to the cache: a plain peer, or a user without a full entry, named by a
message in a plain peer or in the own chat. -/
def Handed (c : PeerCache) : InputPeer → Prop
  | .userFromMessage peer _ userId => (Plain peer ∨ peer = .peerSelf) ∧ userId ∉ c.users
  | ip => Plain ip

/-- It comes out again as it was put in. -/
def Usable (x : Experimental) (c : PeerCache) (ip : InputPeer) : Prop :=
  ∃ peer, ip.peer = some peer ∧ (c.cacheInputPeer ip).peerToInput x peer = .ok ip

/-- The container whose id is not taken for that of another one. -/
def Unmistaken (c : PeerCache) (userId : Int64) : InputPeer → Prop
  | .channel _ _ => True
  | .chat chatId => chatId ∉ c.channels ∧ chatId ∉ c.channelsMin
  | .user peerId _ => peerId ≠ userId ∧ peerId ∉ c.channels ∧ peerId ∉ c.channelsMin ∧ peerId ∉ c.chats
  | _ => False

/-- A user id of zero is that of the own account. -/
def Rebuilt (c : PeerCache) : InputPeer → Prop
  | .user userId _ => userId ≠ 0
  | .userFromMessage peer _ userId => userId ≠ 0 ∧ Unmistaken c userId peer
  | _ => True

namespace PeerCache
variable {x : Experimental} {c : PeerCache}

/-! What was just written. -/

theorem lookup_cacheUser (c : PeerCache) (userId : Int64) {accessHash : Int64} (h : accessHash ≠ 0) :
    AList.lookup userId (c.cacheInputPeer (.user userId accessHash)).users = some accessHash := by
  change AList.lookup userId (Assoc.put (accessHash = 0) userId accessHash c.users) = _
  rw [Assoc.put, if_neg h, AList.lookup_insert]

theorem lookup_cacheChannel (c : PeerCache) (channelId : Int64) {accessHash : Int64} (h : accessHash ≠ 0) :
    ∃ kind, AList.lookup channelId (c.cacheInputPeer (.channel channelId accessHash)).channels = some (accessHash, kind) := by
  rw [cacheInputPeer, if_pos h]
  exact ⟨_, AList.lookup_insert _⟩

theorem userInputPeer_of_lookup {userId accessHash : Int64} (hzero : userId ≠ 0)
    (h : AList.lookup userId c.users = some accessHash) : c.userInputPeer x userId = .ok (.user userId accessHash) := by
  unfold userInputPeer
  rw [if_neg hzero, h]

theorem channelInputPeer_of_lookup {channelId accessHash : Int64} {kind : Option ChannelKind}
    (h : AList.lookup channelId c.channels = some (accessHash, kind)) :
    c.peerToInput x (.channel channelId) = .ok (.channel channelId accessHash) := by
  unfold peerToInput
  dsimp only
  rw [if_pos (Assoc.mem_of_lookup h), channelInputPeer, h]

theorem userInputPeer_zero : c.userInputPeer x 0 = .ok .peerSelf := if_pos rfl

theorem cacheInputPeer_cacheMinPeers (c : PeerCache) (ip : InputPeer) :
    (c.cacheInputPeer ip).cacheMinPeers = c.cacheMinPeers := by
  induction ip with
  | channel channelId accessHash =>
    rw [cacheInputPeer]
    split <;> rfl
  | userFromMessage peer msgId userId ih =>
    rcases cacheInputPeer_userFromMessage c peer msgId userId with h | ⟨peerId, h⟩
    · rw [h, ih]
    · rw [h, putContext]
      split <;> exact ih
  | channelFromMessage peer msgId channelId ih => exact ih
  | _ => rfl

/-- Only a user makes a user known. -/
theorem cacheInputPeer_users (c : PeerCache) (channelId accessHash chatId : Int64) :
    (c.cacheInputPeer (.channel channelId accessHash)).users = c.users ∧ (c.cacheInputPeer (.chat chatId)).users = c.users ∧
      (c.cacheInputPeer .peerSelf).users = c.users := by
  refine ⟨?_, rfl, rfl⟩
  rw [cacheInputPeer]
  split <;> rfl

/-! The container of a message. -/

theorem container_of_channel {userId peerId accessHash : Int64} {kind : Option ChannelKind}
    (h : AList.lookup peerId c.channels = some (accessHash, kind)) :
    c.container x userId peerId = .ok (.channel peerId accessHash) := by
  unfold container
  rw [h]

theorem container_chat_iff {userId chatId : Int64} (h : chatId ∈ c.chats) :
    c.container x userId chatId = .ok (.chat chatId) ↔ chatId ∉ c.channels ∧ chatId ∉ c.channelsMin := by
  unfold container
  cases hchannel : AList.lookup chatId c.channels with
  | some entry => exact iff_of_false (by simp) fun hnone => hnone.1 (Assoc.mem_of_lookup hchannel)
  | none =>
    have hnone : chatId ∉ c.channels := AList.lookup_eq_none.mp hchannel
    by_cases hmin : chatId ∈ c.channelsMin
    · refine iff_of_false ?_ fun hnone => hnone.2 hmin
      dsimp only
      rw [if_pos hmin]
      split <;> simp
    · exact iff_of_true (by rw [if_neg hmin, if_pos h]) ⟨hnone, hmin⟩

theorem container_user_iff {userId peerId accessHash : Int64} (h : AList.lookup peerId c.users = some accessHash) :
    c.container x userId peerId = .ok (.user peerId accessHash) ↔
      peerId ∉ c.channels ∧ peerId ∉ c.channelsMin ∧ peerId ∉ c.chats := by
  unfold container
  cases hchannel : AList.lookup peerId c.channels with
  | some entry => exact iff_of_false (by simp) fun hnone => hnone.1 (Assoc.mem_of_lookup hchannel)
  | none =>
    have hnone : peerId ∉ c.channels := AList.lookup_eq_none.mp hchannel
    dsimp only
    by_cases hmin : peerId ∈ c.channelsMin
    · refine iff_of_false ?_ fun hnone => hnone.2.1 hmin
      rw [if_pos hmin]
      split <;> simp
    · rw [if_neg hmin]
      by_cases hchat : peerId ∈ c.chats
      · rw [if_pos hchat]
        exact iff_of_false (by simp) fun hnone => hnone.2.2 hchat
      · rw [if_neg hchat, h]
        exact iff_of_true rfl ⟨hnone, hmin, hchat⟩

/-- The own chat never comes out as a container. -/
theorem container_ne_peerSelf (userId peerId : Int64) : c.container x userId peerId ≠ .ok .peerSelf := by
  unfold container
  split
  · simp
  · split
    · split <;> simp
    · split
      · simp
      · split <;> simp

/-- A context is noted for the user, and the rest of the cache stays. -/
theorem putContext_eq {userId : Int64} (hmin : c.cacheMinPeers = true) (huser : userId ∉ c.users) (peerId : Int64) (msgId : Int32) :
    c.putContext userId peerId msgId = { c with minContexts := c.minContexts.insert userId (peerId, msgId) } :=
  if_pos ⟨hmin, huser⟩

theorem userInputPeer_putContext {userId : Int64} (hmin : c.cacheMinPeers = true) (huser : userId ∉ c.users)
    (hzero : userId ≠ 0) (peerId : Int64) (msgId : Int32) :
    (c.putContext userId peerId msgId).userInputPeer x userId =
      (c.container x userId peerId).map fun peer => .userFromMessage peer msgId userId := by
  have hnone : AList.lookup userId c.users = none := AList.lookup_eq_none.mpr huser
  rw [putContext_eq hmin huser, userInputPeer, if_neg hzero]
  simp only [hnone, AList.lookup_insert]
  rfl

end PeerCache

section Usable
variable {x : Experimental} {c : PeerCache} {peer : InputPeer} {peerId userId : Int64}
open PeerCache

/-- Where the user is still not known, it comes down to the container. -/
theorem usable_context_iff (hpeer : containerPeerId peer = some peerId) (hmin : c.cacheMinPeers = true)
    (huser : userId ∉ (c.cacheInputPeer peer).users) (msgId : Int32) : Usable x c (.userFromMessage peer msgId userId) ↔
      userId ≠ 0 ∧ (c.cacheInputPeer peer).container x userId peerId = .ok peer := by
  have hcache : c.cacheInputPeer (.userFromMessage peer msgId userId) = (c.cacheInputPeer peer).putContext userId peerId msgId := by
    rw [cacheInputPeer, hpeer]
  have husable : Usable x c (.userFromMessage peer msgId userId) ↔
      ((c.cacheInputPeer peer).putContext userId peerId msgId).userInputPeer x userId = .ok (.userFromMessage peer msgId userId) := by
    rw [← hcache]
    constructor
    · rintro ⟨own, hown, hlook⟩
      obtain rfl := Option.some.inj hown
      exact hlook
    · exact fun hlook => ⟨_, rfl, hlook⟩
  rw [husable]
  by_cases hzero : userId = 0
  · subst hzero
    rw [userInputPeer_zero]
    exact iff_of_false (by simp) fun h => h.1 rfl
  · rw [userInputPeer_putContext ((cacheInputPeer_cacheMinPeers c peer).trans hmin) huser hzero, and_iff_right hzero]
    cases (c.cacheInputPeer peer).container x userId peerId with
    | error err => exact iff_of_false (by simp [Except.map]) (by simp)
    | ok found => simp [Except.map]

/-- A user who is known by now comes out with a hash. -/
theorem not_usable_of_known (hpeer : containerPeerId peer = some peerId) (hmem : userId ∈ (c.cacheInputPeer peer).users)
    (msgId : Int32) : ¬ Usable x c (.userFromMessage peer msgId userId) := by
  have hcache : c.cacheInputPeer (.userFromMessage peer msgId userId) = c.cacheInputPeer peer := by
    rw [cacheInputPeer, hpeer]
    exact if_neg fun h => h.2 hmem
  rintro ⟨own, hown, hlook⟩
  obtain rfl := Option.some.inj hown
  rw [hcache] at hlook
  change (c.cacheInputPeer peer).userInputPeer x userId = _ at hlook
  obtain ⟨hash, hhash⟩ := Assoc.lookup_of_mem hmem
  by_cases hzero : userId = 0
  · subst hzero
    rw [userInputPeer_zero] at hlook
    cases hlook
  · rw [userInputPeer_of_lookup hzero hhash] at hlook
    cases hlook

theorem usable_plain_iff {ip : InputPeer} (h : Plain ip) : Usable x c ip ↔ Rebuilt c ip := by
  cases ip with
  | user userId accessHash =>
    have hlook := lookup_cacheUser c userId h
    by_cases hzero : userId = 0
    · subst hzero
      refine iff_of_false ?_ fun hne => hne rfl
      rintro ⟨own, hown, hself⟩
      obtain rfl := Option.some.inj hown
      change PeerCache.userInputPeer x _ 0 = _ at hself
      rw [userInputPeer_zero] at hself
      cases hself
    · exact iff_of_true ⟨_, rfl, userInputPeer_of_lookup hzero hlook⟩ hzero
  | channel channelId accessHash =>
    obtain ⟨kind, hlook⟩ := lookup_cacheChannel c channelId h
    exact iff_of_true ⟨_, rfl, channelInputPeer_of_lookup hlook⟩ trivial
  | chat chatId => exact iff_of_true ⟨_, rfl, rfl⟩ trivial
  | _ => exact h.elim

/-- **Input peers.** One that was handed to the cache comes out of it again exactly if no user id
is zero, and the container of a message is not taken for another peer; the own chat always is. -/
theorem inputPeer_usable_iff (x : Experimental) (c : PeerCache) (hmin : c.cacheMinPeers = true) (ip : InputPeer)
    (h : Handed c ip) : Usable x c ip ↔ Rebuilt c ip := by
  cases ip with
  | userFromMessage peer msgId userId =>
    obtain ⟨hpeer, huser⟩ := h
    rcases hpeer with hplain | rfl
    · cases peer with
      | user peerId accessHash =>
        have hlook := lookup_cacheUser c peerId hplain
        by_cases hsame : peerId = userId
        · subst hsame
          exact iff_of_false (not_usable_of_known rfl (Assoc.mem_of_lookup hlook) msgId) fun hrebuilt => hrebuilt.2.1 rfl
        · have huser' : userId ∉ (c.cacheInputPeer (.user peerId accessHash)).users := by
            rw [cacheInputPeer]
            exact fun hmem => (Assoc.mem_put.mp hmem).elim (fun heq => hsame heq.symm) huser
          rw [usable_context_iff rfl hmin huser', container_user_iff hlook]
          exact and_congr_right fun _ => (and_iff_right hsame).symm
      | channel channelId accessHash =>
        obtain ⟨kind, hlook⟩ := lookup_cacheChannel c channelId hplain
        have huser' : userId ∉ (c.cacheInputPeer (.channel channelId accessHash)).users := by
          rwa [(cacheInputPeer_users c channelId accessHash 0).1]
        rw [usable_context_iff rfl hmin huser']
        exact and_congr_right fun _ => iff_of_true (container_of_channel hlook) trivial
      | chat chatId =>
        have hmem : chatId ∈ (c.cacheInputPeer (.chat chatId)).chats := (AList.mem_insert c.chats).mpr (Or.inl rfl)
        rw [usable_context_iff rfl hmin huser, container_chat_iff hmem]
        exact Iff.rfl
      | _ => exact hplain.elim
    · rw [usable_context_iff rfl hmin huser]
      exact iff_of_false (fun hself => container_ne_peerSelf userId 0 hself.2) fun hrebuilt => hrebuilt.2
  | user userId accessHash => exact usable_plain_iff h
  | channel channelId accessHash => exact usable_plain_iff h
  | chat chatId => exact usable_plain_iff h
  | _ => exact h.elim

/-- A user in a message of a channel. -/
theorem inChannel_usable : Usable ⟨false, false⟩ (PeerCache.new true) (.userFromMessage (.channel 5 9) 3 7) :=
  (inputPeer_usable_iff ⟨false, false⟩ (PeerCache.new true) rfl (.userFromMessage (.channel 5 9) 3 7)
    ⟨Or.inl (by simp [Plain]), AList.notMem_empty _⟩).mpr ⟨by decide, trivial⟩

end Usable

/-- A message in the own chat, and one in a group whose id a channel has too. -/
theorem container_mistaken :
    ¬ Usable ⟨false, false⟩ (Run.final next (PeerCache.new true) []) (.userFromMessage .peerSelf 3 7) ∧
      ((Run.final next (PeerCache.new true) [.cacheInputPeer (.channel 5 9)]).cacheInputPeer
        (.userFromMessage (.chat 5) 3 7)).userInputPeer ⟨false, false⟩ 7 = .ok (.userFromMessage (.channel 5 9) 3 7) := by
  refine ⟨fun h => ?_, by decide⟩
  have husable := (usable_context_iff rfl rfl (AList.notMem_empty _) 3).mp h
  exact PeerCache.container_ne_peerSelf 7 0 husable.2

end Ferogram.Peers
