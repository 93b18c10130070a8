import Ferogram.Client.PeerCache

/- What is known of a user or channel in full and what is known of it as min are kept in
   two places, and every write has to leave the two apart (`Consistent`) and must not lose
   a hash (`Keeps`).

   All do but three. A channel that an `InputPeerChannelFromMessage` names is marked as
   min without a look at `channels`; a participant's hash is written over whatever is
   there; and the restore of a full record leaves the min entry where it is. `Careful`
   says that a write is in none of these cases, and a run is right in every state exactly
   when all its writes are careful (`peerCache_consistent_iff`). -/
namespace Ferogram.Peers
open Session (CachedPeer CachedMinPeer)

namespace PeerCache

/-- A user with a hash that is not zero. -/
def UserHash (c : PeerCache) (id : Int64) : Prop := ∃ hash, AList.lookup id c.users = some hash ∧ hash ≠ 0

/-- A channel with a hash that is not zero. -/
def ChannelHash (c : PeerCache) (id : Int64) : Prop :=
  ∃ hash kind, AList.lookup id c.channels = some (hash, kind) ∧ hash ≠ 0

/-- No channel is also a min channel. -/
def ChannelsApart (c : PeerCache) : Prop := ∀ id, id ∈ c.channels → id ∉ c.channelsMin

/-- No user with a hash also has the context of a min user. -/
def UsersApart (c : PeerCache) : Prop := ∀ id, c.UserHash id → id ∉ c.minContexts

structure Consistent (c : PeerCache) : Prop where
  channels : c.ChannelsApart
  users : c.UsersApart

end PeerCache

/-- No hash is replaced by zero or removed, unless the peer is invalidated. -/
structure Keeps (c : PeerCache) (op : Op) : Prop where
  users : ∀ id, c.UserHash id → op ≠ .invalidatePeer (.user id) → (next c op).UserHash id
  channels : ∀ id, c.ChannelHash id → op ≠ .invalidatePeer (.channel id) → (next c op).ChannelHash id

/-! When a write is careful. -/

namespace InputPeer

/-- The channels that the references to messages mark as min. -/
def markedMin : InputPeer → List Int64
  | .channelFromMessage peer _ channelId => channelId :: peer.markedMin
  | .userFromMessage peer _ _ => peer.markedMin
  | _ => []

/-- The channel at the bottom of the references, if it is one. -/
def fullChannel : InputPeer → Option Int64
  | .channelFromMessage peer _ _ => peer.fullChannel
  | .userFromMessage peer _ _ => peer.fullChannel
  | .channel channelId _ => some channelId
  | _ => none

end InputPeer

/-- The cases in which a write goes wrong are left out: a reference to a channel in a
message where the channel is known, or is the container itself; a participant with hash
zero where a hash is stored, or with a hash where a context is; and a session that has a
full record of a channel known as min, by the cache or by a record that comes first, or a
hash of a user of whom a context is stored. -/
def Careful (c : PeerCache) : Op → Prop
  | .cacheInputPeer ip => ∀ id ∈ ip.markedMin, id ∉ c.channels ∧ ip.fullChannel ≠ some id
  | .cacheParticipant u =>
    ∀ hash, u.accessHash = some hash → if hash = 0 then ¬ c.UserHash u.id else u.id ∉ c.minContexts
  | .restore peers _ =>
    (∀ id, id ∉ c.channels → (peers.findSome? (fullRecord id)).isSome = true →
      id ∉ c.channelsMin ∧ firstChannel id peers ≠ some 0) ∧
    ∀ id hash, id ∉ c.users → firstUser id peers = some hash → hash ≠ 0 → id ∉ c.minContexts
  | _ => True

/-! The writes that are always right. -/

namespace PeerCache

/-- From one state to the other nothing is mixed up and no hash is lost. -/
structure Safe (c c' : PeerCache) : Prop where
  channels : c.ChannelsApart → c'.ChannelsApart
  users : c.UsersApart → c'.UsersApart
  userHash : ∀ id, c.UserHash id → c'.UserHash id
  channelHash : ∀ id, c.ChannelHash id → c'.ChannelHash id

theorem Safe.refl (c : PeerCache) : Safe c c := ⟨fun h => h, fun h => h, fun _ h => h, fun _ h => h⟩

theorem putUser_safe (c : PeerCache) (id hash : Int64) : Safe c (c.putUser id hash) where
  channels := fun h => h
  users := by
    intro h k hk hmem
    obtain ⟨hne, hmem⟩ := AList.mem_erase.mp hmem
    obtain ⟨hash', hlook, hhash⟩ := hk
    exact h k ⟨hash', (Assoc.lookup_put_ne hne hash c.users).symm.trans hlook, hhash⟩ hmem
  userHash := by
    rintro k ⟨hash', hlook, hhash⟩
    by_cases hk : k = id
    · obtain rfl := hk
      rcases Assoc.lookup_put_self (hash = 0) k hash c.users with ⟨hne, heq⟩ | ⟨-, heq⟩
      · exact ⟨hash, heq, hne⟩
      · exact ⟨hash', by rw [putUser, heq, hlook, Option.some_or], hhash⟩
    · exact ⟨hash', (Assoc.lookup_put_ne hk hash c.users).trans hlook, hhash⟩
  channelHash := fun _ h => h

/-- A channel that is written in full is no min channel any more. -/
theorem writeChannel_safe {c : PeerCache} {id : Int64} {channels : Assoc Int64 (Int64 × Option ChannelKind)}
    (hother : ∀ k, k ≠ id → AList.lookup k channels = AList.lookup k c.channels)
    (hself : c.ChannelHash id → ∃ hash kind, AList.lookup id channels = some (hash, kind) ∧ hash ≠ 0) :
    Safe c { c with channels := channels, channelsMin := c.channelsMin.erase id } where
  channels := by
    intro h k hk hmem
    obtain ⟨hne, hmem⟩ := AList.mem_erase.mp hmem
    have hin : k ∈ c.channels := by
      rw [← AList.lookup_isSome, ← hother k hne, AList.lookup_isSome]
      exact hk
    exact h k hin hmem
  users := fun h => h
  userHash := fun _ h => h
  channelHash := by
    rintro k ⟨hash, kind, hlook, hhash⟩
    by_cases hk : k = id
    · obtain rfl := hk
      exact hself ⟨hash, kind, hlook, hhash⟩
    · exact ⟨hash, kind, (hother k hk).trans hlook, hhash⟩

theorem putChannel_safe (c : PeerCache) (id hash : Int64) (kind : Option ChannelKind) : Safe c (c.putChannel id hash kind) := by
  apply writeChannel_safe
  · intro k hk
    exact Assoc.lookup_put_ne hk (hash, kind) c.channels
  · rintro ⟨hash', kind', hlook, hhash⟩
    rcases Assoc.lookup_put_self (hash = 0) id (hash, kind) c.channels with ⟨hne, heq⟩ | ⟨-, heq⟩
    · exact ⟨hash, kind, heq, hne⟩
    · exact ⟨hash', kind', by rw [heq, hlook, Option.some_or], hhash⟩

theorem putCommunity_safe (c : PeerCache) (id hash : Int64) : Safe c (c.putCommunity id hash) :=
  ⟨fun h => h, fun h => h, fun _ h => h, fun _ h => h⟩

theorem putChat_safe (c : PeerCache) (id : Int64) : Safe c (c.putChat id) :=
  ⟨fun h => h, fun h => h, fun _ h => h, fun _ h => h⟩

theorem UserHash.mem {c : PeerCache} {id : Int64} : c.UserHash id → id ∈ c.users := by
  rintro ⟨hash, hlook, -⟩
  exact Assoc.mem_of_lookup hlook

theorem putContext_safe (c : PeerCache) (userId peerId : Int64) (msgId : Int32) :
    Safe c (c.putContext userId peerId msgId) := by
  unfold putContext
  split
  · next h =>
    refine ⟨fun h => h, ?_, fun _ h => h, fun _ h => h⟩
    intro hapart k hk hmem
    rcases (AList.mem_insert _).mp hmem with rfl | hmem
    · exact h.2 (UserHash.mem (c := c) hk)
    · exact hapart k hk hmem
  · exact Safe.refl c

theorem putMinChannel_safe (c : PeerCache) (id : Int64) : Safe c (c.putMinChannel id) where
  channels := by
    intro hapart k hk hmem
    rw [putMinChannel_channels] at hk
    rcases mem_putMinChannel.mp hmem with hmem | ⟨rfl, hnot⟩
    · exact hapart k hk hmem
    · exact hnot hk
  users := by
    intro hapart k hk
    rw [UserHash, putMinChannel_users] at hk
    rw [putMinChannel_minContexts]
    exact hapart k hk
  userHash := by
    intro k hk
    rw [UserHash, putMinChannel_users]
    exact hk
  channelHash := by
    intro k hk
    rw [ChannelHash, putMinChannel_channels]
    exact hk

theorem registerSeen_safe (c : PeerCache) (id : Int64) : Safe c (c.registerSeen id) := by
  unfold registerSeen
  split
  · next h =>
    have hput : c.putMinChannel id = { c with channelsMin := c.channelsMin.insert id () } := if_neg h.1
    rw [← hput]
    exact putMinChannel_safe c id
  · exact Safe.refl c

theorem cacheUser_safe (c : PeerCache) (user : User) : Safe c (c.cacheUser user) := by
  cases user with
  | empty id => exact Safe.refl c
  | user u =>
    rw [cacheUser]
    split
    · exact Safe.refl c
    · cases u.accessHash with
      | none => exact Safe.refl c
      | some hash => exact putUser_safe c u.id hash

theorem cacheUserWithContext_safe (c : PeerCache) (user : User) (peerId : Int64) (msgId : Int32) :
    Safe c (c.cacheUserWithContext user peerId msgId) := by
  cases user with
  | empty id => exact Safe.refl c
  | user u =>
    rw [cacheUserWithContext]
    split
    · exact putContext_safe c u.id peerId msgId
    · cases u.accessHash with
      | none => exact Safe.refl c
      | some hash => exact putUser_safe c u.id hash

theorem cacheChat_safe (c : PeerCache) (chat : Chat) : Safe c (c.cacheChat chat) := by
  cases chat with
  | empty id => exact Safe.refl c
  | chat id => exact putChat_safe c id
  | forbidden id => exact putChat_safe c id
  | channel ch =>
    rw [cacheChat]
    split
    · exact putMinChannel_safe c ch.id
    · cases ch.accessHash with
      | none => exact Safe.refl c
      | some hash => exact putChannel_safe c ch.id hash (some ch.kind)
  | channelForbidden id hash => exact putChannel_safe c id hash (some .broadcast)
  | community id hash min =>
    cases min with
    | true => exact Safe.refl c
    | false =>
      cases hash with
      | none => exact Safe.refl c
      | some hash => exact putCommunity_safe c id hash
  | communityForbidden id hash =>
    cases hash with
    | none => exact Safe.refl c
    | some hash => exact putCommunity_safe c id hash

/-! Input peers: the references to messages are peeled off one by one. -/

theorem cacheInputPeer_userFromMessage (c : PeerCache) (peer : InputPeer) (msgId : Int32) (userId : Int64) :
    c.cacheInputPeer (.userFromMessage peer msgId userId) = c.cacheInputPeer peer ∨
    ∃ peerId, c.cacheInputPeer (.userFromMessage peer msgId userId) =
      (c.cacheInputPeer peer).putContext userId peerId msgId := by
  rw [cacheInputPeer]
  cases containerPeerId peer with
  | none => exact Or.inl rfl
  | some peerId => exact Or.inr ⟨peerId, rfl⟩

theorem cacheInputPeer_user_safe (c : PeerCache) (peer : InputPeer) (msgId : Int32) (userId : Int64) :
    Safe (c.cacheInputPeer peer) (c.cacheInputPeer (.userFromMessage peer msgId userId)) := by
  rcases cacheInputPeer_userFromMessage c peer msgId userId with h | ⟨peerId, h⟩
  · rw [h]
    exact Safe.refl _
  · rw [h]
    exact putContext_safe _ userId peerId msgId

theorem cacheInputPeer_channel_safe (c : PeerCache) (id hash : Int64) : Safe c (c.cacheInputPeer (.channel id hash)) := by
  by_cases h : hash = 0
  · have heq : c.cacheInputPeer (.channel id hash) =
        { c with channels := Assoc.orInsert id (0, none) c.channels, channelsMin := c.channelsMin.erase id } := by
      rw [cacheInputPeer, if_neg (by simp [h])]
    rw [heq]
    apply writeChannel_safe
    · intro k hk
      rw [Assoc.lookup_orInsert, if_neg hk, Option.or_none]
    · rintro ⟨hash', kind, hlook, hhash⟩
      exact ⟨hash', kind, by rw [Assoc.lookup_orInsert, hlook, Option.some_or], hhash⟩
  · rw [cacheInputPeer, if_pos h]
    apply writeChannel_safe
    · intro k hk
      exact AList.lookup_insert_ne hk
    · intro _
      exact ⟨hash, _, AList.lookup_insert _, h⟩

/-- The users are safe, whatever the references mark, and no hash is lost. -/
theorem cacheInputPeer_keeps (c : PeerCache) (ip : InputPeer) :
    (c.UsersApart → (c.cacheInputPeer ip).UsersApart) ∧ (∀ id, c.UserHash id → (c.cacheInputPeer ip).UserHash id) ∧
    ∀ id, c.ChannelHash id → (c.cacheInputPeer ip).ChannelHash id := by
  induction ip with
  | empty => exact ⟨fun h => h, fun _ h => h, fun _ h => h⟩
  | peerSelf => exact ⟨fun h => h, fun _ h => h, fun _ h => h⟩
  | chat id => exact ⟨fun h => h, fun _ h => h, fun _ h => h⟩
  | user id hash =>
    have h := putUser_safe c id hash
    exact ⟨h.users, h.userHash, h.channelHash⟩
  | channel id hash =>
    have h := cacheInputPeer_channel_safe c id hash
    exact ⟨h.users, h.userHash, h.channelHash⟩
  | userFromMessage peer msgId userId ih =>
    have h := cacheInputPeer_user_safe c peer msgId userId
    exact ⟨fun hc => h.users (ih.1 hc), fun id hid => h.userHash id (ih.2.1 id hid),
      fun id hid => h.channelHash id (ih.2.2 id hid)⟩
  | channelFromMessage peer msgId channelId ih => exact ih

theorem putContext_channels (c : PeerCache) (userId peerId : Int64) (msgId : Int32) :
    (c.putContext userId peerId msgId).channels = c.channels ∧
    (c.putContext userId peerId msgId).channelsMin = c.channelsMin := by
  unfold putContext
  split <;> exact ⟨rfl, rfl⟩

theorem cacheInputPeer_user_channels (c : PeerCache) (peer : InputPeer) (msgId : Int32) (userId : Int64) :
    (c.cacheInputPeer (.userFromMessage peer msgId userId)).channels = (c.cacheInputPeer peer).channels ∧
    (c.cacheInputPeer (.userFromMessage peer msgId userId)).channelsMin = (c.cacheInputPeer peer).channelsMin := by
  rcases cacheInputPeer_userFromMessage c peer msgId userId with h | ⟨peerId, h⟩
  · rw [h]
    exact ⟨rfl, rfl⟩
  · rw [h]
    exact putContext_channels _ userId peerId msgId

theorem mem_cacheInputPeer_channels (c : PeerCache) (ip : InputPeer) (k : Int64) :
    k ∈ (c.cacheInputPeer ip).channels ↔ k ∈ c.channels ∨ ip.fullChannel = some k := by
  induction ip with
  | channel id hash =>
    by_cases h : hash = 0
    · simp [cacheInputPeer, h, Assoc.mem_orInsert, InputPeer.fullChannel, eq_comm (a := k), or_comm]
    · simp [cacheInputPeer, h, InputPeer.fullChannel, eq_comm (a := k), or_comm]
  | userFromMessage peer msgId userId ih => rw [(cacheInputPeer_user_channels c peer msgId userId).1, ih, InputPeer.fullChannel]
  | channelFromMessage peer msgId channelId ih => exact ih
  | _ => simp [cacheInputPeer, putUser, putChat, InputPeer.fullChannel]

theorem mem_cacheInputPeer_channelsMin (c : PeerCache) (ip : InputPeer) (k : Int64) :
    k ∈ (c.cacheInputPeer ip).channelsMin ↔
      (k ∈ c.channelsMin ∧ ip.fullChannel ≠ some k) ∨ k ∈ ip.markedMin := by
  induction ip with
  | channel id hash =>
    by_cases h : hash = 0
    · simp [cacheInputPeer, h, InputPeer.fullChannel, InputPeer.markedMin, eq_comm (a := k), and_comm]
    · simp [cacheInputPeer, h, InputPeer.fullChannel, InputPeer.markedMin, eq_comm (a := k), and_comm]
  | userFromMessage peer msgId userId ih =>
    rw [(cacheInputPeer_user_channels c peer msgId userId).2, ih, InputPeer.fullChannel, InputPeer.markedMin]
  | channelFromMessage peer msgId channelId ih =>
    rw [cacheInputPeer, AList.mem_insert, ih, InputPeer.fullChannel, InputPeer.markedMin, List.mem_cons]
    tauto
  | _ => simp [cacheInputPeer, putUser, putChat, InputPeer.fullChannel, InputPeer.markedMin]

theorem cacheInputPeer_iff {c : PeerCache} (hc : c.Consistent) (ip : InputPeer) :
    (c.cacheInputPeer ip).Consistent ↔ ∀ id ∈ ip.markedMin, id ∉ c.channels ∧ ip.fullChannel ≠ some id := by
  constructor
  · intro h id hid
    have hmin : id ∈ (c.cacheInputPeer ip).channelsMin := (mem_cacheInputPeer_channelsMin c ip id).mpr (Or.inr hid)
    have hnot : id ∉ (c.cacheInputPeer ip).channels := fun hin => h.channels id hin hmin
    rw [mem_cacheInputPeer_channels, not_or] at hnot
    exact hnot
  · intro h
    refine ⟨?_, (cacheInputPeer_keeps c ip).1 hc.users⟩
    intro id hin hmin
    rcases (mem_cacheInputPeer_channelsMin c ip id).mp hmin with ⟨hmin, hfull⟩ | hmarked
    · rcases (mem_cacheInputPeer_channels c ip id).mp hin with hin | hin
      · exact hc.channels id hin hmin
      · exact hfull hin
    · rcases (mem_cacheInputPeer_channels c ip id).mp hin with hin | hin
      · exact (h id hmarked).1 hin
      · exact (h id hmarked).2 hin

/-! Participants. -/

theorem userHash_insert {c : PeerCache} {id hash k : Int64} :
    UserHash { c with users := c.users.insert id hash } k ↔ if k = id then hash ≠ 0 else c.UserHash k := by
  unfold UserHash
  rw [Assoc.lookup_insert_if]
  by_cases hk : k = id
  · simp [hk]
  · simp [hk]

theorem cacheParticipant_iff {c : PeerCache} (hc : c.Consistent) (u : UserData) :
    (c.cacheParticipant u).Consistent ∧ (∀ id, c.UserHash id → (c.cacheParticipant u).UserHash id) ↔
      ∀ hash, u.accessHash = some hash → if hash = 0 then ¬ c.UserHash u.id else u.id ∉ c.minContexts := by
  unfold cacheParticipant
  cases u.accessHash with
  | none => simp [hc]
  | some hash =>
    simp only [Option.some.injEq, forall_eq']
    constructor
    · rintro ⟨hconsistent, hkept⟩
      split
      · next hzero =>
        intro hid
        have hself := userHash_insert.mp (hkept u.id hid)
        rw [if_pos rfl] at hself
        exact hself hzero
      · next hne =>
        exact hconsistent.users u.id (userHash_insert.mpr (by rw [if_pos rfl]; exact hne))
    · intro h
      refine ⟨⟨hc.channels, ?_⟩, ?_⟩
      · intro k hk
        rw [userHash_insert] at hk
        split at hk
        · next heq =>
          rw [if_neg hk] at h
          rw [heq]
          exact h
        · exact hc.users k hk
      · intro k hk
        rw [userHash_insert]
        split
        · next heq =>
          intro hzero
          rw [if_pos hzero] at h
          exact h (heq ▸ hk)
        · exact hk

/-! The restore. -/

section Restore
variable (c : PeerCache) (peers : List CachedPeer) (minPeers : List CachedMinPeer)

/-- What a restore that has peers does. -/
theorem restore_of_ne_nil (h : peers ≠ []) :
    c.restore peers minPeers = minPeers.foldl restoreMinPeer (peers.foldl restorePeer c) := by
  rw [restore, if_neg (by simp [h])]

theorem userHash_restored (h : peers ≠ []) (id : Int64) : (c.restore peers minPeers).UserHash id ↔
    c.UserHash id ∨ (id ∉ c.users ∧ ∃ hash, firstUser id peers = some hash ∧ hash ≠ 0) := by
  unfold UserHash
  rw [restore_of_ne_nil c peers minPeers h, restoreMinPeers_eq, restorePeers_users, ← AList.lookup_eq_none]
  cases AList.lookup id c.users with
  | none => simp
  | some hash => simp

theorem mem_minContexts_restored (h : peers ≠ []) {id : Int64} (hid : (c.restore peers minPeers).UserHash id) :
    id ∈ (c.restore peers minPeers).minContexts ↔ id ∈ c.minContexts := by
  have hmem : id ∈ (peers.foldl restorePeer c).users := by
    have hin := UserHash.mem hid
    rw [restore_of_ne_nil c peers minPeers h, restoreMinPeers_eq] at hin
    exact hin
  rw [restore_of_ne_nil c peers minPeers h, ← AList.lookup_isSome, restoreMinPeers_minContexts, if_pos hmem,
    restorePeers_minContexts, AList.lookup_isSome]

theorem usersApart_restored (h : peers ≠ []) (hc : c.UsersApart) : (c.restore peers minPeers).UsersApart ↔
    ∀ id hash, id ∉ c.users → firstUser id peers = some hash → hash ≠ 0 → id ∉ c.minContexts := by
  constructor
  · intro hapart id hash hnot hfirst hne hmem
    have hid : (c.restore peers minPeers).UserHash id :=
      (userHash_restored c peers minPeers h id).mpr (Or.inr ⟨hnot, hash, hfirst, hne⟩)
    exact hapart id hid ((mem_minContexts_restored c peers minPeers h hid).mpr hmem)
  · intro hrecords id hid hmem
    rw [mem_minContexts_restored c peers minPeers h hid] at hmem
    rcases (userHash_restored c peers minPeers h id).mp hid with hold | ⟨hnot, hash, hfirst, hne⟩
    · exact hc id hold hmem
    · exact hrecords id hash hnot hfirst hne hmem

theorem mem_channels_restored (h : peers ≠ []) (id : Int64) : id ∈ (c.restore peers minPeers).channels ↔
    id ∈ c.channels ∨ (peers.findSome? (fullRecord id)).isSome = true := by
  rw [restore_of_ne_nil c peers minPeers h, restoreMinPeers_eq, ← AList.lookup_isSome, ← AList.lookup_isSome,
    restorePeers_channels, Option.isSome_or, Bool.or_eq_true]

theorem mem_channelsMin_restored (h : peers ≠ []) (id : Int64) : id ∈ (c.restore peers minPeers).channelsMin ↔
    id ∈ c.channelsMin ∨ (id ∉ c.channels ∧ firstChannel id peers = some 0) := by
  rw [restore_of_ne_nil c peers minPeers h, restoreMinPeers_eq]
  exact restorePeers_channelsMin c peers id

theorem channelsApart_restored (h : peers ≠ []) (hc : c.ChannelsApart) : (c.restore peers minPeers).ChannelsApart ↔
    ∀ id, id ∉ c.channels → (peers.findSome? (fullRecord id)).isSome = true →
      id ∉ c.channelsMin ∧ firstChannel id peers ≠ some 0 := by
  unfold ChannelsApart
  simp only [mem_channels_restored c peers minPeers h, mem_channelsMin_restored c peers minPeers h]
  constructor
  · intro hapart id hnot hfull
    have hmin := hapart id (Or.inr hfull)
    rw [not_or] at hmin
    exact ⟨hmin.1, fun hfirst => hmin.2 ⟨hnot, hfirst⟩⟩
  · rintro hrecords id hin (hmin | ⟨hnot, hfirst⟩)
    · by_cases hold : id ∈ c.channels
      · exact hc id hold hmin
      · exact (hrecords id hold (hin.resolve_left hold)).1 hmin
    · exact (hrecords id hnot (hin.resolve_left hnot)).2 hfirst

theorem channelHash_restored {id : Int64} (hid : c.ChannelHash id) : (c.restore peers minPeers).ChannelHash id := by
  obtain ⟨hash, kind, hlook, hne⟩ := hid
  by_cases h : peers = []
  · rw [h]
    exact ⟨hash, kind, hlook, hne⟩
  · refine ⟨hash, kind, ?_, hne⟩
    rw [restore_of_ne_nil c peers minPeers h, restoreMinPeers_eq, restorePeers_channels, hlook, Option.some_or]

end Restore

/-! Invalidation. -/

theorem invalidatePeer_consistent {c : PeerCache} (hc : c.Consistent) (peer : Peer) : (c.invalidatePeer peer).Consistent := by
  cases peer with
  | user userId =>
    refine ⟨hc.channels, ?_⟩
    rintro k ⟨hash, hlook, hne⟩ hmem
    obtain ⟨hk, hmem⟩ := AList.mem_erase.mp hmem
    exact hc.users k ⟨hash, (AList.lookup_erase_ne hk).symm.trans hlook, hne⟩ hmem
  | channel channelId =>
    refine ⟨?_, hc.users⟩
    intro k hin hmem
    exact hc.channels k (AList.mem_erase.mp hin).2 (AList.mem_erase.mp hmem).2
  | chat chatId => exact hc

end PeerCache
open PeerCache

theorem keeps_invalidatePeer (c : PeerCache) (peer : Peer) : Keeps c (.invalidatePeer peer) where
  users := by
    rintro id ⟨hash, hlook, hne⟩ hop
    cases peer with
    | user userId =>
      have hid : id ≠ userId := fun heq => hop (by rw [heq])
      exact ⟨hash, (AList.lookup_erase_ne hid).trans hlook, hne⟩
    | channel channelId => exact ⟨hash, hlook, hne⟩
    | chat chatId => exact ⟨hash, hlook, hne⟩
  channels := by
    rintro id ⟨hash, kind, hlook, hne⟩ hop
    cases peer with
    | user userId => exact ⟨hash, kind, hlook, hne⟩
    | channel channelId =>
      have hid : id ≠ channelId := fun heq => hop (by rw [heq])
      exact ⟨hash, kind, (AList.lookup_erase_ne hid).trans hlook, hne⟩
    | chat chatId => exact ⟨hash, kind, hlook, hne⟩

/-- A safe write is right, whatever the state. -/
theorem next_of_safe {c : PeerCache} {op : Op} (hc : c.Consistent) (h : Safe c (next c op)) :
    (next c op).Consistent ∧ Keeps c op :=
  ⟨⟨h.channels hc.channels, h.users hc.users⟩, ⟨fun id hid _ => h.userHash id hid, fun id hid _ => h.channelHash id hid⟩⟩

/-- One write from a consistent state. -/
theorem next_iff {c : PeerCache} (hc : c.Consistent) (op : Op) :
    (next c op).Consistent ∧ Keeps c op ↔ Careful c op := by
  cases op with
  | cacheUser user => exact iff_of_true (next_of_safe hc (cacheUser_safe c user)) trivial
  | cacheUserWithContext user peerId msgId =>
    exact iff_of_true (next_of_safe hc (cacheUserWithContext_safe c user peerId msgId)) trivial
  | cacheChat chat => exact iff_of_true (next_of_safe hc (cacheChat_safe c chat)) trivial
  | registerSeen id => exact iff_of_true (next_of_safe hc (registerSeen_safe c id)) trivial
  | invalidatePeer peer =>
    exact iff_of_true ⟨invalidatePeer_consistent hc peer, keeps_invalidatePeer c peer⟩ trivial
  | cacheInputPeer ip =>
    have hkeeps := cacheInputPeer_keeps c ip
    constructor
    · exact fun h => (cacheInputPeer_iff hc ip).mp h.1
    · exact fun h => ⟨(cacheInputPeer_iff hc ip).mpr h,
        ⟨fun id hid _ => hkeeps.2.1 id hid, fun id hid _ => hkeeps.2.2 id hid⟩⟩
  | cacheParticipant u =>
    have hchannels : ∀ id, c.ChannelHash id → (c.cacheParticipant u).ChannelHash id := by
      intro id hid
      unfold cacheParticipant
      split <;> exact hid
    constructor
    · exact fun h => (cacheParticipant_iff hc u).mp ⟨h.1, fun id hid => h.2.users id hid (by simp)⟩
    · intro h
      obtain ⟨hconsistent, husers⟩ := (cacheParticipant_iff hc u).mpr h
      exact ⟨hconsistent, ⟨fun id hid _ => husers id hid, fun id hid _ => hchannels id hid⟩⟩
  | restore peers minPeers =>
    by_cases hpeers : peers = []
    · obtain rfl := hpeers
      have hcareful : Careful c (.restore [] minPeers) := by
        refine ⟨fun id _ hfull => ?_, fun id hash _ hfirst => ?_⟩
        · cases hfull
        · cases hfirst
      exact iff_of_true (next_of_safe hc (Safe.refl c)) hcareful
    · have hchannels := channelsApart_restored c peers minPeers hpeers hc.channels
      have husers := usersApart_restored c peers minPeers hpeers hc.users
      constructor
      · exact fun h => ⟨hchannels.mp h.1.channels, husers.mp h.1.users⟩
      · intro h
        refine ⟨⟨hchannels.mpr h.1, husers.mpr h.2⟩, ⟨?_, ?_⟩⟩
        · exact fun id hid _ => (userHash_restored c peers minPeers hpeers id).mpr (Or.inl hid)
        · exact fun id hid _ => channelHash_restored c peers minPeers hid

theorem new_consistent (cacheMinPeers : Bool) : (new cacheMinPeers).Consistent where
  channels := fun _ hin => absurd hin (AList.notMem_empty _)
  users := fun _ _ => AList.notMem_empty _

/-- **The peer cache.** A run from the empty cache stays consistent and loses no hash exactly
when each of its writes is careful. -/
theorem peerCache_consistent_iff (cacheMinPeers : Bool) (ops : List Op) :
    (∀ c ∈ Run.states next (new cacheMinPeers) ops, c.Consistent) ∧ Run.AllSteps next Keeps (new cacheMinPeers) ops ↔
      Run.AllSteps next Careful (new cacheMinPeers) ops := by
  have h := Run.states_allSteps_iff next (P := Consistent) (fun _ op hc => next_iff hc op) ops (new cacheMinPeers)
  rw [and_iff_right (new_consistent cacheMinPeers)] at h
  exact h

/-- A channel cached with its hash, then named by a reference to a message in a group. -/
def knownThenReferenced : List Op :=
  [.cacheChat (.channel ⟨7, some 5, false, true, false⟩), .cacheInputPeer (.channelFromMessage (.chat 3) 1 7)]

theorem knownThenReferenced_mixed :
    ¬ ((∀ c ∈ Run.states next (new false) knownThenReferenced, c.Consistent) ∧
      Run.AllSteps next Keeps (new false) knownThenReferenced) := by
  rintro ⟨hstates, -⟩
  have hfinal := hstates _ (Run.final_mem_states next knownThenReferenced (new false))
  have hin : (7 : Int64) ∈ (Run.final next (new false) knownThenReferenced).channels := by decide
  have hmin : (7 : Int64) ∈ (Run.final next (new false) knownThenReferenced).channelsMin := by decide
  exact hfinal.channels 7 hin hmin

end Ferogram.Peers
