import Ferogram.Lib.Run
import Ferogram.Session.Sqlite
import Ferogram.Session.StringRoundTrip

/- The session backends as stores (`SessionBackend`, `InMemoryBackend`, `BinaryFileBackend`,
   `StringSessionBackend` and the granular overrides of `SqliteBackend` in
   `ferogram-session/src/lib.rs`).

   The trait's default methods load, change and save; a backend that has no more than
   those three is a `SnapshotBackend`: the file, which keeps the bytes of the format, and the
   string, which has them in base64. The in-memory backend changes its session in place.
   The SQLite backend sends one statement for each call. `next` of each is one call of a
   run, and a run starts from an empty store.

   The defaults and the in-memory backend look a DC up by its id and address family, and
   SQLite by its id and flags; they create a session with the first call of any kind, and
   SQLite has one only once `meta` has a row; SQLite refuses two rows with one key; and the
   format of the file and the string has fields of a limited size. Where no call of a run
   meets one of these differences (`Agreeable`, `Roomy`), all load the same session
   (`backends_agree`). -/
namespace Ferogram.Session
open Sql

/-! The changes of a session. -/

/-- Replace the first that matches, or append. -/
def replaceOrPush {α : Type} (p : α → Bool) (a : α) : List α → List α
  | [] => [a]
  | x :: xs => if p x then a :: xs else x :: replaceOrPush p a xs

/-- `flags.contains(DcFlags::IPV6)`. -/
def DcEntry.isIpv6 (d : DcEntry) : Bool := d.flags.bits &&& 1 == 1

/-- The entries that `update_dc` takes for the same DC. -/
def sameDc (entry d : DcEntry) : Bool := d.dcId == entry.dcId && d.isIpv6 == entry.isIpv6

inductive UpdateStateChange where
  | all (snap : UpdatesStateSnap)
  | primary (pts date seq : Int32)
  | secondary (qts : Int32)
  | channel (id : Int64) (pts : Int32)
  deriving DecidableEq, Repr

def UpdateStateChange.applyTo : UpdateStateChange → UpdatesStateSnap → UpdatesStateSnap
  | .all snap, _ => snap
  | .primary pts date seq, snap => { snap with pts := pts, date := date, seq := seq }
  | .secondary qts, snap => { snap with qts := qts }
  | .channel id pts, snap => { snap with channels := replaceOrPush (fun c => c.1 == id) (id, pts) snap.channels }

/-- The calls of the trait that change a store. -/
inductive Call where
  | save (s : PersistedSession)
  | delete
  | updateDc (entry : DcEntry)
  | setHomeDc (dcId : Int32)
  | applyUpdateState (update : UpdateStateChange)
  | cachePeer (peer : CachedPeer)
  deriving DecidableEq

namespace PersistedSession

def updateDc (s : PersistedSession) (entry : DcEntry) : PersistedSession :=
  { s with dcs := replaceOrPush (sameDc entry) entry s.dcs }

def setHomeDc (s : PersistedSession) (dcId : Int32) : PersistedSession := { s with homeDcId := dcId }

def applyUpdateState (s : PersistedSession) (update : UpdateStateChange) : PersistedSession :=
  { s with updatesState := update.applyTo s.updatesState }

def cachePeer (s : PersistedSession) (peer : CachedPeer) : PersistedSession :=
  { s with peers := replaceOrPush (fun p => p.id == peer.id) peer s.peers }

/-- What a granular call does to the session. -/
def change (s : PersistedSession) : Call → PersistedSession
  | .updateDc entry => s.updateDc entry
  | .setHomeDc dcId => s.setHomeDc dcId
  | .applyUpdateState update => s.applyUpdateState update
  | .cachePeer peer => s.cachePeer peer
  | .save _ | .delete => s

end PersistedSession

/-! The three backends. -/

/-- A backend with `save`, `load` and `delete` and the default methods. A load may change what is stored.
What is read back is a session that fits the format. -/
structure SnapshotBackend (σ ε : Type) where
  empty : σ
  save : PersistedSession → σ → σ
  delete : σ → σ
  load : σ → Except ε (Option PersistedSession) × σ
  load_empty : (load empty).1 = .ok none
  load_save : ∀ s x, Fits s → (load (save s x)).1 = .ok (some s)
  load_delete : ∀ x, (load (delete x)).1 = .ok none

/-- `load()?.unwrap_or_default()`, the change, `save(&s)`. -/
def SnapshotBackend.next {σ ε : Type} (b : SnapshotBackend σ ε) (x : σ) : Call → σ
  | .save s => b.save s x
  | .delete => b.delete x
  | call =>
    match b.load x with
    | (.ok s, x) => b.save ((s.getD .default).change call) x
    | (.error _, x) => x

/-- `BinaryFileBackend`: the bytes of the file, if there is one. A file that cannot be read is moved away. -/
def binaryFile : SnapshotBackend (Option (List UInt8)) SessionError where
  empty := none
  save s _ := some s.toBytes
  delete _ := none
  load
    | none => (.ok none, none)
    | some bytes =>
      match PersistedSession.fromBytes bytes with
      | .ok s => (.ok (some s), some bytes)
      | .error _ => (.ok none, none)
  load_empty := rfl
  load_save s _ h := by
    dsimp only
    rw [(fromBytes_toBytes_iff s).mpr h]
  load_delete _ := rfl

theorem stringSession_load_save {b64 : Engine} (hb : b64.Lawful) {s : PersistedSession} (h : Fits s) :
    (StringBackend.stringSession (s.toString b64)).load b64 = .ok (some s) := by
  obtain ⟨hstring, hload⟩ := (nativeRead_iff hb s).mpr h
  rwa [hstring] at hload

theorem stringSession_load_empty (b64 : Engine) : (StringBackend.stringSession "").load b64 = .ok none := by
  have hempty : (trimString "").isEmpty = true := by decide
  rw [StringBackend.load, if_pos hempty]

/-- `StringSessionBackend`. -/
def stringSession {b64 : Engine} (hb : b64.Lawful) : SnapshotBackend String FromStringError where
  empty := ""
  save s _ := s.toString b64
  delete _ := ""
  load data := ((StringBackend.stringSession data).load b64, data)
  load_empty := by
    dsimp only
    exact stringSession_load_empty b64
  load_save _ _ h := by
    dsimp only
    exact stringSession_load_save hb h
  load_delete _ := by
    dsimp only
    exact stringSession_load_empty b64

namespace InMemory

/-- `get_or_insert_with(default)`, then the change in place. -/
def next (data : Option PersistedSession) : Call → Option PersistedSession
  | .save s => some s
  | .delete => none
  | call => some ((data.getD .default).change call)

end InMemory

namespace Sqlite

/-- A statement on its own, or several, each stored as it succeeds. -/
def execute (ss : List Stmt) (c : Conn Db) : Conn Db := (run Stmt.step (fun _ => none) 0 (ss.map .stmt) c).1

/-- The statements of `delete` between `BEGIN` and `COMMIT`. -/
def deleteStmts : List Stmt :=
  [.deleteMeta, .deleteFrom .dcs, .deleteUpdateState, .deleteFrom .channelPts, .deleteFrom .peers,
    .deleteFrom .minPeers]

def updateStateStmts : UpdateStateChange → List Stmt
  | .all snap =>
    .replaceUpdateState (updateRow snap) :: .deleteFrom .channelPts ::
      inserts (snap.channels.map fun c => .channel c.1 c.2)
  | .primary pts date seq => [.updatePrimary pts date seq]
  | .secondary qts => [.updateSecondary qts]
  | .channel id pts => [.upsert (.channel id pts)]

/-- A call, whether it returns an error or not. -/
def next (c : Conn Db) : Call → Conn Db
  | .save s => (save (fun _ => none) s c).1
  | .delete => (run Stmt.step (fun _ => none) 0 (transaction deleteStmts) c).1
  | .updateDc entry => execute [.upsert (.dc (.ofEntry entry))] c
  | .setHomeDc dcId => execute [.upsertHomeDcId dcId] c
  | .applyUpdateState update => execute (updateStateStmts update) c
  | .cachePeer peer => execute [.upsert (.peer (.ofPeer peer))] c

end Sqlite

/-! Equal up to the order of lists. -/

structure SameSession (a b : PersistedSession) : Prop where
  homeDcId : a.homeDcId = b.homeDcId
  dcs : a.dcs.Perm b.dcs
  pts : a.updatesState.pts = b.updatesState.pts
  qts : a.updatesState.qts = b.updatesState.qts
  date : a.updatesState.date = b.updatesState.date
  seq : a.updatesState.seq = b.updatesState.seq
  channels : a.updatesState.channels.Perm b.updatesState.channels
  peers : a.peers.Perm b.peers
  minPeers : a.minPeers.Perm b.minPeers
  futureAuthToken : a.futureAuthToken = b.futureAuthToken

/-- Two loads that find nothing, or the same session. -/
inductive SameLoad : Option PersistedSession → Option PersistedSession → Prop where
  | none : SameLoad none none
  | some {a b : PersistedSession} (h : SameSession a b) : SameLoad (some a) (some b)

/-! Where the backends agree. -/

/-- The calls the stores are meant for, by what is stored: a session to be saved has
distinct peers and DC entries, and no counter behind the stored one. -/
def Intended (stored : Option PersistedSession) : Call → Prop
  | .save s =>
    (s.peers.map CachedPeer.id).Nodup ∧ (s.dcs.map fun d => (d.dcId, d.flags)).Nodup ∧
      ∀ old, stored = some old → old.updatesState.pts ≤ s.updatesState.pts ∧ old.updatesState.qts ≤ s.updatesState.qts
  | _ => True

/-- No difference between the backends is met: channels and min peers that are written
together are distinct, a change other than of the home DC finds a session, and the stored
entry that `update_dc` replaces has the flags of the new one. -/
def Agreeable (stored : Option PersistedSession) : Call → Prop
  | .save s => (s.updatesState.channels.map Prod.fst).Nodup ∧ (s.minPeers.map CachedMinPeer.userId).Nodup
  | .delete | .setHomeDc _ => True
  | .updateDc entry => ∃ s, stored = some s ∧ ∀ d, s.dcs.find? (sameDc entry) = some d → d.flags = entry.flags
  | .applyUpdateState update =>
    stored.isSome = true ∧ ∀ snap, update = .all snap → (snap.channels.map Prod.fst).Nodup
  | .cachePeer _ => stored.isSome = true

/-- One more fits, or there is one to be replaced. -/
def Room {α : Type} (p : α → Bool) (n : Nat) (l : List α) : Prop := l.length + 1 < n ∨ l.any p = true

/-- What is stored goes on fitting the format of the file. -/
def Roomy (stored : PersistedSession) : Call → Prop
  | .save s => Fits s
  | .delete | .setHomeDc _ => True
  | .updateDc entry => (Utf8.encode entry.addr).length < 256 ∧ Room (sameDc entry) 256 stored.dcs
  | .applyUpdateState (.all snap) => snap.channels.length < 65536
  | .applyUpdateState (.channel id _) => Room (fun c => c.1 == id) 65536 stored.updatesState.channels
  | .applyUpdateState _ => True
  | .cachePeer peer => ¬ (peer.isChat = true ∧ peer.isChannel = true) ∧ Room (fun p => p.id == peer.id) 65536 stored.peers

theorem mem_replaceOrPush {α : Type} {p : α → Bool} {a x : α} {l : List α} (h : x ∈ replaceOrPush p a l) : x = a ∨ x ∈ l := by
  induction l with
  | nil => exact .inl (List.mem_singleton.mp h)
  | cons y l ih =>
    unfold replaceOrPush at h
    split at h
    · rcases List.mem_cons.mp h with h | h
      · exact .inl h
      · exact .inr (List.mem_cons_of_mem y h)
    · rcases List.mem_cons.mp h with rfl | h
      · exact .inr List.mem_cons_self
      · exact (ih h).imp_right (List.mem_cons_of_mem y)

theorem Room.length_lt {α : Type} {p : α → Bool} {n : Nat} {l : List α} (h : Room p n l) (hlt : l.length < n) (a : α) :
    (replaceOrPush p a l).length < n := by
  have hlength : (replaceOrPush p a l).length = if l.any p then l.length else l.length + 1 := by
    clear h hlt
    induction l with
    | nil => rfl
    | cons y l ih =>
      unfold replaceOrPush
      cases hy : p y with
      | true => simp [hy]
      | false =>
        simp only [hy, List.any_cons, Bool.false_or, Bool.false_eq_true, if_false, List.length_cons, ih]
        split <;> rfl
  rw [hlength]
  rcases h with hroom | hany
  · split <;> omega
  · rw [if_pos hany]
    exact hlt

theorem Fits.change {s : PersistedSession} (h : Fits s) {call : Call} (hroom : Roomy s call) : Fits (s.change call) := by
  cases call with
  | save _ | delete => exact h
  | setHomeDc dcId => exact { h with }
  | updateDc entry =>
    refine { h with dcs := hroom.2.length_lt h.dcs entry, addrs := fun d hd => ?_ }
    rcases mem_replaceOrPush hd with rfl | hd
    · exact hroom.1
    · exact h.addrs d hd
  | applyUpdateState update =>
    cases update with
    | all snap => exact { h with channels := hroom }
    | primary pts date seq => exact { h with }
    | secondary qts => exact { h with }
    | channel id pts => exact { h with channels := Room.length_lt hroom h.channels (id, pts) }
  | cachePeer peer =>
    refine { h with peers := hroom.2.length_lt h.peers peer, kinds := fun p hp => ?_ }
    rcases mem_replaceOrPush hp with rfl | hp
    · exact hroom.1
    · exact h.kinds p hp

/-! The keyed tables follow the lists. -/

/-- An upsert is the replacement where the first match has the key, and nothing but a match
has it. -/
theorem upsertRow_map {α β : Type} {κ : Type} [DecidableEq κ] {key : β → κ} {g : α → β} {p : α → Bool} {a : α}
    (hkey : ∀ x, key (g x) = key (g a) → p x = true) {l : List α}
    (hfirst : ∀ d, l.find? p = some d → key (g d) = key (g a)) :
    upsertRow key (fun _ => g a) (g a) (l.map g) = (replaceOrPush p a l).map g := by
  induction l with
  | nil => rfl
  | cons x l ih =>
    rw [List.map_cons, upsertRow, replaceOrPush]
    cases hx : p x with
    | true => rw [if_pos (hfirst x (List.find?_cons_of_pos hx)), if_pos rfl, List.map_cons]
    | false =>
      have hne : ¬ key (g x) = key (g a) := fun heq => by
        rw [hkey x heq] at hx
        cases hx
      have hrest : ∀ d, l.find? p = some d → key (g d) = key (g a) := fun d hd =>
        hfirst d (by rw [List.find?_cons_of_neg (by simp [hx])]; exact hd)
      rw [if_neg hne, if_neg (by simp), ih hrest, List.map_cons]

namespace Sqlite

theorem stepAll_dcs : ∀ (rows : List DcRow) (db : Db), stepAll Stmt.step (inserts (rows.map .dc)) db =
    (insertRows DcRow.key rows db.dcs).map fun dcs => { db with dcs := dcs }
  | [], db => rfl
  | r :: rows, db => by
    rw [List.map_cons, inserts, List.map_cons, stepAll, insertRows, Stmt.step, Db.insert]
    cases insertRow DcRow.key r db.dcs with
    | none => rfl
    | some dcs => exact stepAll_dcs rows { db with dcs := dcs }

theorem stepAll_channels : ∀ (rows : List (Int64 × Int32)) (db : Db),
    stepAll Stmt.step (inserts (rows.map fun c => .channel c.1 c.2)) db =
      (insertRows channelKey rows db.channelPts).map fun channels => { db with channelPts := channels }
  | [], db => rfl
  | r :: rows, db => by
    rw [List.map_cons, inserts, List.map_cons, stepAll, insertRows, Stmt.step, Db.insert]
    cases insertRow channelKey r db.channelPts with
    | none => rfl
    | some channels => exact stepAll_channels rows { db with channelPts := channels }

theorem stepAll_peers : ∀ (rows : List PeerRow) (db : Db), stepAll Stmt.step (inserts (rows.map .peer)) db =
    (insertRows PeerRow.key rows db.peers).map fun peers => { db with peers := peers }
  | [], db => rfl
  | r :: rows, db => by
    rw [List.map_cons, inserts, List.map_cons, stepAll, insertRows, Stmt.step, Db.insert]
    cases insertRow PeerRow.key r db.peers with
    | none => rfl
    | some peers => exact stepAll_peers rows { db with peers := peers }

theorem stepAll_minPeers : ∀ (rows : List CachedMinPeer) (db : Db),
    stepAll Stmt.step (inserts (rows.map .minPeer)) db =
      (insertRows minPeerKey rows db.minPeers).map fun minPeers => { db with minPeers := minPeers }
  | [], db => rfl
  | r :: rows, db => by
    rw [List.map_cons, inserts, List.map_cons, stepAll, insertRows, Stmt.step, Db.insert]
    cases insertRow minPeerKey r db.minPeers with
    | none => rfl
    | some minPeers => exact stepAll_minPeers rows { db with minPeers := minPeers }

/-- Into an emptied table distinct rows go as they are. -/
theorem insertRows_nil {α : Type} {key : α → Key} {rows : List α} (h : (rows.map key).Nodup) :
    insertRows key rows [] = some rows := by
  have hins : insertRows key rows [] = some ([] ++ rows) := insertRows_of_nodup rows [] (by rwa [List.nil_append])
  rwa [List.nil_append] at hins

/-- The keys within each table of a session to be written are distinct. -/
structure DistinctKeys (s : PersistedSession) : Prop where
  dcs : ((s.dcs.map DcRow.ofEntry).map DcRow.key).Nodup
  channels : (s.updatesState.channels.map channelKey).Nodup
  peers : ((s.peers.map PeerRow.ofPeer).map PeerRow.key).Nodup
  minPeers : (s.minPeers.map minPeerKey).Nodup

/-- The database after a save. -/
def written (s : PersistedSession) (db : Db) : Db :=
  { homeDcId := some s.homeDcId, futureAuthToken := s.futureAuthToken
    updateState := some (mergedRow db.updateState (updateRow s.updatesState))
    dcs := s.dcs.map .ofEntry, channelPts := s.updatesState.channels, peers := s.peers.map .ofPeer
    minPeers := s.minPeers }

theorem stepAll_writeSession {s : PersistedSession} (h : DistinctKeys s) (db : Db) :
    stepAll Stmt.step (writeSession s) db = some (written s db) := by
  have hdcs : dcRows s = (s.dcs.map DcRow.ofEntry).map Row.dc := by simp [dcRows]
  have hpeers : peerRows s = (s.peers.map PeerRow.ofPeer).map Row.peer := by simp [peerRows]
  unfold writeSession channelRows minPeerRows
  rw [hdcs, hpeers]
  cases htoken : s.futureAuthToken <;>
    simp only [stepAll, Option.elim, Stmt.step, Option.bind_some, stepAll_append, stepAll_dcs, stepAll_channels,
      stepAll_peers, stepAll_minPeers, Db.clear, insertRows_nil h.dcs, insertRows_nil h.channels,
      insertRows_nil h.peers, insertRows_nil h.minPeers, Option.map_some, written, htoken]

end Sqlite

/-! What SQLite holds when the in-memory backend holds `data`. -/

namespace Sqlite

structure Holds (s : PersistedSession) (db : Db) : Prop where
  homeDcId : db.homeDcId = some s.homeDcId
  futureAuthToken : db.futureAuthToken = s.futureAuthToken
  updates : db.updateState.getD ⟨0, 0, 0, 0⟩ = updateRow s.updatesState
  dcs : db.dcs = s.dcs.map .ofEntry
  channels : db.channelPts = s.updatesState.channels
  peers : db.peers = s.peers.map .ofPeer
  minPeers : db.minPeers = s.minPeers

/-- No transaction is open, and the tables are empty or hold the session. -/
def Follows (data : Option PersistedSession) (c : Conn Db) : Prop :=
  ∃ db, c = opened db ∧ ((data = none ∧ db = Db.empty) ∨ ∃ s, data = some s ∧ Holds s db)

theorem distinctKeys_of {stored : Option PersistedSession} {s : PersistedSession} (hintended : Intended stored (.save s))
    (hagree : Agreeable stored (.save s)) : DistinctKeys s where
  dcs := by
    rw [List.map_map]
    have h := List.Nodup.map (f := fun k : Int32 × DcFlags => Key.dc k.1 k.2.bits) (by
      intro a b hab
      obtain ⟨a1, ⟨a2⟩⟩ := a
      obtain ⟨b1, ⟨b2⟩⟩ := b
      simpa using hab) hintended.2.1
    rwa [List.map_map] at h
  channels := by
    have h := List.Nodup.map (f := Key.channel) (fun a b hab => by simpa using hab) hagree.1
    rwa [List.map_map] at h
  peers := by
    rw [List.map_map]
    have h := List.Nodup.map (f := Key.peer) (fun a b hab => by simpa using hab) hintended.1
    rwa [List.map_map] at h
  minPeers := by
    have h := List.Nodup.map (f := Key.minPeer) (fun a b hab => by simpa using hab) hagree.2
    rwa [List.map_map] at h

theorem sqlMax_of_le {a b : Int32} (h : b ≤ a) : sqlMax a b = a := by
  unfold sqlMax
  rw [if_neg]
  rw [Int32.lt_iff_toInt_lt]
  rw [Int32.le_iff_toInt_le] at h
  omega

/-- A save that is not behind the stored counters writes its own. -/
theorem mergedRow_eq {row : UpdateRow} {old : Option UpdateRow}
    (h : ∀ r, old = some r → r.pts ≤ row.pts ∧ r.qts ≤ row.qts) : mergedRow old row = row := by
  cases old with
  | none => rfl
  | some r =>
    obtain ⟨hpts, hqts⟩ := h r rfl
    rw [mergedRow, sqlMax_of_le hpts, sqlMax_of_le hqts]

theorem holds_written {s : PersistedSession} {db : Db}
    (h : mergedRow db.updateState (updateRow s.updatesState) = updateRow s.updatesState) : Holds s (written s db) where
  homeDcId := rfl
  futureAuthToken := rfl
  updates := h
  dcs := rfl
  channels := rfl
  peers := rfl
  minPeers := rfl

theorem execute_opened {ss : List Stmt} {db db' : Db} (h : stepAll Stmt.step ss db = some db') :
    execute ss (opened db) = opened db' := by
  unfold execute opened
  rw [run_stmts ss h]

theorem Follows.save {data : Option PersistedSession} {c : Conn Db} {s : PersistedSession} (h : Follows data c)
    (hintended : Intended data (.save s)) (hagree : Agreeable data (.save s)) :
    Follows (InMemory.next data (.save s)) (next c (.save s)) := by
  obtain ⟨db, rfl, hdb⟩ := h
  have hstep := stepAll_writeSession (distinctKeys_of hintended hagree) db
  refine ⟨written s db, ?_, Or.inr ⟨s, rfl, holds_written (mergedRow_eq ?_)⟩⟩
  · show (Sqlite.save (fun _ => none) s (opened db)).1 = _
    unfold Sqlite.save opened
    rw [run_transaction_ok hstep]
  · intro r hr
    rcases hdb with ⟨rfl, rfl⟩ | ⟨old, rfl, hold⟩
    · cases hr
    · have hcounters := hintended.2.2 old rfl
      have hrow := hold.updates
      rw [hr, Option.getD_some] at hrow
      rw [hrow]
      exact hcounters

theorem Follows.delete {data : Option PersistedSession} {c : Conn Db} (h : Follows data c) :
    Follows (InMemory.next data .delete) (next c .delete) := by
  obtain ⟨db, rfl, -⟩ := h
  exact ⟨Db.empty, rfl, Or.inl ⟨rfl, rfl⟩⟩

/-- On a stored session, a statement that changes the tables as the call changes the
session. -/
theorem Follows.execute {s' : PersistedSession} {ss : List Stmt} {db db' : Db}
    (hstep : stepAll Stmt.step ss db = some db') (hholds : Holds s' db') :
    Follows (some s') (execute ss (opened db)) :=
  ⟨db', execute_opened hstep, Or.inr ⟨s', rfl, hholds⟩⟩

theorem Follows.setHomeDc {data : Option PersistedSession} {c : Conn Db} (h : Follows data c) (dcId : Int32) :
    Follows (InMemory.next data (.setHomeDc dcId)) (next c (.setHomeDc dcId)) := by
  obtain ⟨db, rfl, ⟨rfl, rfl⟩ | ⟨s, rfl, hs⟩⟩ := h
  · -- The row of `meta` is the session: the other tables are read as their defaults.
    exact Follows.execute rfl ⟨rfl, rfl, rfl, rfl, rfl, rfl, rfl⟩
  · exact Follows.execute rfl
      ⟨rfl, hs.futureAuthToken, hs.updates, hs.dcs, hs.channels, hs.peers, hs.minPeers⟩

theorem Follows.updateDc {data : Option PersistedSession} {c : Conn Db} (h : Follows data c) {entry : DcEntry}
    (hagree : Agreeable data (.updateDc entry)) :
    Follows (InMemory.next data (.updateDc entry)) (next c (.updateDc entry)) := by
  obtain ⟨s, rfl, hflags⟩ := hagree
  obtain ⟨db, rfl, ⟨hnone, -⟩ | ⟨s', hsome, hs⟩⟩ := h
  · cases hnone
  obtain rfl : s = s' := Option.some.inj hsome
  have hrows : upsertRow DcRow.key (fun _ => DcRow.ofEntry entry) (DcRow.ofEntry entry) (s.dcs.map .ofEntry) =
      (replaceOrPush (sameDc entry) entry s.dcs).map .ofEntry := by
    apply upsertRow_map
    · intro d hd
      -- Equal flags are of one address family.
      obtain ⟨hid, hbits⟩ := Key.dc.inj hd
      have hid : d.dcId = entry.dcId := hid
      have hbits : d.flags.bits = entry.flags.bits := hbits
      simp [sameDc, DcEntry.isIpv6, hid, hbits]
    · intro d hd
      have hsame := List.find?_some hd
      have hid : d.dcId = entry.dcId := by
        simp only [sameDc, Bool.and_eq_true, beq_iff_eq] at hsame
        exact hsame.1
      simp [DcRow.key, DcRow.ofEntry, hid, hflags d hd]
  refine Follows.execute rfl ⟨hs.homeDcId, hs.futureAuthToken, hs.updates, ?_, hs.channels, hs.peers, hs.minPeers⟩
  show upsertRow DcRow.key _ _ db.dcs = _
  rw [hs.dcs, hrows]
  rfl

theorem Follows.cachePeer {data : Option PersistedSession} {c : Conn Db} (h : Follows data c) {peer : CachedPeer}
    (hagree : Agreeable data (.cachePeer peer)) :
    Follows (InMemory.next data (.cachePeer peer)) (next c (.cachePeer peer)) := by
  obtain ⟨db, rfl, ⟨rfl, -⟩ | ⟨s, rfl, hs⟩⟩ := h
  · cases hagree
  have hrows : upsertRow PeerRow.key (fun _ => PeerRow.ofPeer peer) (PeerRow.ofPeer peer) (s.peers.map .ofPeer) =
      (replaceOrPush (fun p => p.id == peer.id) peer s.peers).map .ofPeer := by
    apply upsertRow_map
    · intro p hp
      have hid : p.id = peer.id := Key.peer.inj hp
      simp [hid]
    · intro p hp
      have hid : p.id = peer.id := by simpa using List.find?_some hp
      simp [PeerRow.key, PeerRow.ofPeer, hid]
  refine Follows.execute rfl ⟨hs.homeDcId, hs.futureAuthToken, hs.updates, hs.dcs, hs.channels, ?_, hs.minPeers⟩
  show upsertRow PeerRow.key _ _ db.peers = _
  rw [hs.peers, hrows]
  rfl

theorem Follows.applyUpdateState {data : Option PersistedSession} {c : Conn Db} (h : Follows data c)
    {update : UpdateStateChange} (hagree : Agreeable data (.applyUpdateState update)) :
    Follows (InMemory.next data (.applyUpdateState update)) (next c (.applyUpdateState update)) := by
  obtain ⟨db, rfl, ⟨rfl, -⟩ | ⟨s, rfl, hs⟩⟩ := h
  · cases hagree.1
  have hrow := hs.updates
  cases update with
  | all snap =>
    have hnodup : (snap.channels.map channelKey).Nodup := by
      have hmap := List.Nodup.map (f := Key.channel) (fun a b hab => by simpa using hab) (hagree.2 snap rfl)
      rwa [List.map_map] at hmap
    have hstep : stepAll Stmt.step (updateStateStmts (.all snap)) db =
        some { db with updateState := some (updateRow snap), channelPts := snap.channels } := by
      simp only [updateStateStmts, stepAll, Stmt.step, Option.bind_some, stepAll_channels, Db.clear,
        insertRows_nil hnodup, Option.map_some]
    exact Follows.execute hstep ⟨hs.homeDcId, hs.futureAuthToken, rfl, hs.dcs, rfl, hs.peers, hs.minPeers⟩
  | primary pts date seq =>
    have hqts : (db.updateState.map UpdateRow.qts).getD 0 = s.updatesState.qts := by
      cases hdb : db.updateState with
      | none =>
        rw [hdb] at hrow
        exact congrArg UpdateRow.qts hrow
      | some row =>
        rw [hdb] at hrow
        exact congrArg UpdateRow.qts hrow
    refine Follows.execute rfl ⟨hs.homeDcId, hs.futureAuthToken, ?_, hs.dcs, hs.channels, hs.peers, hs.minPeers⟩
    show UpdateRow.mk pts ((db.updateState.map UpdateRow.qts).getD 0) date seq = _
    rw [hqts]
    rfl
  | secondary qts =>
    refine Follows.execute rfl ⟨hs.homeDcId, hs.futureAuthToken, ?_, hs.dcs, hs.channels, hs.peers, hs.minPeers⟩
    show { (db.updateState.getD ⟨0, 0, 0, 0⟩) with qts := qts } = _
    rw [hrow]
    rfl
  | channel id pts =>
    have hkey : ∀ c : Int64 × Int32, channelKey c = channelKey (id, pts) → (c.1 == id) = true := by
      intro c hc
      have hid : c.1 = id := Key.channel.inj hc
      simp [hid]
    have hfirst : ∀ c, s.updatesState.channels.find? (fun c => c.1 == id) = some c →
        channelKey c = channelKey (id, pts) := by
      intro c hc
      have hid : c.1 = id := by simpa using List.find?_some hc
      simp [channelKey, hid]
    have hrows := upsertRow_map (g := fun c => c) hkey hfirst
    rw [List.map_id', List.map_id'] at hrows
    refine Follows.execute rfl ⟨hs.homeDcId, hs.futureAuthToken, hrow, hs.dcs, ?_, hs.peers, hs.minPeers⟩
    show upsertRow channelKey _ _ db.channelPts = _
    rw [hs.channels, hrows]
    rfl

/-- One call that meets no difference. -/
theorem Follows.next {data : Option PersistedSession} {c : Conn Db} {call : Call} (h : Follows data c)
    (hintended : Intended data call) (hagree : Agreeable data call) :
    Follows (InMemory.next data call) (Sqlite.next c call) := by
  cases call with
  | save s => exact h.save hintended hagree
  | delete => exact h.delete
  | updateDc entry => exact h.updateDc hagree
  | setHomeDc dcId => exact h.setHomeDc dcId
  | applyUpdateState update => exact h.applyUpdateState hagree
  | cachePeer peer => exact h.cachePeer hagree

theorem Holds.read {s : PersistedSession} {db : Db} (h : Holds s db) (scan : Scan) :
    SameSession s (readSession scan db) := by
  have hdcs : ((scan.order db.dcs).map DcRow.toEntry).Perm s.dcs := by
    have hperm := (scan.perm db.dcs).map DcRow.toEntry
    have hback : DcRow.toEntry ∘ DcRow.ofEntry = id := funext DcRow.toEntry_ofEntry
    have hid : db.dcs.map DcRow.toEntry = s.dcs := by rw [h.dcs, List.map_map, hback, List.map_id]
    rwa [hid] at hperm
  have hpeers : ((scan.order db.peers).map PeerRow.toPeer).Perm s.peers := by
    have hperm := (scan.perm db.peers).map PeerRow.toPeer
    have hback : PeerRow.toPeer ∘ PeerRow.ofPeer = id := funext PeerRow.toPeer_ofPeer
    have hid : db.peers.map PeerRow.toPeer = s.peers := by rw [h.peers, List.map_map, hback, List.map_id]
    rwa [hid] at hperm
  have hrow := h.updates
  constructor
  · simp [readSession, h.homeDcId]
  · exact hdcs.symm
  · exact (congrArg UpdateRow.pts hrow).symm
  · exact (congrArg UpdateRow.qts hrow).symm
  · exact (congrArg UpdateRow.date hrow).symm
  · exact (congrArg UpdateRow.seq hrow).symm
  · exact h.channels ▸ (scan.perm db.channelPts).symm
  · exact hpeers.symm
  · exact h.minPeers ▸ (scan.perm db.minPeers).symm
  · exact h.futureAuthToken.symm

theorem Follows.sameLoad {data : Option PersistedSession} {c : Conn Db} (h : Follows data c) (scan : Scan) :
    SameLoad data (load scan c) := by
  obtain ⟨db, rfl, ⟨rfl, rfl⟩ | ⟨s, rfl, hs⟩⟩ := h
  · exact SameLoad.none
  · have hmeta : db.metaEmpty = false := by simp [Db.metaEmpty, hs.homeDcId]
    have hload : load scan (opened db) = some (readSession scan db) := by
      unfold load opened Conn.view
      simp only [Option.getD_none, hmeta]
      rfl
    rw [hload]
    exact SameLoad.some (hs.read scan)

end Sqlite

namespace SnapshotBackend
variable {σ ε : Type} (b : SnapshotBackend σ ε)

/-- What is loaded is what the in-memory backend has, and it fits. -/
structure Loads (data : Option PersistedSession) (x : σ) : Prop where
  load : (b.load x).1 = .ok data
  fits : Fits (data.getD .default)

variable {b}

theorem Loads.save {s : PersistedSession} (h : Fits s) (x : σ) : b.Loads (some s) (b.save s x) := ⟨b.load_save s x h, h⟩

theorem fits_default : Fits .default where
  dcs := by decide
  addrs := nofun
  channels := by decide
  peers := by decide
  kinds := nofun
  minPeers := by decide
  token := nofun

/-- The default methods change what is loaded as the in-memory backend changes its
session. -/
theorem Loads.next {data : Option PersistedSession} {x : σ} (h : b.Loads data x) {call : Call}
    (hroom : Roomy (data.getD .default) call) : b.Loads (InMemory.next data call) (b.next x call) := by
  have hloaded : b.load x = (.ok data, (b.load x).2) := Prod.ext h.load rfl
  have hfits := h.fits.change hroom
  cases call with
  | save s => exact Loads.save hroom x
  | delete => exact ⟨b.load_delete x, fits_default⟩
  | _ =>
    unfold SnapshotBackend.next
    dsimp only
    rw [hloaded]
    exact Loads.save hfits _

end SnapshotBackend

/-- Along a run without a difference SQLite and the default methods follow the in-memory backend. -/
theorem follows_final {σ ε : Type} {b : SnapshotBackend σ ε} :
    ∀ (calls : List Call) (data : Option PersistedSession) (x : σ) (c : Conn Sqlite.Db),
      b.Loads data x → Sqlite.Follows data c →
      Run.AllSteps InMemory.next
        (fun data call => Intended data call ∧ Agreeable data call ∧ Roomy (data.getD .default) call) data calls →
      b.Loads (Run.final InMemory.next data calls) (Run.final b.next x calls) ∧
        Sqlite.Follows (Run.final InMemory.next data calls) (Run.final Sqlite.next c calls)
  | [], _, _, _, hx, hc, _ => ⟨hx, hc⟩
  | call :: calls, data, x, c, hx, hc, ⟨⟨hintended, hagree, hroom⟩, hok⟩ =>
    follows_final calls (InMemory.next data call) (b.next x call) (Sqlite.next c call) (hx.next hroom)
      (hc.next hintended hagree) hok

/-- **One abstract store.** After every sequence of calls from empty stores in which no call
meets a difference between the backends, the in-memory backend, the default methods and
SQLite load the same session. -/
theorem backends_agree {σ ε : Type} (b : SnapshotBackend σ ε) (scan : Sqlite.Scan) (calls : List Call)
    (hok : Run.AllSteps InMemory.next
      (fun data call => Intended data call ∧ Agreeable data call ∧ Roomy (data.getD .default) call) none calls) :
    (b.load (Run.final b.next b.empty calls)).1 = .ok (Run.final InMemory.next none calls) ∧
    SameLoad (Run.final InMemory.next none calls)
      (Sqlite.load scan (Run.final Sqlite.next (Sqlite.opened Sqlite.Db.empty) calls)) := by
  have hempty : Sqlite.Follows none (Sqlite.opened Sqlite.Db.empty) := ⟨Sqlite.Db.empty, rfl, Or.inl ⟨rfl, rfl⟩⟩
  obtain ⟨hloads, hfollows⟩ := follows_final calls none b.empty _ ⟨b.load_empty, SnapshotBackend.fits_default⟩ hempty hok
  exact ⟨hloads.load, hfollows.sameLoad scan⟩

/-- A session with its home DC is saved, the DC replaced and a user cached. -/
def firstLogin : List Call :=
  [.save { PersistedSession.default with dcs := [⟨2, "149.154.167.51", none, 0, 0, ⟨0⟩⟩] },
    .updateDc ⟨2, "149.154.167.50", none, 7, 0, ⟨0⟩⟩, .cachePeer ⟨7, 5, false, false, none, false⟩]

theorem firstLogin_backends_agree :
    (binaryFile.load (Run.final binaryFile.next none firstLogin)).1 = .ok (Run.final InMemory.next none firstLogin) ∧
    ((stringSession urlSafeNoPad_lawful).load (Run.final (stringSession urlSafeNoPad_lawful).next "" firstLogin)).1 =
      .ok (Run.final InMemory.next none firstLogin) ∧
    SameLoad (Run.final InMemory.next none firstLogin)
      (Sqlite.load Sqlite.tableOrder (Run.final Sqlite.next (Sqlite.opened Sqlite.Db.empty) firstLogin)) := by
  have hok : Run.AllSteps InMemory.next
      (fun data call => Intended data call ∧ Agreeable data call ∧ Roomy (data.getD .default) call) none firstLogin := by
    refine ⟨⟨⟨List.nodup_nil, List.nodup_singleton _, nofun⟩, ⟨List.nodup_nil, List.nodup_nil⟩, ?_⟩,
      ⟨trivial, ?_, by decide, .inl (by decide)⟩, ⟨trivial, rfl, by decide, .inl (by decide)⟩, trivial⟩
    · exact { SnapshotBackend.fits_default with
        dcs := by decide
        addrs := fun d hd => by
          rw [List.mem_singleton.mp hd]
          decide }
    · refine ⟨_, rfl, ?_⟩
      rintro d ⟨⟩
      rfl
  exact ⟨(backends_agree binaryFile Sqlite.tableOrder firstLogin hok).1,
    (backends_agree (stringSession urlSafeNoPad_lawful) Sqlite.tableOrder firstLogin hok).1,
    (backends_agree binaryFile Sqlite.tableOrder firstLogin hok).2⟩

/-- A peer cached before any session is saved: the in-memory backend has a session with
it, and SQLite has none. -/
theorem peerFirst_backends_differ :
    Run.AllSteps InMemory.next Intended none [.cachePeer ⟨7, 5, false, false, none, false⟩] ∧
    ¬ SameLoad (Run.final InMemory.next none [.cachePeer ⟨7, 5, false, false, none, false⟩])
      (Sqlite.load Sqlite.tableOrder
        (Run.final Sqlite.next (Sqlite.opened Sqlite.Db.empty) [.cachePeer ⟨7, 5, false, false, none, false⟩])) := by
  refine ⟨⟨trivial, trivial⟩, ?_⟩
  intro h
  have hnone : Sqlite.load Sqlite.tableOrder (Run.final Sqlite.next (Sqlite.opened Sqlite.Db.empty)
      [.cachePeer ⟨7, 5, false, false, none, false⟩]) = none := rfl
  rw [hnone] at h
  cases h

end Ferogram.Session
