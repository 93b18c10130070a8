import Ferogram.Lib.Sql
import Ferogram.Session.Format

/- The SQLite backend (`SqliteBackend` of `ferogram-session/src/lib.rs`): its tables, its
   statements and the functions that issue them.

   `write_session` sends `BEGIN`, its statements and `COMMIT`, and returns at the first one
   that fails. No path out of it sends `ROLLBACK`: after a failure between the two the
   connection is still inside the transaction, every later `BEGIN` is refused and a load
   sees the half-written session.

   What is proved: `failedSave_unharmed_iff`, which says for every session, every state of
   the connection and every way the world can make a statement fail when a failed save does
   no harm. -/
namespace Ferogram.Session.Sqlite
open Sql

/-! Rows. -/

structure DcRow where
  dcId : Int32
  flags : UInt8
  addr : String
  authKey : Option (List UInt8)
  firstSalt : Int64
  timeOffset : Int32
  deriving DecidableEq

structure UpdateRow where
  pts : Int32
  qts : Int32
  date : Int32
  seq : Int32
  deriving DecidableEq, Repr

/-- The flags are integers. -/
structure PeerRow where
  id : Int64
  accessHash : Int64
  isChannel : Int32
  isChat : Int32
  channelKind : Option Int32
  isCommunity : Int32
  deriving DecidableEq, Repr

/-- `b as i32`. -/
def boolToI32 (b : Bool) : Int32 := if b then 1 else 0

def DcRow.ofEntry (d : DcEntry) : DcRow :=
  { dcId := d.dcId, flags := d.flags.bits, addr := d.addr, authKey := d.authKey.map fun k => k.1,
    firstSalt := d.firstSalt, timeOffset := d.timeOffset }

/-- A key that is not 256 bytes long is dropped. -/
def DcRow.toEntry (r : DcRow) : DcEntry :=
  { dcId := r.dcId, addr := r.addr
    authKey := r.authKey.bind fun b => if h : b.length = 256 then some ⟨b, h⟩ else none
    firstSalt := r.firstSalt, timeOffset := r.timeOffset, flags := ⟨r.flags⟩ }

def PeerRow.ofPeer (p : CachedPeer) : PeerRow :=
  { id := p.id, accessHash := p.accessHash, isChannel := boolToI32 p.isChannel
    isChat := boolToI32 p.isChat
    channelKind := p.channelKind.map fun k => Int32.ofNat k.toByte.toNat
    isCommunity := boolToI32 p.isCommunity }

def PeerRow.toPeer (r : PeerRow) : CachedPeer :=
  { id := r.id, accessHash := r.accessHash, isChannel := r.isChannel != 0, isChat := r.isChat != 0
    channelKind := r.channelKind.bind fun k => ChannelKind.fromByte (UInt8.ofNat k.toUInt32.toNat)
    isCommunity := r.isCommunity != 0 }

theorem DcRow.toEntry_ofEntry (d : DcEntry) : (DcRow.ofEntry d).toEntry = d := by
  cases hkey : d.authKey with
  | none =>
    cases d
    simp only at hkey
    simp [DcRow.ofEntry, DcRow.toEntry, hkey]
  | some k =>
    have hlen := k.2
    cases d
    simp only at hkey
    simp only [DcRow.ofEntry, DcRow.toEntry, hkey, Option.map_some, Option.bind_some, dif_pos hlen]
    rfl

theorem PeerRow.toPeer_ofPeer (p : CachedPeer) : (PeerRow.ofPeer p).toPeer = p := by
  have hbool : ∀ b : Bool, (boolToI32 b != 0) = b := by decide
  have hkind : ∀ k : ChannelKind,
      ChannelKind.fromByte (UInt8.ofNat (Int32.ofNat k.toByte.toNat).toUInt32.toNat) = some k := by
    intro k
    cases k <;> rfl
  cases p with
  | mk id accessHash isChannel isChat channelKind isCommunity =>
    simp only [PeerRow.ofPeer, PeerRow.toPeer, hbool]
    cases channelKind with
    | none => rfl
    | some k => simp only [Option.map_some, Option.bind_some, hkind]

/-! Tables. -/

inductive Table where
  | dcs
  | channelPts
  | peers
  | minPeers
  deriving DecidableEq, Repr

inductive Row where
  | dc (r : DcRow)
  | channel (id : Int64) (pts : Int32)
  | peer (r : PeerRow)
  | minPeer (r : CachedMinPeer)
  deriving DecidableEq

/-- The primary keys. -/
inductive Key where
  | dc (dcId : Int32) (flags : UInt8)
  | channel (channelId : Int64)
  | peer (id : Int64)
  | minPeer (userId : Int64)
  deriving DecidableEq, Repr

def Key.table : Key → Table
  | .dc _ _ => .dcs
  | .channel _ => .channelPts
  | .peer _ => .peers
  | .minPeer _ => .minPeers

def DcRow.key (r : DcRow) : Key := .dc r.dcId r.flags
def PeerRow.key (r : PeerRow) : Key := .peer r.id
def channelKey (c : Int64 × Int32) : Key := .channel c.1
def minPeerKey (m : CachedMinPeer) : Key := .minPeer m.userId

def Row.key : Row → Key
  | .dc r => r.key
  | .channel id pts => channelKey (id, pts)
  | .peer r => r.key
  | .minPeer r => minPeerKey r

/-- The two rows of `meta`, the one row of `update_state`, and the other tables. -/
structure Db where
  homeDcId : Option Int32
  futureAuthToken : Option (List UInt8)
  updateState : Option UpdateRow
  dcs : List DcRow
  channelPts : List (Int64 × Int32)
  peers : List PeerRow
  minPeers : List CachedMinPeer

namespace Db

/-- After the schema has been created. -/
def empty : Db :=
  { homeDcId := none, futureAuthToken := none, updateState := none, dcs := [], channelPts := [], peers := [],
    minPeers := [] }

def insert (db : Db) : Row → Option Db
  | .dc r => (insertRow DcRow.key r db.dcs).map fun rows => { db with dcs := rows }
  | .channel id pts => (insertRow channelKey (id, pts) db.channelPts).map fun rows => { db with channelPts := rows }
  | .peer r => (insertRow PeerRow.key r db.peers).map fun rows => { db with peers := rows }
  | .minPeer r => (insertRow minPeerKey r db.minPeers).map fun rows => { db with minPeers := rows }

/-- `INSERT ... ON CONFLICT DO UPDATE` with every column of the new row. -/
def upsert (db : Db) : Row → Db
  | .dc r => { db with dcs := upsertRow DcRow.key (fun _ => r) r db.dcs }
  | .channel id pts => { db with channelPts := upsertRow channelKey (fun _ => (id, pts)) (id, pts) db.channelPts }
  | .peer r => { db with peers := upsertRow PeerRow.key (fun _ => r) r db.peers }
  | .minPeer r => { db with minPeers := upsertRow minPeerKey (fun _ => r) r db.minPeers }

def clear (db : Db) : Table → Db
  | .dcs => { db with dcs := [] }
  | .channelPts => { db with channelPts := [] }
  | .peers => { db with peers := [] }
  | .minPeers => { db with minPeers := [] }

/-- The keys that are taken. -/
def keys (db : Db) : List Key :=
  db.dcs.map DcRow.key ++ db.channelPts.map channelKey ++ db.peers.map PeerRow.key ++
    db.minPeers.map minPeerKey

end Db

/-! Statements. -/

inductive Stmt where
  | upsertHomeDcId (dcId : Int32)
  | upsertToken (token : List UInt8)
  | deleteToken
  | deleteMeta
  | deleteFrom (t : Table)
  | insert (row : Row)
  | upsert (row : Row)
  | writeUpdateState (row : UpdateRow)
  | replaceUpdateState (row : UpdateRow)
  | updatePrimary (pts date seq : Int32)
  | updateSecondary (qts : Int32)
  | deleteUpdateState
  deriving DecidableEq

/-- SQL's `MAX` of two values. -/
def sqlMax (a b : Int32) : Int32 := if a < b then b else a

/-- The row of `update_state` after it is written: `pts` and `qts` never move backwards. -/
def mergedRow (old : Option UpdateRow) (row : UpdateRow) : UpdateRow :=
  match old with
  | none => row
  | some old => { row with pts := sqlMax row.pts old.pts, qts := sqlMax row.qts old.qts }

def Stmt.step : Stmt → Db → Option Db
  | .upsertHomeDcId dcId, db => some { db with homeDcId := some dcId }
  | .upsertToken token, db => some { db with futureAuthToken := some token }
  | .deleteToken, db => some { db with futureAuthToken := none }
  | .deleteMeta, db => some { db with homeDcId := none, futureAuthToken := none }
  | .deleteFrom t, db => some (db.clear t)
  | .insert row, db => db.insert row
  | .upsert row, db => some (db.upsert row)
  | .writeUpdateState row, db =>
    some { db with updateState := some (mergedRow db.updateState row) }
  | .replaceUpdateState row, db => some { db with updateState := some row }
  | .updatePrimary pts date seq, db =>
    some { db with updateState := some { pts := pts, qts := (db.updateState.map UpdateRow.qts).getD 0,
                                         date := date, seq := seq } }
  | .updateSecondary qts, db =>
    some { db with updateState := some { (db.updateState.getD ⟨0, 0, 0, 0⟩) with qts := qts } }
  | .deleteUpdateState, db => some { db with updateState := none }

/-- The key an insertion needs to be free. -/
def Stmt.key? : Stmt → Option Key
  | .insert row => some row.key
  | _ => none

/-! The backend. -/

/-- Without `ORDER BY` the rows of a table come in an order the engine chooses. -/
structure Scan where
  order : ∀ {α : Type}, List α → List α
  perm : ∀ {α : Type} (rows : List α), (order rows).Perm rows

def readSession (scan : Scan) (db : Db) : PersistedSession :=
  let us := db.updateState.getD ⟨0, 0, 0, 0⟩
  { homeDcId := db.homeDcId.getD 0
    dcs := (scan.order db.dcs).map DcRow.toEntry
    updatesState := { pts := us.pts, qts := us.qts, date := us.date, seq := us.seq
                      channels := scan.order db.channelPts }
    peers := (scan.order db.peers).map PeerRow.toPeer
    minPeers := scan.order db.minPeers
    futureAuthToken := db.futureAuthToken }

/-- `SELECT COUNT(*) FROM meta` is 0. -/
def Db.metaEmpty (db : Db) : Bool := db.homeDcId.isNone && db.futureAuthToken.isNone

/-! The rows of a session. -/

def dcRows (s : PersistedSession) : List Row := s.dcs.map fun d => .dc (.ofEntry d)
def channelRows (s : PersistedSession) : List Row := s.updatesState.channels.map fun c => .channel c.1 c.2
def peerRows (s : PersistedSession) : List Row := s.peers.map fun p => .peer (.ofPeer p)
def minPeerRows (s : PersistedSession) : List Row := s.minPeers.map .minPeer

def inserts (rows : List Row) : List Stmt := rows.map .insert

def updateRow (u : UpdatesStateSnap) : UpdateRow := { pts := u.pts, qts := u.qts, date := u.date, seq := u.seq }

/-- The statements of `write_session` between `BEGIN` and `COMMIT`. -/
def writeSession (s : PersistedSession) : List Stmt :=
  .upsertHomeDcId s.homeDcId :: s.futureAuthToken.elim .deleteToken .upsertToken ::
    .deleteFrom .dcs :: (inserts (dcRows s) ++
    .writeUpdateState (updateRow s.updatesState) ::
    .deleteFrom .channelPts :: (inserts (channelRows s) ++
    .deleteFrom .peers :: (inserts (peerRows s) ++
    .deleteFrom .minPeers :: inserts (minPeerRows s))))

/-- What the world does to each statement of a call. -/
abbrev World := Nat → Option Fault

def save (w : World) (s : PersistedSession) (c : Conn Db) : Conn Db × Bool :=
  run Stmt.step w 0 (transaction (writeSession s)) c

def load (scan : Scan) (c : Conn Db) : Option PersistedSession :=
  if c.view.metaEmpty then none else some (readSession scan c.view)

/-- A connection that was just opened. -/
def opened (db : Db) : Conn Db := { committed := db, pending := none }

/-! What a failed save leaves behind. -/

/-- If the save fails, a load gives what it gave before, and every later save that would
succeed on a fresh connection succeeds. -/
def Unharmed (scan : Scan) (w : World) (s : PersistedSession) (c : Conn Db) : Prop :=
  (save w s c).2 = false →
    load scan (save w s c).1 = load scan c ∧
    ∀ w' s', (save w' s' (opened c.committed)).2 = true → (save w' s' (save w s c).1).2 = true

/-- The key inserted at a place of the script, `BEGIN` at place 0. -/
def keyAt (s : PersistedSession) : Nat → Option Key
  | 0 => none
  | i + 1 => (writeSession s)[i]?.bind Stmt.key?

/-- The statement at place `i` inserts a key that an earlier one has inserted. -/
def Clash (s : PersistedSession) (i : Nat) : Prop :=
  ∃ k, keyAt s i = some k ∧ ∃ j, j < i ∧ keyAt s j = some k

/-! The keys that are taken, statement by statement. -/

theorem insert_eq_none {db : Db} {row : Row} : db.insert row = none ↔ row.key ∈ db.keys := by
  cases row with
  | dc r => simp [Db.insert, Db.keys, insertRow_eq_none, Row.key, DcRow.key, channelKey, PeerRow.key, minPeerKey]
  | channel id pts =>
    simp [Db.insert, Db.keys, insertRow_eq_none, Row.key, DcRow.key, channelKey, PeerRow.key, minPeerKey]
  | peer r => simp [Db.insert, Db.keys, insertRow_eq_none, Row.key, DcRow.key, channelKey, PeerRow.key, minPeerKey]
  | minPeer r =>
    simp [Db.insert, Db.keys, insertRow_eq_none, Row.key, DcRow.key, channelKey, PeerRow.key, minPeerKey]

theorem mem_keys_insert {db db' : Db} {row : Row} (h : db.insert row = some db') (k : Key) :
    k ∈ db'.keys ↔ k ∈ db.keys ∨ k = row.key := by
  cases row
  all_goals
    obtain ⟨rows, hrows, rfl⟩ := Option.map_eq_some_iff.mp h
    obtain ⟨-, rfl⟩ := insertRow_eq_some.mp hrows
    simp only [Db.keys, List.map_append, List.map_cons, List.map_nil, List.mem_append, List.mem_singleton, Row.key]
    tauto

theorem mem_keys_clear {db : Db} {t : Table} {k : Key} : k ∈ (db.clear t).keys ↔ k ∈ db.keys ∧ k.table ≠ t := by
  have hdc : ∀ r : DcRow, r.key.table = .dcs := fun _ => rfl
  have hchannel : ∀ c : Int64 × Int32, (channelKey c).table = .channelPts := fun _ => rfl
  have hpeer : ∀ r : PeerRow, r.key.table = .peers := fun _ => rfl
  have hmin : ∀ m : CachedMinPeer, (minPeerKey m).table = .minPeers := fun _ => rfl
  cases t <;> simp only [Db.clear, Db.keys, List.map_nil, List.mem_append, List.mem_map, List.not_mem_nil] <;>
    constructor <;> grind

/-- The tables a script has emptied. -/
def cleared (ts : List Table) : List Stmt → List Table
  | [] => ts
  | .deleteFrom t :: ss => cleared (t :: ts) ss
  | _ :: ss => cleared ts ss

/-- A script that inserts only into tables it has emptied before, each emptied once; `ts`
are the tables emptied so far. -/
def Ordered (ts : List Table) : List Stmt → Prop
  | [] => True
  | .deleteFrom t :: ss => t ∉ ts ∧ Ordered (t :: ts) ss
  | .insert row :: ss => row.key.table ∈ ts ∧ Ordered ts ss
  | .upsert _ :: _ => False
  | _ :: ss => Ordered ts ss

theorem ordered_append (a b : List Stmt) (ts : List Table) :
    Ordered ts (a ++ b) ↔ Ordered ts a ∧ Ordered (cleared ts a) b := by
  induction a generalizing ts with
  | nil => simp [Ordered, cleared]
  | cons s a ih => cases s <;> simp [Ordered, cleared, ih, and_assoc]

/-- Rows of a table right after it has been emptied. -/
theorem ordered_inserts {t : Table} (ts : List Table) {rows : List Row} (rest : List Stmt)
    (hrows : ∀ r ∈ rows, r.key.table = t) (hrest : Ordered (t :: ts) rest) :
    Ordered (t :: ts) (inserts rows ++ rest) := by
  induction rows with
  | nil => exact hrest
  | cons r rows ih =>
    refine ⟨?_, ih fun r' hr' => hrows r' (List.mem_cons_of_mem r hr')⟩
    rw [hrows r List.mem_cons_self]
    exact List.mem_cons_self

/-- As long as a script runs, the keys of a table it has emptied are those it has
inserted. -/
theorem keys_stepAll (ss : List Stmt) (ts : List Table) (seen : List Key) (db db' : Db)
    (hord : Ordered ts ss) (hkeys : ∀ k : Key, k.table ∈ ts → (k ∈ db.keys ↔ k ∈ seen))
    (hseen : ∀ k ∈ seen, k.table ∈ ts) (hrun : stepAll Stmt.step ss db = some db') :
    ∀ k : Key, k.table ∈ cleared ts ss → (k ∈ db'.keys ↔ k ∈ seen ++ ss.filterMap Stmt.key?) := by
  induction ss generalizing ts seen db with
  | nil =>
    obtain rfl : db = db' := Option.some.inj hrun
    simpa [cleared] using hkeys
  | cons s ss ih =>
    cases s with
    | deleteFrom t =>
      have hrest : stepAll Stmt.step ss (db.clear t) = some db' := stepAll_of_cons (by rfl) hrun
      refine ih (t :: ts) seen (db.clear t) hord.2 ?_ (fun k hk => List.mem_cons_of_mem t (hseen k hk)) hrest
      intro k hk
      rw [mem_keys_clear]
      rcases List.mem_cons.mp hk with rfl | hk
      · -- Nothing of a table that is emptied now has been inserted before.
        exact ⟨fun h => absurd rfl h.2, fun h => absurd (hseen k h) hord.1⟩
      · have hne : k.table ≠ t := fun heq => hord.1 (heq ▸ hk)
        exact ⟨fun h => (hkeys k hk).mp h.1, fun h => ⟨(hkeys k hk).mpr h, hne⟩⟩
    | insert row =>
      cases hins : db.insert row with
      | none => simp [stepAll, Stmt.step, hins] at hrun
      | some db₁ =>
        have hsplit : seen ++ (Stmt.insert row :: ss).filterMap Stmt.key? =
            seen ++ [row.key] ++ ss.filterMap Stmt.key? := by
          simp [Stmt.key?]
        have hrest : stepAll Stmt.step ss db₁ = some db' := stepAll_of_cons (by exact hins) hrun
        rw [hsplit]
        refine ih ts (seen ++ [row.key]) db₁ hord.2 ?_ ?_ hrest
        · intro k hk
          rw [mem_keys_insert hins, hkeys k hk, List.mem_append, List.mem_singleton]
        · intro k hk
          rcases List.mem_append.mp hk with hk | hk
          · exact hseen k hk
          · rw [List.mem_singleton.mp hk]
            exact hord.1
    | upsert row => exact hord.elim
    | _ =>
      -- No other statement touches a table with keys.
      have hrest := stepAll_of_cons (by rfl) hrun
      exact ih ts seen _ hord (by exact hkeys) hseen hrest

theorem dcRows_table {s : PersistedSession} {r : Row} (h : r ∈ dcRows s) : r.key.table = .dcs := by
  obtain ⟨d, -, rfl⟩ := List.mem_map.mp h
  rfl

theorem channelRows_table {s : PersistedSession} {r : Row} (h : r ∈ channelRows s) :
    r.key.table = .channelPts := by
  obtain ⟨c, -, rfl⟩ := List.mem_map.mp h
  rfl

theorem peerRows_table {s : PersistedSession} {r : Row} (h : r ∈ peerRows s) : r.key.table = .peers := by
  obtain ⟨p, -, rfl⟩ := List.mem_map.mp h
  rfl

theorem minPeerRows_table {s : PersistedSession} {r : Row} (h : r ∈ minPeerRows s) :
    r.key.table = .minPeers := by
  obtain ⟨m, -, rfl⟩ := List.mem_map.mp h
  rfl

theorem writeSession_ordered (s : PersistedSession) : Ordered [] (writeSession s) := by
  have hmin := ordered_inserts [.peers, .channelPts, .dcs] [] (fun r => minPeerRows_table (s := s)) trivial
  rw [List.append_nil] at hmin
  have hpeers := ordered_inserts [.channelPts, .dcs] (.deleteFrom .minPeers :: inserts (minPeerRows s))
    (fun r => peerRows_table (s := s)) ⟨by decide, hmin⟩
  have hchannels := ordered_inserts [.dcs]
    (.deleteFrom .peers :: (inserts (peerRows s) ++ .deleteFrom .minPeers :: inserts (minPeerRows s)))
    (fun r => channelRows_table (s := s)) ⟨by decide, hpeers⟩
  have hdcs := ordered_inserts []
    (.writeUpdateState (updateRow s.updatesState) :: .deleteFrom .channelPts :: (inserts (channelRows s) ++
      .deleteFrom .peers :: (inserts (peerRows s) ++ .deleteFrom .minPeers :: inserts (minPeerRows s))))
    (fun r => dcRows_table (s := s)) ⟨by decide, hchannels⟩
  unfold writeSession
  cases s.futureAuthToken with
  | none => exact ⟨by decide, hdcs⟩
  | some token => exact ⟨by decide, hdcs⟩

theorem mem_take_iff {l : List Stmt} {st : Stmt} {i : Nat} : st ∈ l.take i ↔ ∃ j, j < i ∧ l[j]? = some st := by
  rw [List.mem_iff_getElem?]
  simp only [List.getElem?_take, Option.ite_none_right_eq_some]

/-- The statement at place `i` fails on its own account exactly when its key has been
inserted before. -/
theorem step_eq_none_iff {s : PersistedSession} {i : Nat} {st : Stmt} {db db' : Db}
    (hst : (writeSession s)[i]? = some st)
    (hrun : stepAll Stmt.step ((writeSession s).take i) db = some db') : st.step db' = none ↔ Clash s (1 + i) := by
  have hat : keyAt s (1 + i) = st.key? := by
    rw [Nat.add_comm, keyAt, hst]
    rfl
  have hbefore : ∀ k, (∃ j, j < 1 + i ∧ keyAt s j = some k) ↔
      k ∈ ((writeSession s).take i).filterMap Stmt.key? := by
    intro k
    rw [List.mem_filterMap]
    constructor
    · rintro ⟨j, hj, hkey⟩
      cases j with
      | zero => cases hkey
      | succ j =>
        obtain ⟨st', hst', hkey'⟩ := Option.bind_eq_some_iff.mp hkey
        exact ⟨st', mem_take_iff.mpr ⟨j, by omega, hst'⟩, hkey'⟩
    · rintro ⟨st', hmem, hkey⟩
      obtain ⟨j, hj, hst'⟩ := mem_take_iff.mp hmem
      exact ⟨j + 1, by omega, by rw [keyAt, hst']; exact hkey⟩
  cases st with
  | insert row =>
    have hord := writeSession_ordered s
    obtain ⟨hlt, hget⟩ := List.getElem?_eq_some_iff.mp hst
    rw [← List.take_append_drop i (writeSession s), ordered_append, List.drop_eq_getElem_cons hlt, hget] at hord
    have hkeys := keys_stepAll _ [] [] db db' hord.1 (fun k hk => by cases hk) (fun k hk => by cases hk) hrun
      row.key hord.2.1
    rw [List.nil_append, ← hbefore] at hkeys
    unfold Clash
    rw [Stmt.step, insert_eq_none, hkeys, hat]
    simp [Stmt.key?]
  | _ =>
    constructor
    · intro h
      cases h
    · rintro ⟨k, hk, -⟩
      rw [hat] at hk
      cases hk

theorem keyAt_last (s : PersistedSession) : keyAt s (1 + (writeSession s).length) = none := by
  rw [Nat.add_comm, keyAt, List.getElem?_eq_none (Nat.le_refl _)]
  rfl

theorem not_clash_of_keyAt {s : PersistedSession} {i : Nat} (h : keyAt s i = none) : ¬ Clash s i := by
  rintro ⟨k, hk, -⟩
  rw [h] at hk
  cases hk

/-- Inside a transaction every save is refused at `BEGIN`. -/
theorem save_in_transaction {w : World} {s : PersistedSession} {c : Conn Db} {v : Db} (hc : c.pending = some v) :
    save w s c = (c, false) := by
  have hexec : exec Stmt.step (w 0) c .begin = (c, false) := by
    cases hw : w 0 with
    | none =>
      rw [exec_none]
      simp only [attempt, hc]
    | some fault => cases fault <;> rfl
  unfold save transaction
  exact run_cons_fail hexec

/-- A connection left inside a transaction is of no more use. -/
theorem harmed_of_open {scan : Scan} {w : World} {s : PersistedSession} {c : Conn Db} {v : Db}
    (hfail : (save w s c).2 = false) (hpending : (save w s c).1.pending = some v) : ¬ Unharmed scan w s c := by
  intro h
  have hsave := (h hfail).2 (fun _ => none) PersistedSession.default (by
    cases c with
    | mk committed pending => rfl)
  rw [save_in_transaction hpending] at hsave
  cases hsave

/-- **A failed save.** It does no harm exactly when the connection was not inside a
transaction already and the first statement that fails, if one does, is `BEGIN` or makes
the engine roll back. A statement fails when the world makes it fail or when it inserts a
key for the second time. -/
theorem failedSave_unharmed_iff (scan : Scan) (w : World) (s : PersistedSession) (c : Conn Db) :
    Unharmed scan w s c ↔ c.pending = none ∧
      ∀ i, i ≤ 1 + (writeSession s).length → FirstFail w (Clash s) 0 i → i = 0 ∨ w i = some .rolledBack := by
  obtain ⟨db, pending⟩ := c
  cases pending with
  | some v =>
    have hsave : save w s { committed := db, pending := some v } = ({ committed := db, pending := some v }, false) :=
      save_in_transaction rfl
    constructor
    · -- nothing fails
      intro h
      exact absurd h (harmed_of_open (v := v) (by rw [hsave]) (by rw [hsave]))
    · -- the first failure
      rintro ⟨h, -⟩
      cases h
  | none =>
    have hbad : ∀ i st db', (writeSession s)[i]? = some st →
        stepAll Stmt.step ((writeSession s).take i) db = some db' → (Stmt.step st db' = none ↔ Clash s (1 + i)) :=
      fun i st db' hst hrun => step_eq_none_iff hst hrun
    rcases run_transaction (w := w) (not_clash_of_keyAt rfl) (not_clash_of_keyAt (keyAt_last s)) hbad with
      ⟨v', -, hrun, hnone⟩ | ⟨i, hle, hfirst, hfail, hcommitted, hpending⟩
    · have hok : (save w s { committed := db, pending := none }).2 = true := by
        unfold save
        rw [hrun]
      constructor
      · intro _
        refine ⟨rfl, ?_⟩
        intro i hi hfirst
        have hgood := hnone i hi
        rcases hfirst.fails with h | h
        · exact absurd hgood.1 h
        · exact absurd h hgood.2
      · intro _ hfail
        rw [hok] at hfail
        cases hfail
    · constructor
      · intro h
        refine ⟨rfl, ?_⟩
        intro i' _ hfirst'
        rw [hfirst'.unique hfirst]
        by_contra hopen
        obtain ⟨v, hv⟩ := Option.ne_none_iff_exists'.mp (mt hpending.mp hopen)
        exact harmed_of_open hfail hv h
      · rintro ⟨-, h⟩ _
        have hsave : (save w s { committed := db, pending := none }).1 = opened db := by
          have hp := hpending.mpr (h i hle hfirst)
          cases hres : (save w s { committed := db, pending := none }).1 with
          | mk committed pending =>
            unfold save at hres
            rw [hres] at hcommitted hp
            obtain rfl : committed = db := hcommitted
            obtain rfl : pending = none := hp
            rfl
        rw [hsave]
        exact ⟨rfl, fun _ _ hok => hok⟩

/-- The rows come in the order of the table. -/
def tableOrder : Scan := { order := fun rows => rows, perm := fun rows => List.Perm.refl rows }

/-- A user and a group with one id. -/
def sharedId : PersistedSession :=
  { PersistedSession.default with
    peers := [⟨7, 5, false, false, none, false⟩, ⟨7, 0, false, true, none, false⟩] }

/-- Saving it over a stored session leaves the connection inside the transaction. -/
theorem sharedId_harms :
    ¬ Unharmed tableOrder (fun _ => none) sharedId
      (save (fun _ => none) PersistedSession.default (opened Db.empty)).1 := by
  have hopen : (save (fun _ => none) sharedId
      (save (fun _ => none) PersistedSession.default (opened Db.empty)).1).1.pending.isSome = true := rfl
  obtain ⟨v, hv⟩ := Option.isSome_iff_exists.mp hopen
  exact harmed_of_open rfl hv

end Ferogram.Session.Sqlite
