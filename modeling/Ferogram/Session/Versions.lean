import Mathlib.Tactic.IntervalCases
import Ferogram.Session.Format

/- The eight versions of the session file and how `from_bytes` reads them.

   `prescribed v s` are the bytes of a session `s` in the format of version `v`, as
   the comments and tests of `from_bytes` lay it out: version 1 has no version byte and
   ends after the DC table, 3 adds the DC flags, 4 the min peers, 5 the chats among
   the peers, 6 the channel kinds, 7 the token, 8 the communities. `to_bytes` writes
   version 8 (`toBytes_eq`). A session is expressible in a version if its counts and
   lengths fit their fields, no peer is two kinds of peer, and what the version has no
   field for is at its default.

   Every part is read back exactly (`reads_body`), and so are files with a version
   byte (`reads_prescribed`). A version 1 file is read back exactly when its first
   byte, the low byte of `home_dc_id`, is not one of the later version bytes
   (`fromBytes_prescribed_iff`): the home DCs 2 to 5 are read as versions 2 to 5. -/
namespace Ferogram.Session
open Bytes Reader

/-! The formats. -/

def headerIn (v : Nat) (homeDcId : Int32) : List UInt8 :=
  (if 2 ≤ v then [UInt8.ofNat v] else []) ++ ofI32 homeDcId

def dcIn (v : Nat) (d : DcEntry) : List UInt8 :=
  ofI32 d.dcId ++ authKeyToBytes d.authKey ++ ofI64 d.firstSalt ++ ofI32 d.timeOffset ++
    addrToBytes d.addr ++ (if 3 ≤ v then [d.flags.bits] else [])

def peerIn (v : Nat) (p : CachedPeer) : List UInt8 :=
  ofI64 p.id ++ ofI64 p.accessHash ++ [peerType p] ++
    (if 6 ≤ v then [channelKindByte p] else []) ++
    (if 8 ≤ v then [if p.isCommunity then 1 else 0] else [])

def minPeersIn (v : Nat) (ms : List CachedMinPeer) : List UInt8 :=
  if 4 ≤ v then countU16 ms.length ++ ms.flatMap minPeerToBytes else []

def tokenIn (v : Nat) (t : Option (List UInt8)) : List UInt8 :=
  if 7 ≤ v then tokenToBytes t else []

/-- What follows the DC table. -/
def restIn (v : Nat) (s : PersistedSession) : List UInt8 :=
  if v < 2 then []
  else
    updatesToBytes s.updatesState ++ countU16 s.peers.length ++ s.peers.flatMap (peerIn v) ++
      minPeersIn v s.minPeers ++ tokenIn v s.futureAuthToken

def bodyIn (v : Nat) (s : PersistedSession) : List UInt8 :=
  countU8 s.dcs.length ++ s.dcs.flatMap (dcIn v) ++ restIn v s

/-- The bytes of `s` in the format of version `v`. -/
def prescribed (v : Nat) (s : PersistedSession) : List UInt8 := headerIn v s.homeDcId ++ bodyIn v s

theorem toBytes_eq (s : PersistedSession) : s.toBytes = prescribed 8 s := by
  have hdc : dcIn 8 = dcToBytes := by
    funext d
    simp [dcIn, dcToBytes]
  have hpeer : peerIn 8 = peerToBytes := by
    funext p
    simp [peerIn, peerToBytes]
  simp [PersistedSession.toBytes, prescribed, headerIn, bodyIn, restIn, minPeersIn, tokenIn, hdc,
    hpeer]

/-- The counts and lengths fit their fields, and no peer is both a channel and a
regular group. -/
structure Fits (s : PersistedSession) : Prop where
  dcs : s.dcs.length < 256
  addrs : ∀ d ∈ s.dcs, (Utf8.encode d.addr).length < 256
  channels : s.updatesState.channels.length < 65536
  peers : s.peers.length < 65536
  kinds : ∀ p ∈ s.peers, ¬ (p.isChat = true ∧ p.isChannel = true)
  minPeers : s.minPeers.length < 65536
  token : ∀ t ∈ s.futureAuthToken, t.length < 65536

/-- What version `v` has no field for is at its default. -/
structure OnlyFields (v : Nat) (s : PersistedSession) : Prop where
  updates : v < 2 → s.updatesState = .default ∧ s.peers = []
  flags : v < 3 → ∀ d ∈ s.dcs, d.flags = DcFlags.NONE
  minPeers : v < 4 → s.minPeers = []
  chats : v < 5 → ∀ p ∈ s.peers, p.isChat = false
  kinds : v < 6 → ∀ p ∈ s.peers, p.channelKind = none
  token : v < 7 → s.futureAuthToken = none
  communities : v < 8 → ∀ p ∈ s.peers, p.isCommunity = false

/-- The session can be written in version `v`. -/
def ExpressibleIn (v : Nat) (s : PersistedSession) : Prop := Fits s ∧ OnlyFields v s

/-! Each part is read back. -/

/-- The reader reads exactly these bytes and returns this value, or finds them truncated. -/
abbrev ReadsBack {α : Type} (p : Reader SessionError α) (b : List UInt8) (a : α) : Prop :=
  Reads SessionError.truncated p b a

theorem reads_bytes {n : Nat} {b : List UInt8} (h : b.length = n) :
    ReadsBack (bytes n) b ⟨b, h⟩ := Reads.take' (⟨b, h⟩ : List.Vector UInt8 n)

theorem reads_i32 (x : Int32) : ReadsBack readI32 (ofI32 x) x :=
  (reads_bytes (ofI32_length x)).map' (toI32_ofI32 x)

theorem reads_i64 (x : Int64) : ReadsBack readI64 (ofI64 x) x :=
  (reads_bytes (ofI64_length x)).map' (toI64_ofI64 x)

theorem reads_u8 (b : UInt8) : ReadsBack readU8 [b] b :=
  (reads_bytes (b := [b]) rfl).map' rfl

theorem reads_u16 {n : Nat} (h : n < 65536) : ReadsBack readU16 (countU16 n) n :=
  (reads_bytes (le_length 2 n)).map' (ofLe_le_of_lt h)

theorem reads_authKey (k : Option (List.Vector UInt8 256)) :
    ReadsBack readAuthKey (authKeyToBytes k) k := by
  cases k with
  | none => exact (reads_u8 0).bind' (c := []) (Reads.pure' none)
  | some k => exact (reads_u8 1).bind' ((reads_bytes k.2).map' rfl)

theorem reads_addr {addr : String} (h : (Utf8.encode addr).length < 256) :
    ReadsBack readAddr (addrToBytes addr) addr := by
  have hlen : (Utf8.encode addr).length = (UInt8.ofNat (Utf8.encode addr).length).toNat := by
    rw [UInt8.toNat_ofNat', Nat.mod_eq_of_lt h]
  exact (reads_u8 (UInt8.ofNat _)).bind'
    ((reads_bytes hlen).map' (Utf8.decodeLossy_encode addr))

theorem reads_flags {v : Nat} {flags : DcFlags} (h : v < 3 → flags = DcFlags.NONE) :
    ReadsBack (readFlags v) (if 3 ≤ v then [flags.bits] else []) flags := by
  unfold readFlags
  by_cases hv : 3 ≤ v
  · rw [if_pos hv, if_pos hv]
    exact (reads_u8 flags.bits).map' rfl
  · rw [if_neg hv, if_neg hv, h (by omega)]
    exact Reads.pure' _

theorem reads_dc {v : Nat} {d : DcEntry} (haddr : (Utf8.encode d.addr).length < 256)
    (hflags : v < 3 → d.flags = DcFlags.NONE) : ReadsBack (readDc v) (dcIn v d) d := by
  unfold dcIn
  simp only [List.append_assoc]
  exact (reads_i32 d.dcId).bind' ((reads_authKey d.authKey).bind' ((reads_i64 d.firstSalt).bind'
    ((reads_i32 d.timeOffset).bind' ((reads_addr haddr).bind' ((reads_flags hflags).map' rfl)))))

theorem reads_channel (c : Int64 × Int32) : ReadsBack readChannel (channelToBytes c) c :=
  (reads_i64 c.1).bind' ((reads_i32 c.2).map' rfl)

theorem reads_updates {u : UpdatesStateSnap} (h : u.channels.length < 65536) :
    ReadsBack readUpdates (updatesToBytes u) u := by
  have hchannels : ReadsBack (many readChannel u.channels.length)
      (u.channels.flatMap channelToBytes) u.channels :=
    Reads.many' u.channels (fun c _ => reads_channel c)
  unfold updatesToBytes
  simp only [List.append_assoc]
  exact (reads_i32 u.pts).bind' ((reads_i32 u.qts).bind' ((reads_i32 u.date).bind'
    ((reads_i32 u.seq).bind' ((reads_u16 h).bind' (hchannels.map' rfl)))))

theorem reads_channelKind {v : Nat} {p : CachedPeer} (h : v < 6 → p.channelKind = none) :
    ReadsBack (readChannelKind v) (if 6 ≤ v then [channelKindByte p] else []) p.channelKind := by
  unfold readChannelKind
  by_cases hv : 6 ≤ v
  · rw [if_pos hv, if_pos hv]
    apply (reads_u8 (channelKindByte p)).map'
    unfold channelKindByte
    rcases p.channelKind with _ | kind
    · rfl
    · cases kind <;> rfl
  · rw [if_neg hv, if_neg hv, h (by omega)]
    exact Reads.pure' _

theorem reads_community {v : Nat} {c : Bool} (h : v < 8 → c = false) :
    ReadsBack (readCommunity v) (if 8 ≤ v then [if c then 1 else 0] else []) c := by
  unfold readCommunity
  by_cases hv : 8 ≤ v
  · rw [if_pos hv, if_pos hv]
    apply (reads_u8 _).map'
    cases c <;> rfl
  · rw [if_neg hv, if_neg hv, h (by omega)]
    exact Reads.pure' _

/-- The type byte tells the three kinds of peer apart. -/
theorem peerType_eq {p : CachedPeer} (h : ¬ (p.isChat = true ∧ p.isChannel = true)) :
    (peerType p == 1) = p.isChannel ∧ (peerType p == 2) = p.isChat := by
  unfold peerType
  cases hchat : p.isChat <;> cases hchannel : p.isChannel <;> simp_all

theorem reads_peer {v : Nat} {p : CachedPeer} (hpeer : ¬ (p.isChat = true ∧ p.isChannel = true))
    (hkind : v < 6 → p.channelKind = none) (hcommunity : v < 8 → p.isCommunity = false) :
    ReadsBack (readPeer v) (peerIn v p) p := by
  obtain ⟨hchannel, hchat⟩ := peerType_eq hpeer
  unfold peerIn
  simp only [List.append_assoc]
  refine (reads_i64 p.id).bind' ((reads_i64 p.accessHash).bind' ((reads_u8 (peerType p)).bind'
    ((reads_channelKind hkind).bind' ((reads_community hcommunity).map' ?_))))
  rw [hchannel, hchat]

theorem reads_minPeer (m : CachedMinPeer) : ReadsBack readMinPeer (minPeerToBytes m) m := by
  unfold minPeerToBytes
  simp only [List.append_assoc]
  exact (reads_i64 m.userId).bind' ((reads_i64 m.peerId).bind' ((reads_i32 m.msgId).map' rfl))

theorem reads_minPeers {v : Nat} {ms : List CachedMinPeer} (hlen : ms.length < 65536)
    (h : v < 4 → ms = []) : ReadsBack (readMinPeers v) (minPeersIn v ms) ms := by
  unfold readMinPeers minPeersIn
  by_cases hv : 4 ≤ v
  · rw [if_pos hv, if_pos hv]
    exact (reads_u16 hlen).bind' (Reads.many' ms (fun m _ => reads_minPeer m))
  · rw [if_neg hv, if_neg hv, h (by omega)]
    exact Reads.pure' _

theorem reads_token {v : Nat} {t : Option (List UInt8)} (hlen : ∀ b ∈ t, b.length < 65536)
    (h : v < 7 → t = none) : ReadsBack (readToken v) (tokenIn v t) t := by
  unfold readToken tokenIn
  by_cases hv : 7 ≤ v
  · rw [if_pos hv, if_pos hv]
    cases t with
    | none => exact (reads_u8 0).bind' (c := []) (Reads.pure' none)
    | some b =>
      unfold tokenToBytes
      simp only [List.append_assoc]
      exact (reads_u8 1).bind' ((reads_u16 (hlen b rfl)).bind' ((reads_bytes rfl).map' rfl))
  · rw [if_neg hv, if_neg hv, h (by omega)]
    exact Reads.pure' _

theorem reads_rest {v : Nat} {s : PersistedSession} (h : ExpressibleIn v s) :
    ReadsBack (readRest v s.homeDcId s.dcs) (restIn v s) s := by
  obtain ⟨hfits, honly⟩ := h
  unfold readRest restIn
  by_cases hv : v < 2
  · rw [if_pos hv, if_pos hv]
    obtain ⟨hupdates, hpeers⟩ := honly.updates hv
    have hs : PersistedSession.mk s.homeDcId s.dcs .default [] [] none = s := by
      rw [← hupdates, ← hpeers, ← honly.minPeers (by omega), ← honly.token (by omega)]
    rw [hs]
    exact Reads.pure' s
  · rw [if_neg hv, if_neg hv]
    have hpeers : ReadsBack (many (readPeer v) s.peers.length) (s.peers.flatMap (peerIn v))
        s.peers := by
      apply Reads.many'
      intro p hp
      exact reads_peer (hfits.kinds p hp) (fun hlt => honly.kinds hlt p hp)
        (fun hlt => honly.communities hlt p hp)
    simp only [List.append_assoc]
    exact (reads_updates hfits.channels).bind' ((reads_u16 hfits.peers).bind' (hpeers.bind'
      ((reads_minPeers hfits.minPeers honly.minPeers).bind'
        ((reads_token hfits.token honly.token).map' rfl))))

theorem reads_body {v : Nat} {s : PersistedSession} (h : ExpressibleIn v s) :
    ReadsBack (readBody (s.homeDcId, v)) (bodyIn v s) s := by
  have hdcs : ReadsBack (many (readDc v) s.dcs.length) (s.dcs.flatMap (dcIn v)) s.dcs := by
    apply Reads.many'
    intro d hd
    exact reads_dc (h.1.addrs d hd) (fun hlt => h.2.flags hlt d hd)
  have hcount : s.dcs.length = (UInt8.ofNat s.dcs.length).toNat := by
    rw [UInt8.toNat_ofNat', Nat.mod_eq_of_lt h.1.dcs]
  rw [hcount] at hdcs
  unfold bodyIn
  simp only [List.append_assoc]
  exact (reads_u8 (UInt8.ofNat s.dcs.length)).bind' (hdcs.bind' (reads_rest h))

/-- The version byte of a file from version 2 on. -/
theorem header_versioned {v : Nat} (h2 : 2 ≤ v) (h8 : v ≤ 8) :
    header (UInt8.ofNat v) = versioned v := by
  interval_cases v <;> rfl

/-- The bytes that `from_bytes` takes for a version. -/
def IsVersionByte (b : UInt8) : Prop := 2 ≤ b ∧ b ≤ 8

instance (b : UInt8) : Decidable (IsVersionByte b) := inferInstanceAs (Decidable (_ ∧ _))

theorem header_versionByte {b : UInt8} (h : IsVersionByte b) :
    header b = versioned b.toNat := by
  have h2 : 2 ≤ b.toNat := h.1
  have h8 : b.toNat ≤ 8 := h.2
  have hv := header_versioned h2 h8
  rwa [UInt8.ofNat_toNat] at hv

theorem header_unversioned {b : UInt8} (h : ¬ IsVersionByte b) :
    header b = (do let rest ← bytes 3; pure (toI32 (b :: rest.1), 1)) := by
  have hne : ∀ c : UInt8, IsVersionByte c → b ≠ c := by
    rintro c hc rfl
    exact h hc
  unfold header
  rw [if_neg (hne 8 (by decide)), if_neg (hne 7 (by decide)), if_neg (hne 6 (by decide)),
    if_neg (hne 5 (by decide)), if_neg (hne 4 (by decide)), if_neg (hne 3 (by decide)),
    if_neg (hne 2 (by decide))]

/-- The first byte of a version 1 file. -/
def lowByte (x : Int32) : UInt8 := UInt8.ofNat x.toUInt32.toNat

/-- The other three bytes of a little-endian `i32`. -/
def highBytes (x : Int32) : List UInt8 := le 3 (x.toUInt32.toNat / 256)

theorem ofI32_eq (x : Int32) : ofI32 x = lowByte x :: highBytes x := rfl

theorem reads_header {v : Nat} (h1 : 1 ≤ v) (h8 : v ≤ 8) {x : Int32}
    (hx : v = 1 → ¬ IsVersionByte (lowByte x)) : ReadsBack readHeader (headerIn v x) (x, v) := by
  unfold headerIn
  by_cases hv : 2 ≤ v
  · rw [if_pos hv]
    refine (reads_u8 (UInt8.ofNat v)).bind' ?_
    rw [header_versioned hv h8]
    exact (reads_i32 x).map' rfl
  · obtain rfl : v = 1 := by omega
    rw [if_neg hv, List.nil_append, ofI32_eq]
    refine (reads_u8 (lowByte x)).bind' (c := highBytes x) ?_
    rw [header_unversioned (hx rfl)]
    apply (reads_bytes (le_length 3 _)).map'
    show (toI32 (lowByte x :: highBytes x), 1) = (x, 1)
    rw [← ofI32_eq, toI32_ofI32]

theorem reads_prescribed {v : Nat} {s : PersistedSession} (h1 : 1 ≤ v) (h8 : v ≤ 8)
    (h : ExpressibleIn v s) (hx : v = 1 → ¬ IsVersionByte (lowByte s.homeDcId)) :
    ReadsBack readSession (prescribed v s) s :=
  (reads_header h1 h8 hx).bind' (reads_body h)

/-- What a reader reads back, `from_bytes` returns, whatever follows. -/
theorem fromBytes_of_reads {b : List UInt8} {s : PersistedSession}
    (h : ReadsBack readSession b s) (hb : b ≠ []) (rest : List UInt8) :
    PersistedSession.fromBytes (b ++ rest) = .ok s := by
  unfold PersistedSession.fromBytes
  rw [if_neg (by simp [hb]), h.full rest]

/-! A version 1 file that begins like a later one. -/

theorem readI32_run {b : List UInt8} (hb : b.length = 4) (rest : List UInt8) :
    readI32.run (b ++ rest) = .ok (toI32 b, rest) := by
  have h : ReadsBack readI32 b (toI32 b) := (reads_bytes hb).map' rfl
  exact h.full rest

/-- The id of a DC is denoted by the first four bytes of its entry. -/
theorem readDc_dcId {v : Nat} {b rest r : List UInt8} {d : DcEntry} (hb : b.length = 4)
    (h : (readDc v).run (b ++ rest) = .ok (d, r)) : toI32 b = d.dcId := by
  obtain ⟨id, mid, hid, h⟩ := bind_ok h
  rw [readI32_run hb] at hid
  obtain ⟨_, _, -, h⟩ := bind_ok h
  obtain ⟨_, _, -, h⟩ := bind_ok h
  obtain ⟨_, _, -, h⟩ := bind_ok h
  obtain ⟨_, _, -, h⟩ := bind_ok h
  obtain ⟨_, _, -, h⟩ := bind_ok h
  rw [(pure_ok h).1]
  cases hid
  rfl

/-- The DC table and the home DC are taken over from what was read before. -/
theorem readRest_ok {v : Nat} {home : Int32} {dcs : List DcEntry} {b r : List UInt8}
    {s : PersistedSession} (h : (readRest v home dcs).run b = .ok (s, r)) :
    s.homeDcId = home ∧ s.dcs = dcs := by
  unfold readRest at h
  split at h
  · cases h
    exact ⟨rfl, rfl⟩
  · obtain ⟨_, _, -, h⟩ := bind_ok h
    obtain ⟨_, _, -, h⟩ := bind_ok h
    obtain ⟨_, _, -, h⟩ := bind_ok h
    obtain ⟨_, _, -, h⟩ := bind_ok h
    obtain ⟨_, _, -, h⟩ := bind_ok h
    cases h
    exact ⟨rfl, rfl⟩

theorem readBody_ok {x : Int32 × Nat} {b r : List UInt8} {s : PersistedSession}
    (h : (readBody x).run b = .ok (s, r)) :
    s.homeDcId = x.1 ∧ ∃ count b₁ b₂, readU8.run b = .ok (count, b₁) ∧
      (many (readDc x.2) count.toNat).run b₁ = .ok (s.dcs, b₂) ∧
      (readRest x.2 x.1 s.dcs).run b₂ = .ok (s, r) := by
  obtain ⟨count, b₁, hcount, h⟩ := bind_ok h
  obtain ⟨dcs, b₂, hdcs, h⟩ := bind_ok h
  obtain ⟨hhome, rfl⟩ := readRest_ok h
  exact ⟨hhome, count, b₁, b₂, hcount, hdcs, h⟩

/-- An `i32` that is read one byte late, as itself, repeats its low byte. -/
theorem eq_lowByte {x : Int32} {b : UInt8} (h : toI32 (highBytes x ++ [b]) = x) :
    b = lowByte x := by
  have hx : toI32 (lowByte x :: highBytes x) = x := by rw [← ofI32_eq, toI32_ofI32]
  have hlist : highBytes x ++ [b] = lowByte x :: highBytes x :=
    toI32_inj rfl rfl (h.trans hx.symm)
  unfold highBytes at hlist
  simp only [le, List.cons_append, List.nil_append, List.cons.injEq] at hlist
  obtain ⟨h1, h2, h3, h4, -⟩ := hlist
  rw [h4, h3, h2, h1]

/-- The byte after the id of a DC says whether there is a key. -/
theorem authKeyToBytes_eq (k : Option (List.Vector UInt8 256)) :
    ∃ b rest, authKeyToBytes k = b :: rest ∧ b.toNat ≤ 1 := by
  cases k with
  | none => exact ⟨0, [], rfl, by decide⟩
  | some k => exact ⟨1, k.1, rfl, by decide⟩

theorem misread_v1 {s : PersistedSession} (hfits : Fits s)
    (hlow : IsVersionByte (lowByte s.homeDcId)) (r : List UInt8) :
    readSession.run (prescribed 1 s) ≠ .ok (s, r) := by
  intro h
  have hbytes : prescribed 1 s = [lowByte s.homeDcId] ++ ((highBytes s.homeDcId ++
      [UInt8.ofNat s.dcs.length]) ++ s.dcs.flatMap (dcIn 1)) := by
    simp [prescribed, headerIn, bodyIn, restIn, ofI32_eq, countU8, le]
  obtain ⟨x, mid, hx, h⟩ := bind_ok h
  rw [hbytes] at hx
  unfold readHeader at hx
  rw [bind_run, (reads_u8 _).full] at hx
  simp only [header_versionByte hlow, versioned, bind_run] at hx
  rw [readI32_run (by simp [highBytes])] at hx
  cases hx
  obtain ⟨hhome, count, b₁, b₂, hcount, hdcs, -⟩ := readBody_ok h
  -- the home DC is read one byte late, so the number of DCs repeats its low byte
  have hn : UInt8.ofNat s.dcs.length = lowByte s.homeDcId := eq_lowByte hhome.symm
  have hlen : s.dcs.length = (lowByte s.homeDcId).toNat := by
    rw [← hn, UInt8.toNat_ofNat', Nat.mod_eq_of_lt hfits.dcs]
  have htwo : 2 ≤ (lowByte s.homeDcId).toNat := hlow.1
  have hmany := many_length hdcs
  obtain ⟨d, ds, hd⟩ : ∃ d ds, s.dcs = d :: ds := by
    apply List.exists_cons_of_length_pos
    omega
  -- and so is the id of the first DC: the byte that says whether it has a key repeats its low byte
  obtain ⟨key, krest, hkey, hkey1⟩ := authKeyToBytes_eq d.authKey
  obtain ⟨tail, htail⟩ : ∃ tail, s.dcs.flatMap (dcIn 1) =
      [lowByte d.dcId] ++ ((highBytes d.dcId ++ [key]) ++ tail) := by
    refine ⟨krest ++ (ofI64 d.firstSalt ++ (ofI32 d.timeOffset ++ (addrToBytes d.addr ++
      ds.flatMap (dcIn 1)))), ?_⟩
    simp [hd, dcIn, ofI32_eq, hkey]
  rw [htail, (reads_u8 _).full] at hcount
  cases hcount
  obtain ⟨m, hm⟩ : ∃ m, (lowByte d.dcId).toNat = m + 1 := ⟨(lowByte d.dcId).toNat - 1, by omega⟩
  rw [hm] at hdcs
  obtain ⟨d', mid', hd', hrest⟩ := bind_ok hdcs
  obtain ⟨ds', mid'', -, hrest⟩ := bind_ok hrest
  have heq := (pure_ok hrest).1
  rw [hd] at heq
  rw [← (List.cons.inj heq).1] at hd'
  have hk : key = lowByte d.dcId := eq_lowByte (readDc_dcId (by simp [highBytes]) hd')
  rw [← hk] at hmany
  omega

/-- **Old files.** For every version from 1 to 7, a session expressible in it is decoded
from the bytes of that version to exactly that session, unless the version is 1 and the
low byte of the home DC is one of the version bytes. -/
theorem fromBytes_prescribed_iff {v : Nat} (h1 : 1 ≤ v) (h7 : v ≤ 7) {s : PersistedSession}
    (h : ExpressibleIn v s) :
    PersistedSession.fromBytes (prescribed v s) = .ok s ↔
      (v = 1 → ¬ IsVersionByte (lowByte s.homeDcId)) := by
  have hne : prescribed v s ≠ [] := by
    unfold prescribed headerIn
    simp [ofI32_eq]
  constructor
  · rintro hok rfl hlow
    unfold PersistedSession.fromBytes at hok
    rw [if_neg hne] at hok
    rcases hr : readSession.run (prescribed 1 s) with e | ⟨s', r⟩
    · rw [hr] at hok
      cases hok
    · rw [hr] at hok
      cases hok
      exact misread_v1 h.1 hlow r hr
  · intro hx
    have hok := fromBytes_of_reads (reads_prescribed h1 (by omega) h hx) hne []
    rwa [List.append_nil] at hok

/-- A version 4 file with one DC, a channel and a min peer. -/
def oldSession : PersistedSession :=
  { homeDcId := 2
    dcs := [{ dcId := 2, addr := "149.154.167.51:443", authKey := none, firstSalt := 7,
              timeOffset := -1, flags := DcFlags.NONE }]
    updatesState := { pts := 10, qts := 3, date := 1700000000, seq := 4, channels := [(9, 77)] }
    peers := [{ id := 9, accessHash := 42, isChannel := true, isChat := false, channelKind := none,
                isCommunity := false }]
    minPeers := [{ userId := 5, peerId := 9, msgId := 100 }]
    futureAuthToken := none }

theorem oldSession_expressible : ExpressibleIn 4 oldSession := by
  refine ⟨⟨?_, ?_, ?_, ?_, ?_, ?_, ?_⟩, ⟨?_, ?_, ?_, ?_, ?_, ?_, ?_⟩⟩ <;>
    simp [oldSession]
  decide

theorem oldSession_read : PersistedSession.fromBytes (prescribed 4 oldSession) = .ok oldSession :=
  (fromBytes_prescribed_iff (by decide) (by decide) oldSession_expressible).mpr (by decide)

/-- The version 1 file of a session on DC 2 with no DC table: `02 00 00 00 00`. -/
theorem homeDc2_misread :
    let s : PersistedSession := { PersistedSession.default with homeDcId := 2 }
    ExpressibleIn 1 s ∧ prescribed 1 s = [2, 0, 0, 0, 0] ∧
      PersistedSession.fromBytes (prescribed 1 s) = .error .truncated := by
  refine ⟨⟨⟨?_, ?_, ?_, ?_, ?_, ?_, ?_⟩, ⟨?_, ?_, ?_, ?_, ?_, ?_, ?_⟩⟩, by decide, by decide⟩ <;>
    simp [PersistedSession.default, UpdatesStateSnap.default]

end Ferogram.Session
