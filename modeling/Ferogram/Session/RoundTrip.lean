import Ferogram.Session.Versions

/- When a session file gives back the session it was written from.

   `to_bytes` writes every item but only the low byte, or the low two bytes, of a
   count or length, and one type byte for two flags of a peer. So a session is read
   back, with any bytes after the file and with every truncation refused, exactly
   when its counts and lengths fit and no peer carries both flags
   (`roundTrips_iff`). From the right to the left this is `reads_prescribed`. From
   the left to the right the reader is followed through the file: as long as
   everything read so far is as it was written, the reader stands where the writer
   stood, and the next count it reads is the number of items it returns. -/
namespace Ferogram.Session
open Bytes Reader

/-- The file is read back whatever follows it, and no strict prefix of it is accepted. -/
def RoundTrips (s : PersistedSession) : Prop :=
  (∀ rest, PersistedSession.fromBytes (s.toBytes ++ rest) = .ok s) ∧
  ∀ b, b <+: s.toBytes → b ≠ s.toBytes → ∃ e, PersistedSession.fromBytes b = .error e

theorem expressibleIn_eight {s : PersistedSession} (h : Fits s) : ExpressibleIn 8 s := by
  refine ⟨h, ⟨?_, ?_, ?_, ?_, ?_, ?_, ?_⟩⟩ <;> intro hlt <;> omega

theorem roundTrips_of_fits {s : PersistedSession} (h : Fits s) : RoundTrips s := by
  have hreads : ReadsBack readSession s.toBytes s := by
    rw [toBytes_eq]
    exact reads_prescribed (by decide) (by decide) (expressibleIn_eight h) (fun h => by omega)
  have hne : s.toBytes ≠ [] := by simp [PersistedSession.toBytes]
  refine ⟨fromBytes_of_reads hreads hne, ?_⟩
  intro b hb hbne
  unfold PersistedSession.fromBytes
  split
  · exact ⟨.empty, rfl⟩
  · rw [hreads.short b hb hbne]
    exact ⟨.truncated, rfl⟩

/-! What a successful read says about the session. -/

theorem readU16_run (n : Nat) (b : List UInt8) :
    readU16.run (countU16 n ++ b) = .ok (n % 65536, b) := by
  have h : ReadsBack readU16 (countU16 n) (n % 65536) :=
    (reads_bytes (le_length 2 n)).map' (ofLe_le 2 n)
  exact h.full b

theorem addr_fits {addr : String} {b r : List UInt8}
    (h : readAddr.run (addrToBytes addr ++ b) = .ok (addr, r)) :
    (Utf8.encode addr).length < 256 := by
  unfold addrToBytes at h
  rw [List.append_assoc] at h
  obtain ⟨al, mid, hal, h⟩ := bind_ok h
  rw [show countU8 (Utf8.encode addr).length = [UInt8.ofNat (Utf8.encode addr).length] from rfl,
    (reads_u8 _).full] at hal
  cases hal
  obtain ⟨v, mid', hv, h⟩ := bind_ok h
  have hvb := take_ok hv
  have hvlen : v.1.length = (Utf8.encode addr).length % 256 := v.2.trans UInt8.toNat_ofNat'
  -- what was read is a prefix of the address
  have htake : v.1 = (Utf8.encode addr).take ((Utf8.encode addr).length % 256) := by
    have hcut := congrArg (List.take ((Utf8.encode addr).length % 256)) hvb
    rw [List.take_append_of_le_length (Nat.mod_le _ _), ← hvlen, List.take_left] at hcut
    rw [← hcut, hvlen]
  have haddr : Utf8.decodeLossy v.1 = addr := (pure_ok h).1.symm
  rw [htake] at haddr
  have hclose := Utf8.decodeLossy_take haddr
  omega

theorem dc_fits (d : DcEntry) (b r : List UInt8) (h : (readDc 8).run (dcIn 8 d ++ b) = .ok (d, r)) :
    (Utf8.encode d.addr).length < 256 ∧ r = b := by
  have haddr : (Utf8.encode d.addr).length < 256 := by
    unfold dcIn at h
    simp only [List.append_assoc] at h
    obtain ⟨id, mid, hid, h⟩ := bind_ok h
    rw [(reads_i32 _).full] at hid
    cases hid
    obtain ⟨key, mid, hkey, h⟩ := bind_ok h
    rw [(reads_authKey _).full] at hkey
    cases hkey
    obtain ⟨salt, mid, hsalt, h⟩ := bind_ok h
    rw [(reads_i64 _).full] at hsalt
    cases hsalt
    obtain ⟨offset, mid, hoffset, h⟩ := bind_ok h
    rw [(reads_i32 _).full] at hoffset
    cases hoffset
    obtain ⟨addr, mid, haddr, h⟩ := bind_ok h
    obtain ⟨flags, mid', -, h⟩ := bind_ok h
    have heq := congrArg DcEntry.addr (pure_ok h).1
    rw [← show d.addr = addr from heq] at haddr
    exact addr_fits haddr
  rw [(reads_dc haddr (fun hlt => by omega)).full] at h
  cases h
  exact ⟨haddr, rfl⟩

theorem updates_fits {u : UpdatesStateSnap} {b r : List UInt8}
    (h : readUpdates.run (updatesToBytes u ++ b) = .ok (u, r)) :
    u.channels.length < 65536 ∧ r = b := by
  have hlen : u.channels.length < 65536 := by
    unfold updatesToBytes at h
    simp only [List.append_assoc] at h
    obtain ⟨pts, mid, hpts, h⟩ := bind_ok h
    rw [(reads_i32 _).full] at hpts
    cases hpts
    obtain ⟨qts, mid, hqts, h⟩ := bind_ok h
    rw [(reads_i32 _).full] at hqts
    cases hqts
    obtain ⟨date, mid, hdate, h⟩ := bind_ok h
    rw [(reads_i32 _).full] at hdate
    cases hdate
    obtain ⟨seq, mid, hseq, h⟩ := bind_ok h
    rw [(reads_i32 _).full] at hseq
    cases hseq
    obtain ⟨count, mid, hcount, h⟩ := bind_ok h
    rw [readU16_run] at hcount
    cases hcount
    obtain ⟨channels, mid, hchannels, h⟩ := bind_ok h
    have hmany := many_length hchannels
    have heq := congrArg UpdatesStateSnap.channels (pure_ok h).1
    rw [← show u.channels = channels from heq] at hmany
    omega
  rw [(reads_updates hlen).full] at h
  cases h
  exact ⟨hlen, rfl⟩

theorem peer_fits (p : CachedPeer) (b r : List UInt8)
    (h : (readPeer 8).run (peerIn 8 p ++ b) = .ok (p, r)) :
    ¬ (p.isChat = true ∧ p.isChannel = true) ∧ r = b := by
  have hkinds : ¬ (p.isChat = true ∧ p.isChannel = true) := by
    unfold peerIn at h
    simp only [List.append_assoc] at h
    obtain ⟨id, mid, hid, h⟩ := bind_ok h
    rw [(reads_i64 _).full] at hid
    cases hid
    obtain ⟨hash, mid, hhash, h⟩ := bind_ok h
    rw [(reads_i64 _).full] at hhash
    cases hhash
    obtain ⟨type, mid, htype, h⟩ := bind_ok h
    rw [(reads_u8 _).full] at htype
    cases htype
    obtain ⟨kind, mid, -, h⟩ := bind_ok h
    obtain ⟨community, mid, -, h⟩ := bind_ok h
    -- the type byte cannot be both 1 and 2
    have hchannel : p.isChannel = (peerType p == 1) := congrArg CachedPeer.isChannel (pure_ok h).1
    rintro ⟨hchat, hboth⟩
    rw [hboth] at hchannel
    simp [peerType, hchat] at hchannel
  rw [(reads_peer hkinds (fun hlt => by omega) (fun hlt => by omega)).full] at h
  cases h
  exact ⟨hkinds, rfl⟩

theorem minPeers_fits {ms : List CachedMinPeer} {b r : List UInt8}
    (h : (readMinPeers 8).run (minPeersIn 8 ms ++ b) = .ok (ms, r)) :
    ms.length < 65536 ∧ r = b := by
  have hlen : ms.length < 65536 := by
    unfold readMinPeers minPeersIn at h
    simp only [show 4 ≤ 8 from by decide, if_true, List.append_assoc] at h
    obtain ⟨count, mid, hcount, h⟩ := bind_ok h
    rw [readU16_run] at hcount
    cases hcount
    have hmany := many_length h
    omega
  rw [(reads_minPeers hlen (fun hlt => by omega)).full] at h
  cases h
  exact ⟨hlen, rfl⟩

theorem token_fits {t : Option (List UInt8)} {b r : List UInt8}
    (h : (readToken 8).run (tokenIn 8 t ++ b) = .ok (t, r)) : ∀ x ∈ t, x.length < 65536 := by
  rintro x rfl
  unfold readToken tokenIn tokenToBytes at h
  simp only [show 7 ≤ 8 from by decide, if_true, List.append_assoc] at h
  obtain ⟨hasToken, mid, hhas, h⟩ := bind_ok h
  rw [(reads_u8 _).full] at hhas
  cases hhas
  simp only [if_true] at h
  obtain ⟨tl, mid, htl, h⟩ := bind_ok h
  rw [readU16_run] at htl
  cases htl
  obtain ⟨v, mid, -, h⟩ := bind_ok h
  have hx : x = v.1 := Option.some.inj (pure_ok h).1
  have hv := v.2
  rw [← hx] at hv
  omega

/-- A session that is read back from its own file fits the format. -/
theorem fits_of_read {s : PersistedSession} {r : List UInt8}
    (h : readSession.run s.toBytes = .ok (s, r)) : Fits s := by
  rw [toBytes_eq] at h
  obtain ⟨x, mid, hx, h⟩ := bind_ok h
  rw [prescribed, (reads_header (by decide) (by decide) (fun h => by omega)).full] at hx
  cases hx
  obtain ⟨-, count, b₁, b₂, hcount, hdcs, h⟩ := readBody_ok h
  rw [bodyIn, List.append_assoc,
    show countU8 s.dcs.length = [UInt8.ofNat s.dcs.length] from rfl, (reads_u8 _).full] at hcount
  cases hcount
  have hdcsLen := many_length hdcs
  rw [UInt8.toNat_ofNat'] at hdcsLen
  have hcount : (UInt8.ofNat s.dcs.length).toNat = s.dcs.length := by
    rw [UInt8.toNat_ofNat', ← hdcsLen]
  simp only [hcount] at hdcs
  obtain ⟨haddrs, rfl⟩ := many_ok dc_fits _ _ _ hdcs
  unfold readRest restIn at h
  simp only [show ¬ (8 : Nat) < 2 from by decide, if_false, List.append_assoc] at h
  obtain ⟨u, mid, hu, h⟩ := bind_ok h
  obtain ⟨peerCount, mid₂, hpeerCount, h⟩ := bind_ok h
  obtain ⟨peers, mid₃, hpeers, h⟩ := bind_ok h
  obtain ⟨minPeers, mid₄, hminPeers, h⟩ := bind_ok h
  obtain ⟨token, mid₅, htoken, h⟩ := bind_ok h
  have heq := (pure_ok h).1
  rw [← show s.updatesState = u from congrArg PersistedSession.updatesState heq] at hu
  rw [← show s.peers = peers from congrArg PersistedSession.peers heq] at hpeers
  rw [← show s.minPeers = minPeers from congrArg PersistedSession.minPeers heq] at hminPeers
  rw [← show s.futureAuthToken = token from congrArg PersistedSession.futureAuthToken heq] at htoken
  -- section by section, each read where it was written because the one before it fits
  obtain ⟨hchannels, rfl⟩ := updates_fits hu
  rw [readU16_run] at hpeerCount
  cases hpeerCount
  have hpeersLen := many_length hpeers
  rw [← hpeersLen] at hpeers
  obtain ⟨hkinds, rfl⟩ := many_ok peer_fits _ _ _ hpeers
  obtain ⟨hminLen, rfl⟩ := minPeers_fits hminPeers
  rw [← List.append_nil (tokenIn 8 s.futureAuthToken)] at htoken
  exact
    { dcs := by omega
      addrs := haddrs
      channels := hchannels
      peers := by omega
      kinds := hkinds
      minPeers := hminLen
      token := token_fits htoken }

theorem fits_of_roundTrips {s : PersistedSession} (h : RoundTrips s) : Fits s := by
  have hok := h.1 []
  rw [List.append_nil] at hok
  unfold PersistedSession.fromBytes at hok
  split at hok
  · cases hok
  · split at hok
    · next s' r hr =>
      cases hok
      exact fits_of_read hr
    · cases hok

/-- **The session file round trip.** A session is read back from its file, also with
other bytes after it, and every strict prefix of the file is refused, exactly when the
counts and lengths of the session fit their fields and no peer is flagged both as a
channel and as a regular group. -/
theorem roundTrips_iff (s : PersistedSession) : RoundTrips s ↔ Fits s :=
  ⟨fits_of_roundTrips, roundTrips_of_fits⟩

/-- A user in the peer cache. -/
def cachedUser : CachedPeer :=
  { id := 1, accessHash := 2, isChannel := false, isChat := false, channelKind := none,
    isCommunity := false }

/-- A cache of 65536 peers is written with a count of 0. -/
theorem manyPeers_lost :
    ¬ RoundTrips { PersistedSession.default with peers := List.replicate 65536 cachedUser } := by
  intro h
  have hlen := (fits_of_roundTrips h).peers
  simp only [List.length_replicate] at hlen
  omega

end Ferogram.Session
