import Ferogram.Session.StringSession
import Ferogram.Parsers.Trim

/- Session strings read back. A compact payload is laid out field by field, and its length
   is fixed by the version and the family of the address, so a truncated one fails the
   length check (`decodeV2_short`, `decodeV1_short`). A native string starts with the byte 8,
   which is no compact version, so the builder never takes it for one. -/
namespace Ferogram.Session
open Bytes Connect Parsers

/-! Numbers, big-endian. -/

theorem beU16_length (x : UInt16) : (beU16 x).length = 2 := be_length 2 _

theorem beU32_length (x : UInt32) : (beU32 x).length = 4 := be_length 4 _

theorem beI64_length (x : Int64) : (beI64 x).length = 8 := be_length 8 _

theorem ofBeU16_beU16 (x : UInt16) : ofBeU16 (beU16 x) = x := by
  rw [ofBeU16, beU16, ofBe_be_of_lt x.toNat_lt, UInt16.ofNat_toNat]

theorem ofBeU32_beU32 (x : UInt32) : ofBeU32 (beU32 x) = x := by
  rw [ofBeU32, beU32, ofBe_be_of_lt x.toNat_lt, UInt32.ofNat_toNat]

theorem ofBeI64_beI64 (x : Int64) : ofBeI64 (beI64 x) = x := by
  rw [ofBeI64, beI64, ofBe_be_of_lt x.toUInt64.toNat_lt, UInt64.ofNat_toNat, Int64.toInt64_toUInt64]

/-! Reading what stands at the cursor. -/

theorem readByte_at {l a r : List UInt8} {v : UInt8} {c : Nat} (h : l = a ++ v :: r)
    (ha : a.length = c) : readByte l c = .ok (v, c + 1) := by
  have hget : l[c]? = some v := by
    rw [h, ← ha]
    simp
  unfold readByte
  rw [hget]

theorem readArray_at {l a b r : List UInt8} {n c : Nat} (h : l = a ++ (b ++ r))
    (ha : a.length = c) (hb : b.length = n) : readArray n l c = .ok (⟨b, hb⟩, c + n) := by
  have hfield : field l c n = b := by
    rw [h, show c = c + 0 from rfl, field_append_left 0 n ha, field_zero_append hb]
  unfold readArray
  rw [dif_pos (by rw [hfield]; exact hb)]
  simp only [hfield]

theorem readArray_ok {n c c' : Nat} {l : List UInt8} {v : List.Vector UInt8 n}
    (h : readArray n l c = .ok (v, c')) : c' = c + n := by
  unfold readArray at h
  split at h
  · exact (congrArg Prod.snd (Except.ok.inj h)).symm
  · cases h

theorem readIp_at {l a r : List UInt8} {x : IpAddr} {c : Nat}
    (h : l = a ++ (x.typeByte :: x.toBytes ++ r)) (ha : a.length = c) :
    readIp l c = .ok (x, c + 1 + x.toBytes.length) := by
  have htype := readByte_at h ha
  cases x with
  | v4 octets =>
    have hoctets := octets.2
    have hlen : ¬ l.length < c + 1 + 4 := by
      rw [h]
      simp only [IpAddr.toBytes, List.length_append, List.length_cons, ha, hoctets]
      omega
    have harr := readArray_at (l := l) (a := a ++ [4]) (b := octets.1) (r := r) (n := 4) (c := c + 1)
      (by rw [h]; simp [IpAddr.typeByte, IpAddr.toBytes]) (by simp [ha]) octets.2
    unfold readIp
    rw [htype]
    simp only [IpAddr.typeByte, bind, Except.bind, if_true, if_neg hlen, harr, pure, Except.pure,
      IpAddr.toBytes, hoctets]
    rfl
  | v6 octets =>
    have hoctets := octets.2
    have hlen : ¬ l.length < c + 1 + 16 := by
      rw [h]
      simp only [IpAddr.toBytes, List.length_append, List.length_cons, ha, hoctets]
      omega
    have harr := readArray_at (l := l) (a := a ++ [6]) (b := octets.1) (r := r) (n := 16) (c := c + 1)
      (by rw [h]; simp [IpAddr.typeByte, IpAddr.toBytes]) (by simp [ha]) octets.2
    unfold readIp
    rw [htype]
    simp only [IpAddr.typeByte, bind, Except.bind, if_neg hlen, harr, pure, Except.pure, IpAddr.toBytes,
      hoctets]
    rfl

/-- A successful read has used the type byte and the address of that type. -/
theorem readIp_ok {bytes : List UInt8} {c c' : Nat} {ip : IpAddr} (h : readIp bytes c = .ok (ip, c')) :
    bytes[c]? = some ip.typeByte ∧ c' = c + 1 + ip.toBytes.length := by
  unfold readIp at h
  cases htype : bytes[c]? with
  | none => simp [readByte, htype, bind, Except.bind] at h
  | some t =>
    simp only [readByte, htype, bind, Except.bind] at h
    split at h
    · next ht =>
      split at h
      · cases h
      · split at h
        · cases h
        · next x harr =>
          obtain ⟨octets, c''⟩ := x
          obtain ⟨rfl, rfl⟩ : IpAddr.v4 octets = ip ∧ c'' = c' := by simpa [pure, Except.pure] using h
          have hc := readArray_ok harr
          have hoctets := octets.2
          exact ⟨by rw [ht]; rfl, by rw [hc, IpAddr.toBytes, hoctets]⟩
    · split at h
      · next ht =>
        split at h
        · cases h
        · split at h
          · cases h
          · next x harr =>
            obtain ⟨octets, c''⟩ := x
            obtain ⟨rfl, rfl⟩ : IpAddr.v6 octets = ip ∧ c'' = c' := by simpa [pure, Except.pure] using h
            have hc := readArray_ok harr
            have hoctets := octets.2
            exact ⟨by rw [ht]; rfl, by rw [hc, IpAddr.toBytes, hoctets]⟩
      · cases h

/-! The compact payloads. -/

theorem typeByte_length {ip ip' : IpAddr} (h : ip.typeByte = ip'.typeByte) :
    ip.toBytes.length = ip'.toBytes.length := by
  cases ip with
  | v4 octets =>
    cases ip' with
    | v4 octets' => exact octets.2.trans octets'.2.symm
    | v6 octets' => cases h
  | v6 octets =>
    cases ip' with
    | v4 octets' => cases h
    | v6 octets' => exact octets.2.trans octets'.2.symm

theorem payloadV2_length (s : CompactSession) :
    (payloadV2 s).length = 3 + s.ip.toBytes.length + 2 + 8 + 256 := by
  have hkey := s.authKey.2
  simp only [payloadV2, List.length_append, List.length_cons, List.length_nil, beU16_length, beI64_length,
    hkey]

theorem payloadV1_length (s : FullSession) :
    (payloadV1 s).length = 3 + s.ip.toBytes.length + 2 + 8 + 8 + 4 + 4 + 256 := by
  have hkey := s.authKey.2
  simp only [payloadV1, List.length_append, List.length_cons, List.length_nil, beU16_length, beU32_length,
    beI64_length, hkey]

theorem decodeV2_payload (s : CompactSession) : decodeV2 (payloadV2 s) = .ok s := by
  have hdc := readByte_at (l := payloadV2 s) (a := [2]) (v := s.dcId) (c := 1)
    (by simp [payloadV2]; rfl) rfl
  have hip := readIp_at (l := payloadV2 s) (a := [2, s.dcId]) (x := s.ip) (c := 2)
    (by simp [payloadV2]; rfl) rfl
  have hport := readArray_at (l := payloadV2 s) (a := [2, s.dcId, s.ip.typeByte] ++ s.ip.toBytes)
    (b := beU16 s.port) (c := 2 + 1 + s.ip.toBytes.length) (by simp [payloadV2]; rfl) (by simp; omega) (beU16_length _)
  have huser := readArray_at (l := payloadV2 s)
    (a := [2, s.dcId, s.ip.typeByte] ++ s.ip.toBytes ++ beU16 s.port) (b := beI64 s.userId)
    (c := 2 + 1 + s.ip.toBytes.length + 2) (by simp [payloadV2]; rfl)
    (by simp [beU16_length]; omega) (beI64_length _)
  have hkey := readArray_at (l := payloadV2 s)
    (a := [2, s.dcId, s.ip.typeByte] ++ s.ip.toBytes ++ beU16 s.port ++ beI64 s.userId) (b := s.authKey.1)
    (r := []) (n := authKeyLen) (c := 2 + 1 + s.ip.toBytes.length + 2 + 8) (by simp [payloadV2])
    (by simp [beU16_length, beI64_length]; omega) s.authKey.2
  have hlen : ¬ (payloadV2 s).length < 2 + 1 + s.ip.toBytes.length + 2 + 8 + authKeyLen := by
    rw [payloadV2_length, authKeyLen]
    omega
  unfold decodeV2
  simp only [hdc, hip, if_neg hlen, hport, huser, hkey, bind, Except.bind, pure, Except.pure, ofBeU16_beU16,
    ofBeI64_beI64]
  rfl

theorem decodeV1_payload (s : FullSession) : decodeV1 (payloadV1 s) = .ok s := by
  have hdc := readByte_at (l := payloadV1 s) (a := [1]) (v := s.dcId) (c := 1)
    (by simp [payloadV1]; rfl) rfl
  have hip := readIp_at (l := payloadV1 s) (a := [1, s.dcId]) (x := s.ip) (c := 2)
    (by simp [payloadV1]; rfl) rfl
  have hport := readArray_at (l := payloadV1 s) (a := [1, s.dcId, s.ip.typeByte] ++ s.ip.toBytes)
    (b := beU16 s.port) (c := 2 + 1 + s.ip.toBytes.length) (by simp [payloadV1]; rfl) (by simp; omega)
    (beU16_length _)
  have huser := readArray_at (l := payloadV1 s)
    (a := [1, s.dcId, s.ip.typeByte] ++ s.ip.toBytes ++ beU16 s.port) (b := beI64 s.userId)
    (c := 2 + 1 + s.ip.toBytes.length + 2) (by simp [payloadV1]; rfl)
    (by simp [beU16_length]; omega) (beI64_length _)
  have hsalt := readArray_at (l := payloadV1 s)
    (a := [1, s.dcId, s.ip.typeByte] ++ s.ip.toBytes ++ beU16 s.port ++ beI64 s.userId)
    (b := beI64 s.serverSalt) (c := 2 + 1 + s.ip.toBytes.length + 2 + 8) (by simp [payloadV1]; rfl)
    (by simp [beU16_length, beI64_length]; omega) (beI64_length _)
  have hseq := readArray_at (l := payloadV1 s)
    (a := [1, s.dcId, s.ip.typeByte] ++ s.ip.toBytes ++ beU16 s.port ++ beI64 s.userId ++ beI64 s.serverSalt)
    (b := beU32 s.seqNo) (c := 2 + 1 + s.ip.toBytes.length + 2 + 8 + 8) (by simp [payloadV1]; rfl)
    (by simp [beU16_length, beI64_length]; omega) (beU32_length _)
  have hlayer := readArray_at (l := payloadV1 s)
    (a := [1, s.dcId, s.ip.typeByte] ++ s.ip.toBytes ++ beU16 s.port ++ beI64 s.userId ++ beI64 s.serverSalt ++
      beU32 s.seqNo)
    (b := beU32 s.layer) (c := 2 + 1 + s.ip.toBytes.length + 2 + 8 + 8 + 4) (by simp [payloadV1]; rfl)
    (by simp [beU16_length, beI64_length, beU32_length]; omega) (beU32_length _)
  have hkey := readArray_at (l := payloadV1 s)
    (a := [1, s.dcId, s.ip.typeByte] ++ s.ip.toBytes ++ beU16 s.port ++ beI64 s.userId ++ beI64 s.serverSalt ++
      beU32 s.seqNo ++ beU32 s.layer)
    (b := s.authKey.1) (r := []) (n := authKeyLen) (c := 2 + 1 + s.ip.toBytes.length + 2 + 8 + 8 + 4 + 4)
    (by simp [payloadV1]) (by simp [beU16_length, beI64_length, beU32_length]; omega) s.authKey.2
  have hlen : ¬ (payloadV1 s).length < 2 + 1 + s.ip.toBytes.length + 2 + 8 + 8 + 4 + 4 + authKeyLen := by
    rw [payloadV1_length, authKeyLen]
    omega
  unfold decodeV1
  simp only [hdc, hip, if_neg hlen, hport, huser, hsalt, hseq, hlayer, hkey, bind, Except.bind, pure,
    Except.pure, ofBeU16_beU16, ofBeU32_beU32, ofBeI64_beI64]
  rfl

/-- Too short for the address it announces. -/
theorem decodeV2_short {b : List UInt8} {ip : IpAddr} (htype : ∀ t, b[2]? = some t → t = ip.typeByte)
    (hlen : b.length < 3 + ip.toBytes.length + 2 + 8 + 256) : ∃ e, decodeV2 b = .error e := by
  unfold decodeV2
  cases hdc : b[1]? with
  | none => exact ⟨.invalidData, by simp [readByte, hdc, bind, Except.bind]⟩
  | some dcId =>
    cases hip : readIp b 2 with
    | error e => exact ⟨e, by simp [readByte, hdc, hip, bind, Except.bind]⟩
    | ok x =>
      obtain ⟨ip', c⟩ := x
      obtain ⟨ht, hc⟩ := readIp_ok hip
      have hlen' : b.length < c + 2 + 8 + authKeyLen := by
        rw [hc, typeByte_length (htype _ ht), authKeyLen]
        omega
      exact ⟨.invalidData, by simp [readByte, hdc, hip, bind, Except.bind, hlen']⟩

theorem decodeV1_short {b : List UInt8} {ip : IpAddr} (htype : ∀ t, b[2]? = some t → t = ip.typeByte)
    (hlen : b.length < 3 + ip.toBytes.length + 2 + 8 + 8 + 4 + 4 + 256) : ∃ e, decodeV1 b = .error e := by
  unfold decodeV1
  cases hdc : b[1]? with
  | none => exact ⟨.invalidData, by simp [readByte, hdc, bind, Except.bind]⟩
  | some dcId =>
    cases hip : readIp b 2 with
    | error e => exact ⟨e, by simp [readByte, hdc, hip, bind, Except.bind]⟩
    | ok x =>
      obtain ⟨ip', c⟩ := x
      obtain ⟨ht, hc⟩ := readIp_ok hip
      have hlen' : b.length < c + 2 + 8 + 8 + 4 + 4 + authKeyLen := by
        rw [hc, typeByte_length (htype _ ht), authKeyLen]
        omega
      exact ⟨.invalidData, by simp [readByte, hdc, hip, bind, Except.bind, hlen']⟩

theorem decodePayload_two {b : List UInt8} (h : b.head? = some 2) :
    decodePayload b = (decodeV2 b).map .v2 := by
  cases b with
  | nil => cases h
  | cons v rest =>
    obtain rfl := Option.some.inj h
    simp [decodePayload]

theorem decodePayload_one {b : List UInt8} (h : b.head? = some 1) :
    decodePayload b = (decodeV1 b).map .v1 := by
  cases b with
  | nil => cases h
  | cons v rest =>
    obtain rfl := Option.some.inj h
    simp [decodePayload]

theorem payloadV2_head (s : CompactSession) : (payloadV2 s).head? = some 2 := by
  simp [payloadV2]

theorem payloadV2_type (s : CompactSession) : (payloadV2 s)[2]? = some s.ip.typeByte := by
  simp [payloadV2]

theorem payloadV1_head (s : FullSession) : (payloadV1 s).head? = some 1 := by
  simp [payloadV1]

theorem payloadV1_type (s : FullSession) : (payloadV1 s)[2]? = some s.ip.typeByte := by
  simp [payloadV1]

theorem decodePayload_v2 (s : CompactSession) : decodePayload (payloadV2 s) = .ok (.v2 s) := by
  rw [decodePayload_two (payloadV2_head s), decodeV2_payload]
  rfl

theorem decodePayload_v1 (s : FullSession) : decodePayload (payloadV1 s) = .ok (.v1 s) := by
  rw [decodePayload_one (payloadV1_head s), decodeV1_payload]
  rfl

/-- What a prefix has at a place, the whole list has there. -/
theorem getElem?_of_isPrefix {b l : List UInt8} (h : b <+: l) {i : Nat} {t : UInt8} (ht : b[i]? = some t) :
    l[i]? = some t := by
  obtain ⟨r, rfl⟩ := h
  obtain ⟨hlt, hget⟩ := List.getElem?_eq_some_iff.mp ht
  rw [List.getElem?_append_left hlt, ht]

/-- Of a payload that is cut the first byte is missing, or its decoder gets too few bytes. -/
theorem decodePayload_cut {α : Type} {v t : UInt8} {payload b : List UInt8} {decode : List UInt8 → Except StringSessionError α}
    {out : α → StringSession} (hb : b <+: payload) (hne : b ≠ payload) (hhead : payload.head? = some v)
    (htype : payload[2]? = some t) (hdecode : b.head? = some v → decodePayload b = (decode b).map out)
    (hshort : (∀ t', b[2]? = some t' → t' = t) → b.length < payload.length → ∃ e, decode b = .error e) :
    ∃ e, decodePayload b = .error e := by
  have hlt : b.length < payload.length :=
    Nat.lt_of_le_of_ne hb.length_le fun heq => hne (hb.eq_of_length heq)
  cases hb0 : b[0]? with
  | none =>
    rw [← List.head?_eq_getElem?, List.head?_eq_none_iff] at hb0
    exact ⟨.invalidData, by rw [hb0]; rfl⟩
  | some v' =>
    have hv := getElem?_of_isPrefix hb hb0
    rw [← List.head?_eq_getElem?, hhead] at hv
    obtain rfl := Option.some.inj hv
    obtain ⟨e, he⟩ := hshort (fun t' ht => Option.some.inj ((getElem?_of_isPrefix hb ht).symm.trans htype)) hlt
    rw [hdecode (List.head?_eq_getElem?.trans hb0), he]
    exact ⟨e, rfl⟩

theorem decodePayload_v2_short {s : CompactSession} {b : List UInt8} (hb : b <+: payloadV2 s)
    (hne : b ≠ payloadV2 s) : ∃ e, decodePayload b = .error e := by
  apply decodePayload_cut hb hne (payloadV2_head s) (payloadV2_type s) decodePayload_two
  intro htype hlt
  exact decodeV2_short htype (payloadV2_length s ▸ hlt)

theorem decodePayload_v1_short {s : FullSession} {b : List UInt8} (hb : b <+: payloadV1 s)
    (hne : b ≠ payloadV1 s) : ∃ e, decodePayload b = .error e := by
  apply decodePayload_cut hb hne (payloadV1_head s) (payloadV1_type s) decodePayload_one
  intro htype hlt
  exact decodeV1_short htype (payloadV1_length s ▸ hlt)

/-! The strings. -/

theorem isWhitespace_of_value {c : Char} (h : (Base64.value c).isSome = true) : isWhitespace c = false := by
  unfold Base64.value at h
  unfold isWhitespace
  split_ifs at h with hupper hlower hdigit hminus hline
  · simp
    omega
  · simp
    omega
  · simp
    omega
  · rw [hminus]
    rfl
  · rw [hline]
    rfl
  · cases h

variable {b64 : Engine}

/-- `trim` leaves an encoded string alone. -/
theorem trimString_encode (hb : b64.Lawful) (bytes : List UInt8) :
    trimString (b64.encode bytes) = b64.encode bytes := by
  unfold trimString
  rw [trim_eq_self fun c hc => isWhitespace_of_value (hb.alphabet bytes c hc), String.ofList_toList]

theorem decode_encode (hb : b64.Lawful) (bytes : List UInt8) :
    StringSession.decode b64 (b64.encode bytes) = decodePayload bytes := by
  unfold StringSession.decode
  rw [trimString_encode hb, hb.decode_encode]

theorem encode_ne_empty (hb : b64.Lawful) {bytes : List UInt8} (hne : bytes ≠ []) :
    (b64.encode bytes).isEmpty = false := by
  rw [Bool.eq_false_iff]
  intro hempty
  have hnil : b64.encode bytes = b64.encode [] := by
    rw [hb.encode_nil]
    exact String.isEmpty_iff.mp hempty
  have hdec := hb.decode_encode bytes
  rw [hnil, hb.decode_encode] at hdec
  exact hne (Option.some.inj hdec).symm

theorem toBytes_head (p : PersistedSession) : p.toBytes.head? = some 8 := by
  simp [PersistedSession.toBytes]

/-- A native string is no compact one. -/
theorem detectCompactSession_native (hb : b64.Lawful) (p : PersistedSession) :
    detectCompactSession b64 (p.toString b64) = none := by
  have hpayload : decodePayload p.toBytes = .error (.unsupportedVersion 8) := by
    cases hbytes : p.toBytes with
    | nil => simp [PersistedSession.toBytes] at hbytes
    | cons v rest =>
      have hv := toBytes_head p
      rw [hbytes] at hv
      obtain rfl := Option.some.inj hv
      simp [decodePayload]
  unfold detectCompactSession PersistedSession.toString
  rw [decode_encode hb, hpayload]

theorem sessionString_native (hb : b64.Lawful) (p : PersistedSession) :
    sessionString b64 (p.toString b64) = .stringSession (p.toString b64) := by
  unfold sessionString
  rw [detectCompactSession_native hb]

theorem fromString_toString (hb : b64.Lawful) (p : PersistedSession) :
    PersistedSession.fromString b64 (p.toString b64) =
      (PersistedSession.fromBytes p.toBytes).mapError .data := by
  unfold PersistedSession.fromString PersistedSession.toString
  rw [trimString_encode hb, hb.decode_encode]

/-- The builder takes the string for a native one and reads the session back from it. -/
def NativeRead (b64 : Engine) (p : PersistedSession) : Prop :=
  sessionString b64 (p.toString b64) = .stringSession (p.toString b64) ∧
  (sessionString b64 (p.toString b64)).load b64 = .ok (some p)

theorem fromBytes_toBytes_iff (p : PersistedSession) :
    PersistedSession.fromBytes p.toBytes = .ok p ↔ Fits p := by
  constructor
  · intro hok
    unfold PersistedSession.fromBytes at hok
    split at hok
    · cases hok
    · split at hok
      · next s' r hr =>
        cases hok
        exact fits_of_read hr
      · cases hok
  · intro hfits
    have hread := (roundTrips_of_fits hfits).1 []
    rwa [List.append_nil] at hread

theorem nativeRead_iff (hb : b64.Lawful) (p : PersistedSession) : NativeRead b64 p ↔ Fits p := by
  have hne : p.toBytes ≠ [] := by
    intro hnil
    have hhead := toBytes_head p
    rw [hnil] at hhead
    cases hhead
  have hload : (sessionString b64 (p.toString b64)).load b64 =
      ((PersistedSession.fromBytes p.toBytes).mapError .data).map some := by
    rw [sessionString_native hb, StringBackend.load, ← fromString_toString hb,
      if_neg (by rw [PersistedSession.toString, trimString_encode hb, encode_ne_empty hb hne]; decide)]
  rw [← fromBytes_toBytes_iff]
  unfold NativeRead
  rw [hload]
  constructor
  · rintro ⟨-, h⟩
    cases hbytes : PersistedSession.fromBytes p.toBytes with
    | error e => simp [hbytes, Except.mapError, Except.map] at h
    | ok p' =>
      rw [hbytes] at h
      simpa [Except.mapError, Except.map] using h
  · intro h
    rw [h]
    exact ⟨sessionString_native hb p, rfl⟩

/-- **Session strings.** Both compact versions are read back, a truncated payload is refused,
and a native string is never taken for a compact one; it is read back as the session it
was written from exactly when the counts and lengths of the session fit their fields and no
peer is flagged both as a channel and as a regular group. -/
theorem stringSessions_iff (b64 : Engine) (hb : b64.Lawful) :
    (∀ x : StringSession, StringSession.decode b64 (x.encode b64) = .ok (.v2 x.session)) ∧
    (∀ s : FullSession, StringSession.decode b64 (s.encodeV1 b64) = .ok (.v1 s)) ∧
    (∀ s b, b <+: payloadV2 s → b ≠ payloadV2 s → ∃ e, StringSession.decode b64 (b64.encode b) = .error e) ∧
    (∀ s b, b <+: payloadV1 s → b ≠ payloadV1 s → ∃ e, StringSession.decode b64 (b64.encode b) = .error e) ∧
    (∀ p : PersistedSession, detectCompactSession b64 (p.toString b64) = none) ∧
    ∀ p : PersistedSession, NativeRead b64 p ↔ Fits p := by
  refine ⟨?_, ?_, ?_, ?_, detectCompactSession_native hb, nativeRead_iff hb⟩
  · intro x
    rw [StringSession.encode, decode_encode hb, decodePayload_v2]
  · intro s
    rw [FullSession.encodeV1, decode_encode hb, decodePayload_v1]
  · intro s b hpre hne
    rw [decode_encode hb]
    exact decodePayload_v2_short hpre hne
  · intro s b hpre hne
    rw [decode_encode hb]
    exact decodePayload_v1_short hpre hne

/-- The engine the code uses, as the library has it. -/
def urlSafeNoPad : Engine := ⟨Base64.encode, Base64.decode⟩

theorem urlSafeNoPad_lawful : urlSafeNoPad.Lawful where
  decode_encode := Base64.decode_encode
  encode_nil := rfl
  alphabet := fun _ _ => Base64.value_of_mem_encode

/-- With a DC of each address family, channels, and peers of every kind. -/
def signedIn : PersistedSession where
  homeDcId := 2
  dcs := [⟨2, "149.154.167.51:443", some (List.Vector.replicate 256 7), 5, -1, DcFlags.NONE⟩,
    ⟨2, "[2001:67c:4e8:f002::a]:443", none, 0, 0, DcFlags.IPV6⟩]
  updatesState := { pts := 100, qts := 3, date := 1700000000, seq := 9, channels := [(77, 12), (78, 40)] }
  peers := [cachedUser, { cachedUser with id := 5, isChat := true }, { cachedUser with id := 77, isChannel := true }]
  minPeers := [⟨9, 77, 4⟩]
  futureAuthToken := some [1, 2, 3]

theorem stringSessions_iff_urlSafe : urlSafeNoPad.Lawful ∧ NativeRead urlSafeNoPad signedIn :=
  ⟨urlSafeNoPad_lawful,
    ((stringSessions_iff urlSafeNoPad urlSafeNoPad_lawful).2.2.2.2.2 signedIn).mpr
      { dcs := by decide, addrs := by decide, channels := by decide, peers := by decide, kinds := by decide
        minPeers := by decide, token := by decide }⟩

/-- The string of a cache of 65536 peers is read as one without peers. -/
theorem manyPeers_lost_in_string :
    ¬ NativeRead urlSafeNoPad { PersistedSession.default with peers := List.replicate 65536 cachedUser } := by
  intro h
  have hlen := ((nativeRead_iff urlSafeNoPad_lawful _).mp h).peers
  simp only [List.length_replicate] at hlen
  omega

end Ferogram.Session
