import Ferogram.Connect.Util
import Ferogram.TlTypes.Codec

/- Reading back what the TL codec wrote.

   Each reader of `deserialize` gets the bytes it reads exactly (`Reader.Reads`), and the case
   of a vector is the induction hypothesis for its items. What does not fit is a byte string
   whose length needs more than three bytes and a vector whose count is not an `i32`.

   The crate writes byte strings in three more places: the key exchange, the binding of a
   temporary key, and the senders' helpers. -/
namespace Ferogram.TlTypes
open Bytes Reader

/-! Three bytes of length. -/

/-- Masking a number to eight bits and cutting it to eight bits is the same. -/
theorem ofNat_and_255 (n : Nat) : UInt8.ofNat (n &&& 0xff) = UInt8.ofNat n := by
  apply UInt8.toNat_inj.mp
  have hmask : n &&& 0xff = n % 2 ^ 8 := Nat.and_two_pow_sub_one_eq_mod n 8
  rw [hmask, UInt8.toNat_ofNat', UInt8.toNat_ofNat']
  omega

theorem le_three (n : Nat) :
    le 3 n = [UInt8.ofNat (n &&& 0xff), UInt8.ofNat ((n >>> 8) &&& 0xff), UInt8.ofNat ((n >>> 16) &&& 0xff)] := by
  have h₁ : n >>> 8 = n / 256 := Nat.shiftRight_eq_div_pow n 8
  have h₂ : n >>> 16 = n / 256 / 256 := by
    rw [Nat.shiftRight_eq_div_pow, Nat.div_div_eq_div_mul]
  rw [ofNat_and_255, ofNat_and_255, ofNat_and_255, h₁, h₂]
  rfl

theorem or_shifts_eq_ofLe (a b c : UInt8) :
    a.toNat ||| (b.toNat <<< 8) ||| (c.toNat <<< 16) = ofLe [a, b, c] := by
  have ha : a.toNat < 2 ^ 8 := a.toNat_lt
  have hb : b.toNat < 2 ^ 8 := b.toNat_lt
  have hlow : a.toNat ||| (b.toNat <<< 8) = b.toNat <<< 8 + a.toNat := by
    rw [Nat.or_comm, Nat.shiftLeft_add_eq_or_of_lt ha]
  have hlt : b.toNat <<< 8 + a.toNat < 2 ^ 16 := by
    rw [Nat.shiftLeft_eq]
    omega
  rw [hlow, Nat.or_comm, ← Nat.shiftLeft_add_eq_or_of_lt hlt, Nat.shiftLeft_eq, Nat.shiftLeft_eq]
  simp only [ofLe]
  omega

/-! What each reader reads. -/

theorem reads_byte (b : UInt8) : Reads .unexpectedEof readByte [b] b :=
  (Reads.take' ⟨[b], rfl⟩).map' rfl

theorem reads_i32 (x : Int32) : Reads .unexpectedEof readI32 (ofI32 x) x :=
  (Reads.take' ⟨ofI32 x, ofI32_length x⟩).map' (toI32_ofI32 x)

theorem reads_u32 (x : UInt32) : Reads .unexpectedEof readU32 (ofU32 x) x := by
  have hval : UInt32.ofNat (ofLe (le 4 x.toNat)) = x := by
    rw [ofLe_le_of_lt x.toNat_lt, UInt32.ofNat_toNat]
  exact (Reads.take' ⟨ofU32 x, le_length 4 _⟩).map' hval

theorem reads_i64 (x : Int64) : Reads .unexpectedEof readI64 (ofI64 x) x :=
  (Reads.take' ⟨ofI64 x, ofI64_length x⟩).map' (toI64_ofI64 x)

theorem reads_u64 (x : UInt64) : Reads .unexpectedEof readU64 (ofU64 x) x := by
  have hval : UInt64.ofNat (ofLe (le 8 x.toNat)) = x := by
    rw [ofLe_le_of_lt x.toNat_lt, UInt64.ofNat_toNat]
  exact (Reads.take' ⟨ofU64 x, le_length 8 _⟩).map' hval

theorem reads_bool (x : Bool) : Reads .unexpectedEof deserializeBool (serializeBool x) x := by
  have hid := reads_u32 (if x then idBoolTrue else idBoolFalse)
  rw [← List.append_nil (serializeBool x)]
  refine hid.bind' ?_
  cases x with
  | false => exact Reads.pure' false
  | true => exact Reads.pure' true

theorem reads_bytes_of (b : List UInt8) : Reads .unexpectedEof (many readByte b.length) b b := by
  have h : Reads .unexpectedEof (many readByte b.length) (b.flatMap fun x => [x]) b :=
    Reads.many' b (fun x _ => reads_byte x)
  rwa [List.flatMap_singleton'] at h

/-- A length of one byte. -/
theorem reads_header_short {len : Nat} (h : len ≤ 253) :
    Reads .unexpectedEof readHeader [UInt8.ofNat len] (len, 0) := by
  have hlen : (UInt8.ofNat len).toNat = len := by
    rw [UInt8.toNat_ofNat']
    omega
  have hne : UInt8.ofNat len ≠ 0xfe := by
    intro heq
    have h254 : (UInt8.ofNat len).toNat = 254 := congrArg UInt8.toNat heq
    omega
  have hrest : Reads (e := Error.unexpectedEof)
      (if UInt8.ofNat len ≠ 0xfe then pure ((UInt8.ofNat len).toNat, 0) else do
        let a ← readByte
        let b ← readByte
        let c ← readByte
        pure (a.toNat ||| (b.toNat <<< 8) ||| (c.toNat <<< 16), 3)) [] (len, 0) := by
    rw [if_pos hne, hlen]
    exact Reads.pure' (len, 0)
  exact (reads_byte (UInt8.ofNat len)).bind' hrest

/-- A length of three bytes. -/
theorem reads_header_long {len : Nat} (h : len < 2 ^ 24) :
    Reads .unexpectedEof readHeader (0xfe :: le 3 len) (len, 3) := by
  have hlen : ofLe (le 3 len) = len := ofLe_le_of_lt h
  have hrest : Reads (e := Error.unexpectedEof)
      (if (0xfe : UInt8) ≠ 0xfe then pure ((0xfe : UInt8).toNat, 0) else do
        let a ← readByte
        let b ← readByte
        let c ← readByte
        pure (a.toNat ||| (b.toNat <<< 8) ||| (c.toNat <<< 16), 3)) (le 3 len) (len, 3) := by
    rw [if_neg (not_not.mpr rfl)]
    refine (reads_byte _).bind' ((reads_byte _).bind' ((reads_byte _).map' ?_))
    rw [or_shifts_eq_ofLe]
    exact congrArg (·, 3) hlen
  exact (reads_byte 0xfe).bind' hrest

/-- Data and padding behind a header. -/
theorem reads_data {header data : List UInt8} (extra : Nat)
    (h : Reads .unexpectedEof readHeader header (data.length, extra)) :
    Reads .unexpectedEof deserializeBytes
      (header ++ data ++ List.replicate (alignment (1 + extra + data.length)) 0) data := by
  have hpad := reads_bytes_of (List.replicate (alignment (1 + extra + data.length)) 0)
  rw [List.length_replicate] at hpad
  rw [List.append_assoc]
  exact h.bind' ((Reads.take' ⟨data, rfl⟩).bind' (hpad.map' rfl))

theorem reads_serializeBytes {data : List UInt8} (h : data.length < 2 ^ 24) :
    Reads .unexpectedEof deserializeBytes (serializeBytes data) data := by
  unfold serializeBytes
  by_cases hshort : data.length ≤ 253
  · simp only [if_pos hshort]
    exact reads_data 0 (reads_header_short hshort)
  · simp only [if_neg hshort, ← le_three]
    exact reads_data 3 (reads_header_long h)

theorem reads_string {x : String} (h : (Utf8.encode x).length < 2 ^ 24) :
    Reads .unexpectedEof deserializeString (serializeBytes (Utf8.encode x)) x := by
  rw [← List.append_nil (serializeBytes _)]
  refine (reads_serializeBytes h).bind' ?_
  rw [Utf8.decode?_encode]
  exact Reads.pure' x

theorem asUsize_ofNat {n : Nat} (h : n < 2 ^ 31) : asUsize (Int32.ofNat n) = n := by
  have hint : (Int32.ofNat n).toInt = n := Int32.toInt_ofNat_of_lt h
  have hlong : (Int32.ofNat n).toInt64 = Int64.ofNat n := by
    apply Int64.toInt_inj.mp
    rw [Int32.toInt_toInt64, hint, Int64.toInt_ofNat_of_lt (by omega)]
  unfold asUsize
  rw [hlong]
  show (UInt64.ofNat n).toNat = n
  rw [UInt64.toNat_ofNat']
  omega

section
variable {α : Type} {p : Reader Error α} {item : α → List UInt8} {x : List α}

/-- A count, and that many items. -/
theorem reads_rawVec (hlen : x.length < 2 ^ 31) (hitems : ∀ y ∈ x, Reads .unexpectedEof p (item y) y) :
    Reads .unexpectedEof (deserializeRawVec p) (serializeRawVec item x) x := by
  refine (reads_i32 _).bind' ?_
  rw [asUsize_ofNat hlen]
  exact Reads.many' x hitems

theorem reads_vec (hlen : x.length < 2 ^ 31) (hitems : ∀ y ∈ x, Reads .unexpectedEof p (item y) y) :
    Reads .unexpectedEof (deserializeVec p) (serializeVec item x) x := by
  refine (reads_u32 idVector).bind' ?_
  rw [if_neg (not_not.mpr rfl)]
  exact reads_rawVec hlen hitems

end

/-! Values. -/

/-- Byte strings shorter than `2 ^ 24` bytes and vectors shorter than `2 ^ 31` items, all the way
down. -/
def Fits : (t : TlType) → t.Val → Prop
  | .bytes, x => List.length x < 2 ^ 24
  | .string, x => (Utf8.encode x).length < 2 ^ 24
  | .vec item, x => List.length x < 2 ^ 31 ∧ ∀ y : item.Val, List.Mem y x → Fits item y
  | .rawVec item, x => List.length x < 2 ^ 31 ∧ ∀ y : item.Val, List.Mem y x → Fits item y
  | _, _ => True

/-- Whatever fits is read back, and nothing else with it. -/
theorem reads_serialize (t : TlType) (v : t.Val) (h : Fits t v) :
    Reads .unexpectedEof (deserialize t) (serialize t v) v := by
  induction t with
  | i32 => exact reads_i32 v
  | i64 => exact reads_i64 v
  | u32 => exact reads_u32 v
  | f64 => exact reads_u64 v
  | bool => exact reads_bool v
  | bytes => exact reads_serializeBytes h
  | string => exact reads_string h
  | int128 => exact Reads.take' v
  | int256 => exact Reads.take' v
  | vec item ih => exact reads_vec h.1 (fun y hy => ih y (h.2 y hy))
  | rawVec item ih => exact reads_rawVec h.1 (fun y hy => ih y (h.2 y hy))

/-! Alignment. -/

theorem alignment_spec (total : Nat) : 4 ∣ total + alignment total := by
  unfold alignment
  omega

theorem four_dvd_serializeBytes (data : List UInt8) : 4 ∣ (serializeBytes data).length := by
  unfold serializeBytes
  by_cases hshort : data.length ≤ 253
  · have h := alignment_spec (1 + data.length)
    simp only [if_pos hshort, List.length_append, List.length_replicate]
    exact h
  · have h := alignment_spec (4 + data.length)
    simp only [if_neg hshort, List.length_append, List.length_replicate]
    exact h

theorem four_dvd_flatMap {α : Type} {enc : α → List UInt8} {xs : List α} (h : ∀ x ∈ xs, 4 ∣ (enc x).length) :
    4 ∣ (xs.flatMap enc).length := by
  induction xs with
  | nil => exact Nat.dvd_zero 4
  | cons x xs ih =>
    rw [List.flatMap_cons, List.length_append]
    exact Nat.dvd_add (h x List.mem_cons_self) (ih fun y hy => h y (List.mem_cons_of_mem x hy))

theorem four_dvd_rawVec {α : Type} {item : α → List UInt8} (x : List α) (h : ∀ y, 4 ∣ (item y).length) :
    4 ∣ (serializeRawVec item x).length := by
  rw [serializeRawVec, List.length_append, ofI32_length]
  exact Nat.dvd_add ⟨1, rfl⟩ (four_dvd_flatMap fun y _ => h y)

/-- Every value takes whole words, also one that does not fit. -/
theorem four_dvd_serialize (t : TlType) (v : t.Val) : 4 ∣ (serialize t v).length := by
  have hu32 : ∀ x, (ofU32 x).length = 4 := fun x => le_length 4 x.toNat
  induction t with
  | i32 => exact ⟨1, ofI32_length v⟩
  | i64 => exact ⟨2, ofI64_length v⟩
  | u32 => exact ⟨1, hu32 v⟩
  | f64 => exact ⟨2, le_length 8 _⟩
  | bool => exact ⟨1, hu32 _⟩
  | bytes => exact four_dvd_serializeBytes v
  | string => exact four_dvd_serializeBytes _
  | int128 => exact ⟨4, Subtype.property v⟩
  | int256 => exact ⟨8, Subtype.property v⟩
  | vec item ih =>
    show 4 ∣ (ofU32 idVector ++ serializeRawVec (serialize item) v).length
    rw [List.length_append, hu32]
    exact Nat.dvd_add ⟨1, rfl⟩ (four_dvd_rawVec v ih)
  | rawVec item ih => exact four_dvd_rawVec v ih

/-! The other writers of byte strings. -/

/-- `tl_serialize_bytes` of the key exchange. -/
def tlSerializeBytes (v : List UInt8) : List UInt8 :=
  let len := v.length
  if len < 254 then
    let total := 1 + len
    let pad := (4 - total % 4) % 4
    UInt8.ofNat len :: (v ++ List.replicate pad 0)
  else
    let total := 4 + len
    let pad := (4 - total % 4) % 4
    0xfe :: UInt8.ofNat (len &&& 0xff) :: UInt8.ofNat ((len >>> 8) &&& 0xff) ::
      UInt8.ofNat ((len >>> 16) &&& 0xff) :: (v ++ List.replicate pad 0)

/-- `tl_write_bytes` of `bind_temp_key.rs`, which appends to `out`. -/
def bindTlWriteBytes (out data : List UInt8) : List UInt8 :=
  let len := data.length
  if len < 254 then
    out ++ [UInt8.ofNat len] ++ data ++ List.replicate ((4 - (1 + len) % 4) % 4) 0
  else
    out ++ [(0xfe : UInt8)] ++ [UInt8.ofNat (len &&& 0xff)] ++ [UInt8.ofNat ((len >>> 8) &&& 0xff)] ++
      [UInt8.ofNat ((len >>> 16) &&& 0xff)] ++ data ++ List.replicate ((4 - (4 + len) % 4) % 4) 0

theorem serializeBytes_short {data : List UInt8} (h : data.length ≤ 253) :
    serializeBytes data =
      UInt8.ofNat data.length :: (data ++ List.replicate ((4 - (1 + data.length) % 4) % 4) 0) := by
  unfold serializeBytes
  simp only [if_pos h]
  rfl

theorem serializeBytes_long {data : List UInt8} (h : ¬data.length ≤ 253) :
    serializeBytes data =
      0xfe :: (le 3 data.length ++ (data ++ List.replicate ((4 - (4 + data.length) % 4) % 4) 0)) := by
  unfold serializeBytes
  simp only [if_neg h, le_three]
  rfl

theorem tlSerializeBytes_eq (data : List UInt8) : tlSerializeBytes data = serializeBytes data := by
  unfold tlSerializeBytes
  by_cases h : data.length ≤ 253
  · rw [serializeBytes_short h]
    exact if_pos (by omega)
  · rw [serializeBytes_long h, le_three]
    exact if_neg (by omega)

theorem bindTlWriteBytes_eq (out data : List UInt8) :
    bindTlWriteBytes out data = out ++ serializeBytes data := by
  unfold bindTlWriteBytes
  by_cases h : data.length ≤ 253
  · have hlt : data.length < 254 := by omega
    rw [serializeBytes_short h]
    simp only [hlt, if_true, List.append_assoc, List.cons_append, List.nil_append]
  · have hlt : ¬data.length < 254 := by omega
    rw [serializeBytes_long h, le_three]
    simp only [hlt, if_false, List.append_assoc, List.cons_append, List.nil_append]

theorem connect_tlWriteBytes_eq (data : List UInt8) : Connect.tlWriteBytes data = serializeBytes data := by
  unfold Connect.tlWriteBytes
  by_cases h : data.length ≤ 253
  · rw [serializeBytes_short h]
    exact if_pos (by omega)
  · -- the low three of the four bytes of the length
    have htake : (le 4 data.length).take 3 = le 3 data.length := rfl
    have hlt : ¬data.length < 254 := by omega
    rw [serializeBytes_long h]
    simp only [hlt, if_false, htake, List.append_assoc]

theorem tlReadBytes_short {d : UInt8} (h : d.toNat < 254) (data : List UInt8) :
    Connect.tlReadBytes (d :: data) = if data.length < d.toNat then none else some (data.take d.toNat) := by
  simp only [Connect.tlReadBytes, if_pos h]

theorem tlReadBytes_long (n : Nat) (data : List UInt8) :
    Connect.tlReadBytes (0xfe :: (le 3 n ++ data)) =
      if data.length < ofLe (le 3 n) then none else some (data.take (ofLe (le 3 n))) := rfl

/-- Reading a byte string at the front of a body. -/
theorem tlReadBytes_serializeBytes {data : List UInt8} (h : data.length < 2 ^ 24) (rest : List UInt8) :
    Connect.tlReadBytes (serializeBytes data ++ rest) = some data := by
  by_cases hshort : data.length ≤ 253
  · have hbyte : (UInt8.ofNat data.length).toNat = data.length := by
      rw [UInt8.toNat_ofNat']
      omega
    rw [serializeBytes_short hshort, List.cons_append, tlReadBytes_short (by omega), hbyte,
      List.append_assoc, if_neg (by simp), List.take_left]
  · have hlen : ofLe (le 3 data.length) = data.length := ofLe_le_of_lt h
    rw [serializeBytes_long hshort, List.cons_append, List.append_assoc, tlReadBytes_long, hlen,
      List.append_assoc, if_neg (by simp), List.take_left]

/-- **The TL codec.** Every value takes whole words. One that fits is read back with whatever
follows it left over. All four writers of byte strings write the same, and what they write is
read back by `tl_read_bytes`. -/
theorem codec_round_trip :
    (∀ (t : TlType) (v : t.Val), 4 ∣ (serialize t v).length) ∧
    (∀ (t : TlType) (v : t.Val), Fits t v →
      ∀ rest, (deserialize t).run (serialize t v ++ rest) = .ok (v, rest)) ∧
    (∀ data, tlSerializeBytes data = serialize .bytes data ∧
      (∀ out, bindTlWriteBytes out data = out ++ serialize .bytes data) ∧
      Connect.tlWriteBytes data = serialize .bytes data) ∧
    ∀ data : List UInt8, data.length < 2 ^ 24 →
      Connect.tlReadBytes (Connect.tlWriteBytes data) = some data := by
  refine ⟨four_dvd_serialize, ?_, ?_, ?_⟩
  · intro t v h
    exact (reads_serialize t v h).full
  · intro data
    exact ⟨tlSerializeBytes_eq data, fun out => bindTlWriteBytes_eq out data, connect_tlWriteBytes_eq data⟩
  · intro data h
    have hread := tlReadBytes_serializeBytes h []
    rwa [List.append_nil, ← connect_tlWriteBytes_eq] at hread

theorem codec_round_trip_nested :
    (deserialize (.vec (.rawVec .i32))).run (serialize (.vec (.rawVec .i32)) [[(7 : Int32)], []] ++ [9]) =
        .ok ([[(7 : Int32)], []], [9]) ∧
      Connect.tlReadBytes (Connect.tlWriteBytes [1, 2, 3]) = some [1, 2, 3] := by
  have hfits : Fits (.vec (.rawVec .i32)) [[(7 : Int32)], []] := by
    refine ⟨by decide, fun y hy => ⟨?_, fun _ _ => trivial⟩⟩
    rcases List.mem_pair.mp hy with rfl | rfl
    · decide
    · decide
  exact ⟨codec_round_trip.2.1 _ _ hfits [9], codec_round_trip.2.2.2 [1, 2, 3] (by decide)⟩

/-- A count that wraps to zero. -/
theorem rawVec_count_zero {α : Type} (p : Reader Error α) (item : α → List UInt8) {x : List α}
    (h : Int32.ofNat x.length = 0) (rest : List UInt8) :
    (deserializeRawVec p).run (serializeRawVec item x ++ rest) = .ok ([], x.flatMap item ++ rest) := by
  unfold serializeRawVec
  rw [h, List.append_assoc]
  exact bind_of_ok ((reads_i32 0).full _) _

/-- A vector of `2 ^ 32` items is read as the empty one. -/
theorem vec_count_wraps :
    (deserialize (.rawVec .bool)).run (serialize (.rawVec .bool) (List.replicate (2 ^ 32) true) ++ []) ≠
      .ok (List.replicate (2 ^ 32) true, []) := by
  -- the items are never looked at, only their number
  have hempty : ∀ x : List Bool, x.length = 2 ^ 32 →
      (deserialize (.rawVec .bool)).run (serialize (.rawVec .bool) x ++ []) ≠ .ok (x, []) := by
    intro x hx h
    have hcount : Int32.ofNat x.length = 0 := by
      rw [hx]
      decide
    have hitems := Except.ok.inj ((rawVec_count_zero deserializeBool serializeBool hcount []).symm.trans h)
    have hlen : 0 = x.length := congrArg (List.length ∘ Prod.fst) hitems
    omega
  exact hempty _ List.length_replicate

end Ferogram.TlTypes
