import Mathlib.Data.List.Basic
import Ferogram.Mtsender.Receive

/- Frames in the writer's format, read by the two readers.

   What is proved: `frames_recovered_iff`, which says for every transport and every list
   of payloads when `recv_raw_frame`, called again and again, and the sender's peel loop,
   however the bytes arrive, both return the payloads and stay in step with the writer.
   `recv_raw_frame` takes every transport it does not know for Abridged, does not count
   Full frames, and takes no more than 128 KiB; the peel loop is right wherever
   `recv_raw_frame` is. -/
namespace Ferogram.Mtsender
open Bytes Connect Keystream Framing

/-- A payload, and the padding that goes with it. -/
structure Payload where
  data : List UInt8
  pad : List UInt8
  nonempty : 0 < data.length
  aligned : 4 ∣ data.length
  small : data.length ≤ 1024 * 1024
  pad_lt : pad.length < 16

namespace Payload

def words (p : Payload) : Nat := p.data.length / 4

theorem words_pos (p : Payload) : 0 < p.words := by
  have := p.nonempty
  have := p.aligned
  unfold words
  omega

theorem words_le (p : Payload) : p.words ≤ 0x40000 := by
  have := p.small
  unfold words
  omega

theorem length_eq (p : Payload) : p.data.length = p.words * 4 := by
  have := p.aligned
  unfold words
  omega

end Payload

section
variable (key : Nat → UInt8) (kind : FrameKind)

/-- The position after a frame. -/
def after (here : Position) (p : Payload) : Position := (sendFrame key kind here p.data p.pad).2

/-- The frames of the payloads, one after another. -/
def stream : Position → List Payload → List UInt8
  | _, [] => []
  | here, p :: ps => (sendFrame key kind here p.data p.pad).1 ++ stream (after key kind here p) ps

def finish : Position → List Payload → Position
  | here, [] => here
  | here, p :: ps => finish (after key kind here p) ps

/-- Each call of `recv_raw_frame` returns the next payload and stops, and stands, where the
next frame begins. -/
def RawRecovers : Position → List Payload → Prop
  | _, [] => True
  | here, p :: ps =>
    (recvRawFrame key kind here).run (stream key kind here (p :: ps)) =
        .ok ((p.data, after key kind here p), stream key kind (after key kind here p) ps) ∧
      RawRecovers (after key kind here p) ps

/-- What a TCP stream can be read as. -/
def IsReads (reads : List (List UInt8)) : Prop := ∀ r ∈ reads, r ≠ [] ∧ r.length ≤ readScratchCap

/-- However the bytes arrive, the peel loop passes the payloads on, keeps nothing, and stands
where the next frame begins. -/
def PeelRecovers (here : Position) (ps : List Payload) : Prop :=
  ∀ reads, IsReads reads → reads.flatten = stream key kind here ps →
    receive key kind ⟨[], here, []⟩ reads = ⟨ps.map Payload.data, ⟨[], finish key kind here ps, []⟩, none⟩

end

/-! The header of an Abridged frame. -/

theorem byte_toNat {n : Nat} (h : n < 256) : (UInt8.ofNat n).toNat = n := by
  rw [UInt8.toNat_ofNat']
  exact Nat.mod_eq_of_lt h

theorem readExact_run (n : Nat) (b : List UInt8) : (readExact n).run b =
    if n ≤ b.length then .ok (b.take n, b.drop n) else .error .unexpectedEof := by
  unfold readExact Reader.take
  simp only [Reader.bind_run]
  by_cases h : n ≤ b.length
  · simp [h]
  · simp [h]

theorem readExact_append {n : Nat} {a : List UInt8} (h : a.length = n) (b : List UInt8) :
    (readExact n).run (a ++ b) = .ok (a, b) := by
  rw [readExact_run, if_pos (by simp; omega), List.take_left' h, List.drop_left' h]

/-- What `recv_abridged` reads a word count from: one byte, or three after the marker. -/
def wordCount (b : List UInt8) : Nat :=
  if ofLe (b.take 1) < 0x7f then ofLe (b.take 1) else ofLe (field b 1 3)

theorem readExact_ok {n : Nat} {b d rest : List UInt8} (h : (readExact n).run b = .ok (d, rest)) :
    d = b.take n ∧ rest = b.drop n ∧ d.length = n := by
  rw [readExact_run] at h
  split at h
  case isTrue hle =>
    cases h
    exact ⟨rfl, rfl, List.length_take_of_le hle⟩
  case isFalse => cases h

theorem readAbridgedWords_ok {b rest : List UInt8} {words : Nat}
    (h : readAbridgedWords.run b = .ok (words, rest)) : words = wordCount b := by
  unfold readAbridgedWords at h
  obtain ⟨hd, mid, hhd, h⟩ := Reader.bind_ok h
  obtain ⟨rfl, rfl, -⟩ := readExact_ok hhd
  unfold wordCount
  split at h
  case isTrue hlt =>
    rw [if_pos hlt]
    exact (Reader.pure_ok h).1
  case isFalse hlt =>
    rw [if_neg hlt]
    obtain ⟨b3, mid3, hb3, h⟩ := Reader.bind_ok h
    obtain ⟨rfl, rfl, -⟩ := readExact_ok hb3
    split at h
    · obtain ⟨code, rest', -, hfail⟩ := Reader.bind_ok h
      cases hfail
    · exact (Reader.pure_ok h).1

theorem readWords_ok {words : Nat} {b d rest : List UInt8} (h : (readWords words).run b = .ok (d, rest)) :
    words ≤ 0x8000 ∧ d.length = words * 4 := by
  unfold readWords at h
  split at h
  · cases h
  · exact ⟨by omega, (readExact_ok h).2.2⟩

/-- A frame that `recv_abridged` returns has as many words as it found in the header. -/
theorem recvAbridged_ok {b d rest : List UInt8} (h : recvAbridged.run b = .ok (d, rest)) :
    wordCount b ≤ 0x8000 ∧ d.length = wordCount b * 4 := by
  unfold recvAbridged at h
  obtain ⟨words, mid, hwords, h⟩ := Reader.bind_ok h
  obtain rfl := readAbridgedWords_ok hwords
  exact readWords_ok h

/-! Reading an Abridged frame, plain or enciphered. -/

theorem ofLe_singleton {n : Nat} (h : n < 256) : ofLe [UInt8.ofNat n] = n := by
  rw [ofLe, ofLe, byte_toNat h]
  omega

theorem readAbridgedWords_header {words : Nat} (h : words ≤ 0x40000) (rest : List UInt8) :
    readAbridgedWords.run (abridgedHeader words ++ rest) = .ok (words, rest) := by
  unfold readAbridgedWords abridgedHeader
  by_cases hlt : words < 0x7f
  · rw [if_pos hlt, Reader.bind_of_ok (readExact_append (by rfl) rest), ofLe_singleton (by omega), if_pos hlt]
    rfl
  · have h3 : ofLe (le 3 words) = words := ofLe_le_of_lt (by omega)
    rw [if_neg hlt, ← List.singleton_append, List.append_assoc,
      Reader.bind_of_ok (readExact_append (by rfl) _), if_neg (by decide),
      Reader.bind_of_ok (readExact_append (le_length 3 words) rest), h3, if_neg (by omega)]
    rfl

theorem readWords_append {p : Payload} (hsmall : p.words ≤ 0x8000) {d : List UInt8}
    (hd : d.length = p.data.length) (rest : List UInt8) :
    (readWords p.words).run (d ++ rest) = .ok (d, rest) := by
  have hpos := p.words_pos
  unfold readWords
  rw [if_neg (by omega)]
  exact readExact_append (hd.trans p.length_eq) rest

theorem abridgedFrame_eq (p : Payload) : abridgedFrame p.data = abridgedHeader p.words ++ p.data := rfl

theorem recvAbridged_frame {p : Payload} (hsmall : p.words ≤ 0x8000) (rest : List UInt8) :
    recvAbridged.run (abridgedFrame p.data ++ rest) = .ok (p.data, rest) := by
  unfold recvAbridged
  rw [abridgedFrame_eq, List.append_assoc, Reader.bind_of_ok (readAbridgedWords_header p.words_le _)]
  exact readWords_append hsmall rfl rest

section
variable (key : Nat → UInt8) (offset : Nat)

theorem readObfuscatedWords_header {words : Nat} (h : words ≤ 0x40000) (rest : List UInt8) :
    (readObfuscatedWords key offset).run (mask key offset (abridgedHeader words) ++ rest) =
      .ok ((words, offset + (abridgedHeader words).length), rest) := by
  have hone : ∀ b : UInt8, (mask key offset [b]).length = 1 := fun b => mask_length key offset [b]
  unfold readObfuscatedWords abridgedHeader
  by_cases hlt : words < 0x7f
  · rw [if_pos hlt, Reader.bind_of_ok (readExact_append (hone _) rest), mask_mask,
      ofLe_singleton (by omega), if_pos hlt]
    rfl
  · have h3 : ofLe (le 3 words) = words := ofLe_le_of_lt (by omega)
    have hlen : (mask key (offset + 1) (le 3 words)).length = 3 := by simp
    rw [if_neg hlt, ← List.singleton_append, mask_append, List.append_assoc,
      Reader.bind_of_ok (readExact_append (hone _) _), mask_mask, if_neg (by decide)]
    show ((readExact 3) >>= _ : Reader _ _).run (mask key (offset + 1) (le 3 words) ++ rest) = _
    rw [Reader.bind_of_ok (readExact_append hlen rest), mask_mask, h3]
    rfl

theorem recvObfuscated_frame {p : Payload} (hsmall : p.words ≤ 0x8000) (rest : List UInt8) :
    (recvObfuscated key offset).run (mask key offset (abridgedFrame p.data) ++ rest) =
      .ok ((p.data, offset + (abridgedFrame p.data).length), rest) := by
  unfold recvObfuscated
  rw [abridgedFrame_eq, mask_append, List.append_assoc, Reader.bind_of_ok (readObfuscatedWords_header key offset p.words_le _)]
  show ((readWords p.words) >>= _ : Reader _ _).run _ = _
  rw [Reader.bind_of_ok (readWords_append hsmall (mask_length key _ p.data) rest)]
  simp only [Reader.pure_run, mask_length, List.length_append]
  rw [mask_mask, Nat.add_assoc]

end

/-! `recv_raw_frame`, transport by transport. -/

/-- The transports whose frames `recv_raw_frame` reads as they are written. -/
def Readable (kind : FrameKind) : Prop := kind = .abridged ∨ kind = .obfuscated

section
variable {key : Nat → UInt8} {kind : FrameKind} {here : Position} {p : Payload} {rest : List UInt8}

/-- Only the reader of Obfuscated moves the position. -/
theorem recvRawFrame_here {d : List UInt8} {here' : Position} {b : List UInt8}
    (hkind : kind ≠ .obfuscated) (h : (recvRawFrame key kind here).run b = .ok ((d, here'), rest)) :
    here' = here := by
  cases kind with
  | obfuscated => exact absurd rfl hkind
  | abridged | intermediate | full | paddedIntermediate | fakeTls =>
    obtain ⟨x, mid, -, h⟩ := Reader.bind_ok h
    cases h
    rfl

/-- An Intermediate length is no Abridged header of the same length. -/
theorem wordCount_intermediate {data : List UInt8} (hpos : 0 < data.length)
    (hsmall : data.length ≤ 1024 * 1024) (rest : List UInt8) :
    data.length ≠ wordCount (intermediateFrame data ++ rest) * 4 := by
  have hfirst : ofLe ((intermediateFrame data ++ rest).take 1) = data.length % 256 := by
    show ofLe [UInt8.ofNat data.length] = _
    rw [ofLe, ofLe, UInt8.toNat_ofNat']
    omega
  have hrest : ofLe (field (intermediateFrame data ++ rest) 1 3) = data.length / 256 := by
    show ofLe (le 3 (data.length / 256)) = _
    exact ofLe_le_of_lt (by omega)
  unfold wordCount
  rw [hfirst, hrest]
  split <;> omega

theorem recvRawFrame_readable (hkind : Readable kind) (hsmall : p.words ≤ 0x8000) (rest : List UInt8) :
    (recvRawFrame key kind here).run ((sendFrame key kind here p.data p.pad).1 ++ rest) =
      .ok ((p.data, after key kind here p), rest) := by
  rcases hkind with rfl | rfl
  · show (recvAbridged >>= _ : Reader _ _).run (abridgedFrame p.data ++ rest) = _
    rw [Reader.bind_of_ok (recvAbridged_frame hsmall rest)]
    rfl
  · show (recvObfuscated key here.offset >>= _ : Reader _ _).run
      (mask key here.offset (abridgedFrame p.data) ++ rest) = _
    rw [Reader.bind_of_ok (recvObfuscated_frame key here.offset hsmall rest)]
    rfl

theorem readable_of_recvRawFrame
    (h : (recvRawFrame key kind here).run ((sendFrame key kind here p.data p.pad).1 ++ rest) =
      .ok ((p.data, after key kind here p), rest)) : Readable kind ∧ p.words ≤ 0x8000 := by
  have hpos := p.nonempty
  cases kind with
  | abridged =>
    refine ⟨.inl rfl, ?_⟩
    obtain ⟨d, mid, hd, -⟩ := Reader.bind_ok h
    have hcount := readAbridgedWords_ok (readAbridgedWords_header p.words_le (p.data ++ rest))
    rw [hcount, ← List.append_assoc]
    exact (recvAbridged_ok hd).1
  | obfuscated =>
    refine ⟨.inr rfl, ?_⟩
    obtain ⟨d, mid, hd, -⟩ := Reader.bind_ok h
    obtain ⟨x, mid', hx, hd⟩ := Reader.bind_ok hd
    have hheader := readObfuscatedWords_header key here.offset p.words_le
      (mask key (here.offset + (abridgedHeader p.words).length) p.data ++ rest)
    have hframe : (sendFrame key .obfuscated here p.data p.pad).1 ++ rest =
        mask key here.offset (abridgedHeader p.words) ++
          (mask key (here.offset + (abridgedHeader p.words).length) p.data ++ rest) := by
      show mask key here.offset (abridgedFrame p.data) ++ rest = _
      rw [abridgedFrame_eq, mask_append, List.append_assoc]
    rw [hframe, hheader] at hx
    cases hx
    obtain ⟨buf, mid'', hbuf, -⟩ := Reader.bind_ok hd
    exact (readWords_ok hbuf).1
  | intermediate =>
    -- the word count of the length read as abridged never fits
    obtain ⟨d, mid, hd, hpure⟩ := Reader.bind_ok h
    cases hpure
    exact absurd (recvAbridged_ok hd).2 (wordCount_intermediate p.nonempty p.small rest)
  | full =>
    -- the other kinds move on by more than the reader does
    have hstay := congrArg Position.seqno (recvRawFrame_here (by decide) h)
    have hstay : here.seqno + 1 = here.seqno := hstay
    simp at hstay
  | paddedIntermediate =>
    have hstay := congrArg Position.offset (recvRawFrame_here (by decide) h)
    have hstay : here.offset + (intermediateFrame (p.data ++ p.pad)).length = here.offset := hstay
    simp [intermediateFrame] at hstay
  | fakeTls =>
    have hstay := congrArg Position.offset (recvRawFrame_here (by decide) h)
    have hstay : here.offset + (intermediateFrame (p.data ++ p.pad)).length = here.offset := hstay
    simp [intermediateFrame] at hstay

end

theorem rawRecovers_iff (key : Nat → UInt8) (kind : FrameKind) (here : Position) (ps : List Payload) :
    RawRecovers key kind here ps ↔ ∀ p ∈ ps, Readable kind ∧ p.words ≤ 0x8000 := by
  induction ps generalizing here with
  | nil => simp [RawRecovers]
  | cons p ps ih =>
    rw [RawRecovers, ih, List.forall_mem_cons]
    constructor
    · intro ⟨hhead, hrest⟩
      exact ⟨readable_of_recvRawFrame hhead, hrest⟩
    · intro ⟨⟨hkind, hsmall⟩, hrest⟩
      exact ⟨recvRawFrame_readable hkind hsmall _, hrest⟩

/-! The peel loop. -/

theorem peelOne_nil (kind : FrameKind) (seqno : UInt32) : peelOne kind seqno [] = .incomplete := by
  cases kind <;> rfl

/-- The body is peeled off behind its header. -/
theorem peelBody_append (seqno : UInt32) (hdr : List UInt8) {data : List UInt8} {n : Nat} (hn : data.length = n)
    (rest : List UInt8) :
    peelBody seqno (hdr ++ data ++ rest) hdr.length n = .complete data rest seqno := by
  have hfield : field (hdr ++ data ++ rest) hdr.length n = data := by
    unfold field
    rw [List.append_assoc, List.drop_left, List.take_left' hn]
  have hdrop : (hdr ++ data ++ rest).drop (hdr.length + n) = rest := by
    rw [List.drop_left' (by rw [List.length_append, hn])]
  unfold peelBody
  rw [if_neg (by simp [hn]), hfield, hdrop]

theorem peelBody_short (seqno : UInt32) {buf : List UInt8} {hdr n : Nat} (h : buf.length < hdr + n) :
    peelBody seqno buf hdr n = .incomplete := by
  unfold peelBody
  rw [if_pos h]

theorem byte_lt {n : Nat} (h : n < 0x7f) : UInt8.ofNat n < 0x7f := by
  rw [UInt8.lt_iff_toNat_lt, byte_toNat (by omega)]
  exact h

theorem peelAbridged_count (seqno : UInt32) {h : UInt8} (rest : List UInt8) (hlt : h < 0x7f) :
    peelAbridged seqno (h :: rest) = peelBody seqno (h :: rest) 1 (h.toNat * 4) := by
  rw [peelAbridged, if_pos hlt]

theorem peelAbridged_marker (seqno : UInt32) (rest : List UInt8) :
    peelAbridged seqno (0x7f :: rest) =
      if (0x7f :: rest).length < 4 then .incomplete
      else peelBody seqno (0x7f :: rest) 4 (ofLe (rest.take 3) * 4) := by
  rw [peelAbridged, if_neg (by decide), if_pos rfl]

/-- A frame whose header is one byte. -/
theorem peelAbridged_byteFrame (p : Payload) (seqno : UInt32) (hlt : p.words < 0x7f) :
    Frame peelAbridged seqno p.data ([UInt8.ofNat p.words] ++ p.data) seqno := by
  have hbyte : (UInt8.ofNat p.words).toNat = p.words := byte_toNat (by omega)
  refine ⟨by simp, ?_, ?_⟩
  · intro rest
    show peelAbridged seqno (UInt8.ofNat p.words :: (p.data ++ rest)) = _
    rw [peelAbridged_count seqno _ (byte_lt hlt), hbyte]
    exact peelBody_append seqno [UInt8.ofNat p.words] p.length_eq rest
  · intro pre rest hsplit hne
    have hlen := congrArg List.length hsplit
    have hrest := List.length_pos_iff.mpr hne
    simp only [List.length_append, List.length_singleton, p.length_eq] at hlen
    cases pre with
    | nil => rfl
    | cons h pre =>
      obtain rfl : UInt8.ofNat p.words = h := (List.cons.inj hsplit).1
      rw [peelAbridged_count seqno _ (byte_lt hlt), hbyte]
      exact peelBody_short seqno (by omega)

/-- A frame whose header is the marker and three bytes: it may also break off in the header. -/
theorem peelAbridged_markerFrame (p : Payload) (seqno : UInt32) :
    Frame peelAbridged seqno p.data (0x7f :: le 3 p.words ++ p.data) seqno := by
  have hle := p.words_le
  have h3 : ofLe (le 3 p.words) = p.words := ofLe_le_of_lt (by omega)
  refine ⟨by simp, ?_, ?_⟩
  · intro rest
    have htake : (le 3 p.words ++ p.data ++ rest).take 3 = le 3 p.words := by
      rw [List.append_assoc, List.take_left' (le_length 3 _)]
    show peelAbridged seqno (0x7f :: (le 3 p.words ++ p.data ++ rest)) = _
    rw [peelAbridged_marker, if_neg (by simp), htake, h3]
    exact peelBody_append seqno (0x7f :: le 3 p.words) p.length_eq rest
  · intro pre rest hsplit hne
    have hlen := congrArg List.length hsplit
    have hrest := List.length_pos_iff.mpr hne
    simp only [List.length_append, List.length_cons, le_length, p.length_eq] at hlen
    cases pre with
    | nil => rfl
    | cons h pre =>
      obtain ⟨rfl, htail⟩ := List.cons.inj hsplit
      have htail : le 3 p.words ++ p.data = pre ++ rest := htail
      rw [peelAbridged_marker]
      by_cases hshort : (0x7f :: pre).length < 4
      · rw [if_pos hshort]
      · rw [List.length_cons] at hshort hlen
        have htake : pre.take 3 = le 3 p.words := by
          have := congrArg (List.take 3) htail
          rw [List.take_left' (le_length 3 _), List.take_append_of_le_length (by omega)] at this
          exact this.symm
        rw [if_neg (by rw [List.length_cons]; omega), htake, h3]
        exact peelBody_short seqno (by rw [List.length_cons]; omega)

/-- An Abridged frame is peeled whole, and not before it is there. -/
theorem peelAbridged_frame (p : Payload) (seqno : UInt32) :
    Frame peelAbridged seqno p.data (abridgedFrame p.data) seqno := by
  rw [abridgedFrame_eq]
  unfold abridgedHeader
  by_cases hlt : p.words < 0x7f
  · rw [if_pos hlt]
    exact peelAbridged_byteFrame p seqno hlt
  · rw [if_neg hlt]
    exact peelAbridged_markerFrame p seqno

/-- What the bytes look like on the wire. -/
def enciphered (key : Nat → UInt8) (kind : FrameKind) (offset : Nat) (t : List UInt8) : List UInt8 :=
  if kind = .obfuscated then mask key offset t else t

/-- How far a cipher is after so many bytes. -/
def advanced (kind : FrameKind) (offset n : Nat) : Nat := if kind = .obfuscated then offset + n else offset

section
variable {key : Nat → UInt8} {kind : FrameKind}

theorem enciphered_length (key : Nat → UInt8) (kind : FrameKind) (offset : Nat) (t : List UInt8) :
    (enciphered key kind offset t).length = t.length := by
  unfold enciphered
  split
  · exact mask_length key offset t
  · rfl

theorem enciphered_append (offset : Nat) (t₁ t₂ : List UInt8) :
    enciphered key kind offset (t₁ ++ t₂) =
      enciphered key kind offset t₁ ++ enciphered key kind (advanced kind offset t₁.length) t₂ := by
  unfold enciphered advanced
  split
  · exact mask_append key offset t₁ t₂
  · rfl

theorem advanced_add (offset m n : Nat) :
    advanced kind (advanced kind offset m) n = advanced kind offset (m + n) := by
  unfold advanced
  split
  · exact Nat.add_assoc offset m n
  · rfl

/-- A read is decoded into the buffer. -/
theorem ingestRead_enciphered (key : Nat → UInt8) (hkind : Readable kind) (r : Receiver)
    (t : List UInt8) (hcap : r.readBuf.length + t.length ≤ readBufCap) :
    r.ingestRead key kind (enciphered key kind r.pos.offset t) = .ok { r with
      readBuf := r.readBuf ++ t
      pos := { r.pos with offset := advanced kind r.pos.offset t.length } } := by
  rcases hkind with rfl | rfl
  · show r.pushDecoded t = _
    rw [Receiver.pushDecoded, if_neg (by omega)]
    rfl
  · show Receiver.pushDecoded (r.decrypt key (mask key r.pos.offset t)).2
      (mask key r.pos.offset (mask key r.pos.offset t)) = _
    rw [mask_mask, Receiver.pushDecoded, if_neg (by show ¬_ < r.readBuf.length + t.length; omega)]
    simp [Receiver.decrypt, advanced]

/-- The loop over the reads: the buffer holds the beginning of what is left of the stream, and
there is always room for one more read. -/
theorem receive_frames (hkind : Readable kind) {bound : Nat}
    (hbound : bound + readScratchCap ≤ readBufCap) {seqno' : UInt32} (reads : List (List UInt8))
    (hreads : IsReads reads) (r : Receiver) (todo : List (List UInt8)) (later : List UInt8)
    (hframes : Frames (peelOne kind) bound r.pos.seqno todo (r.readBuf ++ later) seqno')
    (hbuf : r.readBuf.length ≤ bound) (hdone : later = [] → r.readBuf = [])
    (hwire : reads.flatten = enciphered key kind r.pos.offset later) :
    receive key kind r reads = ⟨todo, ⟨[], ⟨seqno', advanced kind r.pos.offset later.length⟩,
      r.tlsRawPending⟩, none⟩ := by
  induction reads generalizing r todo later with
  | nil =>
    have hlater : later = [] := by
      rw [← List.length_eq_zero_iff, ← enciphered_length key kind r.pos.offset later,
        ← hwire]
      rfl
    have hempty := hdone hlater
    rw [hlater, hempty] at hframes
    obtain ⟨rfl, hseqno⟩ := hframes.eq_nil
    have hoffset : advanced kind r.pos.offset later.length = r.pos.offset := by
      simp [hlater, advanced]
    rw [hoffset, ← hseqno, ← hempty]
    rfl
  | cons read reads ih =>
    obtain ⟨-, hread⟩ := hreads read List.mem_cons_self
    have hlen : read.length ≤ later.length := by
      have := congrArg List.length hwire
      rw [enciphered_length, List.flatten_cons, List.length_append] at this
      omega
    -- the read is the wire form of the next bytes of the stream
    obtain ⟨t, later', rfl, htlen⟩ : ∃ t later', later = t ++ later' ∧ t.length = read.length :=
      ⟨later.take read.length, later.drop read.length, (List.take_append_drop _ _).symm,
        List.length_take_of_le hlen⟩
    rw [List.flatten_cons, enciphered_append] at hwire
    obtain ⟨rfl, hrest⟩ := List.append_inj hwire (by rw [enciphered_length, htlen])
    have hingest := ingestRead_enciphered key hkind r t (by omega)
    rw [← List.append_assoc] at hframes
    obtain ⟨done, todo', seqno₁, rest, hdrain, hpayloads, hframes', hrestLen, hnil⟩ :=
      drain_frames (peelOne_nil kind) hframes (r.readBuf ++ t).length (r.readBuf ++ t) later' rfl
        (Nat.le_refl _)
    have hnow : onRead key kind r (enciphered key kind r.pos.offset t) = ⟨done, ⟨rest,
        ⟨seqno₁, advanced kind r.pos.offset t.length⟩, r.tlsRawPending⟩, none⟩ := by
      unfold onRead
      rw [hingest]
      simp only [hdrain]
    have hlater := ih (fun x hx => hreads x (List.mem_cons_of_mem _ hx))
      ⟨rest, ⟨seqno₁, advanced kind r.pos.offset t.length⟩, r.tlsRawPending⟩ todo' later' hframes'
      hrestLen hnil hrest
    rw [receive, hnow]
    simp only [hlater, advanced_add, List.length_append, hpayloads]

end

/-- The frames before they are enciphered. -/
def plaintext (ps : List Payload) : List UInt8 := ps.flatMap fun p => abridgedFrame p.data

section
variable {key : Nat → UInt8} {kind : FrameKind}

theorem stream_readable (key : Nat → UInt8) (hkind : Readable kind) (here : Position)
    (ps : List Payload) :
    stream key kind here ps = enciphered key kind here.offset (plaintext ps) ∧
      finish key kind here ps = { here with offset := advanced kind here.offset (plaintext ps).length } := by
  have hsend : ∀ (here : Position) (p : Payload), sendFrame key kind here p.data p.pad =
      (enciphered key kind here.offset (abridgedFrame p.data),
        { here with offset := advanced kind here.offset (abridgedFrame p.data).length }) := by
    intro here p
    rcases hkind with rfl | rfl <;> rfl
  induction ps generalizing here with
  | nil =>
    constructor
    · rcases hkind with rfl | rfl <;> rfl
    · rcases hkind with rfl | rfl <;> rfl
  | cons p ps ih =>
    obtain ⟨ihs, ihf⟩ := ih (after key kind here p)
    have hafter : after key kind here p =
        { here with offset := advanced kind here.offset (abridgedFrame p.data).length } := by
      rw [after, hsend]
    have hplain : plaintext (p :: ps) = abridgedFrame p.data ++ plaintext ps := rfl
    constructor
    · rw [stream, ihs, hsend, hplain, enciphered_append, hafter]
    · rw [finish, ihf, hplain, List.length_append, ← advanced_add, hafter]

theorem frames_readable (hkind : Readable kind) (seqno : UInt32) (ps : List Payload)
    (hsmall : ∀ p ∈ ps, p.words ≤ 0x8000) :
    Frames (peelOne kind) (4 + 0x8000 * 4) seqno (ps.map Payload.data) (plaintext ps) seqno := by
  have hpeel : peelOne kind = peelAbridged := by
    rcases hkind with rfl | rfl <;> rfl
  rw [hpeel]
  induction ps with
  | nil => exact .nil seqno
  | cons p ps ih =>
    refine .cons (peelAbridged_frame p seqno) ?_ (ih fun p' hp' => hsmall p' (List.mem_cons_of_mem p hp'))
    have hwords := hsmall p List.mem_cons_self
    have hheader : (abridgedHeader p.words).length ≤ 4 := by
      unfold abridgedHeader
      split <;> simp
    show (abridgedFrame p.data).length ≤ _
    rw [abridgedFrame_eq, List.length_append, p.length_eq]
    omega

theorem peelRecovers_readable (hkind : Readable kind) (here : Position) (ps : List Payload)
    (hsmall : ∀ p ∈ ps, p.words ≤ 0x8000) : PeelRecovers key kind here ps := by
  intro reads hreads hwire
  obtain ⟨hstream, hfinish⟩ := stream_readable key hkind here ps
  rw [hstream] at hwire
  rw [hfinish]
  exact receive_frames hkind (by decide) reads hreads ⟨[], here, []⟩ (ps.map Payload.data) (plaintext ps)
    (frames_readable hkind here.seqno ps hsmall) (Nat.zero_le _) (fun _ => rfl) hwire

end

/-- With nothing sent there is nothing to read. -/
theorem peelRecovers_nil (key : Nat → UInt8) (kind : FrameKind) (here : Position) :
    PeelRecovers key kind here [] := by
  intro reads hreads hwire
  cases reads with
  | nil => rfl
  | cons read reads =>
    have hempty := (List.append_eq_nil_iff.mp hwire).1
    exact absurd hempty (hreads read List.mem_cons_self).1

/-- Both readers recover what the writer wrote, exactly when nothing was written, or the
transport is Abridged or Obfuscated and no payload is longer than 128 KiB. -/
theorem frames_recovered_iff (key : Nat → UInt8) (kind : FrameKind) (here : Position) (ps : List Payload) :
    (RawRecovers key kind here ps ∧ PeelRecovers key kind here ps) ↔
      ps = [] ∨ ((kind = .abridged ∨ kind = .obfuscated) ∧ ∀ p ∈ ps, p.data.length ≤ 128 * 1024) := by
  have hsize : ∀ p : Payload, p.words ≤ 0x8000 ↔ p.data.length ≤ 128 * 1024 := by
    intro p
    rw [p.length_eq]
    omega
  rw [rawRecovers_iff]
  constructor
  · intro ⟨hraw, _⟩
    cases ps with
    | nil => exact .inl rfl
    | cons p ps =>
      right
      exact ⟨(hraw p List.mem_cons_self).1, fun p' hp' => (hsize p').mp (hraw p' hp').2⟩
  · rintro (rfl | ⟨hkind, hsmall⟩)
    · exact ⟨fun p hp => absurd hp List.not_mem_nil, peelRecovers_nil key kind here⟩
    · have hwords : ∀ p ∈ ps, p.words ≤ 0x8000 := fun p hp => (hsize p).mpr (hsmall p hp)
      exact ⟨fun p hp => ⟨hkind, hwords p hp⟩, peelRecovers_readable hkind here ps hwords⟩

/-- Sixteen bytes over the Intermediate transport. -/
def sixteenBytes : Payload where
  data := List.replicate 16 7
  pad := []
  nonempty := by decide
  aligned := by decide
  small := by decide
  pad_lt := by decide

theorem intermediate_not_recovered :
    ¬(RawRecovers (fun _ => 0) .intermediate ⟨0, 0⟩ [sixteenBytes] ∧
      PeelRecovers (fun _ => 0) .intermediate ⟨0, 0⟩ [sixteenBytes]) := by
  intro ⟨hraw, _⟩
  have hfirst := hraw.1
  revert hfirst
  decide

end Ferogram.Mtsender
