import Mathlib.Data.List.Induction
import Ferogram.Lib.Chunks
import Ferogram.Mtsender.Splits

/- The read buffer on a stream of whole frames.

   The buffer keeps what is behind the last whole frame (`held`), and a read is decoded into it
   before any frame is taken out. It has room for a frame of 1 MiB and 8 KiB more; but a read
   may bring 64 KiB, and with TLS records also what was waiting for the end of a record. So a
   long frame that is cut near its end leaves too little room for the next read. What is
   proved: `overflow_free_iff`, for every transport, stream and list of reads. -/
namespace Ferogram.Mtsender
open Connect Framing

/-- The bytes for the read buffer in what has come over the wire: with TLS, those of the records
that are complete. -/
def plainLength : FrameKind → List UInt8 → Nat
  | .fakeTls, wire =>
    match unwrapRecords wire.length wire with
    | .ok (ciphertext, _) => ciphertext.length
    | .error _ => 0
  | _, wire => wire.length

/-- What comes over the wire from a position on is these frames. -/
structure WireFrames (key : Nat → UInt8) (kind : FrameKind) (pos : Position) (frames : List (List UInt8))
    (wire : List UInt8) : Prop where
  framed : ∃ seqno, Chain (peelOne kind) (1024 * 1024) pos.seqno frames seqno
  carried : ∃ offset pending, decoded key kind pos.offset [] wire = .ok (frames.flatten, offset, pending)

/-- Every read has room behind what is held of the reads before it. -/
def RoomAtCuts (kind : FrameKind) (lens : List Nat) (reads : List (List UInt8)) : Prop :=
  ∀ before read after, reads = before ++ read :: after →
    held lens (plainLength kind before.flatten) +
      (plainLength kind (before.flatten ++ read) - plainLength kind before.flatten) ≤ readBufCap

section
variable {key : Nat → UInt8} {kind : FrameKind}

theorem decoded_length {offset offset' : Nat} {wire bytes pending : List UInt8}
    (h : decoded key kind offset [] wire = .ok (bytes, offset', pending)) : bytes.length = plainLength kind wire := by
  cases kind with
  | abridged | intermediate | full =>
    cases h
    rfl
  | obfuscated | paddedIntermediate =>
    cases h
    exact Keystream.mask_length key offset wire
  | fakeTls =>
    simp only [decoded, List.nil_append] at h
    simp only [plainLength]
    cases hu : unwrapRecords wire.length wire with
    | error e =>
      rw [hu] at h
      cases h
    | ok u =>
      obtain ⟨ciphertext, rest⟩ := u
      rw [hu] at h
      cases h
      exact Keystream.mask_length key offset ciphertext

theorem receive_concat (r : Receiver) (reads : List (List UInt8)) (read : List UInt8) :
    (receive key kind r (reads ++ [read])).error =
      match (receive key kind r reads).error with
      | none => (onRead key kind (receive key kind r reads).receiver read).error
      | some e => some e := by
  induction reads generalizing r with
  | nil =>
    cases h : (onRead key kind r read).error with
    | none =>
      rw [List.nil_append, receive_cons_ok h]
      exact h.symm
    | some e =>
      rw [List.nil_append, receive_cons_error h]
      rfl
  | cons first reads ih =>
    cases h : (onRead key kind r first).error with
    | none =>
      rw [List.cons_append, receive_cons_ok h, receive_cons_ok h]
      exact ih _
    | some e => rw [List.cons_append, receive_cons_error h, receive_cons_error h, h]

theorem roomAtCuts_concat {lens : List Nat} {reads : List (List UInt8)} {read : List UInt8} :
    RoomAtCuts kind lens (reads ++ [read]) ↔ RoomAtCuts kind lens reads ∧
      held lens (plainLength kind reads.flatten) +
        (plainLength kind (reads.flatten ++ read) - plainLength kind reads.flatten) ≤ readBufCap := by
  constructor
  · intro h
    refine ⟨fun before x after hsplit => h before x (after ++ [read]) ?_, h reads read [] rfl⟩
    rw [hsplit, List.append_assoc, List.cons_append]
  · rintro ⟨hreads, hread⟩ before x after hsplit
    rcases List.eq_nil_or_concat after with rfl | ⟨after', y, rfl⟩
    · obtain ⟨rfl, hx⟩ := List.append_inj' hsplit rfl
      obtain rfl : read = x := (List.cons.inj hx).1
      exact hread
    · have hsplit' : reads ++ [read] = (before ++ x :: after') ++ [y] := by
        rw [hsplit, List.append_assoc, List.cons_append, List.concat_eq_append]
      exact hreads before x after' (List.append_inj' hsplit' rfl).1

end

section
variable {key : Nat → UInt8} {kind : FrameKind} {pos : Position} {frames : List (List UInt8)}

/-- The beginning of a stream of frames goes well, and leaves what is held of it. -/
theorem whole_beginning {wire later : List UInt8} (h : WireFrames key kind pos frames (wire ++ later)) :
    (whole key kind (.fresh pos) wire).error = none ∧
      (whole key kind (.fresh pos) wire).receiver.readBuf.length = held (frames.map List.length) (plainLength kind wire) := by
  obtain ⟨⟨seqno, hchain⟩, offset, pending, hdecoded⟩ := h
  rw [decoded_append] at hdecoded
  cases hwire : decoded key kind pos.offset [] wire with
  | error e =>
    rw [hwire] at hdecoded
    cases hdecoded
  | ok u =>
    obtain ⟨bytes, offset', pending'⟩ := u
    rw [hwire] at hdecoded
    dsimp only at hdecoded
    cases hlater : decoded key kind offset' pending' later with
    | error e =>
      rw [hlater] at hdecoded
      cases hdecoded
    | ok u =>
      obtain ⟨bytes', offset'', pending''⟩ := u
      rw [hlater] at hdecoded
      have hflatten : frames.flatten = bytes ++ bytes' := (Prod.mk.inj (Except.ok.inj hdecoded)).1.symm
      have hdrain := (peelOne_stable kind).drainAll_chain hchain bytes bytes' hflatten
      rw [whole_of_decoded hwire, ← decoded_length hwire]
      exact hdrain

/-- The next read goes well if it has room, and overflows the buffer if it has not. -/
theorem onRead_next {reads : List (List UInt8)} {read later : List UInt8}
    (h : WireFrames key kind pos frames ((reads ++ [read]).flatten ++ later))
    (hok : (receive key kind (.fresh pos) reads).error = none) :
    (onRead key kind (receive key kind (.fresh pos) reads).receiver read).error =
      if held (frames.map List.length) (plainLength kind reads.flatten) +
          (plainLength kind (reads.flatten ++ read) - plainLength kind reads.flatten) ≤ readBufCap then none
      else some .bufferOverflow := by
  have hquiet := Receiver.fresh_quiet kind pos
  have hflat : (reads ++ [read]).flatten = reads.flatten ++ read := by simp
  rw [hflat] at h
  have hboth := whole_beginning h
  rw [List.append_assoc] at h
  have hbefore := whole_beginning h
  rw [receive_ok key kind reads _ hquiet hok]
  -- what has been decoded before the read, and with it
  obtain ⟨bytes, offset, pending, hread, hoffset, hpending⟩ := decoded_of_ok hbefore.1
  obtain ⟨both, offset', pending', hdecoded, -, -⟩ := decoded_of_ok hboth.1
  have hlenBoth := decoded_length hdecoded
  have hlen := decoded_length hread
  rw [decoded_append, show decoded key kind (Receiver.fresh pos).pos.offset (Receiver.fresh pos).tlsRawPending
    reads.flatten = .ok (bytes, offset, pending) from hread] at hdecoded
  dsimp only at hdecoded
  cases hmore : decoded key kind offset pending read with
  | error e =>
    rw [hmore] at hdecoded
    cases hdecoded
  | ok u =>
    obtain ⟨bytes', offset'', pending''⟩ := u
    rw [hmore] at hdecoded
    obtain rfl : bytes ++ bytes' = both := (Prod.mk.inj (Except.ok.inj hdecoded)).1
    rw [List.length_append] at hlenBoth
    rw [← hlenBoth, ← hlen, Nat.add_sub_cancel_left, hlen, ← hbefore.2]
    have hmore' : decoded key kind (whole key kind (.fresh pos) reads.flatten).receiver.pos.offset
        (whole key kind (.fresh pos) reads.flatten).receiver.tlsRawPending read = .ok (bytes', offset'', pending'') := by
      rw [hoffset, hpending]
      exact hmore
    by_cases hroom : (whole key kind (.fresh pos) reads.flatten).receiver.readBuf.length + bytes'.length ≤ readBufCap
    · have hfits : HasRoom key kind (whole key kind (.fresh pos) reads.flatten).receiver read := by
        intro b o p hdecoded
        rw [hmore'] at hdecoded
        cases hdecoded
        exact hroom
      have hgood := hboth.1
      rw [whole_append hread hmore hbefore.1] at hgood
      rw [if_pos hroom, onRead_of_room hfits]
      exact hgood
    · rw [if_neg hroom]
      unfold onRead
      rw [ingestRead_eq, hmore']
      dsimp only
      rw [if_pos (Nat.lt_of_not_le hroom)]

/-- Reads of the beginning of a stream go well while there is room, and stop at the first that has
none. -/
theorem receive_beginning (reads : List (List UInt8)) : ∀ {later : List UInt8},
    WireFrames key kind pos frames (reads.flatten ++ later) →
      ((receive key kind (.fresh pos) reads).error = none ∧ RoomAtCuts kind (frames.map List.length) reads) ∨
      ((receive key kind (.fresh pos) reads).error = some .bufferOverflow ∧
        ¬ RoomAtCuts kind (frames.map List.length) reads) := by
  induction reads using List.reverseRecOn with
  | nil =>
    intro later _
    refine .inl ⟨rfl, fun before read after hsplit => ?_⟩
    cases before <;> cases hsplit
  | append_singleton reads read ih =>
    intro later h
    have hreads : WireFrames key kind pos frames (reads.flatten ++ (read ++ later)) := by
      rw [← List.append_assoc]
      simpa using h
    rw [receive_concat, roomAtCuts_concat]
    rcases ih hreads with ⟨hok, hroom⟩ | ⟨herror, hroom⟩
    · rw [hok, onRead_next h hok]
      dsimp only
      split
      · next hfits => exact .inl ⟨rfl, hroom, hfits⟩
      · next hfull => exact .inr ⟨rfl, fun hc => hfull hc.2⟩
    · rw [herror]
      exact .inr ⟨rfl, fun hc => hroom hc.1⟩

end

theorem plainLength_of_ne {kind : FrameKind} (hkind : kind ≠ .fakeTls) (wire : List UInt8) :
    plainLength kind wire = wire.length := by
  cases kind with
  | fakeTls => exact absurd rfl hkind
  | _ => rfl

/-- Without records, a stream that is no longer than the buffer has room however it is cut. -/
theorem roomAtCuts_short {kind : FrameKind} (hkind : kind ≠ .fakeTls) (lens : List Nat) {reads : List (List UInt8)}
    (h : reads.flatten.length ≤ readBufCap) : RoomAtCuts kind lens reads := by
  rintro before read after rfl
  have hheld := held_le lens before.flatten.length
  simp only [List.flatten_append, List.flatten_cons, List.length_append] at h
  rw [plainLength_of_ne hkind, plainLength_of_ne hkind, List.length_append]
  omega

/-- On a stream of frames of at most 1 MiB the read buffer never overflows exactly if at every cut
what is held and the next read fit into it together. -/
theorem overflow_free_iff (key : Nat → UInt8) (kind : FrameKind) (pos : Position) (frames : List (List UInt8))
    (reads : List (List UInt8)) (h : WireFrames key kind pos frames reads.flatten) :
    (receive key kind (.fresh pos) reads).error ≠ some .bufferOverflow ↔
      RoomAtCuts kind (frames.map List.length) reads := by
  have hwire : WireFrames key kind pos frames (reads.flatten ++ []) := by rwa [List.append_nil]
  rcases receive_beginning reads hwire with ⟨hok, hroom⟩ | ⟨herror, hroom⟩
  · rw [hok]
    exact iff_of_true (Option.some_ne_none _).symm hroom
  · rw [herror]
    exact iff_of_false (fun hne => hne rfl) hroom

/-- A short frame in two reads. -/
theorem short_frame_fits :
    (receive (fun _ => 0) .abridged (.fresh ⟨0, 0⟩) [[4, 7, 7, 7], List.replicate 13 7]).error ≠ some .bufferOverflow :=
  (overflow_free_iff (fun _ => 0) .abridged ⟨0, 0⟩ [abridgedFrame sixteenBytes.data] [[4, 7, 7, 7], List.replicate 13 7]
    ⟨⟨0, .cons (peelAbridged_frame sixteenBytes 0) (by decide) (.nil 0)⟩, 0, [], rfl⟩).mpr
    (roomAtCuts_short (by decide) _ (by decide))

theorem replicate_whole {words : Nat} (hpos : 0 < words) (hsmall : words ≤ 0x40000) (b : UInt8) :
    0 < (List.replicate (4 * words) b).length ∧ 4 ∣ (List.replicate (4 * words) b).length ∧
      (List.replicate (4 * words) b).length ≤ 1024 * 1024 := by
  simp only [List.length_replicate]
  omega

theorem unpadded : ([] : List UInt8).length < 16 := by decide

/-- Zeros, as many as four times the words. -/
def zeros (words : Nat) (hpos : 0 < words) (hsmall : words ≤ 0x40000) : Payload where
  data := List.replicate (4 * words) 0
  pad := []
  nonempty := (replicate_whole hpos hsmall 0).1
  aligned := (replicate_whole hpos hsmall 0).2.1
  small := (replicate_whole hpos hsmall 0).2.2
  pad_lt := unpadded

theorem zeros_frame_length {words : Nat} (hpos : 0 < words) (hsmall : words ≤ 0x40000) (hlong : 0x7f ≤ words) :
    (abridgedFrame (zeros words hpos hsmall).data).length = 4 + 4 * words := by
  have hwords : (zeros words hpos hsmall).words = words := by
    unfold Payload.words zeros
    rw [List.length_replicate]
    omega
  rw [abridgedFrame_eq, hwords]
  unfold abridgedHeader
  rw [if_neg (by omega)]
  simp [zeros]
  omega

/-- A frame of 1 MiB and one of 64 KiB. -/
def twoFrames : List (List UInt8) :=
  [abridgedFrame (zeros 262143 (by decide) (by decide)).data, abridgedFrame (zeros 16383 (by decide) (by decide)).data]

theorem twoFrames_lengths : twoFrames.map List.length = [1048576, 65536] := by
  unfold twoFrames
  rw [List.map_cons, List.map_singleton, zeros_frame_length _ _ (by decide), zeros_frame_length _ _ (by decide)]

theorem twoFrames_wire (key : Nat → UInt8) (pos : Position) :
    WireFrames key .abridged pos twoFrames twoFrames.flatten where
  framed := by
    refine ⟨pos.seqno, .cons (peelAbridged_frame _ _) ?_ (.cons (peelAbridged_frame _ _) ?_ (.nil _))⟩
    · exact Nat.le_trans (Nat.le_of_eq (zeros_frame_length _ _ (by decide))) (by decide)
    · exact Nat.le_trans (Nat.le_of_eq (zeros_frame_length _ _ (by decide))) (by decide)
  carried := ⟨pos.offset, [], rfl⟩

/-- Sixteen reads of 65535 bytes leave 16 bytes of the long frame out; the next one is a full read. -/
def cutReads (wire : List UInt8) : List (List UInt8) :=
  (List.range 16).map (Chunks.slice wire 65535) ++ [(wire.drop 1048560).take 65536, wire.drop 1114096]

theorem cutReads_flatten (wire : List UInt8) : (cutReads wire).flatten = wire := by
  have hdrop : wire.drop 1114096 = (wire.drop 1048560).drop 65536 := by rw [List.drop_drop]
  unfold cutReads
  rw [List.flatten_append, ← List.flatMap_def, Chunks.flatMap_slice, List.flatten_cons, List.flatten_singleton, hdrop,
    List.take_append_drop, List.take_append_drop]

/-- The 1 MiB frame lacks 16 bytes when the next 64 KiB come. -/
theorem long_frame_overflows :
    ¬ ∀ (key : Nat → UInt8) (kind : FrameKind) (pos : Position) (frames reads : List (List UInt8)),
      WireFrames key kind pos frames reads.flatten → IsReads reads →
      (receive key kind (.fresh pos) reads).error ≠ some .bufferOverflow := by
  intro h
  have hlen : twoFrames.flatten.length = 1114112 := by
    rw [List.length_flatten, twoFrames_lengths]
    rfl
  have hflat := cutReads_flatten twoFrames.flatten
  have hwire := twoFrames_wire (fun _ => 0) ⟨0, 0⟩
  have hreads : IsReads (cutReads twoFrames.flatten) := by
    intro read hread
    unfold cutReads at hread
    have hlength : 0 < read.length ∧ read.length ≤ readScratchCap := by
      rcases List.mem_append.mp hread with hread | hread
      · obtain ⟨p, hp, rfl⟩ := List.mem_map.mp hread
        have hp := List.mem_range.mp hp
        rw [Chunks.slice_length, hlen]
        unfold readScratchCap
        omega
      · simp only [List.mem_cons, List.not_mem_nil, or_false] at hread
        rcases hread with hread | hread
        · rw [hread, List.length_take, List.length_drop, hlen]
          decide
        · rw [hread, List.length_drop, hlen]
          decide
    exact ⟨List.length_pos_iff.mp hlength.1, hlength.2⟩
  have hfree := h (fun _ => 0) .abridged ⟨0, 0⟩ twoFrames (cutReads twoFrames.flatten) (by rwa [hflat]) hreads
  have hcuts : WireFrames (fun _ => 0) .abridged ⟨0, 0⟩ twoFrames ((cutReads twoFrames.flatten).flatten ++ []) := by
    rwa [hflat, List.append_nil]
  rcases receive_beginning (cutReads twoFrames.flatten) hcuts with ⟨-, hroom⟩ | ⟨herror, -⟩
  · have hcut := hroom ((List.range 16).map (Chunks.slice twoFrames.flatten 65535))
      ((twoFrames.flatten.drop 1048560).take 65536) [twoFrames.flatten.drop 1114096] (by rw [cutReads])
    rw [← List.flatMap_def, Chunks.flatMap_slice, twoFrames_lengths] at hcut
    simp only [plainLength, List.length_append, List.length_take, List.length_drop, hlen] at hcut
    revert hcut
    decide
  · exact hfree herror

end Ferogram.Mtsender
