import Ferogram.Mtsender.Frames

/- Reads may cut the stream anywhere.

   Peeling a frame and unwrapping a record look at the front of the bytes only (`Stable`), and
   the cipher goes by its position, so a receiver that drains after every read gets what it
   would have got from the whole stream. The two limits are an error, which ends the
   connection, and the size of the read buffer. `whole` is what there is to get from a stream
   with room for all of it. -/
namespace Ferogram.Mtsender
open Bytes Connect Keystream Framing

/-! The front of a buffer. -/

theorem field_append_of_le {buf : List UInt8} {start len : Nat} (h : start + len ≤ buf.length) (more : List UInt8) :
    field (buf ++ more) start len = field buf start len := by
  unfold field
  rw [List.drop_append_of_le_length (by omega), List.take_append_of_le_length (by rw [List.length_drop]; omega)]

theorem peelBody_keeps (seqno : UInt32) (buf : List UInt8) (hdr n : Nat) (hpos : 0 < hdr) :
    Keeps (fun b => peelBody seqno b hdr n) buf := by
  unfold Keeps peelBody
  by_cases hshort : buf.length < hdr + n
  · simp only [if_pos hshort]
  · simp only [if_neg hshort]
    refine ⟨by rw [List.length_drop]; omega, fun more => ?_⟩
    have hlong : ¬(buf ++ more).length < hdr + n := by
      rw [List.length_append]
      omega
    rw [if_neg hlong, field_append_of_le (by omega), List.drop_append_of_le_length (by omega)]

/-- Found by another function that does the same here. -/
theorem keeps_of_eq {σ : Type} {found found' : List UInt8 → Peel σ RecvError} {buf : List UInt8}
    (h : Keeps found' buf) (heq : ∀ more, found (buf ++ more) = found' (buf ++ more)) : Keeps found buf := by
  have hnil := heq []
  rw [List.append_nil] at hnil
  unfold Keeps at h ⊢
  rw [hnil]
  cases hfound : found' buf with
  | complete payload rest s' =>
    rw [hfound] at h
    exact ⟨h.1, fun more => (heq more).trans (h.2 more)⟩
  | incomplete => trivial
  | err e =>
    rw [hfound] at h
    exact fun more => (heq more).trans (h more)

theorem keeps_incomplete {σ : Type} {found : List UInt8 → Peel σ RecvError} {buf : List UInt8}
    (h : found buf = .incomplete) : Keeps found buf := by
  unfold Keeps
  rw [h]
  trivial

theorem keeps_err {σ : Type} {found : List UInt8 → Peel σ RecvError} {buf : List UInt8} {e : RecvError}
    (h : ∀ more, found (buf ++ more) = .err e) : Keeps found buf := by
  have hhere := h []
  rw [List.append_nil] at hhere
  unfold Keeps
  rw [hhere]
  exact h

theorem peelAbridged_keeps (seqno : UInt32) (buf : List UInt8) : Keeps (peelAbridged seqno) buf := by
  cases buf with
  | nil => exact keeps_incomplete rfl
  | cons h rest =>
    by_cases hbyte : h < 0x7f
    · refine keeps_of_eq (peelBody_keeps seqno (h :: rest) 1 (h.toNat * 4) (by decide)) (fun more => ?_)
      exact if_pos hbyte
    · by_cases hshort : (h :: rest).length < 4
      · apply keeps_incomplete
        rw [peelAbridged, if_neg hbyte, if_pos hshort]
      · have hlong : ∀ more, ¬(h :: (rest ++ more)).length < 4 := by
          intro more
          simp only [List.length_cons, List.length_append] at hshort ⊢
          omega
        have hthree : ∀ more, (rest ++ more).take 3 = rest.take 3 := by
          intro more
          rw [List.length_cons] at hshort
          exact List.take_append_of_le_length (by omega)
        by_cases hmarker : h = 0x7f
        · refine keeps_of_eq (peelBody_keeps seqno (h :: rest) 4 (ofLe (rest.take 3) * 4) (by decide)) (fun more => ?_)
          rw [List.cons_append, peelAbridged, if_neg hbyte, if_neg (hlong more), if_pos hmarker, hthree]
        · refine keeps_err (e := .transportCode (toI32 (h :: rest.take 3))) (fun more => ?_)
          rw [List.cons_append, peelAbridged, if_neg hbyte, if_neg (hlong more), if_neg hmarker,
            List.take_succ_cons, hthree]

/-- What is long enough stays so. -/
theorem not_short_append {buf : List UInt8} {n : Nat} (h : ¬buf.length < n) (more : List UInt8) :
    ¬(buf ++ more).length < n := by
  rw [List.length_append]
  omega

theorem take_append_of_not_short {buf : List UInt8} {n : Nat} (h : ¬buf.length < n) (more : List UInt8) :
    (buf ++ more).take n = buf.take n := List.take_append_of_le_length (Nat.le_of_not_lt h)

theorem peelIntermediate_keeps (seqno : UInt32) (buf : List UInt8) : Keeps (peelIntermediate seqno) buf := by
  by_cases hshort : buf.length < 4
  · exact keeps_incomplete (if_pos hshort)
  · have hlong := not_short_append hshort
    have hfour := take_append_of_not_short hshort
    by_cases hneg : toI32 (buf.take 4) < 0
    · refine keeps_err (e := .transportCode (toI32 (buf.take 4))) (fun more => ?_)
      unfold peelIntermediate
      rw [if_neg (hlong more), hfour]
      exact if_pos hneg
    · refine keeps_of_eq (peelBody_keeps seqno buf 4 (toI32 (buf.take 4)).toInt.toNat (by decide)) (fun more => ?_)
      unfold peelIntermediate
      rw [if_neg (hlong more), hfour]
      exact if_neg hneg

/-- A Full frame whose length is known, as a function of its `total` bytes and what follows. -/
def peelFullOf (seqno : UInt32) (total : Nat) (buf : List UInt8) : Peel UInt32 RecvError :=
  if buf.length < total then .incomplete
  else
    let expectedCrc := ofLe (field buf (total - 4) 4)
    let actualCrc := (crc32Ieee (buf.take (total - 4))).toNat
    let recvSeq := ofLe (field buf 4 4)
    if actualCrc ≠ expectedCrc then .err (.crcMismatch actualCrc expectedCrc)
    else if recvSeq ≠ seqno.toNat then .err (.badSeq recvSeq seqno.toNat)
    else .complete (field buf 8 (total - 12)) (buf.drop total) (seqno + 1)

theorem peelFullOf_keeps (seqno : UInt32) {total : Nat} (htotal : 12 ≤ total) (buf : List UInt8) :
    Keeps (peelFullOf seqno total) buf := by
  by_cases hshort : buf.length < total
  · exact keeps_incomplete (if_pos hshort)
  · have hlong := not_short_append hshort
    have hsame : ∀ more, peelFullOf seqno total (buf ++ more) =
        if (crc32Ieee (buf.take (total - 4))).toNat ≠ ofLe (field buf (total - 4) 4) then
          .err (.crcMismatch (crc32Ieee (buf.take (total - 4))).toNat (ofLe (field buf (total - 4) 4)))
        else if ofLe (field buf 4 4) ≠ seqno.toNat then .err (.badSeq (ofLe (field buf 4 4)) seqno.toNat)
        else .complete (field buf 8 (total - 12)) (buf.drop total ++ more) (seqno + 1) := by
      intro more
      unfold peelFullOf
      rw [if_neg (hlong more), field_append_of_le (by omega), field_append_of_le (by omega),
        field_append_of_le (by omega), List.take_append_of_le_length (by omega),
        List.drop_append_of_le_length (by omega)]
    by_cases hcrc : (crc32Ieee (buf.take (total - 4))).toNat ≠ ofLe (field buf (total - 4) 4)
    · exact keeps_err (fun more => (hsame more).trans (if_pos hcrc))
    · by_cases hseq : ofLe (field buf 4 4) ≠ seqno.toNat
      · exact keeps_err (fun more => (hsame more).trans ((if_neg hcrc).trans (if_pos hseq)))
      · have hwhole := fun more => (hsame more).trans ((if_neg hcrc).trans (if_neg hseq))
        have hhere := hwhole []
        rw [List.append_nil, List.append_nil] at hhere
        unfold Keeps
        rw [hhere]
        refine ⟨?_, hwhole⟩
        rw [List.length_drop]
        omega

theorem peelFull_keeps (seqno : UInt32) (buf : List UInt8) : Keeps (peelFull seqno) buf := by
  by_cases hshort : buf.length < 4
  · exact keeps_incomplete (if_pos hshort)
  · have hlong := not_short_append hshort
    have hfour := take_append_of_not_short hshort
    by_cases hneg : toI32 (buf.take 4) < 0
    · refine keeps_err (e := .transportCode (toI32 (buf.take 4))) (fun more => ?_)
      unfold peelFull
      rw [if_neg (hlong more), hfour]
      exact if_pos hneg
    · by_cases hsmall : (toI32 (buf.take 4)).toInt.toNat < 12
      · refine keeps_err (e := .packetTooShort (toI32 (buf.take 4)).toInt.toNat) (fun more => ?_)
        unfold peelFull
        rw [if_neg (hlong more), hfour]
        exact (if_neg hneg).trans (if_pos hsmall)
      · refine keeps_of_eq (peelFullOf_keeps seqno (Nat.le_of_not_lt hsmall) buf) (fun more => ?_)
        unfold peelFull
        rw [if_neg (hlong more), hfour]
        exact (if_neg hneg).trans (if_neg hsmall)

theorem peelOne_stable (kind : FrameKind) : Stable (peelOne kind) := by
  apply Stable.of_keeps (peelOne_nil kind)
  intro s buf
  cases kind with
  | abridged => exact peelAbridged_keeps s buf
  | intermediate => exact peelIntermediate_keeps s buf
  | full => exact peelFull_keeps s buf
  | obfuscated => exact peelAbridged_keeps s buf
  | paddedIntermediate => exact peelIntermediate_keeps s buf
  | fakeTls => exact peelIntermediate_keeps s buf

/-! Records. -/

/-- One step of `unwrap_records`. -/
def peelRecord (_ : Unit) (pending : List UInt8) : Peel Unit RecvError :=
  if pending.length < recordHeaderLen then .incomplete
  else
    let recType := pending.headD 0
    let len := 256 * ofLe (field pending 3 1) + ofLe (field pending 4 1)
    if pending.length < recordHeaderLen + len then .incomplete
    else if recType = recordApplicationData ∨ recType = recordChangeCipherSpec then
      .complete (field pending recordHeaderLen len) (pending.drop (recordHeaderLen + len)) ()
    else .err (.unexpectedRecord recType)

/-- What the records of a drain come to. -/
def ofRecords (d : Drained Unit RecvError) : Except RecvError (List UInt8 × List UInt8) :=
  match d.error with
  | none => .ok (d.payloads.flatten, d.rest)
  | some e => .error e

theorem unwrapRecords_succ (fuel : Nat) (pending : List UInt8) :
    unwrapRecords (fuel + 1) pending =
      match peelRecord () pending with
      | .complete chunk rest _ => do
        let (ciphertext, rest) ← unwrapRecords fuel rest
        return (chunk ++ ciphertext, rest)
      | .incomplete => .ok ([], pending)
      | .err e => .error e := by
  unfold peelRecord
  rw [unwrapRecords]
  dsimp only
  by_cases hheader : pending.length < recordHeaderLen
  · rw [if_pos hheader, if_pos hheader]
  · rw [if_neg hheader, if_neg hheader]
    generalize 256 * ofLe (field pending 3 1) + ofLe (field pending 4 1) = len
    by_cases hshort : pending.length < recordHeaderLen + len
    · rw [if_pos hshort, if_pos hshort]
    · rw [if_neg hshort, if_neg hshort]
      by_cases htype : pending.headD 0 = recordApplicationData ∨ pending.headD 0 = recordChangeCipherSpec
      · rw [if_pos htype, if_pos htype]
      · rw [if_neg htype, if_neg htype]

/-- Unwrapping is a drain. -/
theorem unwrapRecords_eq (fuel : Nat) (pending : List UInt8) :
    unwrapRecords fuel pending = ofRecords (drain peelRecord fuel () pending) := by
  induction fuel generalizing pending with
  | zero => rfl
  | succ fuel ih =>
    rw [unwrapRecords_succ, drain]
    cases peelRecord () pending with
    | complete chunk rest u =>
      dsimp only
      rw [ih]
      cases drain peelRecord fuel () rest with
      | mk payloads state rest error =>
        cases error with
        | none => rfl
        | some e => rfl
    | incomplete => rfl
    | err e => rfl

theorem peelRecord_keeps (pending : List UInt8) : Keeps (peelRecord ()) pending := by
  by_cases hheader : pending.length < recordHeaderLen
  · exact keeps_incomplete (if_pos hheader)
  · have hfive : 5 ≤ pending.length := Nat.le_of_not_lt hheader
    have hlong := not_short_append hheader
    -- the header is there, so more bytes change nothing about it
    have hlen : ∀ more, 256 * ofLe (field (pending ++ more) 3 1) + ofLe (field (pending ++ more) 4 1) =
        256 * ofLe (field pending 3 1) + ofLe (field pending 4 1) := by
      intro more
      rw [field_append_of_le (by omega), field_append_of_le (by omega)]
    have htype : ∀ more, (pending ++ more).headD 0 = pending.headD 0 := by
      intro more
      cases pending with
      | nil => exact absurd hfive (by decide)
      | cons b pending => rfl
    by_cases hshort : pending.length < recordHeaderLen + (256 * ofLe (field pending 3 1) + ofLe (field pending 4 1))
    · exact keeps_incomplete ((if_neg hheader).trans (if_pos hshort))
    · have hsame : ∀ more, peelRecord () (pending ++ more) =
          if pending.headD 0 = recordApplicationData ∨ pending.headD 0 = recordChangeCipherSpec then
            .complete (field pending recordHeaderLen (256 * ofLe (field pending 3 1) + ofLe (field pending 4 1)))
              (pending.drop (recordHeaderLen + (256 * ofLe (field pending 3 1) + ofLe (field pending 4 1))) ++ more) ()
          else .err (.unexpectedRecord (pending.headD 0)) := by
        intro more
        unfold peelRecord
        dsimp only
        rw [if_neg (hlong more), hlen, htype, if_neg (by rw [List.length_append]; omega),
          field_append_of_le (by omega), List.drop_append_of_le_length (by omega)]
      by_cases hgood : pending.headD 0 = recordApplicationData ∨ pending.headD 0 = recordChangeCipherSpec
      · have hwhole := fun more => (hsame more).trans (if_pos hgood)
        have hhere := hwhole []
        rw [List.append_nil, List.append_nil] at hhere
        unfold Keeps
        rw [hhere]
        refine ⟨?_, hwhole⟩
        have hpos : 0 < recordHeaderLen := by decide
        rw [List.length_drop]
        omega
      · exact keeps_err (fun more => (hsame more).trans (if_neg hgood))

theorem peelRecord_stable : Stable peelRecord :=
  Stable.of_keeps (fun _ => rfl) (fun _ pending => peelRecord_keeps pending)

theorem unwrapRecords_all (pending : List UInt8) :
    unwrapRecords pending.length pending = ofRecords (drainAll peelRecord () pending) :=
  unwrapRecords_eq _ _

/-- Records that come in two parts. -/
theorem ofRecords_append (pending more : List UInt8) :
    ofRecords (drainAll peelRecord () (pending ++ more)) =
      match ofRecords (drainAll peelRecord () pending) with
      | .error e => .error e
      | .ok (ciphertext, rest) =>
        match ofRecords (drainAll peelRecord () (rest ++ more)) with
        | .error e => .error e
        | .ok (ciphertext', rest) => .ok (ciphertext ++ ciphertext', rest) := by
  rw [peelRecord_stable.drainAll_append]
  cases drainAll peelRecord () pending with
  | mk payloads state rest error =>
    cases error with
    | some e => rfl
    | none =>
      show ofRecords ((drainAll peelRecord () (rest ++ more)).after payloads) = _
      simp only [ofRecords]
      cases drainAll peelRecord () (rest ++ more) with
      | mk payloads' state' rest' error' =>
        cases error' with
        | some e => rfl
        | none => simp [Drained.after]

/-! Decoding in parts. -/

/-- `ingest_read` up to the read buffer: the bytes for it, the position of the cipher, and what is
left of a record. -/
def decoded (key : Nat → UInt8) (kind : FrameKind) (offset : Nat) (pending read : List UInt8) :
    Except RecvError (List UInt8 × Nat × List UInt8) :=
  match kind with
  | .abridged | .intermediate | .full => .ok (read, offset, pending)
  | .obfuscated | .paddedIntermediate => .ok (mask key offset read, offset + read.length, pending)
  | .fakeTls =>
    match unwrapRecords (pending ++ read).length (pending ++ read) with
    | .error e => .error e
    | .ok (ciphertext, rest) => .ok (mask key offset ciphertext, offset + ciphertext.length, rest)

theorem ingestRead_eq (key : Nat → UInt8) (kind : FrameKind) (r : Receiver) (read : List UInt8) :
    r.ingestRead key kind read =
      match decoded key kind r.pos.offset r.tlsRawPending read with
      | .error e => .error e
      | .ok (bytes, offset, pending) =>
        if readBufCap < r.readBuf.length + bytes.length then .error .bufferOverflow
        else .ok ⟨r.readBuf ++ bytes, ⟨r.pos.seqno, offset⟩, pending⟩ := by
  cases kind with
  | abridged => rfl
  | intermediate => rfl
  | full => rfl
  | obfuscated => rfl
  | paddedIntermediate => rfl
  | fakeTls =>
    unfold Receiver.ingestRead decoded
    dsimp only
    cases unwrapRecords (r.tlsRawPending ++ read).length (r.tlsRawPending ++ read) with
    | error e => rfl
    | ok u => rfl

/-- A record that is not complete is waited for. -/
def NoRecord (pending : List UInt8) : Prop := peelRecord () pending = .incomplete

theorem decoded_nil (key : Nat → UInt8) (kind : FrameKind) (offset : Nat) {pending : List UInt8}
    (h : NoRecord pending) : decoded key kind offset pending [] = .ok ([], offset, pending) := by
  cases kind with
  | abridged => rfl
  | intermediate => rfl
  | full => rfl
  | obfuscated => rfl
  | paddedIntermediate => rfl
  | fakeTls =>
    unfold decoded
    rw [List.append_nil, unwrapRecords_eq, show drain peelRecord pending.length () pending = ⟨[], (), pending, none⟩
      from Stable.drainAll_incomplete h]
    rfl

/-- Decoding a read in two parts. -/
theorem decoded_append (key : Nat → UInt8) (kind : FrameKind) (offset : Nat) (pending read more : List UInt8) :
    decoded key kind offset pending (read ++ more) =
      match decoded key kind offset pending read with
      | .error e => .error e
      | .ok (bytes, offset, pending) =>
        match decoded key kind offset pending more with
        | .error e => .error e
        | .ok (bytes', offset, pending) => .ok (bytes ++ bytes', offset, pending) := by
  cases kind with
  | abridged => rfl
  | intermediate => rfl
  | full => rfl
  | obfuscated =>
    simp only [decoded, mask_append, List.length_append, Nat.add_assoc]
  | paddedIntermediate =>
    simp only [decoded, mask_append, List.length_append, Nat.add_assoc]
  | fakeTls =>
    simp only [decoded, unwrapRecords_all]
    rw [← List.append_assoc, ofRecords_append]
    cases ofRecords (drainAll peelRecord () (pending ++ read)) with
    | error e => rfl
    | ok u =>
      obtain ⟨ciphertext, rest⟩ := u
      dsimp only
      cases ofRecords (drainAll peelRecord () (rest ++ more)) with
      | error e => rfl
      | ok u =>
        obtain ⟨ciphertext', rest'⟩ := u
        simp only [mask_append, List.length_append, Nat.add_assoc]

/-- What `decoded` leaves of a record is not complete. -/
theorem decoded_pending {key : Nat → UInt8} {kind : FrameKind} {offset offset' : Nat}
    {pending read bytes pending' : List UInt8} (hpending : NoRecord pending)
    (h : decoded key kind offset pending read = .ok (bytes, offset', pending')) : NoRecord pending' := by
  cases kind with
  | abridged => cases h; exact hpending
  | intermediate => cases h; exact hpending
  | full => cases h; exact hpending
  | obfuscated => cases h; exact hpending
  | paddedIntermediate => cases h; exact hpending
  | fakeTls =>
    have hrest := peelRecord_stable.drainAll_rest () (pending ++ read)
    simp only [decoded, unwrapRecords_all, ofRecords] at h
    cases herror : (drainAll peelRecord () (pending ++ read)).error with
    | some e =>
      rw [herror] at h
      cases h
    | none =>
      rw [herror] at h
      cases h
      exact hrest herror

/-! Streams. -/

/-- All there is to get from a stream, with room for all of it in the read buffer. -/
def whole (key : Nat → UInt8) (kind : FrameKind) (r : Receiver) (stream : List UInt8) : Received :=
  match decoded key kind r.pos.offset r.tlsRawPending stream with
  | .error e => ⟨[], r, some e⟩
  | .ok (bytes, offset, pending) =>
    let d := drainAll (peelOne kind) r.pos.seqno (r.readBuf ++ bytes)
    ⟨d.payloads, ⟨d.rest, ⟨d.state, offset⟩, pending⟩, d.error⟩

/-- Nothing is left to be taken out of what has been read. -/
structure Quiet (kind : FrameKind) (r : Receiver) : Prop where
  frame : peelOne kind r.pos.seqno r.readBuf = .incomplete
  record : NoRecord r.tlsRawPending

/-- A connection on which nothing has been read. -/
def Receiver.fresh (pos : Position) : Receiver := ⟨[], pos, []⟩

theorem Receiver.fresh_quiet (kind : FrameKind) (pos : Position) : Quiet kind (Receiver.fresh pos) :=
  ⟨peelOne_nil kind pos.seqno, rfl⟩

/-- A read is the whole of it, or does not fit. -/
theorem onRead_eq (key : Nat → UInt8) (kind : FrameKind) (r : Receiver) (read : List UInt8) :
    onRead key kind r read = whole key kind r read ∨ (onRead key kind r read).error = some .bufferOverflow := by
  unfold onRead whole
  rw [ingestRead_eq]
  cases decoded key kind r.pos.offset r.tlsRawPending read with
  | error e => exact .inl rfl
  | ok u =>
    obtain ⟨bytes, offset, pending⟩ := u
    dsimp only
    by_cases hcap : readBufCap < r.readBuf.length + bytes.length
    · rw [if_pos hcap]
      exact .inr rfl
    · rw [if_neg hcap]
      exact .inl rfl

theorem whole_nil (key : Nat → UInt8) {kind : FrameKind} {r : Receiver} (h : Quiet kind r) :
    whole key kind r [] = ⟨[], r, none⟩ := by
  unfold whole
  rw [decoded_nil key kind r.pos.offset h.record]
  dsimp only
  rw [List.append_nil, Stable.drainAll_incomplete h.frame]

/-- After a read that went well nothing is left to be taken out. -/
theorem whole_quiet {key : Nat → UInt8} {kind : FrameKind} {r : Receiver} (h : Quiet kind r) {read : List UInt8}
    (hok : (whole key kind r read).error = none) : Quiet kind (whole key kind r read).receiver := by
  unfold whole at hok ⊢
  cases hdecoded : decoded key kind r.pos.offset r.tlsRawPending read with
  | error e =>
    rw [hdecoded] at hok
    cases hok
  | ok u =>
    obtain ⟨bytes, offset, pending⟩ := u
    rw [hdecoded] at hok
    exact ⟨(peelOne_stable kind).drainAll_rest _ _ hok, decoded_pending h.record hdecoded⟩

/-- Payloads that were received before. -/
def Received.after (payloads : List (List UInt8)) (x : Received) : Received :=
  { x with payloads := payloads ++ x.payloads }

section
variable {key : Nat → UInt8} {kind : FrameKind} {r : Receiver}

/-- `whole` where the bytes can be decoded. -/
theorem whole_of_decoded {stream bytes pending : List UInt8} {offset : Nat}
    (h : decoded key kind r.pos.offset r.tlsRawPending stream = .ok (bytes, offset, pending)) :
    whole key kind r stream =
      ⟨(drainAll (peelOne kind) r.pos.seqno (r.readBuf ++ bytes)).payloads,
        ⟨(drainAll (peelOne kind) r.pos.seqno (r.readBuf ++ bytes)).rest,
          ⟨(drainAll (peelOne kind) r.pos.seqno (r.readBuf ++ bytes)).state, offset⟩, pending⟩,
        (drainAll (peelOne kind) r.pos.seqno (r.readBuf ++ bytes)).error⟩ := by
  unfold whole
  rw [h]

/-- A stream in two parts that can be decoded, of which the first goes well. -/
theorem whole_append {read more bytes bytes' pending pending' : List UInt8} {offset offset' : Nat}
    (hread : decoded key kind r.pos.offset r.tlsRawPending read = .ok (bytes, offset, pending))
    (hmore : decoded key kind offset pending more = .ok (bytes', offset', pending'))
    (hok : (whole key kind r read).error = none) :
    whole key kind r (read ++ more) =
      (whole key kind (whole key kind r read).receiver more).after (whole key kind r read).payloads := by
  have hboth : decoded key kind r.pos.offset r.tlsRawPending (read ++ more) =
      .ok (bytes ++ bytes', offset', pending') := by
    rw [decoded_append, hread]
    simp only [hmore]
  have hfirst := whole_of_decoded hread
  have hdrained : (drainAll (peelOne kind) r.pos.seqno (r.readBuf ++ bytes)).error = none := by
    rwa [hfirst] at hok
  have hsecond : decoded key kind (whole key kind r read).receiver.pos.offset
      (whole key kind r read).receiver.tlsRawPending more = .ok (bytes', offset', pending') := by
    rw [hfirst]
    exact hmore
  have happend := (peelOne_stable kind).drainAll_append r.pos.seqno (r.readBuf ++ bytes) bytes'
  rw [hdrained] at happend
  rw [whole_of_decoded hboth, whole_of_decoded hsecond, ← List.append_assoc, happend, hfirst]
  rfl

/-- A frame that is refused is refused whatever follows it. -/
theorem whole_append_refused {read more bytes bytes' pending pending' : List UInt8} {offset offset' : Nat}
    {e : RecvError} (hread : decoded key kind r.pos.offset r.tlsRawPending read = .ok (bytes, offset, pending))
    (hmore : decoded key kind offset pending more = .ok (bytes', offset', pending'))
    (herror : (whole key kind r read).error = some e) :
    (whole key kind r (read ++ more)).payloads = (whole key kind r read).payloads ∧
      (whole key kind r (read ++ more)).error = some e := by
  have hboth : decoded key kind r.pos.offset r.tlsRawPending (read ++ more) =
      .ok (bytes ++ bytes', offset', pending') := by
    rw [decoded_append, hread]
    simp only [hmore]
  have hfirst := whole_of_decoded hread
  have hdrained : (drainAll (peelOne kind) r.pos.seqno (r.readBuf ++ bytes)).error = some e := by
    rwa [hfirst] at herror
  have happend := (peelOne_stable kind).drainAll_append r.pos.seqno (r.readBuf ++ bytes) bytes'
  rw [hdrained] at happend
  rw [whole_of_decoded hboth, ← List.append_assoc, happend, hfirst]
  exact ⟨rfl, rfl⟩

/-- An error-free part of a stream was decoded. -/
theorem decoded_of_ok {stream : List UInt8} (hok : (whole key kind r stream).error = none) :
    ∃ bytes offset pending, decoded key kind r.pos.offset r.tlsRawPending stream = .ok (bytes, offset, pending) ∧
      (whole key kind r stream).receiver.pos.offset = offset ∧
      (whole key kind r stream).receiver.tlsRawPending = pending := by
  cases hdecoded : decoded key kind r.pos.offset r.tlsRawPending stream with
  | error e =>
    unfold whole at hok
    rw [hdecoded] at hok
    cases hok
  | ok u =>
    obtain ⟨bytes, offset, pending⟩ := u
    rw [whole_of_decoded hdecoded]
    exact ⟨bytes, offset, pending, rfl, rfl, rfl⟩

/-- Two parts that go well, one after the other. -/
theorem whole_append_ok {read more : List UInt8} (hread : (whole key kind r read).error = none)
    (hmore : (whole key kind (whole key kind r read).receiver more).error = none) :
    whole key kind r (read ++ more) =
      (whole key kind (whole key kind r read).receiver more).after (whole key kind r read).payloads := by
  obtain ⟨bytes, offset, pending, hdecoded, hoffset, hpending⟩ := decoded_of_ok hread
  obtain ⟨bytes', offset', pending', hdecoded', -, -⟩ := decoded_of_ok hmore
  rw [hoffset, hpending] at hdecoded'
  exact whole_append hdecoded hdecoded' hread

end

theorem receive_cons_ok {key : Nat → UInt8} {kind : FrameKind} {r : Receiver} {read : List UInt8}
    (h : (onRead key kind r read).error = none) (reads : List (List UInt8)) :
    receive key kind r (read :: reads) =
      (receive key kind (onRead key kind r read).receiver reads).after (onRead key kind r read).payloads := by
  simp only [receive, h]
  rfl

theorem receive_cons_error {key : Nat → UInt8} {kind : FrameKind} {r : Receiver} {read : List UInt8} {e : RecvError}
    (h : (onRead key kind r read).error = some e) (reads : List (List UInt8)) :
    receive key kind r (read :: reads) = onRead key kind r read := by
  simp only [receive, h]

theorem onRead_of_ne_overflow {key : Nat → UInt8} {kind : FrameKind} {r : Receiver} {read : List UInt8}
    (h : (onRead key kind r read).error ≠ some .bufferOverflow) :
    onRead key kind r read = whole key kind r read :=
  (onRead_eq key kind r read).resolve_right h

/-- Reads that go well get what the stream has. -/
theorem receive_ok (key : Nat → UInt8) (kind : FrameKind) (reads : List (List UInt8)) :
    ∀ r : Receiver, Quiet kind r → (receive key kind r reads).error = none →
      receive key kind r reads = whole key kind r reads.flatten := by
  induction reads with
  | nil =>
    intro r hquiet _
    exact (whole_nil key hquiet).symm
  | cons read reads ih =>
    intro r hquiet hok
    cases hnow : (onRead key kind r read).error with
    | some e =>
      rw [receive_cons_error hnow, hnow] at hok
      cases hok
    | none =>
      have hread : onRead key kind r read = whole key kind r read := by
        apply onRead_of_ne_overflow
        rw [hnow]
        exact (Option.some_ne_none _).symm
      rw [receive_cons_ok hnow] at hok ⊢
      rw [hread] at hnow hok ⊢
      have hlater := ih _ (whole_quiet hquiet hnow) hok
      rw [hlater, List.flatten_cons, whole_append_ok hnow]
      rw [← hlater]
      exact hok

/-! Frames that are refused. -/

/-- Without records there is nothing that cannot be decoded. -/
theorem decoded_of_ne {kind : FrameKind} (hkind : kind ≠ .fakeTls) (key : Nat → UInt8) (offset : Nat)
    (pending read : List UInt8) :
    ∃ bytes offset' pending', decoded key kind offset pending read = .ok (bytes, offset', pending') := by
  cases kind with
  | abridged => exact ⟨_, _, _, rfl⟩
  | intermediate => exact ⟨_, _, _, rfl⟩
  | full => exact ⟨_, _, _, rfl⟩
  | obfuscated => exact ⟨_, _, _, rfl⟩
  | paddedIntermediate => exact ⟨_, _, _, rfl⟩
  | fakeTls => exact absurd rfl hkind

/-- Reads up to a frame that is refused get the frames before it. -/
theorem receive_refused (key : Nat → UInt8) {kind : FrameKind} (hkind : kind ≠ .fakeTls)
    (reads : List (List UInt8)) : ∀ (r : Receiver) (e : RecvError), (receive key kind r reads).error = some e →
      e ≠ .bufferOverflow → (whole key kind r reads.flatten).payloads = (receive key kind r reads).payloads ∧
        (whole key kind r reads.flatten).error = some e := by
  induction reads with
  | nil =>
    intro r e herror _
    cases herror
  | cons read reads ih =>
    intro r e herror hne
    obtain ⟨bytes, offset, pending, hdecoded⟩ := decoded_of_ne hkind key r.pos.offset r.tlsRawPending read
    obtain ⟨bytes', offset', pending', hdecoded'⟩ := decoded_of_ne hkind key offset pending reads.flatten
    rw [List.flatten_cons]
    cases hnow : (onRead key kind r read).error with
    | some e' =>
      rw [receive_cons_error hnow] at herror ⊢
      have hread : onRead key kind r read = whole key kind r read := by
        apply onRead_of_ne_overflow
        rw [herror]
        exact fun h => hne (Option.some.inj h)
      rw [hread] at herror ⊢
      exact whole_append_refused hdecoded hdecoded' herror
    | none =>
      have hread : onRead key kind r read = whole key kind r read := by
        apply onRead_of_ne_overflow
        rw [hnow]
        exact (Option.some_ne_none _).symm
      rw [receive_cons_ok hnow] at herror ⊢
      rw [hread] at hnow herror ⊢
      obtain ⟨hpayloads, hwhole⟩ := ih _ e herror hne
      rw [whole_append hdecoded hdecoded' hnow]
      refine ⟨?_, hwhole⟩
      show _ ++ (whole key kind _ reads.flatten).payloads = _ ++ (receive key kind _ reads).payloads
      rw [hpayloads]

/-! The read buffer. -/

/-- The read buffer has room for a stream. -/
def HasRoom (key : Nat → UInt8) (kind : FrameKind) (r : Receiver) (stream : List UInt8) : Prop :=
  ∀ bytes offset pending, decoded key kind r.pos.offset r.tlsRawPending stream = .ok (bytes, offset, pending) →
    r.readBuf.length + bytes.length ≤ readBufCap

section
variable {key : Nat → UInt8} {kind : FrameKind} {r : Receiver} {read more stream : List UInt8}

theorem onRead_of_room (h : HasRoom key kind r stream) : onRead key kind r stream = whole key kind r stream := by
  unfold onRead whole
  rw [ingestRead_eq]
  cases hdecoded : decoded key kind r.pos.offset r.tlsRawPending stream with
  | error e => rfl
  | ok u =>
    obtain ⟨bytes, offset, pending⟩ := u
    dsimp only
    rw [if_neg (Nat.not_lt.mpr (h bytes offset pending hdecoded))]
    rfl

theorem room_of_onRead (h : (onRead key kind r stream).error = none) : HasRoom key kind r stream := by
  intro bytes offset pending hdecoded
  unfold onRead at h
  rw [ingestRead_eq, hdecoded] at h
  dsimp only at h
  by_contra hcap
  rw [if_pos (Nat.lt_of_not_le hcap)] at h
  cases h

/-- Both parts of a stream that goes well go well, and have room where the whole has. -/
theorem parts_of_whole (hok : (whole key kind r (read ++ more)).error = none)
    (hroom : HasRoom key kind r (read ++ more)) :
    (whole key kind r read).error = none ∧ HasRoom key kind r read ∧
      (whole key kind (whole key kind r read).receiver more).error = none ∧
      HasRoom key kind (whole key kind r read).receiver more := by
  obtain ⟨both, offset₂, pending₂, hboth, -, -⟩ := decoded_of_ok hok
  have hcap := hroom both offset₂ pending₂ hboth
  rw [decoded_append] at hboth
  cases hread : decoded key kind r.pos.offset r.tlsRawPending read with
  | error e =>
    rw [hread] at hboth
    cases hboth
  | ok u =>
    obtain ⟨bytes, offset, pending⟩ := u
    rw [hread] at hboth
    dsimp only at hboth
    cases hmore : decoded key kind offset pending more with
    | error e =>
      rw [hmore] at hboth
      cases hboth
    | ok u =>
      obtain ⟨bytes', offset', pending'⟩ := u
      rw [hmore] at hboth
      cases hboth
      rw [List.length_append] at hcap
      have hfirst : (whole key kind r read).error = none := by
        cases herror : (whole key kind r read).error with
        | none => rfl
        | some e =>
          rw [(whole_append_refused hread hmore herror).2] at hok
          cases hok
      rw [whole_append hread hmore hfirst] at hok
      -- draining makes room, so the second part has what the whole had
      have hrest := (peelOne_stable kind).drainAll_rest_length r.pos.seqno (r.readBuf ++ bytes)
      rw [List.length_append] at hrest
      refine ⟨hfirst, ?_, hok, ?_⟩
      · intro b o p hdecoded
        rw [hread] at hdecoded
        cases hdecoded
        omega
      · intro b o p hdecoded
        rw [whole_of_decoded hread] at hdecoded ⊢
        dsimp only at hdecoded ⊢
        rw [hmore] at hdecoded
        cases hdecoded
        omega

end

/-- A stream that goes well in one read goes well in any reads. -/
theorem receive_of_whole (key : Nat → UInt8) (kind : FrameKind) (reads : List (List UInt8)) :
    ∀ r : Receiver, (whole key kind r reads.flatten).error = none → HasRoom key kind r reads.flatten →
      (receive key kind r reads).error = none := by
  induction reads with
  | nil =>
    intro r _ _
    rfl
  | cons read reads ih =>
    intro r hok hroom
    rw [List.flatten_cons] at hok hroom
    obtain ⟨hread, hroomRead, hmore, hroomMore⟩ := parts_of_whole hok hroom
    have hnow := onRead_of_room hroomRead
    have herror : (onRead key kind r read).error = none := by
      rw [hnow]
      exact hread
    rw [receive_cons_ok herror]
    show (receive key kind (onRead key kind r read).receiver reads).error = none
    rw [hnow]
    exact ih _ hmore hroomMore

/-- **Cuts do not matter.** From a receiver that has nothing left to take out, and whatever the
transport: reads that end without an error get the frames of the whole stream and leave its tail,
its unfinished record, its sequence number and its position of the cipher. A stream that can be
read at once without an error can be read in any pieces, with the same result. And without TLS
records, reads up to a frame that is refused get the frames before it in the whole stream, and
its error. -/
theorem splits_agree (key : Nat → UInt8) (kind : FrameKind) (r : Receiver) (hquiet : Quiet kind r)
    (reads : List (List UInt8)) :
    ((receive key kind r reads).error = none → receive key kind r reads = whole key kind r reads.flatten) ∧
    ((receive key kind r [reads.flatten]).error = none →
      receive key kind r reads = receive key kind r [reads.flatten]) ∧
    ∀ e, kind ≠ .fakeTls → (receive key kind r reads).error = some e → e ≠ .bufferOverflow →
      (whole key kind r reads.flatten).payloads = (receive key kind r reads).payloads ∧
        (whole key kind r reads.flatten).error = some e := by
  refine ⟨receive_ok key kind reads r hquiet, ?_, fun e hkind => receive_refused key hkind reads r e⟩
  intro honce
  have hone := receive_ok key kind [reads.flatten] r hquiet honce
  rw [List.flatten_singleton] at hone
  have hread : (onRead key kind r reads.flatten).error = none := by
    cases h : (onRead key kind r reads.flatten).error with
    | none => rfl
    | some e =>
      rw [receive_cons_error h, h] at honce
      cases honce
  rw [hone] at honce
  rw [hone]
  exact receive_ok key kind reads r hquiet (receive_of_whole key kind reads r honce (room_of_onRead hread))

theorem splits_agree_intermediate :
    receive (fun _ => 0) .intermediate (Receiver.fresh ⟨0, 0⟩) [[4, 0], [0, 0, 1, 2], [3, 4, 9]] =
      whole (fun _ => 0) .intermediate (Receiver.fresh ⟨0, 0⟩) [4, 0, 0, 0, 1, 2, 3, 4, 9] ∧
    (whole (fun _ => 0) .intermediate (Receiver.fresh ⟨0, 0⟩) [4, 0, 0, 0, 1, 2, 3, 4, 9]).payloads = [[1, 2, 3, 4]] :=
  ⟨(splits_agree (fun _ => 0) .intermediate _ (Receiver.fresh_quiet _ _) [[4, 0], [0, 0, 1, 2], [3, 4, 9]]).1
    (by decide), by decide⟩

/-- A read that does not fit. -/
theorem onRead_overflow (key : Nat → UInt8) (r : Receiver) {read : List UInt8}
    (h : readBufCap < r.readBuf.length + read.length) :
    onRead key .abridged r read = ⟨[], r, some .bufferOverflow⟩ := by
  have hpush : r.ingestRead key .abridged read = .error .bufferOverflow := if_pos h
  unfold onRead
  rw [hpush]

/-- A stream that is longer than the read buffer, in two reads and in one. -/
theorem overflow_differs {zeros : List UInt8} (hlen : zeros.length = readBufCap) :
    (receive (fun _ => 0) .abridged (Receiver.fresh ⟨0, 0⟩) [[0], zeros]).payloads ≠
      (receive (fun _ => 0) .abridged (Receiver.fresh ⟨0, 0⟩) [0 :: zeros]).payloads := by
  have hfirst : (onRead (fun _ => 0) .abridged (Receiver.fresh ⟨0, 0⟩) [0]).error = none ∧
      (onRead (fun _ => 0) .abridged (Receiver.fresh ⟨0, 0⟩) [0]).payloads = [[]] := by
    decide
  have honce : onRead (fun _ => 0) .abridged (Receiver.fresh ⟨0, 0⟩) (0 :: zeros) =
      ⟨[], Receiver.fresh ⟨0, 0⟩, some .bufferOverflow⟩ := by
    apply onRead_overflow
    rw [List.length_cons, hlen]
    exact Nat.lt_of_lt_of_le (Nat.lt_succ_self _) (Nat.le_add_left _ _)
  have herror : (onRead (fun _ => 0) .abridged (Receiver.fresh ⟨0, 0⟩) (0 :: zeros)).error =
      some .bufferOverflow := by
    rw [honce]
  rw [receive_cons_ok hfirst.1, receive_cons_error herror, honce]
  show (onRead _ _ _ _).payloads ++ _ ≠ []
  rw [hfirst.2]
  exact List.cons_ne_nil _ _

/-- A record of a wrong type takes the frames in the same read with it, and a stream that is
longer than the read buffer cannot be read at once. -/
theorem splits_differ :
    (receive (fun _ => 0) .fakeTls (Receiver.fresh ⟨0, 0⟩)
        [record (intermediateFrame [1, 2, 3, 4]), [0x16, 3, 3, 0, 0]]).payloads ≠
      (receive (fun _ => 0) .fakeTls (Receiver.fresh ⟨0, 0⟩)
        [record (intermediateFrame [1, 2, 3, 4]) ++ [0x16, 3, 3, 0, 0]]).payloads ∧
    (receive (fun _ => 0) .abridged (Receiver.fresh ⟨0, 0⟩) [[0], List.replicate readBufCap 0]).payloads ≠
      (receive (fun _ => 0) .abridged (Receiver.fresh ⟨0, 0⟩) [0 :: List.replicate readBufCap 0]).payloads :=
  ⟨by decide, overflow_differs List.length_replicate⟩

end Ferogram.Mtsender
