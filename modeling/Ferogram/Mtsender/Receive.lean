import Ferogram.Lib.Framing
import Ferogram.Connect.Frame

/- The reading half of the sender task (`ferogram-mtsender/src/mtp_sender.rs`): bytes as
   they arrive are decoded into the read buffer (`ingest_read`), and whole frames are
   peeled off its front (`drain_frames`).

   `peel_one` is given the buffer from the current offset on. The payloads of a read are
   what `process_payload` is called with, one after another; the connection is dropped
   where an error is returned. -/
namespace Ferogram.Mtsender
open Bytes Connect Keystream Framing

def readBufCap : Nat := 1024 * 1024 + 8 * 1024
def readScratchCap : Nat := 64 * 1024

inductive RecvError where
  | transportCode (code : Int32)
  | packetTooShort (total : Nat)
  | crcMismatch (actual expected : Nat)
  | badSeq (got expected : Nat)
  | bufferOverflow
  | unexpectedRecord (recType : UInt8)
  deriving DecidableEq, Repr

/-! Peeling. -/

/-- `payload_len` bytes after a header of `hdr`, if they are there. -/
def peelBody (seqno : UInt32) (buf : List UInt8) (hdr payloadLen : Nat) : Peel UInt32 RecvError :=
  if buf.length < hdr + payloadLen then .incomplete
  else .complete (field buf hdr payloadLen) (buf.drop (hdr + payloadLen)) seqno

def peelAbridged (seqno : UInt32) : List UInt8 → Peel UInt32 RecvError
  | [] => .incomplete
  | h :: rest =>
    if h < 0x7f then peelBody seqno (h :: rest) 1 (h.toNat * 4)
    else if (h :: rest).length < 4 then .incomplete
    else if h = 0x7f then peelBody seqno (h :: rest) 4 (ofLe (rest.take 3) * 4)
    else .err (.transportCode (toI32 ((h :: rest).take 4)))

def peelIntermediate (seqno : UInt32) (buf : List UInt8) : Peel UInt32 RecvError :=
  if buf.length < 4 then .incomplete
  else
    let li := toI32 (buf.take 4)
    if li < 0 then .err (.transportCode li) else peelBody seqno buf 4 li.toInt.toNat

/-- The number is checked and counted. -/
def peelFull (seqno : UInt32) (buf : List UInt8) : Peel UInt32 RecvError :=
  if buf.length < 4 then .incomplete
  else
    let li := toI32 (buf.take 4)
    let total := li.toInt.toNat
    if li < 0 then .err (.transportCode li)
    else if total < 12 then .err (.packetTooShort total)
    else if buf.length < total then .incomplete
    else
      let expectedCrc := ofLe (field buf (total - 4) 4)
      let actualCrc := (crc32Ieee (buf.take (total - 4))).toNat
      let recvSeq := ofLe (field buf 4 4)
      if actualCrc ≠ expectedCrc then .err (.crcMismatch actualCrc expectedCrc)
      else if recvSeq ≠ seqno.toNat then .err (.badSeq recvSeq seqno.toNat)
      else .complete (field buf 8 (total - 12)) (buf.drop total) (seqno + 1)

def peelOne (kind : FrameKind) : UInt32 → List UInt8 → Peel UInt32 RecvError :=
  match kind with
  | .full => peelFull
  | .abridged | .obfuscated => peelAbridged
  | _ => peelIntermediate

/-! Decoding. -/

/-- The ciphertext in the complete records, and what is left of the bytes; `fuel` records at
most. -/
def unwrapRecords : Nat → List UInt8 → Except RecvError (List UInt8 × List UInt8)
  | 0, pending => .ok ([], pending)
  | fuel + 1, pending =>
    if pending.length < recordHeaderLen then .ok ([], pending)
    else
      let recType := pending.headD 0
      let len := 256 * ofLe (field pending 3 1) + ofLe (field pending 4 1)
      if pending.length < recordHeaderLen + len then .ok ([], pending)
      else if recType = recordApplicationData ∨ recType = recordChangeCipherSpec then do
        let (ciphertext, rest) ← unwrapRecords fuel (pending.drop (recordHeaderLen + len))
        return (field pending recordHeaderLen len ++ ciphertext, rest)
      else .error (.unexpectedRecord recType)

/-- The read buffer up to its tail, the position of the receiving direction, and what has been
read of an incomplete TLS record. -/
structure Receiver where
  readBuf : List UInt8
  pos : Position
  tlsRawPending : List UInt8
  deriving DecidableEq, Repr

namespace Receiver

def pushDecoded (r : Receiver) (bytes : List UInt8) : Except RecvError Receiver :=
  if readBufCap < r.readBuf.length + bytes.length then .error .bufferOverflow
  else .ok { r with readBuf := r.readBuf ++ bytes }

/-- Decrypt from the position on. -/
def decrypt (key : Nat → UInt8) (r : Receiver) (bytes : List UInt8) : List UInt8 × Receiver :=
  (mask key r.pos.offset bytes, { r with pos := { r.pos with offset := r.pos.offset + bytes.length } })

def ingestRead (key : Nat → UInt8) (kind : FrameKind) (r : Receiver) (read : List UInt8) :
    Except RecvError Receiver :=
  match kind with
  | .abridged | .intermediate | .full => r.pushDecoded read
  | .obfuscated | .paddedIntermediate =>
    let (bytes, r) := r.decrypt key read
    r.pushDecoded bytes
  | .fakeTls => do
    let raw := r.tlsRawPending ++ read
    let (ciphertext, rest) ← unwrapRecords raw.length raw
    let (bytes, r) := { r with tlsRawPending := rest }.decrypt key ciphertext
    r.pushDecoded bytes

end Receiver

/-- The payloads, what the receiver is then, and the error that ended it. -/
structure Received where
  payloads : List (List UInt8)
  receiver : Receiver
  error : Option RecvError
  deriving DecidableEq, Repr

/-- `ingest_read`, then `drain_frames`. -/
def onRead (key : Nat → UInt8) (kind : FrameKind) (r : Receiver) (read : List UInt8) : Received :=
  match r.ingestRead key kind read with
  | .error e => ⟨[], r, some e⟩
  | .ok r =>
    let d := drain (peelOne kind) r.readBuf.length r.pos.seqno r.readBuf
    ⟨d.payloads, { r with readBuf := d.rest, pos := { r.pos with seqno := d.state } }, d.error⟩

/-- One read after another, up to an error. -/
def receive (key : Nat → UInt8) (kind : FrameKind) : Receiver → List (List UInt8) → Received
  | r, [] => ⟨[], r, none⟩
  | r, read :: reads =>
    let now := onRead key kind r read
    match now.error with
    | some _ => now
    | none =>
      let later := receive key kind now.receiver reads
      { later with payloads := now.payloads ++ later.payloads }

end Ferogram.Mtsender
