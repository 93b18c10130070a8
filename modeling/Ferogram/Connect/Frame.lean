import Ferogram.Lib.Keystream
import Ferogram.Connect.Util

/- The transports' framing (`ferogram-connect/src/frame.rs`, `transport.rs`,
   `tls_record.rs` and the checksum in `util.rs`): the frames `send_frame` writes, and
   `recv_raw_frame`.

   One direction of a connection stands at a `Position`: the number of the next Full
   frame and how far the cipher has come. The keystream of AES-256-CTR is a function of
   the position; the random padding of a frame is an argument. A reader takes its bytes
   off the TCP stream and waits where there are too few, which here is an error. -/
namespace Ferogram.Connect
open Bytes Keystream

inductive FrameKind where
  | abridged
  | intermediate
  | full
  | obfuscated
  | paddedIntermediate
  | fakeTls
  deriving DecidableEq, Repr

structure Position where
  seqno : UInt32
  offset : Nat
  deriving DecidableEq, Repr

inductive ConnectError where
  | unexpectedEof
  | transportCode (code : Int32)
  | implausibleWordCount (words : Nat)
  | packetTooShort (len : Int32)
  | crcMismatch (actual expected : Nat)
  deriving DecidableEq, Repr

/-- One bit of a byte. -/
def crc32Bit (x : UInt32 × UInt32) : UInt32 × UInt32 :=
  let mix := (x.1 ^^^ x.2) &&& 1
  let crc := x.1 >>> 1
  (if mix ≠ 0 then crc ^^^ 0xedb88320 else crc, x.2 >>> 1)

def crc32Ieee (data : List UInt8) : UInt32 :=
  data.foldl (fun crc byte => (Nat.repeat crc32Bit 8 (crc, byte.toUInt32)).1) 0xffffffff ^^^ 0xffffffff

/-! Frames as they are written. -/

/-- A word count of one byte, or a marker and three. -/
def abridgedHeader (words : Nat) : List UInt8 :=
  if words < 0x7f then [UInt8.ofNat words] else 0x7f :: le 3 words

def abridgedFrame (data : List UInt8) : List UInt8 := abridgedHeader (data.length / 4) ++ data

def intermediateFrame (data : List UInt8) : List UInt8 := le 4 data.length ++ data

/-- Length, number, payload, and the checksum of these. -/
def fullFrame (seqno : UInt32) (data : List UInt8) : List UInt8 :=
  let packet := le 4 (data.length + 12) ++ le 4 seqno.toNat ++ data
  packet ++ le 4 (crc32Ieee packet).toNat

def recordApplicationData : UInt8 := 0x17
def recordChangeCipherSpec : UInt8 := 0x14
def recordHeaderLen : Nat := 5
def recordMaxChunk : Nat := 16384

/-- The big-endian length and the chunk. -/
def record (chunk : List UInt8) : List UInt8 :=
  [recordApplicationData, 0x03, 0x03, UInt8.ofNat (chunk.length / 256), UInt8.ofNat chunk.length] ++ chunk

/-- One record for each chunk; `fuel` chunks at most. -/
def wrapChunks : Nat → List UInt8 → List UInt8
  | 0, _ => []
  | fuel + 1, ciphertext =>
    if ciphertext = [] then []
    else record (ciphertext.take recordMaxChunk) ++ wrapChunks fuel (ciphertext.drop recordMaxChunk)

def wrapApplicationData (ciphertext : List UInt8) : List UInt8 :=
  wrapChunks ciphertext.length ciphertext

/-- A frame from the position on, and the position after it. -/
def sendFrame (key : Nat → UInt8) (kind : FrameKind) (here : Position) (data pad : List UInt8) :
    List UInt8 × Position :=
  let encrypt (frame : List UInt8) := (mask key here.offset frame, { here with offset := here.offset + frame.length })
  match kind with
  | .abridged => (abridgedFrame data, here)
  | .intermediate => (intermediateFrame data, here)
  | .full => (fullFrame here.seqno data, { here with seqno := here.seqno + 1 })
  | .obfuscated => encrypt (abridgedFrame data)
  | .paddedIntermediate => encrypt (intermediateFrame (data ++ pad))
  | .fakeTls =>
    let (frame, here) := encrypt (intermediateFrame (data ++ pad))
    (wrapApplicationData frame, here)

/-! `recv_raw_frame`. -/

def readExact (n : Nat) : Reader ConnectError (List UInt8) := do
  let v ← Reader.take .unexpectedEof n
  pure v.1

/-- A count of one word after the marker announces an error code. -/
def readAbridgedWords : Reader ConnectError Nat := do
  let h ← readExact 1
  if ofLe h < 0x7f then pure (ofLe h)
  else do
    let b ← readExact 3
    if ofLe b = 1 then do
      let code ← readExact 4
      Reader.fail (.transportCode (toI32 code))
    else pure (ofLe b)

/-- The count is checked before as many words are read. -/
def readWords (words : Nat) : Reader ConnectError (List UInt8) :=
  if words = 0 ∨ 0x8000 < words then Reader.fail (.implausibleWordCount words) else readExact (words * 4)

def recvAbridged : Reader ConnectError (List UInt8) := do
  let words ← readAbridgedWords
  readWords words

def readObfuscatedWords (key : Nat → UInt8) (offset : Nat) : Reader ConnectError (Nat × Nat) := do
  let h ← readExact 1
  if ofLe (mask key offset h) < 0x7f then pure (ofLe (mask key offset h), offset + 1)
  else do
    let b ← readExact 3
    pure (ofLe (mask key (offset + 1) b), offset + 4)

def recvObfuscated (key : Nat → UInt8) (offset : Nat) : Reader ConnectError (List UInt8 × Nat) := do
  let (words, offset) ← readObfuscatedWords key offset
  let buf ← readWords words
  pure (mask key offset buf, offset + buf.length)

/-- The number of the frame is neither checked nor counted. -/
def recvFull : Reader ConnectError (List UInt8) := do
  let lenBuf ← readExact 4
  let len := toI32 lenBuf
  if len < 0 then Reader.fail (.transportCode len)
  else if len < 12 then Reader.fail (.packetTooShort len)
  else do
    let rest ← readExact (len.toInt.toNat - 4)
    let body := rest.take (rest.length - 4)
    let expected := ofLe (rest.drop (rest.length - 4))
    let actual := (crc32Ieee (lenBuf ++ body)).toNat
    if actual ≠ expected then Reader.fail (.crcMismatch actual expected)
    else pure (body.drop 4)

/-- Three of the transports have a reader of their own; the others are read as Abridged. -/
def recvRawFrame (key : Nat → UInt8) (kind : FrameKind) (here : Position) :
    Reader ConnectError (List UInt8 × Position) :=
  match kind with
  | .obfuscated => do
    let (buf, offset) ← recvObfuscated key here.offset
    pure (buf, { here with offset := offset })
  | .full => do
    let payload ← recvFull
    pure (payload, here)
  | _ => do
    let buf ← recvAbridged
    pure (buf, here)

end Ferogram.Connect
