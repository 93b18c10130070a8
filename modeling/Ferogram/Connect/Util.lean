import Ferogram.Lib.Bytes
import Ferogram.Lib.Utf8

/- The TL helpers the senders share (`ferogram-connect/src/util.rs`): `bytes` and
   `string` fields, and the bodies of `msgs_ack` and `msg_container`. -/
namespace Ferogram.Connect
open Bytes

/-- `body[start..start + len]`. -/
def field (body : List UInt8) (start len : Nat) : List UInt8 := (body.drop start).take len

/-- The constructor id of a body, of four bytes at least. -/
def ctor (body : List UInt8) : Nat := ofLe (body.take 4)

def idRpcResult : Nat := 0xf35c6d01
def idRpcError : Nat := 0x2144ca19
def idMsgContainer : Nat := 0x73f1f8dc
def idGzipPacked : Nat := 0x3072cfa1
def idBadServerSalt : Nat := 0xedab447b
def idBadMsgNotification : Nat := 0xa7eff811
def idNewSessionCreated : Nat := 0x9ec20908
def idMsgsAck : Nat := 0x62d6b459
def idPong : Nat := 0x347773c5
def idVector : Nat := 0x1cb5c415

/-! Reading a field of a body that was put together from parts. -/

theorem field_append_left {a b : List UInt8} {n : Nat} (k m : Nat) (ha : a.length = n) :
    field (a ++ b) (n + k) m = field b k m := by
  unfold field
  rw [← List.drop_drop, List.drop_left' ha]

theorem field_zero_append {a b : List UInt8} {n : Nat} (ha : a.length = n) :
    field (a ++ b) 0 n = a := by
  unfold field
  rw [← ha]
  simp

theorem ctor_append {id : Nat} (h : id < 256 ^ 4) (b : List UInt8) : ctor (le 4 id ++ b) = id := by
  have hlen : (le 4 id).length = 4 := le_length 4 id
  unfold ctor
  rw [List.take_left' hlen, ofLe_le_of_lt h]

/-- `None` on a truncated payload; the padding after it is not looked at. -/
def tlReadBytes : List UInt8 → Option (List UInt8)
  | [] => some []
  | d :: data =>
    if d.toNat < 254 then
      if data.length < d.toNat then none else some (data.take d.toNat)
    else
      match data with
      | b₁ :: b₂ :: b₃ :: rest =>
        let len := ofLe [b₁, b₂, b₃]
        if rest.length < len then none else some (rest.take len)
      | _ => none

def tlReadString (data : List UInt8) : Option String :=
  (tlReadBytes data).map Utf8.decodeLossy

/-- Three bytes of an `u32` behind the byte 254. -/
def tlWriteBytes (data : List UInt8) : List UInt8 :=
  let len := data.length
  if len < 254 then
    UInt8.ofNat len :: (data ++ List.replicate ((4 - (1 + len) % 4) % 4) 0)
  else
    0xfe :: ((le 4 len).take 3 ++ data ++ List.replicate ((4 - (4 + len) % 4) % 4) 0)

/-- A message inside a container. -/
structure InnerMessage where
  msgId : Int64
  seqno : Int32
  body : List UInt8
  deriving DecidableEq, Repr

def buildMsgsAckBody (msgIds : List Int64) : List UInt8 :=
  le 4 idMsgsAck ++ le 4 idVector ++ le 4 msgIds.length ++ msgIds.flatMap ofI64

/-- `msg_id`, `seqno`, the length of the body and the body. -/
def InnerMessage.bytes (m : InnerMessage) : List UInt8 :=
  ofI64 m.msgId ++ ofI32 m.seqno ++ le 4 m.body.length ++ m.body

def buildContainerBody (messages : List InnerMessage) : List UInt8 :=
  le 4 idMsgContainer ++ le 4 messages.length ++ messages.flatMap InnerMessage.bytes

end Ferogram.Connect
