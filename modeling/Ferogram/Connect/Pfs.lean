import Ferogram.Connect.Util

/- The answer to `auth.bindTempAuthKey` (`ferogram-connect/src/pfs.rs`), alone or in a
   container. The errors are kept apart with what their texts are made of; "skip" and
   "__need_more__" are among them. The loop over a container is given with the bodies it
   looked at. -/
namespace Ferogram.Connect.Pfs
open Bytes

def boolTrue : Nat := 0x997275b5
def boolFalse : Nat := 0xbc799737
def futureSalts : Nat := 0xae500895
def pong : Nat := 0x034773c5

inductive BindError where
  | skip
  | needMore
  | boolFalse
  | rpcBoolFalse
  | rpcError (code : Int32) (message : String)
  | rpcInner (ctor : Nat)
  | badMsg (code : Nat)
  | badSalt (newSalt : Int64)
  | unknownCtor (ctor : Nat)
  | bodyTooShort (len : Nat)
  | countTooShort
  | truncated (i count pos bodyLen : Nat)
  | overflows (i need present : Nat)
  deriving DecidableEq

def decodeBindSingle (body : List UInt8) : Except BindError Unit :=
  if body.length < 4 then .error .skip
  else if ctor body = boolTrue then .ok ()
  else if ctor body = boolFalse then .error .boolFalse
  else if ctor body ∈ [idNewSessionCreated, futureSalts, idMsgsAck, pong] then .error .skip
  else if ctor body = idRpcResult ∧ 16 ≤ body.length then
    let inner := ofLe (field body 12 4)
    if inner = boolTrue then .ok ()
    else if inner = boolFalse then .error .rpcBoolFalse
    else if inner = idRpcError ∧ 20 ≤ body.length then
      .error (.rpcError (toI32 (field body 16 4)) ((tlReadString (body.drop 20)).getD ""))
    else .error (.rpcInner inner)
  else if ctor body = idBadMsgNotification ∧ 16 ≤ body.length then .error (.badMsg (ofLe (field body 12 4)))
  else if ctor body = idBadServerSalt ∧ 24 ≤ body.length then .error (.badSalt (toI64 (field body 16 8)))
  else .error (.unknownCtor (ctor body))

/-- `left` of the `count` messages are still to be looked at. -/
def decodeBindLoop (body : List UInt8) (count : Nat) : Nat → Nat → Option BindError → Except BindError Unit × List (List UInt8)
  | 0, _, lastRealErr => (.error (lastRealErr.getD .needMore), [])
  | left + 1, pos, lastRealErr =>
    let i := count - (left + 1)
    if body.length < pos + 16 then (.error (.truncated i count pos body.length), [])
    else
      let msgBytes := ofLe (field body (pos + 12) 4)
      let pos := pos + 16
      if body.length < pos + msgBytes then (.error (.overflows i msgBytes (body.length - pos)), [])
      else
        let msgBody := field body pos msgBytes
        let pos := pos + msgBytes
        let go lastRealErr :=
          let (result, visited) := decodeBindLoop body count left pos lastRealErr
          (result, msgBody :: visited)
        match decodeBindSingle msgBody with
        | .ok () => (.ok (), [msgBody])
        | .error .skip => go lastRealErr
        | .error e => go (some e)

/-- With the bodies that were looked at. -/
def decodeBindWalk (body : List UInt8) : Except BindError Unit × List (List UInt8) :=
  if body.length < 4 then (.error (.bodyTooShort body.length), [])
  else if ctor body ≠ idMsgContainer then
    match decodeBindSingle body with
    | .error .skip => (.error .needMore, [body])
    | result => (result, [body])
  else if body.length < 8 then (.error .countTooShort, [])
  else
    let count := ofLe (field body 4 4)
    decodeBindLoop body count count 8 none

def decodeBindResponse (body : List UInt8) : Except BindError Unit := (decodeBindWalk body).1

/-- The body is a success. -/
def bindSucceeds (body : List UInt8) : Bool := decodeBindSingle body matches .ok ()

end Ferogram.Connect.Pfs
