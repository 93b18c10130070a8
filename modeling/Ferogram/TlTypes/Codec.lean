import Ferogram.Lib.Bytes
import Ferogram.Lib.Utf8

/- The TL codec (`ferogram-tl-types/src/serialize.rs`, `deserialize.rs`): numbers, booleans,
   byte strings, strings, and vectors of these.

   A Rust type that implements both traits is a code here (`TlType`), and `TlType.Val` are its
   values; an implementation for a type is a case of `serialize` and of `deserialize`. A cursor
   is a reader. A `usize` has 64 bits, and an `f64` is its bits. -/
namespace Ferogram.TlTypes
open Bytes

inductive Error where
  | unexpectedEof
  | unexpectedConstructor (id : UInt32)
  deriving DecidableEq, Repr

/-- A type with an implementation of `Serializable` and `Deserializable`. -/
inductive TlType where
  | i32
  | i64
  | u32
  | f64
  | bool
  | bytes
  | string
  | int128
  | int256
  | vec (item : TlType)
  | rawVec (item : TlType)
  deriving DecidableEq, Repr

def TlType.Val : TlType → Type
  | .i32 => Int32
  | .i64 => Int64
  | .u32 => UInt32
  | .f64 => UInt64
  | .bool => Bool
  | .bytes => List UInt8
  | .string => String
  | .int128 => List.Vector UInt8 16
  | .int256 => List.Vector UInt8 32
  | .vec item => List item.Val
  | .rawVec item => List item.Val

def idBoolTrue : UInt32 := 0x997275b5
def idBoolFalse : UInt32 := 0xbc799737
def idVector : UInt32 := 0x1cb5c415

/-! Writing. -/

def ofU32 (x : UInt32) : List UInt8 := le 4 x.toNat
def ofU64 (x : UInt64) : List UInt8 := le 8 x.toNat

/-- The zero bytes that fill up the last word. -/
def alignment (total : Nat) : Nat := (4 - total % 4) % 4

/-- The length in one byte up to 253, else in three behind the byte 254. -/
def serializeBytes (data : List UInt8) : List UInt8 :=
  let len := data.length
  let (headerLen, header) : Nat × List UInt8 :=
    if len ≤ 253 then (1, [UInt8.ofNat len])
    else
      (4, [0xfe, UInt8.ofNat (len &&& 0xff), UInt8.ofNat ((len >>> 8) &&& 0xff),
        UInt8.ofNat ((len >>> 16) &&& 0xff)])
  header ++ data ++ List.replicate (alignment (headerLen + len)) 0

def serializeBool (x : Bool) : List UInt8 := ofU32 (if x then idBoolTrue else idBoolFalse)

/-- The count is an `i32`, whatever the length of the vector. -/
def serializeRawVec {α : Type} (item : α → List UInt8) (x : List α) : List UInt8 :=
  ofI32 (Int32.ofNat x.length) ++ x.flatMap item

def serializeVec {α : Type} (item : α → List UInt8) (x : List α) : List UInt8 :=
  ofU32 idVector ++ serializeRawVec item x

def serialize : (t : TlType) → t.Val → List UInt8
  | .i32 => ofI32
  | .i64 => ofI64
  | .u32 => ofU32
  | .f64 => ofU64
  | .bool => serializeBool
  | .bytes => serializeBytes
  | .string => fun x => serializeBytes (Utf8.encode x)
  | .int128 => Subtype.val
  | .int256 => Subtype.val
  | .vec item => serializeVec (serialize item)
  | .rawVec item => serializeRawVec (serialize item)

/-! Reading. -/

def readExact (n : Nat) : Reader Error (List.Vector UInt8 n) := Reader.take .unexpectedEof n

def readByte : Reader Error UInt8 := do
  let b ← readExact 1
  pure b.head

def readI32 : Reader Error Int32 := do
  let b ← readExact 4
  pure (toI32 b.1)

def readU32 : Reader Error UInt32 := do
  let b ← readExact 4
  pure (UInt32.ofNat (ofLe b.1))

def readI64 : Reader Error Int64 := do
  let b ← readExact 8
  pure (toI64 b.1)

def readU64 : Reader Error UInt64 := do
  let b ← readExact 8
  pure (UInt64.ofNat (ofLe b.1))

def deserializeBool : Reader Error Bool := do
  let id ← readU32
  if id = idBoolTrue then pure true
  else if id = idBoolFalse then pure false
  else Reader.fail (.unexpectedConstructor id)

/-- The byte 254 announces three bytes of length; 255 is read as a length of its own. -/
def readHeader : Reader Error (Nat × Nat) := do
  let first ← readByte
  if first ≠ 0xfe then pure (first.toNat, 0)
  else do
    let a ← readByte
    let b ← readByte
    let c ← readByte
    pure (a.toNat ||| (b.toNat <<< 8) ||| (c.toNat <<< 16), 3)

def deserializeBytes : Reader Error (List UInt8) := do
  let (len, headerExtra) ← readHeader
  let data ← readExact len
  let _ ← Reader.many readByte (alignment (1 + headerExtra + len))
  pure data.1

def deserializeString : Reader Error String := do
  let b ← deserializeBytes
  match Utf8.decode? b with
  | some s => pure s
  | none => Reader.fail .unexpectedEof

/-- `i32 as usize`: a negative count becomes a very large one. -/
def asUsize (x : Int32) : Nat := x.toInt64.toUInt64.toNat

def deserializeRawVec {α : Type} (item : Reader Error α) : Reader Error (List α) := do
  let len ← readI32
  Reader.many item (asUsize len)

def deserializeVec {α : Type} (item : Reader Error α) : Reader Error (List α) := do
  let id ← readU32
  if id ≠ idVector then Reader.fail (.unexpectedConstructor id)
  else deserializeRawVec item

def deserialize : (t : TlType) → Reader Error t.Val
  | .i32 => readI32
  | .i64 => readI64
  | .u32 => readU32
  | .f64 => readU64
  | .bool => deserializeBool
  | .bytes => deserializeBytes
  | .string => deserializeString
  | .int128 => readExact 16
  | .int256 => readExact 32
  | .vec item => deserializeVec (deserialize item)
  | .rawVec item => deserializeRawVec (deserialize item)

end Ferogram.TlTypes
