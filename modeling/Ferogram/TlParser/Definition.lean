import Mathlib.Data.List.Destutter
import Mathlib.Data.List.Sort
import Ferogram.Lib.Radix
import Ferogram.Lib.Str
import Ferogram.Lib.Words
import Ferogram.Parsers.Trim
import Ferogram.TlGen.Codegen

/- The parser of TL definitions (`ferogram-tl-parser`): `from_str` and `Display` of a type, a
   parameter and a definition, and the derived constructor id.

   The records are those that the code generator reads. Texts are lists of characters. A type is
   read by recursion on its argument, with the length of the text as fuel. -/
namespace Ferogram.TlParser
open TlGen Parsers Words Radix

/-! Errors. -/

inductive ParamParseError where
  | empty
  /-- `{X:Type}`, a signal. -/
  | typeDef (name : List Char)
  | missingDef
  | invalidFlag
  | invalidGeneric
  | notImplemented
  deriving DecidableEq

inductive ParseError where
  | empty
  | missingType
  | missingName
  | invalidId (e : IntErrorKind)
  | invalidParam (e : ParamParseError)
  | notImplemented
  deriving DecidableEq

/-! Cutting. -/

/-- Up to the last `c`, and after it. -/
def rsplitOnce (c : Char) (s : List Char) : Option (List Char × List Char) :=
  (splitAtChar c s.reverse).map fun r => (r.2.reverse, r.1.reverse)

def stripSuffix (sfx s : List Char) : Option (List Char) := (stripPrefix sfx.reverse s.reverse).map List.reverse

/-- The namespace and the name of `ns.name`. -/
def splitName (s : List Char) : List (List Char) × List Char :=
  match rsplitOnce '.' s with
  | some (nsPart, n) => (nsPart.splitOn '.', n)
  | none => ([], s)

/-! Types. -/

/-- `from_str` of a type, when the mark and the argument have been taken off. -/
def typeFromParts (genericRef : Bool) (genericArg : Option Ty) (namePart : List Char) : Except ParamParseError Ty :=
  let (ns, name) := splitName namePart
  if ns.any List.isEmpty then .error .empty
  else
    match name with
    | [] => .error .empty
    | first :: _ => .ok ⟨ns.map String.ofList, String.ofList name, first.isLower, genericRef, genericArg⟩

def typeFrom : Nat → List Char → Except ParamParseError Ty
  | 0, _ => .error .invalidGeneric
  | fuel + 1, raw =>
    let (raw, genericRef) :=
      match stripPrefix ['!'] raw with
      | some r => (r, true)
      | none => (raw, false)
    match splitAtChar '<' raw with
    | some (name, rest) =>
      match stripSuffix ['>'] rest with
      | some arg =>
        match typeFrom fuel arg with
        | .ok arg => typeFromParts genericRef (some arg) name
        | .error e => .error e
      | none => .error .invalidGeneric
    | none => typeFromParts genericRef none raw

def typeFromStr (raw : List Char) : Except ParamParseError Ty := typeFrom (raw.length + 1) raw

/-- `Display` of a type. -/
def typeText : Ty → List Char
  | ⟨ns, name, _, genericRef, genericArg⟩ =>
    ns.flatMap (fun part => part.toList ++ ['.']) ++ (if genericRef then ['!'] else []) ++ name.toList ++
      match genericArg with
      | some arg => '<' :: typeText arg ++ ['>']
      | none => []

/-- `collect_generic_refs`, the names of the nested references too. -/
def genericRefs : Ty → List String
  | ⟨_, name, _, genericRef, genericArg⟩ =>
    (if genericRef then [name] else []) ++
      match genericArg with
      | some arg => genericRefs arg
      | none => []

/-! Parameters. -/

/-- The bound of a `u32`. -/
def u32Bound : Nat := 2 ^ 32

def parameterTypeFromStr (s : List Char) : Except ParamParseError ParameterType :=
  if s = ['#'] then .ok .flags
  else
    match splitAtChar '?' s with
    | some (flagPart, tyPart) =>
      match splitAtChar '.' flagPart with
      | some (flagName, flagIdx) =>
        if flagName.isEmpty || flagIdx.isEmpty then .error .invalidFlag
        else
          match fromStrRadix u32Bound 10 flagIdx with
          | .error _ => .error .invalidFlag
          | .ok index =>
            match typeFromStr tyPart with
            | .error e => .error e
            | .ok ty => .ok (.normal ty (some ⟨String.ofList flagName, index⟩))
      | none => .error .invalidFlag
    | none =>
      if s.contains '?' then .error .invalidFlag
      else
        match typeFromStr s with
        | .error e => .error e
        | .ok ty => .ok (.normal ty none)

def parameterTypeText : ParameterType → List Char
  | .flags => ['#']
  | .normal ty none => typeText ty
  | .normal ty (some fl) => fl.name.toList ++ '.' :: Nat.toDigits 10 fl.index ++ '?' :: typeText ty

/-- What closes the declaration of a generic parameter. -/
def typeDefEnd : List Char := ":Type\x7d".toList

/-- `{X:Type}` declares `X` and is no parameter. -/
def parameterFromStr (token : List Char) : Except ParamParseError Parameter :=
  match stripPrefix ['{'] token with
  | some inner =>
    match stripSuffix typeDefEnd inner with
    | some name => .error (.typeDef name)
    | none => .error .missingDef
  | none =>
    match splitAtChar ':' token with
    | none => .error .notImplemented
    | some (name, tyStr) =>
      if name.isEmpty || tyStr.isEmpty then .error .empty
      else
        match parameterTypeFromStr tyStr with
        | .error e => .error e
        | .ok ty => .ok ⟨String.ofList name, ty⟩

def parameterText (p : Parameter) : List Char := p.name.toList ++ ':' :: parameterTypeText p.ty

/-! The derived id. -/

/-- One of the eight rounds for a byte. -/
def crcRound (crc : UInt32) : UInt32 := if crc &&& 1 ≠ 0 then (crc >>> 1) ^^^ 0xEDB88320 else crc >>> 1

def crcByte (crc : UInt32) (byte : UInt8) : UInt32 := crcRound^[8] (crc ^^^ byte.toUInt32)

/-- CRC-32 (ISO 3309). -/
def crc32 (data : List UInt8) : UInt32 := ~~~(data.foldl crcByte 0xFFFFFFFF)

def isAsciiHexdigit (c : Char) : Bool := (hexDigit c).isSome

/-- The text that is hashed: the first `#` and the digits behind it are taken out. -/
def hashedText (definition : List Char) : List Char :=
  let cleaned :=
    match splitAtChar '#' definition with
    | some (before, afterHash) => trimEndMatches isWhitespace before ++ afterHash.dropWhile isAsciiHexdigit
    | none => definition
  trim cleaned

def tlId (definition : List Char) : UInt32 := crc32 (Str.bytes (hashedText definition))

/-! Definitions. -/

/-- Is a generic reference or a flags field of the parameter not declared in front of it? -/
def undeclared (typeDefs flagDefs : List String) (p : Parameter) : Bool :=
  match p.ty with
  | .flags => false
  | .normal ty flag =>
    (ty.genericRef && !typeDefs.contains ty.name) ||
      match flag with
      | some fl => !flagDefs.contains fl.name
      | none => false

def flagsField : Parameter → List String
  | ⟨name, .flags⟩ => [name]
  | ⟨_, .normal _ _⟩ => []

/-- The closure that reads the tokens, with the names declared so far. The first error ends it. -/
def readParams : List String → List String → List (List Char) → Except ParseError (List Parameter × List String)
  | typeDefs, _, [] => .ok ([], typeDefs)
  | typeDefs, flagDefs, token :: tokens =>
    match parameterFromStr token with
    | .error (.typeDef name) => readParams (typeDefs ++ [String.ofList name]) flagDefs tokens
    | .ok p =>
      if undeclared typeDefs flagDefs p then .error (.invalidParam .missingDef)
      else
        match readParams typeDefs (flagDefs ++ flagsField p) tokens with
        | .error e => .error e
        | .ok (params, typeDefs) => .ok (p :: params, typeDefs)
    | .error .notImplemented => .error .notImplemented
    | .error e => .error (.invalidParam e)

/-- The id that stands in the text, or the derived one. -/
def idFrom (raw : List Char) : Option (List Char) → Except ParseError UInt32
  | some hex =>
    match fromStrRadix u32Bound 16 (trim hex) with
    | .ok n => .ok (UInt32.ofNat n)
    | .error e => .error (.invalidId e)
  | none => .ok (tlId raw)

/-- The name and the tokens behind it. -/
def splitHead (lhs : List Char) : List Char × List Char :=
  match splitOnce isWhitespace lhs with
  | some (h, r) => (trimEndMatches isWhitespace h, trimStart r)
  | none => (lhs, [])

/-- The full name, and the id if there is one. -/
def splitId (head : List Char) : List Char × Option (List Char) :=
  match splitAtChar '#' head with
  | some (n, id) => (n, some id)
  | none => (head, none)

/-- A result type that is declared as a generic parameter is one. -/
def markDeclared (typeDefs : List String) (ty : Ty) : Ty :=
  if typeDefs.contains ty.name then { ty with genericRef := true } else ty

/-- `from_str` with both sides of the equals sign. -/
def fromSides (raw lhs tyStr : List Char) : Except ParseError Definition :=
  if tyStr.isEmpty then .error .missingType
  else
    match typeFromStr tyStr with
    | .error _ => .error .missingType
    | .ok ty =>
      let (head, rest) := splitHead lhs
      let (fullName, explicitId) := splitId head
      let (ns, name) := splitName fullName
      if ns.any List.isEmpty || name.isEmpty then .error .missingName
      else
        match idFrom raw explicitId with
        | .error e => .error e
        | .ok id =>
          match readParams [] [] (words isWhitespace rest) with
          | .error e => .error e
          | .ok (params, typeDefs) =>
            .ok ⟨ns.map String.ofList, String.ofList name, id, params, markDeclared typeDefs ty, .types⟩

def fromStr (raw : List Char) : Except ParseError Definition :=
  let raw := trim raw
  if raw.isEmpty then .error .empty
  else
    match splitAtChar '=' raw with
    | none => .error .missingType
    | some (lhs, tyStr) => fromSides raw (trim lhs) (trim (trimEndMatches (· == ';') (trim tyStr)))

def paramRefs (p : Parameter) : List String :=
  match p.ty with
  | .flags => []
  | .normal ty _ => genericRefs ty

/-- `a < b` for texts; the order of the bytes is that of the characters. -/
def textLt (a b : String) : Bool := List.lex a.toList b.toList fun c d => c.toNat < d.toNat

/-- The generic parameters that are declared again, sorted and without repetition. -/
def declaredRefs (params : List Parameter) : List String :=
  ((params.flatMap paramRefs).insertionSort fun a b => textLt b a = false).destutter (· ≠ ·)

/-- `Display` of a definition. -/
def definitionText (d : Definition) : List Char :=
  d.ns.flatMap (fun part => part.toList ++ ['.']) ++ d.name.toList ++ '#' :: Nat.toDigits 16 d.id.toNat ++
    (declaredRefs d.params).flatMap (fun g => ' ' :: '{' :: g.toList ++ typeDefEnd) ++
    d.params.flatMap (fun p => ' ' :: parameterText p) ++ " = ".toList ++ typeText d.ty

example : tlId "boolFalse = Bool".toList = 0xbc799737 := by decide +kernel

end Ferogram.TlParser
