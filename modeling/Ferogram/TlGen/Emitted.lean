import Ferogram.Lib.PartialWriter
import Ferogram.TlGen.Codegen
import Ferogram.TlTypes.Codec

/- What the emitted code does.

   A Rust type stands for a shape: a primitive, a vector, a struct with the types its generic
   parameters stand for, or an enum. `serialize` writes a value by its shape, and `deserialize`
   reads one; both call each other through the statements of the impls, to a depth. What `rustc`
   does not accept in a body is `rejected` where that body is run: a variable that is no identifier,
   a name that is bound to nothing or to something of another type, and a shift by more bits than
   there are. -/
namespace Ferogram.TlGen
open Bytes TlTypes

/-- The flags field that guards a parameter, and the bit. -/
def Parameter.flag (p : Parameter) : Option Flag :=
  match p.ty with
  | .normal _ fl => fl
  | .flags => none

/-- The check of `Definition::from_str`: a flag names a flags field that came before. -/
def flagsDeclared : List String → List Parameter → Bool
  | _, [] => true
  | seen, p :: rest =>
    match p.ty with
    | .flags => flagsDeclared (p.name :: seen) rest
    | .normal _ none => flagsDeclared seen rest
    | .normal _ (some fl) => decide (fl.name ∈ seen) && flagsDeclared seen rest

/-- The types section of a schema, Rust's `char::is_numeric`, and the characters that an identifier
begins with and goes on with. -/
structure Schema where
  defs : List Definition
  isNumeric : Char → Bool
  isXidStart : Char → Bool
  isXidContinue : Char → Bool
  types_only : ∀ d ∈ defs, d.category = .types
  ids_distinct : defs.Pairwise fun d e => d.ty.ns = e.ty.ns → d.ty.name = e.ty.name → d.id ≠ e.id
  names_distinct : ∀ d ∈ defs, (d.params.map (·.name)).Nodup
  flags_declared : ∀ d ∈ defs, flagsDeclared [] d.params = true

/-- The keywords of the 2024 edition, the reserved ones too. -/
def keywords : List String :=
  ["abstract", "as", "async", "await", "become", "box", "break", "const", "continue", "crate", "do", "dyn", "else",
    "enum", "extern", "false", "final", "fn", "for", "gen", "if", "impl", "in", "let", "loop", "macro", "match", "mod",
    "move", "mut", "override", "priv", "pub", "ref", "return", "self", "Self", "static", "struct", "super", "trait",
    "true", "try", "type", "typeof", "unsafe", "unsized", "use", "virtual", "where", "while", "yield"]

section
variable (S : Schema)

def Schema.isWord : List Char → Bool
  | [] => false
  | c :: cs => (c == '_' && !cs.isEmpty || S.isXidStart c) && cs.all S.isXidContinue

/-- A variable, plain or raw. -/
def Schema.isIdent (name : String) : Bool :=
  match name.toList with
  | 'r' :: '#' :: cs => S.isWord cs && !(["crate", "self", "super", "Self"].contains (String.ofList cs))
  | cs => S.isWord cs && !keywords.contains name

end

inductive Value where
  | leaf (t : TlType) (x : t.Val)
  | vec (items : List Value)
  | rawVec (items : List Value)
  | option (x : Option Value)
  | struct (fields : List (String × Value))
  | variant (name : String) (payload : Option Value)

inductive Shape where
  | leaf (t : TlType)
  | vec (item : RustType)
  | rawVec (item : RustType)
  | struct (d : Definition) (generics : String → Option RustType)
  | enum (ty : Ty)

def leafType : Builtin → Option TlType
  | .bool => some .bool
  | .i32 => some .i32
  | .i64 => some .i64
  | .f64 => some .f64
  | .string => some .string
  | .bytes => some .bytes
  | .array16 => some .int128
  | .array32 => some .int256
  | .vec => none
  | .rawVec => none

/-- There is one level of modules. -/
def moduleKey : List String → Option (Option String)
  | [] => some none
  | [ns] => some (some ns)
  | _ => none

/-- A path names something if one item in the module has the name. -/
def theOnly {α : Type} : List α → Option α
  | [a] => some a
  | _ => none

def noGenerics : String → Option RustType := fun _ => none

section
variable (S : Schema)

def structAt (path : Path) : Option Definition :=
  (moduleKey path.ns).bind fun key =>
    theOnly ((groupByNs S.defs .types key).filter fun d => defTypeName d = path.name)

def enumAt (path : Path) : Option Ty :=
  (moduleKey path.ns).bind fun key =>
    theOnly ((groupTypesByNs S.defs key).filter fun ty => !isBuiltin ty.name && typeName ty = path.name)

/-- The shape of a type without generic parameters. -/
def resolve : RustType → Option Shape
  | .leaf (.builtin b) => (leafType b).map .leaf
  | .leaf (.types path) =>
    (structAt S path).bind fun d =>
      if genericList d = [] then some (.struct d noGenerics) else none
  | .leaf (.enums path) => (enumAt S path).map .enum
  | .app (.builtin .vec) item => some (.vec item)
  | .app (.builtin .rawVec) item => some (.rawVec item)
  | .app (.types path) arg =>
    (structAt S path).bind fun d =>
      match genericList d with
      | [x] => some (.struct d fun y => if y = x then some arg else none)
      | _ => none
  | _ => none

def RustType.subst (generics : String → Option RustType) : RustType → Option RustType
  | .leaf (.generic x) => generics x
  | .leaf head => some (.leaf head)
  | .app head arg => (arg.subst generics).map (.app head)

def shapeOf (generics : String → Option RustType) (ty : RustType) : Option Shape :=
  (ty.subst generics).bind (resolve S)

/-! Writing. -/

def runTest (fields : List (String × Value)) : Test → Option Bool
  | .isTrue attr =>
    match fields.lookup attr with
    | some (.leaf .bool b) => some b
    | _ => none
  | .isSome attr =>
    match fields.lookup attr with
    | some (.option x) => some x.isSome
    | _ => none

/-- `if test { 1 << index } else { 0 }`. -/
def runTerm (fields : List (String × Value)) (t : Term) : Option Nat :=
  if t.index < 32 then (runTest fields t.test).map fun b => if b then 1 <<< t.index else 0
  else none

def runTerms (fields : List (String × Value)) : List Term → Option Nat
  | [] => some 0
  | t :: rest => (runTerm fields t).bind fun b => (runTerms fields rest).map (b ||| ·)

section
variable (serialize : Shape → Value → Option (List UInt8))

/-- The literals of a flags word are `i32`s; their bytes are those of the `u32`. -/
def runSer (generics : String → Option RustType) (fields : List (String × Value)) :
    SerStmt → Option (List UInt8)
  | .constructorId id => some (ofU32 id)
  | .zero => some (ofU32 0)
  | .word terms => (runTerms fields terms).map fun w => ofU32 (UInt32.ofNat w)
  | .ifSome attr ty =>
    match fields.lookup attr, shapeOf S generics ty with
    | some (.option none), some _ => some []
    | some (.option (some x)), some sh => serialize sh x
    | _, _ => none
  | .field attr ty =>
    match fields.lookup attr, shapeOf S generics ty with
    | some x, some sh => serialize sh x
    | _, _ => none

def serializeItems (item : RustType) (items : List Value) : Option (List UInt8) :=
  (resolve S item).bind fun sh =>
    (PartialWriter.writeAll (serialize sh) items).map fun b =>
      ofI32 (Int32.ofNat items.length) ++ b

def serializeStruct (d : Definition) (generics : String → Option RustType)
    (fields : List (String × Value)) : Option (List UInt8) :=
  PartialWriter.writeAll (runSer S serialize generics fields) (writeStructSerializable d)

/-- The arm of a variant writes the id of the constructor, and then the payload if there is one. -/
def serializeArm (arm : Arm) (payload : Option Value) : Option (List UInt8) :=
  match resolve S (.leaf (.types arm.qual)) with
  | some (.struct d generics) =>
    match arm.payload, payload with
    | false, none => some (ofU32 d.id)
    | true, some x => (serialize (.struct d generics) x).map (ofU32 d.id ++ ·)
    | _, _ => none
  | _ => none

def serializeWith : Shape → Value → Option (List UInt8)
  | .leaf t, .leaf u x => if u = t then some (TlTypes.serialize u x) else none
  | .vec item, .vec items => (serializeItems S serialize item items).map (ofU32 idVector ++ ·)
  | .rawVec item, .rawVec items => serializeItems S serialize item items
  | .struct d generics, .struct fields => serializeStruct S serialize d generics fields
  | .enum ty, .variant name payload =>
    ((writeEnumSerializable S.isNumeric S.defs ty).find? fun arm => arm.variant = name).bind fun arm =>
      serializeArm S serialize arm payload
  | _, _ => none

end

def serialize : Nat → Shape → Value → Option (List UInt8)
  | 0 => fun _ _ => none
  | depth + 1 => serializeWith S (serialize depth)

end

/-! Reading. -/

inductive Failure where
  | tl (e : TlTypes.Error)
  | rejected
  | depth
  deriving DecidableEq, Repr

def ofTl {α : Type} (p : Reader TlTypes.Error α) : Reader Failure α :=
  ⟨fun b =>
    match p.run b with
    | .ok r => .ok r
    | .error e => .error (.tl e)⟩

/-- What a variable of a body holds: a flags word, a field, or an optional field. -/
inductive Bound where
  | word (w : UInt32)
  | field (ty : RustType) (v : Value)
  | flagged (v : Value)

/-- The value, where a field is wanted. -/
def Bound.value? : Bound → Option Value
  | .word _ => none
  | .field _ v => some v
  | .flagged v => some v

/-- `(w & (1 << index)) != 0`. -/
def bitSet (w index : Nat) : Bool := (w &&& 1 <<< index) != 0

/-- The test of a bit is typed by the variable, which may be an `i32` or an `i64` too. -/
def Bound.bit : Bound → Nat → Option Bool
  | .word w, index => if index < 32 then some (bitSet w.toNat index) else none
  | .field (.leaf (.builtin .i32)) (.leaf .i32 x), index =>
    if index < 32 then some (bitSet (Int32.toUInt32 x).toNat index) else none
  | .field (.leaf (.builtin .i64)) (.leaf .i64 x), index =>
    if index < 64 then some (bitSet (Int64.toUInt64 x).toNat index) else none
  | _, _ => none

/-- The variables in scope, the last one bound in front. -/
abbrev Scope := List (String × Bound)

def testBit (scope : Scope) (var : String) (index : Nat) : Option Bool :=
  (scope.lookup var).bind fun b => b.bit index

section
variable (S : Schema) (deserialize : Shape → Reader Failure Value)

def readShape (sh : Option Shape) : Reader Failure Value :=
  match sh with
  | some sh => deserialize sh
  | none => Reader.fail .rejected

def runLet (generics : String → Option RustType) (scope : Scope) :
    DeStmt → Reader Failure (String × Bound)
  | .flags var => do
    let w ← ofTl readU32
    pure (var, .word w)
  | .bit attr var index =>
    match testBit scope var index with
    | some b => pure (attr, .flagged (.leaf .bool b))
    | none => Reader.fail .rejected
  | .option attr var index ty =>
    match testBit scope var index with
    | some true => do
      let v ← readShape deserialize (shapeOf S generics ty)
      pure (attr, .flagged (.option (some v)))
    | some false => pure (attr, .flagged (.option none))
    | none => Reader.fail .rejected
  | .field attr ty => do
    let v ← readShape deserialize (shapeOf S generics ty)
    pure (attr, .field ty v)

/-- The `let`s in turn, each of an identifier. A variable named `buf` hides the cursor from the `tl_debug`
line behind. -/
def runLets (generics : String → Option RustType) : Scope → List DeStmt → Reader Failure Scope
  | scope, [] => pure scope
  | scope, s :: rest => do
    let bound ← runLet S deserialize generics scope s
    if bound.1 = "buf" ∨ S.isIdent bound.1 = false then Reader.fail .rejected
    else runLets generics (bound :: scope) rest

/-- `Ok(Self { .. })`. -/
def pickFields (scope : Scope) : List String → Option (List (String × Value))
  | [] => some []
  | attr :: rest =>
    ((scope.lookup attr).bind Bound.value?).bind fun v =>
      (pickFields scope rest).map ((attr, v) :: ·)

def deserializeStruct (d : Definition) (generics : String → Option RustType) : Reader Failure Value := do
  let scope ← runLets S deserialize generics [] (writeStructDeserializable d).body
  match pickFields scope (writeStructDeserializable d).self with
  | some fields => pure (.struct fields)
  | none => Reader.fail .rejected

def deserializeItems (item : RustType) : Reader Failure (List Value) := do
  let len ← ofTl readI32
  Reader.many (readShape deserialize (resolve S item)) (asUsize len)

/-- `qual::CONSTRUCTOR_ID`. -/
def armId (arm : Arm) : Option UInt32 := (structAt S arm.qual).map (·.id)

def deserializeArm (arm : Arm) : Reader Failure Value :=
  if arm.payload then do
    let x ← readShape deserialize (resolve S (.leaf (.types arm.qual)))
    pure (.variant arm.variant (some x))
  else pure (.variant arm.variant none)

def deserializeEnum (ty : Ty) : Reader Failure Value := do
  let id ← ofTl readU32
  match (writeEnumDeserializable S.isNumeric S.defs ty).find? fun arm => armId S arm = some id with
  | some arm => deserializeArm S deserialize arm
  | none => Reader.fail (.tl (.unexpectedConstructor id))

def deserializeWith : Shape → Reader Failure Value
  | .leaf t => do
    let x ← ofTl (TlTypes.deserialize t)
    pure (.leaf t x)
  | .vec item => do
    let id ← ofTl readU32
    if id ≠ idVector then Reader.fail (.tl (.unexpectedConstructor id))
    else do
      let items ← deserializeItems S deserialize item
      pure (.vec items)
  | .rawVec item => do
    let items ← deserializeItems S deserialize item
    pure (.rawVec items)
  | .struct d generics => deserializeStruct S deserialize d generics
  | .enum ty => deserializeEnum S deserialize ty

end

def deserialize (S : Schema) : Nat → Shape → Reader Failure Value
  | 0 => fun _ => Reader.fail .depth
  | depth + 1 => deserializeWith S (deserialize S depth)

end Ferogram.TlGen
