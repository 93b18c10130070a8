import Mathlib.Init

/- The TL code generator (`ferogram-tl-gen`): the Rust that is written for a definition.

   A definition is what `ferogram-tl-parser` made of a line of the schema. The generator writes
   text; here the text of one impl is the list of its statements, and a Rust type is the path that
   `type_path` writes, with and without the turbofish alike. The printing that `tl_debug` turns on
   is left out, and so is `Box`, which a recursive payload is wrapped in on both sides. -/
namespace Ferogram.TlGen

/-! Definitions. -/

inductive Category where
  | types
  | functions
  deriving DecidableEq, Repr

/-- The flags field and the bit that guard an optional parameter. -/
structure Flag where
  name : String
  index : Nat
  deriving DecidableEq, Repr

/-- The source's `Type`. `bare` says that the name starts with a lower-case letter. -/
structure Ty where
  ns : List String
  name : String
  bare : Bool
  genericRef : Bool
  genericArg : Option Ty
  deriving Repr

inductive ParameterType where
  | flags
  | normal (ty : Ty) (flag : Option Flag)
  deriving Repr

structure Parameter where
  name : String
  ty : ParameterType
  deriving Repr

structure Definition where
  ns : List String
  name : String
  id : UInt32
  params : List Parameter
  ty : Ty
  category : Category
  deriving Repr

/-! Names. -/

/-- The Rust types that TL primitives become. `vec` and `rawVec` still want an item type. -/
inductive Builtin where
  | bool
  | i32
  | i64
  | f64
  | string
  | bytes
  | array16
  | array32
  | vec
  | rawVec
  deriving DecidableEq, Repr

def builtinType (name : String) : Option Builtin :=
  if name = "Bool" then some .bool
  else if name = "true" then some .bool
  else if name = "int" then some .i32
  else if name = "long" then some .i64
  else if name = "double" then some .f64
  else if name = "string" then some .string
  else if name = "bytes" then some .bytes
  else if name = "int128" then some .array16
  else if name = "int256" then some .array32
  else if name = "Vector" then some .vec
  else if name = "vector" then some .rawVec
  else none

/-- No enum is written for these. -/
def isBuiltin (tyName : String) : Bool := tyName = "Bool" || tyName = "True"

/-- The loop of `to_pascal`, with its `next_upper` and `prev_upper`. -/
def pascal : Bool → Bool → List Char → List Char
  | _, _, [] => []
  | nextUpper, prevUpper, ch :: rest =>
    if ch = '_' then pascal true false rest
    else if nextUpper then ch.toUpper :: pascal false ch.isUpper rest
    else if ch.isUpper then
      -- the rest of a run of capitals is lowered
      (if prevUpper then ch.toLower else ch) :: pascal false true rest
    else ch :: pascal false false rest

def toPascal (name : String) : String :=
  let last := (name.toList.reverse.takeWhile (fun ch => ch != '.')).reverse
  String.ofList (pascal true false last)

example : toPascal "some_OK_name" = "SomeOkName" := by decide

def defTypeName (d : Definition) : String := toPascal d.name

/-- A path below `crate::types` or below `crate::enums`. -/
structure Path where
  ns : List String
  name : String
  deriving DecidableEq, Repr

def defQualName (d : Definition) : Path := ⟨d.ns, defTypeName d⟩

def typeName (ty : Ty) : String := toPascal ty.name

/-- Where the last capital is, and 0 if there is none. -/
def lastUpper (name : List Char) : Nat :=
  match name.reverse.findIdx? Char.isUpper with
  | some fromEnd => name.length - 1 - fromEnd
  | none => 0

/-- The name of the type is cut off, unless too little remains. `isNumeric` is Rust's own. -/
@[irreducible] def defVariantName (isNumeric : Char → Bool) (d : Definition) : String :=
  let full := (defTypeName d).toList
  let ty := (typeName d.ty).toList
  let variant := if ty.isPrefixOf full then full.drop ty.length else full
  if String.ofList variant = "Self" then
    String.ofList (full.drop (lastUpper (full.take (full.length - variant.length))))
  else if !variant.isEmpty && variant.all isNumeric then String.ofList (full.drop (lastUpper full))
  else if variant.isEmpty then String.ofList full
  else String.ofList variant

inductive Head where
  | generic (name : String)
  | builtin (b : Builtin)
  | types (path : Path)
  | enums (path : Path)
  deriving DecidableEq, Repr

/-- A type as it is written: a head, and perhaps one argument behind it. -/
inductive RustType where
  | leaf (head : Head)
  | app (head : Head) (arg : RustType)
  deriving DecidableEq, Repr

/-- A bare type is the struct of a constructor, a boxed one the enum. -/
def typeHead (ns : List String) (name : String) (bare : Bool) : Head :=
  match builtinType name with
  | some b => .builtin b
  | none => if bare then .types ⟨ns, toPascal name⟩ else .enums ⟨ns, toPascal name⟩

def typePath : Ty → RustType
  | ⟨_, name, _, true, _⟩ => .leaf (.generic name)
  | ⟨ns, name, bare, false, none⟩ => .leaf (typeHead ns name bare)
  | ⟨ns, name, bare, false, some arg⟩ => .app (typeHead ns name bare) (typePath arg)

def paramAttrName (p : Parameter) : String :=
  if p.name = "final" then "r#final"
  else if p.name = "loop" then "r#loop"
  else if p.name = "self" then "is_self"
  else if p.name = "static" then "r#static"
  else if p.name = "type" then "r#type"
  else String.ofList (p.name.toList.map Char.toLower)

inductive FieldType where
  | word
  | bool
  | plain (ty : RustType)
  | option (ty : RustType)
  deriving DecidableEq, Repr

def paramQualName (p : Parameter) : FieldType :=
  match p.ty with
  | .flags => .word
  | .normal ty none => .plain (typePath ty)
  | .normal ty (some _) => if ty.name = "true" then .bool else .option (typePath ty)

/-! Metadata. -/

/-- The constructors of a type, in the order of the schema. -/
def defsForType (defs : List Definition) (ty : Ty) : List Definition :=
  defs.filter fun d => d.category = .types && (d.ty.ns = ty.ns && d.ty.name = ty.name)

/-- The parameter is optional, and guarded by a bit of the flags field. -/
def Parameter.guardedBy (p : Parameter) (flags : String) : Bool :=
  match p.ty with
  | .normal _ (some fl) => fl.name = flags
  | _ => false

/-- The flags field is found by its address in the source, so it is one of this definition. -/
def isUnusedFlag (d : Definition) (param : Parameter) : Bool :=
  !d.params.any fun p => p.guardedBy param.name

/-! Modules. -/

/-- The definitions of a module, in any order: the source sorts them. -/
def groupByNs (defs : List Definition) (category : Category) (key : Option String) : List Definition :=
  defs.filter fun d => d.category = category && d.ns.head? = key

/-- The types that get an enum in a module. The module is that of the constructor, and of
several types of one name there the first gets it. -/
def groupTypesByNs (defs : List Definition) (key : Option String) : List Ty :=
  (((groupByNs defs .types key).filter fun d => !d.ty.genericRef).map (·.ty)).eraseDupsBy
    fun t u => t.name == u.name

/-! Structs. -/

def genericList (d : Definition) : List String :=
  (d.params.filterMap fun p =>
    match p.ty with
    | .normal ty _ => if ty.genericRef then some ty.name else none
    | .flags => none).eraseDups

/-- Flags are computed and not stored. -/
def Parameter.isField (p : Parameter) : Bool :=
  match p.ty with
  | .flags => false
  | .normal _ _ => true

/-- The parameters that `write_struct` declares as fields. -/
def structFields (d : Definition) : List Parameter := d.params.filter Parameter.isField

structure StructItem where
  generics : List String
  fields : List (String × FieldType)

def writeStruct (d : Definition) : StructItem where
  generics := genericList d
  fields := (structFields d).map fun p => (paramAttrName p, paramQualName p)

/-- `self.attr` or `self.attr.is_some()`. -/
inductive Test where
  | isTrue (attr : String)
  | isSome (attr : String)
  deriving DecidableEq, Repr

/-- One alternative of a flags word: `if test { 1 << index } else { 0 }`. -/
structure Term where
  test : Test
  index : Nat
  deriving DecidableEq, Repr

/-- A statement of `serialize`. The type is that of the field, which picks the method. -/
inductive SerStmt where
  | constructorId (id : UInt32)
  | zero
  | word (terms : List Term)
  | ifSome (attr : String) (ty : RustType)
  | field (attr : String) (ty : RustType)
  deriving DecidableEq, Repr

def flagTerms (d : Definition) (flags : String) : List Term :=
  d.params.filterMap fun other =>
    match other.ty with
    | .normal ty (some fl) =>
      if fl.name ≠ flags then none
      else if ty.name = "true" then some ⟨.isTrue (paramAttrName other), fl.index⟩
      else some ⟨.isSome (paramAttrName other), fl.index⟩
    | _ => none

def writeParamSerialization (d : Definition) (param : Parameter) : List SerStmt :=
  match param.ty with
  | .flags => if isUnusedFlag d param then [.zero] else [.word (flagTerms d param.name)]
  | .normal ty (some _) =>
    -- a `true` is in the flags word and nowhere else
    if ty.name = "true" then [] else [.ifSome (paramAttrName param) (typePath ty)]
  | .normal ty none => [.field (paramAttrName param) (typePath ty)]

def writeStructSerializable (d : Definition) : List SerStmt :=
  (if d.category = .functions then [.constructorId d.id] else []) ++
    d.params.flatMap (writeParamSerialization d)

/-- A `let` of `deserialize`: a flags word, a bit of one, an optional value, a value. -/
inductive DeStmt where
  | flags (var : String)
  | bit (attr var : String) (index : Nat)
  | option (attr var : String) (index : Nat) (ty : RustType)
  | field (attr : String) (ty : RustType)
  deriving DecidableEq, Repr

/-- A flags word is bound under the name of the attribute, and tested under the schema's own. -/
def writeParamDeserialization (param : Parameter) : DeStmt :=
  match param.ty with
  | .flags => .flags ("_" ++ paramAttrName param)
  | .normal ty (some fl) =>
    if ty.name = "true" then .bit (paramAttrName param) ("_" ++ fl.name) fl.index
    else .option (paramAttrName param) ("_" ++ fl.name) fl.index (typePath ty)
  | .normal ty none => .field (paramAttrName param) (typePath ty)

/-- The `let`s, and the variables that `Ok(Self { .. })` picks up by the names of the fields. -/
structure Deserializer where
  body : List DeStmt
  self : List String

def writeStructDeserializable (d : Definition) : Deserializer where
  body := d.params.map writeParamDeserialization
  self := (structFields d).map paramAttrName

/-! Enums. -/

/-- An arm of either `match`: the constructor, its variant, and whether it has a payload. -/
structure Arm where
  qual : Path
  variant : String
  payload : Bool
  deriving DecidableEq, Repr

section
variable (isNumeric : Char → Bool) (defs : List Definition)

/-- The variants, each with the path of its payload. -/
def writeEnum (ty : Ty) : List (String × Option Path) :=
  (defsForType defs ty).map fun d =>
    (defVariantName isNumeric d, if d.params.isEmpty then none else some (defQualName d))

def writeEnumSerializable (ty : Ty) : List Arm :=
  (defsForType defs ty).map fun d => ⟨defQualName d, defVariantName isNumeric d, !d.params.isEmpty⟩

def writeEnumDeserializable (ty : Ty) : List Arm :=
  (defsForType defs ty).map fun d =>
    if d.params.isEmpty then ⟨defQualName d, defVariantName isNumeric d, false⟩
    else ⟨defQualName d, defVariantName isNumeric d, true⟩

end

end Ferogram.TlGen
