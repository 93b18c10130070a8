import Ferogram.Lib.FirstMatch
import Ferogram.TlGen.Scopes
import Mathlib.Data.List.Nodup

/- Generated code reads back what it wrote, where every flag is read from the word that its name
   means (`IsValue.gives`).

   By induction on the value. For a struct it is an induction on the parameters: the reader's scope
   behind some of them is the list of the bindings they are meant to have, and each parameter's bytes
   become its binding (`param_gives`). For an enum the variants and the ids both pick the arm of the
   constructor. -/
namespace Ferogram.TlGen
open Bytes TlTypes PartialWriter Reader

/-! Readers of primitives. -/

section
variable {α : Type} {p : Reader TlTypes.Error α} {b rest : List UInt8} {x : α}

theorem ofTl_of_ok (h : p.run b = .ok (x, rest)) : (ofTl p).run b = .ok (x, rest) := by
  simp only [ofTl, h]

end

theorem ofTl_readU32 (x : UInt32) (rest : List UInt8) :
    (ofTl readU32).run (ofU32 x ++ rest) = .ok (x, rest) :=
  ofTl_of_ok ((reads_u32 x).full rest)

theorem ofTl_readI32 (x : Int32) (rest : List UInt8) :
    (ofTl readI32).run (ofI32 x ++ rest) = .ok (x, rest) :=
  ofTl_of_ok ((reads_i32 x).full rest)

/-- What a reader of a known word returned, and what it left. -/
theorem readU32_ok {x y : UInt32} {rest rest' : List UInt8}
    (h : (ofTl readU32).run (ofU32 x ++ rest) = .ok (y, rest')) : y = x ∧ rest' = rest := by
  rw [ofTl_readU32] at h
  cases h
  exact ⟨rfl, rfl⟩

/-! Depth. -/

section
variable {S : Schema} {ser ser' : Shape → Value → Option (List UInt8)}

theorem runSer_mono (hser : ∀ sh v b, ser sh v = some b → ser' sh v = some b)
    {generics : String → Option RustType} {fields : List (String × Value)} (s : SerStmt) (b : List UInt8)
    (h : runSer S ser generics fields s = some b) : runSer S ser' generics fields s = some b := by
  cases s with
  | constructorId id => exact h
  | zero => exact h
  | word terms => exact h
  | ifSome attr ty =>
    simp only [runSer] at h ⊢
    split at h
    · exact h
    · exact hser _ _ _ h
    · cases h
  | field attr ty =>
    simp only [runSer] at h ⊢
    split at h
    · exact hser _ _ _ h
    · cases h

theorem serializeItems_mono (hser : ∀ sh v b, ser sh v = some b → ser' sh v = some b) {item : RustType}
    {items : List Value} {b : List UInt8} (h : serializeItems S ser item items = some b) :
    serializeItems S ser' item items = some b := by
  obtain ⟨sh, hsh, h⟩ := Option.bind_eq_some_iff.mp h
  obtain ⟨c, hc, rfl⟩ := Option.map_eq_some_iff.mp h
  rw [serializeItems, hsh, Option.bind_some, writeAll_mono (hser sh) hc]
  rfl

theorem serializeArm_mono (hser : ∀ sh v b, ser sh v = some b → ser' sh v = some b) {arm : Arm}
    {payload : Option Value} {b : List UInt8} (h : serializeArm S ser arm payload = some b) :
    serializeArm S ser' arm payload = some b := by
  simp only [serializeArm] at h ⊢
  split at h
  · split at h
    · exact h
    · obtain ⟨c, hc, rfl⟩ := Option.map_eq_some_iff.mp h
      rw [hser _ _ _ hc]
      rfl
    · cases h
  · cases h

theorem serializeWith_mono (hser : ∀ sh v b, ser sh v = some b → ser' sh v = some b) (sh : Shape) (v : Value)
    (b : List UInt8) (h : serializeWith S ser sh v = some b) : serializeWith S ser' sh v = some b := by
  simp only [serializeWith] at h ⊢
  split at h
  · exact h
  · obtain ⟨c, hc, rfl⟩ := Option.map_eq_some_iff.mp h
    rw [serializeItems_mono hser hc]
    rfl
  · exact serializeItems_mono hser h
  · exact writeAll_mono (runSer_mono hser) h
  · obtain ⟨arm, harm, h⟩ := Option.bind_eq_some_iff.mp h
    rw [harm]
    exact serializeArm_mono hser h
  · cases h

end

theorem serialize_succ {S : Schema} {n : Nat} (sh : Shape) (v : Value) (b : List UInt8)
    (h : serialize S n sh v = some b) : serialize S (n + 1) sh v = some b := by
  induction n generalizing sh v b with
  | zero => cases h
  | succ n ih => exact serializeWith_mono ih sh v b h

/-- What is written at one depth is written at every greater one. -/
theorem serialize_mono {S : Schema} {n m : Nat} (h : n ≤ m) {sh : Shape} {v : Value} {b : List UInt8}
    (hb : serialize S n sh v = some b) : serialize S m sh v = some b := by
  induction h with
  | refl => exact hb
  | step _ ih => exact serialize_succ sh v b ih

/-! Written and read back. -/

/-- The value is written, and read back with what is behind it left over. -/
def Gives (ser : Shape → Value → Option (List UInt8)) (de : Shape → Reader Failure Value) (sh : Shape)
    (x : Value) : Prop :=
  ∃ b, ser sh x = some b ∧ ∀ rest, (de sh).run (b ++ rest) = .ok (x, rest)

section
variable {S : Schema} {ser : Shape → Value → Option (List UInt8)} {de : Shape → Reader Failure Value}

theorem items_give {item : RustType} {sh : Shape} {items : List Value} (hshape : resolve S item = some sh)
    (hcount : CountReads items.length) (h : ∀ x ∈ items, Gives ser de sh x) :
    ∃ b, serializeItems S ser item items = some b ∧
      ∀ rest, (deserializeItems S de item).run (b ++ rest) = .ok (items, rest) := by
  obtain ⟨b, hb, hread⟩ := many_of_writes (p := de sh) h
  refine ⟨ofI32 (Int32.ofNat items.length) ++ b, ?_, fun rest => ?_⟩
  · rw [serializeItems, hshape, Option.bind_some, hb]
    rfl
  · rw [deserializeItems, List.append_assoc, bind_of_ok (ofTl_readI32 _ _), hcount, hshape]
    exact hread rest

section
variable {d : Definition} {generics : String → Option RustType} {fields : List (String × Value)}

/-- The parts of a struct. -/
def PartsGive (S : Schema) (ser : Shape → Value → Option (List UInt8)) (de : Shape → Reader Failure Value)
    (d : Definition) (generics : String → Option RustType) (fields : List (String × Value)) : Prop :=
  ∀ f ∈ (writeStruct d).fields, ∀ v ty x sh, fields.lookup f.1 = some v →
    part f.2 v = some (ty, x) → shapeOf S generics ty = some sh → Gives ser de sh x

/-- What is written for a flags field is its word, used or not. -/
theorem flags_write (hok : StructOk S d generics fields)
    (hbits : LowBits d) {p : Parameter} (hty : p.ty = .flags) :
    writeAll (runSer S ser generics fields) (writeParamSerialization d p) =
      some (ofU32 (flagsWord d fields p.name)) := by
  obtain ⟨w, hw⟩ := hok.flagsWord hbits p.name
  have hword : flagsWord d fields p.name = UInt32.ofNat w := by
    rw [flagsWord, hw, Option.getD_some]
  unfold writeParamSerialization
  simp only [hty]
  by_cases hunused : isUnusedFlag d p = true
  · rw [flagTerms_of_unused hunused] at hw
    cases hw
    have hser : runSer S ser generics fields .zero = some (ofU32 (UInt32.ofNat 0)) := rfl
    rw [if_pos hunused, hword, writeAll_cons_some hser rfl, List.append_nil]
  · have hser : runSer S ser generics fields (.word (flagTerms d p.name)) = some (ofU32 (UInt32.ofNat w)) := by
      rw [runSer, hw, Option.map_some]
    rw [if_neg hunused, hword, writeAll_cons_some hser rfl, List.append_nil]

/-- The bytes of a parameter become its variable. -/
def ParamGives (S : Schema) (ser : Shape → Value → Option (List UInt8)) (de : Shape → Reader Failure Value)
    (d : Definition) (generics : String → Option RustType) (fields : List (String × Value)) (scope : Scope)
    (p : Parameter) : Prop :=
  ∃ b, writeAll (runSer S ser generics fields) (writeParamSerialization d p) = some b ∧
    ∀ rest, (runLet S de generics scope (writeParamDeserialization p)).run (b ++ rest) =
      .ok (bindingOf d fields p, rest)

section
variable {p : Parameter} {scope : Scope} {ty : Ty} {fl : Flag}

theorem flags_give (hok : StructOk S d generics fields)
    (hbits : LowBits d) (hty : p.ty = .flags) :
    ParamGives S ser de d generics fields scope p := by
  refine ⟨_, flags_write hok hbits hty, fun rest => ?_⟩
  simp only [writeParamDeserialization, bindingOf, hty, runLet]
  rw [bind_of_ok (ofTl_readU32 _ _)]
  rfl

theorem plain_gives (hok : StructOk S d generics fields) (hparts : PartsGive S ser de d generics fields)
    (hp : p ∈ d.params) (hty : p.ty = .normal ty none) : ParamGives S ser de d generics fields scope p := by
  have hne := ne_flags_of_normal hty
  have hvalue := (hok.value hp hne).1
  have hpart : part (paramQualName p) (fieldValue fields p) = some (typePath ty, fieldValue fields p) := by
    rw [paramQualName, hty]
    rfl
  obtain ⟨sh, hsh⟩ := hok.plain hp hty
  obtain ⟨b, hb, hread⟩ := hparts _ (mem_writeStruct hp hne) _ _ _ _ hvalue hpart hsh
  refine ⟨b ++ [], ?_, fun rest => ?_⟩
  · simp only [writeParamSerialization, hty]
    refine writeAll_cons_some ?_ rfl
    simp only [runSer, hvalue, hsh]
    exact hb
  · simp only [writeParamDeserialization, bindingOf, hty, runLet, hsh, readShape, List.append_nil]
    rw [bind_of_ok (hread rest)]
    rfl

/-- A `true` has no bytes of its own. -/
theorem true_gives (hok : StructOk S d generics fields) (hp : p ∈ d.params)
    (hty : p.ty = .normal ty (some fl)) (htrue : ty.name = "true")
    (hbit : testBit scope ("_" ++ fl.name) fl.index = some (present fields p)) :
    ParamGives S ser de d generics fields scope p := by
  obtain ⟨-, hval⟩ := hok.isTrue hp hty htrue
  refine ⟨[], ?_, fun rest => ?_⟩
  · simp only [writeParamSerialization, hty, htrue, if_true, writeAll_nil]
  · simp only [writeParamDeserialization, bindingOf, hty, htrue, if_true, runLet, hbit, hval]
    rfl

theorem option_gives (hok : StructOk S d generics fields) (hparts : PartsGive S ser de d generics fields)
    (hp : p ∈ d.params) (hty : p.ty = .normal ty (some fl)) (htrue : ty.name ≠ "true")
    (hbit : testBit scope ("_" ++ fl.name) fl.index = some (present fields p)) :
    ParamGives S ser de d generics fields scope p := by
  have hne := ne_flags_of_normal hty
  have hvalue := (hok.value hp hne).1
  obtain ⟨-, ⟨sh, hsh⟩, x, hval, hpresent⟩ := hok.isSome hp hty htrue
  rw [hval] at hvalue
  cases x with
  | none =>
    rw [hpresent, Option.isSome_none] at hbit
    refine ⟨[] ++ [], ?_, fun rest => ?_⟩
    · simp only [writeParamSerialization, hty, htrue, if_false]
      refine writeAll_cons_some ?_ rfl
      simp only [runSer, hvalue, hsh]
    · simp only [writeParamDeserialization, bindingOf, hty, htrue, if_false, runLet, hbit, hval]
      rfl
  | some x =>
    rw [hpresent, Option.isSome_some] at hbit
    have hpart : part (paramQualName p) (.option (some x)) = some (typePath ty, x) := by
      simp only [paramQualName, hty, htrue, if_false]
      rfl
    obtain ⟨b, hb, hread⟩ := hparts _ (mem_writeStruct hp hne) _ _ _ _ hvalue hpart hsh
    refine ⟨b ++ [], ?_, fun rest => ?_⟩
    · simp only [writeParamSerialization, hty, htrue, if_false]
      refine writeAll_cons_some ?_ rfl
      simp only [runSer, hvalue, hsh]
      exact hb
    · simp only [writeParamDeserialization, bindingOf, hty, htrue, if_false, runLet, hbit, hval, hsh,
        readShape, List.append_nil]
      rw [bind_of_ok (hread rest)]
      rfl

/-- One parameter, where its flag is read from the right word. -/
theorem param_gives (hok : StructOk S d generics fields)
    (hbits : LowBits d) (hparts : PartsGive S ser de d generics fields)
    (hp : p ∈ d.params)
    (htest : ∀ fl, p.flag = some fl → testBit scope ("_" ++ fl.name) fl.index = some (present fields p)) :
    ParamGives S ser de d generics fields scope p := by
  cases hty : p.ty with
  | flags => exact flags_give hok hbits hty
  | normal ty flag =>
    cases flag with
    | none => exact plain_gives hok hparts hp hty
    | some fl =>
      have hbit := htest fl (by rw [Parameter.flag, hty])
      by_cases htrue : ty.name = "true"
      · exact true_gives hok hp hty htrue hbit
      · exact option_gives hok hparts hp hty htrue hbit

end

theorem varName_flags {p : Parameter} (hty : p.ty = .flags) : varName p = "_" ++ paramAttrName p := by
  rw [varName, hty]

theorem varName_field {p : Parameter} (hty : p.ty ≠ .flags) : varName p = paramAttrName p := by
  unfold varName
  cases h : p.ty with
  | flags => exact absurd h hty
  | normal ty flag => rfl

theorem bindingOf_fst (p : Parameter) : (bindingOf d fields p).1 = varName p := by
  unfold bindingOf varName
  split
  · next h => rw [h]
  · next h => rw [h]
  · next h => rw [h]

theorem bindingOf_value {p : Parameter} (hty : p.ty ≠ .flags) :
    (bindingOf d fields p).2.value? = some (fieldValue fields p) := by
  unfold bindingOf
  split
  · next h => exact absurd h hty
  · rfl
  · rfl

/-- The name of a flags word is never that of the cursor. -/
theorem flags_ne_buf (name : String) : "_" ++ name ≠ "buf" := by
  intro h
  have hlist := congrArg String.toList h
  rw [String.toList_append] at hlist
  cases hlist

theorem varName_ne_buf {p : Parameter} (h : p.ty ≠ .flags → paramAttrName p ≠ "buf") :
    varName p ≠ "buf" := by
  by_cases hty : p.ty = .flags
  · rw [varName_flags hty]
    exact flags_ne_buf _
  · rw [varName_field hty]
    exact h hty

/-- The scope behind the parameters `ps`. -/
def scopeAfter (d : Definition) (fields : List (String × Value)) (scope : Scope) (ps : List Parameter) :
    Scope :=
  (ps.map (bindingOf d fields)).reverse ++ scope

theorem scopeAfter_cons (scope : Scope) (p : Parameter) (ps : List Parameter) :
    scopeAfter d fields scope (p :: ps) = scopeAfter d fields (bindingOf d fields p :: scope) ps := by
  simp [scopeAfter]

/-- All parameters from some point on. -/
theorem params_give (hok : StructOk S d generics fields)
    (hbits : LowBits d) (hparts : PartsGive S ser de d generics fields)
    {ps : List Parameter} (hps : ∀ p ∈ ps, p ∈ d.params) {scope : Scope}
    (haligned : Aligned S d fields scope ps) :
    ∃ b, writeAll (runSer S ser generics fields) (ps.flatMap (writeParamSerialization d)) = some b ∧
      ∀ rest, (runLets S de generics scope (ps.map writeParamDeserialization)).run (b ++ rest) =
        .ok (scopeAfter d fields scope ps, rest) := by
  induction ps generalizing scope with
  | nil => exact ⟨[], rfl, fun rest => rfl⟩
  | cons p ps ih =>
    obtain ⟨hreads, haligned⟩ := haligned
    obtain ⟨b, hb, hlet⟩ := param_gives hok hbits hparts (hps p List.mem_cons_self) hreads.test
    obtain ⟨c, hc, hlets⟩ := ih (fun q hq => hps q (List.mem_cons_of_mem p hq)) haligned
    refine ⟨b ++ c, writeAll_append_some hb hc, fun rest => ?_⟩
    have hcursor : ¬((bindingOf d fields p).1 = "buf" ∨ S.isIdent (bindingOf d fields p).1 = false) := by
      rw [bindingOf_fst, hreads.ident]
      exact not_or_intro (varName_ne_buf hreads.cursor) Bool.noConfusion
    rw [List.map_cons, runLets, List.append_assoc, bind_of_ok (hlet _), if_neg hcursor, hlets rest,
      scopeAfter_cons]

/-- A field is found in the scope at the end, if nothing behind it takes its name. -/
theorem lookup_scopeAfter {a : String} {ps : List Parameter} (scope : Scope)
    (h : ∀ q ∈ ps, varName q ≠ a) :
    (scopeAfter d fields scope ps).lookup a = scope.lookup a := by
  have hnone : ((ps.map (bindingOf d fields)).reverse).lookup a = none := by
    rw [List.lookup_eq_none_iff]
    intro b hb
    obtain ⟨q, hq, rfl⟩ := List.mem_map.mp (List.mem_reverse.mp hb)
    rw [bindingOf_fst]
    exact bne_iff_ne.mpr (Ne.symm (h q hq))
  rw [scopeAfter, List.lookup_append, hnone, Option.none_or]

/-- No two fields have one name. -/
def AttrsApart (ps : List Parameter) : Prop :=
  ps.Pairwise fun p q => p.isField = true → q.isField = true → paramAttrName p ≠ paramAttrName q

theorem StructOk.attrsApart (hok : StructOk S d generics fields) : AttrsApart d.params := by
  have hnodup := hok.attrs
  unfold writeStruct structFields at hnodup
  rw [List.map_map] at hnodup
  exact List.pairwise_filter.mp (List.pairwise_map.mp hnodup)

theorem lookup_of_kept {ps : List Parameter} {scope : Scope} (hnodup : AttrsApart ps)
    (haligned : Aligned S d fields scope ps) {p : Parameter} (hp : p ∈ ps) (hfield : p.isField = true) :
    (scopeAfter d fields scope ps).lookup (paramAttrName p) = some (bindingOf d fields p).2 := by
  induction ps generalizing scope with
  | nil => cases hp
  | cons q ps ih =>
    obtain ⟨hreads, haligned⟩ := haligned
    obtain ⟨hq, hnodup⟩ := List.pairwise_cons.mp hnodup
    rw [scopeAfter_cons]
    rcases List.mem_cons.mp hp with rfl | hp
    · rw [lookup_scopeAfter]
      · rw [← varName_field (isField_iff.mp hfield), ← bindingOf_fst]
        exact List.lookup_cons_self
      · intro r hr
        by_cases hflags : r.ty = .flags
        · rw [varName_flags hflags]
          exact hreads.kept (isField_iff.mp hfield) r hr hflags
        · rw [varName_field hflags]
          exact Ne.symm (hq r hr hfield (isField_iff.mpr hflags))
    · exact ih hnodup haligned hp

/-- The fields are those that are declared, with the values they have. -/
theorem lookup_of_mem {l : List (String × Value)} (hnodup : (l.map Prod.fst).Nodup) {f : String × Value}
    (hf : f ∈ l) : l.lookup f.1 = some f.2 := by
  induction l with
  | nil => cases hf
  | cons g l ih =>
    rw [List.map_cons, List.nodup_cons] at hnodup
    rcases List.mem_cons.mp hf with rfl | hf
    · exact List.lookup_cons_self
    · have hne : f.1 ≠ g.1 := by
        intro heq
        exact hnodup.1 (heq ▸ List.mem_map_of_mem hf)
      rw [List.lookup_cons, beq_false_of_ne hne]
      exact ih hnodup.2 hf

theorem StructOk.fields_eq (hok : StructOk S d generics fields) :
    fields = (structFields d).map fun p => (paramAttrName p, fieldValue fields p) := by
  have hkeys : fields.map Prod.fst = (structFields d).map paramAttrName := by
    rw [hok.names, writeStruct, List.map_map]
    rfl
  have hnodup : (fields.map Prod.fst).Nodup := by
    rw [hok.names]
    exact hok.attrs
  have hself : fields = (fields.map Prod.fst).map fun a => (a, (fields.lookup a).getD (.option none)) := by
    rw [List.map_map]
    apply List.ext_getElem
    · simp
    · intro i h₁ h₂
      rw [List.getElem_map, Function.comp_apply, lookup_of_mem hnodup (List.getElem_mem h₁)]
      rfl
  rw [hkeys, List.map_map] at hself
  exact hself

theorem pickFields_some {scope : Scope} {ps : List Parameter}
    (h : ∀ p ∈ ps, (scope.lookup (paramAttrName p)).bind Bound.value? = some (fieldValue fields p)) :
    pickFields scope (ps.map paramAttrName) = some (ps.map fun p => (paramAttrName p, fieldValue fields p)) := by
  induction ps with
  | nil => rfl
  | cons p ps ih =>
    rw [List.map_cons, pickFields, h p List.mem_cons_self, Option.bind_some,
      ih fun q hq => h q (List.mem_cons_of_mem p hq)]
    rfl

theorem writeStructSerializable_types (h : d.category = .types) :
    writeStructSerializable d = d.params.flatMap (writeParamSerialization d) := by
  unfold writeStructSerializable
  rw [h]
  rfl

/-- **A struct.** It is read back if its flags are read and its parts are. -/
theorem struct_gives (hok : StructOk S d generics fields) (hflags : FlagsRead S d fields)
    (hparts : PartsGive S ser de d generics fields) :
    ∃ b, serializeStruct S ser d generics fields = some b ∧
      ∀ rest, (deserializeStruct S de d generics).run (b ++ rest) = .ok (.struct fields, rest) := by
  obtain ⟨b, hb, hread⟩ := params_give hok hflags.bits hparts (fun p hp => hp) hflags.aligned
  refine ⟨b, ?_, fun rest => ?_⟩
  · rw [serializeStruct, writeStructSerializable_types (S.types_only d hok.generated), hb]
  · have hkept : ∀ p ∈ structFields d,
        ((scopeAfter d fields [] d.params).lookup (paramAttrName p)).bind Bound.value? =
          some (fieldValue fields p) := by
      intro p hp
      obtain ⟨hmem, hfield⟩ := List.mem_filter.mp hp
      rw [lookup_of_kept hok.attrsApart hflags.aligned hmem hfield, Option.bind_some]
      exact bindingOf_value (isField_iff.mp hfield)
    have hpick :
        pickFields (scopeAfter d fields [] d.params) (writeStructDeserializable d).self = some fields := by
      rw [writeStructDeserializable, pickFields_some hkept, ← hok.fields_eq]
    have hbody : (writeStructDeserializable d).body = d.params.map writeParamDeserialization := rfl
    rw [deserializeStruct, hbody, bind_of_ok (hread rest), hpick]
    rfl

end

/-! Enums. -/

section
variable {ty : Ty} {d : Definition}

/-- The arm of a constructor, in either `match`. -/
def armOf (S : Schema) (d : Definition) : Arm :=
  ⟨defQualName d, defVariantName S.isNumeric d, !d.params.isEmpty⟩

theorem armOf_variant : (armOf S d).variant = defVariantName S.isNumeric d := rfl

theorem writeEnumDeserializable_eq :
    writeEnumDeserializable S.isNumeric S.defs ty = (defsForType S.defs ty).map (armOf S) := by
  apply List.map_congr_left
  intro d _
  unfold armOf
  by_cases h : d.params.isEmpty = true
  · rw [if_pos h, h]
    rfl
  · rw [if_neg h, Bool.eq_false_iff.mpr h]
    rfl

theorem structAt_of_resolve {path : Path} {generics : String → Option RustType}
    (h : resolve S (.leaf (.types path)) = some (.struct d generics)) : structAt S path = some d := by
  obtain ⟨e, he, h⟩ := Option.bind_eq_some_iff.mp h
  split at h
  · cases h
    exact he
  · cases h

/-- The ids tell the constructors of a type apart. -/
theorem ids_inj {e : Definition} (hd : d ∈ defsForType S.defs ty) (he : e ∈ defsForType S.defs ty)
    (h : d.id = e.id) : d = e := by
  have htype : ∀ c ∈ defsForType S.defs ty, c.ty.ns = ty.ns ∧ c.ty.name = ty.name := by
    intro c hc
    have hc := (List.mem_filter.mp hc).2
    simp only [Bool.and_eq_true, decide_eq_true_eq] at hc
    exact hc.2
  have hpairwise : (defsForType S.defs ty).Pairwise fun a b => a.id ≠ b.id := by
    refine List.Pairwise.imp_of_mem ?_ (S.ids_distinct.filter _)
    intro a b ha hb hne
    exact hne ((htype a ha).1.trans (htype b hb).1.symm) ((htype a ha).2.trans (htype b hb).2.symm)
  exact List.inj_on_of_nodup_map (List.pairwise_map.mpr hpairwise) hd he h

theorem find_variant (hok : EnumOk S ty) (hd : d ∈ defsForType S.defs ty) :
    ((writeEnumSerializable S.isNumeric S.defs ty).find? fun arm => arm.variant = defVariantName S.isNumeric d) =
      some (armOf S d) := by
  have hnames : (writeEnum S.isNumeric S.defs ty).map Prod.fst =
      (defsForType S.defs ty).map (defVariantName S.isNumeric) := by
    simp only [writeEnum, List.map_map, Function.comp_def]
  have hnodup := hok.variants
  rw [hnames] at hnodup
  have harms : writeEnumSerializable S.isNumeric S.defs ty = (defsForType S.defs ty).map (armOf S) := rfl
  have hself : decide ((armOf S d).variant = defVariantName S.isNumeric d) = true := by
    rw [armOf_variant, decide_eq_true_eq]
  have huniq : ∀ e ∈ defsForType S.defs ty,
      decide ((armOf S e).variant = defVariantName S.isNumeric d) = true → e = d := by
    intro e he heq
    have hname : (armOf S e).variant = defVariantName S.isNumeric d := of_decide_eq_true heq
    rw [armOf_variant] at hname
    exact List.inj_on_of_nodup_map hnodup he hd hname
  rw [harms]
  exact FirstMatch.find?_map_of_unique (f := armOf S) (r := fun arm => decide (arm.variant = _)) hd hself huniq

theorem find_id (hok : EnumOk S ty) (hd : d ∈ defsForType S.defs ty) :
    ((writeEnumDeserializable S.isNumeric S.defs ty).find? fun arm => armId S arm = some d.id) =
      some (armOf S d) := by
  have hid : ∀ e ∈ defsForType S.defs ty, armId S (armOf S e) = some e.id := by
    intro e he
    rw [armId, armOf, structAt_of_resolve (hok.paths e he)]
    rfl
  rw [writeEnumDeserializable_eq]
  refine FirstMatch.find?_map_of_unique hd (decide_eq_true (hid d hd)) ?_
  intro e he heq
  have hsome : armId S (armOf S e) = some d.id := of_decide_eq_true heq
  rw [hid e he] at hsome
  exact ids_inj he hd (Option.some.inj hsome)

/-- What is written for a variant. -/
theorem serialize_variant (hok : EnumOk S ty) (hd : d ∈ defsForType S.defs ty) (payload : Option Value) :
    serializeWith S ser (.enum ty) (.variant (defVariantName S.isNumeric d) payload) =
      serializeArm S ser (armOf S d) payload := by
  simp only [serializeWith]
  rw [find_variant hok hd, Option.bind_some]

/-- What is read behind the id of a constructor. -/
theorem deserialize_id (hok : EnumOk S ty) (hd : d ∈ defsForType S.defs ty) (rest : List UInt8) :
    (deserializeEnum S de ty).run (ofU32 d.id ++ rest) = (deserializeArm S de (armOf S d)).run rest := by
  rw [deserializeEnum, bind_of_ok (ofTl_readU32 _ _), find_id hok hd]

theorem serialize_unit (hok : EnumOk S ty) (hd : d ∈ defsForType S.defs ty) (hparams : d.params.isEmpty = true) :
    serializeWith S ser (.enum ty) (.variant (defVariantName S.isNumeric d) none) = some (ofU32 d.id) := by
  rw [serialize_variant hok hd]
  simp only [serializeArm, armOf, hok.paths d hd, hparams, Bool.not_true]

theorem serialize_payload (hok : EnumOk S ty) (hd : d ∈ defsForType S.defs ty)
    (hparams : d.params.isEmpty = false) (x : Value) :
    serializeWith S ser (.enum ty) (.variant (defVariantName S.isNumeric d) (some x)) =
      (ser (.struct d noGenerics) x).map (ofU32 d.id ++ ·) := by
  rw [serialize_variant hok hd]
  simp only [serializeArm, armOf, hok.paths d hd, hparams, Bool.not_false]

theorem deserialize_unit (hparams : d.params.isEmpty = true) (rest : List UInt8) :
    (deserializeArm S de (armOf S d)).run rest =
      .ok (.variant (defVariantName S.isNumeric d) none, rest) := by
  simp only [deserializeArm, armOf, hparams, Bool.not_true, Bool.false_eq_true, if_false]
  rfl

theorem deserialize_payload (hok : EnumOk S ty) (hd : d ∈ defsForType S.defs ty)
    (hparams : d.params.isEmpty = false) :
    deserializeArm S de (armOf S d) =
      de (.struct d noGenerics) >>= fun x => pure (.variant (defVariantName S.isNumeric d) (some x)) := by
  simp only [deserializeArm, armOf, hparams, Bool.not_false, if_true, hok.paths d hd, readShape]

end

end

/-! Values that are read back. -/

theorem idVector_id : ¬(idVector ≠ idVector) := not_not.mpr rfl

theorem vec_gives {S : Schema} {ser : Shape → Value → Option (List UInt8)} {de : Shape → Reader Failure Value}
    {item : RustType} {sh : Shape} {items : List Value} (hshape : resolve S item = some sh)
    (hcount : CountReads items.length) (h : ∀ x ∈ items, Gives ser de sh x) :
    Gives (serializeWith S ser) (deserializeWith S de) (.vec item) (.vec items) := by
  obtain ⟨b, hb, hread⟩ := items_give hshape hcount h
  refine ⟨ofU32 idVector ++ b, ?_, fun rest => ?_⟩
  · simp only [serializeWith, hb, Option.map_some]
  · rw [List.append_assoc, deserializeWith, bind_of_ok (ofTl_readU32 _ _), if_neg idVector_id,
      bind_of_ok (hread rest)]
    rfl

/-- **What is read from the right words is read back**, at every depth that is enough for it. -/
theorem IsValue.gives {S : Schema} {n : Nat} {sh : Shape} {v : Value} (h : IsValue S (FlagsRead S) n sh v)
    {m : Nat} (hm : n ≤ m) : Gives (serialize S m) (deserialize S m) sh v := by
  induction h generalizing m with
  | leaf hread =>
    obtain ⟨k, rfl⟩ : ∃ k, m = k + 1 := ⟨m - 1, by omega⟩
    refine ⟨_, if_pos rfl, fun rest => ?_⟩
    rw [deserialize, deserializeWith, bind_of_ok (ofTl_of_ok (hread rest))]
    rfl
  | vec hshape hcount _ ih =>
    obtain ⟨k, rfl⟩ : ∃ k, m = k + 1 := ⟨m - 1, by omega⟩
    exact vec_gives hshape hcount fun x hx => ih x hx (Nat.le_of_succ_le_succ hm)
  | rawVec hshape hcount _ ih =>
    obtain ⟨k, rfl⟩ : ∃ k, m = k + 1 := ⟨m - 1, by omega⟩
    obtain ⟨b, hb, hread⟩ := items_give hshape hcount fun x hx => ih x hx (Nat.le_of_succ_le_succ hm)
    refine ⟨b, hb, fun rest => ?_⟩
    rw [deserialize, deserializeWith, bind_of_ok (hread rest)]
    rfl
  | struct hok hP _ ih =>
    obtain ⟨k, rfl⟩ : ∃ k, m = k + 1 := ⟨m - 1, by omega⟩
    exact struct_gives hok hP fun f hf v ty x sh hv hpart hsh =>
      ih f hf v ty x sh hv hpart hsh (Nat.le_of_succ_le_succ hm)
  | unit hok hd hparams =>
    obtain ⟨k, rfl⟩ : ∃ k, m = k + 1 := ⟨m - 1, by omega⟩
    refine ⟨_, serialize_unit hok hd hparams, fun rest => ?_⟩
    rw [deserialize, deserializeWith, deserialize_id hok hd, deserialize_unit hparams]
  | @payload n ty d x hok hd hparams _ ih =>
    obtain ⟨k, rfl⟩ : ∃ k, m = k + 1 := ⟨m - 1, by omega⟩
    obtain ⟨b, hb, hread⟩ := ih (Nat.le_of_succ_le_succ hm)
    refine ⟨ofU32 d.id ++ b, ?_, fun rest => ?_⟩
    · rw [serialize, serialize_payload hok hd hparams, hb, Option.map_some]
    · rw [deserialize, deserializeWith, List.append_assoc, deserialize_id hok hd,
        deserialize_payload hok hd hparams, bind_of_ok (hread rest)]
      rfl

end Ferogram.TlGen
