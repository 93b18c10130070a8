import Ferogram.TlGen.ReadBack

/- The generated code's round trip.

   A value is read back if every flag in it is read from the right word, and only then: a test
   that finds another bit leaves its parameter out, or reads one that is not there, and the struct
   that comes out says so (`IsValue.shows`). With ordinary names every test finds its word. The
   generator lowers the name of a flags field where it binds the word, and not where it tests it, and
   it puts the word among the variables of the fields; so two flags fields whose names differ in
   case, or a field whose name has the underscore, take each other's place. -/
namespace Ferogram.TlGen
open Bytes TlTypes PartialWriter Reader

/-! What a value that came back shows. -/

/-- If the value came back, it was good, and nothing behind it was read. -/
def Shows (ser : Shape → Value → Option (List UInt8)) (de : Shape → Reader Failure Value)
    (good : Shape → Value → Prop) (sh : Shape) (x : Value) : Prop :=
  ∀ b rest rest', ser sh x = some b → (de sh).run (b ++ rest) = .ok (x, rest') → good sh x ∧ rest' = rest

section
variable {S : Schema} {ser : Shape → Value → Option (List UInt8)} {de : Shape → Reader Failure Value}
  {good : Shape → Value → Prop}

theorem items_show {item : RustType} {sh : Shape} {items : List Value} {b rest rest' : List UInt8}
    (hshape : resolve S item = some sh) (hcount : CountReads items.length)
    (h : ∀ x ∈ items, Shows ser de good sh x) (hser : serializeItems S ser item items = some b)
    (hde : (deserializeItems S de item).run (b ++ rest) = .ok (items, rest')) :
    (∀ x ∈ items, good sh x) ∧ rest' = rest := by
  rw [serializeItems, hshape, Option.bind_some] at hser
  obtain ⟨c, hc, rfl⟩ := Option.map_eq_some_iff.mp hser
  rw [deserializeItems, List.append_assoc, bind_of_ok (ofTl_readI32 _ _), hcount, hshape] at hde
  exact writes_of_many h hc hde

section
variable {d : Definition} {generics : String → Option RustType} {fields : List (String × Value)}
  {p : Parameter} {scope : Scope} {bound : String × Bound} {b rest mid : List UInt8}

/-- The variable of a parameter has the name it is to have, and a flags word is no value. -/
theorem runLet_ok (h : (runLet S de generics scope (writeParamDeserialization p)).run b = .ok (bound, rest)) :
    bound.1 = varName p ∧ (p.ty = .flags → bound.2.value? = none) := by
  unfold writeParamDeserialization at h
  unfold varName
  cases hty : p.ty with
  | flags =>
    simp only [hty] at h
    obtain ⟨w, mid, -, h⟩ := bind_ok h
    obtain ⟨rfl, -⟩ := pure_ok h
    exact ⟨rfl, fun _ => rfl⟩
  | normal ty flag =>
    have hne : ParameterType.normal ty flag = .flags → bound.2.value? = none := by
      intro h
      cases h
    cases flag with
    | none =>
      simp only [hty] at h
      obtain ⟨v, mid, -, h⟩ := bind_ok h
      obtain ⟨rfl, -⟩ := pure_ok h
      exact ⟨rfl, hne⟩
    | some fl =>
      refine ⟨?_, hne⟩
      by_cases htrue : ty.name = "true"
      · simp only [hty, htrue, if_true, runLet] at h
        split at h
        · obtain ⟨rfl, -⟩ := pure_ok h
          rfl
        · cases h
      · simp only [hty, htrue, if_false, runLet] at h
        split at h
        · obtain ⟨v, mid, -, h⟩ := bind_ok h
          obtain ⟨rfl, -⟩ := pure_ok h
          rfl
        · obtain ⟨rfl, -⟩ := pure_ok h
          rfl
        · cases h

/-- A name that has a value at the end has it from here, unless a field behind has the name. -/
theorem runLets_lookup {ps : List Parameter} {final : Scope} {a : String} {v : Value}
    (hps : ∀ q ∈ ps, q.isField = true → paramAttrName q ≠ a)
    (h : (runLets S de generics scope (ps.map writeParamDeserialization)).run b = .ok (final, rest))
    (hv : (final.lookup a).bind Bound.value? = some v) :
    (scope.lookup a).bind Bound.value? = some v ∧
      ∀ g ∈ ps, g.ty = .flags → "_" ++ paramAttrName g ≠ a := by
  induction ps generalizing scope b with
  | nil =>
    obtain ⟨rfl, -⟩ := pure_ok h
    exact ⟨hv, fun g hg => absurd hg List.not_mem_nil⟩
  | cons q ps ih =>
    obtain ⟨⟨name, held⟩, mid, hlet, h⟩ := bind_ok h
    split at h
    · cases h
    · obtain ⟨hlook, hflags⟩ := ih (fun r hr => hps r (List.mem_cons_of_mem q hr)) h
      obtain ⟨rfl, hword⟩ := runLet_ok hlet
      have hother : varName q ≠ a := by
        intro heq
        by_cases hq : q.ty = .flags
        · rw [heq, List.lookup_cons_self, Option.bind_some, hword hq] at hlook
          cases hlook
        · rw [varName_field hq] at heq
          exact hps q List.mem_cons_self (isField_iff.mpr hq) heq
      constructor
      · rw [List.lookup_cons, beq_false_of_ne (Ne.symm hother)] at hlook
        exact hlook
      · intro g hg hgflags
        rcases List.mem_cons.mp hg with rfl | hg
        · rw [varName_flags hgflags] at hother
          exact hother
        · exact hflags g hg hgflags

/-- The parts of a struct. -/
def PartsShow (S : Schema) (ser : Shape → Value → Option (List UInt8)) (de : Shape → Reader Failure Value)
    (good : Shape → Value → Prop) (d : Definition) (generics : String → Option RustType)
    (fields : List (String × Value)) : Prop :=
  ∀ f ∈ (writeStruct d).fields, ∀ v ty x sh, fields.lookup f.1 = some v →
    part f.2 v = some (ty, x) → shapeOf S generics ty = some sh → Shows ser de good sh x

/-- What the reading of a parameter showed. -/
structure ParamShown (S : Schema) (good : Shape → Value → Prop) (d : Definition)
    (generics : String → Option RustType) (fields : List (String × Value)) (scope : Scope) (p : Parameter)
    (bound : String × Bound) (rest mid : List UInt8) : Prop where
  binding : bound = bindingOf d fields p
  rest : mid = rest
  test : ∀ fl, p.flag = some fl → testBit scope ("_" ++ fl.name) fl.index = some (present fields p)
  parts : p.isField = true → ∀ ty x sh, part (paramQualName p) (fieldValue fields p) = some (ty, x) →
    shapeOf S generics ty = some sh → good sh x

theorem writeAll_single {α : Type} {w : α → Option (List UInt8)} {x : α} (h : writeAll w [x] = some b) :
    w x = some b := by
  obtain ⟨c, e, hc, he, rfl⟩ := writeAll_cons h
  cases he
  rw [hc, List.append_nil]

section
variable {ty : Ty} {fl : Flag}

/-- The one flag of a parameter. -/
theorem test_of_flag (hty : p.ty = .normal ty (some fl)) {t : Bool}
    (ht : testBit scope ("_" ++ fl.name) fl.index = some t) (hpresent : t = present fields p) (gl : Flag)
    (hgl : p.flag = some gl) : testBit scope ("_" ++ gl.name) gl.index = some (present fields p) := by
  rw [Parameter.flag, hty] at hgl
  cases hgl
  rw [ht, hpresent]

variable (hok : StructOk S d generics fields)
  (hser : writeAll (runSer S ser generics fields) (writeParamSerialization d p) = some b)
  (hlet : (runLet S de generics scope (writeParamDeserialization p)).run (b ++ rest) = .ok (bound, mid))
include hok hser hlet

theorem flags_show (hbits : LowBits d) (hty : p.ty = .flags) :
    ParamShown S good d generics fields scope p bound rest mid := by
  rw [flags_write hok hbits hty] at hser
  cases hser
  simp only [writeParamDeserialization, hty, runLet] at hlet
  obtain ⟨w, m, hw, hend⟩ := bind_ok hlet
  obtain ⟨rfl, rfl⟩ := pure_ok hend
  obtain ⟨rfl, rfl⟩ := readU32_ok hw
  refine ⟨by rw [bindingOf, hty], rfl, ?_, ?_⟩
  · intro fl hfl
    rw [Parameter.flag, hty] at hfl
    cases hfl
  · intro hfield
    exact absurd hty (isField_iff.mp hfield)

variable (hp : p ∈ d.params) (hbound : bound.2.value? = some (fieldValue fields p))
include hp hbound

theorem plain_shows (hparts : PartsShow S ser de good d generics fields) (hty : p.ty = .normal ty none) :
    ParamShown S good d generics fields scope p bound rest mid := by
  have hne := ne_flags_of_normal hty
  have hvalue := (hok.value hp hne).1
  obtain ⟨sh, hsh⟩ := hok.plain hp hty
  have hqual : paramQualName p = .plain (typePath ty) := by
    rw [paramQualName, hty]
  simp only [writeParamSerialization, hty] at hser
  have hwrite := writeAll_single hser
  simp only [runSer, hvalue, hsh] at hwrite
  simp only [writeParamDeserialization, hty, runLet, hsh, readShape] at hlet
  obtain ⟨v, m, hv, hend⟩ := bind_ok hlet
  obtain ⟨rfl, rfl⟩ := pure_ok hend
  obtain rfl := Option.some.inj hbound
  have hshow := hparts _ (mem_writeStruct hp hne) _ _ _ _ hvalue (by rw [hqual]; rfl) hsh
  obtain ⟨hgood, rfl⟩ := hshow _ _ _ hwrite hv
  refine ⟨by simp only [bindingOf, hty], rfl, ?_, ?_⟩
  · intro fl hfl
    rw [Parameter.flag, hty] at hfl
    cases hfl
  · intro _ ty' x sh' hpart hsh'
    rw [hqual] at hpart
    cases hpart
    rw [hsh] at hsh'
    cases hsh'
    exact hgood

theorem true_shows (hty : p.ty = .normal ty (some fl)) (htrue : ty.name = "true") :
    ParamShown S good d generics fields scope p bound rest mid := by
  obtain ⟨-, hval⟩ := hok.isTrue hp hty htrue
  simp only [writeParamSerialization, hty, htrue, if_true, writeAll_nil] at hser
  cases hser
  simp only [writeParamDeserialization, hty, htrue, if_true, runLet] at hlet
  split at hlet
  · next t ht =>
    obtain ⟨rfl, rfl⟩ := pure_ok hlet
    have hleaf : Value.leaf .bool t = fieldValue fields p := Option.some.inj hbound
    have hpresent : t = present fields p := by
      rw [hval] at hleaf
      cases hleaf
      rfl
    refine ⟨by simp only [bindingOf, hty, hleaf], rfl, test_of_flag hty ht hpresent, ?_⟩
    intro _ ty' x sh' hpart
    simp only [paramQualName, hty, htrue, if_true] at hpart
    cases hpart
  · cases hlet

theorem option_shows (hparts : PartsShow S ser de good d generics fields) (hty : p.ty = .normal ty (some fl))
    (htrue : ty.name ≠ "true") :
    ParamShown S good d generics fields scope p bound rest mid := by
  have hne := ne_flags_of_normal hty
  have hvalue := (hok.value hp hne).1
  obtain ⟨-, ⟨sh, hsh⟩, x, hval, hpresent⟩ := hok.isSome hp hty htrue
  have hqual : paramQualName p = .option (typePath ty) := by
    simp only [paramQualName, hty, htrue, if_false]
  simp only [writeParamSerialization, hty, htrue, if_false] at hser
  have hwrite := writeAll_single hser
  simp only [writeParamDeserialization, hty, htrue, if_false, runLet] at hlet
  split at hlet
  · next ht =>
    -- the bit is set: a value was read, so there is one
    simp only [hsh, readShape] at hlet
    obtain ⟨v, m, hv, hend⟩ := bind_ok hlet
    obtain ⟨rfl, rfl⟩ := pure_ok hend
    have hsome : Value.option (some v) = fieldValue fields p := Option.some.inj hbound
    have hx : x = some v := by
      rw [hval] at hsome
      cases hsome
      rfl
    subst hx
    simp only [runSer, hvalue, hval, hsh] at hwrite
    have hshow := hparts _ (mem_writeStruct hp hne) _ _ _ _ hvalue (by rw [hqual, hval]; rfl) hsh
    obtain ⟨hgood, rfl⟩ := hshow _ _ _ hwrite hv
    refine ⟨by simp only [bindingOf, hty, hsome], rfl, test_of_flag hty ht hpresent.symm, ?_⟩
    intro _ ty' y sh' hpart hsh'
    rw [hqual, hval] at hpart
    cases hpart
    rw [hsh] at hsh'
    cases hsh'
    exact hgood
  · next ht =>
    -- the bit is clear: nothing was read, so there is nothing
    obtain ⟨rfl, rfl⟩ := pure_ok hlet
    have hnone : Value.option none = fieldValue fields p := Option.some.inj hbound
    have hx : x = none := by
      rw [hval] at hnone
      cases hnone
      rfl
    subst hx
    simp only [runSer, hvalue, hval, hsh] at hwrite
    cases hwrite
    refine ⟨by simp only [bindingOf, hty, hnone], rfl, test_of_flag hty ht hpresent.symm, ?_⟩
    intro _ ty' y sh' hpart
    rw [hqual, hval] at hpart
    cases hpart
  · cases hlet

end

/-- One parameter: if its variable holds the value of its field, its bytes were read and no more. -/
theorem param_shows (hok : StructOk S d generics fields)
    (hbits : LowBits d)
    (hparts : PartsShow S ser de good d generics fields) (hp : p ∈ d.params)
    (hser : writeAll (runSer S ser generics fields) (writeParamSerialization d p) = some b)
    (hlet : (runLet S de generics scope (writeParamDeserialization p)).run (b ++ rest) = .ok (bound, mid))
    (hbound : p.isField = true → bound.2.value? = some (fieldValue fields p)) :
    ParamShown S good d generics fields scope p bound rest mid := by
  cases hty : p.ty with
  | flags => exact flags_show hok hser hlet hbits hty
  | normal ty flag =>
    have hbound := hbound (isField_iff.mpr (ne_flags_of_normal hty))
    cases flag with
    | none => exact plain_shows hok hser hlet hp hbound hparts hty
    | some fl =>
      by_cases htrue : ty.name = "true"
      · exact true_shows hok hser hlet hp hbound hty htrue
      · exact option_shows hok hser hlet hp hbound hparts hty htrue

/-- All parameters from some point on. -/
theorem params_show (hok : StructOk S d generics fields)
    (hbits : LowBits d)
    (hparts : PartsShow S ser de good d generics fields) {ps : List Parameter} (hps : ∀ p ∈ ps, p ∈ d.params)
    (hnodup : AttrsApart ps) {final : Scope} {rest' : List UInt8}
    (hser : writeAll (runSer S ser generics fields) (ps.flatMap (writeParamSerialization d)) = some b)
    (hde : (runLets S de generics scope (ps.map writeParamDeserialization)).run (b ++ rest) = .ok (final, rest'))
    (hfinal : ∀ p ∈ ps, p.isField = true →
      (final.lookup (paramAttrName p)).bind Bound.value? = some (fieldValue fields p)) :
    Aligned S d fields scope ps ∧
      (∀ p ∈ ps, p.isField = true → ∀ ty x sh, part (paramQualName p) (fieldValue fields p) = some (ty, x) →
        shapeOf S generics ty = some sh → good sh x) ∧ rest' = rest := by
  induction ps generalizing scope b with
  | nil =>
    cases hser
    obtain ⟨-, rfl⟩ := pure_ok hde
    exact ⟨trivial, fun p hp => absurd hp List.not_mem_nil, rfl⟩
  | cons p ps ih =>
    obtain ⟨c, e, hc, he, rfl⟩ := writeAll_append hser
    rw [List.append_assoc] at hde
    obtain ⟨⟨name, held⟩, mid, hlet, hlets⟩ := bind_ok hde
    obtain ⟨hp, hnodup⟩ := List.pairwise_cons.mp hnodup
    split at hlets
    · cases hlets
    · next hvar =>
      obtain ⟨rfl, -⟩ := runLet_ok hlet
      obtain ⟨hcursor, hident⟩ := not_or.mp hvar
      -- the field is in scope at the end, so nothing behind took its name
      have hkept : p.isField = true → held.value? = some (fieldValue fields p) ∧
          ∀ g ∈ ps, g.ty = .flags → "_" ++ paramAttrName g ≠ paramAttrName p := by
        intro hfield
        have hothers : ∀ q ∈ ps, q.isField = true → paramAttrName q ≠ paramAttrName p :=
          fun q hq hqfield => Ne.symm (hp q hq hfield hqfield)
        have hlook := runLets_lookup hothers hlets (hfinal p List.mem_cons_self hfield)
        rw [varName_field (isField_iff.mp hfield), List.lookup_cons_self, Option.bind_some] at hlook
        exact hlook
      have hshown := param_shows hok hbits hparts (hps p List.mem_cons_self) hc hlet
        fun hfield => (hkept hfield).1
      obtain rfl := hshown.rest
      rw [hshown.binding] at hlets
      obtain ⟨haligned, hgood, rfl⟩ := ih (fun q hq => hps q (List.mem_cons_of_mem p hq)) hnodup he hlets
        fun q hq => hfinal q (List.mem_cons_of_mem p hq)
      refine ⟨⟨⟨Bool.not_eq_false _ ▸ hident, hshown.test, ?_, ?_⟩, haligned⟩, ?_, rfl⟩
      · intro hty
        rw [varName_field hty] at hcursor
        exact hcursor
      · intro hty
        exact (hkept (isField_iff.mpr hty)).2
      · intro q hq
        rcases List.mem_cons.mp hq with rfl | hq
        · exact hshown.parts
        · exact hgood q hq

theorem flagsDeclared_mem {seen : List String} {ps : List Parameter} (h : flagsDeclared seen ps = true) {fl : Flag}
    (hp : p ∈ ps) (hfl : p.flag = some fl) :
    fl.name ∈ seen ∨ ∃ q ∈ ps, q.ty = .flags ∧ q.name = fl.name := by
  induction ps generalizing seen with
  | nil => cases hp
  | cons q ps ih =>
    unfold flagsDeclared at h
    have hlater : ∀ {names : List String}, flagsDeclared names ps = true → p ∈ ps →
        fl.name ∈ names ∨ ∃ r ∈ q :: ps, r.ty = .flags ∧ r.name = fl.name := by
      intro names hnames hmem
      rcases ih hnames hmem with hseen | ⟨r, hr, hflags⟩
      · exact Or.inl hseen
      · exact Or.inr ⟨r, List.mem_cons_of_mem q hr, hflags⟩
    unfold Parameter.flag at hfl
    rcases List.mem_cons.mp hp with rfl | hp
    · split at h
      · next hty => rw [hty] at hfl; cases hfl
      · next hty => rw [hty] at hfl; cases hfl
      · next gl hty =>
        rw [hty] at hfl
        cases hfl
        exact Or.inl (of_decide_eq_true (Bool.and_eq_true_iff.mp h).1)
    · split at h
      · next hty =>
        rcases hlater h hp with hseen | hex
        · rcases List.mem_cons.mp hseen with hname | hseen
          · exact Or.inr ⟨q, List.mem_cons_self, hty, hname.symm⟩
          · exact Or.inl hseen
        · exact Or.inr hex
      · exact hlater h hp
      · exact hlater (Bool.and_eq_true_iff.mp h).2 hp

/-- What was written has no bit that is too high. -/
theorem bits_of_written (hok : StructOk S d generics fields)
    (hser : writeAll (runSer S ser generics fields) (d.params.flatMap (writeParamSerialization d)) = some b) :
    LowBits d := by
  intro p hp fl hfl
  rcases flagsDeclared_mem (S.flags_declared d hok.generated) hp hfl with hseen | ⟨q, hq, hty, hname⟩
  · cases hseen
  · have hterm : (⟨paramTest p, fl.index⟩ : Term) ∈ flagTerms d q.name :=
      mem_flagTerms.mpr ⟨p, hp, fl, hfl, hname.symm, rfl⟩
    have hused : ¬isUnusedFlag d q = true := by
      intro hunused
      rw [flagTerms_of_unused hunused] at hterm
      cases hterm
    have hstmt : SerStmt.word (flagTerms d q.name) ∈ d.params.flatMap (writeParamSerialization d) := by
      refine List.mem_flatMap.mpr ⟨q, hq, ?_⟩
      unfold writeParamSerialization
      simp only [hty, if_neg hused, List.mem_singleton]
    obtain ⟨c, hc⟩ := writeAll_mem hser hstmt
    obtain ⟨w, hw, -⟩ := Option.map_eq_some_iff.mp hc
    exact runTerms_mem hw hterm

theorem pickFields_ok {ps : List String} {out : List (String × Value)} (h : pickFields scope ps = some out)
    {a : String} (ha : a ∈ ps) : (scope.lookup a).bind Bound.value? = out.lookup a := by
  induction ps generalizing out with
  | nil => cases ha
  | cons c ps ih =>
    obtain ⟨v, hv, h⟩ := Option.bind_eq_some_iff.mp h
    obtain ⟨rest, hrest, rfl⟩ := Option.map_eq_some_iff.mp h
    by_cases hac : a = c
    · rw [hac, hv, List.lookup_cons_self]
    · rw [List.lookup_cons, beq_false_of_ne hac]
      exact ih hrest ((List.mem_cons.mp ha).resolve_left hac)

/-- **A struct that came back.** Its flags were read from the right words. -/
theorem struct_shows (hok : StructOk S d generics fields) (hparts : PartsShow S ser de good d generics fields)
    {rest' : List UInt8} (hser : serializeStruct S ser d generics fields = some b)
    (hde : (deserializeStruct S de d generics).run (b ++ rest) = .ok (.struct fields, rest')) :
    FlagsRead S d fields ∧
      (∀ f ∈ (writeStruct d).fields, ∀ v ty x sh, fields.lookup f.1 = some v →
        part f.2 v = some (ty, x) → shapeOf S generics ty = some sh → good sh x) ∧ rest' = rest := by
  rw [serializeStruct, writeStructSerializable_types (S.types_only d hok.generated)] at hser
  obtain ⟨final, mid, hlets, hend⟩ := bind_ok hde
  split at hend
  · next out hout =>
    obtain ⟨heq, rfl⟩ := pure_ok hend
    cases heq
    have hbits := bits_of_written hok hser
    have hfinal : ∀ p ∈ d.params, p.isField = true →
        (final.lookup (paramAttrName p)).bind Bound.value? = some (fieldValue fields p) := by
      intro p hp hfield
      have hattr : paramAttrName p ∈ (structFields d).map paramAttrName :=
        List.mem_map_of_mem (List.mem_filter.mpr ⟨hp, hfield⟩)
      rw [pickFields_ok hout hattr]
      exact (hok.value hp (isField_iff.mp hfield)).1
    obtain ⟨haligned, hgood, hrest⟩ :=
      params_show hok hbits hparts (fun p hp => hp) hok.attrsApart hser hlets hfinal
    refine ⟨⟨hbits, haligned⟩, ?_, hrest⟩
    intro f hf v ty x sh hv hpart hsh
    obtain ⟨p, hp, rfl⟩ := List.mem_map.mp hf
    obtain ⟨hmem, hfield⟩ := List.mem_filter.mp hp
    have hval : fieldValue fields p = v := by
      rw [fieldValue, hv, Option.getD_some]
    exact hgood p hmem hfield ty x sh (by rw [hval]; exact hpart) hsh
  · cases hend

end

end

/-- **A value that came back shows that its flags were read from the right words**, and that
nothing behind its bytes was read. -/
theorem IsValue.shows {S : Schema} {P : Definition → List (String × Value) → Prop} {n : Nat} {sh : Shape}
    {v : Value} (h : IsValue S P n sh v) (m : Nat) :
    Shows (serialize S m) (deserialize S m) (IsValue S (FlagsRead S) n) sh v := by
  induction h generalizing m with
  | leaf hread =>
    intro b rest rest' hser hde
    cases m with
    | zero => cases hser
    | succ m =>
      refine ⟨.leaf hread, ?_⟩
      rw [serialize, serializeWith, if_pos rfl] at hser
      cases hser
      rw [deserialize, deserializeWith, bind_of_ok (ofTl_of_ok (hread rest))] at hde
      exact (pure_ok hde).2
  | vec hshape hcount _ ih =>
    intro b rest rest' hser hde
    cases m with
    | zero => cases hser
    | succ m =>
      obtain ⟨c, hc, rfl⟩ := Option.map_eq_some_iff.mp hser
      rw [deserialize, deserializeWith, List.append_assoc, bind_of_ok (ofTl_readU32 _ _),
        if_neg idVector_id] at hde
      obtain ⟨items, mid, hitems, hend⟩ := bind_ok hde
      obtain ⟨heq, rfl⟩ := pure_ok hend
      cases heq
      obtain ⟨hgood, hrest⟩ := items_show hshape hcount (fun x hx => ih x hx m) hc hitems
      exact ⟨.vec hshape hcount hgood, hrest⟩
  | rawVec hshape hcount _ ih =>
    intro b rest rest' hser hde
    cases m with
    | zero => cases hser
    | succ m =>
      obtain ⟨items, mid, hitems, hend⟩ := bind_ok hde
      obtain ⟨heq, rfl⟩ := pure_ok hend
      cases heq
      obtain ⟨hgood, hrest⟩ := items_show hshape hcount (fun x hx => ih x hx m) hser hitems
      exact ⟨.rawVec hshape hcount hgood, hrest⟩
  | struct hok _ _ ih =>
    intro b rest rest' hser hde
    cases m with
    | zero => cases hser
    | succ m =>
      have hparts : PartsShow S (serialize S m) (deserialize S m) (IsValue S (FlagsRead S) _) _ _ _ :=
        fun f hf v ty x sh hv hpart hsh => ih f hf v ty x sh hv hpart hsh m
      obtain ⟨hflags, hgood, hrest⟩ := struct_shows hok hparts hser hde
      exact ⟨.struct hok hflags hgood, hrest⟩
  | unit hok hd hparams =>
    intro b rest rest' hser hde
    cases m with
    | zero => cases hser
    | succ m =>
      rw [serialize, serialize_unit hok hd hparams] at hser
      cases hser
      rw [deserialize, deserializeWith, deserialize_id hok hd, deserialize_unit hparams] at hde
      cases hde
      exact ⟨.unit hok hd hparams, rfl⟩
  | payload hok hd hparams _ ih =>
    intro b rest rest' hser hde
    cases m with
    | zero => cases hser
    | succ m =>
      rw [serialize, serialize_payload hok hd hparams] at hser
      obtain ⟨c, hc, rfl⟩ := Option.map_eq_some_iff.mp hser
      rw [deserialize, deserializeWith, List.append_assoc, deserialize_id hok hd,
        deserialize_payload hok hd hparams] at hde
      obtain ⟨x, mid, hx, hend⟩ := bind_ok hde
      obtain ⟨heq, rfl⟩ := pure_ok hend
      cases heq
      obtain ⟨hgood, hrest⟩ := ih m _ _ _ hc hx
      exact ⟨.payload hok hd hparams hgood, hrest⟩

/-- Reading back is reading the flags from the right words. -/
theorem read_back_iff {S : Schema} {P : Definition → List (String × Value) → Prop} {sh : Shape} {v : Value}
    (hv : ValueOf S P sh v) : RoundTrips S sh v ↔ ValueOf S (FlagsRead S) sh v := by
  constructor
  · rintro ⟨m, b, h⟩
    obtain ⟨n, hn⟩ := hv
    obtain ⟨hser, hde⟩ := h m (Nat.le_refl m)
    exact ⟨n, (hn.shows m b [] [] hser (hde [])).1⟩
  · rintro ⟨n, hn⟩
    obtain ⟨b, hb, -⟩ := hn.gives (Nat.le_refl n)
    refine ⟨n, b, fun m hm => ?_⟩
    obtain ⟨c, hc, hread⟩ := hn.gives hm
    have hbc : b = c := Option.some.inj ((serialize_mono hm hb).symm.trans hc)
    rw [hbc]
    exact ⟨hc, hread⟩

/-! Ordinary names. -/

/-- Names that `param_attr_name` leaves as they are, without an underscore in front and not the
cursor's, and identifiers, those of flags fields with an underscore in front. -/
structure Plain (S : Schema) (d : Definition) : Prop where
  ident : ∀ p ∈ d.params, S.isIdent (varName p) = true
  lower : ∀ p ∈ d.params, paramAttrName p = p.name
  letter : ∀ p ∈ d.params, p.name.toList.head? ≠ some '_'
  cursor : ∀ p ∈ d.params, p.name ≠ "buf"
  bits : LowBits d

theorem ne_underscore {s : String} (h : s.toList.head? ≠ some '_') (name : String) : s ≠ "_" ++ name := by
  intro heq
  apply h
  rw [heq, String.toList_append]
  rfl

theorem underscore_inj {a b : String} (h : "_" ++ a = "_" ++ b) : a = b := by
  have hlist := congrArg String.toList h
  rw [String.toList_append, String.toList_append] at hlist
  exact String.toList_inj.mp (List.append_cancel_left hlist)

section
variable {S : Schema} {d : Definition} {generics : String → Option RustType} {fields : List (String × Value)}

/-- The words of the flags fields so far are in scope under their names, and stay there. -/
theorem aligned_of_plain (hok : StructOk S d generics fields) (hagree : BitsAgree d fields) (hplain : Plain S d)
    {ps : List Parameter} (hps : ∀ p ∈ ps, p ∈ d.params) {seen : List String}
    (hseen : flagsDeclared seen ps = true) {scope : Scope}
    (hscope : ∀ f ∈ seen, scope.lookup ("_" ++ f) = some (.word (flagsWord d fields f))) :
    Aligned S d fields scope ps := by
  induction ps generalizing seen scope with
  | nil => trivial
  | cons p ps ih =>
    have hp := hps p List.mem_cons_self
    have hps := fun q hq => hps q (List.mem_cons_of_mem p hq)
    unfold flagsDeclared at hseen
    have hfield : p.ty ≠ .flags → ∀ f ∈ seen,
        (bindingOf d fields p :: scope).lookup ("_" ++ f) = some (.word (flagsWord d fields f)) := by
      intro hty f hf
      have hne : ¬"_" ++ f = (bindingOf d fields p).1 := by
        rw [bindingOf_fst, varName_field hty, hplain.lower p hp]
        exact Ne.symm (ne_underscore (hplain.letter p hp) f)
      rw [List.lookup_cons, beq_false_of_ne hne]
      exact hscope f hf
    have hcursor : p.ty ≠ .flags → paramAttrName p ≠ "buf" := by
      intro _
      rw [hplain.lower p hp]
      exact hplain.cursor p hp
    have hkept : p.ty ≠ .flags → ∀ g ∈ ps, g.ty = .flags → "_" ++ paramAttrName g ≠ paramAttrName p := by
      intro _ g _ _
      rw [hplain.lower p hp]
      exact Ne.symm (ne_underscore (hplain.letter p hp) _)
    split at hseen
    · next hty =>
      refine ⟨⟨hplain.ident p hp, ?_, hcursor, hkept⟩, ih hps hseen ?_⟩
      · intro fl hfl
        rw [Parameter.flag, hty] at hfl
        cases hfl
      · intro f hf
        have hbinding : bindingOf d fields p = ("_" ++ p.name, .word (flagsWord d fields p.name)) := by
          rw [bindingOf, hty]
          simp only [hplain.lower p hp]
        rw [hbinding]
        by_cases hname : f = p.name
        · rw [hname, List.lookup_cons_self]
        · have hne : ¬"_" ++ f = "_" ++ p.name := fun heq => hname (underscore_inj heq)
          rw [List.lookup_cons, beq_false_of_ne hne]
          exact hscope f ((List.mem_cons.mp hf).resolve_left hname)
    · next hty =>
      refine ⟨⟨hplain.ident p hp, ?_, hcursor, hkept⟩, ih hps hseen (hfield (by rw [hty]; intro h; cases h))⟩
      intro fl hfl
      rw [Parameter.flag, hty] at hfl
      cases hfl
    · next gl hty =>
      have hseen := Bool.and_eq_true_iff.mp hseen
      refine ⟨⟨hplain.ident p hp, ?_, hcursor, hkept⟩, ih hps hseen.2 (hfield (by rw [hty]; intro h; cases h))⟩
      intro fl hfl
      have hsame : gl = fl := by
        rw [Parameter.flag, hty] at hfl
        exact Option.some.inj hfl
      subst hsame
      rw [testBit, hscope _ (of_decide_eq_true hseen.1), Option.bind_some]
      exact hok.bit_flagsWord hagree hplain.bits hp hfl

theorem flagsRead_of_plain (hok : StructOk S d generics fields) (hagree : BitsAgree d fields) (hplain : Plain S d) :
    FlagsRead S d fields where
  bits := hplain.bits
  aligned := aligned_of_plain hok hagree hplain (fun _ hp => hp) (S.flags_declared d hok.generated)
    fun _ hf => absurd hf List.not_mem_nil

end

def tlInt : Ty := ⟨[], "int", true, false, none⟩

/-- `foo flags:# Flags:# x:flags.0?int = Foo`. -/
def foo : Definition where
  ns := []
  name := "foo"
  id := 1
  params := [⟨"flags", .flags⟩, ⟨"Flags", .flags⟩, ⟨"x", .normal tlInt (some ⟨"flags", 0⟩)⟩]
  ty := ⟨[], "Foo", false, false, none⟩
  category := .types

def shadowed : Schema where
  defs := [foo]
  isNumeric := Char.isDigit
  isXidStart := Char.isAlpha
  isXidContinue c := c.isAlphanum || c == '_'
  types_only := by simp [foo]
  ids_distinct := by simp
  names_distinct := by simp [foo]
  flags_declared := by simp [foo, flagsDeclared]

def fooFields : List (String × Value) := [("x", .option (some (.leaf .i32 (5 : Int32))))]

theorem foo_fields : (writeStruct foo).fields = [("x", .option (.leaf (.builtin .i32)))] := by decide

theorem fooFields_ok : StructOk shadowed foo noGenerics fooFields where
  generated := List.mem_singleton_self foo
  generic := by
    intro x ty h
    cases h
  attrs := by decide
  names := by decide
  fits := by
    rw [foo_fields]
    intro f hf
    rw [List.mem_singleton.mp hf]
    exact ⟨_, rfl, ⟨.leaf .i32, rfl⟩, _, rfl⟩

theorem foo_isValue : ValueOf shadowed BitsAgree (.struct foo noGenerics) (.struct fooFields) := by
  refine ⟨2, .struct fooFields_ok (bitsAgree_of_nodup (by decide)) ?_⟩
  intro f hf v ty x sh hv hpart hsh
  rw [foo_fields] at hf
  rw [List.mem_singleton.mp hf] at hv hpart
  cases hv
  cases hpart
  cases hsh
  exact .leaf fun rest => (reads_i32 5).full rest

def tlNode : Ty := ⟨[], "Node", false, false, none⟩

/-- `nodeEmpty = Node`. -/
def nodeEmpty : Definition := ⟨[], "nodeEmpty", 1, [], tlNode, .types⟩

/-- `node flags:# leaf:flags.0?true tag:flags.1?int children:flags.2?Vector<Node> = Node`. -/
def node : Definition where
  ns := []
  name := "node"
  id := 2
  params :=
    [⟨"flags", .flags⟩, ⟨"leaf", .normal ⟨[], "true", true, false, none⟩ (some ⟨"flags", 0⟩)⟩,
      ⟨"tag", .normal tlInt (some ⟨"flags", 1⟩)⟩,
      ⟨"children", .normal ⟨[], "Vector", false, false, some tlNode⟩ (some ⟨"flags", 2⟩)⟩]
  ty := tlNode
  category := .types

def tree : Schema where
  defs := [nodeEmpty, node]
  isNumeric := Char.isDigit
  isXidStart := Char.isAlpha
  isXidContinue c := c.isAlphanum || c == '_'
  types_only := by simp [nodeEmpty, node]
  ids_distinct := by simp [nodeEmpty, node]
  names_distinct := by simp [nodeEmpty, node]
  flags_declared := by simp [nodeEmpty, node, flagsDeclared]

/-- A node that is a leaf, with one empty child. -/
def leafFields : List (String × Value) :=
  [("leaf", .leaf .bool true), ("tag", .option none),
    ("children", .option (some (.vec [.variant "Empty" none])))]

theorem node_fields : (writeStruct node).fields =
    [("leaf", .bool), ("tag", .option (.leaf (.builtin .i32))),
      ("children", .option (.app (.builtin .vec) (.leaf (.enums ⟨[], "Node"⟩))))] := by decide

theorem tree_nodes : defsForType tree.defs tlNode = [nodeEmpty, node] := by rfl

theorem nodes_ok : EnumOk tree tlNode where
  variants := by decide +kernel
  paths := by
    rw [tree_nodes]
    intro d hd
    simp only [List.mem_cons, List.not_mem_nil, or_false] at hd
    rcases hd with rfl | rfl
    · rfl
    · rfl

theorem leafFields_ok : StructOk tree node noGenerics leafFields where
  generated := List.mem_cons_of_mem _ (List.mem_singleton_self node)
  generic := by
    intro x ty h
    cases h
  attrs := by decide
  names := by decide
  fits := by
    rw [node_fields]
    intro f hf
    simp only [List.mem_cons, List.not_mem_nil, or_false] at hf
    rcases hf with rfl | rfl | rfl
    · exact ⟨_, rfl, true, rfl⟩
    · exact ⟨_, rfl, ⟨_, rfl⟩, _, rfl⟩
    · exact ⟨_, rfl, ⟨_, rfl⟩, _, rfl⟩

theorem leaf_isValue :
    ValueOf tree BitsAgree (.enum tlNode) (.variant "Node" (some (.struct leafFields))) := by
  have hnode : defVariantName tree.isNumeric node = "Node" := by decide +kernel
  have hempty : defVariantName tree.isNumeric nodeEmpty = "Empty" := by decide +kernel
  have hmem : node ∈ defsForType tree.defs tlNode ∧ nodeEmpty ∈ defsForType tree.defs tlNode := by
    rw [tree_nodes]
    exact ⟨List.mem_cons_of_mem _ (List.mem_singleton_self node), List.mem_cons_self⟩
  rw [← hnode]
  refine ⟨4, .payload nodes_ok hmem.1 rfl (.struct leafFields_ok (bitsAgree_of_nodup (by decide)) ?_)⟩
  rw [node_fields]
  intro f hf v ty x sh hv hpart hsh
  simp only [List.mem_cons, List.not_mem_nil, or_false] at hf
  rcases hf with rfl | rfl | rfl
  · cases hpart
  · cases hv
    cases hpart
  · cases hv
    cases hpart
    cases hsh
    have henum : resolve tree (.leaf (.enums ⟨[], "Node"⟩)) = some (.enum tlNode) := rfl
    refine .vec henum rfl ?_
    intro y hy
    rw [List.mem_singleton.mp hy, ← hempty]
    exact .unit nodes_ok hmem.2 rfl

theorem tree_plain : ∀ d ∈ tree.defs, Plain tree d := by
  intro d hd
  simp only [tree, List.mem_cons, List.not_mem_nil, or_false] at hd
  rcases hd with rfl | rfl
  · exact ⟨by decide, by decide, by decide, by decide, by simp [LowBits, nodeEmpty]⟩
  · exact ⟨by decide, by decide, by decide, by decide, by simp [LowBits, node, Parameter.flag]⟩

end Ferogram.TlGen
