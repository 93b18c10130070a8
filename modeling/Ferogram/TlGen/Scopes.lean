import Ferogram.TlGen.Emitted
import Ferogram.TlTypes.RoundTrip
import Mathlib.Data.Nat.Bitwise

/- The values of a generated type, and what a struct's two bodies make of a flag.

   `IsValue S P` are the values of a shape whose structs all satisfy `P`. The writer puts the bit
   of a flag where the flags field of that name is written (`flagsWord`); the reader takes it
   from the variable that the name finds (`Scope`). `BitsAgree` says that the parameters of a bit
   are there together, and `FlagsRead` that every test finds the bit of its own parameter. -/
namespace Ferogram.TlGen
open Bytes TlTypes PartialWriter

/-! Values. -/

/-- The primitive codec gives the value back. -/
def CodecReads (t : TlType) (x : t.Val) : Prop :=
  ∀ rest, (TlTypes.deserialize t).run (TlTypes.serialize t x ++ rest) = .ok (x, rest)

/-- So does the codec of a vector's length. -/
def CountReads (n : Nat) : Prop := asUsize (Int32.ofNat n) = n

/-- A value has the type of a field, as far as the field itself goes. -/
def FitsField (S : Schema) (generics : String → Option RustType) : FieldType → Value → Prop
  | .word, _ => False
  | .bool, v => ∃ b : Bool, v = .leaf .bool b
  | .plain ty, _ => ∃ sh, shapeOf S generics ty = some sh
  | .option ty, v => (∃ sh, shapeOf S generics ty = some sh) ∧ ∃ x, v = .option x

/-- The value inside a field, with its type. -/
def part : FieldType → Value → Option (RustType × Value)
  | .plain ty, v => some (ty, v)
  | .option ty, .option (some x) => some (ty, x)
  | _, _ => none

/-- A value of the struct that is declared, as far as the struct itself goes. -/
structure StructOk (S : Schema) (d : Definition) (generics : String → Option RustType)
    (fields : List (String × Value)) : Prop where
  generated : d ∈ S.defs
  generic : ∀ x ty, generics x = some ty → x ∈ (writeStruct d).generics
  attrs : ((writeStruct d).fields.map Prod.fst).Nodup
  names : fields.map Prod.fst = (writeStruct d).fields.map Prod.fst
  fits : ∀ f ∈ (writeStruct d).fields, ∃ v, fields.lookup f.1 = some v ∧ FitsField S generics f.2 v

/-- The enum of a type is one that Rust accepts: the variants have names of their own, and the
paths of the constructors are those of their structs. -/
structure EnumOk (S : Schema) (ty : Ty) : Prop where
  variants : ((writeEnum S.isNumeric S.defs ty).map Prod.fst).Nodup
  paths : ∀ d ∈ defsForType S.defs ty,
    resolve S (.leaf (.types (defQualName d))) = some (.struct d noGenerics)

/-- The values of a shape, to a depth. -/
inductive IsValue (S : Schema) (P : Definition → List (String × Value) → Prop) :
    Nat → Shape → Value → Prop where
  | leaf {n : Nat} {t : TlType} {x : t.Val} (hread : CodecReads t x) :
    IsValue S P (n + 1) (.leaf t) (.leaf t x)
  | vec {n : Nat} {item : RustType} {sh : Shape} {items : List Value}
    (hshape : resolve S item = some sh) (hcount : CountReads items.length)
    (hitems : ∀ x ∈ items, IsValue S P n sh x) : IsValue S P (n + 1) (.vec item) (.vec items)
  | rawVec {n : Nat} {item : RustType} {sh : Shape} {items : List Value}
    (hshape : resolve S item = some sh) (hcount : CountReads items.length)
    (hitems : ∀ x ∈ items, IsValue S P n sh x) : IsValue S P (n + 1) (.rawVec item) (.rawVec items)
  | struct {n : Nat} {d : Definition} {generics : String → Option RustType}
    {fields : List (String × Value)} (hok : StructOk S d generics fields) (hP : P d fields)
    (hparts : ∀ f ∈ (writeStruct d).fields, ∀ v ty x sh, fields.lookup f.1 = some v →
      part f.2 v = some (ty, x) → shapeOf S generics ty = some sh → IsValue S P n sh x) :
    IsValue S P (n + 1) (.struct d generics) (.struct fields)
  | unit {n : Nat} {ty : Ty} {d : Definition} (hok : EnumOk S ty) (hd : d ∈ defsForType S.defs ty)
    (hparams : d.params.isEmpty = true) :
    IsValue S P (n + 1) (.enum ty) (.variant (defVariantName S.isNumeric d) none)
  | payload {n : Nat} {ty : Ty} {d : Definition} {x : Value} (hok : EnumOk S ty)
    (hd : d ∈ defsForType S.defs ty) (hparams : d.params.isEmpty = false)
    (hx : IsValue S P n (.struct d noGenerics) x) :
    IsValue S P (n + 1) (.enum ty) (.variant (defVariantName S.isNumeric d) (some x))

/-- A value whose structs all satisfy `P`. -/
def ValueOf (S : Schema) (P : Definition → List (String × Value) → Prop) (sh : Shape) (v : Value) :
    Prop :=
  ∃ n, IsValue S P n sh v

/-- The value is written, and from its bytes and anything behind them it is read back, with
what was behind left over. -/
def RoundTrips (S : Schema) (sh : Shape) (v : Value) : Prop :=
  ∃ n b, ∀ depth, n ≤ depth → serialize S depth sh v = some b ∧
    ∀ rest, (deserialize S depth sh).run (b ++ rest) = .ok (v, rest)

theorem IsValue.mono {S : Schema} {P Q : Definition → List (String × Value) → Prop} {n : Nat} {sh : Shape}
    {v : Value} (hPQ : ∀ d generics fields, StructOk S d generics fields → P d fields → Q d fields)
    (h : IsValue S P n sh v) : IsValue S Q n sh v := by
  induction h with
  | leaf hread => exact .leaf hread
  | vec hshape hcount _ ih => exact .vec hshape hcount ih
  | rawVec hshape hcount _ ih => exact .rawVec hshape hcount ih
  | struct hok hP _ ih => exact .struct hok (hPQ _ _ _ hok hP) ih
  | unit hok hd hparams => exact .unit hok hd hparams
  | payload hok hd hparams _ ih => exact .payload hok hd hparams ih

/-! Parameters. -/

/-- How the presence of a parameter is asked. -/
def paramTest (p : Parameter) : Test :=
  match p.ty with
  | .normal ty _ => if ty.name = "true" then .isTrue (paramAttrName p) else .isSome (paramAttrName p)
  | .flags => .isSome (paramAttrName p)

/-- The field is there, or true. -/
def present (fields : List (String × Value)) (p : Parameter) : Bool :=
  (runTest fields (paramTest p)).getD false

/-- The parameters that share a bit are all present or all absent. -/
def BitsAgree (d : Definition) (fields : List (String × Value)) : Prop :=
  ∀ p ∈ d.params, ∀ q ∈ d.params, ∀ fl, p.flag = some fl → q.flag = some fl →
    present fields p = present fields q

/-- No flag names a bit that a word does not have. -/
def LowBits (d : Definition) : Prop := ∀ p ∈ d.params, ∀ fl, p.flag = some fl → fl.index < 32

/-- What is written for a flags field. -/
def flagsWord (d : Definition) (fields : List (String × Value)) (flags : String) : UInt32 :=
  UInt32.ofNat ((runTerms fields (flagTerms d flags)).getD 0)

def fieldValue (fields : List (String × Value)) (p : Parameter) : Value :=
  (fields.lookup (paramAttrName p)).getD (.option none)

/-- The variable that the `let` of a parameter binds, if all went well before it. -/
def bindingOf (d : Definition) (fields : List (String × Value)) (p : Parameter) : String × Bound :=
  match p.ty with
  | .flags => ("_" ++ paramAttrName p, .word (flagsWord d fields p.name))
  | .normal ty none => (paramAttrName p, .field (typePath ty) (fieldValue fields p))
  | .normal _ (some _) => (paramAttrName p, .flagged (fieldValue fields p))

/-- The variable of a parameter. -/
def varName (p : Parameter) : String :=
  match p.ty with
  | .flags => "_" ++ paramAttrName p
  | .normal _ _ => paramAttrName p

/-- Where the parameter is read, the variable that its flag names has the bit that says whether
the parameter is present. Its own variable is an identifier and does not hide the cursor, and no flags
word behind it takes its name. -/
structure ParamReads (S : Schema) (fields : List (String × Value)) (scope : Scope) (p : Parameter)
    (rest : List Parameter) : Prop where
  ident : S.isIdent (varName p) = true
  test : ∀ fl, p.flag = some fl →
    testBit scope ("_" ++ fl.name) fl.index = some (present fields p)
  cursor : p.ty ≠ .flags → paramAttrName p ≠ "buf"
  kept : p.ty ≠ .flags → ∀ g ∈ rest, g.ty = .flags → "_" ++ paramAttrName g ≠ paramAttrName p

/-- The parameters in turn, each in the scope that those before it make. -/
def Aligned (S : Schema) (d : Definition) (fields : List (String × Value)) : Scope → List Parameter → Prop
  | _, [] => True
  | scope, p :: rest => ParamReads S fields scope p rest ∧ Aligned S d fields (bindingOf d fields p :: scope) rest

/-- Every test of a flag finds the bit of its parameter. -/
structure FlagsRead (S : Schema) (d : Definition) (fields : List (String × Value)) : Prop where
  bits : LowBits d
  aligned : Aligned S d fields [] d.params

/-! Flags words. -/

theorem bitSet_eq_testBit (w index : Nat) : bitSet w index = w.testBit index := by
  have hpow : w &&& 1 <<< index = (w.testBit index).toNat * 2 ^ index := by
    rw [Nat.one_shiftLeft, Nat.and_two_pow]
  have hpos : 0 < 2 ^ index := Nat.two_pow_pos index
  unfold bitSet
  rw [hpow]
  cases w.testBit index with
  | false => simp
  | true =>
    have hne : true.toNat * 2 ^ index ≠ 0 := by
      rw [Bool.toNat_true, Nat.one_mul]
      omega
    exact bne_iff_ne.mpr hne

section
variable {fields : List (String × Value)} {terms : List Term} {w : Nat}

theorem runTerms_some (h : ∀ t ∈ terms, t.index < 32 ∧ ∃ b, runTest fields t.test = some b) :
    ∃ w, runTerms fields terms = some w := by
  induction terms with
  | nil => exact ⟨0, rfl⟩
  | cons t rest ih =>
    obtain ⟨hindex, b, hb⟩ := h t List.mem_cons_self
    obtain ⟨w, hw⟩ := ih fun u hu => h u (List.mem_cons_of_mem t hu)
    rw [runTerms, runTerm, if_pos hindex, hb, hw]
    exact ⟨_, rfl⟩

theorem runTerms_cons {t : Term} {rest : List Term} (h : runTerms fields (t :: rest) = some w) :
    ∃ b v, t.index < 32 ∧ runTest fields t.test = some b ∧ runTerms fields rest = some v ∧
      w = (if b then 1 <<< t.index else 0) ||| v := by
  obtain ⟨x, hx, h⟩ := Option.bind_eq_some_iff.mp h
  obtain ⟨v, hv, hw⟩ := Option.map_eq_some_iff.mp h
  unfold runTerm at hx
  split at hx
  · next hindex =>
    obtain ⟨b, hb, hx⟩ := Option.map_eq_some_iff.mp hx
    exact ⟨b, v, hindex, hb, hv, by rw [← hw, ← hx]⟩
  · cases hx

theorem runTerms_mem {t : Term} (h : runTerms fields terms = some w) (ht : t ∈ terms) : t.index < 32 := by
  induction terms generalizing w with
  | nil => cases ht
  | cons u rest ih =>
    obtain ⟨b, v, hindex, -, hv, -⟩ := runTerms_cons h
    rcases List.mem_cons.mp ht with rfl | ht
    · exact hindex
    · exact ih hv ht

/-- A bit is set if a parameter of the bit is present. -/
theorem testBit_runTerms (h : runTerms fields terms = some w) (i : Nat) :
    w.testBit i = true ↔ ∃ t ∈ terms, t.index = i ∧ runTest fields t.test = some true := by
  induction terms generalizing w with
  | nil =>
    cases h
    simp
  | cons t rest ih =>
    obtain ⟨b, v, -, hb, hv, rfl⟩ := runTerms_cons h
    have hbit : (if b then 1 <<< t.index else 0 : Nat).testBit i = true ↔ t.index = i ∧ b = true := by
      cases b with
      | false => simp
      | true => simp [Nat.one_shiftLeft, Nat.testBit_two_pow]
    rw [Nat.testBit_lor, Bool.or_eq_true, hbit, ih hv]
    constructor
    · rintro (⟨hi, rfl⟩ | ⟨u, hu, hi⟩)
      · exact ⟨t, List.mem_cons_self, hi, hb⟩
      · exact ⟨u, List.mem_cons_of_mem t hu, hi⟩
    · rintro ⟨u, hu, hi, htest⟩
      rcases List.mem_cons.mp hu with rfl | hu
      · left
        rw [htest] at hb
        cases hb
        exact ⟨hi, rfl⟩
      · right
        exact ⟨u, hu, hi, htest⟩

theorem runTerms_lt (h : runTerms fields terms = some w) : w < 2 ^ 32 := by
  apply Nat.lt_pow_two_of_testBit
  intro i hi
  rw [Bool.eq_false_iff]
  intro hbit
  obtain ⟨t, ht, rfl, -⟩ := (testBit_runTerms h i).mp hbit
  have hindex := runTerms_mem h ht
  omega

end

section
variable {S : Schema} {d : Definition} {generics : String → Option RustType}
  {fields : List (String × Value)} {p : Parameter}

theorem mem_flagTerms {f : String} {t : Term} : t ∈ flagTerms d f ↔
    ∃ p ∈ d.params, ∃ fl, p.flag = some fl ∧ fl.name = f ∧ t = ⟨paramTest p, fl.index⟩ := by
  unfold flagTerms
  rw [List.mem_filterMap]
  constructor
  · rintro ⟨p, hp, h⟩
    refine ⟨p, hp, ?_⟩
    unfold Parameter.flag paramTest
    split at h
    · next ty fl hty =>
      rw [hty]
      refine ⟨fl, rfl, ?_⟩
      by_cases hname : fl.name = f
      · rw [if_neg (not_not.mpr hname)] at h
        refine ⟨hname, ?_⟩
        by_cases htrue : ty.name = "true"
        · rw [if_pos htrue] at h
          simp only [htrue, if_true]
          exact (Option.some.inj h).symm
        · rw [if_neg htrue] at h
          simp only [htrue, if_false]
          exact (Option.some.inj h).symm
      · rw [if_pos hname] at h
        cases h
    · cases h
  · rintro ⟨p, hp, fl, hfl, hname, rfl⟩
    refine ⟨p, hp, ?_⟩
    unfold Parameter.flag at hfl
    unfold paramTest
    cases hty : p.ty with
    | flags => rw [hty] at hfl; cases hfl
    | normal ty flag =>
      rw [hty] at hfl
      subst hfl
      by_cases htrue : ty.name = "true"
      · simp [hname, htrue]
      · simp [hname, htrue]

/-- No bit is shared, so there is nothing to agree on. -/
theorem bitsAgree_of_nodup (h : (d.params.filterMap Parameter.flag).Nodup) : BitsAgree d fields := by
  have hpairwise := List.pairwise_filterMap.mp h
  have hbefore : d.params.Pairwise fun p q => ∀ fl, p.flag = some fl → q.flag = some fl →
      present fields p = present fields q :=
    hpairwise.imp fun hne fl hp hq => absurd rfl (hne fl hp fl hq)
  have hbehind : d.params.Pairwise (flip fun p q => ∀ fl, p.flag = some fl → q.flag = some fl →
      present fields p = present fields q) :=
    hpairwise.imp fun hne fl hq hp => absurd rfl (hne fl hp fl hq)
  have hself : ∀ p ∈ d.params, ∀ fl, p.flag = some fl → p.flag = some fl →
      present fields p = present fields p :=
    fun _ _ _ _ _ => rfl
  intro p hp q hq
  exact List.Pairwise.forall_of_forall_of_flip hself hbefore hbehind hp hq

theorem flagTerms_of_unused (h : isUnusedFlag d p = true) : flagTerms d p.name = [] := by
  rw [List.eq_nil_iff_forall_not_mem]
  intro t ht
  obtain ⟨q, hq, fl, hfl, hname, -⟩ := mem_flagTerms.mp ht
  unfold isUnusedFlag at h
  have hnot : q.guardedBy p.name = false := by
    simpa using (List.any_eq_false.mp (by simpa using h)) q hq
  unfold Parameter.flag at hfl
  unfold Parameter.guardedBy at hnot
  cases hty : q.ty with
  | flags => rw [hty] at hfl; cases hfl
  | normal ty flag =>
    rw [hty] at hfl hnot
    subst hfl
    simp [hname] at hnot

theorem isField_iff : p.isField = true ↔ p.ty ≠ .flags := by
  unfold Parameter.isField
  cases p.ty with
  | flags => simp
  | normal ty flag => simp

theorem ne_flags_of_normal {ty : Ty} {flag : Option Flag} (h : p.ty = .normal ty flag) : p.ty ≠ .flags := by
  rw [h]
  intro h
  cases h

theorem mem_writeStruct (hp : p ∈ d.params) (hty : p.ty ≠ .flags) :
    (paramAttrName p, paramQualName p) ∈ (writeStruct d).fields := by
  exact List.mem_map.mpr ⟨p, List.mem_filter.mpr ⟨hp, isField_iff.mpr hty⟩, rfl⟩

/-- The value of a parameter of a struct. -/
theorem StructOk.value (h : StructOk S d generics fields) (hp : p ∈ d.params) (hty : p.ty ≠ .flags) :
    fields.lookup (paramAttrName p) = some (fieldValue fields p) ∧
      FitsField S generics (paramQualName p) (fieldValue fields p) := by
  obtain ⟨v, hv, hfits⟩ := h.fits _ (mem_writeStruct hp hty)
  have hval : fieldValue fields p = v := by
    unfold fieldValue
    rw [hv, Option.getD_some]
  rw [hval]
  exact ⟨hv, hfits⟩

section
variable {ty : Ty} {fl : Flag}

theorem StructOk.plain (h : StructOk S d generics fields) (hp : p ∈ d.params) (hty : p.ty = .normal ty none) :
    ∃ sh, shapeOf S generics (typePath ty) = some sh := by
  obtain ⟨-, hfits⟩ := h.value hp (ne_flags_of_normal hty)
  unfold paramQualName at hfits
  rw [hty] at hfits
  exact hfits

/-- A `true` is its own presence. -/
theorem StructOk.isTrue (h : StructOk S d generics fields) (hp : p ∈ d.params)
    (hty : p.ty = .normal ty (some fl)) (htrue : ty.name = "true") :
    runTest fields (paramTest p) = some (present fields p) ∧
      fieldValue fields p = .leaf .bool (present fields p) := by
  obtain ⟨hv, hfits⟩ := h.value hp (ne_flags_of_normal hty)
  unfold paramQualName at hfits
  rw [hty] at hfits
  simp only [htrue, if_true] at hfits
  obtain ⟨b, hb⟩ := hfits
  have htest : runTest fields (paramTest p) = some b := by
    unfold paramTest
    rw [hty]
    simp only [htrue, if_true, runTest]
    rw [hv, hb]
  have hpresent : present fields p = b := by
    unfold present
    rw [htest, Option.getD_some]
  rw [hpresent]
  exact ⟨htest, hb⟩

theorem StructOk.isSome (h : StructOk S d generics fields) (hp : p ∈ d.params)
    (hty : p.ty = .normal ty (some fl)) (htrue : ty.name ≠ "true") :
    runTest fields (paramTest p) = some (present fields p) ∧
      (∃ sh, shapeOf S generics (typePath ty) = some sh) ∧
        ∃ x, fieldValue fields p = .option x ∧ present fields p = x.isSome := by
  obtain ⟨hv, hfits⟩ := h.value hp (ne_flags_of_normal hty)
  unfold paramQualName at hfits
  rw [hty] at hfits
  simp only [htrue, if_false] at hfits
  obtain ⟨hshape, x, hx⟩ := hfits
  have htest : runTest fields (paramTest p) = some x.isSome := by
    unfold paramTest
    rw [hty]
    simp only [htrue, if_false, runTest]
    rw [hv, hx]
  have hpresent : present fields p = x.isSome := by
    unfold present
    rw [htest, Option.getD_some]
  rw [hpresent]
  exact ⟨htest, hshape, x, hx, rfl⟩

theorem StructOk.test (h : StructOk S d generics fields) (hp : p ∈ d.params) (hfl : p.flag = some fl) :
    runTest fields (paramTest p) = some (present fields p) := by
  unfold Parameter.flag at hfl
  cases hty : p.ty with
  | flags => rw [hty] at hfl; cases hfl
  | normal ty flag =>
    rw [hty] at hfl
    subst hfl
    by_cases htrue : ty.name = "true"
    · exact (h.isTrue hp hty htrue).1
    · exact (h.isSome hp hty htrue).1

end

/-- The word that is written, if no bit is too high. -/
theorem StructOk.flagsWord (h : StructOk S d generics fields)
    (hbits : LowBits d) (f : String) :
    ∃ w, runTerms fields (flagTerms d f) = some w := by
  apply runTerms_some
  intro t ht
  obtain ⟨p, hp, fl, hfl, -, rfl⟩ := mem_flagTerms.mp ht
  exact ⟨hbits p hp fl hfl, _, h.test hp hfl⟩

/-- The bit of a parameter in the word that is written. -/
theorem StructOk.bit_flagsWord (h : StructOk S d generics fields) (hagree : BitsAgree d fields)
    (hbits : LowBits d) (hp : p ∈ d.params) {fl : Flag}
    (hfl : p.flag = some fl) :
    (Bound.word (TlGen.flagsWord d fields fl.name)).bit fl.index = some (present fields p) := by
  obtain ⟨w, hw⟩ := h.flagsWord hbits fl.name
  have hword : (TlGen.flagsWord d fields fl.name).toNat = w := by
    unfold TlGen.flagsWord
    rw [hw, Option.getD_some]
    exact UInt32.toNat_ofNat_of_lt (runTerms_lt hw)
  have hbit : w.testBit fl.index = true ↔ present fields p = true := by
    rw [testBit_runTerms hw]
    constructor
    · rintro ⟨t, ht, hindex, htest⟩
      obtain ⟨q, hq, gl, hgl, hname, rfl⟩ := mem_flagTerms.mp ht
      have hsame : gl = fl := by
        cases gl
        cases fl
        simp_all
      rw [h.test hq hgl] at htest
      rw [hagree p hp q hq fl hfl (by rw [hgl, hsame])]
      exact Option.some.inj htest
    · intro hpresent
      refine ⟨⟨paramTest p, fl.index⟩, mem_flagTerms.mpr ⟨p, hp, fl, hfl, rfl, rfl⟩, rfl, ?_⟩
      rw [h.test hp hfl, hpresent]
  rw [Bound.bit, if_pos (hbits p hp fl hfl), hword, bitSet_eq_testBit, Bool.eq_iff_iff.mpr hbit]

end

end Ferogram.TlGen
