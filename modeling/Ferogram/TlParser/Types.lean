import Ferogram.TlParser.Definition

/- Which texts are types. A text is read as a type exactly if it is what that type is written as
   (`typeFromStr_ok_iff`). `Display` puts the mark of a generic reference behind the namespace and
   `from_str` takes it in front, so the two agree on types whose references have no namespace
   (`typeText_eq_sourceText`). -/
namespace Ferogram.TlParser
open TlGen Parsers Words Radix

variable {c : Char} {s t a b : List Char}

/-! Cutting. -/

theorem rsplitOnce_append (h : c ∉ b) (a : List Char) : rsplitOnce c (a ++ c :: b) = some (a, b) := by
  have hrev : (a ++ c :: b).reverse = b.reverse ++ c :: a.reverse := by
    rw [List.reverse_append, List.reverse_cons, List.append_assoc, List.singleton_append]
  rw [rsplitOnce, hrev, splitAtChar_append (by simpa using h), Option.map_some, List.reverse_reverse, List.reverse_reverse]

theorem rsplitOnce_eq_some (h : rsplitOnce c s = some (a, b)) : s = a ++ c :: b ∧ c ∉ b := by
  obtain ⟨⟨x, y⟩, hsplit, heq⟩ := Option.map_eq_some_iff.mp h
  obtain ⟨rfl, rfl⟩ := Prod.mk.inj heq
  obtain ⟨hs, hc⟩ := splitAtChar_eq_some hsplit
  refine ⟨?_, by simpa using hc⟩
  rw [← List.reverse_reverse s, hs, List.reverse_append, List.reverse_cons, List.append_assoc, List.singleton_append]

theorem rsplitOnce_eq_none (h : rsplitOnce c s = none) : c ∉ s := by
  intro hmem
  have := splitAtChar_eq_none (Option.map_eq_none_iff.mp h)
  exact this (List.mem_reverse.mpr hmem)

theorem stripPrefix_eq_some (h : stripPrefix a s = some b) : s = a ++ b := by
  unfold stripPrefix at h
  split at h
  · next hpre =>
    obtain ⟨u, rfl⟩ := List.isPrefixOf_iff_prefix.mp hpre
    rw [List.drop_left] at h
    rw [Option.some.inj h]
  · cases h

theorem stripPrefix_eq_none (h : stripPrefix [c] s = none) : s.head? ≠ some c := by
  intro hhead
  obtain ⟨t, rfl⟩ := List.head?_eq_some_iff.mp hhead
  have := stripPrefix_append [c] t
  rw [List.singleton_append, h] at this
  cases this

theorem stripSuffix_append (a b : List Char) : stripSuffix b (a ++ b) = some a := by
  rw [stripSuffix, List.reverse_append, stripPrefix_append, Option.map_some, List.reverse_reverse]

theorem stripSuffix_eq_some (h : stripSuffix b s = some a) : s = a ++ b := by
  obtain ⟨x, hx, rfl⟩ := Option.map_eq_some_iff.mp h
  rw [← List.reverse_reverse s, stripPrefix_eq_some hx, List.reverse_append, List.reverse_reverse]

theorem splitAtChar_of_not_mem (h : c ∉ s) : splitAtChar c s = none := by
  cases hs : splitAtChar c s with
  | none => rfl
  | some r =>
    have := (splitAtChar_eq_some (a := r.1) (b := r.2) hs).1
    exact absurd (this ▸ List.mem_append_right _ List.mem_cons_self) h

/-! Names with a namespace. -/

def dotted (ns : List (List Char)) (name : List Char) : List Char := ns.flatMap (· ++ ['.']) ++ name

theorem dotted_of_ne_nil {ns : List (List Char)} (h : ns ≠ []) (name : List Char) :
    dotted ns name = ['.'].intercalate ns ++ '.' :: name := by
  induction ns with
  | nil => exact absurd rfl h
  | cons part ns ih =>
    cases ns with
    | nil => simp [dotted, List.intercalate]
    | cons part' ns =>
      have := ih (List.cons_ne_nil _ _)
      rw [dotted, List.flatMap_cons, List.append_assoc, ← dotted, this, List.intercalate_cons_cons]
      simp

theorem mem_dotted {ns : List (List Char)} {name : List Char} :
    c ∈ dotted ns name ↔ (∃ part ∈ ns, c ∈ part) ∨ (c = '.' ∧ ns ≠ []) ∨ c ∈ name := by
  unfold dotted
  simp only [List.mem_append, List.mem_flatMap, List.mem_singleton]
  constructor
  · rintro (⟨part, hpart, hc | rfl⟩ | hc)
    · exact Or.inl ⟨part, hpart, hc⟩
    · exact Or.inr (Or.inl ⟨rfl, List.ne_nil_of_mem hpart⟩)
    · exact Or.inr (Or.inr hc)
  · rintro (⟨part, hpart, hc⟩ | ⟨rfl, hns⟩ | hc)
    · exact Or.inl ⟨part, hpart, Or.inl hc⟩
    · obtain ⟨part, hpart⟩ := List.exists_mem_of_ne_nil ns hns
      exact Or.inl ⟨part, hpart, Or.inr rfl⟩
    · exact Or.inr hc

theorem splitName_dotted {ns : List (List Char)} {name : List Char} (hns : ∀ part ∈ ns, '.' ∉ part)
    (hname : '.' ∉ name) : splitName (dotted ns name) = (ns, name) := by
  unfold splitName
  cases ns with
  | nil =>
    have hnone : rsplitOnce '.' (dotted [] name) = none := by
      cases h : rsplitOnce '.' (dotted [] name) with
      | none => rfl
      | some r =>
        have := (rsplitOnce_eq_some (a := r.1) (b := r.2) h).1
        exact absurd (this ▸ List.mem_append_right _ List.mem_cons_self : '.' ∈ dotted [] name) hname
    rw [hnone]
    rfl
  | cons part ns =>
    rw [dotted_of_ne_nil (List.cons_ne_nil _ _), rsplitOnce_append hname]
    exact congrArg (·, name) (List.splitOn_intercalate '.' hns (List.cons_ne_nil _ _))

theorem splitName_spec (s : List Char) :
    s = dotted (splitName s).1 (splitName s).2 ∧ (∀ part ∈ (splitName s).1, '.' ∉ part) ∧ '.' ∉ (splitName s).2 := by
  unfold splitName
  split
  · next nsPart n h =>
    obtain ⟨hs, hn⟩ := rsplitOnce_eq_some h
    refine ⟨?_, ?_, hn⟩
    · rw [dotted_of_ne_nil (List.splitOn_ne_nil _ _), List.intercalate_splitOn, hs]
    · intro part hpart hmem
      have := (splitOnP_pieces nsPart part hpart '.' hmem).2
      simp at this
  · next h => exact ⟨rfl, by simp, rsplitOnce_eq_none h⟩

/-- The parts of a name as strings. -/
theorem exists_splitName (s : List Char) : ∃ (ns : List String) (name : String),
    splitName s = (ns.map String.toList, name.toList) := by
  refine ⟨(splitName s).1.map String.ofList, String.ofList (splitName s).2, ?_⟩
  simp [Function.comp_def]

/-- A text is cut into these parts, and none of the namespace is empty. -/
theorem splitName_iff {ns : List String} {name : String} :
    splitName s = (ns.map String.toList, name.toList) ∧ (ns.map String.toList).any List.isEmpty = false ↔
      s = dotted (ns.map String.toList) name.toList ∧ (∀ part ∈ ns, part.toList ≠ [] ∧ '.' ∉ part.toList) ∧
        '.' ∉ name.toList := by
  constructor
  · rintro ⟨hcut, hfull⟩
    obtain ⟨hs, hns, hname⟩ := splitName_spec s
    rw [hcut] at hs hns hname
    refine ⟨hs, fun part hpart => ⟨?_, hns _ (List.mem_map_of_mem hpart)⟩, hname⟩
    simpa using List.any_eq_false.mp hfull _ (List.mem_map_of_mem hpart)
  · rintro ⟨rfl, hparts, hname⟩
    constructor
    · refine splitName_dotted (fun part hpart => ?_) hname
      obtain ⟨p, hp, rfl⟩ := List.mem_map.mp hpart
      exact (hparts p hp).2
    · rw [List.any_eq_false]
      intro part hpart
      obtain ⟨p, hp, rfl⟩ := List.mem_map.mp hpart
      simpa using (hparts p hp).1

theorem map_ofList_toList (ns : List String) : (ns.map String.toList).map String.ofList = ns := by
  simp [Function.comp_def]

/-! Types. -/

/-- `Display` of a type, with the mark in front of the namespace. -/
def sourceText : Ty → List Char
  | ⟨ns, name, _, genericRef, genericArg⟩ =>
    (if genericRef then ['!'] else []) ++ (dotted (ns.map String.toList) name.toList ++
      match genericArg with
      | some arg => '<' :: sourceText arg ++ ['>']
      | none => [])

/-- A part of a namespace, or a name. -/
def Part (s : List Char) : Prop := s ≠ [] ∧ '.' ∉ s ∧ '<' ∉ s

/-- A type as `from_str` builds it. -/
def TyFine : Ty → Prop
  | ⟨ns, name, bare, genericRef, genericArg⟩ =>
    (∀ part ∈ ns, Part part.toList) ∧ Part name.toList ∧ bare = (name.toList.head?.any Char.isLower) ∧
      (genericRef = false → (dotted (ns.map String.toList) name.toList).head? ≠ some '!') ∧
      match genericArg with
      | some arg => TyFine arg
      | none => True

theorem typeFromParts_iff {genericRef : Bool} {genericArg : Option Ty} {ty : Ty} :
    typeFromParts genericRef genericArg s = .ok ty ↔
      ty.genericRef = genericRef ∧ ty.genericArg = genericArg ∧ s = dotted (ty.ns.map String.toList) ty.name.toList ∧
        (∀ part ∈ ty.ns, part.toList ≠ [] ∧ '.' ∉ part.toList) ∧ ty.name.toList ≠ [] ∧ '.' ∉ ty.name.toList ∧
        ty.bare = ty.name.toList.head?.any Char.isLower := by
  unfold typeFromParts
  constructor
  · intro h
    obtain ⟨ns, name, hcut⟩ := exists_splitName s
    simp only [hcut, map_ofList_toList, String.ofList_toList] at h
    split at h
    · cases h
    · next hfull =>
      obtain ⟨hs, hparts, hdot⟩ := splitName_iff.mp ⟨hcut, Bool.eq_false_of_not_eq_true hfull⟩
      split at h
      · cases h
      · next first rest hname =>
        cases h
        exact ⟨rfl, rfl, hs, hparts, by simp [hname], hdot, by simp [hname]⟩
  · rintro ⟨hre, harg, hs, hparts, hnil, hdot, hbare⟩
    obtain ⟨hcut, hfull⟩ := splitName_iff.mpr ⟨hs, hparts, hdot⟩
    obtain ⟨first, rest, hname⟩ := List.exists_cons_of_ne_nil hnil
    have hback : String.ofList (first :: rest) = ty.name := by rw [← hname, String.ofList_toList]
    rw [hname] at hbare
    rw [hcut]
    simp only [hfull, hname, hback, map_ofList_toList, Bool.false_eq_true, if_false]
    obtain ⟨ns, name, bare, genericRef', genericArg'⟩ := ty
    simp only at hre harg hbare
    subst hre harg hbare
    rfl

/-- The mark of a generic reference. -/
def mark (genericRef : Bool) : List Char := if genericRef then ['!'] else []

theorem sourceText_eq (ty : Ty) : sourceText ty = mark ty.genericRef ++ (dotted (ty.ns.map String.toList) ty.name.toList ++
    match ty.genericArg with
    | some arg => '<' :: sourceText arg ++ ['>']
    | none => []) := by
  obtain ⟨ns, name, bare, genericRef, genericArg⟩ := ty
  cases genericArg <;> rfl

theorem exists_mark (s : List Char) :
    ∃ genericRef body, s = mark genericRef ++ body ∧ (genericRef = false → body.head? ≠ some '!') := by
  by_cases h : s.head? = some '!'
  · obtain ⟨t, rfl⟩ := List.head?_eq_some_iff.mp h
    exact ⟨true, t, rfl, fun h => absurd h.symm Bool.false_ne_true⟩
  · exact ⟨false, s, rfl, fun _ => h⟩

theorem typeFrom_mark (fuel : Nat) {genericRef : Bool} {body : List Char}
    (h : genericRef = false → body.head? ≠ some '!') : typeFrom (fuel + 1) (mark genericRef ++ body) =
      match splitAtChar '<' body with
      | some (name, rest) =>
        match stripSuffix ['>'] rest with
        | some arg =>
          match typeFrom fuel arg with
          | .ok arg => typeFromParts genericRef (some arg) name
          | .error e => .error e
        | none => .error .invalidGeneric
      | none => typeFromParts genericRef none body := by
  cases genericRef with
  | true =>
    have hstrip : stripPrefix ['!'] (mark true ++ body) = some body := stripPrefix_append ['!'] body
    rewrite [typeFrom, hstrip]
    rfl
  | false =>
    have hstrip : stripPrefix ['!'] (mark false ++ body) = none := by
      cases hs : stripPrefix ['!'] (mark false ++ body) with
      | none => rfl
      | some t =>
        have hbody : body = '!' :: t := stripPrefix_eq_some hs
        exact absurd (congrArg List.head? hbody) (h rfl)
    rewrite [typeFrom, hstrip]
    rfl

theorem tyFine_iff {ty : Ty} : TyFine ty ↔
    (∀ part ∈ ty.ns, Part part.toList) ∧ Part ty.name.toList ∧ ty.bare = (ty.name.toList.head?.any Char.isLower) ∧
      (ty.genericRef = false → (dotted (ty.ns.map String.toList) ty.name.toList).head? ≠ some '!') ∧
      ∀ arg, ty.genericArg = some arg → TyFine arg := by
  obtain ⟨ns, name, bare, genericRef, genericArg⟩ := ty
  cases genericArg with
  | none => simp [TyFine]
  | some arg => simp [TyFine]

/-- `<` does not stand in a name. -/
theorem TyFine.name_closed {ty : Ty} (h : TyFine ty) : '<' ∉ dotted (ty.ns.map String.toList) ty.name.toList := by
  obtain ⟨hns, hname, -⟩ := tyFine_iff.mp h
  rw [mem_dotted]
  rintro (⟨part, hpart, hc⟩ | ⟨hc, -⟩ | hc)
  · obtain ⟨p, hp, rfl⟩ := List.mem_map.mp hpart
    exact (hns p hp).2.2 hc
  · exact absurd hc (by decide)
  · exact hname.2.2 hc

theorem dotted_ne_nil {ns : List (List Char)} {name : List Char} (h : name ≠ []) : dotted ns name ≠ [] :=
  fun hnil => h (List.append_eq_nil_iff.mp hnil).2

/-- The parts of a type that its text can be cut into. -/
theorem typeFromParts_fine_iff {genericRef : Bool} {genericArg : Option Ty} {ty : Ty} :
    (typeFromParts genericRef genericArg s = .ok ty ∧ '<' ∉ s ∧ (genericRef = false → s.head? ≠ some '!') ∧
        ∀ arg, genericArg = some arg → TyFine arg) ↔
      ty.genericRef = genericRef ∧ ty.genericArg = genericArg ∧ s = dotted (ty.ns.map String.toList) ty.name.toList ∧
        TyFine ty := by
  rw [typeFromParts_iff]
  constructor
  · rintro ⟨⟨hgr, hga, rfl, hparts, hnil, hdot, hbare⟩, hclosed, hhead, hargs⟩
    refine ⟨hgr, hga, rfl, tyFine_iff.mpr ⟨fun part hpart => ⟨(hparts part hpart).1, (hparts part hpart).2, fun hc =>
      hclosed ?_⟩, ⟨hnil, hdot, fun hc => hclosed ?_⟩, hbare, fun h => hhead (hgr.symm.trans h),
      fun arg h => hargs arg (hga.symm.trans h)⟩⟩
    · exact mem_dotted.mpr (Or.inl ⟨_, List.mem_map_of_mem hpart, hc⟩)
    · exact mem_dotted.mpr (Or.inr (Or.inr hc))
  · rintro ⟨hgr, hga, rfl, hfine⟩
    obtain ⟨hns, hname, hbare, hhead, hargs⟩ := tyFine_iff.mp hfine
    exact ⟨⟨hgr, hga, rfl, fun part hpart => ⟨(hns part hpart).1, (hns part hpart).2.1⟩, hname.1, hname.2.1, hbare⟩,
      hfine.name_closed, fun h => hhead (hgr.trans h), fun arg h => hargs arg (hga.trans h)⟩

/-- The text of a type, if that of its argument is read right. -/
theorem typeFrom_succ_iff {fuel : Nat} {ty : Ty}
    (harg : ∀ {arg raw}, raw.length < s.length → (typeFrom fuel raw = .ok arg ↔ raw = sourceText arg ∧ TyFine arg)) :
    typeFrom (fuel + 1) s = .ok ty ↔ s = sourceText ty ∧ TyFine ty := by
  constructor
  · intro h
    -- without the mark there is a name, with an argument or none
    obtain ⟨genericRef, body, rfl, hmark⟩ := exists_mark s
    rw [typeFrom_mark fuel hmark] at h
    have hlen : body.length ≤ (mark genericRef ++ body).length := by simp
    split at h
    · next name rest hsplit =>
      obtain ⟨rfl, hclosed⟩ := splitAtChar_eq_some hsplit
      split at h
      · next raw hsuffix =>
        obtain rfl := stripSuffix_eq_some hsuffix
        split at h
        · next arg hread =>
          have hshort : raw.length < (mark genericRef ++ (name ++ '<' :: (raw ++ ['>']))).length := by
            simp only [List.length_append, List.length_cons]
            omega
          obtain ⟨rfl, hargfine⟩ := (harg hshort).mp hread
          have hhead : genericRef = false → name.head? ≠ some '!' := by
            intro hgr hc
            exact hmark hgr (by rw [List.head?_append, hc, Option.some_or])
          obtain ⟨rfl, hga, rfl, hfine⟩ := typeFromParts_fine_iff.mp
            ⟨h, hclosed, hhead, fun _ ha => Option.some.inj ha ▸ hargfine⟩
          refine ⟨?_, hfine⟩
          rw [sourceText_eq ty, hga]
          rfl
        · cases h
      · cases h
    · next hsplit =>
      obtain ⟨rfl, hga, rfl, hfine⟩ := typeFromParts_fine_iff.mp
        ⟨h, splitAtChar_eq_none hsplit, hmark, fun _ ha => by cases ha⟩
      refine ⟨?_, hfine⟩
      rw [sourceText_eq ty, hga, List.append_nil]
  · rintro ⟨rfl, hfine⟩
    obtain ⟨hparts, hclosed, hhead, hargs⟩ := typeFromParts_fine_iff.mpr ⟨rfl, rfl, rfl, hfine⟩
    have hname : dotted (ty.ns.map String.toList) ty.name.toList ≠ [] := dotted_ne_nil (tyFine_iff.mp hfine).2.1.1
    rw [sourceText_eq ty] at harg ⊢
    rw [typeFrom_mark]
    · cases hga : ty.genericArg with
      | none =>
        rw [hga] at hparts
        simp only [List.append_nil, splitAtChar_of_not_mem hclosed, hparts]
      | some arg =>
        rw [hga] at hparts harg
        have hread : typeFrom fuel (sourceText arg) = .ok arg := by
          refine (harg ?_).mpr ⟨rfl, hargs arg hga⟩
          simp only [List.length_append, List.length_cons]
          omega
        simp only [List.cons_append, splitAtChar_append hclosed, stripSuffix_append, hread, hparts]
    · intro hgr
      rw [List.head?_append_of_ne_nil _ hname]
      exact hhead hgr

theorem typeFrom_iff (fuel : Nat) : ∀ {raw ty}, raw.length < fuel →
    (typeFrom fuel raw = .ok ty ↔ raw = sourceText ty ∧ TyFine ty) := by
  induction fuel with
  | zero => exact fun h => absurd h (Nat.not_lt_zero _)
  | succ fuel ih => exact fun h => typeFrom_succ_iff fun hlt => ih (by omega)

/-- **What is read as a type.** -/
theorem typeFromStr_iff {ty : Ty} : typeFromStr s = .ok ty ↔ s = sourceText ty ∧ TyFine ty :=
  typeFrom_iff _ (Nat.lt_succ_self _)

/-! Printing. -/

/-- No generic reference has a namespace. -/
def RefsPlain : Ty → Prop
  | ⟨ns, _, _, genericRef, genericArg⟩ =>
    (genericRef = true → ns = []) ∧
      match genericArg with
      | some arg => RefsPlain arg
      | none => True

theorem refsPlain_iff {ty : Ty} : RefsPlain ty ↔
    (ty.genericRef = true → ty.ns = []) ∧ ∀ arg, ty.genericArg = some arg → RefsPlain arg := by
  obtain ⟨ns, name, bare, genericRef, genericArg⟩ := ty
  cases genericArg with
  | none => simp [RefsPlain]
  | some arg => simp [RefsPlain]

theorem typeText_eq_sourceText : ∀ {ty : Ty}, RefsPlain ty → typeText ty = sourceText ty
  | ⟨ns, name, bare, genericRef, none⟩, h => by
    cases genericRef with
    | false => simp [typeText, sourceText, dotted, List.flatMap_map]
    | true => simp [typeText, sourceText, dotted, h.1 rfl]
  | ⟨ns, name, bare, genericRef, some arg⟩, h => by
    have harg := typeText_eq_sourceText h.2
    cases genericRef with
    | false => simp [typeText, sourceText, dotted, List.flatMap_map, harg]
    | true => simp [typeText, sourceText, dotted, h.1 rfl, harg]

/-- What is printed of a type that was read is read as the type again. -/
theorem typeFromStr_typeText {ty : Ty} (h : TyFine ty) (hplain : RefsPlain ty) : typeFromStr (typeText ty) = .ok ty :=
  typeFromStr_iff.mpr ⟨typeText_eq_sourceText hplain, h⟩

theorem mem_sourceText_of_ref {g : String} : ∀ {ty : Ty}, g ∈ genericRefs ty → c ∈ g.toList → c ∈ sourceText ty
  | ⟨ns, name, bare, genericRef, none⟩, h, hc => by
    cases genericRef with
    | false => simp [genericRefs] at h
    | true =>
      simp only [genericRefs, if_true, List.append_nil, List.mem_singleton] at h
      subst h
      simp [sourceText, dotted, hc]
  | ⟨ns, name, bare, genericRef, some arg⟩, h, hc => by
    simp only [genericRefs, List.mem_append] at h
    rcases h with h | h
    · cases genericRef with
      | false => simp at h
      | true =>
        simp only [if_true, List.mem_singleton] at h
        subst h
        simp [sourceText, dotted, hc]
    · have := mem_sourceText_of_ref h hc
      simp [sourceText, this]

theorem sourceText_ne_nil {ty : Ty} (h : TyFine ty) : sourceText ty ≠ [] := by
  obtain ⟨-, hname, -⟩ := tyFine_iff.mp h
  rw [sourceText_eq]
  have hdotted : dotted (ty.ns.map String.toList) ty.name.toList ≠ [] := dotted_ne_nil hname.1
  simp [hdotted]

end Ferogram.TlParser
