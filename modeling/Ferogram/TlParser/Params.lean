import Ferogram.TlParser.Types

/- The tokens between the name and the equals sign. A parameter that was read is read again from
   what it is printed as (`parameterFromStr_parameterText`), and so are the parameters of a
   definition, behind any declarations that name all their generic references (`readParams_again`). -/
namespace Ferogram.TlParser
open TlGen Parsers Words Radix

variable {c : Char} {s token : List Char} {p : Parameter} {typeDefs flagDefs : List String}

/-- A digit is none of the characters that texts are cut at. -/
theorem hexDigit_plain (hc : hexDigit c ≠ none) :
    isWhitespace c = false ∧ c ≠ '=' ∧ c ≠ '?' ∧ c ≠ '.' ∧ c ≠ '#' := by
  have hrange : ('0' ≤ c ∧ c ≤ '9') ∨ ('a' ≤ c ∧ c ≤ 'f') ∨ ('A' ≤ c ∧ c ≤ 'F') := by
    unfold hexDigit at hc
    split at hc
    · next h => exact Or.inl h
    · split at hc
      · next h => exact Or.inr (Or.inl h)
      · split at hc
        · next h => exact Or.inr (Or.inr h)
        · exact absurd rfl hc
  have hval : (48 ≤ c.toNat ∧ c.toNat ≤ 57) ∨ (97 ≤ c.toNat ∧ c.toNat ≤ 102) ∨ (65 ≤ c.toNat ∧ c.toNat ≤ 70) := hrange
  refine ⟨?_, ?_, ?_, ?_, ?_⟩
  · unfold isWhitespace
    simp only [Bool.or_eq_false_iff, Bool.and_eq_false_iff, decide_eq_false_iff_not, beq_eq_false_iff_ne]
    omega
  all_goals
    rintro rfl
    revert hval
    decide

/-- The types of a parameter have no generic reference with a namespace. -/
def ParamPlain (p : Parameter) : Prop := ∀ ty flag, p.ty = .normal ty flag → RefsPlain ty

theorem typeText_chars {ty : Ty} (h : typeFromStr s = .ok ty) (hplain : RefsPlain ty) : typeText ty = s := by
  rw [typeText_eq_sourceText hplain, (typeFromStr_iff.mp h).1]

/-- A type behind a flag. -/
theorem parameterTypeFromStr_flagged {flagName flagIdx tyPart : List Char} {index : Nat} {ty : Ty}
    (hname : flagName ≠ [] ∧ '.' ∉ flagName ∧ '?' ∉ flagName) (hidx : flagIdx ≠ [] ∧ '?' ∉ flagIdx)
    (hindex : fromStrRadix u32Bound 10 flagIdx = .ok index) (hty : typeFromStr tyPart = .ok ty) :
    parameterTypeFromStr (flagName ++ '.' :: flagIdx ++ '?' :: tyPart) =
      .ok (.normal ty (some ⟨String.ofList flagName, index⟩)) := by
  have hquest : '?' ∉ flagName ++ '.' :: flagIdx := by
    simp only [List.mem_append, List.mem_cons, not_or]
    exact ⟨hname.2.2, by decide, hidx.2⟩
  have hflags : flagName ++ '.' :: flagIdx ++ '?' :: tyPart ≠ ['#'] := by
    intro heq
    have : '?' ∈ ['#'] := heq ▸ List.mem_append_right _ List.mem_cons_self
    exact absurd this (by decide)
  have hnil : (flagName.isEmpty || flagIdx.isEmpty) = false := by simp [hname.1, hidx.1]
  rw [parameterTypeFromStr, if_neg hflags, splitAtChar_append hquest]
  simp only [splitAtChar_append hname.2.1, hnil, Bool.false_eq_true, if_false, hindex, hty]

/-- What is read as the type of a parameter: a flags field, a type behind a flag, or a type. -/
theorem parameterTypeFromStr_cases {ty : ParameterType} (h : parameterTypeFromStr s = .ok ty) :
    (s = ['#'] ∧ ty = .flags) ∨
    (∃ flagName flagIdx tyPart index t, s = flagName ++ '.' :: flagIdx ++ '?' :: tyPart ∧
      (flagName ≠ [] ∧ '.' ∉ flagName ∧ '?' ∉ flagName) ∧ fromStrRadix u32Bound 10 flagIdx = .ok index ∧
      typeFromStr tyPart = .ok t ∧ ty = .normal t (some ⟨String.ofList flagName, index⟩)) ∨
    ∃ t, typeFromStr s = .ok t ∧ ty = .normal t none := by
  unfold parameterTypeFromStr at h
  split at h
  · next hflags =>
    cases h
    exact Or.inl ⟨hflags, rfl⟩
  · split at h
    · next flagPart tyPart hsplit =>
      obtain ⟨rfl, hquest⟩ := splitAtChar_eq_some hsplit
      split at h
      · next flagName flagIdx hdot =>
        obtain ⟨rfl, hname⟩ := splitAtChar_eq_some hdot
        split at h
        · cases h
        · next hnil =>
          split at h
          · cases h
          · next index hindex =>
            split at h
            · cases h
            · next t ht =>
              cases h
              have hparts : flagName ≠ [] ∧ flagIdx ≠ [] := by simpa using hnil
              exact Or.inr (Or.inl ⟨flagName, flagIdx, tyPart, index, t, rfl,
                ⟨hparts.1, hname, fun hc => hquest (List.mem_append_left _ hc)⟩, hindex, ht, rfl⟩)
      · cases h
    · split at h
      · cases h
      · split at h
        · cases h
        · next t ht =>
          cases h
          exact Or.inr (Or.inr ⟨t, ht, rfl⟩)

theorem parameterTypeFromStr_text {ty : ParameterType} (h : parameterTypeFromStr s = .ok ty)
    (hplain : ∀ t flag, ty = .normal t flag → RefsPlain t) :
    parameterTypeFromStr (parameterTypeText ty) = .ok ty ∧ parameterTypeText ty ≠ [] ∧
      ∀ c ∈ parameterTypeText ty, c ∈ s ∨ hexDigit c ≠ none := by
  rcases parameterTypeFromStr_cases h with
    ⟨rfl, rfl⟩ | ⟨flagName, flagIdx, tyPart, index, t, rfl, hname, hindex, ht, rfl⟩ | ⟨t, ht, rfl⟩
  · exact ⟨rfl, List.cons_ne_nil _ _, fun c hc => Or.inl hc⟩
  · have htext := typeText_chars ht (hplain t _ rfl)
    -- the index is printed without the zeros that it may have been written with
    have hdigits : ∀ c ∈ Nat.toDigits 10 index, hexDigit c ≠ none := fun c hc =>
      hexDigit_of_mem_toDigits (by decide) (by decide) hc
    have hback : fromStrRadix u32Bound 10 (Nat.toDigits 10 index) = .ok index :=
      fromStrRadix_toDigits (by decide) (by decide) (fromStrRadix_lt (by decide : 0 < u32Bound) hindex)
    have hprinted : parameterTypeText (.normal t (some ⟨String.ofList flagName, index⟩)) =
        flagName ++ '.' :: Nat.toDigits 10 index ++ '?' :: tyPart := by
      rw [parameterTypeText, htext, String.toList_ofList]
    rw [hprinted]
    refine ⟨parameterTypeFromStr_flagged hname
      ⟨Nat.toDigits_ne_nil, fun hc => (hexDigit_plain (hdigits _ hc)).2.2.1 rfl⟩ hback ht, by simp, ?_⟩
    intro c hc
    simp only [List.mem_append, List.mem_cons] at hc ⊢
    rcases hc with (hc | hc | hc) | hc | hc
    · exact Or.inl (Or.inl (Or.inl hc))
    · exact Or.inl (Or.inl (Or.inr (Or.inl hc)))
    · exact Or.inr (hdigits c hc)
    · exact Or.inl (Or.inr (Or.inl hc))
    · exact Or.inl (Or.inr (Or.inr hc))
  · have htext : parameterTypeText (.normal t none) = s := typeText_chars ht (hplain t _ rfl)
    obtain ⟨hs, hfine⟩ := typeFromStr_iff.mp ht
    rw [htext]
    exact ⟨h, hs ▸ sourceText_ne_nil hfine, fun c hc => Or.inl hc⟩

/-- `{X:Type}`. -/
def typeDefText (name : List Char) : List Char := '{' :: name ++ typeDefEnd

theorem typeFromParts_error {genericRef : Bool} {genericArg : Option Ty} {e : ParamParseError}
    (h : typeFromParts genericRef genericArg s = .error e) (name : List Char) : e ≠ .typeDef name := by
  unfold typeFromParts at h
  split at h
  split at h
  · cases h
    exact ParamParseError.noConfusion
  · split at h <;> cases h
    exact ParamParseError.noConfusion

theorem typeFrom_error (name : List Char) (fuel : Nat) : ∀ {raw e}, typeFrom fuel raw = .error e → e ≠ .typeDef name := by
  induction fuel with
  | zero =>
    intro raw e h
    cases h
    exact ParamParseError.noConfusion
  | succ fuel ih =>
    intro raw e h
    obtain ⟨genericRef, body, rfl, hmark⟩ := exists_mark raw
    rw [typeFrom_mark fuel hmark] at h
    split at h
    · split at h
      · split at h
        · exact typeFromParts_error h name
        · next hread =>
          cases h
          exact ih hread
      · cases h
        exact ParamParseError.noConfusion
    · exact typeFromParts_error h name

theorem parameterTypeFromStr_error {e : ParamParseError} (h : parameterTypeFromStr s = .error e) (name : List Char) :
    e ≠ .typeDef name := by
  unfold parameterTypeFromStr at h
  split at h
  · cases h
  · split at h
    · split at h
      · split at h
        · cases h
          exact ParamParseError.noConfusion
        · split at h
          · cases h
            exact ParamParseError.noConfusion
          · split at h
            · next hread =>
              cases h
              exact typeFrom_error name _ hread
            · cases h
      · cases h
        exact ParamParseError.noConfusion
    · split at h
      · cases h
        exact ParamParseError.noConfusion
      · split at h
        · next hread =>
          cases h
          exact typeFrom_error name _ hread
        · cases h

theorem parameterFromStr_typeDefText (name : List Char) :
    parameterFromStr (typeDefText name) = .error (.typeDef name) := by
  have hstrip : stripPrefix ['{'] (typeDefText name) = some (name ++ typeDefEnd) := stripPrefix_append ['{'] _
  rw [parameterFromStr, hstrip]
  simp only [stripSuffix_append]

theorem eq_typeDefText {name : List Char} (h : parameterFromStr token = .error (.typeDef name)) :
    token = typeDefText name := by
  unfold parameterFromStr at h
  split at h
  · next inner hinner =>
    split at h
    · next n hn =>
      cases h
      rw [stripPrefix_eq_some hinner, stripSuffix_eq_some hn]
      rfl
    · cases h
  · split at h
    · cases h
    · split at h
      · cases h
      · split at h
        · next hty =>
          cases h
          exact absurd rfl (parameterTypeFromStr_error hty name)
        · cases h

/-- A parameter is its name, a colon and its type. -/
theorem parameterFromStr_iff : parameterFromStr token = .ok p ↔
    ∃ tyStr, token = p.name.toList ++ ':' :: tyStr ∧ p.name.toList ≠ [] ∧ ':' ∉ p.name.toList ∧
      p.name.toList.head? ≠ some '{' ∧ tyStr ≠ [] ∧ parameterTypeFromStr tyStr = .ok p.ty := by
  constructor
  · intro h
    unfold parameterFromStr at h
    split at h
    · split at h <;> cases h
    · next hbrace =>
      split at h
      · cases h
      · next name tyStr hsplit =>
        obtain ⟨rfl, hcolon⟩ := splitAtChar_eq_some hsplit
        split at h
        · cases h
        · next hnil =>
          split at h
          · cases h
          · next ty hty =>
            cases h
            have hparts : name ≠ [] ∧ tyStr ≠ [] := by simpa using hnil
            have hhead := stripPrefix_eq_none hbrace
            rw [List.head?_append_of_ne_nil _ hparts.1] at hhead
            refine ⟨tyStr, ?_⟩
            simp only [String.toList_ofList, true_and]
            exact ⟨hparts.1, hcolon, hhead, hparts.2, hty⟩
  · rintro ⟨tyStr, rfl, hnil, hcolon, hhead, htyStr, hty⟩
    have hbrace : stripPrefix ['{'] (p.name.toList ++ ':' :: tyStr) = none := by
      cases hs : stripPrefix ['{'] (p.name.toList ++ ':' :: tyStr) with
      | none => rfl
      | some t =>
        have := congrArg List.head? (stripPrefix_eq_some hs)
        rw [List.head?_append_of_ne_nil _ hnil] at this
        exact absurd this hhead
    have hfull : (p.name.toList.isEmpty || tyStr.isEmpty) = false := by
      rw [Bool.or_eq_false_iff, List.isEmpty_eq_false_iff, List.isEmpty_eq_false_iff]
      exact ⟨hnil, htyStr⟩
    rw [parameterFromStr, hbrace]
    simp only [splitAtChar_append hcolon, hfull, Bool.false_eq_true, if_false, hty, String.ofList_toList]

theorem parameterFromStr_parameterText (h : parameterFromStr token = .ok p) (hplain : ParamPlain p) :
    parameterFromStr (parameterText p) = .ok p ∧ ∀ c ∈ parameterText p, c ∈ token ∨ hexDigit c ≠ none := by
  obtain ⟨tyStr, rfl, hnil, hcolon, hhead, -, hty⟩ := parameterFromStr_iff.mp h
  obtain ⟨hback, htext, hchars⟩ := parameterTypeFromStr_text hty hplain
  refine ⟨parameterFromStr_iff.mpr ⟨_, rfl, hnil, hcolon, hhead, htext, hback⟩, ?_⟩
  intro c hc
  simp only [parameterText, List.mem_append, List.mem_cons] at hc ⊢
  rcases hc with hc | hc | hc
  · exact Or.inl (Or.inl hc)
  · exact Or.inl (Or.inr (Or.inl hc))
  · exact (hchars c hc).imp (fun hc => Or.inr (Or.inr hc)) id

theorem mem_of_mem_sourceText {ty : Ty} {flag : Option Flag} (h : parameterTypeFromStr s = .ok (.normal ty flag))
    (hc : c ∈ sourceText ty) : c ∈ s := by
  rcases parameterTypeFromStr_cases h with
    ⟨-, hty⟩ | ⟨flagName, flagIdx, tyPart, index, t, rfl, -, -, ht, hty⟩ | ⟨t, ht, hty⟩
  · cases hty
  · cases hty
    rw [← (typeFromStr_iff.mp ht).1] at hc
    exact List.mem_append_right _ (List.mem_cons_of_mem _ hc)
  · cases hty
    rwa [← (typeFromStr_iff.mp ht).1] at hc

/-- The characters of a generic reference stand in the token. -/
theorem mem_token_of_ref {g : String} (h : parameterFromStr token = .ok p) (hg : g ∈ paramRefs p) (hc : c ∈ g.toList) :
    c ∈ token := by
  obtain ⟨tyStr, rfl, -, -, -, -, hty⟩ := parameterFromStr_iff.mp h
  refine List.mem_append_right _ (List.mem_cons_of_mem _ ?_)
  unfold paramRefs at hg
  split at hg
  · exact absurd hg List.not_mem_nil
  · next t flag ht =>
    rw [ht] at hty
    exact mem_of_mem_sourceText hty (mem_sourceText_of_ref hg hc)

/-! Lists of tokens. -/

section
variable {tokens : List (List Char)} {typeDefs' : List String} {ps : List Parameter}

/-- A token declares a generic parameter or is a parameter that refers to what is declared. -/
theorem readParams_cons (h : readParams typeDefs flagDefs (token :: tokens) = .ok (ps, typeDefs')) :
    (∃ name, token = typeDefText name ∧ readParams (typeDefs ++ [String.ofList name]) flagDefs tokens = .ok (ps, typeDefs')) ∨
    ∃ p ps', parameterFromStr token = .ok p ∧ undeclared typeDefs flagDefs p = false ∧
      readParams typeDefs (flagDefs ++ flagsField p) tokens = .ok (ps', typeDefs') ∧ ps = p :: ps' := by
  rw [readParams] at h
  split at h
  · next name hname => exact Or.inl ⟨name, eq_typeDefText hname, h⟩
  · next p hp =>
    split at h
    · cases h
    · next hdecl =>
      split at h
      · cases h
      · next ps' typeDefs'' hrest =>
        cases h
        exact Or.inr ⟨p, ps', hp, Bool.eq_false_of_not_eq_true hdecl, hrest, rfl⟩
  · cases h
  · cases h

theorem typeDefText_inj {a b : List Char} (h : typeDefText a = typeDefText b) : a = b :=
  List.append_cancel_right (List.cons.inj h).2

theorem readParams_typeDefs (h : readParams typeDefs flagDefs tokens = .ok (ps, typeDefs')) (x : String) :
    x ∈ typeDefs' ↔ x ∈ typeDefs ∨ typeDefText x.toList ∈ tokens := by
  induction tokens generalizing typeDefs flagDefs ps with
  | nil =>
    cases h
    simp
  | cons token tokens ih =>
    rcases readParams_cons h with ⟨name, rfl, hrest⟩ | ⟨p, ps', hp, -, hrest, rfl⟩
    · rw [ih hrest, List.mem_append, List.mem_singleton, List.mem_cons, or_assoc]
      have hiff : x = String.ofList name ↔ typeDefText x.toList = typeDefText name := by
        constructor
        · rintro rfl
          rw [String.toList_ofList]
        · intro heq
          rw [← typeDefText_inj heq, String.ofList_toList]
      rw [hiff]
    · have hnot : typeDefText x.toList ≠ token := by
        rintro rfl
        rw [parameterFromStr_typeDefText] at hp
        cases hp
      rw [ih hrest, List.mem_cons]
      simp [hnot]

theorem mem_readParams (h : readParams typeDefs flagDefs tokens = .ok (ps, typeDefs')) (p : Parameter) :
    p ∈ ps ↔ ∃ token ∈ tokens, parameterFromStr token = .ok p := by
  induction tokens generalizing typeDefs flagDefs ps with
  | nil =>
    cases h
    simp
  | cons token tokens ih =>
    rcases readParams_cons h with ⟨name, rfl, hrest⟩ | ⟨q, ps', hq, -, hrest, rfl⟩
    · rw [ih hrest]
      simp [parameterFromStr_typeDefText]
    · rw [List.mem_cons, ih hrest]
      simp [hq, eq_comm]

/-- Parameters are read again behind a declaration of all their references. -/
theorem readParams_again {given : List String} (h : readParams typeDefs flagDefs tokens = .ok (ps, typeDefs'))
    (hps : ∀ p ∈ ps, ParamPlain p ∧ ∀ g ∈ paramRefs p, g ∈ given) :
    readParams given flagDefs (ps.map parameterText) = .ok (ps, given) := by
  induction tokens generalizing typeDefs flagDefs ps with
  | nil =>
    cases h
    rfl
  | cons token tokens ih =>
    rcases readParams_cons h with ⟨name, rfl, hrest⟩ | ⟨p, ps', hp, hdecl, hrest, rfl⟩
    · exact ih hrest hps
    · obtain ⟨hplain, hrefs⟩ := hps p List.mem_cons_self
      have hagain := ih hrest fun q hq => hps q (List.mem_cons_of_mem _ hq)
      have hstill : undeclared given flagDefs p = false := by
        obtain ⟨name, ty⟩ := p
        cases ty with
        | flags => rfl
        | normal ty flag =>
          unfold undeclared at hdecl ⊢
          rw [Bool.or_eq_false_iff] at hdecl ⊢
          refine ⟨?_, hdecl.2⟩
          cases hgr : ty.genericRef with
          | false => rfl
          | true =>
            have hmem : ty.name ∈ genericRefs ty := by
              obtain ⟨ns, nm, bare, gr, ga⟩ := ty
              cases hgr
              cases ga <;> simp [genericRefs]
            have := hrefs ty.name hmem
            simpa using this
      rw [List.map_cons, readParams, (parameterFromStr_parameterText hp hplain).1]
      simp only [hstill, Bool.false_eq_true, if_false, hagain]

/-- Declarations in front of other tokens. -/
theorem readParams_declarations (names : List String) :
    readParams typeDefs flagDefs (names.map (fun g => typeDefText g.toList) ++ tokens) =
      readParams (typeDefs ++ names) flagDefs tokens := by
  induction names generalizing typeDefs with
  | nil => rw [List.map_nil, List.nil_append, List.append_nil]
  | cons g names ih =>
    rw [List.map_cons, List.cons_append, readParams, parameterFromStr_typeDefText]
    simp only [String.ofList_toList, ih, List.append_assoc, List.singleton_append]

end

end Ferogram.TlParser
