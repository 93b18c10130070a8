import Ferogram.TlParser.Reading

/- Printing a definition and reading it again. The generic parameters are not kept, `Display`
   declares those that a parameter refers to; so the result type is marked anew when it is read
   again (`fromStr_definitionText`), and not always as it was (`survives_iff`). -/
namespace Ferogram.TlParser
open TlGen Parsers Words Radix

variable {c : Char} {s raw lhs ty : List Char} {d : Definition} {typeDefs : List String}

/-! Texts with single spaces. -/

/-- A name and tokens, each behind a space. -/
def spaced (head : List Char) (tokens : List (List Char)) : List Char := head ++ tokens.flatMap (' ' :: ·)

/-- A word that has no equals sign. -/
def Plain (w : List Char) : Prop := w ≠ [] ∧ ∀ c ∈ w, isWhitespace c = false ∧ c ≠ '='

section
variable {head : List Char} {tokens : List (List Char)}

theorem spaced_chars (hhead : Plain head) (htokens : ∀ t ∈ tokens, Plain t) (hc : c ∈ spaced head tokens) : c ≠ '=' := by
  rcases List.mem_append.mp hc with hc | hc
  · exact (hhead.2 c hc).2
  · obtain ⟨t, ht, hc⟩ := List.mem_flatMap.mp hc
    rcases List.mem_cons.mp hc with rfl | hc
    · decide
    · exact ((htokens t ht).2 c hc).2

theorem trim_spaced (hhead : Plain head) (htokens : ∀ t ∈ tokens, Plain t) : trim (spaced head tokens) = spaced head tokens := by
  apply trim_eq_self_of_ends
  · intro c hc
    rw [spaced, List.head?_append_of_ne_nil _ hhead.1] at hc
    exact (hhead.2 c (List.mem_of_mem_head? hc)).1
  · intro c hc
    rcases List.eq_nil_or_concat tokens with rfl | ⟨tokens, t, rfl⟩
    · rw [spaced, List.flatMap_nil, List.append_nil] at hc
      exact (hhead.2 c (List.mem_of_mem_getLast? hc)).1
    · have ht := htokens t (by simp)
      have hlast : (spaced head (tokens.concat t)).getLast? = t.getLast? := by
        rw [List.concat_eq_append, spaced, List.flatMap_append, ← List.append_assoc, List.flatMap_singleton,
          List.append_cons, List.getLast?_append_of_ne_nil _ ht.1]
      rw [hlast] at hc
      exact (ht.2 c (List.mem_of_mem_getLast? hc)).1

theorem words_trimStart (s : List Char) : words isWhitespace (trimStart s) = words isWhitespace s := by
  conv_rhs => rw [← List.takeWhile_append_dropWhile (p := isWhitespace) (l := s)]
  exact (words_seps_append (fun x hx => List.mem_takeWhile_imp hx) _).symm

/-- The name and the tokens are found again. -/
theorem splitHead_spaced (hhead : Plain head) (htokens : ∀ t ∈ tokens, Plain t) :
    (splitHead (spaced head tokens)).1 = head ∧ words isWhitespace (splitHead (spaced head tokens)).2 = tokens := by
  have hnone : ∀ x ∈ head, isWhitespace x = false := fun x hx => (hhead.2 x hx).1
  have hwords : ∀ t ∈ tokens, t ≠ [] ∧ ∀ x ∈ t, isWhitespace x = false := fun t ht =>
    ⟨(htokens t ht).1, fun x hx => ((htokens t ht).2 x hx).1⟩
  unfold splitHead
  cases tokens with
  | nil =>
    have hcut : splitOnce isWhitespace (spaced head []) = none := by
      rw [spaced, List.flatMap_nil, List.append_nil]
      exact splitOnce_eq_none_iff.mpr hnone
    rw [hcut]
    exact ⟨List.append_nil _, rfl⟩
  | cons t tokens =>
    have hcut : splitOnce isWhitespace (spaced head (t :: tokens)) = some (head, t ++ tokens.flatMap (' ' :: ·)) := by
      rw [spaced, List.flatMap_cons, List.cons_append]
      exact splitOnce_append (by decide) hnone _
    have htrim : trimEndMatches isWhitespace head = head :=
      trimEndMatches_eq_self fun x hx => hnone x (List.mem_of_mem_getLast? hx)
    have hrest := words_flatMap (c := ' ') (by decide) hwords
    rw [List.flatMap_cons, List.cons_append, words_cons_sep (by decide)] at hrest
    rw [hcut]
    exact ⟨htrim, (words_trimStart _).trans hrest⟩

/-- A result type with nothing to take off at its ends. -/
def Tidy (ty : List Char) : Prop :=
  ty ≠ [] ∧ (∀ c, ty.head? = some c → isWhitespace c = false) ∧
    ∀ c, ty.getLast? = some c → isWhitespace c = false ∧ c ≠ ';'

/-- The parts of a text with single spaces. -/
theorem spaced_parts (hhead : Plain head) (htokens : ∀ t ∈ tokens, Plain t) (hty : Tidy ty)
    (hs : s = spaced head tokens ++ ' ' :: '=' :: ' ' :: ty) :
    '=' ∈ trim s ∧ lhsText s = spaced head tokens ∧ resultText s = ty := by
  have hne : spaced head tokens ≠ [] := fun h => hhead.1 (List.append_eq_nil_iff.mp h).1
  have htrimmed : trim s = s := by
    apply trim_eq_self_of_ends
    · intro c hc
      rw [hs, List.head?_append_of_ne_nil _ hne, spaced, List.head?_append_of_ne_nil _ hhead.1] at hc
      exact (hhead.2 c (List.mem_of_mem_head? hc)).1
    · intro c hc
      have hlast : s.getLast? = ty.getLast? := by
        rw [hs, show ' ' :: '=' :: ' ' :: ty = [' ', '=', ' '] ++ ty from rfl, ← List.append_assoc,
          List.getLast?_append_of_ne_nil _ hty.1]
      exact (hty.2.2 c (hlast ▸ hc)).1
  have hbefore : ∀ x ∈ spaced head tokens ++ [' '], decide (x ≠ '=') = true := by
    intro x hx
    rw [decide_eq_true_iff]
    rcases List.mem_append.mp hx with hx | hx
    · exact spaced_chars hhead htokens hx
    · rw [List.mem_singleton.mp hx]
      decide
  have hsplit : s = (spaced head tokens ++ [' ']) ++ '=' :: ' ' :: ty := by rw [hs, List.append_assoc, List.singleton_append]
  refine ⟨?_, ?_, ?_⟩
  · rw [htrimmed, hs]
    simp
  · rw [lhsText, htrimmed, hsplit, List.takeWhile_append_of_pos hbefore, List.takeWhile_cons_of_neg (by simp),
      List.append_nil]
    have := trim_append (a := []) (b := [' ']) rfl (by decide) (spaced head tokens)
    rw [List.nil_append] at this
    rw [this, trim_spaced hhead htokens]
  · have hself : trim ty = ty := trim_eq_self_of_ends hty.2.1 fun c hc => (hty.2.2 c hc).1
    have hsemi : trimEndMatches (· == ';') ty = ty := by
      apply trimEndMatches_eq_self
      intro c hc
      simpa using (hty.2.2 c hc).2
    have hspace : trim (' ' :: ty) = ty := by
      have := trim_append (a := [' ']) (b := []) (by decide) rfl ty
      rw [List.append_nil, List.singleton_append] at this
      rw [this, hself]
    rw [resultText, htrimmed, hsplit, List.dropWhile_append_of_pos hbefore, List.dropWhile_cons_of_neg (by simp),
      List.drop_one, List.tail_cons, hspace, hsemi, hself]

end

/-! What was read of a text. -/

theorem mem_lhsText (hc : c ∈ lhsText s) : c ≠ '=' := by
  have := List.mem_takeWhile_imp (mem_of_mem_trim hc)
  simpa using this

theorem mem_trimEndMatches {p : Char → Bool} (hc : c ∈ trimEndMatches p s) : c ∈ s := by
  obtain ⟨b, hs, -⟩ := trimEndMatches_split p s
  rw [hs]
  exact List.mem_append_left _ hc

theorem mem_splitHead_fst (hc : c ∈ (splitHead lhs).1) : c ∈ lhs ∧ isWhitespace c = false := by
  unfold splitHead at hc
  split at hc
  · next h r hcut =>
    obtain ⟨x, rfl, -, hnone⟩ := splitOnce_eq_some hcut
    have hmem := mem_trimEndMatches hc
    exact ⟨List.mem_append_left _ hmem, hnone c hmem⟩
  · next hcut => exact ⟨hc, splitOnce_eq_none_iff.mp hcut c hc⟩

theorem mem_splitHead_snd (hc : c ∈ (splitHead lhs).2) : c ∈ lhs := by
  unfold splitHead at hc
  split at hc
  · next h r hcut =>
    obtain ⟨x, rfl, -, -⟩ := splitOnce_eq_some hcut
    exact List.mem_append_right _ (List.mem_cons_of_mem _ ((List.dropWhile_sublist _).subset hc))
  · exact absurd hc List.not_mem_nil

theorem plain_of_mem_paramTokens {token : List Char} (h : token ∈ paramTokens s) : Plain token :=
  ⟨(mem_words h).1, fun _ hc =>
    ⟨((mem_words h).2 _ hc).2, mem_lhsText (mem_splitHead_snd ((mem_words h).2 _ hc).1)⟩⟩

theorem splitId_fst (s : List Char) : '#' ∉ (splitId s).1 ∧ ∀ c ∈ (splitId s).1, c ∈ s := by
  unfold splitId
  split
  · next n id hcut =>
    obtain ⟨rfl, hn⟩ := splitAtChar_eq_some hcut
    exact ⟨hn, fun c hc => List.mem_append_left _ hc⟩
  · next hcut => exact ⟨splitAtChar_eq_none hcut, fun _ => id⟩

/-! Printing. -/

theorem mem_destutter_ne {α : Type} [DecidableEq α] {a : α} {l : List α} : a ∈ l.destutter (· ≠ ·) ↔ a ∈ l := by
  cases l with
  | nil => rfl
  | cons b l =>
    rw [List.destutter_cons']
    induction l generalizing b with
    | nil => rfl
    | cons x l ih =>
      by_cases hbx : b = x
      · subst hbx
        rw [List.destutter'_cons_neg _ (by simp), ih]
        simp
      · rw [List.destutter'_cons_pos _ hbx, List.mem_cons, ih, List.mem_cons (b := b)]

theorem mem_declaredRefs {params : List Parameter} {g : String} :
    g ∈ declaredRefs params ↔ ∃ p ∈ params, g ∈ paramRefs p := by
  rw [declaredRefs, mem_destutter_ne, List.mem_insertionSort, List.mem_flatMap]

/-- The name and the id as they are printed. -/
def headText (d : Definition) : List Char :=
  dotted (d.ns.map String.toList) d.name.toList ++ '#' :: Nat.toDigits 16 d.id.toNat

def printedTokens (d : Definition) : List (List Char) :=
  (declaredRefs d.params).map (fun g => typeDefText g.toList) ++ d.params.map parameterText

theorem definitionText_eq (d : Definition) :
    definitionText d = spaced (headText d) (printedTokens d) ++ ' ' :: '=' :: ' ' :: typeText d.ty := by
  simp [definitionText, spaced, headText, printedTokens, dotted, typeDefText, List.flatMap_map, List.flatMap_append]

section
variable {raw' : List Char} {typeDefs' : List String}

theorem plain_headText (h : Read raw (lhsText s) d typeDefs) : Plain (headText d) := by
  refine ⟨by simp [headText], fun c hc => ?_⟩
  rcases List.mem_append.mp hc with hc | hc
  · rw [← h.name] at hc
    have hmem := mem_splitHead_fst ((splitId_fst _).2 c hc)
    exact ⟨hmem.2, mem_lhsText hmem.1⟩
  · rcases List.mem_cons.mp hc with rfl | hc
    · decide
    · have := hexDigit_plain (hexDigit_of_mem_toDigits (by decide) (by decide) hc)
      exact ⟨this.1, this.2.1⟩

theorem plain_printedTokens (h : Read raw (lhsText s) d typeDefs) (hplain : ∀ p ∈ d.params, ParamPlain p) :
    ∀ t ∈ printedTokens d, Plain t := by
  intro t ht
  rcases List.mem_append.mp ht with ht | ht
  · obtain ⟨g, hg, rfl⟩ := List.mem_map.mp ht
    obtain ⟨p, hp, hgp⟩ := mem_declaredRefs.mp hg
    obtain ⟨token, htoken, hread⟩ := (mem_readParams h.params p).mp hp
    refine ⟨List.cons_ne_nil _ _, fun c hc => ?_⟩
    rw [typeDefText, List.cons_append, List.mem_cons, List.mem_append] at hc
    rcases hc with rfl | hc | hc
    · decide
    · exact (plain_of_mem_paramTokens htoken).2 c (mem_token_of_ref hread hgp hc)
    · have hend : (typeDefEnd.all fun c => !isWhitespace c && c != '=') = true := rfl
      simpa using List.all_eq_true.mp hend c hc
  · obtain ⟨p, hp, rfl⟩ := List.mem_map.mp ht
    obtain ⟨token, htoken, hread⟩ := (mem_readParams h.params p).mp hp
    refine ⟨by simp [parameterText], fun c hc => ?_⟩
    rcases (parameterFromStr_parameterText hread (hplain p hp)).2 c hc with hc | hc
    · exact (plain_of_mem_paramTokens htoken).2 c hc
    · exact ⟨(hexDigit_plain hc).1, (hexDigit_plain hc).2.1⟩

/-- The left side is read again, with the generic references declared. -/
theorem read_again_iff (h : Read raw (lhsText s) d typeDefs) (hplain : ∀ p ∈ d.params, ParamPlain p) :
    Read raw' (spaced (headText d) (printedTokens d)) d typeDefs' ↔ typeDefs' = declaredRefs d.params := by
  obtain ⟨hhead, htokens⟩ := splitHead_spaced (plain_headText h) (plain_printedTokens h hplain)
  have hid : splitId (headText d) = (dotted (d.ns.map String.toList) d.name.toList, some (Nat.toDigits 16 d.id.toNat)) := by
    have hnot := (splitId_fst (splitHead (lhsText s)).1).1
    rw [h.name] at hnot
    rw [splitId, headText, splitAtChar_append hnot]
  have hparams : readParams [] [] (printedTokens d) = .ok (d.params, declaredRefs d.params) := by
    rw [printedTokens, readParams_declarations, List.nil_append]
    exact readParams_again h.params fun p hp => ⟨hplain p hp, fun g hg => mem_declaredRefs.mpr ⟨p, hp, hg⟩⟩
  constructor
  · intro hread
    have := hread.params
    rw [htokens, hparams] at this
    exact (Prod.mk.inj (Except.ok.inj this)).2.symm
  · rintro rfl
    refine ⟨by rw [hhead, hid], h.nsParts, h.namePart, ?_, by rw [htokens, hparams], h.category⟩
    have htrim : trim (Nat.toDigits 16 d.id.toNat) = Nat.toDigits 16 d.id.toNat :=
      trim_eq_self fun c hc => (hexDigit_plain (hexDigit_of_mem_toDigits (by decide) (by decide) hc)).1
    have hlt : d.id.toNat < u32Bound := d.id.toNat_lt
    rw [hhead, hid]
    simp only [idFrom, htrim, fromStrRadix_toDigits (by decide : 1 < 16) (by decide) hlt, UInt32.ofNat_toNat]

/-- The printed text gives the definition again exactly if its result type is marked as it was. -/
theorem fromStr_definitionText (h : Read raw (lhsText s) d typeDefs) (hplain : ∀ p ∈ d.params, ParamPlain p)
    (hty : Tidy (typeText d.ty)) : fromStr (definitionText d) = .ok d ↔
      ∃ t, typeFromStr (typeText d.ty) = .ok t ∧ d.ty = markDeclared (declaredRefs d.params) t := by
  obtain ⟨heq, hlhs, hresult⟩ :=
    spaced_parts (plain_headText h) (plain_printedTokens h hplain) hty (definitionText_eq d)
  rw [fromStr_iff, hlhs, hresult]
  constructor
  · rintro ⟨-, t, typeDefs', ht, hmark, hread⟩
    rw [(read_again_iff h hplain).mp hread] at hmark
    exact ⟨t, ht, hmark⟩
  · rintro ⟨t, ht, hmark⟩
    exact ⟨heq, t, _, ht, hmark, (read_again_iff h hplain).mpr rfl⟩

end

/-! The result type. -/

/-- The name and the argument, with which the text of a type ends. -/
def bodyText (t : Ty) : List Char :=
  t.name.toList ++
    match t.genericArg with
    | some arg => '<' :: sourceText arg ++ ['>']
    | none => []

def nsText (t : Ty) : List Char := t.ns.flatMap fun part => part.toList ++ ['.']

theorem sourceText_eq_body (t : Ty) : sourceText t = mark t.genericRef ++ (nsText t ++ bodyText t) := by
  rw [sourceText_eq, dotted, List.flatMap_map, List.append_assoc]
  rfl

theorem typeText_eq_body {t : Ty} (h : ∀ arg, t.genericArg = some arg → RefsPlain arg) :
    typeText t = nsText t ++ (mark t.genericRef ++ bodyText t) := by
  obtain ⟨ns, name, bare, genericRef, genericArg⟩ := t
  cases genericArg with
  | none => simp [typeText, nsText, bodyText, mark]
  | some arg => simp [typeText, nsText, bodyText, mark, typeText_eq_sourceText (h arg rfl)]

/-- A type marked as it is. -/
theorem marked_self {t : Ty} {r : Bool} (h : t.genericRef = r) : { t with genericRef := r } = t := by
  subst h
  cases t
  rfl

theorem markDeclared_eq (names : List String) (t : Ty) :
    markDeclared names t = { t with genericRef := t.genericRef || names.contains t.name } := by
  unfold markDeclared
  split
  · next h => rw [h, Bool.or_true]
  · next h =>
    rw [Bool.eq_false_of_not_eq_true h, Bool.or_false, marked_self rfl]

theorem bodyText_ne_nil {t : Ty} (h : TyFine t) : bodyText t ≠ [] := by
  obtain ⟨-, hname, -⟩ := tyFine_iff.mp h
  simp [bodyText, hname.1]

theorem nsText_head? {t : Ty} (h : TyFine t) (hns : t.ns ≠ []) (u : List Char) :
    ∃ c, (nsText t ++ u).head? = some c ∧ (dotted (t.ns.map String.toList) t.name.toList).head? = some c := by
  obtain ⟨hparts, -⟩ := tyFine_iff.mp h
  obtain ⟨part, ns, hcons⟩ := List.exists_cons_of_ne_nil hns
  obtain ⟨c, rest, hpart⟩ := List.exists_cons_of_ne_nil (hparts part (hcons ▸ List.mem_cons_self)).1
  exact ⟨c, by simp [nsText, hcons, hpart], by simp [dotted, hcons, hpart]⟩

section
variable {t : Ty} {r : Bool}

theorem TyFine.marked (h : TyFine t) : TyFine { t with genericRef := true } := by
  obtain ⟨hns, hname, hbare, -, hargs⟩ := tyFine_iff.mp h
  exact tyFine_iff.mpr ⟨hns, hname, hbare, fun h => absurd h.symm Bool.false_ne_true, hargs⟩

theorem RefsPlain.marked (h : RefsPlain t) (hns : t.ns = []) : RefsPlain { t with genericRef := true } :=
  refsPlain_iff.mpr ⟨fun _ => hns, (refsPlain_iff.mp h).2⟩

/-- Marking a type leaves its text tidy. -/
theorem tidy_typeText (hfine : TyFine t) (hplain : RefsPlain t) (hr : t.genericRef = true → r = true)
    (htidy : Tidy (sourceText t)) : Tidy (typeText { t with genericRef := r }) := by
  have hbody := bodyText_ne_nil hfine
  obtain ⟨hns, hargs⟩ := refsPlain_iff.mp hplain
  have htext : typeText { t with genericRef := r } = nsText t ++ (mark r ++ bodyText t) := typeText_eq_body hargs
  obtain ⟨-, hhead, hlast⟩ := htidy
  rw [sourceText_eq_body] at hhead hlast
  rw [htext]
  refine ⟨by simp [hbody], fun c hc => ?_, fun c hc => ?_⟩
  -- the mark is the first character where there is no namespace
  · by_cases hnil : t.ns = []
    · have hnone : nsText t = [] := by rw [nsText, hnil, List.flatMap_nil]
      rw [hnone, List.nil_append] at hc hhead
      cases hmark : r with
      | true =>
        rw [hmark] at hc
        cases hc
        decide
      | false =>
        have hgr : t.genericRef = false := by
          cases hgr : t.genericRef with
          | false => rfl
          | true => exact absurd (hr hgr) (by simp [hmark])
        rw [hmark] at hc
        rw [hgr] at hhead
        exact hhead c hc
    · obtain ⟨x, hx, hdot⟩ := nsText_head? hfine hnil (mark r ++ bodyText t)
      obtain ⟨y, hy, hdot'⟩ := nsText_head? hfine hnil (bodyText t)
      have hgr : t.genericRef = false := Bool.eq_false_of_not_eq_true fun h => hnil (hns h)
      have hxy : x = y := Option.some.inj (hdot.symm.trans hdot')
      rw [hx] at hc
      rw [hgr] at hhead
      apply hhead c
      rw [← hc, hxy]
      exact hy
  · rw [← List.append_assoc, List.getLast?_append_of_ne_nil _ hbody] at hc
    apply hlast c
    rw [← List.append_assoc, List.getLast?_append_of_ne_nil _ hbody, hc]

/-- A marked type with a namespace is not read again. -/
theorem not_read_again (names : List String) (hfine : TyFine t) (hplain : RefsPlain t) (hgr : t.genericRef = false)
    (hns : t.ns ≠ []) :
    ¬ ∃ u, typeFromStr (typeText { t with genericRef := true }) = .ok u ∧
      { t with genericRef := true } = markDeclared names u := by
  rintro ⟨u, hu, hmark⟩
  rw [markDeclared_eq] at hmark
  have hargs := (refsPlain_iff.mp hplain).2
  obtain ⟨ns', name', bare', genericRef', genericArg'⟩ := u
  obtain ⟨rfl, rfl, rfl, -, rfl⟩ := Ty.mk.inj hmark
  have hprinted : typeText { t with genericRef := true } = nsText t ++ (mark true ++ bodyText t) := typeText_eq_body hargs
  have hsource : sourceText ⟨t.ns, t.name, t.bare, genericRef', t.genericArg⟩ =
      mark genericRef' ++ (nsText t ++ bodyText t) := sourceText_eq_body _
  have htext := hprinted.symm.trans ((typeFromStr_iff.mp hu).1.trans hsource)
  cases genericRef' with
  | false =>
    -- the mark is one character too many
    have := congrArg List.length htext
    simp [mark] at this
  | true =>
    obtain ⟨x, hx, hdot⟩ := nsText_head? hfine hns (mark true ++ bodyText t)
    have hbang : some x = some '!' := hx.symm.trans (congrArg List.head? htext)
    exact (tyFine_iff.mp hfine).2.2.2.1 hgr (hdot.trans hbang)

/-- A type is marked as before exactly if it was marked or is not declared now. -/
theorem read_marked_iff {names : List String} (hfine : TyFine t) (hplain : RefsPlain t) :
    (∃ u, typeFromStr (typeText t) = .ok u ∧ t = markDeclared names u) ↔ (t.name ∈ names → t.genericRef = true) := by
  have hread := typeFromStr_typeText hfine hplain
  have hself : t = markDeclared names t ↔ (t.name ∈ names → t.genericRef = true) := by
    rw [markDeclared_eq]
    obtain ⟨ns, name, bare, genericRef, genericArg⟩ := t
    cases genericRef <;> simp
  constructor
  · rintro ⟨u, hu, hmark⟩
    obtain rfl := Except.ok.inj (hread.symm.trans hu)
    exact hself.mp hmark
  · intro h
    exact ⟨t, hread, hself.mpr h⟩

end

/-! Survival. -/

/-- The text declares a generic parameter. -/
def Declares (s : List Char) (x : String) : Prop := typeDefText x.toList ∈ paramTokens s

/-- A parameter refers to a generic parameter, perhaps inside its type. -/
def RefersTo (s : List Char) (x : String) : Prop :=
  ∃ token ∈ paramTokens s, ∃ p, parameterFromStr token = .ok p ∧ x ∈ paramRefs p

/-- No generic reference that is written in the text has a namespace. -/
structure RefsPlainIn (s : List Char) : Prop where
  params : ∀ token ∈ paramTokens s, ∀ p, parameterFromStr token = .ok p → ParamPlain p
  result : ∀ ty, typeFromStr (resultText s) = .ok ty → RefsPlain ty

/-- A result type that is written without a mark: if it is declared, it has no namespace; and if a
parameter refers to it, it is declared. -/
def KeepsMark (s : List Char) : Prop :=
  ∀ ty, typeFromStr (resultText s) = .ok ty → ty.genericRef = false →
    (Declares s ty.name → ty.ns = []) ∧ (RefersTo s ty.name → Declares s ty.name)

theorem tidy_resultText (hsemi : ';' ∉ s) (hnil : resultText s ≠ []) : Tidy (resultText s) := by
  refine ⟨hnil, fun c hc => trim_first hc, fun c hc => ⟨trim_last hc, ?_⟩⟩
  rintro rfl
  have h1 := mem_trimEndMatches (mem_of_mem_trim (List.mem_of_mem_getLast? hc))
  have h2 := List.mem_of_mem_drop (mem_of_mem_trim h1)
  exact hsemi (mem_of_mem_trim ((List.dropWhile_sublist _).subset h2))

theorem declares_iff {raw : List Char} {typeDefs : List String} (h : Read raw (lhsText s) d typeDefs) (x : String) :
    Declares s x ↔ x ∈ typeDefs := by
  rw [readParams_typeDefs h.params x]
  exact (or_iff_right List.not_mem_nil).symm

theorem refersTo_iff {raw : List Char} {typeDefs : List String} (h : Read raw (lhsText s) d typeDefs) (x : String) :
    RefersTo s x ↔ x ∈ declaredRefs d.params := by
  rw [mem_declaredRefs]
  constructor
  · rintro ⟨token, htoken, p, hp, hx⟩
    exact ⟨p, (mem_readParams h.params p).mpr ⟨token, htoken, hp⟩, hx⟩
  · rintro ⟨p, hp, hx⟩
    obtain ⟨token, htoken, hp⟩ := (mem_readParams h.params p).mp hp
    exact ⟨token, htoken, p, hp, hx⟩

/-- The condition, for the definition that was read. -/
theorem keepsMark_iff {raw : List Char} {typeDefs : List String} {ty : Ty} (h : Read raw (lhsText s) d typeDefs)
    (hty : typeFromStr (resultText s) = .ok ty) : KeepsMark s ↔ (ty.genericRef = false →
      (ty.name ∈ typeDefs → ty.ns = []) ∧ (ty.name ∈ declaredRefs d.params → ty.name ∈ typeDefs)) := by
  unfold KeepsMark
  constructor
  · intro hkeeps hgr
    have hself := hkeeps ty hty hgr
    rwa [declares_iff h, refersTo_iff h] at hself
  · intro hkeeps t ht hgr
    obtain rfl := Except.ok.inj (hty.symm.trans ht)
    rw [declares_iff h, refersTo_iff h]
    exact hkeeps hgr

/-- **Printing and reading again.** A definition that was read of a text survives exactly if the
mark of its result type does. -/
theorem survives_iff (hsemi : ';' ∉ s) (h : fromStr s = .ok d) (hplain : RefsPlainIn s) :
    fromStr (definitionText d) = .ok d ↔ KeepsMark s := by
  obtain ⟨-, ty, typeDefs, hty, hmark, hread⟩ := fromStr_iff.mp h
  have hparams : ∀ p ∈ d.params, ParamPlain p := by
    intro p hp
    obtain ⟨token, htoken, hp⟩ := (mem_readParams hread.params p).mp hp
    exact hplain.params token htoken p hp
  obtain ⟨hsource, hfine⟩ := typeFromStr_iff.mp hty
  have htyplain := hplain.result ty hty
  have htidy : Tidy (typeText d.ty) := by
    rw [hmark, markDeclared_eq]
    refine tidy_typeText hfine htyplain (fun hgr => by rw [hgr, Bool.true_or]) ?_
    rw [← hsource]
    exact tidy_resultText hsemi (hsource ▸ sourceText_ne_nil hfine)
  rw [fromStr_definitionText hread hparams htidy, keepsMark_iff hread hty, hmark, markDeclared_eq]
  cases hgr : ty.genericRef with
  | true =>
    rw [Bool.true_or, marked_self hgr, read_marked_iff hfine htyplain]
    simp [hgr]
  | false =>
    rw [Bool.false_or]
    cases hcontains : typeDefs.contains ty.name with
    | false =>
      -- printed without a mark, and marked now if a parameter has the name declared
      have hnot : ty.name ∉ typeDefs := by simpa using hcontains
      rw [marked_self hgr, read_marked_iff hfine htyplain]
      simp [hgr, hnot]
    | true =>
      have hmem : ty.name ∈ typeDefs := by simpa using hcontains
      by_cases hns : ty.ns = []
      · rw [read_marked_iff (hfine.marked) (htyplain.marked hns)]
        simp [hmem, hns]
      · -- the mark is printed behind the namespace, where it is not read as one
        have hnot := not_read_again (declaredRefs d.params) hfine htyplain hgr hns
        simp [hnot, hmem, hns]

/-! Checking a text. -/

instance decidableForallOk {ε α : Type} {P : α → Prop} [DecidablePred P] :
    (e : Except ε α) → Decidable (∀ a, e = .ok a → P a)
  | .ok a => decidable_of_iff (P a) ⟨fun h _ ha => Except.ok.inj ha ▸ h, fun h => h a rfl⟩
  | .error _ => isTrue fun _ h => nomatch h

instance decidableExistsOk {ε α : Type} {P : α → Prop} [DecidablePred P] :
    (e : Except ε α) → Decidable (∃ a, e = .ok a ∧ P a)
  | .ok a => decidable_of_iff (P a) ⟨fun h => ⟨a, rfl, h⟩, fun ⟨_, ha, h⟩ => Except.ok.inj ha ▸ h⟩
  | .error _ => isFalse fun ⟨_, h, _⟩ => nomatch h

def decRefsPlain : (ty : Ty) → Decidable (RefsPlain ty)
  | ⟨ns, _, _, genericRef, none⟩ => inferInstanceAs (Decidable ((genericRef = true → ns = []) ∧ True))
  | ⟨ns, _, _, genericRef, some arg⟩ =>
    have := decRefsPlain arg
    inferInstanceAs (Decidable ((genericRef = true → ns = []) ∧ RefsPlain arg))

instance : DecidablePred RefsPlain := decRefsPlain

instance : DecidablePred ParamPlain
  | ⟨_, .flags⟩ => isTrue fun _ _ h => nomatch h
  | ⟨_, .normal ty flag⟩ =>
    decidable_of_iff (RefsPlain ty) ⟨fun h _ _ heq => (ParameterType.normal.inj heq).1 ▸ h, fun h => h ty flag rfl⟩

instance (s : List Char) : Decidable (RefsPlainIn s) :=
  decidable_of_iff ((∀ token ∈ paramTokens s, ∀ p, parameterFromStr token = .ok p → ParamPlain p) ∧
    ∀ ty, typeFromStr (resultText s) = .ok ty → RefsPlain ty) ⟨fun h => ⟨h.1, h.2⟩, fun h => ⟨h.params, h.result⟩⟩

instance (s : List Char) (x : String) : Decidable (Declares s x) := inferInstanceAs (Decidable (_ ∈ _))

instance (s : List Char) (x : String) : Decidable (RefersTo s x) :=
  inferInstanceAs (Decidable (∃ token ∈ paramTokens s, ∃ p, parameterFromStr token = .ok p ∧ x ∈ paramRefs p))

instance (s : List Char) : Decidable (KeepsMark s) :=
  inferInstanceAs (Decidable (∀ ty, typeFromStr (resultText s) = .ok ty → ty.genericRef = false →
    (Declares s ty.name → ty.ns = []) ∧ (RefersTo s ty.name → Declares s ty.name)))

theorem survives_query : ∃ d, fromStr "a \x7bX:Type\x7d query:!X = X".toList = .ok d ∧ fromStr (definitionText d) = .ok d := by
  have hread : (fromStr "a \x7bX:Type\x7d query:!X = X".toList).toOption.map (fun d => d.ty.genericRef) = some true := by
    decide +kernel
  obtain ⟨d, hd, -⟩ := exists_of_map hread
  exact ⟨d, hd, (survives_iff (by decide) hd (by decide +kernel)).mpr (by decide +kernel)⟩

/-- A type that refers to an undeclared `X` declares it when it is printed. -/
theorem undeclared_result : ∃ d, ';' ∉ "a x:Vector<!X> = X".toList ∧ fromStr "a x:Vector<!X> = X".toList = .ok d ∧
    RefsPlainIn "a x:Vector<!X> = X".toList ∧ fromStr (definitionText d) ≠ .ok d := by
  have hread : (fromStr "a x:Vector<!X> = X".toList).toOption.map (fun d =>
      (d.ty.genericRef, (fromStr (definitionText d)).toOption.map fun d => d.ty.genericRef)) = some (false, some true) := by
    decide +kernel
  obtain ⟨d, hd, hmarks⟩ := exists_of_map hread
  obtain ⟨hfirst, hagain⟩ := Prod.mk.inj hmarks
  refine ⟨d, by decide, hd, by decide +kernel, fun hsame => ?_⟩
  rw [hsame] at hagain
  exact Bool.false_ne_true (hfirst.symm.trans (Option.some.inj hagain))

end Ferogram.TlParser
