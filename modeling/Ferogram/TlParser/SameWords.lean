import Ferogram.TlParser.Reading

/- Definitions written with the same words. The left side is read word by word, an id that stands
   in the text is one of them, and only inside the result type does white space count: two texts
   with the same words give the same definition exactly if their result types are the same
   (`fromStr_congr_iff`). -/
namespace Ferogram.TlParser
open TlGen Parsers Words Radix

variable {c : Char} {s t raw raw' lhs lhs' : List Char} {d : Definition} {typeDefs : List String}

/-! Words of the left side. -/

/-- The words in front of the first equals sign. -/
def cutWords : List (List Char) → List (List Char)
  | [] => []
  | w :: ws => if '=' ∈ w then words isWhitespace (w.takeWhile (· ≠ '=')) else w :: cutWords ws

theorem takeWhile_append_of_mem {a b : List Char} (h : '=' ∈ a) :
    (a ++ b).takeWhile (· ≠ '=') = a.takeWhile (· ≠ '=') := by
  obtain ⟨x, y, rfl, hx⟩ := List.eq_append_cons_of_mem h
  have hall : ∀ z ∈ x, decide (z ≠ '=') = true := fun z hz => decide_eq_true fun heq => hx (heq ▸ hz)
  rw [List.append_assoc, List.cons_append, List.takeWhile_append_of_pos hall, List.takeWhile_append_of_pos hall,
    List.takeWhile_cons_of_neg (by simp), List.takeWhile_cons_of_neg (by simp)]

theorem words_takeWhile (s : List Char) :
    words isWhitespace (s.takeWhile (· ≠ '=')) = cutWords (words isWhitespace s) := by
  induction hlen : s.length using Nat.strong_induction_on generalizing s with
  | _ n ih =>
    cases hcut : splitOnce isWhitespace s with
    | none =>
      have hnone := splitOnce_eq_none_iff.mp hcut
      by_cases hnil : s = []
      · subst hnil
        rfl
      · rw [words_of_none hnil hnone, cutWords]
        split
        · rfl
        · next h =>
          have hall : ∀ z ∈ s, decide (z ≠ '=') = true := fun z hz => decide_eq_true fun heq => h (heq ▸ hz)
          rw [List.takeWhile_eq_self_iff.mpr hall, words_of_none hnil hnone, cutWords]
    | some r =>
      obtain ⟨w, rest⟩ := r
      obtain ⟨x, rfl, hx, hw⟩ := splitOnce_eq_some hcut
      have hless : rest.length < n := by
        rw [← hlen]
        simp only [List.length_append, List.length_cons]
        omega
      have hxeq : x ≠ '=' := by
        rintro rfl
        exact absurd hx (by decide)
      have hrest := ih rest.length hless rest rfl
      -- the word with the first equals sign is cut, and what is behind it is not looked at
      by_cases heq : '=' ∈ w
      · have hwnil : w ≠ [] := List.ne_nil_of_mem heq
        rw [takeWhile_append_of_mem heq, words_word_cons hwnil hw hx, cutWords, if_pos heq]
      · have hall : ∀ z ∈ w, decide (z ≠ '=') = true := fun z hz => decide_eq_true fun h => heq (h ▸ hz)
        rw [List.takeWhile_append_of_pos hall, List.takeWhile_cons_of_pos (by simpa using hxeq)]
        by_cases hwnil : w = []
        · subst hwnil
          rw [List.nil_append, List.nil_append, words_cons_sep hx, words_cons_sep hx, hrest]
        · rw [words_word_cons hwnil hw hx, words_word_cons hwnil hw hx, cutWords, if_neg heq, hrest]

theorem words_trim (s : List Char) : words isWhitespace (trim s) = words isWhitespace s := by
  obtain ⟨a, b, hs, ha, hb⟩ := trim_split s
  conv_rhs => rw [hs]
  rw [words_seps_append (List.all_eq_true.mp ha), words_append_seps (List.all_eq_true.mp hb)]

theorem words_lhsText (s : List Char) : words isWhitespace (lhsText s) = cutWords (words isWhitespace s) := by
  rw [lhsText, words_trim, words_takeWhile, words_trim]

/-- The name is the first word. -/
theorem splitHead_words (h : trim lhs = lhs) : (splitHead lhs).1 = (words isWhitespace lhs).headD [] ∧
    words isWhitespace (splitHead lhs).2 = (words isWhitespace lhs).tail := by
  unfold splitHead
  split
  · next w rest hcut =>
    obtain ⟨x, rfl, hx, hw⟩ := splitOnce_eq_some hcut
    have hwnil : w ≠ [] := by
      rintro rfl
      have hfirst : (trim ([] ++ x :: rest)).head? = some x := by
        rw [h]
        rfl
      exact absurd hx (by simp [trim_first hfirst])
    have htrim : trimEndMatches isWhitespace w = w :=
      trimEndMatches_eq_self fun z hz => hw z (List.mem_of_mem_getLast? hz)
    rw [words_word_cons hwnil hw hx, htrim]
    refine ⟨rfl, ?_⟩
    have htake : ∀ z ∈ rest.takeWhile isWhitespace, isWhitespace z = true := fun z hz => List.mem_takeWhile_imp hz
    conv_rhs => rw [List.tail_cons, ← List.takeWhile_append_dropWhile (p := isWhitespace) (l := rest)]
    exact (words_seps_append htake _).symm
  · next hcut =>
    by_cases hnil : lhs = []
    · subst hnil
      exact ⟨rfl, rfl⟩
    · rw [words_of_none hnil (splitOnce_eq_none_iff.mp hcut)]
      exact ⟨rfl, rfl⟩

/-- The left side is read word by word. -/
theorem Read.congr (hwords : words isWhitespace lhs = words isWhitespace lhs') (hlhs : trim lhs = lhs)
    (hlhs' : trim lhs' = lhs') (hid : (splitId (splitHead lhs).1).2 ≠ none) (h : Read raw lhs d typeDefs) :
    Read raw' lhs' d typeDefs := by
  obtain ⟨hhead, htokens⟩ := splitHead_words hlhs
  obtain ⟨hhead', htokens'⟩ := splitHead_words hlhs'
  have hsame : (splitHead lhs').1 = (splitHead lhs).1 := by rw [hhead, hhead', hwords]
  have hrest : words isWhitespace (splitHead lhs').2 = words isWhitespace (splitHead lhs).2 := by
    rw [htokens, htokens', hwords]
  refine ⟨hsame ▸ h.name, h.nsParts, h.namePart, ?_, hrest ▸ h.params, h.category⟩
  have := h.id
  rw [hsame]
  cases hex : (splitId (splitHead lhs).1).2 with
  | none => exact absurd hex hid
  | some hex' =>
    rw [hex] at this
    exact this

/-! The result type. -/

theorem count_trim (hc : isWhitespace c = false) (s : List Char) : (trim s).count c = s.count c := by
  obtain ⟨a, b, hs, ha, hb⟩ := trim_split s
  have hnone : ∀ u : List Char, u.all isWhitespace = true → u.count c = 0 := by
    intro u hu
    rw [List.count_eq_zero]
    intro hmem
    exact absurd (List.all_eq_true.mp hu c hmem) (by simp [hc])
  conv_rhs => rw [hs]
  rw [List.count_append, List.count_append, hnone a ha, hnone b hb]
  omega

theorem count_words (hc : isWhitespace c = false) (s : List Char) : (words isWhitespace s).flatten.count c = s.count c := by
  rw [flatten_words, List.count_filter (by simp [hc])]

theorem count_trimEndMatches {p : Char → Bool} (hc : p c = false) (s : List Char) :
    (trimEndMatches p s).count c = s.count c := by
  obtain ⟨b, hs, hb⟩ := trimEndMatches_split p s
  have hnone : b.count c = 0 := by
    rw [List.count_eq_zero]
    intro hmem
    exact absurd (List.all_eq_true.mp hb c hmem) (by simp [hc])
  conv_rhs => rw [hs]
  rw [List.count_append, hnone, Nat.add_zero]

/-- The marks stand on the left side and in the result type. -/
theorem count_resultText (h : '=' ∈ trim s) :
    (cutWords (words isWhitespace s)).flatten.count '!' + (resultText s).count '!' = s.count '!' := by
  have hb : (resultText s).count '!' = (((trim s).dropWhile (· ≠ '=')).drop 1).count '!' := by
    rw [resultText, count_trim (by decide), count_trimEndMatches (by decide), count_trim (by decide)]
  have ha : (cutWords (words isWhitespace s)).flatten.count '!' = ((trim s).takeWhile (· ≠ '=')).count '!' := by
    rw [← words_trim s, ← words_takeWhile, count_words (by decide)]
  obtain ⟨a, b, heq, ha'⟩ := List.eq_append_cons_of_mem h
  have hsplit := splitAtChar_eq_takeWhile h
  rw [heq, splitAtChar_append ha', ← heq] at hsplit
  obtain ⟨h1, h2⟩ := Prod.mk.inj (Option.some.inj hsplit)
  rw [hb, ha, ← h1, ← h2, ← count_trim (c := '!') (by decide) s, heq, List.count_append,
    List.count_cons_of_ne (by decide)]

theorem equals_iff (s : List Char) : '=' ∈ trim s ↔ '=' ∈ (words isWhitespace s).flatten := by
  rw [← words_trim, flatten_words, List.mem_filter]
  exact (and_iff_left (by decide)).symm

/-- A type that is marked the same is the same up to the mark it is written with. -/
theorem eq_of_marked {t u : Ty} {names : List String} (h : markDeclared names t = markDeclared names u)
    (hcount : (sourceText t).count '!' = (sourceText u).count '!') : t = u := by
  unfold markDeclared at h
  obtain ⟨ns, name, bare, genericRef, genericArg⟩ := t
  obtain ⟨ns', name', bare', genericRef', genericArg'⟩ := u
  have hfields : ns = ns' ∧ name = name' ∧ bare = bare' ∧ genericArg = genericArg' := by
    split at h <;> split at h <;> simp_all
  obtain ⟨rfl, rfl, rfl, rfl⟩ := hfields
  have hmark : (mark genericRef).count '!' = (mark genericRef').count '!' := by
    rw [sourceText_eq ⟨ns, name, bare, genericRef, genericArg⟩,
      sourceText_eq ⟨ns, name, bare, genericRef', genericArg⟩] at hcount
    simp only [List.count_append] at hcount
    omega
  cases genericRef <;> cases genericRef' <;> first | rfl | exact absurd hmark (by decide)

/-- **The same words.** Of a text with an id, the white space matters inside the result type only. -/
theorem fromStr_congr_iff (hwords : words isWhitespace t = words isWhitespace s) (h : fromStr s = .ok d)
    (hid : explicitId s ≠ none) : fromStr t = .ok d ↔ resultText t = resultText s := by
  obtain ⟨heq, ty, typeDefs, hty, hmark, hread⟩ := fromStr_iff.mp h
  have heq' : '=' ∈ trim t := by rwa [equals_iff, hwords, ← equals_iff]
  have hlhs : words isWhitespace (lhsText s) = words isWhitespace (lhsText t) := by
    rw [words_lhsText, words_lhsText, hwords]
  have hread' : Read (trim t) (lhsText t) d typeDefs := hread.congr hlhs (trim_trim _) (trim_trim _) hid
  constructor
  · intro ht
    obtain ⟨-, ty', typeDefs', hty', hmark', hread''⟩ := fromStr_iff.mp ht
    have hdefs : typeDefs' = typeDefs :=
      (Prod.mk.inj (Except.ok.inj (hread''.params.symm.trans hread'.params))).2
    have hcount : (resultText t).count '!' = (resultText s).count '!' := by
      have h1 := count_resultText heq
      have h2 := count_resultText heq'
      have h3 : t.count '!' = s.count '!' := by
        rw [← count_words (by decide) t, ← count_words (by decide) s, hwords]
      rw [hwords, h3] at h2
      omega
    obtain ⟨hsource, -⟩ := typeFromStr_iff.mp hty
    obtain ⟨hsource', -⟩ := typeFromStr_iff.mp hty'
    rw [hdefs, hmark] at hmark'
    rw [hsource, hsource'] at hcount ⊢
    rw [eq_of_marked hmark'.symm hcount]
  · intro hresult
    rw [← hresult] at hty
    exact fromStr_iff.mpr ⟨heq', ty, typeDefs, hty, hmark, hread'⟩

end Ferogram.TlParser
