import Ferogram.TlParser.Layout

/- What the sections of a layout yield. The pieces of a section have the words of its definitions
   (`pieces_ended`, `pieces_missing`), so each gives the definition if its result type is the same.
   A definition without a semicolon joins the first one behind it, and then fewer items come than
   there are definitions (`readSections_length`); if none is behind it, it is yielded at the end of
   the text, with the category of the last section. -/
namespace Ferogram.TlParser
open TlGen Parsers Words

variable {category : Category} {p t : List Char} {s : Section} {sections : List Section}

/-! The words of the pieces. -/

theorem tokens_spaced {codes : List (List Char)} :
    codeTokens (codes.flatMap (' ' :: ·)) = codes.flatMap codeTokens := by
  induction codes with
  | nil => rfl
  | cons code codes ih =>
    have hfirst : codeTokens ([] ++ ' ' :: (code ++ codes.flatMap (' ' :: ·))) =
        codeTokens (code ++ codes.flatMap (' ' :: ·)) := tokens_append_cons (by decide) (by decide) _ _
    rw [List.flatMap_cons, List.cons_append]
    refine hfirst.trans ?_
    rw [List.flatMap_cons, ← ih]
    cases codes with
    | nil => rw [List.flatMap_nil, List.append_nil]; exact (List.append_nil _).symm
    | cons d codes =>
      have hmore : codeTokens ([] ++ ' ' :: (d ++ codes.flatMap (' ' :: ·))) =
          codeTokens (d ++ codes.flatMap (' ' :: ·)) := tokens_append_cons (by decide) (by decide) _ _
      have hboth : codeTokens (code ++ ' ' :: (d ++ codes.flatMap (' ' :: ·))) =
          codeTokens code ++ codeTokens (d ++ codes.flatMap (' ' :: ·)) := tokens_append_cons (by decide) (by decide) _ _
      rw [List.nil_append] at hmore
      rw [List.flatMap_cons, List.cons_append, hboth, hmore]

theorem codeTokens_trim (code : List Char) : codeTokens (trim code) = codeTokens code := by
  obtain ⟨a, b, hs, ha, hb⟩ := trim_split code
  unfold codeTokens
  conv_rhs => rw [hs]
  rw [tokens_seps_append (List.all_eq_true.mp ha) (by decide), tokens_append_seps (List.all_eq_true.mp hb) (by decide)]

theorem codeTokens_joined (lines : List Line) :
    codeTokens (joinedLines lines) = lines.flatMap fun l => codeTokens l.code := by
  rw [joinedLines, tokens_spaced]
  induction lines with
  | nil => rfl
  | cons l lines ih =>
    rw [List.map_cons, List.flatMap_cons, ← ih, ← codeTokens_trim l.code]
    by_cases h : trim l.code = []
    · rw [h, List.filter_cons_of_neg (by simp)]
      rfl
    · rw [List.filter_cons_of_pos (by simpa using h), List.flatMap_cons]

theorem splitOn_written {defs : List (List Char)} (h : ∀ t ∈ defs, ';' ∉ t) (more : List (List Char)) :
    (writtenTokens defs ++ more).splitOn [';'] = defs.map (words isWhitespace) ++ more.splitOn [';'] := by
  induction defs with
  | nil => rfl
  | cons t defs ih =>
    have hnot : [';'] ∉ words isWhitespace t := fun hmem =>
      h t List.mem_cons_self ((mem_words hmem).2 ';' (List.mem_singleton.mpr rfl)).1
    rw [writtenTokens, List.flatMap_cons, ← writtenTokens, List.append_assoc, List.append_assoc, List.singleton_append,
      List.splitOn_append_cons_self_of_not_mem hnot, ih fun u hu => h u (List.mem_cons_of_mem _ hu), List.map_cons,
      List.cons_append]

theorem joined_words (hs : s.Laid) : (s.joined.splitOn ';').map (words isWhitespace) =
    s.defs.map (words isWhitespace) ++ if s.missing then [] else [[]] := by
  rw [← splitOn_tokens, Section.joined]
  have htokens : tokens isWhitespace ';' (joinedLines s.lines) = _ := (codeTokens_joined s.lines).trans hs.tokens
  rw [htokens]
  cases hm : s.missing with
  | false =>
    have := splitOn_written hs.whole []
    rw [List.append_nil] at this
    simpa using this
  | true =>
    obtain ⟨defs, t, hdefs⟩ := (List.eq_nil_or_concat s.defs).resolve_left (hs.some hm)
    rw [List.concat_eq_append] at hdefs
    have hwhole := hs.whole
    rw [hdefs] at hwhole
    have hnot : [';'] ∉ words isWhitespace t := fun hmem =>
      hwhole t (by simp) ((mem_words hmem).2 ';' (List.mem_singleton.mpr rfl)).1
    have hdrop : (writtenTokens s.defs).dropLast = writtenTokens defs ++ words isWhitespace t := by
      rw [hdefs, writtenTokens, List.flatMap_append, List.flatMap_singleton, ← List.append_assoc, List.dropLast_concat]
      rfl
    rw [if_pos rfl, hdrop, splitOn_written fun u hu => hwhole u (List.mem_append_left _ hu),
      List.splitOn_eq_singleton hnot, hdefs]
    simp

theorem trim_of_no_words {x : List Char} (h : words isWhitespace x = []) : trim x = [] := by
  rw [trim_eq_nil_iff, List.all_eq_true]
  intro c hc
  have hflat := flatten_words (p := isWhitespace) x
  rw [h, List.flatten_nil] at hflat
  by_contra hwhite
  have : c ∈ x.filter (!isWhitespace ·) := List.mem_filter.mpr ⟨hc, by simpa using hwhite⟩
  rw [← hflat] at this
  exact absurd this List.not_mem_nil

/-- Every definition has its semicolon. -/
theorem pieces_ended (hs : s.Laid) (hm : s.missing = false) :
    (ended ';' s.joined).map (words isWhitespace) = s.defs.map (words isWhitespace) ∧ trim (unended ';' s.joined) = [] := by
  have h := joined_words hs
  rw [splitOn_eq_ended, hm, if_neg Bool.false_ne_true, List.map_append, List.map_singleton] at h
  obtain ⟨hended, hlast⟩ := List.append_inj' h rfl
  exact ⟨hended, trim_of_no_words (List.singleton_inj.mp hlast)⟩

/-- The last definition has none. -/
theorem pieces_missing (hs : s.Laid) (hm : s.missing = true) :
    (ended ';' s.joined ++ [unended ';' s.joined]).map (words isWhitespace) = s.defs.map (words isWhitespace) := by
  have := joined_words hs
  rwa [splitOn_eq_ended, hm, if_pos rfl, List.append_nil] at this

/-! Definitions. -/

/-- A text that is accepted and has an id. -/
def Given (t : List Char) : Prop := (∃ d, fromStr t = .ok d) ∧ explicitId t ≠ none

theorem fromStr_trim (x : List Char) : fromStr (trim x) = fromStr x := by
  simp only [fromStr, trim_trim]

theorem Given.words_ne_nil (h : Given t) : words isWhitespace t ≠ [] := by
  obtain ⟨d, hd⟩ := h.1
  intro hnil
  have := equals_of_fromStr hd
  rw [trim_of_no_words hnil] at this
  exact absurd this List.not_mem_nil

theorem parseParts_eq {raw : List (List Char)} (h : ∀ x ∈ raw, words isWhitespace x ≠ []) (category : Category) :
    parseParts category raw = raw.map fun x => inCategory category (fromStr x) := by
  have hfilter : (raw.map trim).filter (!·.isEmpty) = raw.map trim := by
    rw [List.filter_eq_self]
    intro y hy
    obtain ⟨x, hx, rfl⟩ := List.mem_map.mp hy
    have hne : trim x ≠ [] := fun hnil => h x hx (by rw [← words_trim, hnil]; rfl)
    simpa using hne
  rw [parseParts, hfilter, List.map_map]
  refine List.map_congr_left fun x _ => ?_
  rw [Function.comp_apply, fromStr_trim]
  rfl

theorem category_of_fromStr {d : Definition} (h : fromStr t = .ok d) : d.category = .types := by
  obtain ⟨-, ty, typeDefs, -, -, hread⟩ := fromStr_iff.mp h
  exact hread.category

/-- A piece gives the definition in its category exactly if the category and the result type are those. -/
theorem inCategory_eq_iff {x : List Char} {c c' : Category} (hwords : words isWhitespace x = words isWhitespace t)
    (ht : Given t) : inCategory c (fromStr x) = inCategory c' (fromStr t) ↔ c = c' ∧ resultText x = resultText t := by
  obtain ⟨⟨d, hd⟩, hid⟩ := ht
  rw [← fromStr_congr_iff hwords hd hid, hd]
  constructor
  · intro h
    cases hx : fromStr x with
    | error e =>
      rw [hx] at h
      cases h
    | ok d' =>
      rw [hx] at h
      have hfields := Except.ok.inj h
      have hcat := category_of_fromStr hd
      have hcat' := category_of_fromStr hx
      obtain ⟨ns, name, id, params, ty, cat⟩ := d
      obtain ⟨ns', name', id', params', ty', cat'⟩ := d'
      obtain ⟨rfl, rfl, rfl, rfl, rfl, hc⟩ := Definition.mk.inj hfields
      cases hcat
      cases hcat'
      exact ⟨hc, rfl⟩
  · rintro ⟨rfl, hx⟩
    rw [hx]

theorem map_inCategory_iff {xs ts : List (List Char)}
    (hwords : xs.map (words isWhitespace) = ts.map (words isWhitespace)) (hts : ∀ t ∈ ts, Given t) (c : Category) :
    (xs.map fun x => inCategory c (fromStr x)) = (ts.map fun t => inCategory c (fromStr t)) ↔
      xs.map resultText = ts.map resultText := by
  induction xs generalizing ts with
  | nil =>
    obtain rfl : ts = [] := List.map_eq_nil_iff.mp hwords.symm
    simp
  | cons x xs ih =>
    cases ts with
    | nil => cases hwords
    | cons t ts =>
      obtain ⟨hx, hxs⟩ := List.cons.inj hwords
      rw [List.map_cons, List.map_cons, List.map_cons, List.map_cons, List.cons_eq_cons, List.cons_eq_cons,
        inCategory_eq_iff hx (hts t List.mem_cons_self), ih hxs fun u hu => hts u (List.mem_cons_of_mem _ hu)]
      simp

/-! Counting. -/

def total (sections : List Section) : Nat := (sections.map fun s => s.defs.length).sum

theorem total_eq_zero_iff : total sections = 0 ↔ ∀ s ∈ sections, s.defs = [] := by
  induction sections with
  | nil => simp [total]
  | cons s rest ih =>
    have htotal : total (s :: rest) = s.defs.length + total rest := rfl
    rw [htotal, Nat.add_eq_zero_iff, ih, List.length_eq_zero_iff, List.forall_mem_cons]

theorem expected_length (sections : List Section) : (expected sections).length = total sections := by
  simp [expected, total, List.length_flatMap]

theorem parseParts_length (category : Category) (raw : List (List Char)) : (parseParts category raw).length ≤ raw.length := by
  rw [parseParts, List.length_map]
  exact (List.length_filter_le _ _).trans (List.length_map _).le

theorem lastItems_eq (hp : Pending p) (category : Category) :
    lastItems category p = if p = [] then [] else [inCategory category (fromStr p)] := by
  rw [lastItems, hp.1]
  by_cases h : p = []
  · rw [if_pos h, if_pos (by simpa using h)]
  · have hwords : words isWhitespace p ≠ [] := fun hnil => h (by rw [← hp.1, trim_of_no_words hnil])
    rw [if_neg h, if_neg (by simpa using h), List.splitOn_eq_singleton hp.2, parseParts_eq (by simpa using hwords)]
    rfl

/-- What is pending in front of a section joins its first piece. -/
theorem ended_pending (hp : Pending p) (x : List Char) : (ended ';' (p ++ x)).length = (ended ';' x).length ∧
    (ended ';' x ≠ [] → unended ';' (p ++ x) = unended ';' x) ∧
    (ended ';' x = [] → unended ';' (p ++ x) = p ++ unended ';' x) := by
  have h := splitOn_append_of_not_mem hp.2 x
  rw [splitOn_eq_ended, splitOn_eq_ended] at h
  cases hx : ended ';' x with
  | nil =>
    rw [hx] at h
    obtain ⟨hended, hlast⟩ := List.append_inj' (h.trans (List.nil_append [p ++ unended ';' x]).symm) rfl
    exact ⟨congrArg List.length hended, fun hne => absurd rfl hne, fun _ => List.singleton_inj.mp hlast⟩
  | cons v vs =>
    rw [hx, List.cons_append, List.modifyHead_cons, ← List.cons_append] at h
    obtain ⟨hended, hlast⟩ := List.append_inj' h rfl
    refine ⟨?_, fun _ => List.singleton_inj.mp hlast, fun hnil => absurd hnil (List.cons_ne_nil _ _)⟩
    rw [hended, List.length_cons, List.length_cons]

/-- A section without definitions leaves what is pending. -/
theorem section_without (hs : s.Laid) (hdefs : s.defs = []) (hp : Pending p) :
    ended ';' (p ++ s.joined) = [] ∧ trim (unended ';' (p ++ s.joined)) = p := by
  have hm : s.missing = false := Bool.eq_false_of_not_eq_true fun hm => hs.some hm hdefs
  obtain ⟨hended, hlast⟩ := pieces_ended hs hm
  rw [hdefs] at hended
  have hnil : ended ';' s.joined = [] := List.map_eq_nil_iff.mp hended
  obtain ⟨hlen, -, hjoin⟩ := ended_pending hp s.joined
  rw [hnil] at hlen
  refine ⟨List.length_eq_zero_iff.mp hlen, ?_⟩
  rw [hjoin hnil]
  have := trim_append (a := []) rfl (trim_eq_nil_iff.mp hlast) p
  rwa [List.nil_append, hp.1] at this

/-- A section with semicolons yields so many items at most, and leaves nothing if the last definition has one. -/
theorem section_yields (hs : s.Laid) (hp : Pending p) (category : Category) :
    (parseParts category (ended ';' (p ++ s.joined))).length + (if s.missing then 1 else 0) ≤ s.defs.length ∧
      (s.missing = false → s.defs ≠ [] → trim (unended ';' (p ++ s.joined)) = []) := by
  have hle := parseParts_length category (ended ';' (p ++ s.joined))
  obtain ⟨hlen, hkeep, -⟩ := ended_pending hp s.joined
  cases hm : s.missing with
  | false =>
    obtain ⟨hended, hlast⟩ := pieces_ended hs hm
    have hcount := congrArg List.length hended
    rw [List.length_map, List.length_map] at hcount
    refine ⟨by simp only [Bool.false_eq_true, if_false]; omega, fun _ hdefs => ?_⟩
    have hne : ended ';' s.joined ≠ [] := by
      intro hnil
      rw [hnil] at hcount
      exact hdefs (List.length_eq_zero_iff.mp hcount.symm)
    rw [hkeep hne, hlast]
  | true =>
    have hcount := congrArg List.length (pieces_missing hs hm)
    rw [List.length_map, List.length_map, List.length_append, List.length_singleton] at hcount
    exact ⟨by simp only [if_true]; omega, fun h => absurd h.symm Bool.false_ne_true⟩

/-- No more items come than there are definitions, but for one that is pending when none follows. -/
theorem readSections_length (hlaid : ∀ s ∈ sections, s.Laid) (hp : Pending p) :
    (readSections category p sections).length ≤ max (total sections) (if p = [] then 0 else 1) := by
  induction sections generalizing category p with
  | nil =>
    rw [readSections, lastItems_eq hp]
    split <;> simp
  | cons s rest ih =>
    have hs := hlaid s List.mem_cons_self
    have hrest := @ih s.category _ (fun t ht => hlaid t (List.mem_cons_of_mem _ ht)) (pending_unended (p ++ s.joined))
    have htotal : total (s :: rest) = s.defs.length + total rest := rfl
    rw [readSections, List.length_append, htotal]
    by_cases hdefs : s.defs = []
    · obtain ⟨hnone, hsame⟩ := section_without hs hdefs hp
      rw [hsame] at hrest
      rw [hnone, hsame, hdefs]
      simpa [parseParts] using hrest
    · obtain ⟨hitems, hempty⟩ := section_yields hs hp s.category
      have hpos : 0 < s.defs.length := List.length_pos_iff.mpr hdefs
      -- only a definition without its semicolon stays pending
      cases hm : s.missing with
      | false =>
        rw [hempty hm hdefs] at hrest ⊢
        simp only [hm, if_true, Bool.false_eq_true, if_false] at hrest hitems
        omega
      | true =>
        simp only [hm, if_true] at hitems
        have hbound : (if trim (unended ';' (p ++ s.joined)) = [] then 0 else 1) ≤ 1 := by split <;> simp
        omega

/-! The whole text. -/

/-- Sections without definitions: what is pending comes at the end, in the last category. -/
theorem readSections_without (hlaid : ∀ s ∈ sections, s.Laid) (hp : Pending p) (h : ∀ s ∈ sections, s.defs = []) :
    readSections category p sections = lastItems ((sections.getLast?.map Section.category).getD category) p := by
  induction sections generalizing category with
  | nil => rfl
  | cons s rest ih =>
    obtain ⟨hnone, hsame⟩ := section_without (hlaid s List.mem_cons_self) (h s List.mem_cons_self) hp
    rw [readSections, hnone, hsame, ih (fun t ht => hlaid t (List.mem_cons_of_mem _ ht)) fun t ht => h t (List.mem_cons_of_mem _ ht)]
    cases rest with
    | nil => rfl
    | cons t rest =>
      rw [List.getLast?_cons_cons, List.getLast?_eq_some_getLast (List.cons_ne_nil t rest)]
      rfl

theorem keeps_cons_iff {rest : List Section} : Keeps (s :: rest) ↔ s.KeepsTypes ∧
    (s.missing = true → (∀ t ∈ rest, t.defs = []) ∧ ∀ t, rest.getLast? = some t → t.category = s.category) ∧
      Keeps rest := by
  constructor
  · intro h
    refine ⟨h.types s List.mem_cons_self, h.ended [] s rest rfl, fun t ht => h.types t (List.mem_cons_of_mem _ ht), ?_⟩
    intro pre t post heq hm
    exact h.ended (s :: pre) t post (by rw [heq, List.cons_append]) hm
  · rintro ⟨hs, hmissing, hrest⟩
    refine ⟨?_, ?_⟩
    · intro t ht
      rcases List.mem_cons.mp ht with rfl | ht
      · exact hs
      · exact hrest.types t ht
    · intro pre t post heq hm
      cases pre with
      | nil =>
        obtain ⟨rfl, rfl⟩ := List.cons.inj heq
        exact hmissing hm
      | cons u pre =>
        obtain ⟨-, hrestEq⟩ := List.cons.inj heq
        exact hrest.ended pre t post hrestEq hm

theorem keeps_without (hlaid : ∀ s ∈ sections, s.Laid) (h : ∀ s ∈ sections, s.defs = []) : Keeps sections := by
  refine ⟨fun s hs => ?_, fun pre s post heq hm => ?_⟩
  · rw [Section.KeepsTypes, h s hs]
    rfl
  · have hmem : s ∈ sections := heq ▸ List.mem_append_right _ List.mem_cons_self
    exact absurd (h s hmem) ((hlaid s hmem).some hm)

theorem words_ne_nil_of_map {xs ts : List (List Char)}
    (hwords : xs.map (words isWhitespace) = ts.map (words isWhitespace)) (hts : ∀ t ∈ ts, Given t) :
    ∀ x ∈ xs, words isWhitespace x ≠ [] := by
  intro x hx
  have hmem : words isWhitespace x ∈ ts.map (words isWhitespace) := hwords ▸ List.mem_map_of_mem hx
  obtain ⟨t, ht, heq⟩ := List.mem_map.mp hmem
  exact heq ▸ (hts t ht).words_ne_nil

theorem keepsTypes_iff {pieces : List (List Char)} {more : List (List Char)} (h : s.joined.splitOn ';' = pieces ++ more)
    (hlen : pieces.length = s.defs.length) : s.KeepsTypes ↔ pieces.map resultText = s.defs.map resultText := by
  rw [Section.KeepsTypes, h, List.map_append, List.take_left' (by rw [List.length_map, hlen])]

section
variable {rest : List Section}

/-- A section in which every definition has its semicolon. -/
theorem section_ended_iff (hs : s.Laid) (hgiven : ∀ t ∈ s.defs, Given t) (hm : s.missing = false) :
    readSections category [] (s :: rest) = expected (s :: rest) ↔
      s.KeepsTypes ∧ readSections s.category [] rest = expected rest := by
  obtain ⟨hended, hlast⟩ := pieces_ended hs hm
  have hlen : (ended ';' s.joined).length = s.defs.length := by simpa using congrArg List.length hended
  rw [keepsTypes_iff (splitOn_eq_ended ';' s.joined) hlen, ← map_inCategory_iff hended hgiven s.category, readSections,
    List.nil_append, hlast, parseParts_eq (words_ne_nil_of_map hended hgiven), expected, List.flatMap_cons, ← expected,
    List.append_eq_append_iff_of_size_eq_left (by rw [List.length_map, List.length_map, hlen])]

/-- The last definition of a section has no semicolon, and no other definition follows. -/
theorem section_missing_iff (hs : s.Laid) (hgiven : ∀ t ∈ s.defs, Given t) (hm : s.missing = true)
    (hlaid : ∀ s ∈ rest, s.Laid) (hrest : ∀ s ∈ rest, s.defs = []) :
    readSections category [] (s :: rest) = expected (s :: rest) ↔
      s.KeepsTypes ∧ ∀ t, rest.getLast? = some t → t.category = s.category := by
  have hwords := pieces_missing hs hm
  have hlen : (ended ';' s.joined ++ [unended ';' s.joined]).length = s.defs.length := by
    simpa using congrArg List.length hwords
  have hexpected : expected rest = [] :=
    List.length_eq_zero_iff.mp ((expected_length rest).trans (total_eq_zero_iff.mpr hrest))
  have hcat : (rest.getLast?.map Section.category).getD s.category = s.category ↔
      ∀ t, rest.getLast? = some t → t.category = s.category := by
    cases rest.getLast? with
    | none => simp
    | some t => simp
  -- the last definition is pending, and comes at the end of the text with the category it has then
  obtain ⟨defs, t, hdefs⟩ := (List.eq_nil_or_concat s.defs).resolve_left (hs.some hm)
  rw [List.concat_eq_append] at hdefs
  have hsplit := splitOn_eq_ended ';' s.joined
  have hkeeps := keepsTypes_iff (hsplit.trans (List.append_nil _).symm) hlen
  rw [hdefs] at hwords hgiven hkeeps
  simp only [List.map_append, List.map_singleton] at hwords hkeeps
  obtain ⟨hended, hlast⟩ := List.append_inj' hwords rfl
  have hgiven' : ∀ u ∈ defs, Given u := fun u hu => hgiven u (List.mem_append_left _ hu)
  have hlast' : words isWhitespace (unended ';' s.joined) = words isWhitespace t := List.singleton_inj.mp hlast
  have hnil : trim (unended ';' s.joined) ≠ [] := by
    intro hnil
    refine (hgiven t (by simp)).words_ne_nil ?_
    rw [← hlast', ← words_trim, hnil]
    rfl
  have hlengths : (ended ';' s.joined).length = defs.length := by simpa using congrArg List.length hended
  have hread : readSections category [] (s :: rest) =
      ((ended ';' s.joined).map fun x => inCategory s.category (fromStr x)) ++
        [inCategory ((rest.getLast?.map Section.category).getD s.category) (fromStr (unended ';' s.joined))] := by
    rw [readSections, List.nil_append, readSections_without hlaid (pending_unended _) hrest,
      lastItems_eq (pending_unended _), if_neg hnil, fromStr_trim, parseParts_eq (words_ne_nil_of_map hended hgiven')]
  have hwritten : expected (s :: rest) = (defs.map fun t => inCategory s.category (fromStr t)) ++
      [inCategory s.category (fromStr t)] := by
    rw [expected, List.flatMap_cons, ← expected, hexpected, List.append_nil, hdefs, List.map_append, List.map_singleton]
  rw [hread, hwritten, hkeeps, ← hcat,
    List.append_eq_append_iff_of_size_eq_left (by rw [List.length_map, List.length_map, hlengths]),
    List.append_eq_append_iff_of_size_eq_left (by rw [List.length_map, List.length_map, hlengths]), List.cons_eq_cons,
    List.cons_eq_cons, map_inCategory_iff hended hgiven', inCategory_eq_iff hlast' (hgiven t (by simp))]
  constructor
  · rintro ⟨h1, ⟨h2, h3⟩, -⟩
    exact ⟨⟨h1, h3, rfl⟩, h2⟩
  · rintro ⟨⟨h1, h3, -⟩, h2⟩
    exact ⟨h1, ⟨h2, h3⟩, rfl⟩

/-- A definition without a semicolon joins the next one. -/
theorem section_joined (hs : s.Laid) (hm : s.missing = true) (hlaid : ∀ s ∈ rest, s.Laid)
    (hrest : ¬ ∀ s ∈ rest, s.defs = []) : readSections category [] (s :: rest) ≠ expected (s :: rest) := by
  intro heq
  -- there is one item less than there are definitions
  have hlen := congrArg List.length heq
  have htotal : total (s :: rest) = s.defs.length + total rest := rfl
  have hpos : 0 < total rest := Nat.pos_of_ne_zero fun hzero => hrest (total_eq_zero_iff.mp hzero)
  obtain ⟨hitems, -⟩ := section_yields (p := []) hs ⟨rfl, List.not_mem_nil⟩ s.category
  have hbound : (readSections s.category (trim (unended ';' ([] ++ s.joined))) rest).length ≤ max (total rest) _ :=
    readSections_length hlaid (pending_unended ([] ++ s.joined))
  rw [readSections, List.length_append, expected_length, htotal] at hlen
  have hone : (if trim (unended ';' ([] ++ s.joined)) = [] then 0 else 1) ≤ 1 := by split <;> simp
  simp only [hm, if_true] at hitems
  omega

end

theorem readSections_iff (hlaid : ∀ s ∈ sections, s.Laid) (hgiven : ∀ s ∈ sections, ∀ t ∈ s.defs, Given t) :
    readSections category [] sections = expected sections ↔ Keeps sections := by
  induction sections generalizing category with
  | nil =>
    have hkeeps : Keeps [] := keeps_without (by simp) (by simp)
    exact ⟨fun _ => hkeeps, fun _ => rfl⟩
  | cons s rest ih =>
    have hs := hlaid s List.mem_cons_self
    have hsgiven := hgiven s List.mem_cons_self
    have hrestLaid : ∀ t ∈ rest, t.Laid := fun t ht => hlaid t (List.mem_cons_of_mem _ ht)
    rw [keeps_cons_iff]
    cases hm : s.missing with
    | false =>
      rw [section_ended_iff hs hsgiven hm, ih hrestLaid fun t ht => hgiven t (List.mem_cons_of_mem _ ht)]
      simp
    | true =>
      by_cases hrest : ∀ t ∈ rest, t.defs = []
      · rw [section_missing_iff hs hsgiven hm hrestLaid hrest]
        have hkeeps := keeps_without hrestLaid hrest
        exact ⟨fun h => ⟨h.1, fun _ => ⟨hrest, h.2⟩, hkeeps⟩, fun h => ⟨h.1, (h.2.1 rfl).2⟩⟩
      · exact ⟨fun h => absurd h (section_joined hs hm hrestLaid hrest), fun h => absurd (h.2.1 rfl).1 hrest⟩

/-- **Layouts.** The iterator yields the definitions of a layout, each with the category of its
section, exactly if the layout keeps them. -/
theorem layout_iff {src : List Char} (h : Layout sections src) (hgiven : ∀ s ∈ sections, ∀ t ∈ s.defs, Given t) :
    (∀ m, ∃ it', Lazy.calls TlIterator.next m (.new src) = some ((expected sections).take m, it')) ↔ Keeps sections := by
  have hkeeps : readSections .types [] sections = expected sections ↔ Keeps sections := readSections_iff h.laid hgiven
  rw [← hkeeps, ← readLines_layout h]
  constructor
  · intro hcalls
    have hsame : ∀ m, (readLines .types [] (Rich.lines src)).take m = (expected sections).take m := by
      intro m
      obtain ⟨it₁, h₁⟩ := calls_new src m
      obtain ⟨it₂, h₂⟩ := hcalls m
      exact (Prod.mk.inj (Option.some.inj (h₁.symm.trans h₂))).1
    have := hsame ((readLines .types [] (Rich.lines src)).length + (expected sections).length)
    rwa [List.take_of_length_le (by omega), List.take_of_length_le (by omega)] at this
  · intro heq m
    rw [← heq]
    exact calls_new src m

/-! Two layouts. -/

/-- A definition over two lines, another behind it, and one without a semicolon at the end. -/
def schemaText : List Char := "a#1 // first\n x:int = A; c#3 = C;\n---functions---\n\nb#2 = B".toList

def schemaSections : List Section :=
  [⟨.types, [], [⟨"a#1 ".toList, some " first".toList⟩, ⟨" x:int = A; c#3 = C;".toList, none⟩],
    ["a#1 x:int = A".toList, "c#3 = C".toList], false⟩,
   ⟨.functions, [⟨functionsMarker, none⟩], [⟨[], none⟩, ⟨"b#2 = B".toList, none⟩], ["b#2 = B".toList], true⟩]

theorem given_of {t : List Char} (h : (fromStr t).toOption.isSome = true) (hid : explicitId t ≠ none) : Given t := by
  cases hd : fromStr t with
  | ok d => exact ⟨⟨d, hd⟩, hid⟩
  | error e =>
    rw [hd] at h
    cases h

theorem layout_schema : ∃ it',
    Lazy.calls TlIterator.next 4 (.new schemaText) = some (expected schemaSections, it') := by
  have hlayout : Layout schemaSections schemaText := by
    refine ⟨?_, ?_, by decide +kernel, by decide +kernel⟩
    · rintro s ⟨⟩
      exact Or.inr ⟨rfl, rfl⟩
    · intro s hs
      obtain rfl := List.mem_singleton.mp hs
      exact ⟨_, rfl, by decide⟩
  have hgiven : ∀ s ∈ schemaSections, ∀ t ∈ s.defs, Given t := by
    have hall : ∀ s ∈ schemaSections, ∀ t ∈ s.defs, (fromStr t).toOption.isSome = true ∧ explicitId t ≠ none := by
      decide +kernel
    exact fun s hs t ht => given_of (hall s hs t ht).1 (hall s hs t ht).2
  have hkeeps : Keeps schemaSections := by
    refine keeps_cons_iff.mpr ⟨by decide +kernel, fun h => absurd h Bool.false_ne_true, ?_⟩
    exact keeps_cons_iff.mpr ⟨by decide +kernel, fun _ => ⟨by simp, by simp⟩, keeps_without (by simp) (by simp)⟩
  exact (layout_iff hlayout hgiven).mpr hkeeps 4

/-- A definition without a semicolon in front of a marker, behind which nothing stands. -/
def markedSections : List Section :=
  [⟨.types, [], [⟨"a#1 = A".toList, none⟩], ["a#1 = A".toList], true⟩, ⟨.functions, [⟨functionsMarker, none⟩], [], [], false⟩]

/-- The definition is yielded as a function. -/
theorem layout_mislabels : ∃ src, Layout markedSections src ∧ (∀ s ∈ markedSections, ∀ t ∈ s.defs, Given t) ∧
    ¬ ∀ m, ∃ it', Lazy.calls TlIterator.next m (.new src) = some ((expected markedSections).take m, it') := by
  refine ⟨"a#1 = A\n---functions---".toList, ?_, ?_, fun hcalls => ?_⟩
  · refine ⟨?_, ?_, by decide +kernel, by decide +kernel⟩
    · rintro s ⟨⟩
      exact Or.inr ⟨rfl, rfl⟩
    · intro s hs
      obtain rfl := List.mem_singleton.mp hs
      exact ⟨_, rfl, by decide⟩
  · have hall : ∀ s ∈ markedSections, ∀ t ∈ s.defs, (fromStr t).toOption.isSome = true ∧ explicitId t ≠ none := by
      decide +kernel
    exact fun s hs t ht => given_of (hall s hs t ht).1 (hall s hs t ht).2
  · obtain ⟨it', h⟩ := hcalls 1
    have hyielded : (Lazy.calls TlIterator.next 1 (.new "a#1 = A\n---functions---".toList)).map
        (fun r => r.1.map fun item => item.toOption.map fun d => d.category) = some [some .functions] := by
      decide +kernel
    have hwanted : ((expected markedSections).take 1).map (fun item => item.toOption.map fun d => d.category) =
        [some .types] := by
      decide +kernel
    rw [h, Option.map_some, hwanted] at hyielded
    cases hyielded

end Ferogram.TlParser
