import Ferogram.Lib.Descent
import Ferogram.Lib.Str
import Ferogram.Parsers.HtmlRead

/- The slices of `parse_html`. Here the tokenizer walks the bytes of the text, as
   the source does, and every slice that it takes, of the text, of a tag or of an
   attribute, is checked; a slice off a character boundary is a panic, and the
   parser then has no result. `parseHtml_eq` says that this is the parser of the
   other modules.

   `parse_attrs` cuts off one byte where it finds no key. That is an `=` first,
   but what follows is not trimmed, so the next byte may be the first of a white
   space character of several. `parseAttrs_isSome_iff` and `parseHtml_total_iff`
   say that nothing else goes wrong. -/
namespace Ferogram.Parsers.Sliced
open Str Descent

/-! Attributes. -/

/-- The value of a quoted attribute and what follows it, from the opening quote on. -/
def quotedValue (quote : Char) (rem : List Char) : Option (List Char × List Char) := do
  let inner ← sliceFrom rem 1
  let close := (find (· == quote) inner).getD (byteLen inner)
  let value ← sliceTo inner close
  let rem ← sliceFrom inner close
  some (value, trimStart (rem.dropWhile (· = quote)))

/-- What follows the key of an attribute. -/
def attrValue (rem : List Char) : Option (List Char × List Char) :=
  if rem.head? = some '=' then do
    let rem := trimStart (← sliceFrom rem 1)
    if rem.head? = some '"' then quotedValue '"' rem
    else if rem.head? = some '\'' then quotedValue '\'' rem
    else do
      let stop := (find isWhitespace rem).getD (byteLen rem)
      let value ← sliceTo rem stop
      let rem ← sliceFrom rem stop
      some (value, trimStart rem)
  else some ([], rem)

/-- Where a key ends. -/
def keyEnd (c : Char) : Bool := c == '=' || isWhitespace c

/-- A round of the loop of `parse_attrs`: the attribute, if there is a key, and what is left. -/
def attrsTurn (rem : List Char) : Option (Option (List Char × List Char) × List Char) := do
  let stop := (find keyEnd rem).getD (byteLen rem)
  let key ← sliceTo rem stop
  if key = [] then do
    let rem ← sliceFrom rem 1
    some (none, rem)
  else do
    let rem ← sliceFrom rem stop
    let (value, rem) ← attrValue (trimStart rem)
    some (some (key, value), rem)

def attrsLoop : Nat → List Char → Option (List (List Char × List Char))
  | _, [] => some []
  | 0, _ :: _ => none
  | fuel + 1, c :: rest => do
    let (attr, rem) ← attrsTurn (c :: rest)
    let attrs ← attrsLoop fuel rem
    some (attr.toList ++ attrs)

def parseAttrs (s : List Char) : Option (List (List Char × List Char)) :=
  attrsLoop (trim s).length (trim s)

def parseTag (s : List Char) : Option (List Char × List (List Char × List Char)) :=
  (parseAttrs ((s.dropWhile (!isWhitespace ·)).drop 1)).map fun attrs =>
    (trimEndMatches (· == '/') (s.takeWhile (!isWhitespace ·)), attrs)

/-! The text. -/

/-- What stands between `<` and `>`. -/
def readTag (s : HtmlState) (tagContent : List Char) : Option HtmlState :=
  if tagContent.head? = some '/' then do
    let tagStr := trim (← sliceFrom tagContent 1)
    let (tagName, _) ← parseTag tagStr
    some (s.closeTag tagName)
  else do
    let (tagName, attrs) ← parseTag (trim tagContent)
    some (s.openTag tagName attrs)

/-- A round of the loop, at a byte position. -/
def htmlTurn (html : List Char) (s : HtmlState) (i : Nat) : Option (HtmlState × Nat) := do
  let b ← (bytes html)[i]?
  if b = asciiByte '<' then do
    let j := scanTo (asciiByte '>') (bytes html) (i + 1)
    let tagContent ← slice html (i + 1) j
    let s ← readTag s tagContent
    some (s, j + 1)
  else do
    let j := scanTo (asciiByte '<') (bytes html) i
    let text ← slice html i j
    some (s.pushText (decodeHtmlEntities text), j)

def htmlLoop (html : List Char) : Nat → HtmlState → Nat → Option HtmlState
  | fuel, s, i =>
    if i < (bytes html).length then
      match fuel with
      | 0 => none
      | fuel + 1 => do
        let (s, i) ← htmlTurn html s i
        htmlLoop html fuel s i
    else some s

def parseHtml (html : List Char) : Option (List Char × List MessageEntity) :=
  (htmlLoop html (bytes html).length .init 0).map fun s => (s.out, s.ents)

/-! The slices by characters. -/

theorem quotedValue_eq (quote : Char) (hquote : quote.utf8Size = 1) (inner : List Char) :
    quotedValue quote (quote :: inner) = some (Parsers.quotedValue quote inner) := by
  have hne : (fun c : Char => !(c == quote)) = fun c => decide (c ≠ quote) := by
    funext c
    by_cases hc : c = quote <;> simp [hc]
  unfold quotedValue Parsers.quotedValue
  simp only [sliceFrom_one, hquote, if_true, Option.bind_eq_bind, Option.bind_some, find_getD, sliceTo_takeWhile,
    sliceFrom_takeWhile, hne]

theorem attrValue_eq (rem : List Char) : attrValue rem = some (Parsers.attrValue rem) := by
  unfold attrValue
  by_cases heq : rem.head? = some '='
  · obtain ⟨rest, rfl⟩ := List.head?_eq_some_iff.mp heq
    rw [if_pos heq]
    simp only [sliceFrom_one, show ('=' : Char).utf8Size = 1 from rfl, if_true, Option.bind_eq_bind, Option.bind_some]
    by_cases hdouble : (trimStart rest).head? = some '"'
    · obtain ⟨inner, hinner⟩ := List.head?_eq_some_iff.mp hdouble
      rw [if_pos hdouble, hinner, quotedValue_eq '"' rfl]
      simp only [Parsers.attrValue, hinner]
    · rw [if_neg hdouble]
      by_cases hsingle : (trimStart rest).head? = some '\''
      · obtain ⟨inner, hinner⟩ := List.head?_eq_some_iff.mp hsingle
        rw [if_pos hsingle, hinner, quotedValue_eq '\'' rfl]
        simp only [Parsers.attrValue, hinner]
      · rw [if_neg hsingle]
        simp only [find_getD, sliceTo_takeWhile, sliceFrom_takeWhile, Option.bind_some, Parsers.attrValue]
        split
        · next h => exact absurd (by rw [h]; rfl) hdouble
        · next h => exact absurd (by rw [h]; rfl) hsingle
        · rfl
  · rw [if_neg heq]
    unfold Parsers.attrValue
    split
    · exact absurd rfl heq
    · rfl

/-- A round by characters. -/
theorem attrsTurn_eq (c : Char) (rest : List Char) :
    attrsTurn (c :: rest) =
      let key := (c :: rest).takeWhile (!keyEnd ·)
      if key = [] then if c.utf8Size = 1 then some (none, rest) else none
      else
        let v := Parsers.attrValue (trimStart ((c :: rest).dropWhile (!keyEnd ·)))
        some (some (key, v.1), v.2) := by
  unfold attrsTurn
  simp only [find_getD, sliceTo_takeWhile, sliceFrom_takeWhile, Option.bind_eq_bind, Option.bind_some, sliceFrom_one,
    attrValue_eq]
  split
  · split <;> rfl
  · rfl

theorem drop_takeWhile_length (p : Char → Bool) (s : List Char) : s.drop (s.takeWhile p).length = s.dropWhile p := by
  have h : (s.takeWhile p ++ s.dropWhile p).drop (s.takeWhile p).length = s.dropWhile p := List.drop_left
  rwa [List.takeWhile_append_dropWhile] at h

theorem attrsLoop_eq : ∀ (fuel : Nat) (rem : List Char), attrsLoop fuel rem = Parsers.attrsLoop fuel rem
  | _, [] => by simp [attrsLoop, Parsers.attrsLoop]
  | 0, _ :: _ => rfl
  | fuel + 1, c :: rest => by
    unfold attrsLoop Parsers.attrsLoop
    rw [attrsTurn_eq]
    simp only [drop_takeWhile_length]
    show _ = if (c :: rest).takeWhile (!keyEnd ·) = [] then _ else _
    by_cases hkey : (c :: rest).takeWhile (!keyEnd ·) = []
    · rw [if_pos hkey, if_pos hkey]
      by_cases hc : c.utf8Size = 1
      · rw [if_pos hc, if_pos hc, ← attrsLoop_eq fuel rest]
        cases hloop : attrsLoop fuel rest <;> simp [hloop]
      · rw [if_neg hc, if_neg hc]
        rfl
    · rw [if_neg hkey, if_neg hkey]
      simp only [Option.bind_eq_bind, Option.bind_some, attrsLoop_eq fuel]
      show _ = Option.map _ (Parsers.attrsLoop fuel
        (Parsers.attrValue (trimStart ((c :: rest).dropWhile (!keyEnd ·)))).2)
      generalize Parsers.attrsLoop fuel (Parsers.attrValue (trimStart ((c :: rest).dropWhile (!keyEnd ·)))).2 = r
      cases r <;> rfl

theorem parseTag_eq (s : List Char) : parseTag s = Parsers.parseTag s := by
  simp only [parseTag, Parsers.parseTag, parseAttrs, Parsers.parseAttrs, attrsLoop_eq]

theorem readTag_eq (s : HtmlState) (tagContent : List Char) : readTag s tagContent = s.readTag tagContent := by
  unfold readTag HtmlState.readTag
  simp only [parseTag_eq]
  split
  · next h =>
    obtain ⟨rest, rfl⟩ := List.head?_eq_some_iff.mp h
    simp only [sliceFrom_one, show ('/' : Char).utf8Size = 1 from rfl, if_true, Option.bind_eq_bind, Option.bind_some]
    cases Parsers.parseTag (trim rest) <;> rfl
  · next h =>
    split
    · exact absurd rfl h
    · cases Parsers.parseTag (trim tagContent) <;> rfl

/-- The parser stands in front of `rest`, or one byte behind the end. -/
def At (html : List Char) (i : Nat) (rest : List Char) : Prop :=
  (∃ pre, html = pre ++ rest ∧ byteLen pre = i) ∨ (rest = [] ∧ byteLen html < i)

section
variable {html rest : List Char} {i : Nat}

theorem At.start (html : List Char) : At html 0 html := Or.inl ⟨[], rfl, rfl⟩

/-- The loop goes on exactly where something is left. -/
theorem At.lt_iff (h : At html i rest) : i < (bytes html).length ↔ rest ≠ [] := by
  rw [bytes_length]
  rcases h with ⟨pre, rfl, rfl⟩ | ⟨rfl, hlt⟩
  · have hzero := byteLen_eq_zero (s := rest)
    rw [byteLen_append, ne_eq, ← hzero]
    omega
  · exact iff_of_false (by omega) (by simp)

/-- What is left behind the `>` of a tag. -/
theorem At.behind_tag (h : At html i ('<' :: rest)) :
    At html (i + 1 + byteLen (rest.takeWhile (· ≠ '>')) + 1) ((rest.dropWhile (· ≠ '>')).drop 1) := by
  obtain ⟨pre, rfl, rfl⟩ := h.resolve_right (by simp)
  cases hrest : rest.dropWhile (· ≠ '>') with
  | nil =>
    have hall := List.takeWhile_append_dropWhile (p := fun c => decide (c ≠ '>')) (l := rest)
    rw [hrest, List.append_nil] at hall
    refine Or.inr ⟨rfl, ?_⟩
    rw [hall, byteLen_append, byteLen_cons, show ('<' : Char).utf8Size = 1 from rfl]
    omega
  | cons d after =>
    obtain rfl : d = '>' := by
      have := List.head?_dropWhile_not (fun c : Char => decide (c ≠ '>')) rest
      rw [hrest] at this
      simpa using this
    have hsplit : rest = rest.takeWhile (· ≠ '>') ++ '>' :: after := by
      rw [← hrest, List.takeWhile_append_dropWhile]
    refine Or.inl ⟨pre ++ '<' :: (rest.takeWhile (· ≠ '>') ++ ['>']), ?_, ?_⟩
    · rw [List.append_assoc, List.cons_append, List.append_assoc]
      exact congrArg (fun r => pre ++ '<' :: r) hsplit
    · rw [byteLen_append, byteLen_cons, byteLen_append, byteLen_cons, byteLen_nil,
        show ('<' : Char).utf8Size = 1 from rfl, show ('>' : Char).utf8Size = 1 from rfl]
      omega

theorem At.behind_text {c : Char} (h : At html i (c :: rest)) (hc : c ≠ '<') :
    At html (i + byteLen ((c :: rest).takeWhile (· ≠ '<'))) (rest.dropWhile (· ≠ '<')) := by
  obtain ⟨pre, rfl, rfl⟩ := h.resolve_right (by simp)
  refine Or.inl ⟨pre ++ (c :: rest).takeWhile (· ≠ '<'), ?_, byteLen_append _ _⟩
  have hdrop : (c :: rest).dropWhile (· ≠ '<') = rest.dropWhile (· ≠ '<') := by simp [hc]
  rw [List.append_assoc, ← hdrop, List.takeWhile_append_dropWhile]

/-- A round at a tag. -/
theorem htmlTurn_tag (h : At html i ('<' :: rest)) (s : HtmlState) :
    htmlTurn html s i = (s.readTag (rest.takeWhile (· ≠ '>'))).map fun s =>
      (s, i + 1 + byteLen (rest.takeWhile (· ≠ '>')) + 1) := by
  obtain ⟨pre, rfl, rfl⟩ := h.resolve_right (by simp)
  obtain ⟨b, hb, hbyte⟩ := bytes_getElem? pre '<' rest
  have hassoc : pre ++ '<' :: rest = (pre ++ ['<']) ++ rest := by simp
  have hpos : byteLen pre + 1 = byteLen (pre ++ ['<']) := by
    rw [byteLen_append, byteLen_cons, byteLen_nil]
    rfl
  have hslice : slice ((pre ++ ['<']) ++ rest) (byteLen (pre ++ ['<']))
      (byteLen (pre ++ ['<']) + byteLen (rest.takeWhile (· ≠ '>'))) = some (rest.takeWhile (· ≠ '>')) := by
    have := slice_append (pre ++ ['<']) (rest.takeWhile (· ≠ '>')) (rest.dropWhile (· ≠ '>'))
    rwa [List.takeWhile_append_dropWhile] at this
  unfold htmlTurn
  rw [hb, Option.bind_eq_bind, Option.bind_some, if_pos ((hbyte '<' (by decide)).mpr rfl), hassoc, hpos,
    scanTo_bytes (by decide)]
  simp only [hslice, Option.bind_eq_bind, Option.bind_some, readTag_eq]
  cases s.readTag (rest.takeWhile (· ≠ '>')) <;> rfl

/-- A round at text. -/
theorem htmlTurn_text {c : Char} (h : At html i (c :: rest)) (hc : c ≠ '<') (s : HtmlState) :
    htmlTurn html s i = some (s.pushText (decodeHtmlEntities (c :: rest.takeWhile (· ≠ '<'))),
      i + byteLen ((c :: rest).takeWhile (· ≠ '<'))) := by
  obtain ⟨pre, rfl, rfl⟩ := h.resolve_right (by simp)
  obtain ⟨b, hb, hbyte⟩ := bytes_getElem? pre c rest
  have hslice : slice (pre ++ c :: rest) (byteLen pre) (byteLen pre + byteLen ((c :: rest).takeWhile (· ≠ '<'))) =
      some ((c :: rest).takeWhile (· ≠ '<')) := by
    have := slice_append pre ((c :: rest).takeWhile (· ≠ '<')) ((c :: rest).dropWhile (· ≠ '<'))
    rwa [List.takeWhile_append_dropWhile] at this
  have htake : (c :: rest).takeWhile (· ≠ '<') = c :: rest.takeWhile (· ≠ '<') := by simp [hc]
  unfold htmlTurn
  rw [hb, Option.bind_eq_bind, Option.bind_some, if_neg (mt (hbyte '<' (by decide)).mp hc),
    scanTo_bytes (by decide)]
  simp only [hslice, Option.bind_eq_bind, Option.bind_some]
  rw [htake]

/-- Every round of one loop is a round of the other. -/
theorem htmlLoop_eq (html : List Char) : ∀ (fuel : Nat) (s : HtmlState) (i : Nat) (rest : List Char),
    At html i rest → rest.length ≤ fuel → htmlLoop html fuel s i = s.run rest
  | fuel, s, i, [], h, _ => by
    have hdone := h.lt_iff
    unfold htmlLoop
    rw [if_neg (by simp [hdone]), HtmlState.run_nil]
  | 0, _, _, _ :: _, _, hfuel => by simp at hfuel
  | fuel + 1, s, i, c :: rest, h, hfuel => by
    simp only [List.length_cons, Nat.add_le_add_iff_right] at hfuel
    have hgo := h.lt_iff.mpr (by simp)
    rw [HtmlState.run_cons]
    unfold htmlLoop
    rw [if_pos hgo]
    by_cases hc : c = '<'
    · subst hc
      have hlen : ((rest.dropWhile (· ≠ '>')).drop 1).length ≤ fuel := by
        have h1 := (List.dropWhile_sublist (l := rest) (p := fun c => decide (c ≠ '>'))).length_le
        rw [List.length_drop]
        omega
      rw [htmlTurn_tag h]
      simp only [HtmlState.step, if_true]
      cases hread : s.readTag (rest.takeWhile (· ≠ '>')) with
      | none => rfl
      | some s' => exact htmlLoop_eq html fuel s' _ _ h.behind_tag hlen
    · have hlen : (rest.dropWhile (· ≠ '<')).length ≤ fuel :=
        Nat.le_trans (List.dropWhile_sublist _).length_le hfuel
      rw [htmlTurn_text h hc]
      simp only [HtmlState.step, if_neg hc]
      exact htmlLoop_eq html fuel _ _ _ (h.behind_text hc) hlen

end

/-- The bytes and the characters give the same parser. -/
theorem parseHtml_eq (html : List Char) : parseHtml html = Parsers.parseHtml html := by
  have hlen : html.length ≤ (bytes html).length := by
    rw [bytes_length]
    exact length_le_byteLen html
  unfold parseHtml Parsers.parseHtml
  rw [htmlLoop_eq html _ _ _ _ (At.start html) hlen]
  rfl

/-! Where an attribute is cut in the middle of a character. -/

/-- White space of more than one byte is next. -/
def StartsWide (rem : List Char) : Prop := ∃ c rest, rem = c :: rest ∧ isWhitespace c = true ∧ c.utf8Size ≠ 1

/-- The states of the loop of `parse_attrs`: what is left. -/
def attrsNext (rem : List Char) : Option (List (List Char)) :=
  if rem = [] then some [] else (attrsTurn rem).map fun r => [r.2]

def AttrsFine (s : List Char) : Prop := ∀ rem, Reached attrsNext (trim s) rem → ¬ StartsWide rem

theorem attrValue_length (rem : List Char) : (Parsers.attrValue rem).2.length ≤ rem.length := by
  have hquoted : ∀ (quote : Char) (inner : List Char), (Parsers.quotedValue quote inner).2.length ≤ inner.length := by
    intro quote inner
    unfold Parsers.quotedValue
    have h1 := trimStart_length ((inner.dropWhile (· ≠ quote)).dropWhile (· = quote))
    have h2 := (List.dropWhile_sublist (l := inner.dropWhile (· ≠ quote)) (p := (· = quote))).length_le
    have h3 := (List.dropWhile_sublist (l := inner) (p := (· ≠ quote))).length_le
    exact Nat.le_trans h1 (Nat.le_trans h2 h3)
  unfold Parsers.attrValue
  split
  · next rest =>
    have hrest := trimStart_length rest
    split
    · next inner h =>
      rw [h, List.length_cons] at hrest
      have := hquoted '"' inner
      rw [List.length_cons]
      omega
    · next inner h =>
      rw [h, List.length_cons] at hrest
      have := hquoted '\'' inner
      rw [List.length_cons]
      omega
    · have h1 := trimStart_length ((trimStart rest).dropWhile (!isWhitespace ·))
      have h2 := (List.dropWhile_sublist (l := trimStart rest) (p := (!isWhitespace ·))).length_le
      rw [List.length_cons]
      show (trimStart ((trimStart rest).dropWhile (!isWhitespace ·))).length ≤ _
      omega
  · exact Nat.le_refl _

/-- Every round takes a character at least. -/
theorem attrsTurn_shorter {c : Char} {rest rem : List Char} {attr : Option (List Char × List Char)}
    (h : attrsTurn (c :: rest) = some (attr, rem)) : rem.length < (c :: rest).length := by
  rw [attrsTurn_eq] at h
  simp only at h
  split at h
  · split at h
    · obtain ⟨-, rfl⟩ := Prod.mk.inj (Option.some.inj h)
      exact Nat.lt_succ_self _
    · cases h
  · next hkey =>
    obtain ⟨-, rfl⟩ := Prod.mk.inj (Option.some.inj h)
    have h1 := attrValue_length (trimStart ((c :: rest).dropWhile (!keyEnd ·)))
    have h2 := trimStart_length ((c :: rest).dropWhile (!keyEnd ·))
    have h3 := congrArg List.length (List.takeWhile_append_dropWhile (p := (!keyEnd ·)) (l := c :: rest))
    have h4 := List.length_pos_iff.mpr hkey
    rw [List.length_append] at h3
    omega

/-- A round fails exactly where the byte that it cuts off is not a character. -/
theorem attrsTurn_isSome_iff (c : Char) (rest : List Char) :
    (∃ r, attrsTurn (c :: rest) = some r) ↔ ¬ StartsWide (c :: rest) := by
  have hwide : StartsWide (c :: rest) ↔ isWhitespace c = true ∧ c.utf8Size ≠ 1 := by
    constructor
    · rintro ⟨d, r, h, hd⟩
      obtain ⟨rfl, -⟩ := List.cons.inj h
      exact hd
    · exact fun h => ⟨c, rest, rfl, h⟩
  have hkey : (c :: rest).takeWhile (!keyEnd ·) = [] ↔ keyEnd c = true := by
    cases hc : keyEnd c <;> simp [hc]
  rw [attrsTurn_eq, hwide]
  simp only [hkey]
  by_cases hc : keyEnd c = true
  · rw [if_pos hc]
    by_cases hsize : c.utf8Size = 1
    · rw [if_pos hsize]
      exact iff_of_true ⟨_, rfl⟩ fun h => h.2 hsize
    · rw [if_neg hsize]
      have hws : isWhitespace c = true := by
        rcases Bool.or_eq_true_iff.mp hc with heq | hws
        · exact absurd (by rw [beq_iff_eq.mp heq]; rfl) hsize
        · exact hws
      exact iff_of_false (fun ⟨_, h⟩ => nomatch h) fun h => h ⟨hws, hsize⟩
  · rw [if_neg hc]
    refine iff_of_true ⟨_, rfl⟩ fun h => hc ?_
    rw [keyEnd, h.1, Bool.or_true]

theorem attrsLoop_isSome_iff : ∀ (fuel : Nat) (rem : List Char), rem.length ≤ fuel →
    ((∃ attrs, attrsLoop fuel rem = some attrs) ↔ Ends attrsNext rem)
  | fuel, [], _ => by
    refine iff_of_true ⟨[], by simp [attrsLoop]⟩ (.turn (l := []) rfl fun t ht => absurd ht List.not_mem_nil)
  | 0, _ :: _, h => by simp at h
  | fuel + 1, c :: rest, hfuel => by
    unfold attrsLoop
    cases hturn : attrsTurn (c :: rest) with
    | none =>
      refine iff_of_false (fun ⟨_, h⟩ => nomatch h) (not_ends_of_fail ?_)
      rw [attrsNext, if_neg (by simp), hturn]
      rfl
    | some r =>
      obtain ⟨attr, rem⟩ := r
      have hshort := attrsTurn_shorter hturn
      have hnext : attrsNext (c :: rest) = some [rem] := by
        rw [attrsNext, if_neg (by simp), hturn]
        rfl
      have ih := attrsLoop_isSome_iff fuel rem (by simp only [List.length_cons] at *; omega)
      rw [ends_of_turn hnext, List.forall_mem_singleton, ← ih]
      simp only [Option.bind_eq_bind, Option.bind_some]
      constructor
      · rintro ⟨attrs, h⟩
        obtain ⟨attrs, hattrs, -⟩ := Option.bind_eq_some_iff.mp h
        exact ⟨attrs, hattrs⟩
      · rintro ⟨attrs, h⟩
        exact ⟨attr.toList ++ attrs, by rw [h]; rfl⟩

theorem parseAttrs_isSome_iff (s : List Char) : (∃ attrs, parseAttrs s = some attrs) ↔ AttrsFine s := by
  unfold parseAttrs AttrsFine
  rw [attrsLoop_isSome_iff _ _ le_rfl]
  apply ends_iff (measure List.length).wf
  · intro rem hfine
    cases rem with
    | nil => exact ⟨[], rfl, fun t ht => absurd ht List.not_mem_nil⟩
    | cons c rest =>
      obtain ⟨⟨attr, rem⟩, hturn⟩ := (attrsTurn_isSome_iff c rest).mpr hfine
      refine ⟨[rem], ?_, fun t ht => ?_⟩
      · rw [attrsNext, if_neg (by simp), hturn]
        rfl
      · rw [List.mem_singleton.mp ht]
        exact attrsTurn_shorter hturn
  · intro rem hwide l hl
    have hwide := Classical.not_not.mp hwide
    obtain ⟨c, rest, rfl, -⟩ := id hwide
    rw [attrsNext, if_neg (by simp)] at hl
    obtain ⟨r, hr, -⟩ := Option.map_eq_some_iff.mp hl
    exact absurd hwide ((attrsTurn_isSome_iff c rest).mp ⟨r, hr⟩)

theorem parseTag_isSome_iff (s : List Char) :
    (∃ tag, parseTag s = some tag) ↔ AttrsFine ((s.dropWhile (!isWhitespace ·)).drop 1) := by
  rw [← parseAttrs_isSome_iff]
  unfold parseTag
  cases parseAttrs ((s.dropWhile (!isWhitespace ·)).drop 1) <;> simp

/-- The part of a tag that `parse_tag` reads attributes from. -/
def attrsText (tagContent : List Char) : List Char :=
  let tagStr := trim (if tagContent.head? = some '/' then tagContent.tail else tagContent)
  (tagStr.dropWhile (!isWhitespace ·)).drop 1

theorem readTag_isSome_iff (s : HtmlState) (tagContent : List Char) :
    (∃ s', readTag s tagContent = some s') ↔ AttrsFine (attrsText tagContent) := by
  unfold attrsText
  simp only
  rw [← parseTag_isSome_iff]
  unfold readTag
  split
  · next h =>
    obtain ⟨rest, rfl⟩ := List.head?_eq_some_iff.mp h
    simp only [sliceFrom_one, show ('/' : Char).utf8Size = 1 from rfl, if_true, Option.bind_eq_bind, Option.bind_some,
      List.tail_cons]
    cases parseTag (trim rest) <;> simp
  · simp only [Option.bind_eq_bind]
    cases parseTag (trim tagContent) <;> simp

/-- The states of the loop of `parse_html`. -/
def htmlNext (html : List Char) (p : HtmlState × Nat) : Option (List (HtmlState × Nat)) :=
  if p.2 < (bytes html).length then (htmlTurn html p.1 p.2).map fun p => [p] else some []

/-- The tag that starts at byte `i`. -/
def TagAt (html : List Char) (i : Nat) (tagContent : List Char) : Prop :=
  ∃ pre rest, html = pre ++ '<' :: rest ∧ byteLen pre = i ∧ tagContent = rest.takeWhile (· ≠ '>')

section
variable {html rest : List Char} {i : Nat}

theorem At.tagAt_iff (h : At html i rest) (tagContent : List Char) :
    TagAt html i tagContent ↔ ∃ r, rest = '<' :: r ∧ tagContent = r.takeWhile (· ≠ '>') := by
  constructor
  · rintro ⟨pre, r, rfl, rfl, rfl⟩
    refine ⟨r, ?_, rfl⟩
    rcases h with ⟨pre', heq, hlen⟩ | ⟨-, hlt⟩
    · have h1 := cut_append pre ('<' :: r)
      rw [heq, ← hlen, cut_append] at h1
      exact (Prod.mk.inj (Option.some.inj h1)).2
    · rw [byteLen_append] at hlt
      omega
  · rintro ⟨r, rfl, rfl⟩
    obtain ⟨pre, rfl, rfl⟩ := h.resolve_right (by simp)
    exact ⟨pre, r, rfl, rfl, rfl⟩

/-- A round fails exactly at a tag with an attribute that is cut badly. -/
theorem htmlTurn_isSome_iff (h : At html i rest) (hne : rest ≠ []) (s : HtmlState) :
    (∃ p, htmlTurn html s i = some p) ↔ ∀ tagContent, TagAt html i tagContent → AttrsFine (attrsText tagContent) := by
  obtain ⟨c, rest, rfl⟩ := List.exists_cons_of_ne_nil hne
  by_cases hc : c = '<'
  · subst hc
    rw [htmlTurn_tag h, ← readTag_eq]
    have htag : ∀ tagContent, TagAt html i tagContent ↔ tagContent = rest.takeWhile (· ≠ '>') := by
      intro tagContent
      rw [h.tagAt_iff]
      constructor
      · rintro ⟨r, heq, rfl⟩
        rw [(List.cons.inj heq).2]
      · exact fun heq => ⟨rest, rfl, heq⟩
    simp only [htag, forall_eq]
    rw [← readTag_isSome_iff s]
    cases readTag s (rest.takeWhile (· ≠ '>')) <;> simp
  · rw [htmlTurn_text h hc]
    refine iff_of_true ⟨_, rfl⟩ fun tagContent htag => ?_
    obtain ⟨r, heq, -⟩ := (h.tagAt_iff tagContent).mp htag
    exact absurd (List.cons.inj heq).1 hc

/-- Where a round leads to. -/
theorem htmlTurn_at {s s' : HtmlState} {j : Nat} (h : At html i rest) (hne : rest ≠ [])
    (hturn : htmlTurn html s i = some (s', j)) : i < j ∧ ∃ rest', At html j rest' ∧ rest'.length < rest.length := by
  obtain ⟨c, rest, rfl⟩ := List.exists_cons_of_ne_nil hne
  by_cases hc : c = '<'
  · subst hc
    rw [htmlTurn_tag h] at hturn
    obtain ⟨s', -, heq⟩ := Option.map_eq_some_iff.mp hturn
    obtain ⟨-, rfl⟩ := Prod.mk.inj heq
    refine ⟨by omega, _, h.behind_tag, ?_⟩
    have h1 := (List.dropWhile_sublist (l := rest) (p := fun c => decide (c ≠ '>'))).length_le
    rw [List.length_drop, List.length_cons]
    omega
  · rw [htmlTurn_text h hc] at hturn
    obtain ⟨-, rfl⟩ := Prod.mk.inj (Option.some.inj hturn)
    have htake : (c :: rest).takeWhile (· ≠ '<') = c :: rest.takeWhile (· ≠ '<') := by simp [hc]
    have hsize := c.utf8Size_pos
    refine ⟨?_, _, h.behind_text hc, Nat.lt_succ_of_le (List.dropWhile_sublist _).length_le⟩
    rw [htake, byteLen_cons]
    omega

end

theorem htmlLoop_isSome_iff (html : List Char) : ∀ (fuel : Nat) (s : HtmlState) (i : Nat) (rest : List Char),
    At html i rest → rest.length ≤ fuel →
      ((∃ s', htmlLoop html fuel s i = some s') ↔ Ends (htmlNext html) (s, i))
  | fuel, s, i, [], h, _ => by
    have hdone : ¬ i < (bytes html).length := by simp [h.lt_iff]
    have hnext : htmlNext html (s, i) = some [] := if_neg hdone
    unfold htmlLoop
    rw [if_neg hdone, ends_of_turn hnext]
    exact iff_of_true ⟨s, rfl⟩ fun t ht => absurd ht List.not_mem_nil
  | 0, _, _, _ :: _, _, hfuel => by simp at hfuel
  | fuel + 1, s, i, c :: rest, h, hfuel => by
    have hgo := h.lt_iff.mpr (by simp)
    have hnext : htmlNext html (s, i) = (htmlTurn html s i).map fun p => [p] := if_pos hgo
    unfold htmlLoop
    rw [if_pos hgo]
    cases hturn : htmlTurn html s i with
    | none =>
      refine iff_of_false (fun ⟨_, h⟩ => nomatch h) (not_ends_of_fail ?_)
      rw [hnext, hturn]
      rfl
    | some p =>
      obtain ⟨s', j⟩ := p
      obtain ⟨-, rest', hat, hshort⟩ := htmlTurn_at h (by simp) hturn
      have hgoes : htmlNext html (s, i) = some [(s', j)] := by
        rw [hnext, hturn]
        rfl
      rw [ends_of_turn hgoes, List.forall_mem_singleton]
      exact htmlLoop_isSome_iff html fuel s' j rest' hat (by omega)

/-- `parse_html` returns exactly if no attribute of a tag that it comes to is cut in the middle of a character. -/
theorem parseHtml_total_iff (html : List Char) :
    (∃ r, parseHtml html = some r) ↔
      ∀ s i, Reached (htmlNext html) (.init, 0) (s, i) →
        ∀ tagContent, TagAt html i tagContent → AttrsFine (attrsText tagContent) := by
  have hlen : html.length ≤ (bytes html).length := by
    rw [bytes_length]
    exact length_le_byteLen html
  have hloop : (∃ r, parseHtml html = some r) ↔ ∃ s, htmlLoop html (bytes html).length .init 0 = some s := by
    unfold parseHtml
    cases htmlLoop html (bytes html).length .init 0 <;> simp
  rw [hloop, htmlLoop_isSome_iff html _ _ _ _ (At.start html) hlen]
  have hends : Ends (htmlNext html) (.init, 0) ↔ ∀ p, Reached (htmlNext html) (.init, 0) p →
      ∀ tagContent, TagAt html p.2 tagContent → AttrsFine (attrsText tagContent) :=
    ends_iff_of_inv (P := fun p => ∃ rest, At html p.2 rest) (measure fun p => byteLen html + 1 - p.2).wf ?_ ?_ ?_
      (HtmlState.init, 0) ⟨html, At.start html⟩
  · rw [hends]
    exact ⟨fun h s i hreach => h (s, i) hreach, fun h p hreach => h p.1 p.2 hreach⟩
  · rintro ⟨s, i⟩ l ⟨rest, h⟩ hl t ht
    unfold htmlNext at hl
    split at hl
    · next hgo =>
      obtain ⟨⟨s', j⟩, hturn, rfl⟩ := Option.map_eq_some_iff.mp hl
      obtain ⟨-, rest', hat, -⟩ := htmlTurn_at h (h.lt_iff.mp hgo) hturn
      rw [List.mem_singleton.mp ht]
      exact ⟨rest', hat⟩
    · obtain rfl := Option.some.inj hl
      exact absurd ht List.not_mem_nil
  · rintro ⟨s, i⟩ ⟨rest, h⟩ hfine
    by_cases hgo : i < (bytes html).length
    · obtain ⟨⟨s', j⟩, hturn⟩ := (htmlTurn_isSome_iff h (h.lt_iff.mp hgo) s).mpr hfine
      obtain ⟨hlt, -⟩ := htmlTurn_at h (h.lt_iff.mp hgo) hturn
      refine ⟨[(s', j)], ?_, fun t ht => ?_⟩
      · rw [htmlNext, if_pos hgo, hturn]
        rfl
      · rw [List.mem_singleton.mp ht]
        rw [bytes_length] at hgo
        show byteLen html + 1 - j < byteLen html + 1 - i
        omega
    · exact ⟨[], if_neg hgo, fun t ht => absurd ht List.not_mem_nil⟩
  · rintro ⟨s, i⟩ ⟨rest, h⟩ hbad l hl
    by_cases hgo : i < (bytes html).length
    · rw [htmlNext, if_pos hgo] at hl
      obtain ⟨p, hturn, -⟩ := Option.map_eq_some_iff.mp hl
      exact absurd ((htmlTurn_isSome_iff h (h.lt_iff.mp hgo) s).mp ⟨p, hturn⟩) hbad
    · have hnil : rest = [] := not_not.mp (mt h.lt_iff.mpr hgo)
      refine absurd (fun tagContent htag => ?_) hbad
      obtain ⟨r, heq, -⟩ := (h.tagAt_iff tagContent).mp htag
      rw [hnil] at heq
      cases heq

/-- An ideographic space behind a stray `=`. -/
theorem parseHtml_panics : parseHtml "<a =\u3000x>".toList = none := by decide

end Ferogram.Parsers.Sliced
