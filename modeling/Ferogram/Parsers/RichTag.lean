import Ferogram.Parsers.HtmlSlices
import Ferogram.Parsers.MarkdownRead
import Ferogram.Parsers.RichText

/- Inline tags of rich messages. `tryParseHtmlInlineTag` works on a vector of
   characters, but it looks for the closing tag in a string and takes the byte
   position that it finds for an index into the vector; and it takes the first
   closing tag, whatever was opened in between. `inlineTag_delimited_iff` says
   that it goes right exactly where the text in front of the first closing tag
   has as many bytes as the text in front of the matching one has characters. -/
namespace Ferogram.Parsers.Rich
open Str

/-! The tags. Their names are compared by one instance in all of the rich parsers. -/

scoped instance lawfulBEq_tagName : LawfulBEq (List Char) := inferInstance

inductive InlineTag where
  | wrap (w : Wrap)
  | time (unix : Int32) (fmt : List Char)
  | emoji (docId : Int64)
  | anchorDefinition (name : List Char)
  | link (href : List Char)
  | reference (name : List Char)
  | math
deriving DecidableEq

/-- The tag of a name, if it is one that holds inline text. -/
def inlineTag? (tagName : List Char) (attrs : List (List Char × List Char)) : Option InlineTag :=
  if tagName ∈ ["b".toList, "strong".toList] then some (.wrap .bold)
  else if tagName ∈ ["i".toList, "em".toList] then some (.wrap .italic)
  else if tagName ∈ ["u".toList, "ins".toList] then some (.wrap .underline)
  else if tagName ∈ ["s".toList, "del".toList, "strike".toList] then some (.wrap .strike)
  else if tagName = "code".toList then some (.wrap .fixed)
  else if tagName = "mark".toList then some (.wrap .marked)
  else if tagName = "tg-spoiler".toList then some (.wrap .spoiler)
  else if tagName = "sub".toList then some (.wrap .subscript)
  else if tagName = "sup".toList then some (.wrap .superscript)
  else if tagName = "tg-time".toList then
    some (.time (((attr "unix".toList attrs).bind parseI32).getD 0) ((attr "format".toList attrs).getD ['t']))
  else if tagName = "tg-emoji".toList then some (.emoji (((attr "emoji-id".toList attrs).bind parseI64).getD 0))
  else if tagName = "a".toList then
    let href := (attr "href".toList attrs).getD []
    match attr "name".toList attrs with
    | some name => if href = [] then some (.anchorDefinition name) else some (.link href)
    | none => some (.link href)
  else if tagName = "tg-reference".toList then some (.reference ((attr "name".toList attrs).getD []))
  else if tagName = "tg-math".toList then some .math
  else none

/-- What is made of the text between the tags. -/
def InlineTag.span (inner : List Char) : InlineTag → Span
  | .wrap w => .wrap w inner
  | .time unix fmt => .leaf (rtDate (rtPlain inner) unix fmt)
  | .emoji docId => .leaf (.customEmoji docId inner)
  | .anchorDefinition name => .leaf (.anchor .empty name)
  | .link href => .wrap (.link href) inner
  | .reference name => .wrap (.anchor name) inner
  | .math => .leaf (.math inner)

/-- An anchor drops what stands between its tags. -/
def InlineTag.takesContent : InlineTag → Bool
  | .anchorDefinition _ => false
  | _ => true

/-- `chars[a..b]`. -/
def sliceChars (chars : List Char) (a b : Nat) : Option (List Char) :=
  if a ≤ b ∧ b ≤ chars.length then some ((chars.take b).drop a) else none

def closeTag (tagName : List Char) : List Char := '<' :: '/' :: (tagName ++ ['>'])

/-- Where the `>` of a tag stands, or `stop`. -/
def tagEnd (chars : List Char) (i stop : Nat) : Nat :=
  i + 1 + (((chars.take stop).drop (i + 1)).takeWhile (· ≠ '>')).length

def cleanTag (tagRaw : List Char) : List Char := trim (trimEndMatches (· == '/') tagRaw)

/-- A tag that has been read: on to its closing tag. -/
def closeInlineTag (chars : List Char) (afterOpen : Nat) (isSelfClosing : Bool) (tagName : List Char)
    (attrs : List (List Char × List Char)) : Option (Option (Nat × Span)) :=
  if isSelfClosing ∨ tagName = "br".toList then
    if tagName = "br".toList then some (some (afterOpen, .leaf (rtPlain ['\n']))) else some none
  else
    match inlineTag? tagName attrs with
    | none => some none
    | some tag => do
      let contentStr ← sliceChars chars afterOpen chars.length
      match findStr (closeTag tagName) contentStr with
      | none => some none
      | some cl => do
        let inner ← if tag.takesContent then sliceChars chars afterOpen (afterOpen + cl) else some []
        some (some (afterOpen + cl + byteLen (closeTag tagName), tag.span inner))

/-- `try_parse_html_inline_tag`: the next index and what was found. -/
def tryParseHtmlInlineTag (chars : List Char) (i stop : Nat) : Option (Option (Nat × Span)) := do
  let j := tagEnd chars i stop
  if stop ≤ j then some none
  else do
    let tagRaw ← sliceChars chars (i + 1) j
    let (tagName, attrs) ← Sliced.parseTag (cleanTag tagRaw)
    closeInlineTag chars (j + 1) (tagRaw.getLast? = some '/') tagName attrs

/-! What a tag should delimit. -/

/-- The name that `parse_tag` reads. -/
def tagNameOf (tagRaw : List Char) : List Char :=
  trimEndMatches (· == '/') ((cleanTag tagRaw).takeWhile (!isWhitespace ·))

/-- The part of the tag that it reads attributes from. -/
def tagAttrs (tagRaw : List Char) : List Char := ((cleanTag tagRaw).dropWhile (!isWhitespace ·)).drop 1

def inlineNames : List (List Char) :=
  ["b".toList, "strong".toList, "i".toList, "em".toList, "u".toList, "ins".toList, "s".toList, "del".toList,
    "strike".toList, "code".toList, "mark".toList, "tg-spoiler".toList, "sub".toList, "sup".toList,
    "tg-time".toList, "tg-emoji".toList, "a".toList, "tg-reference".toList, "tg-math".toList]

/-- An opening inline tag in front: its content, and what is behind it. -/
def opening : List Char → Option (List Char × List Char)
  | '<' :: rest =>
    match splitAtChar '>' rest with
    | some (tagRaw, behind) =>
      if tagRaw.getLast? = some '/' ∨ tagNameOf tagRaw ∉ inlineNames then none else some (tagRaw, behind)
    | none => none
  | _ => none

/-- How many characters stand in front of the closing tag that matches; `depth` tags of the name are open
    within. -/
def matchingClose (tagName : List Char) : Nat → List Char → Option Nat
  | _, [] => none
  | depth, c :: rest =>
    if (closeTag tagName).isPrefixOf (c :: rest) then
      match depth with
      | 0 => some 0
      | depth + 1 => (matchingClose tagName depth rest).map (· + 1)
    else if ((opening (c :: rest)).map fun o => tagNameOf o.1) = some tagName then
      (matchingClose tagName (depth + 1) rest).map (· + 1)
    else (matchingClose tagName depth rest).map (· + 1)

/-! The proof. -/

theorem inlineTag?_isSome_iff (tagName : List Char) (attrs : List (List Char × List Char)) :
    (inlineTag? tagName attrs).isSome ↔ tagName ∈ inlineNames := by
  have hite : ∀ {c : Prop} [Decidable c] {x y : Option InlineTag}, x.isSome = true →
      ((if c then x else y).isSome = true ↔ c ∨ y.isSome = true) := by
    intro c _ x y hx
    split
    · next hc => exact iff_of_true hx (Or.inl hc)
    · next hc => simp [hc]
  have hlink : ∀ href : List Char, (match attr "name".toList attrs with
      | some name => if href = [] then some (InlineTag.anchorDefinition name) else some (.link href)
      | none => some (.link href)).isSome = true := by
    intro href
    cases attr "name".toList attrs with
    | none => rfl
    | some name =>
      simp only
      split <;> rfl
  unfold inlineTag? inlineNames
  rw [hite rfl, hite rfl, hite rfl, hite rfl, hite rfl, hite rfl, hite rfl, hite rfl, hite rfl, hite rfl, hite rfl,
    hite (hlink _), hite rfl, hite rfl]
  simp only [List.mem_cons, List.not_mem_nil, or_false, or_assoc, Option.isSome_none, Bool.false_eq_true]

theorem matchingClose_eq_some {tagName : List Char} : ∀ {depth : Nat} {s : List Char} {m : Nat},
    matchingClose tagName depth s = some m → closeTag tagName <+: s.drop m
  | _, [], _, h => nomatch h
  | depth, c :: rest, m, h => by
    unfold matchingClose at h
    split at h
    · next hpre =>
      cases depth with
      | zero =>
        obtain rfl := Option.some.inj h
        exact List.isPrefixOf_iff_prefix.mp hpre
      | succ depth =>
        obtain ⟨k, hk, rfl⟩ := Option.map_eq_some_iff.mp h
        show closeTag tagName <+: rest.drop k
        exact matchingClose_eq_some hk
    · split at h <;>
      · obtain ⟨k, hk, rfl⟩ := Option.map_eq_some_iff.mp h
        show closeTag tagName <+: rest.drop k
        exact matchingClose_eq_some hk

theorem parseTag_eq_bind (s : List Char) :
    Sliced.parseTag s = (Sliced.parseAttrs ((s.dropWhile (!isWhitespace ·)).drop 1)).map fun attrs =>
      (trimEndMatches (· == '/') (s.takeWhile (!isWhitespace ·)), attrs) := rfl

theorem closeTag_ascii {tagName : List Char} (h : tagName ∈ inlineNames) :
    byteLen (closeTag tagName) = (closeTag tagName).length := by
  revert tagName
  decide

theorem not_mem_br : "br".toList ∉ inlineNames := by decide

/-- Behind the opening tag at `i`. -/
def afterOpen (i : Nat) (tagRaw : List Char) : Nat := i + 1 + tagRaw.length + 1

section
variable {chars tagRaw behind : List Char} {i stop : Nat} (hstop : stop ≤ chars.length)
  (htag : (chars.take stop).drop i = '<' :: (tagRaw ++ '>' :: behind)) (hgt : '>' ∉ tagRaw)
include hstop htag

theorem afterOpen_le : afterOpen i tagRaw ≤ stop := by
  have hlen := congrArg List.length htag
  simp only [List.length_drop, List.length_take, List.length_cons, List.length_append] at hlen
  unfold afterOpen
  omega

include hgt

/-- The end of the tag, the tag, and the rest of the characters. -/
theorem tag_at : tagEnd chars i stop = i + 1 + tagRaw.length ∧
    sliceChars chars (i + 1) (i + 1 + tagRaw.length) = some tagRaw := by
  have hle := afterOpen_le hstop htag
  unfold afterOpen at hle
  have hdrop : (chars.take stop).drop (i + 1) = tagRaw ++ '>' :: behind := by
    rw [← List.drop_drop, htag]
    rfl
  constructor
  · unfold tagEnd
    rw [hdrop, (HtmlState.takeWhile_ne_append hgt).1]
  · unfold sliceChars
    have htake : (chars.take (i + 1 + tagRaw.length)).drop (i + 1) = tagRaw := by
      have hsame : chars.take (i + 1 + tagRaw.length) = (chars.take stop).take (i + 1 + tagRaw.length) := by
        rw [List.take_take, Nat.min_eq_left (by omega)]
      rw [hsame, List.drop_take, hdrop, Nat.add_sub_cancel_left, List.take_left]
    rw [if_pos ⟨by omega, by omega⟩, htake]

/-- The function at a tag. -/
theorem tryParse_tag : tryParseHtmlInlineTag chars i stop =
    (Sliced.parseAttrs (tagAttrs tagRaw)).bind
      (closeInlineTag chars (afterOpen i tagRaw) (tagRaw.getLast? = some '/') (tagNameOf tagRaw)) := by
  obtain ⟨hend, hraw⟩ := tag_at hstop htag hgt
  have hle := afterOpen_le hstop htag
  unfold afterOpen at hle
  unfold tryParseHtmlInlineTag
  rw [hend]
  simp only [if_neg (show ¬ stop ≤ i + 1 + tagRaw.length by omega), hraw, Option.bind_eq_bind, Option.bind_some,
    parseTag_eq_bind]
  show Option.bind (Option.map _ (Sliced.parseAttrs (tagAttrs tagRaw))) _ = _
  cases Sliced.parseAttrs (tagAttrs tagRaw) <;> rfl

end

/-- A tag that holds text and is closed somewhere: the text is taken up to the byte position of the first
    closing tag. -/
theorem closeInlineTag_eq {chars tagName : List Char} {start cl : Nat} {attrs : List (List Char × List Char)}
    {tag : InlineTag} (hstart : start ≤ chars.length) (hbr : tagName ≠ "br".toList)
    (hinline : inlineTag? tagName attrs = some tag) (hfind : findStr (closeTag tagName) (chars.drop start) = some cl) :
    closeInlineTag chars start false tagName attrs =
      (if tag.takesContent then sliceChars chars start (start + cl) else some []).map fun inner =>
        some (start + cl + byteLen (closeTag tagName), tag.span inner) := by
  have hcontent : sliceChars chars start chars.length = some (chars.drop start) := by
    rw [sliceChars, if_pos ⟨hstart, Nat.le_refl _⟩, List.take_length]
  unfold closeInlineTag
  rw [if_neg (fun h => h.elim (fun hself => by cases hself) hbr)]
  simp only [hinline, hcontent, hfind, Option.bind_eq_bind, Option.bind_some]
  cases tag.takesContent with
  | false => rfl
  | true =>
    show Option.bind (sliceChars chars start (start + cl)) _ = Option.map _ (sliceChars chars start (start + cl))
    cases sliceChars chars start (start + cl) <;> rfl

theorem opening_eq_some {s tagRaw behind : List Char} (h : opening s = some (tagRaw, behind)) :
    s = '<' :: (tagRaw ++ '>' :: behind) ∧ '>' ∉ tagRaw ∧ tagRaw.getLast? ≠ some '/' ∧
      tagNameOf tagRaw ∈ inlineNames := by
  unfold opening at h
  split at h
  · next rest =>
    cases hsplit : splitAtChar '>' rest with
    | none =>
      rw [hsplit] at h
      cases h
    | some r =>
      obtain ⟨raw, after⟩ := r
      rw [hsplit] at h
      simp only at h
      split at h
      · cases h
      · next hnot =>
        obtain ⟨rfl, rfl⟩ := Prod.mk.inj (Option.some.inj h)
        obtain ⟨hself, hname⟩ := not_or.mp hnot
        obtain ⟨rfl, hgt⟩ := splitAtChar_eq_some hsplit
        exact ⟨rfl, hgt, hself, not_not.mp hname⟩
  · cases h

/-- The tag at `i` comes back with the index behind its closing tag, and what is made of it is made of the
    `m` characters in between. -/
def Delimits (chars : List Char) (i stop : Nat) (tagRaw : List Char) (m : Nat) : Prop :=
  ∃ attrs tag, Sliced.parseAttrs (tagAttrs tagRaw) = some attrs ∧ inlineTag? (tagNameOf tagRaw) attrs = some tag ∧
    tryParseHtmlInlineTag chars i stop = some (some (afterOpen i tagRaw + m + (closeTag (tagNameOf tagRaw)).length,
      tag.span ((chars.drop (afterOpen i tagRaw)).take m)))

section
variable {chars tagRaw behind : List Char} {i stop m : Nat} (hstop : stop ≤ chars.length)
  (hopen : opening ((chars.take stop).drop i) = some (tagRaw, behind))
  (hmatch : matchingClose (tagNameOf tagRaw) 0 (chars.drop (afterOpen i tagRaw)) = some m)
include hstop hopen hmatch

/-- The matching closing tag, and where the first one is found. -/
theorem close_at : ∃ b, chars.drop (afterOpen i tagRaw) =
      (chars.drop (afterOpen i tagRaw)).take m ++ (closeTag (tagNameOf tagRaw) ++ b) ∧
    afterOpen i tagRaw + m + (closeTag (tagNameOf tagRaw)).length ≤ chars.length := by
  obtain ⟨htag, -⟩ := opening_eq_some hopen
  obtain ⟨b, hb⟩ := matchingClose_eq_some hmatch
  have hlen := congrArg List.length hb
  have hle := afterOpen_le hstop htag
  have hclose : 0 < (closeTag (tagNameOf tagRaw)).length := Nat.succ_pos _
  simp only [List.length_append, List.length_drop] at hlen
  refine ⟨b, ?_, by omega⟩
  rw [hb, List.take_append_drop]

theorem delimits_iff : Delimits chars i stop tagRaw m ↔ Sliced.AttrsFine (tagAttrs tagRaw) ∧
    byteLen (beforeStr (closeTag (tagNameOf tagRaw)) (chars.drop (afterOpen i tagRaw))) = m := by
  obtain ⟨htag, hgt, hself, hname⟩ := opening_eq_some hopen
  obtain ⟨b, hsplit, hend⟩ := close_at hstop hopen hmatch
  have hbr : tagNameOf tagRaw ≠ "br".toList := fun h => not_mem_br (h ▸ hname)
  have hle : afterOpen i tagRaw ≤ chars.length := by omega
  have hfind := findStr_of_append (closeTag (tagNameOf tagRaw)) ((chars.drop (afterOpen i tagRaw)).take m) b
  rw [← hsplit] at hfind
  rw [← Sliced.parseAttrs_isSome_iff]
  unfold Delimits
  rw [tryParse_tag hstop htag hgt, decide_eq_false hself]
  constructor
  · rintro ⟨attrs, tag, hattrs, hinline, hresult⟩
    refine ⟨⟨attrs, hattrs⟩, ?_⟩
    rw [hattrs, Option.bind_some, closeInlineTag_eq hle hbr hinline hfind] at hresult
    obtain ⟨inner, -, heq⟩ := Option.map_eq_some_iff.mp hresult
    have hnext := (Prod.mk.inj (Option.some.inj heq)).1
    rw [closeTag_ascii hname] at hnext
    omega
  · rintro ⟨⟨attrs, hattrs⟩, hbytes⟩
    obtain ⟨tag, hinline⟩ := Option.isSome_iff_exists.mp ((inlineTag?_isSome_iff _ attrs).mpr hname)
    refine ⟨attrs, tag, hattrs, hinline, ?_⟩
    rw [hattrs, Option.bind_some, closeInlineTag_eq hle hbr hinline hfind, hbytes, closeTag_ascii hname]
    have hslice : sliceChars chars (afterOpen i tagRaw) (afterOpen i tagRaw + m) =
        some ((chars.drop (afterOpen i tagRaw)).take m) := by
      rw [sliceChars, if_pos ⟨by omega, by omega⟩, List.drop_take, Nat.add_sub_cancel_left]
    cases htakes : tag.takesContent with
    | true => rw [if_pos rfl, hslice, Option.map_some]
    | false =>
      cases tag with
      | anchorDefinition name => rfl
      | _ => cases htakes

end

/-- An inline tag with a matching closing tag is delimited by it exactly if its attributes are read, and the text
    in front of the first closing tag has as many bytes as there are characters in front of the matching one. -/
theorem inlineTag_delimited_iff (chars : List Char) (i stop : Nat) (hstop : stop ≤ chars.length)
    (tagRaw behind : List Char) (hopen : opening ((chars.take stop).drop i) = some (tagRaw, behind)) (m : Nat)
    (hmatch : matchingClose (tagNameOf tagRaw) 0 (chars.drop (afterOpen i tagRaw)) = some m) :
    afterOpen i tagRaw + m + (closeTag (tagNameOf tagRaw)).length ≤ chars.length ∧
      (Delimits chars i stop tagRaw m ↔ Sliced.AttrsFine (tagAttrs tagRaw) ∧
        byteLen (beforeStr (closeTag (tagNameOf tagRaw)) (chars.drop (afterOpen i tagRaw))) = m) :=
  ⟨(close_at hstop hopen hmatch).choose_spec.2, delimits_iff hstop hopen hmatch⟩

theorem inlineTag_delimited_plain :
    Delimits "<b>ab</b>c".toList 0 10 ['b'] 2 :=
  (inlineTag_delimited_iff "<b>ab</b>c".toList 0 10 (by decide) ['b'] "ab</b>c".toList (by decide) 2 (by decide)).2.mpr
    ⟨(Sliced.parseAttrs_isSome_iff _).mp ⟨[], by decide⟩, by decide⟩

theorem not_delimits_of_index {chars tagRaw : List Char} {i stop m n : Nat} {span : Span}
    (h : tryParseHtmlInlineTag chars i stop = some (some (n, span)))
    (hn : n ≠ afterOpen i tagRaw + m + (closeTag (tagNameOf tagRaw)).length) : ¬ Delimits chars i stop tagRaw m := by
  rintro ⟨attrs, tag, -, -, hresult⟩
  rw [h] at hresult
  exact hn (Prod.mk.inj (Option.some.inj (Option.some.inj hresult))).1

/-- A letter of two bytes, and a tag of the same name within. -/
theorem inlineTag_misdelimited :
    (opening "<b>\u00e9</b>".toList = some (['b'], "\u00e9</b>".toList) ∧
      matchingClose ['b'] 0 "\u00e9</b>".toList = some 1 ∧
      tryParseHtmlInlineTag "<b>\u00e9</b>".toList 0 8 = some (some (9, .wrap .bold "\u00e9<".toList)) ∧
      ¬ Delimits "<b>\u00e9</b>".toList 0 8 ['b'] 1) ∧
    opening "<b>a<b>b</b>c</b>".toList = some (['b'], "a<b>b</b>c</b>".toList) ∧
      matchingClose ['b'] 0 "a<b>b</b>c</b>".toList = some 10 ∧
      tryParseHtmlInlineTag "<b>a<b>b</b>c</b>".toList 0 17 = some (some (12, .wrap .bold "a<b>b".toList)) ∧
      ¬ Delimits "<b>a<b>b</b>c</b>".toList 0 17 ['b'] 10 := by
  have hletter : tryParseHtmlInlineTag "<b>\u00e9</b>".toList 0 8 = some (some (9, .wrap .bold "\u00e9<".toList)) := rfl
  have hnested : tryParseHtmlInlineTag "<b>a<b>b</b>c</b>".toList 0 17 =
      some (some (12, .wrap .bold "a<b>b".toList)) := rfl
  exact ⟨⟨by decide, by decide, hletter, not_delimits_of_index hletter (by decide)⟩, by decide, by decide, hnested,
    not_delimits_of_index hnested (by decide)⟩

theorem bytes_eq_chars_iff (s : List Char) : byteLen s = s.length ↔ ∀ c ∈ s, c.utf8Size = 1 := by
  induction s with
  | nil => simp
  | cons c s ih =>
    have hpos := c.utf8Size_pos
    have hle := length_le_byteLen s
    rw [List.forall_mem_cons, ← ih, byteLen_cons, List.length_cons]
    omega

end Ferogram.Parsers.Rich
