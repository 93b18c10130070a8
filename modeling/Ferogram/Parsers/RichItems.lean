import Ferogram.Parsers.RichCommon

/- The items of HTML lists and tables. They are cut one behind the other; where a
   closing tag is missing the item goes on to the end of the text, and the search
   for the next one starts five bytes behind that.

   `ListFine` and `TableFine` say that every item has its `>` and its closing tag,
   and that its attributes are read; the items are cut exactly then. -/
namespace Ferogram.Parsers.Rich
open Str Descent

/-! Items. -/

/-- An item whose tag starts at `start`: its content, and what is behind its closing tag. Without a `>`, the
    content starts `past` bytes behind the end. -/
def cutItem (closing : List Char) (past : Nat) (html : List Char) (start : Nat) : Option (List Char × List Char) := do
  let lo := toAsciiLowercase html
  let opened ← sliceFrom lo start
  let contentStart :=
    match find (· == '>') opened with
    | some i => start + i + 1
    | none => byteLen html + past
  let behind ← sliceFrom lo contentStart
  let contentEnd :=
    match findStr closing behind with
    | some i => contentStart + i
    | none => byteLen html
  let content ← slice html contentStart contentEnd
  let rest ← sliceFrom html (contentEnd + byteLen closing)
  some (content, rest)

/-- The text of the tag, without its brackets. -/
def cutTag (html : List Char) (start : Nat) : Option (List Char) := do
  let opened ← sliceFrom (toAsciiLowercase html) start
  let afterTag :=
    match find (· == '>') opened with
    | some i => start + i
    | none => byteLen html
  slice html (start + 1) afterTag

def liTag : List Char := "<li".toList

def liClose : List Char := "</li>".toList

/-- The item of a list whose `li` is in front. -/
def listItem (li content : List Char) : ListItem Inline :=
  let tag := toAsciiLowercase (li.takeWhile (· ≠ '>'))
  let checked :=
    if "<li ".toList.isPrefixOf (toAsciiLowercase li) then
      if "checked".toList <:+: tag then some true else if "checkbox".toList <:+: tag then some false else none
    else none
  { checkbox := checked.isSome, checked := checked.getD false, text := .md content }

/-- A turn of `parse_html_list_items`, the position counted from the last item. -/
def listItemTurn (html : List Char) : Option (Option (ListItem Inline × List Char)) :=
  match findStr liTag (toAsciiLowercase html) with
  | none => some none
  | some start => do
    let (content, rest) ← cutItem liClose 0 html start
    let _ ← Sliced.parseTag (trim ((← sliceFrom html (start + 1)).takeWhile (· ≠ '>')))
    let li ← sliceFrom html start
    some (some (listItem li content, rest))

def parseHtmlListItems (html : List Char) : Option (List (ListItem Inline)) :=
  loop listItemTurn (html.length + 1) html

def orderedItem (listType : Option (List Char)) (attrs : List (List Char × List Char)) (content : List Char) :
    OrderedItem Inline :=
  { text := .md content, value := (attr "value".toList attrs).bind parseI32,
    itemType := attr "type".toList attrs <|> listType }

/-- A turn of `parse_html_ordered_list_items`. -/
def orderedItemTurn (listType : Option (List Char)) (html : List Char) :
    Option (Option (OrderedItem Inline × List Char)) :=
  match findStr liTag (toAsciiLowercase html) with
  | none => some none
  | some start => do
    let tag ← Sliced.parseTag (trim (← cutTag html start))
    let (content, rest) ← cutItem liClose 1 html start
    some (some (orderedItem listType tag.2 content, rest))

def parseHtmlOrderedListItems (html : List Char) (listType : Option (List Char)) :
    Option (List (OrderedItem Inline)) :=
  loop (orderedItemTurn listType) (html.length + 1) html

/-- Where the next cell starts, and whether it is a header. -/
def cellStart (lo : List Char) : Option (Nat × Bool) :=
  match findStr "<th".toList lo, findStr "<td".toList lo with
  | some a, some b => if a ≤ b then some (a, true) else some (b, false)
  | some a, none => some (a, true)
  | none, some b => some (b, false)
  | none, none => none

def cellClose (isHeader : Bool) : List Char := if isHeader then "</th>".toList else "</td>".toList

def tableCell (isHeader : Bool) (attrs : List (List Char × List Char)) (content : List Char) : TableCell Inline :=
  let align := (attr "align".toList attrs).getD []
  let valign := (attr "valign".toList attrs).getD []
  { header := isHeader, alignCenter := align = "center".toList, alignRight := align = "right".toList,
    valignMiddle := valign = "middle".toList, valignBottom := valign = "bottom".toList, text := .md content,
    colspan := (attr "colspan".toList attrs).bind parseI32, rowspan := (attr "rowspan".toList attrs).bind parseI32 }

/-- A turn of `parse_html_table_cells`. -/
def cellTurn (html : List Char) : Option (Option (TableCell Inline × List Char)) :=
  match cellStart (toAsciiLowercase html) with
  | none => some none
  | some (start, isHeader) => do
    let tag ← Sliced.parseTag (trim (← cutTag html start))
    let (content, rest) ← cutItem (cellClose isHeader) 1 html start
    some (some (tableCell isHeader tag.2 content, rest))

def parseHtmlTableCells (html : List Char) : Option (List (TableCell Inline)) :=
  loop cellTurn (html.length + 1) html

def trTag : List Char := "<tr".toList

def trClose : List Char := "</tr>".toList

/-- A turn of the loop over the rows of `parse_html_table`. -/
def rowTurn (html : List Char) : Option (Option (List (TableCell Inline) × List Char)) :=
  match findStr trTag (toAsciiLowercase html) with
  | none => some none
  | some start => do
    let (rowHtml, rest) ← cutItem trClose 0 html start
    let cells ← parseHtmlTableCells rowHtml
    some (some (cells, rest))

def parseHtmlTable (html : List Char) : Option (Inline × List (List (TableCell Inline))) := do
  let caption ← extractBetween html "<caption>".toList "</caption>".toList
  let rows ← loop rowTurn (html.length + 1) html
  some ((caption.map Inline.md).getD (.done .empty), rows)

/-! Items that are closed. -/

/-- The content of an item and what is behind it, if its tag ends and it is closed. -/
def splitItem (closing item : List Char) : Option (List Char × List Char) :=
  (splitAtChar '>' item).bind fun r => splitLower closing r.2

theorem find_splitAtChar (c : Char) (s : List Char) :
    find (· == c) s = (splitAtChar c s).map fun r => byteLen r.1 := by
  induction s with
  | nil => rfl
  | cons d s ih =>
    unfold find splitAtChar
    by_cases hd : d = c
    · rw [if_pos (beq_iff_eq.mpr hd), if_pos hd, Option.map_some, byteLen_nil]
    · rw [if_neg (fun h => hd (beq_iff_eq.mp h)), if_neg hd, ih]
      cases splitAtChar c s with
      | none => rfl
      | some r => simp

theorem find_gt_lower (s : List Char) :
    find (· == '>') (toAsciiLowercase s) = (splitAtChar '>' s).map fun r => byteLen r.1 := by
  have hgt : ∀ c : Char, (c.toLower == '>') = (c == '>') := fun c =>
    decide_eq_decide.mpr (toLower_eq_iff (by decide))
  rw [← find_splitAtChar]
  induction s with
  | nil => rfl
  | cons c s ih =>
    show find _ (c.toLower :: toAsciiLowercase s) = _
    unfold find
    simp only [hgt, toLower_utf8Size, ih]

section
variable {closing html item : List Char} {start : Nat}

/-- The slices find the content and the rest, and miss if there is none. -/
theorem cutItem_eq (hne : closing ≠ []) (past : Nat) (hitem : sliceFrom html start = some item) :
    cutItem closing past html start = splitItem closing item := by
  have hlo : ∀ n t, sliceFrom html n = some t → sliceFrom (toAsciiLowercase html) n = some (toAsciiLowercase t) := by
    intro n t h
    rw [sliceFrom_toAsciiLowercase, h, Option.map_some]
  have hpos : 0 < byteLen closing := Nat.pos_of_ne_zero fun h => hne (byteLen_eq_zero.mp h)
  have hmissing : sliceFrom html (byteLen html + byteLen closing) = none := sliceFrom_of_lt (Nat.lt_add_of_pos_right hpos)
  obtain ⟨before, rfl, rfl⟩ := sliceFrom_eq_some_iff.mp hitem
  unfold cutItem splitItem
  simp only [hlo _ _ hitem, find_gt_lower, Option.bind_eq_bind, Option.bind_some]
  cases hsplit : splitAtChar '>' item with
  | none =>
    simp only [Option.map_none, Option.bind_none]
    cases past with
    | zero =>
      have hnone : findStr closing [] = none := by
        apply findStr_eq_none_iff.mpr
        intro h
        exact hne (List.infix_nil.mp h)
      rw [Nat.add_zero, hlo _ _ (sliceFrom_byteLen _)]
      simp only [Option.bind_some, toAsciiLowercase, List.map_nil, hnone, hmissing, Option.bind_none, Option.bind_fun_none]
    | succ past =>
      have hpast : byteLen (toAsciiLowercase (before ++ item)) < byteLen (before ++ item) + (past + 1) := by
        rw [byteLen_toAsciiLowercase]
        exact Nat.lt_add_of_pos_right (Nat.succ_pos past)
      rw [sliceFrom_of_lt hpast, Option.bind_none]
  | some r =>
    obtain ⟨tag, body⟩ := r
    obtain ⟨rfl, -⟩ := splitAtChar_eq_some hsplit
    have hbody : sliceFrom (before ++ (tag ++ '>' :: body)) (byteLen before + byteLen tag + 1) = some body := by
      have h := sliceFrom_append_cons (before ++ tag) body (show ('>' : Char).utf8Size = 1 from rfl)
      rwa [List.append_assoc, byteLen_append] at h
    simp only [Option.map_some, Option.bind_some, hlo _ _ hbody, findStr_lower]
    cases hclose : splitLower closing body with
    | none => simp only [Option.map_none, hmissing, Option.bind_none, Option.bind_fun_none]
    | some r =>
      obtain ⟨content, rest⟩ := r
      obtain ⟨p, rfl, rfl, -⟩ := splitLower_eq_some hclose
      have hcontent : slice (before ++ (tag ++ '>' :: (content ++ (p ++ rest)))) (byteLen before + byteLen tag + 1)
          (byteLen before + byteLen tag + 1 + byteLen content) = some content := by
        have h := slice_append (before ++ (tag ++ ['>'])) content (p ++ rest)
        simpa only [List.append_assoc, List.cons_append, List.nil_append, byteLen_append, byteLen_cons, byteLen_nil,
          show ('>' : Char).utf8Size = 1 from rfl, Nat.add_zero, Nat.add_assoc] using h
      have hrest : sliceFrom (before ++ (tag ++ '>' :: (content ++ (p ++ rest))))
          (byteLen before + byteLen tag + 1 + byteLen content + byteLen (toAsciiLowercase p)) = some rest := by
        apply sliceFrom_eq_some_iff.mpr
        refine ⟨before ++ (tag ++ '>' :: (content ++ p)), by simp, ?_⟩
        simp only [byteLen_append, byteLen_cons, byteLen_toAsciiLowercase, show ('>' : Char).utf8Size = 1 from rfl]
        omega
      simp only [Option.map_some, hcontent, hrest, Option.bind_some]

theorem splitItem_shorter {content rest : List Char} (h : splitItem closing item = some (content, rest)) :
    rest.length < item.length := by
  obtain ⟨⟨tag, body⟩, hsplit, hclose⟩ := Option.bind_eq_some_iff.mp h
  obtain ⟨rfl, -⟩ := splitAtChar_eq_some hsplit
  obtain ⟨p, hbody, -⟩ := splitLower_eq_some hclose
  obtain rfl : body = content ++ (p ++ rest) := hbody
  simp only [List.length_append, List.length_cons]
  omega

theorem sliceFrom_length {s t : List Char} {n : Nat} (h : sliceFrom s n = some t) : t.length ≤ s.length := by
  obtain ⟨a, rfl, -⟩ := sliceFrom_eq_some_iff.mp h
  rw [List.length_append]
  exact Nat.le_add_left _ _

/-- The text of a tag that ends. -/
theorem cutTag_eq (hitem : sliceFrom html start = some item) (hlt : item.head? = some '<')
    (hgt : '>' ∈ item) : cutTag html start = some ((item.drop 1).takeWhile (· ≠ '>')) := by
  obtain ⟨rest, rfl⟩ := List.head?_eq_some_iff.mp hlt
  obtain ⟨tag, body, rfl, hnot⟩ := List.eq_append_cons_of_mem ((List.mem_cons.mp hgt).resolve_left (by decide))
  have hsplit : splitAtChar '>' ('<' :: (tag ++ '>' :: body)) = some ('<' :: tag, body) :=
    splitAtChar_append (a := '<' :: tag) (by simpa using hnot)
  obtain ⟨before, rfl, rfl⟩ := sliceFrom_eq_some_iff.mp hitem
  unfold cutTag
  rw [sliceFrom_toAsciiLowercase, hitem]
  simp only [Option.map_some, Option.bind_eq_bind, Option.bind_some, find_gt_lower, hsplit]
  show slice _ _ _ = some ((tag ++ '>' :: body).takeWhile (· ≠ '>'))
  rw [(HtmlState.takeWhile_ne_append hnot).1]
  have h := slice_append (before ++ ['<']) tag ('>' :: body)
  simpa only [List.append_assoc, List.cons_append, List.nil_append, byteLen_append, byteLen_cons, byteLen_nil,
    show ('<' : Char).utf8Size = 1 from rfl, Nat.add_zero, Nat.add_assoc] using h

end

/-- Between the brackets of the tag in front. -/
def tagText (item : List Char) : List Char := trim ((item.drop 1).takeWhile (· ≠ '>'))

/-- An item has its `>` and its closing tag, and its attributes are read. -/
structure ItemFine (closing item : List Char) : Prop where
  closed : ∃ r, splitItem closing item = some r
  read : TagRead (tagText item)

/-- The next item of a list. -/
def ListItemFine (html : List Char) : Prop :=
  ∀ start item, findStr liTag (toAsciiLowercase html) = some start → sliceFrom html start = some item →
    ItemFine liClose item

/-- All items of a list. -/
def ListFine (html : List Char) : Prop := ∀ t, Reached (loopNext listItemTurn) html t → ListItemFine t

def CellFine (html : List Char) : Prop :=
  ∀ start isHeader item, cellStart (toAsciiLowercase html) = some (start, isHeader) →
    sliceFrom html start = some item → ItemFine (cellClose isHeader) item

/-- The next row is closed, and so are its cells. -/
def RowFine (html : List Char) : Prop :=
  ∀ start item, findStr trTag (toAsciiLowercase html) = some start → sliceFrom html start = some item →
    ∃ row rest, splitItem trClose item = some (row, rest) ∧ ∀ t, Reached (loopNext cellTurn) row t → CellFine t

/-- All rows of a table. -/
def TableFine (html : List Char) : Prop := ∀ t, Reached (loopNext rowTurn) html t → RowFine t

/-- A turn makes something of the content and the tag of an item, and goes on behind it. -/
def ReadsItem {α : Type} (turn : List Char → Option (Option (α × List Char))) (closing html item : List Char) : Prop :=
  ∃ f : List Char → List Char × List (List Char × List Char) → α,
    turn html = (splitItem closing item).bind fun r =>
      (Sliced.parseTag (tagText item)).map fun tag => some (f r.1 tag, r.2)

section
variable {α : Type} {turn : List Char → Option (Option (α × List Char))} {closing html item : List Char}
  (hturn : ReadsItem turn closing html item)
include hturn

theorem ReadsItem.isSome_iff : (∃ r, turn html = some r) ↔ ItemFine closing item := by
  obtain ⟨f, hf⟩ := hturn
  have hfine : ItemFine closing item ↔
      (∃ r, splitItem closing item = some r) ∧ ∃ tag, Sliced.parseTag (tagText item) = some tag := by
    rw [Sliced.parseTag_isSome_iff]
    exact ⟨fun h => ⟨h.closed, h.read⟩, fun h => ⟨h.1, h.2⟩⟩
  rw [hf, hfine]
  cases splitItem closing item <;> cases Sliced.parseTag (tagText item) <;> simp

theorem ReadsItem.shorter {a : α} {rest : List Char} (h : turn html = some (some (a, rest))) :
    rest.length < item.length := by
  obtain ⟨f, hf⟩ := hturn
  rw [hf] at h
  obtain ⟨⟨content, rest'⟩, hsplit, h⟩ := Option.bind_eq_some_iff.mp h
  obtain ⟨tag, -, heq⟩ := Option.map_eq_some_iff.mp h
  obtain ⟨-, rfl⟩ := Prod.mk.inj (Option.some.inj heq)
  exact splitItem_shorter hsplit

theorem ReadsItem.next : loopNext turn html =
    (splitItem closing item).bind fun r => (Sliced.parseTag (tagText item)).map fun _ => [r.2] := by
  obtain ⟨f, hf⟩ := hturn
  rw [loopNext, hf]
  cases splitItem closing item <;> cases Sliced.parseTag (tagText item) <;> rfl

end

/-- A tag that was found starts with `<`. -/
theorem head_of_found {pat html item : List Char} {start : Nat} (hpat : pat.head? = some '<')
    (hstart : findStr pat (toAsciiLowercase html) = some start) (hitem : sliceFrom html start = some item) :
    item.head? = some '<' := by
  obtain ⟨pat, rfl⟩ := List.head?_eq_some_iff.mp hpat
  rw [findStr_lower] at hstart
  obtain ⟨⟨a, b⟩, hsplit, rfl⟩ := Option.map_eq_some_iff.mp hstart
  obtain ⟨p, rfl, hp, -⟩ := splitLower_eq_some hsplit
  simp only [sliceFrom_append, Option.some.injEq] at hitem
  obtain rfl := hitem
  cases p with
  | nil => cases hp
  | cons c p =>
    have hc : c.toLower = '<' := (List.cons.inj hp).1
    rw [(toLower_eq_iff (by decide)).mp hc]
    rfl

theorem sliceFrom_found {pat html : List Char} {start : Nat} (hstart : findStr pat (toAsciiLowercase html) = some start) :
    ∃ item, sliceFrom html start = some item :=
  (boundary_lower.mp (boundary_findStr hstart).1).sliceFrom

theorem gt_of_splitItem {closing item : List Char} {r : List Char × List Char} (h : splitItem closing item = some r) :
    '>' ∈ item := by
  obtain ⟨⟨tag, body⟩, hsplit, -⟩ := Option.bind_eq_some_iff.mp h
  rw [(splitAtChar_eq_some hsplit).1]
  simp

section
variable {html item : List Char} {start : Nat}

theorem listItemTurn_reads (hstart : findStr liTag (toAsciiLowercase html) = some start)
    (hitem : sliceFrom html start = some item) : ReadsItem listItemTurn liClose html item := by
  obtain ⟨rest, rfl⟩ := List.head?_eq_some_iff.mp (head_of_found rfl hstart hitem)
  have htail : sliceFrom html (start + 1) = some rest := by
    obtain ⟨a, rfl, rfl⟩ := sliceFrom_eq_some_iff.mp hitem
    exact sliceFrom_append_cons a rest rfl
  refine ⟨fun content _ => listItem ('<' :: rest) content, ?_⟩
  unfold listItemTurn
  simp only [hstart, hitem, htail, cutItem_eq (show liClose ≠ [] by decide) 0 hitem, Option.bind_eq_bind,
    Option.bind_some]
  cases splitItem liClose ('<' :: rest) with
  | none => rfl
  | some r =>
    have htext : trim (rest.takeWhile (· ≠ '>')) = tagText ('<' :: rest) := rfl
    simp only [Option.bind_some, htext]
    cases Sliced.parseTag (tagText ('<' :: rest)) <;> rfl

/-- The tag is cut and read before the item is cut. -/
theorem tagThenItem_eq {α : Type} {closing : List Char} (hne : closing ≠ []) (hlt : item.head? = some '<')
    (hitem : sliceFrom html start = some item) (f : List Char → List Char × List (List Char × List Char) → α) :
    ((cutTag html start).bind fun text => (Sliced.parseTag (trim text)).bind fun tag =>
      (cutItem closing 1 html start).bind fun r => some (some (f r.1 tag, r.2))) =
    (splitItem closing item).bind fun r =>
      (Sliced.parseTag (tagText item)).map fun tag => some (f r.1 tag, r.2) := by
  rw [cutItem_eq hne 1 hitem]
  cases hsplit : splitItem closing item with
  | none => simp only [Option.bind_none, Option.bind_fun_none]
  | some r =>
    have htext : trim ((item.drop 1).takeWhile (· ≠ '>')) = tagText item := rfl
    rw [cutTag_eq hitem hlt (gt_of_splitItem hsplit)]
    simp only [Option.bind_some, htext]
    cases Sliced.parseTag (tagText item) <;> rfl

theorem orderedItemTurn_reads (listType : Option (List Char))
    (hstart : findStr liTag (toAsciiLowercase html) = some start) (hitem : sliceFrom html start = some item) :
    ReadsItem (orderedItemTurn listType) liClose html item := by
  have heq := tagThenItem_eq (show liClose ≠ [] by decide) (head_of_found rfl hstart hitem) hitem
    fun content tag => orderedItem listType tag.2 content
  refine ⟨fun content tag => orderedItem listType tag.2 content, Eq.trans ?_ heq⟩
  unfold orderedItemTurn
  rw [hstart]
  rfl

theorem cellTurn_reads {isHeader : Bool} (hstart : cellStart (toAsciiLowercase html) = some (start, isHeader))
    (hlt : item.head? = some '<') (hitem : sliceFrom html start = some item) :
    ReadsItem cellTurn (cellClose isHeader) html item := by
  have hne : cellClose isHeader ≠ [] := by cases isHeader <;> decide
  have heq := tagThenItem_eq hne hlt hitem fun content tag => tableCell isHeader tag.2 content
  refine ⟨fun content tag => tableCell isHeader tag.2 content, Eq.trans ?_ heq⟩
  unfold cellTurn
  rw [hstart]
  rfl

end

/-! Lists and tables are read exactly if their items are closed. -/

/-- There is one item that was found. -/
theorem forall_found {pat html item : List Char} {start : Nat} {P : List Char → Prop}
    (hstart : findStr pat (toAsciiLowercase html) = some start) (hitem : sliceFrom html start = some item) :
    (∀ start' item', findStr pat (toAsciiLowercase html) = some start' → sliceFrom html start' = some item' →
      P item') ↔ P item := by
  constructor
  · exact fun h => h start item hstart hitem
  · intro h start' item' hstart' hitem'
    obtain rfl := Option.some.inj (hstart.symm.trans hstart')
    obtain rfl := Option.some.inj (hitem.symm.trans hitem')
    exact h

theorem listItemTurn_isSome_iff (html : List Char) : (∃ r, listItemTurn html = some r) ↔ ListItemFine html := by
  unfold ListItemFine
  cases hstart : findStr liTag (toAsciiLowercase html) with
  | none =>
    refine iff_of_true ⟨none, ?_⟩ fun _ _ h => nomatch h
    rw [listItemTurn, hstart]
  | some start =>
    obtain ⟨item, hitem⟩ := sliceFrom_found hstart
    rw [← hstart, forall_found hstart hitem, (listItemTurn_reads hstart hitem).isSome_iff]

theorem listItemTurn_shorter {html rest : List Char} {a : ListItem Inline}
    (h : listItemTurn html = some (some (a, rest))) : rest.length < html.length := by
  cases hstart : findStr liTag (toAsciiLowercase html) with
  | none =>
    rw [listItemTurn, hstart] at h
    cases h
  | some start =>
    obtain ⟨item, hitem⟩ := sliceFrom_found hstart
    exact Nat.lt_of_lt_of_le ((listItemTurn_reads hstart hitem).shorter h) (sliceFrom_length hitem)

theorem parseHtmlListItems_isSome_iff (html : List Char) :
    (∃ items, parseHtmlListItems html = some items) ↔ ListFine html := by
  unfold parseHtmlListItems ListFine
  have hless : ∀ s a t, listItemTurn s = some (some (a, t)) → t.length < s.length := fun _ _ _ => listItemTurn_shorter
  rw [loop_isSome_iff hless (Nat.lt_succ_self _)]
  exact forall₂_congr fun t _ => listItemTurn_isSome_iff t

/-- Both kinds of list are cut in the same places. -/
theorem orderedItemTurn_next (listType : Option (List Char)) :
    loopNext (orderedItemTurn listType) = loopNext listItemTurn := by
  funext html
  cases hstart : findStr liTag (toAsciiLowercase html) with
  | none =>
    rw [loopNext, loopNext, orderedItemTurn, listItemTurn, hstart]
    rfl
  | some start =>
    obtain ⟨item, hitem⟩ := sliceFrom_found hstart
    rw [(orderedItemTurn_reads listType hstart hitem).next, (listItemTurn_reads hstart hitem).next]

theorem parseHtmlOrderedListItems_isSome_iff (html : List Char) (listType : Option (List Char)) :
    (∃ items, parseHtmlOrderedListItems html listType = some items) ↔ ListFine html := by
  have hless : ∀ s a t, orderedItemTurn listType s = some (some (a, t)) → t.length < s.length := by
    intro s a t h
    cases hstart : findStr liTag (toAsciiLowercase s) with
    | none =>
      rw [orderedItemTurn, hstart] at h
      cases h
    | some start =>
      obtain ⟨item, hitem⟩ := sliceFrom_found hstart
      exact Nat.lt_of_lt_of_le ((orderedItemTurn_reads listType hstart hitem).shorter h) (sliceFrom_length hitem)
  have hsome : ∀ t, (∃ r, orderedItemTurn listType t = some r) ↔ ListItemFine t := by
    intro t
    rw [← listItemTurn_isSome_iff]
    have h := congrFun (orderedItemTurn_next listType) t
    unfold loopNext at h
    cases ho : orderedItemTurn listType t <;> cases hl : listItemTurn t <;> simp_all
  unfold parseHtmlOrderedListItems ListFine
  rw [loop_isSome_iff hless (Nat.lt_succ_self _), orderedItemTurn_next]
  exact forall₂_congr fun t _ => hsome t

theorem cellStart_found {html : List Char} {start : Nat} {isHeader : Bool}
    (h : cellStart (toAsciiLowercase html) = some (start, isHeader)) :
    ∃ item, sliceFrom html start = some item ∧ item.head? = some '<' := by
  have hfound : findStr (if isHeader then "<th".toList else "<td".toList) (toAsciiLowercase html) = some start := by
    unfold cellStart at h
    split at h
    · next a b ha hb =>
      split at h <;>
      · obtain ⟨rfl, rfl⟩ := Prod.mk.inj (Option.some.inj h)
        assumption
    · next a ha hb =>
      obtain ⟨rfl, rfl⟩ := Prod.mk.inj (Option.some.inj h)
      exact ha
    · next b ha hb =>
      obtain ⟨rfl, rfl⟩ := Prod.mk.inj (Option.some.inj h)
      exact hb
    · cases h
  obtain ⟨item, hitem⟩ := sliceFrom_found hfound
  exact ⟨item, hitem, head_of_found (by cases isHeader <;> rfl) hfound hitem⟩

theorem cellTurn_isSome_iff (html : List Char) : (∃ r, cellTurn html = some r) ↔ CellFine html := by
  unfold CellFine
  cases hstart : cellStart (toAsciiLowercase html) with
  | none =>
    refine iff_of_true ⟨none, ?_⟩ fun _ _ _ h => nomatch h
    rw [cellTurn, hstart]
  | some r =>
    obtain ⟨start, isHeader⟩ := r
    obtain ⟨item, hitem, hlt⟩ := cellStart_found hstart
    rw [(cellTurn_reads hstart hlt hitem).isSome_iff]
    constructor
    · intro h start' isHeader' item' heq hitem'
      obtain ⟨rfl, rfl⟩ := Prod.mk.inj (Option.some.inj heq)
      obtain rfl := Option.some.inj (hitem.symm.trans hitem')
      exact h
    · exact fun h => h _ _ _ rfl hitem

theorem parseHtmlTableCells_isSome_iff (html : List Char) :
    (∃ cells, parseHtmlTableCells html = some cells) ↔ ∀ t, Reached (loopNext cellTurn) html t → CellFine t := by
  have hless : ∀ s a t, cellTurn s = some (some (a, t)) → t.length < s.length := by
    intro s a t h
    cases hstart : cellStart (toAsciiLowercase s) with
    | none =>
      rw [cellTurn, hstart] at h
      cases h
    | some r =>
      obtain ⟨start, isHeader⟩ := r
      obtain ⟨item, hitem, hlt⟩ := cellStart_found hstart
      exact Nat.lt_of_lt_of_le ((cellTurn_reads hstart hlt hitem).shorter h) (sliceFrom_length hitem)
  unfold parseHtmlTableCells
  rw [loop_isSome_iff hless (Nat.lt_succ_self _)]
  exact forall₂_congr fun t _ => cellTurn_isSome_iff t

theorem rowTurn_eq {html item : List Char} {start : Nat} (hstart : findStr trTag (toAsciiLowercase html) = some start)
    (hitem : sliceFrom html start = some item) :
    rowTurn html = (splitItem trClose item).bind fun r =>
      (parseHtmlTableCells r.1).map fun cells => some (cells, r.2) := by
  unfold rowTurn
  simp only [hstart, cutItem_eq (show trClose ≠ [] by decide) 0 hitem, Option.bind_eq_bind]
  cases splitItem trClose item with
  | none => rfl
  | some r =>
    show Option.bind (parseHtmlTableCells r.1) _ = Option.map _ (parseHtmlTableCells r.1)
    cases parseHtmlTableCells r.1 <;> rfl

theorem rowTurn_isSome_iff (html : List Char) : (∃ r, rowTurn html = some r) ↔ RowFine html := by
  unfold RowFine
  cases hstart : findStr trTag (toAsciiLowercase html) with
  | none =>
    refine iff_of_true ⟨none, ?_⟩ fun _ _ h => nomatch h
    rw [rowTurn, hstart]
  | some start =>
    obtain ⟨item, hitem⟩ := sliceFrom_found hstart
    rw [← hstart, forall_found (P := fun item => ∃ row rest, splitItem trClose item = some (row, rest) ∧
      ∀ t, Reached (loopNext cellTurn) row t → CellFine t) hstart hitem, rowTurn_eq hstart hitem]
    simp only [← parseHtmlTableCells_isSome_iff]
    cases splitItem trClose item with
    | none => simp
    | some r =>
      obtain ⟨row, rest⟩ := r
      cases parseHtmlTableCells row <;> simp

theorem parseHtmlTable_isSome_iff (html : List Char) :
    (∃ r, parseHtmlTable html = some r) ↔ TableFine html := by
  have hless : ∀ s a t, rowTurn s = some (some (a, t)) → t.length < s.length := by
    intro s a t h
    cases hstart : findStr trTag (toAsciiLowercase s) with
    | none =>
      rw [rowTurn, hstart] at h
      cases h
    | some start =>
      obtain ⟨item, hitem⟩ := sliceFrom_found hstart
      rw [rowTurn_eq hstart hitem] at h
      obtain ⟨⟨row, rest⟩, hsplit, h⟩ := Option.bind_eq_some_iff.mp h
      obtain ⟨cells, -, heq⟩ := Option.map_eq_some_iff.mp h
      obtain ⟨-, rfl⟩ := Prod.mk.inj (Option.some.inj heq)
      exact Nat.lt_of_lt_of_le (splitItem_shorter hsplit) (sliceFrom_length hitem)
  have hrows : (∃ rows, loop rowTurn (html.length + 1) html = some rows) ↔ TableFine html := by
    rw [loop_isSome_iff hless (Nat.lt_succ_self _)]
    exact forall₂_congr fun t _ => rowTurn_isSome_iff t
  obtain ⟨caption, hcaption⟩ := extractBetween_isSome html "<caption>".toList "</caption>".toList
  unfold parseHtmlTable
  rw [hcaption, ← hrows]
  simp only [Option.bind_eq_bind, Option.bind_some]
  cases loop rowTurn (html.length + 1) html <;> simp

end Ferogram.Parsers.Rich
