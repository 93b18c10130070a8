import Ferogram.Lib.Str
import Ferogram.Parsers.Html

/- Rich text and the blocks of a rich message. A block is generic in its text:
   the block parsers first cut out the inline texts (`Block Inline`), and the
   inline parsers make rich text of each (`Block.mapM`), or stop. -/
namespace Ferogram.Parsers.Rich
open Str

/-! Rich text. -/

inductive RichText where
  | empty
  | plain (text : List Char)
  | bold (text : RichText)
  | italic (text : RichText)
  | underline (text : RichText)
  | strike (text : RichText)
  | fixed (text : RichText)
  | marked (text : RichText)
  | spoiler (text : RichText)
  | subscript (text : RichText)
  | superscript (text : RichText)
  | url (text : RichText) (url : List Char)
  | email (text : RichText) (email : List Char)
  | phone (text : RichText) (phone : List Char)
  | mentionName (text : RichText) (userId : Int64)
  | customEmoji (documentId : Int64) (alt : List Char)
  | math (source : List Char)
  | anchor (text : RichText) (name : List Char)
  | date (text : RichText) (flags : DateFlags) (date : Int32)
  | concat (texts : List RichText)

def RichText.isEmpty : RichText → Bool
  | .empty => true
  | _ => false

def rtPlain (t : List Char) : RichText := if t = [] then .empty else .plain t

def rtConcat (parts : List RichText) : RichText :=
  match parts.filter (!·.isEmpty) with
  | [] => .empty
  | [rt] => rt
  | texts => .concat texts

def rtDate (inner : RichText) (date : Int32) (fmt : List Char) : RichText := .date inner (parseTgTimeFormat fmt) date

/-- The pairs `key=value` of a query; of two with one key, the later one counts. -/
def queryParam (key query : List Char) : Option (List Char) :=
  (((query.splitOn '&').filterMap (splitAtChar '=')).reverse.find? fun kv => kv.1 = key).map Prod.snd

def timePrefix : List Char := "tg://time?".toList

/-- `parse_tg_scheme`. -/
def parseTgScheme (url : List Char) (inner : RichText) : Option RichText :=
  if timePrefix.isPrefixOf url ∨ "tg://time?unix=".toList.isPrefixOf url then
    let query := ((url.splitOn '?')[1]?).getD []
    let unix := ((queryParam "unix".toList query).bind parseI32).getD 0
    some (rtDate inner unix ((queryParam "format".toList query).getD ['t']))
  else none

/-- `build_link_rt`. -/
def buildLinkRt (inner : RichText) (url : List Char) : RichText :=
  match (stripPrefix mentionPrefix url).bind parseI64 with
  | some uid => .mentionName inner uid
  | none =>
    match stripPrefix "mailto:".toList url with
    | some email => .email inner email
    | none =>
      match stripPrefix "tel:".toList url with
      | some phone => .phone inner phone
      | none => if url.head? = some '#' then .url inner url else (parseTgScheme url inner).getD (.url inner url)

/-! Inline text. -/

/-- What is made of an inner text once that is parsed. -/
inductive Wrap where
  | bold
  | italic
  | underline
  | strike
  | fixed
  | marked
  | spoiler
  | subscript
  | superscript
  | link (url : List Char)
  | anchor (name : List Char)
deriving DecidableEq

def Wrap.apply : Wrap → RichText → RichText
  | .bold => .bold
  | .italic => .italic
  | .underline => .underline
  | .strike => .strike
  | .fixed => .fixed
  | .marked => .marked
  | .spoiler => .spoiler
  | .subscript => .subscript
  | .superscript => .superscript
  | .link url => (buildLinkRt · url)
  | .anchor name => (.anchor · name)

/-- What a turn of an inline parser finds: characters for the buffer, the same behind a flush, a piece of rich
    text, or an inner text that is parsed by itself. -/
inductive Span where
  | literal (text : List Char)
  | flushed (text : List Char)
  | leaf (rt : RichText)
  | wrap (w : Wrap) (inner : List Char)

/-- The text that the turn calls the parser for. -/
def Span.inner? : Span → Option (List Char)
  | .wrap _ inner => some inner
  | _ => none

/-! Blocks. -/

inductive Media where
  | photo (url : List Char) (spoiler : Bool)
  | video (spoiler : Bool)
  | audio

structure Caption (ρ : Type) where
  text : ρ
  credit : ρ

structure ListItem (ρ : Type) where
  checkbox : Bool
  checked : Bool
  text : ρ

structure OrderedItem (ρ : Type) where
  text : ρ
  value : Option Int32
  itemType : Option (List Char)

structure TableCell (ρ : Type) where
  header : Bool
  alignCenter : Bool
  alignRight : Bool
  valignMiddle : Bool
  valignBottom : Bool
  text : ρ
  colspan : Option Int32
  rowspan : Option Int32

/-- A block that holds no blocks. The coordinates of a map stay texts. -/
inductive Block (ρ : Type) where
  | heading (level : Nat) (text : ρ)
  | paragraph (text : ρ)
  | preformatted (text : RichText) (language : List Char)
  | footer (text : ρ)
  | divider
  | math (source : List Char)
  | anchor (name : List Char)
  | blockquote (text caption : ρ)
  | pullquote (text caption : ρ)
  | list (items : List (ListItem ρ))
  | orderedList (reversed : Bool) (items : List (OrderedItem ρ)) (start : Option Int32) (listType : Option (List Char))
  | table (bordered striped compact : Bool) (title : ρ) (rows : List (List (TableCell ρ)))
  | media (m : Media) (caption : Caption ρ)
  | collage (items : List Media) (caption : Caption ρ)
  | slideshow (items : List Media) (caption : Caption ρ)
  | map (lat long : Option (List Char)) (zoom : Int32) (caption : Caption ρ)

inductive PageBlock where
  | block (b : Block RichText)
  | details (isOpen : Bool) (blocks : List PageBlock) (title : RichText)

/-! The texts of a block, all of them or none. -/

section
variable {ρ τ : Type} (f : ρ → Option τ)

def Caption.mapM (c : Caption ρ) : Option (Caption τ) := do
  let text ← f c.text
  let credit ← f c.credit
  some { text, credit }

def ListItem.mapM (i : ListItem ρ) : Option (ListItem τ) := do
  let text ← f i.text
  some { i with text }

def OrderedItem.mapM (i : OrderedItem ρ) : Option (OrderedItem τ) := do
  let text ← f i.text
  some { i with text }

def TableCell.mapM (c : TableCell ρ) : Option (TableCell τ) := do
  let text ← f c.text
  some { c with text }

def Block.mapM : Block ρ → Option (Block τ)
  | .heading level text => do some (.heading level (← f text))
  | .paragraph text => do some (.paragraph (← f text))
  | .preformatted text language => some (.preformatted text language)
  | .footer text => do some (.footer (← f text))
  | .divider => some .divider
  | .math source => some (.math source)
  | .anchor name => some (.anchor name)
  | .blockquote text caption => do some (.blockquote (← f text) (← f caption))
  | .pullquote text caption => do some (.pullquote (← f text) (← f caption))
  | .list items => do some (.list (← items.mapM (ListItem.mapM f)))
  | .orderedList reversed items start listType => do
    some (.orderedList reversed (← items.mapM (OrderedItem.mapM f)) start listType)
  | .table bordered striped compact title rows => do
    some (.table bordered striped compact (← f title) (← rows.mapM fun cells => cells.mapM (TableCell.mapM f)))
  | .media m caption => do some (.media m (← caption.mapM f))
  | .collage items caption => do some (.collage items (← caption.mapM f))
  | .slideshow items caption => do some (.slideshow items (← caption.mapM f))
  | .map lat long zoom caption => do some (.map lat long zoom (← caption.mapM f))

def Caption.texts (c : Caption ρ) : List ρ := [c.text, c.credit]

def Block.texts : Block ρ → List ρ
  | .heading _ text => [text]
  | .paragraph text => [text]
  | .footer text => [text]
  | .blockquote text caption => [text, caption]
  | .pullquote text caption => [text, caption]
  | .list items => items.map (·.text)
  | .orderedList _ items _ _ => items.map (·.text)
  | .table _ _ _ title rows => title :: rows.flatten.map (·.text)
  | .media _ caption => caption.texts
  | .collage _ caption => caption.texts
  | .slideshow _ caption => caption.texts
  | .map _ _ _ caption => caption.texts
  | _ => []

theorem mapM_isSome {α β : Type} (g : α → Option β) (l : List α) :
    (l.mapM g).isSome ↔ ∀ a ∈ l, (g a).isSome := by
  induction l with
  | nil => simp
  | cons a l ih =>
    rw [List.mapM_cons, List.forall_mem_cons, ← ih]
    cases g a <;> cases l.mapM g <;> simp

theorem bind_isSome {α β : Type} (x : Option α) (g : α → β) : (x.bind fun a => some (g a)).isSome ↔ x.isSome := by
  cases x <;> simp

theorem Caption.mapM_isSome (c : Caption ρ) : (c.mapM f).isSome ↔ ∀ t ∈ c.texts, (f t).isSome := by
  unfold Caption.mapM Caption.texts
  cases ht : f c.text <;> cases hc : f c.credit <;> simp [ht, hc]

/-- A block is finished exactly if each of its texts is. -/
theorem Block.mapM_isSome (b : Block ρ) : (b.mapM f).isSome ↔ ∀ t ∈ b.texts, (f t).isSome := by
  have hpair : ∀ (x y : ρ) (g : τ → τ → Block τ),
      (do some (g (← f x) (← f y)) : Option (Block τ)).isSome ↔ ∀ t ∈ [x, y], (f t).isSome := by
    intro x y g
    cases hx : f x <;> cases hy : f y <;> simp [hx, hy]
  have hcap : ∀ (c : Caption ρ) (g : Caption τ → Block τ),
      (do some (g (← c.mapM f)) : Option (Block τ)).isSome ↔ ∀ t ∈ c.texts, (f t).isSome := by
    intro c g
    rw [← Caption.mapM_isSome]
    exact bind_isSome _ _
  unfold Block.mapM Block.texts
  cases b with
  | heading level text => simpa using bind_isSome (f text) _
  | paragraph text => simpa using bind_isSome (f text) _
  | footer text => simpa using bind_isSome (f text) _
  | blockquote text caption => exact hpair text caption _
  | pullquote text caption => exact hpair text caption _
  | list items =>
    simp only [List.mem_map, forall_exists_index, and_imp, forall_apply_eq_imp_iff₂]
    refine (bind_isSome _ _).trans ((Rich.mapM_isSome _ _).trans (forall₂_congr fun i _ => ?_))
    exact bind_isSome _ _
  | orderedList reversed items start listType =>
    simp only [List.mem_map, forall_exists_index, and_imp, forall_apply_eq_imp_iff₂]
    refine (bind_isSome _ _).trans ((Rich.mapM_isSome _ _).trans (forall₂_congr fun i _ => ?_))
    exact bind_isSome _ _
  | table bordered striped compact title rows =>
    have hcell : ∀ c : TableCell ρ, (c.mapM f).isSome ↔ (f c.text).isSome := fun c => bind_isSome _ _
    have hrows : (rows.mapM fun cells : List (TableCell ρ) => cells.mapM (TableCell.mapM f)).isSome ↔
        ∀ c ∈ rows.flatten, (f c.text).isSome := by
      rw [Rich.mapM_isSome]
      simp only [Rich.mapM_isSome, hcell, List.mem_flatten]
      exact ⟨fun h c ⟨row, hrow, hc⟩ => h row hrow c hc, fun h row hrow c hc => h c ⟨row, hrow, hc⟩⟩
    simp only [List.forall_mem_cons, List.mem_map, forall_exists_index, and_imp, forall_apply_eq_imp_iff₂]
    rw [← hrows]
    cases f title with
    | none => simp
    | some t => simpa using bind_isSome _ _
  | media m caption => exact hcap caption _
  | collage items caption => exact hcap caption _
  | slideshow items caption => exact hcap caption _
  | map lat long zoom caption => exact hcap caption _
  | _ => simp

end

end Ferogram.Parsers.Rich
