import Ferogram.Parsers.RichItems

/- The block parsers as runs. Both have a loop whose turn reads pieces of what is
   left; the texts of a piece go to an inline parser, and the body of a `details`
   block to the parser itself. A state of a run is what is left for a block loop
   or for an inline loop.

   `total_iff` is the one theorem about both: if every fine state makes its turn
   and leaves less, and every other state fails or comes back to itself, then a
   parser is total on a text exactly if all states of its run are fine. -/
namespace Ferogram.Parsers.Rich
open Str Descent

/-! Inline runs. -/

/-- What is left for an inline parser. -/
inductive InlineState where
  | md (chars : List Char)
  | html (chars : List Char)

def InlineState.chars : InlineState → List Char
  | .md chars => chars
  | .html chars => chars

/-- What an inline turn goes on with: the rest, and the text that it calls the markdown parser for. -/
def inlineNext : InlineState → Option (List InlineState)
  | .md (c :: rest) => (mdInlineTurn c rest).map fun r => .md r.2 :: (r.1.inner?.map InlineState.md).toList
  | .html (c :: rest) => (htmlInlineTurn c rest).map fun r => .html r.2 :: (r.1.inner?.map InlineState.md).toList
  | _ => some []

def InlineState.returns (fuel : Nat) : InlineState → Prop
  | .md chars => (mdInlineLoop fuel [] chars).isSome
  | .html chars => (htmlInlineLoop fuel [] chars).isSome

/-- The buffer plays no part in what is read. -/
theorem goOn_isSome_iff {decode : List Char → List Char} {inline : List Char → Option RichText}
    {go : List Char → List Char → Option (List RichText)}
    (hgo : ∀ buf buf' chars, (go buf chars).isSome = (go buf' chars).isSome) (buf : List Char) (span : Span)
    (rest : List Char) : (goOn decode inline go buf span rest).isSome ↔
      (go [] rest).isSome ∧ ∀ inner, span.inner? = some inner → (inline inner).isSome := by
  cases span with
  | literal text =>
    show (go (buf ++ text) rest).isSome ↔ _
    rw [hgo (buf ++ text) [] rest]
    simp [Span.inner?]
  | flushed text =>
    rw [hgo [] text rest]
    cases h : go text rest <;> simp [goOn, Span.inner?, h]
  | leaf rt => cases h : go [] rest <;> simp [goOn, Span.inner?, h]
  | wrap w inner => cases h : inline inner <;> cases h' : go [] rest <;> simp [goOn, Span.inner?, h, h']

theorem mdInlineLoop_buf (fuel : Nat) : ∀ buf buf' chars : List Char,
    (mdInlineLoop fuel buf chars).isSome = (mdInlineLoop fuel buf' chars).isSome := by
  induction fuel with
  | zero => exact fun _ _ _ => rfl
  | succ fuel ih =>
    intro buf buf' chars
    cases chars with
    | nil => rfl
    | cons c rest =>
      unfold mdInlineLoop
      cases mdInlineTurn c rest with
      | none => rfl
      | some r => exact Bool.eq_iff_iff.mpr ((goOn_isSome_iff ih _ _ _).trans (goOn_isSome_iff ih _ _ _).symm)

theorem htmlInlineLoop_buf (fuel : Nat) : ∀ buf buf' chars : List Char,
    (htmlInlineLoop fuel buf chars).isSome = (htmlInlineLoop fuel buf' chars).isSome := by
  induction fuel with
  | zero => exact fun _ _ _ => rfl
  | succ fuel ih =>
    intro buf buf' chars
    cases chars with
    | nil => rfl
    | cons c rest =>
      unfold htmlInlineLoop
      cases htmlInlineTurn c rest with
      | none => rfl
      | some r => exact Bool.eq_iff_iff.mpr ((goOn_isSome_iff ih _ _ _).trans (goOn_isSome_iff ih _ _ _).symm)

theorem parseRichInlineMd_isSome (fuel : Nat) (text : List Char) :
    (parseRichInlineMd fuel text).isSome = (mdInlineLoop fuel [] text).isSome := Option.isSome_map

theorem parseRichHtmlInline_isSome (fuel : Nat) (html : List Char) :
    (parseRichHtmlInline fuel html).isSome = (htmlInlineLoop fuel [] html).isSome := Option.isSome_map

/-- With a unit of fuel more a turn is made. -/
theorem inline_turn (fuel : Nat) (s : InlineState) :
    s.returns (fuel + 1) ↔ ∃ l, inlineNext s = some l ∧ ∀ t ∈ l, t.returns fuel := by
  have hcall : ∀ (k : InlineState) (inner? : Option (List Char)),
      (∀ t ∈ k :: (inner?.map InlineState.md).toList, t.returns fuel) ↔
        k.returns fuel ∧ ∀ inner, inner? = some inner → (mdInlineLoop fuel [] inner).isSome := by
    intro k inner?
    cases inner? <;> simp [InlineState.returns]
  cases s with
  | md chars =>
    cases chars with
    | nil => exact iff_of_true rfl ⟨[], rfl, fun t ht => absurd ht List.not_mem_nil⟩
    | cons c rest =>
      show (mdInlineLoop (fuel + 1) [] (c :: rest)).isSome ↔ _
      rw [mdInlineLoop, inlineNext]
      cases mdInlineTurn c rest with
      | none => simp
      | some r =>
        simp only [Option.bind_eq_bind, Option.bind_some, Option.map_some, Option.some.injEq, exists_eq_left', hcall,
          goOn_isSome_iff (mdInlineLoop_buf fuel), Option.isSome_map]
        exact Iff.rfl
  | html chars =>
    cases chars with
    | nil => exact iff_of_true rfl ⟨[], rfl, fun t ht => absurd ht List.not_mem_nil⟩
    | cons c rest =>
      show (htmlInlineLoop (fuel + 1) [] (c :: rest)).isSome ↔ _
      rw [htmlInlineLoop, inlineNext]
      cases htmlInlineTurn c rest with
      | none => simp
      | some r =>
        simp only [Option.bind_eq_bind, Option.bind_some, Option.map_some, Option.some.injEq, exists_eq_left', hcall,
          goOn_isSome_iff (htmlInlineLoop_buf fuel), parseRichInlineMd_isSome]
        exact Iff.rfl

theorem exists_map_iff {α β : Type} (x : Option α) (f : α → β) : (∃ b, x.map f = some b) ↔ ∃ a, x = some a := by
  cases x <;> simp

def InlineState.Fine (s : InlineState) : Prop := TagFine s.chars

/-- A turn fails exactly if its state is not fine, and goes on with less. -/
theorem inlineNext_spec (s : InlineState) : ((∃ l, inlineNext s = some l) ↔ s.Fine) ∧
    ∀ l, inlineNext s = some l → ∀ t ∈ l, t.chars.length < s.chars.length := by
  have hnil : TagFine [] := fun _ _ h => nomatch h
  have hend : ∀ l : List InlineState, some [] = some l → ∀ t ∈ l, t.chars.length < 0 := by
    intro l h t ht
    obtain rfl := Option.some.inj h
    exact absurd ht List.not_mem_nil
  have hshorter : ∀ (k : List Char → InlineState), (∀ l, (k l).chars = l) → ∀ (chars : List Char) (r : Span × List Char),
      Shorter chars r → ∀ t ∈ k r.2 :: (r.1.inner?.map InlineState.md).toList, t.chars.length < chars.length := by
    intro k hk chars r h t ht
    rcases List.mem_cons.mp ht with rfl | ht
    · rw [hk]
      exact h.1
    · obtain ⟨inner, hinner, rfl⟩ := Option.map_eq_some_iff.mp (Option.mem_toList.mp ht)
      exact h.2 inner hinner
  cases s with
  | md chars =>
    cases chars with
    | nil => exact ⟨iff_of_true ⟨[], rfl⟩ hnil, hend⟩
    | cons c rest =>
      obtain ⟨hsome, hless⟩ := mdInlineTurn_spec c rest
      refine ⟨Iff.trans (exists_map_iff _ _) hsome, ?_⟩
      · intro l h
        obtain ⟨r, hr, rfl⟩ := Option.map_eq_some_iff.mp h
        exact hshorter .md (fun _ => rfl) _ r (hless r hr)
  | html chars =>
    cases chars with
    | nil => exact ⟨iff_of_true ⟨[], rfl⟩ hnil, hend⟩
    | cons c rest =>
      obtain ⟨hsome, hless⟩ := htmlInlineTurn_spec c rest
      refine ⟨Iff.trans (exists_map_iff _ _) hsome, ?_⟩
      · intro l h
        obtain ⟨r, hr, rfl⟩ := Option.map_eq_some_iff.mp h
        exact hshorter .html (fun _ => rfl) _ r (hless r hr)

/-! Block runs. -/

def Inline.parse (fuel : Nat) : Inline → Option RichText
  | .md text => parseRichInlineMd fuel text
  | .html text => parseRichHtmlInline fuel text
  | .done rt => some rt

/-- The run that a text is parsed in. -/
def Inline.call? : Inline → Option InlineState
  | .md text => some (.md text)
  | .html text => some (.html text)
  | .done _ => none

/-- A piece with its texts parsed; `parse` is for the body of a `details` block. -/
def Piece.parse (fuel : Nat) (parse : List Char → Option (List PageBlock)) : Piece → Option (List PageBlock)
  | .block b => (b.mapM (Inline.parse fuel)).map fun b => [.block b]
  | .details isOpen title body => do
    let blocks ← parse body
    let title ← title.parse fuel
    some [.details isOpen blocks title]
  | .dropped texts => (texts.mapM (Inline.parse fuel)).map fun _ => []

section
variable {β : Type} (start : List Char → β) (turn : β → Option (Option (List Piece × β)))

/-- A block loop from a state; `start` is where a text is begun. -/
def parseBlocks : Nat → β → Option (List PageBlock)
  | 0, _ => none
  | fuel + 1, s => do
    match ← turn s with
    | none => some []
    | some (pieces, rest) => do
      let blocks ← pieces.mapM (Piece.parse fuel fun body => parseBlocks fuel (start body))
      return blocks.flatten ++ (← parseBlocks fuel rest)

/-- What a piece calls a parser for. -/
def Piece.calls (p : Piece) : List (β ⊕ InlineState) :=
  (p.body?.map fun body => Sum.inl (start body)).toList ++ (p.texts.filterMap Inline.call?).map Sum.inr

def blockNext : β ⊕ InlineState → Option (List (β ⊕ InlineState))
  | .inl s => (turn s).map fun
    | none => []
    | some (pieces, rest) => .inl rest :: pieces.flatMap (Piece.calls start)
  | .inr s => (inlineNext s).map (·.map Sum.inr)

def blocksReturn (fuel : Nat) : β ⊕ InlineState → Prop
  | .inl s => (parseBlocks start turn fuel s).isSome
  | .inr s => s.returns fuel

/-- Less is left: of the blocks, or of the text; and an inline text is less than any blocks. -/
def Smaller (size : β → Nat) : β ⊕ InlineState → β ⊕ InlineState → Prop
  | .inl s, .inl t => size s < size t
  | .inr s, .inr t => s.chars.length < t.chars.length
  | .inr _, .inl _ => True
  | .inl _, .inr _ => False

/-- The parser returns on a text, and in its run every turn returns and leaves less, for itself and for each call. -/
structure Total (size : β → Nat) (text : List Char) : Prop where
  returns : ∃ fuel blocks, parseBlocks start turn fuel (start text) = some blocks
  turns : ∀ s, Reached (blockNext start turn) (.inl (start text)) s →
    ∃ l, blockNext start turn s = some l ∧ ∀ t ∈ l, Smaller size t s

theorem Inline.parse_isSome (fuel : Nat) (i : Inline) :
    (i.parse fuel).isSome ↔ ∀ s, i.call? = some s → s.returns fuel := by
  cases i with
  | md text => simp [Inline.parse, Inline.call?, InlineState.returns, parseRichInlineMd_isSome]
  | html html => simp [Inline.parse, Inline.call?, InlineState.returns, parseRichHtmlInline_isSome]
  | done rt => simp [Inline.parse, Inline.call?]

theorem texts_return (fuel : Nat) (l : List Inline) :
    (∀ i ∈ l, (i.parse fuel).isSome) ↔
      ∀ t ∈ (l.filterMap Inline.call?).map Sum.inr, blocksReturn start turn fuel t := by
  simp only [Inline.parse_isSome, List.mem_map, List.mem_filterMap, forall_exists_index, and_imp]
  constructor
  · rintro h t s i hi hs rfl
    exact h i hi s hs
  · exact fun h i hi s hs => h (.inr s) s i hi hs rfl

theorem Piece.parse_isSome (fuel : Nat) (p : Piece) :
    (p.parse fuel fun body => parseBlocks start turn fuel (start body)).isSome ↔
      ∀ t ∈ p.calls start, blocksReturn start turn fuel t := by
  cases p with
  | block b =>
    show ((b.mapM (Inline.parse fuel)).map fun b => [PageBlock.block b]).isSome ↔
      ∀ t ∈ (b.texts.filterMap Inline.call?).map Sum.inr, _
    rw [← texts_return, Option.isSome_map, Block.mapM_isSome]
  | dropped texts =>
    show ((texts.mapM (Inline.parse fuel)).map fun _ => ([] : List PageBlock)).isSome ↔
      ∀ t ∈ (texts.filterMap Inline.call?).map Sum.inr, _
    rw [← texts_return, Option.isSome_map, Rich.mapM_isSome]
  | details isOpen title body =>
    have htitle := texts_return start turn fuel [title]
    rw [List.forall_mem_singleton] at htitle
    show _ ↔ ∀ t ∈ Sum.inl (start body) :: ([title].filterMap Inline.call?).map Sum.inr, _
    rw [List.forall_mem_cons, ← htitle]
    show _ ↔ (parseBlocks start turn fuel (start body)).isSome ∧ _
    unfold Piece.parse
    cases hb : parseBlocks start turn fuel (start body) <;> cases ht : title.parse fuel <;> simp [hb, ht]

/-- With a unit of fuel more a turn is made. -/
theorem blocks_turn (fuel : Nat) (s : β ⊕ InlineState) : blocksReturn start turn (fuel + 1) s ↔
    ∃ l, blockNext start turn s = some l ∧ ∀ t ∈ l, blocksReturn start turn fuel t := by
  cases s with
  | inr s =>
    show s.returns (fuel + 1) ↔ _
    rw [inline_turn, blockNext]
    cases inlineNext s with
    | none => simp
    | some l => simp [blocksReturn]
  | inl s =>
    show (parseBlocks start turn (fuel + 1) s).isSome ↔ _
    rw [parseBlocks, blockNext]
    cases turn s with
    | none => simp
    | some r =>
      cases r with
      | none => simp
      | some r =>
        obtain ⟨pieces, rest⟩ := r
        have hpieces : (pieces.mapM (Piece.parse fuel fun body => parseBlocks start turn fuel (start body))).isSome ↔
            ∀ t ∈ pieces.flatMap (Piece.calls start), blocksReturn start turn fuel t := by
          simp only [Rich.mapM_isSome, Piece.parse_isSome, List.mem_flatMap]
          exact ⟨fun h t ⟨p, hp, ht⟩ => h p hp t ht, fun h p hp t ht => h t ⟨p, hp, ht⟩⟩
        simp only [Option.bind_eq_bind, Option.bind_some, Option.map_some, Option.some.injEq, exists_eq_left',
          List.forall_mem_cons, ← hpieces]
        show _ ↔ (parseBlocks start turn fuel rest).isSome ∧ _
        cases pieces.mapM (Piece.parse fuel fun body => parseBlocks start turn fuel (start body)) <;>
          cases parseBlocks start turn fuel rest <;> simp

end

section
variable {β : Type} {start : List Char → β} {turn : β → Option (Option (List Piece × β))} {size : β → Nat}

/-- Where a turn fails, or stays, the parser is not total. -/
theorem not_total_of_fail {text : List Char} (h : turn (start text) = none) : ¬ Total start turn size text := by
  intro htotal
  obtain ⟨l, hl, -⟩ := htotal.turns _ .start
  rw [blockNext, h] at hl
  cases hl

theorem not_total_of_stay {text : List Char} {pieces : List Piece}
    (h : turn (start text) = some (some (pieces, start text))) : ¬ Total start turn size text := by
  intro htotal
  obtain ⟨l, hl, hless⟩ := htotal.turns _ .start
  rw [blockNext, h] at hl
  obtain rfl := Option.some.inj hl
  exact Nat.lt_irrefl _ (hless _ List.mem_cons_self)

/-- And there is no amount of fuel that it returns with. -/
theorem parseBlocks_of_stay {s : β} {pieces : List Piece} (h : turn s = some (some (pieces, s))) (fuel : Nat) :
    parseBlocks start turn fuel s = none := by
  induction fuel with
  | zero => rfl
  | succ fuel ih =>
    unfold parseBlocks
    simp only [h, ih, Option.bind_eq_bind, Option.bind_some, Option.bind_none, Option.bind_fun_none]

end

theorem smaller_wf {β : Type} (size : β → Nat) : WellFounded (Smaller size) := by
  let rank : β ⊕ InlineState → Nat × Nat
    | .inl s => (1, size s)
    | .inr s => (0, s.chars.length)
  refine Subrelation.wf ?_ (InvImage.wf rank (Prod.lex Nat.lt_wfRel Nat.lt_wfRel).wf)
  intro s t h
  cases s <;> cases t
  · exact Prod.Lex.right _ h
  · exact h.elim
  · exact Prod.Lex.left _ _ Nat.zero_lt_one
  · exact Prod.Lex.right _ h

section
variable {β : Type} {start : List Char → β} {turn : β → Option (Option (List Piece × β))} {size : β → Nat}
  {Fine : β → Prop}

/-- From a fine state a parser goes on to smaller ones. -/
theorem blockNext_fine
    (hgood : ∀ s, Fine s → ∃ r, turn s = some r ∧ ∀ pieces rest, r = some (pieces, rest) →
      size rest < size s ∧ ∀ p ∈ pieces, ∀ body, p.body? = some body → size (start body) < size s) :
    ∀ s : β ⊕ InlineState, Sum.elim Fine InlineState.Fine s →
      ∃ l, blockNext start turn s = some l ∧ ∀ t ∈ l, Smaller size t s
  | .inl s, hs => by
    obtain ⟨r, hr, hless⟩ := hgood s hs
    rw [blockNext, hr]
    refine ⟨_, rfl, fun t ht => ?_⟩
    cases r with
    | none => exact absurd ht List.not_mem_nil
    | some r =>
      obtain ⟨pieces, rest⟩ := r
      obtain ⟨hrest, hbody⟩ := hless pieces rest rfl
      rcases List.mem_cons.mp ht with rfl | ht
      · exact hrest
      · obtain ⟨p, hp, ht⟩ := List.mem_flatMap.mp ht
        rcases List.mem_append.mp ht with ht | ht
        · obtain ⟨body, hb, rfl⟩ := Option.map_eq_some_iff.mp (Option.mem_toList.mp ht)
          exact hbody p hp body hb
        · obtain ⟨i, -, rfl⟩ := List.mem_map.mp ht
          trivial
  | .inr s, hs => by
    obtain ⟨hsome, hless⟩ := inlineNext_spec s
    obtain ⟨l, hl⟩ := hsome.mpr hs
    rw [blockNext, hl]
    refine ⟨_, rfl, fun t ht => ?_⟩
    obtain ⟨i, hi, rfl⟩ := List.mem_map.mp ht
    exact hless l hl i hi

/-- From any other it fails, or it stays. -/
theorem blockNext_stuck (hbad : ∀ s, ¬ Fine s → ∀ r, turn s = some r → ∃ pieces, r = some (pieces, s)) :
    ∀ s : β ⊕ InlineState, ¬ Sum.elim Fine InlineState.Fine s → ∀ l, blockNext start turn s = some l → s ∈ l
  | .inl s, hs, l, hl => by
    obtain ⟨r, hr, rfl⟩ := Option.map_eq_some_iff.mp hl
    obtain ⟨pieces, rfl⟩ := hbad s hs r hr
    exact List.mem_cons_self
  | .inr s, hs, l, hl => by
    obtain ⟨l', hl', -⟩ := Option.map_eq_some_iff.mp hl
    exact absurd ((inlineNext_spec s).1.mp ⟨l', hl'⟩) hs

/-- A block parser is total on a text exactly if its run meets fine states only. -/
theorem total_iff
    (hgood : ∀ s, Fine s → ∃ r, turn s = some r ∧ ∀ pieces rest, r = some (pieces, rest) →
      size rest < size s ∧ ∀ p ∈ pieces, ∀ body, p.body? = some body → size (start body) < size s)
    (hbad : ∀ s, ¬ Fine s → ∀ r, turn s = some r → ∃ pieces, r = some (pieces, s)) (text : List Char) :
    Total start turn size text ↔
      ∀ s, Reached (blockNext start turn) (.inl (start text)) s → Sum.elim Fine InlineState.Fine s := by
  have hfine : ∀ s : β ⊕ InlineState, Sum.elim Fine InlineState.Fine s →
      ∃ l, blockNext start turn s = some l ∧ ∀ t ∈ l, Smaller size t s := blockNext_fine hgood
  have hstuck : ∀ s : β ⊕ InlineState, ¬ Sum.elim Fine InlineState.Fine s →
      ∀ l, blockNext start turn s = some l → s ∈ l := blockNext_stuck hbad
  have hzero : ∀ s, ¬ blocksReturn start turn 0 s := by
    intro s h
    cases s with
    | inl s => cases h
    | inr s => cases s <;> cases h
  have hends := ends_iff (smaller_wf size) hfine hstuck (.inl (start text))
  have hfuel := enough_fuel_iff hzero (blocks_turn start turn) (.inl (start text))
  constructor
  · rintro ⟨⟨fuel, blocks, h⟩, -⟩
    exact hends.mp (hfuel.mp ⟨fuel, Option.isSome_iff_exists.mpr ⟨blocks, h⟩⟩)
  · intro h
    obtain ⟨fuel, hret⟩ := hfuel.mpr (hends.mpr h)
    obtain ⟨blocks, hblocks⟩ := Option.isSome_iff_exists.mp hret
    exact ⟨⟨fuel, blocks, hblocks⟩, fun s hs => hfine s (h s hs)⟩

end

end Ferogram.Parsers.Rich
