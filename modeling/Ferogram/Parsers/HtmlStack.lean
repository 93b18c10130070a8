import Ferogram.Parsers.HtmlText

/- The parser's stack, one closing tag at a time. The open tags that one name
   closes form a stack of their own (`stackOf`), and so do the entities they turn
   into; `</code>` closes a tag only when no mark of a code block is left. What a
   run of closing tags does to each of these stacks depends on how often each
   name occurs in it, not on the order (`stackOf_closeAll`, `entsOf_closeAll`). -/
namespace Ferogram.Parsers
open TagStack

/-- The tag that closes an open one, among those the generator writes. -/
def HtmlTag.closer? : HtmlTag → Option CloseTag
  | .bold => some .b
  | .italic => some .i
  | .underline => some .u
  | .strike => some .s
  | .spoiler => some .tgSpoiler
  | .spanSpoiler => none
  | .code => some .code
  | .codeInPre => none
  | .pre => some .pre
  | .link _ => some .a
  | .customEmoji _ => some .tgEmoji
  | .blockquote _ => some .blockquote
  | .tgTime _ _ => some .tgTime
  | .unknown => none

theorem HtmlTag.closesWith_name (tag : HtmlTag) (k : CloseTag) :
    tag.closesWith k.name = decide (tag.closer? = some k) := by
  cases tag <;> cases k <;> rfl

/-- The mark of a code block's inner tag. -/
def HtmlEntry.isMark (entry : HtmlEntry) : Bool := entry.tag = .codeInPre

/-- What an entry becomes when it is closed at an offset. -/
def HtmlEntry.made (entry : HtmlEntry) (off : Int32) : Option MessageEntity :=
  if 0 < off - entry.startOff then
    entry.kind?.map fun kind => ⟨entry.startOff, off - entry.startOff, kind⟩
  else none

/-- An entity is closed by the tag its entry is closed by. -/
theorem HtmlEntry.closer_of_made {entry : HtmlEntry} {off : Int32} {e : MessageEntity} {k : CloseTag}
    (hk : entry.tag.closer? = some k) (h : entry.made off = some e) : e.kind.closer? = some k := by
  unfold made at h
  split at h
  · obtain ⟨kind, hkind, rfl⟩ := Option.map_eq_some_iff.mp h
    unfold kind? at hkind
    cases htag : entry.tag <;> rw [htag] at hk hkind <;> simp only [reduceCtorEq, Option.some.injEq] at hkind
    case link url =>
      split at hkind
      · obtain ⟨userId, -, rfl⟩ := Option.map_eq_some_iff.mp hkind
        exact hk
      · obtain rfl := Option.some.inj hkind
        exact hk
    case spanSpoiler => cases hk
    all_goals
      subst hkind
      exact hk
  · cases h

namespace HtmlState

/-- The open tags that one name closes. -/
def stackOf (s : HtmlState) (k : CloseTag) : List HtmlEntry := s.stack.filter fun entry => entry.tag.closer? = some k

/-- The entities that one name has closed. -/
def entsOf (s : HtmlState) (k : CloseTag) : List MessageEntity := s.ents.filter fun e => e.kind.closer? = some k

def marks (s : HtmlState) : Nat := s.stack.countP HtmlEntry.isMark

theorem closeEntry_of_none {s : HtmlState} {k : CloseTag} (h : s.stackOf k = []) : s.closeEntry k.name = s := by
  have hnone : removeLast (fun entry => entry.tag.closesWith k.name) s.stack = none := by
    apply removeLast_eq_none.mpr
    intro entry hentry
    rw [HtmlTag.closesWith_name]
    simpa using List.filter_eq_nil_iff.mp h entry hentry
  unfold closeEntry
  rw [hnone]

theorem closeEntry_of_some {s : HtmlState} {k : CloseTag} {entry : HtmlEntry} {stack : List HtmlEntry}
    (h : removeLast (fun entry : HtmlEntry => decide (entry.tag.closer? = some k)) s.stack = some (entry, stack)) :
    s.closeEntry k.name = { s with stack := stack, ents := s.ents ++ (entry.made s.utf16Off).toList } := by
  have hremove : removeLast (fun entry => entry.tag.closesWith k.name) s.stack = some (entry, stack) := by
    rw [← h]
    congr
    funext entry
    exact entry.tag.closesWith_name k
  unfold closeEntry HtmlEntry.made
  rw [hremove]
  by_cases hpos : 0 < s.utf16Off - entry.startOff
  · simp only [if_pos hpos]
  · simp only [if_neg hpos]
    rfl

theorem closeTag_code_of_some {s : HtmlState} {r : HtmlEntry × List HtmlEntry}
    (h : removeLast HtmlEntry.isMark s.stack = some r) : s.closeTag CloseTag.code.name = { s with stack := r.2 } := by
  have hmark : removeLast (fun entry : HtmlEntry => decide (entry.tag = .codeInPre)) s.stack = some r := h
  have hname : CloseTag.code.name = "code".toList := rfl
  unfold closeTag
  rw [if_pos hname, hmark]

theorem closeTag_code_of_none {s : HtmlState} (h : removeLast HtmlEntry.isMark s.stack = none) :
    s.closeTag CloseTag.code.name = s.closeEntry CloseTag.code.name := by
  have hmark : removeLast (fun entry : HtmlEntry => decide (entry.tag = .codeInPre)) s.stack = none := h
  have hname : CloseTag.code.name = "code".toList := rfl
  unfold closeTag
  rw [if_pos hname, hmark]

/-- What a closing tag can do: take off a mark, do nothing, or close the last open tag of its name. -/
theorem closeTag_cases (s : HtmlState) (k : CloseTag) :
    (k = .code ∧ ∃ mark stack, removeLast HtmlEntry.isMark s.stack = some (mark, stack) ∧
      s.closeTag k.name = { s with stack := stack }) ∨
    (k = .code → s.marks = 0) ∧
      ((s.stackOf k = [] ∧ s.closeTag k.name = s) ∨
        ∃ entry stack, removeLast (fun entry : HtmlEntry => decide (entry.tag.closer? = some k)) s.stack =
            some (entry, stack) ∧
          s.closeTag k.name = { s with stack := stack, ents := s.ents ++ (entry.made s.utf16Off).toList }) := by
  have hentry : (s.stackOf k = [] ∧ s.closeEntry k.name = s) ∨
      ∃ entry stack, removeLast (fun entry : HtmlEntry => decide (entry.tag.closer? = some k)) s.stack =
          some (entry, stack) ∧
        s.closeEntry k.name = { s with stack := stack, ents := s.ents ++ (entry.made s.utf16Off).toList } := by
    cases hr : removeLast (fun entry : HtmlEntry => decide (entry.tag.closer? = some k)) s.stack with
    | none =>
      have hempty : s.stackOf k = [] := List.filter_eq_nil_iff.mpr (by simpa using removeLast_eq_none.mp hr)
      exact Or.inl ⟨hempty, closeEntry_of_none hempty⟩
    | some r => exact Or.inr ⟨r.1, r.2, rfl, closeEntry_of_some hr⟩
  by_cases hk : k = .code
  · subst hk
    cases hr : removeLast HtmlEntry.isMark s.stack with
    | some r => exact Or.inl ⟨rfl, r.1, r.2, rfl, closeTag_code_of_some hr⟩
    | none =>
      rw [closeTag_code_of_none hr]
      refine Or.inr ⟨?_, hentry⟩
      intro _
      exact List.countP_eq_zero.mpr (by simpa using removeLast_eq_none.mp hr)
  · have hclose : s.closeTag k.name = s.closeEntry k.name := by
      unfold closeTag
      rw [if_neg]
      cases k <;> first | exact absurd rfl hk | decide
    rw [hclose]
    exact Or.inr ⟨fun h => absurd h hk, hentry⟩

/-! What one closing tag does to the parts. -/

/-- How many open tags of a name a run of closing tags takes off, with `m` marks on the stack. -/
def pops (j : CloseTag) (m : Nat) (ks : List CloseTag) : Nat := ks.count j - if j = .code then m else 0

theorem pops_other {j k : CloseTag} (h : j ≠ k) (m : Nat) : pops j m [k] = 0 := by
  unfold pops
  rw [List.count_eq_zero.mpr (by simp [h]), Nat.zero_sub]

theorem pops_self {k : CloseTag} {m : Nat} (h : k = .code → m = 0) : pops k m [k] = 1 := by
  unfold pops
  by_cases hk : k = .code
  · simp [h hk]
  · simp [hk]

theorem closer_of_isMark {entry : HtmlEntry} (h : entry.isMark = true) : entry.tag.closer? = none := by
  have htag : entry.tag = .codeInPre := of_decide_eq_true h
  rw [htag]
  rfl

theorem marks_closeTag (s : HtmlState) (k : CloseTag) : (s.closeTag k.name).marks = s.marks - [k].count .code := by
  rcases closeTag_cases s k with ⟨rfl, mark, stack, hr, hs⟩ | ⟨hnone, ⟨-, hs⟩ | ⟨entry, stack, hr, hs⟩⟩
  · obtain ⟨u, v, hl, rfl, hmark, -⟩ := removeLast_eq_some hr
    rw [hs]
    unfold marks
    rw [hl]
    simp [hmark]
  · rw [hs]
    by_cases hk : k = .code
    · simp [hnone hk]
    · simp [hk]
  · obtain ⟨u, v, hl, rfl, hentry, -⟩ := removeLast_eq_some hr
    have hnot : entry.isMark = false := by
      apply Bool.eq_false_iff.mpr
      intro hmark
      rw [closer_of_isMark hmark] at hentry
      cases of_decide_eq_true hentry
    have hsame : (s.closeTag k.name).marks = s.marks := by
      rw [hs]
      unfold marks
      rw [hl]
      simp [hnot]
    by_cases hk : k = .code
    · rw [hsame, hnone hk]
      simp
    · rw [hsame]
      simp [hk]

/-- The entity an entry becomes belongs to the entry's name. -/
theorem entsOf_made {entry : HtmlEntry} {k : CloseTag} (hk : entry.tag.closer? = some k) (off : Int32) (j : CloseTag) :
    (entry.made off).toList.filter (fun e => e.kind.closer? = some j) =
      if j = k then (entry.made off).toList else [] := by
  cases hmade : entry.made off with
  | none => simp
  | some e =>
    have he := HtmlEntry.closer_of_made hk hmade
    by_cases hjk : j = k
    · simp [he, hjk]
    · simp [he, hjk, Ne.symm hjk]

/-- A name's own stack and entities after one closing tag. -/
theorem parts_closeTag (s : HtmlState) (k j : CloseTag) :
    (s.closeTag k.name).stackOf j = (s.stackOf j).take ((s.stackOf j).length - pops j s.marks [k]) ∧
      (s.closeTag k.name).entsOf j = s.entsOf j ++
        ((s.stackOf j).drop ((s.stackOf j).length - pops j s.marks [k])).filterMap fun entry => entry.made s.utf16Off := by
  -- where the stack of `j` keeps its entries, nothing is taken off it
  have hkeep : pops j s.marks [k] = 0 ∨ s.stackOf j = [] → (s.closeTag k.name).stackOf j = s.stackOf j →
      (s.closeTag k.name).entsOf j = s.entsOf j →
      (s.closeTag k.name).stackOf j = (s.stackOf j).take ((s.stackOf j).length - pops j s.marks [k]) ∧
        (s.closeTag k.name).entsOf j = s.entsOf j ++
          ((s.stackOf j).drop ((s.stackOf j).length - pops j s.marks [k])).filterMap
            fun entry => entry.made s.utf16Off := by
    intro hpops hstack hents
    rcases hpops with hpops | hpops
    · simp [hstack, hents, hpops]
    · simp [hstack, hents, hpops]
  rcases closeTag_cases s k with ⟨rfl, mark, stack, hr, hs⟩ | ⟨hmarks, ⟨hnone, hs⟩ | ⟨entry, stack, hr, hs⟩⟩
  · -- a mark is taken off, which is on no name's stack
    have hmark := removeLast_filter hr
    have hpos : 0 < s.marks := by
      unfold marks
      rw [List.countP_eq_length_filter, hmark]
      simp
    apply hkeep
    · left
      unfold pops
      by_cases hj : j = .code
      · simp only [hj, List.count_cons_self, List.count_nil, if_true]
        omega
      · simp [Ne.symm hj]
    · rw [hs]
      obtain ⟨u, v, -, -, hismark, -⟩ := removeLast_eq_some hr
      exact removeLast_filter_other hr (by simp [closer_of_isMark hismark])
    · rw [hs]
      rfl
  · apply hkeep
    · by_cases hj : j = k
      · exact Or.inr (hj ▸ hnone)
      · exact Or.inl (pops_other hj _)
    · rw [hs]
    · rw [hs]
  · obtain ⟨-, -, -, -, hentry, -⟩ := removeLast_eq_some hr
    have hcloser : entry.tag.closer? = some k := of_decide_eq_true hentry
    by_cases hj : j = k
    · subst hj
      have hstack : s.stackOf j = (s.closeTag j.name).stackOf j ++ [entry] := by
        rw [hs]
        exact removeLast_filter hr
      have hents : (s.closeTag j.name).entsOf j = s.entsOf j ++ (entry.made s.utf16Off).toList := by
        rw [hs]
        unfold entsOf
        rw [List.filter_append, entsOf_made hcloser, if_pos rfl]
      rw [hents, pops_self hmarks, hstack]
      cases hmade : entry.made s.utf16Off <;> simp [hmade]
    · apply hkeep (Or.inl (pops_other hj _))
      · rw [hs]
        exact removeLast_filter_other hr (by simp [hcloser, Ne.symm hj])
      · rw [hs]
        unfold entsOf
        rw [List.filter_append, entsOf_made hcloser, if_neg hj, List.append_nil]

/-! What a run of closing tags does. -/

def closeAll (s : HtmlState) (ks : List CloseTag) : HtmlState := ks.foldl (fun s k => s.closeTag k.name) s

theorem closeTag_utf16Off (s : HtmlState) (k : CloseTag) : (s.closeTag k.name).utf16Off = s.utf16Off := by
  rcases closeTag_cases s k with ⟨-, mark, stack, -, hs⟩ | ⟨-, ⟨-, hs⟩ | ⟨entry, stack, -, hs⟩⟩ <;> rw [hs]

theorem closeAll_utf16Off (ks : List CloseTag) (s : HtmlState) : (s.closeAll ks).utf16Off = s.utf16Off := by
  induction ks generalizing s with
  | nil => rfl
  | cons k ks ih => exact (ih _).trans (closeTag_utf16Off s k)

theorem marks_closeAll (ks : List CloseTag) (s : HtmlState) : (s.closeAll ks).marks = s.marks - ks.count .code := by
  induction ks generalizing s with
  | nil => simp [closeAll]
  | cons k ks ih =>
    have hstep := marks_closeTag s k
    have hrest := ih (s.closeTag k.name)
    have hcount : (k :: ks).count .code = [k].count .code + ks.count .code := by
      rw [← List.count_append]
      rfl
    rw [hcount, Nat.sub_add_eq, ← hstep, ← hrest]
    rfl

theorem pops_cons (j k : CloseTag) (m : Nat) (ks : List CloseTag) :
    pops j m (k :: ks) = pops j m [k] + pops j (m - [k].count .code) ks := by
  have hcount : (k :: ks).count j = [k].count j + ks.count j := by
    rw [← List.count_append]
    rfl
  unfold pops
  by_cases hj : j = .code
  · subst hj
    simp only [if_true, hcount]
    omega
  · simp only [if_neg hj, hcount]
    omega

theorem parts_closeAll (j : CloseTag) (ks : List CloseTag) (s : HtmlState) :
    (s.closeAll ks).stackOf j = (s.stackOf j).take ((s.stackOf j).length - pops j s.marks ks) ∧
      ((s.closeAll ks).entsOf j).Perm (s.entsOf j ++
        ((s.stackOf j).drop ((s.stackOf j).length - pops j s.marks ks)).filterMap
          fun entry => entry.made s.utf16Off) := by
  induction ks generalizing s with
  | nil =>
    have hnone : pops j s.marks [] = 0 := by simp [pops]
    simp [closeAll, hnone]
  | cons k ks ih =>
    obtain ⟨hstack, hents⟩ := parts_closeTag s k j
    obtain ⟨hstacks, hentss⟩ := ih (s.closeTag k.name)
    rw [marks_closeTag, hstack, closeTag_utf16Off, hents] at hentss
    rw [marks_closeTag, hstack] at hstacks
    rw [pops_cons]
    generalize pops j s.marks [k] = a at *
    generalize pops j (s.marks - [k].count .code) ks = b at *
    generalize s.stackOf j = st at *
    have hlen : (st.take (st.length - a)).length = st.length - a := by simp
    rw [hlen] at hstacks hentss
    constructor
    · show ((s.closeTag k.name).closeAll ks).stackOf j = _
      rw [hstacks, List.take_take]
      congr 1
      omega
    · show (((s.closeTag k.name).closeAll ks).entsOf j).Perm _
      have hdrop : st.drop (st.length - (a + b)) =
          (st.take (st.length - a)).drop (st.length - a - b) ++ st.drop (st.length - a) := by
        calc st.drop (st.length - (a + b))
            = (st.take (st.length - a) ++ st.drop (st.length - a)).drop (st.length - a - b) := by
              rw [List.take_append_drop, Nat.sub_add_eq]
          _ = _ := List.drop_append_of_le_length (by omega)
      rw [hdrop, List.filterMap_append]
      refine hentss.trans ?_
      rw [List.append_assoc]
      exact List.Perm.append_left _ List.perm_append_comm

/-! Code blocks and their marks. -/

end HtmlState

def HtmlEntry.isPre (entry : HtmlEntry) : Bool := entry.tag = .pre

theorem HtmlEntry.isMark_of_isPre (entry : HtmlEntry) (h : entry.isPre = true) : entry.isMark = false := by
  have htag : entry.tag = .pre := of_decide_eq_true h
  simp [isMark, htag]

theorem HtmlEntry.isPre_eq (entry : HtmlEntry) : entry.isPre = decide (entry.tag.closer? = some .pre) := by
  unfold isPre
  cases entry.tag <;> rfl

namespace HtmlState

/-- The marks on the stack stand behind the code blocks they belong to. -/
def PreMarked (s : HtmlState) : Prop := MarksBehind HtmlEntry.isPre HtmlEntry.isMark s.stack

theorem countP_isPre (s : HtmlState) : s.stack.countP HtmlEntry.isPre = (s.stackOf .pre).length := by
  rw [List.countP_eq_length_filter]
  unfold stackOf
  congr 2
  funext entry
  exact entry.isPre_eq

theorem PreMarked.closeTag {s : HtmlState} (h : s.PreMarked) {k : CloseTag} (hk : k ≠ .pre) :
    (s.closeTag k.name).PreMarked := by
  rcases closeTag_cases s k with ⟨-, mark, stack, hr, hs⟩ | ⟨-, ⟨-, hs⟩ | ⟨entry, stack, hr, hs⟩⟩
  · obtain ⟨-, -, -, -, hmark, -⟩ := removeLast_eq_some hr
    rw [hs]
    apply MarksBehind.remove h hr
    rw [mark.isPre_eq, closer_of_isMark hmark]
    rfl
  · rw [hs]
    exact h
  · obtain ⟨-, -, -, -, hentry, -⟩ := removeLast_eq_some hr
    rw [hs]
    apply MarksBehind.remove h hr
    rw [entry.isPre_eq, of_decide_eq_true hentry]
    simpa using hk

/-- `</pre>` comes right after `</code>`, which has taken off a mark if there was one. -/
theorem PreMarked.closePre {s : HtmlState} (h : s.PreMarked) :
    ((s.closeTag CloseTag.code.name).closeTag CloseTag.pre.name).PreMarked := by
  have hpremarked : (s.closeTag CloseTag.code.name).PreMarked := h.closeTag (by decide)
  have hmarks := marks_closeTag s .code
  have hpres : (s.closeTag CloseTag.code.name).stackOf .pre = s.stackOf .pre := by
    rw [(parts_closeTag s .code .pre).1, pops_other (by decide)]
    simp
  have hle := h.count_le
  rw [countP_isPre, ← hpres] at hle
  have hcount := countP_isPre (s.closeTag CloseTag.code.name)
  generalize s.closeTag CloseTag.code.name = s₁ at *
  rcases closeTag_cases s₁ .pre with ⟨hne, -⟩ | ⟨-, ⟨-, hs⟩ | ⟨entry, stack, hr, hs⟩⟩
  · cases hne
  · rw [hs]
    exact hpremarked
  · rw [hs]
    have hfilter := removeLast_filter hr
    have hpos : 0 < (s₁.stackOf .pre).length := by
      unfold stackOf
      rw [hfilter]
      simp
    have hpre : (fun entry : HtmlEntry => decide (entry.tag.closer? = some .pre)) = HtmlEntry.isPre := by
      funext entry
      exact entry.isPre_eq.symm
    rw [hpre] at hr
    apply MarksBehind.remove_opener hpremarked hr
    have hm : s₁.stack.countP HtmlEntry.isMark = s.stack.countP HtmlEntry.isMark - 1 := hmarks
    rw [hcount, hm]
    omega

theorem PreMarked.closeAll {s : HtmlState} (h : s.PreMarked) {ks : List CloseTag} (hks : .pre ∉ ks) :
    (s.closeAll ks).PreMarked := by
  induction ks generalizing s with
  | nil => exact h
  | cons k ks ih =>
    simp only [List.mem_cons, not_or] at hks
    exact ih (h.closeTag (Ne.symm hks.1)) hks.2

theorem PreMarked.closed {s : HtmlState} (h : s.PreMarked) (e : MessageEntity) : (s.closed e).PreMarked := by
  unfold HtmlState.closed
  cases e.kind with
  | pre language => exact h.closePre
  | _ => exact h.closeAll (by simp [EntityKind.closeTags, EntityKind.closer?])

theorem PreMarked.closedAll {s : HtmlState} (h : s.PreMarked) (es : List MessageEntity) :
    (es.foldl HtmlState.closed s).PreMarked := by
  induction es generalizing s with
  | nil => exact h
  | cons e es ih => exact ih (h.closed e)

/-! What opening tags do. -/

theorem marksBehind_entries (off : Int32) (kind : EntityKind) :
    MarksBehind HtmlEntry.isPre HtmlEntry.isMark (kind.entries off) := by
  cases kind with
  | pre language => exact MarksBehind.pair rfl rfl
  | other constructorId =>
    apply MarksBehind.of_no_marks
    intro x hx
    cases hx
  | _ =>
    apply MarksBehind.of_no_marks
    intro x hx
    rw [List.mem_singleton.mp hx]
    rfl

theorem countP_entries (off : Int32) (kind : EntityKind) :
    (kind.entries off).countP HtmlEntry.isPre = (kind.entries off).countP HtmlEntry.isMark := by
  cases kind <;> simp [EntityKind.entries, HtmlEntry.isPre, HtmlEntry.isMark, EntityKind.htmlTag]

/-- With a mark for every code block, `<code>` is never put on the tag of one. -/
theorem opened_eq {s : HtmlState} (h : s.PreMarked) (heq : (s.stackOf .pre).length = s.marks) (e : MessageEntity) :
    s.opened e = { s with stack := s.stack ++ e.kind.entries s.utf16Off } := by
  rw [← countP_isPre] at heq
  have htop : ∀ x, s.stack.getLast? = some x → x.tag ≠ .pre := by
    intro x hx htag
    have := MarksBehind.last h heq HtmlEntry.isMark_of_isPre hx
    simp [HtmlEntry.isPre, htag] at this
  have hcode : s.openCode [] = s.pushTag .code := by
    unfold openCode
    cases hlast : s.stack.getLast? with
    | none => rfl
    | some last => simp only [if_neg (htop last hlast)]
  unfold opened
  cases e.kind with
  | code => exact hcode
  | _ => rfl

theorem openedAll_eq {s : HtmlState} (h : s.PreMarked) (heq : (s.stackOf .pre).length = s.marks)
    (es : List MessageEntity) :
    es.foldl opened s = { s with stack := s.stack ++ es.flatMap fun e => e.kind.entries s.utf16Off } := by
  induction es generalizing s with
  | nil => simp
  | cons e es ih =>
    have hmarked : PreMarked { s with stack := s.stack ++ e.kind.entries s.utf16Off } :=
      MarksBehind.append h (marksBehind_entries _ _)
    have hcount : (stackOf { s with stack := s.stack ++ e.kind.entries s.utf16Off } .pre).length =
        marks { s with stack := s.stack ++ e.kind.entries s.utf16Off } := by
      have hentries := countP_entries s.utf16Off e.kind
      rw [← countP_isPre] at heq ⊢
      unfold marks at heq ⊢
      simp only [List.countP_append]
      omega
    rw [List.foldl_cons, opened_eq h heq, ih hmarked hcount]
    simp

end HtmlState

end Ferogram.Parsers
