import Ferogram.Parsers.HtmlBackends

/- Where the condition `Forest.Apart` is exact. In a forest without links to users that have
   no number and without `<code>` in code blocks, each open tag puts one entity of length 0
   into the sink's list and each close tag gives a length to one at most, so that a close tag
   which finds one that has a length already leaves another without (`zeros_feed`). A link and a
   mention have the same close tag, and a mention that was passed over because something
   was made inside it is never found again (`stuck_feed`). The built-in parser makes no entity
   of length 0, so the two differ. -/
namespace Ferogram.Parsers
open TagStack Forest

/-- No link to a user without a number, and no `<code>` inside a code block. -/
def Forest.Plain (inside : Bool) : Forest → Prop
  | .nil => True
  | .leaf _ rest => rest.Plain inside
  | .element e inner rest =>
    e.tag.variant? ≠ none ∧ (e.tag = .code → inside = false) ∧ inner.Plain (inside || e.tag = .pre) ∧ rest.Plain inside

/-- Links and mentions have the same close tag. -/
def Variant.group : Variant → Variant
  | .mentionName => .textUrl
  | v => v

/-- The entities of a group that have no length. -/
def zeros (v : Variant) (es : List MessageEntity) : Nat := es.countP fun x => x.length = 0 ∧ x.variant.group = v

theorem zeros_append (v : Variant) (a b : List MessageEntity) : zeros v (a ++ b) = zeros v a + zeros v b :=
  List.countP_append

theorem zeros_cons (v : Variant) (x : MessageEntity) (b : List MessageEntity) :
    zeros v (x :: b) = (if x.length = 0 ∧ x.variant.group = v then 1 else 0) + zeros v b := by
  rw [zeros, List.countP_cons, Nat.add_comm]
  simp [zeros]

theorem zeros_singleton (v : Variant) (x : MessageEntity) :
    zeros v [x] = if x.length = 0 ∧ x.variant.group = v then 1 else 0 := zeros_cons v x []

theorem zeros_eq_zero {v : Variant} {es : List MessageEntity} (h : ∀ x ∈ es, x.length ≠ 0) : zeros v es = 0 := by
  apply List.countP_eq_zero.mpr
  intro x hx
  simp [h x hx]

namespace Sink

variable {s : Sink}

/-! One tag. -/

theorem link_variant {url : List Char} {w : Variant} (h : (HtmlTag.link url).variant? = some w) :
    w = .mentionName ∨ w = .textUrl := by
  unfold HtmlTag.variant? HtmlTag.kind? HtmlEntry.kind? at h
  dsimp only at h
  split at h
  · next id _ =>
    cases hid : parseI64 id with
    | none =>
      rw [hid] at h
      cases h
    | some uid =>
      rw [hid] at h
      exact Or.inl (Option.some.inj h).symm
  · exact Or.inr (Option.some.inj h).symm

theorem finds_group {tag : HtmlTag} {marks : List Mark} {v w : Variant} (h : finds tag marks = some v)
    (htag : tag.variant? = some w) : v.group = w.group := by
  have hpresent : ∀ {w : Variant}, (if w ∈ marks.map Prod.fst then some w else none) = some v → w = v := by
    intro w hw
    split at hw
    · exact Option.some.inj hw
    · cases hw
  cases tag with
  | link url =>
    have hgroup : w.group = .textUrl := by
      rcases link_variant htag with rfl | rfl <;> rfl
    rw [hgroup]
    unfold finds at h
    dsimp only at h
    split at h
    · exact Option.some.inj h ▸ rfl
    · exact hpresent h ▸ rfl
  | code =>
    unfold finds at h
    dsimp only at h
    split at h
    · cases h
    · rw [← hpresent h, ← Option.some.inj htag]
      rfl
  | codeInPre => cases htag
  | unknown => cases htag
  | _ =>
    have hw := hpresent h
    rw [← hw, ← Option.some.inj htag]

/-- A close tag does nothing, or it closes the last entity of a constructor. -/
theorem close_cases (s : Sink) (tag : HtmlTag) : s.closeElement tag = s ∨ ∃ u z b, s.entities = u ++ z :: b ∧
    finds tag s.marks = some z.variant ∧ (∀ y ∈ b, y.variant ≠ z.variant) ∧
    s.closeElement tag = { s with entities := u ++ (endAt s.offset z).toList ++ b } := by
  cases h : finds tag s.marks with
  | none => exact Or.inl (closeElement_none h)
  | some v =>
    rcases exists_last (fun x : MessageEntity => decide (x.variant = v)) s.entities with hnone | ⟨u, z, b, hs, hz, hb⟩
    · refine Or.inl ?_
      rw [closeElement_eq, h]
      dsimp only
      rw [closeEnt, updateLast_of_none hnone]
    · obtain rfl : z.variant = v := of_decide_eq_true hz
      have hother : ∀ y ∈ b, y.variant ≠ z.variant := fun y hy => of_decide_eq_false (hb y hy)
      exact Or.inr ⟨u, z, b, hs, rfl, hother, closeElement_own hs h hother⟩

theorem zeros_push (s : Sink) (kind : EntityKind) (v : Variant) :
    zeros v (s.push kind).entities = zeros v s.entities + if kind.variant.group = v then 1 else 0 := by
  rw [push, zeros_append, zeros_singleton]
  simp [MessageEntity.variant]

theorem zeros_setLanguage (h : s.inPre = true) (language : List Char) (v : Variant) :
    zeros v (s.setLanguage language).entities = zeros v s.entities := by
  unfold inPre at h
  rcases List.eq_nil_or_concat s.entities with hs | ⟨us, x, hs⟩
  · rw [hs] at h
    cases h
  · rw [List.concat_eq_append] at hs
    rw [hs, List.getLast?_concat] at h
    have hx : x.variant = .pre ∧ x.length = 0 := of_decide_eq_true h
    rw [setLanguage, hs, List.dropLast_concat, List.getLast?_concat, zeros_append, zeros_append]
    congr 1
    rw [zeros_singleton, hx.1]
    exact zeros_singleton v _

/-- An open tag adds an entity without a length; but `<code>` may name the language of a code block. -/
theorem zeros_open (s : Sink) (attrs : List (List Char × List Char)) {tag : HtmlTag} {w : Variant}
    (htag : tag.variant? = some w) {v : Variant} (h : tag = .code → v ≠ .code ∨ s.inPre = false) :
    zeros v s.entities + (if w.group = v then 1 else 0) ≤ zeros v (s.openElement attrs tag).entities := by
  by_cases hcode : tag = .code
  · rw [hcode] at htag
    obtain rfl := Option.some.inj htag
    rw [openElement, if_pos hcode]
    by_cases hpre : s.inPre = true
    · have hv : ¬ EntityKind.code.variant.group = v := fun heq => ((h hcode).resolve_right (by simp [hpre])) heq.symm
      rw [if_pos hpre, if_neg hv, zeros_setLanguage hpre]
      exact Nat.le_refl _
    · rw [if_neg hpre]
      exact Nat.le_of_eq (zeros_push s .code v).symm
  · rw [HtmlTag.variant?] at htag
    obtain ⟨kind, hkind, rfl⟩ := Option.map_eq_some_iff.mp htag
    rw [openElement, if_neg hcode, hkind]
    exact Nat.le_of_eq (zeros_push s kind v).symm

/-- A close tag gives a length to one entity at most. -/
theorem zeros_close (s : Sink) {tag : HtmlTag} {w : Variant} (htag : tag.variant? = some w) (v : Variant) :
    zeros v s.entities ≤ zeros v (s.closeElement tag).entities + if w.group = v then 1 else 0 := by
  rcases close_cases s tag with h | ⟨u, z, b, hs, hfinds, -, h⟩
  · rw [h]
    exact Nat.le_add_right _ _
  · rw [h, hs, zeros_append, zeros_cons, zeros_append, zeros_append, finds_group hfinds htag]
    have hone : (if z.length = 0 ∧ w.group = v then 1 else 0) ≤ if w.group = v then 1 else 0 := by
      split
      · next hz => rw [if_pos hz.2]
      · exact Nat.zero_le _
    omega

/-- When there is one less, the tag has found an entity without a length. -/
theorem zeros_close_lt {tag : HtmlTag} {v : Variant}
    (hlt : zeros v (s.closeElement tag).entities < zeros v s.entities) : ∃ u z b, s.entities = u ++ z :: b ∧
    finds tag s.marks = some z.variant ∧ (∀ y ∈ b, y.variant ≠ z.variant) ∧ z.length = 0 ∧
    s.closeElement tag = { s with entities := u ++ (endAt s.offset z).toList ++ b } := by
  rcases close_cases s tag with h | ⟨u, z, b, hs, hfinds, hb, h⟩
  · rw [h] at hlt
    exact absurd hlt (Nat.lt_irrefl _)
  · refine ⟨u, z, b, hs, hfinds, hb, ?_, h⟩
    by_contra hz
    have hold : zeros v s.entities = zeros v u + zeros v b := by
      rw [hs, zeros_append, zeros_cons, if_neg fun hzero => hz hzero.1, Nat.zero_add]
    have hnew : zeros v u + zeros v b ≤ zeros v (s.closeElement tag).entities := by
      rw [h, zeros_append, zeros_append]
      omega
    omega

/-! Whole forests. -/

/-- What every tag and every text keeps, a forest keeps; `room` is the text that is still to come. -/
theorem feed_induction {P : Sink → Nat → Prop}
    (htext : ∀ (s : Sink) (text : List Char) (room : Nat), P s (utf16Len text + room) → P (s.pushText text) room)
    (hopen : ∀ (s : Sink) (e : Element) (room : Nat), P s room → P (s.openElement e.attrs e.tag) room)
    (hclose : ∀ (s : Sink) (e : Element) (room : Nat), P s room → P (s.closeElement e.tag) room) :
    ∀ (f : Forest) (s : Sink) (room : Nat), P s (utf16Len f.text + room) → P (s.feed f.tokens) room
  | .nil, s, room, h => by
    have hroom : utf16Len Forest.nil.text + room = room := Nat.zero_add room
    exact hroom ▸ h
  | .leaf l rest, s, room, h => by
    rw [Forest.text, utf16Len_append, Nat.add_assoc] at h
    have hrest := feed_induction htext hopen hclose rest (s.pushText l.text) room (htext s l.text _ h)
    rwa [← l.processToken] at hrest
  | .element e inner rest, s, room, h => by
    rw [Forest.text, utf16Len_append, Nat.add_assoc] at h
    have hinner := feed_induction htext hopen hclose inner _ _ (hopen s e _ h)
    rw [feed_element]
    exact feed_induction htext hopen hclose rest _ _ (hclose _ e _ hinner)

/-- The offsets and lengths are where the text is, and the text that is still to come fits. -/
structure Timely (s : Sink) (room : Nat) : Prop where
  start : 0 ≤ s.offset.toInt
  room : s.offset.toInt + room < 2 ^ 31
  spans : ∀ x ∈ s.entities, 0 ≤ x.offset.toInt ∧ 0 ≤ x.length.toInt ∧ x.offset.toInt + x.length.toInt ≤ s.offset.toInt

theorem toInt_sub_of_le {a b : Int32} (hb : 0 ≤ b.toInt) (hle : b.toInt ≤ a.toInt) : (a - b).toInt = a.toInt - b.toInt := by
  have ha := Int32.toInt_lt a
  rw [Int32.toInt_sub]
  apply Int.bmod_eq_of_le
  · omega
  · omega

/-- An entity that ends is not shorter than before. -/
theorem endAt_span {room : Nat} (h : Timely s room) {x y : MessageEntity} (hx : x ∈ s.entities)
    (hy : endAt s.offset x = some y) : y.offset = x.offset ∧ x.length.toInt ≤ y.length.toInt ∧
      y.offset.toInt + y.length.toInt = s.offset.toInt := by
  obtain ⟨hoff, hlen, hle⟩ := h.spans x hx
  have hsub : (s.offset - x.offset).toInt = s.offset.toInt - x.offset.toInt := toInt_sub_of_le hoff (by omega)
  unfold endAt at hy
  split at hy
  · cases hy
  · obtain rfl := Option.some.inj hy
    refine ⟨rfl, ?_, ?_⟩ <;> dsimp only <;> omega

/-- An entity with a length is not removed. -/
theorem endAt_some {room : Nat} (h : Timely s room) {x : MessageEntity} (hx : x ∈ s.entities)
    (hpos : 0 < x.length.toInt) : ∃ y, endAt s.offset x = some y := by
  obtain ⟨hoff, -, hle⟩ := h.spans x hx
  have hsub : (s.offset - x.offset).toInt = s.offset.toInt - x.offset.toInt := toInt_sub_of_le hoff (by omega)
  refine ⟨_, if_neg ?_⟩
  intro hzero
  rw [hzero, Int32.toInt_zero] at hsub
  omega

theorem Timely.pushText {text : List Char} {room : Nat} (h : Timely s (utf16Len text + room)) :
    Timely (s.pushText text) room := by
  have hroom := h.room
  have hstart := h.start
  have hoff : (s.offset + Int32.ofNat (utf16Len text)).toInt = s.offset.toInt + utf16Len text := by
    rw [Int32.toInt_add, toInt_ofNat_of_fits (by omega)]
    apply Int.bmod_eq_of_le
    · omega
    · omega
  refine ⟨?_, ?_, ?_⟩
  · rw [Sink.pushText, hoff]
    omega
  · rw [Sink.pushText, hoff]
    omega
  · intro x hx
    have hspan := h.spans x hx
    rw [Sink.pushText, hoff]
    omega

theorem Timely.push {room : Nat} (h : Timely s room) (kind : EntityKind) : Timely (s.push kind) room := by
  refine ⟨h.start, h.room, ?_⟩
  intro x hx
  rcases List.mem_append.mp hx with hx | hx
  · exact h.spans x hx
  · obtain rfl := List.mem_singleton.mp hx
    have hzero : (0 : Int32).toInt = 0 := Int32.toInt_zero
    refine ⟨h.start, Int.le_of_eq hzero.symm, ?_⟩
    dsimp only [Sink.push]
    omega

theorem Timely.setLanguage {room : Nat} (h : Timely s room) (language : List Char) :
    Timely (s.setLanguage language) room := by
  refine ⟨h.start, h.room, ?_⟩
  intro x hx
  rcases List.mem_append.mp hx with hx | hx
  · exact h.spans x (List.dropLast_subset _ hx)
  · cases hlast : s.entities.getLast? with
    | none =>
      rw [hlast] at hx
      cases hx
    | some z =>
      rw [hlast] at hx
      obtain rfl := List.mem_singleton.mp hx
      exact h.spans z (List.mem_of_getLast? hlast)

theorem Timely.openElement {room : Nat} (h : Timely s room) (attrs : List (List Char × List Char))
    (tag : HtmlTag) : Timely (s.openElement attrs tag) room := by
  unfold Sink.openElement
  split
  · split
    · exact h.setLanguage _
    · exact h.push _
  · split
    · exact h.push _
    · exact h

theorem Timely.closeElement {room : Nat} (h : Timely s room) (tag : HtmlTag) :
    Timely (s.closeElement tag) room := by
  rcases close_cases s tag with heq | ⟨u, z, b, hs, -, -, heq⟩
  · rwa [heq]
  · rw [heq]
    refine ⟨h.start, h.room, ?_⟩
    intro x hx
    have hz : z ∈ s.entities := by simp [hs]
    rcases List.mem_append.mp hx with hx | hx
    · rcases List.mem_append.mp hx with hx | hx
      · exact h.spans x (by simp [hs, hx])
      · have hend : endAt s.offset z = some x := Option.mem_toList.mp hx
        obtain ⟨hoff, hle, hstop⟩ := endAt_span h hz hend
        have hspan := h.spans z hz
        rw [hoff] at hstop ⊢
        refine ⟨hspan.1, ?_, ?_⟩
        · omega
        · exact Int.le_of_eq hstop
    · exact h.spans x (by simp [hs, hx])

theorem Timely.feed (f : Forest) {room : Nat} (h : Timely s (utf16Len f.text + room)) :
    Timely (s.feed f.tokens) room :=
  feed_induction (P := Timely) (fun _ _ _ => Timely.pushText) (fun _ e _ h => h.openElement e.attrs e.tag)
    (fun _ e _ h => h.closeElement e.tag) f s room h

/-- A mention without a length, and behind it an entity that has one. -/
def Stuck (es : List MessageEntity) : Prop :=
  ∃ u x v, es = u ++ x :: v ∧ x.length = 0 ∧ x.variant = .mentionName ∧ ∃ y ∈ v, 0 < y.length.toInt

theorem Stuck.push (h : Stuck s.entities) (kind : EntityKind) : Stuck (s.push kind).entities := by
  obtain ⟨u, x, v, hs, hzero, hx, y, hy, hpos⟩ := h
  refine ⟨u, x, v ++ [⟨s.offset, 0, kind⟩], ?_, hzero, hx, y, List.mem_append_left _ hy, hpos⟩
  rw [Sink.push, hs, List.append_assoc, List.cons_append]

/-- The code block whose language is set is the last entity and has no length. -/
theorem Stuck.setLanguage (h : Stuck s.entities) (hpre : s.inPre = true) (language : List Char) :
    Stuck (s.setLanguage language).entities := by
  obtain ⟨u, x, v, hs, hzero, hx, y, hy, hpos⟩ := h
  rcases List.eq_nil_or_concat v with hv | ⟨v', z, hv⟩
  · rw [hv] at hy
    cases hy
  · rw [List.concat_eq_append] at hv
    have hsplit : s.entities = (u ++ x :: v') ++ [z] := by rw [hs, hv, List.append_assoc, List.cons_append]
    unfold inPre at hpre
    rw [hsplit, List.getLast?_concat] at hpre
    have hlast : z.variant = .pre ∧ z.length = 0 := of_decide_eq_true hpre
    have hmem : y ∈ v' := by
      rw [hv] at hy
      rcases List.mem_append.mp hy with hy | hy
      · exact hy
      · rw [List.mem_singleton.mp hy, hlast.2, Int32.toInt_zero] at hpos
        exact absurd hpos (Int.lt_irrefl 0)
    refine ⟨u, x, v' ++ [{ z with kind := .pre language }], ?_, hzero, hx, y, List.mem_append_left _ hmem, hpos⟩
    rw [Sink.setLanguage, hsplit, List.dropLast_concat, List.getLast?_concat, List.append_assoc, List.cons_append]
    rfl

theorem Stuck.openElement (h : Stuck s.entities) (attrs : List (List Char × List Char)) (tag : HtmlTag) :
    Stuck (s.openElement attrs tag).entities := by
  unfold Sink.openElement
  split
  · split
    · next hpre => exact h.setLanguage hpre _
    · exact h.push _
  · split
    · exact h.push _
    · exact h

/-- Only the last entity is closed as a mention. -/
theorem finds_mention {tag : HtmlTag} {marks : List Mark} (h : finds tag marks = some .mentionName) :
    marks.getLast?.any (fun m => m.1 = .mentionName) = true := by
  have hpresent : ∀ {v : Variant}, (if v ∈ marks.map Prod.fst then some v else none) = some .mentionName →
      v = .mentionName := by
    intro v hv
    split at hv
    · exact Option.some.inj hv
    · cases hv
  cases tag with
  | link url =>
    unfold finds at h
    dsimp only at h
    split at h
    · assumption
    · cases hpresent h
  | code =>
    unfold finds at h
    dsimp only at h
    split at h
    · cases h
    · cases hpresent h
  | codeInPre => cases h
  | unknown => cases h
  | _ => cases hpresent h

theorem mention_last {tag : HtmlTag} {a b : List MessageEntity} {z : MessageEntity} (hs : s.entities = a ++ z :: b)
    (hfinds : finds tag s.marks = some z.variant) (hb : ∀ y ∈ b, y.variant ≠ z.variant) (hz : z.variant = .mentionName) :
    b = [] := by
  rcases List.eq_nil_or_concat b with hnil | ⟨b', w, hconcat⟩
  · exact hnil
  · rw [List.concat_eq_append] at hconcat
    have hw := finds_mention (hfinds.trans (congrArg some hz))
    rw [getLast?_marks, hs, hconcat, ← List.cons_append, ← List.append_assoc, List.getLast?_concat] at hw
    exact absurd ((of_decide_eq_true hw).trans hz.symm) (hb w (by simp [hconcat]))

theorem Stuck.closeElement {room : Nat} (htimely : Timely s room) (h : Stuck s.entities) (tag : HtmlTag) :
    Stuck (s.closeElement tag).entities := by
  rcases close_cases s tag with heq | ⟨a, z, b, hs, hfinds, hb, heq⟩
  · rwa [heq]
  · obtain ⟨u, x, v, hs', hzero, hx, y, hy, hpos⟩ := h
    have hz : z ∈ s.entities := by simp [hs]
    rw [heq]
    dsimp only
    rcases List.append_eq_append_iff.mp (hs'.symm.trans hs) with ⟨c, hu, hv⟩ | ⟨c, hu, hv⟩
    · cases c with
      | nil =>
        -- The mention itself would have to be the last entity.
        obtain ⟨rfl, rfl⟩ := List.cons.inj hv
        rw [mention_last hs hfinds hb hx] at hy
        cases hy
      | cons x' c =>
        -- The tag closes an entity behind the mention.
        obtain ⟨rfl, rfl⟩ := List.cons.inj hv
        have hlist : a ++ (endAt s.offset z).toList ++ b = u ++ x :: (c ++ (endAt s.offset z).toList ++ b) := by
          rw [hu]
          simp
        refine ⟨u, x, c ++ (endAt s.offset z).toList ++ b, hlist, hzero, hx, ?_⟩
        rcases List.mem_append.mp hy with hy | hy
        · exact ⟨y, by simp [hy], hpos⟩
        · rcases List.mem_cons.mp hy with rfl | hy
          · obtain ⟨y', hend⟩ := endAt_some htimely hz hpos
            obtain ⟨-, hle, -⟩ := endAt_span htimely hz hend
            exact ⟨y', by simp [hend], Int.lt_of_lt_of_le hpos hle⟩
          · exact ⟨y, by simp [hy], hpos⟩
    · cases c with
      | nil =>
        obtain ⟨rfl, rfl⟩ := List.cons.inj hv
        rw [mention_last hs hfinds hb hx] at hy
        cases hy
      | cons z' c =>
        -- The tag closes an entity in front of the mention.
        obtain ⟨rfl, rfl⟩ := List.cons.inj hv
        refine ⟨a ++ (endAt s.offset z).toList ++ c, x, v, ?_, hzero, hx, y, hy, hpos⟩
        simp

theorem Stuck.feed (f : Forest) {room : Nat} (htimely : Timely s (utf16Len f.text + room))
    (h : Stuck s.entities) : Stuck (s.feed f.tokens).entities :=
  (feed_induction (P := fun s room => Timely s room ∧ Stuck s.entities) (fun _ _ _ h => ⟨h.1.pushText, h.2⟩)
    (fun _ e _ h => ⟨h.1.openElement e.attrs e.tag, h.2.openElement e.attrs e.tag⟩)
    (fun _ e _ h => ⟨h.1.closeElement e.tag, h.2.closeElement h.1 e.tag⟩) f s room ⟨htimely, h⟩).2

/-- Over a forest the number of entities without a length does not go down, in any group but that of
`<code>`. -/
theorem zeros_feed_of_ne {v : Variant} (hv : v ≠ .code) : ∀ (f : Forest) {inside : Bool} {s : Sink}, f.Plain inside →
    zeros v s.entities ≤ zeros v (s.feed f.tokens).entities
  | .nil, _, _, _ => Nat.le_refl _
  | .leaf l rest, _, s, h => by
    have hrest := zeros_feed_of_ne hv rest (s := s.pushText l.text) h
    rw [← l.processToken] at hrest
    have hentities : (s.processToken l.token).entities = s.entities := by
      rw [l.processToken]
      rfl
    exact hentities ▸ hrest
  | .element e inner rest, inside, s, ⟨htag, _, hinner, hrest⟩ => by
    obtain ⟨w, hw⟩ := Option.ne_none_iff_exists'.mp htag
    have hopen := zeros_open s e.attrs hw (v := v) fun _ => Or.inl hv
    have hin := zeros_feed_of_ne hv inner (s := s.openElement e.attrs e.tag) hinner
    have hclose := zeros_close ((s.openElement e.attrs e.tag).feed inner.tokens) hw v
    have hout := zeros_feed_of_ne hv rest (s := ((s.openElement e.attrs e.tag).feed inner.tokens).closeElement e.tag) hrest
    rw [feed_element]
    omega

theorem tag_pre_of_group {tag : HtmlTag} {w : Variant} (htag : tag.variant? = some w) (h : w.group = .pre) : tag = .pre := by
  cases tag with
  | pre => rfl
  | link url =>
    have hmade : w = .mentionName ∨ w = .textUrl := link_variant htag
    rcases hmade with rfl | rfl <;> cases h
  | codeInPre => cases htag
  | unknown => cases htag
  | _ =>
    obtain rfl := Option.some.inj htag
    cases h

theorem inPre_of_zeros (h : zeros .pre s.entities = 0) : s.inPre = false := by
  cases hpre : s.inPre with
  | false => rfl
  | true =>
    unfold inPre at hpre
    obtain ⟨x, hlast, hx⟩ := (Option.any_eq_true ..).mp hpre
    have hx : x.variant = .pre ∧ x.length = 0 := of_decide_eq_true hx
    have hmem : x ∈ s.entities := List.mem_of_getLast? hlast
    have hnone := List.countP_eq_zero.mp h x hmem
    rw [hx.1] at hnone
    exact absurd (decide_eq_true ⟨hx.2, rfl⟩) hnone

/-- Nor in that of `<code>`, if in the end there is no code block without a length. -/
theorem zeros_feed (v : Variant) : ∀ (f : Forest) {inside : Bool} {s : Sink}, f.Plain inside →
    (inside = false → zeros .pre (s.feed f.tokens).entities = 0) → zeros v s.entities ≤ zeros v (s.feed f.tokens).entities
  | .nil, _, _, _, _ => Nat.le_refl _
  | .leaf l rest, _, s, h, hpre => by
    have hstep : s.feed (Forest.leaf l rest).tokens = (s.pushText l.text).feed rest.tokens := by
      rw [← l.processToken]
      rfl
    rw [hstep] at hpre ⊢
    exact zeros_feed v rest (s := s.pushText l.text) h hpre
  | .element e inner rest, inside, s, ⟨htag, hcode, hinner, hrest⟩, hpre => by
    obtain ⟨w, hw⟩ := Option.ne_none_iff_exists'.mp htag
    rw [feed_element] at hpre ⊢
    -- The code blocks first: outside of them there is never one without a length.
    have hpre₃ := zeros_feed_of_ne (v := .pre) nofun rest
      (s := ((s.openElement e.attrs e.tag).feed inner.tokens).closeElement e.tag) hrest
    have hpre₂ := zeros_close ((s.openElement e.attrs e.tag).feed inner.tokens) hw .pre
    have hpre₁ := zeros_feed_of_ne (v := .pre) nofun inner (s := s.openElement e.attrs e.tag) hinner
    have hpre₀ := zeros_open s e.attrs hw (v := .pre) fun _ => Or.inl nofun
    have hopen := zeros_open s e.attrs hw (v := v) ?_
    · have hin := zeros_feed v inner (s := s.openElement e.attrs e.tag) hinner ?_
      · have hclose := zeros_close ((s.openElement e.attrs e.tag).feed inner.tokens) hw v
        have hout := zeros_feed v rest (s := ((s.openElement e.attrs e.tag).feed inner.tokens).closeElement e.tag) hrest hpre
        omega
      · intro hinside
        obtain ⟨hinside, htag⟩ := (Bool.or_eq_false_iff).mp hinside
        have hgroup : ¬ w.group = .pre := fun h => of_decide_eq_false htag (tag_pre_of_group hw h)
        have hend := hpre hinside
        rw [if_neg hgroup] at hpre₂
        omega
    · intro htag
      have hend := hpre (hcode htag)
      refine Or.inr (inPre_of_zeros ?_)
      omega

/-! The condition from the result. -/

theorem finds_last_mention {tag : HtmlTag} {marks : List Mark} (htag : tag.variant? = some .mentionName)
    (hlast : marks.getLast?.any (fun m => m.1 = .mentionName) = true) : finds tag marks = some .mentionName := by
  cases tag with
  | link url => rw [finds, if_pos hlast]
  | codeInPre => cases htag
  | unknown => cases htag
  | _ => cases htag

theorem eq_of_group {v w : Variant} (h : v.group = w.group) (hv : v ≠ .mentionName) (hw : w ≠ .mentionName) : v = w := by
  have hself : ∀ {v : Variant}, v ≠ .mentionName → v.group = v := by
    intro v hv
    cases v <;> first | rfl | exact absurd rfl hv
  rwa [hself hv, hself hw] at h

/-- In front of a close tag that finds an entity without a length, where nothing that was passed over
stays behind: the entity is the element's own. -/
theorem finds_of_zero {e : Element} {s₂ : Sink} {front ents : List MessageEntity} {x : MessageEntity} {room : Nat}
    (htag : e.tag.variant? = some x.variant) (hx : x.length = 0) (htimely : Timely s₂ room)
    (hs₂ : s₂.entities = front ++ x :: ents) (hlengths : ∀ y ∈ ents, y.length ≠ 0)
    (hlt : zeros x.variant.group (s₂.closeElement e.tag).entities < zeros x.variant.group s₂.entities)
    (hstuck : ¬ Stuck (s₂.closeElement e.tag).entities) :
    finds e.tag s₂.marks = some x.variant ∧ ∀ y ∈ ents, y.variant ≠ x.variant := by
  obtain ⟨u, z, b, hs, hfinds, hb, hzero, hclose⟩ := zeros_close_lt hlt
  rcases List.append_eq_append_iff.mp (hs₂.symm.trans hs) with ⟨c, hu, hc⟩ | ⟨c, hu, hc⟩
  · cases c with
    | nil =>
      obtain ⟨rfl, rfl⟩ := List.cons.inj hc
      exact ⟨hfinds, hb⟩
    | cons _ c =>
      -- What was made inside the element has a length.
      obtain ⟨-, rfl⟩ := List.cons.inj hc
      exact absurd hzero (hlengths z (by simp))
  · cases c with
    | nil =>
      obtain ⟨rfl, rfl⟩ := List.cons.inj hc
      exact ⟨hfinds, hb⟩
    | cons _ c =>
      -- An entity around the element: a link, where the element is a mention.
      obtain ⟨rfl, rfl⟩ := List.cons.inj hc
      exfalso
      have hne : z.variant ≠ x.variant := Ne.symm (hb x (by simp))
      have hz : z.variant ≠ .mentionName := by
        intro h
        have hnil := mention_last hs hfinds hb h
        simp at hnil
      have hmention : x.variant = .mentionName := by
        by_contra h
        exact hne (eq_of_group (finds_group hfinds htag) hz h)
      cases ents with
      | nil =>
        have hlast : s₂.marks.getLast?.any (fun m => m.1 = .mentionName) = true := by
          rw [getLast?_marks, hs₂, List.getLast?_concat]
          exact decide_eq_true hmention
        rw [finds_last_mention (hmention ▸ htag) hlast] at hfinds
        exact hz (Option.some.inj hfinds).symm
      | cons y ents =>
        refine hstuck ?_
        have hy := (htimely.spans y (by simp [hs₂])).2.1
        have hpos : 0 < y.length.toInt := by
          refine Int.lt_iff_le_and_ne.mpr ⟨hy, fun h => ?_⟩
          exact hlengths y (by simp) (Int32.toInt_inj.mp h.symm)
        rw [hclose]
        refine ⟨u ++ (endAt s₂.offset z).toList ++ c, x, y :: ents, ?_, hx, hmention, y, by simp, hpos⟩
        simp

theorem width_nonneg {f : Forest} (h : utf16Len f.text < 2 ^ 31) : 0 ≤ f.width := by
  apply Int32.le_iff_toInt_le.mpr
  rw [width, toInt_ofNat_of_fits h, Int32.toInt_zero]
  exact Int.natCast_nonneg _

/-- The open tag of an element of a plain forest puts its entity into the list. -/
theorem openElement_plain {e : Element} {kind : EntityKind} (hkind : e.tag.kind? [] = some kind)
    (hcode : e.tag = .code → zeros .pre s.entities = 0) : s.openElement e.attrs e.tag = s.push kind := by
  rw [openElement]
  split
  · next h =>
    rw [h] at hkind
    rw [if_neg (by simp [inPre_of_zeros (hcode h)]), ← Option.some.inj hkind]
  · rw [hkind]

/-- An element and the rest leave no entity without a length behind: neither does what is inside,
the close tag gives one its length, and the rest leaves none; and there is no code block without
a length where the code is not in one. -/
structure CleanParts (s : Sink) (e : Element) (kind : EntityKind) (inner rest : Forest) (inside : Bool) : Prop where
  noneInner : ∀ v, zeros v ((s.push kind).feed inner.tokens).entities ≤ zeros v (s.push kind).entities
  closes : zeros kind.variant.group (((s.push kind).feed inner.tokens).closeElement e.tag).entities <
    zeros kind.variant.group ((s.push kind).feed inner.tokens).entities
  noneRest : ∀ v, zeros v ((((s.push kind).feed inner.tokens).closeElement e.tag).feed rest.tokens).entities ≤
    zeros v (((s.push kind).feed inner.tokens).closeElement e.tag).entities
  preInner : (inside || decide (e.tag = .pre)) = false → zeros .pre (s.push kind).entities = 0
  preRest : inside = false → zeros .pre (((s.push kind).feed inner.tokens).closeElement e.tag).entities = 0

/-- The open tag adds one, the close tag takes one at most, and inside and behind there come no fewer. -/
theorem cleanParts {e : Element} {kind : EntityKind} {inner rest : Forest} {inside : Bool}
    (htag : e.tag.variant? = some kind.variant) (hinner : inner.Plain (inside || e.tag = .pre)) (hrest : rest.Plain inside)
    (hzero : inside = false → zeros .pre s.entities = 0)
    (hclean : ∀ v, zeros v ((((s.push kind).feed inner.tokens).closeElement e.tag).feed rest.tokens).entities ≤
      zeros v s.entities) : CleanParts s e kind inner rest inside := by
  have hpush : ∀ v, zeros v (s.push kind).entities = zeros v s.entities + if kind.variant.group = v then 1 else 0 :=
    zeros_push s kind
  have hclose := zeros_close ((s.push kind).feed inner.tokens) htag
  have hend : inside = false →
      zeros .pre ((((s.push kind).feed inner.tokens).closeElement e.tag).feed rest.tokens).entities = 0 :=
    fun h => Nat.le_zero.mp ((hclean .pre).trans (Nat.le_of_eq (hzero h)))
  have hout : ∀ v, _ ≤ _ := fun v => zeros_feed v rest hrest hend
  have hpre : (inside || decide (e.tag = .pre)) = false →
      zeros .pre (s.push kind).entities = 0 ∧ zeros .pre ((s.push kind).feed inner.tokens).entities = 0 := by
    intro h
    obtain ⟨hinside, hnot⟩ := Bool.or_eq_false_iff.mp h
    have hgroup : ¬ kind.variant.group = .pre := fun h => of_decide_eq_false hnot (tag_pre_of_group htag h)
    have h₀ := hpush .pre
    have h₂ := hclose .pre
    have h₃ := hout .pre
    have h₄ := hend hinside
    rw [if_neg hgroup] at h₀ h₂
    exact ⟨h₀.trans (hzero hinside), by omega⟩
  have hin : ∀ v, zeros v (s.push kind).entities ≤ zeros v ((s.push kind).feed inner.tokens).entities :=
    fun v => zeros_feed v inner hinner fun h => (hpre h).2
  refine ⟨?_, ?_, ?_, fun h => (hpre h).1, ?_⟩
  · intro v
    have h₀ := hpush v
    have h₂ := hclose v
    have h₃ := hout v
    have h₄ := hclean v
    omega
  · have h₀ := hpush kind.variant.group
    have h₁ := hin kind.variant.group
    have h₃ := hout kind.variant.group
    have h₄ := hclean kind.variant.group
    rw [if_pos rfl] at h₀
    omega
  · intro v
    have h₀ := hpush v
    have h₁ := hin v
    have h₂ := hclose v
    have h₄ := hclean v
    omega
  · intro h
    have h₃ := hout .pre
    have h₄ := hend h
    omega

/-- The searches of an element find what they should, if the close tag finds the element's own entity. -/
theorem finds_of_found {s s₂ : Sink} {e : Element} {inner : Forest} {pre : Option Int32} {before : List Mark}
    {base later : List MessageEntity} {language : Option (List Char)} {kind : EntityKind}
    (hat : At s pre before base language later) (hown : ¬ (e.tag = .code ∧ pre.isSome = true))
    (hcode : e.tag = .code → zeros .pre s.entities = 0) (hkind : kindOf pre.isSome e inner = some kind)
    (hs₂ : s₂.entities = base ++ frame pre language ++ later ++ ⟨s.offset, 0, kind⟩ :: inner.entities (e.tag = .pre) s.offset)
    (hfound : finds e.tag s₂.marks = some kind.variant)
    (hother : ∀ y ∈ inner.entities (e.tag = .pre) s.offset, y.variant ≠ kind.variant) :
    Finds pre.isSome false before e (inner.made (e.tag = .pre)) := by
  have hvariantOf : variantOf pre.isSome e = some kind.variant := by
    rw [← variantOf_eq pre.isSome e inner, hkind]
    rfl
  refine ⟨?_, ?_, ?_⟩
  · intro h
    have hoff : pre.isSome = false := Bool.eq_false_iff.mpr fun h' => hown ⟨h, h'⟩
    refine ⟨⟨?_, fun h' => absurd h' (by simp [hoff])⟩, Or.inr rfl⟩
    intro hlast
    rw [← hat.marks] at hlast
    have hin := (inPre_iff s).mpr hlast
    rw [inPre_of_zeros (hcode h)] at hin
    cases hin
  · rw [← marks_inside hat hkind hs₂, hfound, hvariantOf]
  · intro v hv hmem
    obtain rfl : kind.variant = v := Option.some.inj (hvariantOf.symm.trans hv)
    have hmark : ended kind.variant ∈ (inner.entities (e.tag = .pre) s.offset).map MessageEntity.mark := by
      rw [mark_entities]
      exact List.mem_map_of_mem hmem
    obtain ⟨y, hy, hyv⟩ := List.mem_map.mp hmark
    exact hother y hy (congrArg Prod.fst hyv)

/-- If a forest leaves no entity without a length behind, its searches find what they should. -/
theorem apart_of_clean : ∀ (f : Forest) {s : Sink} {pre : Option Int32} {before : List Mark} {base later : List MessageEntity}
    {language : Option (List Char)} {inside : Bool} {room : Nat}, f.Plain inside → (pre.isSome = true → inside = true) →
    At s pre before base language later → (inside = false → zeros .pre s.entities = 0) → Timely s (utf16Len f.text + room) →
    (∀ v, zeros v (s.feed f.tokens).entities ≤ zeros v s.entities) → ¬ Stuck (s.feed f.tokens).entities →
    f.Apart pre.isSome false before
  | .nil, _, _, _, _, _, _, _, _, _, _, _, _, _, _, _ => trivial
  | .leaf l rest, s, pre, before, base, later, language, inside, room, hplain, hpre, hat, hzero, htimely, hclean, hstuck => by
    have hstep : s.feed (Forest.leaf l rest).tokens = (s.pushText l.text).feed rest.tokens := by
      rw [← l.processToken]
      rfl
    rw [hstep] at hclean hstuck
    rw [Forest.text, utf16Len_append, Nat.add_assoc] at htimely
    exact apart_of_clean rest (s := s.pushText l.text) hplain hpre ⟨hat.entities, hat.marks, hat.later⟩ hzero
      htimely.pushText hclean hstuck
  | .element e inner rest, s, pre, before, base, later, language, inside, room, ⟨htag, hcode, hinner, hrest⟩, hpre, hat, hzero,
      htimely, hclean, hstuck => by
    obtain ⟨w, hw⟩ := Option.ne_none_iff_exists'.mp htag
    obtain ⟨kind, hkind, rfl⟩ := Option.map_eq_some_iff.mp hw
    have hown : ¬ (e.tag = .code ∧ pre.isSome = true) := by
      intro h
      have hinside := hpre h.2
      rw [hcode h.1] at hinside
      cases hinside
    have hzeroCode : e.tag = .code → zeros .pre s.entities = 0 := fun h => hzero (hcode h)
    obtain ⟨pre₁, base₁, kind', hpre₁, hat₁, hkind', hinside⟩ := at_push hat inner hown hkind
    have hvariant : kind'.variant = kind.variant := by
      have hof := variantOf_eq pre.isSome e inner
      rw [hkind', variantOf, if_neg hown, hw] at hof
      exact Option.some.inj hof
    rw [feed_element, openElement_plain hkind hzeroCode] at hclean hstuck
    rw [Forest.text, utf16Len_append, Nat.add_assoc] at htimely
    have htimely₁ := htimely.push kind
    have htimely₂ := htimely₁.feed inner
    have htimely₃ := htimely₂.closeElement e.tag
    have hparts := cleanParts hw hinner hrest hzero hclean
    have hclosed : ¬ Stuck (((s.push kind).feed inner.tokens).closeElement e.tag).entities :=
      fun h => hstuck (Stuck.feed rest htimely₃ h)
    -- The inside.
    have hapart₁ : inner.Apart pre₁.isSome false (before ++ ((variantOf pre.isSome e).map Forest.opened).toList) := by
      refine apart_of_clean inner hinner ?_ hat₁ hparts.preInner htimely₁ hparts.noneInner ?_
      · intro h
        rw [← hpre₁, h, Bool.or_true]
      · exact fun h => hclosed (h.closeElement htimely₂ e.tag)
    have hread : Reads (s.push kind) inner pre₁ base₁ none [] := feed_forest inner hapart₁ hat₁
    have hs₂ : ((s.push kind).feed inner.tokens).entities =
        base ++ frame pre language ++ later ++ ⟨s.offset, 0, kind'⟩ :: inner.entities (e.tag = .pre) s.offset := by
      rw [hread, hpre₁]
      exact hinside _
    -- The close tag.
    have hcloses := hparts.closes
    rw [← hvariant] at hcloses
    obtain ⟨hfound, hother⟩ := finds_of_zero (x := ⟨s.offset, 0, kind'⟩) (hw.trans (congrArg some hvariant.symm)) rfl
      htimely₂ hs₂ (length_ne_zero_of_mark (mark_entities inner _ s.offset)) hcloses hclosed
    have hfinds := finds_of_found hat hown hzeroCode hkind' hs₂ hfound hother
    have hwidth : 0 ≤ inner.width := by
      have hroom := htimely.room
      have hstart := htimely.start
      exact width_nonneg (by omega)
    have hoff₂ : ((s.push kind).feed inner.tokens).offset = s.offset + inner.width := by
      rw [hread]
      rfl
    have hs₃ := close_pushed hat hkind' hfinds hoff₂ hs₂
    refine ⟨hwidth, hfinds, ?_, ?_⟩
    · have hmarked : (false || (pre.isSome && decide (e.tag = .code))) = false := by
        rw [Bool.false_or, Bool.and_eq_false_iff]
        by_cases h : e.tag = .code
        · exact Or.inl (Bool.eq_false_iff.mpr fun h' => hown ⟨h, h'⟩)
        · exact Or.inr (decide_eq_false h)
      rw [hmarked, ← hpre₁]
      exact hapart₁
    · exact apart_of_clean rest hrest hpre (at_after hat rfl (congrArg Sink.entities hs₃)) hparts.preRest htimely₃
        hparts.noneRest hstuck

end Sink

/-! The built-in parser makes no entity without a length. -/

namespace HtmlState

theorem openElement_ents (s : HtmlState) (attrs : List (List Char × List Char)) (tag : HtmlTag) :
    (s.openElement attrs tag).ents = s.ents := by
  unfold openElement openCode
  split
  · split
    · split <;> rfl
    · rfl
  · rfl

theorem closeEntry_lengths {s : HtmlState} (h : ∀ x ∈ s.ents, x.length ≠ 0) (name : List Char) :
    ∀ x ∈ (s.closeEntry name).ents, x.length ≠ 0 := by
  unfold closeEntry
  split
  · exact h
  · next entry stack _ =>
    intro x hx
    rcases List.mem_append.mp hx with hx | hx
    · exact h x hx
    · split at hx
      · next hpos =>
        obtain ⟨kind, -, rfl⟩ := Option.map_eq_some_iff.mp (Option.mem_toList.mp hx)
        exact (Int32.lt_iff_le_and_ne.mp hpos).2.symm
      · cases hx

theorem closeTag_lengths {s : HtmlState} (h : ∀ x ∈ s.ents, x.length ≠ 0) (name : List Char) :
    ∀ x ∈ (s.closeTag name).ents, x.length ≠ 0 := by
  unfold closeTag
  split
  · split
    · exact h
    · exact closeEntry_lengths h name
  · exact closeEntry_lengths h name

theorem feed_lengths : ∀ (f : Forest) {s : HtmlState}, (∀ x ∈ s.ents, x.length ≠ 0) →
    ∀ x ∈ (s.feed f.tokens).ents, x.length ≠ 0
  | .nil, _, h => h
  | .leaf l rest, s, h => by
    have hrest := feed_lengths rest (s := s.pushText l.text) h
    rwa [← l.readToken] at hrest
  | .element e inner rest, s, h => by
    have hinner := feed_lengths inner (s := s.openElement e.attrs e.tag) (by rwa [openElement_ents])
    rw [feed_element]
    exact feed_lengths rest (closeTag_lengths hinner e.name)

end HtmlState

theorem apart_of_same {tokenize : List Char → List Token} {html : List Char} {f : Forest} (hspells : Spells html f.tokens)
    (htokens : tokenize html = f.tokens) (hplain : f.Plain false) (hlen : utf16Len f.text < 2 ^ 31)
    (h : SameResult tokenize html) : f.Apart false false [] := by
  obtain ⟨text, ents, hbuiltin, -, hperm⟩ := h
  rw [parseHtml_spells hspells] at hbuiltin
  obtain rfl : (HtmlState.init.feed f.tokens).ents = ents := congrArg Prod.snd (Option.some.inj hbuiltin)
  rw [parseHtml5ever, htokens] at hperm
  have hbuiltin : ∀ x ∈ (HtmlState.init.feed f.tokens).ents, x.length ≠ 0 :=
    HtmlState.feed_lengths f fun _ h => absurd h List.not_mem_nil
  have hlengths : ∀ x ∈ (Sink.init.feed f.tokens).entities, x.length ≠ 0 := fun x hx => hbuiltin x (hperm.mem_iff.mp hx)
  have htimely : Sink.Timely .init (utf16Len f.text + 0) := by
    have hzero : Sink.init.offset.toInt = 0 := Int32.toInt_zero
    exact ⟨by omega, by omega, fun _ h => absurd h List.not_mem_nil⟩
  have hat : Sink.At .init none [] [] none [] := ⟨rfl, rfl, fun _ h => absurd h List.not_mem_nil⟩
  refine Sink.apart_of_clean f hplain ?_ hat (fun _ => rfl) htimely ?_ ?_
  · intro h
    cases h
  · intro v
    exact Nat.le_of_eq (zeros_eq_zero hlengths)
  · rintro ⟨u, x, v, hs, hzero, -, -⟩
    exact hlengths x (by simp [hs]) hzero

/-- On a forest whose searches find what they should the two backends agree; and on no other of
the plain ones. -/
theorem html_backends_agree {tokenize : List Char → List Token} {html : List Char} {f : Forest}
    (hspells : Spells html f.tokens) (htokens : tokenize html = f.tokens) :
    (f.Apart false false [] → SameResult tokenize html) ∧
    (f.Plain false → utf16Len f.text < 2 ^ 31 → SameResult tokenize html → f.Apart false false []) :=
  ⟨same_of_apart hspells htokens, apart_of_same hspells htokens⟩

/-! Style tags without attributes. -/

theorem Spells.openTag (name : List Char) {html : List Char} {tokens : List Token} (h : Spells html tokens)
    (hread : '>' ∉ name ∧ name.head? ≠ some '/' ∧ parseTag (trim name) = some (name, []) := by decide) :
    Spells ('<' :: (name ++ '>' :: html)) (.startTag name [] :: tokens) := .startTag hread.1 hread.2.1 hread.2.2 h

theorem Spells.closeTag (name : List Char) {html : List Char} {tokens : List Token} (h : Spells html tokens)
    (hread : '>' ∉ name ∧ parseTag (trim name) = some (name, []) := by decide) :
    Spells ('<' :: ('/' :: name ++ '>' :: html)) (.endTag name :: tokens) := .endTag hread.1 hread.2 h

theorem Spells.char (c : Char) {html : List Char} {tokens : List Token} (h : Spells ('<' :: html) tokens)
    (hread : '<' ∉ [c] ∧ decodeHtmlEntities [c] = [c] := by decide) :
    Spells ([c] ++ '<' :: html) (.characters [c] :: tokens) :=
  Spells.text (List.cons_ne_nil c []) hread.1 (Or.inr rfl) (hread.2.trans List.flatten_singleton.symm) h

def Element.bold : Element := ⟨"b".toList, [], .bold, rfl⟩
def Element.italic : Element := ⟨"i".toList, [], .italic, rfl⟩

/-- An element with a character, another element with one inside it, and some more text. -/
def Forest.nested (outer inner : Element) (after : Forest) : Forest :=
  .element outer (.leaf (.characters ['a']) (.element inner (.leaf (.characters ['b']) .nil) after)) .nil

theorem html_backends_agree_nested : (Forest.nested .bold .italic .nil).Apart false false [] ∧
    SameResult (fun _ => (Forest.nested .bold .italic .nil).tokens) "<b>a<i>b</i></b>".toList := by
  have hspells : Spells "<b>a<i>b</i></b>".toList (Forest.nested .bold .italic .nil).tokens :=
    .openTag "b".toList (.char 'a' (.openTag "i".toList (.char 'b' (.closeTag "i".toList (.closeTag "b".toList .nil)))))
  have hagree := @html_backends_agree (fun _ => (Forest.nested .bold .italic .nil).tokens) _ _ hspells rfl
  have hsame := hagree.1 (by decide)
  have hplain : (Forest.nested .bold .italic .nil).Plain false :=
    ⟨by decide, nofun, ⟨by decide, nofun, trivial, trivial⟩, trivial⟩
  exact ⟨hagree.2 hplain (by decide) hsame, hsame⟩

/-- With a bold text in a bold text, the inner end tag of the sink ends the inner one and the outer
end tag ends it again; the outer one keeps the length 0. -/
theorem html_backends_differ : ¬ ∀ (tokenize : List Char → List Token) (html : List Char) (f : Forest),
    Spells html f.tokens → tokenize html = f.tokens → SameResult tokenize html := by
  intro h
  have hspells : Spells "<b>a<b>b</b>c</b>".toList
      (Forest.nested .bold .bold (.leaf (.characters ['c']) .nil)).tokens :=
    .openTag "b".toList (.char 'a' (.openTag "b".toList (.char 'b' (.closeTag "b".toList (.char 'c'
      (.closeTag "b".toList .nil))))))
  obtain ⟨text, ents, hbuiltin, -, hperm⟩ := h (fun _ => _) _ _ hspells rfl
  have hents : parseHtml "<b>a<b>b</b>c</b>".toList = some ("abc".toList, [⟨1, 1, .bold⟩, ⟨0, 3, .bold⟩]) := by decide
  have hsink : (parseHtml5ever (fun _ => (Forest.nested .bold .bold (.leaf (.characters ['c']) .nil)).tokens)
      "<b>a<b>b</b>c</b>".toList).2 = [⟨0, 0, .bold⟩, ⟨1, 2, .bold⟩] := by decide
  rw [hents] at hbuiltin
  obtain ⟨-, rfl⟩ := Prod.mk.inj (Option.some.inj hbuiltin)
  rw [hsink] at hperm
  exact absurd hperm (by decide)

end Ferogram.Parsers
