import Ferogram.Lib.Splice
import Ferogram.Parsers.Entities

/- Entities placed in a text: not empty, inside it and on its character
   boundaries. A generator that splices their markers into the text then meets
   every marker exactly, character by character (`Placed.splice_cons`), also
   where its counter of UTF-16 units wraps: the markers are all behind it by
   then. -/
namespace Ferogram.Parsers
open Splice

structure Placed (text : List Char) (ents : List MessageEntity) : Prop where
  inText : ∀ e ∈ ents, e.InText text
  fits : ∀ e ∈ ents, e.Fits

namespace Placed

variable {text : List Char} {ents : List MessageEntity} (hp : Placed text ents)
include hp

theorem positions {e : MessageEntity} (he : e ∈ ents) :
    ∃ pre mid post, text = pre ++ (mid ++ post) ∧ e.offset.toInt = utf16Len pre ∧
      e.stop.toInt = utf16Len (pre ++ mid) ∧ e.offset.toInt < e.stop.toInt := by
  obtain ⟨pre, mid, post, htext, hcov⟩ := hp.inText e he
  have hstop := hcov.stop_toInt (hp.fits e he)
  have hmid := utf16Len_pos hcov.mid_ne_nil
  refine ⟨pre, mid, post, htext, hcov.offset_eq, hstop, ?_⟩
  rw [hcov.offset_eq, hstop, utf16Len_append]
  omega

theorem offset_lt_stop {e : MessageEntity} (he : e ∈ ents) : e.offset.toInt < e.stop.toInt := by
  obtain ⟨_, _, _, _, _, _, hlt⟩ := hp.positions he
  exact hlt

theorem offset_nonneg {e : MessageEntity} (he : e ∈ ents) : 0 ≤ e.offset.toInt := by
  obtain ⟨pre, _, _, _, hoff, _, _⟩ := hp.positions he
  omega

theorem stop_le {e : MessageEntity} (he : e ∈ ents) : e.stop.toInt ≤ utf16Len text := by
  obtain ⟨pre, mid, post, htext, -, hstop, -⟩ := hp.positions he
  rw [hstop, htext, utf16Len_append, utf16Len_append, utf16Len_append]
  omega

/-- The length as the parsers compute it from the two ends. -/
theorem length_eq {e : MessageEntity} (he : e ∈ ents) : e.stop - e.offset = e.length ∧ 0 < e.length := by
  obtain ⟨pre, mid, post, -, hcov⟩ := hp.inText e he
  have hmid := utf16Len_pos hcov.mid_ne_nil
  constructor
  · rw [MessageEntity.stop, Int32.add_comm, Int32.add_sub_cancel]
  · apply Int32.lt_iff_toInt_lt.mpr
    rw [hcov.length_eq, Int32.toInt_zero]
    omega

/-- No entity starts or stops inside a character. -/
theorem gap {before after : List Char} {c : Char} (htext : text = before ++ c :: after) {e : MessageEntity}
    (he : e ∈ ents) :
    ((utf16Len before : Int) < e.offset.toInt → (utf16Len before : Int) + lenUtf16 c ≤ e.offset.toInt) ∧
      ((utf16Len before : Int) < e.stop.toInt → (utf16Len before : Int) + lenUtf16 c ≤ e.stop.toInt) := by
  obtain ⟨pre, mid, post, htext', hoff, hstop, -⟩ := hp.positions he
  rw [hoff, hstop]
  constructor
  · intro h
    have := boundary_gap (htext'.symm.trans htext) (by omega)
    omega
  · intro h
    have := boundary_gap (((List.append_assoc _ _ _).trans htext'.symm).trans htext) (by omega)
    omega

end Placed

/-- The markers of a list of entities, in the order they are written. -/
def entityMarkers (marks : MessageEntity → Option (List Char × List Char)) (ents : List MessageEntity) :
    List (Marker Char) :=
  order (markersOf (fun e : MessageEntity => e.offset.toInt) (fun e => e.stop.toInt) marks ents)

theorem texts_entityMarkers (marks : MessageEntity → Option (List Char × List Char)) (ents : List MessageEntity)
    (p : Int) :
    texts (markersAt p (entityMarkers marks ents)) =
      (ents.filter fun e => e.offset.toInt = p).flatMap (openText marks) ++
        (ents.filter fun e => e.stop.toInt = p).flatMap (closeText marks) :=
  texts_at_order _ _ marks p ents

theorem mem_entityMarkers {marks : MessageEntity → Option (List Char × List Char)} {ents : List MessageEntity}
    {m : Marker Char} (h : m ∈ entityMarkers marks ents) :
    ∃ e ∈ ents, m.pos = e.offset.toInt ∨ m.pos = e.stop.toInt := by
  obtain ⟨e, he, -, hm⟩ := mem_markersOf _ _ _ (mem_order.mp h)
  exact ⟨e, he, hm⟩

namespace Placed

variable {text : List Char} {ents : List MessageEntity} (hp : Placed text ents)
  {marks : MessageEntity → Option (List Char × List Char)}
include hp

theorem markersFrom_start : markersFrom (utf16Len []) (entityMarkers marks ents) = entityMarkers marks ents := by
  apply List.filter_eq_self.mpr
  intro m hm
  rw [utf16Len_nil]
  obtain ⟨e, he, h⟩ := mem_entityMarkers hm
  have h1 := hp.offset_nonneg he
  have h2 := hp.offset_lt_stop he
  exact decide_eq_true (by omega)

variable {σ : Type} {pos : σ → Int} {next : σ → Char → σ} {body : σ → Char → List Char}

/-- One character of the text: the markers at its position, then what is written for it. -/
theorem splice_cons {pre cs : List Char} {c : Char} (htext : text = pre ++ c :: cs) (s : σ)
    (hpos : pos s = (Int32.ofNat (utf16Len pre)).toInt) :
    splice pos next body s (markersFrom (utf16Len pre) (entityMarkers marks ents)) (c :: cs) =
      texts (markersAt (utf16Len pre) (entityMarkers marks ents)) ++ (body s c ++
        splice pos next body (next s c) (markersFrom (utf16Len (pre ++ [c])) (entityMarkers marks ents)) cs) := by
  have hc := lenUtf16_pos c
  have hwidth : (utf16Len (pre ++ [c]) : Int) = utf16Len pre + lenUtf16 c := by
    simp
  rw [hwidth]
  apply Splice.splice_cons (order_pairwise _) s c cs (by omega)
  · intro m hm hlt
    obtain ⟨e, he, h⟩ := mem_entityMarkers hm
    have := hp.gap htext he
    rcases h with h | h <;> omega
  · intro m hm hle
    obtain ⟨e, he, h⟩ := mem_entityMarkers hm
    have h1 := e.offset.toInt_lt
    have h2 := e.stop.toInt_lt
    -- a marker still to come is in the range of the counter, so the position is
    have hfits : utf16Len pre < 2 ^ 31 := by
      rcases h with h | h <;> omega
    rw [hpos, toInt_ofNat_of_fits hfits]

/-- Behind the last character. -/
theorem splice_nil (s : σ) :
    splice pos next body s (markersFrom (utf16Len text) (entityMarkers marks ents)) [] =
      texts (markersAt (utf16Len text) (entityMarkers marks ents)) := by
  simp only [splice]
  congr 1
  apply markersFrom_eq_markersAt
  intro m hm
  obtain ⟨e, he, h⟩ := mem_entityMarkers hm
  have h1 := hp.offset_lt_stop he
  have h2 := hp.stop_le he
  rcases h with h | h <;> omega

variable (marks body)

/-- Characters with no marker in front of any of them. -/
theorem splice_stretch {s : σ} (hpos : ∀ a, pos (a.foldl next s) = (Int32.ofNat (utf16Len a)).toInt)
    (rest : List Char) : ∀ cs a : List Char, text = a ++ (cs ++ rest) →
      (∀ p : Int, utf16Len a ≤ p → p < utf16Len (a ++ cs) → texts (markersAt p (entityMarkers marks ents)) = []) →
      splice pos next body (a.foldl next s) (markersFrom (utf16Len a) (entityMarkers marks ents)) (cs ++ rest) =
        splice pos next body (a.foldl next s) [] cs ++ splice pos next body ((a ++ cs).foldl next s)
          (markersFrom (utf16Len (a ++ cs)) (entityMarkers marks ents)) rest := by
  intro cs
  induction cs with
  | nil =>
    intro a _ _
    simp [splice, texts]
  | cons c cs ih =>
    intro a htext hmarks
    have hc := lenUtf16_pos c
    have hsplit : a ++ c :: cs = a ++ [c] ++ cs := by simp
    have hnext : (a ++ [c]).foldl next s = next (a.foldl next s) c := by simp
    have hlen : utf16Len (a ++ [c]) = utf16Len a + lenUtf16 c := by simp
    have hle : utf16Len (a ++ [c]) ≤ utf16Len (a ++ c :: cs) := by
      rw [hsplit, utf16Len_append (a ++ [c])]
      omega
    have hrest := ih (a ++ [c]) (by rw [htext]; simp) (fun p h1 h2 => hmarks p (by omega) (by rw [hsplit]; exact h2))
    rw [hnext, ← hsplit] at hrest
    rw [List.cons_append, hp.splice_cons (by rw [htext]; rfl) _ (hpos a), hmarks _ le_rfl (by omega), hrest,
      splice_unmarked_cons, List.nil_append, List.append_assoc (body _ c)]

/-- The same where markers stand in front of the first. -/
theorem splice_marked_stretch {s : σ} (hpos : ∀ a, pos (a.foldl next s) = (Int32.ofNat (utf16Len a)).toInt)
    {cs a rest : List Char} (htext : text = a ++ (cs ++ rest)) (hne : cs ≠ [])
    (hmarks : ∀ p : Int, utf16Len a < p → p < utf16Len (a ++ cs) →
      texts (markersAt p (entityMarkers marks ents)) = []) :
    splice pos next body (a.foldl next s) (markersFrom (utf16Len a) (entityMarkers marks ents)) (cs ++ rest) =
      texts (markersAt (utf16Len a) (entityMarkers marks ents)) ++ (splice pos next body (a.foldl next s) [] cs ++
        splice pos next body ((a ++ cs).foldl next s)
          (markersFrom (utf16Len (a ++ cs)) (entityMarkers marks ents)) rest) := by
  obtain ⟨c, cs, rfl⟩ := List.exists_cons_of_ne_nil hne
  have hc := lenUtf16_pos c
  have hsplit : a ++ c :: cs = a ++ [c] ++ cs := by simp
  have hnext : (a ++ [c]).foldl next s = next (a.foldl next s) c := by simp
  have hlen : utf16Len (a ++ [c]) = utf16Len a + lenUtf16 c := by simp
  have hrest := hp.splice_stretch marks body hpos rest cs (a ++ [c]) (by rw [htext]; simp)
    (fun p h1 h2 => hmarks p (by omega) (by rw [hsplit]; exact h2))
  rw [hnext, ← hsplit] at hrest
  rw [List.cons_append, hp.splice_cons (by rw [htext]; rfl) _ (hpos a), hrest, splice_unmarked_cons,
    List.append_assoc (body _ c)]

end Placed

/-! One entity. -/

namespace MessageEntity.Covers

variable {e : MessageEntity} {pre mid post : List Char} {marks : MessageEntity → Option (List Char × List Char)}

theorem texts_single (e : MessageEntity) (p : Int) :
    texts (markersAt p (entityMarkers marks [e])) =
      (if e.offset.toInt = p then openText marks e else []) ++ (if e.stop.toInt = p then closeText marks e else []) := by
  rw [texts_entityMarkers]
  by_cases h1 : e.offset.toInt = p <;> by_cases h2 : e.stop.toInt = p <;> simp [h1, h2]

variable (hcov : e.Covers pre mid) (hfits : e.Fits)
include hcov hfits

theorem placed : Placed (pre ++ (mid ++ post)) [e] := by
  constructor
  · intro a ha
    rw [List.mem_singleton.mp ha]
    exact ⟨pre, mid, post, rfl, hcov⟩
  · intro a ha
    rw [List.mem_singleton.mp ha]
    exact hfits

theorem texts_outside {p : Int} (h1 : p ≠ utf16Len pre) (h2 : p ≠ utf16Len (pre ++ mid)) :
    texts (markersAt p (entityMarkers marks [e])) = [] := by
  rw [texts_single, hcov.offset_eq, hcov.stop_toInt hfits, if_neg h1.symm, if_neg h2.symm]
  rfl

theorem texts_opening : texts (markersAt (utf16Len pre) (entityMarkers marks [e])) = openText marks e := by
  have hmid := utf16Len_pos hcov.mid_ne_nil
  have hne : (utf16Len (pre ++ mid) : Int) ≠ utf16Len pre := by
    rw [utf16Len_append]
    omega
  rw [texts_single, hcov.offset_eq, hcov.stop_toInt hfits, if_pos rfl, if_neg hne, List.append_nil]

theorem texts_closing : texts (markersAt (utf16Len (pre ++ mid)) (entityMarkers marks [e])) = closeText marks e := by
  have hmid := utf16Len_pos hcov.mid_ne_nil
  have hne : (utf16Len pre : Int) ≠ utf16Len (pre ++ mid) := by
    rw [utf16Len_append]
    omega
  rw [texts_single, hcov.offset_eq, hcov.stop_toInt hfits, if_pos rfl, if_neg hne, List.nil_append]

variable {σ : Type} {pos : σ → Int} {next : σ → Char → σ} {body : σ → Char → List Char}

/-- The text before the entity, its own between its markers, the text behind it. -/
theorem splice_around {s : σ} (hpos : ∀ a, pos (a.foldl next s) = (Int32.ofNat (utf16Len a)).toInt) :
    splice pos next body s (entityMarkers marks [e]) (pre ++ (mid ++ post)) =
      splice pos next body s [] pre ++ (openText marks e ++ (splice pos next body (pre.foldl next s) [] mid ++
        (closeText marks e ++ splice pos next body ((pre ++ mid).foldl next s) [] post))) := by
  have hp : Placed (pre ++ (mid ++ post)) [e] := hcov.placed hfits
  have hmid := utf16Len_pos hcov.mid_ne_nil
  have hpm : utf16Len (pre ++ mid) = utf16Len pre + utf16Len mid := utf16Len_append pre mid
  have hbefore := hp.splice_stretch marks body hpos (mid ++ post) pre [] rfl
    (by
      intro p _ h2
      rw [List.nil_append] at h2
      exact hcov.texts_outside hfits (by omega) (by omega))
  have hown := hp.splice_marked_stretch marks body hpos rfl hcov.mid_ne_nil
    (by
      intro p h1 h2
      exact hcov.texts_outside hfits (by omega) (by omega))
  have hbehind : splice pos next body ((pre ++ mid).foldl next s)
      (markersFrom (utf16Len (pre ++ mid)) (entityMarkers marks [e])) post =
        closeText marks e ++ splice pos next body ((pre ++ mid).foldl next s) [] post := by
    by_cases hpost : post = []
    · -- the end of the text has the closing markers
      have hend : splice pos next body ((pre ++ mid).foldl next s)
          (markersFrom (utf16Len (pre ++ (mid ++ post))) (entityMarkers marks [e])) [] = _ := hp.splice_nil _
      rw [hpost, List.append_nil] at hend
      rw [hpost, hend, hcov.texts_closing hfits]
      simp [splice, texts]
    · -- so does what follows
      have hpostpos := utf16Len_pos hpost
      have hassoc : pre ++ (mid ++ post) = (pre ++ mid) ++ (post ++ []) := by simp
      have hlast := hp.splice_marked_stretch marks body hpos hassoc hpost
        (by
          intro p h1 h2
          exact hcov.texts_outside hfits (by omega) (by omega))
      have htotal : pre ++ mid ++ post = pre ++ (mid ++ post) := List.append_assoc _ _ _
      have hnone : texts (markersAt (utf16Len (pre ++ (mid ++ post))) (entityMarkers marks [e])) = [] := by
        rw [← htotal]
        apply hcov.texts_outside hfits <;> simp only [utf16Len_append] <;> omega
      rw [List.append_nil, hcov.texts_closing hfits, htotal, hp.splice_nil, hnone, List.append_nil] at hlast
      exact hlast
  rw [hp.markersFrom_start] at hbefore
  rw [List.foldl_nil, List.nil_append] at hbefore
  rw [hbefore, hown, hcov.texts_opening hfits, hbehind]

end MessageEntity.Covers

end Ferogram.Parsers
