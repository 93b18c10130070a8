import Ferogram.Parsers.HtmlRead

/- The text and the links that come back through HTML. The generator escapes
   character by character, the parser unescapes each stretch between two tags
   with a chain of replacements; the ampersands go first, so a stretch that
   spells one of the other entities is read once too often (`decode_escape`).
   Tags never change the text (`Tags`), so what comes back is what the chain
   makes of the stretches, one after the other (`run_stretches`). -/
namespace Ferogram.Parsers
open Replace Splice TagStack

/-! Escaping and unescaping one stretch. -/

/-- The entities that are read after `&amp;`. -/
def laterEntities : List (List Char) :=
  ["&lt;".toList, "&gt;".toList, "&quot;".toList, "&#39;".toList, "&nbsp;".toList]

/-- A stretch that spells none of them. -/
def Clean (u : List Char) : Prop := ∀ w ∈ laterEntities, ¬ w <:+: u

instance (u : List Char) : Decidable (Clean u) := inferInstanceAs (Decidable (∀ w ∈ laterEntities, ¬ w <:+: u))

/-- What is left of a stretch that was escaped and unescaped. -/
def unescaped (u : List Char) : List Char :=
  replaceAll "&nbsp;".toList ['\u00A0'] (replaceAll "&#39;".toList ['\''] (replaceAll "&quot;".toList ['"']
    (replaceAll "&gt;".toList ['>'] (replaceAll "&lt;".toList ['<'] u))))

/-- Escapes some of the characters only. -/
def escapeOnly (chars : List Char) (c : Char) : List Char := if c ∈ chars then escapeChar c else [c]

theorem escapeOnly_of_mem {chars : List Char} {c : Char} (h : c ∈ chars) : escapeOnly chars c = escapeChar c := if_pos h

theorem escapeOnly_of_not_mem {chars : List Char} {c : Char} (h : c ∉ chars) : escapeOnly chars c = [c] := if_neg h

/-- Two words that differ behind the ampersand. -/
theorem written_word {c x y : Char} {w v : List Char} (h : escapeChar c = '&' :: y :: v) (hamp : '&' ∉ y :: v)
    (hxy : x ≠ y) : Written '&' (x :: w) c (escapeChar c) := by
  refine Or.inr ⟨y :: v, h, hamp, ?_⟩
  intro r hpre
  exact hxy (List.cons_prefix_cons.mp hpre).1

theorem written_gt {x : Char} {w : List Char} (h : x ≠ 'g') : Written '&' (x :: w) '>' (escapeChar '>') :=
  written_word (show escapeChar '>' = '&' :: 'g' :: "t;".toList by decide) (by decide) h

theorem written_quot {x : Char} {w : List Char} (h : x ≠ 'q') : Written '&' (x :: w) '"' (escapeChar '"') :=
  written_word (show escapeChar '"' = '&' :: 'q' :: "uot;".toList by decide) (by decide) h

theorem written_lt {x : Char} {w : List Char} (h : x ≠ 'l') : Written '&' (x :: w) '<' (escapeChar '<') :=
  written_word (show escapeChar '<' = '&' :: 'l' :: "t;".toList by decide) (by decide) h

theorem written_escapeOnly {chars w : List Char} {c : Char} (h : c ∈ chars → Written '&' w c (escapeChar c)) :
    Written '&' w c (escapeOnly chars c) := by
  by_cases hc : c ∈ chars
  · rw [escapeOnly_of_mem hc]
    exact h hc
  · exact Or.inl (escapeOnly_of_not_mem hc)

theorem escapeChar_eq_escapeOnly : escapeChar = escapeOnly ['&', '<', '>', '"'] := by
  funext c
  by_cases hc : c ∈ ['&', '<', '>', '"']
  · rw [escapeOnly_of_mem hc]
  · rw [escapeOnly_of_not_mem hc]
    simp only [List.mem_cons, List.not_mem_nil, or_false, not_or] at hc
    simp [escapeChar, hc.1, hc.2.1, hc.2.2.1, hc.2.2.2]

theorem escapeOnly_cons_of_ne {a c : Char} (h : c ≠ a) (later : List Char) :
    escapeOnly (a :: later) c = escapeOnly later c := by
  simp [escapeOnly, h]

/-- A pass takes its own entity back and leaves escaped what the later ones are for. -/
theorem replaceAll_escapeOnly {a : Char} {w later : List Char} (hamp : '&' ∉ w) (ha : escapeChar a = '&' :: w)
    (hnot : a ∉ later) (hself : ('&' :: w).all (fun c => !(a :: later).contains c) = true)
    (hlater : ∀ c ∈ later, Written '&' w c (escapeChar c)) (u : List Char) :
    replaceAll ('&' :: w) [a] (u.flatMap (escapeOnly (a :: later))) =
      (replaceAll ('&' :: w) [a] u).flatMap (escapeOnly later) := by
  have hword : escapeOnly (a :: later) a = '&' :: w := by rw [escapeOnly_of_mem List.mem_cons_self, ha]
  have hother : ∀ c ∈ '&' :: w, c ∉ a :: later := by
    intro c hc hmem
    have hnone := List.all_eq_true.mp hself c hc
    rw [List.contains_iff_mem.mpr hmem] at hnone
    cases hnone
  apply replaceAll_flatMap hamp hword (escapeOnly_of_not_mem hnot)
  · exact fun c hc => escapeOnly_cons_of_ne hc later
  · intro c hc
    rw [escapeOnly_cons_of_ne hc]
    exact written_escapeOnly (hlater c)
  · calc ('&' :: w).flatMap (escapeOnly (a :: later))
        = ('&' :: w).flatMap (fun c => [c]) := List.flatMap_congr fun c hc => escapeOnly_of_not_mem (hother c hc)
      _ = '&' :: w := List.flatMap_singleton' _

theorem decode_escape (u : List Char) : decodeHtmlEntities (u.flatMap escapeChar) = unescaped u := by
  have hamp : replaceAll "&amp;".toList ['&'] (u.flatMap escapeChar) = u.flatMap (escapeOnly ['<', '>', '"']) := by
    show replaceAll ('&' :: 'a' :: "mp;".toList) ['&'] (u.flatMap escapeChar) = _
    rw [escapeChar_eq_escapeOnly]
    apply replaceAll_amp (by decide) (by decide)
    · exact fun c hc => escapeOnly_cons_of_ne hc _
    · intro c hc
      rw [escapeOnly_cons_of_ne hc]
      apply written_escapeOnly
      intro hmem
      simp only [List.mem_cons, List.not_mem_nil, or_false] at hmem
      obtain rfl | rfl | rfl := hmem
      · exact written_lt (by decide)
      · exact written_gt (by decide)
      · exact written_quot (by decide)
  have hlt : ∀ u : List Char, replaceAll "&lt;".toList ['<'] (u.flatMap (escapeOnly ['<', '>', '"'])) =
      (replaceAll "&lt;".toList ['<'] u).flatMap (escapeOnly ['>', '"']) := by
    refine replaceAll_escapeOnly (w := 'l' :: "t;".toList) (by decide) (by decide) (by decide) rfl ?_
    intro c hmem
    simp only [List.mem_cons, List.not_mem_nil, or_false] at hmem
    obtain rfl | rfl := hmem
    · exact written_gt (by decide)
    · exact written_quot (by decide)
  have hgt : ∀ u : List Char, replaceAll "&gt;".toList ['>'] (u.flatMap (escapeOnly ['>', '"'])) =
      (replaceAll "&gt;".toList ['>'] u).flatMap (escapeOnly ['"']) := by
    refine replaceAll_escapeOnly (w := 'g' :: "t;".toList) (by decide) (by decide) (by decide) rfl ?_
    intro c hmem
    rw [List.mem_singleton.mp hmem]
    exact written_quot (by decide)
  have hquot : ∀ u : List Char, replaceAll "&quot;".toList ['"'] (u.flatMap (escapeOnly ['"'])) =
      replaceAll "&quot;".toList ['"'] u := by
    intro u
    have hlast : replaceAll "&quot;".toList ['"'] (u.flatMap (escapeOnly ['"'])) =
        (replaceAll "&quot;".toList ['"'] u).flatMap (escapeOnly []) :=
      replaceAll_escapeOnly (w := 'q' :: "uot;".toList) (by decide) (by decide) (by decide) rfl
        (fun c hc => absurd hc List.not_mem_nil) u
    rw [hlast]
    exact List.flatMap_singleton' _
  unfold decodeHtmlEntities unescaped
  rw [hamp, hlt, hgt, hquot]

theorem unescaped_of_clean {u : List Char} (h : Clean u) : unescaped u = u := by
  unfold Clean laterEntities at h
  simp only [List.mem_cons, List.not_mem_nil, or_false, forall_eq_or_imp, forall_eq] at h
  obtain ⟨hlt, hgt, hquot, h39, hnbsp⟩ := h
  unfold unescaped
  rw [replaceAll_eq_self hlt, replaceAll_eq_self hgt, replaceAll_eq_self hquot,
    replaceAll_eq_self h39, replaceAll_eq_self hnbsp]

theorem utf16Len_unescaped_le (u : List Char) : utf16Len (unescaped u) ≤ utf16Len u := by
  have hone : ∀ (pat : List Char) (c : Char) (u : List Char), pat ≠ [] → lenUtf16 c ≤ utf16Len pat →
      utf16Len (replaceAll pat [c] u) ≤ utf16Len u := by
    intro pat c u hpat hle
    exact sum_replaceAll_le lenUtf16 hpat (by simpa [utf16Len] using hle) u
  unfold unescaped
  calc _ ≤ _ := hone _ _ _ (by decide) (by decide)
    _ ≤ _ := hone _ _ _ (by decide) (by decide)
    _ ≤ _ := hone _ _ _ (by decide) (by decide)
    _ ≤ _ := hone _ _ _ (by decide) (by decide)
    _ ≤ _ := hone _ _ _ (by decide) (by decide)

theorem unescaped_ne_nil {u : List Char} (h : u ≠ []) : unescaped u ≠ [] := by
  have hone : ∀ (pat : List Char) (c : Char) (u : List Char), pat ≠ [] → u ≠ [] → replaceAll pat [c] u ≠ [] :=
    fun pat c u hpat hu => replaceAll_ne_nil hpat (by simp) hu
  unfold unescaped
  apply hone _ _ _ (by decide)
  apply hone _ _ _ (by decide)
  apply hone _ _ _ (by decide)
  apply hone _ _ _ (by decide)
  exact hone _ _ _ (by decide) h

/-! The stretches between the tags. -/

/-- The pieces of the text that are written with no tag among them, `u` being what is written since
    the last tag. -/
def stretches : List Char → Int32 → List (Marker Char) → List Char → List (List Char)
  | u, _, _, [] => [u]
  | u, pos, markers, c :: cs =>
    let later := markers.dropWhile fun m => m.pos ≤ pos.toInt
    if texts (markers.takeWhile fun m => m.pos ≤ pos.toInt) = [] then
      stretches (u ++ [c]) (pos + Int32.ofNat (lenUtf16 c)) later cs
    else u :: stretches [c] (pos + Int32.ofNat (lenUtf16 c)) later cs

def textStretches (text : List Char) (ents : List MessageEntity) : List (List Char) :=
  stretches [] 0 (entityMarkers htmlTags ents) text

theorem flatten_stretches (cs u : List Char) (pos : Int32) (markers : List (Marker Char)) :
    (stretches u pos markers cs).flatten = u ++ cs := by
  induction cs generalizing u pos markers with
  | nil => simp [stretches]
  | cons c cs ih =>
    simp only [stretches]
    split
    · rw [ih, List.append_assoc]
      rfl
    · rw [List.flatten_cons, ih]
      rfl

/-- A piece of HTML that changes the parser in some way, but not the text read so far; what follows a
    stretch of text is one. -/
structure Tags (html : List Char) : Prop where
  head : html = [] ∨ html.head? = some '<'
  keeps : ∀ s : HtmlState, ∃ s' : HtmlState, s'.out = s.out ∧ ∀ rest, s.run (html ++ rest) = s'.run rest

namespace Tags

theorem nil : Tags [] := ⟨Or.inl rfl, fun s => ⟨s, rfl, fun _ => rfl⟩⟩

theorem append {a b : List Char} (ha : Tags a) (hb : Tags b) : Tags (a ++ b) := by
  constructor
  · cases a with
    | nil => exact hb.head
    | cons c a => exact Or.inr (ha.head.resolve_left (by simp))
  · intro s
    obtain ⟨s₁, hout₁, hrun₁⟩ := ha.keeps s
    obtain ⟨s₂, hout₂, hrun₂⟩ := hb.keeps s₁
    refine ⟨s₂, hout₂.trans hout₁, ?_⟩
    intro rest
    rw [List.append_assoc, hrun₁, hrun₂]

theorem append_head {a : List Char} (ha : Tags a) (hne : a ≠ []) (rest : List Char) : (a ++ rest).head? = some '<' := by
  cases a with
  | nil => exact absurd rfl hne
  | cons c a => exact ha.head.resolve_left (by simp)

theorem texts {markers : List (Marker Char)} (h : ∀ m ∈ markers, Tags m.text) : Tags (Splice.texts markers) := by
  induction markers with
  | nil => exact nil
  | cons m markers ih =>
    exact append (h m List.mem_cons_self) (ih fun m' hm' => h m' (List.mem_cons_of_mem _ hm'))

end Tags

namespace HtmlState

theorem closeTag_out (s : HtmlState) (tagName : List Char) : (s.closeTag tagName).out = s.out := by
  have hentry : (s.closeEntry tagName).out = s.out := by
    unfold closeEntry
    cases removeLast (fun entry => entry.tag.closesWith tagName) s.stack <;> rfl
  unfold closeTag
  split
  · cases removeLast (fun entry : HtmlEntry => entry.tag = .codeInPre) s.stack with
    | none => exact hentry
    | some _ => rfl
  · exact hentry

theorem closed_out (s : HtmlState) (e : MessageEntity) : (s.closed e).out = s.out := by
  unfold closed
  generalize e.kind.closeTags = ks
  induction ks generalizing s with
  | nil => rfl
  | cons k ks ih => exact (ih _).trans (closeTag_out s k.name)

theorem openCode_out (s : HtmlState) (attrs : List (List Char × List Char)) : (s.openCode attrs).out = s.out := by
  unfold openCode
  split
  · split <;> rfl
  · rfl

theorem opened_out (s : HtmlState) (e : MessageEntity) : (s.opened e).out = s.out := by
  unfold opened
  split
  · exact openCode_out s []
  · rfl

end HtmlState

theorem openText_head (e : MessageEntity) : openText htmlTags e = [] ∨ (openText htmlTags e).head? = some '<' := by
  obtain ⟨off, len, kind⟩ := e
  cases kind with
  | blockquote collapsed => cases collapsed <;> exact Or.inr rfl
  | other constructorId => exact Or.inl rfl
  | _ => exact Or.inr rfl

theorem closeText_head (e : MessageEntity) : closeText htmlTags e = [] ∨ (closeText htmlTags e).head? = some '<' := by
  obtain ⟨off, len, kind⟩ := e
  cases kind with
  | other constructorId => exact Or.inl rfl
  | _ => exact Or.inr rfl

theorem tags_entityMarkers {ents : List MessageEntity} (hlang : ∀ e ∈ ents, e.kind.LanguageOk) {m : Marker Char}
    (hm : m ∈ entityMarkers htmlTags ents) : Tags m.text := by
  obtain ⟨e, he, h | h⟩ := text_of_mem_markersOf _ _ _ (mem_order.mp hm)
  · rw [h]
    exact ⟨openText_head e, fun s => ⟨s.opened e, s.opened_out e, s.run_opening (hlang e he)⟩⟩
  · rw [h]
    exact ⟨closeText_head e, fun s => ⟨s.closed e, s.closed_out e, s.run_closing e⟩⟩

theorem not_mem_flatMap_escapeChar (u : List Char) : '<' ∉ u.flatMap escapeChar := by
  intro h
  obtain ⟨c, -, hc⟩ := List.mem_flatMap.mp h
  unfold escapeChar at hc
  split at hc
  · exact absurd hc (by decide)
  · split at hc
    · exact absurd hc (by decide)
    · split at hc
      · exact absurd hc (by decide)
      · split at hc
        · exact absurd hc (by decide)
        · exact absurd (List.mem_singleton.mp hc).symm (by assumption)

theorem escapeChar_ne_nil (c : Char) : escapeChar c ≠ [] := by
  unfold escapeChar
  repeat' split
  all_goals simp

namespace HtmlState

/-- A stretch of escaped text, up to the next tag or the end. -/
theorem run_stretch (s : HtmlState) (u : List Char) {rest : List Char} (hrest : rest = [] ∨ rest.head? = some '<') :
    s.run (u.flatMap escapeChar ++ rest) = (s.pushText (unescaped u)).run rest := by
  cases u with
  | nil =>
    have : unescaped [] = [] := rfl
    rw [this, pushText_nil]
    rfl
  | cons c u =>
    have hne : (c :: u).flatMap escapeChar ≠ [] := by
      simp [escapeChar_ne_nil]
    rw [run_text s (not_mem_flatMap_escapeChar _) hne hrest, decode_escape]

/-- The text that is read of tags and stretches. The induction carries the stretch since the last
    tag along; it ends where something is written in front of the next character. -/
theorem run_stretches (cs u : List Char) (pos : Int32) {markers : List (Marker Char)}
    (hmarkers : ∀ m ∈ markers, Tags m.text) (s : HtmlState) :
    ∃ s' : HtmlState, s.run (u.flatMap escapeChar ++ splice Int32.toInt (fun pos c => pos + Int32.ofNat (lenUtf16 c))
        (fun _ c => escapeChar c) pos markers cs) = some s' ∧
      s'.out = s.out ++ (stretches u pos markers cs).flatMap unescaped := by
  induction cs generalizing u pos markers s with
  | nil =>
    have htags := Tags.texts hmarkers
    obtain ⟨s', hout, hrun⟩ := htags.keeps (s.pushText (unescaped u))
    refine ⟨s', ?_, ?_⟩
    · have hend := hrun []
      rw [List.append_nil, run_nil] at hend
      simp only [splice]
      rw [run_stretch s u htags.head, hend]
    · rw [hout]
      simp [pushText, stretches]
  | cons c cs ih =>
    have hdue : Tags (Splice.texts (markers.takeWhile fun m => m.pos ≤ pos.toInt)) :=
      Tags.texts fun m hm => hmarkers m ((List.takeWhile_sublist _).subset hm)
    have hlater : ∀ m ∈ markers.dropWhile fun m => decide (m.pos ≤ pos.toInt), Tags m.text :=
      fun m hm => hmarkers m ((List.dropWhile_sublist _).subset hm)
    simp only [splice, stretches]
    split
    · next hnone =>
      obtain ⟨s', hrun, hout⟩ := ih (u ++ [c]) (pos + Int32.ofNat (lenUtf16 c)) hlater s
      refine ⟨s', ?_, hout⟩
      rw [hnone, List.nil_append, ← List.append_assoc]
      rw [List.flatMap_append] at hrun
      simpa using hrun
    · next hsome =>
      -- the stretch ends here: the tags, then a new one
      obtain ⟨s₁, hout₁, hrun₁⟩ := hdue.keeps (s.pushText (unescaped u))
      obtain ⟨s', hrun, hout⟩ := ih [c] (pos + Int32.ofNat (lenUtf16 c)) hlater s₁
      refine ⟨s', ?_, ?_⟩
      · have hhead := hdue.append_head hsome (escapeChar c ++ splice Int32.toInt
          (fun pos c => pos + Int32.ofNat (lenUtf16 c)) (fun _ c => escapeChar c) (pos + Int32.ofNat (lenUtf16 c))
          (markers.dropWhile fun m => m.pos ≤ pos.toInt) cs)
        rw [run_stretch s u (Or.inr hhead), hrun₁]
        simpa using hrun
      · rw [hout, hout₁]
        simp [pushText]

end HtmlState

/-- The text that comes back: what is left of each stretch, in order. -/
theorem parseHtml_text {ents : List MessageEntity} (hlang : ∀ e ∈ ents, e.kind.LanguageOk) (text : List Char) :
    ∃ es, parseHtml (generateHtml text ents) = some ((textStretches text ents).flatMap unescaped, es) := by
  obtain ⟨s, hrun, hout⟩ := HtmlState.run_stretches text [] 0 (fun m => tags_entityMarkers hlang) .init
  refine ⟨s.ents, ?_⟩
  have hloop : HtmlState.loop (generateHtml text ents).length .init (generateHtml text ents) = some s := hrun
  unfold parseHtml
  rw [hloop, Option.map_some, hout]
  rfl

/-! A link. -/

/-- A target with nothing to escape that does not name a user. -/
structure PlainUrl (url : List Char) : Prop where
  no_special : ∀ c ∈ url, c ∉ ['&', '<', '>', '"']
  no_mention : ¬ mentionPrefix <+: url

theorem escapeHtml_eq_self {s : List Char} (h : ∀ c ∈ s, c ∉ ['&', '<', '>', '"']) : escapeHtml s = s := by
  have hnone : ∀ c ∈ ['&', '<', '>', '"'], ¬ [c] <:+: s := by
    intro c hc hsub
    exact h c (hsub.subset List.mem_cons_self) hc
  unfold escapeHtml
  rw [replaceAll_eq_self (hnone '&' (by decide)), replaceAll_eq_self (hnone '<' (by decide)),
    replaceAll_eq_self (hnone '>' (by decide)), replaceAll_eq_self (hnone '"' (by decide))]

theorem kind_of_link {url : List Char} (h : PlainUrl url) (off : Int32) :
    HtmlEntry.kind? ⟨.link (escapeHtml url), off, none⟩ = some (.textUrl url) := by
  have hnone : stripPrefix mentionPrefix url = none := by
    unfold stripPrefix
    rw [if_neg]
    intro hpre
    exact h.no_mention (List.isPrefixOf_iff_prefix.mp hpre)
  simp only [HtmlEntry.kind?, escapeHtml_eq_self h.no_special, hnone]

/-- Closing the only tag on the stack, with text in it. -/
theorem HtmlState.closeTag_link {s : HtmlState} {off : Int32} {url : List Char} (hurl : PlainUrl url)
    (hstack : s.stack = [⟨.link (escapeHtml url), off, none⟩]) (hpos : 0 < s.utf16Off - off) :
    s.closeTag "a".toList = { s with stack := [], ents := s.ents ++ [⟨off, s.utf16Off - off, .textUrl url⟩] } := by
  have hremove : removeLast (fun entry : HtmlEntry => entry.tag.closesWith "a".toList) s.stack =
      some (⟨.link (escapeHtml url), off, none⟩, []) := by
    rw [hstack]
    rfl
  have hclose : s.closeTag "a".toList = s.closeEntry "a".toList := rfl
  rw [hclose]
  unfold closeEntry
  rw [hremove]
  simp only [if_pos hpos, kind_of_link hurl]
  rfl

/-- One entity: the text before it, its own between its tags, the text behind it. -/
theorem generateHtml_around {e : MessageEntity} {pre mid post : List Char} (hcov : e.Covers pre mid) (hfits : e.Fits) :
    generateHtml (pre ++ (mid ++ post)) [e] =
      pre.flatMap escapeChar ++ (openText htmlTags e ++ (mid.flatMap escapeChar ++
        (closeText htmlTags e ++ post.flatMap escapeChar))) := by
  have hpos : ∀ a : List Char, (a.foldl (fun (pos : Int32) c => pos + Int32.ofNat (lenUtf16 c)) 0).toInt =
      (Int32.ofNat (utf16Len a)).toInt := by
    intro a
    congr 1
    induction a using List.reverseRecOn with
    | nil => rfl
    | append_singleton a c ih => simp [ih, Int32.ofNat_add]
  refine (hcov.splice_around hfits hpos).trans ?_
  have hflat := splice_unmarked_eq_flatMap Int32.toInt (fun (pos : Int32) c => pos + Int32.ofNat (lenUtf16 c))
    (fun _ c => escapeChar c) (fun _ _ => rfl)
  rw [hflat, hflat, hflat]

/-- A link comes back with its target, whatever the text around it. -/
theorem parseHtml_link {e : MessageEntity} {pre mid post url : List Char} (hcov : e.Covers pre mid) (hfits : e.Fits)
    (hkind : e.kind = .textUrl url) (hurl : PlainUrl url) :
    ∃ out off len, parseHtml (generateHtml (pre ++ (mid ++ post)) [e]) = some (out, [⟨off, len, .textUrl url⟩]) := by
  obtain ⟨eoff, elen, kind⟩ := e
  obtain rfl : kind = .textUrl url := hkind
  set e : MessageEntity := ⟨eoff, elen, .textUrl url⟩
  have hlang : e.kind.LanguageOk := trivial
  let s₁ := HtmlState.init.pushText (unescaped pre)
  let s₂ := (s₁.opened e).pushText (unescaped mid)
  let s₃ := (s₂.closed e).pushText (unescaped post)
  have hrun : HtmlState.init.run (generateHtml (pre ++ (mid ++ post)) [e]) = some s₃ := by
    have hlast := HtmlState.run_stretch (s₂.closed e) post (Or.inl rfl)
    rw [List.append_nil, HtmlState.run_nil] at hlast
    rw [generateHtml_around hcov hfits, HtmlState.run_stretch _ pre (Or.inr rfl), HtmlState.run_opening _ hlang,
      HtmlState.run_stretch _ mid (Or.inr rfl), HtmlState.run_closing, hlast]
  -- the text inside the link is not empty, so the tag becomes an entity
  have hlen : s₂.utf16Off - s₁.utf16Off = Int32.ofNat (utf16Len (unescaped mid)) := by
    show s₁.utf16Off + _ - s₁.utf16Off = _
    rw [Int32.add_comm, Int32.add_sub_cancel]
  have hpos : 0 < s₂.utf16Off - s₁.utf16Off := by
    have hmid : elen.toInt = utf16Len mid := hcov.length_eq
    have hlt := elen.toInt_lt
    have hle := utf16Len_unescaped_le mid
    have hne := utf16Len_pos (unescaped_ne_nil hcov.mid_ne_nil)
    apply Int32.lt_iff_toInt_lt.mpr
    rw [hlen, toInt_ofNat_of_fits (by omega), Int32.toInt_zero]
    omega
  have hstack : s₂.stack = [⟨.link (escapeHtml url), s₁.utf16Off, none⟩] := rfl
  have hclosed : s₂.closed e = _ := HtmlState.closeTag_link hurl hstack hpos
  have hents : s₃.ents = [⟨s₁.utf16Off, s₂.utf16Off - s₁.utf16Off, .textUrl url⟩] := by
    show (s₂.closed e).ents = _
    rw [hclosed]
    rfl
  refine ⟨s₃.out, s₁.utf16Off, s₂.utf16Off - s₁.utf16Off, ?_⟩
  have hloop : HtmlState.loop _ .init (generateHtml (pre ++ (mid ++ post)) [e]) = some s₃ := hrun
  unfold parseHtml
  rw [hloop, Option.map_some, hents]

/-- The text comes back where no stretch of it spells an entity that is read after `&amp;`, and so
    does the target of a link where there is nothing to escape in it. -/
theorem html_escaping_lossless :
    (∀ (text : List Char) (ents : List MessageEntity), (∀ e ∈ ents, e.kind.LanguageOk) →
      (∀ u ∈ textStretches text ents, Clean u) → ∃ es, parseHtml (generateHtml text ents) = some (text, es)) ∧
    ∀ (text url : List Char) (e : MessageEntity), e.InText text → e.Fits → e.kind = .textUrl url → PlainUrl url →
      ∃ out off len, parseHtml (generateHtml text [e]) = some (out, [⟨off, len, .textUrl url⟩]) := by
  constructor
  · intro text ents hlang hclean
    obtain ⟨es, hparse⟩ := parseHtml_text hlang text
    refine ⟨es, ?_⟩
    have hsame : (textStretches text ents).flatMap unescaped = (textStretches text ents).flatMap id :=
      List.flatMap_congr fun u hu => unescaped_of_clean (hclean u hu)
    have htext : (textStretches text ents).flatten = text := flatten_stretches text [] 0 _
    rw [hparse, hsame, List.flatMap_id, htext]
  · intro text url e hin hfits hkind hurl
    obtain ⟨pre, mid, post, rfl, hcov⟩ := hin
    exact parseHtml_link hcov hfits hkind hurl

/-- `a&lt` in bold and `;` behind it: the tag stands inside the entity. -/
theorem html_escaping_lossless_cut :
    (∃ es, parseHtml (generateHtml "a&lt;".toList [⟨0, 4, .bold⟩]) = some ("a&lt;".toList, es)) ∧
    ∃ out off len, parseHtml (generateHtml "x<y".toList [⟨1, 1, .textUrl "b.c".toList⟩]) =
      some (out, [⟨off, len, .textUrl "b.c".toList⟩]) := by
  constructor
  · exact html_escaping_lossless.1 _ _ (by simp [EntityKind.LanguageOk]) (by decide)
  · apply html_escaping_lossless.2 "x<y".toList "b.c".toList ⟨1, 1, .textUrl "b.c".toList⟩
    · exact ⟨['x'], ['<'], ['y'], rfl, rfl, rfl, by simp⟩
    · show (1 : Int) + 1 < 2 ^ 31
      decide
    · rfl
    · exact ⟨by simp, by decide⟩

/-- A text that spells `&lt;` loses it, a target that names a user becomes a mention, and an
    ampersand in a target comes back escaped. -/
theorem html_escaping_loses :
    parseHtml (generateHtml "&lt;".toList []) = some ("<".toList, []) ∧
    parseHtml (generateHtml "x".toList [⟨0, 1, .textUrl "tg://user?id=7".toList⟩]) =
      some ("x".toList, [⟨0, 1, .mentionName 7⟩]) ∧
    parseHtml (generateHtml "x".toList [⟨0, 1, .textUrl "a&b".toList⟩]) =
      some ("x".toList, [⟨0, 1, .textUrl "a&amp;b".toList⟩]) := by
  decide

end Ferogram.Parsers
