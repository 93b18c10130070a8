import Ferogram.Msgbox.Live

/- Where the updates that `process_updates` returns come from. Some are in the
   batch itself. The others were buffered, and the batch has filled the gap
   before them: its updates and the buffered ones lead from the counter of the
   key to them (`returned_source`). -/
namespace Ferogram.Msgbox
open Ferogram.Tl MessageBoxes StableSort

section Traced
-- `C` holds of the counters a key can come to by updates in `S`
variable {C : Int32 → Prop} {S : PtsUpdate → Prop}

/-- Seen by the key: it is queued, or at such a counter with such updates buffered. -/
def Traced (C : Int32 → Prop) (S : PtsUpdate → Prop) (v : View) : Prop :=
  v.queued = true ∨
    (∀ e, v.entry = some e → C e.pts ∧ ∀ x ∈ e.held, S x) ∧ (v.entry = none → ∀ p, C p)

/-- An update that is next at such a counter. -/
def Next (C : Int32 → Prop) (S : PtsUpdate → Prop) (x : Update) : Prop :=
  ∃ u p, u.update = x ∧ S u ∧ C p ∧ ptsOrder p u = .eq

theorem View.pts_traced (hC : ∀ p u, C p → S u → ptsOrder p u = .eq → C (ptsAfter u)) {v : View}
    (hv : Traced C S v) (now deadline : Instant) {u : PtsUpdate} (hu : S u) :
    Traced C S (v.pts now deadline u) ∧
    ∃ l, (v.pts now deadline u).out = v.out ++ l ∧ ∀ x ∈ l, x = u.update ∨ Next C S x := by
  unfold View.pts
  split
  · next hq => exact ⟨Or.inl hq, [u.update], rfl, by simp⟩
  · next hq =>
    obtain ⟨hsome, hnone⟩ := hv.resolve_left hq
    -- the entry that is there, or the one the update creates
    obtain ⟨e, he, hpts, hheld⟩ : ∃ e,
        v.entry.getD (freshEntry u.info.key (u.info.pts - u.info.count) deadline) = e ∧
        C e.pts ∧ ∀ x ∈ e.held, S x := by
      cases hentry : v.entry with
      | none => exact ⟨_, rfl, hnone hentry _, fun x hx => by cases hx⟩
      | some e => exact ⟨e, rfl, hsome e hentry⟩
    obtain ⟨hbuf, hout⟩ := feed_buffer e now deadline u
    have hfrom : ∀ x, x = u ∨ x ∈ e.held → S x := by
      rintro x (rfl | hx)
      · exact hu
      · exact hheld x hx
    have hlinked : Reorder.Linked ptsOrder ptsAfter e.pts (feedBuffer e.buffer u).2
        (feedBuffer e.buffer u).1.pos := Reorder.feed_linked e.buffer u
    obtain ⟨hend, hall⟩ := hlinked.reached hC hpts
      (fun x hx => hfrom x (@feed_mem e now deadline u x (Or.inl hx)))
    rw [← hbuf] at hend
    dsimp only
    rw [he]
    refine ⟨Or.inr ⟨fun e' he' => ?_, fun h => by cases h⟩, _, congrArg (v.out ++ ·) hout,
      fun x hx => ?_⟩
    · cases he'
      exact ⟨hend, fun x hx => hfrom x (feed_mem (Or.inr hx))⟩
    · obtain ⟨y, hy, rfl⟩ := List.mem_map.mp hx
      obtain ⟨p, hp, hord⟩ := hall y hy
      exact Or.inr ⟨y, p, rfl, hfrom y (@feed_mem e now deadline u y (Or.inl hy)), hp, hord⟩

/-- An `updateChannelTooLong` queues the channel, if there is an entry for it. -/
theorem View.tooLong_traced {v : View} (hv : Traced C S v) (key : Key) (deadline : Instant)
    (pts : Option Int32) : Traced C S (v.tooLong key deadline pts) := by
  unfold View.tooLong View.tryBegin Traced
  dsimp only
  rcases hv with hq | hv
  · exact Or.inl (by simp [hq])
  · cases pts with
    | some pts => exact Or.inl (by simp)
    | none =>
      cases he : v.entry with
      | some e => exact Or.inl (by simp)
      | none =>
        right
        rw [Option.map_none, Option.none_or]
        refine ⟨fun e he' => ?_, fun _ => hv.2 he⟩
        split at he' <;> cases he'

/-- Over the updates of a batch. -/
theorem View.run_traced (hC : ∀ p u, C p → S u → ptsOrder p u = .eq → C (ptsAfter u)) {key : Key}
    {now : Instant} (us : List Update) : ∀ {v : View}, Traced C S v →
    (∀ u ∈ us, belongsTo key u = true) → (∀ u : PtsUpdate, u.update ∈ us → S u) →
    ∀ x ∈ (v.run key now us).out, x ∈ v.out ∨ x ∈ us ∨ Next C S x := by
  induction us with
  | nil => exact fun _ _ _ x hx => Or.inl hx
  | cons u us ih =>
    intro v hv hbel hS x hx
    have hbel' : ∀ y ∈ us, belongsTo key y = true := fun y hy => hbel y (List.mem_cons_of_mem u hy)
    have hS' : ∀ y : PtsUpdate, y.update ∈ us → S y := fun y hy => hS y (List.mem_cons_of_mem u hy)
    change x ∈ (View.run key now (v.update key now (nextUpdatesDeadline now) u) us).out at hx
    rcases update_cases u with ⟨id, pts, rfl⟩ | ⟨ht, hnone⟩ | ⟨p, rfl, ht⟩
    · have htraced := View.tooLong_traced hv key (nextUpdatesDeadline now) pts
      rcases ih htraced hbel' hS' x hx with h | h | h
      · exact Or.inl h
      · exact Or.inr (Or.inl (List.mem_cons_of_mem _ h))
      · exact Or.inr (Or.inr h)
    · have hown := hbel u (by simp)
      simp [belongsTo, updateKey_plain ht hnone] at hown
    · rw [View.update_pts key v now _ ht] at hx
      obtain ⟨htraced, l, hl, hall⟩ := View.pts_traced hC hv now (nextUpdatesDeadline now)
        (hS p (by simp))
      rcases ih htraced hbel' hS' x hx with h | h | h
      · rw [hl] at h
        rcases List.mem_append.mp h with h | h
        · exact Or.inl h
        · rcases hall x h with rfl | h
          · exact Or.inr (Or.inl (by simp))
          · exact Or.inr (Or.inr h)
      · exact Or.inr (Or.inl (List.mem_cons_of_mem _ h))
      · exact Or.inr (Or.inr h)

end Traced

/-- The batch gets past the check of its `seq`. -/
def Accepted (s : MessageBoxes) (b : UpdatesLike) : Prop :=
  ∃ c, adapt b = .ok c ∧ (c.seqStart = NO_SEQ ∨ c.seqStart = s.seq + 1)

/-- The batch fills the gap before the buffered update `u`: together with what is
buffered, its updates lead from the counter of the key to `u`. -/
structure FillsGap (s : MessageBoxes) (b : UpdatesLike) (u : PtsUpdate) : Prop where
  unqueued : u.info.key ∉ s.gettingDiffFor
  concerned : ∃ x ∈ b.contents, belongsTo u.info.key x = true
  leads : ∃ e l, s.entry u.info.key = some e ∧ u ∈ e.held ∧
    (∀ x ∈ l, x.update ∈ b.contents ∨ x ∈ e.held) ∧
    Reorder.Linked ptsOrder ptsAfter e.pts (l ++ [u]) u.info.pts

theorem accepted_of_returned {s : MessageBoxes} {now : Instant} {b : UpdatesLike} {x : Update}
    (hx : x ∈ approved (s.processUpdates now b).1) :
    ∃ c, adapt b = .ok c ∧ (c.seqStart = NO_SEQ ∨ c.seqStart = s.seq + 1) ∧
      x ∈ (s.processAll now c.updates).result := by
  unfold processUpdates at hx
  cases hb : adapt b with
  | error g =>
    rw [hb] at hx
    cases hx
  | ok c =>
    rw [hb] at hx
    dsimp only at hx
    split at hx
    · cases hx
    · next hlt =>
      split at hx
      · cases hx
      · next hgt =>
        refine ⟨c, rfl, ?_, hx⟩
        by_cases hz : c.seqStart = NO_SEQ
        · exact Or.inl hz
        · right
          have h1 : ¬ c.seqStart < s.seq + 1 := fun h => hlt ⟨hz, h⟩
          have h2 : ¬ s.seq + 1 < c.seqStart := fun h => hgt ⟨hz, h⟩
          rw [Int32.not_lt] at h1 h2
          exact Int32.le_antisymm h2 h1

/-- What comes out for one key is among its updates in the batch, or it was
buffered and they lead to it. -/
theorem View.run_source {s : MessageBoxes} {key : Key} {now : Instant} {us : List Update}
    (hbel : ∀ u ∈ us, belongsTo key u = true) {x : Update}
    (hx : x ∈ ((s.view key []).run key now us).out) :
    x ∈ us ∨ key ∉ s.gettingDiffFor ∧ ∃ e l u, s.entry key = some e ∧ u ∈ e.held ∧ u.update = x ∧
      (∀ y ∈ l, y.update ∈ us ∨ y ∈ e.held) ∧
      Reorder.Linked ptsOrder ptsAfter e.pts (l ++ [u]) u.info.pts := by
  by_cases hq : key ∈ s.gettingDiffFor
  · -- nothing leaves the buffer of a queued key
    have htraced : Traced (fun _ => False) (fun u => u.update ∈ us) (s.view key []) :=
      Or.inl (by simpa [MessageBoxes.view] using hq)
    rcases View.run_traced (fun _ _ hp => hp.elim) us htraced hbel (fun _ hu => hu) x hx with
      hnil | hown | ⟨u, p, -, -, hp, -⟩
    · cases hnil
    · exact Or.inl hown
    · exact hp.elim
  · cases he : s.entry key with
    | none =>
      have htraced : Traced (fun _ => True) (fun u => u.update ∈ us) (s.view key []) := by
        refine Or.inr ⟨fun e hv => ?_, fun _ _ => trivial⟩
        rw [show s.entry key = some e from hv] at he
        cases he
      rcases View.run_traced (fun _ _ _ _ _ => trivial) us htraced hbel (fun _ hu => hu) x hx with
        hnil | hown | ⟨u, p, rfl, hown, -⟩
      · cases hnil
      · exact Or.inl hown
      · exact Or.inl hown
    | some e =>
      -- the updates at hand, and the counters they lead to
      let S : PtsUpdate → Prop := fun u => u.update ∈ us ∨ u ∈ e.held
      let C : Int32 → Prop := fun p =>
        ∃ l, (∀ y ∈ l, S y) ∧ Reorder.Linked ptsOrder ptsAfter e.pts l p
      have hC : ∀ p u, C p → S u → ptsOrder p u = .eq → C (ptsAfter u) := by
        rintro p u ⟨l, hl, hlinked⟩ hu hp
        refine ⟨l ++ [u], fun y hy => ?_, hlinked.append ⟨hp, rfl⟩⟩
        rcases List.mem_append.mp hy with hy | hy
        · exact hl y hy
        · rw [List.mem_singleton] at hy
          exact hy ▸ hu
      have htraced : Traced C S (s.view key []) := by
        refine Or.inr ⟨fun e' hv => ?_, fun hv => ?_⟩
        · rw [show s.entry key = some e' from hv] at he
          cases he
          exact ⟨⟨[], by simp, rfl⟩, fun y hy => Or.inr hy⟩
        · rw [show s.entry key = none from hv] at he
          cases he
      rcases View.run_traced hC us htraced hbel (fun _ hu => Or.inl hu) x hx with
        hnil | hown | ⟨u, p, rfl, hu | hu, ⟨l, hl, hlinked⟩, hp⟩
      · cases hnil
      · exact Or.inl hown
      · exact Or.inl hu
      · exact Or.inr ⟨hq, e, l, u, rfl, hu, rfl, hl, hlinked.append ⟨hp, rfl⟩⟩

/-- What a call returns is in the batch, or buffered behind a gap the batch fills. -/
theorem returned_source {s : MessageBoxes} (h : Sound s) {now : Instant} {b : UpdatesLike}
    {x : Update} (hx : x ∈ approved (s.processUpdates now b).1) :
    Accepted s b ∧ (x ∈ b.contents ∨ ∃ u, u.update = x ∧ FillsGap s b u) := by
  obtain ⟨c, hb, hseq, hres⟩ := accepted_of_returned hx
  refine ⟨⟨c, hb, hseq⟩, ?_⟩
  have hcontents : b.contents = c.updates := by simp [UpdatesLike.contents, hb]
  cases hkey : updateKey x with
  | none =>
    have hin : x ∈ (s.processAll now c.updates).result.filter plain :=
      List.mem_filter.mpr ⟨hres, by simp [plain, hkey]⟩
    rw [processAll_plain h, List.mem_filter, mem_sortByKey] at hin
    exact Or.inl (hcontents ▸ hin.1)
  | some key =>
    let us := sortByKey updateSortKey (c.updates.filter (belongsTo key))
    have hmem : ∀ y, y ∈ us ↔ y ∈ b.contents ∧ belongsTo key y = true := by
      intro y
      rw [mem_sortByKey, List.mem_filter, hcontents]
    have hin : x ∈ ((s.view key []).run key now us).out := by
      rw [← processAll_view h now c.updates key]
      exact List.mem_filter.mpr ⟨hres, by simp [belongsTo, hkey]⟩
    rcases View.run_source (fun y hy => ((hmem y).mp hy).2) hin with
      hown | ⟨hq, e, l, u, he, hu, rfl, hl, hlinked⟩
    · exact Or.inl ((hmem x).mp hown).1
    · right
      have hord := h.rep.sorted.ordered
      obtain rfl : u.info.key = key := (h.keyed.entry hord he u hu).trans (entry_key hord he)
      -- a batch without an update of the key returns none for it
      obtain ⟨y, hy⟩ : ∃ y, y ∈ us := by
        refine List.exists_mem_of_ne_nil us (fun hnil => ?_)
        rw [hnil] at hin
        cases hin
      refine ⟨u, rfl, hq, ⟨y, (hmem y).mp hy⟩, e, l, he, hu, fun z hz => ?_, hlinked⟩
      rcases hl z hz with hz | hz
      · exact Or.inl ((hmem _).mp hz).1
      · exact Or.inr hz

end Ferogram.Msgbox
