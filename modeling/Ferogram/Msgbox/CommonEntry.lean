import Ferogram.Msgbox.Invariant

/- When `get_difference` can rely on its `expect`. It asks for the entry of
   `Key::Common` as soon as either account key is queued, but `load` and
   `check_deadlines` queue `Key::Secondary` on its own. Nothing else can go wrong:
   no change of the box deletes the common entry, and none queues a key without
   an entry or the key `secondary` (`Move.keys`). So a run is free of the panic
   exactly when the snapshot it starts from and each of its `check_deadlines`
   bring `secondary` only together with a common entry
   (`getDifference_total_iff`).

   Snapshots are arbitrary here, with repeated channel ids too, so the entries
   are only known to be sorted, not strictly. -/
namespace Ferogram.Msgbox
open Ferogram.Tl MessageBoxes StableSort

variable {s : MessageBoxes}

/-- A queued account key has the entry `get_difference` reads. -/
def DiffBacked (s : MessageBoxes) : Prop :=
  .common ∈ s.gettingDiffFor ∨ .secondary ∈ s.gettingDiffFor → (s.entry .common).isSome

theorem getDifference_isOk (s : MessageBoxes) :
    (∃ r, s.getDifference = .ok r) ↔ DiffBacked s := by
  unfold getDifference DiffBacked
  simp only [List.contains_iff_mem, Bool.or_eq_true]
  split
  · next hq =>
    cases s.entry .common with
    | none => simp [hq]
    | some e => simp
  · next hq => simp [hq]

/-! The keys of the entries, on boxes that are sorted but not strictly. -/

theorem updateEntry_keys (s : MessageBoxes) (key : Key) {f : LiveEntry → LiveEntry}
    (hf : ∀ e, (f e).key = e.key) :
    (s.updateEntry key f).2.entries.map LiveEntry.key = s.entries.map LiveEntry.key := by
  unfold updateEntry
  split
  · apply List.ext_getElem?
    intro i
    simp only [List.getElem?_map, List.getElem?_modify]
    split
    · cases s.entries[i]? <;> simp [hf]
    · simp
  · rfl

theorem clearGaps_keys (keys : List Key) : ∀ s : MessageBoxes,
    (clearGaps s keys).entries.map LiveEntry.key = s.entries.map LiveEntry.key := by
  induction keys with
  | nil => exact fun s => rfl
  | cons key keys ih => exact fun s => (ih _).trans (updateEntry_keys s key (fun _ => rfl))

theorem hasKey_congr {s s' : MessageBoxes}
    (h : s'.entries.map LiveEntry.key = s.entries.map LiveEntry.key) (key : Key) :
    s'.HasKey key ↔ s.HasKey key := by
  have hmem : ∀ t : MessageBoxes, t.HasKey key ↔ key ∈ t.entries.map LiveEntry.key :=
    fun t => by simp [HasKey]
  rw [hmem, hmem, h]

theorem setEntry_hasKey (hs : s.Ordered) (e : LiveEntry) {key : Key}
    (h : s.HasKey key) : (s.setEntry e).HasKey key := by
  obtain ⟨a, ha, rfl⟩ := h
  rw [setEntry_eq]
  exact SortedVec.put_keeps_keys hs ha

theorem setEntry_self_hasKey (hs : s.Ordered) (e : LiveEntry) :
    (s.setEntry e).HasKey e.key := by
  rw [setEntry_eq]
  exact ⟨e, SortedVec.put_self_mem hs e, rfl⟩

/-- The entries stay sorted and no key is lost. -/
structure Extends (s s' : MessageBoxes) : Prop where
  ordered : s'.Ordered
  hasKey : ∀ {key}, s.HasKey key → s'.HasKey key

namespace Extends

theorem refl (hs : s.Ordered) : Extends s s := ⟨hs, fun h => h⟩

theorem congr {s s' s'' : MessageBoxes} (h : Extends s s') (he : s''.entries = s'.entries) :
    Extends s s'' where
  ordered := by unfold MessageBoxes.Ordered; rw [he]; exact h.ordered
  hasKey hk := by unfold HasKey; rw [he]; exact h.hasKey hk

theorem trans {s₁ s₂ s₃ : MessageBoxes} (h₁ : Extends s₁ s₂) (h₂ : Extends s₂ s₃) :
    Extends s₁ s₃ := ⟨h₂.ordered, fun hk => h₂.hasKey (h₁.hasKey hk)⟩

theorem setEntry (hs : s.Ordered) (e : LiveEntry) : Extends s (s.setEntry e) :=
  ⟨setEntry_ordered hs e, setEntry_hasKey hs e⟩

theorem of_keys {s s' : MessageBoxes} (hs : s.Ordered)
    (h : s'.entries.map LiveEntry.key = s.entries.map LiveEntry.key) : Extends s s' where
  ordered := SortedVec.ordered_of_map_key h hs
  hasKey hk := (hasKey_congr h _).mpr hk

theorem updateEntry (hs : s.Ordered) (key : Key) {f : LiveEntry → LiveEntry}
    (hf : ∀ e, (f e).key = e.key) : Extends s (s.updateEntry key f).2 :=
  of_keys hs (updateEntry_keys s key hf)

theorem resetDeadline (hs : s.Ordered) (key : Key) (deadline : Instant) :
    Extends s (s.resetDeadline key deadline) :=
  (updateEntry (f := fun e => { e with deadline := deadline }) hs key (fun _ => rfl)).congr
    (resetDeadline_entries s key deadline)

theorem endGetDiff (hs : s.Ordered) (now : Instant) (key : Key) :
    Extends s (s.endGetDiff now key) := by
  rw [endGetDiff_eq]
  split
  · have h : Extends s { s with gettingDiffFor := s.gettingDiffFor.erase key } := ⟨hs, fun h => h⟩
    exact h.trans (resetDeadline h.ordered key _)
  · exact refl hs

end Extends

/-- A change keeps the entries sorted and the common one in place, and a key it
queues has an entry and is not `secondary`. -/
theorem Move.keys {now : Instant} {s s' : MessageBoxes} (hm : Move now s s') (hs : s.Ordered) :
    s'.Ordered ∧ (s.HasKey .common → s'.HasKey .common) ∧
    ∀ key ∈ s'.gettingDiffFor, key ∈ s.gettingDiffFor ∨ (key ≠ .secondary ∧ s'.HasKey key) := by
  -- all but `queue` leave the queue as it is or shorten it
  have keep : ∀ {t : MessageBoxes}, Extends s t → t.gettingDiffFor ⊆ s.gettingDiffFor →
      t.Ordered ∧ (s.HasKey .common → t.HasKey .common) ∧
      ∀ key ∈ t.gettingDiffFor, key ∈ s.gettingDiffFor ∨ (key ≠ .secondary ∧ t.HasKey key) :=
    fun he hq => ⟨he.ordered, he.hasKey, fun key hk => Or.inl (hq hk)⟩
  cases hm with
  | bookkeeping he hg _ =>
    exact keep ((Extends.refl hs).congr he) (by rw [hg]; exact List.Subset.refl _)
  | clearGap key =>
    refine keep (Extends.updateEntry hs key (fun _ => rfl)) ?_
    rw [MessageBoxes.clearGap, updateEntry_gettingDiffFor]
    exact List.Subset.refl _
  | setPts key pts =>
    rw [setPts_eq s now key pts hs]
    exact keep (Extends.setEntry hs _) (by simp)
  | track id pts => exact keep (Extends.setEntry hs _) (by simp)
  | queue key hk =>
    rw [tryBeginGetDiff_eq hs]
    split
    · exact keep (Extends.refl hs) (List.Subset.refl _)
    · next hc =>
      simp only [not_or, Option.isNone_iff_eq_none] at hc
      have he : Extends s (s.clearGap key).2 := Extends.updateEntry hs key (fun _ => rfl)
      refine ⟨he.ordered, he.hasKey, fun key' hk' => ?_⟩
      rcases List.mem_append.mp hk' with hk' | hk'
      · exact Or.inl hk'
      · rw [List.mem_singleton] at hk'
        subst hk'
        refine Or.inr ⟨hk, he.hasKey ?_⟩
        exact (entry_isSome hs key').mp (Option.isSome_iff_ne_none.mpr hc.2)
  | unqueue key =>
    refine keep (Extends.endGetDiff hs now key) ?_
    rw [endGetDiff_gettingDiffFor]
    exact List.erase_subset
  | touch key => exact keep (Extends.resetDeadline hs key _) (by simp [feedQueued])
  | feed u _ =>
    rw [feedLive_eq hs]
    exact keep ((Extends.setEntry hs _).congr rfl) (by simp)
  | ban id _ =>
    have he := Extends.endGetDiff hs now (.channel id)
    have hsub : ((s.endGetDiff now (.channel id)).popEntry (.channel id)).2.gettingDiffFor ⊆
        s.gettingDiffFor := by
      rw [popEntry_gettingDiffFor, endGetDiff_gettingDiffFor]
      exact List.erase_subset
    refine ⟨?_, fun hc => ?_, fun key hk => Or.inl (hsub hk)⟩
    · rw [popEntry_snd]
      exact List.Pairwise.sublist (SortedVec.remove_sublist he.ordered _) he.ordered
    · -- the deleted entry is a channel's
      obtain ⟨e, hmem, hkey⟩ := he.hasKey hc
      rw [popEntry_snd]
      exact ⟨e, SortedVec.mem_remove he.ordered hmem (by rw [hkey]; simp), hkey⟩

/-- What the runs below carry along. -/
def Backed (s : MessageBoxes) : Prop :=
  .common ∈ s.gettingDiffFor ∨ .secondary ∈ s.gettingDiffFor → s.HasKey .common

theorem diffBacked_iff (hs : s.Ordered) : DiffBacked s ↔ Backed s := by
  unfold DiffBacked Backed
  rw [entry_isSome hs]

theorem Move.backed {now : Instant} {s s' : MessageBoxes} (hm : Move now s s')
    (h : s.Ordered ∧ Backed s) : s'.Ordered ∧ Backed s' := by
  obtain ⟨hord, hcommon, hqueue⟩ := hm.keys h.1
  refine ⟨hord, fun hq => ?_⟩
  rcases hq with hq | hq
  · rcases hqueue _ hq with hq | ⟨-, hkey⟩
    · exact hcommon (h.2 (Or.inl hq))
    · exact hkey
  · rcases hqueue _ hq with hq | ⟨hne, -⟩
    · exact hcommon (h.2 (Or.inr hq))
    · exact absurd rfl hne

theorem Moves.ordered {now : Instant} {s s' : MessageBoxes} (hm : Moves now s s')
    (hs : s.Ordered) : s'.Ordered := hm.inv (fun _ _ h hs => (h.keys hs).1) hs

/-- The condition on a step: if it is a `check_deadlines` that queues the overdue
keys and the entry of `secondary` is overdue, there is an entry of `common`. -/
def SecondaryBacked (s : MessageBoxes) (i : Instant × Op) : Prop :=
  i.2 = .checkDeadlines → s.gettingDiffFor = [] → s.nextDeadline ≤ i.1 →
    (∃ e ∈ s.entries, e.key = .secondary ∧ e.effectiveDeadline ≤ i.1) → (s.entry .common).isSome

/-- The condition on the start: a snapshot with a `qts` has a `pts`. -/
def Start.SecondaryBacked : Start → Prop
  | .new _ => True
  | .load _ state => state.qts ≠ NO_PTS → state.pts ≠ NO_PTS

theorem mem_dueKeys {now : Instant} {key : Key} :
    key ∈ s.dueKeys now ↔ ∃ e ∈ s.entries, e.key = key ∧ e.effectiveDeadline ≤ now := by
  simp only [dueKeys, List.mem_map, List.mem_filter, decide_eq_true_eq]
  constructor
  · rintro ⟨e, ⟨he, hd⟩, hk⟩
    exact ⟨e, he, hk, hd⟩
  · rintro ⟨e, he, hk, hd⟩
    exact ⟨e, ⟨he, hd⟩, hk⟩

theorem checkDeadlines_ordered (hs : s.Ordered) (now : Instant) :
    (s.checkDeadlines now).2.Ordered := by
  rw [checkDeadlines_snd]
  split
  · split
    · exact hs
    · have hs' : Ordered { s with gettingDiffFor := s.dueKeys now } := hs
      exact SortedVec.ordered_of_map_key (clearGaps_keys _ _) hs'
  · exact hs

theorem checkDeadlines_backed_iff (hs : s.Ordered) (h : Backed s)
    (now : Instant) :
    Backed (s.checkDeadlines now).2 ↔ SecondaryBacked s (now, .checkDeadlines) := by
  unfold SecondaryBacked
  rw [checkDeadlines_snd, entry_isSome hs, ← mem_dueKeys]
  by_cases hc : s.gettingDiffFor = [] ∧ s.nextDeadline ≤ now
  · rw [if_pos hc]
    by_cases hd : s.dueKeys now = []
    · rw [if_pos hd, hd]
      refine ⟨fun _ _ _ _ hq => absurd hq (by simp), fun _ hq => ?_⟩
      exact h hq
    · rw [if_neg hd]
      unfold Backed
      rw [hasKey_congr (clearGaps_keys _ _), clearGaps_gettingDiffFor]
      constructor
      · intro hb _ _ _ hq
        exact hb (Or.inr hq)
      · intro hb hq
        rcases hq with hq | hq
        · obtain ⟨e, he, hkey, -⟩ := mem_dueKeys.mp hq
          exact ⟨e, he, hkey⟩
        · exact hb rfl hc.1 hc.2 hq
  · rw [if_neg hc]
    refine ⟨fun _ _ h1 h2 => absurd ⟨h1, h2⟩ hc, fun _ => h⟩

theorem stateSet_ordered (hs : s.Ordered) (now : Instant) (state : State) :
    (stateSet s now state).Ordered :=
  setEntry_ordered (setEntry_ordered hs _) _

theorem step_ordered (dbg : Bool) (i : Instant × Op) (hs : s.Ordered) :
    (step dbg s i).Ordered := by
  obtain ⟨now, op⟩ := i
  rcases step_cases dbg s now op with hm | ⟨-, hc⟩ | ⟨state, -, hc⟩ |
    ⟨diff, id, d, t, -, -, -, -, -, -, hc⟩
  · exact hm.ordered hs
  · rw [hc]; exact checkDeadlines_ordered hs now
  · rw [hc]; exact stateSet_ordered hs now state
  · rw [hc]; exact (Extends.resetDeadline ((beforeTimeout_moves dbg now s id d).ordered hs) _ _).ordered

/-- A step keeps the property exactly when it meets the condition. -/
theorem step_backed_iff (dbg : Bool) (i : Instant × Op) (hs : s.Ordered)
    (h : Backed s) : Backed (step dbg s i) ↔ SecondaryBacked s i := by
  obtain ⟨now, op⟩ := i
  have free : op ≠ .checkDeadlines → Backed (step dbg s (now, op)) →
      (Backed (step dbg s (now, op)) ↔ SecondaryBacked s (now, op)) :=
    fun hop hb => ⟨fun _ h => absurd h hop, fun _ => hb⟩
  by_cases hop : op = .checkDeadlines
  · subst hop
    exact checkDeadlines_backed_iff hs h now
  apply free hop
  rcases step_cases dbg s now op with hm | ⟨hc, -⟩ | ⟨state, -, hc⟩ |
    ⟨diff, id, d, t, -, -, -, -, -, -, hc⟩
  · exact (hm.inv (fun _ _ => Move.backed) ⟨hs, h⟩).2
  · exact absurd hc hop
  · intro _
    rw [hc]
    exact setEntry_hasKey (setEntry_ordered hs _) _ (setEntry_self_hasKey hs _)
  · have hm : Moves now s (beforeTimeout dbg now s id d) := beforeTimeout_moves dbg now s id d
    have hb := hm.inv (fun _ _ => Move.backed) ⟨hs, h⟩
    intro hq
    rw [hc] at hq ⊢
    rw [resetDeadline_gettingDiffFor] at hq
    exact (Extends.resetDeadline hb.1 _ _).hasKey (hb.2 hq)

theorem start_ordered (start : Start) : start.box.Ordered := by
  cases start with
  | new now => exact List.Pairwise.nil
  | load now state => exact sortByKey_pairwise LiveEntry.key (loaded now state)

theorem start_backed_iff (start : Start) : Backed start.box ↔ start.SecondaryBacked := by
  cases start with
  | new now => simp [Backed, Start.box, new, Start.SecondaryBacked]
  | load now state =>
    have hkeys : ∀ key, key ∈ (load now state).gettingDiffFor ↔ (load now state).HasKey key :=
      fun key => by simp [load, HasKey]
    have hmem : ∀ key, (load now state).HasKey key ↔ key ∈ (loaded now state).map LiveEntry.key :=
      fun key => by simp [HasKey, load_entries, mem_sortByKey]
    have hcommon : (load now state).HasKey .common ↔ state.pts ≠ NO_PTS := by
      rw [hmem, loaded_keys]; simp
    have hsecondary : (load now state).HasKey .secondary ↔ state.qts ≠ NO_PTS := by
      rw [hmem, loaded_keys]; simp
    change Backed (load now state) ↔ _
    unfold Backed Start.SecondaryBacked
    rw [hkeys, hkeys, hcommon, hsecondary]
    constructor
    · exact fun h hq => h (Or.inr hq)
    · rintro h (hp | hq)
      · exact hp
      · exact h hq

/-- `get_difference` never panics in a run exactly when the start and every
`check_deadlines` of the run bring `secondary` only with an entry of `common`. -/
theorem getDifference_total_iff (dbg : Bool) (start : Start) (is : List (Instant × Op)) :
    (∀ s ∈ Run.states (step dbg) start.box is, DiffBacked s ∧ ∃ r, s.getDifference = .ok r) ↔
    start.SecondaryBacked ∧ Run.AllSteps (step dbg) SecondaryBacked start.box is := by
  rw [← start_backed_iff, ← Run.states_iff (step dbg) (fun s i => step_ordered dbg i)
    (fun s i hs h => step_backed_iff dbg i hs h) is start.box (start_ordered start)]
  have hord := Run.states_inv_all (step dbg) (fun s i => step_ordered dbg i) is start.box
    (start_ordered start)
  constructor
  · intro h s hs
    exact (diffBacked_iff (hord s hs)).mp (h s hs).1
  · intro h s hs
    have hb := (diffBacked_iff (hord s hs)).mpr (h s hs)
    exact ⟨hb, (getDifference_isOk s).mpr hb⟩

/-- A `qts` update to a box without state, and fifteen minutes of silence. -/
def qtsFirst : List (Instant × Op) :=
  [(0, .processUpdates (.updates (.updateShort { update := .botStopped [] 7, date := 1 }))),
   (NO_UPDATES_TIMEOUT, .checkDeadlines)]

/-- That run queues `secondary` alone, and so does loading what it would persist. -/
theorem getDifference_panics :
    let s := Run.final (step true) (Start.new 0).box qtsFirst
    let s' := (Start.load 0 s.sessionState).box
    s.gettingDiffFor = [.secondary] ∧ s.entry .common = none ∧
    s.getDifference = .error .commonEntryMissing ∧
    s'.gettingDiffFor = [.secondary] ∧ s'.getDifference = .error .commonEntryMissing := by
  decide

end Ferogram.Msgbox
