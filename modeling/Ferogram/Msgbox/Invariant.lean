import Ferogram.Msgbox.Ops

/- The representation invariant of the box. The entries are strictly sorted, no
   key is queued twice, and a queued key has an entry with nothing buffered. It
   holds initially, every `Move` keeps it, and so do `check_deadlines` and
   `set_state` on an empty box; hence it holds in every box a lawful run reaches.
   From it the `expect` in `get_channel_difference` and the `debug_assert!` in
   `try_end_get_diff` cannot fire: the one panic left to a lawful operation is
   the deadline of a negative server timeout (`call_panics`). -/
namespace Ferogram.Msgbox
open Ferogram.Tl MessageBoxes StableSort

variable {s : MessageBoxes}

structure RepInv (s : MessageBoxes) : Prop where
  sorted : s.Sorted
  nodup : s.gettingDiffFor.Nodup
  backed : ∀ key ∈ s.gettingDiffFor, ∃ e, s.entry key = some e ∧ e.possibleGap = none

theorem entry_congr {s s' : MessageBoxes} (h : s'.entries = s.entries) (key : Key) :
    s'.entry key = s.entry key := by
  unfold entry position; rw [h]

namespace RepInv

theorem congr {s s' : MessageBoxes} (h : RepInv s) (he : s'.entries = s.entries)
    (hg : s'.gettingDiffFor = s.gettingDiffFor) : RepInv s' where
  sorted := by unfold Sorted; rw [he]; exact h.sorted
  nodup := hg ▸ h.nodup
  backed key hk := by
    rw [entry_congr he]
    exact h.backed key (hg ▸ hk)

/-- Storing an entry keeps the invariant if it has nothing buffered for a queued key. -/
theorem setEntry (h : RepInv s) {e : LiveEntry}
    (hgap : e.key ∈ s.gettingDiffFor → e.possibleGap = none) : RepInv (s.setEntry e) where
  sorted := setEntry_sorted h.sorted e
  nodup := by rw [setEntry_gettingDiffFor]; exact h.nodup
  backed key hk := by
    rw [setEntry_gettingDiffFor] at hk
    rw [entry_setEntry h.sorted]
    split
    · next heq => exact ⟨e, rfl, hgap (heq ▸ hk)⟩
    · exact h.backed key hk

/-- So does an edit that buffers nothing. -/
theorem updateEntry (h : RepInv s) (key : Key) {f : LiveEntry → LiveEntry}
    (hf : ∀ e, (f e).key = e.key) (hgap : ∀ e, e.possibleGap = none → (f e).possibleGap = none) :
    RepInv (s.updateEntry key f).2 := by
  rw [updateEntry_snd s key h.sorted.ordered hf]
  cases he : s.entry key with
  | none => exact h
  | some e =>
    refine h.setEntry (fun hq => hgap e ?_)
    rw [hf, entry_key h.sorted.ordered he] at hq
    obtain ⟨e', he', hg⟩ := h.backed key hq
    rw [he] at he'
    cases he'
    exact hg

theorem popEntry (h : RepInv s) {key : Key} (hk : key ∉ s.gettingDiffFor) :
    RepInv (s.popEntry key).2 where
  sorted := popEntry_sorted h.sorted key
  nodup := by rw [popEntry_gettingDiffFor]; exact h.nodup
  backed key' hq := by
    rw [popEntry_gettingDiffFor] at hq
    have hne : key' ≠ key := fun heq => hk (heq ▸ hq)
    rw [entry_popEntry h.sorted, if_neg hne]
    exact h.backed key' hq

end RepInv

/-! The helpers. -/

theorem resetDeadline_entries (s : MessageBoxes) (key : Key) (deadline : Instant) :
    (s.resetDeadline key deadline).entries =
      (s.updateEntry key (fun e => { e with deadline := deadline })).2.entries := by
  unfold resetDeadline; dsimp only; split <;> rfl

@[simp] theorem resetDeadline_gettingDiffFor (s : MessageBoxes) (key : Key) (deadline : Instant) :
    (s.resetDeadline key deadline).gettingDiffFor = s.gettingDiffFor := by
  unfold resetDeadline; dsimp only; split <;> simp

theorem RepInv.resetDeadline (h : RepInv s) (key : Key) (deadline : Instant) :
    RepInv (s.resetDeadline key deadline) :=
  (h.updateEntry key (f := fun e => { e with deadline := deadline }) (fun _ => rfl)
    (fun _ hg => hg)).congr (resetDeadline_entries s key deadline) (by simp)

theorem RepInv.setPts (h : RepInv s) (now : Instant) (key : Key) (pts : Int32) :
    RepInv (s.setPts now key pts) := by
  rw [setPts_eq s now key pts h.sorted.ordered]
  refine h.setEntry (fun hq => ?_)
  cases he : s.entry key with
  | none => rfl
  | some e =>
    simp only [he, Option.getD_some, entry_key h.sorted.ordered he] at hq ⊢
    obtain ⟨e', he', hg⟩ := h.backed key hq
    rw [he] at he'
    cases he'
    exact hg

theorem tryBeginGetDiff_eq (hs : s.Ordered) (key : Key) :
    s.tryBeginGetDiff key =
      if key ∈ s.gettingDiffFor ∨ (s.entry key).isNone then s
      else { (s.clearGap key).2 with gettingDiffFor := s.gettingDiffFor ++ [key] } := by
  unfold tryBeginGetDiff MessageBoxes.clearGap
  have h1 := updateEntry_fst s key (fun e => { e with possibleGap := none }) hs
  have h2 := updateEntry_snd (f := fun e => { e with possibleGap := none }) s key hs (fun _ => rfl)
  have h3 := updateEntry_gettingDiffFor s key (fun e => { e with possibleGap := none })
  rcases hu : s.updateEntry key (fun e => { e with possibleGap := none }) with ⟨found, s'⟩
  rw [hu] at h1 h2 h3
  simp only at h1 h2 h3 ⊢
  by_cases hc : key ∈ s.gettingDiffFor
  · simp [hc]
  · cases he : s.entry key with
    | none =>
      rw [he] at h1 h2
      simp [hc, h1, h2]
    | some e =>
      rw [he] at h1
      simp [hc, h1, h3]

theorem RepInv.tryBeginGetDiff (h : RepInv s) (key : Key) :
    RepInv (s.tryBeginGetDiff key) := by
  rw [tryBeginGetDiff_eq h.sorted.ordered]
  split
  · exact h
  · next hc =>
    simp only [not_or, Option.isNone_iff_eq_none] at hc
    obtain ⟨hnq, hne⟩ := hc
    obtain ⟨e, he⟩ := Option.ne_none_iff_exists'.mp hne
    have hclear : RepInv (s.clearGap key).2 := h.updateEntry key (fun _ => rfl) (fun _ _ => rfl)
    have hentry : (s.clearGap key).2.entry key = some { e with possibleGap := none } := by
      rw [MessageBoxes.clearGap, entry_updateEntry h.sorted key (by simp), if_pos rfl, he]; rfl
    have hgdf : (s.clearGap key).2.gettingDiffFor = s.gettingDiffFor :=
      updateEntry_gettingDiffFor s key _
    refine ⟨hclear.sorted, ?_, ?_⟩
    · exact List.nodup_append.mpr ⟨h.nodup, List.nodup_singleton key, by
        intro a ha b hb hab
        rw [List.mem_singleton] at hb
        exact hnq (hb ▸ hab ▸ ha)⟩
    · intro key' hk
      change ∃ e, (s.clearGap key).2.entry key' = some e ∧ e.possibleGap = none
      rcases List.mem_append.mp hk with hk | hk
      · exact hclear.backed key' (hgdf ▸ hk)
      · rw [List.mem_singleton] at hk
        subst hk
        exact ⟨_, hentry, rfl⟩

/-- Leaving the queue: the key goes, its deadline is pushed back. -/
theorem endGetDiff_eq (s : MessageBoxes) (now : Instant) (key : Key) :
    s.endGetDiff now key =
      if key ∈ s.gettingDiffFor then
        resetDeadline { s with gettingDiffFor := s.gettingDiffFor.erase key } key
          (nextUpdatesDeadline now)
      else s := by
  unfold endGetDiff
  cases hi : s.gettingDiffFor.idxOf? key with
  | none =>
    rw [List.idxOf?_eq_none_iff] at hi
    rw [if_neg hi]
  | some i =>
    have hmem : key ∈ s.gettingDiffFor := by
      by_contra hc
      rw [← List.idxOf?_eq_none_iff, hi] at hc
      cases hc
    have hidx : s.gettingDiffFor.eraseIdx i = s.gettingDiffFor.erase key := by
      rw [List.erase_eq_eraseIdx, hi]
    simp only [if_pos hmem, hidx]

theorem endGetDiff_gettingDiffFor (s : MessageBoxes) (now : Instant) (key : Key) :
    (s.endGetDiff now key).gettingDiffFor = s.gettingDiffFor.erase key := by
  rw [endGetDiff_eq]
  split
  · simp
  · next h => exact (List.erase_of_not_mem h).symm

theorem RepInv.endGetDiff (h : RepInv s) (now : Instant) (key : Key) :
    RepInv (s.endGetDiff now key) := by
  rw [endGetDiff_eq]
  split
  · have : RepInv { s with gettingDiffFor := s.gettingDiffFor.erase key } :=
      ⟨h.sorted, h.nodup.erase key, fun key' hk => h.backed key' (List.mem_of_mem_erase hk)⟩
    exact this.resetDeadline key _
  · exact h

theorem accept_key (e : LiveEntry) (now deadline : Instant) (u : PtsUpdate) :
    (e.accept now deadline u).1.key = e.key := by
  unfold LiveEntry.accept; split
  · rfl
  · split <;> rfl

theorem drainGap_key (e : LiveEntry) : e.drainGap.1.key = e.key := by
  unfold LiveEntry.drainGap; split
  · rfl
  · dsimp only; split <;> rfl

theorem feed_key (e : LiveEntry) (now deadline : Instant) (u : PtsUpdate) :
    (e.feed now deadline u).1.key = e.key := by
  unfold LiveEntry.feed
  rw [drainGap_key, accept_key]

/-- The entry the live path of `u` works on. -/
def liveEntry (s : MessageBoxes) (deadline : Instant) (u : PtsUpdate) : LiveEntry :=
  (s.entry u.info.key).getD (freshEntry u.info.key (u.info.pts - u.info.count) deadline)

theorem feedLive_eq (hs : s.Ordered) (now deadline : Instant) (u : PtsUpdate) :
    s.feedLive now deadline u =
      let r := (liveEntry s deadline u).feed now deadline u
      ({ s.setEntry r.1 with
          nextDeadline := min s.nextDeadline (r.2.gapDeadline.getD deadline) }, r.2) := by
  unfold feedLive liveEntry
  dsimp only
  rw [forceUpdateEntry_eq s _ (fun e => e.feed now deadline u) hs (fun e => feed_key e now deadline u)]
  simp [freshEntry]

theorem liveEntry_key (hs : s.Ordered) (deadline : Instant) (u : PtsUpdate) :
    (liveEntry s deadline u).key = u.info.key := by
  unfold liveEntry
  cases he : s.entry u.info.key with
  | none => rfl
  | some e => exact entry_key hs he

theorem RepInv.feedLive (h : RepInv s) (now deadline : Instant) {u : PtsUpdate}
    (hu : u.info.key ∉ s.gettingDiffFor) : RepInv (s.feedLive now deadline u).1 := by
  rw [feedLive_eq h.sorted.ordered]
  refine (h.setEntry (e := ((liveEntry s deadline u).feed now deadline u).1) ?_).congr rfl rfl
  intro hq
  rw [feed_key, liveEntry_key h.sorted.ordered] at hq
  exact absurd hq hu

/-- Every change of the box keeps the representation invariant. -/
theorem Move.repInv {now : Instant} {s s' : MessageBoxes} (hm : Move now s s') (h : RepInv s) :
    RepInv s' := by
  cases hm with
  | bookkeeping he hg _ => exact h.congr he hg
  | clearGap key => exact h.updateEntry key (fun _ => rfl) (fun _ _ => rfl)
  | setPts key pts => exact h.setPts now key pts
  | track id pts => exact h.setEntry (fun _ => rfl)
  | queue key _ => exact h.tryBeginGetDiff key
  | unqueue key => exact h.endGetDiff now key
  | touch key => exact h.resetDeadline key _
  | feed u hu => exact h.feedLive now _ hu
  | ban id hq =>
    refine (h.endGetDiff now _).popEntry ?_
    rw [endGetDiff_gettingDiffFor]
    exact h.nodup.not_mem_erase

theorem Moves.repInv {now : Instant} {s s' : MessageBoxes} (hm : Moves now s s') (h : RepInv s) :
    RepInv s' := hm.inv (fun _ _ => Move.repInv) h

/-! Creation, `check_deadlines` and `set_state`. -/

/-- Forget what is buffered for each of the keys. -/
def clearGaps (s : MessageBoxes) (keys : List Key) : MessageBoxes :=
  keys.foldl (fun s key => (s.clearGap key).2) s

theorem clearGaps_sorted (keys : List Key) :
    ∀ {s : MessageBoxes}, s.Sorted → (clearGaps s keys).Sorted := by
  induction keys with
  | nil => exact fun hs => hs
  | cons key keys ih => exact fun hs => ih (updateEntry_sorted hs key (fun _ => rfl))

@[simp] theorem clearGaps_gettingDiffFor (keys : List Key) :
    ∀ s : MessageBoxes, (clearGaps s keys).gettingDiffFor = s.gettingDiffFor := by
  induction keys with
  | nil => exact fun s => rfl
  | cons key keys ih => exact fun s => (ih _).trans (updateEntry_gettingDiffFor s key _)

theorem entry_clearGaps (keys : List Key) (key : Key) :
    ∀ {s : MessageBoxes}, s.Sorted → (clearGaps s keys).entry key =
      if key ∈ keys then (s.entry key).map (fun e => { e with possibleGap := none })
      else s.entry key := by
  induction keys with
  | nil => intro s _; simp [clearGaps]
  | cons k keys ih =>
    intro s hs
    have hsorted : (s.clearGap k).2.Sorted := updateEntry_sorted hs k (fun _ => rfl)
    have hentry := entry_updateEntry (f := fun e => { e with possibleGap := none }) hs k
      (fun _ => rfl) key
    change (clearGaps (s.clearGap k).2 keys).entry key = _
    rw [ih hsorted, MessageBoxes.clearGap, hentry]
    by_cases hk : key = k
    · subst hk
      cases s.entry key <;> simp
    · simp [hk]

/-- The box `check_deadlines` leaves. -/
theorem checkDeadlines_snd (s : MessageBoxes) (now : Instant) :
    (s.checkDeadlines now).2 =
      if s.gettingDiffFor = [] ∧ s.nextDeadline ≤ now then
        if s.dueKeys now = [] then { s with nextDeadline := nextUpdatesDeadline now }
        else clearGaps { s with gettingDiffFor := s.dueKeys now } (s.dueKeys now)
      else s := by
  unfold checkDeadlines
  by_cases hq : s.gettingDiffFor = []
  · simp only [hq, ne_eq, not_true_eq_false, if_false, true_and, List.nil_append]
    by_cases hn : s.nextDeadline ≤ now
    · simp only [if_pos hn]
      change (if (clearGaps _ _).gettingDiffFor = [] then _ else clearGaps _ _) = _
      rw [clearGaps_gettingDiffFor]
      by_cases hd : s.dueKeys now = []
      · simp [hd]
      · simp [hd]
    · simp only [if_neg hn]
  · simp [hq]

theorem dueKeys_sublist (s : MessageBoxes) (now : Instant) :
    (s.dueKeys now).Sublist (s.entries.map LiveEntry.key) := List.filter_sublist.map _

theorem Sorted.keys_nodup (hs : s.Sorted) :
    (s.entries.map LiveEntry.key).Nodup := by
  rw [List.Nodup, List.pairwise_map]
  exact hs.imp (fun h => ne_of_lt h)

theorem RepInv.checkDeadlines (h : RepInv s) (now : Instant) :
    RepInv (s.checkDeadlines now).2 := by
  rw [checkDeadlines_snd]
  split
  · split
    · exact h.congr rfl rfl
    · refine ⟨clearGaps_sorted _ h.sorted, ?_, ?_⟩
      · rw [clearGaps_gettingDiffFor]
        exact (Sorted.keys_nodup h.sorted).sublist (dueKeys_sublist s now)
      · intro key hk
        rw [clearGaps_gettingDiffFor] at hk
        have hsorted : Sorted { s with gettingDiffFor := s.dueKeys now } := h.sorted
        rw [entry_clearGaps _ _ hsorted, if_pos hk]
        obtain ⟨e, he, rfl⟩ := List.mem_map.mp ((dueKeys_sublist s now).subset hk)
        have hentry : MessageBoxes.entry { s with gettingDiffFor := s.dueKeys now } e.key = some e :=
          entry_of_mem hsorted he
        rw [hentry]
        exact ⟨_, rfl, rfl⟩
  · exact h

theorem RepInv.stateSet (h : RepInv s) (now : Instant) (state : State) :
    RepInv (stateSet s now state) :=
  ((h.setEntry (e := freshEntry .common state.pts (nextUpdatesDeadline now))
    (fun _ => rfl)).setEntry (e := freshEntry .secondary state.qts (nextUpdatesDeadline now))
    (fun _ => rfl)).congr rfl rfl

theorem new_repInv (now : Instant) : RepInv (new now) where
  sorted := List.Pairwise.nil
  nodup := List.nodup_nil
  backed key hk := by cases hk

/-- The entries of a snapshot, before they are sorted. -/
def loaded (now : Instant) (state : UpdatesStateSnap) : List LiveEntry :=
  let deadline := nextUpdatesDeadline now
  (if state.pts ≠ NO_PTS then [freshEntry .common state.pts deadline] else []) ++
  (if state.qts ≠ NO_PTS then [freshEntry .secondary state.qts deadline] else []) ++
  state.channels.map (fun c => freshEntry (.channel c.id) c.pts deadline)

theorem load_entries (now : Instant) (state : UpdatesStateSnap) :
    (load now state).entries = sortByKey LiveEntry.key (loaded now state) := rfl

theorem loaded_mem {now : Instant} {state : UpdatesStateSnap} {e : LiveEntry} :
    e ∈ loaded now state ↔
      (state.pts ≠ NO_PTS ∧ e = freshEntry .common state.pts (nextUpdatesDeadline now)) ∨
      (state.qts ≠ NO_PTS ∧ e = freshEntry .secondary state.qts (nextUpdatesDeadline now)) ∨
      ∃ c ∈ state.channels, e = freshEntry (.channel c.id) c.pts (nextUpdatesDeadline now) := by
  simp only [loaded, List.mem_append, List.mem_ite_nil_right, List.mem_singleton, List.mem_map,
    or_assoc, eq_comm]

/-- Every entry of a snapshot is fresh. -/
theorem fresh_of_mem_load {now : Instant} {state : UpdatesStateSnap} {e : LiveEntry}
    (he : e ∈ (load now state).entries) : ∃ key pts, e = freshEntry key pts (nextUpdatesDeadline now) := by
  rw [load_entries, mem_sortByKey] at he
  rcases loaded_mem.mp he with ⟨-, rfl⟩ | ⟨-, rfl⟩ | ⟨c, -, rfl⟩
  · exact ⟨_, _, rfl⟩
  · exact ⟨_, _, rfl⟩
  · exact ⟨_, _, rfl⟩

theorem loaded_keys (now : Instant) (state : UpdatesStateSnap) :
    (loaded now state).map LiveEntry.key =
      (if state.pts ≠ NO_PTS then [.common] else []) ++
      (if state.qts ≠ NO_PTS then [.secondary] else []) ++
      state.channels.map (fun c => .channel c.id) := by
  unfold loaded
  split <;> split <;> simp [freshEntry, Function.comp_def]

theorem loaded_keys_nodup (now : Instant) {state : UpdatesStateSnap}
    (h : (state.channels.map ChannelState.id).Nodup) :
    ((loaded now state).map LiveEntry.key).Nodup := by
  have hch : (state.channels.map (fun c => Key.channel c.id)).Nodup := by
    have := h.map (f := Key.channel) (fun a b hab => by injection hab)
    simpa [List.map_map, Function.comp_def] using this
  rw [loaded_keys]
  split <;> split <;> simp [hch]

theorem load_sorted (now : Instant) {state : UpdatesStateSnap}
    (h : (state.channels.map ChannelState.id).Nodup) : (load now state).Sorted := by
  have hle := sortByKey_pairwise LiveEntry.key (loaded now state)
  have hnd : ((sortByKey LiveEntry.key (loaded now state)).map LiveEntry.key).Nodup :=
    ((sortByKey_perm LiveEntry.key (loaded now state)).map _).nodup_iff.mpr
      (loaded_keys_nodup now h)
  rw [List.Nodup, List.pairwise_map] at hnd
  change List.Pairwise _ (load now state).entries
  rw [load_entries]
  exact (hle.and hnd).imp (fun h => lt_of_le_of_ne h.1 h.2)

theorem load_repInv (now : Instant) {state : UpdatesStateSnap}
    (h : (state.channels.map ChannelState.id).Nodup) : RepInv (load now state) where
  sorted := load_sorted now h
  nodup := Sorted.keys_nodup (load_sorted now h)
  backed key hk := by
    obtain ⟨e, he, rfl⟩ := List.mem_map.mp hk
    refine ⟨e, entry_of_mem (load_sorted now h) he, ?_⟩
    obtain ⟨key, pts, rfl⟩ := fresh_of_mem_load he
    rfl

/-- Every operation keeps the representation invariant. -/
theorem step_repInv (dbg : Bool) (i : Instant × Op) (h : RepInv s) :
    RepInv (step dbg s i) := by
  obtain ⟨now, op⟩ := i
  rcases step_cases dbg s now op with hm | ⟨-, hc⟩ | ⟨state, -, hc⟩ |
    ⟨diff, id, d, t, -, -, -, -, -, -, hc⟩
  · exact hm.repInv h
  · rw [hc]; exact h.checkDeadlines now
  · rw [hc]; exact h.stateSet now state
  · rw [hc]; exact ((beforeTimeout_moves dbg now s id d).repInv h).resetDeadline _ _

theorem start_repInv {start : Start} (h : start.DistinctChannels) : RepInv start.box := by
  cases start with
  | new now => exact new_repInv now
  | load now state => exact load_repInv now h

theorem Reachable.repInv {dbg : Bool} (h : Reachable dbg s) : RepInv s := by
  obtain ⟨start, is, hstart, -, rfl⟩ := h
  exact Run.states_inv_all (step dbg) (fun s i => step_repInv dbg i) is start.box
    (start_repInv hstart) _ (Run.final_mem_states (step dbg) is start.box)

/-! The assertions. -/

theorem entry_resetDeadline (hs : s.Sorted) (key : Key) (deadline : Instant)
    (key' : Key) :
    (s.resetDeadline key deadline).entry key' =
      if key' = key then (s.entry key).map (fun e => { e with deadline := deadline })
      else s.entry key' := by
  rw [entry_congr (resetDeadline_entries s key deadline)]
  exact entry_updateEntry (f := fun e => { e with deadline := deadline }) hs key (fun _ => rfl) key'

/-- What an edit of one entry leaves of it is the same at every key. -/
theorem map_entry_edit {β : Type} {s s' : MessageBoxes} {key key' : Key} {f : LiveEntry → LiveEntry}
    {c : Prop} [Decidable c] (h : s'.entry key' = if c then (s.entry key).map f else s.entry key')
    (hc : c → key' = key) {g : LiveEntry → β} (hg : ∀ e, g (f e) = g e) :
    (s'.entry key').map g = (s.entry key').map g := by
  rw [h]
  split
  · next hif =>
    rw [hc hif, Option.map_map]
    exact Option.map_congr (fun e _ => hg e)
  · rfl

theorem entry_endGetDiff (hs : s.Sorted) (now : Instant) (key key' : Key) :
    (s.endGetDiff now key).entry key' =
      if key' = key ∧ key ∈ s.gettingDiffFor then
        (s.entry key).map (fun e => { e with deadline := nextUpdatesDeadline now })
      else s.entry key' := by
  rw [endGetDiff_eq]
  by_cases hq : key ∈ s.gettingDiffFor
  · have hsorted : Sorted { s with gettingDiffFor := s.gettingDiffFor.erase key } := hs
    rw [if_pos hq, entry_resetDeadline hsorted]
    simp only [hq, and_true]
    rfl
  · simp [hq]

theorem nextChannel_queued {id : Int} (h : s.nextChannel = some id) :
    .channel id ∈ s.gettingDiffFor := by
  obtain ⟨key, hk, hsome⟩ := List.exists_of_findSome?_eq_some h
  cases key with
  | common => cases hsome
  | secondary => cases hsome
  | channel id' =>
    simp only at hsome
    split at hsome
    · cases hsome; exact hk
    · cases hsome

/-- Under the invariant neither assertion can fire, so any set of panics will do. -/
theorem repInv_carried (dbg : Bool) (now : Instant) (E : Panic → Prop) :
    Carried dbg now RepInv E where
  move hm hs := hm.repInv hs
  gap {s key} hs _ hkey hgap := by
    obtain ⟨e, he, hnone⟩ := hs.backed key hkey
    rw [entry_endGetDiff hs.sorted, if_pos ⟨rfl, hkey⟩, he] at hgap
    simp [hnone] at hgap
  channel hs hnext hentry := by
    obtain ⟨e, he, -⟩ := hs.backed _ (nextChannel_queued hnext)
    rw [hentry] at he
    cases he

/-- The only panic left to a lawful operation is the deadline of a negative timeout. -/
theorem call_panics (dbg : Bool) (h : RepInv s) {now : Instant} {op : Op}
    (hop : Lawful s (now, op)) {p : Panic} (hp : ((op.call dbg now).run s).1 = .error p) :
    p = .instantOverflow := by
  have hc := repInv_carried dbg now (fun p => p = .instantOverflow)
  cases op with
  | processUpdates u => cases hp
  | setState state =>
    have hempty : s.isEmpty = true := hop
    simp [Op.call, setState, hempty] at hp
  | trySetChannelState id pts => cases hp
  | checkDeadlines => cases hp
  | getChannelDifference => exact (hc.getChannelDifference.run h).2 p ((Call.discard_error _ s p).mp hp)
  | applyDifference d => exact ((hc.applyDifference d).run h).2 p ((Call.discard_error _ s p).mp hp)
  | applyChannelDifference diff =>
    have hw := hc.applyChannelDifference rfl (fun s id dl hs => hs.resetDeadline _ dl) diff
    exact (hw.run h).2 p ((Call.discard_error _ s p).mp hp)
  | endChannelDifference reason => exact ((hc.endChannelDifference reason).run h).2 p hp
  | abortDifference => exact (hc.abortDifference.run h).2 p hp
  | forceResetCommonPts pts qts date seq => cases hp

/-- In every reachable box the entries are strictly sorted and found by their
keys, no key is queued twice, a queued key has an entry with nothing buffered,
and no lawful operation runs into either assertion. -/
theorem reachable_wellFormed (dbg : Bool) {s : MessageBoxes} (h : Reachable dbg s) :
    s.Sorted ∧ (∀ e ∈ s.entries, s.entry e.key = some e) ∧ s.gettingDiffFor.Nodup ∧
    (∀ key ∈ s.gettingDiffFor, ∃ e, s.entry key = some e ∧ e.possibleGap = none) ∧
    ∀ now op, Lawful s (now, op) → ∀ p, ((op.call dbg now).run s).1 = .error p →
      p ≠ .channelEntryMissing ∧ p ≠ .gapWhileGettingDifference := by
  have hinv := h.repInv
  refine ⟨hinv.sorted, fun e he => entry_of_mem hinv.sorted he, hinv.nodup, hinv.backed, ?_⟩
  intro now op hop p hp
  rw [call_panics dbg hinv hop hp]
  exact ⟨by simp, by simp⟩

/-- A snapshot of two channels, and a difference of one of them applied. -/
def twoChannels : UpdatesStateSnap :=
  { pts := 5, qts := 0, date := 1, seq := 1, channels := [⟨2, 7⟩, ⟨1, 3⟩] }

theorem twoChannels_wellFormed :
    let s := Run.final (step true) (Start.load 0 twoChannels).box
      [(1, .getChannelDifference), (2, .applyChannelDifference (.empty true 4 (some 30)))]
    s.gettingDiffFor = [.common, .channel 2] ∧ s.Sorted := by
  refine ⟨by decide, (reachable_wellFormed true ⟨.load 0 twoChannels, _, ?_, ?_, rfl⟩).1⟩
  · change ([2, 1] : List Int).Nodup
    decide
  · exact ⟨trivial, trivial, trivial⟩

end Ferogram.Msgbox
