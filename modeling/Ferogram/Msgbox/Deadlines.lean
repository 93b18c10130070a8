import Ferogram.Msgbox.CommonEntry

/- The cached deadline. `next_deadline` is documented as the minimum deadline
   across all entries; what `check_deadlines` needs of it is that it is never
   later than any of them (`Cached`). Every change of the box keeps that as long
   as the cache is at most `NO_UPDATES_TIMEOUT` ahead (`Move.cached`), because a
   deadline set from the clock is exactly that far ahead.

   Two steps do not: a `check_deadlines` that finds the cache elapsed and nothing
   overdue forgets every deadline within the next fifteen minutes, and a timeout
   of the server may be shorter than the cache or push it too far ahead.
   `KeepsCache` excludes these, and no deadline is missed in a run whose steps
   meet it (`deadlines_not_missed`). -/
namespace Ferogram.Msgbox
open Ferogram.Tl MessageBoxes StableSort

variable {s : MessageBoxes}

/-- The cache is not later than any deadline. -/
def Cached (s : MessageBoxes) : Prop := ∀ e ∈ s.entries, s.nextDeadline ≤ e.effectiveDeadline

theorem foldl_min_le (l : List LiveEntry) : ∀ d : Instant,
    l.foldl (fun d e => min d e.effectiveDeadline) d ≤ d ∧
    ∀ e ∈ l, l.foldl (fun d e => min d e.effectiveDeadline) d ≤ e.effectiveDeadline := by
  induction l with
  | nil => intro d; simp
  | cons a l ih =>
    intro d
    obtain ⟨h1, h2⟩ := ih (min d a.effectiveDeadline)
    refine ⟨le_trans h1 (min_le_left _ _), fun e he => ?_⟩
    rcases List.mem_cons.mp he with rfl | he
    · exact le_trans h1 (min_le_right _ _)
    · exact h2 e he

theorem Cached.setEntry (hs : s.Ordered) (h : Cached s) {e : LiveEntry}
    (he : s.nextDeadline ≤ e.effectiveDeadline) : Cached (s.setEntry e) := by
  intro a ha
  rw [setEntry_nextDeadline]
  rcases mem_setEntry hs ha with rfl | ha
  · exact he
  · exact h a ha

theorem Cached.updateEntry (hs : s.Ordered) (h : Cached s) (key : Key)
    {f : LiveEntry → LiveEntry} (hf : ∀ e, (f e).key = e.key)
    (hdl : ∀ e, s.entry key = some e → s.nextDeadline ≤ (f e).effectiveDeadline) :
    Cached (s.updateEntry key f).2 := by
  rw [updateEntry_snd s key hs hf]
  cases he : s.entry key with
  | none => exact h
  | some e => exact h.setEntry hs (hdl e he)

theorem effectiveDeadline_le_deadline (e : LiveEntry) : e.effectiveDeadline ≤ e.deadline := by
  unfold LiveEntry.effectiveDeadline
  split
  · exact min_le_right _ _
  · exact le_refl _

/-- What is buffered can only bring the deadline forward. -/
theorem le_effectiveDeadline {e : LiveEntry} {d : Instant} :
    d ≤ e.effectiveDeadline ↔ d ≤ e.deadline ∧ ∀ gap, e.possibleGap = some gap → d ≤ gap.deadline := by
  unfold LiveEntry.effectiveDeadline
  cases e.possibleGap with
  | none => simp
  | some gap => simp [and_comm]

theorem Cached.entry (hs : s.Ordered) (h : Cached s) {key : Key} {e : LiveEntry}
    (he : s.entry key = some e) : s.nextDeadline ≤ e.effectiveDeadline := h e (entry_mem hs he).1

theorem Cached.clearGap (hs : s.Ordered) (h : Cached s) (key : Key) :
    Cached (s.clearGap key).2 :=
  h.updateEntry hs key (fun _ => rfl)
    (fun e he => le_trans (h.entry hs he) (effectiveDeadline_le_deadline e))

/-- Either the cache was the entry's own deadline and is computed again, or it
stays. -/
theorem resetDeadline_cases (s : MessageBoxes) (key : Key) (deadline : Instant) :
    (s.nextDeadline = s.oldDeadline key ∧ Cached (s.resetDeadline key deadline) ∧
      (s.resetDeadline key deadline).nextDeadline ≤ deadline) ∨
    (s.nextDeadline ≠ s.oldDeadline key ∧
      s.resetDeadline key deadline =
        (s.updateEntry key (fun e => { e with deadline := deadline })).2) := by
  unfold MessageBoxes.resetDeadline
  dsimp only
  rw [updateEntry_nextDeadline]
  split
  · next h => exact Or.inl ⟨h, (foldl_min_le _ deadline).2, (foldl_min_le _ deadline).1⟩
  · next h => exact Or.inr ⟨h, rfl⟩

/-- A new deadline keeps the cache sound when the cache belonged to the old one,
or is not past the new one. -/
theorem Cached.resetDeadline (hs : s.Ordered) (h : Cached s) {key : Key}
    {deadline : Instant} (hd : s.nextDeadline = s.oldDeadline key ∨ s.nextDeadline ≤ deadline) :
    Cached (s.resetDeadline key deadline) := by
  rcases resetDeadline_cases s key deadline with ⟨-, hc, -⟩ | ⟨hne, heq⟩
  · exact hc
  · rw [heq]
    refine h.updateEntry hs key (fun _ => rfl) (fun e he => le_effectiveDeadline.mpr ⟨?_, ?_⟩)
    · exact hd.resolve_left hne
    · exact (le_effectiveDeadline.mp (h.entry hs he)).2

/-- What holds between two changes at `now`: the cache is sound, and at most
`NO_UPDATES_TIMEOUT` ahead. -/
structure CachedNear (now : Instant) (s : MessageBoxes) : Prop where
  ordered : s.Ordered
  cached : Cached s
  near : s.nextDeadline ≤ nextUpdatesDeadline now

theorem CachedNear.resetDeadline {now : Instant} (h : CachedNear now s)
    (key : Key) : CachedNear now (s.resetDeadline key (nextUpdatesDeadline now)) where
  ordered := (Extends.resetDeadline h.ordered key _).ordered
  cached := h.cached.resetDeadline h.ordered (Or.inr h.near)
  near := by
    rcases resetDeadline_cases s key (nextUpdatesDeadline now) with ⟨-, -, hn⟩ | ⟨-, heq⟩
    · exact hn
    · rw [heq, updateEntry_nextDeadline]
      exact h.near

theorem CachedNear.endGetDiff {now : Instant} (h : CachedNear now s)
    (key : Key) : CachedNear now (s.endGetDiff now key) := by
  rw [endGetDiff_eq]
  split
  · have h' : CachedNear now { s with gettingDiffFor := s.gettingDiffFor.erase key } :=
      ⟨h.ordered, h.cached, h.near⟩
    exact h'.resetDeadline key
  · exact h

/-! The live path: an entry keeps its deadlines or gets later ones, except for
the deadline of a new gap, which is handed back. -/

theorem accept_deadline {e : LiveEntry} {now deadline n : Instant} (u : PtsUpdate)
    (hd : n ≤ deadline) (he : n ≤ e.effectiveDeadline) :
    n ≤ (e.accept now deadline u).1.deadline := by
  have hle := le_trans he (effectiveDeadline_le_deadline e)
  unfold LiveEntry.accept
  split
  · exact hd
  · split <;> exact hle

theorem drainGap_deadline (e : LiveEntry) : e.drainGap.1.deadline = e.deadline := by
  unfold LiveEntry.drainGap
  split
  · rfl
  · dsimp only; split <;> rfl

/-- The deadline handed back is the one of what is still buffered. -/
theorem drainGap_gapDeadline (e : LiveEntry) :
    e.drainGap.2.gapDeadline = e.drainGap.1.possibleGap.map PossibleGap.deadline := by
  unfold LiveEntry.drainGap
  split
  · next h => simp [h]
  · dsimp only; split <;> rfl

theorem feed_effectiveDeadline {e : LiveEntry} {now deadline n : Instant} (u : PtsUpdate)
    (hd : n ≤ deadline) (he : n ≤ e.effectiveDeadline) :
    min n ((e.feed now deadline u).2.gapDeadline.getD deadline) ≤
      (e.feed now deadline u).1.effectiveDeadline := by
  unfold LiveEntry.feed
  dsimp only
  rw [le_effectiveDeadline, drainGap_deadline, drainGap_gapDeadline]
  refine ⟨le_trans (min_le_left _ _) (accept_deadline u hd he), fun gap hgap => ?_⟩
  rw [hgap]
  exact min_le_right _ _

theorem CachedNear.feedLive {now : Instant} (h : CachedNear now s)
    (u : PtsUpdate) : CachedNear now (s.feedLive now (nextUpdatesDeadline now) u).1 := by
  rw [feedLive_eq h.ordered]
  refine ⟨setEntry_ordered h.ordered _, fun a ha => ?_, ?_⟩
  · rcases mem_setEntry h.ordered ha with rfl | ha
    · refine feed_effectiveDeadline u h.near ?_
      unfold liveEntry
      cases he : s.entry u.info.key with
      | none => exact h.near
      | some e => exact h.cached.entry h.ordered he
    · exact le_trans (min_le_left _ _) (h.cached a ha)
  · exact le_trans (min_le_left _ _) h.near

/-- A change keeps the cache sound while it is at most `NO_UPDATES_TIMEOUT` ahead. -/
theorem Move.cached {now : Instant} {s s' : MessageBoxes} (hm : Move now s s')
    (h : CachedNear now s) : CachedNear now s' := by
  have hord := (hm.keys h.ordered).1
  cases hm with
  | bookkeeping he _ hn =>
    refine ⟨hord, fun e hmem => ?_, hn ▸ h.near⟩
    rw [hn]
    exact h.cached e (he ▸ hmem)
  | clearGap key =>
    refine ⟨hord, h.cached.clearGap h.ordered key, ?_⟩
    rw [MessageBoxes.clearGap, updateEntry_nextDeadline]
    exact h.near
  | setPts key pts =>
    refine ⟨hord, ?_, ?_⟩
    · rw [setPts_eq s now key pts h.ordered]
      refine h.cached.setEntry h.ordered ?_
      cases he : s.entry key with
      | none => exact h.near
      | some e =>
        have hle := h.cached.entry h.ordered he
        exact hle
    · rw [setPts_eq s now key pts h.ordered, setEntry_nextDeadline]
      exact h.near
  | track id pts =>
    refine ⟨hord, h.cached.setEntry h.ordered h.near, ?_⟩
    rw [setEntry_nextDeadline]
    exact h.near
  | queue key _ =>
    have hclear := h.cached.clearGap h.ordered key
    have hnext : (s.clearGap key).2.nextDeadline = s.nextDeadline := updateEntry_nextDeadline s key _
    rw [tryBeginGetDiff_eq h.ordered] at hord ⊢
    split
    · exact h
    · next hc =>
      rw [if_neg hc] at hord
      exact ⟨hord, hclear, hnext ▸ h.near⟩
  | unqueue key => exact h.endGetDiff key
  | touch key => exact h.resetDeadline key
  | feed u _ => exact h.feedLive u
  | ban id _ =>
    have hend := h.endGetDiff (.channel id)
    refine ⟨hord, fun e he => ?_, ?_⟩
    · rw [popEntry_nextDeadline]
      rw [popEntry_snd] at he
      exact hend.cached e ((SortedVec.remove_sublist hend.ordered _).subset he)
    · rw [popEntry_nextDeadline]
      exact hend.near

theorem Moves.cached {now : Instant} {s s' : MessageBoxes} (hm : Moves now s s')
    (h : CachedNear now s) : CachedNear now s' := hm.inv (fun _ _ => Move.cached) h

/-! The steps that can spoil the cache, and when they do not. -/

/-- The condition on a step at `now`:
* a `check_deadlines` that resets the cache does so only when every deadline is
  `NO_UPDATES_TIMEOUT` away;
* every other operation finds the cache at most that far ahead;
* a `set_state` is made on an empty box, as its contract asks;
* a server's timeout is not closer than the cache, unless the cache is the
  channel's own deadline and is computed again. -/
def KeepsCache (dbg : Bool) (s : MessageBoxes) (i : Instant × Op) : Prop :=
  match i.2 with
  | .checkDeadlines =>
    s.gettingDiffFor = [] → s.nextDeadline ≤ i.1 → s.dueKeys i.1 = [] →
      ∀ e ∈ s.entries, nextUpdatesDeadline i.1 ≤ e.effectiveDeadline
  | .setState _ => s.isEmpty = true
  | .applyChannelDifference diff =>
    s.nextDeadline ≤ nextUpdatesDeadline i.1 ∧
    ∀ id d t, s.channelDiffInFlight = some id → .channel id ∈ s.gettingDiffFor →
      adaptChannelDifference diff = .ok d → d.timeout = some t → ¬ t < 0 →
      (beforeTimeout dbg i.1 s id d).nextDeadline =
        (beforeTimeout dbg i.1 s id d).oldDeadline (.channel id) ∨
      (beforeTimeout dbg i.1 s id d).nextDeadline ≤ i.1 + t.toInt.toNat * 1000000000
  | _ => s.nextDeadline ≤ nextUpdatesDeadline i.1

theorem clearGaps_cached (keys : List Key) : ∀ {s : MessageBoxes}, s.Ordered → Cached s →
    Cached (clearGaps s keys) := by
  induction keys with
  | nil => exact fun _ h => h
  | cons key keys ih =>
    intro s hs h
    have hext : Extends s (s.clearGap key).2 := Extends.updateEntry hs key (fun _ => rfl)
    exact ih hext.ordered (h.clearGap hs key)

theorem checkDeadlines_cached (hs : s.Ordered) (h : Cached s) {now : Instant}
    (hk : s.gettingDiffFor = [] → s.nextDeadline ≤ now → s.dueKeys now = [] →
      ∀ e ∈ s.entries, nextUpdatesDeadline now ≤ e.effectiveDeadline) :
    Cached (s.checkDeadlines now).2 := by
  rw [checkDeadlines_snd]
  split
  · next hc =>
    split
    · next hd => exact hk hc.1 hc.2 hd
    · exact clearGaps_cached _ hs h
  · exact h

theorem stateSet_cached (hs : s.isEmpty = true) (now : Instant) (state : State) :
    Cached (stateSet s now state) := by
  have hnil : s.entries = [] := by simpa [isEmpty] using hs
  have hord : s.Ordered := by unfold MessageBoxes.Ordered; rw [hnil]; exact List.Pairwise.nil
  intro e he
  rcases mem_setEntry (setEntry_ordered hord _) he with rfl | he
  · exact le_refl _
  · rcases mem_setEntry hord he with rfl | he
    · exact le_refl _
    · rw [hnil] at he
      cases he

/-- A step that meets the condition keeps the cache sound. -/
theorem step_cached (dbg : Bool) (i : Instant × Op) (hk : KeepsCache dbg s i)
    (h : s.Ordered ∧ Cached s) : (step dbg s i).Ordered ∧ Cached (step dbg s i) := by
  refine ⟨step_ordered dbg i h.1, ?_⟩
  obtain ⟨now, op⟩ := i
  -- every operation but the two that have their own case finds the cache near
  have near : op ≠ .checkDeadlines → (∀ state, op ≠ .setState state) →
      s.nextDeadline ≤ nextUpdatesDeadline now := by
    intro h1 h2
    cases op with
    | checkDeadlines => exact absurd rfl h1
    | setState state => exact absurd rfl (h2 state)
    | applyChannelDifference diff => exact hk.1
    | _ => exact hk
  by_cases hcheck : op = .checkDeadlines
  · subst hcheck
    exact checkDeadlines_cached h.1 h.2 hk
  by_cases hset : ∃ state, op = .setState state
  · obtain ⟨state, rfl⟩ := hset
    have hempty : s.isEmpty = true := hk
    have hstep : step dbg s (now, .setState state) = stateSet s now state := by
      simp [step, Op.call, setState, hempty, stateSet]
    rw [hstep]
    exact stateSet_cached hempty now state
  have hnear : CachedNear now s := ⟨h.1, h.2, near hcheck (fun state hs => hset ⟨state, hs⟩)⟩
  rcases step_cases dbg s now op with hm | ⟨hc, -⟩ | ⟨state, hc, -⟩ |
    ⟨diff, id, d, t, rfl, hin, hq, had, ht, hneg, heq⟩
  · exact (hm.cached hnear).cached
  · exact absurd hc hcheck
  · exact absurd ⟨state, hc⟩ hset
  · have hb := (beforeTimeout_moves dbg now s id d).cached hnear
    rw [heq]
    exact hb.cached.resetDeadline hb.ordered (hk.2 id d t hin hq had ht hneg)

theorem start_cached (start : Start) : Cached start.box := by
  cases start with
  | new now => exact fun e he => by cases he
  | load now state =>
    intro e he
    obtain ⟨key, pts, rfl⟩ := fresh_of_mem_load he
    exact le_refl _

/-- A sound cache lets `check_deadlines` queue everything overdue. -/
theorem Cached.checkDeadlines_queues (h : Cached s) (now : Instant)
    (hq : s.gettingDiffFor = []) {e : LiveEntry} (he : e ∈ s.entries)
    (hdue : e.effectiveDeadline ≤ now) : e.key ∈ (s.checkDeadlines now).2.gettingDiffFor := by
  have hmem : e.key ∈ s.dueKeys now := mem_dueKeys.mpr ⟨e, he, rfl, hdue⟩
  have hne : s.dueKeys now ≠ [] := List.ne_nil_of_mem hmem
  rw [checkDeadlines_snd, if_pos ⟨hq, le_trans (h e he) hdue⟩, if_neg hne,
    clearGaps_gettingDiffFor]
  exact hmem

/-- In a run whose steps meet the condition the cache is never later than a
deadline, so no call of `check_deadlines` misses one. -/
theorem deadlines_not_missed (dbg : Bool) (start : Start) (is : List (Instant × Op))
    (hall : Run.AllSteps (step dbg) (KeepsCache dbg) start.box is) :
    ∀ s ∈ Run.states (step dbg) start.box is,
      (∀ e ∈ s.entries, s.nextDeadline ≤ e.effectiveDeadline) ∧
      ∀ now, s.gettingDiffFor ≠ [] ∨
        ∀ e ∈ s.entries, e.effectiveDeadline ≤ now →
          e.key ∈ (s.checkDeadlines now).2.gettingDiffFor := by
  intro s hs
  have hstart : start.box.Ordered ∧ Cached start.box := ⟨start_ordered start, start_cached start⟩
  have hc : Cached s :=
    (Run.states_inv (step dbg) (fun s i hk => step_cached dbg i hk) is start.box hstart hall s hs).2
  refine ⟨hc, fun now => ?_⟩
  by_cases hq : s.gettingDiffFor = []
  · exact Or.inr (fun e he hdue => hc.checkDeadlines_queues now hq he hdue)
  · exact Or.inl hq

/-- The account at `pts` 10 opens a gap after 100 s. -/
def openGap : List (Instant × Op) :=
  [(0, .setState { pts := 10, qts := 5, date := 1, seq := 1 }),
   (100000000000, .processUpdates (.updates (.updateShort
     { update := .deleteMessages [] 12 1, date := 1 })))]

theorem openGap_not_missed :
    let s := Run.final (step true) (Start.new 0).box openGap
    s.nextDeadline = 100500000000 ∧
    ∀ now, s.gettingDiffFor ≠ [] ∨ ∀ e ∈ s.entries, e.effectiveDeadline ≤ now →
      e.key ∈ (s.checkDeadlines now).2.gettingDiffFor := by
  refine ⟨by decide, (deadlines_not_missed true (.new 0) openGap ?_ _
    (Run.final_mem_states (step true) openGap (Start.new 0).box)).2⟩
  refine ⟨rfl, ?_, trivial⟩
  change MessageBoxes.nextDeadline _ ≤ nextUpdatesDeadline _
  decide

/-- The gap closes in time; the deadline it left in the cache elapses. -/
def staleCache : List (Instant × Op) :=
  openGap ++
  [(100200000000, .processUpdates (.updates (.updateShort
     { update := .deleteMessages [] 11 1, date := 1 }))),
   (100500000000, .checkDeadlines)]

/-- After that run the cache is past the deadline of `secondary`, and when that
deadline has elapsed `check_deadlines` does not queue it. -/
theorem deadline_missed :
    let s := Run.final (step true) (Start.new 0).box staleCache
    s.gettingDiffFor = [] ∧ s.nextDeadline = 1000500000000 ∧
    (∃ e ∈ s.entries, e.key = .secondary ∧ e.effectiveDeadline = 900000000000 ∧
      e.key ∉ (s.checkDeadlines 900000000000).2.gettingDiffFor) := by
  decide

end Ferogram.Msgbox
