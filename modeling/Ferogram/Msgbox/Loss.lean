import Mathlib.Data.Set.Finite.Basic
import Mathlib.Data.Set.Finite.Range
import Ferogram.Msgbox.Live

/- What applying a difference returns. Both `apply_difference` and
   `apply_channel_difference` first move the counters to where the server is and
   then feed the other updates of the difference through the live path. There an
   update of a queued key is returned as it is (`refed_queued`), while one of a
   key that is not queued is behind its counter, and is dropped as a duplicate.

   So an account difference loses nothing, whatever it holds, exactly when both
   account keys are queued (`applyDifference_lossless_iff`), and a channel
   difference exactly when it is not final, since a final one takes the channel
   off the queue before the updates are fed (`applyChannelDifference_lossless_iff`). -/
namespace Ferogram.Msgbox
open Ferogram.Tl MessageBoxes StableSort

variable {s : MessageBoxes}

/-! Re-fed updates. -/

/-- What the updates of a difference return when they are re-fed. -/
def refed (s : MessageBoxes) (now : Instant) (us : List Update) : List Update :=
  (s.processAll now us).result

theorem refeedUpdates_run (now : Instant) (p : Panic) (us : List Update) (users : List User)
    (chats : List Chat) (s : MessageBoxes) :
    (refeedUpdates now p us users chats).run s =
      (.ok (refed s now us, users, chats), (s.processUpdates now (refeed us users chats)).2) := by
  simp only [refeedUpdates, Call.bind_run, Call.update_run]
  rw [processUpdates_refeed]
  rfl

/-- Seen by a queued key, a batch returns its updates as they are. -/
theorem View.run_queued {key : Key} {now : Instant} (us : List Update) : ∀ {v : View},
    v.queued = true → (∀ u ∈ us, belongsTo key u = true) →
    (v.run key now us).out = v.out ++ us.filter (fun u => decide (NotTooLong u)) := by
  induction us with
  | nil => intro v _ _; simp [View.run, Run.final]
  | cons u us ih =>
    intro v hq hall
    have hrest : ∀ x ∈ us, belongsTo key x = true :=
      fun x hx => hall x (List.mem_cons_of_mem u hx)
    change (View.run key now (v.update key now (nextUpdatesDeadline now) u) us).out = _
    rcases update_cases u with ⟨id, pts, rfl⟩ | ⟨ht, hnone⟩ | ⟨p, rfl, ht⟩
    · -- the channel is queued already
      have hno : ¬ NotTooLong (.channelTooLong id pts) := fun h => h id pts rfl
      have hv : (v.update key now (nextUpdatesDeadline now) (.channelTooLong id pts)).queued = true := by
        simp [View.update, View.tooLong, View.tryBegin, hq]
      rw [ih hv hrest, List.filter_cons_of_neg (by simpa using hno)]
      rfl
    · have hbel := hall u (by simp)
      simp [belongsTo, updateKey_plain ht hnone] at hbel
    · rw [View.update_pts key v now _ ht]
      have hv : (v.pts now (nextUpdatesDeadline now) p).queued = true := by
        rw [View.pts_queued]; exact hq
      rw [ih hv hrest, List.filter_cons_of_pos (by simpa using ht)]
      simp [View.pts, hq]

/-- An update of a queued key is returned as often as it is in the batch. -/
theorem refed_queued (h : Sound s) (now : Instant) (key : Key)
    (hq : key ∈ s.gettingDiffFor) (us : List Update) {u : Update} (hu : belongsTo key u = true)
    (ht : NotTooLong u) : (refed s now us).count u = us.count u := by
  have hview := congrArg View.out (processAll_view h now us key)
  have hqv : (s.view key []).queued = true := by simpa [MessageBoxes.view] using hq
  have hbel : ∀ x ∈ sortByKey updateSortKey (us.filter (belongsTo key)), belongsTo key x = true := by
    intro x hx
    rw [mem_sortByKey, List.mem_filter] at hx
    exact hx.2
  rw [View.run_queued _ hqv hbel] at hview
  change (refed s now us).filter (belongsTo key) = _ at hview
  calc (refed s now us).count u
      = ((refed s now us).filter (belongsTo key)).count u := (List.count_filter hu).symm
    _ = (sortByKey updateSortKey (us.filter (belongsTo key))).count u := by
      rw [hview]
      exact List.count_filter (by simpa using ht)
    _ = (us.filter (belongsTo key)).count u := (sortByKey_perm _ _).count_eq u
    _ = us.count u := List.count_filter hu

/-- The updates of a key that is not queued go through its buffer. -/
theorem refed_unqueued (h : Sound s) (now : Instant) {key : Key} {e : LiveEntry}
    (he : s.entry key = some e) (hq : key ∉ s.gettingDiffFor) {u : PtsUpdate}
    (hu : u.info.key = key) (ht : NotTooLong u.update) :
    (refed s now [u.update]).filter (belongsTo key) =
      (feedBuffer e.buffer u).2.map PtsUpdate.update := by
  have hview := congrArg View.out (processAll_view h now [u.update] key)
  have hqv : (s.view key []).queued = false := by simpa [MessageBoxes.view] using hq
  have hsort : sortByKey updateSortKey ([u.update].filter (belongsTo key)) =
      [u].map PtsUpdate.update := by
    rw [List.filter_cons_of_pos (by simp [belongsTo_ptsUpdate, hu])]
    rfl
  have hno : ∀ x ∈ [u], NotTooLong x.update := fun x hx => by
    rw [List.mem_singleton] at hx; exact hx ▸ ht
  rw [hsort, View.run_eq_feedAll [u] hno] at hview
  obtain ⟨e', -, -, hout, -⟩ := View.feedAll_buffer [(now, u)] hqv he
  refine hview.trans (hout.trans ?_)
  simp [MessageBoxes.view, runBuffer, Reorder.run, feedBuffer]

/-- An update that is behind the counter of a key that is not queued is lost,
unless a copy of it was buffered. -/
theorem refed_late (h : Sound s) (now : Instant) {key : Key} {e : LiveEntry}
    (he : s.entry key = some e) (hq : key ∉ s.gettingDiffFor) {u : PtsUpdate}
    (hu : u.info.key = key) (ht : NotTooLong u.update) (hlate : ptsOrder e.pts u = .gt)
    (hheld : u ∉ e.held) : (refed s now [u.update]).count u.update = 0 := by
  rw [List.count_eq_zero]
  intro hmem
  have hbel : belongsTo key u.update = true := by simp [belongsTo_ptsUpdate, hu]
  have hin : u.update ∈ (refed s now [u.update]).filter (belongsTo key) :=
    List.mem_filter.mpr ⟨hmem, hbel⟩
  rw [refed_unqueued h now he hq hu ht] at hin
  obtain ⟨p, hp, hpu⟩ := List.mem_map.mp hin
  rw [PtsUpdate.eq_of_update hpu] at hp
  exact hheld (Reorder.mem_feed_of_late gapStack_perm hlate hp)

/-- There is always an update that is not buffered. -/
theorem exists_not_held (l : List PtsUpdate) {f : Nat → PtsUpdate} (hf : Function.Injective f) :
    ∃ n, f n ∉ l := by
  by_contra hc
  push Not at hc
  have hfin : (Set.range f).Finite :=
    (List.finite_toSet l).subset (by rintro _ ⟨n, rfl⟩; exact hc n)
  exact Set.infinite_range_of_injective hf hfin

/-- A deletion that leads the account from 0 to 1, one for each number. -/
def commonUpdate (n : Nat) : PtsUpdate :=
  ⟨.deleteMessages (List.replicate n 0) 1 1, ⟨.common, 1, 1⟩, rfl⟩

/-- The same for the `qts` of the account. -/
def secondaryUpdate (n : Nat) : PtsUpdate :=
  ⟨.botStopped (List.replicate n 0) 1, ⟨.secondary, 1, 1⟩, rfl⟩

theorem commonUpdate_injective : Function.Injective commonUpdate := by
  intro a b hab
  have h := congrArg PtsUpdate.update hab
  simp only [commonUpdate, Update.deleteMessages.injEq, and_true] at h
  simpa using congrArg List.length h

theorem secondaryUpdate_injective : Function.Injective secondaryUpdate := by
  intro a b hab
  have h := congrArg PtsUpdate.update hab
  simp only [secondaryUpdate, Update.botStopped.injEq, and_true] at h
  simpa using congrArg List.length h

/-- An update that leads from 0 to 1 is late at 1. -/
theorem ptsOrder_of_one {u : PtsUpdate} (hpts : u.info.pts = 1) (hcount : u.info.count = 1) :
    ptsOrder 1 u = .gt := by
  unfold ptsOrder
  rw [hpts, hcount]
  decide

/-! The account. -/

/-- The box the other updates of an account difference are fed to. -/
def differenceBase (s : MessageBoxes) (now : Instant) (d : DifferenceBody) : MessageBoxes :=
  ((MessageBoxes.setPts { s with date := d.state.date, seq := d.state.seq } now .common
    d.state.pts).setPts now .secondary d.state.qts)

theorem differenceBase_moves (s : MessageBoxes) (now : Instant) (d : DifferenceBody) :
    Moves now s (differenceBase s now d) := by
  have h : Move now s { s with date := d.state.date, seq := d.state.seq } :=
    .bookkeeping rfl rfl rfl
  exact ((Moves.single h).snoc (.setPts _ _ _)).snoc (.setPts _ _ _)

theorem setPts_gettingDiffFor (hs : s.Ordered) (now : Instant) (key : Key)
    (pts : Int32) : (s.setPts now key pts).gettingDiffFor = s.gettingDiffFor := by
  rw [setPts_eq s now key pts hs, setEntry_gettingDiffFor]

theorem entry_setPts (hs : s.Sorted) (now : Instant) (key : Key) (pts : Int32)
    (key' : Key) :
    (s.setPts now key pts).entry key' =
      if key' = key then
        some { (s.entry key).getD (freshEntry key pts (nextUpdatesDeadline now)) with pts := pts }
      else s.entry key' := by
  have hkey : ((s.entry key).getD (freshEntry key pts (nextUpdatesDeadline now))).key = key := by
    cases he : s.entry key with
    | none => rfl
    | some e => exact entry_key hs.ordered he
  rw [setPts_eq s now key pts hs.ordered, entry_setEntry hs]
  simp only [hkey]

/-- What is buffered for a key. -/
def heldFor (s : MessageBoxes) (key : Key) : List PtsUpdate :=
  ((s.entry key).map LiveEntry.held).getD []

theorem mem_heldFor {key : Key} {e : LiveEntry} (he : s.entry key = some e)
    {u : PtsUpdate} (hu : u ∈ e.held) : u ∈ heldFor s key := by
  rw [heldFor, he]
  exact hu

theorem setPts_held (s : MessageBoxes) (key : Key) (pts : Int32) (deadline : Instant) :
    LiveEntry.held { (s.entry key).getD (freshEntry key pts deadline) with pts := pts } =
      heldFor s key := by
  unfold heldFor
  cases s.entry key <;> rfl

/-- The counters are at the state of the difference, and nothing else has changed. -/
theorem differenceBase_entry (hs : s.Sorted) (now : Instant)
    (d : DifferenceBody) :
    (differenceBase s now d).gettingDiffFor = s.gettingDiffFor ∧
    (∃ e, (differenceBase s now d).entry .common = some e ∧ e.pts = d.state.pts ∧
      e.held = heldFor s .common) ∧
    ∃ e, (differenceBase s now d).entry .secondary = some e ∧ e.pts = d.state.qts ∧
      e.held = heldFor s .secondary := by
  have hs₀ : Sorted { s with date := d.state.date, seq := d.state.seq } := hs
  have hs₁ : (MessageBoxes.setPts { s with date := d.state.date, seq := d.state.seq } now .common
      d.state.pts).Sorted := by
    rw [setPts_eq _ _ _ _ hs₀.ordered]
    exact setEntry_sorted hs₀ _
  unfold differenceBase
  refine ⟨?_, ?_, ?_⟩
  · rw [setPts_gettingDiffFor hs₁.ordered, setPts_gettingDiffFor hs₀.ordered]
  · rw [entry_setPts hs₁, if_neg (by simp), entry_setPts hs₀, if_pos rfl]
    exact ⟨_, rfl, rfl, setPts_held s .common _ _⟩
  · rw [entry_setPts hs₁, if_pos rfl]
    refine ⟨_, rfl, rfl, ?_⟩
    rw [setPts_held, heldFor, entry_setPts hs₀, if_neg (by simp)]
    rfl

/-- No assertion fires when a key leaves the queue. -/
theorem tryEndGetDiff_run (dbg : Bool) (now : Instant) (h : RepInv s) (key : Key) :
    (tryEndGetDiff dbg now key).run s = (.ok (), s.endGetDiff now key) := by
  have hin := ((repInv_carried dbg now (fun _ => False)).tryEndGetDiff key).run h
  have hsnd : ((tryEndGetDiff dbg now key).run s).2 = s.endGetDiff now key := tryEndGetDiff_snd s key
  rcases hr : (tryEndGetDiff dbg now key).run s with ⟨x, s'⟩
  rw [hr] at hin hsnd
  cases x with
  | ok _ => exact Prod.ext rfl hsnd
  | error p => exact (hin.2 p rfl).elim

theorem finishDifference_run (dbg : Bool) (now : Instant) (h : RepInv s)
    (r : UpdateAndPeers) :
    (finishDifference dbg now r).run s =
      (.ok r, (s.endGetDiff now .common).endGetDiff now .secondary) := by
  simp only [finishDifference, Call.bind_run, tryEndGetDiff_run dbg now h,
    tryEndGetDiff_run dbg now (h.endGetDiff now .common)]
  rfl

/-- A full difference or a slice. -/
def differenceOf (full : Bool) (d : DifferenceBody) : Difference :=
  if full then .difference d else .slice d

/-- The box after the other updates of a difference have been fed. -/
def differenceFed (s : MessageBoxes) (now : Instant) (d : DifferenceBody) : MessageBoxes :=
  ((differenceBase s now d).processUpdates now (refeed d.otherUpdates d.users d.chats)).2

theorem differenceFed_moves (s : MessageBoxes) (now : Instant) (d : DifferenceBody) :
    Moves now s (differenceFed s now d) :=
  (differenceBase_moves s now d).trans (processUpdates_moves _ _)

theorem applyDifferenceType_run (s : MessageBoxes) (now : Instant) (d : DifferenceBody) :
    (applyDifferenceType now d).run s =
      (.ok (d.newMessages.map wrapNewMessage ++
          d.newEncryptedMessages.map wrapNewEncryptedMessage ++
          refed (differenceBase s now d) now d.otherUpdates, d.users, d.chats),
        differenceFed s now d) := by
  have hrefeed := refeedUpdates_run now .gapApplyingDifference d.otherUpdates d.users d.chats
    (differenceBase s now d)
  unfold differenceBase at hrefeed
  simp only [applyDifferenceType, Call.bind_run, Call.edit_run, hrefeed]
  rfl

theorem applyDifference_run (dbg : Bool) (now : Instant) (h : RepInv s)
    (hq : .common ∈ s.gettingDiffFor ∨ .secondary ∈ s.gettingDiffFor) (full : Bool)
    (d : DifferenceBody) :
    (applyDifference dbg now (differenceOf full d)).run s =
      (.ok (d.newMessages.map wrapNewMessage ++
          d.newEncryptedMessages.map wrapNewEncryptedMessage ++
          refed (differenceBase s now d) now d.otherUpdates, d.users, d.chats),
        if full then ((differenceFed s now d).endGetDiff now .common).endGetDiff now .secondary
        else differenceFed s now d) := by
  have hpending : (s.gettingDiffFor.contains .common || s.gettingDiffFor.contains .secondary) = true := by
    simpa using hq
  have htype := applyDifferenceType_run s now d
  simp only [applyDifference, Call.bind_run, Call.read_run, hpending, Bool.not_true,
    Bool.false_eq_true, if_false]
  cases full with
  | true =>
    simp only [differenceOf, if_true, Call.bind_run, htype]
    exact finishDifference_run dbg now ((differenceFed_moves s now d).repInv h) _
  | false =>
    simp only [differenceOf, Bool.false_eq_true, if_false, htype]

/-- The state of the difference accounts for the update. -/
def Covered (state : State) (info : PtsInfo) : Prop :=
  (info.key = .common ∧ info.pts ≤ state.pts) ∨ (info.key = .secondary ∧ info.pts ≤ state.qts)

/-- `apply_difference` returns every message of the difference and every update of
the account that its state accounts for, each as often as the difference holds it. -/
def Lossless (dbg : Bool) (now : Instant) (s : MessageBoxes) (full : Bool) (d : DifferenceBody) :
    Prop :=
  ∃ rest users chats,
    ((applyDifference dbg now (differenceOf full d)).run s).1 =
      .ok (d.newMessages.map wrapNewMessage ++
        d.newEncryptedMessages.map wrapNewEncryptedMessage ++ rest, users, chats) ∧
    ∀ u ∈ d.otherUpdates, ∀ info, PtsInfo.fromUpdate u = some info → Covered d.state info →
      rest.count u = d.otherUpdates.count u

/-- An update of the account is no `updateChannelTooLong`. -/
theorem notTooLong_of_covered {u : Update} {info : PtsInfo} (hinfo : PtsInfo.fromUpdate u = some info)
    {state : State} (hcov : Covered state info) : NotTooLong u := by
  intro id pts heq
  have hkey : updateKey u = some info.key := updateKey_of_fromUpdate hinfo
  rw [heq] at hkey
  have hch : info.key = .channel id := by simpa [updateKey] using hkey.symm
  rcases hcov with ⟨hk, -⟩ | ⟨hk, -⟩ <;> rw [hch] at hk <;> cases hk

/-- A difference that holds one update, with its state right behind it. -/
def oneUpdate (u : PtsUpdate) : DifferenceBody :=
  { newMessages := [], newEncryptedMessages := [], otherUpdates := [u.update], chats := [],
    users := [], state := { pts := u.info.pts, qts := u.info.pts, date := 1, seq := 1 } }

/-- Such an update is lost if its key is not queued and it is not buffered. -/
theorem oneUpdate_lost (dbg : Bool) (now : Instant) (h : Sound s)
    (hq : .common ∈ s.gettingDiffFor ∨ .secondary ∈ s.gettingDiffFor) (full : Bool) {u : PtsUpdate}
    (hcov : Covered (oneUpdate u).state u.info) (hkey : u.info.key ∉ s.gettingDiffFor)
    (hlate : ptsOrder u.info.pts u = .gt) (hheld : u ∉ heldFor s u.info.key) :
    ¬ Lossless dbg now s full (oneUpdate u) := by
  rintro ⟨rest, users, chats, hrun, hcount⟩
  rw [applyDifference_run dbg now h.rep hq full] at hrun
  have hrest : rest = refed (differenceBase s now (oneUpdate u)) now [u.update] := by
    injection hrun with hrun
    injection hrun with hrun
    exact (List.append_cancel_left hrun).symm
  have hu := hcount u.update (by simp [oneUpdate]) u.info u.from_update hcov
  obtain ⟨hgdf, hcommon, hsecondary⟩ := differenceBase_entry h.rep.sorted now (oneUpdate u)
  obtain ⟨e, he, hpts, hsame⟩ : ∃ e,
      (differenceBase s now (oneUpdate u)).entry u.info.key = some e ∧ e.pts = u.info.pts ∧
      e.held = heldFor s u.info.key := by
    rcases hcov with ⟨hk, -⟩ | ⟨hk, -⟩ <;> rw [hk]
    · exact hcommon
    · exact hsecondary
  rw [hrest, refed_late ((differenceBase_moves s now _).sound h) now he (by rw [hgdf]; exact hkey)
    rfl (notTooLong_of_covered u.from_update hcov) (by rw [hpts]; exact hlate) (by rw [hsame]; exact hheld)] at hu
  simp [oneUpdate] at hu

/-- An account difference loses nothing if every update its state accounts for
belongs to a queued key. None loses anything exactly when both keys are queued. -/
theorem applyDifference_lossless_iff (dbg : Bool) {s : MessageBoxes} (h : Reachable dbg s)
    (hq : .common ∈ s.gettingDiffFor ∨ .secondary ∈ s.gettingDiffFor) (now : Instant)
    (full : Bool) :
    (∀ d : DifferenceBody,
      (∀ u ∈ d.otherUpdates, ∀ info, PtsInfo.fromUpdate u = some info → Covered d.state info →
        info.key ∈ s.gettingDiffFor) → Lossless dbg now s full d) ∧
    ((∀ d, Lossless dbg now s full d) ↔
      .common ∈ s.gettingDiffFor ∧ .secondary ∈ s.gettingDiffFor) := by
  have hsound := h.sound
  have henough : ∀ d : DifferenceBody,
      (∀ u ∈ d.otherUpdates, ∀ info, PtsInfo.fromUpdate u = some info → Covered d.state info →
        info.key ∈ s.gettingDiffFor) → Lossless dbg now s full d := by
    intro d hkeys
    refine ⟨_, _, _, congrArg Prod.fst (applyDifference_run dbg now hsound.rep hq full d), ?_⟩
    intro u hu info hinfo hcov
    refine refed_queued ((differenceBase_moves s now d).sound hsound) now info.key ?_
      d.otherUpdates ?_ (notTooLong_of_covered hinfo hcov)
    · rw [(differenceBase_entry hsound.rep.sorted now d).1]
      exact hkeys u hu info hinfo hcov
    · simp [belongsTo, updateKey_of_fromUpdate hinfo]
  refine ⟨henough, ?_, ?_⟩
  · intro hall
    constructor
    · by_contra hc
      obtain ⟨n, hn⟩ := exists_not_held (heldFor s .common) commonUpdate_injective
      exact oneUpdate_lost dbg now hsound hq full (u := commonUpdate n)
        (Or.inl ⟨rfl, Int32.le_refl _⟩) hc (ptsOrder_of_one rfl rfl) hn (hall _)
    · by_contra hc
      obtain ⟨n, hn⟩ := exists_not_held (heldFor s .secondary) secondaryUpdate_injective
      exact oneUpdate_lost dbg now hsound hq full (u := secondaryUpdate n)
        (Or.inr ⟨rfl, Int32.le_refl _⟩) hc (ptsOrder_of_one rfl rfl) hn (hall _)
  · rintro ⟨hcommon, hsecondary⟩ d
    apply henough
    rintro u - info - (⟨hk, -⟩ | ⟨hk, -⟩) <;> rw [hk]
    · exact hcommon
    · exact hsecondary

/-- An `updatesTooLong` queues `common` alone. -/
def seqGap : MessageBoxes :=
  Run.final (step true) (Start.new 0).box
    [(0, .setState { pts := 10, qts := 5, date := 1, seq := 1 }),
     (1, .processUpdates (.updates .tooLong))]

theorem seqGap_reachable : Reachable true seqGap := by
  refine ⟨.new 0, [(0, .setState { pts := 10, qts := 5, date := 1, seq := 1 }),
    (1, .processUpdates (.updates .tooLong))], trivial, ?_, rfl⟩
  exact ⟨rfl, trivial, trivial⟩

/-- One update of each account key, both accounted for by the state. -/
def bothKeys : DifferenceBody :=
  { newMessages := [], newEncryptedMessages := [],
    otherUpdates := [.deleteMessages [7] 11 1, .botStopped [7] 6], chats := [], users := [],
    state := { pts := 11, qts := 6, date := 1, seq := 2 } }

theorem seqGap_lossless_common :
    Lossless true 2 seqGap true { bothKeys with otherUpdates := [.deleteMessages [7] 11 1] } := by
  refine (applyDifference_lossless_iff true seqGap_reachable (by decide) 2 true).1 _ ?_
  intro u hu info hinfo _
  obtain rfl : u = .deleteMessages [7] 11 1 := by simpa using hu
  cases hinfo
  decide

/-- The `qts` update of such a difference is lost. -/
theorem seqGap_loses_secondary :
    Reachable true seqGap ∧ .common ∈ seqGap.gettingDiffFor ∧
    ((applyDifference true 2 (.difference bothKeys)).run seqGap).1 =
      .ok ([.deleteMessages [7] 11 1], [], []) ∧ ¬ Lossless true 2 seqGap true bothKeys := by
  refine ⟨seqGap_reachable, by decide, by decide, ?_⟩
  rintro ⟨rest, users, chats, hrun, hcount⟩
  have hu := hcount (.botStopped [7] 6) (by decide) ⟨.secondary, 6, 1⟩ rfl (Or.inr ⟨rfl, by decide⟩)
  have hrest : rest = [.deleteMessages [7] 11 1] := by
    have hr : ((applyDifference true 2 (differenceOf true bothKeys)).run seqGap).1 =
        .ok ([.deleteMessages [7] 11 1], [], []) := by decide
    rw [hr] at hrun
    injection hrun with hrun
    injection hrun with hrun
    exact hrun.symm
  rw [hrest] at hu
  exact absurd hu (by decide)

/-! Channels. -/

/-- The box the other updates of a channel difference are fed to. -/
def channelBase (s : MessageBoxes) (now : Instant) (id : Int) (d : ChannelDifferenceBody) :
    MessageBoxes :=
  let s := channelTaken s id
  let s := if d.final then s.endGetDiff now (.channel id) else s
  s.setPts now (.channel id) d.pts

theorem channelBase_moves (s : MessageBoxes) (now : Instant) (id : Int)
    (d : ChannelDifferenceBody) : Moves now s (channelBase s now id d) := by
  unfold channelBase
  dsimp only
  split
  · exact ((channelTaken_moves s id).snoc (.unqueue _ _)).snoc (.setPts _ _ _)
  · exact (channelTaken_moves s id).snoc (.setPts _ _ _)

theorem endIfFinal_run (dbg : Bool) (now : Instant) (h : RepInv s) (id : Int)
    (final : Bool) :
    (endIfFinal dbg now id final).run s =
      (.ok (), if final then s.endGetDiff now (.channel id) else s) := by
  unfold endIfFinal
  cases final with
  | true => exact tryEndGetDiff_run dbg now h (.channel id)
  | false => rfl

theorem channelTaken_repInv (h : RepInv s) (id : Int) :
    RepInv (channelTaken s id) := (channelTaken_moves s id : Moves 0 s _).repInv h

/-- The box after the other updates of a difference of channel `id` have been fed. -/
def channelFed (s : MessageBoxes) (now : Instant) (id : Int) (d : ChannelDifferenceBody) :
    MessageBoxes :=
  ((channelBase s now id d).processUpdates now (refeed d.otherUpdates d.users d.chats)).2

theorem applyChannelBody_run (dbg : Bool) (now : Instant) (h : RepInv s)
    (id : Int) (d : ChannelDifferenceBody) :
    (applyChannelBody dbg now id d).run (channelTaken s id) =
      (.ok (d.newMessages.map wrapNewChannelMessage ++
        refed (channelBase s now id d) now d.otherUpdates, d.users, d.chats),
        channelFed s now id d) := by
  have hrefeed := refeedUpdates_run now .gapApplyingChannelDifference d.otherUpdates d.users
    d.chats (channelBase s now id d)
  unfold channelBase at hrefeed
  dsimp only at hrefeed
  simp only [applyChannelBody, Call.bind_run, Call.edit_run,
    endIfFinal_run dbg now (channelTaken_repInv h id), hrefeed]
  rfl

/-- The timeout a difference sets is not negative. -/
def TimeoutFits (timeout : Option Int32) : Prop := ∀ t, timeout = some t → ¬ t < 0

/-- What `apply_channel_difference` returns for a well-formed difference. -/
theorem applyChannelDifference_run (dbg : Bool) (now : Instant) (h : RepInv s)
    {id : Int} (hin : s.channelDiffInFlight = some id) (hq : .channel id ∈ s.gettingDiffFor)
    {diff : ChannelDifference} {d : ChannelDifferenceBody}
    (hd : adaptChannelDifference diff = .ok d) :
    (TimeoutFits d.timeout → ((applyChannelDifference dbg now diff).run s).1 =
      .ok (d.newMessages.map wrapNewChannelMessage ++
        refed (channelBase s now id d) now d.otherUpdates, d.users, d.chats)) ∧
    (¬ TimeoutFits d.timeout →
      ((applyChannelDifference dbg now diff).run s).1 = .error .instantOverflow) := by
  have hqueued : s.gettingDiffFor.contains (.channel id) = true := by simpa using hq
  have hbody := applyChannelBody_run dbg now h id d
  unfold channelTaken at hbody
  simp only [applyChannelDifference, Call.bind_run, Call.read_run, Call.edit_run, hin, hqueued,
    Bool.not_true, Bool.false_eq_true, if_false, hd, hbody, resetTimeout, TimeoutFits]
  cases d.timeout with
  | none => simp
  | some t =>
    by_cases ht : t < 0
    · simp [ht]
    · simp [ht]

/-- A difference without the counter to move to is given up on. -/
theorem applyChannelDifference_malformed (dbg : Bool) (now : Instant)
    (h : RepInv s) {id : Int} (hin : s.channelDiffInFlight = some id)
    (hq : .channel id ∈ s.gettingDiffFor) {diff : ChannelDifference} {g : Gap}
    (hd : adaptChannelDifference diff = .error g) :
    ((applyChannelDifference dbg now diff).run s).1 = .ok ([], [], []) := by
  have hqueued : s.gettingDiffFor.contains (.channel id) = true := by simpa using hq
  have htaken := channelTaken_repInv h id
  have hmark : RepInv { channelTaken s id with channelDiffInFlight := some id } :=
    htaken.congr rfl rfl
  have hend := ((repInv_carried dbg now (fun _ => False)).endChannelDifference
    .temporaryServerIssues).run hmark
  unfold channelTaken at hend
  simp only [applyChannelDifference, Call.bind_run, Call.read_run, Call.edit_run, hin, hqueued,
    Bool.not_true, Bool.false_eq_true, if_false, hd]
  rcases hr : (MessageBoxes.endChannelDifference dbg now .temporaryServerIssues).run _ with ⟨x, s'⟩
  dsimp only at hend
  rw [hr] at hend
  cases x with
  | ok _ => rfl
  | error p => exact (hend.2 p rfl).elim

/-- The channel's counter is at the difference, nothing is buffered, and the
channel is queued unless the difference is final. -/
theorem channelBase_entry (h : RepInv s) (now : Instant) {id : Int}
    (hq : .channel id ∈ s.gettingDiffFor) (d : ChannelDifferenceBody) :
    (.channel id ∈ (channelBase s now id d).gettingDiffFor ↔ d.final = false) ∧
    ∃ e, (channelBase s now id d).entry (.channel id) = some e ∧ e.pts = d.pts ∧ e.held = [] := by
  have htaken := channelTaken_repInv h id
  have hqt : .channel id ∈ (channelTaken s id).gettingDiffFor := by
    unfold channelTaken MessageBoxes.clearGap
    rw [updateEntry_gettingDiffFor]
    exact hq
  obtain ⟨e, he, hgap⟩ := htaken.backed _ hqt
  unfold channelBase
  dsimp only
  cases hf : d.final with
  | false =>
    simp only [Bool.false_eq_true, if_false, iff_true]
    refine ⟨?_, ?_⟩
    · rw [setPts_gettingDiffFor htaken.sorted.ordered]
      exact hqt
    · rw [entry_setPts htaken.sorted, if_pos rfl, he]
      refine ⟨_, rfl, rfl, ?_⟩
      simp [LiveEntry.held, hgap]
  | true =>
    have hend := htaken.endGetDiff now (.channel id)
    simp only [if_true, Bool.true_eq_false, iff_false]
    refine ⟨?_, ?_⟩
    · rw [setPts_gettingDiffFor hend.sorted.ordered, endGetDiff_gettingDiffFor]
      exact htaken.nodup.not_mem_erase
    · rw [entry_setPts hend.sorted, if_pos rfl, entry_endGetDiff htaken.sorted,
        if_pos ⟨rfl, hqt⟩, he]
      refine ⟨_, rfl, rfl, ?_⟩
      simp [LiveEntry.held, hgap]

/-- The update belongs to the channel, and a difference up to `pts` accounts for it. -/
def ChannelCovered (id : Int) (pts : Int32) (u : Update) : Prop :=
  ∃ info, PtsInfo.fromUpdate u = some info ∧ info.key = .channel id ∧ info.pts ≤ pts

/-- `apply_channel_difference` returns every message of the difference and every
update of the channel that it accounts for, each as often as the difference holds
it. The other two forms of a difference hold neither. -/
def ChannelLossless (dbg : Bool) (now : Instant) (s : MessageBoxes) (id : Int)
    (diff : ChannelDifference) : Prop :=
  ∃ returned users chats,
    ((applyChannelDifference dbg now diff).run s).1 = .ok (returned, users, chats) ∧
    ∀ d, diff = .channelDifference d →
      ∃ rest, returned = d.newMessages.map wrapNewChannelMessage ++ rest ∧
        ∀ u ∈ d.otherUpdates, ChannelCovered id d.pts u → rest.count u = d.otherUpdates.count u

/-- An update of a channel that leads to `pts`, or to -1 where 0 means no counter. -/
def channelUpdate (id : Int) (pts : Int32) : PtsUpdate :=
  if h : pts = NO_PTS then ⟨.deleteChannelMessages id [] (-1) 1, ⟨.channel id, -1, 1⟩, rfl⟩
  else ⟨.deleteChannelMessages id [] pts 1, ⟨.channel id, pts, 1⟩, by
    simp [PtsInfo.fromUpdate, PtsInfo.raw, h]⟩

theorem channelUpdate_spec (id : Int) (pts : Int32) :
    (channelUpdate id pts).info.key = .channel id ∧ (channelUpdate id pts).info.pts ≤ pts ∧
    NotTooLong (channelUpdate id pts).update ∧ ptsOrder pts (channelUpdate id pts) ≠ .eq := by
  unfold channelUpdate
  split
  · next h =>
    subst h
    refine ⟨rfl, ?_, fun _ _ h => ?_, fun h => ?_⟩
    · show (-1 : Int32) ≤ NO_PTS
      decide
    · cases h
    · have hsum : NO_PTS + 1 = (-1 : Int32) := ptsOrder_eq.mp h
      exact absurd hsum (by decide)
  · refine ⟨rfl, Int32.le_refl _, fun _ _ h => ?_, fun h => ?_⟩
    · cases h
    · have hsum : pts + 1 = pts := ptsOrder_eq.mp h
      simp at hsum

/-- A final difference with that update alone. -/
def finalUpdate (id : Int) (pts : Int32) (timeout : Option Int32) : ChannelDifferenceBody :=
  { final := true, pts := pts, timeout := timeout, newMessages := [],
    otherUpdates := [(channelUpdate id pts).update], chats := [], users := [] }

theorem finalUpdate_lost (dbg : Bool) (now : Instant) (h : Sound s) {id : Int}
    (hin : s.channelDiffInFlight = some id) (hq : .channel id ∈ s.gettingDiffFor) (pts : Int32)
    {timeout : Option Int32} (htime : TimeoutFits timeout) :
    ¬ ChannelLossless dbg now s id (.channelDifference (finalUpdate id pts timeout)) := by
  rintro ⟨returned, users, chats, hrun, hall⟩
  obtain ⟨rest, hrest, hcount⟩ := hall _ rfl
  obtain ⟨hkey, hle, hnot, hnext⟩ := channelUpdate_spec id pts
  have hd : adaptChannelDifference (.channelDifference (finalUpdate id pts timeout)) =
      .ok (finalUpdate id pts timeout) := rfl
  rw [(applyChannelDifference_run dbg now h.rep hin hq hd).1 htime, hrest] at hrun
  have heq : rest = refed (channelBase s now id (finalUpdate id pts timeout)) now
      [(channelUpdate id pts).update] := by
    injection hrun with hrun
    injection hrun with hrun
    exact hrun.symm
  obtain ⟨hqueued, e, he, hpts, hheld⟩ := channelBase_entry h.rep now hq (finalUpdate id pts timeout)
  have hnq : .channel id ∉ (channelBase s now id (finalUpdate id pts timeout)).gettingDiffFor :=
    fun hc => by cases hqueued.mp hc
  have hsound := (channelBase_moves s now id (finalUpdate id pts timeout)).sound h
  -- nothing is released, so the update is not among what comes back
  have hnone : (refed (channelBase s now id (finalUpdate id pts timeout)) now
      [(channelUpdate id pts).update]).filter (belongsTo (.channel id)) = [] := by
    have hpos : e.buffer.pos = pts := hpts
    have hempty : (feedBuffer e.buffer (channelUpdate id pts)).2 = [] :=
      Reorder.feed_empty gapStack_perm hheld (by rw [hpos]; exact hnext)
    rw [refed_unqueued hsound now he hnq hkey hnot, hempty]
    rfl
  have hu := hcount (channelUpdate id pts).update (by simp [finalUpdate])
    ⟨_, (channelUpdate id pts).from_update, hkey, hle⟩
  have hbel : belongsTo (.channel id) (channelUpdate id pts).update = true := by
    simp [belongsTo_ptsUpdate, hkey]
  rw [heq, ← List.count_filter hbel, hnone] at hu
  simp [finalUpdate] at hu

/-- A channel difference loses nothing if its timeout is not negative and, should
it account for updates of the channel, it is not final and they are no
`updateChannelTooLong`. Whatever the messages and updates, differences with a
given header lose nothing exactly when it is not final and its timeout is not
negative. -/
theorem applyChannelDifference_lossless_iff (dbg : Bool) {s : MessageBoxes} (h : Reachable dbg s)
    {id : Int} (hin : s.channelDiffInFlight = some id) (hq : .channel id ∈ s.gettingDiffFor)
    (now : Instant) :
    (∀ diff, (∀ d, adaptChannelDifference diff = .ok d → TimeoutFits d.timeout) →
      (∀ d, diff = .channelDifference d → ∀ u ∈ d.otherUpdates, ChannelCovered id d.pts u →
        d.final = false ∧ NotTooLong u) → ChannelLossless dbg now s id diff) ∧
    ∀ final pts timeout,
      (∀ newMessages otherUpdates chats users,
        (∀ u ∈ otherUpdates, ChannelCovered id pts u → NotTooLong u) →
        ChannelLossless dbg now s id (.channelDifference
          { final := final, pts := pts, timeout := timeout, newMessages := newMessages,
            otherUpdates := otherUpdates, chats := chats, users := users })) ↔
      final = false ∧ TimeoutFits timeout := by
  have hsound := h.sound
  have henough : ∀ diff, (∀ d, adaptChannelDifference diff = .ok d → TimeoutFits d.timeout) →
      (∀ d, diff = .channelDifference d → ∀ u ∈ d.otherUpdates, ChannelCovered id d.pts u →
        d.final = false ∧ NotTooLong u) → ChannelLossless dbg now s id diff := by
    intro diff htime hkeys
    cases hd : adaptChannelDifference diff with
    | error g =>
      refine ⟨_, _, _, applyChannelDifference_malformed dbg now hsound.rep hin hq hd, ?_⟩
      intro d heq
      rw [heq] at hd
      cases hd
    | ok d =>
      refine ⟨_, _, _, (applyChannelDifference_run dbg now hsound.rep hin hq hd).1 (htime d hd), ?_⟩
      intro d' heq
      obtain rfl : d' = d := by
        rw [heq] at hd
        injection hd
      refine ⟨_, rfl, fun u hu hcov => ?_⟩
      obtain ⟨hfinal, hnot⟩ := hkeys d' heq u hu hcov
      obtain ⟨info, hinfo, hkey, -⟩ := hcov
      have hbase := channelBase_entry hsound.rep now hq d'
      apply refed_queued ((channelBase_moves s now id d').sound hsound) now (.channel id)
        (hbase.1.mpr hfinal) d'.otherUpdates _ hnot
      simp [belongsTo, updateKey_of_fromUpdate hinfo, hkey]
  refine ⟨henough, fun final pts timeout => ⟨fun hall => ?_, fun hcond => ?_⟩⟩
  · have htime : TimeoutFits timeout := by
      by_contra hneg
      obtain ⟨_, _, _, hrun, -⟩ := hall [] [] [] [] (by simp)
      rw [(applyChannelDifference_run dbg now hsound.rep hin hq rfl).2 hneg] at hrun
      cases hrun
    refine ⟨?_, htime⟩
    by_contra hfinal
    obtain rfl : final = true := by simpa using hfinal
    have hone : ∀ u ∈ [(channelUpdate id pts).update], ChannelCovered id pts u → NotTooLong u := by
      intro u hu _
      rw [List.mem_singleton] at hu
      exact hu ▸ (channelUpdate_spec id pts).2.2.1
    exact finalUpdate_lost dbg now hsound hin hq pts htime (hall [] _ [] [] hone)
  · intro newMessages otherUpdates chats users hno
    apply henough
    · intro d hd
      cases hd
      exact hcond.2
    · intro d hd u hu hcov
      cases hd
      exact ⟨hcond.1, hno u hu hcov⟩

/-- A channel at 10 whose difference has been requested. -/
def channelRequested : MessageBoxes :=
  Run.final (step true)
    (Start.load 0 { pts := 0, qts := 0, date := 1, seq := 1, channels := [⟨5, 10⟩] }).box
    [(1, .getChannelDifference)]

theorem channelRequested_reachable : Reachable true channelRequested := by
  refine ⟨.load 0 { pts := 0, qts := 0, date := 1, seq := 1, channels := [⟨5, 10⟩] },
    [(1, .getChannelDifference)], ?_, ⟨trivial, trivial⟩, rfl⟩
  show ([5] : List Int).Nodup
  decide

/-- A deletion in the channel, with the counter at the end of it. -/
def channelDeletion (final : Bool) : ChannelDifferenceBody :=
  { final := final, pts := 11, timeout := some 30, newMessages := [],
    otherUpdates := [.deleteChannelMessages 5 [7] 11 1], chats := [], users := [] }

theorem slice_lossless :
    ChannelLossless true 2 channelRequested 5 (.channelDifference (channelDeletion false)) := by
  refine (applyChannelDifference_lossless_iff true channelRequested_reachable (by decide)
    (by decide) 2).1 _ ?_ ?_
  · intro d hd t ht
    cases hd
    cases ht
    decide
  · intro d hd u hu _
    cases hd
    obtain rfl : u = .deleteChannelMessages 5 [7] 11 1 := by simpa [channelDeletion] using hu
    exact ⟨rfl, by decide⟩

/-- The same difference, marked final, loses the deletion. -/
theorem final_loses_update :
    Reachable true channelRequested ∧ channelRequested.channelDiffInFlight = some 5 ∧
    .channel 5 ∈ channelRequested.gettingDiffFor ∧
    ((applyChannelDifference true 2 (.channelDifference (channelDeletion true))).run
      channelRequested).1 = .ok ([], [], []) ∧
    ¬ ChannelLossless true 2 channelRequested 5 (.channelDifference (channelDeletion true)) := by
  refine ⟨channelRequested_reachable, by decide, by decide, by decide, ?_⟩
  rintro ⟨returned, users, chats, hrun, hall⟩
  obtain ⟨rest, hrest, hcount⟩ := hall _ rfl
  have hempty : returned = [] := by
    have hr : ((applyChannelDifference true 2 (.channelDifference (channelDeletion true))).run
        channelRequested).1 = .ok ([], [], []) := by decide
    rw [hr] at hrun
    injection hrun with hrun
    injection hrun with hrun
    exact hrun.symm
  have hu := hcount (.deleteChannelMessages 5 [7] 11 1) (by decide)
    ⟨⟨.channel 5, 11, 1⟩, rfl, rfl, by decide⟩
  rw [hempty] at hrest
  obtain rfl : rest = [] := hrest.symm
  exact absurd hu (by decide)

end Ferogram.Msgbox
