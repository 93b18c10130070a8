import Ferogram.Msgbox.View

/- Sequences of `process_updates` calls, seen by a key that stays off the queue.
   The calls come down to its own updates being fed to its buffer one after
   another, whatever the batches, their order and what else they hold
   (`liveRun_view`). From the two theorems about reordering buffers follow that
   the delivered updates of the key form a chain of counters (`live_chain`), and
   that the updates of a chain, fed in any order, are delivered in order, once,
   with nothing left behind (`live_complete`). -/
namespace Ferogram.Msgbox
open Ferogram.Tl MessageBoxes StableSort

variable {s : MessageBoxes}

/-- One `process_updates` call; what it approves is collected. -/
def liveStep (x : MessageBoxes × List Update) (i : Instant × UpdatesLike) :
    MessageBoxes × List Update :=
  ((x.1.processUpdates i.1 i.2).2, x.2 ++ approved (x.1.processUpdates i.1 i.2).1)

/-- The batch has no `seq` to check. -/
def Seqless (b : UpdatesLike) : Prop := ∃ c, adapt b = .ok c ∧ c.seqStart = NO_SEQ

/-- Updates of one key, seen by that key, each at its own time. -/
def View.feedAll (v : View) (fed : List (Instant × PtsUpdate)) : View :=
  fed.foldl (fun v i => v.pts i.1 (nextUpdatesDeadline i.1) i.2) v

theorem View.pts_out (v : View) (o : List Update) (now deadline : Instant) (u : PtsUpdate) :
    View.pts { v with out := o ++ v.out } now deadline u =
      { v.pts now deadline u with out := o ++ (v.pts now deadline u).out } := by
  unfold View.pts
  dsimp only
  split <;> simp [List.append_assoc]

theorem View.feedAll_out (fed : List (Instant × PtsUpdate)) : ∀ (v : View) (o : List Update),
    View.feedAll { v with out := o ++ v.out } fed =
      { v.feedAll fed with out := o ++ (v.feedAll fed).out } := by
  induction fed with
  | nil => exact fun v o => rfl
  | cons i fed ih =>
    intro v o
    unfold View.feedAll
    rw [List.foldl_cons, List.foldl_cons, View.pts_out]
    exact ih _ o

theorem View.pts_queued (v : View) (now deadline : Instant) (u : PtsUpdate) :
    (v.pts now deadline u).queued = v.queued := by
  unfold View.pts
  split <;> rfl

theorem View.feedAll_queued (fed : List (Instant × PtsUpdate)) : ∀ v : View,
    (v.feedAll fed).queued = v.queued := by
  induction fed with
  | nil => exact fun v => rfl
  | cons i fed ih => exact fun v => (ih _).trans (View.pts_queued v _ _ _)

/-- A run over updates none of which is an `updateChannelTooLong` feeds them all. -/
theorem View.run_eq_feedAll {key : Key} {now : Instant} (us : List PtsUpdate)
    (h : ∀ u ∈ us, NotTooLong u.update) : ∀ v : View,
    v.run key now (us.map PtsUpdate.update) = v.feedAll (us.map (fun u => (now, u))) := by
  induction us with
  | nil => exact fun v => rfl
  | cons u us ih =>
    intro v
    have hhead := View.update_pts key v now (nextUpdatesDeadline now) (h u (by simp))
    have htail := ih (fun x hx => h x (List.mem_cons_of_mem u hx)) (v.pts now (nextUpdatesDeadline now) u)
    change Run.final _ (v.update key now _ u.update) _ = _
    rw [hhead]
    exact htail

/-- Updates of a key that are no `updateChannelTooLong` all have their metadata. -/
theorem exists_ptsUpdates {key : Key} : ∀ {us : List Update},
    (∀ u ∈ us, belongsTo key u = true ∧ NotTooLong u) →
    ∃ ps : List PtsUpdate, us = ps.map PtsUpdate.update ∧
      ∀ p ∈ ps, p.info.key = key ∧ NotTooLong p.update
  | [], _ => ⟨[], rfl, by simp⟩
  | u :: us, h => by
    obtain ⟨ps, rfl, hps⟩ := exists_ptsUpdates (fun x hx => h x (List.mem_cons_of_mem u hx))
    obtain ⟨hbel, ht⟩ := h u (by simp)
    rcases update_cases u with ⟨id, pts, rfl⟩ | ⟨-, hnone⟩ | ⟨p, rfl, -⟩
    · exact absurd rfl (ht _ _)
    · simp [belongsTo, updateKey_plain ht hnone] at hbel
    · refine ⟨p :: ps, rfl, fun x hx => ?_⟩
      rcases List.mem_cons.mp hx with rfl | hx
      · exact ⟨by simpa [belongsTo_ptsUpdate] using hbel, ht⟩
      · exact hps x hx

/-- The three ways a call can go. -/
theorem processUpdates_cases (s : MessageBoxes) (now : Instant) (b : UpdatesLike) :
    (¬ Seqless b ∧ s.processUpdates now b = (.error .gap, s.tryBeginGetDiff .common)) ∨
    (¬ Seqless b ∧ ∃ users chats, s.processUpdates now b = (.ok ([], users, chats), s)) ∨
    ∃ c, adapt b = .ok c ∧ s.processUpdates now b =
      (.ok (s.processCombined now c).1, (s.processCombined now c).2) := by
  unfold processUpdates
  cases hb : adapt b with
  | error g =>
    refine Or.inl ⟨?_, rfl⟩
    rintro ⟨c, hc, -⟩
    rw [hb] at hc
    cases hc
  | ok c =>
    have hns : c.seqStart ≠ NO_SEQ → ¬ Seqless b := by
      rintro hne ⟨c', hc', hs⟩
      rw [hb] at hc'
      cases hc'
      exact hne hs
    simp only
    split
    · next h => exact Or.inr (Or.inl ⟨hns h.1, _, _, rfl⟩)
    · split
      · next h => exact Or.inl ⟨hns h.1, rfl⟩
      · exact Or.inr (Or.inr ⟨c, rfl, rfl⟩)

/-- The call feeds `us` to the buffer of `key` and does nothing else to it; `us`
are updates of the key in the batch, and all of them if the batch has no `seq`. -/
structure Feeds (s : MessageBoxes) (now : Instant) (b : UpdatesLike) (key : Key)
    (us : List PtsUpdate) : Prop where
  own : ∀ u ∈ us, u.info.key = key ∧ u.update ∈ b.contents
  all : Seqless b → ∀ u ∈ b.contents, belongsTo key u = true → ∃ p ∈ us, p.update = u
  view : (s.processUpdates now b).2.view key
      ((approved (s.processUpdates now b).1).filter (belongsTo key)) =
    (s.view key []).feedAll (us.map (fun u => (now, u)))

/-- Queueing `common` does nothing to a key that is not queued after it. -/
theorem tryBeginGetDiff_unqueued (hs : s.Sorted) {key : Key}
    (hq : key ∉ s.gettingDiffFor) (hout : key ∉ (s.tryBeginGetDiff .common).gettingDiffFor) :
    (s.tryBeginGetDiff .common).view key [] = s.view key [] := by
  have hview := tryBeginGetDiff_view hs key .common []
  by_cases hk : key = .common
  · rw [if_pos hk] at hview
    have hqueued := congrArg View.queued hview
    have hold : s.gettingDiffFor.contains key = false := by simpa using hq
    have hnew : (s.tryBeginGetDiff .common).gettingDiffFor.contains key = false := by
      simpa using hout
    simp only [View.tryBegin, MessageBoxes.view, hold, hnew, Bool.false_or] at hqueued
    have hnone : s.entry key = none := by simpa using hqueued.symm
    rw [hview]
    simp [View.tryBegin, MessageBoxes.view, hnone, hq]
  · rw [if_neg hk] at hview
    exact hview

/-- A call that gets past the `seq` check feeds the updates of the key. -/
theorem processed_feeds (h : Sound s) (now : Instant) {b : UpdatesLike}
    {c : UpdatesCombined} (hb : adapt b = .ok c)
    (heq : s.processUpdates now b = (.ok (s.processCombined now c).1, (s.processCombined now c).2))
    (key : Key) (ht : ∀ u ∈ b.contents, belongsTo key u = true → NotTooLong u) :
    ∃ us : List PtsUpdate, Feeds s now b key us := by
  have hcontents : b.contents = c.updates := by simp [UpdatesLike.contents, hb]
  obtain ⟨us, hus, hall⟩ : ∃ us : List PtsUpdate,
      sortByKey updateSortKey (c.updates.filter (belongsTo key)) = us.map PtsUpdate.update ∧
      ∀ p ∈ us, p.info.key = key ∧ NotTooLong p.update := by
    refine exists_ptsUpdates (fun u hu => ?_)
    rw [mem_sortByKey, List.mem_filter] at hu
    exact ⟨hu.2, ht u (hcontents ▸ hu.1) hu.2⟩
  have hmem : ∀ u, u ∈ us.map PtsUpdate.update ↔ u ∈ c.updates ∧ belongsTo key u = true := by
    intro u
    rw [← hus, mem_sortByKey, List.mem_filter]
  refine ⟨us, fun u hu => ⟨(hall u hu).1, ?_⟩, fun _ u hu hbel => ?_, ?_⟩
  · rw [hcontents]
    exact ((hmem u.update).mp (List.mem_map_of_mem hu)).1
  · rw [hcontents] at hu
    exact List.mem_map.mp ((hmem u).mpr ⟨hu, hbel⟩)
  · rw [heq]
    have hrun := processCombined_run h now c key
    rw [hus, View.run_eq_feedAll us (fun u hu => (hall u hu).2)] at hrun
    exact hrun

/-- One call, seen by a key that is off the queue and stays off it. -/
theorem processUpdates_feeds (h : Sound s) (now : Instant) {b : UpdatesLike}
    {key : Key} (hq : key ∉ s.gettingDiffFor)
    (hstay : Seqless b ∨ key ∉ (s.processUpdates now b).2.gettingDiffFor)
    (ht : ∀ u ∈ b.contents, belongsTo key u = true → NotTooLong u) :
    ∃ us : List PtsUpdate, Feeds s now b key us := by
  rcases processUpdates_cases s now b with ⟨hns, heq⟩ | ⟨hns, users, chats, heq⟩ | ⟨c, hb, heq⟩
  · refine ⟨[], by simp, fun hs => absurd hs hns, ?_⟩
    have hout := hstay.resolve_left hns
    rw [heq] at hout ⊢
    exact tryBeginGetDiff_unqueued h.rep.sorted hq hout
  · refine ⟨[], by simp, fun hs => absurd hs hns, ?_⟩
    rw [heq]
    rfl
  · exact processed_feeds h now hb heq key ht

theorem Feeds.unqueued {now : Instant} {b : UpdatesLike} {key : Key}
    {us : List PtsUpdate} (h : Feeds s now b key us) (hq : key ∉ s.gettingDiffFor) :
    key ∉ (s.processUpdates now b).2.gettingDiffFor := by
  have hqueued := congrArg View.queued h.view
  rw [View.feedAll_queued] at hqueued
  simp only [MessageBoxes.view] at hqueued
  rw [← List.contains_iff_mem, hqueued, List.contains_iff_mem]
  exact hq

/-! Whole sequences of calls. -/

/-- The calls hold no `updateChannelTooLong` of the key. -/
def NoTooLong (key : Key) (calls : List (Instant × UpdatesLike)) : Prop :=
  ∀ i ∈ calls, ∀ u ∈ i.2.contents, belongsTo key u = true → NotTooLong u

instance (key : Key) (calls : List (Instant × UpdatesLike)) : Decidable (NoTooLong key calls) := by
  unfold NoTooLong; infer_instance

/-- Batches without `seq` leave a key off the queue. -/
theorem seqless_unqueued {key : Key} : ∀ (calls : List (Instant × UpdatesLike))
    {x : MessageBoxes × List Update}, Sound x.1 → key ∉ x.1.gettingDiffFor → NoTooLong key calls →
    (∀ i ∈ calls, Seqless i.2) → ∀ y ∈ Run.states liveStep x calls, key ∉ y.1.gettingDiffFor
  | [], x, _, hq, _, _, y, hy => by
    rw [Run.states, List.mem_singleton] at hy
    exact hy ▸ hq
  | i :: calls, x, h, hq, ht, hseq, y, hy => by
    rcases List.mem_cons.mp hy with rfl | hy
    · exact hq
    · obtain ⟨us, hus⟩ := processUpdates_feeds h i.1 hq (Or.inl (hseq i (by simp)))
        (ht i (by simp))
      exact seqless_unqueued calls ((processUpdates_moves x.1 i.2).sound h) (hus.unqueued hq)
        (fun j hj => ht j (List.mem_cons_of_mem i hj))
        (fun j hj => hseq j (List.mem_cons_of_mem i hj)) y hy

/-- A sequence of calls throughout which the key is off the queue feeds its
updates to its buffer, one after another. -/
theorem liveRun_view {key : Key} : ∀ (calls : List (Instant × UpdatesLike))
    {x : MessageBoxes × List Update}, Sound x.1 → NoTooLong key calls →
    (∀ y ∈ Run.states liveStep x calls, key ∉ y.1.gettingDiffFor) →
    ∃ fed : List (Instant × PtsUpdate),
      (∀ f ∈ fed, f.2.info.key = key ∧ ∃ i ∈ calls, f.2.update ∈ i.2.contents) ∧
      (∀ i ∈ calls, Seqless i.2 → ∀ u ∈ i.2.contents, belongsTo key u = true →
        ∃ f ∈ fed, f.2.update = u) ∧
      (Run.final liveStep x calls).1.view key
          ((Run.final liveStep x calls).2.filter (belongsTo key)) =
        (x.1.view key (x.2.filter (belongsTo key))).feedAll fed
  | [], _, _, _, _ => ⟨[], by simp, by simp, rfl⟩
  | i :: calls, x, h, ht, hq => by
    have hx : key ∉ x.1.gettingDiffFor := hq x (by simp [Run.states])
    have hx' : key ∉ (liveStep x i).1.gettingDiffFor := by
      refine hq _ (List.mem_cons_of_mem _ ?_)
      cases calls <;> simp [Run.states]
    obtain ⟨us, hus⟩ := processUpdates_feeds h i.1 hx (Or.inr hx') (ht i (by simp))
    obtain ⟨fed, hown, hall, hview⟩ := liveRun_view calls
      ((processUpdates_moves x.1 i.2).sound h) (fun j hj => ht j (List.mem_cons_of_mem i hj))
      (fun y hy => hq y (List.mem_cons_of_mem x hy))
    refine ⟨us.map (fun u => (i.1, u)) ++ fed, ?_, ?_, ?_⟩
    · intro f hf
      rcases List.mem_append.mp hf with hf | hf
      · obtain ⟨u, hu, rfl⟩ := List.mem_map.mp hf
        exact ⟨(hus.own u hu).1, i, by simp, (hus.own u hu).2⟩
      · obtain ⟨hk, j, hj, hmem⟩ := hown f hf
        exact ⟨hk, j, List.mem_cons_of_mem i hj, hmem⟩
    · intro j hj hs u hu hbel
      rcases List.mem_cons.mp hj with rfl | hj
      · obtain ⟨p, hp, hpu⟩ := hus.all hs u hu hbel
        exact ⟨(j.1, p), List.mem_append_left _ (List.mem_map_of_mem hp), hpu⟩
      · obtain ⟨f, hf, hfu⟩ := hall j hj hs u hu hbel
        exact ⟨f, List.mem_append_right _ hf, hfu⟩
    · -- the approved updates of this call come after those of the calls before
      have hstep : (liveStep x i).1.view key ((liveStep x i).2.filter (belongsTo key)) =
          (x.1.view key (x.2.filter (belongsTo key))).feedAll (us.map (fun u => (i.1, u))) := by
        have hout := View.feedAll_out (us.map (fun u => (i.1, u))) (x.1.view key [])
          (x.2.filter (belongsTo key))
        rw [← hus.view] at hout
        simp only [liveStep, List.filter_append]
        simpa [MessageBoxes.view] using hout.symm
      change (Run.final liveStep (liveStep x i) calls).1.view key _ = _
      unfold View.feedAll
      rw [List.foldl_append]
      exact hview.trans (by rw [hstep]; rfl)

/-! The buffer of the key. -/

/-- Updates fed to a reordering buffer of updates. -/
def runBuffer : Reorder.Buffer Int32 PtsUpdate → List PtsUpdate →
    Reorder.Buffer Int32 PtsUpdate × List PtsUpdate :=
  Reorder.run ptsOrder ptsAfter gapStack

theorem View.pts_unqueued {v : View} (hq : v.queued = false) {e : LiveEntry}
    (he : v.entry = some e) (now deadline : Instant) (u : PtsUpdate) :
    v.pts now deadline u =
      { v with
        entry := some (e.feed now deadline u).1
        out := v.out ++ (e.feed now deadline u).2.delivered } := by
  simp [View.pts, hq, he]

/-- Feeding an entry is running its buffer. -/
theorem View.feedAll_buffer (fed : List (Instant × PtsUpdate)) : ∀ {v : View} {e : LiveEntry},
    v.queued = false → v.entry = some e →
    ∃ e', (v.feedAll fed).entry = some e' ∧
      e'.buffer = (runBuffer e.buffer (fed.map Prod.snd)).1 ∧
      (v.feedAll fed).out =
        v.out ++ (runBuffer e.buffer (fed.map Prod.snd)).2.map PtsUpdate.update ∧
      ((e.possibleGap = none ↔ e.held = []) → (e'.possibleGap = none ↔ e'.held = [])) := by
  induction fed with
  | nil =>
    intro v e _ he
    exact ⟨e, he, rfl, by simp [View.feedAll, runBuffer, Reorder.run], fun h => h⟩
  | cons i fed ih =>
    intro v e hq he
    have hstep := View.pts_unqueued hq he i.1 (nextUpdatesDeadline i.1) i.2
    obtain ⟨hbuf, hout⟩ := feed_buffer e i.1 (nextUpdatesDeadline i.1) i.2
    obtain ⟨e', h1, h2, h3, h4⟩ := ih (v := v.pts i.1 (nextUpdatesDeadline i.1) i.2)
      (e := (e.feed i.1 (nextUpdatesDeadline i.1) i.2).1) (by rw [hstep]; exact hq) (by rw [hstep])
    have hcons : runBuffer e.buffer ((i :: fed).map Prod.snd) =
        ((runBuffer (feedBuffer e.buffer i.2).1 (fed.map Prod.snd)).1,
          (feedBuffer e.buffer i.2).2 ++
            (runBuffer (feedBuffer e.buffer i.2).1 (fed.map Prod.snd)).2) := Reorder.run_cons _ _ _
    rw [hbuf] at h2 h3
    refine ⟨e', h1, ?_, ?_, fun _ => h4 (feed_possibleGap e _ _ _)⟩
    · rw [hcons]; exact h2
    · rw [hcons]
      change (View.feedAll _ fed).out = _
      rw [h3, hstep, hout]
      simp [List.append_assoc]

/-- A key without an entry is given one that its first update is next on. -/
theorem View.pts_fresh {v : View} (he : v.entry = none) (now deadline : Instant) (u : PtsUpdate)
    (hq : v.queued = false) :
    v.pts now deadline u =
      View.pts { v with entry := some (freshEntry u.info.key (u.info.pts - u.info.count) deadline) }
        now deadline u := by
  simp [View.pts, hq, he]

/-- What an update leaves buffered and returns was buffered before, or is it. -/
theorem View.pts_all {P : PtsUpdate → Prop} {v : View} (now deadline : Instant) {u : PtsUpdate}
    (hu : P u) (hv : ∀ e, v.entry = some e → ∀ x ∈ e.held, P x) :
    (∀ e, (v.pts now deadline u).entry = some e → ∀ x ∈ e.held, P x) ∧
    ∃ l : List PtsUpdate, (v.pts now deadline u).out = v.out ++ l.map PtsUpdate.update ∧
      ∀ x ∈ l, P x := by
  unfold View.pts
  split
  · refine ⟨fun e he => ?_, [u], rfl, by simpa using hu⟩
    obtain ⟨e₀, he₀, rfl⟩ := Option.map_eq_some_iff.mp he
    exact hv e₀ he₀
  · have hheld : ∀ x ∈ (v.entry.getD
        (freshEntry u.info.key (u.info.pts - u.info.count) deadline)).held, P x := by
      intro x hx
      cases he : v.entry with
      | none => rw [he] at hx; cases hx
      | some e => rw [he] at hx; exact hv e he x hx
    have hfed : ∀ x, x = u ∨ x ∈ (v.entry.getD
        (freshEntry u.info.key (u.info.pts - u.info.count) deadline)).held → P x := by
      rintro x (rfl | hx)
      · exact hu
      · exact hheld x hx
    refine ⟨fun e he x hx => ?_, _, congrArg (v.out ++ ·) (feed_buffer _ now deadline u).2,
      fun x hx => hfed x (@feed_mem _ now deadline u x (Or.inl hx))⟩
    cases he
    exact hfed x (feed_mem (Or.inr hx))

/-- So for many. -/
theorem View.feedAll_all {P : PtsUpdate → Prop} (fed : List (Instant × PtsUpdate)) : ∀ {v : View},
    (∀ e, v.entry = some e → ∀ x ∈ e.held, P x) → (∀ f ∈ fed, P f.2) →
    (∀ e, (v.feedAll fed).entry = some e → ∀ x ∈ e.held, P x) ∧
    ∃ l : List PtsUpdate, (v.feedAll fed).out = v.out ++ l.map PtsUpdate.update ∧
      ∀ x ∈ l, P x := by
  induction fed with
  | nil => exact fun hv _ => ⟨hv, [], (List.append_nil _).symm, by simp⟩
  | cons f fed ih =>
    intro v hv hfed
    obtain ⟨h1, l, hl, hall⟩ := View.pts_all f.1 (nextUpdatesDeadline f.1) (hfed f (by simp)) hv
    obtain ⟨h2, l', hl', hall'⟩ := ih h1 (fun g hg => hfed g (List.mem_cons_of_mem f hg))
    refine ⟨h2, l ++ l', ?_, fun x hx => ?_⟩
    · refine hl'.trans ?_
      rw [hl, List.map_append, List.append_assoc]
    · exact (List.mem_append.mp hx).elim (hall x) (hall' x)

/-! Counters as numbers. -/

/-- From counter `p` the updates lead to `q` one after another: each one's `pts`
is the counter before it plus its `pts_count`. -/
def PtsChain (p : Int) : List Update → Int → Prop
  | [], q => q = p
  | u :: us, q => ∃ info, PtsInfo.fromUpdate u = some info ∧
      info.pts.toInt = p + info.count.toInt ∧ PtsChain info.pts.toInt us q

theorem ptsOrder_eq {pts : Int32} {u : PtsUpdate} :
    ptsOrder pts u = .eq ↔ pts + u.info.count = u.info.pts := by
  unfold ptsOrder
  split
  · next h => simp [h]
  · next h =>
    split <;> simp [h]

/-- Linked updates are a chain of numbers where no sum overflows. -/
theorem ptsChain_of_linked : ∀ {l : List PtsUpdate} {p q : Int32},
    Reorder.Linked ptsOrder ptsAfter p l q →
    (∀ u ∈ l, InRange (p.toInt + u.info.count.toInt) ∧
      ∀ v ∈ l, InRange (v.info.pts.toInt + u.info.count.toInt)) →
    PtsChain p.toInt (l.map PtsUpdate.update) q.toInt
  | [], _, _, h, _ => by
    cases h
    rfl
  | u :: l, p, q, h, hfit => by
    have hsum : p + u.info.count = u.info.pts := ptsOrder_eq.mp h.1
    refine ⟨u.info, u.from_update, ?_, ptsChain_of_linked h.2 (fun v hv => ⟨?_, fun w hw => ?_⟩)⟩
    · rw [← hsum]
      exact toInt_add_of_inRange (hfit u (by simp)).1
    · exact (hfit v (List.mem_cons_of_mem u hv)).2 u (by simp)
    · exact (hfit v (List.mem_cons_of_mem u hv)).2 w (List.mem_cons_of_mem u hw)

/-- In a chain without negative counts every update ends at or past the counter
it started from. -/
theorem PtsChain.le {us : List Update} : ∀ {p q : Int}, PtsChain p us q →
    (∀ u ∈ us, ∀ info, PtsInfo.fromUpdate u = some info → 0 ≤ info.count.toInt) →
    ∀ u ∈ us, ∀ info, PtsInfo.fromUpdate u = some info →
      p ≤ info.pts.toInt - info.count.toInt := by
  induction us with
  | nil => intro p q _ _ u hu; cases hu
  | cons v us ih =>
    intro p q h hpos u hu info hinfo
    obtain ⟨i, hi, hpts, hrest⟩ := h
    rcases List.mem_cons.mp hu with rfl | hu
    · rw [hi] at hinfo
      cases hinfo
      omega
    · have hle := ih hrest (fun w hw => hpos w (List.mem_cons_of_mem v hw)) u hu info hinfo
      have := hpos v (by simp) i hi
      omega

/-- It leads forwards, and past none of its updates. -/
theorem PtsChain.le_last {us : List Update} : ∀ {p q : Int}, PtsChain p us q →
    (∀ u ∈ us, ∀ info, PtsInfo.fromUpdate u = some info → 0 ≤ info.count.toInt) →
    p ≤ q ∧ ∀ u ∈ us, ∀ info, PtsInfo.fromUpdate u = some info → info.pts.toInt ≤ q := by
  induction us with
  | nil =>
    intro p q h _
    exact ⟨(show q = p from h).ge, by simp⟩
  | cons v us ih =>
    intro p q h hpos
    obtain ⟨i, hi, hpts, hrest⟩ := h
    obtain ⟨hle, hall⟩ := ih hrest (fun w hw => hpos w (List.mem_cons_of_mem v hw))
    have hv := hpos v (by simp) i hi
    refine ⟨by omega, fun u hu info hinfo => ?_⟩
    rcases List.mem_cons.mp hu with rfl | hu
    · rw [hi] at hinfo
      cases hinfo
      exact hle
    · exact hall u hu info hinfo

/-- It ends where it starts, or at one of its updates. -/
theorem PtsChain.last_mem {us : List Update} : ∀ {p q : Int}, PtsChain p us q →
    (us = [] ∧ q = p) ∨ ∃ u ∈ us, ∃ info, PtsInfo.fromUpdate u = some info ∧ info.pts.toInt = q := by
  induction us with
  | nil => exact fun h => Or.inl ⟨rfl, h⟩
  | cons v us ih =>
    intro p q h
    obtain ⟨i, hi, -, hrest⟩ := h
    right
    rcases ih hrest with ⟨-, rfl⟩ | ⟨u, hu, hinfo⟩
    · exact ⟨v, by simp, i, hi, rfl⟩
    · exact ⟨u, List.mem_cons_of_mem v hu, hinfo⟩

/-- No update with a positive count occurs twice in such a chain. -/
theorem PtsChain.count_le_one {us : List Update} : ∀ {p q : Int}, PtsChain p us q →
    (∀ u ∈ us, ∀ info, PtsInfo.fromUpdate u = some info → 0 ≤ info.count.toInt) →
    ∀ u info, PtsInfo.fromUpdate u = some info → 0 < info.count.toInt → us.count u ≤ 1 := by
  induction us with
  | nil => intro p q _ _ u info _ _; simp
  | cons v us ih =>
    intro p q h hpos u info hinfo hcount
    obtain ⟨i, hi, hpts, hrest⟩ := h
    have hpos' := fun w hw => hpos w (List.mem_cons_of_mem v hw)
    by_cases huv : v = u
    · subst huv
      -- it would have to start where it ends
      have hnot : v ∉ us := fun hmem => by
        have hle := PtsChain.le hrest hpos' v hmem info hinfo
        rw [hi] at hinfo
        cases hinfo
        omega
      rw [List.count_cons_self, List.count_eq_zero_of_not_mem hnot]
    · rw [List.count_cons_of_ne huv]
      exact ih hrest hpos' u info hinfo hcount

/-- The updates of the key that can be fed: those in the calls, and those
buffered at the start. -/
def InPlay (s : MessageBoxes) (key : Key) (calls : List (Instant × UpdatesLike)) (u : PtsUpdate) :
    Prop :=
  u.info.key = key ∧
  ((∃ i ∈ calls, u.update ∈ i.2.contents) ∨ ∃ e, s.entry key = some e ∧ u ∈ e.held)

/-- Their metadata. -/
def inPlay (s : MessageBoxes) (key : Key) (calls : List (Instant × UpdatesLike)) : List PtsInfo :=
  (calls.flatMap (fun i => i.2.contents.filterMap PtsInfo.fromUpdate) ++
    (s.entry key).toList.flatMap (fun e => e.held.map PtsUpdate.info)).filter (fun i => i.key = key)

theorem mem_inPlay {key : Key} {calls : List (Instant × UpdatesLike)}
    {info : PtsInfo} : info ∈ inPlay s key calls ↔ ∃ u, InPlay s key calls u ∧ u.info = info := by
  unfold inPlay InPlay
  rw [List.mem_filter, List.mem_append, List.mem_flatMap, List.mem_flatMap]
  constructor
  · rintro ⟨hin, hk⟩
    rcases hin with ⟨i, hi, hin⟩ | ⟨e, he, hin⟩
    · obtain ⟨u, hu, hinfo⟩ := List.mem_filterMap.mp hin
      exact ⟨⟨u, info, hinfo⟩, ⟨by simpa using hk, Or.inl ⟨i, hi, hu⟩⟩, rfl⟩
    · obtain ⟨u, hu, rfl⟩ := List.mem_map.mp hin
      exact ⟨u, ⟨by simpa using hk, Or.inr ⟨e, by simpa using he, hu⟩⟩, rfl⟩
  · rintro ⟨u, ⟨hk, hin⟩, rfl⟩
    refine ⟨?_, by simp [hk]⟩
    rcases hin with ⟨i, hi, hu⟩ | ⟨e, he, hu⟩
    · exact Or.inl ⟨i, hi, List.mem_filterMap.mpr ⟨_, hu, u.from_update⟩⟩
    · exact Or.inr ⟨e, by simp [he], List.mem_map_of_mem hu⟩

/-- No sum of a counter and a count that can come up overflows. -/
def CountersFit (s : MessageBoxes) (key : Key) (calls : List (Instant × UpdatesLike)) : Prop :=
  ∀ i ∈ inPlay s key calls, ∀ p ∈ (s.entry key).toList.map LiveEntry.pts ++
    (inPlay s key calls).map PtsInfo.pts, InRange (p.toInt + i.count.toInt)

-- written out: a search may enumerate all counters instead of those listed
instance (s : MessageBoxes) (key : Key) (calls : List (Instant × UpdatesLike)) :
    Decidable (CountersFit s key calls) :=
  @List.decidableBAll _ _ (fun i => @List.decidableBAll _ _
    (fun p => inferInstanceAs (Decidable (InRange (p.toInt + i.count.toInt)))) _) _

theorem CountersFit.entry {key : Key} {calls : List (Instant × UpdatesLike)}
    (h : CountersFit s key calls) {u : PtsUpdate} (hu : InPlay s key calls u) {e : LiveEntry}
    (he : s.entry key = some e) : InRange (e.pts.toInt + u.info.count.toInt) :=
  h _ (mem_inPlay.mpr ⟨u, hu, rfl⟩) _ (List.mem_append_left _ (List.mem_map_of_mem (by simp [he])))

theorem CountersFit.pts {key : Key} {calls : List (Instant × UpdatesLike)}
    (h : CountersFit s key calls) {u v : PtsUpdate} (hu : InPlay s key calls u)
    (hv : InPlay s key calls v) : InRange (v.info.pts.toInt + u.info.count.toInt) :=
  h _ (mem_inPlay.mpr ⟨u, hu, rfl⟩) _
    (List.mem_append_right _ (List.mem_map_of_mem (mem_inPlay.mpr ⟨v, hv, rfl⟩)))

/-- What a sequence of calls does to a key that stays off the queue: nothing, or
it runs the buffer of its entry, or of the entry its first update creates. -/
theorem liveRun_buffer (h : Sound s) {key : Key}
    {calls : List (Instant × UpdatesLike)} (ht : NoTooLong key calls)
    (hq : ∀ x ∈ Run.states liveStep (s, []) calls, key ∉ x.1.gettingDiffFor) :
    (s.entry key = none ∧ (Run.final liveStep (s, []) calls).2.filter (belongsTo key) = [] ∧
      (Run.final liveStep (s, []) calls).1.entry key = none) ∨
    ∃ e l e',
      (s.entry key = some e ∨ s.entry key = none ∧ ∃ u l' deadline, l = u :: l' ∧
        e = freshEntry key (u.info.pts - u.info.count) deadline) ∧
      (Run.final liveStep (s, []) calls).1.entry key = some e' ∧
      e'.buffer = (runBuffer e.buffer l).1 ∧
      (Run.final liveStep (s, []) calls).2.filter (belongsTo key) =
        (runBuffer e.buffer l).2.map PtsUpdate.update ∧
      ∀ u, u ∈ (runBuffer e.buffer l).2 ∨ u ∈ (runBuffer e.buffer l).1.held →
        InPlay s key calls u := by
  obtain ⟨fed, hown, -, hview⟩ := liveRun_view calls h ht hq
  have hqs : key ∉ s.gettingDiffFor := hq (s, []) (by cases calls <;> simp [Run.states])
  have hqv : (s.view key []).queued = false := by simpa [MessageBoxes.view] using hqs
  have hfed : ∀ u ∈ fed.map Prod.snd, InPlay s key calls u := by
    intro u hu
    obtain ⟨f, hf, rfl⟩ := List.mem_map.mp hu
    obtain ⟨hk, i, hi, hmem⟩ := hown f hf
    exact ⟨hk, Or.inl ⟨i, hi, hmem⟩⟩
  cases he : s.entry key with
  | some e =>
    right
    obtain ⟨e', h1, h2, h3, -⟩ := View.feedAll_buffer fed hqv he
    refine ⟨e, fed.map Prod.snd, e', Or.inl rfl, (congrArg View.entry hview).trans h1, h2,
      (congrArg View.out hview).trans (h3.trans (List.nil_append _)), fun u hu => ?_⟩
    rcases Reorder.mem_run gapStack_perm hu with hu | hu
    · exact hfed u hu
    · have hord := h.rep.sorted.ordered
      exact ⟨(h.keyed.entry hord he u hu).trans (entry_key hord he), Or.inr ⟨e, he, hu⟩⟩
  | none =>
    cases fed with
    | nil =>
      exact Or.inl ⟨rfl, congrArg View.out hview, (congrArg View.entry hview).trans he⟩
    | cons f fed =>
      right
      have hkey : f.2.info.key = key := (hown f (by simp)).1
      -- the entry the first update creates, as if it had been there
      let fresh := freshEntry f.2.info.key (f.2.info.pts - f.2.info.count) (nextUpdatesDeadline f.1)
      have hfresh : (s.view key []).feedAll (f :: fed) =
          View.feedAll { s.view key [] with entry := some fresh } (f :: fed) := by
        unfold View.feedAll
        rw [List.foldl_cons, List.foldl_cons, View.pts_fresh he _ _ _ hqv]
      obtain ⟨e', h1, h2, h3, -⟩ := View.feedAll_buffer (f :: fed)
        (v := { s.view key [] with entry := some fresh }) hqv rfl
      rw [← hfresh] at h1 h3
      refine ⟨fresh, (f :: fed).map Prod.snd, e', Or.inr ⟨rfl, f.2, fed.map Prod.snd,
        nextUpdatesDeadline f.1, rfl, by rw [← hkey]⟩, (congrArg View.entry hview).trans h1, h2,
        (congrArg View.out hview).trans (h3.trans (List.nil_append _)), fun u hu => ?_⟩
      rcases Reorder.mem_run gapStack_perm hu with hu | hu
      · exact hfed u hu
      · cases hu

/-- In numbers: the updates delivered are a chain from the counter at the start,
or from where the first of them starts, to the counter at the end. -/
theorem liveRun_ptsChain (h : Sound s) {key : Key}
    {calls : List (Instant × UpdatesLike)} (ht : NoTooLong key calls)
    (hq : ∀ x ∈ Run.states liveStep (s, []) calls, key ∉ x.1.gettingDiffFor)
    (hfit : CountersFit s key calls) :
    ∃ ps : List PtsUpdate,
      (Run.final liveStep (s, []) calls).2.filter (belongsTo key) = ps.map PtsUpdate.update ∧
      (∀ u ∈ ps, InPlay s key calls u) ∧
      ((s.entry key = none ∧ ps = [] ∧ (Run.final liveStep (s, []) calls).1.entry key = none) ∨
      ∃ p e', (Run.final liveStep (s, []) calls).1.entry key = some e' ∧
        (∀ u ∈ e'.held, InPlay s key calls u) ∧
        PtsChain p (ps.map PtsUpdate.update) e'.pts.toInt ∧
        ((∃ e, s.entry key = some e ∧ p = e.pts.toInt) ∨
          s.entry key = none ∧ ∃ u us, ps = u :: us ∧ p = ptsStart u)) := by
  rcases liveRun_buffer h ht hq with ⟨hnone, hempty, hr⟩ | ⟨e, l, e', he, hr, hbuf, hout, hplay⟩
  · exact ⟨[], hempty, by simp, Or.inl ⟨hnone, rfl, hr⟩⟩
  -- the chain of the buffer, in the counters of the entry
  have hpts : e'.pts = (runBuffer e.buffer l).1.pos := by rw [← hbuf]; rfl
  have hheld : e'.held = (runBuffer e.buffer l).1.held := by rw [← hbuf]; rfl
  have hlinked : Reorder.Linked ptsOrder ptsAfter e.pts (runBuffer e.buffer l).2 e'.pts := by
    rw [hpts]; exact Reorder.run_linked l e.buffer
  refine ⟨_, hout, fun u hu => hplay u (Or.inl hu), Or.inr ?_⟩
  have hheld' : ∀ u ∈ e'.held, InPlay s key calls u := by
    rw [hheld]; exact fun u hu => hplay u (Or.inr hu)
  rcases he with he | ⟨hnone, u, l', deadline, rfl, rfl⟩
  · refine ⟨e.pts.toInt, e', hr, hheld', ?_, Or.inl ⟨e, he, rfl⟩⟩
    refine ptsChain_of_linked hlinked (fun u hu => ?_)
    have hu' := hplay u (Or.inl hu)
    exact ⟨hfit.entry hu' he, fun v hv => hfit.pts hu' (hplay v (Or.inl hv))⟩
  · -- the first update is next on the entry it creates
    have hnext : ptsOrder (u.info.pts - u.info.count) u = .eq := ptsOrder_eq.mpr (by simp)
    obtain ⟨rest, hrest⟩ : ∃ rest, (runBuffer
        (freshEntry key (u.info.pts - u.info.count) deadline).buffer (u :: l')).2 = u :: rest :=
      Reorder.run_cons_of_next hnext l'
    rw [hrest] at hlinked hplay
    have hu : InPlay s key calls u := hplay u (Or.inl (by simp))
    refine ⟨ptsStart u, e', hr, hheld', ?_, Or.inr ⟨hnone, u, rest, hrest, rfl⟩⟩
    rw [hrest]
    refine ⟨u.info, u.from_update, by unfold ptsStart; omega,
      ptsChain_of_linked hlinked.2 (fun v hv => ?_)⟩
    have hv' := hplay v (Or.inl (List.mem_cons_of_mem u hv))
    exact ⟨hfit.pts hv' hu,
      fun w hw => hfit.pts hv' (hplay w (Or.inl (List.mem_cons_of_mem u hw)))⟩

/-- The updates of a key that stays off the queue are delivered along a chain of
counters, from its counter at the start to its counter at the end. Where no count
is negative, none of them is delivered twice that has a positive one. -/
theorem live_chain (dbg : Bool) {s : MessageBoxes} (h : Reachable dbg s) (key : Key)
    (calls : List (Instant × UpdatesLike)) (ht : NoTooLong key calls)
    (hq : ∀ x ∈ Run.states liveStep (s, []) calls, key ∉ x.1.gettingDiffFor)
    (hfit : CountersFit s key calls) :
    let r := Run.final liveStep (s, []) calls
    let delivered := r.2.filter (belongsTo key)
    (∀ e, s.entry key = some e →
      ∃ e', r.1.entry key = some e' ∧ PtsChain e.pts.toInt delivered e'.pts.toInt) ∧
    (s.entry key = none → (delivered = [] ∧ r.1.entry key = none) ∨
      ∃ u us info e', delivered = u :: us ∧ PtsInfo.fromUpdate u = some info ∧
        r.1.entry key = some e' ∧
        PtsChain (info.pts.toInt - info.count.toInt) delivered e'.pts.toInt) ∧
    ((∀ i ∈ inPlay s key calls, 0 ≤ i.count.toInt) →
      ∀ u info, PtsInfo.fromUpdate u = some info → 0 < info.count.toInt →
        delivered.count u ≤ 1) := by
  intro r delivered
  obtain ⟨ps, hout, hplay, hcases⟩ := liveRun_ptsChain h.sound ht hq hfit
  change delivered = _ at hout
  rw [hout]
  rcases hcases with ⟨hnone, rfl, hr⟩ | ⟨p, e', hr, -, hchain, hstart⟩
  · refine ⟨fun e he => ?_, fun _ => Or.inl ⟨rfl, hr⟩, fun _ u info _ _ => by simp⟩
    rw [hnone] at he
    cases he
  refine ⟨fun e he => ⟨e', hr, ?_⟩, fun hnone => Or.inr ?_, fun hpos => ?_⟩
  · rcases hstart with ⟨a, ha, rfl⟩ | ⟨hnone, -⟩
    · rw [he] at ha
      cases ha
      exact hchain
    · rw [he] at hnone
      cases hnone
  · rcases hstart with ⟨a, ha, -⟩ | ⟨-, u, us, rfl, rfl⟩
    · rw [hnone] at ha
      cases ha
    · exact ⟨u.update, us.map PtsUpdate.update, u.info, e', rfl, u.from_update, hr, hchain⟩
  · refine hchain.count_le_one (fun u hu info hinfo => ?_)
    obtain ⟨q, hq, rfl⟩ := List.mem_map.mp hu
    rw [q.from_update] at hinfo
    cases hinfo
    exact hpos q.info (mem_inPlay.mpr ⟨q, hplay q hq, rfl⟩)

/-- A deletion that moves the account's counter to `pts`. -/
def deletion (pts count : Int32) : UpdatesLike :=
  .updates (.updateShort { update := .deleteMessages [] pts count, date := 1 })

/-- The account at `pts` 10. -/
def atTen : MessageBoxes :=
  Run.final (step true) (Start.new 0).box [(0, .setState { pts := 10, qts := 5, date := 1, seq := 1 })]

theorem atTen_reachable : Reachable true atTen := by
  refine ⟨.new 0, [(0, .setState { pts := 10, qts := 5, date := 1, seq := 1 })], trivial, ?_, rfl⟩
  exact ⟨rfl, trivial⟩

theorem outOfOrder_chain :
    let r := Run.final liveStep (atTen, []) [(1, deletion 12 1), (2, deletion 11 1)]
    let delivered := r.2.filter (belongsTo .common)
    delivered = [.deleteMessages [] 11 1, .deleteMessages [] 12 1] ∧
    ∃ e', r.1.entry .common = some e' ∧ PtsChain 10 delivered e'.pts.toInt := by
  refine ⟨by decide, ?_⟩
  have he : atTen.entry .common = some (freshEntry .common 10 (nextUpdatesDeadline 0)) := by decide
  exact (live_chain true atTen_reachable .common _ (by decide) (by decide) (by decide)).1 _ he

/-- A negative count takes the counter back. -/
def rewind : List (Instant × UpdatesLike) :=
  [(1, deletion 11 1), (2, deletion 10 (-1)), (3, deletion 11 1)]

/-- What follows it is delivered again. -/
theorem delivered_twice :
    Reachable true atTen ∧
    (∀ x ∈ Run.states liveStep (atTen, []) rewind, .common ∉ x.1.gettingDiffFor) ∧
    NoTooLong .common rewind ∧ CountersFit atTen .common rewind ∧
    ((Run.final liveStep (atTen, []) rewind).2.filter (belongsTo .common)).count
      (.deleteMessages [] 11 1) = 2 :=
  ⟨atTen_reachable, by decide⟩

/-! Completeness. -/

theorem PtsUpdate.eq_of_update {p q : PtsUpdate} (h : p.update = q.update) : p = q := by
  obtain ⟨u, i, hi⟩ := p
  obtain ⟨v, j, hj⟩ := q
  simp only at h
  subst h
  rw [hi] at hj
  cases hj
  rfl

/-- A chain of numbers with positive counts is a chain of the reordering buffer. -/
theorem reorderChain_of_ptsChain : ∀ {l : List PtsUpdate} {p : Int32} {q : Int},
    PtsChain p.toInt (l.map PtsUpdate.update) q → (∀ u ∈ l, 0 < u.info.count.toInt) →
    Reorder.Chain Int32.toInt ptsStart ptsAfter p l ∧ (Reorder.finish ptsAfter p l).toInt = q
  | [], _, _, h, _ => ⟨trivial, h.symm⟩
  | u :: l, p, q, h, hpos => by
    obtain ⟨info, hinfo, hpts, hrest⟩ := h
    rw [u.from_update] at hinfo
    cases hinfo
    obtain ⟨h1, h2⟩ := reorderChain_of_ptsChain hrest
      (fun v hv => hpos v (List.mem_cons_of_mem u hv))
    have hu := hpos u (by simp)
    refine ⟨⟨?_, ?_, h1⟩, h2⟩
    · unfold ptsStart; omega
    · unfold ptsAfter; omega

/-- Where no sum overflows, the buffer reads a chain of updates as numbers. -/
theorem numbered_of_ptsChain {l : List PtsUpdate} {p : Int32} {q : Int}
    (hchain : PtsChain p.toInt (l.map PtsUpdate.update) q)
    (hpos : ∀ u ∈ l, 0 < u.info.count.toInt) (hfit : ∀ u ∈ l, q + u.info.count.toInt ≤ 2147483647) :
    Reorder.Numbered ptsOrder ptsAfter gapStack Int32.toInt ptsStart p l := by
  obtain ⟨hch, hfin⟩ := reorderChain_of_ptsChain hchain hpos
  have hle : p.toInt ≤ q := hfin ▸ hch.le_finish
  have hbounds : ∀ u ∈ l, p.toInt ≤ ptsStart u ∧ ptsStart u < q := hfin ▸ hch.start_mem
  refine ⟨hch, fun r hr u hu => ptsOrder_eq_compare ?_, gapStack_perm, fun m hm => ?_⟩
  · have hrq : r.toInt ≤ q := by
      rcases hr with rfl | ⟨v, hv, rfl⟩
      · exact hle
      · exact hfin ▸ hch.fin_le v hv
    have h1 := (inRange_toInt r).1
    have h2 := hpos u hu
    have h3 := hfit u hu
    exact ⟨by omega, by omega⟩
  · refine gapStack_sorted (fun u hu => ?_)
    obtain ⟨hul, hlt⟩ := hm u hu
    have h1 := (inRange_toInt p).1
    have h2 := hbounds u hul
    have h3 := hfit u hul
    have h4 := hpos u hul
    exact ⟨⟨by omega, by omega⟩, ⟨by omega, by omega⟩⟩

/-- The updates of a chain from the key's counter, in any order, with repetitions
and in any batches without `seq`, are delivered once each and in order, and
nothing is left buffered. -/
theorem live_complete (dbg : Bool) {s : MessageBoxes} (h : Reachable dbg s) {key : Key}
    {e : LiveEntry} (he : s.entry key = some e) (hgap : e.possibleGap = none)
    (hq : key ∉ s.gettingDiffFor) (chain : List PtsUpdate) (hkey : ∀ u ∈ chain, u.info.key = key)
    (hpos : ∀ u ∈ chain, 0 < u.info.count.toInt) (pn : Int)
    (hchain : PtsChain e.pts.toInt (chain.map PtsUpdate.update) pn)
    (hfit : ∀ u ∈ chain, pn + u.info.count.toInt ≤ 2147483647)
    {calls : List (Instant × UpdatesLike)} (hseq : ∀ i ∈ calls, Seqless i.2)
    (hsub : ∀ i ∈ calls, ∀ u ∈ i.2.contents, belongsTo key u = true →
      u ∈ chain.map PtsUpdate.update)
    (hall : ∀ u ∈ chain, ∃ i ∈ calls, u.update ∈ i.2.contents) :
    let r := Run.final liveStep (s, []) calls
    r.2.filter (belongsTo key) = chain.map PtsUpdate.update ∧ key ∉ r.1.gettingDiffFor ∧
    ∃ e', r.1.entry key = some e' ∧ e'.pts.toInt = pn ∧ e'.possibleGap = none := by
  intro r
  have ht : NoTooLong key calls := by
    intro i hi u hu hbel id pts heq
    obtain ⟨p, hp, rfl⟩ := List.mem_map.mp (hsub i hi u hu hbel)
    have hraw := (fromUpdate_eq_some.mp p.from_update).1
    rw [heq] at hraw
    have hcount := hpos p hp
    cases pts with
    | none => cases hraw
    | some pts =>
      simp only [PtsInfo.raw, Option.map_some, Option.some.injEq] at hraw
      rw [← hraw] at hcount
      change 0 < (0 : Int32).toInt at hcount
      exact absurd hcount (by decide)
  have hout := seqless_unqueued calls (x := (s, [])) h.sound hq ht hseq
  obtain ⟨fed, hown, hfed, hview⟩ := liveRun_view calls h.sound ht hout
  have hqv : (s.view key []).queued = false := by simpa [MessageBoxes.view] using hq
  obtain ⟨e', h1, h2, h3, h4⟩ := View.feedAll_buffer fed hqv he
  -- what is fed is the chain
  have hin : ∀ u ∈ fed.map Prod.snd, u ∈ chain := by
    intro u hu
    obtain ⟨f, hf, rfl⟩ := List.mem_map.mp hu
    obtain ⟨hk, i, hi, hmem⟩ := hown f hf
    obtain ⟨p, hp, hpu⟩ := List.mem_map.mp
      (hsub i hi f.2.update hmem (by simp [belongsTo_ptsUpdate, hk]))
    exact PtsUpdate.eq_of_update hpu ▸ hp
  have hcover : ∀ u ∈ chain, u ∈ fed.map Prod.snd := by
    intro u hu
    obtain ⟨i, hi, hmem⟩ := hall u hu
    obtain ⟨f, hf, hfu⟩ := hfed i hi (hseq i hi) u.update hmem
      (by simp [belongsTo_ptsUpdate, hkey u hu])
    exact List.mem_map.mpr ⟨f, hf, PtsUpdate.eq_of_update hfu⟩
  have hheld : e.held = [] := by simp [LiveEntry.held, hgap]
  have hrun : runBuffer e.buffer (fed.map Prod.snd) =
      ({ pos := Reorder.finish ptsAfter e.pts chain, held := [] }, chain) := by
    have hbuf : e.buffer = { pos := e.pts, held := [] } := by rw [LiveEntry.buffer, hheld]
    rw [hbuf]
    exact Reorder.run_chain (numbered_of_ptsChain hchain hpos hfit) hin hcover
  rw [hrun] at h2 h3
  refine ⟨(congrArg View.out hview).trans (h3.trans (List.nil_append _)), ?_, e',
    (congrArg View.entry hview).trans h1, ?_, ?_⟩
  · exact hout r (Run.final_mem_states liveStep calls (s, []))
  · have hpts : e'.pts = Reorder.finish ptsAfter e.pts chain :=
      congrArg Reorder.Buffer.pos h2
    rw [hpts]
    exact (reorderChain_of_ptsChain hchain hpos).2
  · have hheld' : e'.held = [] := congrArg Reorder.Buffer.held h2
    exact (h4 (by simp [hgap, hheld])).mpr hheld'

/-- Two deletions in a row, the second one first and once more. -/
theorem reversed_complete :
    let calls := [(1, deletion 13 2), (2, deletion 13 2), (3, deletion 11 1)]
    let r := Run.final liveStep (atTen, []) calls
    r.2.filter (belongsTo .common) = [.deleteMessages [] 11 1, .deleteMessages [] 13 2] := by
  have he : atTen.entry .common = some (freshEntry .common 10 (nextUpdatesDeadline 0)) := by decide
  let chain : List PtsUpdate :=
    [⟨.deleteMessages [] 11 1, ⟨.common, 11, 1⟩, rfl⟩, ⟨.deleteMessages [] 13 2, ⟨.common, 13, 2⟩, rfl⟩]
  have hseq : ∀ i ∈ [((1 : Instant), deletion 13 2), (2, deletion 13 2), (3, deletion 11 1)],
      Seqless i.2 := by
    intro i hi
    simp only [List.mem_cons, List.not_mem_nil, or_false] at hi
    rcases hi with rfl | rfl | rfl <;> exact ⟨_, rfl, rfl⟩
  exact (live_complete true atTen_reachable he rfl (by decide) chain (by decide)
    (by decide) 13 ⟨_, rfl, rfl, _, rfl, rfl, rfl⟩ (by decide) hseq (by decide)
    (by decide)).1

/-- A repeated update with a large count overflows the sum it is compared with,
and is taken for one that is ahead: it stays buffered. -/
theorem repeated_overflow :
    let u : PtsUpdate := ⟨.deleteMessages [] 2000000010 2000000000,
      ⟨.common, 2000000010, 2000000000⟩, rfl⟩
    let calls := [(1, deletion 2000000010 2000000000), (2, deletion 2000000010 2000000000)]
    let r := Run.final liveStep (atTen, []) calls
    Reachable true atTen ∧
    (atTen.entry .common).map LiveEntry.pts = some 10 ∧
    (atTen.entry .common).map LiveEntry.possibleGap = some none ∧
    .common ∉ atTen.gettingDiffFor ∧ 0 < u.info.count.toInt ∧ PtsChain 10 [u.update] 2000000010 ∧
    (∀ i ∈ calls, i.2.contents = [u.update]) ∧
    (r.1.entry .common).map (fun e => e.held) = some [u] := by
  refine ⟨atTen_reachable, by decide, by decide, by decide, by decide, ⟨_, rfl, rfl, rfl⟩,
    by decide, by decide⟩

end Ferogram.Msgbox
