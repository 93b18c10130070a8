import Ferogram.Msgbox.Channels

/- Several tasks that fetch channel differences from one box
   (`Client::run_pending_differences`). A worker takes a request from
   `get_channel_difference`, executes it, and hands its answer to
   `apply_channel_difference` or gives up with `end_channel_difference`; in between,
   other workers and the other operations have the box. The box keeps one marker
   for the request in flight, so an answer goes to the channel that was requested
   last, which need not be the one the worker asked for.

   Where each answer finds its own channel marked, or none, it changes nothing of
   another channel (`answers_attributed`). -/
namespace Ferogram.Msgbox
open Ferogram.Tl MessageBoxes

/-- The box and, for each worker, the channel it has a request out for. -/
structure Workers where
  box : MessageBoxes
  held : Nat → Option Int

/-- What happens next: a worker asks for a request, applies its answer or gives up
on it, or somebody else calls another operation. -/
inductive WorkerAct where
  | get (worker : Nat)
  | apply (worker : Nat) (difference : ChannelDifference)
  | giveUp (worker : Nat) (reason : PrematureEndReason)
  | other (op : Op) (notOurs : op.ofWorker = false)

namespace Workers

/-- No request is out. -/
def start (start : Start) : Workers := { box := start.box, held := fun _ => none }

/-- The channel that `get_channel_difference` returns a request for. -/
def requested : Except Panic (Option (Int × GetChannelDifference)) → Option Int
  | .ok (some (id, _)) => some id
  | _ => none

/-- A worker asks only when it has no request out, and handles an answer only when
it has one. -/
def next (dbg : Bool) (x : Workers) (i : Instant × WorkerAct) : Workers :=
  match i.2 with
  | .get w =>
    if x.held w = none then
      let r := MessageBoxes.getChannelDifference.run x.box
      { box := r.2, held := Function.update x.held w (requested r.1) }
    else x
  | .apply w d =>
    if x.held w = none then x
    else
      { box := ((applyChannelDifference dbg i.1 d).run x.box).2
        held := Function.update x.held w none }
  | .giveUp w reason =>
    if x.held w = none then x
    else
      { box := ((endChannelDifference dbg i.1 reason).run x.box).2
        held := Function.update x.held w none }
  | .other op _ => { x with box := step dbg x.box (i.1, op) }

/-- The channel whose answer is being handled. -/
def answered (x : Workers) : WorkerAct → Option Int
  | .apply w _ | .giveUp w _ => x.held w
  | _ => none

/-- Handling the answer for one channel does nothing to the entry of another and
to its place in the queue. -/
def Attributed (dbg : Bool) (x : Workers) (i : Instant × WorkerAct) : Prop :=
  ∀ id, x.answered i.2 = some id → ∀ id', id' ≠ id →
    (x.next dbg i).box.entry (.channel id') = x.box.entry (.channel id') ∧
    (.channel id' ∈ (x.next dbg i).box.gettingDiffFor ↔ .channel id' ∈ x.box.gettingDiffFor)

/-- A queued channel stays queued unless its own answer is handled. -/
def StaysQueued (dbg : Bool) (x : Workers) (i : Instant × WorkerAct) : Prop :=
  ∀ id, .channel id ∈ x.box.gettingDiffFor → x.answered i.2 ≠ some id →
    .channel id ∈ (x.next dbg i).box.gettingDiffFor

/-- For every queued channel a request is out, or it is its turn to be requested as
soon as those queued before it have been. -/
def Served (x : Workers) : Prop :=
  ∀ id, .channel id ∈ x.box.gettingDiffFor → (∃ w, x.held w = some id) ∨
    ∃ id', x.box.nextChannel = some id' ∧
      x.box.gettingDiffFor.idxOf (.channel id') ≤ x.box.gettingDiffFor.idxOf (.channel id)

/-- The other updates of an answer are of no other channel. -/
def OwnUpdates (id : Int) (difference : ChannelDifference) : Prop :=
  ∀ d, adaptChannelDifference difference = .ok d → ∀ u ∈ d.otherUpdates, ∀ id',
    updateKey u = some (.channel id') → id' = id

/-- Whoever handles an answer finds its own channel marked, or no queued channel. -/
def Matched (x : Workers) (i : Instant × WorkerAct) : Prop :=
  match i.2 with
  | .apply w d => ∀ id, x.held w = some id →
      Unmarked x.box ∨ x.box.channelDiffInFlight = some id ∧ OwnUpdates id d
  | .giveUp w _ => ∀ id, x.held w = some id →
      Unmarked x.box ∨ x.box.channelDiffInFlight = some id
  | _ => True

end Workers

/-! Answers. -/

/-- Giving up on a channel does nothing to the others. -/
theorem endChannelDifference_other (dbg : Bool) (now : Instant) {s : MessageBoxes} (h : RepInv s)
    {id : Int} {key : Key} (hne : key ≠ .channel id)
    (hm : Unmarked s ∨ s.channelDiffInFlight = some id) (reason : PrematureEndReason) :
    ((endChannelDifference dbg now reason).run s).2.view key [] = s.view key [] := by
  rcases marked_or_unmarked s with hu | ⟨id', hin, hq⟩
  · rw [endChannelDifference_unmarked dbg now hu]
    rfl
  · obtain rfl : id' = id := by
      rcases hm with hu | hin'
      · exact absurd hq (hu id' hin)
      · exact Option.some.inj (hin.symm.trans hin')
    rw [endChannelDifference_marked dbg now h hin hq]
    exact channelEnded_other h hne now reason

/-- Feeding the other updates of an answer does nothing to a key none of them is of. -/
theorem channelFed_other {s : MessageBoxes} (h : Sound s) (now : Instant) {id id' : Int}
    (hne : id' ≠ id) {d : ChannelDifferenceBody}
    (hown : ∀ u ∈ d.otherUpdates, updateKey u ≠ some (.channel id')) :
    (channelFed s now id d).view (.channel id') [] = s.view (.channel id') [] := by
  have hbase := (channelBase_moves s now id d).sound h
  have hnone : d.otherUpdates.filter (belongsTo (.channel id')) = [] := by
    rw [List.filter_eq_nil_iff]
    intro u hu
    simp [belongsTo, hown u hu]
  have hloop := processAll_view hbase now d.otherUpdates (.channel id')
  rw [hnone, StableSort.sortByKey_nil] at hloop
  have hfed := (processUpdates_looped hbase now (refeed d.otherUpdates d.users d.chats) id').1
  rw [looped_refeed] at hfed
  refine (hfed.trans ?_).trans (channelBase_other h.rep (channel_ne hne) now d)
  -- the loop returns nothing of the channel either, so both views have no output
  exact congrArg (fun v : View => { v with out := [] }) hloop

theorem applyChannelDifference_other (dbg : Bool) (now : Instant) {s : MessageBoxes} (h : Sound s)
    {id id' : Int} (hne : id' ≠ id) {diff : ChannelDifference}
    (hm : Unmarked s ∨ s.channelDiffInFlight = some id ∧ Workers.OwnUpdates id diff) :
    ((applyChannelDifference dbg now diff).run s).2.view (.channel id') [] =
      s.view (.channel id') [] := by
  have hkey := channel_ne hne
  rcases marked_or_unmarked s with hu | ⟨id₁, hin, hq⟩
  · rw [applyChannelDifference_unmarked dbg now hu]
    rfl
  · obtain ⟨hin', hown⟩ := hm.resolve_left (fun hu => hu id₁ hin hq)
    obtain rfl : id₁ = id := Option.some.inj (hin.symm.trans hin')
    cases hd : adaptChannelDifference diff with
    | error g =>
      rw [applyChannelDifference_ended dbg now h.rep hin hq hd]
      have htaken := channelTaken_repInv h.rep id₁
      exact (channelEnded_other htaken hkey now _).trans (channelTaken_other h.rep hkey)
    | ok d =>
      have hfed := channelFed_other h now hne (d := d)
        (fun u hu hu' => hne (hown d hd u hu id' hu'))
      rcases applyChannelDifference_fed dbg now h.rep hin hq hd with heq | ⟨deadline, heq⟩
      · rw [heq]
        exact hfed
      · have hmoves := ((channelBase_moves s now id₁ d).trans
          (processUpdates_moves _ (refeed d.otherUpdates d.users d.chats))).sound h
        rw [heq]
        exact (Apart.resetDeadline hmoves.rep.sorted hkey deadline).view.trans hfed

namespace Workers

/-! One step. -/

/-- The marker names a channel that some worker has a request out for. -/
structure Inv (x : Workers) : Prop where
  sound : Sound x.box
  marked : ∀ id, x.box.channelDiffInFlight = some id → ∃ w, x.held w = some id

theorem next_inv (dbg : Bool) {x : Workers} (h : Inv x) (i : Instant × WorkerAct) :
    Inv (x.next dbg i) := by
  obtain ⟨now, act⟩ := i
  cases act with
  | get w =>
    simp only [next]
    split
    · next hw =>
      cases hn : x.box.nextChannel with
      | none =>
        rw [getChannelDifference_none hn]
        refine ⟨h.sound, fun id hid => ?_⟩
        obtain ⟨w', hw'⟩ := h.marked id hid
        refine ⟨w', ?_⟩
        have hne : w' ≠ w := fun heq => by rw [heq, hw] at hw'; cases hw'
        exact (Function.update_of_ne hne _ _).trans hw'
      | some id =>
        obtain ⟨e, -, hrun⟩ := getChannelDifference_some h.sound.rep hn
        rw [hrun]
        have hmark : Move now x.box { x.box with channelDiffInFlight := some id } :=
          .bookkeeping rfl rfl rfl
        refine ⟨(Moves.single hmark).sound h.sound, fun id' hid => ⟨w, ?_⟩⟩
        cases hid
        exact Function.update_self w _ _
    · exact h
  | apply w d =>
    simp only [next]
    split
    · exact h
    · have hsound := step_sound dbg h.sound (now, .applyChannelDifference d)
      simp only [step, Op.call, Call.discard_snd] at hsound
      refine ⟨hsound, fun id hid => ?_⟩
      rw [applyChannelDifference_inFlight dbg now h.sound d] at hid
      cases hid
  | giveUp w reason =>
    simp only [next]
    split
    · exact h
    · refine ⟨step_sound dbg h.sound (now, .endChannelDifference reason), fun id hid => ?_⟩
      rw [endChannelDifference_inFlight dbg now h.sound.rep reason] at hid
      cases hid
  | other op hop =>
    refine ⟨step_sound dbg h.sound (now, op), fun id hid => h.marked id ?_⟩
    rw [← (step_keeps_queue dbg h.sound now hop).1]
    exact hid

/-- What another channel sees of an answer that is matched. -/
theorem answered_view (dbg : Bool) {x : Workers} (h : Sound x.box) (i : Instant × WorkerAct)
    (hm : x.Matched i) {id id' : Int} (hid : x.answered i.2 = some id) (hne : id' ≠ id) :
    (x.next dbg i).box.view (.channel id') [] = x.box.view (.channel id') [] := by
  obtain ⟨now, act⟩ := i
  cases act with
  | get w => cases hid
  | apply w d =>
    have hheld : x.held w = some id := hid
    simp only [next, hheld]
    exact applyChannelDifference_other dbg now h hne (hm id hheld)
  | giveUp w reason =>
    have hheld : x.held w = some id := hid
    simp only [next, hheld]
    exact endChannelDifference_other dbg now h.rep (channel_ne hne) (hm id hheld) reason
  | other op hop => cases hid

theorem attributed_of_matched (dbg : Bool) {x : Workers} (h : Sound x.box)
    (i : Instant × WorkerAct) (hm : x.Matched i) : x.Attributed dbg i := by
  intro id hid id' hne
  have hview := answered_view dbg h i hm hid hne
  exact ⟨congrArg View.entry hview, queued_of_view hview⟩

theorem staysQueued_of_matched (dbg : Bool) {x : Workers} (h : Sound x.box)
    (i : Instant × WorkerAct) (hm : x.Matched i) : x.StaysQueued dbg i := by
  intro id hq hne
  cases hans : x.answered i.2 with
  | some id' =>
    have hneq : id ≠ id' := fun heq => hne (by rw [hans, heq])
    exact (attributed_of_matched dbg h i hm id' hans id hneq).2.mpr hq
  | none =>
    obtain ⟨now, act⟩ := i
    cases act with
    | get w =>
      simp only [next]
      split
      · cases hn : x.box.nextChannel with
        | none =>
          rw [getChannelDifference_none hn]
          exact hq
        | some id' =>
          obtain ⟨e, -, hrun⟩ := getChannelDifference_some h.rep hn
          rw [hrun]
          exact hq
      · exact hq
    | apply w d =>
      have hheld : x.held w = none := hans
      simp only [next, hheld, if_true]
      exact hq
    | giveUp w reason =>
      have hheld : x.held w = none := hans
      simp only [next, hheld, if_true]
      exact hq
    | other op hop => exact (step_keeps_queue dbg h now hop).2 id hq

/-! The queue. -/

/-- What `get_channel_difference` makes of one key of the queue. -/
theorem pick_eq_some {inFlight : Option Int} {key : Key} {id : Int} :
    (match key with
      | .channel id => if inFlight ≠ some id then some id else none
      | _ => none) = some id ↔ key = .channel id ∧ inFlight ≠ some id := by
  cases key with
  | common => simp
  | secondary => simp
  | channel id' =>
    by_cases hin : inFlight = some id'
    · simp only [hin, ne_eq, not_true_eq_false, if_false, reduceCtorEq, Key.channel.injEq,
        Option.some.injEq, false_iff, not_and, not_not]
      exact fun h => h
    · simp only [ne_eq, hin, not_false_eq_true, if_true, Option.some.injEq, Key.channel.injEq]
      exact ⟨fun h => ⟨h, h ▸ hin⟩, fun h => h.1⟩

/-- A queued channel that is not marked is requested next, or one before it is. -/
theorem nextChannel_before {s : MessageBoxes} {id : Int} (hq : .channel id ∈ s.gettingDiffFor)
    (hin : s.channelDiffInFlight ≠ some id) :
    ∃ id', s.nextChannel = some id' ∧
      s.gettingDiffFor.idxOf (.channel id') ≤ s.gettingDiffFor.idxOf (.channel id) := by
  unfold nextChannel
  generalize s.gettingDiffFor = queue at hq ⊢
  induction queue with
  | nil => cases hq
  | cons key queue ih =>
    rw [List.findSome?_cons]
    split
    · next id' hpick =>
      obtain ⟨rfl, -⟩ := pick_eq_some.mp hpick
      exact ⟨id', rfl, by simp⟩
    · next hpick =>
      -- neither the channel itself nor the one found after it is at the front
      have hfront : ∀ id, s.channelDiffInFlight ≠ some id → key ≠ .channel id := by
        intro id hin hkey
        subst hkey
        simp [hin] at hpick
      have hmem : .channel id ∈ queue := by
        rcases List.mem_cons.mp hq with heq | hmem
        · exact absurd heq.symm (hfront id hin)
        · exact hmem
      obtain ⟨id', hnext, hle⟩ := ih hmem
      obtain ⟨k, -, hk⟩ := List.exists_of_findSome?_eq_some hnext
      refine ⟨id', hnext, ?_⟩
      rw [List.idxOf_cons_ne _ (hfront id' (pick_eq_some.mp hk).2),
        List.idxOf_cons_ne _ (hfront id hin)]
      omega

/-- In every state with the invariant each queued channel is served. -/
theorem Inv.served {x : Workers} (h : Inv x) : x.Served := by
  intro id hq
  by_cases hin : x.box.channelDiffInFlight = some id
  · exact Or.inl (h.marked id hin)
  · exact Or.inr (nextChannel_before hq hin)

/-! Runs. -/

theorem start_inv {start : Start} (h : start.DistinctChannels) : Inv (Workers.start start) := by
  refine ⟨start_sound h, fun id hid => ?_⟩
  cases start <;> cases hid

/-- In a run where whoever handles an answer finds its own channel marked, or no
queued channel, and the answers hold no updates of another channel, handling an
answer does nothing to another channel, a queued channel stays queued until its
own answer is handled, and it is being requested or is about to be. -/
theorem answers_attributed (dbg : Bool) (start : Start) (h : start.DistinctChannels)
    (is : List (Instant × WorkerAct))
    (hm : Run.AllSteps (next dbg) Matched (Workers.start start) is) :
    Run.AllSteps (next dbg) (fun x i => x.Attributed dbg i ∧ x.StaysQueued dbg i)
      (Workers.start start) is ∧
    ∀ x ∈ Run.states (next dbg) (Workers.start start) is, x.Served := by
  have hinv := start_inv h
  refine ⟨?_, fun x hx => ?_⟩
  · exact Run.allSteps_of_inv (I := Inv) (next dbg) (fun x i _ hx => next_inv dbg hx i)
      (fun x i hxi hx => ⟨attributed_of_matched dbg hx.sound i hxi,
        staysQueued_of_matched dbg hx.sound i hxi⟩) is _ hinv hm
  · have hall := Run.states_inv_all (I := Inv) (next dbg) (fun x i hx => next_inv dbg hx i) is _ hinv
    exact (hall x hx).served

/-- Two channels whose differences are to be fetched. -/
def twoQueued : Start :=
  .load 0 { pts := 0, qts := 0, date := 1, seq := 1, channels := [⟨5, 10⟩, ⟨6, 20⟩] }

/-- One worker after the other. -/
def inTurn : List (Instant × WorkerAct) :=
  [(1, .get 0), (2, .apply 0 (.empty true 11 (some 30))), (3, .get 1),
    (4, .giveUp 1 .temporaryServerIssues)]

theorem inTurn_attributed :
    Run.AllSteps (next true) (fun x i => x.Attributed true i ∧ x.StaysQueued true i)
      (Workers.start twoQueued) inTurn := by
  have hdistinct : twoQueued.DistinctChannels := by
    show ([5, 6] : List Int).Nodup
    decide
  refine (answers_attributed true twoQueued hdistinct inTurn ⟨trivial, ?_, trivial, ?_, trivial⟩).1
  · intro id hid
    have hheld : (Run.final (next true) (Workers.start twoQueued) [(1, .get 0)]).held 0 = some 5 := by
      decide
    obtain rfl : 5 = id := Option.some.inj (hheld.symm.trans hid)
    refine Or.inr ⟨by decide, fun d hd u hu => ?_⟩
    cases hd
    cases hu
  · intro id hid
    have hheld : (Run.final (next true) (Workers.start twoQueued) (inTurn.take 3)).held 1 = some 6 := by
      decide
    obtain rfl : 6 = id := Option.some.inj (hheld.symm.trans hid)
    exact Or.inr (by decide)

/-- Both workers at once: the second asks before the first is answered. -/
def atOnce : List (Instant × WorkerAct) :=
  [(1, .get 0), (2, .get 1), (3, .apply 0 (.empty true 11 (some 30)))]

/-- The answer for channel 5 goes to channel 6, whose counter it rewinds and which
it takes off the queue, while channel 5 stays queued where it was. -/
theorem answer_to_other_channel :
    let asked := Run.final (next true) (Workers.start twoQueued) (atOnce.take 2)
    let s := (Run.final (next true) (Workers.start twoQueued) atOnce).box
    asked.held 0 = some 5 ∧ asked.held 1 = some 6 ∧
    asked.box.gettingDiffFor = [.channel 5, .channel 6] ∧ s.gettingDiffFor = [.channel 5] ∧
    (s.entry (.channel 5)).map LiveEntry.pts = some 10 ∧
    (asked.box.entry (.channel 6)).map LiveEntry.pts = some 20 ∧
    (s.entry (.channel 6)).map LiveEntry.pts = some 11 ∧
    ¬ Run.AllSteps (next true) (fun x i => x.Attributed true i ∧ x.StaysQueued true i)
      (Workers.start twoQueued) atOnce := by
  refine ⟨by decide, by decide, by decide, by decide, by decide, by decide, by decide, ?_⟩
  intro h
  obtain ⟨-, hqueue⟩ := h.2.2.1.1 5 (by decide) 6 (by decide)
  revert hqueue
  decide

end Workers

end Ferogram.Msgbox
