import Mathlib.Logic.Relation
import Ferogram.Lib.Run
import Ferogram.Msgbox.Entries

/- The public operations as one step function, and what a step can do.

   A run starts from `MessageBoxes::new` or `load` and performs public operations,
   each at its own clock reading (`Op.call`, `step`). Every operation other than
   `check_deadlines` and `set_state` is a sequence of a few kinds of change to the
   box, listed once in `Move`; `apply_channel_difference` ends with one change
   more, the deadline taken from the server's timeout. An invariant of the box is
   proved by one case for each constructor of `Move` and these three operations. -/
namespace Ferogram.Msgbox
open Ferogram.Tl MessageBoxes StableSort

/-- A public operation that changes the box. -/
inductive Op where
  | processUpdates (updates : UpdatesLike)
  | setState (state : State)
  | trySetChannelState (id : Int) (pts : Int32)
  | checkDeadlines
  | getChannelDifference
  | applyDifference (difference : Difference)
  | applyChannelDifference (difference : ChannelDifference)
  | endChannelDifference (reason : PrematureEndReason)
  | abortDifference
  | forceResetCommonPts (pts qts date seq : Int32)
  deriving DecidableEq, Repr

/-- The call an operation makes, its result dropped. -/
def Op.call (dbg : Bool) (now : Instant) : Op → BoxCall Unit
  | .processUpdates u => do let _ ← Call.update (fun s => s.processUpdates now u); pure ()
  | .setState st => MessageBoxes.setState dbg now st
  | .trySetChannelState id pts => Call.edit (fun s => s.trySetChannelState now id pts)
  | .checkDeadlines => do let _ ← Call.update (fun s => s.checkDeadlines now); pure ()
  | .getChannelDifference => do let _ ← MessageBoxes.getChannelDifference; pure ()
  | .applyDifference d => do let _ ← MessageBoxes.applyDifference dbg now d; pure ()
  | .applyChannelDifference d => do let _ ← MessageBoxes.applyChannelDifference dbg now d; pure ()
  | .endChannelDifference reason => MessageBoxes.endChannelDifference dbg now reason
  | .abortDifference => MessageBoxes.abortDifference dbg now
  | .forceResetCommonPts pts qts date seq =>
    Call.edit (fun s => s.forceResetCommonPts now pts qts date seq)

/-- The box after an operation at a clock reading. -/
def step (dbg : Bool) (s : MessageBoxes) (i : Instant × Op) : MessageBoxes := ((i.2.call dbg i.1).run s).2

/-- How a box comes into being. -/
inductive Start where
  | new (now : Instant)
  | load (now : Instant) (state : UpdatesStateSnap)
  deriving DecidableEq, Repr

def Start.box : Start → MessageBoxes
  | .new now => MessageBoxes.new now
  | .load now state => MessageBoxes.load now state

/-- No two channels of the snapshot have the same id. -/
def Start.DistinctChannels : Start → Prop
  | .new _ => True
  | .load _ state => (state.channels.map ChannelState.id).Nodup

/-- `set_state` is only called on an empty box, as its contract asks. -/
def Lawful (s : MessageBoxes) (i : Instant × Op) : Prop :=
  match i.2 with
  | .setState _ => s.isEmpty = true
  | _ => True

/-- The boxes a lawful run reaches from a snapshot with distinct channels. -/
def Reachable (dbg : Bool) (s : MessageBoxes) : Prop :=
  ∃ (start : Start) (is : List (Instant × Op)), start.DistinctChannels ∧
    Run.AllSteps (step dbg) Lawful start.box is ∧ s = Run.final (step dbg) start.box is

/-! What an operation can do to the box. -/

/-- One change of the box at clock reading `now`. -/
inductive Move (now : Instant) : MessageBoxes → MessageBoxes → Prop
  /-- Only `date`, `seq` or the in-flight marker change. -/
  | bookkeeping {s s' : MessageBoxes} (he : s'.entries = s.entries)
      (hg : s'.gettingDiffFor = s.gettingDiffFor) (hn : s'.nextDeadline = s.nextDeadline) :
      Move now s s'
  | clearGap (s : MessageBoxes) (key : Key) : Move now s (s.clearGap key).2
  | setPts (s : MessageBoxes) (key : Key) (pts : Int32) : Move now s (s.setPts now key pts)
  /-- A channel is tracked, or its entry replaced. -/
  | track (s : MessageBoxes) (id : Int) (pts : Int32) :
      Move now s (s.setEntry (freshEntry (.channel id) pts (nextUpdatesDeadline now)))
  | queue (s : MessageBoxes) (key : Key) (hk : key ≠ .secondary) : Move now s (s.tryBeginGetDiff key)
  | unqueue (s : MessageBoxes) (key : Key) : Move now s (s.endGetDiff now key)
  | touch (s : MessageBoxes) (key : Key) : Move now s (s.feedQueued now key)
  | feed (s : MessageBoxes) (u : PtsUpdate) (hu : u.info.key ∉ s.gettingDiffFor) :
      Move now s (s.feedLive now (nextUpdatesDeadline now) u).1
  /-- A channel leaves the queue and its entry is deleted. -/
  | ban (s : MessageBoxes) (id : Int) (hq : .channel id ∈ s.gettingDiffFor) :
      Move now s ((s.endGetDiff now (.channel id)).popEntry (.channel id)).2

/-- A sequence of changes. -/
def Moves (now : Instant) : MessageBoxes → MessageBoxes → Prop := Relation.ReflTransGen (Move now)

namespace Moves
variable {now : Instant}

theorem refl (s : MessageBoxes) : Moves now s s := Relation.ReflTransGen.refl

theorem trans {s₁ s₂ s₃ : MessageBoxes} (h₁ : Moves now s₁ s₂) (h₂ : Moves now s₂ s₃) :
    Moves now s₁ s₃ := Relation.ReflTransGen.trans h₁ h₂

theorem single {s s' : MessageBoxes} (h : Move now s s') : Moves now s s' :=
  Relation.ReflTransGen.single h

/-- Extend a sequence by one change. -/
theorem snoc {s₁ s₂ s₃ : MessageBoxes} (h₁ : Moves now s₁ s₂) (h₂ : Move now s₂ s₃) :
    Moves now s₁ s₃ := Relation.ReflTransGen.tail h₁ h₂

/-- An invariant of every change is an invariant of every sequence. -/
theorem inv {I : MessageBoxes → Prop} (hI : ∀ s s', Move now s s' → I s → I s')
    {s s' : MessageBoxes} (h : Moves now s s') (hs : I s) : I s' := by
  induction h with
  | refl => exact hs
  | tail _ hm ih => exact hI _ _ hm ih

end Moves

section Calls
variable {now : Instant} {dbg : Bool}

theorem channelTooLong_moves (s : MessageBoxes) (id : Int) (pts : Option Int32) :
    Moves now s (s.channelTooLong (nextUpdatesDeadline now) id pts) := by
  unfold channelTooLong
  cases pts with
  | none => exact .single (.queue s _ (by simp))
  | some pts => exact (Moves.single (.track s id pts)).snoc (.queue _ _ (by simp))

theorem processPts_moves (b : Batch) (u : PtsUpdate) :
    Moves now b.box (b.processPts now (nextUpdatesDeadline now) u).box := by
  unfold Batch.processPts
  split
  · exact .single (.touch b.box u.info.key)
  · next h => exact .single (.feed b.box u (by simpa using h))

theorem processUpdate_moves (b : Batch) (u : Update) :
    Moves now b.box (b.processUpdate now (nextUpdatesDeadline now) u).box := by
  unfold Batch.processUpdate
  split
  · exact channelTooLong_moves b.box _ _
  · split
    · exact .refl b.box
    · exact processPts_moves b _

theorem foldl_moves (us : List Update) : ∀ b : Batch,
    Moves now b.box (us.foldl (Batch.processUpdate now (nextUpdatesDeadline now)) b).box := by
  induction us with
  | nil => exact fun b => .refl b.box
  | cons u us ih => exact fun b => (processUpdate_moves b u).trans (ih _)

theorem processUpdates_moves (s : MessageBoxes) (u : UpdatesLike) :
    Moves now s (s.processUpdates now u).2 := by
  unfold processUpdates
  split
  · exact .single (.queue s .common (by simp))
  · next c _ =>
    split
    · exact .refl s
    · split
      · exact .single (.queue s .common (by simp))
      · have h : Moves now s (s.processAll now c.updates).box :=
          foldl_moves (sortByKey updateSortKey c.updates)
            { box := s, result := [], haveUnresolvedGaps := false }
        simp only [processCombined]
        split
        · exact h.snoc (.bookkeeping rfl rfl rfl)
        · exact h

/-- Whether or not its assertion fires, `try_end_get_diff` leaves the same box. -/
theorem tryEndGetDiff_snd (s : MessageBoxes) (key : Key) :
    ((tryEndGetDiff dbg now key).run s).2 = s.endGetDiff now key := by
  simp only [tryEndGetDiff, Call.bind_run, Call.read_run]
  split
  · simp only [Call.bind_run, Call.edit_run, Call.read_run]
    split <;> rfl
  · next h =>
    have hidx : s.gettingDiffFor.idxOf? key = none := by
      rw [List.idxOf?_eq_none_iff]
      simpa using h
    simp [endGetDiff, hidx]

/-- Re-fed updates carry no `seq`: processing them never reports a gap. -/
theorem processUpdates_refeed (s : MessageBoxes) (us : List Update) (users : List User)
    (chats : List Chat) :
    s.processUpdates now (refeed us users chats) =
      let c := { updates := us, users := users, chats := chats, date := NO_DATE,
                 seqStart := NO_SEQ, seq := NO_SEQ }
      (.ok (s.processCombined now c).1, (s.processCombined now c).2) := by
  simp [processUpdates, adapt_refeed]

/-- What a property `I` of the box and a set `E` of panics have to satisfy to be
carried through the calls: changes keep `I`, and a panic that can happen in `I` is
in `E`. -/
structure Carried (dbg : Bool) (now : Instant) (I : MessageBoxes → Prop) (E : Panic → Prop) :
    Prop where
  move : ∀ {s s'}, Move now s s' → I s → I s'
  gap : ∀ {s key}, I s → dbg = true → key ∈ s.gettingDiffFor →
    ((s.endGetDiff now key).entry key).any (fun e => e.possibleGap.isSome) = true →
    E .gapWhileGettingDifference
  channel : ∀ {s id}, I s → s.nextChannel = some id → s.entry (.channel id) = none →
    E .channelEntryMissing

/-- The call keeps `I`, and panics within `E` only. -/
def Within {α : Type} (I : MessageBoxes → Prop) (E : Panic → Prop) (x : BoxCall α) : Prop :=
  Call.Spec I x (fun _ => I) (fun p s => E p ∧ I s)

theorem Within.run {α : Type} {I : MessageBoxes → Prop} {E : Panic → Prop} {x : BoxCall α}
    (h : Within I E x) {s : MessageBoxes} (hs : I s) :
    I (x.run s).2 ∧ ∀ p, (x.run s).1 = .error p → E p := by
  have := h s hs
  rcases hx : x.run s with ⟨r, s'⟩
  rw [hx] at this
  cases r with
  | ok a => exact ⟨this, fun p hp => by cases hp⟩
  | error e => exact ⟨this.2, fun p hp => by cases hp; exact this.1⟩

namespace Carried
variable {I : MessageBoxes → Prop} {E : Panic → Prop} (h : Carried dbg now I E)
include h

theorem moves {s s' : MessageBoxes} (hm : Moves now s s') (hs : I s) : I s' :=
  hm.inv (fun _ _ => h.move) hs

theorem bookkeeping {s s' : MessageBoxes} (hs : I s) (he : s'.entries = s.entries)
    (hg : s'.gettingDiffFor = s.gettingDiffFor) (hn : s'.nextDeadline = s.nextDeadline) : I s' :=
  h.move (.bookkeeping he hg hn) hs

theorem clearGap (key : Key) :
    Within I E (Call.edit (fun s => (s.clearGap key).2) : BoxCall Unit) :=
  Call.Spec.edit' _ (fun s hs => h.move (.clearGap s key) hs)

theorem tryEndGetDiff (key : Key) : Within I E (tryEndGetDiff dbg now key) := by
  unfold MessageBoxes.tryEndGetDiff
  refine Call.Spec.bind' (R := fun queued s => I s ∧ (queued = true → key ∈ s.gettingDiffFor))
    (Call.Spec.read' _ (fun s hs => ⟨hs, fun hq => by simpa using hq⟩)) (fun queued => ?_)
  refine Call.Spec.ite' (fun hq => ?_) (fun _ => Call.Spec.pure' _ (fun _ hs => hs.1))
  -- what the assertion reads is the box after the key has left the queue
  refine Call.Spec.bind' (R := fun _ s' => I s' ∧ ∃ s, I s ∧ key ∈ s.gettingDiffFor ∧
    s' = s.endGetDiff now key) ?_ (fun _ => ?_)
  · exact Call.Spec.edit' _ (fun s hs =>
      ⟨h.move (.unqueue s key) hs.1, s, hs.1, hs.2 hq, rfl⟩)
  refine Call.Spec.bind'
    (R := fun gap s' => I s' ∧ (dbg = true → gap = true → E .gapWhileGettingDifference)) ?_ ?_
  · refine Call.Spec.read' _ (fun s' hs => ⟨hs.1, fun hd hgap => ?_⟩)
    obtain ⟨-, s, hs, hkey, rfl⟩ := hs
    exact h.gap hs hd hkey hgap
  · intro gap
    refine Call.Spec.ite' (fun hc => Call.Spec.fail' _ (fun s hs => ?_))
      (fun _ => Call.Spec.pure' _ (fun _ hs => hs.1))
    rw [Bool.and_eq_true] at hc
    exact ⟨hs.2 hc.1 hc.2, hs.1⟩

theorem refeedUpdates (p : Panic) (us : List Update) (users : List User) (chats : List Chat) :
    Within I E (refeedUpdates now p us users chats) := by
  intro s hs
  have hm := h.moves (processUpdates_moves s (refeed us users chats)) hs
  simp only [MessageBoxes.refeedUpdates, Call.bind_run, Call.update_run]
  rw [processUpdates_refeed] at hm ⊢
  exact hm

theorem applyDifferenceType (d : DifferenceBody) : Within I E (applyDifferenceType now d) := by
  unfold MessageBoxes.applyDifferenceType
  refine Call.Spec.bind' (R := fun _ => I) ?_ (fun _ => ?_)
  · refine Call.Spec.edit' _ (fun s hs => ?_)
    have hb : Move now s { s with date := d.state.date, seq := d.state.seq } :=
      .bookkeeping rfl rfl rfl
    exact h.move (.setPts _ .secondary _) (h.move (.setPts _ .common _) (h.move hb hs))
  · refine Call.Spec.bind' (h.refeedUpdates _ _ _ _) (fun _ => ?_)
    exact Call.Spec.pure' _ (fun _ hs => hs)

theorem finishDifference (r : UpdateAndPeers) : Within I E (finishDifference dbg now r) := by
  unfold MessageBoxes.finishDifference
  refine Call.Spec.bind' (h.tryEndGetDiff _) (fun _ => ?_)
  refine Call.Spec.bind' (h.tryEndGetDiff _) (fun _ => ?_)
  exact Call.Spec.pure' _ (fun _ hs => hs)

theorem applyDifference (d : Difference) : Within I E (applyDifference dbg now d) := by
  unfold MessageBoxes.applyDifference
  refine Call.Spec.bind' (R := fun _ => I) (Call.Spec.read' _ (fun _ hs => hs)) (fun pending => ?_)
  refine Call.Spec.ite' (fun _ => Call.Spec.pure' _ (fun _ hs => hs)) (fun _ => ?_)
  cases d with
  | empty date seq =>
    refine Call.Spec.bind' (R := fun _ => I) ?_ (fun _ => h.finishDifference _)
    exact Call.Spec.edit' _ (fun s hs => h.bookkeeping hs rfl rfl rfl)
  | difference d => exact Call.Spec.bind' (h.applyDifferenceType d) (fun _ => h.finishDifference _)
  | slice d => exact h.applyDifferenceType d
  | tooLong pts =>
    refine Call.Spec.bind' (R := fun _ => I) ?_ (fun _ => h.finishDifference _)
    exact Call.Spec.edit' _ (fun s hs => h.move (.setPts s _ _) hs)

theorem abortDifference : Within I E (abortDifference dbg now) := by
  unfold MessageBoxes.abortDifference
  refine Call.Spec.bind' (h.clearGap .common) (fun _ => ?_)
  refine Call.Spec.bind' (h.tryEndGetDiff _) (fun _ => ?_)
  refine Call.Spec.bind' (h.clearGap .secondary) (fun _ => ?_)
  exact h.tryEndGetDiff _

/-- Ending a channel difference for good: the queue is left and the entry deleted. -/
theorem ban (id : Int) :
    Call.Spec (fun s => I s ∧ .channel id ∈ s.gettingDiffFor)
      (do
        MessageBoxes.tryEndGetDiff dbg now (.channel id)
        Call.edit (fun s => (s.popEntry (.channel id)).2))
      (fun _ => I) (fun p s => E p ∧ I s) := by
  rintro s ⟨hs, hq⟩
  have hend : ((MessageBoxes.tryEndGetDiff dbg now (.channel id)).run s).2 =
      s.endGetDiff now (.channel id) := tryEndGetDiff_snd s _
  have hin := (h.tryEndGetDiff (.channel id)).run hs
  rw [Call.bind_run]
  rcases hr : (MessageBoxes.tryEndGetDiff dbg now (.channel id)).run s with ⟨r, s'⟩
  rw [hr] at hend hin
  simp only at hend
  subst hend
  cases r with
  | ok _ => exact h.move (.ban s id hq) hs
  | error e => exact ⟨hin.2 e rfl, hin.1⟩

theorem endChannelDifference (reason : PrematureEndReason) :
    Within I E (endChannelDifference dbg now reason) := by
  unfold MessageBoxes.endChannelDifference
  refine Call.Spec.bind' (R := fun _ => I) (Call.Spec.read' _ (fun _ hs => hs)) (fun inFlight => ?_)
  refine Call.Spec.bind' (R := fun _ => I) ?_ (fun _ => ?_)
  · exact Call.Spec.edit' _ (fun s hs => h.bookkeeping hs rfl rfl rfl)
  cases inFlight with
  | none => exact Call.Spec.pure' _ (fun _ hs => hs)
  | some id =>
    refine Call.Spec.bind'
      (R := fun queued s => I s ∧ (queued = true → .channel id ∈ s.gettingDiffFor)) ?_ ?_
    · exact Call.Spec.read' _ (fun s hs => ⟨hs, fun hq => by simpa using hq⟩)
    intro queued
    cases queued with
    | false => exact Call.Spec.pure' _ (fun _ hs => hs.1)
    | true =>
      cases reason with
      | temporaryServerIssues =>
        refine Call.Spec.bind' (R := fun _ => I) ?_ (fun _ => h.tryEndGetDiff _)
        exact Call.Spec.edit' _ (fun s hs => h.move (.clearGap s _) hs.1)
      | banned =>
        refine Call.Spec.bind' (R := fun _ s => I s ∧ .channel id ∈ s.gettingDiffFor)
          ?_ (fun _ => h.ban id)
        refine Call.Spec.edit' _ (fun s hs => ⟨h.move (.clearGap s _) hs.1, ?_⟩)
        rw [MessageBoxes.clearGap, updateEntry_gettingDiffFor]
        exact hs.2 rfl

theorem applyChannelBody (id : Int) (d : ChannelDifferenceBody) :
    Within I E (applyChannelBody dbg now id d) := by
  unfold MessageBoxes.applyChannelBody
  refine Call.Spec.bind' (R := fun _ => I) ?_ (fun _ => ?_)
  · unfold endIfFinal
    exact Call.Spec.ite' (fun _ => h.tryEndGetDiff _)
      (fun _ => Call.Spec.pure' _ (fun _ hs => hs))
  refine Call.Spec.bind' (R := fun _ => I) ?_ (fun _ => ?_)
  · exact Call.Spec.edit' _ (fun s hs => h.move (.setPts s _ _) hs)
  refine Call.Spec.bind' (h.refeedUpdates _ _ _ _) (fun _ => ?_)
  exact Call.Spec.pure' _ (fun _ hs => hs)

/-- For a property that survives any deadline of a channel. -/
theorem applyChannelDifference (hov : E .instantOverflow)
    (hdl : ∀ s id deadline, I s → I (s.resetDeadline (.channel id) deadline))
    (diff : ChannelDifference) : Within I E (applyChannelDifference dbg now diff) := by
  unfold MessageBoxes.applyChannelDifference
  refine Call.Spec.bind' (R := fun _ => I) (Call.Spec.read' _ (fun _ hs => hs)) (fun inFlight => ?_)
  refine Call.Spec.bind' (R := fun _ => I) ?_ (fun _ => ?_)
  · exact Call.Spec.edit' _ (fun s hs => h.bookkeeping hs rfl rfl rfl)
  cases inFlight with
  | none => exact Call.Spec.pure' _ (fun _ hs => hs)
  | some id =>
    refine Call.Spec.bind' (R := fun _ => I) (Call.Spec.read' _ (fun _ hs => hs)) (fun queued => ?_)
    refine Call.Spec.ite' (fun _ => Call.Spec.pure' _ (fun _ hs => hs)) (fun _ => ?_)
    refine Call.Spec.bind' (h.clearGap _) (fun _ => ?_)
    cases adaptChannelDifference diff with
    | error _ =>
      refine Call.Spec.bind' (R := fun _ => I) ?_ (fun _ => ?_)
      · exact Call.Spec.edit' _ (fun s hs => h.bookkeeping hs rfl rfl rfl)
      refine Call.Spec.bind' (h.endChannelDifference _) (fun _ => ?_)
      exact Call.Spec.pure' _ (fun _ hs => hs)
    | ok d =>
      refine Call.Spec.bind' (h.applyChannelBody id d) (fun _ => ?_)
      refine Call.Spec.bind' (R := fun _ => I) ?_ (fun _ => Call.Spec.pure' _ (fun _ hs => hs))
      unfold resetTimeout
      cases d.timeout with
      | none => exact Call.Spec.edit' _ (fun s hs => hdl s _ _ hs)
      | some t =>
        exact Call.Spec.ite' (fun _ => Call.Spec.fail' _ (fun s hs => ⟨hov, hs⟩))
          (fun _ => Call.Spec.edit' _ (fun s hs => hdl s _ _ hs))

theorem getChannelDifference : Within I E getChannelDifference := by
  unfold MessageBoxes.getChannelDifference
  refine Call.Spec.bind' (R := fun channel s => I s ∧ s.nextChannel = channel)
    (Call.Spec.read' _ (fun s hs => ⟨hs, rfl⟩)) (fun channel => ?_)
  cases channel with
  | none => exact Call.Spec.pure' _ (fun _ hs => hs.1)
  | some id =>
    refine Call.Spec.bind'
      (R := fun e s => I s ∧ s.nextChannel = some id ∧ s.entry (.channel id) = e)
      (Call.Spec.read' _ (fun s hs => ⟨hs.1, hs.2, rfl⟩)) (fun e => ?_)
    cases e with
    | none => exact Call.Spec.fail' _ (fun s hs => ⟨h.channel hs.1 hs.2.1 hs.2.2, hs.1⟩)
    | some e =>
      refine Call.Spec.bind' (R := fun _ => I) ?_ (fun _ => Call.Spec.pure' _ (fun _ hs => hs))
      exact Call.Spec.edit' _ (fun s hs => h.bookkeeping hs.1 rfl rfl rfl)

end Carried

/-- Being reached by changes is carried through every call. -/
theorem moves_carried (dbg : Bool) (s₀ : MessageBoxes) : Carried dbg now (Moves now s₀) (fun _ => True) where
  move hm hs := hs.snoc hm
  gap _ _ _ _ := trivial
  channel _ _ _ := trivial

/-- The box `apply_channel_difference` starts a well-formed difference from. -/
def channelTaken (s : MessageBoxes) (id : Int) : MessageBoxes :=
  (MessageBoxes.clearGap { s with channelDiffInFlight := none } (.channel id)).2

/-- The box right before `apply_channel_difference` resets the channel's timeout. -/
def beforeTimeout (dbg : Bool) (now : Instant) (s : MessageBoxes) (id : Int)
    (d : ChannelDifferenceBody) : MessageBoxes :=
  ((applyChannelBody dbg now id d).run (channelTaken s id)).2

theorem channelTaken_moves (s : MessageBoxes) (id : Int) : Moves now s (channelTaken s id) := by
  have h : Move now s { s with channelDiffInFlight := none } := .bookkeeping rfl rfl rfl
  exact (Moves.single h).snoc (.clearGap _ _)

theorem beforeTimeout_moves (dbg : Bool) (now : Instant) (s : MessageBoxes) (id : Int)
    (d : ChannelDifferenceBody) :
    Moves now s (beforeTimeout dbg now s id d) :=
  (((moves_carried dbg s).applyChannelBody id d).run (channelTaken_moves s id)).1

/-- `apply_channel_difference` makes changes, and then perhaps takes over a
timeout of the server. -/
theorem applyChannelDifference_cases (s : MessageBoxes) (diff : ChannelDifference) :
    Moves now s ((applyChannelDifference dbg now diff).run s).2 ∨
    ∃ id d t, s.channelDiffInFlight = some id ∧ .channel id ∈ s.gettingDiffFor ∧
      adaptChannelDifference diff = .ok d ∧ d.timeout = some t ∧ ¬ t < 0 ∧
      ((applyChannelDifference dbg now diff).run s).2 =
        (beforeTimeout dbg now s id d).resetDeadline (.channel id)
          (now + t.toInt.toNat * 1000000000) := by
  simp only [applyChannelDifference, Call.bind_run, Call.read_run, Call.edit_run]
  have htake : Moves now s { s with channelDiffInFlight := none } :=
    .single (.bookkeeping rfl rfl rfl)
  cases hin : s.channelDiffInFlight with
  | none => exact Or.inl htake
  | some id =>
    simp only [Call.bind_run, Call.read_run]
    by_cases hq : s.gettingDiffFor.contains (.channel id) = true
    · simp only [hq, Bool.not_true, Bool.false_eq_true, if_false, Call.bind_run, Call.edit_run]
      have htaken : Moves now s (channelTaken s id) := channelTaken_moves s id
      unfold channelTaken at htaken
      rcases had : adaptChannelDifference diff with _ | d
      · left
        simp only [Call.bind_run, Call.edit_run]
        -- the difference is ended under its mark, which is set again for that
        have hmark : Move now (channelTaken s id)
            { channelTaken s id with channelDiffInFlight := some id } := .bookkeeping rfl rfl rfl
        have hcall : Within (Moves now s) _ (endChannelDifference dbg now .temporaryServerIssues) :=
          (moves_carried dbg s).endChannelDifference _
        have h := (hcall.run (htaken.snoc hmark)).1
        unfold channelTaken at h
        revert h
        rcases (endChannelDifference dbg now .temporaryServerIssues).run _ with ⟨r, s'⟩
        cases r <;> exact fun h => h
      · have hbody : Moves now s (beforeTimeout dbg now s id d) := beforeTimeout_moves dbg now s id d
        unfold beforeTimeout channelTaken at hbody
        simp only [Call.bind_run]
        rcases hr : (applyChannelBody dbg now id d).run
          (MessageBoxes.clearGap { s with channelDiffInFlight := none } (.channel id)).2 with ⟨r, s'⟩
        rw [hr] at hbody
        cases r with
        | error e => exact Or.inl hbody
        | ok a =>
          simp only
          cases ht : d.timeout with
          | none => exact Or.inl (hbody.snoc (.touch s' _))
          | some t =>
            simp only [resetTimeout]
            by_cases hneg : t < 0
            · left
              simp only [if_pos hneg, Call.fail_run]
              exact hbody
            · right
              refine ⟨id, d, t, rfl, by simpa using hq, rfl, ht, hneg, ?_⟩
              simp only [if_neg hneg, Call.edit_run, Call.pure_run]
              unfold beforeTimeout channelTaken
              rw [hr]
    · -- no longer queued
      simp only [Bool.not_eq_true] at hq
      simp only [hq, Bool.not_false, if_true, Call.pure_run]
      exact Or.inl htake

theorem trySetChannelState_moves (s : MessageBoxes) (id : Int) (pts : Int32) :
    Moves now s (s.trySetChannelState now id pts) := by
  unfold trySetChannelState
  split
  · exact .refl s
  · exact .single (.track s id pts)

theorem forceResetCommonPts_moves (s : MessageBoxes) (pts qts date seq : Int32) :
    Moves now s (s.forceResetCommonPts now pts qts date seq) :=
  ((Moves.single (.setPts s .common pts)).snoc (.setPts _ .secondary qts)).snoc
    (.bookkeeping rfl rfl rfl)

end Calls

/-- The box `set_state` leaves when its assertion does not stop it. -/
def stateSet (s : MessageBoxes) (now : Instant) (state : State) : MessageBoxes :=
  let deadline := nextUpdatesDeadline now
  let s := s.setEntry (freshEntry .common state.pts deadline)
  let s := s.setEntry (freshEntry .secondary state.qts deadline)
  { s with date := state.date, seq := state.seq, nextDeadline := deadline }

/-- Everything a public operation can do to the box. -/
theorem step_cases (dbg : Bool) (s : MessageBoxes) (now : Instant) (op : Op) :
    Moves now s (step dbg s (now, op)) ∨
    (op = .checkDeadlines ∧ step dbg s (now, op) = (s.checkDeadlines now).2) ∨
    (∃ state, op = .setState state ∧ step dbg s (now, op) = stateSet s now state) ∨
    (∃ diff id d t, op = .applyChannelDifference diff ∧ s.channelDiffInFlight = some id ∧
      .channel id ∈ s.gettingDiffFor ∧ adaptChannelDifference diff = .ok d ∧
      d.timeout = some t ∧ ¬ t < 0 ∧
      step dbg s (now, op) = (beforeTimeout dbg now s id d).resetDeadline (.channel id)
        (now + t.toInt.toNat * 1000000000)) := by
  cases op with
  | processUpdates u => exact Or.inl (processUpdates_moves s u)
  | setState state =>
    simp only [step, Op.call, setState, Call.bind_run, Call.read_run]
    split
    · exact Or.inl (.refl s)
    · exact Or.inr (Or.inr (Or.inl ⟨state, rfl, rfl⟩))
  | trySetChannelState id pts => exact Or.inl (trySetChannelState_moves s id pts)
  | checkDeadlines => exact Or.inr (Or.inl ⟨rfl, rfl⟩)
  | getChannelDifference =>
    left
    simp only [step, Op.call, Call.discard_snd]
    exact ((moves_carried dbg s).getChannelDifference.run (.refl s)).1
  | applyDifference d =>
    left
    simp only [step, Op.call, Call.discard_snd]
    exact (((moves_carried dbg s).applyDifference d).run (.refl s)).1
  | applyChannelDifference diff =>
    simp only [step, Op.call, Call.discard_snd]
    rcases applyChannelDifference_cases s diff with
      h | ⟨id, d, t, h1, h2, h3, h4, h5, h6⟩
    · exact Or.inl h
    · exact Or.inr (Or.inr (Or.inr ⟨diff, id, d, t, rfl, h1, h2, h3, h4, h5, h6⟩))
  | endChannelDifference reason =>
    exact Or.inl (((moves_carried dbg s).endChannelDifference reason).run (.refl s)).1
  | abortDifference => exact Or.inl ((moves_carried dbg s).abortDifference.run (.refl s)).1
  | forceResetCommonPts pts qts date seq =>
    exact Or.inl (forceResetCommonPts_moves s pts qts date seq)

end Ferogram.Msgbox
