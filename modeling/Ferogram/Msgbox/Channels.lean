import Ferogram.Msgbox.Loss

/- What one channel sees of the operations: its entry, whether it is queued, and
   the marker of the request in flight. An operation on the account keys does none
   of it anything (`Apart`), a batch runs the channel's own updates, and a channel
   difference or its end goes to the channel the marker names, whichever channel
   the answer was for. -/
namespace Ferogram.Msgbox
open Ferogram.Tl MessageBoxes StableSort

variable {s : MessageBoxes}

/-! The marker. Only the three operations of a channel difference write it. -/

namespace MessageBoxes

@[simp] theorem setEntry_inFlight (s : MessageBoxes) (e : LiveEntry) :
    (s.setEntry e).channelDiffInFlight = s.channelDiffInFlight := by rw [setEntry_eq]

@[simp] theorem updateEntry_inFlight (s : MessageBoxes) (key : Key) (f : LiveEntry → LiveEntry) :
    (s.updateEntry key f).2.channelDiffInFlight = s.channelDiffInFlight := by
  unfold updateEntry; split <;> rfl

@[simp] theorem clearGap_inFlight (s : MessageBoxes) (key : Key) :
    (s.clearGap key).2.channelDiffInFlight = s.channelDiffInFlight := updateEntry_inFlight s key _

@[simp] theorem popEntry_inFlight (s : MessageBoxes) (key : Key) :
    (s.popEntry key).2.channelDiffInFlight = s.channelDiffInFlight := by rw [popEntry_snd]

@[simp] theorem setPts_inFlight (s : MessageBoxes) (now : Instant) (key : Key) (pts : Int32) :
    (s.setPts now key pts).channelDiffInFlight = s.channelDiffInFlight := by
  have h := updateEntry_inFlight s key (fun e => { e with pts := pts })
  unfold setPts
  rcases hu : s.updateEntry key (fun e => { e with pts := pts }) with ⟨found, s'⟩
  rw [hu] at h
  cases found with
  | true => exact h
  | false => exact (setEntry_inFlight s' _).trans h

@[simp] theorem resetDeadline_inFlight (s : MessageBoxes) (key : Key) (deadline : Instant) :
    (s.resetDeadline key deadline).channelDiffInFlight = s.channelDiffInFlight := by
  unfold resetDeadline; dsimp only; split <;> simp

@[simp] theorem endGetDiff_inFlight (s : MessageBoxes) (now : Instant) (key : Key) :
    (s.endGetDiff now key).channelDiffInFlight = s.channelDiffInFlight := by
  rw [endGetDiff_eq]
  split
  · exact resetDeadline_inFlight _ key _
  · rfl

@[simp] theorem tryBeginGetDiff_inFlight (s : MessageBoxes) (key : Key) :
    (s.tryBeginGetDiff key).channelDiffInFlight = s.channelDiffInFlight := by
  have h := clearGap_inFlight s key
  unfold tryBeginGetDiff
  rcases hu : s.clearGap key with ⟨found, s'⟩
  rw [hu] at h
  split
  · rfl
  · cases found <;> exact h

@[simp] theorem channelTooLong_inFlight (s : MessageBoxes) (deadline : Instant) (id : Int)
    (pts : Option Int32) :
    (s.channelTooLong deadline id pts).channelDiffInFlight = s.channelDiffInFlight := by
  unfold channelTooLong
  cases pts <;> simp

@[simp] theorem feedLive_inFlight (s : MessageBoxes) (now deadline : Instant) (u : PtsUpdate) :
    (s.feedLive now deadline u).1.channelDiffInFlight = s.channelDiffInFlight := by
  unfold feedLive forceUpdateEntry
  dsimp only
  split <;> rfl

end MessageBoxes

@[simp] theorem processUpdate_inFlight (b : Batch) (now deadline : Instant) (u : Update) :
    (b.processUpdate now deadline u).box.channelDiffInFlight = b.box.channelDiffInFlight := by
  rcases update_cases u with ⟨id, pts, rfl⟩ | ⟨ht, hnone⟩ | ⟨p, rfl, ht⟩
  · exact channelTooLong_inFlight b.box deadline id pts
  · rw [processUpdate_plain b now deadline ht hnone]
  · rw [processUpdate_pts b now deadline ht]
    unfold Batch.processPts
    split
    · exact resetDeadline_inFlight b.box _ _
    · exact feedLive_inFlight b.box now deadline p

theorem foldl_inFlight (now deadline : Instant) (us : List Update) : ∀ b : Batch,
    (us.foldl (Batch.processUpdate now deadline) b).box.channelDiffInFlight =
      b.box.channelDiffInFlight := by
  induction us with
  | nil => exact fun b => rfl
  | cons u us ih => exact fun b => (ih _).trans (processUpdate_inFlight b now deadline u)

theorem processAll_inFlight (s : MessageBoxes) (now : Instant) (us : List Update) :
    (s.processAll now us).box.channelDiffInFlight = s.channelDiffInFlight :=
  foldl_inFlight now _ _ _

@[simp] theorem clearGaps_inFlight (keys : List Key) : ∀ s : MessageBoxes,
    (clearGaps s keys).channelDiffInFlight = s.channelDiffInFlight := by
  induction keys with
  | nil => exact fun s => rfl
  | cons key keys ih => exact fun s => (ih _).trans (clearGap_inFlight s key)

@[simp] theorem checkDeadlines_inFlight (s : MessageBoxes) (now : Instant) :
    (s.checkDeadlines now).2.channelDiffInFlight = s.channelDiffInFlight := by
  rw [checkDeadlines_snd]
  split
  · split
    · rfl
    · exact clearGaps_inFlight _ _
  · rfl

/-! Batches. -/

/-- The updates the loop of `process_updates` goes over, none when the batch stops
at the check of its `seq`. -/
def looped (s : MessageBoxes) (b : UpdatesLike) : List Update :=
  match adapt b with
  | .error _ => []
  | .ok c =>
    if c.seqStart ≠ NO_SEQ ∧ (c.seqStart < s.seq + 1 ∨ s.seq + 1 < c.seqStart) then []
    else c.updates

/-- A call of `process_updates`, seen by a channel, is its loop. -/
theorem processUpdates_looped (h : Sound s) (now : Instant) (b : UpdatesLike)
    (id : Int) :
    (s.processUpdates now b).2.view (.channel id) [] =
      (s.processAll now (looped s b)).box.view (.channel id) [] ∧
    (s.processUpdates now b).2.channelDiffInFlight = s.channelDiffInFlight := by
  have hgap : (s.tryBeginGetDiff .common).view (.channel id) [] = s.view (.channel id) [] := by
    rw [tryBeginGetDiff_view h.rep.sorted, if_neg (by simp)]
  have hnil : (s.processAll now []).box = s := by
    unfold processAll
    rw [sortByKey_nil]
    rfl
  unfold processUpdates looped
  cases hb : adapt b with
  | error g => exact ⟨by rw [hnil]; exact hgap, tryBeginGetDiff_inFlight s .common⟩
  | ok c =>
    dsimp only
    split
    · next hlt =>
      rw [if_pos ⟨hlt.1, Or.inl hlt.2⟩, hnil]
      exact ⟨rfl, rfl⟩
    · next hlt =>
      split
      · next hgt =>
        rw [if_pos ⟨hgt.1, Or.inr hgt.2⟩, hnil]
        exact ⟨hgap, tryBeginGetDiff_inFlight s .common⟩
      · next hgt =>
        have hpass : ¬ (c.seqStart ≠ NO_SEQ ∧ (c.seqStart < s.seq + 1 ∨ s.seq + 1 < c.seqStart)) := by
          rintro ⟨hne, h | h⟩
          · exact hlt ⟨hne, h⟩
          · exact hgt ⟨hne, h⟩
        rw [if_neg hpass, ← processAll_inFlight s now c.updates]
        unfold processCombined
        dsimp only
        split <;> exact ⟨rfl, rfl⟩

/-- Re-fed updates are not checked for a `seq`. -/
theorem looped_refeed (s : MessageBoxes) (us : List Update) (users : List User)
    (chats : List Chat) : looped s (refeed us users chats) = us := by
  simp [looped, adapt_refeed]

/-! Changes that are not about the channel. -/

theorem channel_ne {id id' : Int} (h : id' ≠ id) : (.channel id' : Key) ≠ .channel id :=
  fun hc => h (by injection hc)

theorem queued_of_view {key : Key} {s s' : MessageBoxes} (h : s'.view key [] = s.view key []) :
    key ∈ s'.gettingDiffFor ↔ key ∈ s.gettingDiffFor := by
  have hq : s'.gettingDiffFor.contains key = s.gettingDiffFor.contains key :=
    congrArg View.queued h
  rw [← List.contains_iff_mem, hq, List.contains_iff_mem]

/-- Nothing of `key` and of the marker differs between the two boxes. -/
structure Apart (key : Key) (s s' : MessageBoxes) : Prop where
  view : s'.view key [] = s.view key []
  inFlight : s'.channelDiffInFlight = s.channelDiffInFlight

namespace Apart
variable {key : Key}

theorem refl (key : Key) (s : MessageBoxes) : Apart key s s := ⟨rfl, rfl⟩

theorem trans {s₁ s₂ s₃ : MessageBoxes} (h₁ : Apart key s₁ s₂) (h₂ : Apart key s₂ s₃) :
    Apart key s₁ s₃ := ⟨h₂.view.trans h₁.view, h₂.inFlight.trans h₁.inFlight⟩

theorem entry {s' : MessageBoxes} (h : Apart key s s') : s'.entry key = s.entry key :=
  congrArg View.entry h.view

theorem queued {s' : MessageBoxes} (h : Apart key s s') :
    key ∈ s'.gettingDiffFor ↔ key ∈ s.gettingDiffFor := queued_of_view h.view

/-- An edit of another entry. -/
theorem setEntry (hs : s.Sorted) {e : LiveEntry} (hne : key ≠ e.key) : Apart key s (s.setEntry e) :=
  ⟨by rw [setEntry_view hs, if_neg hne], setEntry_inFlight s e⟩

theorem clearGap (hs : s.Sorted) {key' : Key} (hne : key ≠ key') :
    Apart key s (s.clearGap key').2 := by
  refine ⟨?_, clearGap_inFlight s key'⟩
  unfold MessageBoxes.view MessageBoxes.clearGap
  rw [entry_updateEntry (f := fun e => { e with possibleGap := none }) hs key' (fun _ => rfl),
    if_neg hne, updateEntry_gettingDiffFor]

theorem popEntry (hs : s.Sorted) {key' : Key} (hne : key ≠ key') :
    Apart key s (s.popEntry key').2 := by
  refine ⟨?_, popEntry_inFlight s key'⟩
  unfold MessageBoxes.view
  rw [entry_popEntry hs, if_neg hne, popEntry_gettingDiffFor]

theorem setPts (hs : s.Sorted) (now : Instant) {key' : Key} (hne : key ≠ key') (pts : Int32) :
    Apart key s (s.setPts now key' pts) := by
  refine ⟨?_, setPts_inFlight s now key' pts⟩
  unfold MessageBoxes.view
  rw [entry_setPts hs, if_neg hne, setPts_gettingDiffFor hs.ordered]

theorem resetDeadline (hs : s.Sorted) {key' : Key} (hne : key ≠ key') (deadline : Instant) :
    Apart key s (s.resetDeadline key' deadline) :=
  ⟨by rw [resetDeadline_view hs, if_neg hne], resetDeadline_inFlight s key' deadline⟩

theorem endGetDiff (hs : s.Sorted) (now : Instant) {key' : Key} (hne : key ≠ key') :
    Apart key s (s.endGetDiff now key') := by
  refine ⟨?_, endGetDiff_inFlight s now key'⟩
  have hmem : (s.gettingDiffFor.erase key').contains key = s.gettingDiffFor.contains key := by
    rw [Bool.eq_iff_iff, List.contains_iff_mem, List.contains_iff_mem]
    exact List.mem_erase_of_ne hne
  unfold MessageBoxes.view
  rw [entry_endGetDiff hs, if_neg (fun h => hne h.1), endGetDiff_gettingDiffFor, hmem]

end Apart

section Account
variable (h : RepInv s) (id : Int) (now : Instant)
include h

/-- `set_state` is about the account. -/
theorem stateSet_apart (state : State) : Apart (.channel id) s (stateSet s now state) := by
  have h₁ : Apart (.channel id) s
      (s.setEntry (freshEntry .common state.pts (nextUpdatesDeadline now))) :=
    .setEntry h.sorted (by simp [freshEntry])
  have h₂ : Apart (.channel id) _ ((s.setEntry (freshEntry .common state.pts
      (nextUpdatesDeadline now))).setEntry (freshEntry .secondary state.qts
        (nextUpdatesDeadline now))) :=
    .setEntry (setEntry_sorted h.sorted _) (by simp [freshEntry])
  exact (h₁.trans h₂).trans ⟨rfl, rfl⟩

/-- The counters of the account are set. -/
theorem accountPts_apart (pts qts : Int32) :
    Apart (.channel id) s ((s.setPts now .common pts).setPts now .secondary qts) :=
  Apart.trans (.setPts h.sorted now (by simp) pts)
    (.setPts (h.setPts now .common pts).sorted now (by simp) qts)

theorem forceResetCommonPts_apart (pts qts date seq : Int32) :
    Apart (.channel id) s (s.forceResetCommonPts now pts qts date seq) :=
  (accountPts_apart h id now pts qts).trans ⟨rfl, rfl⟩

theorem differenceBase_apart (d : DifferenceBody) :
    Apart (.channel id) s (differenceBase s now d) := by
  have hs : RepInv { s with date := d.state.date, seq := d.state.seq } := h.congr rfl rfl
  have hpts := accountPts_apart hs id now d.state.pts d.state.qts
  exact ⟨hpts.view, hpts.inFlight⟩

/-- Both account keys leave the queue. -/
theorem finished_apart :
    Apart (.channel id) s ((s.endGetDiff now .common).endGetDiff now .secondary) :=
  Apart.trans (.endGetDiff h.sorted now (by simp))
    (.endGetDiff (h.endGetDiff now .common).sorted now (by simp))

theorem abortDifference_apart (dbg : Bool) :
    Apart (.channel id) s ((abortDifference dbg now).run s).2 := by
  have clear : ∀ {s : MessageBoxes} (key : Key), RepInv s → RepInv (s.clearGap key).2 :=
    fun key h => h.updateEntry key (fun _ => rfl) (fun _ _ => rfl)
  have h₁ := clear .common h
  have h₂ := h₁.endGetDiff now .common
  have h₃ := clear .secondary h₂
  have hrun : ((abortDifference dbg now).run s).2 =
      (((s.clearGap .common).2.endGetDiff now .common).clearGap .secondary).2.endGetDiff now
        .secondary := by
    simp only [abortDifference, Call.bind_run, Call.edit_run, tryEndGetDiff_run dbg now h₁,
      tryEndGetDiff_run dbg now h₃]
  rw [hrun]
  have hcommon : Apart (.channel id) s ((s.clearGap .common).2.endGetDiff now .common) :=
    Apart.trans (.clearGap h.sorted (by simp)) (.endGetDiff h₁.sorted now (by simp))
  exact hcommon.trans (Apart.trans (.clearGap h₂.sorted (by simp))
    (.endGetDiff h₃.sorted now (by simp)))

end Account

/-- The body of an account difference that is applied. -/
def appliedBody (s : MessageBoxes) : Difference → Option DifferenceBody
  | .difference d | .slice d =>
    if .common ∈ s.gettingDiffFor ∨ .secondary ∈ s.gettingDiffFor then some d else none
  | _ => none

/-- An account difference, seen by a channel, is at most the loop over its other
updates. -/
theorem applyDifference_channel (dbg : Bool) (now : Instant) (h : RepInv s)
    (id : Int) (diff : Difference) :
    Apart (.channel id) (((appliedBody s diff).map (differenceFed s now)).getD s)
      ((applyDifference dbg now diff).run s).2 := by
  by_cases hq : .common ∈ s.gettingDiffFor ∨ .secondary ∈ s.gettingDiffFor
  · -- a slice goes on, a full difference is finished
    have hbody : ∀ full d, Apart (.channel id) (differenceFed s now d)
        ((applyDifference dbg now (differenceOf full d)).run s).2 := by
      intro full d
      rw [applyDifference_run dbg now h hq]
      cases full with
      | false => exact Apart.refl _ _
      | true => exact finished_apart ((differenceFed_moves s now d).repInv h) id now
    have hpending :
        (s.gettingDiffFor.contains .common || s.gettingDiffFor.contains .secondary) = true := by
      simpa using hq
    cases diff with
    | difference d =>
      simp only [appliedBody, if_pos hq]
      exact hbody true d
    | slice d =>
      simp only [appliedBody, if_pos hq]
      exact hbody false d
    | empty date seq =>
      have h' : RepInv { s with date := date, seq := seq } := h.congr rfl rfl
      simp only [applyDifference, Call.bind_run, Call.read_run, hpending, Bool.not_true,
        Bool.false_eq_true, if_false, Call.edit_run, finishDifference_run dbg now h']
      exact ⟨(finished_apart h' id now).view, (finished_apart h' id now).inFlight⟩
    | tooLong pts =>
      have h' := h.setPts now .common pts
      simp only [applyDifference, Call.bind_run, Call.read_run, hpending, Bool.not_true,
        Bool.false_eq_true, if_false, Call.edit_run, finishDifference_run dbg now h']
      exact Apart.trans (.setPts h.sorted now (by simp) pts) (finished_apart h' id now)
  · have hpending :
        (s.gettingDiffFor.contains .common || s.gettingDiffFor.contains .secondary) = false := by
      simpa using hq
    have hnone : appliedBody s diff = none := by
      cases diff <;> simp [appliedBody, hq]
    rw [hnone]
    simp only [applyDifference, Call.bind_run, Call.read_run, hpending, Bool.not_false, if_true,
      Call.pure_run]
    exact Apart.refl _ _

/-- `check_deadlines` may queue a channel and drop what it has buffered. -/
theorem checkDeadlines_channel (h : RepInv s) (now : Instant) (id : Int) :
    ((s.checkDeadlines now).2.entry (.channel id)).map LiveEntry.pts =
      (s.entry (.channel id)).map LiveEntry.pts ∧
    (.channel id ∈ s.gettingDiffFor → .channel id ∈ (s.checkDeadlines now).2.gettingDiffFor) := by
  rw [checkDeadlines_snd]
  split
  · next hc =>
    split
    · exact ⟨rfl, fun hq => hq⟩
    · have hs : Sorted { s with gettingDiffFor := s.dueKeys now } := h.sorted
      refine ⟨?_, fun hq => ?_⟩
      · rw [entry_clearGaps _ _ hs]
        change (if _ then Option.map _ (s.entry (.channel id)) else s.entry (.channel id)).map _ = _
        split
        · rw [Option.map_map]
          rfl
        · rfl
      · rw [hc.1] at hq
        cases hq
  · exact ⟨rfl, fun hq => hq⟩

/-! The difference of a channel. -/

/-- The request for a channel at a counter. -/
def channelRequest (id : Int) (pts : Int32) : GetChannelDifference :=
  { force := false, channelId := id, accessHash := 0, filter := .empty, pts := pts, limit := 0 }

theorem getChannelDifference_none (hn : s.nextChannel = none) :
    MessageBoxes.getChannelDifference.run s = (.ok none, s) := by
  simp [MessageBoxes.getChannelDifference, hn]

/-- The request starts at the counter of the channel, and the channel is marked. -/
theorem getChannelDifference_some (h : RepInv s) {id : Int}
    (hn : s.nextChannel = some id) :
    ∃ e, s.entry (.channel id) = some e ∧ MessageBoxes.getChannelDifference.run s =
      (.ok (some (id, channelRequest id e.pts)), { s with channelDiffInFlight := some id }) := by
  obtain ⟨e, he, -⟩ := h.backed _ (nextChannel_queued hn)
  refine ⟨e, he, ?_⟩
  simp only [MessageBoxes.getChannelDifference, Call.bind_run, Call.read_run, hn, he,
    Call.edit_run, Call.pure_run]
  rfl

/-- The box when the difference of channel `id` is given up on. -/
def channelEnded (s : MessageBoxes) (now : Instant) (id : Int) (reason : PrematureEndReason) :
    MessageBoxes :=
  let s := (channelTaken s id).endGetDiff now (.channel id)
  match reason with
  | .temporaryServerIssues => s
  | .banned => (s.popEntry (.channel id)).2

/-- No queued channel is marked, so an answer is ignored. -/
def Unmarked (s : MessageBoxes) : Prop :=
  ∀ id, s.channelDiffInFlight = some id → .channel id ∉ s.gettingDiffFor

/-- An answer goes to a queued channel if that is what the marker names. -/
theorem marked_or_unmarked (s : MessageBoxes) :
    Unmarked s ∨ ∃ id, s.channelDiffInFlight = some id ∧ .channel id ∈ s.gettingDiffFor := by
  cases hin : s.channelDiffInFlight with
  | none => exact Or.inl (fun id h => by rw [hin] at h; cases h)
  | some id =>
    by_cases hq : .channel id ∈ s.gettingDiffFor
    · exact Or.inr ⟨id, rfl, hq⟩
    · refine Or.inl (fun id' h => ?_)
      rw [hin] at h
      cases h
      exact hq

theorem endChannelDifference_unmarked (dbg : Bool) (now : Instant)
    (hm : Unmarked s) (reason : PrematureEndReason) :
    ((endChannelDifference dbg now reason).run s).2 = { s with channelDiffInFlight := none } := by
  simp only [endChannelDifference, Call.bind_run, Call.read_run, Call.edit_run]
  cases hin : s.channelDiffInFlight with
  | none => rfl
  | some id =>
    have hq := hm id hin
    simp [hq]

theorem applyChannelDifference_unmarked (dbg : Bool) (now : Instant)
    (hm : Unmarked s) (diff : ChannelDifference) :
    (applyChannelDifference dbg now diff).run s =
      (.ok ([], [], []), { s with channelDiffInFlight := none }) := by
  simp only [applyChannelDifference, Call.bind_run, Call.read_run, Call.edit_run]
  cases hin : s.channelDiffInFlight with
  | none => rfl
  | some id =>
    have hq := hm id hin
    simp [hq]

section Marked
variable (dbg : Bool) (now : Instant) (h : RepInv s)
  {id : Int} (hin : s.channelDiffInFlight = some id) (hq : .channel id ∈ s.gettingDiffFor)
include h hin hq

theorem endChannelDifference_run (reason : PrematureEndReason) :
    (endChannelDifference dbg now reason).run s = (.ok (), channelEnded s now id reason) := by
  have hqueued : s.gettingDiffFor.contains (.channel id) = true := by simpa using hq
  have hend := tryEndGetDiff_run dbg now (channelTaken_repInv h id) (.channel id)
  unfold channelTaken at hend
  cases reason with
  | temporaryServerIssues =>
    simp only [endChannelDifference, Call.bind_run, Call.read_run, Call.edit_run, hin, hqueued,
      Bool.not_true, Bool.false_eq_true, if_false, hend]
    rfl
  | banned =>
    simp only [endChannelDifference, Call.bind_run, Call.read_run, Call.edit_run, hin, hqueued,
      Bool.not_true, Bool.false_eq_true, if_false, hend]
    rfl

theorem endChannelDifference_marked (reason : PrematureEndReason) :
    ((endChannelDifference dbg now reason).run s).2 = channelEnded s now id reason := by
  rw [endChannelDifference_run dbg now h hin hq]

/-- An answer that holds no counter to move to ends the difference. -/
theorem applyChannelDifference_ended {diff : ChannelDifference} {g : Gap} (hd : adaptChannelDifference diff = .error g) :
    ((applyChannelDifference dbg now diff).run s).2 =
      channelEnded (channelTaken s id) now id .temporaryServerIssues := by
  have hqueued : s.gettingDiffFor.contains (.channel id) = true := by simpa using hq
  have hmark : RepInv { channelTaken s id with channelDiffInFlight := some id } :=
    (channelTaken_repInv h id).congr rfl rfl
  have hq' : .channel id ∈
      ({ channelTaken s id with channelDiffInFlight := some id } : MessageBoxes).gettingDiffFor := by
    change _ ∈ (channelTaken s id).gettingDiffFor
    unfold channelTaken MessageBoxes.clearGap
    rw [updateEntry_gettingDiffFor]
    exact hq
  have hend := endChannelDifference_marked dbg now hmark rfl hq' .temporaryServerIssues
  unfold channelTaken at hend
  simp only [applyChannelDifference, Call.bind_run, Call.read_run, Call.edit_run, hin, hqueued,
    Bool.not_true, Bool.false_eq_true, if_false, hd]
  rcases hr : (MessageBoxes.endChannelDifference dbg now .temporaryServerIssues).run _ with ⟨x, s'⟩
  rw [hr] at hend
  cases x <;> exact hend

/-- An answer with a counter to move to is applied, and a timeout that is not
negative becomes the deadline of the channel. -/
theorem applyChannelDifference_fed {diff : ChannelDifference} {d : ChannelDifferenceBody}
    (hd : adaptChannelDifference diff = .ok d) :
    ((applyChannelDifference dbg now diff).run s).2 = channelFed s now id d ∨
    ∃ deadline, ((applyChannelDifference dbg now diff).run s).2 =
      (channelFed s now id d).resetDeadline (.channel id) deadline := by
  have hqueued : s.gettingDiffFor.contains (.channel id) = true := by simpa using hq
  have hbody := applyChannelBody_run dbg now h id d
  unfold channelTaken at hbody
  simp only [applyChannelDifference, Call.bind_run, Call.read_run, Call.edit_run, hin, hqueued,
    Bool.not_true, Bool.false_eq_true, if_false, hd, hbody, resetTimeout]
  cases d.timeout with
  | none => exact Or.inr ⟨_, rfl⟩
  | some t =>
    by_cases ht : t < 0
    · left
      simp only [if_pos ht, Call.fail_run]
    · simp only [if_neg ht, Call.edit_run, Call.pure_run]
      exact Or.inr ⟨_, rfl⟩

end Marked

/-! What another channel sees of it: at most its own updates in the answer. -/

section Other
variable (h : RepInv s) {id : Int} {key : Key} (hne : key ≠ .channel id)
include h hne

theorem channelTaken_other : (channelTaken s id).view key [] = s.view key [] := by
  have hs : Sorted { s with channelDiffInFlight := none } := h.sorted
  exact (Apart.clearGap hs hne).view

theorem channelEnded_other (now : Instant) (reason : PrematureEndReason) :
    (channelEnded s now id reason).view key [] = s.view key [] := by
  have htaken := channelTaken_repInv h id
  have hend := Apart.endGetDiff htaken.sorted now hne
  unfold channelEnded
  cases reason with
  | temporaryServerIssues => exact hend.view.trans (channelTaken_other h hne)
  | banned =>
    have hpop := Apart.popEntry (htaken.endGetDiff now (.channel id)).sorted hne
    exact (hpop.view.trans hend.view).trans (channelTaken_other h hne)

theorem channelBase_other (now : Instant) (d : ChannelDifferenceBody) :
    (channelBase s now id d).view key [] = s.view key [] := by
  have htaken := channelTaken_repInv h id
  have hend := Apart.endGetDiff htaken.sorted now hne
  unfold channelBase
  dsimp only
  split
  · have hpts := Apart.setPts (htaken.endGetDiff now (.channel id)).sorted now hne d.pts
    exact (hpts.view.trans hend.view).trans (channelTaken_other h hne)
  · exact (Apart.setPts htaken.sorted now hne d.pts).view.trans (channelTaken_other h hne)

end Other

/-! Whole operations. -/

theorem step_sound (dbg : Bool) (h : Sound s) (i : Instant × Op) :
    Sound (step dbg s i) where
  rep := step_repInv dbg i h.rep
  keyed := (step_allEntries keyed_entryInv dbg i ⟨h.rep.sorted.ordered, h.keyed⟩).2

theorem start_sound {start : Start} (h : start.DistinctChannels) : Sound start.box := by
  have hreach : Reachable true start.box := ⟨start, [], h, trivial, rfl⟩
  exact hreach.sound

/-- A queued key stays queued through a batch. -/
theorem View.update_stays {key : Key} {now deadline : Instant} {v : View} (hq : v.queued = true)
    (u : Update) : (v.update key now deadline u).queued = true := by
  unfold View.update
  split
  · simp [View.tooLong, View.tryBegin, hq]
  · split
    · exact hq
    · rw [View.pts_queued]
      exact hq

theorem View.run_stays {key : Key} {now : Instant} (us : List Update) : ∀ {v : View},
    v.queued = true → (v.run key now us).queued = true := by
  induction us with
  | nil => exact fun hq => hq
  | cons u us ih => exact fun hq => ih (View.update_stays hq u)

theorem processUpdates_stays (h : Sound s) (now : Instant) (b : UpdatesLike)
    {id : Int} (hq : .channel id ∈ s.gettingDiffFor) :
    .channel id ∈ (s.processUpdates now b).2.gettingDiffFor := by
  have hloop := congrArg View.queued (processUpdates_looped h now b id).1
  have hrun := congrArg View.queued (processAll_view h now (looped s b) (.channel id))
  have hqv : (s.view (.channel id) []).queued = true := by simpa [MessageBoxes.view] using hq
  rw [View.run_stays _ hqv] at hrun
  rw [← List.contains_iff_mem]
  exact hloop.trans hrun

/-- The operations the workers of the channel differences call. -/
def Op.ofWorker : Op → Bool
  | .getChannelDifference | .applyChannelDifference _ | .endChannelDifference _ => true
  | _ => false

/-- Any other operation leaves the marker alone and takes no channel off the queue. -/
theorem step_keeps_queue (dbg : Bool) (h : Sound s) (now : Instant) {op : Op}
    (hop : op.ofWorker = false) :
    (step dbg s (now, op)).channelDiffInFlight = s.channelDiffInFlight ∧
    ∀ id, .channel id ∈ s.gettingDiffFor → .channel id ∈ (step dbg s (now, op)).gettingDiffFor := by
  have apart : ∀ {s'}, (∀ id, Apart (.channel id) s s') →
      s'.channelDiffInFlight = s.channelDiffInFlight ∧
      ∀ id, .channel id ∈ s.gettingDiffFor → .channel id ∈ s'.gettingDiffFor :=
    fun hs => ⟨(hs 0).inFlight, fun id hq => (hs id).queued.mpr hq⟩
  cases op with
  | processUpdates b =>
    exact ⟨(processUpdates_looped h now b 0).2, fun id hq => processUpdates_stays h now b hq⟩
  | setState state =>
    simp only [step, Op.call, setState, Call.bind_run, Call.read_run]
    split
    · exact ⟨rfl, fun _ hq => hq⟩
    · exact apart (fun id => stateSet_apart h.rep id now state)
  | trySetChannelState id pts =>
    simp only [step, Op.call, Call.edit_run, trySetChannelState]
    split
    · exact ⟨rfl, fun _ hq => hq⟩
    · exact ⟨setEntry_inFlight _ _, fun _ hq => by rwa [setEntry_gettingDiffFor]⟩
  | checkDeadlines =>
    exact ⟨checkDeadlines_inFlight s now, fun id hq => (checkDeadlines_channel h.rep now id).2 hq⟩
  | getChannelDifference => cases hop
  | applyDifference d =>
    simp only [step, Op.call, Call.discard_snd]
    -- the account difference feeds its updates to the channels they are of
    have hfed : ∀ d, (differenceFed s now d).channelDiffInFlight = s.channelDiffInFlight ∧
        ∀ id, .channel id ∈ s.gettingDiffFor → .channel id ∈ (differenceFed s now d).gettingDiffFor := by
      intro d
      have hbase := (differenceBase_moves s now d).sound h
      refine ⟨?_, fun id hq => ?_⟩
      · exact (processUpdates_looped hbase now _ 0).2.trans
          (differenceBase_apart h.rep 0 now d).inFlight
      · exact processUpdates_stays hbase now _ ((differenceBase_apart h.rep id now d).queued.mpr hq)
    have happ := fun id => applyDifference_channel dbg now h.rep id d
    cases hbody : appliedBody s d with
    | none =>
      rw [hbody] at happ
      exact apart happ
    | some d' =>
      rw [hbody] at happ
      refine ⟨(happ 0).inFlight.trans (hfed d').1, fun id hq => ?_⟩
      exact (happ id).queued.mpr ((hfed d').2 id hq)
  | applyChannelDifference d => cases hop
  | endChannelDifference reason => cases hop
  | abortDifference =>
    exact apart (fun id => abortDifference_apart h.rep id now dbg)
  | forceResetCommonPts pts qts date seq =>
    exact apart (fun id => forceResetCommonPts_apart h.rep id now pts qts date seq)

/-- Once an answer is handled, nothing is in flight. -/
theorem channelEnded_inFlight (s : MessageBoxes) (now : Instant) (id : Int)
    (reason : PrematureEndReason) : (channelEnded s now id reason).channelDiffInFlight = none := by
  unfold channelEnded channelTaken
  cases reason <;> simp

theorem channelBase_inFlight (s : MessageBoxes) (now : Instant) (id : Int)
    (d : ChannelDifferenceBody) : (channelBase s now id d).channelDiffInFlight = none := by
  unfold channelBase channelTaken
  dsimp only
  split <;> simp

theorem endChannelDifference_inFlight (dbg : Bool) (now : Instant) (h : RepInv s)
    (reason : PrematureEndReason) :
    ((endChannelDifference dbg now reason).run s).2.channelDiffInFlight = none := by
  rcases marked_or_unmarked s with hm | ⟨id, hin, hq⟩
  · rw [endChannelDifference_unmarked dbg now hm]
  · rw [endChannelDifference_marked dbg now h hin hq]
    exact channelEnded_inFlight s now id reason

theorem channelFed_inFlight (h : Sound s) (now : Instant) (id : Int)
    (d : ChannelDifferenceBody) : (channelFed s now id d).channelDiffInFlight = none := by
  have hbase := (channelBase_moves s now id d).sound h
  exact (processUpdates_looped hbase now _ id).2.trans (channelBase_inFlight s now id d)

theorem applyChannelDifference_inFlight (dbg : Bool) (now : Instant)
    (h : Sound s) (diff : ChannelDifference) :
    ((applyChannelDifference dbg now diff).run s).2.channelDiffInFlight = none := by
  rcases marked_or_unmarked s with hm | ⟨id, hin, hq⟩
  · rw [applyChannelDifference_unmarked dbg now hm]
  · cases hd : adaptChannelDifference diff with
    | error g =>
      rw [applyChannelDifference_ended dbg now h.rep hin hq hd]
      exact channelEnded_inFlight _ now id _
    | ok d =>
      have hfed := channelFed_inFlight h now id d
      rcases applyChannelDifference_fed dbg now h.rep hin hq hd with heq | ⟨deadline, heq⟩
      · rw [heq]
        exact hfed
      · rw [heq, resetDeadline_inFlight]
        exact hfed

end Ferogram.Msgbox
