import Ferogram.Msgbox.AtMostOnce
import Ferogram.Msgbox.Channels

/- Exactly-once delivery of the updates of the account, over runs of all the public
   operations, called by any number of tasks: `dispatch_updates` with what the server
   pushes, `run_pending_differences` with what comes of its requests (an answer, an
   error, an answer that cannot be read), the workers of the channels, the deadlines.

   A `Delivery` is the box with everything its callers have been handed. Some operations
   move the counter of the account over updates that they do not have: an answer that the
   difference is too long, and `force_sync_pts_state`. What they move over is `skipped`.
   A batch that is pushed while the account is queued goes to the caller at once, and leaves
   the counter alone: what it hands over is `early`.

   The server keeps a log in which no two updates with a count overlap, and its answers
   begin where the counter is. An answer with updates comes while the account itself is
   queued. Then between the first counter and the last each update is handed over once
   unless it was skipped, and no other one is, besides the early ones (`delivered_exactly`). -/
namespace Ferogram.Msgbox
open Ferogram.Tl MessageBoxes StableSort

/-! What an operation hands over and what it moves over. -/

/-- What the caller of an operation is handed. -/
def handedBy (dbg : Bool) (s : MessageBoxes) (i : Instant × Op) : List Update :=
  match i.2 with
  | .processUpdates updates => approved (s.processUpdates i.1 updates).1
  | .applyDifference d => handed ((MessageBoxes.applyDifference dbg i.1 d).run s).1
  | .applyChannelDifference d => handed ((MessageBoxes.applyChannelDifference dbg i.1 d).run s).1
  | _ => []

/-- The operation may move the counter of the account over updates that it does not have. -/
def Op.skips : Op → Bool
  | .applyDifference (.tooLong _) | .forceResetCommonPts .. => true
  | _ => false

/-- The operation hands over what the difference for which the account is queued brings as well. -/
def Op.early (s : MessageBoxes) : Op → Bool
  | .processUpdates _ => decide (.common ∈ s.gettingDiffFor)
  | _ => false

/-- From the counter of one box to that of another. -/
def span (s s' : MessageBoxes) : List (Int32 × Int32) :=
  match counter s, counter s' with
  | some p, some q => [(p, q)]
  | _, _ => []

structure Delivery where
  box : MessageBoxes
  delivered : List Update
  early : List Update
  skipped : List (Int32 × Int32)

def deliver (dbg : Bool) (x : Delivery) (i : Instant × Op) : Delivery where
  box := step dbg x.box i
  delivered := x.delivered ++ handedBy dbg x.box i
  early := if i.2.early x.box then x.early ++ handedBy dbg x.box i else x.early
  skipped := if i.2.skips then x.skipped ++ span x.box (step dbg x.box i) else x.skipped

/-- The update leads from a counter at or after `p` to one up to `q`. -/
def Over (p q : Int32) (u : PtsUpdate) : Prop := p.toInt < u.info.pts.toInt ∧ u.info.pts.toInt ≤ q.toInt

instance (p q : Int32) (u : PtsUpdate) : Decidable (Over p q u) := inferInstanceAs (Decidable (_ ∧ _))

def Delivery.Skipped (x : Delivery) (u : PtsUpdate) : Prop := ∃ j ∈ x.skipped, Over j.1 j.2 u

instance (x : Delivery) (u : PtsUpdate) : Decidable (x.Skipped u) :=
  inferInstanceAs (Decidable (∃ j ∈ x.skipped, Over j.1 j.2 u))

/-! The server. -/

/-- The updates of a channel difference that go through the live path. -/
def channelContents (d : ChannelDifference) : List Update :=
  match adaptChannelDifference d with
  | .ok body => body.otherUpdates
  | .error _ => []

namespace Log

/-- No two updates with a count lead over one counter. -/
def Disjoint (log : Log) : Prop :=
  ∀ u ∈ log.updates, ∀ v ∈ log.updates, 0 < u.info.count.toInt → 0 < v.info.count.toInt →
    u = v ∨ u.info.pts.toInt ≤ v.info.pts.toInt - v.info.count.toInt ∨
      v.info.pts.toInt ≤ u.info.pts.toInt - u.info.count.toInt

/-- No update of the account and no copy of one is among these. -/
def Spares (log : Log) (us : List Update) : Prop :=
  ∀ x ∈ us, belongsTo .common x = false ∧ ∀ u ∈ log.updates, bare x ≠ bare u.update

instance (log : Log) : Decidable log.Disjoint :=
  inferInstanceAs (Decidable (∀ u ∈ log.updates, ∀ v ∈ log.updates, _ → _ → _ ∨ _ ∨ _))

instance (log : Log) (us : List Update) : Decidable (log.Spares us) :=
  inferInstanceAs (Decidable (∀ x ∈ us, _ ∧ ∀ u ∈ log.updates, _))

end Log

/-- A difference that brings updates. -/
def bringsUpdates : Difference → Bool
  | .difference _ | .slice _ => true
  | _ => false

/-- The server does its part, and so do the callers: `set_state` is for an empty box. -/
def Log.Keeps (log : Log) (s : MessageBoxes) (i : Instant × Op) : Prop :=
  match i.2 with
  | .processUpdates updates => log.Supplies updates.contents
  | .setState _ => s.isEmpty = true
  | .applyDifference d => .common ∈ s.gettingDiffFor ∨ .secondary ∈ s.gettingDiffFor →
      (∀ p ∈ counter s, log.Answers p d) ∧ (bringsUpdates d = true → .common ∈ s.gettingDiffFor)
  | .applyChannelDifference d => log.Spares (channelContents d)
  | .forceResetCommonPts pts _ _ _ => (∀ p ∈ counter s, p.toInt ≤ pts.toInt) ∧ log.Fits pts
  | _ => True

instance (log : Log) (s : MessageBoxes) (i : Instant × Op) : Decidable (log.Keeps s i) :=
  match i with
  | (_, .processUpdates updates) => inferInstanceAs (Decidable (log.Supplies updates.contents))
  | (_, .setState _) => inferInstanceAs (Decidable (s.isEmpty = true))
  | (_, .applyDifference d) =>
    let _ : Decidable (∀ p ∈ counter s, log.Answers p d) := Option.decidableForallMem (counter s)
    inferInstanceAs (Decidable (.common ∈ s.gettingDiffFor ∨ .secondary ∈ s.gettingDiffFor →
      (∀ p ∈ counter s, log.Answers p d) ∧ (bringsUpdates d = true → .common ∈ s.gettingDiffFor)))
  | (_, .applyChannelDifference d) => inferInstanceAs (Decidable (log.Spares (channelContents d)))
  | (_, .forceResetCommonPts pts _ _ _) =>
    let _ : Decidable (∀ p ∈ counter s, p.toInt ≤ pts.toInt) := Option.decidableForallMem (counter s)
    inferInstanceAs (Decidable ((∀ p ∈ counter s, p.toInt ≤ pts.toInt) ∧ log.Fits pts))
  | (_, .trySetChannelState ..) | (_, .checkDeadlines) | (_, .getChannelDifference)
  | (_, .endChannelDifference _) | (_, .abortDifference) => isTrue trivial

/-! One step. -/

/-- From the counter `p` the step hands over each update that the counter is moved over, or none
where it skips them, and no other. -/
structure Covers (log : Log) (p : Int32) (s' : MessageBoxes) (out : List Update) (given : Bool) : Prop where
  ready : Ready log s'
  reaches : ∃ q, counter s' = some q ∧ p.toInt ≤ q.toInt ∧ ∀ u ∈ log.updates, 0 < u.info.count.toInt →
    timesReturned out u.update = if given = true ∧ Over p q u then 1 else 0

section
variable {log : Log} {s s' : MessageBoxes} {out : List Update} {p q : Int32}

theorem Covers.of_advances (h : Advances log s s' out) (hp : counter s = some p)
    (hall : ∀ q, counter s' = some q → ∀ u ∈ log.updates, 0 < u.info.count.toInt → Over p q u →
      0 < timesReturned out u.update) : Covers log p s' out true := by
  obtain ⟨q, hq, hle⟩ := h.forwards p hp
  refine ⟨h.ready, q, hq, hle, fun u hu hpos => ?_⟩
  by_cases hover : Over p q u
  · have hone := h.once u hu hpos
    have hsome := hall q hq u hu hpos hover
    rw [if_pos ⟨rfl, hover⟩]
    omega
  · rw [if_neg fun hc => hover hc.2]
    apply Nat.eq_zero_of_not_pos
    intro hret
    obtain ⟨hahead, q', hq', hbehind⟩ := h.passes u hu hpos hret
    obtain rfl : q = q' := Option.some.inj (hq.symm.trans hq')
    exact hover ⟨hahead p hp, hbehind⟩

theorem not_over_self (p : Int32) (u : PtsUpdate) : ¬ Over p p u := fun h => by
  have hlt := h.1
  have hle := h.2
  omega

/-- A step that leaves the counter where it is. -/
theorem Covers.still (h : Advances log s s' out) (hp : counter s = some p) (hsame : counter s' = counter s) :
    Covers log p s' out true := by
  apply Covers.of_advances h hp
  intro q hq u _ _ hover
  obtain rfl : p = q := Option.some.inj (hp.symm.trans (hsame.symm.trans hq))
  exact absurd hover (not_over_self p u)

/-- A step that leaves the account alone and hands over nothing of it. -/
theorem Covers.idle (h : Ready log s) (hp : counter s = some p) (hs : Sound s') (hcounter : counter s' = counter s)
    (hheld : heldFor s' .common ⊆ heldFor s .common)
    (hout : ∀ u ∈ log.updates, 0 < u.info.count.toInt → timesReturned out u.update = 0) :
    Covers log p s' out true :=
  .still (.quiet h hs hcounter (fun u hu => h.held u (hheld hu)) hout) hp hcounter

/-- A step that hands over nothing of the account and moves the counter. -/
theorem Covers.skip (h : Advances log s s' []) (hp : counter s = some p) : Covers log p s' [] false := by
  obtain ⟨q, hq, hle⟩ := h.forwards p hp
  exact ⟨h.ready, q, hq, hle, fun u _ _ => (timesReturned_nil _).trans (if_neg fun hc => Bool.false_ne_true hc.1).symm⟩

/-! What is pushed. -/

/-- A chain of updates leads over every number between its ends. -/
theorem PtsChain.over {us : List Update} {n : Int} : ∀ {p q : Int}, PtsChain p us q → p < n → n ≤ q →
    ∃ x ∈ us, ∃ info, PtsInfo.fromUpdate x = some info ∧
      info.pts.toInt - info.count.toInt < n ∧ n ≤ info.pts.toInt := by
  induction us with
  | nil =>
    intro p q h hlt hle
    have hend : q = p := h
    omega
  | cons x us ih =>
    intro p q h hlt hle
    obtain ⟨info, hinfo, hpts, hrest⟩ := h
    by_cases hn : n ≤ info.pts.toInt
    · exact ⟨x, List.mem_cons_self, info, hinfo, by omega, hn⟩
    · obtain ⟨y, hy, hfound⟩ := ih hrest (by omega) hle
      exact ⟨y, List.mem_cons_of_mem x hy, hfound⟩

/-- What a chain of the log leads over is in the chain. -/
theorem mem_chain_of_over (hdisjoint : log.Disjoint) {ps : List PtsUpdate} (hps : ∀ v ∈ ps, v ∈ log.updates)
    (hchain : PtsChain p.toInt (ps.map PtsUpdate.update) q.toInt) {u : PtsUpdate} (hu : u ∈ log.updates)
    (hpos : 0 < u.info.count.toInt) (hover : Over p q u) : u ∈ ps := by
  obtain ⟨x, hx, info, hinfo, hfrom, hto⟩ := hchain.over hover.1 hover.2
  obtain ⟨v, hv, rfl⟩ := List.mem_map.mp hx
  obtain rfl : v.info = info := Option.some.inj (v.from_update.symm.trans hinfo)
  rcases hdisjoint u hu v (hps v hv) hpos (by omega) with rfl | hbefore | hafter
  · exact hv
  · omega
  · omega

theorem Covers.nothing (h : Ready log s) (hp : counter s = some p) (given : Bool) : Covers log p s [] given :=
  ⟨h, p, hp, le_rfl, fun u _ _ => (timesReturned_nil _).trans (if_neg fun hc => not_over_self p u hc.2).symm⟩

/-- A batch that finds the account queued leaves it alone, whatever it hands over. -/
theorem early_covers (h : Ready log s) (now : Instant) {b : UpdatesLike}
    (hq : .common ∈ s.gettingDiffFor) (hp : counter s = some p) : Covers log p (s.processUpdates now b).2 [] true := by
  have hsound : Sound (s.processUpdates now b).2 := (processUpdates_moves s b).sound h.sound
  have hnone : ∀ u ∈ log.updates, 0 < u.info.count.toInt → timesReturned [] u.update = 0 :=
    fun u _ _ => timesReturned_nil _
  rcases processUpdates_cases s now b with ⟨-, heq⟩ | ⟨-, users, chats, heq⟩ | ⟨c, hb, heq⟩
  · rw [heq] at hsound ⊢
    obtain ⟨hcounter, hheld⟩ := tryBeginGetDiff_common h.sound.rep.sorted
    exact .idle h hp hsound hcounter hheld hnone
  · rw [heq]
    exact .nothing h hp true
  · obtain ⟨us, hfeeds⟩ := processed_feeds h.sound now hb heq .common
      (fun u _ hbel => notTooLong_of_common hbel)
    obtain ⟨hcounter, hheld⟩ := processed_queued hfeeds hq
    exact .idle h hp hsound hcounter (fun u hu => hheld ▸ hu) hnone

/-- Another batch hands over what it moves the counter over. -/
theorem pushed_covers (hdisjoint : log.Disjoint) (h : Ready log s) (now : Instant) {b : UpdatesLike}
    (hsup : log.Supplies b.contents) (hq : .common ∉ s.gettingDiffFor) (hp : counter s = some p) :
    Covers log p (s.processUpdates now b).2 (approved (s.processUpdates now b).1) true := by
  have hadv := live_advances h now hsup fun hqueued => absurd hqueued hq
  rcases processUpdates_cases s now b with ⟨-, heq⟩ | ⟨-, users, chats, heq⟩ | ⟨c, hb, heq⟩
  · apply Covers.still hadv hp
    rw [heq]
    exact (tryBeginGetDiff_common h.sound.rep.sorted).1
  · apply Covers.still hadv hp
    rw [heq]
  · obtain ⟨us, hfeeds⟩ := processed_feeds h.sound now hb heq .common
      (fun u _ hbel => notTooLong_of_common hbel)
    apply Covers.of_advances hadv hp
    intro q hq' u hu hpos hover
    obtain ⟨hret, -⟩ := processed_supplies h now hb heq hsup hfeeds
    obtain ⟨ps, hout, hps, hcases⟩ := processed_chain h hsup hfeeds hq
    rw [hret.timesReturned_eq hu, List.count_pos_iff]
    apply List.mem_of_mem_filter (p := belongsTo .common)
    rw [hout]
    apply List.mem_map_of_mem
    rcases hcases with ⟨-, hsame⟩ | ⟨p', q', hq'', hchain, ⟨p'', hp', rfl⟩ | ⟨hnone, -⟩⟩
    · obtain rfl : p = q := Option.some.inj (hp.symm.trans (hsame.symm.trans hq'))
      exact absurd hover (not_over_self p u)
    · obtain rfl : q = q' := Option.some.inj (hq'.symm.trans hq'')
      obtain rfl : p = p'' := Option.some.inj (hp.symm.trans hp')
      exact mem_chain_of_over hdisjoint hps hchain hu hpos hover
    · rw [hp] at hnone
      cases hnone

/-! What is answered. -/

/-- A difference that finds the account queued hands over the updates of the log up to its state. -/
theorem between_handed (h : Ready log s) (now : Instant) {d : DifferenceBody} (hans : log.Answers p (.difference d))
    (hq : .common ∈ s.gettingDiffFor) {u : PtsUpdate} (hu : u ∈ log.updates) (hover : Over p d.state.pts u) :
    0 < timesReturned (d.newMessages.map wrapNewMessage ++ d.newEncryptedMessages.map wrapNewEncryptedMessage ++
      refed (differenceBase s now d) now d.otherUpdates) u.update := by
  obtain ⟨-, hfits, hsup, hperm⟩ := hans
  have htimes := (differenceFed_queued h now hfits hsup hq).2.2 u hu
  have hin : bare u.update ∈ log.between p d.state.pts :=
    List.mem_map.mpr ⟨u, List.mem_filter.mpr ⟨hu, decide_eq_true hover⟩, rfl⟩
  have hcount := hperm.count_eq (bare u.update)
  rw [bareUpdates, List.count_append] at hcount
  rw [timesReturned_append, timesReturned_append, timesReturned_encrypted hu, timesReturned_messages, htimes,
    Nat.add_zero, hcount]
  exact List.count_pos_iff.mpr hin

theorem counter_finished {s : MessageBoxes} (h : Sound s) (now : Instant) :
    counter ((s.endGetDiff now .common).endGetDiff now .secondary) = counter s := by
  have hs := (Moves.single (.unqueue s .common) : Moves now s _).sound h
  exact (endGetDiff_common hs.rep.sorted now .secondary).1.trans (endGetDiff_common h.rep.sorted now .common).1

theorem answered_covers (dbg : Bool) (h : Ready log s) (now : Instant) {d : Difference} (hp : counter s = some p)
    (hkeeps : log.Keeps s (now, .applyDifference d)) :
    Covers log p ((applyDifference dbg now d).run s).2 (handed ((applyDifference dbg now d).run s).1)
      (!(Op.applyDifference d).skips) := by
  by_cases hq : .common ∈ s.gettingDiffFor ∨ .secondary ∈ s.gettingDiffFor
  · obtain ⟨hans, hcommon⟩ := hkeeps hq
    have hadv := applyDifference_advances dbg h now (hans p hp) fun _ _ => hp
    have hpending : (s.gettingDiffFor.contains .common || s.gettingDiffFor.contains .secondary) = true := by
      simpa using hq
    have body : ∀ full body, d = differenceOf full body → log.Answers p (.difference body) →
        .common ∈ s.gettingDiffFor → Covers log p ((applyDifference dbg now d).run s).2
          (handed ((applyDifference dbg now d).run s).1) true := by
      rintro full body rfl hanswers hqueued
      have hrun := applyDifference_run dbg now h.sound.rep hq full body
      apply Covers.of_advances hadv hp
      intro q hq' u hu _ hover
      rw [hrun] at hq' ⊢
      have hfed : counter (differenceFed s now body) = some body.state.pts :=
        (differenceFed_queued h now hanswers.2.1 hanswers.2.2.1 hqueued).2.1
      have hend : some body.state.pts = some q := by
        cases full with
        | true =>
          have hfinished := counter_finished ((differenceFed_moves s now body).sound h.sound) now
          exact hfed.symm.trans (hfinished.symm.trans hq')
        | false => exact hfed.symm.trans hq'
      obtain rfl := Option.some.inj hend
      exact between_handed h now hanswers hqueued hu hover
    cases d with
    | empty date seq =>
      apply Covers.still hadv hp
      have hmove : Move now s { s with date := date, seq := seq } := .bookkeeping rfl rfl rfl
      have hs := (Moves.single hmove).sound h.sound
      simp only [applyDifference, Call.bind_run, Call.read_run, hpending, Bool.not_true, Bool.false_eq_true, if_false,
        Call.edit_run, finishDifference_run dbg now hs.rep]
      exact counter_finished hs now
    | difference d => exact body true d rfl (hans p hp) (hcommon rfl)
    | slice d => exact body false d rfl (hans p hp) (hcommon rfl)
    | tooLong pts =>
      have hout : handed ((applyDifference dbg now (.tooLong pts)).run s).1 = [] := by
        have hs := (Moves.single (.setPts s .common pts) : Moves now s _).sound h.sound
        simp only [applyDifference, Call.bind_run, Call.read_run, hpending, Bool.not_true, Bool.false_eq_true, if_false,
          Call.edit_run, finishDifference_run dbg now hs.rep]
        rfl
      rw [hout] at hadv ⊢
      exact .skip hadv hp
  · have hnone : (s.gettingDiffFor.contains .common || s.gettingDiffFor.contains .secondary) = false := by
      simpa using hq
    simp only [applyDifference, Call.bind_run, Call.read_run, hnone, Bool.not_false, if_true, Call.pure_run]
    exact .nothing h hp _

/-! What is about something else. -/

theorem counter_of_view (h : s'.view .common [] = s.view .common []) : counter s' = counter s :=
  congrArg (Option.map LiveEntry.pts) (congrArg View.entry h)

theorem heldFor_of_view (h : s'.view .common [] = s.view .common []) : heldFor s' .common = heldFor s .common := by
  have hentry : s'.entry .common = s.entry .common := congrArg View.entry h
  rw [heldFor, heldFor, hentry]

/-- A step that the account does not see. -/
theorem Covers.unseen (h : Ready log s) (hp : counter s = some p) (hs : Sound s')
    (hview : s'.view .common [] = s.view .common [])
    (hout : ∀ u ∈ log.updates, timesReturned out u.update = 0) : Covers log p s' out true :=
  .idle h hp hs (counter_of_view hview) (fun _ hu => heldFor_of_view hview ▸ hu) fun u hu _ => hout u hu

theorem clearGap_common (hs : s.Sorted) (key : Key) :
    counter (s.clearGap key).2 = counter s ∧ heldFor (s.clearGap key).2 .common ⊆ heldFor s .common := by
  have hentry : (s.clearGap key).2.entry .common = _ :=
    entry_updateEntry (f := fun e => { e with possibleGap := none }) hs key (fun _ => rfl) .common
  rw [counter, counter, heldFor, heldFor, hentry]
  split
  · next hkey =>
    subst hkey
    cases s.entry .common with
    | none => exact ⟨rfl, fun _ h => h⟩
    | some e => exact ⟨rfl, List.nil_subset _⟩
  · exact ⟨rfl, fun _ h => h⟩

/-- Giving up leaves the counter. -/
theorem aborted_covers (dbg : Bool) (h : Ready log s) (now : Instant) (hp : counter s = some p) :
    Covers log p (step dbg s (now, .abortDifference)) [] true := by
  have h₁ : RepInv (s.clearGap .common).2 := (Moves.single (.clearGap s .common) : Moves now s _).repInv h.sound.rep
  have h₂ := h₁.endGetDiff now .common
  have h₃ : RepInv (((s.clearGap .common).2.endGetDiff now .common).clearGap .secondary).2 :=
    (Moves.single (.clearGap _ .secondary) : Moves now _ _).repInv h₂
  have hrun : step dbg s (now, .abortDifference) =
      (((s.clearGap .common).2.endGetDiff now .common).clearGap .secondary).2.endGetDiff now .secondary := by
    simp only [step, Op.call, abortDifference, Call.bind_run, Call.edit_run, tryEndGetDiff_run dbg now h₁,
      tryEndGetDiff_run dbg now h₃]
  obtain ⟨hc₁, hh₁⟩ := clearGap_common h.sound.rep.sorted .common
  obtain ⟨hc₂, hh₂⟩ := endGetDiff_common h₁.sorted now .common
  obtain ⟨hc₃, hh₃⟩ := clearGap_common h₂.sorted .secondary
  obtain ⟨hc₄, hh₄⟩ := endGetDiff_common h₃.sorted now .secondary
  apply Covers.idle h hp (step_sound dbg h.sound _)
  · rw [hrun, hc₄, hc₃, hc₂, hc₁]
  · rw [hrun, hh₄]
    exact fun u hu => hh₁ (hh₂ ▸ hh₃ hu)
  · exact fun u _ _ => timesReturned_nil _

/-- `force_sync_pts_state` moves the counter to the server's. -/
theorem forced_covers (dbg : Bool) (h : Ready log s) (now : Instant) (hp : counter s = some p)
    {pts qts date seq : Int32} (hle : p.toInt ≤ pts.toInt) (hfits : log.Fits pts) :
    Covers log p (step dbg s (now, .forceResetCommonPts pts qts date seq)) [] false := by
  have hset := setPts_advances h now hp hle hfits
  have hother : ((s.setPts now .common pts).setPts now .secondary qts).view .common [] =
      (s.setPts now .common pts).view .common [] := (Apart.setPts hset.ready.sound.rep.sorted now (by decide) qts).view
  exact .skip (hset.then_same (step_sound dbg h.sound _) (counter_of_view hother) (heldFor_of_view hother)) hp

theorem Log.Spares.supplies {us : List Update} (h : log.Spares us) : log.Supplies us where
  common x hx hbel := absurd ((h x hx).1.symm.trans hbel) Bool.false_ne_true
  plain x hx _ := (h x hx).2

/-- Re-fed updates of others do nothing to the account. -/
theorem spared_unseen (h : Ready log s) (now : Instant) {us : List Update} (users : List User) (chats : List Chat)
    (hspares : log.Spares us) :
    (s.processUpdates now (refeed us users chats)).2.view .common [] = s.view .common [] ∧
      ∀ u ∈ log.updates, timesReturned (refed s now us) u.update = 0 := by
  obtain ⟨fed, hfeeds, hret, -⟩ := refeed_feeds h now users chats hspares.supplies
  -- no update of the batch belongs to the account, so none is fed to it
  have hnone : fed = [] := by
    apply List.eq_nil_iff_forall_not_mem.mpr
    intro u hu
    obtain ⟨hkey, hmem⟩ := hfeeds.own u hu
    have hbel : belongsTo .common u.update = true := by simp [belongsTo_ptsUpdate, hkey]
    exact absurd ((hspares u.update hmem).1.symm.trans hbel) Bool.false_ne_true
  have hview := hfeeds.view
  rw [hnone] at hview
  have hentry := congrArg View.entry hview
  have hqueued := congrArg View.queued hview
  have hout : (approved (s.processUpdates now (refeed us users chats)).1).filter (belongsTo .common) = [] :=
    congrArg View.out hview
  rw [approved_refeed] at hout
  refine ⟨congrArg₂ (fun e q => View.mk e q []) hentry hqueued, fun u hu => ?_⟩
  rw [hret.timesReturned_eq hu, ← List.count_filter (Log.belongs hu), hout]
  rfl

/-- No channel message is an update of the log. -/
theorem timesReturned_channelMessages {u : PtsUpdate} (hu : u ∈ log.updates) (ms : List Message) :
    timesReturned (ms.map wrapNewChannelMessage) u.update = 0 := by
  unfold timesReturned
  rw [List.count_eq_zero, List.map_map]
  intro hmem
  obtain ⟨m, -, hbare⟩ := List.mem_map.mp hmem
  change wrapNewChannelMessage m = bare u.update at hbare
  have hkey : updateKey u.update = some .common := by
    rw [updateKey_of_fromUpdate u.from_update, log.common u hu]
  rcases bare_cases u.update with ⟨m', pts, count, hm⟩ | hb
  · rw [hm] at hbare
    cases hbare
  · rw [hb] at hbare
    rw [← hbare] at hkey
    cases hid : messageChannelId m <;>
      simp [updateKey, PtsInfo.fromUpdate, PtsInfo.raw, wrapNewChannelMessage, hid] at hkey

/-- A channel difference that spares the account. -/
theorem channelAnswered_covers (dbg : Bool) (h : Ready log s) (now : Instant) (hp : counter s = some p)
    {diff : ChannelDifference} (hspares : log.Spares (channelContents diff)) :
    Covers log p (step dbg s (now, .applyChannelDifference diff))
      (handed ((applyChannelDifference dbg now diff).run s).1) true := by
  have hs := step_sound dbg h.sound (now, .applyChannelDifference diff)
  have hstep : step dbg s (now, .applyChannelDifference diff) = ((applyChannelDifference dbg now diff).run s).2 :=
    Call.discard_snd _ _
  rcases marked_or_unmarked s with hm | ⟨id, hin, hq⟩
  · rw [hstep] at hs ⊢
    rw [applyChannelDifference_unmarked dbg now hm diff] at hs ⊢
    exact .unseen h hp hs rfl fun u _ => timesReturned_nil _
  · have hne : Key.common ≠ .channel id := nofun
    cases hd : adaptChannelDifference diff with
    | error g =>
      have hview : (step dbg s (now, .applyChannelDifference diff)).view .common [] = s.view .common [] := by
        rw [hstep, applyChannelDifference_ended dbg now h.sound.rep hin hq hd]
        exact (channelEnded_other (channelTaken_repInv h.sound.rep id) hne now _).trans
          (channelTaken_other h.sound.rep hne)
      rw [applyChannelDifference_malformed dbg now h.sound.rep hin hq hd]
      exact .unseen h hp hs hview fun u _ => timesReturned_nil _
    | ok d =>
      have hothers : log.Spares d.otherUpdates := by simpa only [channelContents, hd] using hspares
      have hbase : (channelBase s now id d).view .common [] = s.view .common [] :=
        channelBase_other h.sound.rep hne now d
      have hready : Ready log (channelBase s now id d) :=
        (Covers.unseen h hp ((channelBase_moves s now id d).sound h.sound) hbase fun u _ => timesReturned_nil _).ready
      obtain ⟨hfed, htimes⟩ := spared_unseen hready now d.users d.chats hothers
      have hsorted : (channelFed s now id d).Sorted :=
        ((processUpdates_moves _ _).sound hready.sound).rep.sorted
      have hview : (step dbg s (now, .applyChannelDifference diff)).view .common [] = s.view .common [] := by
        rw [hstep]
        rcases applyChannelDifference_fed dbg now h.sound.rep hin hq hd with heq | ⟨deadline, heq⟩
        · rw [heq]
          exact hfed.trans hbase
        · rw [heq]
          exact ((Apart.resetDeadline hsorted hne deadline).view.trans hfed).trans hbase
      obtain ⟨hfits, hpanics⟩ := applyChannelDifference_run dbg now h.sound.rep hin hq hd
      apply Covers.unseen h hp hs hview
      intro u hu
      by_cases ht : TimeoutFits d.timeout
      · rw [hfits ht, handed, timesReturned_append, timesReturned_channelMessages hu, htimes u hu]
      · rw [hpanics ht]
        exact timesReturned_nil _

/-- Each operation hands over what it moves the counter over, unless it skips; besides it hands over
what is early. -/
theorem step_covers (dbg : Bool) (hdisjoint : log.Disjoint) (h : Ready log s) (hp : counter s = some p)
    {i : Instant × Op} (hkeeps : log.Keeps s i) :
    Covers log p (step dbg s i) (if i.2.early s then [] else handedBy dbg s i) (!i.2.skips) := by
  obtain ⟨now, op⟩ := i
  have hs := step_sound dbg h.sound (now, op)
  have unseen : (step dbg s (now, op)).view .common [] = s.view .common [] →
      Covers log p (step dbg s (now, op)) [] true :=
    fun hview => .unseen h hp hs hview fun u _ => timesReturned_nil _
  cases op with
  | processUpdates updates =>
    by_cases hq : .common ∈ s.gettingDiffFor
    · rw [Op.early, decide_eq_true hq, if_pos rfl]
      exact early_covers h now hq hp
    · rw [Op.early, decide_eq_false hq, if_neg Bool.false_ne_true]
      exact pushed_covers hdisjoint h now hkeeps hq hp
  | setState state =>
    -- a box with a counter is not empty
    have hempty : s.entries = [] := List.isEmpty_iff.mp hkeeps
    have hnone : counter s = none := by
      rw [counter, entry, hempty]
      cases s.position .common <;> rfl
    rw [hnone] at hp
    cases hp
  | trySetChannelState id pts =>
    apply unseen
    show (s.trySetChannelState now id pts).view .common [] = _
    unfold trySetChannelState
    split
    · rfl
    · exact (Apart.setEntry h.sound.rep.sorted (fun hc => Key.noConfusion hc) : Apart .common _ _).view
  | checkDeadlines =>
    obtain ⟨hcounter, hheld⟩ := checkDeadlines_common h.sound.rep.sorted now
    exact .idle h hp hs hcounter hheld fun u _ _ => timesReturned_nil _
  | getChannelDifference =>
    apply unseen
    rw [step, Op.call, Call.discard_snd]
    cases hn : s.nextChannel with
    | none => rw [getChannelDifference_none hn]
    | some id =>
      obtain ⟨e, -, heq⟩ := getChannelDifference_some h.sound.rep hn
      rw [heq]
      rfl
  | applyDifference d =>
    rw [step, Op.call, Call.discard_snd]
    exact answered_covers dbg h now hp hkeeps
  | applyChannelDifference d => exact channelAnswered_covers dbg h now hp hkeeps
  | endChannelDifference reason =>
    apply unseen
    show ((MessageBoxes.endChannelDifference dbg now reason).run s).2.view .common [] = _
    rcases marked_or_unmarked s with hm | ⟨id, hin, hq⟩
    · rw [endChannelDifference_unmarked dbg now hm]
      rfl
    · rw [endChannelDifference_marked dbg now h.sound.rep hin hq]
      exact channelEnded_other h.sound.rep (fun hc => Key.noConfusion hc : Key.common ≠ .channel id) now reason
  | abortDifference => exact aborted_covers dbg h now hp
  | forceResetCommonPts pts qts date seq => exact forced_covers dbg h now hp (hkeeps.1 p hp) hkeeps.2

/-! A run. -/

/-- Between `p₀` and the counter every update of the log has been handed over once or skipped, but for
the early ones. -/
structure Exact (log : Log) (p₀ : Int32) (x : Delivery) : Prop where
  ready : Ready log x.box
  reaches : ∃ q, counter x.box = some q ∧ p₀.toInt ≤ q.toInt ∧
    (∀ j ∈ x.skipped, p₀.toInt ≤ j.1.toInt ∧ j.2.toInt ≤ q.toInt) ∧
    ∀ u ∈ log.updates, 0 < u.info.count.toInt →
      timesReturned x.delivered u.update =
        (if Over p₀ q u ∧ ¬ x.Skipped u then 1 else 0) + timesReturned x.early u.update

theorem over_split {p₀ p q : Int32} (hp : p₀.toInt ≤ p.toInt) (hq : p.toInt ≤ q.toInt) (u : PtsUpdate) :
    Over p₀ q u ↔ Over p₀ p u ∨ Over p q u := by
  unfold Over
  omega

theorem not_over_both {p₀ p q : Int32} {u : PtsUpdate} (hbefore : Over p₀ p u) : ¬ Over p q u := fun hafter => by
  have hle := hbefore.2
  have hlt := hafter.1
  omega

/-- What a step hands over is early, or is not. -/
theorem deliver_early (dbg : Bool) (x : Delivery) (i : Instant × Op) (u : Update) :
    timesReturned (deliver dbg x i).delivered u + timesReturned x.early u =
      timesReturned x.delivered u + timesReturned (if i.2.early x.box then [] else handedBy dbg x.box i) u +
        timesReturned (deliver dbg x i).early u := by
  rw [deliver, timesReturned_append]
  cases i.2.early x.box with
  | false => simp only [Bool.false_eq_true, if_false]
  | true =>
    simp only [if_true, timesReturned_append, timesReturned_nil]
    omega

theorem deliver_exact (dbg : Bool) (hdisjoint : log.Disjoint) {p₀ : Int32} {x : Delivery} {i : Instant × Op}
    (hkeeps : log.Keeps x.box i) (h : Exact log p₀ x) : Exact log p₀ (deliver dbg x i) := by
  obtain ⟨p, hp, hle, hwithin, htimes⟩ := h.reaches
  have hcovers := step_covers dbg hdisjoint h.ready hp hkeeps
  obtain ⟨q, hq, hforth, hout⟩ := hcovers.reaches
  -- the spans skipped before end at or before `p`, so they hold no update after it
  have hold : ∀ u, Over p q u → ¬ x.Skipped u := by
    rintro u hover ⟨j, hj, hin⟩
    have hend := (hwithin j hj).2
    have hlt := hover.1
    have hle := hin.2
    omega
  have hsum : ∀ u ∈ log.updates, 0 < u.info.count.toInt → timesReturned (deliver dbg x i).delivered u.update =
      (if Over p₀ p u ∧ ¬ x.Skipped u then 1 else 0) + (if (!i.2.skips) = true ∧ Over p q u then 1 else 0) +
        timesReturned (deliver dbg x i).early u.update := by
    intro u hu hpos
    have hbefore := htimes u hu hpos
    have hnow := hout u hu hpos
    have hparts := deliver_early dbg x i u.update
    omega
  cases hskips : i.2.skips with
  | false =>
    refine ⟨hcovers.ready, q, hq, by omega, fun j hj => ?_, fun u hu hpos => ?_⟩
    · simp only [deliver, hskips, Bool.false_eq_true, if_false] at hj
      obtain ⟨hfrom, hto⟩ := hwithin j hj
      exact ⟨hfrom, by omega⟩
    · have hskip : (deliver dbg x i).Skipped u ↔ x.Skipped u := by
        simp [Delivery.Skipped, deliver, hskips]
      rw [hsum u hu hpos, Nat.add_right_cancel_iff]
      simp only [hskips, Bool.not_false, true_and, hskip, over_split hle hforth]
      by_cases hover : Over p q u
      · have hearlier : ¬ Over p₀ p u := fun hc => not_over_both hc hover
        simp [hover, hearlier, hold u hover]
      · simp [hover]
  | true =>
    have hspan : (deliver dbg x i).skipped = x.skipped ++ [(p, q)] := by
      simp [deliver, hskips, span, hp, hq]
    refine ⟨hcovers.ready, q, hq, by omega, fun j hj => ?_, fun u hu hpos => ?_⟩
    · rw [hspan] at hj
      rcases List.mem_append.mp hj with hj | hj
      · obtain ⟨hfrom, hto⟩ := hwithin j hj
        exact ⟨hfrom, by omega⟩
      · obtain rfl := List.mem_singleton.mp hj
        exact ⟨hle, le_rfl⟩
    · have hskip : (deliver dbg x i).Skipped u ↔ x.Skipped u ∨ Over p q u := by
        simp [Delivery.Skipped, hspan, or_and_right, exists_or]
      rw [hsum u hu hpos, Nat.add_right_cancel_iff]
      simp only [hskips, Bool.not_true, Bool.false_eq_true, false_and, if_false, Nat.add_zero, hskip,
        over_split hle hforth]
      by_cases hover : Over p q u
      · have hearlier : ¬ Over p₀ p u := fun hc => not_over_both hc hover
        simp [hover, hearlier]
      · simp [hover]

end

/-- While the server and the callers do their part, every update of the account with a count between
the first counter and the last is handed to the callers exactly once, but for those that an operation
skipped, and no other one is handed over; besides there is what was pushed while the account was queued. -/
theorem delivered_exactly (dbg : Bool) {s : MessageBoxes} (h : Reachable dbg s) (log : Log)
    (hdisjoint : log.Disjoint) (hheld : ∀ u ∈ heldFor s .common, u ∈ log.updates) {p₀ : Int32}
    (hp : counter s = some p₀) (hfits : log.Fits p₀) (ops : List (Instant × Op))
    (hops : Run.AllSteps (deliver dbg) (fun x i => log.Keeps x.box i)
      { box := s, delivered := [], early := [], skipped := [] } ops) :
    ∀ x ∈ Run.states (deliver dbg) { box := s, delivered := [], early := [], skipped := [] } ops,
      ∃ q, counter x.box = some q ∧ p₀.toInt ≤ q.toInt ∧ ∀ u ∈ log.updates, 0 < u.info.count.toInt →
        timesReturned x.delivered u.update =
          (if Over p₀ q u ∧ ¬ x.Skipped u then 1 else 0) + timesReturned x.early u.update := by
  have hready : Ready log s := ⟨h.sound, hheld, fun p hp' => Option.some.inj (hp.symm.trans hp') ▸ hfits⟩
  have hstart : Exact log p₀ { box := s, delivered := [], early := [], skipped := [] } := by
    refine ⟨hready, p₀, hp, le_rfl, fun j hj => absurd hj List.not_mem_nil, fun u _ _ => ?_⟩
    rw [if_neg fun hc => not_over_self p₀ u hc.1]
    rfl
  intro x hx
  obtain ⟨q, hq, hle, -, htimes⟩ := (Run.states_inv (deliver dbg) (fun x i hi => deliver_exact dbg hdisjoint hi)
    ops _ hstart hops x hx).reaches
  exact ⟨q, hq, hle, htimes⟩

/-- The deletions at 11 to 14. -/
def fourDeletions : Log where
  updates := deletions.updates ++
    [⟨.deleteMessages [] 13 1, ⟨.common, 13, 1⟩, rfl⟩, ⟨.deleteMessages [] 14 1, ⟨.common, 14, 1⟩, rfl⟩]
  common := by decide
  nonneg := by decide
  distinct := by decide
  inRange := by decide

/-- Two of them are pushed the wrong way round, one is pushed early and answered, and one is skipped. -/
def threeWays : List (Instant × Op) :=
  [(1, .processUpdates (deletion 12 1)), (2, .processUpdates (deletion 11 1)),
   (3, .processUpdates (.updates .tooLong)), (4, .processUpdates (deletion 13 1)),
   (5, .applyDifference (oneDeletion 13)), (5, .abortDifference), (6, .forceResetCommonPts 14 5 1 1), (7, .processUpdates (deletion 14 1))]

theorem threeWays_exactly :
    let x := Run.final (deliver true) { box := atTen, delivered := [], early := [], skipped := [] } threeWays
    x.delivered = [.deleteMessages [] 11 1, .deleteMessages [] 12 1, .deleteMessages [] 13 1, .deleteMessages [] 13 1] ∧
    x.early = [.deleteMessages [] 13 1] ∧
    x.skipped = [(13, 14)] ∧
    ∃ q, counter x.box = some q ∧ (10 : Int32).toInt ≤ q.toInt ∧ ∀ u ∈ fourDeletions.updates, 0 < u.info.count.toInt →
      timesReturned x.delivered u.update =
        (if Over 10 q u ∧ ¬ x.Skipped u then 1 else 0) + timesReturned x.early u.update := by
  refine ⟨by decide, by decide, by decide, ?_⟩
  exact delivered_exactly true atTen_reachable fourDeletions (by decide) (by decide) (by decide) (by decide)
    threeWays (by decide) _ (Run.final_mem_states _ _ _)

end Ferogram.Msgbox
