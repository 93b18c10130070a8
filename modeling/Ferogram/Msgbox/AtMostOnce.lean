import Ferogram.Msgbox.Loss

/- At-most-once delivery across live updates and account differences.

   The server keeps a log of the updates of the account (`Log`); it sends them
   live, as often as it likes, and answers a request with the ones between the
   counter asked for and the counter of its answer (`Answers`). A session is the
   box together with everything it has returned (`act`). The invariant is that
   what has been returned lies behind the counter (`Once`), and a step keeps it
   where what it returns lies ahead of the old counter and not ahead of the new
   one (`Advances`).

   The branch of `process_updates` for a queued key hands updates out without
   moving the counter, and the difference then brings them again
   (`returned_twice`). Where that branch is given no update with a count, and an
   answer is applied at the counter it was asked for, nothing is returned twice
   (`returned_once`). -/
namespace Ferogram.Msgbox
open Ferogram.Tl MessageBoxes StableSort

variable {s : MessageBoxes}

/-! What is returned, and how often. -/

/-- An update without its place in the order: `apply_difference` returns new
messages in this form. -/
def bare : Update → Update
  | .newMessage message _ _ => wrapNewMessage message
  | update => update

/-- How often an update has been returned, in order or bare. -/
def timesReturned (returned : List Update) (u : Update) : Nat := (returned.map bare).count (bare u)

theorem timesReturned_append (l l' : List Update) (u : Update) :
    timesReturned (l ++ l') u = timesReturned l u + timesReturned l' u := by
  unfold timesReturned
  rw [List.map_append, List.count_append]

/-- The updates of the account in the order of the server, each with its count. -/
structure Log where
  updates : List PtsUpdate
  common : ∀ u ∈ updates, u.info.key = .common
  nonneg : ∀ u ∈ updates, 0 ≤ u.info.count.toInt
  distinct : (updates.map (fun u => bare u.update)).Nodup
  inRange : ∀ u ∈ updates, ∀ v ∈ updates, InRange (v.info.pts.toInt + u.info.count.toInt)

namespace Log
variable (log : Log)

/-- Adding a count of the log to the counter does not overflow. -/
def Fits (pts : Int32) : Prop := ∀ u ∈ log.updates, InRange (pts.toInt + u.info.count.toInt)

/-- The updates of the account among these are from the log, and what is outside
the order is no copy of one. -/
structure Supplies (us : List Update) : Prop where
  common : ∀ x ∈ us, belongsTo .common x = true → ∃ u ∈ log.updates, u.update = x
  plain : ∀ x ∈ us, plain x = true → ∀ u ∈ log.updates, bare x ≠ bare u.update

instance (pts : Int32) : Decidable (log.Fits pts) :=
  inferInstanceAs (Decidable (∀ u ∈ log.updates, InRange (pts.toInt + u.info.count.toInt)))

instance (us : List Update) : Decidable (log.Supplies us) :=
  decidable_of_iff
    ((∀ x ∈ us, belongsTo .common x = true → ∃ u ∈ log.updates, u.update = x) ∧
      ∀ x ∈ us, Msgbox.plain x = true → ∀ u ∈ log.updates, bare x ≠ bare u.update)
    ⟨fun h => ⟨h.1, h.2⟩, fun h => ⟨h.common, h.plain⟩⟩

variable {log}

theorem belongs {u : PtsUpdate} (hu : u ∈ log.updates) : belongsTo .common u.update = true := by
  simp [belongsTo_ptsUpdate, log.common u hu]

theorem eq_of_bare {u v : PtsUpdate} (hu : u ∈ log.updates) (hv : v ∈ log.updates)
    (h : bare u.update = bare v.update) : u = v :=
  List.inj_on_of_nodup_map log.distinct hu hv h

end Log

theorem bare_cases (x : Update) : (∃ m pts count, x = .newMessage m pts count) ∨ bare x = x := by
  cases x with
  | newMessage m pts count => exact Or.inl ⟨m, pts, count, rfl⟩
  | _ => exact Or.inr rfl

theorem newMessage_key (m : Message) (pts count : Int32) :
    updateKey (.newMessage m pts count) = if pts = NO_PTS then none else some .common := by
  simp only [updateKey, PtsInfo.fromUpdate, PtsInfo.raw]
  split <;> simp_all

/-- What looks like an update of the account when bare belongs to the account, or
is outside the order. -/
theorem key_of_bare_eq {u : PtsUpdate} (hu : u.info.key = .common) {x : Update}
    (h : bare x = bare u.update) : belongsTo .common x = true ∨ plain x = true := by
  rcases bare_cases x with ⟨m, pts, count, rfl⟩ | hx
  · unfold belongsTo plain
    rw [newMessage_key]
    split <;> simp
  · rcases bare_cases u.update with ⟨m, pts, count, hm⟩ | hb
    · right
      rw [hx, hm] at h
      rw [h]
      simp [plain, bare, wrapNewMessage, newMessage_key]
    · left
      rw [hx, hb] at h
      rw [h]
      simp [belongsTo_ptsUpdate, hu]

namespace Log.Supplies
variable {log : Log}

theorem subset {us us' : List Update} (h : log.Supplies us) (hsub : us' ⊆ us) : log.Supplies us' :=
  ⟨fun x hx => h.common x (hsub hx), fun x hx => h.plain x (hsub hx)⟩

theorem mem {us : List Update} (h : log.Supplies us) {u : PtsUpdate} (hu : u.update ∈ us)
    (hk : u.info.key = .common) : u ∈ log.updates := by
  obtain ⟨v, hv, hvu⟩ := h.common u.update hu (by simp [belongsTo_ptsUpdate, hk])
  rw [← PtsUpdate.eq_of_update hvu]
  exact hv

/-- How often an update of the log is among supplied updates. -/
theorem timesReturned_eq {us : List Update} (h : log.Supplies us) {u : PtsUpdate}
    (hu : u ∈ log.updates) : timesReturned us u.update = us.count u.update := by
  unfold timesReturned
  rw [List.count, List.countP_map, List.count]
  refine List.countP_congr (fun x hx => ?_)
  simp only [Function.comp_apply, beq_iff_eq]
  refine ⟨fun heq => ?_, fun heq => congrArg bare heq⟩
  rcases key_of_bare_eq (log.common u hu) heq with hkey | hplain
  · obtain ⟨v, hv, rfl⟩ := h.common x hx hkey
    rw [Log.eq_of_bare hv hu heq]
  · exact absurd heq (h.plain x hx hplain u hu)

end Log.Supplies

/-! What a step has to do. -/

/-- The counter of the account. -/
def counter (s : MessageBoxes) : Option Int32 := (s.entry .common).map LiveEntry.pts

/-- Everything buffered for the account is from the log. -/
structure Ready (log : Log) (s : MessageBoxes) : Prop where
  sound : Sound s
  held : ∀ u ∈ heldFor s .common, u ∈ log.updates
  fits : ∀ p, counter s = some p → log.Fits p

/-- The step from `s` to `s'` that returns `out` moves the counter forwards, over
everything of the log that it returns. -/
structure Advances (log : Log) (s s' : MessageBoxes) (out : List Update) : Prop where
  ready : Ready log s'
  forwards : ∀ p, counter s = some p → ∃ q, counter s' = some q ∧ p.toInt ≤ q.toInt
  passes : ∀ u ∈ log.updates, 0 < u.info.count.toInt → 0 < timesReturned out u.update →
    (∀ p, counter s = some p → p.toInt < u.info.pts.toInt) ∧
    ∃ q, counter s' = some q ∧ u.info.pts.toInt ≤ q.toInt
  once : ∀ u ∈ log.updates, 0 < u.info.count.toInt → timesReturned out u.update ≤ 1

/-- A step that returns nothing with a count and leaves the counter where it is. -/
theorem Advances.quiet {log : Log} {s s' : MessageBoxes} {out : List Update} (h : Ready log s)
    (hs : Sound s') (hcounter : counter s' = counter s)
    (hheld : ∀ u ∈ heldFor s' .common, u ∈ log.updates)
    (hout : ∀ u ∈ log.updates, 0 < u.info.count.toInt → timesReturned out u.update = 0) :
    Advances log s s' out where
  ready := ⟨hs, hheld, fun p hp => h.fits p (hcounter ▸ hp)⟩
  forwards p hp := ⟨p, hcounter.trans hp, le_refl _⟩
  passes u hu hpos hret := by
    rw [hout u hu hpos] at hret
    exact absurd hret (lt_irrefl 0)
  once u hu hpos := by
    rw [hout u hu hpos]
    exact Nat.zero_le 1

/-- Afterwards only what is no concern of the account may still change. -/
theorem Advances.then_same {log : Log} {s s₁ s₂ : MessageBoxes} {out : List Update}
    (h : Advances log s s₁ out) (hs : Sound s₂) (hcounter : counter s₂ = counter s₁)
    (hheld : heldFor s₂ .common = heldFor s₁ .common) : Advances log s s₂ out where
  ready := ⟨hs, by rw [hheld]; exact h.ready.held, by rw [hcounter]; exact h.ready.fits⟩
  forwards p hp := by rw [hcounter]; exact h.forwards p hp
  passes u hu hpos hret := by rw [hcounter]; exact h.passes u hu hpos hret
  once := h.once

/-! Live batches. -/

/-- What a batch returns and leaves buffered is supplied if the batch is. -/
theorem processed_supplies {log : Log} (h : Ready log s) (now : Instant)
    {b : UpdatesLike} {c : UpdatesCombined} (hb : adapt b = .ok c)
    (heq : s.processUpdates now b = (.ok (s.processCombined now c).1, (s.processCombined now c).2))
    (hsup : log.Supplies b.contents) {us : List PtsUpdate} (hfeeds : Feeds s now b .common us) :
    log.Supplies (approved (s.processUpdates now b).1) ∧
    ∀ u ∈ heldFor (s.processUpdates now b).2 .common, u ∈ log.updates := by
  have hfed : ∀ f ∈ us.map (fun u => (now, u)), f.2 ∈ log.updates := by
    intro f hf
    obtain ⟨u, hu, rfl⟩ := List.mem_map.mp hf
    obtain ⟨hk, hmem⟩ := hfeeds.own u hu
    exact hsup.mem hmem hk
  have hheld : ∀ e, (s.view .common []).entry = some e → ∀ x ∈ e.held, x ∈ log.updates :=
    fun e he x hx => h.held x (mem_heldFor he hx)
  obtain ⟨hleft, l, hl, hall⟩ := View.feedAll_all _ hheld hfed
  rw [← hfeeds.view] at hleft hl
  have hout : (approved (s.processUpdates now b).1).filter (belongsTo .common) =
      l.map PtsUpdate.update := hl
  refine ⟨⟨fun x hx hbel => ?_, fun x hx hplain => ?_⟩, fun u hu => ?_⟩
  · have hin := List.mem_filter.mpr ⟨hx, hbel⟩
    rw [hout] at hin
    obtain ⟨u, hu, rfl⟩ := List.mem_map.mp hin
    exact ⟨u, hall u hu, rfl⟩
  · -- outside the order, the batch itself is returned
    have hcontents : b.contents = c.updates := by simp [UpdatesLike.contents, hb]
    rw [heq] at hx
    have hin : x ∈ (s.processAll now c.updates).result.filter plain :=
      List.mem_filter.mpr ⟨hx, hplain⟩
    rw [processAll_plain h.sound, List.mem_filter, mem_sortByKey] at hin
    exact hsup.plain x (hcontents ▸ hin.1) hplain
  · unfold heldFor at hu
    cases he : (s.processUpdates now b).2.entry .common with
    | none => rw [he] at hu; cases hu
    | some e => rw [he] at hu; exact hleft e he u hu

/-- The updates of the account are no `updateChannelTooLong`. -/
theorem notTooLong_of_common {u : Update} (h : belongsTo .common u = true) : NotTooLong u := by
  rintro id pts rfl
  simp [belongsTo, updateKey] at h

/-- Fed to a queued key, updates come out as they are and its buffer stays. -/
theorem View.feedAll_of_queued (fed : List (Instant × PtsUpdate)) : ∀ {v : View}, v.queued = true →
    (v.feedAll fed).entry.map LiveEntry.buffer = v.entry.map LiveEntry.buffer ∧
    (v.feedAll fed).out = v.out ++ fed.map (fun f => f.2.update) := by
  induction fed with
  | nil => exact fun _ => ⟨rfl, (List.append_nil _).symm⟩
  | cons f fed ih =>
    intro v hq
    have hstep : v.pts f.1 (nextUpdatesDeadline f.1) f.2 =
        { v with
          entry := v.entry.map (fun e => { e with deadline := nextUpdatesDeadline f.1 })
          out := v.out ++ [f.2.update] } := by
      simp [View.pts, hq]
    obtain ⟨hentry, hout⟩ := ih (v := v.pts f.1 (nextUpdatesDeadline f.1) f.2)
      (by rw [View.pts_queued]; exact hq)
    refine ⟨hentry.trans ?_, hout.trans ?_⟩
    · rw [hstep, Option.map_map]
      rfl
    · rw [hstep]
      simp

theorem counter_eq_buffer (s : MessageBoxes) :
    counter s = ((s.entry .common).map LiveEntry.buffer).map Reorder.Buffer.pos := by
  unfold counter
  rw [Option.map_map]
  rfl

theorem heldFor_eq_buffer (s : MessageBoxes) (key : Key) :
    heldFor s key = (((s.entry key).map LiveEntry.buffer).map Reorder.Buffer.held).getD [] := by
  unfold heldFor
  rw [Option.map_map]
  rfl

/-- While the account is queued a batch leaves its counter and its buffer alone. -/
theorem processed_queued {now : Instant} {b : UpdatesLike} {us : List PtsUpdate}
    (hfeeds : Feeds s now b .common us) (hq : .common ∈ s.gettingDiffFor) :
    counter (s.processUpdates now b).2 = counter s ∧
    heldFor (s.processUpdates now b).2 .common = heldFor s .common := by
  have hqv : (s.view .common []).queued = true := by simpa [MessageBoxes.view] using hq
  have hbuf := (View.feedAll_of_queued (us.map (fun u => (now, u))) hqv).1
  rw [← hfeeds.view] at hbuf
  change ((s.processUpdates now b).2.entry .common).map LiveEntry.buffer =
    (s.entry .common).map LiveEntry.buffer at hbuf
  rw [counter_eq_buffer, counter_eq_buffer, heldFor_eq_buffer, heldFor_eq_buffer, hbuf]
  exact ⟨rfl, rfl⟩

theorem counter_of_entry {e : LiveEntry} (h : s.entry .common = some e) :
    counter s = some e.pts := by
  unfold counter
  rw [h]
  rfl

/-- Everything a call works on for the account is from the log. -/
theorem log_of_inPlay {log : Log} (h : Ready log s) {now : Instant}
    {b : UpdatesLike} (hsup : log.Supplies b.contents) {u : PtsUpdate}
    (hu : InPlay s .common [(now, b)] u) : u ∈ log.updates := by
  obtain ⟨hk, ⟨i, hi, hmem⟩ | ⟨e, he, hu⟩⟩ := hu
  · rw [List.mem_singleton] at hi
    subst hi
    exact hsup.mem hmem hk
  · exact h.held u (mem_heldFor he hu)

theorem countersFit_of_ready {log : Log} (h : Ready log s) {now : Instant}
    {b : UpdatesLike} (hsup : log.Supplies b.contents) : CountersFit s .common [(now, b)] := by
  intro i hi p hp
  obtain ⟨u, hu, rfl⟩ := mem_inPlay.mp hi
  rcases List.mem_append.mp hp with hp | hp
  · obtain ⟨e, he, rfl⟩ := List.mem_map.mp hp
    have hc : counter s = some e.pts := counter_of_entry (by simpa using he)
    exact h.fits e.pts hc u (log_of_inPlay h hsup hu)
  · obtain ⟨i', hi', rfl⟩ := List.mem_map.mp hp
    obtain ⟨v, hv, rfl⟩ := mem_inPlay.mp hi'
    exact log.inRange u (log_of_inPlay h hsup hu) v (log_of_inPlay h hsup hv)

/-- Off the queue a batch returns a chain of updates of the log, from the counter
before it, or from where the first of them starts, to the counter after it. -/
theorem processed_chain {log : Log} (h : Ready log s) {now : Instant}
    {b : UpdatesLike} (hsup : log.Supplies b.contents) {us : List PtsUpdate}
    (hfeeds : Feeds s now b .common us) (hq : .common ∉ s.gettingDiffFor) :
    ∃ ps : List PtsUpdate,
      (approved (s.processUpdates now b).1).filter (belongsTo .common) =
        ps.map PtsUpdate.update ∧
      (∀ u ∈ ps, u ∈ log.updates) ∧
      ((ps = [] ∧ counter (s.processUpdates now b).2 = counter s) ∨
      ∃ p q, counter (s.processUpdates now b).2 = some q ∧
        PtsChain p (ps.map PtsUpdate.update) q.toInt ∧
        ((∃ p₀, counter s = some p₀ ∧ p = p₀.toInt) ∨ counter s = none ∧ ps ≠ [])) := by
  have hstay : ∀ x ∈ Run.states liveStep (s, []) [(now, b)], .common ∉ x.1.gettingDiffFor := by
    intro x hx
    rcases List.mem_cons.mp hx with rfl | hx
    · exact hq
    · rw [Run.states, List.mem_singleton] at hx
      subst hx
      exact hfeeds.unqueued hq
  have hnt : NoTooLong .common [(now, b)] := fun i hi u hu hbel => notTooLong_of_common hbel
  obtain ⟨ps, hout, hps, hcases⟩ :=
    liveRun_ptsChain h.sound hnt hstay (countersFit_of_ready h hsup)
  refine ⟨ps, hout, fun u hu => log_of_inPlay h hsup (hps u hu), ?_⟩
  rcases hcases with ⟨hnone, rfl, hr⟩ | ⟨p, e', hr, -, hchain, hstart⟩
  · left
    change (s.processUpdates now b).2.entry .common = none at hr
    refine ⟨rfl, ?_⟩
    unfold counter
    rw [hr, hnone]
  · right
    refine ⟨p, e'.pts, counter_of_entry hr, hchain, ?_⟩
    rcases hstart with ⟨e, he, rfl⟩ | ⟨hnone, u, us, rfl, -⟩
    · exact Or.inl ⟨e.pts, counter_of_entry he, rfl⟩
    · refine Or.inr ⟨?_, by simp⟩
      unfold counter
      rw [hnone]
      rfl

/-- Such a chain is one advance of the counter. -/
theorem Advances.of_chain {log : Log} {s s' : MessageBoxes} {out : List Update} (h : Ready log s)
    (hs : Sound s') (hheld : ∀ u ∈ heldFor s' .common, u ∈ log.updates) {ps : List PtsUpdate}
    (hps : ∀ u ∈ ps, u ∈ log.updates)
    (htimes : ∀ u ∈ log.updates,
      timesReturned out u.update = (ps.map PtsUpdate.update).count u.update)
    {p : Int} {q : Int32} (hq : counter s' = some q)
    (hchain : PtsChain p (ps.map PtsUpdate.update) q.toInt)
    (hstart : (∃ p₀, counter s = some p₀ ∧ p = p₀.toInt) ∨ counter s = none ∧ ps ≠ []) :
    Advances log s s' out := by
  have hnonneg : ∀ x ∈ ps.map PtsUpdate.update, ∀ info, PtsInfo.fromUpdate x = some info →
      0 ≤ info.count.toInt := by
    intro x hx info hinfo
    obtain ⟨u, hu, rfl⟩ := List.mem_map.mp hx
    rw [u.from_update] at hinfo
    cases hinfo
    exact log.nonneg u (hps u hu)
  have hp : ∀ p₀, counter s = some p₀ → p = p₀.toInt := by
    intro p₀ hp₀
    rcases hstart with ⟨p₁, hp₁, rfl⟩ | ⟨hnone, -⟩
    · rw [hp₁] at hp₀
      cases hp₀
      rfl
    · rw [hnone] at hp₀
      cases hp₀
  obtain ⟨hle, hlast⟩ := hchain.le_last hnonneg
  refine ⟨⟨hs, hheld, ?_⟩, fun p₀ hp₀ => ⟨q, hq, hp p₀ hp₀ ▸ hle⟩, fun u hu hpos hret => ?_,
    fun u hu hpos => ?_⟩
  · -- the counter is where it was, or at an update of the log
    intro q' hq' u hu
    obtain rfl : q = q' := by
      rw [hq] at hq'
      exact Option.some.inj hq'
    rcases hchain.last_mem with ⟨hnil, hqp⟩ | ⟨x, hx, info, hinfo, hpts⟩
    · rcases hstart with ⟨p₀, hp₀, rfl⟩ | ⟨-, hne⟩
      · rw [hqp]
        exact h.fits p₀ hp₀ u hu
      · exact absurd (List.map_eq_nil_iff.mp hnil) hne
    · obtain ⟨v, hv, rfl⟩ := List.mem_map.mp hx
      rw [v.from_update] at hinfo
      cases hinfo
      rw [← hpts]
      exact log.inRange u hu v (hps v hv)
  · -- what is returned lies between the two counters
    rw [htimes u hu, List.count_pos_iff] at hret
    refine ⟨fun p₀ hp₀ => ?_, q, hq, hlast u.update hret u.info u.from_update⟩
    have hfrom := hchain.le hnonneg u.update hret u.info u.from_update
    have := hp p₀ hp₀
    omega
  · rw [htimes u hu]
    exact hchain.count_le_one hnonneg u.update u.info u.from_update hpos

/-- Off the queue the counter moves over what a batch returns. -/
theorem processed_advances {log : Log} (h : Ready log s) (now : Instant)
    {b : UpdatesLike} {c : UpdatesCombined} (hb : adapt b = .ok c)
    (heq : s.processUpdates now b = (.ok (s.processCombined now c).1, (s.processCombined now c).2))
    (hsup : log.Supplies b.contents) (hq : .common ∉ s.gettingDiffFor) :
    Advances log s (s.processUpdates now b).2 (approved (s.processUpdates now b).1) := by
  obtain ⟨us, hfeeds⟩ := processed_feeds h.sound now hb heq .common
    (fun u _ hbel => notTooLong_of_common hbel)
  obtain ⟨hret, hheld⟩ := processed_supplies h now hb heq hsup hfeeds
  have hsound : Sound (s.processUpdates now b).2 := (processUpdates_moves s b).sound h.sound
  obtain ⟨ps, hout, hps, hcases⟩ := processed_chain h hsup hfeeds hq
  have htimes : ∀ u ∈ log.updates, timesReturned (approved (s.processUpdates now b).1) u.update =
      (ps.map PtsUpdate.update).count u.update := by
    intro u hu
    rw [hret.timesReturned_eq hu, ← hout]
    exact (List.count_filter (Log.belongs hu)).symm
  rcases hcases with ⟨rfl, hsame⟩ | ⟨p, q, hq', hchain, hstart⟩
  · exact Advances.quiet h hsound hsame hheld (fun u hu _ => (htimes u hu).trans rfl)
  · exact Advances.of_chain h hsound hheld hps htimes hq' hchain hstart

/-- Queueing the account forgets what is buffered for it, and no more. -/
theorem tryBeginGetDiff_common (hs : s.Sorted) :
    counter (s.tryBeginGetDiff .common) = counter s ∧
    heldFor (s.tryBeginGetDiff .common) .common ⊆ heldFor s .common := by
  have hentry := congrArg View.entry (tryBeginGetDiff_view hs .common .common [])
  rw [if_pos rfl] at hentry
  change (s.tryBeginGetDiff .common).entry .common =
    if (s.view .common []).queued then s.entry .common
    else (s.entry .common).map (fun e => { e with possibleGap := none }) at hentry
  unfold counter heldFor
  rw [hentry]
  split
  · exact ⟨rfl, fun _ h => h⟩
  · cases s.entry .common with
    | none => exact ⟨rfl, fun _ h => h⟩
    | some e => exact ⟨rfl, List.nil_subset _⟩

theorem timesReturned_nil (u : Update) : timesReturned [] u = 0 := rfl

/-- A live batch, supplied by the log, that holds nothing with a count while the
account is queued. -/
theorem live_advances {log : Log} (h : Ready log s) (now : Instant)
    {b : UpdatesLike} (hsup : log.Supplies b.contents)
    (hquiet : .common ∈ s.gettingDiffFor →
      ∀ u ∈ log.updates, 0 < u.info.count.toInt → u.update ∉ b.contents) :
    Advances log s (s.processUpdates now b).2 (approved (s.processUpdates now b).1) := by
  have hsound : Sound (s.processUpdates now b).2 := (processUpdates_moves s b).sound h.sound
  rcases processUpdates_cases s now b with ⟨-, heq⟩ | ⟨-, users, chats, heq⟩ | ⟨c, hb, heq⟩
  · obtain ⟨hcounter, hheld⟩ := tryBeginGetDiff_common h.sound.rep.sorted
    rw [heq] at hsound ⊢
    exact Advances.quiet h hsound hcounter (fun u hu => h.held u (hheld hu))
      (fun u _ _ => timesReturned_nil _)
  · rw [heq]
    exact Advances.quiet h h.sound rfl h.held (fun u _ _ => timesReturned_nil _)
  · by_cases hq : .common ∈ s.gettingDiffFor
    · obtain ⟨us, hfeeds⟩ := processed_feeds h.sound now hb heq .common
        (fun u _ hbel => notTooLong_of_common hbel)
      obtain ⟨hret, hheld⟩ := processed_supplies h now hb heq hsup hfeeds
      refine Advances.quiet h hsound (processed_queued hfeeds hq).1 hheld (fun u hu hpos => ?_)
      have hbel := Log.belongs hu
      have hcontents : b.contents = c.updates := by simp [UpdatesLike.contents, hb]
      have hcount := refed_queued h.sound now .common hq c.updates hbel (notTooLong_of_common hbel)
      rw [hret.timesReturned_eq hu, heq]
      refine hcount.trans (List.count_eq_zero_of_not_mem ?_)
      rw [← hcontents]
      exact hquiet hq u hu hpos
    · exact processed_advances h now hb heq hsup hq

/-- So does `check_deadlines`. -/
theorem checkDeadlines_common (hs : s.Sorted) (now : Instant) :
    counter (s.checkDeadlines now).2 = counter s ∧
    heldFor (s.checkDeadlines now).2 .common ⊆ heldFor s .common := by
  rw [checkDeadlines_snd]
  split
  · split
    · exact ⟨rfl, fun _ h => h⟩
    · have hs' : Sorted { s with gettingDiffFor := s.dueKeys now } := hs
      unfold counter heldFor
      rw [entry_clearGaps _ _ hs', show entry { s with gettingDiffFor := s.dueKeys now } .common =
        s.entry .common from rfl]
      split
      · cases s.entry .common with
        | none => exact ⟨rfl, fun _ h => h⟩
        | some e => exact ⟨rfl, List.nil_subset _⟩
      · exact ⟨rfl, fun _ h => h⟩
  · exact ⟨rfl, fun _ h => h⟩

/-! Answers. -/

/-- The updates of the account in a difference, bare. -/
def bareUpdates (d : DifferenceBody) : List Update :=
  d.newMessages.map wrapNewMessage ++ (d.otherUpdates.filter (belongsTo .common)).map bare

namespace Log

/-- The updates after one counter and up to another, bare. -/
def between (log : Log) (p q : Int32) : List Update :=
  (log.updates.filter (fun u => p.toInt < u.info.pts.toInt ∧ u.info.pts.toInt ≤ q.toInt)).map
    (fun u => bare u.update)

/-- The server answers a request at a counter with the updates from there up to
the counter of the answer. -/
def Answers (log : Log) (request : Int32) : Difference → Prop
  | .empty _ _ => True
  | .difference d | .slice d =>
    request.toInt ≤ d.state.pts.toInt ∧ log.Fits d.state.pts ∧ log.Supplies d.otherUpdates ∧
    (bareUpdates d).Perm (log.between request d.state.pts)
  | .tooLong pts => request.toInt ≤ pts.toInt ∧ log.Fits pts

instance (log : Log) (request : Int32) (d : Difference) : Decidable (log.Answers request d) :=
  match d with
  | .empty .. => isTrue trivial
  | .difference d | .slice d =>
    inferInstanceAs (Decidable (request.toInt ≤ d.state.pts.toInt ∧ log.Fits d.state.pts ∧
      log.Supplies d.otherUpdates ∧ (bareUpdates d).Perm (log.between request d.state.pts)))
  | .tooLong pts => inferInstanceAs (Decidable (request.toInt ≤ pts.toInt ∧ log.Fits pts))

/-- Each update of the log is between two counters once or not at all. -/
theorem count_between (log : Log) (p q : Int32) {u : PtsUpdate} (hu : u ∈ log.updates) :
    (log.between p q).count (bare u.update) ≤ 1 ∧
    (0 < (log.between p q).count (bare u.update) →
      p.toInt < u.info.pts.toInt ∧ u.info.pts.toInt ≤ q.toInt) := by
  have hnodup : (log.between p q).Nodup :=
    log.distinct.sublist (List.filter_sublist.map _)
  refine ⟨List.nodup_iff_count_le_one.mp hnodup _, fun hpos => ?_⟩
  rw [List.count_pos_iff] at hpos
  obtain ⟨v, hv, hbare⟩ := List.mem_map.mp hpos
  rw [List.mem_filter] at hv
  rw [← eq_of_bare hv.1 hu hbare]
  simpa using hv.2

end Log

/-- What the caller is handed from a difference. -/
def handed : Except Panic UpdateAndPeers → List Update
  | .ok r => r.1
  | .error _ => []

theorem endGetDiff_common (hs : s.Sorted) (now : Instant) (key : Key) :
    counter (s.endGetDiff now key) = counter s ∧
    heldFor (s.endGetDiff now key) .common = heldFor s .common := by
  have hentry := entry_endGetDiff hs now key .common
  have hheld := map_entry_edit hentry And.left (g := LiveEntry.held) (fun _ => rfl)
  exact ⟨map_entry_edit hentry And.left (fun _ => rfl), congrArg (Option.getD · []) hheld⟩

/-- Taking the account keys off the queue leaves the rest as it is. -/
theorem Advances.then_finish {log : Log} {s s' : MessageBoxes} {out : List Update}
    (h : Advances log s s' out) (now : Instant) :
    Advances log s ((s'.endGetDiff now .common).endGetDiff now .secondary) out := by
  have hm : Moves now s' (s'.endGetDiff now .common) := Moves.single (.unqueue _ _)
  have hs := hm.sound h.ready.sound
  obtain ⟨hc₁, hh₁⟩ := endGetDiff_common h.ready.sound.rep.sorted now .common
  obtain ⟨hc₂, hh₂⟩ := endGetDiff_common hs.rep.sorted now .secondary
  exact h.then_same ((hm.snoc (.unqueue _ _)).sound h.ready.sound) (hc₂.trans hc₁)
    (hh₂.trans hh₁)

/-- No encrypted message is an update of the log. -/
theorem timesReturned_encrypted {log : Log} {u : PtsUpdate} (hu : u ∈ log.updates)
    (ms : List Blob) : timesReturned (ms.map wrapNewEncryptedMessage) u.update = 0 := by
  unfold timesReturned
  rw [List.count_eq_zero]
  intro hmem
  rw [List.map_map] at hmem
  obtain ⟨m, -, hbare⟩ := List.mem_map.mp hmem
  change wrapNewEncryptedMessage m = bare u.update at hbare
  have hkey : updateKey u.update = some .common := by
    rw [updateKey_of_fromUpdate u.from_update, log.common u hu]
  rcases bare_cases u.update with ⟨m', pts, count, hm⟩ | hb
  · rw [hm] at hbare
    cases hbare
  · rw [hb] at hbare
    rw [← hbare] at hkey
    cases hkey

theorem timesReturned_messages (ms : List Message) (u : Update) :
    timesReturned (ms.map wrapNewMessage) u = (ms.map wrapNewMessage).count (bare u) := by
  unfold timesReturned
  rw [List.map_map]
  rfl

/-- The box a difference is fed to is at its counter. -/
theorem differenceBase_ready {log : Log} (h : Ready log s) (now : Instant)
    {d : DifferenceBody} (hfits : log.Fits d.state.pts) :
    Ready log (differenceBase s now d) ∧ counter (differenceBase s now d) = some d.state.pts := by
  obtain ⟨-, ⟨e, he, hpts, hheld⟩, -⟩ := differenceBase_entry h.sound.rep.sorted now d
  have hcounter : counter (differenceBase s now d) = some d.state.pts :=
    hpts ▸ counter_of_entry he
  refine ⟨⟨(differenceBase_moves s now d).sound h.sound, fun u hu => h.held u ?_, ?_⟩, hcounter⟩
  · rw [← hheld]
    rw [heldFor, he] at hu
    exact hu
  · intro p hp
    rw [hcounter] at hp
    cases hp
    exact hfits

/-- Re-fed updates are one more batch, without `seq`. -/
theorem refeed_batch (s : MessageBoxes) (now : Instant) (us : List Update) (users : List User) (chats : List Chat) :
    ∃ c, adapt (refeed us users chats) = .ok c ∧ s.processUpdates now (refeed us users chats) =
      (.ok (s.processCombined now c).1, (s.processCombined now c).2) :=
  ⟨_, rfl, processUpdates_refeed s us users chats⟩

theorem approved_refeed (s : MessageBoxes) (now : Instant) (us : List Update) (users : List User) (chats : List Chat) :
    approved (s.processUpdates now (refeed us users chats)).1 = refed s now us := by
  rw [processUpdates_refeed]
  rfl

theorem refeed_feeds {log : Log} (h : Ready log s) (now : Instant) {us : List Update}
    (users : List User) (chats : List Chat) (hsup : log.Supplies us) :
    ∃ fed, Feeds s now (refeed us users chats) .common fed ∧ log.Supplies (refed s now us) ∧
      ∀ u ∈ heldFor (s.processUpdates now (refeed us users chats)).2 .common, u ∈ log.updates := by
  obtain ⟨c, hb, heq⟩ := refeed_batch s now us users chats
  obtain ⟨fed, hfeeds⟩ := processed_feeds h.sound now hb heq .common (fun u _ hbel => notTooLong_of_common hbel)
  have hsup' : log.Supplies (refeed us users chats).contents := hsup
  obtain ⟨hret, hheld⟩ := processed_supplies h now hb heq hsup' hfeeds
  rw [approved_refeed] at hret
  exact ⟨fed, hfeeds, hret, hheld⟩

/-- A difference that finds the account queued leaves the counter at its state, and its other
updates are handed over as they are. -/
theorem differenceFed_queued {log : Log} (h : Ready log s) (now : Instant) {d : DifferenceBody}
    (hfits : log.Fits d.state.pts) (hsup : log.Supplies d.otherUpdates) (hq : .common ∈ s.gettingDiffFor) :
    Ready log (differenceFed s now d) ∧ counter (differenceFed s now d) = some d.state.pts ∧ ∀ u ∈ log.updates,
      timesReturned (refed (differenceBase s now d) now d.otherUpdates) u.update =
        ((d.otherUpdates.filter (belongsTo .common)).map bare).count (bare u.update) := by
  obtain ⟨hbase, hcounter⟩ := differenceBase_ready h now hfits
  have hqueued : .common ∈ (differenceBase s now d).gettingDiffFor := by
    rw [(differenceBase_entry h.sound.rep.sorted now d).1]
    exact hq
  obtain ⟨fed, hfeeds, hret, hheld⟩ := refeed_feeds hbase now d.users d.chats hsup
  have hcounter' : counter (differenceFed s now d) = some d.state.pts :=
    (processed_queued hfeeds hqueued).1.trans hcounter
  refine ⟨⟨(differenceFed_moves s now d).sound h.sound, hheld, ?_⟩, hcounter', fun u hu => ?_⟩
  · intro p hp
    rw [hcounter'] at hp
    cases hp
    exact hfits
  · have hbel := Log.belongs hu
    have hsub : log.Supplies (d.otherUpdates.filter (belongsTo .common)) :=
      hsup.subset (fun x hx => (List.mem_filter.mp hx).1)
    calc timesReturned (refed (differenceBase s now d) now d.otherUpdates) u.update
        = (refed (differenceBase s now d) now d.otherUpdates).count u.update := hret.timesReturned_eq hu
      _ = d.otherUpdates.count u.update :=
          refed_queued hbase.sound now .common hqueued _ hbel (notTooLong_of_common hbel)
      _ = (d.otherUpdates.filter (belongsTo .common)).count u.update := (List.count_filter hbel).symm
      _ = ((d.otherUpdates.filter (belongsTo .common)).map bare).count (bare u.update) :=
          (hsub.timesReturned_eq hu).symm

/-- Feeding the other updates of a difference moves the counter on from there, if
at all. While the account is queued they are returned as they are; else the
counter moves over them. -/
theorem differenceFed_advances {log : Log} (h : Ready log s) (now : Instant)
    {d : DifferenceBody} (hfits : log.Fits d.state.pts) (hsup : log.Supplies d.otherUpdates) :
    Ready log (differenceFed s now d) ∧
    ∃ q, counter (differenceFed s now d) = some q ∧ d.state.pts.toInt ≤ q.toInt ∧
      ∀ u ∈ log.updates, 0 < u.info.count.toInt →
        let times := timesReturned (refed (differenceBase s now d) now d.otherUpdates) u.update
        times = ((d.otherUpdates.filter (belongsTo .common)).map bare).count (bare u.update) ∨
        times ≤ 1 ∧ (0 < times →
          d.state.pts.toInt < u.info.pts.toInt ∧ u.info.pts.toInt ≤ q.toInt) := by
  by_cases hq : .common ∈ s.gettingDiffFor
  · obtain ⟨hready, hcounter, htimes⟩ := differenceFed_queued h now hfits hsup hq
    exact ⟨hready, d.state.pts, hcounter, le_refl _, fun u hu _ => Or.inl (htimes u hu)⟩
  · obtain ⟨hbase, hcounter⟩ := differenceBase_ready h now hfits
    have hqueued : .common ∉ (differenceBase s now d).gettingDiffFor := by
      rw [(differenceBase_entry h.sound.rep.sorted now d).1]
      exact hq
    obtain ⟨c, hb, heq⟩ := refeed_batch (differenceBase s now d) now d.otherUpdates d.users d.chats
    have hsup' : log.Supplies (refeed d.otherUpdates d.users d.chats).contents := hsup
    have hadv := processed_advances hbase now hb heq hsup' hqueued
    rw [approved_refeed] at hadv
    obtain ⟨q, hq', hle⟩ := hadv.forwards d.state.pts hcounter
    refine ⟨hadv.ready, q, hq', hle, fun u hu hpos => Or.inr ⟨hadv.once u hu hpos, fun hret => ?_⟩⟩
    obtain ⟨hahead, q', hq'', hle'⟩ := hadv.passes u hu hpos hret
    rw [hq'] at hq''
    cases hq''
    exact ⟨hahead d.state.pts hcounter, hle'⟩

/-- An answer applied at the counter it was asked for. -/
theorem body_advances {log : Log} (h : Ready log s) (now : Instant)
    {request : Int32} (hat : counter s = some request) {d : DifferenceBody}
    (hans : log.Answers request (.difference d)) :
    Advances log s (differenceFed s now d)
      (d.newMessages.map wrapNewMessage ++ d.newEncryptedMessages.map wrapNewEncryptedMessage ++
        refed (differenceBase s now d) now d.otherUpdates) := by
  obtain ⟨hle, hfits, hsup, hperm⟩ := hans
  obtain ⟨hready, q, hq, hforth, htimes⟩ := differenceFed_advances h now hfits hsup
  -- how often an update comes as a message and as another update, taken together
  have hboth : ∀ u : PtsUpdate,
      (d.newMessages.map wrapNewMessage).count (bare u.update) +
        ((d.otherUpdates.filter (belongsTo .common)).map bare).count (bare u.update) =
      (log.between request d.state.pts).count (bare u.update) := by
    intro u
    rw [← hperm.count_eq, bareUpdates, List.count_append]
  have htotal : ∀ u ∈ log.updates, 0 < u.info.count.toInt →
      timesReturned (d.newMessages.map wrapNewMessage ++
          d.newEncryptedMessages.map wrapNewEncryptedMessage ++
          refed (differenceBase s now d) now d.otherUpdates) u.update ≤ 1 ∧
      (0 < timesReturned (d.newMessages.map wrapNewMessage ++
          d.newEncryptedMessages.map wrapNewEncryptedMessage ++
          refed (differenceBase s now d) now d.otherUpdates) u.update →
        request.toInt < u.info.pts.toInt ∧ u.info.pts.toInt ≤ q.toInt) := by
    intro u hu hpos
    rw [timesReturned_append, timesReturned_append, timesReturned_encrypted hu,
      timesReturned_messages]
    have hb := hboth u
    have hcount := log.count_between request d.state.pts hu
    rcases htimes u hu hpos with heq | ⟨hone, hrange⟩
    · omega
    · omega
  refine ⟨hready, fun p hp => ⟨q, hq, ?_⟩, fun u hu hpos hret => ?_,
    fun u hu hpos => (htotal u hu hpos).1⟩
  · rw [hat] at hp
    cases hp
    omega
  · obtain ⟨hahead, hbehind⟩ := (htotal u hu hpos).2 hret
    refine ⟨fun p hp => ?_, q, hq, hbehind⟩
    rw [hat] at hp
    cases hp
    exact hahead

/-- A counter that the server moves forwards without the updates in between. -/
theorem setPts_advances {log : Log} (h : Ready log s) (now : Instant)
    {request pts : Int32} (hat : counter s = some request) (hle : request.toInt ≤ pts.toInt)
    (hfits : log.Fits pts) : Advances log s (s.setPts now .common pts) [] := by
  have hentry := entry_setPts h.sound.rep.sorted now .common pts .common
  rw [if_pos rfl] at hentry
  have hcounter : counter (s.setPts now .common pts) = some pts := counter_of_entry hentry
  refine ⟨⟨(Moves.single (.setPts s .common pts) : Moves now s _).sound h.sound, ?_, ?_⟩,
    fun p hp => ⟨pts, hcounter, ?_⟩, fun u _ _ hret => absurd hret (lt_irrefl 0),
    fun u _ _ => Nat.zero_le 1⟩
  · intro u hu
    apply h.held
    rw [heldFor, hentry] at hu
    exact setPts_held s .common pts (nextUpdatesDeadline now) ▸ hu
  · intro p hp
    rw [hcounter] at hp
    cases hp
    exact hfits
  · rw [hat] at hp
    cases hp
    exact hle

/-- The difference carries a counter to move to. -/
def hasCounter : Difference → Bool
  | .empty .. => false
  | _ => true

theorem applyDifference_advances (dbg : Bool) {log : Log} (h : Ready log s)
    (now : Instant) {request : Int32} {d : Difference} (hans : log.Answers request d)
    (hat : .common ∈ s.gettingDiffFor ∨ .secondary ∈ s.gettingDiffFor → hasCounter d = true →
      counter s = some request) :
    Advances log s ((applyDifference dbg now d).run s).2
      (handed ((applyDifference dbg now d).run s).1) := by
  by_cases hq : .common ∈ s.gettingDiffFor ∨ .secondary ∈ s.gettingDiffFor
  · have hpending :
        (s.gettingDiffFor.contains .common || s.gettingDiffFor.contains .secondary) = true := by
      simpa using hq
    cases d with
    | empty date seq =>
      have hmove : Move now s { s with date := date, seq := seq } := .bookkeeping rfl rfl rfl
      have hsame : Advances log s { s with date := date, seq := seq } [] :=
        Advances.quiet h ((Moves.single hmove).sound h.sound) rfl h.held
          (fun u _ _ => timesReturned_nil _)
      simp only [applyDifference, Call.bind_run, Call.read_run, hpending, Bool.not_true,
        Bool.false_eq_true, if_false, Call.edit_run,
        finishDifference_run dbg now hsame.ready.sound.rep]
      exact hsame.then_finish now
    | difference d =>
      have hrun := applyDifference_run dbg now h.sound.rep hq true d
      rw [show Difference.difference d = differenceOf true d from rfl, hrun]
      exact (body_advances h now (hat hq rfl) hans).then_finish now
    | slice d =>
      have hrun := applyDifference_run dbg now h.sound.rep hq false d
      rw [show Difference.slice d = differenceOf false d from rfl, hrun]
      exact body_advances h now (hat hq rfl) hans
    | tooLong pts =>
      have hset := setPts_advances h now (hat hq rfl) hans.1 hans.2
      simp only [applyDifference, Call.bind_run, Call.read_run, hpending, Bool.not_true,
        Bool.false_eq_true, if_false, Call.edit_run,
        finishDifference_run dbg now hset.ready.sound.rep]
      exact hset.then_finish now
  · have hnone : (s.gettingDiffFor.contains .common || s.gettingDiffFor.contains .secondary) = false := by
      simpa using hq
    simp only [applyDifference, Call.bind_run, Call.read_run, hnone, Bool.not_false, if_true,
      Call.pure_run]
    exact Advances.quiet h h.sound rfl h.held (fun u _ _ => timesReturned_nil _)

/-! Sessions. -/

/-- What the caller does with the box. -/
inductive Act where
  | processUpdates (updates : UpdatesLike)
  | checkDeadlines
  | getDifference
  /-- The answer to a request made at a counter arrives. -/
  | applyDifference (request : Int32) (difference : Difference)
  deriving DecidableEq, Repr

/-- The box, everything it has returned, and the counters it has asked for
differences at. -/
structure Session where
  box : MessageBoxes
  returned : List Update
  requested : List Int32

def act (dbg : Bool) (x : Session) (i : Instant × Act) : Session :=
  match i.2 with
  | .processUpdates updates =>
    let r := x.box.processUpdates i.1 updates
    { x with box := r.2, returned := x.returned ++ approved r.1 }
  | .checkDeadlines => { x with box := (x.box.checkDeadlines i.1).2 }
  | .getDifference =>
    match x.box.getDifference with
    | .ok (some request) => { x with requested := x.requested ++ [request.pts] }
    | _ => x
  | .applyDifference _ difference =>
    let r := (MessageBoxes.applyDifference dbg i.1 difference).run x.box
    { x with box := r.2, returned := x.returned ++ handed r.1 }

/-- The server takes part as it should: batches are from the log, and an answer
is one to a request that was made. -/
def Log.Serves (log : Log) (x : Session) (i : Instant × Act) : Prop :=
  match i.2 with
  | .processUpdates updates => log.Supplies updates.contents
  | .checkDeadlines => True
  | .getDifference => True
  | .applyDifference request difference => request ∈ x.requested ∧ log.Answers request difference

/-- No update with a count arrives while the account is queued, and an answer
finds the counter where it was asked for. -/
def Orderly (log : Log) (x : Session) (i : Instant × Act) : Prop :=
  match i.2 with
  | .processUpdates updates => .common ∈ x.box.gettingDiffFor →
      ∀ u ∈ log.updates, 0 < u.info.count.toInt → u.update ∉ updates.contents
  | .checkDeadlines => True
  | .getDifference => True
  | .applyDifference request difference =>
    .common ∈ x.box.gettingDiffFor ∨ .secondary ∈ x.box.gettingDiffFor →
      hasCounter difference = true → counter x.box = some request

instance (log : Log) (x : Session) (i : Instant × Act) : Decidable (log.Serves x i) :=
  match i with
  | (_, .processUpdates updates) => inferInstanceAs (Decidable (log.Supplies updates.contents))
  | (_, .checkDeadlines) => isTrue trivial
  | (_, .getDifference) => isTrue trivial
  | (_, .applyDifference request difference) =>
    inferInstanceAs (Decidable (request ∈ x.requested ∧ log.Answers request difference))

instance (log : Log) (x : Session) (i : Instant × Act) : Decidable (Orderly log x i) :=
  match i with
  | (_, .processUpdates updates) =>
    inferInstanceAs (Decidable (.common ∈ x.box.gettingDiffFor →
      ∀ u ∈ log.updates, 0 < u.info.count.toInt → u.update ∉ updates.contents))
  | (_, .checkDeadlines) => isTrue trivial
  | (_, .getDifference) => isTrue trivial
  | (_, .applyDifference request difference) =>
    inferInstanceAs (Decidable
      (.common ∈ x.box.gettingDiffFor ∨ .secondary ∈ x.box.gettingDiffFor →
        hasCounter difference = true → counter x.box = some request))

/-- What has been returned lies behind the counter, and has been returned once. -/
structure Once (log : Log) (x : Session) : Prop where
  ready : Ready log x.box
  behind : ∀ u ∈ log.updates, 0 < u.info.count.toInt → 0 < timesReturned x.returned u.update →
    ∃ p, counter x.box = some p ∧ u.info.pts.toInt ≤ p.toInt
  once : ∀ u ∈ log.updates, 0 < u.info.count.toInt → timesReturned x.returned u.update ≤ 1

theorem Once.advance {log : Log} {x : Session} (h : Once log x) {s' : MessageBoxes}
    {out : List Update} (hadv : Advances log x.box s' out) :
    Once log { x with box := s', returned := x.returned ++ out } := by
  refine ⟨hadv.ready, fun u hu hpos hret => ?_, fun u hu hpos => ?_⟩
  · simp only [timesReturned_append] at hret
    by_cases hold : 0 < timesReturned x.returned u.update
    · obtain ⟨p, hp, hle⟩ := h.behind u hu hpos hold
      obtain ⟨q, hq, hforth⟩ := hadv.forwards p hp
      exact ⟨q, hq, by omega⟩
    · exact (hadv.passes u hu hpos (by omega)).2
  · simp only [timesReturned_append]
    have hold := h.once u hu hpos
    have hnew := hadv.once u hu hpos
    by_contra hc
    -- returned before, so behind the counter, and now, so ahead of it
    obtain ⟨p, hp, hle⟩ := h.behind u hu hpos (by omega)
    have hlt := (hadv.passes u hu hpos (by omega)).1 p hp
    omega

theorem act_once (dbg : Bool) {log : Log} {x : Session} (i : Instant × Act)
    (hi : log.Serves x i ∧ Orderly log x i) (h : Once log x) : Once log (act dbg x i) := by
  obtain ⟨now, a⟩ := i
  obtain ⟨hserves, horderly⟩ := hi
  cases a with
  | processUpdates updates => exact h.advance (live_advances h.ready now hserves horderly)
  | checkDeadlines =>
    obtain ⟨hcounter, hheld⟩ := checkDeadlines_common h.ready.sound.rep.sorted now
    have hadv : Advances log x.box (x.box.checkDeadlines now).2 [] :=
      Advances.quiet h.ready (h.ready.sound.checkDeadlines now) hcounter
        (fun u hu => h.ready.held u (hheld hu)) (fun u _ _ => timesReturned_nil _)
    have hstep := h.advance hadv
    rw [List.append_nil] at hstep
    exact hstep
  | getDifference =>
    unfold act
    dsimp only
    split
    · exact ⟨h.ready, h.behind, h.once⟩
    · exact h
  | applyDifference request difference =>
    exact h.advance (applyDifference_advances dbg h.ready now hserves.2 horderly)

/-- In a session in which the queued branch sees no update with a count and every
answer is applied at the counter it was asked for, no update of the account with a
count is returned twice. -/
theorem returned_once (dbg : Bool) {s : MessageBoxes} (h : Reachable dbg s) (log : Log)
    (hheld : ∀ u ∈ heldFor s .common, u ∈ log.updates)
    (hfits : ∀ p, counter s = some p → log.Fits p) (acts : List (Instant × Act))
    (hacts : Run.AllSteps (act dbg) (fun x i => log.Serves x i ∧ Orderly log x i)
      { box := s, returned := [], requested := [] } acts) :
    ∀ x ∈ Run.states (act dbg) { box := s, returned := [], requested := [] } acts,
      ∀ u ∈ log.updates, 0 < u.info.count.toInt → timesReturned x.returned u.update ≤ 1 := by
  have hstart : Once log { box := s, returned := [], requested := [] } :=
    ⟨⟨h.sound, hheld, hfits⟩, fun u _ _ hret => absurd hret (lt_irrefl 0),
      fun u _ _ => Nat.zero_le 1⟩
  intro x hx
  exact (Run.states_inv (act dbg) (fun x i hi => act_once dbg i hi) acts _ hstart hacts x hx).once

/-- The deletions at 11 and 12. -/
def deletions : Log where
  updates := [⟨.deleteMessages [] 11 1, ⟨.common, 11, 1⟩, rfl⟩,
    ⟨.deleteMessages [] 12 1, ⟨.common, 12, 1⟩, rfl⟩]
  common := by decide
  nonneg := by decide
  distinct := by decide
  inRange := by decide

/-- The answer that holds one of them. -/
def oneDeletion (pts : Int32) : Difference :=
  .difference
    { newMessages := [], newEncryptedMessages := [], otherUpdates := [.deleteMessages [] pts 1],
      chats := [], users := [], state := { pts := pts, qts := 5, date := 1, seq := 1 } }

/-- One deletion comes live, the other in an answer and then live again. -/
def noOverlap : List (Instant × Act) :=
  [(1, .processUpdates (deletion 11 1)), (2, .processUpdates (.updates .tooLong)),
   (3, .getDifference), (4, .applyDifference 11 (oneDeletion 12)),
   (5, .processUpdates (deletion 12 1))]

theorem deletions_once :
    let x := Run.final (act true) { box := atTen, returned := [], requested := [] } noOverlap
    x.returned = [.deleteMessages [] 11 1, .deleteMessages [] 12 1] ∧
    timesReturned x.returned (.deleteMessages [] 12 1) ≤ 1 := by
  refine ⟨by decide, ?_⟩
  have hfits : ∀ p, counter atTen = some p → deletions.Fits p := by
    intro p hp
    obtain rfl : 10 = p := by
      have hten : counter atTen = some 10 := by decide
      rw [hten] at hp
      exact Option.some.inj hp
    decide
  exact returned_once true atTen_reachable deletions (by decide) hfits noOverlap (by decide) _
    (Run.final_mem_states _ _ _) ⟨.deleteMessages [] 12 1, ⟨.common, 12, 1⟩, rfl⟩ (by decide)
    (by decide)

/-- A deletion that comes while the account is queued, and in the answer. -/
def overlap : List (Instant × Act) :=
  [(1, .processUpdates (.updates .tooLong)), (2, .getDifference),
   (3, .processUpdates (deletion 11 1)), (4, .applyDifference 10 (oneDeletion 11))]

/-- It is returned both times. -/
theorem returned_twice :
    Reachable true atTen ∧
    Run.AllSteps (act true) deletions.Serves { box := atTen, returned := [], requested := [] }
      overlap ∧
    ∃ u ∈ deletions.updates, 0 < u.info.count.toInt ∧
      timesReturned (Run.final (act true) { box := atTen, returned := [], requested := [] }
        overlap).returned u.update = 2 := by
  exact ⟨atTen_reachable, by decide, by decide⟩

end Ferogram.Msgbox
