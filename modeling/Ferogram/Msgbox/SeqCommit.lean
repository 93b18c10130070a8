import Ferogram.Msgbox.Deadlines
import Ferogram.Msgbox.Live

/- When `process_updates` takes over the `seq` of a container. A gap, in the
   container itself or before its `seq`, changes nothing but the account's entry:
   it is queued and what it had buffered is dropped (`tryBeginGetDiff_queued`).
   A container that is worked through is committed after the loop, if something
   was returned and no key was left with a gap. The loop keeps account of its
   updates: each was returned, was behind a counter of its key, is of a queued
   key, or is what the flag stands for (`Accounted`). So what is committed is
   accounted for without the flag.

   `date` is committed together with `seq`, but each falls back on its own
   sentinel: a short update has no `seq` and still moves `date`. -/
namespace Ferogram.Msgbox
open Ferogram.Tl MessageBoxes StableSort

variable {s : MessageBoxes}

/-! A gap. -/

/-- Forget what is buffered. -/
def LiveEntry.cleared (e : LiveEntry) : LiveEntry := { e with possibleGap := none }

/-- The keys that are queued once `key` is. -/
def queuedWith (s : MessageBoxes) (key : Key) : List Key :=
  if key ∈ s.gettingDiffFor ∨ s.entry key = none then s.gettingDiffFor
  else s.gettingDiffFor ++ [key]

theorem updateEntry_edit (s : MessageBoxes) (key : Key) (f : LiveEntry → LiveEntry) :
    (s.updateEntry key f).2 = { s with entries := SortedVec.edit LiveEntry.key key f s.entries } := by
  unfold updateEntry SortedVec.edit position
  cases SortedVec.search LiveEntry.key key s.entries <;> rfl

/-- `try_begin_get_diff` as one change of the box. A key that is queued already has
nothing buffered, so there its entry is the same with the buffer dropped. -/
theorem tryBeginGetDiff_queued (h : RepInv s) (key : Key) :
    s.tryBeginGetDiff key =
      { s with
        entries := s.entries.map (fun e => if e.key = key then e.cleared else e)
        gettingDiffFor := queuedWith s key } := by
  have hsame : (∀ e ∈ s.entries, e.key = key → e.possibleGap = none) →
      s.entries.map (fun e => if e.key = key then e.cleared else e) = s.entries := by
    intro hnone
    refine (List.map_congr_left (fun e he => ?_)).trans (List.map_id _)
    by_cases hk : e.key = key
    · have hgap := hnone e he hk
      rw [if_pos hk]
      exact congrArg (fun g => { e with possibleGap := g }) hgap.symm
    · rw [if_neg hk]
      rfl
  rw [tryBeginGetDiff_eq h.sorted.ordered, queuedWith]
  simp only [Option.isNone_iff_eq_none]
  by_cases hq : key ∈ s.gettingDiffFor
  · rw [if_pos (Or.inl hq), if_pos (Or.inl hq), hsame]
    rintro e he rfl
    obtain ⟨e', he', hgap⟩ := h.backed _ hq
    rw [entry_of_mem h.sorted he] at he'
    cases he'
    exact hgap
  · by_cases hn : s.entry key = none
    · rw [if_pos (Or.inr hn), if_pos (Or.inr hn), hsame]
      rintro e he rfl
      rw [entry_of_mem h.sorted he] at hn
      cases hn
    · have hc : ¬ (key ∈ s.gettingDiffFor ∨ s.entry key = none) := fun hc => hc.elim hq hn
      rw [if_neg hc, if_neg hc, MessageBoxes.clearGap, updateEntry_edit, SortedVec.edit_eq_map h.sorted]
      rfl

/-! The loop leaves `date` and `seq` alone. -/

/-- What a container commits. -/
def MessageBoxes.stamp (s : MessageBoxes) : Int32 × Int32 := (s.date, s.seq)

theorem setEntry_stamp (s : MessageBoxes) (e : LiveEntry) : (s.setEntry e).stamp = s.stamp := by
  rw [setEntry_eq]
  rfl

theorem resetDeadline_stamp (s : MessageBoxes) (key : Key) (deadline : Instant) :
    (s.resetDeadline key deadline).stamp = s.stamp := by
  unfold resetDeadline
  dsimp only
  rw [updateEntry_edit]
  split <;> rfl

theorem tryBeginGetDiff_stamp (h : RepInv s) (key : Key) :
    (s.tryBeginGetDiff key).stamp = s.stamp := by
  rw [tryBeginGetDiff_queued h]
  rfl

theorem channelTooLong_stamp (h : RepInv s) (deadline : Instant) (id : Int)
    (pts : Option Int32) : (s.channelTooLong deadline id pts).stamp = s.stamp := by
  unfold channelTooLong
  cases pts with
  | none => exact tryBeginGetDiff_stamp h _
  | some pts =>
    have hset : RepInv (s.setEntry (freshEntry (.channel id) pts deadline)) := h.setEntry (fun _ => rfl)
    exact (tryBeginGetDiff_stamp hset _).trans (setEntry_stamp s _)

theorem feedLive_stamp (h : RepInv s) (now deadline : Instant) (u : PtsUpdate) :
    (s.feedLive now deadline u).1.stamp = s.stamp := by
  rw [feedLive_eq h.sorted.ordered]
  exact setEntry_stamp s _

theorem processUpdate_stamp {b : Batch} (h : RepInv b.box) (now deadline : Instant) (u : Update) :
    (b.processUpdate now deadline u).box.stamp = b.box.stamp := by
  rcases update_cases u with ⟨id, pts, rfl⟩ | ⟨ht, hnone⟩ | ⟨p, rfl, ht⟩
  · exact channelTooLong_stamp h deadline id pts
  · rw [processUpdate_plain b now deadline ht hnone]
  · rw [processUpdate_pts b now deadline ht]
    unfold Batch.processPts
    split
    · exact resetDeadline_stamp b.box _ _
    · exact feedLive_stamp h now deadline p

/-! What the loop accounts for. -/

/-- A counter `key` has had: the one its entry had, or one a returned update led to. -/
def Counter (s : MessageBoxes) (result : List Update) (key : Key) (pts : Int32) : Prop :=
  (∃ e, s.entry key = some e ∧ pts = e.pts) ∨
  ∃ v : PtsUpdate, v.update ∈ result ∧ v.info.key = key ∧ pts = v.info.pts

/-- A counter of its key is past where the update starts. -/
def Duplicate (s : MessageBoxes) (result : List Update) (u : PtsUpdate) : Prop :=
  ∃ pts, Counter s result u.info.key pts ∧ ptsOrder pts u = .gt

theorem Counter.mono {r r' : List Update} (hr : ∀ x ∈ r, x ∈ r') {key : Key}
    {pts : Int32} (h : Counter s r key pts) : Counter s r' key pts :=
  h.imp_right (fun ⟨v, hv, hk, hp⟩ => ⟨v, hr _ hv, hk, hp⟩)

/-- What became of an update the loop is past. -/
def Accounted (s : MessageBoxes) (b : Batch) (u : PtsUpdate) : Prop :=
  u.update ∈ b.result ∨ Duplicate s b.result u ∨ u.info.key ∈ b.box.gettingDiffFor ∨
  b.haveUnresolvedGaps = true

/-- What only grows from one turn of the loop to the next. -/
structure Later (b b' : Batch) : Prop where
  result : ∀ x ∈ b.result, x ∈ b'.result
  queued : ∀ key ∈ b.box.gettingDiffFor, key ∈ b'.box.gettingDiffFor
  gaps : b.haveUnresolvedGaps = true → b'.haveUnresolvedGaps = true

theorem Later.refl (b : Batch) : Later b b := ⟨fun _ hx => hx, fun _ hk => hk, fun hg => hg⟩

theorem Later.trans {b₁ b₂ b₃ : Batch} (h₁ : Later b₁ b₂) (h₂ : Later b₂ b₃) : Later b₁ b₃ where
  result x hx := h₂.result x (h₁.result x hx)
  queued key hk := h₂.queued key (h₁.queued key hk)
  gaps hg := h₂.gaps (h₁.gaps hg)

theorem Accounted.later {b b' : Batch} (hb : Later b b') {u : PtsUpdate}
    (h : Accounted s b u) : Accounted s b' u := by
  rcases h with h | ⟨pts, hc, hord⟩ | h | h
  · exact Or.inl (hb.result _ h)
  · exact Or.inr (Or.inl ⟨pts, hc.mono hb.result, hord⟩)
  · exact Or.inr (Or.inr (Or.inl (hb.queued _ h)))
  · exact Or.inr (Or.inr (Or.inr (hb.gaps h)))

/-- What holds between two turns of the loop over a container that found the box `s`. -/
structure Tracked (s : MessageBoxes) (b : Batch) : Prop where
  sound : Sound b.box
  stamp : b.box.stamp = s.stamp
  counter : ∀ key e, key ∉ b.box.gettingDiffFor → b.box.entry key = some e →
    Counter s b.result key e.pts

/-- An update starts where the entry it creates stands. -/
theorem ptsOrder_fresh (u : PtsUpdate) : ptsOrder (u.info.pts - u.info.count) u = .eq :=
  if_pos (Int32.sub_add_cancel _ _)

theorem feed_gapDeadline (e : LiveEntry) (now deadline : Instant) (u : PtsUpdate)
    (h : (e.feed now deadline u).1.held ≠ []) : (e.feed now deadline u).2.gapDeadline.isSome = true := by
  have hgap : (e.feed now deadline u).1.possibleGap ≠ none :=
    fun hn => h ((feed_possibleGap e now deadline u).mp hn)
  change (e.accept now deadline u).1.drainGap.2.gapDeadline.isSome = true
  rw [drainGap_gapDeadline, Option.isSome_map, Option.isSome_iff_ne_none]
  exact hgap

/-- What the live path releases is of the key. -/
theorem released_key (h : Sound s) (now deadline : Instant) {u v : PtsUpdate}
    (hv : v ∈ (feedBuffer (liveEntry s deadline u).buffer u).2) : v.info.key = u.info.key := by
  rcases @feed_mem (liveEntry s deadline u) now deadline u v (Or.inl hv) with rfl | hv
  · rfl
  · rw [liveEntry_keyed h deadline u v hv, liveEntry_key h.rep.sorted.ordered]

/-- The live path of an update leaves its key at a counter it has had, and accounts
for the update. -/
theorem Tracked.feed {b : Batch} (h : Tracked s b) (now deadline : Instant)
    {u : PtsUpdate} (hq : u.info.key ∉ b.box.gettingDiffFor) :
    let r := (liveEntry b.box deadline u).feed now deadline u
    Counter s (b.result ++ r.2.delivered) u.info.key r.1.pts ∧
    (u.update ∈ r.2.delivered ∨ Duplicate s (b.result ++ r.2.delivered) u ∨
      r.2.gapDeadline.isSome = true) := by
  intro r
  let e := liveEntry b.box deadline u
  obtain ⟨hbuf, hout⟩ := feed_buffer e now deadline u
  have hpos : r.1.pts = (feedBuffer e.buffer u).1.pos := by rw [← hbuf]; rfl
  have hheld : r.1.held = (feedBuffer e.buffer u).1.held := by rw [← hbuf]; rfl
  have hmem : ∀ v ∈ (feedBuffer e.buffer u).2, v.update ∈ r.2.delivered := by
    intro v hv
    rw [hout]
    exact List.mem_map.mpr ⟨v, hv, rfl⟩
  have hreleased : ∀ v ∈ (feedBuffer e.buffer u).2,
      Counter s (b.result ++ r.2.delivered) u.info.key (ptsAfter v) := fun v hv =>
    Or.inr ⟨v, List.mem_append_right _ (hmem v hv), released_key h.sound now deadline hv, rfl⟩
  rw [hpos]
  cases he : b.box.entry u.info.key with
  | none =>
    -- the update creates the entry, and is next there
    have hnext : ptsOrder e.buffer.pos u = .eq := by
      change ptsOrder (liveEntry b.box deadline u).pts u = .eq
      rw [liveEntry, he]
      exact ptsOrder_fresh u
    have hfeed : u ∈ (feedBuffer e.buffer u).2 ∧
        ∃ v ∈ (feedBuffer e.buffer u).2, (feedBuffer e.buffer u).1.pos = ptsAfter v :=
      Reorder.feed_of_next hnext
    obtain ⟨hu, v, hv, hend⟩ := hfeed
    rw [hend]
    exact ⟨hreleased v hv, Or.inl (hmem u hu)⟩
  | some e' =>
    have hlive : e = e' := by
      change liveEntry b.box deadline u = e'
      rw [liveEntry, he]
      rfl
    have hreached : ∀ q, Reorder.Reached ptsAfter e.buffer.pos (feedBuffer e.buffer u).2 q →
        Counter s (b.result ++ r.2.delivered) u.info.key q := by
      rintro q (rfl | ⟨v, hv, rfl⟩)
      · have hc := h.counter u.info.key e' hq he
        rw [← hlive] at hc
        exact hc.mono (fun x hx => List.mem_append_left _ hx)
      · exact hreleased v hv
    have hlinked : Reorder.Linked ptsOrder ptsAfter e.buffer.pos (feedBuffer e.buffer u).2
        (feedBuffer e.buffer u).1.pos := Reorder.feed_linked e.buffer u
    refine ⟨hreached _ hlinked.leads, ?_⟩
    have hcases : u ∈ (feedBuffer e.buffer u).2 ∨
        (∃ q, Reorder.Reached ptsAfter e.buffer.pos (feedBuffer e.buffer u).2 q ∧ ptsOrder q u = .gt) ∨
        u ∈ (feedBuffer e.buffer u).1.held := Reorder.feed_cases gapStack_perm e.buffer u
    rcases hcases with hu | ⟨q, hreach, hord⟩ | hu
    · exact Or.inl (hmem u hu)
    · exact Or.inr (Or.inl ⟨q, hreached q hreach, hord⟩)
    · -- still buffered, so the gap is open
      rw [← hheld] at hu
      exact Or.inr (Or.inr (feed_gapDeadline e now deadline u (List.ne_nil_of_mem hu)))
/-- An entry is the one it was, or its counter is accounted for. -/
theorem Tracked.next {b b' : Batch} (h : Tracked s b) (hsound : Sound b'.box)
    (hstamp : b'.box.stamp = b.box.stamp) (hlater : Later b b')
    (hentry : ∀ key e, key ∉ b'.box.gettingDiffFor → b'.box.entry key = some e →
      b.box.entry key = some e ∨ Counter s b'.result key e.pts) : Tracked s b' where
  sound := hsound
  stamp := hstamp.trans h.stamp
  counter key e hq he := by
    rcases hentry key e hq he with hold | hc
    · exact (h.counter key e (fun hb => hq (hlater.queued key hb)) hold).mono hlater.result
    · exact hc

/-- After an `updateChannelTooLong` the channel is queued, unless there is no entry for it. -/
theorem View.tooLong_queued (v : View) (key : Key) (deadline : Instant) (pts : Option Int32) :
    (v.queued = true ∨ pts.isSome = true → (v.tooLong key deadline pts).queued = true) ∧
    ((v.tooLong key deadline pts).queued = false → (v.tooLong key deadline pts).entry = v.entry) := by
  obtain ⟨entry, queued, out⟩ := v
  cases queued <;> cases pts <;> cases entry <;> simp [View.tooLong, View.tryBegin]

theorem channelTooLong_entry (hs : s.Sorted) (deadline : Instant) (id : Int)
    (pts : Option Int32) (key : Key) :
    (key ∈ s.gettingDiffFor ∨ key = .channel id ∧ pts.isSome = true →
      key ∈ (s.channelTooLong deadline id pts).gettingDiffFor) ∧
    (key ∉ (s.channelTooLong deadline id pts).gettingDiffFor →
      (s.channelTooLong deadline id pts).entry key = s.entry key) := by
  have hview := channelTooLong_view hs deadline id pts key []
  have hentry : (s.channelTooLong deadline id pts).entry key = _ := congrArg View.entry hview
  have hqueued : (s.channelTooLong deadline id pts).gettingDiffFor.contains key = _ :=
    congrArg View.queued hview
  simp only [← List.contains_iff_mem]
  rw [hentry, hqueued]
  by_cases hk : key = .channel id
  · obtain ⟨hto, hout⟩ := View.tooLong_queued (s.view key []) key deadline pts
    simp only [if_pos hk]
    exact ⟨fun h => hto (h.imp_right And.right), fun hq => hout (Bool.not_eq_true _ ▸ hq)⟩
  · simp only [if_neg hk]
    exact ⟨fun h => h.elim (fun hq => hq) (fun h => absurd h.1 hk), fun _ => rfl⟩

/-- What one turn of the loop on `u` makes of `b`. -/
structure Turn (s : MessageBoxes) (b : Batch) (u : Update) (b' : Batch) : Prop where
  tracked : Tracked s b'
  later : Later b b'
  accounted : ∀ p : PtsUpdate, p.update = u → Accounted s b' p

section Turns
variable {b : Batch} (h : Tracked s b) (now : Instant)
include h

theorem Tracked.tooLong (id : Int) (pts : Option Int32) : Turn s b (.channelTooLong id pts)
    (b.processUpdate now (nextUpdatesDeadline now) (.channelTooLong id pts)) := by
  have hrep := h.sound.rep
  have hlong := channelTooLong_entry hrep.sorted (nextUpdatesDeadline now) id pts
  have hlater : Later b (b.processUpdate now (nextUpdatesDeadline now) (.channelTooLong id pts)) :=
    ⟨fun _ hx => hx, fun key hk => (hlong key).1 (Or.inl hk), fun hg => hg⟩
  refine ⟨h.next ((processUpdate_moves b _).sound h.sound) (processUpdate_stamp hrep now _ _) hlater
    (fun key e hq he => Or.inl ((hlong key).2 hq ▸ he)), hlater, fun p hp => ?_⟩
  -- it has a counter of its own, so there is an entry to queue
  have hkey := updateKey_of_fromUpdate p.from_update
  have hraw := (fromUpdate_eq_some.mp p.from_update).1
  rw [hp] at hkey hraw
  refine Or.inr (Or.inr (Or.inl ((hlong p.info.key).1 (Or.inr ⟨(Option.some.inj hkey).symm, ?_⟩))))
  cases pts with
  | none => cases hraw
  | some _ => rfl

theorem Tracked.plain {u : Update} (ht : NotTooLong u) (hnone : PtsInfo.fromUpdate u = none) :
    Turn s b u (b.processUpdate now (nextUpdatesDeadline now) u) := by
  rw [processUpdate_plain b now _ ht hnone]
  have hlater : Later b { b with result := b.result ++ [u] } :=
    ⟨fun _ hx => List.mem_append_left _ hx, fun _ hk => hk, fun hg => hg⟩
  refine ⟨h.next h.sound rfl hlater (fun key e _ he => Or.inl he), hlater, fun p hp => ?_⟩
  rw [← hp, p.from_update] at hnone
  cases hnone

/-- An update of a queued key is returned as it is. -/
theorem Tracked.queued {p : PtsUpdate} (hq : p.info.key ∈ b.box.gettingDiffFor) :
    Turn s b p.update (b.processPts now (nextUpdatesDeadline now) p) := by
  have hrep := h.sound.rep
  have hpts : b.processPts now (nextUpdatesDeadline now) p =
      { b with box := b.box.feedQueued now p.info.key, result := b.result ++ [p.update] } := by
    rw [Batch.processPts, if_pos (List.contains_iff_mem.mpr hq)]
  have hlater : Later b (b.processPts now (nextUpdatesDeadline now) p) := by
    rw [hpts]
    exact ⟨fun _ hx => List.mem_append_left _ hx,
      fun _ hk => by rwa [feedQueued, resetDeadline_gettingDiffFor], fun hg => hg⟩
  refine ⟨h.next ((processPts_moves b p).sound h.sound) ?_ hlater (fun key e hk he => Or.inl ?_), hlater,
    fun p' hp => Or.inl ?_⟩
  · rw [hpts]
    exact resetDeadline_stamp b.box _ _
  · -- the entry that is touched is of a queued key
    have hne : key ≠ p.info.key := fun heq => hk (hlater.queued key (heq ▸ hq))
    rw [hpts] at he
    change (b.box.resetDeadline p.info.key _).entry key = some e at he
    rwa [entry_resetDeadline hrep.sorted, if_neg hne] at he
  · rw [hpts, hp]
    exact List.mem_append_right _ (by simp)

/-- An update of a key that is not queued goes through the buffer of its key. -/
theorem Tracked.live {p : PtsUpdate} (hq : p.info.key ∉ b.box.gettingDiffFor) :
    Turn s b p.update (b.processPts now (nextUpdatesDeadline now) p) := by
  have hrep := h.sound.rep
  let r := (liveEntry b.box (nextUpdatesDeadline now) p).feed now (nextUpdatesDeadline now) p
  have hkey : r.1.key = p.info.key := by rw [feed_key, liveEntry_key hrep.sorted.ordered]
  have hpts : b.processPts now (nextUpdatesDeadline now) p =
      { box := { b.box.setEntry r.1 with
          nextDeadline := min b.box.nextDeadline (r.2.gapDeadline.getD (nextUpdatesDeadline now)) }
        result := b.result ++ r.2.delivered
        haveUnresolvedGaps := b.haveUnresolvedGaps || r.2.gapDeadline.isSome } := by
    rw [Batch.processPts, if_neg (by rwa [List.contains_iff_mem]), feedLive_eq hrep.sorted.ordered]
  obtain ⟨hcounter, haccount⟩ := h.feed now (nextUpdatesDeadline now) hq
  have hlater : Later b (b.processPts now (nextUpdatesDeadline now) p) := by
    rw [hpts]
    exact ⟨fun _ hx => List.mem_append_left _ hx, fun _ hk => by simpa using hk, fun hg => by simp [hg]⟩
  refine ⟨h.next ((processPts_moves b p).sound h.sound) ?_ hlater (fun key e _ he => ?_), hlater,
    fun p' hp => ?_⟩
  · rw [hpts]
    exact setEntry_stamp b.box _
  · rw [hpts] at he ⊢
    change (b.box.setEntry r.1).entry key = some e at he
    rw [entry_setEntry hrep.sorted, hkey] at he
    split at he
    · next heq =>
      cases he
      exact Or.inr (heq ▸ hcounter)
    · exact Or.inl he
  · rw [PtsUpdate.eq_of_update hp, hpts]
    rcases haccount with hu | hdup | hgap
    · exact Or.inl (List.mem_append_right _ hu)
    · exact Or.inr (Or.inl hdup)
    · have hflag : (b.haveUnresolvedGaps || r.2.gapDeadline.isSome) = true := by
        rw [show r.2.gapDeadline.isSome = true from hgap, Bool.or_true]
      exact Or.inr (Or.inr (Or.inr hflag))

/-- One turn of the loop keeps track, and accounts for its update. -/
theorem Tracked.step (u : Update) : Turn s b u (b.processUpdate now (nextUpdatesDeadline now) u) := by
  rcases update_cases u with ⟨id, pts, rfl⟩ | ⟨ht, hnone⟩ | ⟨p, rfl, ht⟩
  · exact h.tooLong now id pts
  · exact h.plain now ht hnone
  · rw [processUpdate_pts b now _ ht]
    by_cases hq : p.info.key ∈ b.box.gettingDiffFor
    · exact h.queued now hq
    · exact h.live now hq

end Turns

/-- The whole loop. -/
theorem Tracked.loop (now : Instant) : ∀ (us : List Update) {b : Batch}, Tracked s b →
    let b' := us.foldl (Batch.processUpdate now (nextUpdatesDeadline now)) b
    Tracked s b' ∧ Later b b' ∧ ∀ p : PtsUpdate, p.update ∈ us → Accounted s b' p
  | [], b, h => ⟨h, .refl b, by simp⟩
  | u :: us, b, h => by
    have hturn := h.step now u
    obtain ⟨htracked, hlater, hall⟩ := Tracked.loop now us hturn.tracked
    refine ⟨htracked, hturn.later.trans hlater, fun p hp => ?_⟩
    rcases List.mem_cons.mp hp with hp | hp
    · exact (hturn.accounted p hp).later hlater
    · exact hall p hp

theorem processAll_tracked (h : Sound s) (now : Instant) (updates : List Update) :
    Tracked s (s.processAll now updates) ∧
    ∀ p : PtsUpdate, p.update ∈ updates → Accounted s (s.processAll now updates) p := by
  have hstart : Tracked s { box := s, result := [], haveUnresolvedGaps := false } :=
    ⟨h, rfl, fun key e _ he => Or.inl ⟨e, he, rfl⟩⟩
  obtain ⟨htracked, -, hall⟩ := hstart.loop now (sortByKey updateSortKey updates)
  exact ⟨htracked, fun p hp => hall p ((mem_sortByKey _).mpr hp)⟩

/-- A container that passes the `seq` check is not committed, or each of its updates was
returned, was a duplicate, or is left to a difference. -/
theorem processCombined_commit (h : Sound s) (now : Instant) (c : UpdatesCombined) :
    let r := s.processCombined now c
    r.2.stamp = s.stamp ∨
    r.2.stamp = (if c.date = NO_DATE then s.date else c.date, if c.seq = NO_SEQ then s.seq else c.seq) ∧
      ∀ u : PtsUpdate, u.update ∈ c.updates →
        u.update ∈ r.1.1 ∨ Duplicate s r.1.1 u ∨ u.info.key ∈ r.2.gettingDiffFor := by
  obtain ⟨htracked, hall⟩ := processAll_tracked h now c.updates
  unfold processCombined
  dsimp only
  split
  · next hcommit =>
    simp only [Bool.and_eq_true, Bool.not_eq_true'] at hcommit
    refine Or.inr ⟨rfl, fun u hu => ?_⟩
    rcases hall u hu with hret | hdup | hq | hgaps
    · exact Or.inl hret
    · exact Or.inr (Or.inl hdup)
    · exact Or.inr (Or.inr hq)
    · rw [hcommit.2] at hgaps
      cases hgaps
  · exact Or.inl htracked.stamp

/-- In every reachable box, a gap changes nothing but the account's entry and the queue;
and a container that is not a gap leaves `date` and `seq` as they are, or both become the
container's where it has them, and each of its updates was returned, was a duplicate,
or is of a key a difference is fetched for. -/
theorem processUpdates_commits (dbg : Bool) {s : MessageBoxes} (h : Reachable dbg s) (now : Instant)
    (updates : UpdatesLike) :
    (∀ s', s.processUpdates now updates = (.error .gap, s') →
      s' = { s with
        entries := s.entries.map (fun e => if e.key = .common then e.cleared else e)
        gettingDiffFor := queuedWith s .common }) ∧
    (∀ result users chats s', s.processUpdates now updates = (.ok (result, users, chats), s') →
      ∃ c, adapt updates = .ok c ∧
        ((s'.date = s.date ∧ s'.seq = s.seq) ∨
          s'.date = (if c.date = NO_DATE then s.date else c.date) ∧
          s'.seq = (if c.seq = NO_SEQ then s.seq else c.seq) ∧
          ∀ u : PtsUpdate, u.update ∈ c.updates →
            u.update ∈ result ∨ Duplicate s result u ∨ u.info.key ∈ s'.gettingDiffFor)) := by
  have hgap := tryBeginGetDiff_queued h.sound.rep .common
  unfold processUpdates
  cases hb : adapt updates with
  | error g =>
    refine ⟨fun s' hs' => ?_, fun result users chats s' hs' => by cases hs'⟩
    cases hs'
    exact hgap
  | ok c =>
    dsimp only
    split
    · -- an old container
      refine ⟨fun s' hs' => (by cases hs'), fun result users chats s' hs' => ?_⟩
      cases hs'
      exact ⟨c, rfl, Or.inl ⟨rfl, rfl⟩⟩
    · split
      · -- a gap before it
        refine ⟨fun s' hs' => ?_, fun result users chats s' hs' => by cases hs'⟩
        cases hs'
        exact hgap
      · -- the next container, or one without a `seq`
        refine ⟨fun s' hs' => (by cases hs'), fun result users chats s' hs' => ⟨c, rfl, ?_⟩⟩
        have hcommit := processCombined_commit h.sound now c
        obtain ⟨hr, rfl⟩ : (s.processCombined now c).1 = (result, users, chats) ∧
            (s.processCombined now c).2 = s' := by
          rw [Prod.mk.injEq, Except.ok.injEq] at hs'
          exact hs'
        simp only [hr] at hcommit
        rcases hcommit with hsame | ⟨hstamp, hall⟩
        · exact Or.inl ⟨congrArg Prod.fst hsame, congrArg Prod.snd hsame⟩
        · exact Or.inr ⟨congrArg Prod.fst hstamp, congrArg Prod.snd hstamp, hall⟩

/-- A box of an account at `seq` 1 that tracks nothing yet. -/
def quiet : Start := .load 0 { pts := 0, qts := 0, date := 1, seq := 1, channels := [] }

theorem quiet_reachable : Reachable true quiet.box := ⟨quiet, [], List.nodup_nil, trivial, rfl⟩

/-- Two deletions, in the container that is next. -/
def nextContainer : UpdatesCombined :=
  { updates := [.deleteMessages [7] 4 1, .deleteMessages [8] 5 1], users := [], chats := [], date := 9,
    seqStart := 2, seq := 2 }

theorem nextContainer_committed :
    let r := quiet.box.processUpdates 1 (.updates (.combined nextContainer))
    r.2.seq = 2 ∧ ∀ u : PtsUpdate, u.update ∈ nextContainer.updates →
      u.update ∈ approved r.1 ∨ Duplicate quiet.box (approved r.1) u ∨ u.info.key ∈ r.2.gettingDiffFor := by
  obtain ⟨c, hc, h⟩ := (processUpdates_commits true quiet_reachable 1 (.updates (.combined nextContainer))).2
    nextContainer.updates [] [] _ (by rfl)
  cases hc
  refine ⟨by decide, ?_⟩
  rcases h with h | h
  · exact absurd h.2 (by decide)
  · exact h.2.2

/-- A short update has a `date` and no `seq`. -/
theorem short_moves_date :
    let r := quiet.box.processUpdates 1 (.updates (.updateShort { update := .other [], date := 9 }))
    Reachable true quiet.box ∧ r.1 = .ok ([.other []], [], []) ∧ r.2.seq = quiet.box.seq ∧
    r.2.date ≠ quiet.box.date :=
  ⟨quiet_reachable, by decide, by decide, by decide⟩

end Ferogram.Msgbox
