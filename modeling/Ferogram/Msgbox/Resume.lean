import Ferogram.Msgbox.Channels

/- Where `updates.getChannelDifference` resumes. For one channel, the updates
   delivered and the differences applied make up a chain of counters, each going on
   where the one before it ends. A request should start at the end of that chain:
   past it, updates are skipped; before it, they come twice.

   The live path and the differences keep the counter of the entry at the end of
   the chain. Two branches of `process_updates` do not: `updateChannelTooLong`
   replaces the entry of a channel by the counter it carries, and an update of a
   queued channel is returned although the counter does not move. An answer with a
   negative timeout moves the counter and is then lost to a panic. In a run with none
   of these for the channel, every request starts at the end of its chain
   (`request_resumes`). -/
namespace Ferogram.Msgbox
open Ferogram.Tl MessageBoxes StableSort

variable {s : MessageBoxes}

/-! The chain. -/

/-- One more update is delivered. The first one begins the chain. -/
def extend (chain : Option Int32) (update : Update) : Option Int32 :=
  match PtsInfo.fromUpdate update, chain with
  | none, chain => chain
  | some info, none => some info.pts
  | some info, some pts => if pts + info.count = info.pts then some info.pts else some pts

/-- A channel nothing is known of is followed from the counter the server names. -/
def adopt (id : Int) (chain : Option Int32) : Update → Option Int32
  | .channelTooLong id' (some pts) => if id' = id then chain.or (some pts) else chain
  | _ => chain

/-- A turn of the loop of `process_updates`, and the end of the chain of a channel
after what the turn has returned. -/
def follow (id : Int) (now : Instant) (x : Batch × Option Int32) (u : Update) :
    Batch × Option Int32 :=
  let b := x.1.processUpdate now (nextUpdatesDeadline now) u
  let returned := (b.result.drop x.1.result.length).filter (belongsTo (.channel id))
  (b, returned.foldl extend (adopt id x.2 u))

/-- The loop before its first turn. -/
def loopStart (s : MessageBoxes) : Batch := { box := s, result := [], haveUnresolvedGaps := false }

/-- The end of the chain after the loop over a batch. -/
def followed (s : MessageBoxes) (now : Instant) (id : Int) (chain : Option Int32)
    (updates : List Update) : Option Int32 :=
  (Run.final (follow id now) (loopStart s, chain) (sortByKey updateSortKey updates)).2

/-- `updateChannelTooLong` moves the counter of a channel that has one. -/
def overwrites (s : MessageBoxes) (id : Int) : Update → Bool
  | .channelTooLong id' (some pts) =>
    id' = id && (s.entry (.channel id)).any (fun e => e.pts ≠ pts)
  | _ => false

/-- An update that is ahead of the counter of a queued channel, or leads on from it,
is returned past the counter. -/
def bypasses (s : MessageBoxes) (id : Int) : Update → Bool
  | .channelTooLong _ _ => false
  | u =>
    (PtsInfo.fromUpdate u).any (fun info =>
      info.key = .channel id && s.gettingDiffFor.contains (.channel id) &&
      (s.entry (.channel id)).any (fun e =>
        e.pts < info.pts || (e.pts + info.count = info.pts && info.pts ≠ e.pts)))

/-- No turn of the loop over the updates takes one of the two branches for the
channel. -/
def Undiverted (s : MessageBoxes) (now : Instant) (id : Int) (updates : List Update) : Prop :=
  Run.AllSteps (Batch.processUpdate now (nextUpdatesDeadline now))
    (fun b u => overwrites b.box id u = false ∧ bypasses b.box id u = false) (loopStart s)
    (sortByKey updateSortKey updates)

instance (s : MessageBoxes) (now : Instant) (id : Int) (updates : List Update) :
    Decidable (Undiverted s now id updates) :=
  inferInstanceAs (Decidable (Run.AllSteps _ _ _ _))

/-- The counter of a channel. -/
def channelPts (s : MessageBoxes) (id : Int) : Option Int32 :=
  (s.entry (.channel id)).map LiveEntry.pts

/-! One turn. -/

theorem extend_pts (u : PtsUpdate) (chain : Option Int32) :
    extend chain u.update = match chain with
      | none => some u.info.pts
      | some pts => if pts + u.info.count = u.info.pts then some u.info.pts else some pts := by
  unfold extend
  rw [u.from_update]
  cases chain <;> rfl

/-- Linked updates carry the chain on. -/
theorem extend_linked : ∀ {l : List PtsUpdate} {p q : Int32},
    Reorder.Linked ptsOrder ptsAfter p l q →
    (l.map PtsUpdate.update).foldl extend (some p) = some q
  | [], _, _, h => by
    cases h
    rfl
  | u :: l, p, q, h => by
    rw [List.map_cons, List.foldl_cons, extend_pts]
    simp only [if_pos (ptsOrder_eq.mp h.1)]
    exact extend_linked h.2

/-- The live path keeps the counter at the end of the chain. -/
theorem extend_feed (e : LiveEntry) (now deadline : Instant) (u : PtsUpdate) :
    (e.feed now deadline u).2.delivered.foldl extend (some e.pts) =
      some (e.feed now deadline u).1.pts := by
  obtain ⟨hbuf, hout⟩ := feed_buffer e now deadline u
  have hlinked : Reorder.Linked ptsOrder ptsAfter e.buffer.pos (feedBuffer e.buffer u).2
      (feedBuffer e.buffer u).1.pos := Reorder.feed_linked e.buffer u
  have hpos : (e.feed now deadline u).1.pts = (feedBuffer e.buffer u).1.pos :=
    congrArg Reorder.Buffer.pos hbuf
  rw [hout, hpos]
  exact extend_linked hlinked

/-- So it does for a channel that is seen for the first time. -/
theorem extend_feed_fresh (key : Key) (now deadline : Instant) (u : PtsUpdate) :
    let e := freshEntry key (u.info.pts - u.info.count) deadline
    (e.feed now deadline u).2.delivered.foldl extend none = some (e.feed now deadline u).1.pts := by
  intro e
  have hnext : e.pts + u.info.count = u.info.pts := Int32.sub_add_cancel _ _
  have hfeed := extend_feed e now deadline u
  -- the update itself is delivered first, and begins the chain or carries it on alike
  have hfirst : ∃ rest, (e.feed now deadline u).2.delivered = u.update :: rest := by
    simp [LiveEntry.feed, LiveEntry.accept, hnext]
  obtain ⟨rest, hrest⟩ := hfirst
  rw [hrest, List.foldl_cons, extend_pts] at hfeed ⊢
  simp only [if_pos hnext] at hfeed
  exact hfeed

theorem extend_feed_getD (o : Option LiveEntry) {key : Key} (now deadline : Instant)
    (u : PtsUpdate) :
    let e := o.getD (freshEntry key (u.info.pts - u.info.count) deadline)
    (e.feed now deadline u).2.delivered.foldl extend (o.map LiveEntry.pts) =
      some (e.feed now deadline u).1.pts := by
  cases o with
  | none => exact extend_feed_fresh key now deadline u
  | some e => exact extend_feed e now deadline u

/-- `updateChannelTooLong` sets the counter it carries, if it carries one. -/
theorem View.tooLong_pts (v : View) (key : Key) (deadline : Instant) (pts : Option Int32) :
    (v.tooLong key deadline pts).entry.map LiveEntry.pts =
      pts.or (v.entry.map LiveEntry.pts) := by
  obtain ⟨entry, queued, out⟩ := v
  cases queued <;> cases pts <;> cases entry <;> rfl

theorem adopt_notTooLong (id : Int) (chain : Option Int32) {u : Update} (ht : NotTooLong u) :
    adopt id chain u = chain := by
  unfold adopt
  split
  · exact absurd rfl (ht _ _)
  · rfl

/-- An update that does not bypass the counter of a queued channel does not carry
the chain on from there. -/
theorem extend_of_queued {id : Int} {e : LiveEntry}
    (he : s.entry (.channel id) = some e) (hq : .channel id ∈ s.gettingDiffFor) {u : PtsUpdate}
    (hkey : u.info.key = .channel id) (ht : NotTooLong u.update)
    (hby : bypasses s id u.update = false) : extend (some e.pts) u.update = some e.pts := by
  have hany : (PtsInfo.fromUpdate u.update).any (fun info =>
      info.key = .channel id && s.gettingDiffFor.contains (.channel id) &&
      (s.entry (.channel id)).any (fun e =>
        e.pts < info.pts || (e.pts + info.count = info.pts && info.pts ≠ e.pts))) = false := by
    unfold bypasses at hby
    split at hby
    · next heq => exact absurd heq (ht _ _)
    · exact hby
  rw [u.from_update, he] at hany
  simp only [Option.any_some, hkey, decide_true, List.contains_iff_mem.mpr hq, Bool.true_and,
    Bool.or_eq_false_iff, Bool.and_eq_false_iff, decide_eq_false_iff_not, not_not] at hany
  rw [extend_pts]
  simp only
  split
  · next hnext =>
    rcases hany.2 with hne | heq
    · exact absurd hnext hne
    · rw [heq]
  · rfl

section Turn
variable {b : Batch} (h : Sound b.box) {id : Int} (now : Instant)
include h

/-- A turn on an update of another key is nothing to the channel. -/
theorem follow_other {u : Update} (hu : belongsTo (.channel id) u = false) (chain : Option Int32) :
    channelPts (follow id now (b, chain) u).1.box id = channelPts b.box id ∧
    (follow id now (b, chain) u).2 = chain := by
  have hview := processUpdate_other h now (nextUpdatesDeadline now) hu
  obtain ⟨l, hl, hkeys⟩ := processUpdate_result h now (nextUpdatesDeadline now) u
  have hnone : l.filter (belongsTo (.channel id)) = [] := by
    rw [List.filter_eq_nil_iff]
    intro x hx
    simp only [belongsTo] at hu ⊢
    rw [hkeys x hx, hu]
    exact Bool.false_ne_true
  have hadopt : adopt id chain u = chain := by
    unfold adopt
    split
    · next id' pts =>
      refine if_neg (fun hid => ?_)
      simp [belongsTo, updateKey, hid] at hu
    · rfl
  refine ⟨congrArg (Option.map LiveEntry.pts) (congrArg View.entry hview), ?_⟩
  simp only [follow, hl, List.drop_left, hnone, hadopt]
  rfl

/-- A turn on `updateChannelTooLong` that does not move the counter. -/
theorem follow_tooLong {pts : Option Int32}
    (hover : overwrites b.box id (.channelTooLong id pts) = false) :
    let y := follow id now (b, channelPts b.box id) (.channelTooLong id pts)
    channelPts y.1.box id = y.2 ∧
      (.channel id ∈ b.box.gettingDiffFor → y.2 = channelPts b.box id) := by
  intro y
  have hview : y.1.box.view (.channel id) [] =
      (b.box.view (.channel id) []).tooLong (.channel id) (nextUpdatesDeadline now) pts := by
    change (b.box.channelTooLong _ id pts).view _ _ = _
    rw [channelTooLong_view h.rep.sorted, if_pos rfl]
  have hchain : y.2 = adopt id (channelPts b.box id) (.channelTooLong id pts) := by
    have hres : (b.processUpdate now (nextUpdatesDeadline now) (.channelTooLong id pts)).result =
        b.result := rfl
    simp only [y, follow, hres, List.drop_length, List.filter_nil, List.foldl_nil]
  have hentry : channelPts y.1.box id = pts.or (channelPts b.box id) := by
    have hv := congrArg (Option.map LiveEntry.pts) (congrArg View.entry hview)
    rw [View.tooLong_pts] at hv
    exact hv
  rw [hchain, hentry]
  cases pts with
  | none => exact ⟨rfl, fun _ => rfl⟩
  | some p =>
    simp only [adopt, if_true, Option.or_some]
    cases hpts : channelPts b.box id with
    | none =>
      refine ⟨rfl, fun hq => ?_⟩
      -- a queued channel has an entry
      obtain ⟨e, he, -⟩ := h.rep.backed _ hq
      rw [channelPts, he] at hpts
      cases hpts
    | some q =>
      obtain ⟨e, he, rfl⟩ := Option.map_eq_some_iff.mp hpts
      have hsame : e.pts = p := by simpa [overwrites, he] using hover
      exact ⟨by rw [hsame]; rfl, fun _ => rfl⟩

/-- A turn on an update of the channel that is not returned past its counter. -/
theorem follow_pts {u : PtsUpdate} (hkey : u.info.key = .channel id) (ht : NotTooLong u.update)
    (hby : bypasses b.box id u.update = false) :
    let y := follow id now (b, channelPts b.box id) u.update
    channelPts y.1.box id = y.2 ∧
      (.channel id ∈ b.box.gettingDiffFor → y.2 = channelPts b.box id) := by
  intro y
  have hself : belongsTo (.channel id) u.update = true := by simp [belongsTo_ptsUpdate, hkey]
  have hturn : y.1 = b.processPts now (nextUpdatesDeadline now) u :=
    processUpdate_pts b now _ ht
  have hview : y.1.view (.channel id) = (b.view (.channel id)).pts now (nextUpdatesDeadline now) u := by
    rw [hturn, ← hkey]
    exact processPts_own h now _ u
  have hentry : channelPts y.1.box id =
      ((b.view (.channel id)).pts now (nextUpdatesDeadline now) u).entry.map LiveEntry.pts :=
    congrArg (Option.map LiveEntry.pts) (congrArg View.entry hview)
  have hchain : y.2 = ((y.1.result.drop b.result.length).filter
      (belongsTo (.channel id))).foldl extend (channelPts b.box id) := by
    rw [← adopt_notTooLong id (channelPts b.box id) ht]
    rfl
  rw [hentry, hchain, hturn]
  unfold Batch.processPts View.pts
  by_cases hq : .channel id ∈ b.box.gettingDiffFor
  · -- the update is returned and the counter stays
    obtain ⟨e, he, -⟩ := h.rep.backed _ hq
    have hpts : channelPts b.box id = some e.pts := by rw [channelPts, he]; rfl
    have hcontains : b.box.gettingDiffFor.contains u.info.key = true := by
      rw [hkey]
      exact List.contains_iff_mem.mpr hq
    have hqv : (b.view (.channel id)).queued = true := List.contains_iff_mem.mpr hq
    have hev : (b.view (.channel id)).entry = some e := he
    rw [if_pos hcontains, if_pos hqv]
    simp only [List.drop_left, List.filter_cons_of_pos hself, List.filter_nil, List.foldl_cons,
      List.foldl_nil, hpts, extend_of_queued he hq hkey ht hby, hev, Option.map_some]
    exact ⟨trivial, fun _ => trivial⟩
  · -- what the live path delivers carries the chain on to the counter
    have hcontains : ¬ b.box.gettingDiffFor.contains u.info.key = true := by
      rw [hkey]
      exact fun hc => hq (List.contains_iff_mem.mp hc)
    have hqv : ¬ (b.view (.channel id)).queued = true := fun hc => hq (List.contains_iff_mem.mp hc)
    rw [if_neg hcontains, if_neg hqv]
    have hall : (b.box.feedLive now (nextUpdatesDeadline now) u).2.delivered.filter
        (belongsTo (.channel id)) =
        (b.box.feedLive now (nextUpdatesDeadline now) u).2.delivered := by
      rw [List.filter_eq_self]
      intro x hx
      simp [belongsTo, feedLive_delivered_key h now _ u x hx, hkey]
    refine ⟨?_, fun hc => absurd hc hq⟩
    dsimp only
    rw [List.drop_left, hall, feedLive_eq h.rep.sorted.ordered]
    simp only [liveEntry, Option.map_some, hkey]
    exact (extend_feed_getD (b.box.entry (.channel id)) now _ u).symm

/-- A turn that takes neither branch keeps the counter at the end of the chain, and
does not move it while the channel is queued. -/
theorem follow_turn {u : Update} (hover : overwrites b.box id u = false)
    (hby : bypasses b.box id u = false) :
    let y := follow id now (b, channelPts b.box id) u
    channelPts y.1.box id = y.2 ∧
      (.channel id ∈ b.box.gettingDiffFor → y.2 = channelPts b.box id) := by
  intro y
  cases hu : belongsTo (.channel id) u with
  | false =>
    obtain ⟨hpts, hchain⟩ := follow_other h now hu (channelPts b.box id)
    exact ⟨hpts.trans hchain.symm, fun _ => hchain⟩
  | true =>
    have hkey : updateKey u = some (.channel id) := by simpa [belongsTo] using hu
    rcases update_cases u with ⟨id', pts, rfl⟩ | ⟨ht, hnone⟩ | ⟨p, rfl, ht⟩
    · obtain rfl : id' = id := by simpa [updateKey] using hkey
      exact follow_tooLong h now hover
    · rw [updateKey_plain ht hnone] at hkey
      cases hkey
    · rw [updateKey_of_fromUpdate p.from_update] at hkey
      exact follow_pts h now (Option.some.inj hkey) ht hby

end Turn

/-! The loop. -/

theorem processUpdate_stays {b : Batch} (h : Sound b.box) (now deadline : Instant) {key : Key}
    (hq : key ∈ b.box.gettingDiffFor) (u : Update) :
    key ∈ (b.processUpdate now deadline u).box.gettingDiffFor := by
  have hqv : (b.view key).queued = true := List.contains_iff_mem.mpr hq
  rw [← List.contains_iff_mem]
  change ((b.processUpdate now deadline u).view key).queued = true
  cases hu : belongsTo key u with
  | true =>
    rw [processUpdate_own h now deadline hu]
    exact View.update_stays hqv u
  | false =>
    rw [processUpdate_other h now deadline hu]
    exact hqv

/-- Over the whole loop, too. The chain is computed beside the loop, so the induction
carries the batch and the end of the chain together. -/
theorem follow_run (id : Int) (now : Instant) : ∀ (us : List Update) {b : Batch}, Sound b.box →
    Run.AllSteps (Batch.processUpdate now (nextUpdatesDeadline now))
      (fun b u => overwrites b.box id u = false ∧ bypasses b.box id u = false) b us →
    let y := Run.final (follow id now) (b, channelPts b.box id) us
    y.1 = Run.final (Batch.processUpdate now (nextUpdatesDeadline now)) b us ∧
    channelPts y.1.box id = y.2 ∧
      (.channel id ∈ b.box.gettingDiffFor → y.2 = channelPts b.box id)
  | [], _, _, _ => ⟨rfl, rfl, fun _ => rfl⟩
  | u :: us, b, h, hall => by
    obtain ⟨⟨hover, hby⟩, hrest⟩ := hall
    obtain ⟨hpts, hqueued⟩ := follow_turn h now hover hby
    have hsound : Sound (b.processUpdate now (nextUpdatesDeadline now) u).box :=
      (processUpdate_moves b u).sound h
    have hnext : follow id now (b, channelPts b.box id) u =
        (b.processUpdate now (nextUpdatesDeadline now) u,
          channelPts (b.processUpdate now (nextUpdatesDeadline now) u).box id) :=
      Prod.ext rfl hpts.symm
    obtain ⟨hbatch, hend, hstay⟩ := follow_run id now us hsound hrest
    intro y
    have hy : y = Run.final (follow id now) (b.processUpdate now (nextUpdatesDeadline now) u,
        channelPts (b.processUpdate now (nextUpdatesDeadline now) u).box id) us := by
      rw [← hnext]
      rfl
    rw [hy]
    refine ⟨hbatch, hend, fun hq => ?_⟩
    rw [hstay (processUpdate_stays h now _ hq u)]
    exact hpts.trans (hqueued hq)

/-- A batch keeps the counter of a channel at the end of its chain. -/
theorem followed_pts (h : Sound s) {now : Instant} {id : Int}
    {us : List Update} (hcalm : Undiverted s now id us) :
    channelPts (s.processAll now us).box id = followed s now id (channelPts s id) us ∧
    (.channel id ∈ s.gettingDiffFor → followed s now id (channelPts s id) us = channelPts s id) := by
  have hrun := follow_run id now (sortByKey updateSortKey us) (b := loopStart s) h hcalm
  refine ⟨?_, hrun.2.2⟩
  have hbox := congrArg (fun b : Batch => channelPts b.box id) hrun.1
  exact hbox.symm.trans hrun.2.1

/-! Runs, seen by one channel. -/

/-- The channel an answer is applied to, and the answer. -/
def taken (s : MessageBoxes) (difference : ChannelDifference) : Option (Int × ChannelDifferenceBody) :=
  match s.channelDiffInFlight, adaptChannelDifference difference with
  | some id, .ok d => if .channel id ∈ s.gettingDiffFor then some (id, d) else none
  | _, _ => none

/-- The box, the end of the chain of a channel, and where its last request started. -/
structure Trail where
  box : MessageBoxes
  chain : Option Int32
  request : Option Int32
  deriving DecidableEq

namespace Trail

def start (id : Int) (start : Start) : Trail :=
  { box := start.box, chain := channelPts start.box id, request := none }

/-- An answer covers what is between the start of the request and its counter. -/
def covered (x : Trail) (id id' : Int) (pts : Int32) : Option Int32 :=
  if id' = id ∧ x.request = x.chain then some pts else x.chain

/-- The end of the chain after an operation. Nothing is delivered by a call that
panics, and the chain of a channel that is forgotten is forgotten too. -/
def chainAfter (dbg : Bool) (id : Int) (x : Trail) (now : Instant) : Op → Option Int32
  | .processUpdates b => followed x.box now id x.chain (looped x.box b)
  | .trySetChannelState id' pts => if id' = id then x.chain.or (some pts) else x.chain
  | .applyDifference diff =>
    match appliedBody x.box diff with
    | some d => followed (differenceBase x.box now d) now id x.chain d.otherUpdates
    | none => x.chain
  | .applyChannelDifference diff =>
    match ((applyChannelDifference dbg now diff).run x.box).1, taken x.box diff with
    | .ok _, some (id', d) =>
      followed (channelBase x.box now id' d) now id (x.covered id id' d.pts) d.otherUpdates
    | _, _ => x.chain
  | .endChannelDifference .banned =>
    if x.box.channelDiffInFlight = some id ∧ .channel id ∈ x.box.gettingDiffFor then none
    else x.chain
  | _ => x.chain

/-- Where the channel's last request started after an operation. -/
def requestAfter (id : Int) (x : Trail) : Op → Option Int32
  | .getChannelDifference =>
    match (MessageBoxes.getChannelDifference.run x.box).1 with
    | .ok (some (id', request)) => if id' = id then some request.pts else x.request
    | _ => x.request
  | _ => x.request

def next (dbg : Bool) (id : Int) (x : Trail) (i : Instant × Op) : Trail :=
  { box := step dbg x.box i
    chain := x.chainAfter dbg id i.1 i.2
    request := x.requestAfter id i.2 }

/-- The operation takes neither of the two branches for the channel, and no answer
is lost to a negative timeout. -/
def Steady (id : Int) (x : Trail) (i : Instant × Op) : Prop :=
  match i.2 with
  | .processUpdates b => Undiverted x.box i.1 id (looped x.box b)
  | .applyDifference diff => ∀ d, appliedBody x.box diff = some d →
      Undiverted (differenceBase x.box i.1 d) i.1 id d.otherUpdates
  | .applyChannelDifference diff => ∀ id' d, taken x.box diff = some (id', d) →
      TimeoutFits d.timeout ∧ Undiverted (channelBase x.box i.1 id' d) i.1 id d.otherUpdates
  | _ => True

/-- A request for the channel starts at the end of its chain. -/
def Resumes (id : Int) (x : Trail) : Prop :=
  ∀ request, (MessageBoxes.getChannelDifference.run x.box).1 = .ok (some (id, request)) →
    x.chain = some request.pts

/-- The counter is at the end of the chain, and the request in flight started there. -/
structure Follows (id : Int) (x : Trail) : Prop where
  sound : Sound x.box
  chain : channelPts x.box id = x.chain
  request : x.box.channelDiffInFlight = some id →
    .channel id ∈ x.box.gettingDiffFor ∧ x.request = x.chain

theorem Follows.resumes {id : Int} {x : Trail} (h : Follows id x) : x.Resumes id := by
  intro request hget
  cases hn : x.box.nextChannel with
  | none =>
    rw [getChannelDifference_none hn] at hget
    cases hget
  | some id' =>
    obtain ⟨e, he, hrun⟩ := getChannelDifference_some h.sound.rep hn
    rw [hrun] at hget
    obtain ⟨rfl, rfl⟩ : id' = id ∧ channelRequest id' e.pts = request := by
      simpa using hget
    rw [← h.chain, channelPts, he]
    rfl

end Trail

theorem Apart.channelPts_eq {id : Int} {s s' : MessageBoxes} (h : Apart (.channel id) s s') :
    channelPts s' id = channelPts s id := congrArg (Option.map LiveEntry.pts) h.entry

/-- What is seen alike has the same counter. -/
theorem channelPts_of_view {id : Int} {s s' : MessageBoxes}
    (h : s'.view (.channel id) [] = s.view (.channel id) []) : channelPts s' id = channelPts s id :=
  congrArg (Option.map LiveEntry.pts) (congrArg View.entry h)

namespace Trail

/-- An operation that is not about the channel. -/
theorem Follows.apart {id : Int} {x : Trail} (h : Follows id x) (hs : Sound s)
    (ha : Apart (.channel id) x.box s) : Follows id { x with box := s } where
  sound := hs
  chain := ha.channelPts_eq.trans h.chain
  request hin := by
    obtain ⟨hq, hreq⟩ := h.request (ha.inFlight ▸ hin)
    exact ⟨ha.queued.mpr hq, hreq⟩

/-- A batch, on a box that is like the one before as far as the channel sees. -/
theorem Follows.batch {id : Int} {x : Trail} (h : Follows id x) {s s' : MessageBoxes}
    {now : Instant} {b : UpdatesLike} (hs : Sound s) (hs' : Sound s')
    (ha : Apart (.channel id) x.box s) (hcalm : Undiverted s now id (looped s b))
    (ha' : Apart (.channel id) (s.processUpdates now b).2 s') :
    Follows id { x with box := s', chain := followed s now id x.chain (looped s b) } := by
  obtain ⟨hview, hin⟩ := processUpdates_looped hs now b id
  have hpts := followed_pts hs hcalm
  rw [ha.channelPts_eq, h.chain] at hpts
  refine ⟨hs', ?_, fun hmark => ?_⟩
  · exact (ha'.channelPts_eq.trans (channelPts_of_view hview)).trans hpts.1
  · have hmark' : x.box.channelDiffInFlight = some id := by
      rw [← ha.inFlight, ← hin, ← ha'.inFlight]
      exact hmark
    obtain ⟨hq, hreq⟩ := h.request hmark'
    have hq' := ha.queued.mpr hq
    exact ⟨ha'.queued.mpr (processUpdates_stays hs now b hq'), hreq.trans (hpts.2 hq').symm⟩

end Trail

/-! The answers. -/

/-- An edit of an entry that leaves its counter alone. -/
theorem channelPts_edit {s s' : MessageBoxes} {id : Int} {key : Key} {f : LiveEntry → LiveEntry}
    {c : Prop} [Decidable c]
    (h : s'.entry (.channel id) = if c then (s.entry key).map f else s.entry (.channel id))
    (hc : c → .channel id = key) (hf : ∀ e, (f e).pts = e.pts) :
    channelPts s' id = channelPts s id :=
  map_entry_edit h hc hf

theorem channelTaken_pts (h : RepInv s) (id id' : Int) :
    channelPts (channelTaken s id') id = channelPts s id := by
  have hs : Sorted { s with channelDiffInFlight := none } := h.sorted
  have hentry : (channelTaken s id').entry (.channel id) = if Key.channel id = .channel id' then
      (s.entry (.channel id')).map (fun e => { e with possibleGap := none })
      else s.entry (.channel id) :=
    entry_updateEntry (f := fun e => { e with possibleGap := none }) hs _ (fun _ => rfl) _
  exact channelPts_edit hentry (fun hc => hc) (fun _ => rfl)

theorem resetDeadline_pts (hs : s.Sorted) (key : Key) (deadline : Instant)
    (id : Int) : channelPts (s.resetDeadline key deadline) id = channelPts s id :=
  channelPts_edit (entry_resetDeadline hs key deadline _) (fun hc => hc) (fun _ => rfl)

theorem endGetDiff_pts (hs : s.Sorted) (now : Instant) (key : Key) (id : Int) :
    channelPts (s.endGetDiff now key) id = channelPts s id :=
  channelPts_edit (entry_endGetDiff hs now key _) (fun hc => hc.1) (fun _ => rfl)

/-- Giving up leaves the counters where they are, unless the channel is forgotten. -/
theorem channelEnded_pts (h : RepInv s) (now : Instant) (id id' : Int)
    (reason : PrematureEndReason) :
    channelPts (channelEnded s now id' reason) id =
      if reason = .banned ∧ id' = id then none else channelPts s id := by
  have htaken := channelTaken_repInv h id'
  have hend := (endGetDiff_pts htaken.sorted now (.channel id') id).trans (channelTaken_pts h id id')
  cases reason with
  | temporaryServerIssues =>
    rw [if_neg (by simp)]
    exact hend
  | banned =>
    by_cases hid : id' = id
    · subst hid
      rw [if_pos ⟨rfl, rfl⟩]
      unfold channelPts channelEnded
      dsimp only
      rw [entry_popEntry (htaken.endGetDiff now (.channel id')).sorted, if_pos rfl]
      rfl
    · rw [if_neg (fun hc => hid hc.2)]
      exact channelPts_of_view (channelEnded_other h (channel_ne (Ne.symm hid)) now .banned)

/-- What an answer is fed to: the counter of its channel is at the answer. -/
theorem channelBase_pts (h : RepInv s) (now : Instant) (id : Int) {id' : Int}
    (hq : .channel id' ∈ s.gettingDiffFor) (d : ChannelDifferenceBody) :
    channelPts (channelBase s now id' d) id = if id' = id then some d.pts else channelPts s id := by
  by_cases hid : id' = id
  · subst hid
    obtain ⟨-, e, he, hpts, -⟩ := channelBase_entry h now hq d
    rw [if_pos rfl, channelPts, he, ← hpts]
    rfl
  · rw [if_neg hid]
    exact channelPts_of_view (channelBase_other h (channel_ne (Ne.symm hid)) now d)

/-- The answer's own updates move the counters as the loop over them does. -/
theorem channelFed_pts (h : Sound s) (now : Instant) (id id' : Int)
    (d : ChannelDifferenceBody) :
    channelPts (channelFed s now id' d) id =
      channelPts ((channelBase s now id' d).processAll now d.otherUpdates).box id := by
  have hbase := (channelBase_moves s now id' d).sound h
  have hview := (processUpdates_looped hbase now (refeed d.otherUpdates d.users d.chats) id).1
  rw [looped_refeed] at hview
  exact channelPts_of_view hview

namespace Trail
variable {id : Int} {x : Trail} (dbg : Bool) (now : Instant)

/-- Once an answer is handled, all there is to show is the end of the chain. -/
theorem Follows.handled {chain request : Option Int32} (hs : Sound s)
    (hin : s.channelDiffInFlight = none) (hc : channelPts s id = chain) :
    Follows id { box := s, chain := chain, request := request } where
  sound := hs
  chain := hc
  request hmark := by
    rw [hin] at hmark
    cases hmark

theorem next_get (h : Follows id x) : Follows id (x.next dbg id (now, .getChannelDifference)) := by
  have hsound := step_sound dbg h.sound (now, .getChannelDifference)
  simp only [next, step, Op.call, Call.discard_snd, chainAfter, requestAfter] at hsound ⊢
  cases hn : x.box.nextChannel with
  | none =>
    rw [getChannelDifference_none hn]
    exact ⟨h.sound, h.chain, h.request⟩
  | some id' =>
    obtain ⟨e, he, hrun⟩ := getChannelDifference_some h.sound.rep hn
    rw [hrun] at hsound ⊢
    refine ⟨hsound, h.chain, fun hmark => ?_⟩
    obtain rfl : id' = id := Option.some.inj hmark
    have hqueued : .channel id' ∈ x.box.gettingDiffFor := nextChannel_queued hn
    refine ⟨hqueued, ?_⟩
    rw [← h.chain, channelPts, he]
    simp [channelRequest]

/-- The answer to the request in flight carries the chain on to its counter. -/
theorem Follows.covered_eq (h : Follows id x) {id' : Int}
    (hin : x.box.channelDiffInFlight = some id') (hq : .channel id' ∈ x.box.gettingDiffFor)
    (d : ChannelDifferenceBody) :
    x.covered id id' d.pts = channelPts (channelBase x.box now id' d) id := by
  rw [channelBase_pts h.sound.rep now id hq, h.chain]
  unfold covered
  by_cases hid : id' = id
  · subst hid
    rw [if_pos ⟨rfl, (h.request hin).2⟩, if_pos rfl]
  · rw [if_neg (fun hc => hid hc.1), if_neg hid]

theorem next_apply (h : Follows id x) (diff : ChannelDifference)
    (hsteady : x.Steady id (now, .applyChannelDifference diff)) :
    Follows id (x.next dbg id (now, .applyChannelDifference diff)) := by
  have hsound := step_sound dbg h.sound (now, .applyChannelDifference diff)
  have hmark := applyChannelDifference_inFlight dbg now h.sound diff
  simp only [next, step, Op.call, Call.discard_snd, chainAfter] at hsound ⊢
  apply Follows.handled hsound hmark
  rcases marked_or_unmarked x.box with hm | ⟨id', hin, hq⟩
  · -- the answer is ignored
    have hnone : taken x.box diff = none := by
      unfold taken
      split
      · next id' d hin _ => rw [if_neg (hm id' hin)]
      · rfl
    rw [hnone, applyChannelDifference_unmarked dbg now hm]
    exact h.chain
  · cases hd : adaptChannelDifference diff with
    | error g =>
      have hnone : taken x.box diff = none := by simp [taken, hd]
      rw [hnone, applyChannelDifference_ended dbg now h.sound.rep hin hq hd,
        channelEnded_pts (channelTaken_repInv h.sound.rep id'), if_neg (by simp),
        channelTaken_pts h.sound.rep, h.chain]
      cases ((applyChannelDifference dbg now diff).run x.box).1 <;> rfl
    | ok d =>
      have hsome : taken x.box diff = some (id', d) := by simp [taken, hd, hin, hq]
      obtain ⟨htime, hcalm⟩ := hsteady id' d hsome
      have hok := (applyChannelDifference_run dbg now h.sound.rep hin hq hd).1 htime
      have hbase := (channelBase_moves x.box now id' d).sound h.sound
      rw [hok, hsome]
      dsimp only
      rw [h.covered_eq now hin hq, ← (followed_pts hbase hcalm).1, ← channelFed_pts h.sound]
      rcases applyChannelDifference_fed dbg now h.sound.rep hin hq hd with heq | ⟨deadline, heq⟩
      · rw [heq]
      · have hsorted : (channelFed x.box now id' d).Sorted :=
          ((processUpdates_moves _ _).sound hbase).rep.sorted
        rw [heq, resetDeadline_pts hsorted]

theorem next_end (h : Follows id x) (reason : PrematureEndReason) :
    Follows id (x.next dbg id (now, .endChannelDifference reason)) := by
  have hsound := step_sound dbg h.sound (now, .endChannelDifference reason)
  have hmark := endChannelDifference_inFlight dbg now h.sound.rep reason
  apply Follows.handled hsound hmark
  change channelPts ((endChannelDifference dbg now reason).run x.box).2 id = _
  rcases marked_or_unmarked x.box with hm | ⟨id', hin, hq⟩
  · have hcond : ¬ (x.box.channelDiffInFlight = some id ∧ .channel id ∈ x.box.gettingDiffFor) :=
      fun hc => hm id hc.1 hc.2
    rw [endChannelDifference_unmarked dbg now hm]
    cases reason with
    | temporaryServerIssues => exact h.chain
    | banned =>
      simp only [chainAfter, if_neg hcond]
      exact h.chain
  · rw [endChannelDifference_marked dbg now h.sound.rep hin hq, channelEnded_pts h.sound.rep,
      h.chain]
    cases reason with
    | temporaryServerIssues => rfl
    | banned =>
      simp only [chainAfter, true_and, hin, Option.some.injEq]
      by_cases hid : id' = id
      · subst hid
        rw [if_pos rfl, if_pos ⟨rfl, hq⟩]
      · rw [if_neg hid, if_neg (fun hc => hid hc.1)]

theorem next_track (h : Follows id x) (id' : Int) (pts : Int32) :
    Follows id (x.next dbg id (now, .trySetChannelState id' pts)) := by
  have hsound := step_sound dbg h.sound (now, .trySetChannelState id' pts)
  simp only [next, step, Op.call, Call.edit_run, chainAfter, requestAfter, trySetChannelState]
    at hsound ⊢
  cases he : x.box.entry (.channel id') with
  | some e =>
    -- the channel is tracked already, and so is its chain
    have hchain : (if id' = id then x.chain.or (some pts) else x.chain) = x.chain := by
      split
      · next hid =>
        rw [← h.chain, channelPts, ← hid, he]
        rfl
      · rfl
    rw [hchain]
    exact ⟨h.sound, h.chain, h.request⟩
  | none =>
    rw [he] at hsound
    by_cases hid : id' = id
    · subst hid
      have hnone : x.chain = none := by rw [← h.chain, channelPts, he]; rfl
      refine ⟨hsound, ?_, fun hmark => ?_⟩
      · have hself : .channel id' =
            (freshEntry (.channel id') pts (nextUpdatesDeadline now)).key := rfl
        simp only [if_true, hnone, channelPts]
        rw [entry_setEntry h.sound.rep.sorted, if_pos hself]
        rfl
      · -- a marked channel is queued, and so it has an entry
        obtain ⟨hq, -⟩ := h.request ((setEntry_inFlight _ _).symm.trans hmark)
        obtain ⟨e, he', -⟩ := h.sound.rep.backed _ hq
        rw [he] at he'
        cases he'
    · rw [if_neg hid]
      exact h.apart hsound (.setEntry h.sound.rep.sorted (channel_ne (Ne.symm hid)))

theorem next_difference (h : Follows id x) (diff : Difference)
    (hsteady : x.Steady id (now, .applyDifference diff)) :
    Follows id (x.next dbg id (now, .applyDifference diff)) := by
  have hsound := step_sound dbg h.sound (now, .applyDifference diff)
  have happ := applyDifference_channel dbg now h.sound.rep id diff
  simp only [next, step, Op.call, Call.discard_snd, chainAfter, requestAfter] at hsound ⊢
  cases hbody : appliedBody x.box diff with
  | none =>
    rw [hbody] at happ
    exact h.apart hsound happ
  | some d =>
    rw [hbody] at happ
    have hbase := (differenceBase_moves x.box now d).sound h.sound
    have hbatch := h.batch (b := refeed d.otherUpdates d.users d.chats) hbase hsound
      (differenceBase_apart h.sound.rep id now d)
      (by rw [looped_refeed]; exact hsteady d hbody) happ
    rw [looped_refeed] at hbatch
    exact hbatch

/-- An operation that takes neither branch keeps the counter at the end of the chain. -/
theorem next_follows (h : Follows id x) (op : Op) (hsteady : x.Steady id (now, op)) :
    Follows id (x.next dbg id (now, op)) := by
  have hsound := step_sound dbg h.sound (now, op)
  cases op with
  | processUpdates b =>
    exact h.batch h.sound hsound (Apart.refl _ _) hsteady (Apart.refl _ _)
  | setState state =>
    refine h.apart hsound ?_
    simp only [step, Op.call, setState, Call.bind_run, Call.read_run]
    split
    · exact Apart.refl _ _
    · exact stateSet_apart h.sound.rep id now state
  | trySetChannelState id' pts => exact next_track dbg now h id' pts
  | checkDeadlines =>
    obtain ⟨hpts, hstay⟩ := checkDeadlines_channel h.sound.rep now id
    refine ⟨hsound, hpts.trans h.chain, fun hmark => ?_⟩
    obtain ⟨hq, hreq⟩ := h.request ((checkDeadlines_inFlight x.box now).symm.trans hmark)
    exact ⟨hstay hq, hreq⟩
  | getChannelDifference => exact next_get dbg now h
  | applyDifference diff => exact next_difference dbg now h diff hsteady
  | applyChannelDifference diff => exact next_apply dbg now h diff hsteady
  | endChannelDifference reason => exact next_end dbg now h reason
  | abortDifference => exact h.apart hsound (abortDifference_apart h.sound.rep id now dbg)
  | forceResetCommonPts pts qts date seq =>
    exact h.apart hsound (forceResetCommonPts_apart h.sound.rep id now pts qts date seq)

theorem start_follows (id : Int) {start : Start} (h : start.DistinctChannels) :
    Follows id (Trail.start id start) where
  sound := start_sound h
  chain := rfl
  request hmark := by cases start <;> cases hmark

/-- In a run where no `updateChannelTooLong` moves the counter of the channel, no
update is returned past its counter while it is queued and no answer is lost to a
negative timeout, every request for the channel starts at the end of what has been
delivered or covered. -/
theorem request_resumes (dbg : Bool) (start : Start) (h : start.DistinctChannels) (id : Int)
    (is : List (Instant × Op))
    (hsteady : Run.AllSteps (next dbg id) (Steady id) (Trail.start id start) is) :
    ∀ x ∈ Run.states (next dbg id) (Trail.start id start) is, x.Resumes id := by
  intro x hx
  have hall := Run.states_inv (I := Follows id) (next dbg id)
    (fun x i hs hx => next_follows dbg i.1 hx i.2 hs) is _ (start_follows id h) hsteady
  exact (hall x hx).resumes

/-- A channel at 10 whose difference is to be fetched. -/
def oneQueued : Start :=
  .load 0 { pts := 0, qts := 0, date := 1, seq := 1, channels := [⟨5, 10⟩] }

/-- The difference is fetched: the channel is live at 12. -/
def fetched : List (Instant × Op) :=
  [(1, .getChannelDifference), (2, .applyChannelDifference (.empty true 12 (some 30)))]

/-- An update, the next one, and an `updateChannelTooLong` without a counter. -/
def goesOn : List (Instant × Op) :=
  fetched ++ [(3, .processUpdates (.updates (.updateShort ⟨.deleteChannelMessages 5 [7] 13 1, 1⟩))),
    (4, .processUpdates (.updates (.updateShort ⟨.channelTooLong 5 none, 1⟩)))]

theorem goesOn_resumes :
    (Run.final (next true 5) (Trail.start 5 oneQueued) goesOn).Resumes 5 := by
  have hdistinct : oneQueued.DistinctChannels := by
    show ([5] : List Int).Nodup
    decide
  refine request_resumes true oneQueued hdistinct 5 goesOn ⟨trivial, ?_, ?_, ?_, trivial⟩ _
    (Run.final_mem_states _ _ _)
  · intro id' d hd
    have htaken : taken (Run.final (next true 5) (Trail.start 5 oneQueued) (goesOn.take 1)).box
        (.empty true 12 (some 30)) = some (5, _) := rfl
    cases Option.some.inj (htaken.symm.trans hd)
    refine ⟨fun t ht => ?_, by decide⟩
    cases ht
    decide
  · show Undiverted _ _ _ _
    decide
  · show Undiverted _ _ _ _
    decide

/-- The same channel is told that there is too much, with a counter far ahead. -/
def skips : List (Instant × Op) :=
  fetched ++ [(3, .processUpdates (.updates (.updateShort ⟨.channelTooLong 5 (some 50), 1⟩)))]

/-- The same channel is queued, and the next update comes before it is requested. -/
def overtakes : List (Instant × Op) :=
  fetched ++ [(3, .processUpdates (.updates (.updateShort ⟨.channelTooLong 5 none, 1⟩))),
    (4, .processUpdates (.updates (.updateShort ⟨.deleteChannelMessages 5 [7] 13 1, 1⟩)))]

/-- The channel is live at 12. A request at 50 leaves out what is between; one at 12
asks again for what has been delivered up to 13. -/
theorem request_skips :
    let live := Run.final (next true 5) (Trail.start 5 oneQueued) fetched
    let x := Run.final (next true 5) (Trail.start 5 oneQueued) skips
    let y := Run.final (next true 5) (Trail.start 5 oneQueued) overtakes
    live.chain = some 12 ∧ channelPts live.box 5 = some 12 ∧ live.box.gettingDiffFor = [] ∧
    (MessageBoxes.getChannelDifference.run x.box).1 = .ok (some (5, channelRequest 5 50)) ∧
    x.chain = some 12 ∧ ¬ x.Resumes 5 ∧
    (MessageBoxes.getChannelDifference.run y.box).1 = .ok (some (5, channelRequest 5 12)) ∧
    y.chain = some 13 ∧ ¬ y.Resumes 5 := by
  have hx : (MessageBoxes.getChannelDifference.run
      (Run.final (next true 5) (Trail.start 5 oneQueued) skips).box).1 =
      .ok (some (5, channelRequest 5 50)) := by decide
  have hy : (MessageBoxes.getChannelDifference.run
      (Run.final (next true 5) (Trail.start 5 oneQueued) overtakes).box).1 =
      .ok (some (5, channelRequest 5 12)) := by decide
  refine ⟨by decide, by decide, by decide, hx, by decide, fun h => ?_, hy, by decide, fun h => ?_⟩
  · exact absurd (h _ hx) (by decide)
  · exact absurd (h _ hy) (by decide)

end Trail

end Ferogram.Msgbox
