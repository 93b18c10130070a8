import Ferogram.Msgbox.SeqCommit
import Ferogram.Msgbox.Channels

/- The `i32` arithmetic of the message box. The counters come from the server, and
   `update_sort_key`, the `seq` check, the check of a counter and the drain loop add
   and subtract them unchecked: a debug build panics where a sum leaves `i32`, a
   release build wraps and goes on with a wrong answer. `Op.sums` lists the exact
   values of everything a call works out, in the order of the source; with it goes
   the deadline, which cannot be a negative number of seconds away.

   What is proved: an operation works out no sum outside `i32` where its updates and
   what is buffered for their keys fit together (`Fits`), and so no run of such
   operations does. `Fits` looks at pairs. The counter of a key is only ever its own
   or the one an update leads to, and an update that waits for its turn is behind
   nothing that starts after it. -/
namespace Ferogram.Msgbox
open Ferogram.Tl MessageBoxes StableSort

variable {s : MessageBoxes}

/-! The sums, with their exact values. -/

/-- `update_sort_key`. -/
def startSums (update : Update) : List Int :=
  match PtsInfo.fromUpdate update with
  | some info => [info.pts.toInt - info.count.toInt]
  | none => []

/-- `updates.sort_by_key(update_sort_key)`. No key is asked for where there is nothing to compare. -/
def sortSums (updates : List Update) : List Int :=
  if updates.length < 2 then [] else updates.flatMap startSums

/-- `gap.updates.sort_by_key(|u| -update_sort_key(u))`. -/
def gapSums (updates : List PtsUpdate) : List Int :=
  if updates.length < 2 then []
  else updates.flatMap (fun u => [ptsStart u, -(updateSortKey u.update).toInt])

/-- The drain loop: `entry.pts + gap_info.count`. -/
def drainSums (pts : Int32) : List PtsUpdate → List Int
  | [] => []
  | u :: rest =>
    (pts.toInt + u.info.count.toInt) ::
      (if pts + u.info.count = u.info.pts then drainSums u.info.pts rest
      else if u.info.pts < pts + u.info.count then drainSums pts rest
      else [])

/-- The closure of `process_updates`: `entry.pts + info.count`, and what draining takes. -/
def LiveEntry.feedSums (e : LiveEntry) (now deadline : Instant) (u : PtsUpdate) : List Int :=
  let a := (e.accept now deadline u).1
  (e.pts.toInt + u.info.count.toInt) :: (gapSums a.held ++ drainSums a.pts (gapStack a.held))

/-- An update with ordering metadata, in the loop: `info.pts - info.count` of the entry it
would create, and the closure. -/
def Batch.ptsSums (b : Batch) (now deadline : Instant) (u : PtsUpdate) : List Int :=
  if b.box.gettingDiffFor.contains u.info.key then []
  else ptsStart u :: (liveEntry b.box deadline u).feedSums now deadline u

/-- One turn of the loop. -/
def Batch.turnSums (now deadline : Instant) (b : Batch) (update : Update) : List Int :=
  match update with
  | .channelTooLong _ _ => []
  | update =>
    match h : PtsInfo.fromUpdate update with
    | none => []
    | some info => b.ptsSums now deadline { update := update, info := info, from_update := h }

/-- The loop over the sorted batch. -/
def loopSums (now deadline : Instant) : Batch → List Update → List Int
  | _, [] => []
  | b, u :: us => b.turnSums now deadline u ++ loopSums now deadline (b.processUpdate now deadline u) us

namespace MessageBoxes

/-- The sort and the loop. -/
def allSums (s : MessageBoxes) (now : Instant) (updates : List Update) : List Int :=
  sortSums updates ++ loopSums now (nextUpdatesDeadline now)
    { box := s, result := [], haveUnresolvedGaps := false } (sortByKey updateSortKey updates)

/-- `process_updates`, with `self.seq + 1` of a container that has a `seq_start`. -/
def processSums (s : MessageBoxes) (now : Instant) (updates : UpdatesLike) : List Int :=
  match adapt updates with
  | .error _ => []
  | .ok c =>
    if c.seqStart = NO_SEQ then s.allSums now c.updates
    else (s.seq.toInt + 1) :: (if c.seqStart = s.seq + 1 then s.allSums now c.updates else [])

end MessageBoxes

/-- Every sum of a public operation: a difference feeds its other updates to
`process_updates`, and the other operations compute nothing. -/
def Op.sums (s : MessageBoxes) (now : Instant) : Op → List Int
  | .processUpdates updates => s.processSums now updates
  | .applyDifference (.difference d) | .applyDifference (.slice d) =>
    if .common ∈ s.gettingDiffFor ∨ .secondary ∈ s.gettingDiffFor then
      (differenceBase s now d).processSums now (refeed d.otherUpdates d.users d.chats)
    else []
  | .applyChannelDifference difference =>
    match s.channelDiffInFlight, adaptChannelDifference difference with
    | some id, .ok d =>
      if .channel id ∈ s.gettingDiffFor then
        (channelBase s now id d).processSums now (refeed d.otherUpdates d.users d.chats)
      else []
    | _, _ => []
  | _ => []

/-- A sum leaves `i32`, or a deadline is worked out from a negative timeout. -/
def Overflows (dbg : Bool) (s : MessageBoxes) (i : Instant × Op) : Prop :=
  (∃ n ∈ i.2.sums s i.1, ¬ InRange n) ∨ ((i.2.call dbg i.1).run s).1 = .error .instantOverflow

/-! Which updates the live path of a key is for. -/

/-- The update with its metadata, unless it is an `updateChannelTooLong`. -/
def ordered (update : Update) : Option PtsUpdate :=
  match update with
  | .channelTooLong _ _ => none
  | update =>
    match h : PtsInfo.fromUpdate update with
    | none => none
    | some info => some { update := update, info := info, from_update := h }

/-- The updates of a key. -/
def own (key : Key) (updates : List Update) : List PtsUpdate :=
  (updates.filterMap ordered).filter (fun u => u.info.key = key)

theorem ordered_eq (u : Update) : ordered u = onUpdate (fun _ _ => none) (fun _ => none) some u := rfl

theorem ordered_pts {u : PtsUpdate} (ht : NotTooLong u.update) : ordered u.update = some u := by
  rw [ordered_eq, onUpdate_pts ht]

theorem ordered_plain {u : Update} (ht : NotTooLong u) (h : PtsInfo.fromUpdate u = none) :
    ordered u = none := by
  rw [ordered_eq, onUpdate_plain ht h]

theorem own_cons_pts {u : PtsUpdate} (ht : NotTooLong u.update) (key : Key) (us : List Update) :
    own key (u.update :: us) = if u.info.key = key then u :: own key us else own key us := by
  unfold own
  rw [List.filterMap_cons_some (ordered_pts ht), List.filter_cons]
  simp

theorem own_cons_none {u : Update} (h : ordered u = none) (key : Key) (us : List Update) :
    own key (u :: us) = own key us := by
  unfold own
  rw [List.filterMap_cons_none h]

theorem own_perm (key : Key) {us vs : List Update} (h : us.Perm vs) : (own key us).Perm (own key vs) :=
  (h.filterMap ordered).filter _

theorem turnSums_eq (b : Batch) (now deadline : Instant) (u : Update) :
    b.turnSums now deadline u = onUpdate (fun _ _ => []) (fun _ => []) (b.ptsSums now deadline) u := rfl

theorem turnSums_pts (b : Batch) (now deadline : Instant) {u : PtsUpdate} (ht : NotTooLong u.update) :
    b.turnSums now deadline u.update = b.ptsSums now deadline u := by
  rw [turnSums_eq, onUpdate_pts ht]

theorem turnSums_plain (b : Batch) (now deadline : Instant) {u : Update} (ht : NotTooLong u)
    (h : PtsInfo.fromUpdate u = none) : b.turnSums now deadline u = [] := by
  rw [turnSums_eq, onUpdate_plain ht h]

/-! One key: what waits for it, and where its counter can be. -/

/-- `u` may be released before `v` is compared with the counter. Of two updates of a
container the one that starts first is worked off first; for what was buffered before
there is no telling. -/
def Before (old : List PtsUpdate) (u v : PtsUpdate) : Prop :=
  u ∈ old ∨ v ∈ old ∨ ptsStart u ≤ ptsStart v

/-- Whichever of the two comes first, the other one can be compared with where it leads. -/
def Together (old : List PtsUpdate) (u v : PtsUpdate) : Prop :=
  (Before old u v → InRange (u.info.pts.toInt + v.info.count.toInt)) ∧
  (Before old v u → InRange (v.info.pts.toInt + u.info.count.toInt))

theorem Together.symm {old : List PtsUpdate} {u v : PtsUpdate} (h : Together old u v) :
    Together old v u := ⟨h.2, h.1⟩

/-- The updates of a container for a key, `todo`, fit the counter of the key and what is
buffered for it, where `old` was buffered when the container came in. -/
structure Pending (old : List PtsUpdate) (pts : Option Int32) (held todo : List PtsUpdate) : Prop where
  counter : ∀ p, pts = some p → ∀ u ∈ held ++ todo, InRange (p.toInt + u.info.count.toInt)
  pairs : (held ++ todo).Pairwise (Together old)
  starts : ∀ u ∈ todo, InRange (ptsStart u)
  sorts : 2 ≤ (held ++ todo).length → ∀ u ∈ held ++ todo, InRange (ptsStart u) ∧ InRange (-ptsStart u)
  ascending : todo.Pairwise (fun u v => ptsStart u ≤ ptsStart v)
  ahead : ∀ u ∈ held, u ∈ old ∨
    (∀ p, pts = some p → p.toInt < ptsStart u) ∧ ∀ v ∈ todo, ptsStart u ≤ ptsStart v

/-- Where nothing is worked out. -/
theorem inRange_nil : ∀ n ∈ ([] : List Int), InRange n := nofun

/-- Draining compares nothing outside `i32`, where each waiting update can be compared
with the counter and with where the updates before it lead. -/
theorem drain_fits {todo : List PtsUpdate} : ∀ {stack : List PtsUpdate} {p : Int32},
    (∀ u ∈ stack ++ todo, InRange (p.toInt + u.info.count.toInt)) →
    (stack ++ todo).Pairwise (fun u v => InRange (u.info.pts.toInt + v.info.count.toInt)) →
    stack.Pairwise (fun u v => ptsStart u ≤ ptsStart v) →
    let r := Reorder.drain ptsOrder ptsAfter p stack
    (∀ n ∈ drainSums p stack, InRange n) ∧ r.2.2.Sublist stack ∧
    (∀ u ∈ r.2.2 ++ todo, InRange (r.1.toInt + u.info.count.toInt)) ∧
    ∀ u ∈ r.2.2, r.1.toInt < ptsStart u
  | [], p, hp, _, _ => by simpa [drainSums, Reorder.drain] using hp
  | u :: stack, p, hp, hpair, hasc => by
    have hu : InRange (p.toInt + u.info.count.toInt) := hp u (by simp)
    have hord := ptsOrder_eq_compare hu
    obtain ⟨hlead, hpair'⟩ := List.pairwise_cons.mp hpair
    obtain ⟨hle, hasc'⟩ := List.pairwise_cons.mp hasc
    have hp' : ∀ v ∈ stack ++ todo, InRange (p.toInt + v.info.count.toInt) :=
      fun v hv => hp v (List.mem_cons_of_mem u hv)
    by_cases heq : p + u.info.count = u.info.pts
    · -- released: the counter is where it leads
      obtain ⟨h1, h2, h3, h4⟩ := drain_fits hlead hpair' hasc'
      have hdrain : ptsOrder p u = .eq := if_pos heq
      simp only [drainSums, if_pos heq, Reorder.drain, hdrain]
      exact ⟨List.forall_mem_cons.mpr ⟨hu, h1⟩, h2.cons u, h3, h4⟩
    · by_cases hgt : u.info.pts < p + u.info.count
      · obtain ⟨h1, h2, h3, h4⟩ := drain_fits hp' hpair' hasc'
        have hdrain : ptsOrder p u = .gt := by rw [ptsOrder, if_neg heq, if_pos hgt]
        simp only [drainSums, if_neg heq, if_pos hgt, Reorder.drain, hdrain]
        exact ⟨List.forall_mem_cons.mpr ⟨hu, h1⟩, h2.cons u, h3, h4⟩
      · -- a gap: what is below starts no earlier
        have hdrain : ptsOrder p u = .lt := by rw [ptsOrder, if_neg heq, if_neg hgt]
        have hlt : p.toInt < ptsStart u := compare_lt_iff_lt.mp (hord.symm.trans hdrain)
        simp only [drainSums, if_neg heq, if_neg hgt, Reorder.drain, hdrain]
        refine ⟨by simpa using hu, List.Sublist.refl _, hp, fun v hv => ?_⟩
        rcases List.mem_cons.mp hv with rfl | hv
        · exact hlt
        · exact lt_of_lt_of_le hlt (hle v hv)

namespace Pending
variable {old held todo : List PtsUpdate}

/-- The stack of a buffer is in the order of the starts. -/
theorem stack_ascending {pts : Option Int32} (h : Pending old pts held todo) :
    (gapStack held).Pairwise (fun u v => ptsStart u ≤ ptsStart v) := by
  by_cases hlen : held.length < 2
  · have hstack : (gapStack held).length < 2 := by rwa [(gapStack_perm held).length_eq]
    rcases hs : gapStack held with _ | ⟨u, _ | ⟨v, l⟩⟩
    · exact List.Pairwise.nil
    · exact List.pairwise_singleton _ u
    · rw [hs] at hstack
      exact absurd hstack (by simp)
  · refine gapStack_sorted (fun u hu => h.sorts ?_ u (List.mem_append_left todo hu))
    rw [List.length_append]
    omega

theorem gapSums_fit {pts : Option Int32} (h : Pending old pts held todo) :
    ∀ n ∈ gapSums held, InRange n := by
  intro n hn
  unfold gapSums at hn
  split at hn
  · cases hn
  · next hlen =>
    obtain ⟨u, hu, hn⟩ := List.mem_flatMap.mp hn
    obtain ⟨hstart, hneg⟩ := h.sorts (by rw [List.length_append]; omega) u (List.mem_append_left todo hu)
    have hkey : (updateSortKey u.update).toInt = ptsStart u := by
      rw [u.sortKey]
      exact toInt_sub_of_inRange hstart
    simp only [hkey, List.mem_cons, List.not_mem_nil, or_false] at hn
    rcases hn with rfl | rfl
    · exact hstart
    · exact hneg

/-- Released from the stack, an update leads to a counter that fits what is below it
and what is still to come. -/
theorem stack_pairs {p : Int32} (h : Pending old (some p) held todo) :
    (gapStack held ++ todo).Pairwise (fun u v => InRange (u.info.pts.toInt + v.info.count.toInt)) := by
  have hpairs : (gapStack held ++ todo).Pairwise (Together old) :=
    (((gapStack_perm held).append_right todo).pairwise_iff Together.symm).mpr h.pairs
  obtain ⟨hstack, htodo, hboth⟩ := List.pairwise_append.mp hpairs
  refine List.pairwise_append.mpr ⟨?_, ?_, fun u hu v hv => ?_⟩
  · exact (hstack.and h.stack_ascending).imp (fun hab => hab.1.1 (Or.inr (Or.inr hab.2)))
  · exact (htodo.and h.ascending).imp (fun hab => hab.1.1 (Or.inr (Or.inr hab.2)))
  · refine (hboth u hu v hv).1 ?_
    rcases h.ahead u ((gapStack_perm held).mem_iff.mp hu) with hold | ⟨-, hle⟩
    · exact Or.inl hold
    · exact Or.inr (Or.inr (hle v hv))

/-- Fewer updates are pending still. -/
theorem sublist {pts : Option Int32} {q : Int32} {left : List PtsUpdate}
    (h : Pending old pts held todo) (hsub : ∃ l, l.Perm held ∧ left.Sublist l)
    (hcounter : ∀ u ∈ left ++ todo, InRange (q.toInt + u.info.count.toInt))
    (hahead : ∀ u ∈ left, u ∈ old ∨ q.toInt < ptsStart u) : Pending old (some q) left todo := by
  obtain ⟨l, hperm, hsub⟩ := hsub
  have hpairs : (l ++ todo).Pairwise (Together old) :=
    ((hperm.append_right todo).pairwise_iff Together.symm).mpr h.pairs
  have hmem : ∀ u ∈ left, u ∈ held := fun u hu => hperm.mem_iff.mp (hsub.subset hu)
  refine ⟨fun p' hp' => ?_, hpairs.sublist (hsub.append_right todo), h.starts, fun hlen u hu => ?_,
    h.ascending, fun u hu => ?_⟩
  · cases hp'
    exact hcounter
  · have hle : left.length ≤ held.length := by rw [← hperm.length_eq]; exact hsub.length_le
    simp only [List.length_append] at hlen
    refine h.sorts (by rw [List.length_append]; omega) u ?_
    exact (List.mem_append.mp hu).elim (fun hu => List.mem_append_left _ (hmem u hu))
      (fun hu => List.mem_append_right _ hu)
  · rcases h.ahead u (hmem u hu) with hold | ⟨-, hle⟩
    · exact Or.inl hold
    · refine (hahead u hu).imp_right (fun hlt => ⟨fun p' hp' => ?_, hle⟩)
      cases hp'
      exact hlt

/-- Draining leaves what it does not release pending. -/
theorem drain {p : Int32} (h : Pending old (some p) held todo) :
    let r := Reorder.drain ptsOrder ptsAfter p (gapStack held)
    (∀ n ∈ gapSums held ++ drainSums p (gapStack held), InRange n) ∧
    Pending old (some r.1) r.2.2.reverse todo := by
  intro r
  have hcounter : ∀ u ∈ gapStack held ++ todo, InRange (p.toInt + u.info.count.toInt) :=
    fun u hu => h.counter p rfl u (((gapStack_perm held).append_right todo).mem_iff.mp hu)
  obtain ⟨hsums, hsub, hfits, hahead⟩ := drain_fits hcounter h.stack_pairs h.stack_ascending
  refine ⟨List.forall_mem_append.mpr ⟨h.gapSums_fit, hsums⟩, ?_⟩
  refine h.sublist ⟨(gapStack held).reverse, (List.reverse_perm _).trans (gapStack_perm held),
    hsub.reverse⟩ (fun u hu => hfits u ?_) (fun u hu => Or.inr (hahead u (List.mem_reverse.mp hu)))
  exact ((List.reverse_perm r.2.2).append_right todo).mem_iff.mp hu

/-- The container is one update further. -/
theorem tail {pts : Option Int32} {u : PtsUpdate} (h : Pending old pts held (u :: todo)) :
    Pending old pts held todo := by
  have hsub : (held ++ todo).Sublist (held ++ u :: todo) :=
    (List.sublist_cons_self u todo).append_left held
  refine ⟨fun p hp v hv => h.counter p hp v (hsub.subset hv), h.pairs.sublist hsub,
    fun v hv => h.starts v (List.mem_cons_of_mem u hv),
    fun hlen v hv => h.sorts (hlen.trans hsub.length_le) v (hsub.subset hv),
    h.ascending.of_cons, fun v hv => ?_⟩
  exact (h.ahead v hv).imp_right (fun hv => ⟨hv.1, fun x hx => hv.2 x (List.mem_cons_of_mem u hx)⟩)

/-- Comparing the next update of the container. A key without an entry gets one where
the update starts. -/
theorem accept {pts : Option Int32} {b : Reorder.Buffer Int32 PtsUpdate} {u : PtsUpdate}
    (h : Pending old pts b.held (u :: todo)) (hsum : InRange (b.pos.toInt + u.info.count.toInt))
    (hpts : pts = some b.pos ∨ b.held = [] ∧ ptsOrder b.pos u = .eq) :
    let a := (Reorder.accept ptsOrder ptsAfter b u).1
    Pending old (some a.pos) a.held todo := by
  have hord := ptsOrder_eq_compare hsum
  have hle : ∀ v ∈ todo, ptsStart u ≤ ptsStart v := (List.pairwise_cons.mp h.ascending).1
  unfold Reorder.accept
  cases hc : ptsOrder b.pos u with
  | eq =>
    have hpos : b.pos.toInt = ptsStart u := compare_eq_iff_eq.mp (hord.symm.trans hc)
    have hahead : ∀ v ∈ b.held, v ∈ old := by
      intro v hv
      refine (h.ahead v hv).resolve_right (fun hnew => ?_)
      -- a new one starts after the counter and no later than `u`
      have hp : pts = some b.pos := hpts.resolve_right (fun hnil => by rw [hnil.1] at hv; cases hv)
      have h1 := hnew.1 b.pos hp
      have h2 := hnew.2 u (by simp)
      omega
    have hpairs : ∀ v ∈ b.held ++ todo, Together old u v :=
      (List.pairwise_cons.mp ((List.perm_middle.pairwise_iff Together.symm).mp h.pairs)).1
    refine h.tail.sublist ⟨b.held, .refl _, .refl _⟩ (fun v hv => (hpairs v hv).1 ?_)
      (fun v hv => Or.inl (hahead v hv))
    rcases List.mem_append.mp hv with hv | hv
    · exact Or.inr (Or.inl (hahead v hv))
    · exact Or.inr (Or.inr (hle v hv))
  | gt =>
    have hp : pts = some b.pos := hpts.resolve_right (fun hnil => by rw [hc] at hnil; cases hnil.2)
    exact h.tail.sublist ⟨b.held, .refl _, .refl _⟩ (h.tail.counter b.pos hp)
      (fun v hv => (h.ahead v hv).imp_right (fun hnew => hnew.1 b.pos hp))
  | lt =>
    have hp : pts = some b.pos := hpts.resolve_right (fun hnil => by rw [hc] at hnil; cases hnil.2)
    have hlt : b.pos.toInt < ptsStart u := compare_lt_iff_lt.mp (hord.symm.trans hc)
    have hsame : (b.held ++ [u]) ++ todo = b.held ++ u :: todo := by simp
    subst hp
    refine ⟨?_, ?_, h.tail.starts, ?_, h.tail.ascending, fun v hv => ?_⟩
    · rw [hsame]
      exact h.counter
    · rw [hsame]
      exact h.pairs
    · rw [hsame]
      exact h.sorts
    · rcases List.mem_append.mp hv with hv | hv
      · exact h.tail.ahead v hv
      · obtain rfl : v = u := by simpa using hv
        refine Or.inr ⟨fun p hp => ?_, hle⟩
        cases hp
        exact hlt

/-- Feeding the next update of the container to the entry of its key. -/
theorem feed {pts : Option Int32} {e : LiveEntry} {u : PtsUpdate} (now deadline : Instant)
    (h : Pending old pts e.held (u :: todo)) (hsum : InRange (e.pts.toInt + u.info.count.toInt))
    (hpts : pts = some e.pts ∨ e.held = [] ∧ ptsOrder e.pts u = .eq) :
    (∀ n ∈ e.feedSums now deadline u, InRange n) ∧
    Pending old (some (e.feed now deadline u).1.pts) (e.feed now deadline u).1.held todo := by
  have haccept := (accept_buffer e now deadline u).1
  have hpos : (e.accept now deadline u).1.pts = (Reorder.accept ptsOrder ptsAfter e.buffer u).1.pos := by
    rw [← haccept]; rfl
  have hheld : (e.accept now deadline u).1.held = (Reorder.accept ptsOrder ptsAfter e.buffer u).1.held := by
    rw [← haccept]; rfl
  have hpending : Pending old pts e.buffer.held (u :: todo) := h
  obtain ⟨hsums, hleft⟩ := (hpending.accept hsum hpts).drain
  rw [← hpos, ← hheld] at hsums hleft
  have hbuf : (e.feed now deadline u).1.buffer = _ := (drainGap_buffer (e.accept now deadline u).1).1
  refine ⟨List.forall_mem_cons.mpr ⟨hsum, hsums⟩, ?_⟩
  have h1 : (e.feed now deadline u).1.pts = _ := congrArg Reorder.Buffer.pos hbuf
  have h2 : (e.feed now deadline u).1.held = _ := congrArg Reorder.Buffer.held hbuf
  rw [h1, h2]
  exact hleft

end Pending

/-! The loop. -/

/-- The counter of a key. -/
def counterFor (s : MessageBoxes) (key : Key) : Option Int32 := (s.entry key).map LiveEntry.pts

/-- Every key that is not queued fits what is still to come for it. -/
def LoopFits (old : Key → List PtsUpdate) (s : MessageBoxes) (us : List Update) : Prop :=
  ∀ key, key ∉ s.gettingDiffFor → own key us ≠ [] →
    Pending (old key) (counterFor s key) (heldFor s key) (own key us)

/-- The rest of a container fits a box that is the same for the keys that are not queued. -/
theorem LoopFits.same {old : Key → List PtsUpdate} {s s' : MessageBoxes} {u : Update} {us : List Update}
    (h : LoopFits old s (u :: us))
    (hsame : ∀ key, key ∉ s'.gettingDiffFor → key ∉ s.gettingDiffFor ∧ s'.entry key = s.entry key ∧
      own key (u :: us) = own key us) : LoopFits old s' us := by
  intro key hq hne
  obtain ⟨hq', hentry, hown⟩ := hsame key hq
  have := h key hq' (hown ▸ hne)
  unfold counterFor heldFor at this ⊢
  rwa [hentry, ← hown]

/-- The entry the live path works on has a counter the update can be compared with. -/
theorem liveEntry_pending {old : Key → List PtsUpdate} {u : PtsUpdate}
    {todo : List PtsUpdate} (deadline : Instant)
    (h : Pending (old u.info.key) (counterFor s u.info.key) (heldFor s u.info.key) (u :: todo)) :
    let e := liveEntry s deadline u
    InRange (e.pts.toInt + u.info.count.toInt) ∧ e.held = heldFor s u.info.key ∧
    (counterFor s u.info.key = some e.pts ∨ e.held = [] ∧ ptsOrder e.pts u = .eq) := by
  have hstart : InRange (ptsStart u) := h.starts u (by simp)
  unfold liveEntry counterFor heldFor at *
  cases he : s.entry u.info.key with
  | none =>
    have hpts : (u.info.pts - u.info.count).toInt = ptsStart u := toInt_sub_of_inRange hstart
    refine ⟨?_, rfl, Or.inr ⟨rfl, ptsOrder_fresh u⟩⟩
    change InRange ((u.info.pts - u.info.count).toInt + u.info.count.toInt)
    rw [hpts, ptsStart, Int.sub_add_cancel]
    exact inRange_toInt u.info.pts
  | some e =>
    rw [he] at h
    exact ⟨h.counter e.pts rfl u (by simp), rfl, Or.inl rfl⟩

section Turns
variable {old : Key → List PtsUpdate} {b : Batch} (hs : Sound b.box) (now : Instant) {us : List Update}
include hs

theorem LoopFits.tooLong {id : Int} {pts : Option Int32} (h : LoopFits old b.box (.channelTooLong id pts :: us)) :
    LoopFits old (b.processUpdate now (nextUpdatesDeadline now) (.channelTooLong id pts)).box us := by
  refine h.same (fun key hq => ?_)
  obtain ⟨hto, hentry⟩ := channelTooLong_entry hs.rep.sorted (nextUpdatesDeadline now) id pts key
  exact ⟨fun hc => hq (hto (Or.inl hc)), hentry hq, own_cons_none rfl key us⟩

theorem LoopFits.queued {u : PtsUpdate} (ht : NotTooLong u.update) (hq : u.info.key ∈ b.box.gettingDiffFor)
    (h : LoopFits old b.box (u.update :: us)) : LoopFits old (b.box.feedQueued now u.info.key) us := by
  refine h.same (fun key hkey => ?_)
  rw [feedQueued, resetDeadline_gettingDiffFor] at hkey
  have hne : u.info.key ≠ key := fun heq => hkey (heq ▸ hq)
  refine ⟨hkey, ?_, by rw [own_cons_pts ht, if_neg hne]⟩
  rw [feedQueued, entry_resetDeadline hs.rep.sorted, if_neg (Ne.symm hne)]

theorem LoopFits.live {u : PtsUpdate} (ht : NotTooLong u.update) (hq : u.info.key ∉ b.box.gettingDiffFor)
    (h : LoopFits old b.box (u.update :: us)) :
    (∀ n ∈ b.ptsSums now (nextUpdatesDeadline now) u, InRange n) ∧
    LoopFits old (b.box.feedLive now (nextUpdatesDeadline now) u).1 us := by
  have hown : own u.info.key (u.update :: us) = u :: own u.info.key us := by
    rw [own_cons_pts ht, if_pos rfl]
  have hpending := h u.info.key hq (by rw [hown]; exact List.cons_ne_nil _ _)
  rw [hown] at hpending
  obtain ⟨hsum, hheld, hpts⟩ := liveEntry_pending (nextUpdatesDeadline now) hpending
  obtain ⟨hsums, hleft⟩ := (hheld ▸ hpending : Pending _ _ (liveEntry b.box _ u).held _).feed now
    (nextUpdatesDeadline now) hsum hpts
  let r := (liveEntry b.box (nextUpdatesDeadline now) u).feed now (nextUpdatesDeadline now) u
  have hkey : r.1.key = u.info.key := by rw [feed_key, liveEntry_key hs.rep.sorted.ordered]
  refine ⟨?_, fun key hkq hne => ?_⟩
  · rw [Batch.ptsSums, if_neg (by rwa [List.contains_iff_mem])]
    exact List.forall_mem_cons.mpr ⟨hpending.starts u (by simp), hsums⟩
  · have hentry : (b.box.feedLive now (nextUpdatesDeadline now) u).1.entry key =
        if key = u.info.key then some r.1 else b.box.entry key := by
      rw [feedLive_eq hs.rep.sorted.ordered, ← hkey]
      exact entry_setEntry hs.rep.sorted r.1 key
    have hqueue : (b.box.feedLive now (nextUpdatesDeadline now) u).1.gettingDiffFor =
        b.box.gettingDiffFor := by
      rw [feedLive_eq hs.rep.sorted.ordered]
      exact setEntry_gettingDiffFor b.box _
    unfold counterFor heldFor
    rw [hentry]
    by_cases hk : key = u.info.key
    · rw [if_pos hk, hk]
      exact hleft
    · have hskip : own key (u.update :: us) = own key us := by
        rw [own_cons_pts ht, if_neg (Ne.symm hk)]
      rw [if_neg hk, ← hskip]
      exact h key (hqueue ▸ hkq) (hskip ▸ hne)

/-- One turn of the loop. -/
theorem LoopFits.step {u : Update} (h : LoopFits old b.box (u :: us)) :
    (∀ n ∈ b.turnSums now (nextUpdatesDeadline now) u, InRange n) ∧
    LoopFits old (b.processUpdate now (nextUpdatesDeadline now) u).box us := by
  rcases update_cases u with ⟨id, pts, rfl⟩ | ⟨ht, hnone⟩ | ⟨p, rfl, ht⟩
  · exact ⟨fun n hn => (by cases hn), h.tooLong hs now⟩
  · rw [turnSums_plain b now _ ht hnone, processUpdate_plain b now _ ht hnone]
    exact ⟨fun n hn => (by cases hn),
      h.same (fun key hq => ⟨hq, rfl, own_cons_none (ordered_plain ht hnone) key us⟩)⟩
  · rw [turnSums_pts b now _ ht, processUpdate_pts b now _ ht]
    by_cases hq : p.info.key ∈ b.box.gettingDiffFor
    · have hc : b.box.gettingDiffFor.contains p.info.key = true := List.contains_iff_mem.mpr hq
      rw [Batch.ptsSums, if_pos hc, Batch.processPts, if_pos hc]
      exact ⟨fun n hn => (by cases hn), h.queued hs now ht hq⟩
    · have hc : ¬ b.box.gettingDiffFor.contains p.info.key = true := by rwa [List.contains_iff_mem]
      rw [Batch.processPts, if_neg hc]
      exact h.live hs now ht hq

end Turns

/-- The loop over a container that fits. -/
theorem LoopFits.sums (old : Key → List PtsUpdate) (now : Instant) : ∀ (us : List Update) {b : Batch},
    Sound b.box → LoopFits old b.box us → ∀ n ∈ loopSums now (nextUpdatesDeadline now) b us, InRange n
  | [], _, _, _, n, hn => by cases hn
  | u :: us, b, hs, h, n, hn => by
    obtain ⟨hturn, hrest⟩ := h.step hs now
    rcases List.mem_append.mp hn with hn | hn
    · exact hturn n hn
    · exact LoopFits.sums old now us ((processUpdate_moves b u).sound hs) hrest n hn

/-! The condition. -/

/-- The updates of a container for a key fit its counter, what is buffered for it and one
another: no start of one that has to be sorted, no sum of the counter and a count, and no
sum of where one leads and the count of another is outside `i32`. -/
structure KeyFits (pts : Option Int32) (held us : List PtsUpdate) : Prop where
  starts : ∀ u ∈ us, InRange (ptsStart u)
  sorts : 2 ≤ (held ++ us).length → ∀ u ∈ held ++ us, InRange (ptsStart u) ∧ InRange (-ptsStart u)
  counter : ∀ p, pts = some p → ∀ u ∈ held ++ us, InRange (p.toInt + u.info.count.toInt)
  pairs : (held ++ us).Pairwise (Together held)

/-- The updates of a container fit the counters, the queue and the buffers they find. -/
structure BatchFits (pts : Key → Option Int32) (queued : Key → Prop) (held : Key → List PtsUpdate)
    (us : List Update) : Prop where
  sorts : 2 ≤ us.length → ∀ u ∈ us, ∀ info, PtsInfo.fromUpdate u = some info →
    InRange (info.pts.toInt - info.count.toInt)
  keys : ∀ key, ¬ queued key → own key us ≠ [] → KeyFits (pts key) (held key) (own key us)

theorem update_of_ordered {u : Update} {p : PtsUpdate} (h : ordered u = some p) : p.update = u := by
  rcases update_cases u with ⟨id, pts, rfl⟩ | ⟨ht, hnone⟩ | ⟨q, rfl, ht⟩
  · cases h
  · rw [ordered_plain ht hnone] at h
    cases h
  · rw [ordered_pts ht] at h
    cases h
    rfl

/-- The sort of a container puts the updates of a key in the order of their starts. -/
theorem own_ascending {key : Key} {us : List Update} (h : ∀ u ∈ own key us, InRange (ptsStart u)) :
    (own key (sortByKey updateSortKey us)).Pairwise (fun u v => ptsStart u ≤ ptsStart v) := by
  have hkeys : (own key (sortByKey updateSortKey us)).Pairwise
      (fun u v => updateSortKey u.update ≤ updateSortKey v.update) := by
    refine List.Pairwise.filter _ ((sortByKey_pairwise updateSortKey us).filterMap ordered ?_)
    intro a a' hle u hu v hv
    rwa [update_of_ordered hu, update_of_ordered hv]
  have hstart : ∀ u ∈ own key (sortByKey updateSortKey us), (updateSortKey u.update).toInt = ptsStart u := by
    intro u hu
    rw [u.sortKey]
    exact toInt_sub_of_inRange (h u ((own_perm key (sortByKey_perm _ us)).mem_iff.mp hu))
  refine hkeys.imp_of_mem (fun {u v} hu hv hle => ?_)
  rwa [Int32.le_iff_toInt_le, hstart u hu, hstart v hv] at hle

theorem KeyFits.pending {pts : Option Int32} {held us us' : List PtsUpdate} (h : KeyFits pts held us)
    (hperm : us'.Perm us) (hasc : us'.Pairwise (fun u v => ptsStart u ≤ ptsStart v)) :
    Pending held pts held us' := by
  have hall : (held ++ us').Perm (held ++ us) := hperm.append_left held
  refine ⟨fun p hp u hu => h.counter p hp u (hall.mem_iff.mp hu),
    (hall.pairwise_iff Together.symm).mpr h.pairs, fun u hu => h.starts u (hperm.mem_iff.mp hu),
    fun hlen u hu => h.sorts (hall.length_eq ▸ hlen) u (hall.mem_iff.mp hu), hasc, fun u hu => Or.inl hu⟩

/-- A container that fits is sorted and worked through within `i32`. -/
theorem BatchFits.sums (hs : Sound s) (now : Instant) {us : List Update}
    (h : BatchFits (counterFor s) (fun key => key ∈ s.gettingDiffFor) (heldFor s) us) :
    ∀ n ∈ s.allSums now us, InRange n := by
  have hsort : ∀ n ∈ sortSums us, InRange n := by
    intro n hn
    unfold sortSums at hn
    split at hn
    · cases hn
    · next hlen =>
      obtain ⟨u, hu, hn⟩ := List.mem_flatMap.mp hn
      unfold startSums at hn
      split at hn
      · next info hinfo =>
        rw [List.mem_singleton] at hn
        exact hn ▸ h.sorts (by omega) u hu info hinfo
      · cases hn
  refine List.forall_mem_append.mpr ⟨hsort, LoopFits.sums (heldFor s) now _ hs (fun key hq hne => ?_)⟩
  have hperm := own_perm key (sortByKey_perm updateSortKey us)
  have hkey := h.keys key hq (fun hnil => hne (List.Perm.eq_nil (hnil ▸ hperm)))
  exact hkey.pending hperm (own_ascending hkey.starts)

/-! The operations. -/

/-- The updates an operation brings fit the box: the ones of a container that passes the
`seq` check, or the other updates of a difference, which find the counters where the
difference puts them. A timeout is not negative. -/
def Fits (s : MessageBoxes) : Op → Prop
  | .processUpdates updates => ∀ c, adapt updates = .ok c →
    (c.seqStart ≠ NO_SEQ → InRange (s.seq.toInt + 1)) ∧
    (c.seqStart = NO_SEQ ∨ c.seqStart = s.seq + 1 →
      BatchFits (counterFor s) (fun key => key ∈ s.gettingDiffFor) (heldFor s) c.updates)
  | .applyDifference (.difference d) | .applyDifference (.slice d) =>
    .common ∈ s.gettingDiffFor ∨ .secondary ∈ s.gettingDiffFor →
      BatchFits (Function.update (Function.update (counterFor s) .common (some d.state.pts))
        .secondary (some d.state.qts)) (fun key => key ∈ s.gettingDiffFor) (heldFor s) d.otherUpdates
  | .applyChannelDifference difference => ∀ id d, s.channelDiffInFlight = some id →
    .channel id ∈ s.gettingDiffFor → adaptChannelDifference difference = .ok d →
      TimeoutFits d.timeout ∧
      BatchFits (Function.update (counterFor s) (.channel id) (some d.pts))
        (fun key => key ∈ s.gettingDiffFor ∧ ¬ (key = .channel id ∧ d.final = true)) (heldFor s)
        d.otherUpdates
  | _ => True

theorem counterFor_setPts (hs : s.Sorted) (now : Instant) (key : Key) (pts : Int32) :
    counterFor (s.setPts now key pts) = Function.update (counterFor s) key (some pts) := by
  funext key'
  unfold counterFor
  rw [entry_setPts hs]
  by_cases hk : key' = key
  · subst hk
    simp
  · simp [hk]

theorem heldFor_setPts (hs : s.Sorted) (now : Instant) (key : Key) (pts : Int32) :
    heldFor (s.setPts now key pts) = heldFor s := by
  funext key'
  by_cases hk : key' = key
  · subst hk
    rw [heldFor, entry_setPts hs, if_pos rfl]
    exact setPts_held s key' pts _
  · rw [heldFor, entry_setPts hs, if_neg hk]
    rfl

theorem setPts_sorted (hs : s.Sorted) (now : Instant) (key : Key) (pts : Int32) :
    (s.setPts now key pts).Sorted := by
  rw [setPts_eq _ _ _ _ hs.ordered]
  exact setEntry_sorted hs _

/-- The counters are at the state of the difference. -/
theorem differenceBase_counters (hs : s.Sorted) (now : Instant) (d : DifferenceBody) :
    counterFor (differenceBase s now d) =
      Function.update (Function.update (counterFor s) .common (some d.state.pts)) .secondary
        (some d.state.qts) ∧
    (differenceBase s now d).gettingDiffFor = s.gettingDiffFor ∧
    heldFor (differenceBase s now d) = heldFor s := by
  have hs₀ : Sorted { s with date := d.state.date, seq := d.state.seq } := hs
  have hs₁ := setPts_sorted hs₀ now .common d.state.pts
  unfold differenceBase
  refine ⟨?_, ?_, ?_⟩
  · rw [counterFor_setPts hs₁, counterFor_setPts hs₀]
    rfl
  · rw [setPts_gettingDiffFor hs₁.ordered, setPts_gettingDiffFor hs₀.ordered]
  · rw [heldFor_setPts hs₁, heldFor_setPts hs₀]
    rfl

theorem heldFor_queued (h : RepInv s) {key : Key} (hq : key ∈ s.gettingDiffFor) :
    heldFor s key = [] := by
  obtain ⟨e, he, hgap⟩ := h.backed key hq
  simp [heldFor, he, LiveEntry.held, hgap]

theorem endGetDiff_counters (hs : s.Sorted) (now : Instant) (key : Key) :
    counterFor (s.endGetDiff now key) = counterFor s ∧ heldFor (s.endGetDiff now key) = heldFor s := by
  have hentry := entry_endGetDiff hs now key
  constructor
  · funext key'
    exact map_entry_edit (hentry key') And.left (fun _ => rfl)
  · funext key'
    have hheld := map_entry_edit (hentry key') And.left (g := LiveEntry.held) (fun _ => rfl)
    rw [heldFor, hheld]
    rfl

theorem channelTaken_counters (h : RepInv s) {id : Int}
    (hq : .channel id ∈ s.gettingDiffFor) :
    counterFor (channelTaken s id) = counterFor s ∧
    (channelTaken s id).gettingDiffFor = s.gettingDiffFor ∧ heldFor (channelTaken s id) = heldFor s := by
  have hs : Sorted { s with channelDiffInFlight := none } := h.sorted
  have hentry : ∀ key, (channelTaken s id).entry key =
      if key = .channel id then (s.entry (.channel id)).map (fun e => { e with possibleGap := none })
      else s.entry key :=
    fun key => entry_updateEntry (f := fun e => { e with possibleGap := none }) hs (.channel id)
      (fun _ => rfl) key
  refine ⟨?_, updateEntry_gettingDiffFor _ _ _, ?_⟩
  · funext key
    exact map_entry_edit (hentry key) (fun hk => hk) (fun _ => rfl)
  · funext key
    by_cases hk : key = .channel id
    · -- nothing was buffered
      rw [hk, heldFor_queued h hq, heldFor, hentry, if_pos rfl]
      cases s.entry (.channel id) <;> rfl
    · rw [heldFor, hentry, if_neg hk]
      rfl

/-- The channel's counter is at the difference, and a final one takes it off the queue. -/
theorem channelBase_counters (h : RepInv s) (now : Instant) {id : Int}
    (hq : .channel id ∈ s.gettingDiffFor) (d : ChannelDifferenceBody) :
    counterFor (channelBase s now id d) =
      Function.update (counterFor s) (.channel id) (some d.pts) ∧
    (∀ key, key ∈ (channelBase s now id d).gettingDiffFor ↔
      key ∈ s.gettingDiffFor ∧ ¬ (key = .channel id ∧ d.final = true)) ∧
    heldFor (channelBase s now id d) = heldFor s := by
  obtain ⟨hcounter, hqueue, hheld⟩ := channelTaken_counters h hq
  have htaken := channelTaken_repInv h id
  unfold channelBase
  dsimp only
  cases d.final with
  | false =>
    simp only [Bool.false_eq_true, if_false, and_false, not_false_eq_true, and_true]
    rw [counterFor_setPts htaken.sorted, heldFor_setPts htaken.sorted,
      setPts_gettingDiffFor htaken.sorted.ordered, hcounter, hqueue, hheld]
    exact ⟨rfl, fun _ => Iff.rfl, rfl⟩
  | true =>
    have hend := htaken.endGetDiff now (.channel id)
    obtain ⟨hcounter', hheld'⟩ := endGetDiff_counters htaken.sorted now (.channel id)
    simp only [if_true, and_true]
    rw [counterFor_setPts hend.sorted, heldFor_setPts hend.sorted,
      setPts_gettingDiffFor hend.sorted.ordered, endGetDiff_gettingDiffFor, hcounter', hheld', hcounter,
      hqueue, hheld]
    refine ⟨rfl, fun key => ?_, rfl⟩
    rw [h.nodup.mem_erase_iff, and_comm]

theorem refeed_sums (s : MessageBoxes) (now : Instant) (us : List Update) (users : List User)
    (chats : List Chat) : s.processSums now (refeed us users chats) = s.allSums now us := by
  rw [processSums, adapt_refeed]
  exact if_pos rfl

/-- The sums of an operation that fits. -/
theorem Fits.sums (hs : Sound s) (now : Instant) {op : Op} (h : Fits s op) :
    ∀ n ∈ op.sums s now, InRange n := by
  -- the two forms of a difference that carry updates
  have hbody : ∀ d : DifferenceBody, Fits s (.applyDifference (.difference d)) →
      ∀ n ∈ (Op.applyDifference (.difference d)).sums s now, InRange n := by
    intro d h
    simp only [Op.sums]
    split
    · next hq =>
      obtain ⟨hcounter, hqueue, hheld⟩ := differenceBase_counters hs.rep.sorted now d
      rw [refeed_sums]
      refine BatchFits.sums ((differenceBase_moves s now d).sound hs) now ?_
      rw [hcounter, hqueue, hheld]
      exact h hq
    · exact inRange_nil
  cases op with
  | processUpdates updates =>
    simp only [Op.sums, processSums]
    cases hb : adapt updates with
    | error g => exact inRange_nil
    | ok c =>
      obtain ⟨hseq, hbatch⟩ := h c hb
      dsimp only
      split
      · next hz => exact BatchFits.sums hs now (hbatch (Or.inl hz))
      · next hz =>
        refine List.forall_mem_cons.mpr ⟨hseq hz, ?_⟩
        split
        · next hnext => exact BatchFits.sums hs now (hbatch (Or.inr hnext))
        · exact inRange_nil
  | applyDifference difference =>
    cases difference with
    | difference d => exact hbody d h
    | slice d => exact hbody d h
    | empty _ _ => exact inRange_nil
    | tooLong _ => exact inRange_nil
  | applyChannelDifference difference =>
    simp only [Op.sums]
    split
    · next id d hin hd =>
      split
      · next hq =>
        obtain ⟨hcounter, hqueue, hheld⟩ := channelBase_counters hs.rep now hq d
        rw [refeed_sums]
        refine BatchFits.sums ((channelBase_moves s now id d).sound hs) now ?_
        have hq' : (fun key => key ∈ (channelBase s now id d).gettingDiffFor) =
            fun key => key ∈ s.gettingDiffFor ∧ ¬ (key = .channel id ∧ d.final = true) :=
          funext (fun key => propext (hqueue key))
        rw [hcounter, hq', hheld]
        exact (h id d hin hq hd).2
      · exact inRange_nil
    · exact inRange_nil
  | setState _ => exact inRange_nil
  | trySetChannelState _ _ => exact inRange_nil
  | checkDeadlines => exact inRange_nil
  | getChannelDifference => exact inRange_nil
  | endChannelDifference _ => exact inRange_nil
  | abortDifference => exact inRange_nil
  | forceResetCommonPts _ _ _ _ => exact inRange_nil

theorem applyChannelDifference_fits (dbg : Bool) (now : Instant) (h : RepInv s)
    {difference : ChannelDifference} (hfits : Fits s (.applyChannelDifference difference)) (p : Panic) :
    ((applyChannelDifference dbg now difference).run s).1 ≠ .error p := by
  intro hp
  rcases marked_or_unmarked s with hm | ⟨id, hin, hq⟩
  · rw [applyChannelDifference_unmarked dbg now hm] at hp
    cases hp
  · cases hd : adaptChannelDifference difference with
    | error g =>
      rw [applyChannelDifference_malformed dbg now h hin hq hd] at hp
      cases hp
    | ok d =>
      rw [(applyChannelDifference_run dbg now h hin hq hd).1 (hfits id d hin hq hd).1] at hp
      cases hp

/-- A lawful operation that fits does not panic. -/
theorem Fits.quiet {dbg : Bool} (h : RepInv s) {now : Instant} {op : Op}
    (hop : Lawful s (now, op)) (hfits : Fits s op) (p : Panic) :
    ((op.call dbg now).run s).1 ≠ .error p := by
  have hc := repInv_carried dbg now (fun _ => False)
  intro hp
  cases op with
  | processUpdates u => cases hp
  | setState state =>
    have hempty : s.isEmpty = true := hop
    simp [Op.call, setState, hempty] at hp
  | trySetChannelState id pts => cases hp
  | checkDeadlines => cases hp
  | getChannelDifference => exact ((hc.getChannelDifference).run h).2 p ((Call.discard_error _ s p).mp hp)
  | applyDifference d => exact ((hc.applyDifference d).run h).2 p ((Call.discard_error _ s p).mp hp)
  | applyChannelDifference difference =>
    exact applyChannelDifference_fits dbg now h hfits p ((Call.discard_error _ s p).mp hp)
  | endChannelDifference reason => exact ((hc.endChannelDifference reason).run h).2 p hp
  | abortDifference => exact (hc.abortDifference.run h).2 p hp
  | forceResetCommonPts pts qts date seq => cases hp

/-- In a lawful run whose updates, differences and timeouts all fit the box they come to, no
operation works out a sum outside `i32` or a deadline from a negative timeout. -/
theorem run_in_range (dbg : Bool) {start : Start} {is : List (Instant × Op)}
    (hstart : start.DistinctChannels) (hlawful : Run.AllSteps (step dbg) Lawful start.box is)
    (hfits : Run.AllSteps (step dbg) (fun s i => Fits s i.2) start.box is) :
    Run.AllSteps (step dbg) (fun s i => ¬ Overflows dbg s i) start.box is := by
  refine Run.allSteps_of_inv (I := Sound) (step dbg) (fun s i _ hs => step_sound dbg hs i) ?_ is start.box
    (start_sound hstart) (Run.allSteps_and (step dbg) hlawful hfits)
  rintro s ⟨now, op⟩ ⟨hop, hfit⟩ hs (⟨n, hn, hout⟩ | hp)
  · exact hout (hfit.sums hs now n hn)
  · exact hfit.quiet hs.rep hop .instantOverflow hp

/-- An account is set to 10. -/
def setToTen : List (Instant × Op) := [(0, .setState { pts := 10, qts := 5, date := 1, seq := 1 })]

/-- One deletion that leads from 10 to 11, in the container that is next. -/
def elevenNext : UpdatesCombined :=
  { updates := [.deleteMessages [7] 11 1], users := [], chats := [], date := 2, seqStart := 2, seq := 2 }

theorem elevenNext_in_range :
    Run.AllSteps (step true) (fun s i => ¬ Overflows true s i) (Start.new 0).box
      (setToTen ++ [(1, .processUpdates (.updates (.combined elevenNext)))]) := by
  refine run_in_range true trivial ⟨rfl, trivial, trivial⟩ ⟨trivial, fun c hc => ?_, trivial⟩
  cases hc
  refine ⟨fun _ => by decide, fun _ => ⟨fun hlen => absurd hlen (by decide), fun key _ hne => ?_⟩⟩
  have hown : own key elevenNext.updates = if Key.common = key then [⟨_, ⟨.common, 11, 1⟩, rfl⟩] else [] :=
    own_cons_pts (u := ⟨.deleteMessages [7] 11 1, ⟨.common, 11, 1⟩, rfl⟩) (by decide) key []
  by_cases hk : Key.common = key
  · subst hk
    rw [hown, if_pos rfl]
    refine ⟨fun u hu => ?_, fun hlen => absurd hlen (by decide), fun p hp u hu => ?_, List.pairwise_singleton _ _⟩
    · rw [List.mem_singleton] at hu
      subst hu
      decide
    · cases hp
      change u ∈ [_] at hu
      rw [List.mem_singleton] at hu
      subst hu
      decide
  · rw [hown, if_neg hk] at hne
    exact absurd rfl hne

/-- A count that leads from far below 0: `10 + 2147483647`. The update is behind the
counter, and the wrapped sum takes it for one ahead of a gap. -/
theorem count_overflows :
    let s := Run.final (step true) (Start.new 0).box setToTen
    let short : UpdateShort := { update := .deleteMessages [7] 11 2147483647, date := 2 }
    Reachable true s ∧ Overflows true s (1, .processUpdates (.updates (.updateShort short))) ∧
    ((s.processUpdates 1 (.updates (.updateShort short))).2.entry .common).any
      (fun e => e.possibleGap.isSome) = true := by
  refine ⟨⟨.new 0, setToTen, trivial, ⟨rfl, trivial⟩, rfl⟩, Or.inl ⟨2147483657, by decide, by decide⟩, by decide⟩

end Ferogram.Msgbox
