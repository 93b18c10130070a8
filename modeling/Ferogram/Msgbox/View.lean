import Ferogram.Msgbox.CommonEntry
import Ferogram.Msgbox.GapBuffer

/- What one key sees of the box. An update belongs to at most one key, and one
   turn of the loop of `process_updates` reads and writes nothing of the others
   (`processUpdate_own`, `processUpdate_other`). Seen by a key, a batch is the run
   of its own updates in the order the sort puts them (`processAll_view`); since
   the sort is stable that order is the one the updates of that key alone would
   be sorted into, so processing them alone makes no difference
   (`processUpdates_decomposes`).

   That a drained update belongs to the key it is drained for is an invariant of
   the buffers. Invariants of single entries are proved once for all changes of
   the box, from what they have to survive (`EntryInv`). -/
namespace Ferogram.Msgbox
open Ferogram.Tl MessageBoxes StableSort

variable {s : MessageBoxes}

/-- The key an update belongs to. -/
def updateKey : Update → Option Key
  | .channelTooLong id _ => some (.channel id)
  | update => (PtsInfo.fromUpdate update).map PtsInfo.key

def belongsTo (key : Key) (update : Update) : Bool := updateKey update = some key

theorem updateKey_of_fromUpdate {u : Update} {info : PtsInfo}
    (h : PtsInfo.fromUpdate u = some info) : updateKey u = some info.key := by
  unfold updateKey
  split
  · next id pts =>
    obtain ⟨hraw, -⟩ := fromUpdate_eq_some.mp h
    cases pts with
    | none => cases hraw
    | some p => cases hraw; rfl
  · rw [h]; rfl

theorem belongsTo_ptsUpdate (key : Key) (u : PtsUpdate) :
    belongsTo key u.update = decide (u.info.key = key) := by
  simp [belongsTo, updateKey_of_fromUpdate u.from_update]

/-! Invariants of single entries. -/

/-- What a property of entries has to survive to hold of all of them, always. -/
structure EntryInv (Q : LiveEntry → Prop) : Prop where
  fresh : ∀ key pts deadline, Q (freshEntry key pts deadline)
  deadline : ∀ e d, Q e → Q { e with deadline := d }
  pts : ∀ e p, Q e → Q { e with pts := p }
  clearGap : ∀ e, Q e → Q { e with possibleGap := none }
  feed : ∀ e now deadline u, e.key = u.info.key → Q e → Q (e.feed now deadline u).1

/-- Every entry has the property. -/
def AllEntries (Q : LiveEntry → Prop) (s : MessageBoxes) : Prop := ∀ e ∈ s.entries, Q e

namespace AllEntries
variable {Q : LiveEntry → Prop}

theorem setEntry (hs : s.Ordered) (h : AllEntries Q s) {e : LiveEntry}
    (he : Q e) : AllEntries Q (s.setEntry e) := by
  intro a ha
  rcases mem_setEntry hs ha with rfl | ha
  · exact he
  · exact h a ha

theorem entry (hs : s.Ordered) (h : AllEntries Q s) {key : Key} {e : LiveEntry}
    (he : s.entry key = some e) : Q e := h e (entry_mem hs he).1

theorem updateEntry (hs : s.Ordered) (h : AllEntries Q s) (key : Key)
    {f : LiveEntry → LiveEntry} (hf : ∀ e, (f e).key = e.key) (hQ : ∀ e, Q e → Q (f e)) :
    AllEntries Q (s.updateEntry key f).2 := by
  rw [updateEntry_snd s key hs hf]
  cases he : s.entry key with
  | none => exact h
  | some e => exact h.setEntry hs (hQ e (h.entry hs he))

theorem resetDeadline (hQ : EntryInv Q) (hs : s.Ordered) (h : AllEntries Q s)
    (key : Key) (deadline : Instant) : AllEntries Q (s.resetDeadline key deadline) := by
  unfold AllEntries
  rw [resetDeadline_entries]
  exact h.updateEntry (f := fun e => { e with deadline := deadline }) hs key (fun _ => rfl)
    (fun e => hQ.deadline e deadline)

theorem endGetDiff (hQ : EntryInv Q) (hs : s.Ordered) (h : AllEntries Q s)
    (now : Instant) (key : Key) : AllEntries Q (s.endGetDiff now key) := by
  rw [endGetDiff_eq]
  split
  · have hs' : Ordered { s with gettingDiffFor := s.gettingDiffFor.erase key } := hs
    have h' : AllEntries Q { s with gettingDiffFor := s.gettingDiffFor.erase key } := h
    exact h'.resetDeadline hQ hs' key _
  · exact h

theorem clearGap (hQ : EntryInv Q) (hs : s.Ordered) (h : AllEntries Q s)
    (key : Key) : AllEntries Q (s.clearGap key).2 := h.updateEntry hs key (fun _ => rfl) hQ.clearGap

theorem clearGaps (hQ : EntryInv Q) (keys : List Key) :
    ∀ {s : MessageBoxes}, s.Ordered → AllEntries Q s → AllEntries Q (clearGaps s keys) := by
  induction keys with
  | nil => exact fun _ h => h
  | cons key keys ih =>
    intro s hs h
    have hext : Extends s (s.clearGap key).2 := Extends.updateEntry hs key (fun _ => rfl)
    exact ih hext.ordered (h.clearGap hQ hs key)

end AllEntries

theorem Move.allEntries {Q : LiveEntry → Prop} (hQ : EntryInv Q) {now : Instant}
    {s s' : MessageBoxes} (hm : Move now s s') (h : s.Ordered ∧ AllEntries Q s) :
    s'.Ordered ∧ AllEntries Q s' := by
  refine ⟨(hm.keys h.1).1, ?_⟩
  obtain ⟨hs, h⟩ := h
  cases hm with
  | bookkeeping he _ _ => exact fun e hmem => h e (he ▸ hmem)
  | clearGap key => exact h.clearGap hQ hs key
  | setPts key pts =>
    rw [setPts_eq s now key pts hs]
    refine h.setEntry hs (hQ.pts _ pts ?_)
    cases he : s.entry key with
    | none => exact hQ.fresh _ _ _
    | some e => exact h.entry hs he
  | track id pts => exact h.setEntry hs (hQ.fresh _ _ _)
  | queue key _ =>
    have hclear := h.clearGap hQ hs key
    rw [tryBeginGetDiff_eq hs]
    split
    · exact h
    · exact hclear
  | unqueue key => exact h.endGetDiff hQ hs now key
  | touch key => exact h.resetDeadline hQ hs key _
  | feed u _ =>
    rw [feedLive_eq hs]
    refine h.setEntry hs (hQ.feed _ now _ u (liveEntry_key hs _ u) ?_)
    unfold liveEntry
    cases he : s.entry u.info.key with
    | none => exact hQ.fresh _ _ _
    | some e => exact h.entry hs he
  | ban id _ =>
    have hord := (Extends.endGetDiff hs now (.channel id)).ordered
    intro e he
    rw [popEntry_snd] at he
    exact h.endGetDiff hQ hs now _ e ((SortedVec.remove_sublist hord _).subset he)

theorem step_allEntries {Q : LiveEntry → Prop} (hQ : EntryInv Q) (dbg : Bool)
    (i : Instant × Op) (h : s.Ordered ∧ AllEntries Q s) :
    (step dbg s i).Ordered ∧ AllEntries Q (step dbg s i) := by
  refine ⟨step_ordered dbg i h.1, ?_⟩
  obtain ⟨now, op⟩ := i
  rcases step_cases dbg s now op with hm | ⟨-, hc⟩ | ⟨state, -, hc⟩ |
    ⟨diff, id, d, t, -, -, -, -, -, -, hc⟩
  · exact (hm.inv (fun _ _ => Move.allEntries hQ) h).2
  · rw [hc, checkDeadlines_snd]
    split
    · split
      · exact h.2
      · have h' : AllEntries Q { s with gettingDiffFor := s.dueKeys now } := h.2
        exact h'.clearGaps hQ _ h.1
    · exact h.2
  · rw [hc]
    exact (h.2.setEntry h.1 (hQ.fresh _ _ _)).setEntry (setEntry_ordered h.1 _) (hQ.fresh _ _ _)
  · have hb := (beforeTimeout_moves dbg now s id d).inv (fun _ _ => Move.allEntries hQ) h
    rw [hc]
    exact hb.2.resetDeadline hQ hb.1 _ _

theorem start_allEntries {Q : LiveEntry → Prop} (hQ : EntryInv Q) (start : Start) :
    AllEntries Q start.box := by
  cases start with
  | new now => exact fun e he => by cases he
  | load now state =>
    intro e he
    obtain ⟨key, pts, rfl⟩ := fresh_of_mem_load he
    exact hQ.fresh key pts _

theorem Reachable.allEntries {Q : LiveEntry → Prop} (hQ : EntryInv Q) {dbg : Bool}
    (h : Reachable dbg s) : AllEntries Q s := by
  obtain ⟨start, is, -, -, rfl⟩ := h
  have hall := Run.states_inv_all (I := fun s => s.Ordered ∧ AllEntries Q s) (step dbg)
    (fun s i => step_allEntries hQ dbg i) is start.box
    ⟨start_ordered start, start_allEntries hQ start⟩
  exact (hall _ (Run.final_mem_states (step dbg) is start.box)).2

/-- What is buffered for a key belongs to it. -/
def Keyed (e : LiveEntry) : Prop := ∀ u ∈ e.held, u.info.key = e.key

theorem feed_mem {e : LiveEntry} {now deadline : Instant} {u x : PtsUpdate}
    (h : x ∈ (feedBuffer e.buffer u).2 ∨ x ∈ (e.feed now deadline u).1.held) :
    x = u ∨ x ∈ e.held := by
  have hheld : (e.feed now deadline u).1.held = (feedBuffer e.buffer u).1.held := by
    rw [← (feed_buffer e now deadline u).1]; rfl
  rw [hheld] at h
  exact Reorder.mem_feed gapStack_perm h

theorem keyed_entryInv : EntryInv Keyed where
  fresh _ _ _ u hu := by cases hu
  deadline _ _ h := h
  pts _ _ h := h
  clearGap _ _ u hu := by cases hu
  feed e now deadline u hkey h x hx := by
    rw [feed_key]
    rcases feed_mem (Or.inr hx) with rfl | hx
    · exact hkey.symm
    · exact h x hx

/-- What holds between two updates of a batch. -/
structure Sound (s : MessageBoxes) : Prop where
  rep : RepInv s
  keyed : AllEntries Keyed s

theorem Moves.sound {now : Instant} {s s' : MessageBoxes} (hm : Moves now s s') (h : Sound s) :
    Sound s' where
  rep := hm.repInv h.rep
  keyed := (hm.inv (fun _ _ => Move.allEntries keyed_entryInv) ⟨h.rep.sorted.ordered, h.keyed⟩).2

theorem Reachable.sound {dbg : Bool} (h : Reachable dbg s) : Sound s :=
  ⟨h.repInv, h.allEntries keyed_entryInv⟩

theorem Sound.checkDeadlines (h : Sound s) (now : Instant) :
    Sound (s.checkDeadlines now).2 where
  rep := h.rep.checkDeadlines now
  keyed := (step_allEntries keyed_entryInv true (now, .checkDeadlines)
    ⟨h.rep.sorted.ordered, h.keyed⟩).2

/-! What one key sees. -/

/-- The entry of a key, whether it is queued, and its updates approved so far. -/
structure View where
  entry : Option LiveEntry
  queued : Bool
  out : List Update
  deriving DecidableEq

namespace View

/-- `try_begin_get_diff`, seen by the key. -/
def tryBegin (v : View) : View :=
  { v with
    entry := if v.queued then v.entry else v.entry.map (fun e => { e with possibleGap := none })
    queued := v.queued || v.entry.isSome }

/-- `updateChannelTooLong`, seen by the channel. -/
def tooLong (v : View) (key : Key) (deadline : Instant) (pts : Option Int32) : View :=
  tryBegin { v with entry := (pts.map (fun pts => freshEntry key pts deadline)).or v.entry }

/-- An update with ordering metadata, seen by its key. -/
def pts (v : View) (now deadline : Instant) (u : PtsUpdate) : View :=
  if v.queued then
    { v with
      entry := v.entry.map (fun e => { e with deadline := nextUpdatesDeadline now })
      out := v.out ++ [u.update] }
  else
    let fresh := freshEntry u.info.key (u.info.pts - u.info.count) deadline
    let r := (v.entry.getD fresh).feed now deadline u
    { v with entry := some r.1, out := v.out ++ r.2.delivered }

/-- One update of a batch, seen by the key it belongs to. -/
def update (key : Key) (now deadline : Instant) (v : View) (update : Update) : View :=
  match update with
  | .channelTooLong _ pts => v.tooLong key deadline pts
  | update =>
    match h : PtsInfo.fromUpdate update with
    | none => v
    | some info => v.pts now deadline { update := update, info := info, from_update := h }

end View

/-- What `key` sees of a box. -/
def MessageBoxes.view (s : MessageBoxes) (key : Key) (out : List Update) : View :=
  { entry := s.entry key, queued := s.gettingDiffFor.contains key, out := out }

/-- What `key` sees of a batch in progress. -/
def Batch.view (b : Batch) (key : Key) : View :=
  b.box.view key (b.result.filter (belongsTo key))

theorem tryBeginGetDiff_view (hs : s.Sorted) (key key' : Key)
    (out : List Update) :
    (s.tryBeginGetDiff key').view key out =
      if key = key' then (s.view key out).tryBegin else s.view key out := by
  have hentry := entry_updateEntry (f := fun e => { e with possibleGap := none }) hs key'
    (fun _ => rfl) key
  rw [tryBeginGetDiff_eq hs.ordered]
  by_cases hk : key = key'
  · subst hk
    rw [if_pos rfl] at hentry ⊢
    by_cases hq : key ∈ s.gettingDiffFor
    · rw [if_pos (Or.inl hq)]
      simp [View.tryBegin, MessageBoxes.view, hq]
    · cases he : s.entry key with
      | none => simp [View.tryBegin, MessageBoxes.view, hq, he]
      | some e =>
        rw [if_neg (by simp [hq])]
        change View.mk ((s.clearGap key).2.entry key) _ out = _
        rw [MessageBoxes.clearGap, hentry, he]
        simp [View.tryBegin, MessageBoxes.view, hq, he]
  · rw [if_neg hk] at hentry ⊢
    split
    · rfl
    · change View.mk ((s.clearGap key').2.entry key) _ out = _
      rw [MessageBoxes.clearGap, hentry]
      simp [MessageBoxes.view, hk]

theorem setEntry_view (hs : s.Sorted) (e : LiveEntry) (key : Key)
    (out : List Update) :
    (s.setEntry e).view key out =
      if key = e.key then { s.view key out with entry := some e } else s.view key out := by
  unfold MessageBoxes.view
  rw [entry_setEntry hs, setEntry_gettingDiffFor]
  split <;> rfl

theorem resetDeadline_view (hs : s.Sorted) (key key' : Key) (deadline : Instant)
    (out : List Update) :
    (s.resetDeadline key' deadline).view key out =
      if key = key' then
        { s.view key out with entry := (s.entry key).map (fun e => { e with deadline := deadline }) }
      else s.view key out := by
  unfold MessageBoxes.view
  rw [entry_resetDeadline hs, resetDeadline_gettingDiffFor]
  split
  · next h => subst h; rfl
  · rfl

theorem channelTooLong_view (hs : s.Sorted) (deadline : Instant) (id : Int)
    (pts : Option Int32) (key : Key) (out : List Update) :
    (s.channelTooLong deadline id pts).view key out =
      if key = .channel id then (s.view key out).tooLong key deadline pts else s.view key out := by
  unfold channelTooLong
  cases pts with
  | none =>
    rw [tryBeginGetDiff_view hs]
    rfl
  | some p =>
    simp only
    rw [tryBeginGetDiff_view (setEntry_sorted hs _), setEntry_view hs]
    by_cases hk : key = .channel id
    · subst hk
      have hself : .channel id = (freshEntry (.channel id) p deadline).key := rfl
      rw [if_pos rfl, if_pos hself, if_pos rfl]
      rfl
    · have hne : key ≠ (freshEntry (.channel id) p deadline).key := hk
      rw [if_neg hk, if_neg hk, if_neg hne]

/-- What the live path delivers belongs to the key of the update. -/
theorem feed_delivered_key {e : LiveEntry} {now deadline : Instant} {u : PtsUpdate} {x : Update}
    (hk : Keyed e) (he : e.key = u.info.key) (hx : x ∈ (e.feed now deadline u).2.delivered) :
    updateKey x = some u.info.key := by
  rw [(feed_buffer e now deadline u).2] at hx
  obtain ⟨y, hy, rfl⟩ := List.mem_map.mp hx
  rw [updateKey_of_fromUpdate y.from_update]
  rcases Reorder.mem_feed gapStack_perm (Or.inl hy) with rfl | hy
  · rfl
  · rw [hk y hy, he]

theorem liveEntry_keyed (h : Sound s) (deadline : Instant) (u : PtsUpdate) :
    Keyed (liveEntry s deadline u) := by
  unfold liveEntry
  cases he : s.entry u.info.key with
  | none => exact keyed_entryInv.fresh _ _ _
  | some e => exact h.keyed.entry h.rep.sorted.ordered he

/-- What the live path of `u` delivers is all of `u`'s key. -/
theorem feedLive_delivered_key (h : Sound s) (now deadline : Instant)
    (u : PtsUpdate) : ∀ x ∈ (s.feedLive now deadline u).2.delivered,
      updateKey x = some u.info.key := by
  intro x hx
  rw [feedLive_eq h.rep.sorted.ordered] at hx
  exact feed_delivered_key (liveEntry_keyed h deadline u)
    (liveEntry_key h.rep.sorted.ordered deadline u) hx

theorem feedLive_view (hs : s.Sorted) (now deadline : Instant) (u : PtsUpdate)
    (key : Key) (out : List Update) :
    (s.feedLive now deadline u).1.view key out =
      if key = u.info.key then
        { s.view key out with entry := some ((liveEntry s deadline u).feed now deadline u).1 }
      else s.view key out := by
  have hkey : ((liveEntry s deadline u).feed now deadline u).1.key = u.info.key := by
    rw [feed_key, liveEntry_key hs.ordered]
  rw [feedLive_eq hs.ordered, ← hkey]
  exact setEntry_view hs _ key out

theorem view_append (s : MessageBoxes) (key : Key) (out out' : List Update) :
    s.view key (out ++ out') = { s.view key out with out := out ++ out' } := rfl

theorem processPts_own {b : Batch} (h : Sound b.box) (now deadline : Instant) (u : PtsUpdate) :
    (b.processPts now deadline u).view u.info.key =
      (b.view u.info.key).pts now deadline u := by
  have hs := h.rep.sorted
  have hself : belongsTo u.info.key u.update = true := by simp [belongsTo_ptsUpdate]
  unfold Batch.processPts Batch.view View.pts
  by_cases hq : b.box.gettingDiffFor.contains u.info.key = true
  · have hq' : (b.box.view u.info.key (b.result.filter (belongsTo u.info.key))).queued = true := hq
    rw [if_pos hq, if_pos hq', List.filter_append]
    simp only [List.filter_cons_of_pos hself, List.filter_nil, feedQueued]
    rw [view_append, resetDeadline_view hs, if_pos rfl]
    rfl
  · have hq' : ¬ (b.box.view u.info.key (b.result.filter (belongsTo u.info.key))).queued = true := hq
    rw [if_neg hq, if_neg hq']
    have hall : ∀ x ∈ (b.box.feedLive now deadline u).2.delivered,
        belongsTo u.info.key x = true := fun x hx => by
      simp [belongsTo, feedLive_delivered_key h now deadline u x hx]
    simp only
    rw [List.filter_append, List.filter_eq_self.mpr hall, view_append, feedLive_view hs,
      if_pos rfl, feedLive_eq hs.ordered]
    rfl

theorem processPts_other {b : Batch} (h : Sound b.box) (now deadline : Instant) (u : PtsUpdate)
    {key : Key} (hk : u.info.key ≠ key) :
    (b.processPts now deadline u).view key = b.view key := by
  have hs := h.rep.sorted
  unfold Batch.processPts Batch.view
  split
  · have hself : ¬ belongsTo key u.update = true := by simp [belongsTo_ptsUpdate, hk]
    simp only [List.filter_append, List.filter_cons_of_neg hself, List.filter_nil,
      List.append_nil, feedQueued]
    rw [resetDeadline_view hs, if_neg (Ne.symm hk)]
  · have hall : (b.box.feedLive now deadline u).2.delivered.filter (belongsTo key) = [] := by
      rw [List.filter_eq_nil_iff]
      intro x hx
      simp [belongsTo, feedLive_delivered_key h now deadline u x hx, hk]
    simp only [List.filter_append, hall, List.append_nil]
    rw [feedLive_view hs, if_neg (Ne.symm hk)]

/-- Not an `updateChannelTooLong`. -/
def NotTooLong (u : Update) : Prop := ∀ id pts, u ≠ .channelTooLong id pts

instance : DecidablePred NotTooLong := fun u =>
  match u with
  | .channelTooLong id pts => isFalse (fun h => h id pts rfl)
  | .newMessage .. | .deleteMessages .. | .readHistoryInbox .. | .readHistoryOutbox .. | .webPage ..
  | .readMessagesContents .. | .editMessage .. | .folderPeers .. | .pinnedMessages ..
  | .newChannelMessage .. | .editChannelMessage .. | .deleteChannelMessages ..
  | .readChannelInbox .. | .channelWebPage .. | .pinnedChannelMessages ..
  | .newEncryptedMessage .. | .chatParticipant .. | .channelParticipant .. | .botStopped ..
  | .botChatInviteRequester .. | .botChatBoost .. | .botMessageReaction .. | .messagePollVote ..
  | .other .. => isTrue (fun _ _ h => by cases h)

/-- The three kinds of update the loop tells apart. -/
theorem update_cases (u : Update) :
    (∃ id pts, u = .channelTooLong id pts) ∨ (NotTooLong u ∧ PtsInfo.fromUpdate u = none) ∨
    ∃ p : PtsUpdate, u = p.update ∧ NotTooLong u := by
  by_cases ht : ∃ id pts, u = .channelTooLong id pts
  · exact Or.inl ht
  · have hne : NotTooLong u := fun id pts h => ht ⟨id, pts, h⟩
    cases hinfo : PtsInfo.fromUpdate u with
    | none => exact Or.inr (Or.inl ⟨hne, rfl⟩)
    | some info => exact Or.inr (Or.inr ⟨⟨u, info, hinfo⟩, rfl, hne⟩)

theorem updateKey_plain {u : Update} (ht : NotTooLong u) (h : PtsInfo.fromUpdate u = none) :
    updateKey u = none := by
  unfold updateKey
  split
  · exact absurd rfl (ht _ _)
  · rw [h]; rfl

/-- The two matches of a turn of the loop. -/
def onUpdate {α : Type} (tooLong : Int → Option Int32 → α) (plain : Update → α) (pts : PtsUpdate → α)
    (update : Update) : α :=
  match update with
  | .channelTooLong id p => tooLong id p
  | update =>
    match h : PtsInfo.fromUpdate update with
    | none => plain update
    | some info => pts { update := update, info := info, from_update := h }

section
variable {α : Type} {tooLong : Int → Option Int32 → α} {plain : Update → α} {pts : PtsUpdate → α}

theorem onUpdate_plain {u : Update} (ht : NotTooLong u) (h : PtsInfo.fromUpdate u = none) :
    onUpdate tooLong plain pts u = plain u := by
  unfold onUpdate
  split
  · exact absurd rfl (ht _ _)
  · split
    · rfl
    · next hsome => rw [h] at hsome; cases hsome

theorem onUpdate_pts {u : PtsUpdate} (ht : NotTooLong u.update) :
    onUpdate tooLong plain pts u.update = pts u := by
  obtain ⟨u, info, hu⟩ := u
  unfold onUpdate
  simp only at ht ⊢
  split
  · exact absurd rfl (ht _ _)
  · split
    · next hnone => rw [hu] at hnone; cases hnone
    · next hsome => rw [hu] at hsome; cases hsome; rfl

end

theorem processUpdate_eq (b : Batch) (now deadline : Instant) (u : Update) :
    b.processUpdate now deadline u =
      onUpdate (fun id pts => { b with box := b.box.channelTooLong deadline id pts })
        (fun u => { b with result := b.result ++ [u] }) (b.processPts now deadline) u := rfl

theorem processUpdate_plain (b : Batch) (now deadline : Instant) {u : Update} (ht : NotTooLong u)
    (h : PtsInfo.fromUpdate u = none) :
    b.processUpdate now deadline u = { b with result := b.result ++ [u] } := by
  rw [processUpdate_eq, onUpdate_plain ht h]

theorem processUpdate_pts (b : Batch) (now deadline : Instant) {u : PtsUpdate}
    (ht : NotTooLong u.update) :
    b.processUpdate now deadline u.update = b.processPts now deadline u := by
  rw [processUpdate_eq, onUpdate_pts ht]

theorem View.update_pts (key : Key) (v : View) (now deadline : Instant) {u : PtsUpdate}
    (ht : NotTooLong u.update) :
    v.update key now deadline u.update = v.pts now deadline u := by
  change onUpdate (fun _ pts => v.tooLong key deadline pts) (fun _ => v) (v.pts now deadline) u.update = _
  rw [onUpdate_pts ht]

/-- A turn of the loop on an update of `key`, seen by `key`. -/
theorem processUpdate_own {b : Batch} (h : Sound b.box) (now deadline : Instant) {key : Key}
    {u : Update} (hu : belongsTo key u = true) :
    (b.processUpdate now deadline u).view key = (b.view key).update key now deadline u := by
  have hkey : updateKey u = some key := by simpa [belongsTo] using hu
  rcases update_cases u with ⟨id, pts, rfl⟩ | ⟨ht, hnone⟩ | ⟨p, rfl, ht⟩
  · obtain rfl : .channel id = key := by simpa [updateKey] using hkey
    change (b.box.channelTooLong deadline id pts).view _ _ = _
    rw [channelTooLong_view h.rep.sorted, if_pos rfl]
    rfl
  · rw [updateKey_plain ht hnone] at hkey
    cases hkey
  · rw [updateKey_of_fromUpdate p.from_update] at hkey
    cases hkey
    rw [processUpdate_pts b now deadline ht, View.update_pts _ _ now deadline ht]
    exact processPts_own h now deadline p

/-- A turn of the loop on any other update. -/
theorem processUpdate_other {b : Batch} (h : Sound b.box) (now deadline : Instant) {key : Key}
    {u : Update} (hu : belongsTo key u = false) :
    (b.processUpdate now deadline u).view key = b.view key := by
  have hkey : updateKey u ≠ some key := by simpa [belongsTo] using hu
  rcases update_cases u with ⟨id, pts, rfl⟩ | ⟨ht, hnone⟩ | ⟨p, rfl, ht⟩
  · have hne : key ≠ .channel id := fun hk => hkey (by rw [hk]; rfl)
    change (b.box.channelTooLong deadline id pts).view _ _ = _
    rw [channelTooLong_view h.rep.sorted, if_neg hne]
    rfl
  · have hself : ¬ belongsTo key u = true := by simp [hu]
    rw [processUpdate_plain b now deadline ht hnone]
    simp only [Batch.view, List.filter_append, List.filter_cons_of_neg hself, List.filter_nil,
      List.append_nil]
  · rw [updateKey_of_fromUpdate p.from_update] at hkey
    rw [processUpdate_pts b now deadline ht]
    exact processPts_other h now deadline p (fun hk => hkey (congrArg some hk))

/-- The updates of `key` in a batch, one after another, seen by `key`. -/
def View.run (key : Key) (now : Instant) (v : View) (updates : List Update) : View :=
  Run.final (View.update key now (nextUpdatesDeadline now)) v updates

/-- A batch, seen by `key`: its own updates in the order of the sort. -/
theorem processAll_view (h : Sound s) (now : Instant) (updates : List Update)
    (key : Key) :
    (s.processAll now updates).view key =
      (s.view key []).run key now (sortByKey updateSortKey (updates.filter (belongsTo key))) := by
  rw [← sortByKey_filter]
  exact Run.final_proj (I := fun b => Sound b.box) (Batch.processUpdate now (nextUpdatesDeadline now))
    (fun b => b.view key) (belongsTo key) (View.update key now (nextUpdatesDeadline now))
    (fun b u hb => (processUpdate_moves b u).sound hb)
    (fun b u hb hu => processUpdate_own hb now _ hu)
    (fun b u hb hu => processUpdate_other hb now _ hu)
    (sortByKey updateSortKey updates) { box := s, result := [], haveUnresolvedGaps := false } h

/-- A turn of the loop only returns updates of the key it is about, or outside the
order if that is what it is about. -/
theorem processUpdate_result {b : Batch} (h : Sound b.box) (now deadline : Instant) (u : Update) :
    ∃ l, (b.processUpdate now deadline u).result = b.result ++ l ∧
      ∀ x ∈ l, updateKey x = updateKey u := by
  rcases update_cases u with ⟨id, pts, rfl⟩ | ⟨ht, hnone⟩ | ⟨p, rfl, ht⟩
  · exact ⟨[], (List.append_nil _).symm, by simp⟩
  · rw [processUpdate_plain b now deadline ht hnone]
    exact ⟨[u], rfl, by simp⟩
  · rw [processUpdate_pts b now deadline ht, updateKey_of_fromUpdate p.from_update]
    unfold Batch.processPts
    split
    · exact ⟨[p.update], rfl, by simp [updateKey_of_fromUpdate p.from_update]⟩
    · exact ⟨_, rfl, feedLive_delivered_key h now deadline p⟩

/-- An update outside the order. -/
def plain (u : Update) : Bool := updateKey u = none

/-- The updates outside the order are returned as they come. -/
theorem processAll_plain (h : Sound s) (now : Instant) (updates : List Update) :
    (s.processAll now updates).result.filter plain =
      (sortByKey updateSortKey updates).filter plain := by
  have hrun := Run.final_proj (I := fun b => Sound b.box)
    (Batch.processUpdate now (nextUpdatesDeadline now)) (fun b => b.result.filter plain) plain
    (fun l u => l ++ [u])
    (fun b u hb => (processUpdate_moves b u).sound hb)
    (fun b u hb hu => ?_) (fun b u hb hu => ?_)
    (sortByKey updateSortKey updates) { box := s, result := [], haveUnresolvedGaps := false } h
  · refine hrun.trans ?_
    simp only [Run.final, List.filter_nil, List.foldl_append_eq_append, List.nil_append]
    rw [← List.flatMap_def, List.flatMap_singleton']
  · have hkey : updateKey u = none := by simpa [plain] using hu
    rcases update_cases u with ⟨id, pts, rfl⟩ | ⟨ht, hnone⟩ | ⟨p, rfl, ht⟩
    · cases hkey
    · rw [processUpdate_plain b now _ ht hnone, List.filter_append, List.filter_cons_of_pos hu,
        List.filter_nil]
    · rw [updateKey_of_fromUpdate p.from_update] at hkey
      cases hkey
  · obtain ⟨l, hl, hkeys⟩ := processUpdate_result hb now (nextUpdatesDeadline now) u
    have hnone : l.filter plain = [] := by
      rw [List.filter_eq_nil_iff]
      intro x hx
      simp only [plain] at hu ⊢
      rw [hkeys x hx, hu]
      exact Bool.false_ne_true
    rw [hl, List.filter_append, hnone, List.append_nil]

/-- What the caller is handed. -/
def approved : Except Gap UpdateAndPeers → List Update
  | .ok r => r.1
  | .error _ => []

theorem processCombined_view (s : MessageBoxes) (now : Instant) (c : UpdatesCombined) (key : Key) :
    (s.processCombined now c).2.view key ((s.processCombined now c).1.1.filter (belongsTo key)) =
      (s.processAll now c.updates).view key := by
  unfold processCombined Batch.view
  dsimp only
  split <;> rfl

/-- A batch that gets past the `seq` check, seen by `key`. -/
theorem processCombined_run (h : Sound s) (now : Instant) (c : UpdatesCombined)
    (key : Key) :
    (s.processCombined now c).2.view key ((s.processCombined now c).1.1.filter (belongsTo key)) =
      (s.view key []).run key now (sortByKey updateSortKey (c.updates.filter (belongsTo key))) := by
  rw [← processAll_view h, ← processCombined_view]

/-- A batch without `seq`, seen by `key`. -/
theorem processUpdates_view (h : Sound s) (now : Instant) {b : UpdatesLike}
    {c : UpdatesCombined} (hb : adapt b = .ok c) (hseq : c.seqStart = NO_SEQ) (key : Key) :
    (s.processUpdates now b).2.view key
        ((approved (s.processUpdates now b).1).filter (belongsTo key)) =
      (s.view key []).run key now (sortByKey updateSortKey (c.updates.filter (belongsTo key))) := by
  have heq : s.processUpdates now b =
      (.ok (s.processCombined now c).1, (s.processCombined now c).2) := by
    simp [processUpdates, hb, hseq]
  rw [heq]
  exact processCombined_run h now c key

/-- The batch as a whole: what it returns and leaves for `key` is what the updates
of `key` alone return and leave, and a key none of them belongs to is untouched. -/
theorem processUpdates_decomposes (dbg : Bool) {s : MessageBoxes} (h : Reachable dbg s)
    (now : Instant) (key : Key) {b b' : UpdatesLike} {c c' : UpdatesCombined}
    (hb : adapt b = .ok c) (hb' : adapt b' = .ok c') (hseq : c.seqStart = NO_SEQ)
    (hseq' : c'.seqStart = NO_SEQ) (hsub : c'.updates = c.updates.filter (belongsTo key)) :
    (approved (s.processUpdates now b).1).filter (belongsTo key) =
      (approved (s.processUpdates now b').1).filter (belongsTo key) ∧
    (s.processUpdates now b).2.entry key = (s.processUpdates now b').2.entry key ∧
    (key ∈ (s.processUpdates now b).2.gettingDiffFor ↔
      key ∈ (s.processUpdates now b').2.gettingDiffFor) ∧
    ((∀ u ∈ c.updates, updateKey u ≠ some key) →
      (s.processUpdates now b).2.entry key = s.entry key) := by
  have hsame : c'.updates.filter (belongsTo key) = c.updates.filter (belongsTo key) := by
    rw [hsub, List.filter_filter]
    simp
  have hv := processUpdates_view h.sound now hb hseq key
  have hv' := processUpdates_view h.sound now hb' hseq' key
  rw [hsame, ← hv] at hv'
  refine ⟨(congrArg View.out hv').symm, (congrArg View.entry hv').symm, ?_, fun hnone => ?_⟩
  · have hq : (s.processUpdates now b').2.gettingDiffFor.contains key =
        (s.processUpdates now b).2.gettingDiffFor.contains key := congrArg View.queued hv'
    rw [← List.contains_iff_mem, ← List.contains_iff_mem, hq]
  · have hempty : c.updates.filter (belongsTo key) = [] := by
      rw [List.filter_eq_nil_iff]
      intro u hu
      simp [belongsTo, hnone u hu]
    rw [hempty, sortByKey_nil] at hv
    exact congrArg View.entry hv

/-- A channel ahead of its counter, one in order, and a change without a counter. -/
def mixedBatch : UpdatesCombined :=
  { updates := [.deleteChannelMessages 1 [] 9 1, .deleteChannelMessages 2 [] 4 1, .other []],
    users := [], chats := [], date := 1, seqStart := 0, seq := 0 }

theorem mixedBatch_decomposes :
    let s := (Start.load 0 { pts := 0, qts := 0, date := 1, seq := 1, channels := [] }).box
    (approved (s.processUpdates 1 (.updates (.combined mixedBatch))).1).filter
        (belongsTo (.channel 2)) =
      (approved (s.processUpdates 1 (.updates (.combined
        { mixedBatch with updates := [.deleteChannelMessages 2 [] 4 1] }))).1).filter
        (belongsTo (.channel 2)) := by
  refine (processUpdates_decomposes true ⟨.load 0 _, [], ?_, trivial, rfl⟩ 1 (.channel 2) rfl rfl rfl
    rfl ?_).1
  · exact List.nodup_nil
  · decide

end Ferogram.Msgbox
