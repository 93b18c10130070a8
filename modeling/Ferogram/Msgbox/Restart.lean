import Ferogram.Msgbox.CommonEntry

/- Saving the box and loading it again. `session_state` leaves out the deadlines
   and the buffers, writes `NO_PTS` for an account entry that is missing, and lists
   the channels in the order of the entries; `load` drops an account counter of
   `NO_PTS` and keeps every channel, one of counter `0` too. Since the entries are
   sorted, the list `load` sorts is sorted already, and saving again gives the
   same snapshot (`sessionState_load`).

   `load` queues one key for each entry. A snapshot that lists a channel twice is
   loaded as it is, with two entries and two places in the queue
   (`repeated_channel_queued_twice`); otherwise no key is queued twice. -/
namespace Ferogram.Msgbox
open Ferogram.Tl MessageBoxes StableSort

/-- What `session_state` keeps of an entry. -/
def channelState (e : LiveEntry) : Option ChannelState :=
  match e.key with
  | .channel id => some { id := id, pts := e.pts }
  | _ => none

theorem sessionState_channels (s : MessageBoxes) :
    s.sessionState.channels = s.entries.filterMap channelState := rfl

/-- Channels are listed by id. -/
theorem sessionState_sorted {s : MessageBoxes} (hs : s.Ordered) :
    (s.sessionState.channels.map (fun c => Key.channel c.id)).Pairwise (· ≤ ·) := by
  rw [sessionState_channels, List.pairwise_map, List.pairwise_filterMap]
  apply hs.imp
  intro a b hab c hc d hd
  unfold channelState at hc hd
  split at hc
  · next id hid =>
    split at hd
    · next id' hid' =>
      cases hc
      cases hd
      rw [hid, hid'] at hab
      exact hab
    · cases hd
  · cases hc

/-- The entries of a snapshot whose channels are sorted need no sorting. -/
theorem loaded_sorted (now : Instant) {state : UpdatesStateSnap}
    (h : (state.channels.map (fun c => Key.channel c.id)).Pairwise (· ≤ ·)) :
    (loaded now state).Pairwise (fun a b => a.key ≤ b.key) := by
  have hchannel : ∀ k ∈ state.channels.map (fun c => Key.channel c.id), Key.secondary ≤ k := by
    intro k hk
    obtain ⟨c, -, rfl⟩ := List.mem_map.mp hk
    exact Key.le_iff.mpr rfl
  have hcommon : ∀ k : Key, Key.common ≤ k := by
    intro k
    exact Key.le_iff.mpr rfl
  rw [← List.pairwise_map (f := LiveEntry.key), loaded_keys]
  split <;> split
  · refine List.pairwise_cons.mpr ⟨fun k _ => hcommon k, ?_⟩
    exact List.pairwise_cons.mpr ⟨hchannel, h⟩
  · exact List.pairwise_cons.mpr ⟨fun k _ => hcommon k, h⟩
  · exact List.pairwise_cons.mpr ⟨hchannel, h⟩
  · exact h

theorem load_sessionState_entries {s : MessageBoxes} (hs : s.Ordered) (now : Instant) :
    (load now s.sessionState).entries = loaded now s.sessionState := by
  rw [load_entries]
  exact (loaded_sorted now (sessionState_sorted hs)).insertionSort_eq

/-- A snapshot's account counters are found again, `NO_PTS` as a missing entry. -/
theorem load_entry {now : Instant} {state : UpdatesStateSnap}
    (hl : (load now state).entries = loaded now state) {key : Key} {pts : Int32}
    (hmem : ∀ e ∈ loaded now state, e.key = key → e.pts = pts)
    (hkey : key ∈ (loaded now state).map LiveEntry.key ↔ pts ≠ NO_PTS) :
    (((load now state).entry key).map LiveEntry.pts).getD NO_PTS = pts := by
  have hord : (load now state).Ordered := start_ordered (.load now state)
  cases he : (load now state).entry key with
  | none =>
    have hpts : pts = NO_PTS := by
      by_contra hne
      obtain ⟨e, hin, hk⟩ := List.mem_map.mp (hkey.mpr hne)
      have hsome := (entry_isSome hord key).mpr ⟨e, hl ▸ hin, hk⟩
      rw [he] at hsome
      cases hsome
    simp [hpts]
  | some e =>
    obtain ⟨hin, hk⟩ := entry_mem hord he
    rw [hl] at hin
    exact hmem e hin hk

/-- The channels of a snapshot, read back from its entries. -/
theorem loaded_channels (now : Instant) (state : UpdatesStateSnap) :
    (loaded now state).filterMap channelState = state.channels := by
  have hch : (state.channels.map (fun c =>
      freshEntry (.channel c.id) c.pts (nextUpdatesDeadline now))).filterMap channelState =
        state.channels := by
    rw [List.filterMap_map]
    exact List.filterMap_some
  unfold loaded
  rw [List.filterMap_append, List.filterMap_append, hch]
  split <;> split <;> rfl

/-- Saving, loading and saving again gives the same snapshot. -/
theorem sessionState_load {s : MessageBoxes} (hs : s.Ordered) (now : Instant) :
    (load now s.sessionState).sessionState = s.sessionState := by
  have hl := load_sessionState_entries hs now
  have hpts : (((load now s.sessionState).entry .common).map LiveEntry.pts).getD NO_PTS =
      s.sessionState.pts := by
    apply load_entry hl
    · intro e he hk
      rcases loaded_mem.mp he with ⟨-, rfl⟩ | ⟨-, rfl⟩ | ⟨c, -, rfl⟩
      · rfl
      · cases hk
      · cases hk
    · rw [loaded_keys]
      split <;> simp_all
  have hqts : (((load now s.sessionState).entry .secondary).map LiveEntry.pts).getD NO_PTS =
      s.sessionState.qts := by
    apply load_entry hl
    · intro e he hk
      rcases loaded_mem.mp he with ⟨-, rfl⟩ | ⟨-, rfl⟩ | ⟨c, -, rfl⟩
      · cases hk
      · rfl
      · cases hk
    · rw [loaded_keys]
      split <;> simp_all
  have hchannels : (load now s.sessionState).sessionState.channels = s.sessionState.channels := by
    rw [sessionState_channels, hl, loaded_channels]
  rw [show (load now s.sessionState).sessionState =
    { pts := (((load now s.sessionState).entry .common).map LiveEntry.pts).getD NO_PTS,
      qts := (((load now s.sessionState).entry .secondary).map LiveEntry.pts).getD NO_PTS,
      date := s.date, seq := s.seq,
      channels := (load now s.sessionState).sessionState.channels } from rfl,
    hpts, hqts, hchannels]
  rfl

/-- With strictly sorted entries no channel is listed twice. -/
theorem sessionState_distinct {s : MessageBoxes} (hs : s.Sorted) :
    (s.sessionState.channels.map ChannelState.id).Nodup := by
  rw [sessionState_channels, List.Nodup, List.pairwise_map, List.pairwise_filterMap]
  apply hs.imp
  intro a b hab c hc d hd heq
  unfold channelState at hc hd
  split at hc
  · next id hid =>
    split at hd
    · next id' hid' =>
      cases hc
      cases hd
      rw [hid, hid'] at hab
      simp only at heq
      subst heq
      exact lt_irrefl _ hab
    · cases hd
  · cases hc

/-- **A restart keeps the update state.** Whatever snapshot a run starts from and
whatever operations it performs, the box it ends in is saved, loaded and saved
again as the same snapshot, and loading queues the key of every entry, once for
each entry. If the run started from a snapshot with no channel listed twice, no
key is queued twice. -/
theorem restart_keeps_state (dbg : Bool) (start : Start) (is : List (Instant × Op)) (now : Instant) :
    let s := Run.final (step dbg) start.box is
    let restored := load now s.sessionState
    restored.sessionState = s.sessionState ∧
    restored.gettingDiffFor = restored.entries.map LiveEntry.key ∧
    (start.DistinctChannels → restored.gettingDiffFor.Nodup) := by
  intro s restored
  have hmem : s ∈ Run.states (step dbg) start.box is := Run.final_mem_states (step dbg) is start.box
  have hord : s.Ordered := Run.states_inv_all (step dbg) (fun s i => step_ordered dbg i) is start.box
    (start_ordered start) s hmem
  refine ⟨sessionState_load hord now, rfl, fun hstart => ?_⟩
  have hinv : RepInv s := Run.states_inv_all (step dbg) (fun s i => step_repInv dbg i) is start.box
    (start_repInv hstart) s hmem
  exact (load_repInv now (sessionState_distinct hinv.sorted)).nodup

/-- A channel listed twice in a snapshot keeps both places through a restart. -/
theorem repeated_channel_queued_twice :
    let s := Run.final (step true)
      (Start.load 0 { pts := 1, qts := 0, date := 1, seq := 1, channels := [⟨5, 3⟩, ⟨5, 4⟩] }).box []
    (load 0 s.sessionState).gettingDiffFor = [.common, .channel 5, .channel 5] ∧
      ¬ (load 0 s.sessionState).gettingDiffFor.Nodup := by
  decide

end Ferogram.Msgbox
