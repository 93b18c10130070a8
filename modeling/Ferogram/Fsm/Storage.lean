import Mathlib.Tactic.IntervalCases
import Ferogram.Lib.Assoc
import Ferogram.Lib.Crew
import Ferogram.Lib.Sequential

/- The in-memory store of conversations, `MemoryStorage` of `ferogram-fsm/src/storage.rs`:
   one slot of its map, and any number of handlers that call it.

   State and data of a conversation share the slot. Every access goes through the lock of
   the map. `get_mut` keeps it in a guard, and `clear_state` and `clear_data`, when they
   leave nothing, drop the guard and then remove the slot. A step below is what a call does
   between two points where another one may come in.

   A call takes effect with its first step, so the order of the first steps is a sequential
   order of the calls (`Follows`). What breaks it is a removal of a slot that has been
   written since its guard was dropped (`written_lost`); without one, `calls_sequential`. -/
namespace Ferogram.Fsm
variable {V : Type}

structure StorageEntry (V : Type) where
  state : Option String
  data : Assoc String V
  deriving DecidableEq

namespace StorageEntry

/-- `StorageEntry::default()`. -/
def empty : StorageEntry V := { state := none, data := ∅ }

end StorageEntry

/-- The methods of `StateStorage`. -/
inductive Call (V : Type) where
  | getState
  | setState (state : String)
  | clearState
  | getData (field : String)
  | setData (field : String) (value : V)
  | getAllData
  | clearData
  | clearAll
  deriving DecidableEq

inductive Reply (V : Type) where
  | unit
  | state (state : Option String)
  | value (value : Option V)
  | data (data : Assoc String V)
  deriving DecidableEq

/-- Where a call is: not begun, in possession of the guard, about to remove the slot, or
through. -/
inductive Phase (V : Type) where
  | waiting
  | guarding
  | removing
  | returned (reply : Reply V)
  deriving DecidableEq

structure Handler (V : Type) where
  call : Call V
  phase : Phase V
  deriving DecidableEq

/-- The slot, and whether a guard on it is held. -/
structure Slot (V : Type) where
  entry : Option (StorageEntry V)
  guarded : Bool
  deriving DecidableEq

namespace Call

/-- `entries.entry(key).or_default()`. -/
def orDefault (entry : Option (StorageEntry V)) : StorageEntry V := entry.getD .empty

/-- The first step of a call. The two that clear a half take the guard. -/
def enter (call : Call V) (entry : Option (StorageEntry V)) : Slot V × Phase V :=
  match call with
  | .getState => (⟨entry, false⟩, .returned (.state (entry.bind StorageEntry.state)))
  | .setState state => (⟨some { orDefault entry with state := some state }, false⟩, .returned .unit)
  | .clearState =>
    match entry with
    | some e => (⟨some { e with state := none }, true⟩, .guarding)
    | none => (⟨none, false⟩, .returned .unit)
  | .getData field => (⟨entry, false⟩, .returned (.value (entry.bind fun e => AList.lookup field e.data)))
  | .setData field value =>
    (⟨some { orDefault entry with data := (orDefault entry).data.insert field value }, false⟩, .returned .unit)
  | .getAllData => (⟨entry, false⟩, .returned (.data (orDefault entry).data))
  | .clearData =>
    match entry with
    | some e => (⟨some { e with data := ∅ }, true⟩, .guarding)
    | none => (⟨none, false⟩, .returned .unit)
  | .clearAll => (⟨none, false⟩, .returned .unit)

/-- What the two look at before they drop the guard. -/
def leavesNothing (call : Call V) (e : StorageEntry V) : Bool :=
  match call with
  | .clearState => e.data.entries.isEmpty
  | .clearData => e.state.isNone
  | _ => false

end Call

/-- The next step of a call; while another call holds the guard it waits. -/
def step (s : Slot V) (w : Handler V) : Unit → Slot V × Handler V := fun _ =>
  match w.phase with
  | .waiting =>
    if s.guarded then (s, w)
    else ((w.call.enter s.entry).1, { w with phase := (w.call.enter s.entry).2 })
  | .guarding =>
    ({ s with guarded := false },
      { w with phase := if s.entry.any w.call.leavesNothing then .removing else .returned .unit })
  | .removing => if s.guarded then (s, w) else ({ s with entry := none }, { w with phase := .returned .unit })
  | .returned _ => (s, w)

/-- The handlers' steps in any order. -/
def next : Crew (Slot V) (Handler V) → Nat → Crew (Slot V) (Handler V) := fun c i => Crew.next step c (i, ())

def start (entry : Option (StorageEntry V)) (calls : List (Call V)) : Crew (Slot V) (Handler V) :=
  { shared := ⟨entry, false⟩, workers := calls.map fun call => ⟨call, .waiting⟩ }

/-! Calls one after another. -/

/-- A call that nobody interrupts. -/
def Call.alone (entry : Option (StorageEntry V)) (call : Call V) : Option (StorageEntry V) × Reply V :=
  match (call.enter entry).2 with
  | .returned reply => ((call.enter entry).1.entry, reply)
  | _ => (if (call.enter entry).1.entry.any call.leavesNothing then none else (call.enter entry).1.entry, .unit)

variable {entry a : Option (StorageEntry V)} {call : Call V}

theorem entries_isEmpty {m : Assoc String V} : m.entries.isEmpty = true ↔ m = ∅ := by
  rw [List.isEmpty_iff]
  constructor
  · intro h
    exact AList.ext h
  · intro h
    rw [h]
    rfl

theorem eq_empty {e : StorageEntry V} (hstate : e.state = none) (hdata : e.data.entries.isEmpty = true) : e = .empty := by
  obtain ⟨state, data⟩ := e
  obtain rfl : state = none := hstate
  obtain rfl : data = ∅ := entries_isEmpty.mp hdata
  rfl

theorem insert_ne_empty (m : Assoc String V) (field : String) (value : V) : m.insert field value ≠ ∅ := by
  intro h
  have hlook := AList.lookup_insert (s := m) (a := field) (b := value)
  rw [h] at hlook
  cases hlook

/-- The call leaves what it has written, or, of an empty entry under its guard, nothing. -/
theorem enter_alone (call : Call V) (entry : Option (StorageEntry V)) :
    (call.enter entry).1.entry = (call.alone entry).1 ∨
      ((call.alone entry).1 = none ∧ (call.enter entry).1.entry = some .empty ∧ (call.enter entry).2 = .guarding) := by
  cases call with
  | clearState =>
    cases entry with
    | none => exact Or.inl rfl
    | some e =>
      by_cases h : e.data.entries.isEmpty = true
      · refine Or.inr ⟨by simp [Call.alone, Call.enter, Call.leavesNothing, h], ?_, rfl⟩
        rw [Call.enter, entries_isEmpty.mp h]
        rfl
      · exact Or.inl (by simp [Call.alone, Call.enter, Call.leavesNothing, h])
  | clearData =>
    cases entry with
    | none => exact Or.inl rfl
    | some e =>
      cases h : e.state with
      | none =>
        refine Or.inr ⟨by simp [Call.alone, Call.enter, Call.leavesNothing, h], ?_, rfl⟩
        rw [Call.enter, h]
        rfl
      | some state => exact Or.inl (by simp [Call.alone, Call.enter, Call.leavesNothing, h])
  | _ => exact Or.inl rfl

/-- An empty entry is nothing to a call. -/
theorem enter_empty (call : Call V) :
    (call.enter (some .empty)).1.entry = (call.alone none).1 ∨
      ((call.alone none).1 = none ∧ (call.enter (some .empty)).1.entry = some .empty) := by
  cases call with
  | setState state => exact Or.inl rfl
  | setData field value => exact Or.inl rfl
  | clearAll => exact Or.inl rfl
  | _ => exact Or.inr ⟨rfl, rfl⟩

/-- No call leaves an empty entry where there was none. -/
theorem alone_ne_empty (h : entry ≠ some .empty ∨ (call.enter entry).2 = .guarding) :
    (call.alone entry).1 ≠ some .empty := by
  have hother : (∀ e, entry = some e → (call.enter entry).2 ≠ .guarding) → entry ≠ some .empty := by
    intro hno heq
    exact (h.resolve_left (not_not.mpr heq)) |> hno .empty heq
  cases call with
  | getState => exact hother fun _ _ => nofun
  | getData field => exact hother fun _ _ => nofun
  | getAllData => exact hother fun _ _ => nofun
  | setState state =>
    intro heq
    cases congrArg StorageEntry.state (Option.some.inj heq)
  | setData field value =>
    intro heq
    exact insert_ne_empty _ field value (congrArg StorageEntry.data (Option.some.inj heq))
  | clearAll => nofun
  | clearState =>
    cases entry with
    | none => nofun
    | some e =>
      by_cases hdata : e.data.entries.isEmpty = true
      · simp [Call.alone, Call.enter, Call.leavesNothing, hdata]
      · have hleft : (Call.clearState.alone (some e)).1 = some { e with state := none } := by
          simp [Call.alone, Call.enter, Call.leavesNothing, hdata]
        rw [hleft]
        -- a call that would leave nothing removes the entry
        intro heq
        exact hdata (entries_isEmpty.mpr (congrArg StorageEntry.data (Option.some.inj heq)))
  | clearData =>
    cases entry with
    | none => nofun
    | some e =>
      cases hstate : e.state with
      | none => simp [Call.alone, Call.enter, Call.leavesNothing, hstate]
      | some state =>
        have hleft : (Call.clearData.alone (some e)).1 = some { e with data := ∅ } := by
          simp [Call.alone, Call.enter, Call.leavesNothing, hstate]
        rw [hleft]
        intro heq
        have hsome : e.state = none := congrArg StorageEntry.state (Option.some.inj heq)
        cases hstate.symm.trans hsome

/-- The reply that is certain. -/
def Phase.reply? : Phase V → Option (Reply V)
  | .waiting => none
  | .guarding | .removing => some .unit
  | .returned reply => some reply

theorem enter_reply (call : Call V) (entry : Option (StorageEntry V)) :
    (call.enter entry).2.reply? = some (call.alone entry).2 := by
  cases call with
  | clearState => cases entry <;> rfl
  | clearData => cases entry <;> rfl
  | _ => rfl

theorem enter_empty_reply (call : Call V) : (call.enter (some .empty)).2.reply? = some (call.alone none).2 := by
  cases call <;> rfl

/-! The order of the first steps. -/

/-- The call has taken effect and is not through with the slot. -/
def Pending (w : Handler V) : Prop := w.phase = .guarding ∨ w.phase = .removing

/-- The slot holds what the calls that have begun would leave one by one; or it still holds an
empty entry, which a pending call is to remove. -/
structure Follows (c : Crew (Slot V) (Handler V)) (a : Option (StorageEntry V)) : Prop where
  same : c.shared.entry = a ∨ (a = none ∧ c.shared.entry = some .empty ∧ ∃ w ∈ c.workers, Pending w)
  removed : (∃ w ∈ c.workers, Pending w) → a ≠ some .empty
  guarding : ∀ w ∈ c.workers, w.phase = .guarding → w.call.leavesNothing .empty = true

/-- A removal finds nothing that has been written since the guard was dropped. -/
def Harmless (c : Crew (Slot V) (Handler V)) (i : Nat) : Prop :=
  ∀ w ∈ c.workers[i]?, w.phase = .removing → c.shared.guarded = false →
    ∀ e ∈ c.shared.entry, e.state = none ∧ e.data.entries.isEmpty = true

section Step
variable {c : Crew (Slot V) (Handler V)} {i : Nat} {w w' : Handler V} {s' : Slot V}

theorem pending_set (hi : c.workers[i]? = some w) (hw : ¬ Pending w) (h : ∃ v ∈ c.workers, Pending v) :
    ∃ v ∈ c.workers.set i w', Pending v :=
  Crew.exists_set hi (fun hself => absurd hself hw) (fun _ hv => hv) h

theorem pending_of_set (hw' : ¬ Pending w') (h : ∃ v ∈ c.workers.set i w', Pending v) : ∃ v ∈ c.workers, Pending v := by
  obtain ⟨v, hv, hpending⟩ := h
  rcases List.mem_or_eq_of_mem_set hv with hv | rfl
  · exact ⟨v, hv, hpending⟩
  · exact absurd hpending hw'

theorem enter_guarding (call : Call V) (entry : Option (StorageEntry V)) (h : (call.enter entry).2 = .guarding) :
    call.leavesNothing .empty = true := by
  cases call with
  | clearState => rfl
  | clearData => rfl
  | _ => cases h

theorem enter_pending {phase : Phase V} (call : Call V) (entry : Option (StorageEntry V))
    (h : (call.enter entry).2 = phase) (hpending : phase = .guarding ∨ phase = .removing) :
    (call.enter entry).2 = .guarding := by
  rcases hpending with rfl | rfl
  · exact h
  · cases call with
    | clearState => cases entry <;> cases h
    | clearData => cases entry <;> cases h
    | _ => cases h

/-- A call begins. -/
theorem Follows.enter (hc : Follows c a) (hi : c.workers[i]? = some w) (hw : w.phase = .waiting) :
    Follows { shared := (w.call.enter c.shared.entry).1
              workers := c.workers.set i { w with phase := (w.call.enter c.shared.entry).2 } } (w.call.alone a).1 ∧
      (w.call.enter c.shared.entry).2.reply? = some (w.call.alone a).2 := by
  have hlt : i < c.workers.length := (List.getElem?_eq_some_iff.mp hi).1
  have hnot : ¬ Pending w := by
    intro h
    rcases h with h | h <;> rw [hw] at h <;> cases h
  have hguarding : ∀ v ∈ c.workers.set i { w with phase := (w.call.enter c.shared.entry).2 }, v.phase = .guarding →
      v.call.leavesNothing .empty = true :=
    Crew.forall_set hc.guarding fun h => enter_guarding w.call _ h
  have hnew : (∃ v ∈ c.workers.set i { w with phase := (w.call.enter c.shared.entry).2 }, Pending v) →
      a ≠ some .empty ∨ (w.call.enter c.shared.entry).2 = .guarding := by
    intro h
    by_cases hself : Pending { w with phase := (w.call.enter c.shared.entry).2 }
    · exact Or.inr (enter_pending w.call _ rfl hself)
    · exact Or.inl (hc.removed (pending_of_set hself h))
  rcases hc.same with hsame | ⟨rfl, hempty, hpending⟩
  · rw [← hsame] at hnew ⊢
    refine ⟨⟨?_, fun h => alone_ne_empty (hnew h), hguarding⟩, enter_reply w.call _⟩
    rcases enter_alone w.call c.shared.entry with h | ⟨hnone, hentry, hguard⟩
    · exact Or.inl h
    · exact Or.inr ⟨hnone, hentry, _, List.mem_set hlt _, Or.inl hguard⟩
  · refine ⟨⟨?_, fun _ => alone_ne_empty (Or.inl nofun), hguarding⟩, ?_⟩
    · rw [hempty]
      rcases enter_empty w.call with h | ⟨hnone, hentry⟩
      · exact Or.inl h
      · exact Or.inr ⟨hnone, hentry, pending_set hi hnot hpending⟩
    · rw [hempty]
      exact enter_empty_reply w.call

/-- A call drops its guard. -/
theorem Follows.drop (hc : Follows c a) (hi : c.workers[i]? = some w) (hw : w.phase = .guarding) :
    Follows { shared := { c.shared with guarded := false }
              workers := c.workers.set i
                { w with phase := if c.shared.entry.any w.call.leavesNothing then .removing else .returned .unit } } a := by
  have hlt : i < c.workers.length := (List.getElem?_eq_some_iff.mp hi).1
  have hmem : w ∈ c.workers := List.mem_of_getElem? hi
  have hremoved : a ≠ some .empty := hc.removed ⟨w, hmem, Or.inl hw⟩
  refine ⟨?_, fun _ => hremoved, ?_⟩
  · rcases hc.same with hsame | ⟨hnone, hempty, -⟩
    · exact Or.inl hsame
    · have hany : c.shared.entry.any w.call.leavesNothing = true := by
        rw [hempty]
        exact hc.guarding w hmem hw
      rw [if_pos hany]
      exact Or.inr ⟨hnone, hempty, _, List.mem_set hlt _, Or.inr rfl⟩
  · apply Crew.forall_set hc.guarding
    intro h
    split at h <;> cases h

/-- A call removes an empty slot. -/
theorem Follows.remove (hc : Follows c a) (hi : c.workers[i]? = some w) (hw : w.phase = .removing)
    (hempty : ∀ e ∈ c.shared.entry, e = .empty) :
    Follows { shared := { c.shared with entry := none }
              workers := c.workers.set i { w with phase := .returned .unit } } a := by
  have hremoved : a ≠ some .empty := hc.removed ⟨w, List.mem_of_getElem? hi, Or.inr hw⟩
  refine ⟨Or.inl ?_, fun _ => hremoved, ?_⟩
  · rcases hc.same with hsame | ⟨hnone, -, -⟩
    · cases hentry : c.shared.entry with
      | none => exact hentry.symm.trans hsame
      | some e =>
        rw [hempty e hentry] at hentry
        exact absurd (hsame.symm.trans hentry) hremoved
    · exact hnone.symm
  · exact Crew.forall_set hc.guarding fun h => by cases h

end Step

/-- The replies that are certain. -/
def replies (c : Crew (Slot V) (Handler V)) : List (Option (Reply V)) := c.workers.map fun w => w.phase.reply?

/-- The calls in the order in which they have begun. -/
def Explained (entry : Option (StorageEntry V)) (calls : List (Call V)) (c : Crew (Slot V) (Handler V)) : Prop :=
  c.workers.map Handler.call = calls ∧ ∃ order a,
    Sequential.Explains Call.alone entry calls (replies c) order a ∧ Follows c a

theorem start_explained (entry : Option (StorageEntry V)) (calls : List (Call V)) :
    Explained entry calls (start entry calls) := by
  have hcalls : (start entry calls).workers.map Handler.call = calls := by
    rw [start, List.map_map]
    exact List.map_id calls
  have hnone : replies (start entry calls) = calls.map fun _ => none := by
    rw [replies, start, List.map_map]
    rfl
  refine ⟨hcalls, [], entry, ?_, Or.inl rfl, ?_, ?_⟩
  · rw [hnone]
    exact Sequential.Explains.nil entry calls
  · intro ⟨w, hw, hpending⟩
    obtain ⟨call, -, rfl⟩ := List.mem_map.mp hw
    rcases hpending with h | h <;> cases h
  · intro w hw hguarding
    obtain ⟨call, -, rfl⟩ := List.mem_map.mp hw
    cases hguarding

theorem map_set_eq {β : Type} {f : Handler V → β} {ws : List (Handler V)} {i : Nat} {w w' : Handler V}
    (hi : ws[i]? = some w) (h : f w' = f w) : (ws.set i w').map f = ws.map f := by
  rw [List.map_set, h]
  apply List.ext_getElem?
  intro j
  rw [List.getElem?_set]
  split
  · next hj =>
    obtain rfl := hj
    rw [List.length_map, if_pos (List.getElem?_eq_some_iff.mp hi).1, List.getElem?_map, hi]
    rfl
  · rfl

/-- A step of a call that has begun. -/
theorem Explained.later {calls : List (Call V)} {c : Crew (Slot V) (Handler V)} {i : Nat} {w w' : Handler V} {s' : Slot V}
    (hc : Explained entry calls c) (hi : c.workers[i]? = some w) (hcall : w'.call = w.call)
    (hreply : w'.phase.reply? = w.phase.reply?)
    (hfollows : ∀ a, Follows c a → Follows { shared := s', workers := c.workers.set i w' } a) :
    Explained entry calls { shared := s', workers := c.workers.set i w' } := by
  obtain ⟨hcalls, order, a, hexplains, ha⟩ := hc
  refine ⟨(map_set_eq hi hcall).trans hcalls, order, a, ?_, hfollows a ha⟩
  have hsame : replies { shared := s', workers := c.workers.set i w' } = replies c := map_set_eq hi hreply
  rw [hsame]
  exact hexplains

theorem next_explained {calls : List (Call V)} (c : Crew (Slot V) (Handler V)) (i : Nat) (hharmless : Harmless c i)
    (hc : Explained entry calls c) : Explained entry calls (next c i) := by
  cases hi : c.workers[i]? with
  | none => rwa [next, Crew.next_none step hi]
  | some w =>
    have hstep : step c.shared w () = (c.shared, w) → Explained entry calls (next c i) := by
      intro h
      rwa [next, Crew.next_of_step_eq step hi h]
    cases hw : w.phase with
    | waiting =>
      by_cases hguarded : c.shared.guarded = true
      · exact hstep (by simp [step, hw, hguarded])
      · -- the call takes effect when it gets the lock
        have hbegin : step c.shared w () =
            ((w.call.enter c.shared.entry).1, { w with phase := (w.call.enter c.shared.entry).2 }) := by
          simp [step, hw, hguarded]
        rw [next, Crew.next_some step hi, hbegin]
        obtain ⟨hcalls, order, a, hexplains, ha⟩ := hc
        obtain ⟨hfollows, hreply⟩ := ha.enter hi hw
        have hcall : calls[i]? = some w.call := by rw [← hcalls, List.getElem?_map, hi]; rfl
        have hnone : (replies c)[i]? = some none := by
          rw [replies, List.getElem?_map, hi, Option.map_some, hw]
          rfl
        have hcalls' : (c.workers.set i { w with phase := (w.call.enter c.shared.entry).2 }).map Handler.call = calls := by
          refine Eq.trans (map_set_eq hi ?_) hcalls
          rfl
        refine ⟨hcalls', order ++ [i], _, ?_, hfollows⟩
        · rw [replies, List.map_set, hreply]
          exact hexplains.take hcall hnone
    | guarding =>
      have hdrop : step c.shared w () = ({ c.shared with guarded := false },
          { w with phase := if c.shared.entry.any w.call.leavesNothing then .removing else .returned .unit }) := by
        simp [step, hw]
      rw [next, Crew.next_some step hi, hdrop]
      refine hc.later hi rfl ?_ fun a ha => ha.drop hi hw
      rw [hw]
      dsimp only
      split <;> rfl
    | removing =>
      by_cases hguarded : c.shared.guarded = true
      · exact hstep (by simp [step, hw, hguarded])
      · -- what is removed is empty, so nobody can tell
        have hremove : step c.shared w () = ({ c.shared with entry := none }, { w with phase := .returned .unit }) := by
          simp [step, hw, hguarded]
        rw [next, Crew.next_some step hi, hremove]
        refine hc.later hi rfl (by rw [hw]; rfl) fun a ha => ha.remove hi hw ?_
        intro e he
        obtain ⟨hstate, hdata⟩ := hharmless w hi hw (Bool.eq_false_iff.mpr hguarded) e he
        exact eq_empty hstate hdata
    | returned reply => exact hstep (by simp [step, hw])

/-- **No write is lost.** If no removal finds what has been written since its guard was dropped,
then at the end of the calls the slot, and all that they have read, is that of the calls one by
one in some order. -/
theorem calls_sequential (entry : Option (StorageEntry V)) (calls : List (Call V)) (schedule : List Nat)
    (hharmless : Run.AllSteps next Harmless (start entry calls) schedule)
    (hdone : ∀ w ∈ (Run.final next (start entry calls) schedule).workers, ∃ reply, w.phase = .returned reply) :
    ∃ order : List Nat, order.Perm (List.range calls.length) ∧
      Sequential.run Call.alone entry (Sequential.callsAt calls order) =
        ((Run.final next (start entry calls) schedule).shared.entry,
          Sequential.repliesAt (replies (Run.final next (start entry calls) schedule)) order) := by
  obtain ⟨-, order, a, hexplains, ha⟩ := Run.states_inv next next_explained schedule _ (start_explained entry calls)
    hharmless _ (Run.final_mem_states next schedule _)
  refine ⟨order, hexplains.perm ?_, ?_⟩
  · intro reply hreply
    obtain ⟨w, hw, rfl⟩ := List.mem_map.mp hreply
    obtain ⟨r, hr⟩ := hdone w hw
    rw [hr]
    nofun
  · have hsame : (Run.final next (start entry calls) schedule).shared.entry = a := by
      refine ha.same.resolve_right ?_
      rintro ⟨-, -, w, hw, hpending⟩
      obtain ⟨r, hr⟩ := hdone w hw
      rcases hpending with h | h <;> rw [hr] at h <;> cases h
    rw [hexplains.runs, hsame]

instance [DecidableEq V] (c : Crew (Slot V) (Handler V)) (i : Nat) : Decidable (Harmless c i) :=
  inferInstanceAs (Decidable (∀ w ∈ c.workers[i]?, _))

/-- A state is cleared, and when the slot is gone a field is written. -/
theorem cleared_sequential : ∃ order : List Nat, order.Perm (List.range 2) ∧
    Sequential.run Call.alone (some ⟨some "asked", ∅⟩) (Sequential.callsAt [.clearState, .setData "age" 3] order) =
      ((Run.final next (start (some ⟨some "asked", ∅⟩) [.clearState, .setData "age" 3]) [0, 0, 0, 1]).shared.entry,
        Sequential.repliesAt (replies (Run.final next
          (start (some ⟨some "asked", ∅⟩) [.clearState, .setData "age" (3 : Nat)]) [0, 0, 0, 1])) order) := by
  refine calls_sequential (some ⟨some "asked", ∅⟩) [.clearState, .setData "age" 3] [0, 0, 0, 1] (by decide) ?_
  have hend : (Run.final next (start (some ⟨some "asked", ∅⟩) [.clearState, .setData "age" (3 : Nat)]) [0, 0, 0, 1]).workers =
      [⟨.clearState, .returned .unit⟩, ⟨.setData "age" 3, .returned .unit⟩] := by decide
  rw [hend]
  simp

/-- With the field written before the removal, it is gone. -/
theorem written_lost : ¬ ∀ (entry : Option (StorageEntry Nat)) (calls : List (Call Nat)) (schedule : List Nat),
    (∀ w ∈ (Run.final next (start entry calls) schedule).workers, ∃ reply, w.phase = .returned reply) →
    ∃ order : List Nat, order.Perm (List.range calls.length) ∧
      Sequential.run Call.alone entry (Sequential.callsAt calls order) =
        ((Run.final next (start entry calls) schedule).shared.entry,
          Sequential.repliesAt (replies (Run.final next (start entry calls) schedule)) order) := by
  intro h
  have hend : Run.final next (start (some ⟨some "asked", ∅⟩) [.clearState, .setData "age" 3]) [0, 0, 1, 0] =
      { shared := ⟨none, false⟩
        workers := [⟨.clearState, .returned .unit⟩, ⟨.setData "age" 3, .returned .unit⟩] } := by decide
  obtain ⟨order, hperm, hrun⟩ := h (some ⟨some "asked", ∅⟩) [.clearState, .setData "age" 3] [0, 0, 1, 0] (by rw [hend]; simp)
  rw [hend] at hrun
  have hslot := congrArg Prod.fst hrun
  -- The two orders: the field is there after both.
  obtain ⟨i, j, rfl⟩ := List.length_eq_two.mp hperm.length_eq
  have hi : i < 2 := List.mem_range.mp (hperm.subset (by simp))
  have hj : j < 2 := List.mem_range.mp (hperm.subset (by simp))
  interval_cases i <;> interval_cases j
  · exact absurd hperm (by decide)
  · exact absurd hslot (by decide)
  · exact absurd hslot (by decide)
  · exact absurd hperm (by decide)

end Ferogram.Fsm
