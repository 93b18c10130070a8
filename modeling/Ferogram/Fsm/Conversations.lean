import Ferogram.Filters.Router
import Ferogram.Fsm.Storage

/- Many conversations at a time: the handlers of `run_message` of `ferogram/src/filters/router.rs`
   on one `MemoryStorage` of `ferogram-fsm/src/storage.rs`, each with the context of
   `ferogram-fsm/src/context.rs`.

   A task reads the state of its conversation, finds the handler, and runs it. The handler is a
   program of calls of its context, and each next call may depend on the replies before it. The
   map locks a shard at a time, so a task may have to wait for a conversation that is not its own.

   `conversation_isolated`: in any order of the steps, a conversation goes as some order of the
   steps of its own tasks makes it go. `conversations_in_order`: where no task begins before the
   earlier ones of its conversation are done, each ends as if there had been no others. -/
namespace Ferogram.Fsm
open Filters
variable {V μ : Type}

/-- What a handler does with its context. -/
inductive Program (V : Type) where
  | done
  | call (call : Call V) (next : Reply V → Program V)

def Program.isDone : Program V → Bool
  | .done => true
  | .call .. => false

/-- A task that handles a message, with the phase of the call that comes next. -/
structure MessageTask (V : Type) where
  key : StateKey
  program : Program V
  phase : Phase V := .waiting

/-- Where a call has brought the task. -/
def MessageTask.resume (t : MessageTask V) (next : Reply V → Program V) : Phase V → MessageTask V
  | .returned reply => { t with program := next reply, phase := .waiting }
  | phase => { t with phase := phase }

/-- A step of the task in the slot of its conversation. -/
def MessageTask.step (s : Slot V) (t : MessageTask V) : Unit → Slot V × MessageTask V := fun _ =>
  match t.program with
  | .done => (s, t)
  | .call call next =>
    let r := Fsm.step s ⟨call, t.phase⟩ ()
    (r.1, t.resume next r.2.phase)

/-- The map: what it holds, and on each shard the key under whose guard it is locked. -/
structure Entries (V : Type) where
  entry : StateKey → Option (StorageEntry V)
  guards : Nat → Option StateKey

section Store
variable (shard : StateKey → Nat)

/-- The slot of a conversation. -/
def Entries.slot (s : Entries V) (key : StateKey) : Slot V := ⟨s.entry key, s.guards (shard key) = some key⟩

def Entries.put (s : Entries V) (key : StateKey) (slot : Slot V) : Entries V where
  entry := Function.update s.entry key slot.entry
  guards := Function.update s.guards (shard key) (if slot.guarded then some key else none)

def Phase.isGuarding : Phase V → Bool
  | .guarding => true
  | _ => false

/-- The task waits for whoever has locked its shard. -/
def Blocked (s : Entries V) (t : MessageTask V) : Prop := t.phase.isGuarding = false ∧ (s.guards (shard t.key)).isSome = true

instance (s : Entries V) (t : MessageTask V) : Decidable (Blocked shard s t) := inferInstanceAs (Decidable (_ ∧ _))

def Entries.step (s : Entries V) (t : MessageTask V) : Unit → Entries V × MessageTask V := fun _ =>
  if Blocked shard s t then (s, t)
  else (s.put shard t.key (t.step (s.slot shard t.key) ()).1, (t.step (s.slot shard t.key) ()).2)

/-- The steps of all the tasks, in any order. -/
def Entries.next (c : Crew (Entries V) (MessageTask V)) (i : Nat) : Crew (Entries V) (MessageTask V) :=
  Crew.next (Entries.step shard) c (i, ())

/-- The same for the tasks of one conversation, on its slot. -/
def Slot.next (c : Crew (Slot V) (MessageTask V)) (i : Nat) : Crew (Slot V) (MessageTask V) := Crew.next (fun s t => t.step s) c (i, ())

/-- The part of a conversation in it all. -/
def ofKey (key : StateKey) (c : Crew (Entries V) (MessageTask V)) : Crew (Slot V) (MessageTask V) where
  shared := c.shared.slot shard key
  workers := c.workers.filter (·.key = key)

end Store

/-! The dispatcher. -/

/-- `run_message` for a dispatcher with a storage: the state is read when there are handlers that
ask for one. What a handler does with the context is `body`; one without a state gets no context. -/
def runMessageProgram [MessageLike μ] (msg : μ) (regular : List (MessageHandler μ)) (fsm : List (FsmMessageHandler μ))
    (strategy : StateKeyStrategy) (body : Place → μ → String → Program V) : Program V :=
  if fsm.isEmpty then .done
  else
    .call .getState fun reply =>
      let state := match reply with
        | .state state => state
        | _ => none
      match runMessage msg regular fsm (some fun _ => .ok state) strategy with
      | [.fsm handler _ current] => body handler msg current
      | _ => .done

/-- The task of an update. -/
def dispatchTask [MessageLike μ] (d : Dispatcher μ) (body : Place → μ → String → Program V) (u : MessageUpdate μ) :
    MessageTask V where
  key := StateKey.fromMessage u.msg d.keyStrategy
  program :=
    match u with
    | .newMessage msg => runMessageProgram msg d.newMsg d.fsmNewMsg d.keyStrategy body
    | .messageEdited msg => runMessageProgram msg d.editedMsg d.fsmEditedMsg d.keyStrategy body

/-- Each update in a task of its own, on a map that nobody has locked. -/
def dispatchAll [MessageLike μ] (d : Dispatcher μ) (body : Place → μ → String → Program V)
    (entry : StateKey → Option (StorageEntry V)) (updates : List (MessageUpdate μ)) : Crew (Entries V) (MessageTask V) where
  shared := { entry := entry, guards := fun _ => none }
  workers := updates.map (dispatchTask d body)

/-! The guard. -/

theorem MessageTask.resume_key (t : MessageTask V) (next : Reply V → Program V) (phase : Phase V) : (t.resume next phase).key = t.key := by
  cases phase <;> rfl

theorem MessageTask.resume_guarding (t : MessageTask V) (next : Reply V → Program V) (phase : Phase V) :
    (t.resume next phase).phase.isGuarding = phase.isGuarding := by
  cases phase <;> rfl

theorem MessageTask.step_key (s : Slot V) (t : MessageTask V) : (t.step s ()).2.key = t.key := by
  unfold MessageTask.step
  split
  · rfl
  · exact t.resume_key _ _

theorem enter_guarded (call : Call V) (entry : Option (StorageEntry V)) :
    (call.enter entry).1.guarded = (call.enter entry).2.isGuarding := by
  cases call with
  | clearState => cases entry <;> rfl
  | clearData => cases entry <;> rfl
  | _ => rfl

/-- The slot is guarded as long as the task is in the phase that guards it. -/
theorem MessageTask.step_guarded {s : Slot V} {t : MessageTask V} (h : s.guarded = t.phase.isGuarding) :
    (t.step s ()).1.guarded = (t.step s ()).2.phase.isGuarding := by
  unfold MessageTask.step
  split
  · exact h
  · next call next hprogram =>
    rw [MessageTask.resume_guarding]
    unfold Fsm.step
    cases hphase : t.phase with
    | waiting =>
      have hfree : s.guarded = false := by rw [h, hphase]; rfl
      simp only [hfree, Bool.false_eq_true, if_false]
      exact enter_guarded call s.entry
    | guarding => dsimp only; split <;> rfl
    | removing =>
      have hfree : s.guarded = false := by rw [h, hphase]; rfl
      simp only [hfree, Bool.false_eq_true, if_false]
      rfl
    | returned reply =>
      rw [hphase] at h
      exact h

section Isolated
variable {shard : StateKey → Nat}

/-- The slot of a conversation is guarded by one of its tasks. -/
abbrev Guarded (shard : StateKey → Nat) : Crew (Entries V) (MessageTask V) → Prop :=
  Crew.Held (fun s key => s.guards (shard key) = some key) fun t key => t.phase.isGuarding = true ∧ t.key = key

theorem slot_put_self (s : Entries V) (key : StateKey) (slot : Slot V) : (s.put shard key slot).slot shard key = slot := by
  obtain ⟨entry, guarded⟩ := slot
  cases guarded <;> simp [Entries.slot, Entries.put]

/-- A conversation that shares the shard does not notice. -/
theorem slot_put_other {s : Entries V} {key other : StateKey} (slot : Slot V) (hne : other ≠ key)
    (hguard : ∀ k, s.guards (shard key) = some k → k = key) : (s.put shard key slot).slot shard other = s.slot shard other := by
  have hentry : (s.put shard key slot).entry other = s.entry other := Function.update_of_ne hne _ _
  have hlocked : (s.put shard key slot).guards (shard other) = some other ↔ s.guards (shard other) = some other := by
    by_cases hshard : shard other = shard key
    · have hafter : (s.put shard key slot).guards (shard other) = if slot.guarded then some key else none := by
        rw [hshard]
        exact Function.update_self ..
      rw [hafter]
      constructor
      · intro h
        split at h
        · exact absurd (Option.some.inj h).symm hne
        · cases h
      · intro h
        rw [hshard] at h
        exact absurd (hguard other h) hne
    · rw [Entries.put]
      dsimp only
      rw [Function.update_of_ne hshard]
  unfold Entries.slot
  rw [hentry]
  simp only [hlocked]

section Tasks
variable {tasks : List (MessageTask V)} {i : Nat} {t t' : MessageTask V}

/-- The tasks of a conversation, when one of them takes a step. -/
theorem filter_own (hi : tasks[i]? = some t) (hkey : t'.key = t.key) :
    ∃ before after, tasks.filter (fun u => decide (u.key = t.key)) = before ++ t :: after ∧
      (tasks.set i t').filter (fun u => decide (u.key = t.key)) = before ++ t' :: after ∧
      ∀ u ∈ before, ∃ j < i, tasks[j]? = some u := Crew.filter_set (by simp) (by simpa using hkey) hi

/-- The tasks of a conversation, when one of another conversation takes a step. -/
theorem filter_other {key : StateKey} (hi : tasks[i]? = some t) (hkey : t'.key = t.key) (hne : t.key ≠ key) :
    (tasks.set i t').filter (fun u => decide (u.key = key)) = tasks.filter fun u => decide (u.key = key) :=
  Crew.filter_set_other (by simpa using hne) (by simpa [hkey] using hne) hi

end Tasks

/-- A task that need not wait finds its shard free, or locked by itself. -/
theorem Guarded.unblocked {c : Crew (Entries V) (MessageTask V)} {i : Nat} {t : MessageTask V} (hc : Guarded shard c)
    (hi : c.workers[i]? = some t) (h : ¬ Blocked shard c.shared t) :
    c.shared.guards (shard t.key) = if t.phase.isGuarding then some t.key else none := by
  cases hphase : t.phase.isGuarding with
  | true => exact (hc.taken t.key).mpr ⟨t, List.mem_of_getElem? hi, hphase, rfl⟩
  | false =>
    cases hguard : c.shared.guards (shard t.key) with
    | none => rfl
    | some k => exact absurd ⟨hphase, by rw [hguard]; rfl⟩ h

theorem Guarded.own_guard {c : Crew (Entries V) (MessageTask V)} {i : Nat} {t : MessageTask V} {key : StateKey} (hc : Guarded shard c)
    (hi : c.workers[i]? = some t) (h : ¬ Blocked shard c.shared t) (hkey : c.shared.guards (shard t.key) = some key) :
    key = t.key := by
  rw [hc.unblocked hi h] at hkey
  split at hkey
  · exact (Option.some.inj hkey).symm
  · cases hkey

/-- What a step does: nothing, or a step in the slot of its task. -/
theorem Entries.next_cases (c : Crew (Entries V) (MessageTask V)) (i : Nat) :
    Entries.next shard c i = c ∨ ∃ t, c.workers[i]? = some t ∧ ¬ Blocked shard c.shared t ∧
      Entries.next shard c i =
        { shared := c.shared.put shard t.key (t.step (c.shared.slot shard t.key) ()).1
          workers := c.workers.set i (t.step (c.shared.slot shard t.key) ()).2 } := by
  cases hi : c.workers[i]? with
  | none => exact Or.inl (Crew.next_none _ hi)
  | some t =>
    by_cases hblocked : Blocked shard c.shared t
    · exact Or.inl (Crew.next_of_step_eq _ hi (if_pos hblocked))
    · refine Or.inr ⟨t, rfl, hblocked, ?_⟩
      rw [Entries.next, Crew.next_some _ hi, Entries.step, if_neg hblocked]

theorem Guarded.next (c : Crew (Entries V) (MessageTask V)) (i : Nat) (hc : Guarded shard c) :
    Guarded shard (Entries.next shard c i) := by
  rcases Entries.next_cases c i with h | ⟨t, hi, hblocked, h⟩
  · rwa [h]
  generalize hr : t.step (c.shared.slot shard t.key) () = r at h
  have hguard := hc.unblocked hi hblocked
  have hslot : (c.shared.slot shard t.key).guarded = t.phase.isGuarding := by
    rw [Entries.slot, hguard]
    cases t.phase.isGuarding <;> simp
  have hkey : r.2.key = t.key := by rw [← hr]; exact t.step_key _
  have hafter : r.1.guarded = r.2.phase.isGuarding := by rw [← hr]; exact MessageTask.step_guarded hslot
  have hfree : c.shared.guards (shard t.key) = some t.key ↔ t.phase.isGuarding = true := by
    rw [hguard]
    cases t.phase.isGuarding <;> simp
  have hslots : ∀ (s : Entries V) (key : StateKey), s.guards (shard key) = some key ↔ (s.slot shard key).guarded = true := by
    intro s key
    simp [Entries.slot]
  rw [h]
  refine hc.set hi ?_ ?_
  · rintro key ⟨-, rfl⟩
    rw [hkey, hfree]
    cases hphase : t.phase.isGuarding
    · exact Or.inr (by simp)
    · exact Or.inl ⟨rfl, rfl⟩
  · intro key
    by_cases hown : key = t.key
    · subst hown
      rw [hslots, slot_put_self, hfree, hafter]
      simp only [hkey, and_true]
      tauto
    · have hother : ∀ k, c.shared.guards (shard t.key) = some k → k = t.key := fun k hk => hc.own_guard hi hblocked hk
      rw [hslots, slot_put_other _ hown hother, ← hslots]
      simp only [hkey, Ne.symm hown, and_false, false_or, not_false_eq_true, and_true]

/-- A step, for one conversation. -/
theorem ofKey_next (key : StateKey) (c : Crew (Entries V) (MessageTask V)) (i : Nat) (hc : Guarded shard c) :
    ∃ js, ofKey shard key (Entries.next shard c i) = Run.final Slot.next (ofKey shard key c) js := by
  rcases Entries.next_cases c i with h | ⟨t, hi, hblocked, h⟩
  · exact ⟨[], congrArg (ofKey shard key) h⟩
  generalize hr : t.step (c.shared.slot shard t.key) () = r at h
  have hkey : r.2.key = t.key := by rw [← hr]; exact t.step_key _
  rw [h]
  by_cases hown : t.key = key
  · -- a step of its own, at the place that the task has among the conversation's
    subst hown
    obtain ⟨before, after, hfilter, hset, -⟩ := filter_own hi hkey
    have hat : (ofKey shard t.key c).workers[before.length]? = some t := by
      rw [ofKey, hfilter]
      simp
    refine ⟨[before.length], ?_⟩
    show _ = Slot.next (ofKey shard t.key c) before.length
    rw [Slot.next, Crew.next_some _ hat, ofKey, ofKey, slot_put_self, hset, hfilter, hr]
    simp
  · refine ⟨[], ?_⟩
    show ofKey shard key _ = ofKey shard key c
    rw [ofKey, ofKey, filter_other hi hkey hown, slot_put_other _ (Ne.symm hown) fun k hk => hc.own_guard hi hblocked hk]

theorem dispatchAll_guarded [MessageLike μ] (d : Dispatcher μ) (body : Place → μ → String → Program V)
    (entry : StateKey → Option (StorageEntry V)) (updates : List (MessageUpdate μ)) :
    Guarded shard (dispatchAll d body entry updates) := by
  have hwaiting : ∀ t ∈ (dispatchAll d body entry updates).workers, t.phase.isGuarding = false := by
    intro t ht
    obtain ⟨u, -, rfl⟩ := List.mem_map.mp ht
    rfl
  constructor
  · intro key
    constructor
    · intro h
      cases h
    · rintro ⟨t, ht, hphase, -⟩
      rw [hwaiting t ht] at hphase
      cases hphase
  · intro key i j t u hi hj ht
    rw [hwaiting t (List.mem_of_getElem? hi)] at ht
    cases ht.1

/-- The conversation of an update. -/
def keyOf [MessageLike μ] (d : Dispatcher μ) (u : MessageUpdate μ) : StateKey := StateKey.fromMessage u.msg d.keyStrategy

theorem ofKey_dispatchAll [MessageLike μ] (d : Dispatcher μ) (body : Place → μ → String → Program V)
    (entry : StateKey → Option (StorageEntry V)) (updates : List (MessageUpdate μ)) (key : StateKey) :
    ofKey shard key (dispatchAll d body entry updates) =
      { shared := ⟨entry key, false⟩
        workers := (updates.filter fun u => keyOf d u = key).map (dispatchTask d body) } := by
  have hslot : (dispatchAll d body entry updates).shared.slot shard key = ⟨entry key, false⟩ := by
    simp [dispatchAll, Entries.slot]
  have hworkers : (dispatchAll d body entry updates).workers.filter (fun t => decide (t.key = key)) =
      (updates.filter fun u => keyOf d u = key).map (dispatchTask d body) := by
    rw [dispatchAll, List.filter_map]
    rfl
  rw [ofKey, hslot, hworkers]

/-- **No conversation notices another one.** However the keys share the shards of the map, and whatever the steps of all
the tasks come in: what a conversation's slot holds, and where each of its tasks has come to, is what some order of the
steps of these tasks alone makes of it. -/
theorem conversation_isolated [MessageLike μ] (shard : StateKey → Nat) (d : Dispatcher μ)
    (body : Place → μ → String → Program V) (entry : StateKey → Option (StorageEntry V))
    (updates : List (MessageUpdate μ)) (schedule : List Nat) (key : StateKey) :
    ∃ steps : List Nat,
      ofKey shard key (Run.final (Entries.next shard) (dispatchAll d body entry updates) schedule) =
        Run.final Slot.next
          { shared := ⟨entry key, false⟩
            workers := (updates.filter fun u => keyOf d u = key).map (dispatchTask d body) } steps := by
  rw [← ofKey_dispatchAll d body entry updates key]
  exact Run.final_simulated (Entries.next shard) (ofKey shard key) Slot.next (fun c i hc => Guarded.next c i hc)
    (fun c i hc => ofKey_next key c i hc) schedule _ (dispatchAll_guarded d body entry updates)

end Isolated

/-! One task after another. -/

/-- A program with nobody in between. -/
def Program.alone : Program V → Option (StorageEntry V) → Option (StorageEntry V)
  | .done, entry => entry
  | .call c next, entry => (next (c.alone entry).2).alone (c.alone entry).1

/-- What the task will make of the slot, from where its call has come to. -/
def MessageTask.rest (t : MessageTask V) (entry : Option (StorageEntry V)) : Option (StorageEntry V) :=
  match t.program with
  | .done => entry
  | .call call next =>
    match t.phase with
    | .waiting => t.program.alone entry
    | .guarding => (next .unit).alone (if entry.any call.leavesNothing then none else entry)
    | .removing => (next .unit).alone none
    | .returned reply => (next reply).alone entry

theorem MessageTask.rest_waiting {t : MessageTask V} (h : t.phase = .waiting) (entry : Option (StorageEntry V)) :
    t.rest entry = t.program.alone entry := by
  unfold MessageTask.rest
  split
  · next hprogram => rw [hprogram]; rfl
  · rw [h]

/-- The task between two calls. -/
theorem MessageTask.rest_resume (t : MessageTask V) (next : Reply V → Program V) (reply : Reply V) (entry : Option (StorageEntry V)) :
    (t.resume next (.returned reply)).rest entry = (next reply).alone entry :=
  MessageTask.rest_waiting rfl entry

theorem enter_cases (call : Call V) (entry : Option (StorageEntry V)) :
    (∃ reply, (call.enter entry).2 = .returned reply) ∨ (call.enter entry).2 = .guarding := by
  cases call with
  | clearState => cases entry <;> simp [Call.enter]
  | clearData => cases entry <;> simp [Call.enter]
  | _ => exact Or.inl ⟨_, rfl⟩

/-- A step changes nothing about that. -/
theorem MessageTask.rest_step (s : Slot V) (t : MessageTask V) : (t.step s ()).2.rest (t.step s ()).1.entry = t.rest s.entry := by
  cases hprogram : t.program with
  | done => simp only [MessageTask.step, hprogram]
  | call call next =>
    -- what is left of a call, for the phase that the step leaves it in
    have hrest : ∀ phase entry, (t.resume next phase).rest entry = match phase with
        | .waiting => (next (call.alone entry).2).alone (call.alone entry).1
        | .guarding => (next .unit).alone (if entry.any call.leavesNothing then none else entry)
        | .removing => (next .unit).alone none
        | .returned reply => (next reply).alone entry := by
      intro phase entry
      cases phase with
      | returned reply => exact t.rest_resume next reply entry
      | _ => simp only [MessageTask.resume, MessageTask.rest, hprogram, Program.alone]
    have hself : t.rest s.entry = match t.phase with
        | .waiting => (next (call.alone s.entry).2).alone (call.alone s.entry).1
        | .guarding => (next .unit).alone (if s.entry.any call.leavesNothing then none else s.entry)
        | .removing => (next .unit).alone none
        | .returned reply => (next reply).alone s.entry := by
      simp only [MessageTask.rest, hprogram, Program.alone]
    have hstep : t.step s () = ((Fsm.step s ⟨call, t.phase⟩ ()).1, t.resume next (Fsm.step s ⟨call, t.phase⟩ ()).2.phase) := by
      simp only [MessageTask.step, hprogram]
    rw [hstep, hself]
    dsimp only
    rw [hrest]
    cases hphase : t.phase with
    | waiting =>
      by_cases hguarded : s.guarded = true
      · simp [Fsm.step, hguarded]
      · rcases enter_cases call s.entry with ⟨reply, henter⟩ | henter <;>
          simp [Fsm.step, hguarded, henter, Call.alone]
    | guarding =>
      cases hnothing : s.entry.any call.leavesNothing <;> simp [Fsm.step, hnothing]
    | removing =>
      by_cases hguarded : s.guarded = true <;> simp [Fsm.step, hguarded]
    | returned reply => rfl

section InOrder
variable {shard : StateKey → Nat}

/-- The earlier tasks of the conversation are done. -/
def InOrder (c : Crew (Entries V) (MessageTask V)) (i : Nat) : Prop :=
  ∀ t ∈ c.workers[i]?, ∀ j < i, ∀ u ∈ c.workers[j]?, u.key = t.key → u.program.isDone = true

instance (c : Crew (Entries V) (MessageTask V)) (i : Nat) : Decidable (InOrder c i) :=
  inferInstanceAs (Decidable (∀ t ∈ c.workers[i]?, _))

/-- What the tasks of a conversation will make of it, one after another. -/
def outcome (key : StateKey) (c : Crew (Entries V) (MessageTask V)) : Option (StorageEntry V) :=
  (c.workers.filter (·.key = key)).foldl (fun entry t => t.rest entry) (c.shared.entry key)

theorem MessageTask.rest_done {t : MessageTask V} (h : t.program.isDone = true) (entry : Option (StorageEntry V)) :
    t.rest entry = entry := by
  unfold MessageTask.rest
  split
  · rfl
  · next hprogram =>
    rw [hprogram] at h
    cases h

theorem rest_done {ts : List (MessageTask V)} (h : ∀ t ∈ ts, t.program.isDone = true) (entry : Option (StorageEntry V)) :
    ts.foldl (fun entry t => t.rest entry) entry = entry := by
  induction ts generalizing entry with
  | nil => rfl
  | cons t ts ih =>
    have hhead : t.rest entry = entry := MessageTask.rest_done (h t (List.mem_cons_self ..)) entry
    rw [List.foldl_cons, hhead]
    exact ih (fun u hu => h u (List.mem_cons_of_mem t hu)) entry

theorem outcome_next (key : StateKey) (c : Crew (Entries V) (MessageTask V)) (i : Nat) (horder : InOrder c i) :
    outcome key (Entries.next shard c i) = outcome key c := by
  rcases Entries.next_cases c i with h | ⟨t, hi, -, h⟩
  · rw [h]
  generalize hr : t.step (c.shared.slot shard t.key) () = r at h
  have hkey : r.2.key = t.key := by rw [← hr]; exact t.step_key _
  rw [h]
  by_cases hown : t.key = key
  · subst hown
    obtain ⟨before, after, hfilter, hset, hbefore⟩ := filter_own hi hkey
    have hdone : ∀ u ∈ before, u.program.isDone = true := by
      intro u hu
      obtain ⟨j, hj, hat⟩ := hbefore u hu
      have hmem : u ∈ c.workers.filter fun u => decide (u.key = t.key) := by
        rw [hfilter]
        exact List.mem_append_left _ hu
      exact horder t hi j hj u hat (of_decide_eq_true (List.mem_filter.mp hmem).2)
    have hentry : (c.shared.put shard t.key r.1).entry t.key = r.1.entry := Function.update_self ..
    have hrest : r.2.rest r.1.entry = t.rest (c.shared.entry t.key) := by
      rw [← hr]
      exact t.rest_step (c.shared.slot shard t.key)
    rw [outcome, outcome, hset, hfilter, hentry, List.foldl_append, List.foldl_append, rest_done hdone, rest_done hdone,
      List.foldl_cons, List.foldl_cons, hrest]
  · have hentry : (c.shared.put shard t.key r.1).entry key = c.shared.entry key :=
      Function.update_of_ne (Ne.symm hown) _ _
    rw [outcome, outcome, filter_other hi hkey hown, hentry]

/-- **Conversations side by side.** Where a task takes a step only when the earlier ones of its conversation are done,
each conversation ends as its own messages make it end, handled one after another; how the steps of different
conversations are mixed makes no difference. -/
theorem conversations_in_order [MessageLike μ] (shard : StateKey → Nat) (d : Dispatcher μ)
    (body : Place → μ → String → Program V) (entry : StateKey → Option (StorageEntry V))
    (updates : List (MessageUpdate μ)) (schedule : List Nat)
    (horder : Run.AllSteps (Entries.next shard) InOrder (dispatchAll d body entry updates) schedule)
    (hdone : ∀ t ∈ (Run.final (Entries.next shard) (dispatchAll d body entry updates) schedule).workers,
      t.program.isDone = true) (key : StateKey) :
    (Run.final (Entries.next shard) (dispatchAll d body entry updates) schedule).shared.entry key =
      (updates.filter fun u => keyOf d u = key).foldl (fun entry u => (dispatchTask d body u).program.alone entry)
        (entry key) := by
  let start := dispatchAll d body entry updates
  let last := Run.final (Entries.next shard) start schedule
  have hsame : outcome key last = outcome key start :=
    Run.states_inv (Entries.next shard) (I := fun c => outcome key c = outcome key start)
      (fun c i hG hc => (outcome_next key c i hG).trans hc) schedule start rfl horder last
      (Run.final_mem_states (Entries.next shard) schedule start)
  have hend : outcome key last = last.shared.entry key :=
    rest_done (fun t ht => hdone t (List.mem_filter.mp ht).1) _
  have hstart : outcome key start = (updates.filter fun u => keyOf d u = key).foldl
      (fun entry u => (dispatchTask d body u).program.alone entry) (entry key) := by
    have hworkers : start.workers.filter (fun t => decide (t.key = key)) =
        (updates.filter fun u => keyOf d u = key).map (dispatchTask d body) :=
      congrArg Crew.workers (@ofKey_dispatchAll _ _ shard _ d body entry updates key)
    have hrest : (fun entry u => (dispatchTask d body u).rest entry) =
        fun entry u => (dispatchTask d body u).program.alone entry := by
      funext entry u
      exact MessageTask.rest_waiting rfl entry
    rw [outcome, hworkers, List.foldl_map, hrest]
    rfl
  calc last.shared.entry key
      _ = outcome key last := hend.symm
      _ = outcome key start := hsame
      _ = _ := hstart

/-- Two chats, which share a shard: one clears its data, the other goes on to a state. -/
def twoChats : Dispatcher Int64 :=
  { fsmNewMsg := [⟨fun _ => true, "asked", []⟩], keyStrategy := .perChat }

instance : MessageLike Int64 where
  senderUserId := fun _ => none
  chatId := id

/-- In the first chat the conversation is over. -/
def askedBody (_ : Place) (chat : Int64) (_ : String) : Program Nat :=
  if chat = 1 then .call .clearState fun _ => .done else .call (.setState "told") fun _ => .done

/-- The third message comes when the conversation of its chat is over. -/
theorem conversations_in_order_twoChats :
    (Run.final (Entries.next fun _ => 0)
        (dispatchAll twoChats askedBody (fun _ => some ⟨some "asked", ∅⟩)
          [.newMessage (1 : Int64), .newMessage 2, .newMessage 1])
        [0, 1, 0, 0, 1, 0, 1, 2]).shared.entry ⟨none, 1⟩ =
      ([.newMessage (1 : Int64), .newMessage 2, .newMessage 1].filter fun u => keyOf twoChats u = ⟨none, 1⟩).foldl
        (fun entry u => (dispatchTask twoChats askedBody u).program.alone entry) (some ⟨some "asked", ∅⟩) :=
  conversations_in_order (fun _ => 0) twoChats askedBody (fun _ => some ⟨some "asked", ∅⟩)
    [.newMessage 1, .newMessage 2, .newMessage 1] [0, 1, 0, 0, 1, 0, 1, 2] (by decide) (by decide) ⟨none, 1⟩

end InOrder

end Ferogram.Fsm
