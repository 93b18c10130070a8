import Ferogram.Lib.Run
import Ferogram.Lib.Progress

/- The update stream, `stream_updates` of `ferogram/src/client/mod.rs` under the strategy
   `DropOldest`, with `update_priority` of `update_config.rs`.

   The task between the reader and the caller has a ring buffer, and a channel to the caller
   with as many slots. It takes an update when there is one; what happens between two calls of
   `try_send` is decided by the schedule. The sender side closes behind the last update; before
   it comes, and while the task waits for a slot, the schedule leaves the task alone.

   What is proved: `dropOldest_fair`. What was received is, in order, with the caller, in the
   channel, in the ring or in the hand of the task (`all`), and a step takes at most one update
   out of it, if the ring is full. Where the task and the caller go on having turns, the task
   comes to its end, and then all that is left is with the caller (`left`). -/
namespace Ferogram.UpdateStream

/-- The variants of `Update`. -/
inductive UpdateKind where
  | newMessage
  | messageEdited
  | messageDeleted
  | callbackQuery
  | inlineQuery
  | inlineSend
  | userStatus
  | userTyping
  | participantUpdate
  | joinRequest
  | messageReaction
  | pollVote
  | botStopped
  | shippingQuery
  | preCheckoutQuery
  | chatBoost
  | guestChatQuery
  | raw
  deriving DecidableEq

structure Update (α : Type) where
  kind : UpdateKind
  content : α
  deriving DecidableEq

inductive UpdatePriority where
  | ephemeral
  | normal
  deriving DecidableEq

def updatePriority {α : Type} (upd : Update α) : UpdatePriority :=
  match upd.kind with
  | .userStatus | .userTyping => .ephemeral
  | _ => .normal

/-- Where the task is: it waits for an update, moves the ring into the channel with an update
in its hand, has that one to deliver, flushes the ring, or is through. -/
inductive Phase (α : Type) where
  | waiting
  | draining (upd : Update α)
  | delivering (upd : Update α)
  | flushing
  | exited
  deriving DecidableEq

/-- `input` is what is still to come, `handed` what the caller has taken. -/
structure Stream (α : Type) where
  input : List (Update α)
  ring : List (Update α)
  channel : List (Update α)
  handed : List (Update α)
  closed : Bool
  phase : Phase α
  deriving DecidableEq

inductive TrySendError where
  | full
  | closed

inductive Event where
  | task
  | take
  | dropStream
  deriving DecidableEq

section
variable {α : Type} (capacity : Nat)

/-- The stalest ephemeral update goes, or else the oldest one. -/
def evict (ring : List (Update α)) : List (Update α) :=
  match ring.findIdx? (fun u => updatePriority u = .ephemeral) with
  | some pos => ring.eraseIdx pos
  | none => ring.tail

namespace Stream

/-- `caller_tx.try_send`. -/
def trySend (s : Stream α) (upd : Update α) : Except TrySendError (Stream α) :=
  if s.closed then .error .closed
  else if s.channel.length < capacity then .ok { s with channel := s.channel ++ [upd] }
  else .error .full

/-- The caller has dropped the stream. -/
def exit (s : Stream α) : Stream α := { s with ring := [], phase := .exited }

/-- One turn of the loop that drains the ring. -/
def drain (s : Stream α) (upd : Update α) : Stream α :=
  match s.ring with
  | [] => { s with phase := .delivering upd }
  | first :: ring =>
    match { s with ring := ring }.trySend capacity first with
    | .ok s => s
    | .error .full => { s with phase := .delivering upd }
    | .error .closed => s.exit

def deliver (s : Stream α) (upd : Update α) : Stream α :=
  if s.ring = [] then
    match s.trySend capacity upd with
    | .ok s => { s with phase := .waiting }
    | .error .full => { s with ring := s.ring ++ [upd], phase := .waiting }
    | .error .closed => s.exit
  else if s.ring.length < capacity then { s with ring := s.ring ++ [upd], phase := .waiting }
  else { s with ring := evict s.ring ++ [upd], phase := .waiting }

/-- `send` waits for a slot; its errors are ignored. -/
def flush (s : Stream α) : Stream α :=
  match s.ring with
  | [] => { s with phase := .exited }
  | queued :: ring =>
    match { s with ring := ring }.trySend capacity queued with
    | .ok s => s
    | .error .full => s
    | .error .closed => { s with ring := ring }

def recv (s : Stream α) : Stream α :=
  match s.input with
  | [] => { s with phase := .flushing }
  | upd :: input => { s with input := input, phase := .draining upd }

def task (s : Stream α) : Stream α :=
  match s.phase with
  | .waiting => s.recv
  | .draining upd => s.drain capacity upd
  | .delivering upd => s.deliver capacity upd
  | .flushing => s.flush capacity
  | .exited => s

/-- `UpdateStream::next`, which waits if there is nothing. -/
def take (s : Stream α) : Stream α :=
  match s.channel with
  | [] => s
  | upd :: channel => { s with channel := channel, handed := s.handed ++ [upd] }

def next (s : Stream α) : Event → Stream α
  | .task => s.task capacity
  | .take => s.take
  | .dropStream => { s with closed := true, channel := [] }

end Stream

/-- `stream_updates`; the queue has one slot at least. -/
def slots (queueCapacity : Nat) : Nat := max queueCapacity 1

def start (input : List (Update α)) : Stream α where
  input := input
  ring := []
  channel := []
  handed := []
  closed := false
  phase := .waiting

/-- The update in the hand of the task. -/
def Phase.hand : Phase α → List (Update α)
  | .draining upd | .delivering upd => [upd]
  | _ => []

/-- What has not been dropped, in order. -/
def Stream.all (s : Stream α) : List (Update α) := s.handed ++ (s.channel ++ (s.ring ++ (s.phase.hand ++ s.input)))

/-- One update of a full ring is dropped for the one in hand; a normal one only if there are no others. -/
def Drops (s s' : Stream α) : Prop :=
  s.phase.hand ≠ [] ∧ ∃ before upd after, s.ring = before ++ upd :: after ∧ s.ring.length = capacity ∧
    s'.all = s.handed ++ (s.channel ++ ((before ++ after) ++ (s.phase.hand ++ s.input))) ∧
    (updatePriority upd = .normal → ∀ u ∈ s.ring, updatePriority u = .normal)

end

/-! What a step does. -/

section Steps
variable {α : Type} {capacity : Nat} {s : Stream α}

theorem normal_of_not_ephemeral {upd : Update α} (h : updatePriority upd ≠ .ephemeral) : updatePriority upd = .normal := by
  cases hpriority : updatePriority upd with
  | ephemeral => exact absurd hpriority h
  | normal => rfl

theorem evict_cases {ring : List (Update α)} (h : ring ≠ []) :
    ∃ before upd after, ring = before ++ upd :: after ∧ evict ring = before ++ after ∧
      (updatePriority upd = .normal → ∀ u ∈ ring, updatePriority u = .normal) := by
  unfold evict
  split
  case h_1 pos hpos =>
    obtain ⟨hlt, hephemeral, -⟩ := List.findIdx?_eq_some_iff_getElem.mp hpos
    refine ⟨ring.take pos, ring[pos], ring.drop (pos + 1), ?_, List.eraseIdx_eq_take_drop_succ ring pos, ?_⟩
    · rw [← List.drop_eq_getElem_cons hlt, List.take_append_drop]
    · intro hnormal
      rw [of_decide_eq_true hephemeral] at hnormal
      cases hnormal
  case h_2 hnone =>
    have hall : ∀ u ∈ ring, updatePriority u = .normal := fun u hu =>
      normal_of_not_ephemeral (of_decide_eq_false (List.findIdx?_eq_none_iff.mp hnone u hu))
    obtain ⟨upd, ring, rfl⟩ := List.exists_cons_of_ne_nil h
    exact ⟨[], upd, ring, rfl, rfl, fun _ => hall⟩

theorem evict_length {ring : List (Update α)} (h : ring ≠ []) : (evict ring).length + 1 = ring.length := by
  obtain ⟨before, upd, after, hring, hevict, -⟩ := evict_cases h
  rw [hevict, hring, List.length_append, List.length_append, List.length_cons, Nat.add_assoc]

/-- The three outcomes of `try_send`. -/
theorem trySend_cases (capacity : Nat) (s : Stream α) (upd : Update α) :
    (s.closed = true ∧ s.trySend capacity upd = .error .closed) ∨
      (s.closed = false ∧ s.channel.length < capacity ∧
        s.trySend capacity upd = .ok { s with channel := s.channel ++ [upd] }) ∨
      (s.closed = false ∧ ¬ s.channel.length < capacity ∧ s.trySend capacity upd = .error .full) := by
  unfold Stream.trySend
  cases hclosed : s.closed with
  | true => exact Or.inl ⟨rfl, rfl⟩
  | false =>
    by_cases hspace : s.channel.length < capacity
    · exact Or.inr (Or.inl ⟨rfl, hspace, if_pos hspace⟩)
    · exact Or.inr (Or.inr ⟨rfl, hspace, if_neg hspace⟩)

/-- What one step of the task does to the updates; those of a caller who is gone get lost. -/
structure Fair (capacity : Nat) (s s' : Stream α) : Prop where
  ring : s'.ring.length ≤ capacity
  all : s'.all = s.all ∨ Drops capacity s s' ∨ (s'.closed = true ∧ s'.all.Sublist s.all)

theorem Drops.sublist {s s' : Stream α} (h : Drops capacity s s') : s'.all.Sublist s.all := by
  obtain ⟨-, before, upd, after, hring, -, hall, -⟩ := h
  rw [hall, Stream.all, hring]
  exact List.Sublist.append_left (List.Sublist.append_left (List.Sublist.append_right
    (List.Sublist.append_left (List.sublist_cons_self upd after) before) _) _) _

theorem Fair.sublist {s s' : Stream α} (h : Fair capacity s s') : s'.all.Sublist s.all := by
  rcases h.all with hsame | hdrops | ⟨-, hsub⟩
  · rw [hsame]
  · exact hdrops.sublist
  · exact hsub

/-- The task gives up. -/
theorem Stream.exit_sublist (s : Stream α) : s.exit.all.Sublist s.all := by
  change (s.handed ++ (s.channel ++ ([] ++ ([] ++ s.input)))).Sublist _
  rw [List.nil_append, List.nil_append]
  exact List.Sublist.append_left (List.Sublist.append_left
    ((List.sublist_append_right s.phase.hand s.input).trans (List.sublist_append_right s.ring _)) _) _

/-- Nothing is dropped. -/
theorem Fair.of_same {s s' : Stream α} (hring : s'.ring.length ≤ capacity) (h : s'.all = s.all) : Fair capacity s s' :=
  ⟨hring, Or.inl h⟩

theorem Fair.of_exit {s s' : Stream α} (hclosed : s'.closed = true) (h : s'.exit.all.Sublist s.all) :
    Fair capacity s s'.exit :=
  ⟨Nat.zero_le capacity, Or.inr (Or.inr ⟨hclosed, h⟩)⟩

theorem recv_fair (h : s.ring.length ≤ capacity) (hphase : s.phase = .waiting) : Fair capacity s s.recv := by
  obtain ⟨input, ring, channel, handed, closed, phase⟩ := s
  cases hphase
  cases input with
  | nil => exact Fair.of_same h rfl
  | cons upd input => exact Fair.of_same h rfl

theorem drain_fair {upd : Update α} (h : s.ring.length ≤ capacity) (hphase : s.phase = .draining upd) :
    Fair capacity s (s.drain capacity upd) := by
  obtain ⟨input, ring, channel, handed, closed, phase⟩ := s
  cases hphase
  cases ring with
  | nil => exact Fair.of_same h rfl
  | cons first ring =>
    have hle : ring.length ≤ capacity := Nat.le_of_succ_le h
    unfold Stream.drain
    dsimp only
    rcases trySend_cases capacity ⟨input, ring, channel, handed, closed, .draining upd⟩ first with
      ⟨hclosed, heq⟩ | ⟨-, -, heq⟩ | ⟨-, -, heq⟩
    · rw [heq]
      exact Fair.of_exit hclosed (Stream.exit_sublist _)
    · rw [heq]
      refine Fair.of_same hle ?_
      simp only [Stream.all, List.append_assoc, List.cons_append, List.nil_append]
    · rw [heq]
      exact Fair.of_same h rfl

theorem deliver_fair {upd : Update α} (hcap : 0 < capacity) (h : s.ring.length ≤ capacity)
    (hphase : s.phase = .delivering upd) : Fair capacity s (s.deliver capacity upd) := by
  obtain ⟨input, ring, channel, handed, closed, phase⟩ := s
  cases hphase
  unfold Stream.deliver
  dsimp only
  by_cases hempty : ring = []
  · subst hempty
    rw [if_pos rfl]
    rcases trySend_cases capacity ⟨input, [], channel, handed, closed, .delivering upd⟩ upd with
      ⟨hclosed, heq⟩ | ⟨-, -, heq⟩ | ⟨-, -, heq⟩
    · rw [heq]
      exact Fair.of_exit hclosed (Stream.exit_sublist _)
    · rw [heq]
      refine Fair.of_same h ?_
      simp only [Stream.all, Phase.hand, List.append_assoc, List.nil_append]
    · rw [heq]
      exact Fair.of_same hcap rfl
  · rw [if_neg hempty]
    by_cases hspace : ring.length < capacity
    · rw [if_pos hspace]
      refine Fair.of_same ?_ ?_
      · change (ring ++ [upd]).length ≤ capacity
        rw [List.length_append]
        exact hspace
      · simp only [Stream.all, Phase.hand, List.append_assoc, List.nil_append]
    · rw [if_neg hspace]
      have hfull : ring.length = capacity := Nat.le_antisymm h (Nat.le_of_not_lt hspace)
      obtain ⟨before, gone, after, hring, hevict, hnormal⟩ := evict_cases hempty
      refine ⟨?_, Or.inr (Or.inl ⟨List.cons_ne_nil _ _, before, gone, after, hring, hfull, ?_, hnormal⟩)⟩
      · change (evict ring ++ [upd]).length ≤ capacity
        have hlen := evict_length hempty
        rw [List.length_append, List.length_singleton]
        omega
      · simp only [Stream.all, Phase.hand, hevict, List.append_assoc, List.nil_append]

theorem flush_fair (h : s.ring.length ≤ capacity) (hphase : s.phase = .flushing) :
    Fair capacity s (s.flush capacity) := by
  obtain ⟨input, ring, channel, handed, closed, phase⟩ := s
  cases hphase
  cases ring with
  | nil => exact Fair.of_same h rfl
  | cons queued ring =>
    have hle : ring.length ≤ capacity := Nat.le_of_succ_le h
    unfold Stream.flush
    dsimp only
    rcases trySend_cases capacity ⟨input, ring, channel, handed, closed, .flushing⟩ queued with
      ⟨hclosed, heq⟩ | ⟨-, -, heq⟩ | ⟨-, -, heq⟩
    · rw [heq]
      refine ⟨hle, Or.inr (Or.inr ⟨hclosed, ?_⟩)⟩
      exact List.Sublist.append_left (List.Sublist.append_left (List.Sublist.append_right (List.sublist_cons_self queued ring) _) _) _
    · rw [heq]
      refine Fair.of_same hle ?_
      simp only [Stream.all, List.append_assoc, List.cons_append, List.nil_append]
    · rw [heq]
      exact Fair.of_same h rfl

theorem next_fair (hcap : 0 < capacity) (h : s.ring.length ≤ capacity) (e : Event) :
    Fair capacity s (s.next capacity e) := by
  cases e with
  | task =>
    change Fair capacity s (s.task capacity)
    unfold Stream.task
    cases hphase : s.phase with
    | waiting => exact recv_fair h hphase
    | draining upd => exact drain_fair h hphase
    | delivering upd => exact deliver_fair hcap h hphase
    | flushing => exact flush_fair h hphase
    | exited => exact Fair.of_same h rfl
  | take =>
    change Fair capacity s s.take
    unfold Stream.take
    cases hchannel : s.channel with
    | nil => exact Fair.of_same h rfl
    | cons upd channel =>
      refine Fair.of_same h ?_
      simp only [Stream.all, hchannel, List.append_assoc, List.cons_append, List.nil_append]
  | dropStream =>
    refine ⟨h, Or.inr (Or.inr ⟨rfl, ?_⟩)⟩
    exact List.Sublist.append_left (List.sublist_append_right s.channel _) _

end Steps

/-! The end of the stream. -/

section Closing
variable {α : Type} {capacity : Nat} {s : Stream α}

/-- The caller is there. Behind the last update the ring is flushed, and at the end it is empty. -/
structure Listening (s : Stream α) : Prop where
  listening : s.closed = false
  input : s.phase = .flushing ∨ s.phase = .exited → s.input = []
  ring : s.phase = .exited → s.ring = []

def Phase.left : Phase α → Nat
  | .exited => 0
  | .flushing => 1
  | .waiting => 2
  | .delivering _ => 5
  | .draining _ => 6

/-- Steps of the task and of the caller that are still to come, at most. -/
def left (s : Stream α) : Nat := 5 * s.input.length + 2 * s.ring.length + s.channel.length + s.phase.left

theorem drain_left {upd : Update α} (hopen : s.closed = false) (hphase : s.phase = .draining upd) :
    Listening (s.drain capacity upd) ∧ left (s.drain capacity upd) < left s := by
  obtain ⟨input, ring, channel, handed, closed, phase⟩ := s
  cases hopen
  cases hphase
  cases ring with
  | nil => exact ⟨⟨rfl, by simp [Stream.drain], nofun⟩, Nat.lt_succ_self _⟩
  | cons first ring =>
    unfold Stream.drain
    dsimp only
    rcases trySend_cases capacity ⟨input, ring, channel, handed, false, .draining upd⟩ first with
      ⟨hclosed, -⟩ | ⟨-, -, heq⟩ | ⟨-, -, heq⟩
    · cases hclosed
    · rw [heq]
      refine ⟨⟨rfl, by simp, nofun⟩, ?_⟩
      simp only [left, List.length_append, List.length_cons, List.length_nil]
      omega
    · rw [heq]
      exact ⟨⟨rfl, by simp, nofun⟩, Nat.lt_succ_self _⟩

theorem deliver_left {upd : Update α} (hopen : s.closed = false) (hphase : s.phase = .delivering upd) :
    Listening (s.deliver capacity upd) ∧ left (s.deliver capacity upd) < left s := by
  obtain ⟨input, ring, channel, handed, closed, phase⟩ := s
  cases hopen
  cases hphase
  unfold Stream.deliver
  dsimp only
  by_cases hempty : ring = []
  · subst hempty
    rw [if_pos rfl]
    rcases trySend_cases capacity ⟨input, [], channel, handed, false, .delivering upd⟩ upd with
      ⟨hclosed, -⟩ | ⟨-, -, heq⟩ | ⟨-, -, heq⟩
    · cases hclosed
    all_goals
      rw [heq]
      refine ⟨⟨rfl, by simp, nofun⟩, ?_⟩
      simp only [left, Phase.left, List.length_append, List.length_cons, List.length_nil]
      omega
  · rw [if_neg hempty]
    have hevict := evict_length hempty
    split
    all_goals
      refine ⟨⟨rfl, by simp, nofun⟩, ?_⟩
      simp only [left, Phase.left, List.length_append, List.length_cons, List.length_nil]
      omega

theorem recv_left (h : Listening s) (hphase : s.phase = .waiting) : Listening s.recv ∧ left s.recv < left s := by
  obtain ⟨input, ring, channel, handed, closed, phase⟩ := s
  cases hphase
  cases input with
  | nil => exact ⟨⟨h.listening, fun _ => rfl, nofun⟩, Nat.lt_succ_self _⟩
  | cons upd input =>
    refine ⟨⟨h.listening, by simp [Stream.recv], nofun⟩, ?_⟩
    simp only [Stream.recv, left, Phase.left, List.length_cons]
    omega

variable (capacity) in
/-- The task waits for a slot, or comes nearer to its end. -/
theorem flush_left (hopen : s.closed = false) (hinput : s.input = []) (hphase : s.phase = .flushing) :
    Listening (s.flush capacity) ∧ ((s.flush capacity).input = [] ∧ (s.flush capacity).phase.hand = []) ∧
      (s.flush capacity = s ∧ ¬s.channel.length < capacity ∨ left (s.flush capacity) < left s) := by
  obtain ⟨input, ring, channel, handed, closed, phase⟩ := s
  cases hopen
  cases hinput
  cases hphase
  cases ring with
  | nil => exact ⟨⟨rfl, fun _ => rfl, fun _ => rfl⟩, ⟨rfl, rfl⟩, Or.inr (Nat.lt_succ_self _)⟩
  | cons queued ring =>
    unfold Stream.flush
    dsimp only
    rcases trySend_cases capacity ⟨[], ring, channel, handed, false, .flushing⟩ queued with
      ⟨hclosed, -⟩ | ⟨-, -, heq⟩ | ⟨-, hfull, heq⟩
    · cases hclosed
    · rw [heq]
      refine ⟨⟨rfl, fun _ => rfl, nofun⟩, ⟨rfl, rfl⟩, Or.inr ?_⟩
      simp only [left, List.length_append, List.length_cons, List.length_nil]
      omega
    · rw [heq]
      exact ⟨⟨rfl, fun _ => rfl, nofun⟩, ⟨rfl, rfl⟩, Or.inl ⟨rfl, hfull⟩⟩

theorem take_left (s : Stream α) : (s.take = s ∧ s.channel = []) ∨ left s.take < left s := by
  obtain ⟨input, ring, channel, handed, closed, phase⟩ := s
  cases channel with
  | nil => exact Or.inl ⟨rfl, rfl⟩
  | cons upd channel =>
    refine Or.inr ?_
    simp only [Stream.take, left, List.length_cons]
    omega

theorem take_rest (s : Stream α) : s.take.closed = s.closed ∧ s.take.input = s.input ∧ s.take.ring = s.ring ∧
    s.take.phase = s.phase := by
  unfold Stream.take
  split <;> exact ⟨rfl, rfl, rfl, rfl⟩

variable (capacity) in
/-- A step of the task is one to its end, but for one that waits for a slot. -/
theorem Listening.task (h : Listening s) : Listening (s.task capacity) ∧
    (s.task capacity = s ∧ (s.phase = .exited ∨ ¬s.channel.length < capacity) ∨ left (s.task capacity) < left s) := by
  unfold Stream.task
  cases hphase : s.phase with
  | waiting => exact (recv_left h hphase).imp_right Or.inr
  | draining upd => exact (drain_left h.listening hphase).imp_right Or.inr
  | delivering upd => exact (deliver_left h.listening hphase).imp_right Or.inr
  | flushing =>
    obtain ⟨hnext, -, hleft⟩ := flush_left capacity h.listening (h.input (Or.inl hphase)) hphase
    exact ⟨hnext, hleft.imp_left fun hsame => ⟨hsame.1, Or.inr hsame.2⟩⟩
  | exited => exact ⟨h, Or.inl ⟨rfl, Or.inl rfl⟩⟩

variable (capacity) in
theorem Listening.next (h : Listening s) {e : Event} (he : e ≠ .dropStream) :
    Listening (s.next capacity e) ∧ (s.next capacity e = s ∨ left (s.next capacity e) < left s) := by
  cases e with
  | dropStream => exact absurd rfl he
  | take =>
    obtain ⟨hclosed, hinput, hring, hphase⟩ := take_rest s
    refine ⟨⟨hclosed.trans h.listening, ?_, ?_⟩, (take_left s).imp_left And.left⟩
    · change s.take.phase = _ ∨ s.take.phase = _ → s.take.input = []
      rw [hphase, hinput]
      exact h.input
    · change s.take.phase = _ → s.take.ring = []
      rw [hphase, hring]
      exact h.ring
  | task => exact (h.task capacity).imp_right fun hleft => hleft.imp_left And.left

/-- Where neither the task nor the caller can do anything all is done. -/
theorem Listening.steady (hcap : 0 < capacity) (h : Listening s) (htask : s.next capacity .task = s)
    (htake : s.next capacity .take = s) : left s = 0 := by
  have htask : s.task capacity = s := htask
  have htake : s.take = s := htake
  have hchannel : s.channel = [] := by
    rcases take_left s with ⟨-, hchannel⟩ | hlt
    · exact hchannel
    · rw [htake] at hlt
      exact absurd hlt (Nat.lt_irrefl _)
  rcases (h.task capacity).2 with ⟨-, hphase | hfull⟩ | hlt
  · rw [left, h.input (Or.inr hphase), h.ring hphase, hchannel, hphase]
    rfl
  · rw [hchannel] at hfull
    exact absurd hcap hfull
  · rw [htask] at hlt
    exact absurd hlt (Nat.lt_irrefl _)

/-- With nothing more to come and nothing in hand, nothing is dropped. -/
theorem quiet_next (hcap : 0 < capacity) (h : Listening s) (hring : s.ring.length ≤ capacity) {e : Event}
    (he : e ≠ .dropStream) (hinput : s.input = []) (hhand : s.phase.hand = []) :
    (s.next capacity e).input = [] ∧ (s.next capacity e).phase.hand = [] ∧ (s.next capacity e).all = s.all := by
  have hall : (s.next capacity e).all = s.all := by
    rcases (next_fair hcap hring e).all with hsame | hdrops | ⟨hclosed, -⟩
    · exact hsame
    · exact absurd hhand hdrops.1
    · rw [(h.next capacity he).1.listening] at hclosed
      cases hclosed
  suffices hquiet : (s.next capacity e).input = [] ∧ (s.next capacity e).phase.hand = [] from ⟨hquiet.1, hquiet.2, hall⟩
  cases e with
  | dropStream => exact absurd rfl he
  | take =>
    obtain ⟨-, hsame, -, hphase⟩ := take_rest s
    exact ⟨hsame.trans hinput, (congrArg Phase.hand hphase).trans hhand⟩
  | task =>
    change (s.task capacity).input = [] ∧ (s.task capacity).phase.hand = []
    unfold Stream.task
    cases hphase : s.phase with
    | waiting =>
      have hrecv : s.recv = { s with phase := .flushing } := by rw [Stream.recv, hinput]
      rw [hrecv]
      exact ⟨hinput, rfl⟩
    | draining upd | delivering upd =>
      rw [hphase] at hhand
      cases hhand
    | flushing => exact (flush_left capacity h.listening hinput hphase).2.1
    | exited => exact ⟨hinput, hhand⟩

theorem all_of_left (h : left s = 0) : s.phase = .exited ∧ s.all = s.handed := by
  unfold left at h
  have hphase : s.phase = .exited := by
    cases hphase : s.phase with
    | exited => rfl
    | _ => simp [hphase, Phase.left] at h
  have hinput : s.input = [] := List.length_eq_zero_iff.mp (by omega)
  have hring : s.ring = [] := List.length_eq_zero_iff.mp (by omega)
  have hchannel : s.channel = [] := List.length_eq_zero_iff.mp (by omega)
  refine ⟨hphase, ?_⟩
  rw [Stream.all, hinput, hring, hchannel, hphase]
  exact List.append_nil _

theorem trySend_closed {s s' : Stream α} {upd : Update α} (h : s.trySend capacity upd = .ok s') : s'.closed = s.closed := by
  rcases trySend_cases capacity s upd with ⟨-, heq⟩ | ⟨-, -, heq⟩ | ⟨-, -, heq⟩ <;> rw [heq] at h <;> cases h
  rfl

theorem task_closed (s : Stream α) : (s.task capacity).closed = s.closed := by
  unfold Stream.task
  split
  · unfold Stream.recv
    split <;> rfl
  · unfold Stream.drain
    split
    · rfl
    · split
      · next hsend =>
        have hclosed := trySend_closed hsend
        exact hclosed
      · rfl
      · rfl
  · unfold Stream.deliver
    split
    · split
      · next hsend =>
        have hclosed := trySend_closed hsend
        exact hclosed
      · rfl
      · rfl
    · split <;> rfl
  · unfold Stream.flush
    split
    · rfl
    · split
      · next hsend =>
        have hclosed := trySend_closed hsend
        exact hclosed
      · rfl
      · rfl
  · rfl

/-- A caller who is there has been there from the beginning. -/
theorem listening_next (h : s.closed = false → Listening s) (e : Event)
    (hopen : (s.next capacity e).closed = false) : Listening (s.next capacity e) := by
  cases e with
  | dropStream => cases hopen
  | take => exact ((h ((take_rest s).1.symm.trans hopen)).next capacity (by decide)).1
  | task => exact ((h ((task_closed s).symm.trans hopen)).task capacity).1

/-- A state of a run from the input. -/
structure Reached (capacity : Nat) (input : List (Update α)) (s : Stream α) : Prop where
  room : s.ring.length ≤ capacity
  sublist : s.all.Sublist input
  listening : s.closed = false → Listening s

theorem Reached.start (input : List (Update α)) : Reached capacity input (start input) :=
  ⟨Nat.zero_le _, List.Sublist.refl input, fun _ => ⟨rfl, by simp [UpdateStream.start], fun _ => rfl⟩⟩

theorem Reached.next (hcap : 0 < capacity) {input : List (Update α)} (h : Reached capacity input s)
    (e : Event) : Reached capacity input (s.next capacity e) :=
  ⟨(next_fair hcap h.room e).ring, (next_fair hcap h.room e).sublist.trans h.sublist, listening_next h.listening e⟩

end Closing

/-- The task and the caller both have a turn, and the caller does not go away. -/
def Round (events : List Event) : Prop := .task ∈ events ∧ .take ∈ events ∧ .dropStream ∉ events

/-- The task has come to its end, and what has not been dropped is with the caller; if nothing was to come
and nothing in hand, that is all that was in the channel and in the ring. -/
structure Emptied {α : Type} (s s' : Stream α) : Prop where
  phase : s'.phase = .exited
  all : s'.all = s'.handed
  ring : s.input = [] → s.phase.hand = [] → s'.handed = s.handed ++ (s.channel ++ s.ring)

/-- While the rounds from `s` go on: where nothing was to come and nothing in hand, nothing is lost. -/
structure Going {α : Type} (capacity : Nat) (s t : Stream α) : Prop where
  listening : Listening t
  room : t.ring.length ≤ capacity
  quiet : s.input = [] → s.phase.hand = [] → t.input = [] ∧ t.phase.hand = [] ∧ t.all = s.all

section
variable {α : Type} {capacity : Nat} (hcap : 0 < capacity) {s : Stream α}
include hcap

theorem Going.next {t : Stream α} (h : Going capacity s t) {e : Event} (he : e ≠ .dropStream) :
    Going capacity s (t.next capacity e) := by
  refine ⟨(h.listening.next capacity he).1, (next_fair hcap h.room e).ring, fun hinput hhand => ?_⟩
  obtain ⟨htinput, hthand, htall⟩ := h.quiet hinput hhand
  obtain ⟨hinput', hhand', hall⟩ := quiet_next hcap h.listening h.room he htinput hthand
  exact ⟨hinput', hhand', hall.trans htall⟩

/-- With as many rounds as there are steps left the task comes to its end. -/
theorem emptied_of_rounds (hlisten : Listening s) (hring : s.ring.length ≤ capacity) {rounds : List (List Event)}
    (hrounds : ∀ round ∈ rounds, Round round) (hmany : left s ≤ rounds.length) :
    Emptied s (Run.final (Stream.next capacity) s rounds.flatten) := by
  have hsteady : ∀ (t : Stream α) (round : List Event), Going capacity s t → .task ∈ round ∧ .take ∈ round →
      (∀ e ∈ round, t.next capacity e = t) → left t = 0 :=
    fun t round h hboth hsame => h.listening.steady hcap (hsame _ hboth.1) (hsame _ hboth.2)
  obtain ⟨hgoing, hzero⟩ := Run.progress (G := fun e => e ≠ .dropStream) (fun t e h he => h.next hcap he)
    (fun t e h he => (h.listening.next capacity he).2) hsteady rounds s ⟨hlisten, hring, fun hinput hhand => ⟨hinput, hhand, rfl⟩⟩
    (fun round hround => ⟨⟨(hrounds round hround).1, (hrounds round hround).2.1⟩,
      fun e he heq => (hrounds round hround).2.2 (heq ▸ he)⟩) hmany
  obtain ⟨hphase, hall⟩ := all_of_left hzero
  refine ⟨hphase, hall, fun hinput hhand => ?_⟩
  rw [← hall, (hgoing.quiet hinput hhand).2.2, Stream.all, hhand, hinput, List.append_nil, List.append_nil]

end

/-- **The update queue.** The caller gets a part of the input, in order. The ring keeps to its
capacity. A step drops nothing unless the ring is full, and a normal update only if it has no
others. Where the task and the caller go on having turns all that has not been dropped reaches the
caller, and when the sender side has closed nothing more is dropped. -/
theorem dropOldest_fair {α : Type} (queueCapacity : Nat) (input : List (Update α)) (events : List Event) :
    (Run.final (Stream.next (slots queueCapacity)) (start input) events).handed.Sublist input ∧
    (∀ s ∈ Run.states (Stream.next (slots queueCapacity)) (start input) events, s.ring.length ≤ slots queueCapacity) ∧
    Run.AllSteps (Stream.next (slots queueCapacity))
      (fun s e => (s.next (slots queueCapacity) e).closed = false →
        (s.next (slots queueCapacity) e).all = s.all ∨ Drops (slots queueCapacity) s (s.next (slots queueCapacity) e))
      (start input) events ∧
    ∀ s ∈ Run.states (Stream.next (slots queueCapacity)) (start input) events, s.closed = false →
      ∀ rounds : List (List Event), (∀ round ∈ rounds, Round round) → left s ≤ rounds.length →
        Emptied s (Run.final (Stream.next (slots queueCapacity)) s rounds.flatten) := by
  have hcap : 0 < slots queueCapacity := Nat.le_max_right queueCapacity 1
  generalize slots queueCapacity = capacity at hcap ⊢
  have hnext := fun (s : Stream α) (e : Event) (h : Reached capacity input s) => h.next hcap e
  have hstates := Run.states_inv_all (Stream.next capacity) hnext events (start input) (Reached.start input)
  refine ⟨?_, fun s hs => (hstates s hs).room, ?_, ?_⟩
  · have hall := (hstates _ (Run.final_mem_states (Stream.next capacity) events (start input))).sublist
    exact (List.sublist_append_left _ _).trans hall
  · refine Run.allSteps_of_inv_all (Stream.next capacity) hnext (fun s e h hopen => ?_) events _ (Reached.start input)
    rcases (next_fair hcap h.room e).all with hsame | hdrops | ⟨hclosed, -⟩
    · exact Or.inl hsame
    · exact Or.inr hdrops
    · rw [hopen] at hclosed
      cases hclosed
  · intro s hs hopen rounds hrounds hmany
    exact emptied_of_rounds hcap ((hstates s hs).listening hopen) (hstates s hs).room hrounds hmany

end Ferogram.UpdateStream
