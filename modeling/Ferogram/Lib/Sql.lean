import Mathlib.Data.List.Nodup

/- A small SQL: tables with a primary key, and a connection that runs statements one by
   one, inside a transaction or each on its own.

   A statement is a partial function of the database: it is undefined where it violates
   a constraint, and such a failure undoes that statement alone. The world outside (a
   full disk, a locked file) can make any statement fail as well, and then the engine
   either keeps the transaction or rolls it back: that is a `Fault`. `run` stops at the
   first failure, as a caller does that returns early. `run_transaction` says what such a
   caller leaves behind. -/
namespace Sql
variable {α κ σ δ : Type}

/-! Tables. -/

/-- `INSERT`, refused where the key is taken. -/
def insertRow [DecidableEq κ] (key : α → κ) (row : α) (rows : List α) : Option (List α) :=
  if key row ∈ rows.map key then none else some (rows ++ [row])

/-- `INSERT ... ON CONFLICT(key) DO UPDATE`. -/
def upsertRow [DecidableEq κ] (key : α → κ) (update : α → α) (row : α) : List α → List α
  | [] => [row]
  | r :: rows => if key r = key row then update r :: rows else r :: upsertRow key update row rows

/-- One `INSERT` after another. -/
def insertRows [DecidableEq κ] (key : α → κ) : List α → List α → Option (List α)
  | [], rows => some rows
  | row :: more, rows => (insertRow key row rows).bind (insertRows key more)

section Tables
variable [DecidableEq κ] {key : α → κ} {update : α → α} {row : α} {rows : List α}

theorem insertRow_eq_none : insertRow key row rows = none ↔ key row ∈ rows.map key := by
  unfold insertRow
  split
  · next h => simp [h]
  · next h => simp [h]

theorem insertRow_eq_some {rows' : List α} :
    insertRow key row rows = some rows' ↔ key row ∉ rows.map key ∧ rows' = rows ++ [row] := by
  unfold insertRow
  split
  · next h => simp [h]
  · next h => simp [h, eq_comm]

theorem insertRows_of_nodup : ∀ (more rows : List α), ((rows ++ more).map key).Nodup →
    insertRows key more rows = some (rows ++ more)
  | [], rows, _ => by rw [insertRows, List.append_nil]
  | row :: more, rows, h => by
    have hsplit : rows ++ row :: more = rows ++ [row] ++ more := by simp
    have hrow : key row ∉ rows.map key := by
      intro hmem
      rw [List.map_append, List.nodup_append] at h
      exact h.2.2 _ hmem _ List.mem_cons_self rfl
    rw [hsplit] at h ⊢
    rw [insertRows, insertRow_eq_some.mpr ⟨hrow, rfl⟩]
    exact insertRows_of_nodup more (rows ++ [row]) h

end Tables

/-! Connections. -/

/-- How a statement fails for reasons of its own world: with the transaction still open, or
with the transaction rolled back. -/
inductive Fault where
  | stays
  | rolledBack
  deriving DecidableEq, Repr

/-- What is stored, and what an open transaction has made of it. -/
structure Conn (δ : Type) where
  committed : δ
  pending : Option δ

namespace Conn

/-- What a query on this connection sees. -/
def view (c : Conn δ) : δ := c.pending.getD c.committed

/-- A change belongs to the open transaction, or is stored at once. -/
def store (c : Conn δ) (v : δ) : Conn δ :=
  match c.pending with
  | some _ => { c with pending := some v }
  | none => { c with committed := v }

def abort (c : Conn δ) : Conn δ := { c with pending := none }

end Conn

inductive Command (σ : Type) where
  | begin
  | commit
  | stmt (s : σ)
  deriving DecidableEq, Repr

def Command.isBegin : Command σ → Bool
  | .begin => true
  | _ => false

variable (step : σ → δ → Option δ)

/-- A statement that the world lets through. -/
def attempt (c : Conn δ) : Command σ → Conn δ × Bool
  | .begin =>
    match c.pending with
    | none => ({ c with pending := some c.committed }, true)
    | some _ => (c, false)
  | .commit =>
    match c.pending with
    | some v => ({ committed := v, pending := none }, true)
    | none => (c, false)
  | .stmt s =>
    match step s c.view with
    | some v => (c.store v, true)
    | none => (c, false)

/-- One statement, and whether it succeeded. `BEGIN` that fails opens nothing. -/
def exec (fault : Option Fault) (c : Conn δ) (k : Command σ) : Conn δ × Bool :=
  match fault with
  | none => attempt step c k
  | some .stays => (c, false)
  | some .rolledBack => if k.isBegin then (c, false) else (c.abort, false)

/-- Statements one after another up to the first failure; `w i` is what the world does to
the one at place `i`. -/
def run (w : Nat → Option Fault) : Nat → List (Command σ) → Conn δ → Conn δ × Bool
  | _, [], c => (c, true)
  | n, k :: ks, c =>
    match exec step (w n) c k with
    | (c', true) => run w (n + 1) ks c'
    | (c', false) => (c', false)

/-- All statements, where none violates a constraint. -/
def stepAll : List σ → δ → Option δ
  | [], v => some v
  | s :: ss, v => (step s v).bind (stepAll ss)

/-- `BEGIN`, the statements, `COMMIT`. -/
def transaction (ss : List σ) : List (Command σ) := .begin :: (ss.map .stmt ++ [.commit])

variable {step} {w : Nat → Option Fault}

theorem exec_none (c : Conn δ) (k : Command σ) : exec step none c k = attempt step c k := rfl

theorem exec_stays (c : Conn δ) (k : Command σ) : exec step (some .stays) c k = (c, false) := rfl

theorem exec_rolledBack (c : Conn δ) {k : Command σ} (h : k.isBegin = false) :
    exec step (some .rolledBack) c k = (c.abort, false) := by
  unfold exec
  rw [h]
  rfl

theorem run_cons_ok {n : Nat} {k : Command σ} {ks : List (Command σ)} {c c' : Conn δ}
    (h : exec step (w n) c k = (c', true)) : run step w n (k :: ks) c = run step w (n + 1) ks c' := by
  rw [run, h]

theorem run_cons_fail {n : Nat} {k : Command σ} {ks : List (Command σ)} {c c' : Conn δ}
    (h : exec step (w n) c k = (c', false)) : run step w n (k :: ks) c = (c', false) := by
  rw [run, h]

theorem stepAll_append (ss ss' : List σ) (v : δ) :
    stepAll step (ss ++ ss') v = (stepAll step ss v).bind (stepAll step ss') := by
  induction ss generalizing v with
  | nil => rfl
  | cons s ss ih =>
    rw [List.cons_append, stepAll, stepAll]
    cases step s v with
    | none => rfl
    | some v' => exact ih v'

theorem stepAll_of_cons {s : σ} {ss : List σ} {v v₁ v' : δ} (hstep : step s v = some v₁)
    (h : stepAll step (s :: ss) v = some v') : stepAll step ss v₁ = some v' := by
  rwa [stepAll, hstep] at h

/-! Without faults. -/

/-- Outside a transaction each statement is stored as it succeeds. -/
theorem run_stmts : ∀ (ss : List σ) {v v' : δ} {m : Nat}, stepAll step ss v = some v' →
    run step (fun _ => none) m (ss.map .stmt) { committed := v, pending := none } =
      ({ committed := v', pending := none }, true)
  | [], v, v', m, h => by
    obtain rfl : v = v' := Option.some.inj h
    rfl
  | s :: ss, v, v', m, h => by
    cases hstep : step s v with
    | none =>
      rw [stepAll, hstep] at h
      cases h
    | some v₁ =>
      have hexec : exec step none { committed := v, pending := none } (.stmt s) =
          ({ committed := v₁, pending := none }, true) := by
        rw [exec_none]
        simp only [attempt, Conn.view, Option.getD_none, hstep, Conn.store]
      rw [List.map_cons, run_cons_ok hexec]
      exact run_stmts ss (stepAll_of_cons hstep h)

theorem run_pending : ∀ (ss : List σ) {u v v' : δ} {m : Nat}, stepAll step ss v = some v' →
    run step (fun _ => none) m (ss.map .stmt ++ [.commit]) { committed := u, pending := some v } =
      ({ committed := v', pending := none }, true)
  | [], u, v, v', m, h => by
    obtain rfl : v = v' := Option.some.inj h
    rfl
  | s :: ss, u, v, v', m, h => by
    cases hstep : step s v with
    | none =>
      rw [stepAll, hstep] at h
      cases h
    | some v₁ =>
      have hexec : exec step none { committed := u, pending := some v } (.stmt s) =
          ({ committed := u, pending := some v₁ }, true) := by
        rw [exec_none]
        simp only [attempt, Conn.view, Option.getD_some, hstep, Conn.store]
      rw [List.map_cons, List.cons_append, run_cons_ok hexec]
      exact run_pending ss (stepAll_of_cons hstep h)

/-- A transaction whose statements all succeed is stored. -/
theorem run_transaction_ok {ss : List σ} {v v' : δ} (h : stepAll step ss v = some v') :
    run step (fun _ => none) 0 (transaction ss) { committed := v, pending := none } =
      ({ committed := v', pending := none }, true) := by
  have hexec : exec step none { committed := v, pending := none } .begin =
      ({ committed := v, pending := some v }, true) := by
    rw [exec_none]
    rfl
  unfold transaction
  rw [run_cons_ok hexec]
  exact run_pending ss h

/-! What a caller that stops at the first failure leaves behind. `bad i` says that the
statement at place `i` violates a constraint when those before it have run. -/

/-- From place `n` on, `i` is the first place where something fails. -/
structure FirstFail (w : Nat → Option Fault) (bad : Nat → Prop) (n i : Nat) : Prop where
  from_le : n ≤ i
  fails : w i ≠ none ∨ bad i
  first : ∀ j, n ≤ j → j < i → w j = none ∧ ¬ bad j

/-- The run stopped with nothing stored, and with no transaction open exactly if the
failure at `i` rolled it back. -/
structure Stopped (w : Nat → Option Fault) (i : Nat) (c : Conn δ) (r : Conn δ × Bool) : Prop where
  failed : r.2 = false
  committed : r.1.committed = c.committed
  pending : r.1.pending = none ↔ w i = some .rolledBack

theorem FirstFail.here {bad : Nat → Prop} {n : Nat} (h : w n ≠ none ∨ bad n) : FirstFail w bad n n :=
  ⟨Nat.le_refl n, h, fun j h1 h2 => by omega⟩

theorem FirstFail.later {bad : Nat → Prop} {n i : Nat} (hn : w n = none ∧ ¬ bad n)
    (h : FirstFail w bad (n + 1) i) : FirstFail w bad n i where
  from_le := Nat.le_of_succ_le h.from_le
  fails := h.fails
  first := by
    intro j h1 h2
    rcases Nat.eq_or_lt_of_le h1 with rfl | hlt
    · exact hn
    · exact h.first j hlt h2

theorem FirstFail.unique {bad : Nat → Prop} {n i j : Nat} (hi : FirstFail w bad n i) (hj : FirstFail w bad n j) :
    i = j := by
  rcases Nat.lt_trichotomy i j with h | h | h
  · have hgood := hj.first i hi.from_le h
    rcases hi.fails with hf | hf
    · exact absurd hgood.1 hf
    · exact absurd hf hgood.2
  · exact h
  · have hgood := hi.first j hj.from_le h
    rcases hj.fails with hf | hf
    · exact absurd hgood.1 hf
    · exact absurd hf hgood.2

/-- A fault at the first of the remaining statements stops the run there. -/
theorem stopped_of_fault {n : Nat} {k : Command σ} {ks : List (Command σ)} {c : Conn δ} {v : δ}
    (hc : c.pending = some v) (hk : k.isBegin = false) {fault : Fault} (hw : w n = some fault) :
    Stopped w n c (run step w n (k :: ks) c) := by
  cases fault with
  | stays =>
    have hexec : exec step (w n) c k = (c, false) := by rw [hw, exec_stays]
    rw [run_cons_fail hexec]
    exact ⟨rfl, rfl, by simp [hc, hw]⟩
  | rolledBack =>
    have hexec : exec step (w n) c k = (c.abort, false) := by rw [hw, exec_rolledBack c hk]
    rw [run_cons_fail hexec]
    exact ⟨rfl, rfl, by simp [Conn.abort, hw]⟩

/-- The statements of an open transaction and the `COMMIT` after them: all succeed and the
result is stored, or the run stops at the first failure. -/
theorem run_open {bad : Nat → Prop} : ∀ (ss : List σ) (n : Nat) (c : Conn δ) (v : δ),
    c.pending = some v → ¬ bad (n + ss.length) →
    (∀ i s v', ss[i]? = some s → stepAll step (ss.take i) v = some v' → (step s v' = none ↔ bad (n + i))) →
    (∃ v', stepAll step ss v = some v' ∧
        run step w n (ss.map .stmt ++ [.commit]) c = ({ committed := v', pending := none }, true) ∧
        ∀ i, n ≤ i → i ≤ n + ss.length → w i = none ∧ ¬ bad i) ∨
      ∃ i, i ≤ n + ss.length ∧ FirstFail w bad n i ∧
        Stopped w i c (run step w n (ss.map .stmt ++ [.commit]) c)
  | [], n, c, v, hc, hlast, _ => by
    cases hw : w n with
    | none =>
      left
      refine ⟨v, rfl, ?_, ?_⟩
      · rw [List.map_nil, List.nil_append, run, hw, exec_none]
        simp only [attempt, hc]
        rfl
      · intro i h1 h2
        obtain rfl : i = n := Nat.le_antisymm h2 h1
        exact ⟨hw, hlast⟩
    | some fault =>
      right
      exact ⟨n, Nat.le_refl n, FirstFail.here (Or.inl (by simp [hw])), stopped_of_fault hc rfl hw⟩
  | s :: ss, n, c, v, hc, hlast, hbad => by
    have hview : c.view = v := by simp [Conn.view, hc]
    have hs := hbad 0 s v rfl rfl
    cases hw : w n with
    | some fault =>
      right
      exact ⟨n, by omega, FirstFail.here (Or.inl (by simp [hw])), stopped_of_fault hc rfl hw⟩
    | none =>
      cases hstep : step s v with
      | none =>
        right
        have hexec : exec step (w n) c (.stmt s) = (c, false) := by
          rw [hw, exec_none]
          simp only [attempt, hview, hstep]
        refine ⟨n, by omega, FirstFail.here (Or.inr (hs.mp hstep)), ?_⟩
        rw [List.map_cons, List.cons_append, run_cons_fail hexec]
        exact ⟨rfl, rfl, by simp [hc, hw]⟩
      | some v' =>
        -- the statement succeeds, and the rest starts from what it leaves
        have hgood : ¬ bad n := fun hb => by simp [hs.mpr hb] at hstep
        have hexec : exec step (w n) c (.stmt s) = ({ c with pending := some v' }, true) := by
          rw [hw, exec_none]
          simp only [attempt, hview, hstep, Conn.store, hc]
        have hrun : run step w n ((s :: ss).map .stmt ++ [.commit]) c =
            run step w (n + 1) (ss.map .stmt ++ [.commit]) { c with pending := some v' } := by
          rw [List.map_cons, List.cons_append, run_cons_ok hexec]
        have hlen : n + (s :: ss).length = n + 1 + ss.length := by
          rw [List.length_cons]
          omega
        have hbad' : ∀ i s' v'', ss[i]? = some s' → stepAll step (ss.take i) v' = some v'' →
            (step s' v'' = none ↔ bad (n + 1 + i)) := by
          intro i s' v'' hi hv''
          have := hbad (i + 1) s' v'' hi (by rw [List.take_succ_cons, stepAll, hstep]; exact hv'')
          rwa [show n + (i + 1) = n + 1 + i by omega] at this
        rw [hrun, hlen]
        rw [hlen] at hlast
        rcases run_open ss (n + 1) { c with pending := some v' } v' rfl hlast hbad' with
          ⟨v'', hall, hrun', hnone⟩ | ⟨i, hle, hfirst, hstopped⟩
        · left
          refine ⟨v'', by rw [stepAll, hstep]; exact hall, hrun', ?_⟩
          intro i hi hi'
          rcases Nat.eq_or_lt_of_le hi with rfl | hlt
          · exact ⟨hw, hgood⟩
          · exact hnone i hlt hi'
        · right
          exact ⟨i, hle, hfirst.later ⟨hw, hgood⟩, ⟨hstopped.failed, hstopped.committed, hstopped.pending⟩⟩

/-- A transaction from a connection that has none open. The first failure leaves the
transaction open unless it is that of `BEGIN` or rolls it back. -/
theorem run_transaction {bad : Nat → Prop} {ss : List σ} {v : δ} (h0 : ¬ bad 0) (hlast : ¬ bad (1 + ss.length))
    (hbad : ∀ i s v', ss[i]? = some s → stepAll step (ss.take i) v = some v' →
      (step s v' = none ↔ bad (1 + i))) :
    (∃ v', stepAll step ss v = some v' ∧
        run step w 0 (transaction ss) { committed := v, pending := none } =
          ({ committed := v', pending := none }, true) ∧
        ∀ i, i ≤ 1 + ss.length → w i = none ∧ ¬ bad i) ∨
      ∃ i, i ≤ 1 + ss.length ∧ FirstFail w bad 0 i ∧
        (run step w 0 (transaction ss) { committed := v, pending := none }).2 = false ∧
        (run step w 0 (transaction ss) { committed := v, pending := none }).1.committed = v ∧
        ((run step w 0 (transaction ss) { committed := v, pending := none }).1.pending = none ↔
          i = 0 ∨ w i = some .rolledBack) := by
  unfold transaction
  cases hw : w 0 with
  | some fault =>
    right
    refine ⟨0, Nat.zero_le _, FirstFail.here (Or.inl (by simp [hw])), ?_⟩
    have hexec : exec step (w 0) { committed := v, pending := none } .begin =
        ({ committed := v, pending := none }, false) := by
      rw [hw]
      cases fault <;> rfl
    rw [run_cons_fail hexec]
    simp
  | none =>
    have hexec : exec step (w 0) { committed := v, pending := none } .begin =
        ({ committed := v, pending := some v }, true) := by
      rw [hw, exec_none]
      rfl
    rw [run_cons_ok hexec]
    rcases run_open (w := w) ss 1 { committed := v, pending := some v } v rfl hlast hbad with
      ⟨v', hall, hrun, hnone⟩ | ⟨i, hle, hfirst, hstopped⟩
    · -- everything succeeds
      left
      refine ⟨v', hall, hrun, ?_⟩
      intro i hi
      rcases Nat.eq_zero_or_pos i with rfl | hpos
      · exact ⟨hw, h0⟩
      · exact hnone i hpos hi
    · -- a statement or the `COMMIT` fails
      right
      refine ⟨i, hle, hfirst.later ⟨hw, h0⟩, hstopped.failed, hstopped.committed, ?_⟩
      rw [hstopped.pending]
      constructor
      · exact Or.inr
      · rintro (rfl | h)
        · exact absurd hfirst.from_le (by omega)
        · exact h

end Sql
