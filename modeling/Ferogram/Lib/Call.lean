import Mathlib.Logic.Basic

/- Calls on a shared state that may panic. A call returns a value or an error
   and leaves a state either way: unwinding does not undo what was written
   before the panic, and the state stays in use by everybody else.

   `Spec P x Q E` is the triple for such a call: from a state in `P` it either
   returns with `Q`, or fails with `E`. -/

/-- A call on a state `σ` that returns an `α` or fails with an `ε`. -/
structure Call (σ ε α : Type) where
  run : σ → Except ε α × σ

namespace Call
variable {σ ε α β : Type}

instance : Monad (Call σ ε) where
  pure a := ⟨fun s => (.ok a, s)⟩
  bind x f := ⟨fun s =>
    match x.run s with
    | (.ok a, s') => (f a).run s'
    | (.error e, s') => (.error e, s')⟩

/-- Read something off the state. -/
def read (f : σ → α) : Call σ ε α := ⟨fun s => (.ok (f s), s)⟩

/-- Change the state. -/
def edit (f : σ → σ) : Call σ ε Unit := ⟨fun s => (.ok (), f s)⟩

/-- Fail, leaving the state as it is. -/
def fail (e : ε) : Call σ ε α := ⟨fun s => (.error e, s)⟩

/-- Run a function that returns a value and a new state. -/
def update (f : σ → α × σ) : Call σ ε α := ⟨fun s => (.ok (f s).1, (f s).2)⟩

@[simp] theorem pure_run (a : α) (s : σ) : (pure a : Call σ ε α).run s = (.ok a, s) := rfl

@[simp] theorem bind_run (x : Call σ ε α) (f : α → Call σ ε β) (s : σ) :
    (x >>= f).run s = match x.run s with
      | (.ok a, s') => (f a).run s'
      | (.error e, s') => (.error e, s') := rfl

@[simp] theorem read_run (f : σ → α) (s : σ) : (read f : Call σ ε α).run s = (.ok (f s), s) := rfl

@[simp] theorem edit_run (f : σ → σ) (s : σ) : (edit f : Call σ ε Unit).run s = (.ok (), f s) := rfl

@[simp] theorem fail_run (e : ε) (s : σ) : (fail e : Call σ ε α).run s = (.error e, s) := rfl

@[simp] theorem update_run (f : σ → α × σ) (s : σ) :
    (update f : Call σ ε α).run s = (.ok (f s).1, (f s).2) := rfl

/-- The state does not depend on whether the result is used. -/
theorem discard_snd (x : Call σ ε α) (s : σ) :
    ((do let _ ← x; pure () : Call σ ε Unit).run s).2 = (x.run s).2 := by
  rw [bind_run]
  rcases x.run s with ⟨r, s'⟩
  cases r <;> rfl

/-- Nor does whether the call fails. -/
theorem discard_error (x : Call σ ε α) (s : σ) (e : ε) :
    ((do let _ ← x; pure () : Call σ ε Unit).run s).1 = .error e ↔ (x.run s).1 = .error e := by
  rw [bind_run]
  rcases x.run s with ⟨r, s'⟩
  cases r <;> simp

/-- From a state in `P` the call returns with `Q` or fails with `E`. -/
def Spec (P : σ → Prop) (x : Call σ ε α) (Q : α → σ → Prop) (E : ε → σ → Prop) : Prop :=
  ∀ s, P s → match x.run s with
    | (.ok a, s') => Q a s'
    | (.error e, s') => E e s'

namespace Spec
variable {P : σ → Prop} {Q : α → σ → Prop} {E : ε → σ → Prop}

theorem pure' (a : α) (h : ∀ s, P s → Q a s) : Spec P (pure a) Q E := h

theorem read' (f : σ → α) (h : ∀ s, P s → Q (f s) s) : Spec P (read f) Q E := h

theorem edit' {Q : Unit → σ → Prop} (f : σ → σ) (h : ∀ s, P s → Q () (f s)) :
    Spec P (edit f) Q E := h

theorem fail' (e : ε) (h : ∀ s, P s → E e s) : Spec P (fail e : Call σ ε α) Q E := h

theorem bind' {x : Call σ ε α} {f : α → Call σ ε β} {R : α → σ → Prop} {Q : β → σ → Prop}
    (hx : Spec P x R E) (hf : ∀ a, Spec (R a) (f a) Q E) : Spec P (x >>= f) Q E := by
  intro s hs
  have h := hx s hs
  rw [bind_run]
  rcases hxs : x.run s with ⟨r, s'⟩
  rw [hxs] at h
  cases r with
  | ok a => exact hf a s' h
  | error e => exact h

theorem ite' {c : Prop} [Decidable c] {x y : Call σ ε α} (hx : c → Spec P x Q E)
    (hy : ¬c → Spec P y Q E) : Spec P (if c then x else y) Q E := by
  by_cases h : c
  · rw [if_pos h]; exact hx h
  · rw [if_neg h]; exact hy h

end Spec

end Call
