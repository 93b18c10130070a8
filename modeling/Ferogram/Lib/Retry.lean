import Ferogram.Lib.Run

/- Calls that may fail and are made again. What goes wrong in a call is an input of it, `clear` is
   that nothing does. A state survives a run if the calls have given, failures left out, what
   undisturbed calls give from the start, and undisturbed calls would give the rest from here on.

   The rule is `survives_of_sim`: the state reached is compared with one that saw no failure. -/
namespace Retry
variable {σ ι ε α : Type}

/-- What a call comes to. -/
inductive Answer (ε α : Type) where
  | value (a : α)
  | failed (e : ε)
  | panicked
  deriving DecidableEq

def Answer.value? : Answer ε α → Option α
  | .value a => some a
  | _ => none

variable (call : σ → ι → Answer ε α × σ)

/-- The answers of a run. -/
def answers : σ → List ι → List (Answer ε α)
  | _, [] => []
  | s, i :: is => (call s i).1 :: answers (call s i).2 is

/-- The state behind a run. -/
def after (s : σ) (is : List ι) : σ := Run.final (fun s i => (call s i).2) s is

/-- The answers of undisturbed calls. -/
def undisturbed (clear : ι) (s : σ) (n : Nat) : List (Answer ε α) := answers call s (List.replicate n clear)

/-- No call has panicked; the values so far are the first ones of undisturbed calls; and undisturbed
    calls from here on give the ones that follow. -/
def Survives (clear : ι) (s : σ) (is : List ι) : Prop :=
  (∀ a ∈ answers call s is, a ≠ .panicked) ∧
    ∀ n, ∃ given rest : List α,
      (answers call s is).filterMap Answer.value? = given ∧ rest.length = n ∧
        undisturbed call clear s (given.length + n) = (given ++ rest).map .value ∧
        undisturbed call clear (after call s is) n = rest.map .value

section
variable {call} {clear : ι} {R : σ → σ → Prop} {G : σ → ι → Prop}

/-- Related states give the same in undisturbed calls. -/
theorem undisturbed_sim
    (hclear : ∀ s t, R s t → ∃ a, (call s clear).1 = .value a ∧ (call t clear).1 = .value a ∧
      R (call s clear).2 (call t clear).2) (n : Nat) :
    ∀ s t, R s t → ∃ rest : List α, rest.length = n ∧ undisturbed call clear s n = rest.map .value ∧
      undisturbed call clear t n = rest.map .value := by
  induction n with
  | zero => exact fun s t _ => ⟨[], rfl, rfl, rfl⟩
  | succ n ih =>
    intro s t h
    obtain ⟨a, hs, ht, hnext⟩ := hclear s t h
    obtain ⟨rest, hlen, hsrest, htrest⟩ := ih _ _ hnext
    refine ⟨a :: rest, congrArg Nat.succ hlen, ?_, ?_⟩
    · rw [List.map_cons, ← hs, ← hsrest]
      rfl
    · rw [List.map_cons, ← ht, ← htrest]
      rfl

/-- A call that fails leaves the state related to the one that saw no failure, and a call that does
    not gives what an undisturbed call gives there. -/
theorem survives_of_sim
    (hstep : ∀ s t i, R s t → G s i →
      (∃ e, (call s i).1 = .failed e ∧ R (call s i).2 t) ∨
      ∃ a, (call s i).1 = .value a ∧ (call t clear).1 = .value a ∧ R (call s i).2 (call t clear).2)
    (hclear : ∀ s t, R s t → ∃ a, (call s clear).1 = .value a ∧ (call t clear).1 = .value a ∧
      R (call s clear).2 (call t clear).2) (is : List ι) :
    ∀ s t, R s t → Run.AllSteps (fun s i => (call s i).2) G s is →
      (∀ a ∈ answers call s is, a ≠ .panicked) ∧
        ∀ n, ∃ given rest : List α,
          (answers call s is).filterMap Answer.value? = given ∧ rest.length = n ∧
            undisturbed call clear t (given.length + n) = (given ++ rest).map .value ∧
            undisturbed call clear (after call s is) n = rest.map .value := by
  induction is with
  | nil =>
    intro s t h _
    refine ⟨fun a ha => absurd ha List.not_mem_nil, fun n => ?_⟩
    obtain ⟨rest, hlen, hs, ht⟩ := undisturbed_sim hclear n s t h
    exact ⟨[], rest, rfl, hlen, by rw [List.length_nil, Nat.zero_add]; exact ht, hs⟩
  | cons i is ih =>
    rintro s t h ⟨hi, his⟩
    rcases hstep s t i h hi with ⟨e, hfailed, hnext⟩ | ⟨a, hvalue, ht, hnext⟩
    · obtain ⟨hquiet, hgoes⟩ := ih _ _ hnext his
      refine ⟨?_, fun n => ?_⟩
      · intro x hx
        rcases List.mem_cons.mp hx with rfl | hx
        · rw [hfailed]
          exact fun h => by cases h
        · exact hquiet x hx
      · obtain ⟨given, rest, hgiven, hlen, hclean, hafter⟩ := hgoes n
        refine ⟨given, rest, ?_, hlen, hclean, hafter⟩
        rw [answers, hfailed]
        exact hgiven
    · obtain ⟨hquiet, hgoes⟩ := ih _ _ hnext his
      refine ⟨?_, fun n => ?_⟩
      · intro x hx
        rcases List.mem_cons.mp hx with rfl | hx
        · rw [hvalue]
          exact fun h => by cases h
        · exact hquiet x hx
      · obtain ⟨given, rest, hgiven, hlen, hclean, hafter⟩ := hgoes n
        refine ⟨a :: given, rest, ?_, hlen, ?_, hafter⟩
        · rw [answers, hvalue, ← hgiven]
          rfl
        · rw [List.length_cons, Nat.add_right_comm]
          show (call t clear).1 :: undisturbed call clear (call t clear).2 (given.length + n) = _
          rw [hclean, ht]
          rfl

end

end Retry
