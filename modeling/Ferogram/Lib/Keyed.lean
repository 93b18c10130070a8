import Ferogram.Lib.Assoc

/- A machine for every key. An input goes to the machine of its key, which is started by its
   first input; an input without a key goes to none. What a machine answers does not depend on the
   inputs of the others (`runAll_filter`), so a property of the answers is one of a single machine,
   and a machine may be replaced by one that it simulates (`run_sim`). -/
namespace Keyed
variable {κ σ τ α β γ : Type}

/-- A single machine: each input with its answer. -/
def run (step : Option σ → α → β × σ) : Option σ → List α → List (α × β)
  | _, [] => []
  | s, a :: as => (a, (step s a).1) :: run step (some (step s a).2) as

/-- The machines of all keys. -/
def runAll [DecidableEq κ] (step : Option σ → α → β × σ) (key : α → Option κ) (idle : β) :
    Assoc κ σ → List α → List (α × β)
  | _, [] => []
  | m, a :: as =>
    match key a with
    | none => (a, idle) :: runAll step key idle m as
    | some k =>
      let r := step (AList.lookup k m) a
      (a, r.1) :: runAll step key idle (m.insert k r.2) as

theorem runAll_filter [DecidableEq κ] (step : Option σ → α → β × σ) (key : α → Option κ) (idle : β) (k : κ) :
    ∀ (as : List α) (m : Assoc κ σ),
      (runAll step key idle m as).filter (fun e => key e.1 = some k) =
        run step (AList.lookup k m) (as.filter fun a => key a = some k)
  | [], _ => rfl
  | a :: as, m => by
    unfold runAll
    cases hkey : key a with
    | none =>
      rw [List.filter_cons_of_neg (by simp [hkey]), List.filter_cons_of_neg (by simp [hkey])]
      exact runAll_filter step key idle k as m
    | some k' =>
      by_cases hk : k' = k
      · subst hk
        rw [List.filter_cons_of_pos (by simp [hkey]), List.filter_cons_of_pos (by simp [hkey]), run]
        have ih := runAll_filter step key idle k' as (m.insert k' (step (AList.lookup k' m) a).2)
        rw [AList.lookup_insert] at ih
        rw [ih]
      · have hne : ¬ some k' = some k := fun h => hk (Option.some.inj h)
        rw [List.filter_cons_of_neg (by simp [hkey, hk]), List.filter_cons_of_neg (by simp [hkey, hk])]
        have ih := runAll_filter step key idle k as (m.insert k' (step (AList.lookup k' m) a).2)
        rwa [AList.lookup_insert_ne (Ne.symm hk)] at ih

/-- An input without a key is answered at once. -/
theorem runAll_idle [DecidableEq κ] {step : Option σ → α → β × σ} {key : α → Option κ} {idle : β} {e : α × β} :
    ∀ {as : List α} {m : Assoc κ σ}, e ∈ runAll step key idle m as → key e.1 = none → e.2 = idle
  | a :: as, m, he, hkey => by
    unfold runAll at he
    split at he
    · rcases List.mem_cons.mp he with rfl | he
      · rfl
      · exact runAll_idle he hkey
    · next k hk =>
      rcases List.mem_cons.mp he with rfl | he
      · rw [hk] at hkey
        cases hkey
      · exact runAll_idle he hkey

/-- A machine that follows another one gives the answers that the other's stand for. -/
theorem run_sim {step : Option σ → α → β × σ} {step' : Option τ → α → γ × τ} {R : Option σ → Option τ → Prop}
    (f : γ → β) (h : ∀ s t a, R s t → (step s a).1 = f (step' t a).1 ∧ R (some (step s a).2) (some (step' t a).2)) :
    ∀ (as : List α) (s : Option σ) (t : Option τ), R s t → run step s as = (run step' t as).map fun e => (e.1, f e.2)
  | [], _, _, _ => rfl
  | a :: as, s, t, hR => by
    obtain ⟨hout, hnext⟩ := h s t a hR
    rw [run, run, List.map_cons, hout, run_sim f h as _ _ hnext]

end Keyed
