import Mathlib.Data.List.Basic
import Ferogram.Lib.Run

/- Two systems that hear the same thing. Each has inputs of its own, and some of them carry
   what both hear; `final_lockstep` keeps a relation between the two over any runs in which
   they have heard the same. The other rules are for runs as such: a state that no input
   changes, and the first step that does not meet a condition. -/
namespace Run
variable {σ τ ι κ α : Type} {next : σ → ι → σ} {next' : τ → κ → τ}

theorem final_append (s : σ) (is js : List ι) : final next s (is ++ js) = final next (final next s is) js :=
  List.foldl_append ..

theorem final_of_fixed {s : σ} (h : ∀ i, next s i = s) (is : List ι) : final next s is = s := by
  induction is with
  | nil => rfl
  | cons i is ih =>
    change final next (next s i) is = s
    rwa [h i]

/-- A run of which not every step meets the condition has a first one that does not. -/
theorem exists_first {G : σ → ι → Prop} (is : List ι) : ∀ s, ¬ AllSteps next G s is →
    ∃ before i after, is = before ++ i :: after ∧ AllSteps next G s before ∧ ¬ G (final next s before) i := by
  induction is with
  | nil => exact fun s h => absurd trivial h
  | cons i is ih =>
    intro s h
    by_cases hi : G s i
    · obtain ⟨before, j, after, rfl, hbefore, hj⟩ := ih (next s i) (fun hrest => h ⟨hi, hrest⟩)
      exact ⟨i :: before, j, after, rfl, ⟨hi, hbefore⟩, hj⟩
    · exact ⟨[], i, is, rfl, trivial, hi⟩

/-- Steps that do not fail in related states, and lead to related ones, make up runs that do not
fail. -/
theorem foldlM_refines {ε : Type} {step : σ → ι → Except ε σ} {pure : τ → ι → τ} {R : σ → τ → Prop}
    (hstep : ∀ s t i, R s t → ∃ s', step s i = .ok s' ∧ R s' (pure t i)) (is : List ι) :
    ∀ s t, R s t → ∃ s', is.foldlM step s = .ok s' ∧ R s' (final pure t is) := by
  induction is with
  | nil => exact fun s t h => ⟨s, rfl, h⟩
  | cons i is ih =>
    intro s t h
    obtain ⟨s', hok, h'⟩ := hstep s t i h
    obtain ⟨s'', hrun, h''⟩ := ih s' (pure t i) h'
    refine ⟨s'', ?_, h''⟩
    rw [List.foldlM_cons, hok]
    exact hrun

section
variable {heard : ι → Option α} {heard' : κ → Option α} {R : σ → τ → Prop} {G : σ → ι → Prop}

/-- Inputs that carry nothing keep the relation. -/
theorem final_silent (hright : ∀ s t k, R s t → heard' k = none → R s (next' t k)) {s : σ} (ks : List κ) :
    ∀ t, R s t → ks.filterMap heard' = [] → R s (final next' t ks) := by
  induction ks with
  | nil => exact fun _ h _ => h
  | cons k ks ih =>
    intro t h hsilent
    cases hk : heard' k with
    | some a =>
      rw [List.filterMap_cons_some hk] at hsilent
      cases hsilent
    | none =>
      rw [List.filterMap_cons_none hk] at hsilent
      exact ih _ (hright s t k h hk) hsilent

/-- A relation that silent inputs of either side keep, and inputs that carry the same on both,
if the steps of the first system meet a condition. -/
theorem final_lockstep (hleft : ∀ s t i, G s i → R s t → heard i = none → R (next s i) t)
    (hright : ∀ s t k, R s t → heard' k = none → R s (next' t k))
    (hboth : ∀ s t i k a, G s i → R s t → heard i = some a → heard' k = some a → R (next s i) (next' t k)) (is : List ι) :
    ∀ (ks : List κ) (s : σ) (t : τ), R s t → AllSteps next G s is → is.filterMap heard = ks.filterMap heard' →
      R (final next s is) (final next' t ks) := by
  induction is with
  | nil => exact fun ks s t h _ hsame => final_silent hright ks t h hsame.symm
  | cons i is ih =>
    intro ks s t h hG hsame
    cases hi : heard i with
    | none =>
      rw [List.filterMap_cons_none hi] at hsame
      exact ih ks _ t (hleft s t i hG.1 h hi) hG.2 hsame
    | some a =>
      rw [List.filterMap_cons_some hi] at hsame
      -- The other side goes on to where it hears the same.
      induction ks generalizing t with
      | nil => cases hsame
      | cons k ks ihk =>
        cases hk : heard' k with
        | none =>
          rw [List.filterMap_cons_none hk] at hsame
          exact ihk _ (hright s t k h hk) hsame
        | some b =>
          rw [List.filterMap_cons_some hk] at hsame
          obtain ⟨rfl, hrest⟩ := List.cons.inj hsame
          exact ih ks _ _ (hboth s t i k a hG.1 h hi hk) hG.2 hrest

end

end Run
