import Mathlib.Logic.Basic

/- Runs of a deterministic system: a list of inputs fed one after another to
   `next : σ → ι → σ`. `states` lists every state a run goes through, and
   `AllSteps G` says that each step was taken with `G` true of the state before
   it and its input. The two rules are the inductions every safety result uses:
   `states_inv` carries an invariant along a run whose steps meet a condition,
   `states_iff` shows that a condition on the steps is exactly what a property of
   the states amounts to. `final_proj` is for a part of the state that some of
   the inputs act on and the others leave alone: the run, seen on that part, is a
   run of those inputs; `final_simulated` where it is a run of another system. -/
namespace Run
variable {σ ι : Type} (next : σ → ι → σ)

/-- The state after the inputs. -/
def final : σ → List ι → σ := List.foldl next

/-- Every state of the run, the first and the last included. -/
def states : σ → List ι → List σ
  | s, [] => [s]
  | s, i :: is => s :: states (next s i) is

/-- `G` holds of the state and input of every step. -/
def AllSteps (G : σ → ι → Prop) : σ → List ι → Prop
  | _, [] => True
  | s, i :: is => G s i ∧ AllSteps G (next s i) is

instance instDecidableAllSteps {G : σ → ι → Prop} [∀ s i, Decidable (G s i)] : ∀ (s : σ) (is : List ι),
    Decidable (AllSteps next G s is)
  | _, [] => isTrue trivial
  | s, i :: is =>
    let _rest : Decidable (AllSteps next G (next s i) is) := instDecidableAllSteps (next s i) is
    inferInstanceAs (Decidable (G s i ∧ AllSteps next G (next s i) is))

theorem final_mem_states : ∀ (is : List ι) (s : σ), final next s is ∈ states next s is
  | [], s => by simp [final, states]
  | i :: is, s => List.mem_cons_of_mem s (final_mem_states is (next s i))

/-- An invariant that good steps keep holds in every state of a run of good steps. -/
theorem states_inv {I : σ → Prop} {G : σ → ι → Prop}
    (hstep : ∀ s i, G s i → I s → I (next s i)) :
    ∀ (is : List ι) (s : σ), I s → AllSteps next G s is → ∀ x ∈ states next s is, I x
  | [], s, hs, _, x, hx => by
    rw [states, List.mem_singleton] at hx
    exact hx ▸ hs
  | i :: is, s, hs, hG, x, hx => by
    rcases List.mem_cons.mp hx with rfl | hx
    · exact hs
    · exact states_inv hstep is (next s i) (hstep s i hG.1 hs) hG.2 x hx

/-- Where good steps keep an invariant, and a good step from a state in it is a `Q`
step, every step of a run of good steps is one. -/
theorem allSteps_of_inv {I : σ → Prop} {G Q : σ → ι → Prop}
    (hstep : ∀ s i, G s i → I s → I (next s i)) (hQ : ∀ s i, G s i → I s → Q s i) :
    ∀ (is : List ι) (s : σ), I s → AllSteps next G s is → AllSteps next Q s is
  | [], _, _, _ => trivial
  | i :: is, s, hs, hG =>
    ⟨hQ s i hG.1 hs, allSteps_of_inv hstep hQ is (next s i) (hstep s i hG.1 hs) hG.2⟩

/-- Where every step keeps an invariant, and one from a state in it is a `Q` step, all are. -/
theorem allSteps_of_inv_all {I : σ → Prop} {Q : σ → ι → Prop} (hstep : ∀ s i, I s → I (next s i))
    (hQ : ∀ s i, I s → Q s i) : ∀ (is : List ι) (s : σ), I s → AllSteps next Q s is
  | [], _, _ => trivial
  | i :: is, s, hs => ⟨hQ s i hs, allSteps_of_inv_all hstep hQ is (next s i) (hstep s i hs)⟩

theorem allSteps_and {G H : σ → ι → Prop} : ∀ {is : List ι} {s : σ}, AllSteps next G s is → AllSteps next H s is →
    AllSteps next (fun s i => G s i ∧ H s i) s is
  | [], _, _, _ => trivial
  | _ :: _, _, hG, hH => ⟨⟨hG.1, hH.1⟩, allSteps_and hG.2 hH.2⟩

/-- An invariant that every step keeps holds in every state of every run. -/
theorem states_inv_all {I : σ → Prop} (hstep : ∀ s i, I s → I (next s i)) :
    ∀ (is : List ι) (s : σ), I s → ∀ x ∈ states next s is, I x
  | [], s, hs, x, hx => by
    rw [states, List.mem_singleton] at hx
    exact hx ▸ hs
  | i :: is, s, hs, x, hx => by
    rcases List.mem_cons.mp hx with rfl | hx
    · exact hs
    · exact states_inv_all hstep is (next s i) (hstep s i hs) x hx

/-- Where a step from a state with `P` leads to one with `P` exactly when `G`
holds of it, the runs that stay in `P` are those whose steps all meet `G`. -/
theorem states_iff {I P : σ → Prop} {G : σ → ι → Prop} (hI : ∀ s i, I s → I (next s i))
    (hP : ∀ s i, I s → P s → (P (next s i) ↔ G s i)) :
    ∀ (is : List ι) (s : σ), I s →
      ((∀ x ∈ states next s is, P x) ↔ P s ∧ AllSteps next G s is)
  | [], s, _ => by simp [states, AllSteps]
  | i :: is, s, hs => by
    have ih := states_iff hI hP is (next s i) (hI s i hs)
    simp only [states, List.forall_mem_cons, AllSteps, ih]
    constructor
    · rintro ⟨h1, h2, h3⟩
      exact ⟨h1, (hP s i hs h1).mp h2, h3⟩
    · rintro ⟨h1, h2, h3⟩
      exact ⟨h1, (hP s i hs h1).mpr h2, h3⟩

/-- Where, from a state with `P`, a step is a `Q` step to a state with `P` exactly when `G`
holds of it, the runs of `Q` steps that stay in `P` are those whose steps all meet `G`. -/
theorem states_allSteps_iff {P : σ → Prop} {Q G : σ → ι → Prop}
    (h : ∀ s i, P s → (P (next s i) ∧ Q s i ↔ G s i)) :
    ∀ (is : List ι) (s : σ),
      ((∀ x ∈ states next s is, P x) ∧ AllSteps next Q s is ↔ P s ∧ AllSteps next G s is)
  | [], s => by simp [states, AllSteps]
  | i :: is, s => by
    have ih := states_allSteps_iff h is (next s i)
    simp only [states, List.forall_mem_cons, AllSteps]
    constructor
    · rintro ⟨⟨hs, hP⟩, hQ, hQs⟩
      obtain ⟨hnext, hG⟩ := ih.mp ⟨hP, hQs⟩
      exact ⟨hs, (h s i hs).mp ⟨hnext, hQ⟩, hG⟩
    · rintro ⟨hs, hG, hGs⟩
      obtain ⟨hnext, hQ⟩ := (h s i hs).mpr hG
      obtain ⟨hP, hQs⟩ := ih.mpr ⟨hnext, hGs⟩
      exact ⟨⟨hs, hP⟩, hQ, hQs⟩

/-- Seen through `proj`, a run is the run of the inputs that concern it. -/
theorem final_proj {τ : Type} {I : σ → Prop} (proj : σ → τ) (mine : ι → Bool) (own : τ → ι → τ)
    (hI : ∀ s i, I s → I (next s i))
    (hmine : ∀ s i, I s → mine i = true → proj (next s i) = own (proj s) i)
    (hother : ∀ s i, I s → mine i = false → proj (next s i) = proj s) :
    ∀ (is : List ι) (s : σ), I s → proj (final next s is) = final own (proj s) (is.filter mine)
  | [], _, _ => rfl
  | i :: is, s, hs => by
    have ih := final_proj proj mine own hI hmine hother is (next s i) (hI s i hs)
    cases hm : mine i with
    | true =>
      rw [List.filter_cons_of_pos hm]
      exact ih.trans (by rw [hmine s i hs hm]; rfl)
    | false =>
      rw [List.filter_cons_of_neg (by simp [hm])]
      exact ih.trans (by rw [hother s i hs hm])

/-- Where each step, seen through `proj`, is some steps of another system, a run is a run of it. -/
theorem final_simulated {τ κ : Type} {I : σ → Prop} (proj : σ → τ) (own : τ → κ → τ) (hI : ∀ s i, I s → I (next s i))
    (hstep : ∀ s i, I s → ∃ js, proj (next s i) = final own (proj s) js) :
    ∀ (is : List ι) (s : σ), I s → ∃ js, proj (final next s is) = final own (proj s) js
  | [], s, _ => ⟨[], rfl⟩
  | i :: is, s, hs => by
    obtain ⟨first, hfirst⟩ := hstep s i hs
    obtain ⟨rest, hrest⟩ := final_simulated proj own hI hstep is (next s i) (hI s i hs)
    refine ⟨first ++ rest, hrest.trans ?_⟩
    show final own _ rest = List.foldl own (proj s) (first ++ rest)
    rw [List.foldl_append, hfirst]
    rfl

end Run
