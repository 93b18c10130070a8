import Mathlib.Data.List.Basic
import Ferogram.Lib.Run

/- Runs that come to an end. An input leaves the state as it is or makes a measure smaller,
   and a round, some inputs in any order, has one in it that does not leave the state as it
   is. After as many rounds as the measure says, it is zero (`progress`). -/
namespace Run
variable {σ ι : Type} {next : σ → ι → σ} {I : σ → Prop} {G : ι → Prop} {measure : σ → Nat}

/-- After any inputs the state is the same, with none of them having changed it, or the measure is less. -/
theorem steady_or_less (hinv : ∀ s i, I s → G i → I (next s i))
    (hless : ∀ s i, I s → G i → next s i = s ∨ measure (next s i) < measure s) (is : List ι) :
    ∀ s, I s → (∀ i ∈ is, G i) → I (final next s is) ∧
      ((final next s is = s ∧ ∀ i ∈ is, next s i = s) ∨ measure (final next s is) < measure s) := by
  induction is with
  | nil => exact fun s hs _ => ⟨hs, Or.inl ⟨rfl, fun _ hi => absurd hi List.not_mem_nil⟩⟩
  | cons i is ih =>
    intro s hs hall
    obtain ⟨hi, hrest⟩ := List.forall_mem_cons.mp hall
    obtain ⟨hfinal, hsteady⟩ := ih (next s i) (hinv s i hs hi) hrest
    change I (final next (next s i) is) ∧ ((final next (next s i) is = s ∧ _) ∨ measure (final next (next s i) is) < measure s)
    refine ⟨hfinal, ?_⟩
    rcases hless s i hs hi with hsame | hlt
    · rw [hsame] at hsteady ⊢
      rcases hsteady with ⟨heq, hnone⟩ | hlt
      · exact Or.inl ⟨heq, List.forall_mem_cons.mpr ⟨hsame, hnone⟩⟩
      · exact Or.inr hlt
    · rcases hsteady with ⟨heq, -⟩ | hlt'
      · rw [heq]
        exact Or.inr hlt
      · exact Or.inr (Nat.lt_trans hlt' hlt)

theorem progress {Fair : List ι → Prop} (hinv : ∀ s i, I s → G i → I (next s i))
    (hless : ∀ s i, I s → G i → next s i = s ∨ measure (next s i) < measure s)
    (hfair : ∀ s round, I s → Fair round → (∀ i ∈ round, next s i = s) → measure s = 0) (rounds : List (List ι)) :
    ∀ s, I s → (∀ round ∈ rounds, Fair round ∧ ∀ i ∈ round, G i) → measure s ≤ rounds.length →
      I (final next s rounds.flatten) ∧ measure (final next s rounds.flatten) = 0 := by
  induction rounds with
  | nil => exact fun s hs _ hle => ⟨hs, Nat.le_zero.mp hle⟩
  | cons round rounds ih =>
    intro s hs hall hle
    obtain ⟨⟨hround, hgood⟩, hrest⟩ := List.forall_mem_cons.mp hall
    obtain ⟨hfinal, hsteady⟩ := steady_or_less hinv hless round s hs hgood
    have hsplit : final next s (round :: rounds).flatten = final next (final next s round) rounds.flatten :=
      List.foldl_append ..
    rw [hsplit]
    have hbound : measure (final next s round) ≤ rounds.length := by
      rw [List.length_cons] at hle
      rcases hsteady with ⟨heq, hnone⟩ | hlt
      · rw [heq, hfair s round hs hround hnone]
        exact Nat.zero_le _
      · omega
    exact ih _ hfinal hrest hbound

end Run
