import Ferogram.Lib.Run

/- Workers around a shared state: a list of workers, each with a state of its own, of
   which one at a time takes a step that may read and change what they share. A run is a
   list of steps in any order, so it is any interleaving.

   The rules are for workers that take numbers from a shared counter. `Covered`: every
   number below the counter is settled or owed by some worker; a step keeps this when its
   worker settles, keeps or gives back what it owed (`StepCovers`). `Attended`: as long as
   the goal is not reached, some worker has not finished; a step keeps this when a worker
   finishes only at the goal, or while another one goes on. `Held`: what is taken is held by
   one worker, as under a lock for each key. `total_set` is for what is counted over the
   workers: each number as often as it is due (`Balanced`), or no more often (`Within`). -/

structure Crew (σ ω : Type) where
  shared : σ
  workers : List ω
  deriving DecidableEq

namespace Crew
variable {σ ω ε : Type}

section Step
variable (step : σ → ω → ε → σ × ω)

/-- The worker in place `e.1` takes a step. -/
def next (c : Crew σ ω) (e : Nat × ε) : Crew σ ω :=
  match c.workers[e.1]? with
  | none => c
  | some w => { shared := (step c.shared w e.2).1, workers := c.workers.set e.1 (step c.shared w e.2).2 }

theorem next_none {c : Crew σ ω} {e : Nat × ε} (h : c.workers[e.1]? = none) : next step c e = c := by
  rw [next, h]

theorem next_some {c : Crew σ ω} {e : Nat × ε} {w : ω} (h : c.workers[e.1]? = some w) : next step c e =
    { shared := (step c.shared w e.2).1, workers := c.workers.set e.1 (step c.shared w e.2).2 } := by
  rw [next, h]

/-- A step that changes nothing. -/
theorem next_of_step_eq {c : Crew σ ω} {e : Nat × ε} {w : ω} (h : c.workers[e.1]? = some w)
    (hstep : step c.shared w e.2 = (c.shared, w)) : next step c e = c := by
  have hset : c.workers.set e.1 w = c.workers := by
    apply List.ext_getElem?
    intro j
    rw [List.getElem?_set]
    split
    · next hj =>
      obtain rfl := hj
      rw [if_pos (List.getElem?_eq_some_iff.mp h).1, h]
    · rfl
  rw [next_some step h, hstep, hset]

/-- A property of the crew that every step of a worker keeps. -/
theorem next_inv {I : Crew σ ω → Prop} {c : Crew σ ω} {e : Nat × ε} (hc : I c)
    (h : ∀ w, c.workers[e.1]? = some w →
      I { shared := (step c.shared w e.2).1, workers := c.workers.set e.1 (step c.shared w e.2).2 }) :
    I (next step c e) := by
  cases hw : c.workers[e.1]? with
  | none => rwa [next_none step hw]
  | some w =>
    rw [next_some step hw]
    exact h w hw

end Step

/-! One worker changes. -/

theorem exists_set {P Q : ω → Prop} {ws : List ω} {i : Nat} {w w' : ω} (hi : ws[i]? = some w) (hself : P w → Q w')
    (hothers : ∀ v, P v → Q v) (h : ∃ v ∈ ws, P v) : ∃ v ∈ ws.set i w', Q v := by
  obtain ⟨v, hv, hP⟩ := h
  obtain ⟨j, hj⟩ := List.mem_iff_getElem?.mp hv
  obtain ⟨hlt, -⟩ := List.getElem?_eq_some_iff.mp hi
  by_cases hij : i = j
  · obtain rfl := hij
    obtain rfl := Option.some.inj (hi.symm.trans hj)
    exact ⟨w', List.mem_set hlt w', hself hP⟩
  · refine ⟨v, ?_, hothers v hP⟩
    exact List.mem_iff_getElem?.mpr ⟨j, (List.getElem?_set_ne hij).trans hj⟩

theorem forall_set {P : ω → Prop} {ws : List ω} {i : Nat} {w' : ω} (hws : ∀ v ∈ ws, P v) (hw' : P w') :
    ∀ v ∈ ws.set i w', P v := by
  intro v hv
  rcases List.mem_or_eq_of_mem_set hv with h | rfl
  · exact hws v h
  · exact hw'

/-- Of the workers of a kind, the one that takes a step stays where it is. -/
theorem filter_set {p : ω → Bool} {w w' : ω} (hw : p w = true) (hw' : p w' = true) : ∀ {ws : List ω} {i : Nat},
    ws[i]? = some w → ∃ before after, ws.filter p = before ++ w :: after ∧ (ws.set i w').filter p = before ++ w' :: after ∧
      ∀ v ∈ before, ∃ j < i, ws[j]? = some v
  | [], _, h => by cases h
  | v :: ws, 0, h => by
    obtain rfl : v = w := Option.some.inj h
    refine ⟨[], ws.filter p, List.filter_cons_of_pos hw, ?_, nofun⟩
    rw [List.set_cons_zero, List.filter_cons_of_pos hw']
    rfl
  | v :: ws, i + 1, h => by
    obtain ⟨before, after, hfilter, hset, hbefore⟩ := @filter_set p w w' hw hw' ws i h
    have hlater : ∀ u ∈ before, ∃ j < i + 1, (v :: ws)[j]? = some u := by
      intro u hu
      obtain ⟨j, hj, hat⟩ := hbefore u hu
      exact ⟨j + 1, by omega, hat⟩
    rw [List.set_cons_succ]
    by_cases hv : p v = true
    · refine ⟨v :: before, after, ?_, ?_, ?_⟩
      · rw [List.filter_cons_of_pos hv, hfilter, List.cons_append]
      · rw [List.filter_cons_of_pos hv, hset, List.cons_append]
      · intro u hu
        rcases List.mem_cons.mp hu with rfl | hu
        · exact ⟨0, by omega, rfl⟩
        · exact hlater u hu
    · refine ⟨before, after, ?_, ?_, hlater⟩
      · rw [List.filter_cons_of_neg hv, hfilter]
      · rw [List.filter_cons_of_neg hv, hset]

/-- Another worker's step leaves the kind alone. -/
theorem filter_set_other {p : ω → Bool} {w w' : ω} (hw : p w = false) (hw' : p w' = false) : ∀ {ws : List ω} {i : Nat},
    ws[i]? = some w → (ws.set i w').filter p = ws.filter p
  | [], _, h => by cases h
  | v :: ws, 0, h => by
    obtain rfl : v = w := Option.some.inj h
    rw [List.set_cons_zero, List.filter_cons_of_neg (Bool.eq_false_iff.mp hw),
      List.filter_cons_of_neg (Bool.eq_false_iff.mp hw')]
  | v :: ws, i + 1, h => by
    rw [List.set_cons_succ, List.filter_cons, List.filter_cons, @filter_set_other p w w' hw hw' ws i h]

/-! Numbers below the counter. -/

section Covered
variable (counter : σ → Nat) (Settled : σ → Nat → Prop) (Owes : σ → ω → Nat → Prop)

def Covered (c : Crew σ ω) : Prop :=
  ∀ p < counter c.shared, Settled c.shared p ∨ ∃ w ∈ c.workers, Owes c.shared w p

/-- One worker's step, of what is below the counter afterwards: what was settled stays so,
what the worker takes or owed is settled or owed by it, and the others owe what they owed. -/
structure StepCovers (s : σ) (w : ω) (s' : σ) (w' : ω) : Prop where
  settled : ∀ p < counter s', Settled s p → Settled s' p
  taken : ∀ p < counter s', counter s ≤ p → Settled s' p ∨ Owes s' w' p
  self : ∀ p < counter s', Owes s w p → Settled s' p ∨ Owes s' w' p
  others : ∀ v, ∀ p < counter s', Owes s v p → Owes s' v p

variable {counter Settled Owes}

/-- A step that leaves the shared state alone. -/
theorem StepCovers.of_worker {s : σ} {w w' : ω} (h : ∀ p, Owes s w p → Owes s w' p) :
    StepCovers counter Settled Owes s w s w' where
  settled := fun _ _ hp => hp
  taken := fun _ hp hge => absurd hp (Nat.not_lt.mpr hge)
  self := fun p _ hp => Or.inr (h p hp)
  others := fun _ _ _ hp => hp

/-- A step that starts over: nothing is below the counter. -/
theorem StepCovers.of_zero {s s' : σ} {w w' : ω} (h : counter s' = 0) :
    StepCovers counter Settled Owes s w s' w' := by
  have hnone : ∀ p, ¬ p < counter s' := fun p => by rw [h]; exact Nat.not_lt_zero p
  exact ⟨fun p hp => absurd hp (hnone p), fun p hp => absurd hp (hnone p), fun p hp => absurd hp (hnone p),
    fun _ p hp => absurd hp (hnone p)⟩

theorem Covered.set {c : Crew σ ω} {i : Nat} {w w' : ω} {s' : σ} (hc : c.Covered counter Settled Owes)
    (hi : c.workers[i]? = some w) (h : StepCovers counter Settled Owes c.shared w s' w') :
    Covered counter Settled Owes { shared := s', workers := c.workers.set i w' } := by
  obtain ⟨hlt, -⟩ := List.getElem?_eq_some_iff.mp hi
  have hself : ∀ p, Settled s' p ∨ Owes s' w' p → Settled s' p ∨ ∃ v ∈ c.workers.set i w', Owes s' v p :=
    fun p hp => hp.imp_right fun howes => ⟨w', List.mem_set hlt w', howes⟩
  intro p hp
  by_cases hold : p < counter c.shared
  · rcases hc p hold with hsettled | howes
    · exact Or.inl (h.settled p hp hsettled)
    · by_cases hw : Owes c.shared w p
      · exact hself p (h.self p hp hw)
      · exact Or.inr (exists_set hi (fun hw' => absurd hw' hw) (fun v => h.others v p hp) howes)
  · exact hself p (h.taken p hp (Nat.le_of_not_lt hold))

/-- What nobody owes is settled. -/
theorem Covered.settled {c : Crew σ ω} (hc : c.Covered counter Settled Owes) {p : Nat} (hp : p < counter c.shared)
    (hnone : ∀ w ∈ c.workers, ¬ Owes c.shared w p) : Settled c.shared p :=
  (hc p hp).resolve_right fun ⟨w, hw, howes⟩ => hnone w hw howes

end Covered

/-! Who goes on. -/

section Attended
variable (Reached : σ → Prop) (Finished : ω → Prop)

def Attended (c : Crew σ ω) : Prop := Reached c.shared ∨ ∃ w ∈ c.workers, ¬ Finished w

/-- A worker other than the one in place `i` has not finished. -/
def OtherGoesOn (c : Crew σ ω) (i : Nat) : Prop := ∃ j v, j ≠ i ∧ c.workers[j]? = some v ∧ ¬ Finished v

variable {Reached Finished}

/-- A worker that has not finished takes a step. -/
theorem Attended.set {c : Crew σ ω} {i : Nat} {w w' : ω} {s' : σ} (hi : c.workers[i]? = some w)
    (h : Finished w' → Reached s' ∨ c.OtherGoesOn Finished i) :
    Attended Reached Finished { shared := s', workers := c.workers.set i w' } := by
  obtain ⟨hlt, -⟩ := List.getElem?_eq_some_iff.mp hi
  by_cases hdone : Finished w'
  · rcases h hdone with hreached | ⟨j, v, hji, hj, hv⟩
    · exact Or.inl hreached
    · refine Or.inr ⟨v, ?_, hv⟩
      exact List.mem_iff_getElem?.mpr ⟨j, (List.getElem?_set_ne (Ne.symm hji)).trans hj⟩
  · exact Or.inr ⟨w', List.mem_set hlt w', hdone⟩

/-- When all have finished the goal is reached. -/
theorem Attended.reached {c : Crew σ ω} (h : c.Attended Reached Finished) (hall : ∀ w ∈ c.workers, Finished w) :
    Reached c.shared := by
  rcases h with h | ⟨w, hw, hgoes⟩
  · exact h
  · exact absurd (hall w hw) hgoes

end Attended

/-! Who holds what. -/

section Held
variable {κ : Type} (Taken : σ → κ → Prop) (Holds : ω → κ → Prop)

/-- What is taken is held by exactly one worker. -/
structure Held (c : Crew σ ω) : Prop where
  taken : ∀ k, Taken c.shared k ↔ ∃ w ∈ c.workers, Holds w k
  one : ∀ (k : κ) (i j : Nat) (v w : ω), c.workers[i]? = some v → c.workers[j]? = some w → Holds v k → Holds w k → i = j

variable {Taken Holds}

/-- A worker takes only what is free, and gives back only what it holds. -/
theorem Held.set {c : Crew σ ω} {i : Nat} {w w' : ω} {s' : σ} (hc : c.Held Taken Holds) (hi : c.workers[i]? = some w)
    (hfree : ∀ k, Holds w' k → Holds w k ∨ ¬ Taken c.shared k)
    (htaken : ∀ k, Taken s' k ↔ Holds w' k ∨ (Taken c.shared k ∧ ¬ Holds w k)) :
    Held Taken Holds { shared := s', workers := c.workers.set i w' } := by
  obtain ⟨hlt, -⟩ := List.getElem?_eq_some_iff.mp hi
  have hself : (c.workers.set i w')[i]? = some w' := List.getElem?_set_self hlt
  -- Nobody else holds what the worker holds afterwards.
  have hother : ∀ {k : κ} {j : Nat} {v : ω}, j ≠ i → (c.workers.set i w')[j]? = some v → Holds v k →
      c.workers[j]? = some v ∧ Taken c.shared k ∧ ¬ Holds w k := by
    intro k j v hij hj hv
    rw [List.getElem?_set_ne (Ne.symm hij)] at hj
    exact ⟨hj, (hc.taken k).mpr ⟨v, List.mem_of_getElem? hj, hv⟩, fun hw => hij (hc.one k j i v w hj hi hv hw)⟩
  have hclash : ∀ {k : κ} {j : Nat} {v : ω}, (c.workers.set i w')[j]? = some v → Holds v k → Holds w' k → j = i := by
    intro k j v hj hv hw'
    refine Classical.byContradiction fun hij => ?_
    obtain ⟨-, htaken, hnot⟩ := hother hij hj hv
    exact (hfree k hw').elim hnot fun hfree => hfree htaken
  constructor
  · intro k
    rw [htaken]
    constructor
    · rintro (hw' | ⟨hold, hnot⟩)
      · exact ⟨w', List.mem_of_getElem? hself, hw'⟩
      · exact exists_set hi (fun hw => absurd hw hnot) (fun _ hv => hv) ((hc.taken k).mp hold)
    · rintro ⟨v, hv, hk⟩
      obtain ⟨j, hj⟩ := List.mem_iff_getElem?.mp hv
      by_cases hij : j = i
      · rw [hij, hself] at hj
        exact Or.inl (Option.some.inj hj ▸ hk)
      · exact Or.inr (hother hij hj hk).2
  · intro k j l v u hj hl hv hu
    by_cases hji : j = i
    · rw [hji, hself] at hj
      obtain rfl := Option.some.inj hj
      rw [hji]
      exact (hclash hl hu hv).symm
    · by_cases hli : l = i
      · rw [hli, hself] at hl
        obtain rfl := Option.some.inj hl
        rw [hli]
        exact hclash hj hv hu
      · exact hc.one k j l v u (hother hji hj hv).1 (hother hli hl hu).1 hv hu

end Held

/-! What is counted. -/

/-- The sum of a number that each worker has. -/
def total (f : ω → Nat) : List ω → Nat
  | [] => 0
  | w :: ws => f w + total f ws

theorem total_set (f : ω → Nat) (w' : ω) : ∀ {ws : List ω} {i : Nat} {w : ω}, ws[i]? = some w →
    total f (ws.set i w') + f w = total f ws + f w'
  | [], _, _, h => by cases h
  | v :: ws, 0, w, h => by
    obtain rfl : v = w := Option.some.inj h
    rw [List.set_cons_zero, total, total]
    omega
  | v :: ws, i + 1, w, h => by
    have ih : total f (ws.set i w') + f w = total f ws + f w' := total_set f w' h
    rw [List.set_cons_succ, total, total]
    omega

theorem le_total (f : ω → Nat) : ∀ {ws : List ω} {w : ω}, w ∈ ws → f w ≤ total f ws
  | v :: ws, w, h => by
    rw [total]
    rcases List.mem_cons.mp h with rfl | h
    · omega
    · have ih := le_total f h
      omega

theorem total_eq_zero {f : ω → Nat} : ∀ {ws : List ω}, (∀ w ∈ ws, f w = 0) → total f ws = 0
  | [], _ => rfl
  | w :: ws, h => by
    rw [total, h w (List.mem_cons_self ..), total_eq_zero fun v hv => h v (List.mem_cons_of_mem w hv)]

section Balanced
variable (settled : σ → Nat → Nat) (owed : ω → Nat → Nat) (due : σ → Nat → Nat)

/-- Every number is settled and owed as often, all in all, as it is due. -/
def Balanced (c : Crew σ ω) : Prop :=
  ∀ p, settled c.shared p + total (fun w => owed w p) c.workers = due c.shared p

variable {settled owed due}

/-- One worker's step changes what is settled and what it owes by what more is due. -/
theorem Balanced.set {c : Crew σ ω} {i : Nat} {w w' : ω} {s' : σ} (hc : c.Balanced settled owed due)
    (hi : c.workers[i]? = some w)
    (h : ∀ p, settled c.shared p + owed w p ≤ due c.shared p →
      settled s' p + owed w' p + due c.shared p = settled c.shared p + owed w p + due s' p) :
    Balanced settled owed due { shared := s', workers := c.workers.set i w' } := by
  intro p
  have hold := hc p
  have hone := le_total (fun v => owed v p) (List.mem_of_getElem? hi)
  have hset := total_set (fun v => owed v p) w' hi
  have hstep := h p (by omega)
  dsimp only at hone hset ⊢
  omega

variable (settled owed due) in
/-- No number is settled and owed more often, all in all, than it is due. -/
def Within (c : Crew σ ω) : Prop :=
  ∀ p, settled c.shared p + total (fun w => owed w p) c.workers ≤ due c.shared p

/-- One worker's step adds to what is settled and what it owes no more than is due more. -/
theorem Within.set {c : Crew σ ω} {i : Nat} {w w' : ω} {s' : σ} (hc : c.Within settled owed due)
    (hi : c.workers[i]? = some w)
    (h : ∀ p, settled s' p + owed w' p + due c.shared p ≤ settled c.shared p + owed w p + due s' p) :
    Within settled owed due { shared := s', workers := c.workers.set i w' } := by
  intro p
  have hold := hc p
  have hset := total_set (fun v => owed v p) w' hi
  have hstep := h p
  dsimp only at hset ⊢
  omega

end Balanced

end Crew
