import Mathlib.Data.Nat.Init
import Mathlib.Logic.Basic
import Mathlib.Logic.Function.Iterate

/- Checked arithmetic, and loops that are given fuel.

   A program returns, or it stops: a value does not fit, a divisor is zero, an assertion fails,
   or a loop has run out of fuel. `Meets total x Q` says that `x` returns with `Q`, or has run out of fuel, which
   does not happen if `total` holds; so one proof shows that nothing else goes wrong whatever
   the fuel, and that it returns if there is enough. A loop needs an invariant with a number
   that gets smaller (`loop_meets`). One that does not end is out of fuel, however much there
   was (`loop_diverges`). With more fuel a program that returned returns the same (`Below`). -/
namespace Checked

inductive Stop where
  | overflow
  | divisionByZero
  | assertion
  | outOfFuel
  deriving DecidableEq

/-- A value below the bound. -/
def fit (bound w : Nat) : Except Stop Nat := if w < bound then .ok w else .error .overflow

def rem (a b : Nat) : Except Stop Nat := if b = 0 then .error .divisionByZero else .ok (a % b)

def div (a b : Nat) : Except Stop Nat := if b = 0 then .error .divisionByZero else .ok (a / b)

section
variable {σ α β : Type}

/-- `while`. -/
def loop (cond : σ → Bool) (body : σ → Except Stop σ) : Nat → σ → Except Stop σ
  | 0, _ => .error .outOfFuel
  | fuel + 1, s => if cond s then (body s).bind (loop cond body fuel) else .ok s

/-- The body `n` times. -/
def times (body : σ → Except Stop σ) : Nat → σ → Except Stop σ
  | 0, s => .ok s
  | n + 1, s => (body s).bind (times body n)

def Meets (total : Prop) (x : Except Stop α) (Q : α → Prop) : Prop :=
  (∃ a, x = .ok a ∧ Q a) ∨ (¬ total ∧ x = .error .outOfFuel)

variable {total : Prop}

theorem Meets.of_ok {x : Except Stop α} {Q : α → Prop} {a : α} (h : x = .ok a) (ha : Q a) : Meets total x Q :=
  Or.inl ⟨a, h, ha⟩

theorem Meets.mono {x : Except Stop α} {Q R : α → Prop} (h : Meets total x Q) (himp : ∀ a, Q a → R a) : Meets total x R :=
  h.imp_left fun ⟨a, hx, ha⟩ => ⟨a, hx, himp a ha⟩

theorem Meets.bind {x : Except Stop α} {f : α → Except Stop β} {P : α → Prop} {Q : β → Prop} (h : Meets total x P)
    (hf : ∀ a, P a → Meets total (f a) Q) : Meets total (x.bind f) Q := by
  rcases h with ⟨a, rfl, ha⟩ | ⟨hnot, rfl⟩
  · exact hf a ha
  · exact Or.inr ⟨hnot, rfl⟩

theorem Meets.returned {x : Except Stop α} {Q : α → Prop} (h : Meets total x Q) (htotal : total) : ∃ a, x = .ok a ∧ Q a := by
  rcases h with hok | ⟨hnot, -⟩
  · exact hok
  · exact absurd htotal hnot

/-- What is returned has the property. -/
theorem Meets.of_returned {x : Except Stop α} {Q : α → Prop} (h : Meets total x Q) {a : α} (ha : x = .ok a) : Q a := by
  rcases h with ⟨b, hb, hQ⟩ | ⟨-, hfuel⟩
  · rw [ha] at hb
    exact Except.ok.inj hb ▸ hQ
  · rw [ha] at hfuel
    cases hfuel

/-- Nothing else than the fuel stops it. -/
theorem Meets.stop {x : Except Stop α} {Q : α → Prop} (h : Meets total x Q) {stop : Stop} (hstop : x = .error stop) :
    stop = .outOfFuel := by
  rcases h with ⟨a, ha, -⟩ | ⟨-, hfuel⟩
  · rw [hstop] at ha
    cases ha
  · rw [hstop] at hfuel
    exact Except.error.inj hfuel

theorem fit_of_lt {bound w : Nat} (h : w < bound) : fit bound w = .ok w := if_pos h

theorem rem_of_pos {a b : Nat} (h : 0 < b) : rem a b = .ok (a % b) := if_neg (by omega)

theorem div_of_pos {a b : Nat} (h : 0 < b) : div a b = .ok (a / b) := if_neg (by omega)

/-- The invariant holds with a number that gets smaller from turn to turn. -/
theorem loop_meets {cond : σ → Bool} {body : σ → Except Stop σ} {I : Nat → σ → Prop}
    (hbody : ∀ n s, I n s → cond s = true → Meets total (body s) fun s' => ∃ n' < n, I n' s') :
    ∀ fuel n s, I n s → (total → n < fuel) →
      Meets total (loop cond body fuel s) fun s' => cond s' = false ∧ ∃ n', I n' s' := by
  intro fuel
  induction fuel with
  | zero => exact fun n s _ hfuel => Or.inr ⟨fun htotal => Nat.not_lt_zero n (hfuel htotal), rfl⟩
  | succ fuel ih =>
    intro n s hs hfuel
    unfold loop
    cases hcond : cond s with
    | false => exact Meets.of_ok rfl ⟨hcond, n, hs⟩
    | true =>
      refine (hbody n s hs hcond).bind fun s' ⟨n', hlt, hs'⟩ => ih n' s' hs' fun htotal => ?_
      have hle := hfuel htotal
      omega

/-- What a loop that returned has left: the invariant, and a condition that fails. -/
theorem loop_returned {cond : σ → Bool} {body : σ → Except Stop σ} {I : σ → Prop}
    (hbody : ∀ s s', I s → cond s = true → body s = .ok s' → I s') :
    ∀ fuel s s', I s → loop cond body fuel s = .ok s' → cond s' = false ∧ I s' := by
  intro fuel
  induction fuel with
  | zero => exact fun s s' _ h => nomatch h
  | succ fuel ih =>
    intro s s' hs h
    unfold loop at h
    cases hcond : cond s with
    | false =>
      rw [hcond] at h
      obtain rfl : s = s' := Except.ok.inj h
      exact ⟨hcond, hs⟩
    | true =>
      rw [hcond, if_pos rfl] at h
      cases hturn : body s with
      | error stop =>
        rw [hturn] at h
        cases h
      | ok next =>
        rw [hturn] at h
        exact ih next s' (hbody s next hs hcond hturn) h

theorem times_meets {body : σ → Except Stop σ} {I : Nat → σ → Prop} :
    ∀ n i s, I i s → (∀ j s, i ≤ j → j < i + n → I j s → Meets total (body s) (I (j + 1))) →
      Meets total (times body n s) (I (i + n)) := by
  intro n
  induction n with
  | zero => exact fun i s hs _ => Meets.of_ok rfl hs
  | succ n ih =>
    intro i s hs hbody
    refine (hbody i s (Nat.le_refl i) (by omega) hs).bind fun s' hs' => ?_
    have hrest := ih (i + 1) s' hs' fun j t hle hlt hj => hbody j t (by omega) (by omega) hj
    rwa [Nat.add_right_comm, Nat.add_assoc] at hrest

/-- A loop whose condition never fails. -/
theorem loop_diverges {cond : σ → Bool} {body : σ → Except Stop σ} {I : σ → Prop} (hcond : ∀ s, I s → cond s = true)
    (hbody : ∀ s, I s → body s = .error .outOfFuel ∨ ∃ s', body s = .ok s' ∧ I s') :
    ∀ fuel s, I s → loop cond body fuel s = .error .outOfFuel := by
  intro fuel
  induction fuel with
  | zero => exact fun _ _ => rfl
  | succ fuel ih =>
    intro s hs
    unfold loop
    rw [if_pos (hcond s hs)]
    rcases hbody s hs with hfuel | ⟨s', hs', hI⟩
    · rw [hfuel]
      rfl
    · rw [hs']
      exact ih s' hI

/-! More fuel. -/

/-- The first is the second, or had too little fuel. -/
def Below (x y : Except Stop α) : Prop := x = .error .outOfFuel ∨ x = y

theorem Below.refl (x : Except Stop α) : Below x x := Or.inr rfl

theorem Below.eq_of_ok {x y : Except Stop α} (h : Below x y) {a : α} (ha : x = .ok a) : y = .ok a := by
  rcases h with hfuel | rfl
  · rw [ha] at hfuel
    cases hfuel
  · exact ha

theorem Below.bind {x y : Except Stop α} {f g : α → Except Stop β} (h : Below x y) (hf : ∀ a, Below (f a) (g a)) :
    Below (x.bind f) (y.bind g) := by
  rcases h with rfl | rfl
  · exact Or.inl rfl
  · cases x with
    | error stop => exact Below.refl _
    | ok a => exact hf a

theorem loop_below {cond : σ → Bool} {body body' : σ → Except Stop σ} (h : ∀ s, Below (body s) (body' s)) (fuel : Nat) :
    ∀ {fuel'}, fuel ≤ fuel' → ∀ s, Below (loop cond body fuel s) (loop cond body' fuel' s) := by
  induction fuel with
  | zero => exact fun _ s => Or.inl rfl
  | succ fuel ih =>
    intro fuel' hle s
    obtain ⟨left, rfl⟩ : ∃ left, fuel' = left + 1 := ⟨fuel' - 1, by omega⟩
    unfold loop
    cases cond s with
    | false => exact Below.refl _
    | true => exact (h s).bind (ih (by omega))

/-- With enough fuel it returns `a`. -/
def Converges (x : Nat → Except Stop α) (a : α) : Prop := ∃ enough, ∀ fuel, enough < fuel → x fuel = .ok a

section
variable {x : Nat → Except Stop α}

theorem converges_of_ok (hbelow : ∀ fuel fuel', fuel ≤ fuel' → Below (x fuel) (x fuel')) {fuel : Nat} {a : α}
    (h : x fuel = .ok a) : Converges x a :=
  ⟨fuel, fun fuel' hlt => (hbelow fuel fuel' (Nat.le_of_lt hlt)).eq_of_ok h⟩

theorem Converges.eq {a b : α} (ha : Converges x a) (hb : Converges x b) : a = b := by
  obtain ⟨n, hn⟩ := ha
  obtain ⟨m, hm⟩ := hb
  have hsame := (hn (n + m + 1) (by omega)).symm.trans (hm (n + m + 1) (by omega))
  exact Except.ok.inj hsame

end

/-- A body that cannot stop is run until the condition fails for the first time. -/
theorem loop_returns_iff (cond : σ → Bool) (f : σ → σ) (fuel : Nat) : ∀ s,
    (∃ s', loop cond (fun s => .ok (f s)) fuel s = .ok s') ↔ ∃ i < fuel, cond (f^[i] s) = false := by
  induction fuel with
  | zero => exact fun s => iff_of_false (fun ⟨_, h⟩ => by cases h) fun ⟨i, hi, _⟩ => Nat.not_lt_zero i hi
  | succ fuel ih =>
    intro s
    unfold loop
    cases hcond : cond s with
    | false => exact iff_of_true ⟨s, rfl⟩ ⟨0, Nat.succ_pos fuel, hcond⟩
    | true =>
      change (∃ s', loop cond (fun s => .ok (f s)) fuel (f s) = .ok s') ↔ _
      rw [ih]
      constructor
      · rintro ⟨i, hi, hfalse⟩
        exact ⟨i + 1, by omega, by rwa [Function.iterate_succ_apply]⟩
      · rintro ⟨i, hi, hfalse⟩
        cases i with
        | zero =>
          rw [Function.iterate_zero_apply, hcond] at hfalse
          cases hfalse
        | succ i => exact ⟨i, by omega, by rwa [Function.iterate_succ_apply] at hfalse⟩

end

end Checked
