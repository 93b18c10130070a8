import Mathlib.Data.List.Range
import Mathlib.Data.List.Perm.Basic

/- Calls that overlap, against the same calls one after another. `run` makes the calls one
   by one; `Explains` says that the calls in `order`, one by one, leave the state `a` and give
   each of them the reply it has got. A call joins the order when it takes effect
   (`Explains.take`), so the order keeps to the one in which things happened, and when every
   call has its reply the order has all of them (`Explains.perm`). -/
namespace Sequential
variable {τ α ρ : Type} (apply : τ → α → τ × ρ)

/-- The calls one by one, with their replies. -/
def run : τ → List α → τ × List ρ
  | a, [] => (a, [])
  | a, c :: cs => ((run (apply a c).1 cs).1, (apply a c).2 :: (run (apply a c).1 cs).2)

theorem run_concat (a : τ) (cs : List α) (c : α) :
    run apply a (cs ++ [c]) =
      ((apply (run apply a cs).1 c).1, (run apply a cs).2 ++ [(apply (run apply a cs).1 c).2]) := by
  induction cs generalizing a with
  | nil => rfl
  | cons c' cs ih =>
    have hnext := ih (apply a c').1
    rw [List.cons_append, run, hnext]
    rfl

/-- The calls at these places, and the replies they have got. -/
def callsAt (calls : List α) (order : List Nat) : List α := order.filterMap fun i => calls[i]?
def repliesAt (replies : List (Option ρ)) (order : List Nat) : List ρ := order.filterMap fun i => replies[i]?.join

structure Explains (a₀ : τ) (calls : List α) (replies : List (Option ρ)) (order : List Nat) (a : τ) : Prop where
  length : replies.length = calls.length
  nodup : order.Nodup
  begun : ∀ i, i ∈ order ↔ ∃ r, replies[i]? = some (some r)
  runs : run apply a₀ (callsAt calls order) = (a, repliesAt replies order)

variable {apply} {a₀ a : τ} {calls : List α} {replies : List (Option ρ)} {order : List Nat}

theorem Explains.nil (a₀ : τ) (calls : List α) : Explains apply a₀ calls (calls.map fun _ => none) [] a₀ where
  length := List.length_map _
  nodup := List.nodup_nil
  begun := by
    intro i
    constructor
    · intro h
      cases h
    · intro ⟨r, hr⟩
      rw [List.getElem?_map] at hr
      cases hi : calls[i]? <;> simp [hi] at hr
  runs := rfl

/-- A call takes effect. -/
theorem Explains.take {i : Nat} {c : α} (h : Explains apply a₀ calls replies order a) (hcall : calls[i]? = some c)
    (hnone : replies[i]? = some none) :
    Explains apply a₀ calls (replies.set i (some (apply a c).2)) (order ++ [i]) (apply a c).1 := by
  have hlt : i < replies.length := (List.getElem?_eq_some_iff.mp hnone).1
  have hfresh : i ∉ order := by
    intro hmem
    obtain ⟨r, hr⟩ := (h.begun i).mp hmem
    rw [hnone] at hr
    cases Option.some.inj hr
  have hself : (replies.set i (some (apply a c).2))[i]? = some (some (apply a c).2) := List.getElem?_set_self hlt
  refine ⟨?_, ?_, ?_, ?_⟩
  · rw [List.length_set]
    exact h.length
  · rw [List.nodup_append]
    refine ⟨h.nodup, List.pairwise_singleton _ i, ?_⟩
    intro j hj k hk heq
    rw [List.mem_singleton.mp hk] at heq
    exact hfresh (heq ▸ hj)
  · intro j
    rw [List.mem_append, List.mem_singleton]
    by_cases hij : j = i
    · rw [hij, hself]
      exact ⟨fun _ => ⟨_, rfl⟩, fun _ => Or.inr rfl⟩
    · rw [List.getElem?_set_ne (Ne.symm hij), h.begun j]
      exact ⟨fun hj => hj.resolve_right hij, Or.inl⟩
  · -- the call is the last of the order, and its reply the last one
    have hcalls : callsAt calls (order ++ [i]) = callsAt calls order ++ [c] := by
      rw [callsAt, List.filterMap_append, List.filterMap_cons_some hcall]
      rfl
    have hold : repliesAt (replies.set i (some (apply a c).2)) order = repliesAt replies order := by
      apply List.filterMap_congr
      intro j hj
      have hij : i ≠ j := fun heq => hfresh (heq ▸ hj)
      rw [List.getElem?_set_ne hij]
    have hreplies : repliesAt (replies.set i (some (apply a c).2)) (order ++ [i]) =
        repliesAt replies order ++ [(apply a c).2] := by
      have hone : repliesAt (replies.set i (some (apply a c).2)) [i] = [(apply a c).2] := by
        rw [repliesAt, List.filterMap_cons_some (b := (apply a c).2) (by rw [hself]; rfl), List.filterMap_nil]
      rw [← hold, ← hone, repliesAt, List.filterMap_append]
      rfl
    rw [hcalls, hreplies, run_concat, h.runs]

/-- When every call has its reply, all of them are in the order. -/
theorem Explains.perm (h : Explains apply a₀ calls replies order a) (hall : ∀ r ∈ replies, r ≠ none) :
    order.Perm (List.range calls.length) := by
  apply (List.perm_ext_iff_of_nodup h.nodup List.nodup_range).mpr
  intro i
  rw [h.begun, List.mem_range, ← h.length]
  constructor
  · intro ⟨r, hr⟩
    exact (List.getElem?_eq_some_iff.mp hr).1
  · intro hi
    obtain ⟨r, hr⟩ := Option.ne_none_iff_exists'.mp (hall replies[i] (List.getElem_mem hi))
    exact ⟨r, by rw [List.getElem?_eq_getElem hi, hr]⟩

end Sequential
