import Mathlib.Data.List.Basic

/- A queue of at most `n` elements that forgets the one in front when one more is entered.

   The queue is the last `n` of all that was ever entered (`push_last`). So an element that
   was entered and is not there any more has had `n` others behind it (`le_length_between`). -/
namespace Fifo
variable {α : Type}

def push (n : Nat) (queue : List α) (a : α) : List α :=
  if n < (queue ++ [a]).length then (queue ++ [a]).tail else queue ++ [a]

theorem getLast?_push {n : Nat} (hn : 0 < n) (queue : List α) (a : α) : (push n queue a).getLast? = some a := by
  unfold push
  split
  · next hfull =>
    cases queue with
    | nil =>
      rw [List.nil_append, List.length_singleton] at hfull
      omega
    | cons b queue => exact List.getLast?_concat
  · exact List.getLast?_concat

/-- The last `n` of a list. -/
def last (n : Nat) (history : List α) : List α := history.drop (history.length - n)

theorem last_of_le {n : Nat} {history : List α} (h : history.length ≤ n) : last n history = history := by
  unfold last
  rw [Nat.sub_eq_zero_of_le h, List.drop_zero]

theorem length_last (n : Nat) (history : List α) : (last n history).length = min n history.length := by
  unfold last
  rw [List.length_drop]
  omega

theorem last_append {n : Nat} (before : List α) {history : List α} (h : n ≤ history.length) :
    last n (before ++ history) = last n history := by
  have hsplit : (before ++ history).length - n = before.length + (history.length - n) := by
    rw [List.length_append]
    omega
  unfold last
  rw [hsplit, ← List.drop_drop, List.drop_left]

theorem push_last (n : Nat) (history : List α) (a : α) : push n (last n history) a = last n (history ++ [a]) := by
  have happend : last n history ++ [a] = (history ++ [a]).drop (history.length - n) := by
    rw [List.drop_append_of_le_length (Nat.sub_le _ _)]
    rfl
  have hlength : (last n history ++ [a]).length = min n history.length + 1 := by
    rw [List.length_append, length_last, List.length_singleton]
  unfold push
  rw [hlength, happend]
  unfold last
  rw [List.length_append, List.length_singleton]
  split
  · rw [List.tail_drop]
    congr 1
    omega
  · congr 1
    omega

theorem mem_of_mem_last {n : Nat} {history : List α} {a : α} (h : a ∈ last n history) : a ∈ history :=
  List.mem_of_mem_drop h

/-- An element that is not in the queue any more. -/
theorem le_length_between {n : Nat} {before between : List α} {a : α} (h : a ∉ last n (before ++ a :: between)) :
    n ≤ between.length := by
  by_contra hlt
  apply h
  unfold last
  rw [List.drop_append_of_le_length (by rw [List.length_append, List.length_cons]; omega)]
  exact List.mem_append_right _ List.mem_cons_self

end Fifo
