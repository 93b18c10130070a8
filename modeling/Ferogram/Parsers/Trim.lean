import Mathlib.Data.List.Infix
import Mathlib.Data.List.TakeWhile
import Ferogram.Parsers.Entities

/- `str::trim`. What is taken off is white space on both sides (`trim_split`), what is left has
   none at its ends (`trim_first`, `trim_last`), and a text with none there stays as it is
   (`trim_eq_self_of_ends`). -/
namespace Ferogram.Parsers

variable {s a b : List Char} {c : Char}

/-! One side. -/

/-- The end of a text that is taken off. -/
theorem trimEndMatches_split (p : Char → Bool) (s : List Char) : ∃ b, s = trimEndMatches p s ++ b ∧ b.all p = true := by
  refine ⟨(s.reverse.takeWhile p).reverse, ?_, ?_⟩
  · rw [trimEndMatches, ← List.reverse_append, List.takeWhile_append_dropWhile, List.reverse_reverse]
  · rw [List.all_reverse]
    exact List.all_takeWhile

theorem trimEndMatches_last {p : Char → Bool} (h : (trimEndMatches p s).getLast? = some c) : p c = false := by
  rw [trimEndMatches, List.getLast?_reverse] at h
  have hnot := List.head?_dropWhile_not p s.reverse
  rw [h] at hnot
  exact hnot

theorem trimEndMatches_append {p : Char → Bool} (s : List Char) (hb : b.all p = true) :
    trimEndMatches p (s ++ b) = trimEndMatches p s := by
  have hrev : ∀ d ∈ b.reverse, p d = true := fun d hd => List.all_eq_true.mp hb d (List.mem_reverse.mp hd)
  rw [trimEndMatches, List.reverse_append, List.dropWhile_append_of_pos hrev, ← trimEndMatches]

theorem trimEndMatches_cons {p : Char → Bool} {c : Char} (hc : p c = false) (s : List Char) :
    trimEndMatches p (c :: s) = c :: trimEndMatches p s := by
  unfold trimEndMatches
  rw [List.reverse_cons, List.dropWhile_append]
  split
  · next h =>
    rw [List.isEmpty_iff] at h
    rw [h, List.dropWhile_cons, hc]
    rfl
  · rw [List.reverse_append]
    rfl

theorem trimStart_length (s : List Char) : (trimStart s).length ≤ s.length := (List.dropWhile_sublist _).length_le

theorem trimStart_head (h : (trimStart s).head? = some c) : isWhitespace c = false := by
  have hnot := List.head?_dropWhile_not isWhitespace s
  unfold trimStart at h
  rw [h] at hnot
  exact hnot

theorem trimStart_eq_self (h : ∀ c, s.head? = some c → isWhitespace c = false) : trimStart s = s := by
  cases s with
  | nil => rfl
  | cons c s => rw [trimStart, List.dropWhile_cons_of_neg (by simp [h c rfl])]

theorem trimStart_append (ha : a.all isWhitespace = true) (s : List Char) : trimStart (a ++ s) = trimStart s :=
  List.dropWhile_append_of_pos (List.all_eq_true.mp ha)

/-! Both sides. -/

theorem trim_length (s : List Char) : (trim s).length ≤ s.length := by
  have h1 := (List.dropWhile_sublist (l := (trimStart s).reverse) (p := isWhitespace)).length_le
  have h2 := trimStart_length s
  unfold trim trimEndMatches
  rw [List.length_reverse]
  rw [List.length_reverse] at h1
  omega

theorem head_trim (s : List Char) : (trim s).head? = (trimStart s).head? := by
  unfold trim
  cases h : trimStart s with
  | nil => rfl
  | cons c t =>
    have hhead : (trimStart s).head? = some c := by rw [h]; rfl
    rw [trimEndMatches_cons (trimStart_head hhead)]
    rfl

theorem trim_first (h : (trim s).head? = some c) : isWhitespace c = false := trimStart_head (head_trim s ▸ h)

theorem trim_last (h : (trim s).getLast? = some c) : isWhitespace c = false := trimEndMatches_last h

theorem trim_split (s : List Char) :
    ∃ a b, s = a ++ (trim s ++ b) ∧ a.all isWhitespace = true ∧ b.all isWhitespace = true := by
  obtain ⟨b, hb, hwhite⟩ := trimEndMatches_split isWhitespace (trimStart s)
  refine ⟨s.takeWhile isWhitespace, b, ?_, List.all_takeWhile, hwhite⟩
  rw [trim, ← hb, trimStart, List.takeWhile_append_dropWhile]

theorem mem_of_mem_trim (h : c ∈ trim s) : c ∈ s := by
  obtain ⟨a, b, hs, -, -⟩ := trim_split s
  rw [hs]
  exact List.mem_append_right _ (List.mem_append_left _ h)

theorem trim_eq_self_of_ends (hfirst : ∀ c, s.head? = some c → isWhitespace c = false)
    (hlast : ∀ c, s.getLast? = some c → isWhitespace c = false) : trim s = s := by
  rw [trim, trimStart_eq_self hfirst, trimEndMatches_eq_self hlast]

theorem trim_of_ends {x y : Char} (hhead : s.head? = some x) (hlast : s.getLast? = some y)
    (hx : isWhitespace x = false) (hy : isWhitespace y = false) : trim s = s := by
  apply trim_eq_self_of_ends
  · intro c hc
    rwa [← Option.some.inj (hhead.symm.trans hc)]
  · intro c hc
    rwa [← Option.some.inj (hlast.symm.trans hc)]

theorem trim_eq_self (h : ∀ c ∈ s, isWhitespace c = false) : trim s = s :=
  trim_eq_self_of_ends (fun c hc => h c (List.mem_of_mem_head? hc)) fun c hc => h c (List.mem_of_mem_getLast? hc)

theorem trim_trim (s : List Char) : trim (trim s) = trim s :=
  trim_eq_self_of_ends (fun _ => trim_first) fun _ => trim_last

/-- White space around a text makes no difference. -/
theorem trim_append (ha : a.all isWhitespace = true) (hb : b.all isWhitespace = true) (s : List Char) :
    trim (a ++ (s ++ b)) = trim s := by
  have hstart : trimEndMatches isWhitespace (trimStart (s ++ b)) = trimEndMatches isWhitespace (trimStart s) := by
    unfold trimStart
    rw [List.dropWhile_append]
    split
    · next h =>
      have hnil : b.dropWhile isWhitespace = [] := List.dropWhile_eq_nil_iff.mpr (List.all_eq_true.mp hb)
      rw [List.isEmpty_iff.mp h, hnil]
    · exact trimEndMatches_append _ hb
  rw [trim, trimStart_append ha, hstart, ← trim]

theorem trim_eq_nil_iff : trim s = [] ↔ s.all isWhitespace = true := by
  constructor
  · intro h
    obtain ⟨a, b, hs, ha, hb⟩ := trim_split s
    rw [hs, h, List.nil_append, List.all_append, ha, hb]
    rfl
  · intro h
    have := trim_append (b := []) h rfl []
    rwa [List.append_nil, List.append_nil] at this

end Ferogram.Parsers
