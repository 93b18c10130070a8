import Ferogram.Lib.Bytes

/- Writers that may fail, and readers of what they wrote.

   `writeAll w` writes the elements of a list behind each other, if `w` writes every one of
   them. Two facts tie it to `Reader.many`: a reader that gives every element back gives the
   list back (`many_of_writes`), and one that gave the list back gave every element back and
   stopped where its bytes ended (`writes_of_many`). -/
namespace PartialWriter
open Reader

variable {ε α : Type} {w w' : α → Option (List UInt8)}

def writeAll (w : α → Option (List UInt8)) : List α → Option (List UInt8)
  | [] => some []
  | x :: xs => (w x).bind fun b => (writeAll w xs).map (b ++ ·)

@[simp] theorem writeAll_nil : writeAll w [] = some [] := rfl

theorem writeAll_cons_some {x : α} {xs : List α} {b c : List UInt8} (hx : w x = some b)
    (hxs : writeAll w xs = some c) : writeAll w (x :: xs) = some (b ++ c) := by
  rw [writeAll, hx, Option.bind_some, hxs, Option.map_some]

theorem writeAll_cons {x : α} {xs : List α} {b : List UInt8} (h : writeAll w (x :: xs) = some b) :
    ∃ c d, w x = some c ∧ writeAll w xs = some d ∧ b = c ++ d := by
  obtain ⟨c, hc, h⟩ := Option.bind_eq_some_iff.mp h
  obtain ⟨d, hd, h⟩ := Option.map_eq_some_iff.mp h
  exact ⟨c, d, hc, hd, h.symm⟩

theorem writeAll_append_some {xs ys : List α} {b c : List UInt8} (hxs : writeAll w xs = some b)
    (hys : writeAll w ys = some c) : writeAll w (xs ++ ys) = some (b ++ c) := by
  induction xs generalizing b with
  | nil =>
    cases hxs
    exact hys
  | cons x xs ih =>
    obtain ⟨d, e, hd, he, rfl⟩ := writeAll_cons hxs
    rw [List.append_assoc]
    exact writeAll_cons_some hd (ih he)

theorem writeAll_append {xs ys : List α} {b : List UInt8} (h : writeAll w (xs ++ ys) = some b) :
    ∃ c d, writeAll w xs = some c ∧ writeAll w ys = some d ∧ b = c ++ d := by
  induction xs generalizing b with
  | nil => exact ⟨[], b, rfl, h, rfl⟩
  | cons x xs ih =>
    obtain ⟨c, d, hc, hd, rfl⟩ := writeAll_cons h
    obtain ⟨e, f, he, hf, rfl⟩ := ih hd
    exact ⟨c ++ e, f, writeAll_cons_some hc he, hf, (List.append_assoc c e f).symm⟩

theorem writeAll_mem {xs : List α} {x : α} {b : List UInt8} (h : writeAll w xs = some b) (hx : x ∈ xs) :
    ∃ c, w x = some c := by
  induction xs generalizing b with
  | nil => cases hx
  | cons y ys ih =>
    obtain ⟨c, d, hc, hd, -⟩ := writeAll_cons h
    rcases List.mem_cons.mp hx with rfl | hx
    · exact ⟨c, hc⟩
    · exact ih hd hx

/-- What a writer writes, one that can do more writes too. -/
theorem writeAll_mono (hw : ∀ x c, w x = some c → w' x = some c) {xs : List α} {b : List UInt8}
    (h : writeAll w xs = some b) : writeAll w' xs = some b := by
  induction xs generalizing b with
  | nil => exact h
  | cons x xs ih =>
    obtain ⟨c, d, hc, hd, rfl⟩ := writeAll_cons h
    exact writeAll_cons_some (hw x c hc) (ih hd)

variable {p : Reader ε α}

theorem many_of_writes {xs : List α}
    (h : ∀ x ∈ xs, ∃ b, w x = some b ∧ ∀ rest, p.run (b ++ rest) = .ok (x, rest)) :
    ∃ b, writeAll w xs = some b ∧ ∀ rest, (many p xs.length).run (b ++ rest) = .ok (xs, rest) := by
  induction xs with
  | nil => exact ⟨[], rfl, fun rest => rfl⟩
  | cons x xs ih =>
    obtain ⟨b, hb, hread⟩ := h x List.mem_cons_self
    obtain ⟨c, hc, hreads⟩ := ih fun y hy => h y (List.mem_cons_of_mem x hy)
    refine ⟨b ++ c, writeAll_cons_some hb hc, fun rest => ?_⟩
    rw [List.append_assoc, List.length_cons, many, bind_of_ok (hread _), bind_of_ok (hreads _)]
    rfl

theorem writes_of_many {good : α → Prop} {xs : List α} {b rest rest' : List UInt8}
    (hp : ∀ x ∈ xs, ∀ b r r', w x = some b → p.run (b ++ r) = .ok (x, r') → good x ∧ r' = r)
    (hw : writeAll w xs = some b) (h : (many p xs.length).run (b ++ rest) = .ok (xs, rest')) :
    (∀ x ∈ xs, good x) ∧ rest' = rest := by
  induction xs generalizing b with
  | nil =>
    cases hw
    obtain ⟨-, hr⟩ := pure_ok h
    exact ⟨fun x hx => absurd hx List.not_mem_nil, hr⟩
  | cons x xs ih =>
    obtain ⟨c, d, hc, hd, rfl⟩ := writeAll_cons hw
    rw [List.append_assoc] at h
    obtain ⟨y, mid, hy, h⟩ := bind_ok h
    obtain ⟨ys, mid', hys, h⟩ := bind_ok h
    obtain ⟨heq, rfl⟩ := pure_ok h
    obtain ⟨rfl, rfl⟩ := List.cons.inj heq
    obtain ⟨hx, rfl⟩ := hp x List.mem_cons_self _ _ _ hc hy
    obtain ⟨hxs, hr⟩ := ih (fun z hz => hp z (List.mem_cons_of_mem x hz)) hd hys
    exact ⟨List.forall_mem_cons.mpr ⟨hx, hxs⟩, hr⟩

end PartialWriter
