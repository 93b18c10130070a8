import Mathlib.Data.List.Basic
import Mathlib.Order.Basic
import Mathlib.Data.Int.Order.Basic

/- A buffer that puts items back into sequence. Each item covers a stretch of a
   sequence; the buffer knows the position it has reached and holds the items
   that are ahead of it. `place p a` says how position `p` relates to the place
   where `a` starts: at it (`a` is next), past it (`a` is late and dropped), or
   before it (`a` is early and held). After every item the held ones are arranged
   and drained.

   Two results. Whatever `place` and the arrangement are, what is released is
   linked: each item was next at the position the one before it led to
   (`run_linked`). And where `place` is the comparison of numbers and the
   arrangement sorts by them, feeding exactly the items of a chain, in any order
   and with any repetitions, releases the chain, once and in order, and leaves
   nothing held (`run_chain`). -/
namespace Reorder
variable {π α : Type}

/-- The position reached and the items ahead of it. -/
structure Buffer (π α : Type) where
  pos : π
  held : List α

section Machine
variable (place : π → α → Ordering) (fin : α → π) (arrange : List α → List α)

/-- Release what is next, drop what is late, stop at what is early. The result
is the position reached, what was released and what is left. -/
def drain (p : π) : List α → π × List α × List α
  | [] => (p, [], [])
  | a :: l =>
    match place p a with
    | .eq => ((drain (fin a) l).1, a :: (drain (fin a) l).2.1, (drain (fin a) l).2.2)
    | .gt => drain p l
    | .lt => (p, [], a :: l)

def accept (b : Buffer π α) (a : α) : Buffer π α × List α :=
  match place b.pos a with
  | .eq => ({ b with pos := fin a }, [a])
  | .gt => (b, [])
  | .lt => ({ b with held := b.held ++ [a] }, [])

/-- One item. What is left of the drained stack is held again, its top last. -/
def feed (b : Buffer π α) (a : α) : Buffer π α × List α :=
  let x := accept place fin b a
  let r := drain place fin x.1.pos (arrange x.1.held)
  ({ pos := r.1, held := r.2.2.reverse }, x.2 ++ r.2.1)

/-- One item after another; the releases in order. -/
def run (b : Buffer π α) (l : List α) : Buffer π α × List α :=
  l.foldl (fun x a =>
    ((feed place fin arrange x.1 a).1, x.2 ++ (feed place fin arrange x.1 a).2)) (b, [])

/-- Each item is next at the position the one before it leads to. -/
def Linked (p : π) : List α → π → Prop
  | [], q => q = p
  | a :: l, q => place p a = .eq ∧ Linked (fin a) l q

/-- A position the buffer is at while it releases `out` from `p` on. -/
def Reached (p : π) (out : List α) (q : π) : Prop := q = p ∨ ∃ a ∈ out, q = fin a

end Machine

section Linked
variable {place : π → α → Ordering} {fin : α → π} {arrange : List α → List α}

theorem Linked.append : ∀ {l₁ l₂ : List α} {p q r : π},
    Linked place fin p l₁ q → Linked place fin q l₂ r → Linked place fin p (l₁ ++ l₂) r
  | [], _, _, _, _, h₁, h₂ => by
    cases h₁
    exact h₂
  | _ :: _, _, _, _, _, h₁, h₂ => ⟨h₁.1, Linked.append h₁.2 h₂⟩

/-- A property of positions that the elements carry on holds along the way. -/
theorem Linked.reached {C : π → Prop} {S : α → Prop}
    (hC : ∀ p a, C p → S a → place p a = .eq → C (fin a)) : ∀ {l : List α} {p q : π},
    Linked place fin p l q → C p → (∀ a ∈ l, S a) →
    C q ∧ ∀ a ∈ l, ∃ p', C p' ∧ place p' a = .eq
  | [], p, q, h, hp, _ => by
    cases h
    exact ⟨hp, by simp⟩
  | a :: l, p, q, h, hp, hS => by
    have ha := hC p a hp (hS a (by simp)) h.1
    obtain ⟨hq, hall⟩ := Linked.reached hC h.2 ha (fun x hx => hS x (List.mem_cons_of_mem a hx))
    refine ⟨hq, fun x hx => ?_⟩
    rcases List.mem_cons.mp hx with rfl | hx
    · exact ⟨p, hp, h.1⟩
    · exact hall x hx

theorem drain_linked : ∀ (l : List α) (p : π),
    Linked place fin p (drain place fin p l).2.1 (drain place fin p l).1
  | [], _ => rfl
  | a :: l, p => by
    unfold drain
    split
    · next h => exact ⟨h, drain_linked l (fin a)⟩
    · exact drain_linked l p
    · rfl

theorem accept_linked (b : Buffer π α) (a : α) :
    Linked place fin b.pos (accept place fin b a).2 (accept place fin b a).1.pos := by
  unfold accept
  split
  · next h => exact ⟨h, rfl⟩
  · rfl
  · rfl

theorem feed_linked (b : Buffer π α) (a : α) :
    Linked place fin b.pos (feed place fin arrange b a).2 (feed place fin arrange b a).1.pos :=
  (accept_linked b a).append (drain_linked _ _)

/-- The fold of `run` over any releases made before. -/
theorem foldl_feed (l : List α) : ∀ (b : Buffer π α) (out : List α),
    l.foldl (fun x a =>
      ((feed place fin arrange x.1 a).1, x.2 ++ (feed place fin arrange x.1 a).2)) (b, out) =
    ((run place fin arrange b l).1, out ++ (run place fin arrange b l).2) := by
  induction l with
  | nil => intro b out; simp [run]
  | cons a l ih =>
    intro b out
    unfold run
    rw [List.foldl_cons, List.foldl_cons, ih, ih]
    simp [List.append_assoc]

theorem run_cons (b : Buffer π α) (a : α) (l : List α) :
    run place fin arrange b (a :: l) =
      ((run place fin arrange (feed place fin arrange b a).1 l).1,
        (feed place fin arrange b a).2 ++
          (run place fin arrange (feed place fin arrange b a).1 l).2) := by
  conv_lhs => unfold run
  rw [List.foldl_cons, foldl_feed]
  simp

/-- Where linked items lead to is a position on their way. -/
theorem Linked.leads {l : List α} {p q : π} (h : Linked place fin p l q) : Reached fin p l q :=
  (h.reached (C := fun q => q = p ∨ ∃ a ∈ l, q = fin a) (S := fun a => a ∈ l)
    (fun _ a _ ha _ => Or.inr ⟨a, ha, rfl⟩) (Or.inl rfl) (fun _ ha => ha)).1

/-- A drained item is released, or left, or late at a position on the way. -/
theorem drain_cases {a : α} : ∀ {l : List α} {p : π}, a ∈ l →
    a ∈ (drain place fin p l).2.1 ∨
    (∃ q, Reached fin p (drain place fin p l).2.1 q ∧ place q a = .gt) ∨
    a ∈ (drain place fin p l).2.2
  | b :: l, p, ha => by
    unfold drain
    split
    · -- released: the rest is drained from where it leads
      rcases List.mem_cons.mp ha with rfl | ha
      · exact Or.inl (by simp)
      · rcases drain_cases (p := fin b) ha with h | ⟨q, hq, h⟩ | h
        · exact Or.inl (List.mem_cons_of_mem b h)
        · refine Or.inr (Or.inl ⟨q, Or.inr ?_, h⟩)
          rcases hq with rfl | ⟨x, hx, rfl⟩
          · exact ⟨b, by simp, rfl⟩
          · exact ⟨x, List.mem_cons_of_mem b hx, rfl⟩
        · exact Or.inr (Or.inr h)
    · next hlate =>
      rcases List.mem_cons.mp ha with rfl | ha
      · exact Or.inr (Or.inl ⟨p, Or.inl rfl, hlate⟩)
      · exact drain_cases ha
    · exact Or.inr (Or.inr ha)

/-- An item fed is released, or held, or late at a position on the way. -/
theorem feed_cases (harr : ∀ l, (arrange l).Perm l) (b : Buffer π α) (a : α) :
    a ∈ (feed place fin arrange b a).2 ∨
    (∃ q, Reached fin b.pos (feed place fin arrange b a).2 q ∧ place q a = .gt) ∨
    a ∈ (feed place fin arrange b a).1.held := by
  unfold feed accept
  cases hp : place b.pos a with
  | eq => exact Or.inl (by simp)
  | gt => exact Or.inr (Or.inl ⟨b.pos, Or.inl rfl, hp⟩)
  | lt =>
    have ha : a ∈ arrange (b.held ++ [a]) := (harr _).mem_iff.mpr (by simp)
    simpa using drain_cases ha

/-- An item that is next is released, and the buffer ends up where a released item leads. -/
theorem feed_of_next {b : Buffer π α} {a : α} (h : place b.pos a = .eq) :
    a ∈ (feed place fin arrange b a).2 ∧
    ∃ x ∈ (feed place fin arrange b a).2, (feed place fin arrange b a).1.pos = fin x := by
  have hdrain : Reached fin (fin a) (drain place fin (fin a) (arrange b.held)).2.1
      (drain place fin (fin a) (arrange b.held)).1 := (drain_linked _ _).leads
  simp only [feed, accept, h, List.singleton_append]
  refine ⟨by simp, ?_⟩
  rcases hdrain with hpos | ⟨x, hx, hpos⟩
  · exact ⟨a, by simp, hpos⟩
  · exact ⟨x, List.mem_cons_of_mem a hx, hpos⟩

/-- What a run releases is linked, from the first position to the last. -/
theorem run_linked : ∀ (l : List α) (b : Buffer π α),
    Linked place fin b.pos (run place fin arrange b l).2 (run place fin arrange b l).1.pos
  | [], _ => rfl
  | a :: l, b => by
    rw [run_cons]
    exact (feed_linked b a).append (run_linked l _)

/-- An item that is next is the first to be released. -/
theorem run_cons_of_next {b : Buffer π α} {a : α} (h : place b.pos a = .eq) (l : List α) :
    ∃ rest, (run place fin arrange b (a :: l)).2 = a :: rest := by
  rw [run_cons]
  simp [feed, accept, h]

theorem mem_drain {a : α} : ∀ {l : List α} {p : π},
    a ∈ (drain place fin p l).2.1 ∨ a ∈ (drain place fin p l).2.2 → a ∈ l
  | [], _, h => by simp [drain] at h
  | b :: l, p, h => by
    unfold drain at h
    split at h
    · simp only [List.mem_cons] at h ⊢
      rcases h with (h | h) | h
      · exact Or.inl h
      · exact Or.inr (mem_drain (Or.inl h))
      · exact Or.inr (mem_drain (Or.inr h))
    · exact List.mem_cons_of_mem b (mem_drain h)
    · simpa using h

/-- Nothing is released or held that was not fed or held before. -/
theorem mem_feed (harr : ∀ l, (arrange l).Perm l) {b : Buffer π α} {a x : α}
    (h : x ∈ (feed place fin arrange b a).2 ∨ x ∈ (feed place fin arrange b a).1.held) :
    x = a ∨ x ∈ b.held := by
  have haccept : x ∈ (accept place fin b a).2 ∨ x ∈ (accept place fin b a).1.held →
      x = a ∨ x ∈ b.held := by
    unfold accept
    split
    · simp
    · simpa using Or.inr
    · simp only [List.not_mem_nil, false_or, List.mem_append, List.mem_singleton]
      exact Or.symm
  simp only [feed, List.mem_append, List.mem_reverse] at h
  rcases h with (h | h) | h
  · exact haccept (Or.inl h)
  · exact haccept (Or.inr ((harr _).mem_iff.mp (mem_drain (Or.inl h))))
  · exact haccept (Or.inr ((harr _).mem_iff.mp (mem_drain (Or.inr h))))

/-- A late item is not released; at most what was held is. -/
theorem mem_feed_of_late (harr : ∀ l, (arrange l).Perm l) {b : Buffer π α} {a x : α}
    (hlate : place b.pos a = .gt) (h : x ∈ (feed place fin arrange b a).2) : x ∈ b.held := by
  have haccept : accept place fin b a = (b, []) := by simp [accept, hlate]
  simp only [feed, haccept, List.nil_append] at h
  exact (harr _).mem_iff.mp (mem_drain (Or.inl h))

/-- With nothing held, an item that is not next releases nothing. -/
theorem feed_empty (harr : ∀ l, (arrange l).Perm l) {b : Buffer π α} {a : α} (hheld : b.held = [])
    (hnext : place b.pos a ≠ .eq) : (feed place fin arrange b a).2 = [] := by
  have hnil : arrange [] = [] := (harr []).eq_nil
  have hone : arrange [a] = [a] := List.perm_singleton.mp (harr [a])
  cases hp : place b.pos a with
  | eq => exact absurd hp hnext
  | gt => simp [feed, accept, hp, hheld, hnil, drain]
  | lt => simp [feed, accept, hp, hheld, hone, drain]

/-- Over a run, too, nothing is released or held that was not fed or held before. -/
theorem mem_run (harr : ∀ l, (arrange l).Perm l) {x : α} : ∀ {l : List α} {b : Buffer π α},
    x ∈ (run place fin arrange b l).2 ∨ x ∈ (run place fin arrange b l).1.held →
    x ∈ l ∨ x ∈ b.held
  | [], _, h => by
    simp only [run, List.foldl_nil, List.not_mem_nil, false_or] at h
    exact Or.inr h
  | a :: l, b, h => by
    rw [run_cons] at h
    have hfeed : x ∈ (feed place fin arrange b a).2 ∨ x ∈ (feed place fin arrange b a).1.held →
        x ∈ a :: l ∨ x ∈ b.held := by
      intro h
      rcases mem_feed harr h with rfl | h
      · exact Or.inl (by simp)
      · exact Or.inr h
    have hrest : x ∈ l ∨ x ∈ (feed place fin arrange b a).1.held → x ∈ a :: l ∨ x ∈ b.held := by
      rintro (h | h)
      · exact Or.inl (List.mem_cons_of_mem a h)
      · exact hfeed (Or.inr h)
    rcases h with h | h
    · rcases List.mem_append.mp h with h | h
      · exact hfeed (Or.inl h)
      · exact hrest (mem_run harr (Or.inl h))
    · exact hrest (mem_run harr (Or.inr h))

end Linked

/-! Chains: items that each start where the one before ends. -/

section Chain
variable (val : π → Int) (start : α → Int) (fin : α → π)

/-- The items lead from `p` on without a gap, and each leads further. -/
def Chain (p : π) : List α → Prop
  | [] => True
  | a :: l => start a = val p ∧ val p < val (fin a) ∧ Chain (fin a) l

/-- Where the items lead. -/
def finish (p : π) (l : List α) : π := l.foldl (fun _ a => fin a) p

variable {val start fin}

theorem Chain.append : ∀ {l₁ l₂ : List α} {p : π},
    Chain val start fin p (l₁ ++ l₂) ↔
      Chain val start fin p l₁ ∧ Chain val start fin (finish fin p l₁) l₂
  | [], _, _ => by simp [Chain, finish]
  | a :: l₁, l₂, p => by
    have ih : Chain val start fin (fin a) (l₁ ++ l₂) ↔ _ := Chain.append
    change (_ ∧ _ ∧ Chain val start fin (fin a) (l₁ ++ l₂)) ↔ (_ ∧ _ ∧ _) ∧ _
    rw [ih]
    exact ⟨fun ⟨h1, h2, h3, h4⟩ => ⟨⟨h1, h2, h3⟩, h4⟩, fun ⟨⟨h1, h2, h3⟩, h4⟩ => ⟨h1, h2, h3, h4⟩⟩

theorem Chain.le_finish : ∀ {l : List α} {p : π}, Chain val start fin p l →
    val p ≤ val (finish fin p l)
  | [], _, _ => Int.le_refl _
  | _ :: l, _, h => Int.le_trans (Int.le_of_lt h.2.1) (Chain.le_finish (l := l) h.2.2)

/-- Every item starts between the two ends. -/
theorem Chain.start_mem : ∀ {l : List α} {p : π}, Chain val start fin p l →
    ∀ a ∈ l, val p ≤ start a ∧ start a < val (finish fin p l)
  | b :: l, p, h, a, ha => by
    rcases List.mem_cons.mp ha with rfl | ha
    · rw [h.1]
      exact ⟨Int.le_refl _, Int.lt_of_lt_of_le h.2.1 (Chain.le_finish h.2.2)⟩
    · obtain ⟨h1, h2⟩ := Chain.start_mem h.2.2 a ha
      exact ⟨Int.le_trans (Int.le_of_lt h.2.1) h1, h2⟩

theorem Chain.fin_le : ∀ {l : List α} {p : π}, Chain val start fin p l →
    ∀ a ∈ l, val (fin a) ≤ val (finish fin p l)
  | b :: l, p, h, a, ha => by
    rcases List.mem_cons.mp ha with rfl | ha
    · exact Chain.le_finish h.2.2
    · exact Chain.fin_le h.2.2 a ha

/-- The position a chain leads to is the first one or the end of an item. -/
theorem finish_mem (p : π) (l : List α) : finish fin p l = p ∨ ∃ a ∈ l, finish fin p l = fin a := by
  rcases List.eq_nil_or_concat l with rfl | ⟨l', a, rfl⟩
  · exact Or.inl rfl
  · exact Or.inr ⟨a, by simp, by simp [finish]⟩

end Chain

section Complete
variable {place : π → α → Ordering} {fin : α → π} {arrange : List α → List α}
variable {val : π → Int} {start : α → Int} {p₀ : π} {c : List α}

/-- A chain the machine reads as numbers: on its items, `place` compares and
`arrange` sorts. The items that can be held are those past the first position. -/
structure Numbered (place : π → α → Ordering) (fin : α → π) (arrange : List α → List α)
    (val : π → Int) (start : α → Int) (p₀ : π) (c : List α) : Prop where
  chain : Chain val start fin p₀ c
  place_eq : ∀ p, (p = p₀ ∨ ∃ a ∈ c, p = fin a) → ∀ a ∈ c, place p a = compare (val p) (start a)
  perm : ∀ l, (arrange l).Perm l
  sorted : ∀ l, (∀ a ∈ l, a ∈ c ∧ val p₀ < start a) →
    (arrange l).Pairwise (fun a b => start a ≤ start b)

/-- The machine has released `done` of the chain `done ++ todo`. -/
structure Split (p₀ : π) (c done todo : List α) (fin : α → π) (pos : π) : Prop where
  eq : c = done ++ todo
  pos : pos = finish fin p₀ done

namespace Split
variable {done todo : List α} {pos : π} (hc : Numbered place fin arrange val start p₀ c)
include hc

theorem place_eq (h : Split p₀ c done todo fin pos) {a : α} (ha : a ∈ c) :
    place pos a = compare (val pos) (start a) := by
  refine hc.place_eq pos ?_ a ha
  rcases finish_mem p₀ done with hp | ⟨b, hb, hp⟩
  · exact Or.inl (h.pos.trans hp)
  · exact Or.inr ⟨b, by rw [h.eq]; exact List.mem_append_left _ hb, h.pos.trans hp⟩

theorem start_lt (h : Split p₀ c done todo fin pos) {a : α} (ha : a ∈ done) :
    start a < val pos := by
  have hch := hc.chain
  rw [h.eq, Chain.append] at hch
  rw [h.pos]
  exact (hch.1.start_mem a ha).2

theorem chain_todo (h : Split p₀ c done todo fin pos) : Chain val start fin pos todo := by
  have hch := hc.chain
  rw [h.eq, Chain.append] at hch
  rw [h.pos]
  exact hch.2

theorem le_pos (h : Split p₀ c done todo fin pos) : val p₀ ≤ val pos := by
  have hch := hc.chain
  rw [h.eq, Chain.append] at hch
  rw [h.pos]
  exact hch.1.le_finish

theorem le_start (h : Split p₀ c done todo fin pos) {a : α} (ha : a ∈ todo) :
    val pos ≤ start a := ((h.chain_todo hc).start_mem a ha).1

theorem mem_todo (h : Split p₀ c done todo fin pos) {a : α} (ha : a ∈ c)
    (hpos : val pos ≤ start a) : a ∈ todo := by
  rw [h.eq] at ha
  rcases List.mem_append.mp ha with ha | ha
  · exact absurd (h.start_lt hc ha) (Int.not_lt.mpr hpos)
  · exact ha

omit hc in
/-- Releasing the next item. -/
theorem next {a : α} {rest : List α} (h : Split p₀ c done (a :: rest) fin pos) :
    Split p₀ c (done ++ [a]) rest fin (fin a) where
  eq := by rw [h.eq]; simp
  pos := by simp [finish]

/-- The item that starts at the position is the first one still to come. -/
theorem eq_head (h : Split p₀ c done todo fin pos) {a : α} (ha : a ∈ todo)
    (hs : start a = val pos) : ∃ rest, todo = a :: rest := by
  have hch := h.chain_todo hc
  cases todo with
  | nil => cases ha
  | cons b rest =>
    rcases List.mem_cons.mp ha with rfl | ha
    · exact ⟨rest, rfl⟩
    · have := (hch.2.2.start_mem a ha).1
      exact absurd (Int.lt_of_lt_of_le hch.2.1 this) (by rw [hs]; exact Int.lt_irrefl _)

end Split

/-- What a drain of sorted items of the chain does: it releases the next stretch
of the chain and keeps what lies beyond it, none of it next. -/
theorem drain_chain (hc : Numbered place fin arrange val start p₀ c) :
    ∀ (l done todo : List α) (p : π), Split p₀ c done todo fin p →
      l.Pairwise (fun a b => start a ≤ start b) → (∀ a ∈ l, a ∈ c) →
      ∃ d t, todo = d ++ t ∧ (drain place fin p l).2.1 = d ∧
        Split p₀ c (done ++ d) t fin (drain place fin p l).1 ∧
        (∀ a ∈ (drain place fin p l).2.2, a ∈ t ∧ start a ≠ val (drain place fin p l).1) ∧
        (∀ a ∈ l, a ∈ t → a ∈ (drain place fin p l).2.2)
  | [], done, todo, p, hsp, _, _ =>
    ⟨[], todo, rfl, rfl, by simpa [drain] using hsp, by simp [drain], by simp⟩
  | a :: l, done, todo, p, hsp, hsort, hmem => by
    obtain ⟨hle, hsort'⟩ := List.pairwise_cons.mp hsort
    have ha : a ∈ c := hmem a (by simp)
    have hmem' : ∀ b ∈ l, b ∈ c := fun b hb => hmem b (List.mem_cons_of_mem a hb)
    have hplace := hsp.place_eq hc ha
    rcases Int.lt_trichotomy (val p) (start a) with hlt | heq | hgt
    · -- early: everything below it in the stack is early too
      have hord : place p a = .lt := by rw [hplace]; exact compare_lt_iff_lt.mpr hlt
      have hbeyond : ∀ b ∈ a :: l, val p < start b := by
        intro b hb
        rcases List.mem_cons.mp hb with rfl | hb
        · exact hlt
        · exact Int.lt_of_lt_of_le hlt (hle b hb)
      have hdrain : drain place fin p (a :: l) = (p, [], a :: l) := by simp [drain, hord]
      rw [hdrain]
      refine ⟨[], todo, rfl, rfl, by simpa using hsp, fun b hb => ⟨?_, ?_⟩, fun b hb _ => hb⟩
      · exact hsp.mem_todo hc (hmem b hb) (Int.le_of_lt (hbeyond b hb))
      · exact (Int.ne_of_lt (hbeyond b hb)).symm
    · -- next: it is the head of what is to come
      have hord : place p a = .eq := by rw [hplace]; exact compare_eq_iff_eq.mpr heq
      obtain ⟨rest, rfl⟩ := hsp.eq_head hc (hsp.mem_todo hc ha (Int.le_of_eq heq)) heq.symm
      obtain ⟨d, t, h1, h2, h3, h4, h5⟩ :=
        drain_chain hc l (done ++ [a]) rest (fin a) hsp.next hsort' hmem'
      have hdrain : drain place fin p (a :: l) =
          ((drain place fin (fin a) l).1, a :: (drain place fin (fin a) l).2.1,
            (drain place fin (fin a) l).2.2) := by simp [drain, hord]
      rw [hdrain]
      refine ⟨a :: d, t, by rw [h1]; rfl, by rw [h2], by simpa using h3, h4, fun b hb hbt => ?_⟩
      rcases List.mem_cons.mp hb with rfl | hb
      · -- a released item is not among those to come
        have : start b < val (drain place fin (fin b) l).1 := h3.start_lt hc (by simp)
        exact absurd (h3.le_start hc hbt) (Int.not_le.mpr this)
      · exact h5 b hb hbt
    · -- late: it was released before
      have hord : place p a = .gt := by rw [hplace]; exact compare_gt_iff_gt.mpr hgt
      obtain ⟨d, t, h1, h2, h3, h4, h5⟩ := drain_chain hc l done todo p hsp hsort' hmem'
      have hdrain : drain place fin p (a :: l) = drain place fin p l := by simp [drain, hord]
      rw [hdrain]
      refine ⟨d, t, h1, h2, h3, h4, fun b hb hbt => ?_⟩
      rcases List.mem_cons.mp hb with rfl | hb
      · have : val p ≤ start b := hsp.le_start hc (by rw [h1]; exact List.mem_append_right _ hbt)
        exact absurd this (Int.not_le.mpr hgt)
      · exact h5 b hb hbt

/-- The state after some items of the chain were fed: a first stretch of it has
been released, what was fed beyond it is held, and the next item was not fed. -/
structure Caught (place : π → α → Ordering) (fin : α → π) (arrange : List α → List α)
    (val : π → Int) (start : α → Int) (p₀ : π) (c fed : List α) (b : Buffer π α)
    (out : List α) : Prop where
  split : ∃ todo, Split p₀ c out todo fin b.pos ∧
    (∀ a ∈ b.held, a ∈ todo ∧ start a ≠ val b.pos) ∧ (∀ a ∈ fed, a ∈ todo → a ∈ b.held)

theorem Caught.feed (hc : Numbered place fin arrange val start p₀ c) {fed out : List α}
    {b : Buffer π α} (h : Caught place fin arrange val start p₀ c fed b out) {a : α} (ha : a ∈ c) :
    Caught place fin arrange val start p₀ c (a :: fed) (feed place fin arrange b a).1
      (out ++ (feed place fin arrange b a).2) := by
  obtain ⟨todo, hsp, hheld, hfed⟩ := h.split
  -- after `accept`: `out'` released, `held'` ahead
  obtain ⟨todo', hsp', hheld', hfed'⟩ : ∃ todo',
      Split p₀ c (out ++ (accept place fin b a).2) todo' fin (accept place fin b a).1.pos ∧
      (∀ x ∈ (accept place fin b a).1.held, x ∈ c ∧ val p₀ < start x) ∧
      (∀ x ∈ a :: fed, x ∈ todo' → x ∈ (accept place fin b a).1.held) := by
    have hfirst := hsp.le_pos hc
    have hinc : ∀ x ∈ b.held, x ∈ c ∧ val p₀ < start x := by
      intro x hx
      obtain ⟨hxt, hne⟩ := hheld x hx
      have hle := hsp.le_start hc hxt
      refine ⟨?_, by omega⟩
      rw [hsp.eq]
      exact List.mem_append_right _ hxt
    have hplace := hsp.place_eq hc ha
    unfold accept
    rcases Int.lt_trichotomy (val b.pos) (start a) with hlt | heq | hgt
    · rw [hplace, compare_lt_iff_lt.mpr hlt]
      refine ⟨todo, by simpa using hsp, fun x hx => ?_, fun x hx hxt => ?_⟩
      · rcases List.mem_append.mp hx with hx | hx
        · exact hinc x hx
        · rw [List.mem_singleton] at hx
          subst hx
          exact ⟨ha, by omega⟩
      · rcases List.mem_cons.mp hx with rfl | hx
        · simp
        · exact List.mem_append_left _ (hfed x hx hxt)
    · rw [hplace, compare_eq_iff_eq.mpr heq]
      obtain ⟨rest, rfl⟩ := hsp.eq_head hc (hsp.mem_todo hc ha (Int.le_of_eq heq)) heq.symm
      refine ⟨rest, hsp.next, hinc, fun x hx hxt => ?_⟩
      rcases List.mem_cons.mp hx with rfl | hx
      · have := hsp.next.start_lt hc (a := x) (by simp)
        exact absurd (hsp.next.le_start hc hxt) (Int.not_le.mpr this)
      · exact hfed x hx (List.mem_cons_of_mem a hxt)
    · rw [hplace, compare_gt_iff_gt.mpr hgt]
      refine ⟨todo, by simpa using hsp, hinc, fun x hx hxt => ?_⟩
      rcases List.mem_cons.mp hx with rfl | hx
      · exact absurd (hsp.le_start hc hxt) (Int.not_le.mpr hgt)
      · exact hfed x hx hxt
  obtain ⟨d, t, h1, h2, h3, h4, h5⟩ := drain_chain hc (arrange (accept place fin b a).1.held) _
    todo' _ hsp' (hc.sorted _ hheld') (fun x hx => (hheld' x ((hc.perm _).mem_iff.mp hx)).1)
  refine ⟨t, ?_, fun x hx => h4 x (List.mem_reverse.mp hx), fun x hx hxt => ?_⟩
  · simpa [Reorder.feed, h2] using h3
  · have hx' := hfed' x hx (by rw [h1]; exact List.mem_append_right _ hxt)
    exact List.mem_reverse.mpr (h5 x ((hc.perm _).mem_iff.mpr hx') hxt)

theorem Caught.run (hc : Numbered place fin arrange val start p₀ c) :
    ∀ (l fed out : List α) (b : Buffer π α),
      Caught place fin arrange val start p₀ c fed b out → (∀ a ∈ l, a ∈ c) →
      Caught place fin arrange val start p₀ c (l.reverse ++ fed) (run place fin arrange b l).1
        (out ++ (run place fin arrange b l).2)
  | [], fed, out, b, h, _ => by simpa [Reorder.run] using h
  | a :: l, fed, out, b, h, hmem => by
    have h' := Caught.run hc l (a :: fed) _ _ (h.feed hc (hmem a (by simp)))
      (fun x hx => hmem x (List.mem_cons_of_mem a hx))
    rw [run_cons]
    simpa [List.append_assoc] using h'

/-- Feeding exactly the items of a chain, in any order and with any repetitions,
releases the chain and leaves nothing held. -/
theorem run_chain (hc : Numbered place fin arrange val start p₀ c) {l : List α}
    (hsub : ∀ a ∈ l, a ∈ c) (hall : ∀ a ∈ c, a ∈ l) :
    run place fin arrange { pos := p₀, held := [] } l =
      ({ pos := finish fin p₀ c, held := [] }, c) := by
  have hinit : Caught place fin arrange val start p₀ c [] { pos := p₀, held := [] } [] :=
    ⟨c, ⟨rfl, rfl⟩, by simp, by simp⟩
  obtain ⟨todo, hsp, hheld, hfed⟩ := (Caught.run hc l [] [] _ hinit hsub).split
  rcases hr : run place fin arrange { pos := p₀, held := [] } l with ⟨⟨pos, held⟩, out⟩
  rw [hr] at hsp hheld hfed
  simp only [List.nil_append, List.append_nil] at hsp hheld hfed
  -- the next item, if there were one, was fed and would be held
  cases todo with
  | nil =>
    have hheld' : held = [] := by
      rw [List.eq_nil_iff_forall_not_mem]
      intro a ha
      exact absurd (hheld a ha).1 (by simp)
    obtain ⟨heq, hpos⟩ := hsp
    rw [List.append_nil] at heq
    rw [heq, hheld', hpos]
  | cons a rest =>
    have ha : a ∈ c := by rw [hsp.eq]; simp
    have hin := hfed a (List.mem_reverse.mpr (hall a ha)) (by simp)
    exact absurd (hsp.chain_todo hc).1 (hheld a hin).2

end Complete

end Reorder
