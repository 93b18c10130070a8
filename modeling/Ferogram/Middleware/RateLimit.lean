import Ferogram.Lib.Keyed

/- `RateLimitMiddleware` (`ferogram/src/middleware/builtins.rs`). It has a counter and the start of
   a window for every user. An update that comes `window` after the start or later opens a new
   window; within a window the first `max_calls` updates go through.

   Two things are not as promised: queries are counted like messages, and a burst at the end of a
   window does not count against the next one. `limiter_iff` says of a run when neither of the two
   is seen; the users do not disturb one another in any run. -/
namespace Ferogram.Middleware

/-- An update, with the user who sent it. -/
inductive Update where
  | newMessage (sender : Option Int64)
  | messageEdited (sender : Option Int64)
  | callbackQuery (userId : Int64)
  | inlineQuery (userId : Int64)
  | inlineSend (userId : Int64)
  | guestChatQuery (sender : Option Int64)
  | other
  deriving DecidableEq

namespace Update

/-- Whose updates this one is counted with, if it is counted. -/
def senderId : Update → Option Int64
  | .newMessage sender | .messageEdited sender => sender
  | .callbackQuery userId => some userId
  | .inlineQuery userId => some userId
  | .inlineSend userId => some userId
  | .guestChatQuery sender => sender
  | .other => none

def isMessage : Update → Bool
  | .newMessage _ | .messageEdited _ => true
  | _ => false

end Update

/-- An update and the time it comes at. -/
abbrev Event : Type := Nat × Update

structure RateLimit where
  maxCalls : Nat
  window : Nat
  deriving DecidableEq

namespace RateLimit

/-- The count and the start of the window of each user. -/
abbrev State : Type := Assoc Int64 (Nat × Nat)

/-- Whether an update is passed on. The counter stays below `max_calls`, so it does not overflow. -/
def call (lim : RateLimit) (state : State) (e : Event) : Bool × State :=
  match e.2.senderId with
  | none => (true, state)
  | some userId =>
    let (count, windowStart) := (AList.lookup userId state).getD (0, e.1)
    if lim.window ≤ e.1 - windowStart then (true, state.insert userId (1, e.1))
    else if count < lim.maxCalls then (true, state.insert userId (count + 1, windowStart))
    else (false, state.insert userId (count, windowStart))

/-- The updates of a run, each with what became of it. -/
def run (lim : RateLimit) : State → List Event → List (Event × Bool)
  | _, [] => []
  | state, e :: es => (e, (lim.call state e).1) :: run lim (lim.call state e).2 es

/-! The contract. -/

/-- What is no message is passed on. -/
def PassesOthers (lim : RateLimit) (es : List Event) : Prop :=
  ∀ e ∈ lim.run ∅ es, e.1.2.isMessage = false → e.2 = true

/-- In an interval shorter than the window, no more than `max_calls` messages of a user. -/
def Bounded (lim : RateLimit) (es : List Event) : Prop :=
  ∀ user a b, b < a + lim.window →
    (lim.run ∅ es).countP (fun e =>
      e.1.2.isMessage && decide (e.1.2.senderId = some user) && (decide (a ≤ e.1.1) && decide (e.1.1 ≤ b)) && e.2) ≤
      lim.maxCalls

/-- A user's updates fare as they would alone. -/
def Apart (lim : RateLimit) (es : List Event) : Prop :=
  ∀ user, (lim.run ∅ es).filter (fun e => e.1.2.senderId = some user) =
    lim.run ∅ (es.filter fun e => e.2.senderId = some user)

/-! The windows of a user. -/

/-- When a window was opened, how many there were before it, and how many updates came in it. -/
structure Window where
  start : Nat
  number : Nat
  place : Nat
  deriving DecidableEq

/-- The window of an update, after that of the update before it. -/
def place (lim : RateLimit) : Option Window → Event → Window
  | none, e => ⟨e.1, 0, 0⟩
  | some w, e => if lim.window ≤ e.1 - w.start then ⟨e.1, w.number + 1, 0⟩ else { w with place := w.place + 1 }

/-- The counted updates of a user, with their windows. -/
def places (lim : RateLimit) (user : Int64) (es : List Event) : List (Event × Window) :=
  Keyed.run (fun w e => (lim.place w e, lim.place w e)) none (es.filter fun e => e.2.senderId = some user)

/-- How many updates of a window go through. A window that is opened by its time lets one through
    whatever the limit is. -/
def cap (lim : RateLimit) (w : Window) : Nat :=
  if w.number = 0 ∧ 0 < lim.window then lim.maxCalls else max 1 lim.maxCalls

/-- An update that is no message comes while its window has room. -/
def RoomForOthers (lim : RateLimit) (es : List Event) : Prop :=
  ∀ user, ∀ x ∈ lim.places user es, x.1.2.isMessage = false → x.2.place < lim.cap x.2

/-- `y` goes through in the window of `x`, up to `x`, or late in the window before. -/
def Crowds (lim : RateLimit) (x y : Event × Window) : Prop :=
  y.1.2.isMessage = true ∧ y.2.place < lim.cap y.2 ∧
    (y.2.number = x.2.number ∧ y.2.place ≤ x.2.place ∨ y.2.number + 1 = x.2.number) ∧ x.1.1 < y.1.1 + lim.window

instance (lim : RateLimit) (x : Event × Window) : DecidablePred (lim.Crowds x) :=
  fun _ => inferInstanceAs (Decidable (_ ∧ _))

/-- The messages of a window up to one of them, and the late ones of the window before, are no more
    than `max_calls`, where those are meant that are among the first of their window. -/
def NoSpill (lim : RateLimit) (es : List Event) : Prop :=
  ∀ user, ∀ x ∈ lim.places user es, x.1.2.isMessage = true → x.2.place < lim.cap x.2 →
    (lim.places user es).countP (fun y => lim.Crowds x y) ≤ lim.maxCalls

/-! The counter of one user. -/

/-- The counter of a user alone. -/
def count (lim : RateLimit) (entry : Option (Nat × Nat)) (e : Event) : Bool × (Nat × Nat) :=
  let (count, windowStart) := entry.getD (0, e.1)
  if lim.window ≤ e.1 - windowStart then (true, (1, e.1))
  else if count < lim.maxCalls then (true, (count + 1, windowStart))
  else (false, (count, windowStart))

theorem run_eq (lim : RateLimit) : ∀ (es : List Event) (state : State),
    lim.run state es = Keyed.runAll lim.count (fun e => e.2.senderId) true state es
  | [], _ => rfl
  | e :: es, state => by
    unfold run Keyed.runAll
    cases hs : e.2.senderId with
    | none =>
      have hcall : lim.call state e = (true, state) := by
        unfold call
        rw [hs]
      rw [hcall, run_eq lim es]
    | some userId =>
      have hcall : lim.call state e = ((lim.count (AList.lookup userId state) e).1,
          state.insert userId (lim.count (AList.lookup userId state) e).2) := by
        unfold call count
        rw [hs]
        simp only
        split
        · rfl
        · split <;> rfl
      rw [hcall, run_eq lim es]

/-- A counter and the window it stands for. -/
def Counts (lim : RateLimit) : Option (Nat × Nat) → Option Window → Prop
  | none, none => True
  | some entry, some w => entry.2 = w.start ∧ entry.1 = min (w.place + 1) (lim.cap w)
  | _, _ => False

theorem count_first (lim : RateLimit) (e : Event) :
    (lim.count none e).1 = decide ((lim.place none e).place < lim.cap (lim.place none e)) ∧
      lim.Counts (some (lim.count none e).2) (some (lim.place none e)) := by
  have hcap : lim.cap ⟨e.1, 0, 0⟩ = if 0 < lim.window then lim.maxCalls else max 1 lim.maxCalls := by simp [cap]
  unfold count place Counts
  simp only [Option.getD_none, Nat.sub_self, hcap]
  by_cases hw : 0 < lim.window
  · simp only [if_pos hw, if_neg (Nat.not_le.mpr hw)]
    by_cases hmax : 0 < lim.maxCalls
    · simp only [if_pos hmax, decide_eq_true hmax, true_and]
      omega
    · simp only [if_neg hmax, decide_eq_false hmax, true_and]
      omega
  · have hcap1 : 0 < max 1 lim.maxCalls := by omega
    simp only [if_neg hw, if_pos (Nat.not_lt.mp hw), decide_eq_true hcap1, true_and]
    omega

theorem count_next {lim : RateLimit} {entry : Nat × Nat} {w : Window} (e : Event)
    (h : lim.Counts (some entry) (some w)) :
    (lim.count (some entry) e).1 = decide ((lim.place (some w) e).place < lim.cap (lim.place (some w) e)) ∧
      lim.Counts (some (lim.count (some entry) e).2) (some (lim.place (some w) e)) := by
  obtain ⟨hstart, hcount⟩ := h
  have hcap : lim.cap { w with place := w.place + 1 } = lim.cap w := rfl
  unfold count place Counts
  simp only [Option.getD_some, hstart]
  by_cases hopen : lim.window ≤ e.1 - w.start
  · have hcap1 : lim.cap ⟨e.1, w.number + 1, 0⟩ = max 1 lim.maxCalls := by simp [cap]
    have hroom : 0 < max 1 lim.maxCalls := by omega
    simp only [if_pos hopen, hcap1, decide_eq_true hroom, true_and]
    omega
  · simp only [if_neg hopen, hcap]
    -- the limit and the cap differ for a limit of zero only, where the count has reached both
    have hroom : entry.1 < lim.maxCalls ↔ w.place + 1 < lim.cap w := by
      rw [hcount]
      unfold cap
      split <;> omega
    by_cases hmax : entry.1 < lim.maxCalls
    · have := hroom.mp hmax
      rw [if_pos hmax]
      refine ⟨(decide_eq_true this).symm, rfl, ?_⟩
      show entry.1 + 1 = _
      omega
    · have := fun hlt => hmax (hroom.mpr hlt)
      rw [if_neg hmax]
      refine ⟨(decide_eq_false this).symm, rfl, ?_⟩
      show entry.1 = _
      omega

theorem count_step (lim : RateLimit) (entry : Option (Nat × Nat)) (w : Option Window) (e : Event)
    (h : lim.Counts entry w) :
    (lim.count entry e).1 = decide ((lim.place w e).place < lim.cap (lim.place w e)) ∧
      lim.Counts (some (lim.count entry e).2) (some (lim.place w e)) := by
  match entry, w with
  | none, none => exact lim.count_first e
  | some entry, some w => exact count_next e h

/-- An update of a user goes through if it is among the first of its window. -/
theorem run_ofUser (lim : RateLimit) (user : Int64) (es : List Event) :
    (lim.run ∅ es).filter (fun e => e.1.2.senderId = some user) =
      (lim.places user es).map fun x => (x.1, decide (x.2.place < lim.cap x.2)) := by
  rw [run_eq, places]
  calc (Keyed.runAll lim.count (fun e => e.2.senderId) true ∅ es).filter (fun e => e.1.2.senderId = some user)
      = Keyed.run lim.count none (es.filter fun e => e.2.senderId = some user) :=
        Keyed.runAll_filter lim.count (fun e => e.2.senderId) true user es ∅
    _ = _ := Keyed.run_sim (R := lim.Counts) (fun w => decide (w.place < lim.cap w)) lim.count_step _ _ none trivial

/-- A run has its updates in order. -/
theorem run_events (lim : RateLimit) : ∀ (es : List Event) (state : State), (lim.run state es).map Prod.fst = es
  | [], _ => rfl
  | e :: es, state => congrArg (e :: ·) (run_events lim es (lim.call state e).2)

theorem apart (lim : RateLimit) (es : List Event) : lim.Apart es := by
  intro user
  have hall : ∀ e ∈ lim.run ∅ (es.filter fun e => e.2.senderId = some user), decide (e.1.2.senderId = some user) = true := by
    intro e he
    have hmem := List.mem_map_of_mem (f := Prod.fst) he
    rw [run_events] at hmem
    exact (List.mem_filter.mp hmem).2
  rw [run_ofUser, ← List.filter_eq_self.mpr hall, run_ofUser, places, places, List.filter_filter]
  simp

theorem passesOthers_iff (lim : RateLimit) (es : List Event) : lim.PassesOthers es ↔ lim.RoomForOthers es := by
  constructor
  · intro h user x hx hother
    have hmem : (x.1, decide (x.2.place < lim.cap x.2)) ∈
        (lim.run ∅ es).filter fun e => e.1.2.senderId = some user := by
      rw [run_ofUser]
      exact List.mem_map_of_mem hx
    exact of_decide_eq_true (h _ (List.mem_filter.mp hmem).1 hother)
  · intro h e he hother
    cases hs : e.1.2.senderId with
    | none =>
      rw [run_eq] at he
      exact Keyed.runAll_idle he hs
    | some user =>
      have hmem : e ∈ (lim.run ∅ es).filter fun e => e.1.2.senderId = some user :=
        List.mem_filter.mpr ⟨he, decide_eq_true hs⟩
      rw [run_ofUser] at hmem
      obtain ⟨x, hx, rfl⟩ := List.mem_map.mp hmem
      exact decide_eq_true (h user x hx hother)

/-! Windows in time. -/

/-- What follows an update of the window `w`, when no time is before `t`. -/
theorem places_after (lim : RateLimit) : ∀ (es : List Event) (w : Window) (t : Nat),
    es.Pairwise (fun a b => a.1 ≤ b.1) → (∀ e ∈ es, t ≤ e.1) → w.start ≤ t →
    ∀ x ∈ Keyed.run (fun w e => (lim.place w e, lim.place w e)) (some w) es,
      t ≤ x.1.1 ∧ x.2.start ≤ x.1.1 ∧
        (x.2.number = w.number ∧ w.place < x.2.place ∧ x.2.start = w.start ∨
          w.number < x.2.number ∧ t ≤ x.2.start ∧ w.start + lim.window ≤ x.2.start ∧
            (w.number + 2 ≤ x.2.number → t + lim.window ≤ x.2.start))
  | [], _, _, _, _, _, x, hx => by cases hx
  | e :: es, w, t, hsorted, hle, hstart, x, hx => by
    obtain ⟨hhead, htail⟩ := List.pairwise_cons.mp hsorted
    have hte := hle e List.mem_cons_self
    unfold Keyed.run at hx
    by_cases hopen : lim.window ≤ e.1 - w.start
    · have hplace : lim.place (some w) e = ⟨e.1, w.number + 1, 0⟩ := if_pos hopen
      rw [hplace] at hx
      rcases List.mem_cons.mp hx with rfl | hx
      · exact ⟨hte, Nat.le_refl _, Or.inr ⟨by simp, hte, by simp only; omega, by simp only; omega⟩⟩
      · have ih := places_after lim es ⟨e.1, w.number + 1, 0⟩ e.1 htail hhead (Nat.le_refl _) x hx
        simp only at ih
        omega
    · have hplace : lim.place (some w) e = { w with place := w.place + 1 } := if_neg hopen
      rw [hplace] at hx
      rcases List.mem_cons.mp hx with rfl | hx
      · exact ⟨hte, by simp only; omega, Or.inl ⟨rfl, Nat.lt_succ_self _, rfl⟩⟩
      · have ih := places_after lim es { w with place := w.place + 1 } e.1 htail hhead (by simp only; omega) x hx
        simp only at ih
        omega

/-- `y` comes before `x`: earlier in its window, or in an earlier one; and from the last but one
    window on it lies back by more than the length of a window. -/
def Before (lim : RateLimit) (y x : Event × Window) : Prop :=
  y.1.1 ≤ x.1.1 ∧
    (y.2.number = x.2.number ∧ y.2.place < x.2.place ∨
      y.2.number < x.2.number ∧ (y.2.number + 2 ≤ x.2.number → y.1.1 + lim.window ≤ x.1.1))

theorem places_pairwise_from (lim : RateLimit) : ∀ (es : List Event) (w : Option Window),
    es.Pairwise (fun a b => a.1 ≤ b.1) → (∀ w' ∈ w, ∀ e ∈ es, w'.start ≤ e.1) →
    (Keyed.run (fun w e => (lim.place w e, lim.place w e)) w es).Pairwise lim.Before
  | [], _, _, _ => List.Pairwise.nil
  | e :: es, w, hsorted, hstart => by
    obtain ⟨hhead, htail⟩ := List.pairwise_cons.mp hsorted
    have hopened : (lim.place w e).start ≤ e.1 := by
      cases w with
      | none => exact Nat.le_refl _
      | some w =>
        unfold place
        simp only
        split
        · exact Nat.le_refl _
        · exact hstart w rfl e List.mem_cons_self
    unfold Keyed.run
    refine List.pairwise_cons.mpr ⟨fun x hx => ?_, ?_⟩
    · have hafter := places_after lim es (lim.place w e) e.1 htail hhead hopened x hx
      refine ⟨hafter.1, ?_⟩
      simp only
      omega
    · refine places_pairwise_from lim es (some (lim.place w e)) htail fun w' hw' e' he' => ?_
      obtain rfl := Option.some.inj hw'
      exact Nat.le_trans hopened (hhead e' he')

theorem places_pairwise {lim : RateLimit} {es : List Event} (h : es.Pairwise fun a b => a.1 ≤ b.1) (user : Int64) :
    (lim.places user es).Pairwise lim.Before :=
  places_pairwise_from lim _ none (h.filter _) fun _ hw => absurd hw (by simp)

/-- The messages of an interval that go through. -/
def ThroughIn (lim : RateLimit) (a b : Nat) (x : Event × Window) : Prop :=
  x.1.2.isMessage = true ∧ (a ≤ x.1.1 ∧ x.1.1 ≤ b) ∧ x.2.place < lim.cap x.2

instance (lim : RateLimit) (a b : Nat) : DecidablePred (lim.ThroughIn a b) :=
  fun _ => inferInstanceAs (Decidable (_ ∧ _))

theorem through_count (lim : RateLimit) (es : List Event) (user : Int64) (a b : Nat) :
    (lim.run ∅ es).countP (fun e =>
      e.1.2.isMessage && decide (e.1.2.senderId = some user) && (decide (a ≤ e.1.1) && decide (e.1.1 ≤ b)) && e.2) =
      (lim.places user es).countP fun x => lim.ThroughIn a b x := by
  have hsplit : (fun e : Event × Bool => e.1.2.isMessage && decide (e.1.2.senderId = some user) &&
      (decide (a ≤ e.1.1) && decide (e.1.1 ≤ b)) && e.2) =
      fun e => (e.1.2.isMessage && (decide (a ≤ e.1.1) && decide (e.1.1 ≤ b)) && e.2) && decide (e.1.2.senderId = some user) := by
    funext e
    cases e.1.2.isMessage <;> cases e.2 <;> simp [Bool.and_comm]
  rw [hsplit, ← List.countP_filter, run_ofUser, List.countP_map]
  congr 1
  funext x
  show _ = decide (lim.ThroughIn a b x)
  rw [Bool.eq_iff_iff, decide_eq_true_iff]
  simp [ThroughIn, and_assoc]

/-- The last message of an interval that goes through is crowded by the others. -/
theorem through_crowds {lim : RateLimit} {a b : Nat} (hab : b < a + lim.window) {x y : Event × Window}
    (hx : lim.ThroughIn a b x) (hy : lim.ThroughIn a b y) (h : y = x ∨ lim.Before y x) : lim.Crowds x y := by
  obtain ⟨hmsg, ⟨hay, hyb⟩, hcap⟩ := hy
  have hxb := hx.2.1.2
  refine ⟨hmsg, hcap, ?_, by omega⟩
  rcases h with rfl | ⟨-, h⟩
  · exact Or.inl ⟨rfl, Nat.le_refl _⟩
  · omega

/-- Who crowds a message goes through in the time of a window that ends with it. -/
theorem crowds_through {lim : RateLimit} {x y : Event × Window} (h : lim.Crowds x y)
    (horder : y = x ∨ lim.Before y x ∨ lim.Before x y) : lim.ThroughIn (x.1.1 + 1 - lim.window) x.1.1 y := by
  obtain ⟨hmsg, hcap, hplace, hlate⟩ := h
  refine ⟨hmsg, ⟨by omega, ?_⟩, hcap⟩
  rcases horder with rfl | hbefore | hbehind
  · exact Nat.le_refl _
  · exact hbefore.1
  · have := hbehind.2
    omega

/-- Two updates of a user, in the order of the run. -/
theorem places_order {lim : RateLimit} {es : List Event} (h : es.Pairwise fun a b => a.1 ≤ b.1) {user : Int64}
    {x y : Event × Window} (hx : x ∈ lim.places user es) (hy : y ∈ lim.places user es) :
    y = x ∨ lim.Before y x ∨ lim.Before x y := by
  have hall : (lim.places user es).Pairwise fun y x => y = x ∨ lim.Before y x ∨ lim.Before x y :=
    (places_pairwise h user).imp fun hb => Or.inr (Or.inl hb)
  have hsymm : Std.Symm fun y x => y = x ∨ lim.Before y x ∨ lim.Before x y := by
    constructor
    rintro y x (rfl | hb | hb)
    · exact Or.inl rfl
    · exact Or.inr (Or.inr hb)
    · exact Or.inr (Or.inl hb)
  have hself : ∀ x ∈ lim.places user es, x = x ∨ lim.Before x x ∨ lim.Before x x := fun _ _ => Or.inl rfl
  exact List.Pairwise.forall_of_forall hself hall hy hx

theorem bounded_iff {lim : RateLimit} {es : List Event} (h : es.Pairwise fun a b => a.1 ≤ b.1) :
    lim.Bounded es ↔ lim.NoSpill es := by
  constructor
  · intro hbound user x hx hmsg hcap
    have hle : (lim.places user es).countP (fun y => lim.ThroughIn (x.1.1 + 1 - lim.window) x.1.1 y) ≤ lim.maxCalls := by
      by_cases hw : lim.window = 0
      · -- an interval shorter than nothing
        have hzero : (lim.places user es).countP (fun y => lim.ThroughIn (x.1.1 + 1 - lim.window) x.1.1 y) = 0 := by
          refine List.countP_eq_zero.mpr fun y _ hy => ?_
          have := (of_decide_eq_true hy).2.1
          omega
        omega
      · rw [← through_count]
        exact hbound user (x.1.1 + 1 - lim.window) x.1.1 (by omega)
    refine Nat.le_trans (List.countP_mono_left fun y hy hcrowds => ?_) hle
    exact decide_eq_true (crowds_through (of_decide_eq_true hcrowds) (places_order h hx hy))
  · intro hspill user a b hab
    rw [through_count]
    rcases List.eq_nil_or_concat ((lim.places user es).filter fun x => lim.ThroughIn a b x) with hnone | ⟨front, x, hlast⟩
    · rw [List.countP_eq_length_filter, hnone]
      exact Nat.zero_le _
    · rw [List.concat_eq_append] at hlast
      have hmem : x ∈ (lim.places user es).filter fun x => lim.ThroughIn a b x := by
        rw [hlast]
        exact List.mem_append_right _ List.mem_cons_self
      obtain ⟨hx, hthrough⟩ := List.mem_filter.mp hmem
      have hxin := of_decide_eq_true hthrough
      -- the last of them is one that the others crowd
      have hpair : (lim.places user es).Pairwise lim.Before := places_pairwise h user
      have hordered := hpair.filter fun x => decide (lim.ThroughIn a b x)
      rw [hlast] at hordered
      refine Nat.le_trans (List.countP_mono_left fun y hy hyin => ?_) (hspill user x hx hxin.1 hxin.2.2)
      have hymem : y ∈ front ++ [x] := by
        rw [← hlast]
        exact List.mem_filter.mpr ⟨hy, hyin⟩
      have horder : y = x ∨ lim.Before y x := by
        rcases List.mem_append.mp hymem with hfront | hyx
        · exact Or.inr ((List.pairwise_append.mp hordered).2.2 y hfront x List.mem_cons_self)
        · exact Or.inl (List.mem_singleton.mp hyx)
      exact decide_eq_true (through_crowds hab hxin (of_decide_eq_true hyin) horder)

/-- When a run keeps the contract: queries come while there is room, and the messages that go
    through at the end of a window leave as much less of the next one as is less than `window`
    behind them. -/
theorem limiter_iff (lim : RateLimit) (es : List Event) (h : es.Pairwise fun a b => a.1 ≤ b.1) :
    (lim.PassesOthers es ∧ lim.Bounded es ∧ lim.Apart es) ↔ (lim.RoomForOthers es ∧ lim.NoSpill es) := by
  rw [passesOthers_iff, bounded_iff h, and_iff_left (lim.apart es)]

theorem limiter_room :
    (RateLimit.mk 2 10).PassesOthers [(0, .newMessage (some 7)), (3, .callbackQuery 7)] ∧
      (RateLimit.mk 2 10).Bounded [(0, .newMessage (some 7)), (3, .callbackQuery 7)] ∧
      (RateLimit.mk 2 10).Apart [(0, .newMessage (some 7)), (3, .callbackQuery 7)] := by
  have hnone : ∀ user : Int64, user ≠ 7 →
      (RateLimit.mk 2 10).places user [(0, .newMessage (some 7)), (3, .callbackQuery 7)] = [] := by
    intro user hne
    simp [places, Update.senderId, Ne.symm hne, Keyed.run]
  refine (limiter_iff _ _ (by decide)).mpr ⟨fun user => ?_, fun user => ?_⟩
  · by_cases h : user = 7
    · subst h
      decide
    · rw [hnone user h]
      decide
  · by_cases h : user = 7
    · subst h
      decide
    · rw [hnone user h]
      decide

/-- A query that is dropped, and three messages within a window of ten that lets two through. -/
theorem limiter_fails :
    ¬ (RateLimit.mk 1 10).PassesOthers [(0, .newMessage (some 7)), (1, .callbackQuery 7)] ∧
      ¬ (RateLimit.mk 2 10).Bounded [(0, .newMessage (some 7)), (9, .newMessage (some 7)), (10, .newMessage (some 7)),
        (11, .newMessage (some 7))] := by
  constructor
  · intro h
    exact absurd (h ((1, .callbackQuery 7), false) (by decide) rfl) Bool.false_ne_true
  · intro h
    exact absurd (h 7 9 11 (by decide)) (by decide)

end RateLimit
end Ferogram.Middleware
