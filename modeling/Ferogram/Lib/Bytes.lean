import Mathlib.Algebra.Group.Nat.Defs
import Mathlib.Algebra.Group.Int.Defs
import Mathlib.Data.Vector.Defs
import Mathlib.Data.Nat.Init

/- Little-endian numbers and readers of bytes.

   A `Reader` takes bytes off the front of its input and returns a value and the
   rest, or fails. `Reads e p b a` says that `p` reads exactly the bytes `b` and
   returns `a`: followed by anything it stops after `b`, and on every strict prefix
   of `b` it fails with `e`. A format is verified by giving each part of it its
   `Reads` fact and composing these (`Reads.bind`, `Reads.many`); what a reader can
   have done when it returned is read off with `bind_ok`. -/

namespace Bytes

/-- The low `n` bytes of `w`, the least significant first. -/
def le : Nat → Nat → List UInt8
  | 0, _ => []
  | n + 1, w => UInt8.ofNat w :: le n (w / 256)

/-- The number that little-endian bytes denote. -/
def ofLe : List UInt8 → Nat
  | [] => 0
  | b :: l => b.toNat + 256 * ofLe l

@[simp] theorem le_length (n w : Nat) : (le n w).length = n := by
  induction n generalizing w with
  | zero => rfl
  | succ n ih => simp [le, ih]

theorem ofLe_le (n w : Nat) : ofLe (le n w) = w % 256 ^ n := by
  induction n generalizing w with
  | zero => simp [le, ofLe, Nat.mod_one]
  | succ n ih =>
    have hbyte : (UInt8.ofNat w).toNat = w % 256 := by simp
    rw [le, ofLe, ih, hbyte, Nat.pow_succ', Nat.mod_mul]

theorem ofLe_le_of_lt {n w : Nat} (h : w < 256 ^ n) : ofLe (le n w) = w := by
  rw [ofLe_le, Nat.mod_eq_of_lt h]

theorem ofLe_lt (l : List UInt8) : ofLe l < 256 ^ l.length := by
  induction l with
  | nil => simp [ofLe]
  | cons b l ih =>
    have hb : b.toNat < 256 := b.toNat_lt
    rw [ofLe, List.length_cons, Nat.pow_succ']
    omega

/-- Equally many bytes that denote the same number are the same bytes. -/
theorem ofLe_inj {l₁ l₂ : List UInt8} (hlen : l₁.length = l₂.length) (h : ofLe l₁ = ofLe l₂) :
    l₁ = l₂ := by
  induction l₁ generalizing l₂ with
  | nil =>
    cases l₂ with
    | nil => rfl
    | cons b l => cases hlen
  | cons a l₁ ih =>
    cases l₂ with
    | nil => cases hlen
    | cons b l₂ =>
      have ha : a.toNat < 256 := a.toNat_lt
      have hb : b.toNat < 256 := b.toNat_lt
      simp only [ofLe] at h
      have hhead : a = b := by
        apply UInt8.toNat_inj.mp
        omega
      have htail : ofLe l₁ = ofLe l₂ := by omega
      rw [hhead, ih (by simpa using hlen) htail]

/-- `i32::to_le_bytes` and `i32::from_le_bytes`. -/
def ofI32 (x : Int32) : List UInt8 := le 4 x.toUInt32.toNat
def toI32 (l : List UInt8) : Int32 := (UInt32.ofNat (ofLe l)).toInt32

/-- `i64::to_le_bytes` and `i64::from_le_bytes`. -/
def ofI64 (x : Int64) : List UInt8 := le 8 x.toUInt64.toNat
def toI64 (l : List UInt8) : Int64 := (UInt64.ofNat (ofLe l)).toInt64

@[simp] theorem ofI32_length (x : Int32) : (ofI32 x).length = 4 := le_length _ _

@[simp] theorem ofI64_length (x : Int64) : (ofI64 x).length = 8 := le_length _ _

@[simp] theorem toI32_ofI32 (x : Int32) : toI32 (ofI32 x) = x := by
  have hlt : x.toUInt32.toNat < 256 ^ 4 := x.toUInt32.toNat_lt
  unfold toI32 ofI32
  rw [ofLe_le_of_lt hlt, UInt32.ofNat_toNat]
  rfl

@[simp] theorem toI64_ofI64 (x : Int64) : toI64 (ofI64 x) = x := by
  have hlt : x.toUInt64.toNat < 256 ^ 8 := x.toUInt64.toNat_lt
  unfold toI64 ofI64
  rw [ofLe_le_of_lt hlt, UInt64.ofNat_toNat]
  rfl

/-- Eight bytes are those of the `i64` they denote. -/
theorem ofI64_toI64 {l : List UInt8} (h : l.length = 8) : ofI64 (toI64 l) = l := by
  have hlt : ofLe l < 2 ^ 64 := by
    have hle := ofLe_lt l
    rwa [h] at hle
  have hnat : (UInt64.ofNat (ofLe l)).toNat = ofLe l := by
    rw [UInt64.toNat_ofNat', Nat.mod_eq_of_lt hlt]
  apply ofLe_inj
  · rw [ofI64_length, h]
  · show ofLe (le 8 (UInt64.ofNat (ofLe l)).toNat) = ofLe l
    rw [hnat, ofLe_le_of_lt hlt]

/-- Four bytes are determined by the `i32` they denote. -/
theorem toI32_inj {l₁ l₂ : List UInt8} (h₁ : l₁.length = 4) (h₂ : l₂.length = 4)
    (h : toI32 l₁ = toI32 l₂) : l₁ = l₂ := by
  have hlt₁ : ofLe l₁ < 2 ^ 32 := by
    have := ofLe_lt l₁
    rwa [h₁] at this
  have hlt₂ : ofLe l₂ < 2 ^ 32 := by
    have := ofLe_lt l₂
    rwa [h₂] at this
  apply ofLe_inj (h₁.trans h₂.symm)
  have hu : UInt32.ofNat (ofLe l₁) = UInt32.ofNat (ofLe l₂) := congrArg Int32.toUInt32 h
  have hn : ofLe l₁ % 2 ^ 32 = ofLe l₂ % 2 ^ 32 := congrArg UInt32.toNat hu
  rwa [Nat.mod_eq_of_lt hlt₁, Nat.mod_eq_of_lt hlt₂] at hn

end Bytes

/-- A reader of bytes. -/
structure Reader (ε α : Type) where
  run : List UInt8 → Except ε (α × List UInt8)

namespace Reader
variable {ε α β : Type}

instance : Monad (Reader ε) where
  pure a := ⟨fun b => .ok (a, b)⟩
  bind p f := ⟨fun b =>
    match p.run b with
    | .ok (a, rest) => (f a).run rest
    | .error e => .error e⟩

/-- The next `n` bytes; fail with `e` if there are fewer. -/
def take (e : ε) (n : Nat) : Reader ε (List.Vector UInt8 n) :=
  ⟨fun b =>
    if h : n ≤ b.length then .ok (⟨b.take n, by simp [h]⟩, b.drop n) else .error e⟩

/-- Fail, whatever there is to read. -/
def fail (e : ε) : Reader ε α := ⟨fun _ => .error e⟩

/-- `n` times the same reader. -/
def many (p : Reader ε α) : Nat → Reader ε (List α)
  | 0 => pure []
  | n + 1 => do
    let a ← p
    let rest ← many p n
    pure (a :: rest)

@[simp] theorem pure_run (a : α) (b : List UInt8) : (pure a : Reader ε α).run b = .ok (a, b) := rfl

@[simp] theorem fail_run (e : ε) (b : List UInt8) : (fail e : Reader ε α).run b = .error e := rfl

@[simp] theorem bind_run (p : Reader ε α) (f : α → Reader ε β) (b : List UInt8) :
    (p >>= f).run b = match p.run b with
      | .ok (a, rest) => (f a).run rest
      | .error e => .error e := rfl

/-- Go on behind a first part that returned. -/
theorem bind_of_ok {p : Reader ε α} {b mid : List UInt8} {a : α} (h : p.run b = .ok (a, mid))
    (f : α → Reader ε β) : (p >>= f).run b = (f a).run mid := by
  rw [bind_run, h]

/-- A composed reader that returned: its first part returned, and then its second. -/
theorem bind_ok {p : Reader ε α} {f : α → Reader ε β} {b rest : List UInt8} {x : β}
    (h : (p >>= f).run b = .ok (x, rest)) :
    ∃ a mid, p.run b = .ok (a, mid) ∧ (f a).run mid = .ok (x, rest) := by
  rw [bind_run] at h
  rcases hp : p.run b with e | ⟨a, mid⟩
  · rw [hp] at h; cases h
  · rw [hp] at h
    exact ⟨a, mid, rfl, h⟩

theorem pure_ok {a x : α} {b rest : List UInt8} (h : (pure a : Reader ε α).run b = .ok (x, rest)) :
    x = a ∧ rest = b := by
  cases h
  exact ⟨rfl, rfl⟩

theorem take_ok {e : ε} {n : Nat} {b rest : List UInt8} {v : List.Vector UInt8 n}
    (h : (take e n).run b = .ok (v, rest)) : b = v.1 ++ rest := by
  unfold take at h
  simp only at h
  split at h
  · cases h
    exact (List.take_append_drop n b).symm
  · cases h

theorem many_length {p : Reader ε α} {n : Nat} {b rest : List UInt8} {xs : List α}
    (h : (many p n).run b = .ok (xs, rest)) : xs.length = n := by
  induction n generalizing b xs with
  | zero => cases h; rfl
  | succ n ih =>
    obtain ⟨a, mid, -, h⟩ := bind_ok h
    obtain ⟨ys, mid', hys, h⟩ := bind_ok h
    cases h
    rw [List.length_cons, ih hys]

/-- If a reader that gives an item back has read its bytes and found it good, then reading
a list back shows the same of all its items. -/
theorem many_ok {p : Reader ε α} {enc : α → List UInt8} {good : α → Prop}
    (hp : ∀ x b r, p.run (enc x ++ b) = .ok (x, r) → good x ∧ r = b) :
    ∀ (xs : List α) (b r : List UInt8), (many p xs.length).run (xs.flatMap enc ++ b) = .ok (xs, r) →
      (∀ x ∈ xs, good x) ∧ r = b
  | [], b, r, h => by
    obtain ⟨-, hr⟩ := pure_ok h
    exact ⟨fun x hx => absurd hx List.not_mem_nil, hr⟩
  | x :: xs, b, r, h => by
    rw [List.flatMap_cons, List.append_assoc] at h
    obtain ⟨y, mid, hy, h⟩ := bind_ok h
    obtain ⟨ys, mid', hys, h⟩ := bind_ok h
    obtain ⟨heq, hr⟩ := pure_ok h
    obtain ⟨rfl, rfl⟩ := List.cons.inj heq
    obtain ⟨hx, rfl⟩ := hp _ _ _ hy
    obtain ⟨hxs, rfl⟩ := many_ok hp _ _ _ hys
    exact ⟨List.forall_mem_cons.mpr ⟨hx, hxs⟩, hr⟩

/-- `p` reads exactly `b` and returns `a`; short of that it fails with `e`. -/
structure Reads (e : ε) (p : Reader ε α) (b : List UInt8) (a : α) : Prop where
  full : ∀ rest, p.run (b ++ rest) = .ok (a, rest)
  short : ∀ b', b' <+: b → b' ≠ b → p.run b' = .error e

namespace Reads
variable {e : ε} {p : Reader ε α} {b : List UInt8} {a : α}

theorem pure' (a : α) : Reads e (pure a) [] a where
  full _ := rfl
  short _ hb' hne := absurd (List.prefix_nil.mp hb') hne

theorem take' {n : Nat} (v : List.Vector UInt8 n) : Reads e (take e n) v.1 v where
  full rest := by
    obtain ⟨b, rfl⟩ := v
    simp [take]
  short b' hb' hne := by
    have hlt : b'.length < v.1.length := by
      refine Nat.lt_of_le_of_ne hb'.length_le (fun hlen => hne ?_)
      exact hb'.eq_of_length hlen
    have hv : v.1.length = n := v.2
    have hshort : ¬ n ≤ b'.length := by omega
    simp [take, hshort]

/-- One reader after another reads one piece after another. -/
theorem bind' {f : α → Reader ε β} {c : List UInt8} {x : β} (hp : Reads e p b a)
    (hf : Reads e (f a) c x) : Reads e (p >>= f) (b ++ c) x where
  full rest := by
    rw [bind_run, List.append_assoc, hp.full]
    exact hf.full rest
  short b' hb' hne := by
    obtain ⟨t, ht⟩ := hb'
    rcases List.append_eq_append_iff.mp ht with ⟨m, hm, -⟩ | ⟨c', rfl, hc'⟩
    · by_cases hb : b' = b
      · -- the first part is complete, and nothing of the second is there
        subst hb
        have hc : c ≠ [] := by
          intro hc
          exact hne (by simp [hc])
        have h := hf.short [] (List.nil_prefix) (Ne.symm hc)
        have hfull := hp.full []
        rw [List.append_nil] at hfull
        rw [bind_run, hfull]
        exact h
      · rw [bind_run, hp.short b' ⟨m, hm.symm⟩ hb]
    · have hc : c' ≠ c := by
        intro hc
        exact hne (by rw [hc])
      rw [bind_run, hp.full]
      exact hf.short c' ⟨t, hc'.symm⟩ hc

theorem map' {x : β} {f : α → β} (hp : Reads e p b a) (hx : f a = x) :
    Reads e (p >>= fun a => pure (f a)) b x := by
  subst hx
  have h : Reads e (p >>= fun a => pure (f a)) (b ++ []) (f a) := hp.bind' (pure' (f a))
  rwa [List.append_nil] at h

/-- The same reader over a list of pieces. -/
theorem many' {enc : α → List UInt8} :
    ∀ xs : List α, (∀ x ∈ xs, Reads e p (enc x) x) →
      Reads e (many p xs.length) (xs.flatMap enc) xs
  | [], _ => pure' []
  | x :: xs, h => by
    have hx := h x List.mem_cons_self
    have hxs := many' xs (fun y hy => h y (List.mem_cons_of_mem x hy))
    exact hx.bind' (hxs.map' rfl)

end Reads

end Reader
