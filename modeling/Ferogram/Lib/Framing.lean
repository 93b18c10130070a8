import Mathlib.Logic.Basic

/- Frames in a byte stream, taken off the front of a buffer that holds the stream as far
   as it has been read.

   `peel s buf` looks at the front of the buffer: a whole frame, not yet a whole frame,
   or nothing that could become one. `Frame` says that some bytes are a frame with a
   given payload, whatever follows them and however little of them has arrived.
   `drain_frames` is the rule for the loop: on the beginning of a stream of frames it
   returns the payloads of those that are whole, and keeps the beginning of the rest.

   `Stable` says that what was found at the front of a buffer is found there again when more
   bytes have come. A buffer that is drained, and drained again when more has come, is then
   drained as if all had been there at once (`drainAll_append`). -/
namespace Framing
variable {σ ε : Type}

inductive Peel (σ ε : Type) where
  | complete (payload rest : List UInt8) (state : σ)
  | incomplete
  | err (e : ε)

/-- What a drain returns: the payloads, the state and the bytes it left, and why it stopped
before the bytes ran out. -/
structure Drained (σ ε : Type) where
  payloads : List (List UInt8)
  state : σ
  rest : List UInt8
  error : Option ε

variable (peel : σ → List UInt8 → Peel σ ε)

/-- Peel frames until none is whole. -/
def drain : Nat → σ → List UInt8 → Drained σ ε
  | 0, s, buf => ⟨[], s, buf, none⟩
  | fuel + 1, s, buf =>
    match peel s buf with
    | .complete payload rest s' =>
      let d := drain fuel s' rest
      { d with payloads := payload :: d.payloads }
    | .incomplete => ⟨[], s, buf, none⟩
    | .err e => ⟨[], s, buf, some e⟩

/-- The bytes are a frame with this payload. -/
structure Frame (s : σ) (payload frame : List UInt8) (s' : σ) : Prop where
  ne_nil : frame ≠ []
  whole : ∀ rest, peel s (frame ++ rest) = .complete payload rest s'
  part : ∀ pre rest, frame = pre ++ rest → rest ≠ [] → peel s pre = .incomplete

/-- The bytes are frames of at most `bound` bytes, one after another. -/
inductive Frames (bound : Nat) : σ → List (List UInt8) → List UInt8 → σ → Prop
  | nil (s : σ) : Frames bound s [] [] s
  | cons {s s' s'' : σ} {payload frame : List UInt8} {payloads : List (List UInt8)}
      {stream : List UInt8} (hframe : Frame peel s payload frame s') (hbound : frame.length ≤ bound)
      (hrest : Frames bound s' payloads stream s'') :
      Frames bound s (payload :: payloads) (frame ++ stream) s''

/-- The frames of a stream, each of at most `bound` bytes. -/
inductive Chain (bound : Nat) : σ → List (List UInt8) → σ → Prop
  | nil (s : σ) : Chain bound s [] s
  | cons {s s' s'' : σ} {payload frame : List UInt8} {frames : List (List UInt8)}
      (hframe : Frame peel s payload frame s') (hbound : frame.length ≤ bound) (hrest : Chain bound s' frames s'') :
      Chain bound s (frame :: frames) s''

/-- Of `n` bytes of a stream of frames of these lengths, those behind the last whole frame. -/
def held : List Nat → Nat → Nat
  | [], n => n
  | len :: lens, n => if len ≤ n then held lens (n - len) else n

theorem held_le (lens : List Nat) (n : Nat) : held lens n ≤ n := by
  induction lens generalizing n with
  | nil => exact Nat.le_refl n
  | cons len lens ih =>
    rw [held]
    split
    · exact Nat.le_trans (ih (n - len)) (Nat.sub_le n len)
    · exact Nat.le_refl n

variable {peel}

/-- Of the first bytes of a stream, the frame in front has arrived in part or as a whole. -/
theorem part_or_whole {frame stream buf later : List UInt8} (h : frame ++ stream = buf ++ later) :
    (∃ missing, missing ≠ [] ∧ frame = buf ++ missing ∧ later = missing ++ stream) ∨
      ∃ buf', buf = frame ++ buf' ∧ stream = buf' ++ later := by
  rcases List.append_eq_append_iff.mp h with ⟨buf', hbuf, hstream⟩ | ⟨missing, hframe, hlater⟩
  · exact .inr ⟨buf', hbuf, hstream⟩
  · by_cases hnil : missing = []
    · rw [hnil, List.append_nil] at hframe
      rw [hnil, List.nil_append] at hlater
      exact .inr ⟨[], by rw [hframe, List.append_nil], hlater.symm⟩
    · exact .inl ⟨missing, hnil, hframe, hlater⟩

theorem drain_frames (hempty : ∀ s, peel s [] = .incomplete) {bound : Nat} {s s' : σ}
    {payloads : List (List UInt8)} {stream : List UInt8} (h : Frames peel bound s payloads stream s')
    (fuel : Nat) (buf later : List UInt8) (hstream : stream = buf ++ later) (hfuel : buf.length ≤ fuel) :
    ∃ done todo s₁ rest, drain peel fuel s buf = ⟨done, s₁, rest, none⟩ ∧ payloads = done ++ todo ∧
      Frames peel bound s₁ todo (rest ++ later) s' ∧ rest.length ≤ bound ∧ (later = [] → rest = []) := by
  induction h generalizing fuel buf with
  | nil s =>
    obtain ⟨rfl, rfl⟩ := List.append_eq_nil_iff.mp hstream.symm
    refine ⟨[], [], s, [], ?_, rfl, .nil s, Nat.zero_le _, fun _ => rfl⟩
    cases fuel with
    | zero => rfl
    | succ fuel => simp [drain, hempty]
  | @cons s s₁ s₂ payload frame payloads stream hframe hbound hrest ih =>
    rcases part_or_whole hstream with ⟨missing, hne, hsplit, hlater⟩ | ⟨buf', rfl, hstream'⟩
    · -- the frame has not arrived yet
      have hwait := hframe.part buf missing hsplit hne
      have hmore : later ≠ [] := by
        intro hnil
        rw [hnil] at hlater
        exact hne (List.append_eq_nil_iff.mp hlater.symm).1
      have hlen : buf.length ≤ frame.length := by
        rw [hsplit, List.length_append]
        omega
      refine ⟨[], payload :: payloads, s, buf, ?_, rfl, ?_, by omega, fun hnil => absurd hnil hmore⟩
      · cases fuel with
        | zero => rfl
        | succ fuel => simp [drain, hwait]
      · rw [← hstream]
        exact .cons hframe hbound hrest
    · -- it has, and the loop goes on behind it
      have hpos : 0 < frame.length := List.length_pos_iff.mpr hframe.ne_nil
      rw [List.length_append] at hfuel
      cases fuel with
      | zero => omega
      | succ fuel =>
        obtain ⟨done, todo, t, rest, hdrain, hpayloads, hframes, hrestLen, hnil⟩ :=
          ih fuel buf' hstream' (by omega)
        refine ⟨payload :: done, todo, t, rest, ?_, by rw [hpayloads]; rfl, hframes, hrestLen, hnil⟩
        simp [drain, hframe.whole, hdrain]

/-- No frame is empty, so a stream that is empty has none. -/
theorem Frames.eq_nil {bound : Nat} {s s' : σ} {payloads : List (List UInt8)}
    (h : Frames peel bound s payloads [] s') : payloads = [] ∧ s = s' := by
  generalize hstream : ([] : List UInt8) = stream at h
  cases h with
  | nil => exact ⟨rfl, rfl⟩
  | cons hframe hbound hrest =>
    exact absurd (List.append_eq_nil_iff.mp hstream.symm).1 hframe.ne_nil

/-! More bytes. -/

/-- What was found at the front of the buffer is found there when more has come, and it was not
nothing. -/
def Keeps (found : List UInt8 → Peel σ ε) (buf : List UInt8) : Prop :=
  match found buf with
  | .complete payload rest s' =>
    rest.length < buf.length ∧ ∀ more, found (buf ++ more) = .complete payload (rest ++ more) s'
  | .incomplete => True
  | .err e => ∀ more, found (buf ++ more) = .err e

variable (peel) in
/-- What `peel` says of a buffer stays true of a longer one, and no frame is empty. -/
structure Stable : Prop where
  empty : ∀ s, peel s [] = .incomplete
  complete : ∀ {s s' : σ} {buf payload rest : List UInt8}, peel s buf = .complete payload rest s' →
    rest.length < buf.length ∧ ∀ more, peel s (buf ++ more) = .complete payload (rest ++ more) s'
  err : ∀ {s : σ} {buf : List UInt8} {e : ε}, peel s buf = .err e → ∀ more, peel s (buf ++ more) = .err e

variable (peel) in
/-- Drain with as many rounds as there can be frames. -/
def drainAll (s : σ) (buf : List UInt8) : Drained σ ε := drain peel buf.length s buf

/-- Payloads that were drained before. -/
def Drained.after (payloads : List (List UInt8)) (d : Drained σ ε) : Drained σ ε :=
  { d with payloads := payloads ++ d.payloads }

theorem Stable.of_keeps (hempty : ∀ s, peel s [] = .incomplete) (hkeeps : ∀ s buf, Keeps (peel s) buf) :
    Stable peel where
  empty := hempty
  complete := by
    intro s s' buf payload rest hpeel
    have h := hkeeps s buf
    unfold Keeps at h
    rwa [hpeel] at h
  err := by
    intro s buf e hpeel
    have h := hkeeps s buf
    unfold Keeps at h
    rwa [hpeel] at h

namespace Stable
variable (h : Stable peel)
include h

/-- Rounds that are not needed change nothing. -/
theorem drain_fuel (n : Nat) : ∀ (m : Nat) (s : σ) (buf : List UInt8), buf.length ≤ n → buf.length ≤ m →
    drain peel n s buf = drain peel m s buf := by
  have hempty : ∀ (m : Nat) (s : σ), drain peel m s [] = ⟨[], s, [], none⟩ := by
    intro m s
    cases m with
    | zero => rfl
    | succ m => simp [drain, h.empty]
  induction n with
  | zero =>
    intro m s buf hn hm
    have hnil : buf = [] := List.eq_nil_of_length_eq_zero (by omega)
    rw [hnil, hempty, hempty]
  | succ n ih =>
    intro m s buf hn hm
    cases m with
    | zero =>
      have hnil : buf = [] := List.eq_nil_of_length_eq_zero (by omega)
      rw [hnil, hempty, hempty]
    | succ m =>
      simp only [drain]
      split
      · next payload rest s' hpeel =>
        have hshrink := (h.complete hpeel).1
        rw [ih m s' rest (by omega) (by omega)]
      · rfl
      · rfl

/-! One round of the drain. -/

theorem drainAll_complete {s s' : σ} {buf payload rest : List UInt8} (hpeel : peel s buf = .complete payload rest s') :
    drainAll peel s buf = (drainAll peel s' rest).after [payload] := by
  have hshrink := (h.complete hpeel).1
  obtain ⟨n, hn⟩ : ∃ n, buf.length = n + 1 := ⟨buf.length - 1, by omega⟩
  have hrest := h.drain_fuel n rest.length s' rest (by omega) (Nat.le_refl _)
  unfold drainAll
  rw [hn, ← hrest]
  simp [drain, hpeel, Drained.after]

omit h in
theorem drainAll_incomplete {s : σ} {buf : List UInt8} (hpeel : peel s buf = .incomplete) :
    drainAll peel s buf = ⟨[], s, buf, none⟩ := by
  unfold drainAll
  cases buf.length with
  | zero => rfl
  | succ n => simp [drain, hpeel]

theorem drainAll_err {s : σ} {buf : List UInt8} {e : ε} (hpeel : peel s buf = .err e) :
    drainAll peel s buf = ⟨[], s, buf, some e⟩ := by
  cases buf with
  | nil =>
    rw [h.empty] at hpeel
    cases hpeel
  | cons b buf =>
    show drain peel (buf.length + 1) s (b :: buf) = _
    simp [drain, hpeel]

/-- A drain that stopped for want of bytes left the beginning of a frame. -/
theorem drainAll_rest (s : σ) (buf : List UInt8) (hok : (drainAll peel s buf).error = none) :
    peel (drainAll peel s buf).state (drainAll peel s buf).rest = .incomplete := by
  induction hn : buf.length using Nat.strongRecOn generalizing s buf with
  | ind n ih =>
    subst hn
    cases hpeel : peel s buf with
    | complete payload rest s' =>
      rw [h.drainAll_complete hpeel] at hok ⊢
      exact ih rest.length (h.complete hpeel).1 s' rest hok rfl
    | incomplete =>
      rw [drainAll_incomplete hpeel]
      exact hpeel
    | err e =>
      rw [h.drainAll_err hpeel] at hok
      cases hok

theorem drainAll_rest_length (s : σ) (buf : List UInt8) : (drainAll peel s buf).rest.length ≤ buf.length := by
  induction hn : buf.length using Nat.strongRecOn generalizing s buf with
  | ind n ih =>
    subst hn
    cases hpeel : peel s buf with
    | complete payload rest s' =>
      have hshrink := (h.complete hpeel).1
      have hrest := ih rest.length hshrink s' rest rfl
      rw [h.drainAll_complete hpeel]
      exact Nat.le_trans hrest (by omega)
    | incomplete =>
      exact Nat.le_of_eq (congrArg (fun r => r.rest.length) (drainAll_incomplete hpeel))
    | err e =>
      exact Nat.le_of_eq (congrArg (fun r => r.rest.length) (h.drainAll_err hpeel))

/-- **Draining in two parts.** -/
theorem drainAll_append (s : σ) (buf more : List UInt8) :
    drainAll peel s (buf ++ more) =
      match (drainAll peel s buf).error with
      | none => (drainAll peel (drainAll peel s buf).state ((drainAll peel s buf).rest ++ more)).after
          (drainAll peel s buf).payloads
      | some e => ⟨(drainAll peel s buf).payloads, (drainAll peel s buf).state,
          (drainAll peel s buf).rest ++ more, some e⟩ := by
  induction hn : buf.length using Nat.strongRecOn generalizing s buf with
  | ind n ih =>
    subst hn
    cases hpeel : peel s buf with
    | complete payload rest s' =>
      obtain ⟨hshrink, hmore⟩ := h.complete hpeel
      rw [h.drainAll_complete hpeel, h.drainAll_complete (hmore more), ih rest.length hshrink s' rest rfl]
      simp only [Drained.after]
      cases (drainAll peel s' rest).error with
      | none => rfl
      | some e => rfl
    | incomplete =>
      rw [drainAll_incomplete hpeel]
      rfl
    | err e =>
      rw [h.drainAll_err hpeel, h.drainAll_err (h.err hpeel more)]

/-- A drain of the beginning of a stream of frames keeps what is behind the last whole one. -/
theorem drainAll_chain {bound : Nat} {s s' : σ} {frames : List (List UInt8)} (hchain : Chain peel bound s frames s')
    (buf later : List UInt8) (hsplit : frames.flatten = buf ++ later) :
    (drainAll peel s buf).error = none ∧
      (drainAll peel s buf).rest.length = held (frames.map List.length) buf.length := by
  induction hchain generalizing buf with
  | nil s =>
    obtain ⟨rfl, -⟩ := List.append_eq_nil_iff.mp hsplit.symm
    rw [drainAll_incomplete (h.empty s)]
    exact ⟨rfl, rfl⟩
  | @cons s s₁ s₂ payload frame frames hframe hbound hrest ih =>
    rw [List.map_cons, held]
    rcases part_or_whole hsplit with ⟨missing, hne, hpart, -⟩ | ⟨buf', rfl, hsplit'⟩
    · have hshort : ¬ frame.length ≤ buf.length := by
        have hpos := List.length_pos_iff.mpr hne
        rw [hpart, List.length_append]
        omega
      rw [drainAll_incomplete (hframe.part buf missing hpart hne), if_neg hshort]
      exact ⟨rfl, rfl⟩
    · obtain ⟨herror, hlen⟩ := ih buf' hsplit'
      rw [h.drainAll_complete (hframe.whole buf'), List.length_append, if_pos (by omega), Nat.add_sub_cancel_left]
      exact ⟨herror, hlen⟩

end Stable

end Framing
