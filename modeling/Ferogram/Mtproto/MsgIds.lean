import Ferogram.Mtproto.Encrypted
import Ferogram.Lib.Run

/- The message ids one session puts on the wire between two changes of its session id.

   `next_msg_id` compares the id the clock asks for with the last one it handed out,
   so that a clock that stands still or goes back does no harm. Three calls get past
   that comparison: `reset_seq_no_only` forgets the last id and keeps the session id,
   `pack_body_at_msg_id` sends an id of its caller's, and `correct_time_offset` may
   raise the last id to the end of the range, after which `last_msg_id + 4` wraps.

   What is proved: `msgIds_increasing_iff`, which says for every run of the calls and
   every sequence of clock readings when the ids on the wire are multiples of four in
   strictly increasing order. -/
namespace Ferogram.Mtproto

/-- A session and the ids it has put on the wire, the latest last. -/
structure Wire where
  session : EncryptedSession
  emitted : List Int64
  deriving DecidableEq, Repr

/-- The calls that leave the session id as it is. -/
inductive SessionOp where
  | allocMsgSeqno (now : Clock) (contentRelated : Bool)
  | packBodyWithMsgId (now : Clock) (body : List UInt8) (contentRelated : Bool)
  | packContainer (now : Clock) (containerBody : List UInt8)
  | packSerializable (now : Clock) (call : List UInt8)
  | packSerializableWithMsgId (now : Clock) (call : List UInt8)
  | packWithMsgId (now : Clock) (call : List UInt8)
  | pack (now : Clock) (call : List UInt8)
  | packBodyAtMsgId (body : List UInt8) (msgId : Int64)
  | correctTimeOffset (now : Clock) (serverMsgId : Int64)
  | undoSeqNo
  | resetSeqNoOnly
  deriving DecidableEq

namespace Wire

/-- A packed message goes out. -/
def send (x : Wire) (r : Envelope × EncryptedSession) : Wire :=
  ⟨r.2, x.emitted ++ [r.1.msgId]⟩

def step (x : Wire) : SessionOp → Wire
  | .allocMsgSeqno now contentRelated =>
    let ((msgId, _), s) := x.session.allocMsgSeqno now contentRelated
    ⟨s, x.emitted ++ [msgId]⟩
  | .packBodyWithMsgId now body contentRelated =>
    x.send (x.session.packBodyWithMsgId now body contentRelated)
  | .packContainer now containerBody => x.send (x.session.packContainer now containerBody)
  | .packSerializable now call => x.send (x.session.packSerializable now call)
  | .packSerializableWithMsgId now call => x.send (x.session.packSerializableWithMsgId now call)
  | .packWithMsgId now call => x.send (x.session.packWithMsgId now call)
  | .pack now call => x.send (x.session.pack now call)
  | .packBodyAtMsgId body msgId => x.send (x.session.packBodyAtMsgId body msgId)
  | .correctTimeOffset now serverMsgId =>
    { x with session := x.session.correctTimeOffset now serverMsgId }
  | .undoSeqNo => { x with session := x.session.undoSeqNo }
  | .resetSeqNoOnly => { x with session := x.session.resetSeqNoOnly }

/-- What the server asks of the ids of one session. -/
def Increasing (x : Wire) : Prop :=
  x.emitted.Pairwise (· < ·) ∧ ∀ m ∈ x.emitted, 4 ∣ m.toInt

instance (x : Wire) : Decidable x.Increasing :=
  let _aligned : Decidable (∀ m ∈ x.emitted, 4 ∣ m.toInt) := List.decidableBAll _ x.emitted
  inferInstanceAs (Decidable (_ ∧ ∀ m ∈ x.emitted, 4 ∣ m.toInt))

/-- The id is above everything sent so far. -/
def Above (x : Wire) (m : Int64) : Prop := ∀ t ∈ x.emitted, t < m

/-- The last id handed out covers everything sent so far, and four more still fits. -/
def Guarded (x : Wire) : Prop :=
  x.session.lastMsgId ≤ Int64.maxValue - 4 ∧ ∀ t ∈ x.emitted, t ≤ x.session.lastMsgId

/-- The corrected clock has passed the last id and everything sent so far. -/
def ClockAhead (x : Wire) (now : Clock) : Prop :=
  x.session.lastMsgId < clockMsgId now x.session.timeOffset ∧
    x.Above (clockMsgId now x.session.timeOffset)

/-- A generated id is safe at this reading of the clock. -/
def Safe (x : Wire) (now : Clock) : Prop :=
  x.emitted = [] ∨ x.ClockAhead now ∨ x.Guarded

/-- When a call keeps the ids in order. -/
def Keeps (x : Wire) : SessionOp → Prop
  | .allocMsgSeqno now _ | .packBodyWithMsgId now _ _ | .packContainer now _
  | .packSerializable now _ | .packSerializableWithMsgId now _ | .packWithMsgId now _
  | .pack now _ => x.Safe now
  | .packBodyAtMsgId _ msgId => 4 ∣ msgId.toInt ∧ x.Above msgId
  | .correctTimeOffset _ _ | .undoSeqNo | .resetSeqNoOnly => True

end Wire

/-- Four more than a multiple of four fits unless it is the largest. -/
theorem add_four_toInt {m : Int64} (h : m ≤ Int64.maxValue - 4) :
    (m + 4).toInt = m.toInt + 4 := by
  have hsum : (m + 4).toInt = (m.toInt + 4).bmod (2 ^ 64) := Int64.toInt_add m 4
  have hmax : (Int64.maxValue - 4).toInt = 2 ^ 63 - 5 := by decide
  have hlo := Int64.le_toInt m
  rw [Int64.le_iff_toInt_le, hmax] at h
  rw [hsum, Int.bmod_def]
  split <;> omega

theorem add_four_eq_minValue {m : Int64} (h : ¬m ≤ Int64.maxValue - 4) (h4 : 4 ∣ m.toInt) :
    m + 4 = Int64.minValue := by
  have hsum : (m + 4).toInt = (m.toInt + 4).bmod (2 ^ 64) := Int64.toInt_add m 4
  have hmax : (Int64.maxValue - 4).toInt = 2 ^ 63 - 5 := by decide
  have hmin : Int64.minValue.toInt = -2 ^ 63 := by decide
  have hhi := Int64.toInt_lt m
  rw [Int64.le_iff_toInt_le, hmax] at h
  apply Int64.toInt_inj.mp
  rw [hsum, Int.bmod_def, hmin]
  split <;> omega

/-! What a call does to the last id and to the wire. -/

namespace EncryptedSession
variable (s : EncryptedSession) (now : Clock)

theorem nextId_of_ahead (h : s.lastMsgId < clockMsgId now s.timeOffset) :
    s.nextId now = clockMsgId now s.timeOffset := by
  have hle : ¬clockMsgId now s.timeOffset ≤ s.lastMsgId := by
    rw [Int64.not_le]
    exact h
  simp [nextId, hle]

theorem nextId_of_behind (h : clockMsgId now s.timeOffset ≤ s.lastMsgId) :
    s.nextId now = s.lastMsgId + 4 := by
  simp [nextId, h]

theorem allocMsgSeqno_msgId (c : Bool) : (s.allocMsgSeqno now c).1.1 = s.nextId now := by
  cases c <;> rfl

theorem allocMsgSeqno_lastMsgId (c : Bool) :
    (s.allocMsgSeqno now c).2.lastMsgId = s.nextId now := by
  cases c <;> rfl

end EncryptedSession

namespace Wire

/-- A call sends a generated id, sends its caller's id, or sends nothing. -/
theorem step_cases (x : Wire) (op : SessionOp) :
    (∃ now, (x.step op).emitted = x.emitted ++ [x.session.nextId now] ∧ (x.Keeps op ↔ x.Safe now)) ∨
    (∃ m, (x.step op).emitted = x.emitted ++ [m] ∧ (x.Keeps op ↔ 4 ∣ m.toInt ∧ x.Above m)) ∨
    ((x.step op).emitted = x.emitted ∧ x.Keeps op) := by
  have sent : ∀ now body c, (x.send (x.session.packBodyWithMsgId now body c)).emitted =
      x.emitted ++ [x.session.nextId now] := by
    intro now body c
    cases c <;> rfl
  cases op with
  | allocMsgSeqno now c =>
    left
    refine ⟨now, ?_, Iff.rfl⟩
    show x.emitted ++ [(x.session.allocMsgSeqno now c).1.1] = _
    rw [x.session.allocMsgSeqno_msgId]
  | packBodyWithMsgId now body c => exact .inl ⟨now, sent now body c, Iff.rfl⟩
  | packContainer now body => exact .inl ⟨now, sent now body false, Iff.rfl⟩
  | packSerializable now body => exact .inl ⟨now, sent now body true, Iff.rfl⟩
  | packSerializableWithMsgId now body => exact .inl ⟨now, sent now body true, Iff.rfl⟩
  | packWithMsgId now body => exact .inl ⟨now, sent now body true, Iff.rfl⟩
  | pack now body => exact .inl ⟨now, sent now body true, Iff.rfl⟩
  | packBodyAtMsgId body m => exact .inr (.inl ⟨m, rfl, Iff.rfl⟩)
  | correctTimeOffset now m => exact .inr (.inr ⟨rfl, trivial⟩)
  | undoSeqNo => exact .inr (.inr ⟨rfl, trivial⟩)
  | resetSeqNoOnly => exact .inr (.inr ⟨rfl, trivial⟩)

/-! One more id. -/

theorem increasing_snoc {x y : Wire} {m : Int64} (he : y.emitted = x.emitted ++ [m])
    (hx : x.Increasing) : y.Increasing ↔ x.Above m ∧ 4 ∣ m.toInt := by
  obtain ⟨hpair, hdvd⟩ := hx
  unfold Increasing Above
  rw [he, List.pairwise_append]
  constructor
  · rintro ⟨⟨-, -, hm⟩, hall⟩
    exact ⟨fun t ht => hm t ht m (by simp), hall m (by simp)⟩
  · rintro ⟨habove, hm⟩
    refine ⟨⟨hpair, List.pairwise_singleton _ _, ?_⟩, ?_⟩
    · intro t ht m' hm'
      rw [List.mem_singleton.mp hm']
      exact habove t ht
    · intro t ht
      rcases List.mem_append.mp ht with ht | ht
      · exact hdvd t ht
      · rw [List.mem_singleton.mp ht]
        exact hm

/-- The id that comes next is above everything sent exactly when it is safe to ask for it. -/
theorem nextId_above_iff {x : Wire} (hx : x.Increasing) (now : Clock) :
    x.Above (x.session.nextId now) ↔ x.Safe now := by
  by_cases hle : clockMsgId now x.session.timeOffset ≤ x.session.lastMsgId
  · -- the clock is behind: the next id is four above the last
    have hnot : ¬x.ClockAhead now := by
      intro h
      exact Int64.not_lt.mpr hle h.1
    rw [x.session.nextId_of_behind now hle]
    constructor
    · intro habove
      by_cases hfit : x.session.lastMsgId ≤ Int64.maxValue - 4
      · -- multiples of four below `last + 4` are at most `last`
        refine .inr (.inr ⟨hfit, fun t ht => ?_⟩)
        have hlt := Int64.lt_iff_toInt_lt.mp (habove t ht)
        have h4 := hx.2 t ht
        have hlast := x.session.aligned
        rw [add_four_toInt hfit] at hlt
        rw [Int64.le_iff_toInt_le]
        omega
      · -- the sum wraps, and is above nothing
        left
        rw [add_four_eq_minValue hfit x.session.aligned] at habove
        apply List.eq_nil_iff_forall_not_mem.mpr
        intro t ht
        exact Int64.not_lt.mpr (Int64.minValue_le t) (habove t ht)
    · rintro (hnil | hahead | ⟨hfit, hcover⟩)
      · intro t ht
        rw [hnil] at ht
        cases ht
      · exact absurd hahead hnot
      · intro t ht
        have := Int64.le_iff_toInt_le.mp (hcover t ht)
        rw [Int64.lt_iff_toInt_lt, add_four_toInt hfit]
        omega
  · have hlt := Int64.not_le.mp hle
    rw [x.session.nextId_of_ahead now hlt]
    constructor
    · intro habove
      exact .inr (.inl ⟨hlt, habove⟩)
    · rintro (hnil | hahead | ⟨-, hcover⟩)
      · intro t ht
        rw [hnil] at ht
        cases ht
      · exact hahead.2
      · intro t ht
        exact Int64.lt_of_le_of_lt (hcover t ht) hlt

theorem step_increasing_iff {x : Wire} (op : SessionOp) (hx : x.Increasing) :
    (x.step op).Increasing ↔ x.Keeps op := by
  obtain ⟨now, he, hkeeps⟩ | ⟨m, he, hkeeps⟩ | ⟨he, hkeeps⟩ := x.step_cases op
  · rw [increasing_snoc he hx, hkeeps, ← nextId_above_iff hx now]
    exact and_iff_left (x.session.nextId_dvd now)
  · rw [increasing_snoc he hx, hkeeps]
    exact and_comm
  · have hsame : (x.step op).Increasing ↔ x.Increasing := by
      unfold Increasing
      rw [he]
    exact ⟨fun _ => hkeeps, fun _ => hsame.mpr hx⟩

end Wire

/-- From the moment a session has its id, the ids it sends are multiples of four in strictly
increasing order, all along a run, exactly when each call that sends one finds what it needs: a
generated id needs an empty wire, a clock past everything sent, or a last id that covers
everything sent; an id of the caller's has to be a multiple of four above everything sent. -/
theorem msgIds_increasing_iff (s : EncryptedSession) (ops : List SessionOp) :
    (∀ x ∈ Run.states Wire.step ⟨s, []⟩ ops, x.Increasing) ↔
      Run.AllSteps Wire.step Wire.Keeps ⟨s, []⟩ ops := by
  have hempty : Wire.Increasing ⟨s, []⟩ := ⟨List.Pairwise.nil, fun _ hm => nomatch hm⟩
  have hruns := Run.states_iff Wire.step (I := fun _ => True) (fun _ _ _ => trivial)
    (fun x op _ hx => Wire.step_increasing_iff (x := x) op hx) ops ⟨s, []⟩ trivial
  rw [hruns]
  exact and_iff_right hempty

/-- The clock goes back, and is corrected in the middle. -/
example : ∀ x ∈ Run.states Wire.step ⟨EncryptedSession.new 77 0 0, []⟩
    [.pack ⟨1700000000, 300, by decide⟩ [1, 2, 3, 4], .pack ⟨1699999990, 0, by decide⟩ [5, 6, 7, 8],
     .correctTimeOffset ⟨1699999990, 0, by decide⟩ 7301444403200000001,
     .packContainer ⟨1699999991, 0, by decide⟩ [9, 9, 9, 9]], x.Increasing := by
  decide

/-- Two calls at one reading of the clock, and `reset_seq_no_only` between them. -/
def resetBetween : List SessionOp :=
  [.pack ⟨1700000000, 300, by decide⟩ [1, 2, 3, 4], .resetSeqNoOnly,
   .pack ⟨1700000000, 300, by decide⟩ [5, 6, 7, 8]]

/-- The session id stays and the message id comes again. -/
theorem reset_repeats_id :
    ¬∀ x ∈ Run.states Wire.step ⟨EncryptedSession.new 77 0 0, []⟩ resetBetween, x.Increasing := by
  decide

end Ferogram.Mtproto
