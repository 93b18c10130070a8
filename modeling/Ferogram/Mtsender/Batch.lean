import Ferogram.Mtproto.MsgIds
import Ferogram.Mtsender.Sender

/- The bookkeeping of an outgoing frame.

   `try_fill_write` packs acknowledgements, resends and the pending requests, and only
   then looks up which request each packed message was, by its body. Equal bodies of
   requests do no harm, since requests are packed and looked up in one order; but an
   acknowledgement, or a resend, that has the body of a pending request is taken for
   it.

   What is proved: `tryFillWrite_exact_iff`, which says for every state when each
   pending request gets the id of its own message, the ids of the frame increase and
   the content-related messages have odd, increasing sequence numbers. -/
namespace Ferogram.Mtsender
open Bytes Connect Mtproto MtpSender

/-- A list increases when its second element is above the first and the rest increases. -/
theorem pairwise_cons_cons {α : Type} {R : α → α → Prop} (htrans : ∀ a b c, R a b → R b c → R a c)
    (a b : α) (l : List α) : (a :: b :: l).Pairwise R ↔ R a b ∧ (b :: l).Pairwise R := by
  rw [List.pairwise_cons]
  constructor
  · intro ⟨hall, hpair⟩
    exact ⟨hall b List.mem_cons_self, hpair⟩
  · intro ⟨hab, hpair⟩
    refine ⟨?_, hpair⟩
    intro x hx
    rcases List.mem_cons.mp hx with rfl | hx
    · exact hab
    · exact htrans a b x hab ((List.pairwise_cons.mp hpair).1 x hx)

/-! Ids in a row. -/

/-- The ids a session hands out at these readings of the corrected clock. -/
def idsFrom : Int64 → List Int64 → List Int64
  | _, [] => []
  | last, c :: clocks =>
    let id := if c ≤ last then last + 4 else c
    id :: idsFrom id clocks

/-- Each number leaves room for four more for every number after it. -/
def Room : List Int64 → Prop
  | [] => True
  | c :: clocks => c.toInt + 4 * clocks.length < 2 ^ 63 ∧ Room clocks

/-- Ids in a row increase exactly when they do not run into the end of the range. -/
theorem idsFrom_increasing_iff (id : Int64) (clocks : List Int64) (hid : 4 ∣ id.toInt)
    (hclocks : ∀ c ∈ clocks, 4 ∣ c.toInt) :
    (id :: idsFrom id clocks).Pairwise (· < ·) ↔ Room (id :: clocks) := by
  induction clocks generalizing id with
  | nil =>
    have := Int64.toInt_lt id
    simp only [idsFrom, List.pairwise_singleton, Room, true_iff]
    simpa using this
  | cons c clocks ih =>
    have hc := hclocks c List.mem_cons_self
    have hrest : ∀ c' ∈ clocks, 4 ∣ c'.toInt := fun c' hc' => hclocks c' (List.mem_cons_of_mem c hc')
    have hchain : ∀ next : Int64, (id :: next :: idsFrom next clocks).Pairwise (· < ·) ↔
        id < next ∧ (next :: idsFrom next clocks).Pairwise (· < ·) :=
      fun next => pairwise_cons_cons (R := (· < ·)) (fun _ _ _ => Int64.lt_trans) id next _
    have hlen : ((c :: clocks).length : Int) = clocks.length + 1 := by simp
    by_cases hle : c ≤ id
    · have hleInt := Int64.le_iff_toInt_le.mp hle
      show (id :: (if c ≤ id then id + 4 else c) :: idsFrom (if c ≤ id then id + 4 else c) clocks).Pairwise _ ↔ _
      rw [if_pos hle, hchain, ih (id + 4) (add_four_dvd hid) hrest, Int64.lt_iff_toInt_lt]
      simp only [Room, hlen]
      by_cases hfit : id ≤ Int64.maxValue - 4
      · rw [add_four_toInt hfit]
        constructor
        · intro ⟨_, hroom, hrooms⟩
          exact ⟨by omega, by omega, hrooms⟩
        · intro ⟨hroom, _, hrooms⟩
          exact ⟨by omega, by omega, hrooms⟩
      · -- the sum wraps to the least number
        have hmin : (id + 4).toInt = -2 ^ 63 := by
          rw [add_four_eq_minValue hfit hid]
          decide
        have hmax : (Int64.maxValue - 4).toInt = 2 ^ 63 - 5 := by decide
        have hlow := Int64.le_toInt id
        rw [Int64.le_iff_toInt_le, hmax] at hfit
        rw [hmin]
        constructor
        · intro ⟨hlt, _⟩
          omega
        · intro ⟨hroom, _⟩
          omega
    · have hlt := Int64.not_le.mp hle
      have hltInt := Int64.lt_iff_toInt_lt.mp hlt
      show (id :: (if c ≤ id then id + 4 else c) :: idsFrom (if c ≤ id then id + 4 else c) clocks).Pairwise _ ↔ _
      rw [if_neg hle, hchain, ih c hc hrest]
      simp only [Room, hlen]
      constructor
      · intro ⟨_, hroom, hrooms⟩
        exact ⟨by omega, hroom, hrooms⟩
      · intro ⟨_, hroom, hrooms⟩
        exact ⟨hlt, hroom, hrooms⟩

/-! Sequence numbers in a row. -/

/-- The sequence numbers of content-related messages. -/
def seqnosFrom : Int32 → Nat → List Int32
  | _, 0 => []
  | sequence, n + 1 => (sequence * 2 + 1) :: seqnosFrom (sequence + 1) n

theorem seqno_odd (sequence : Int32) : (sequence * 2 + 1).toInt % 2 = 1 := by
  have h : (sequence * 2 + 1).toInt = (sequence.toInt * 2 + 1).bmod (2 ^ 32) := by
    rw [Int32.toInt_add, Int32.toInt_mul]
    exact Int.bmod_add_bmod
  rw [h, Int.bmod_def]
  split <;> omega

theorem seqnosFrom_odd (sequence : Int32) (n : Nat) :
    ∀ q ∈ seqnosFrom sequence n, q.toInt % 2 = 1 := by
  induction n generalizing sequence with
  | zero => intro q hq; cases hq
  | succ n ih =>
    intro q hq
    rcases List.mem_cons.mp hq with rfl | hq
    · exact seqno_odd sequence
    · exact ih (sequence + 1) q hq

theorem seqnosFrom_increasing_iff (sequence : Int32) (n : Nat) :
    (seqnosFrom sequence n).Pairwise (· < ·) ↔ (sequence * 2 + 1).toInt + 2 * n ≤ 2 ^ 31 + 1 := by
  induction n generalizing sequence with
  | zero =>
    have := Int32.toInt_lt (sequence * 2 + 1)
    simp only [seqnosFrom, List.Pairwise.nil, true_iff]
    omega
  | succ n ih =>
    cases n with
    | zero =>
      have := Int32.toInt_lt (sequence * 2 + 1)
      simp only [seqnosFrom, List.pairwise_singleton, true_iff]
      omega
    | succ n =>
      have hchain : (seqnosFrom sequence (n + 1 + 1)).Pairwise (· < ·) ↔
          sequence * 2 + 1 < (sequence + 1) * 2 + 1 ∧
            (seqnosFrom (sequence + 1) (n + 1)).Pairwise (· < ·) :=
        pairwise_cons_cons (R := (· < ·)) (fun _ _ _ => Int32.lt_trans) _ _ _
      have hnext : ((sequence + 1) * 2 + 1).toInt = ((sequence * 2 + 1).toInt + 2).bmod (2 ^ 32) := by
        have hsum : (sequence + 1) * 2 + 1 = (sequence * 2 + 1) + 2 := by
          rw [Int32.add_mul, Int32.add_assoc, Int32.add_assoc]
          rfl
        rw [hsum, Int32.toInt_add]
        rfl
      have hlow := Int32.le_toInt (sequence * 2 + 1)
      have hhigh := Int32.toInt_lt (sequence * 2 + 1)
      rw [hchain, ih, Int32.lt_iff_toInt_lt, hnext, Int.bmod_def]
      split <;> constructor <;> omega

/-! Which request gets which id. -/

/-- The pending requests get the ids, in order. -/
def assign (containerMsgId : Int64) : List Request → List Int64 → List Request
  | [], _ => []
  | req :: requests, ids =>
    if req.state = .pending then
      match ids with
      | id :: ids => { req with state := .serialised id containerMsgId } :: assign containerMsgId requests ids
      | [] => req :: assign containerMsgId requests []
    else req :: assign containerMsgId requests ids

/-- Pending, with this body. -/
def awaits (body : List UInt8) (req : Request) : Bool := req.state = .pending ∧ req.body = body

/-- `mark_serialised` for every packed message. -/
def markAll (containerMsgId : Int64) : List Request → List InnerMessage → List Request :=
  List.foldl fun requests m => FirstMatch.changeFirst (awaits m.body)
    (fun req => { req with state := .serialised m.msgId containerMsgId }) requests

theorem foldl_markSerialised (inner : List InnerMessage) (containerMsgId : Int64) (s : MtpSender) :
    inner.foldl (fun s m => s.markSerialised m.body m.msgId containerMsgId) s =
      { s with requests := markAll containerMsgId s.requests inner } := by
  induction inner generalizing s with
  | nil => rfl
  | cons m inner ih =>
    rw [List.foldl_cons, ih]
    rfl

/-- The requests that go into the frame. -/
def pendingOf (requests : List Request) : List Request := requests.filter (·.state = .pending)

section
variable (c : Int64)

theorem markAll_nil (inner : List InnerMessage) : markAll c [] inner = [] := by
  induction inner with
  | nil => rfl
  | cons m inner ih => exact ih

/-- A request that does not wait is passed over. -/
theorem markAll_cons {req : Request} (h : req.state ≠ .pending) (requests : List Request)
    (inner : List InnerMessage) :
    markAll c (req :: requests) inner = req :: markAll c requests inner := by
  induction inner generalizing requests with
  | nil => rfl
  | cons m inner ih =>
    have hno : awaits m.body req = false := by simp [awaits, h]
    show markAll c (FirstMatch.changeFirst _ _ (req :: requests)) inner = _
    rw [FirstMatch.changeFirst_cons_neg _ hno, ih]
    rfl

/-- Messages that are just the pending requests, in order, find their own requests. -/
theorem markAll_own (requests : List Request) (inner : List InnerMessage)
    (h : inner.map InnerMessage.body = (pendingOf requests).map Request.body) :
    markAll c requests inner = assign c requests (inner.map InnerMessage.msgId) := by
  induction requests generalizing inner with
  | nil => exact markAll_nil c inner
  | cons req requests ih =>
    by_cases hp : req.state = .pending
    · have hpending : pendingOf (req :: requests) = req :: pendingOf requests :=
        List.filter_cons_of_pos (by simp [hp])
      rw [hpending] at h
      cases inner with
      | nil => cases h
      | cons m inner =>
        obtain ⟨hbody, hrest⟩ := List.cons.inj h
        have hyes : awaits m.body req = true := by simp [awaits, hp, hbody]
        show markAll c (FirstMatch.changeFirst _ _ (req :: requests)) inner = _
        rw [FirstMatch.changeFirst_cons_pos _ hyes, markAll_cons c (by simp), ih inner hrest]
        simp [assign, hp]
    · have hpending : pendingOf (req :: requests) = pendingOf requests :=
        List.filter_cons_of_neg (by simp [hp])
      rw [hpending] at h
      rw [markAll_cons c hp, ih inner h]
      simp [assign, hp]

theorem markAll_of_none {requests : List Request} {inner : List InnerMessage}
    (h : ∀ m ∈ inner, ∀ req ∈ requests, awaits m.body req = false) :
    markAll c requests inner = requests := by
  induction inner with
  | nil => rfl
  | cons m inner ih =>
    show markAll c (FirstMatch.changeFirst _ _ requests) inner = requests
    rw [FirstMatch.changeFirst_of_none (h m List.mem_cons_self)]
    exact ih fun m' hm' => h m' (List.mem_cons_of_mem m hm')

/-- A request that does not wait keeps its place and its state. -/
theorem markAll_getElem? {requests : List Request} {i : Nat} {req : Request}
    (hi : requests[i]? = some req) (h : req.state ≠ .pending) (inner : List InnerMessage) :
    (markAll c requests inner)[i]? = some req := by
  induction inner generalizing requests with
  | nil => exact hi
  | cons m inner ih =>
    have hno : awaits m.body req = false := by simp [awaits, h]
    exact ih (FirstMatch.changeFirst_getElem? hi hno)

/-- Where a message has the body of a pending request, some pending request gets its id. -/
theorem exists_marked {requests : List Request} {inner : List InnerMessage}
    (h : ∃ m ∈ inner, ∃ req ∈ requests, awaits m.body req = true) :
    ∃ (i : Nat) (req : Request) (m : InnerMessage), requests[i]? = some req ∧ req.state = .pending ∧
      m ∈ inner ∧ (markAll c requests inner)[i]? = some { req with state := .serialised m.msgId c } := by
  induction inner with
  | nil =>
    obtain ⟨m, hm, -⟩ := h
    cases hm
  | cons m inner ih =>
    by_cases hhead : ∃ req ∈ requests, awaits m.body req = true
    · obtain ⟨i, req, hi, hawaits, hchanged⟩ := FirstMatch.exists_changeFirst
        (g := fun req => { req with state := .serialised m.msgId c }) hhead
      have hpending : req.state = .pending := by
        simp only [awaits, decide_eq_true_eq] at hawaits
        exact hawaits.1
      exact ⟨i, req, m, hi, hpending, List.mem_cons_self, markAll_getElem? c hchanged (by simp) inner⟩
    · have hnone : ∀ req ∈ requests, awaits m.body req = false := by
        intro req hreq
        cases hawaits : awaits m.body req with
        | false => rfl
        | true => exact absurd ⟨req, hreq, hawaits⟩ hhead
      have hrest : ∃ m ∈ inner, ∃ req ∈ requests, awaits m.body req = true := by
        obtain ⟨m', hm', req, hreq, hawaits⟩ := h
        rcases List.mem_cons.mp hm' with rfl | hm'
        · rw [hnone req hreq] at hawaits
          cases hawaits
        · exact ⟨m', hm', req, hreq, hawaits⟩
      obtain ⟨i, req, m', hi, hpending, hm', hmarked⟩ := ih hrest
      refine ⟨i, req, m', hi, hpending, List.mem_cons_of_mem m hm', ?_⟩
      show (markAll c (FirstMatch.changeFirst _ _ requests) inner)[i]? = _
      rw [FirstMatch.changeFirst_of_none hnone]
      exact hmarked

/-- What `assign` gives a pending request is one of the ids, if they suffice. -/
theorem assign_getElem? {requests : List Request} {ids : List Int64} {i : Nat} {req : Request}
    (hlen : (pendingOf requests).length ≤ ids.length) (hi : requests[i]? = some req)
    (hp : req.state = .pending) :
    ∃ id ∈ ids, (assign c requests ids)[i]? = some { req with state := .serialised id c } := by
  induction requests generalizing ids i with
  | nil => simp at hi
  | cons r requests ih =>
    by_cases hr : r.state = .pending
    · have hpending : pendingOf (r :: requests) = r :: pendingOf requests :=
        List.filter_cons_of_pos (by simp [hr])
      rw [hpending, List.length_cons] at hlen
      cases ids with
      | nil => simp at hlen
      | cons id ids =>
        rw [assign, if_pos hr]
        cases i with
        | zero =>
          have hsame : r = req := by simpa using hi
          exact ⟨id, List.mem_cons_self, by simp [hsame]⟩
        | succ i =>
          obtain ⟨id', hid', hget⟩ := @ih ids i (by simpa using hlen) (by simpa using hi)
          exact ⟨id', List.mem_cons_of_mem id hid', by simpa using hget⟩
    · have hpending : pendingOf (r :: requests) = pendingOf requests :=
        List.filter_cons_of_neg (by simp [hr])
      rw [hpending] at hlen
      have hassign : assign c (r :: requests) ids = r :: assign c requests ids := by simp [assign, hr]
      rw [hassign]
      cases i with
      | zero =>
        have hsame : r = req := by simpa using hi
        exact absurd (hsame ▸ hp) hr
      | succ i =>
        obtain ⟨id', hid', hget⟩ := ih (i := i) hlen (by simpa using hi)
        exact ⟨id', hid', by simpa using hget⟩

/-- The pending requests get the ids of their own messages exactly when no message before
these has the body of one of them. -/
theorem markAll_eq_assign_iff (requests : List Request) (front back : List InnerMessage)
    (hback : back.map InnerMessage.body = (pendingOf requests).map Request.body)
    (hids : ∀ m ∈ front, ∀ m' ∈ back, m.msgId ≠ m'.msgId) :
    markAll c requests (front ++ back) = assign c requests (back.map InnerMessage.msgId) ↔
      ∀ m ∈ front, ∀ req ∈ requests, awaits m.body req = false := by
  have hfold : markAll c requests (front ++ back) = markAll c (markAll c requests front) back :=
    List.foldl_append
  constructor
  · intro heq m hm req hreq
    cases hawaits : awaits m.body req with
    | false => rfl
    | true =>
      obtain ⟨i, r, m', hi, hp, hm', hmarked⟩ := exists_marked c ⟨m, hm, req, hreq, hawaits⟩
      have hkept := markAll_getElem? c hmarked (by simp) back
      have hlen : (pendingOf requests).length ≤ (back.map InnerMessage.msgId).length := by
        have := congrArg List.length hback
        simp only [List.length_map] at this ⊢
        omega
      obtain ⟨id, hid, hget⟩ := assign_getElem? c hlen hi hp
      rw [← hfold, heq, hget] at hkept
      obtain ⟨own, hown, rfl⟩ := List.mem_map.mp hid
      have hsame : own.msgId = m'.msgId := by simpa using hkept
      exact absurd hsame.symm (hids m' hm' own hown)
  · intro hnone
    rw [hfold, markAll_of_none c hnone]
    exact markAll_own c requests back hback

end

/-! What is packed. -/

/-- The ids the clock asks for at the readings from `tick` on. -/
def clocks (w : World) (timeOffset : Int32) : Nat → Nat → List Int64
  | _, 0 => []
  | tick, n + 1 => clockMsgId (w.clock tick) timeOffset :: clocks w timeOffset (tick + 1) n

theorem clocks_dvd (w : World) (timeOffset : Int32) (tick n : Nat) :
    ∀ c ∈ clocks w timeOffset tick n, 4 ∣ c.toInt := by
  induction n generalizing tick with
  | zero => intro c hc; cases hc
  | succ n ih =>
    intro c hc
    rcases List.mem_cons.mp hc with rfl | hc
    · exact clockMsgId_dvd _ _
    · exact ih (tick + 1) c hc

/-- The sequence numbers of the content-related messages. -/
def contentSeqnos (inner : List InnerMessage) (msgs : List (List UInt8 × Bool)) : List Int32 :=
  ((inner.zip msgs).filter (·.2.2)).map (·.1.seqno)

theorem allocMsgSeqno_timeOffset (enc : EncryptedSession) (now : Clock) (c : Bool) :
    (enc.allocMsgSeqno now c).2.timeOffset = enc.timeOffset := by
  cases c <;> rfl

section
variable (w : World)

theorem allocAll_bodies (msgs : List (List UInt8 × Bool)) (tick : Nat) (enc : EncryptedSession) :
    (allocAll w tick enc msgs).1.map InnerMessage.body = msgs.map Prod.fst := by
  induction msgs generalizing tick enc with
  | nil => rfl
  | cons msg msgs ih => exact congrArg (msg.1 :: ·) (ih _ _)

/-- The ids of the messages, and the one that follows. -/
theorem allocAll_ids (msgs : List (List UInt8 × Bool)) (tick : Nat) (enc : EncryptedSession) :
    (allocAll w tick enc msgs).1.map InnerMessage.msgId ++
        [(allocAll w tick enc msgs).2.nextId (w.clock (tick + msgs.length))] =
      idsFrom enc.lastMsgId (clocks w enc.timeOffset tick (msgs.length + 1)) := by
  induction msgs generalizing tick enc with
  | nil => rfl
  | cons msg msgs ih =>
    have hid := enc.allocMsgSeqno_msgId (w.clock tick) msg.2
    have hlast := enc.allocMsgSeqno_lastMsgId (w.clock tick) msg.2
    have hoffset := allocMsgSeqno_timeOffset enc (w.clock tick) msg.2
    have ih := ih (tick + 1) (enc.allocMsgSeqno (w.clock tick) msg.2).2
    rw [hlast, hoffset, Nat.add_right_comm tick 1] at ih
    show (enc.allocMsgSeqno (w.clock tick) msg.2).1.1 :: _ = enc.nextId (w.clock tick) :: _
    rw [hid]
    exact congrArg (enc.nextId (w.clock tick) :: ·) ih

theorem allocAll_seqnos (msgs : List (List UInt8 × Bool)) (tick : Nat) (enc : EncryptedSession) :
    contentSeqnos (allocAll w tick enc msgs).1 msgs = seqnosFrom enc.sequence (msgs.countP (·.2)) := by
  induction msgs generalizing tick enc with
  | nil => rfl
  | cons msg msgs ih =>
    obtain ⟨body, content⟩ := msg
    have ih := ih (tick + 1) (enc.allocMsgSeqno (w.clock tick) content).2
    cases content with
    | true =>
      rw [List.countP_cons_of_pos (by rfl), seqnosFrom]
      exact congrArg ((enc.sequence * 2 + 1) :: ·) ih
    | false =>
      rw [List.countP_cons_of_neg (by simp)]
      exact ih

end

/-! The whole frame. -/

/-- What stands before the requests in the frame. -/
def front (s : MtpSender) : List (List UInt8 × Bool) :=
  (if s.pendingAck = [] then [] else [(buildMsgsAckBody s.pendingAck, false)]) ++
    s.resendQueue.map (·, true)

theorem collect_eq (s : MtpSender) :
    s.collect = front s ++ (pendingOf s.requests).map fun req => (req.body, true) := rfl

/-- The ids of a frame in the order they were asked for, the container's last. -/
def frameIds (packed : Packed) : List Int64 :=
  packed.inner.map InnerMessage.msgId ++
    if packed.inner.length = 1 then [] else [packed.envelope.msgId]

/-- How many ids the next frame takes. -/
def idCount (s : MtpSender) : Nat :=
  if s.collect.length ≤ 1 then s.collect.length else s.collect.length + 1

/-- The first id of the frame, and what the clock asks for at the readings after it. -/
def asked (w : World) (s : MtpSender) : List Int64 :=
  match idCount s with
  | 0 => []
  | n + 1 => s.enc.nextId (w.clock s.tick) :: clocks w s.enc.timeOffset (s.tick + 1) n

/-- The frame that goes out is what the sender notes down: the envelope carries the messages,
each pending request has the id of its own, the ids increase, and the content-related messages
have odd, increasing sequence numbers. -/
structure ExactFrame (w : World) (s s' : MtpSender) (packed : Packed) : Prop where
  wire : ∃ t, s'.writeBuf = w.encode t packed.envelope
  carried : packed.inner = [⟨packed.envelope.msgId, packed.envelope.seqNo, packed.envelope.body⟩] ∨
    packed.envelope.body = buildContainerBody packed.inner
  bodies : packed.inner.map InnerMessage.body = s.collect.map Prod.fst
  own : s'.requests = assign packed.envelope.msgId s.requests
    ((packed.inner.drop (front s).length).map InnerMessage.msgId)
  ids : (frameIds packed).Pairwise (· < ·)
  odd : ∀ q ∈ contentSeqnos packed.inner s.collect, q.toInt % 2 = 1
  seqnos : (contentSeqnos packed.inner s.collect).Pairwise (· < ·)

/-- A frame goes out and is noted down, or none does and no request changes. -/
def Exact (w : World) (s : MtpSender) (r : MtpSender × Option Packed) : Prop :=
  match r.2 with
  | some packed => ExactFrame w s r.1 packed
  | none => r.1.requests = s.requests

/-- No acknowledgement or resend of the frame has the body of a pending request. -/
def Unmistaken (s : MtpSender) : Prop := ∀ m ∈ front s, ∀ req ∈ s.requests, awaits m.1 req = false

/-- The sequence numbers of the frame end before the range does. -/
def SeqnosFit (s : MtpSender) : Prop :=
  (s.enc.sequence * 2 + 1).toInt + 2 * (s.resendQueue.length + (pendingOf s.requests).length) ≤ 2 ^ 31 + 1

section
variable {w : World} {s : MtpSender}

/-- The sender with what goes into the frame taken out. -/
def MtpSender.emptied (s : MtpSender) : MtpSender :=
  { s with writeBuf := [], writeHead := 0, pendingAck := [], resendQueue := [] }

/-- The frame goes into the write buffer. -/
def filled (w : World) (r : MtpSender × Packed) : MtpSender × Option Packed :=
  ({ r.1 with writeBuf := w.encode r.1.tick r.2.envelope, tick := r.1.tick + 1 }, some r.2)

/-- Single or in a container, the messages are allocated in one way and looked up in one way. -/
theorem tryFillWrite_packs (hfree : ¬s.writeHead < s.writeBuf.length) (hne : s.collect ≠ []) :
    ∃ s' packed, s.tryFillWrite w = (s', some packed) ∧
      (∃ t, s'.writeBuf = w.encode t packed.envelope) ∧
      (packed.inner = [⟨packed.envelope.msgId, packed.envelope.seqNo, packed.envelope.body⟩] ∨
        packed.envelope.body = buildContainerBody packed.inner) ∧
      packed.inner = (allocAll w s.tick s.enc s.collect).1 ∧
      s'.requests = markAll packed.envelope.msgId s.requests packed.inner ∧
      frameIds packed = idsFrom s.enc.lastMsgId (clocks w s.enc.timeOffset s.tick (idCount s)) := by
  cases hmsgs : s.collect with
  | nil => exact absurd hmsgs hne
  | cons msg msgs =>
    cases msgs with
    | nil =>
      obtain ⟨body, content⟩ := msg
      have hcount : idCount s = 1 := by simp [idCount, hmsgs]
      have htry : s.tryFillWrite w = filled w (packSingle w s.emptied body content) := by
        rw [tryFillWrite, if_neg hfree, hmsgs]
        rfl
      refine ⟨_, _, htry, ⟨_, rfl⟩, .inl ?_, ?_, ?_, ?_⟩
      · cases content <;> rfl
      · cases content <;> rfl
      · cases content <;> rfl
      · rw [hcount]
        cases content <;> rfl
    | cons msg' msgs =>
      have hcount : idCount s = (msg :: msg' :: msgs).length + 1 := by simp [idCount, hmsgs]
      have hlen : (allocAll w s.tick s.enc (msg :: msg' :: msgs)).1.length ≠ 1 := by
        have := congrArg List.length (allocAll_bodies w (msg :: msg' :: msgs) s.tick s.enc)
        simp only [List.length_map, List.length_cons] at this
        omega
      have htry : s.tryFillWrite w = filled w (packContainer w s.emptied (msg :: msg' :: msgs)) := by
        rw [tryFillWrite, if_neg hfree, hmsgs]
        rfl
      refine ⟨_, _, htry, ⟨_, rfl⟩, .inr rfl, rfl, ?_, ?_⟩
      · show MtpSender.requests (List.foldl _ _ _) = _
        rw [foldl_markSerialised]
        rfl
      · rw [hcount, ← allocAll_ids]
        unfold frameIds
        have hinner : (packContainer w s.emptied (msg :: msg' :: msgs)).2.inner.length ≠ 1 := hlen
        rw [if_neg hinner]
        rfl

theorem idsFrom_room_iff (h : s.collect ≠ []) :
    (idsFrom s.enc.lastMsgId (clocks w s.enc.timeOffset s.tick (idCount s))).Pairwise (· < ·) ↔
      Room (asked w s) := by
  unfold asked
  cases hcount : idCount s with
  | zero =>
    have hlen : s.collect.length ≠ 0 := by
      rw [Ne, List.length_eq_zero_iff]
      exact h
    unfold idCount at hcount
    split at hcount <;> omega
  | succ n =>
    exact idsFrom_increasing_iff (s.enc.nextId (w.clock s.tick)) _ (s.enc.nextId_dvd _)
      (clocks_dvd w s.enc.timeOffset (s.tick + 1) n)

/-- The content-related messages are the resends and the requests. -/
theorem countP_collect : s.collect.countP (·.2) = s.resendQueue.length + (pendingOf s.requests).length := by
  have hacks : ((if s.pendingAck = [] then [] else [(buildMsgsAckBody s.pendingAck, false)]) :
      List (List UInt8 × Bool)).countP (·.2) = 0 := by
    split <;> rfl
  have hall : ∀ l : List (List UInt8), (l.map (·, true)).countP (·.2) = l.length := by
    intro l
    rw [List.countP_map]
    simp [Function.comp_def]
  rw [collect_eq, front, List.countP_append, List.countP_append, hacks, hall, Nat.zero_add]
  rw [List.countP_map]
  simp [Function.comp_def]

/-- With increasing ids, the requests are noted down under their own exactly when none is
mistaken. -/
theorem own_iff {inner : List InnerMessage} (c : Int64)
    (hbodies : inner.map InnerMessage.body = s.collect.map Prod.fst)
    (hids : (inner.map InnerMessage.msgId).Pairwise (· < ·)) :
    markAll c s.requests inner =
        assign c s.requests ((inner.drop (front s).length).map InnerMessage.msgId) ↔ Unmistaken s := by
  have hfront : (inner.take (front s).length).map InnerMessage.body = (front s).map Prod.fst := by
    rw [List.map_take, hbodies, collect_eq, List.map_append, List.take_left' (by simp)]
  have hback : (inner.drop (front s).length).map InnerMessage.body =
      (pendingOf s.requests).map Request.body := by
    rw [List.map_drop, hbodies, collect_eq, List.map_append, List.drop_left' (by simp), List.map_map]
    rfl
  have hdistinct : ∀ m ∈ inner.take (front s).length, ∀ m' ∈ inner.drop (front s).length,
      m.msgId ≠ m'.msgId := by
    rw [← List.take_append_drop (front s).length inner, List.map_append, List.pairwise_append] at hids
    intro m hm m' hm'
    exact Int64.ne_of_lt (hids.2.2 _ (List.mem_map_of_mem hm) _ (List.mem_map_of_mem hm'))
  have hiff := markAll_eq_assign_iff c s.requests _ _ hback hdistinct
  rw [List.take_append_drop] at hiff
  rw [hiff]
  unfold Unmistaken
  constructor
  · intro h x hx req hreq
    have hmem : x.1 ∈ (inner.take (front s).length).map InnerMessage.body := by
      rw [hfront]
      exact List.mem_map_of_mem hx
    obtain ⟨m, hm, hbody⟩ := List.mem_map.mp hmem
    rw [← hbody]
    exact h m hm req hreq
  · intro h m hm req hreq
    have hmem : m.body ∈ (front s).map Prod.fst := by
      rw [← hfront]
      exact List.mem_map_of_mem hm
    obtain ⟨x, hx, hbody⟩ := List.mem_map.mp hmem
    rw [← hbody]
    exact h x hx req hreq

/-- A frame without messages needs nothing. -/
theorem empty_fits (h : s.collect = []) : Unmistaken s ∧ Room (asked w s) ∧ SeqnosFit s := by
  have hfront : front s = [] := (List.append_eq_nil_iff.mp ((collect_eq s).symm.trans h)).1
  have hroom : asked w s = [] := by simp [asked, idCount, h]
  have hcount : s.resendQueue.length + (pendingOf s.requests).length = 0 := by
    rw [← countP_collect, h]
    rfl
  refine ⟨?_, ?_, ?_⟩
  · intro m hm
    rw [hfront] at hm
    cases hm
  · rw [hroom]
    trivial
  · have hseqno := Int32.toInt_lt (s.enc.sequence * 2 + 1)
    unfold SeqnosFit
    omega

/-- The sequence numbers of the frame increase exactly when they end before the range does. -/
theorem contentSeqnos_increasing_iff :
    (contentSeqnos (allocAll w s.tick s.enc s.collect).1 s.collect).Pairwise (· < ·) ↔ SeqnosFit s := by
  rw [allocAll_seqnos, countP_collect, seqnosFrom_increasing_iff, SeqnosFit]
  norm_cast

/-- A frame with messages is noted down exactly as it is packed exactly when no request is
mistaken and nothing runs into the end of its range. -/
theorem packed_exact_iff (hfree : ¬s.writeHead < s.writeBuf.length) (hne : s.collect ≠ []) :
    Exact w s (s.tryFillWrite w) ↔ Unmistaken s ∧ Room (asked w s) ∧ SeqnosFit s := by
  obtain ⟨s', packed, htry, hwire, hcarried, hinner, hrequests, hframe⟩ :=
    tryFillWrite_packs (w := w) hfree hne
  have hbodies : packed.inner.map InnerMessage.body = s.collect.map Prod.fst := by
    rw [hinner]
    exact allocAll_bodies w s.collect s.tick s.enc
  have hodd : ∀ q ∈ contentSeqnos packed.inner s.collect, q.toInt % 2 = 1 := by
    rw [hinner, allocAll_seqnos]
    exact seqnosFrom_odd _ _
  have hseqnos : (contentSeqnos packed.inner s.collect).Pairwise (· < ·) ↔ SeqnosFit s := by
    rw [hinner]
    exact contentSeqnos_increasing_iff
  have hids : (frameIds packed).Pairwise (· < ·) ↔ Room (asked w s) := by
    rw [hframe]
    exact idsFrom_room_iff hne
  have hown : (frameIds packed).Pairwise (· < ·) →
      (s'.requests = assign packed.envelope.msgId s.requests
        ((packed.inner.drop (front s).length).map InnerMessage.msgId) ↔ Unmistaken s) := by
    intro hpair
    rw [hrequests]
    exact own_iff packed.envelope.msgId hbodies (List.pairwise_append.mp hpair).1
  rw [htry]
  constructor
  · intro h
    have h : ExactFrame w s s' packed := h
    exact ⟨(hown h.ids).mp h.own, hids.mp h.ids, hseqnos.mp h.seqnos⟩
  · intro ⟨hmistaken, hroom, hfit⟩
    have hpair := hids.mpr hroom
    show ExactFrame w s s' packed
    exact ⟨hwire, hcarried, hbodies, (hown hpair).mpr hmistaken, hpair, hodd, hseqnos.mpr hfit⟩

end

/-- A frame is noted down exactly when it is packed, or no frame is packed because the last one
is still being written, exactly when no acknowledgement or resend has the body of a pending
request and neither the ids nor the sequence numbers run into the end of their range. -/
theorem tryFillWrite_exact_iff (w : World) (s : MtpSender) :
    Exact w s (s.tryFillWrite w) ↔ s.writeHead < s.writeBuf.length ∨
      (Unmistaken s ∧ Room (asked w s) ∧ SeqnosFit s) := by
  by_cases hbusy : s.writeHead < s.writeBuf.length
  · rw [tryFillWrite, if_pos hbusy]
    exact ⟨fun _ => .inl hbusy, fun _ => rfl⟩
  · rw [or_iff_right hbusy]
    by_cases hne : s.collect = []
    · -- Nothing to send: no frame is packed and the conditions hold of it.
      have hnone : Exact w s (s.tryFillWrite w) := by
        rw [tryFillWrite, if_neg hbusy, hne]
        rfl
      exact ⟨fun _ => empty_fits hne, fun _ => hnone⟩
    · exact packed_exact_iff hbusy hne

/-- A caller acknowledges a message of the server's by itself, while the sender does so too. -/
def ackTwice : MtpSender := { idle.enqueue (buildMsgsAckBody [5]) 0 with pendingAck := [5] }

/-- The request is noted down under the id of the sender's acknowledgement. -/
theorem ack_taken_for_request : ¬Exact plainWorld ackTwice (ackTwice.tryFillWrite plainWorld) := by
  intro h
  have hown := ExactFrame.own h
  revert hown
  decide

end Ferogram.Mtsender
