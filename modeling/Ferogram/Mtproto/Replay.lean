import Ferogram.Lib.Fifo
import Ferogram.Lib.Run
import Ferogram.Mtproto.Unpack

/- Runs of decryptions over one ring of seen ids (`ferogram-mtproto/src/encrypted.rs`).

   Any number of sessions share the ring; `unpack` and `decrypt_frame_dedup_with_offset` are
   called on any frames in any order, and sessions are reset in between. A message that was
   accepted is refused as long as its id is in the ring, and by the time window later; but
   the ring forgets an id when 500 others have come, and the window does not.

   What is proved: `accepted_apart`, which says what lies between two acceptances of an id,
   and `accepted_twice`, a run with two of them. -/
namespace Ferogram.Mtproto
open Bytes Crypto

namespace Replay

inductive Call where
  | unpack (session : Nat) (frame : List UInt8)
  | decryptFrameDedupWithOffset (authKey : List.Vector UInt8 256) (sessionId : Int64) (frame : List UInt8)
  | resetSession (session : Nat) (fresh : Int64)

/-- A call, and the clock it reads. -/
structure Event where
  now : Clock
  call : Call

structure Shared where
  sessions : Nat → EncryptedSession
  seen : SeenMsgIds

/-- What a call has done: the id it has entered in the ring, and the message it has returned. -/
structure Entry where
  now : Clock
  entered : Option Int64
  accepted : Option DecryptedMessage

section
variable (P : Primitives) (authKeys : Nat → List.Vector UInt8 256) (timeOffset : Int32)

/-- What a decryption returns, and the ring after it. -/
def decrypted (s : Shared) (e : Event) : Except UnpackError DecryptedMessage × SeenMsgIds :=
  match e.call with
  | .unpack k frame => (s.sessions k).unpack P (authKeys k) s.seen e.now frame
  | .decryptFrameDedupWithOffset authKey sessionId frame =>
    decryptFrameDedupWithOffset P authKey sessionId e.now frame s.seen timeOffset
  | .resetSession _ _ => (.error .sessionMismatch, s.seen)

def next (s : Shared) (e : Event) : Shared :=
  match e.call with
  | .resetSession k fresh =>
    { s with sessions := fun i => if i = k then (s.sessions k).resetSession fresh else s.sessions i }
  | _ => { s with seen := (decrypted P authKeys timeOffset s e).2 }

def entry (s : Shared) (e : Event) : Entry where
  now := e.now
  entered :=
    let seen := (next P authKeys timeOffset s e).seen
    if seen = s.seen then none else seen.order.getLast?
  accepted := (decrypted P authKeys timeOffset s e).1.toOption

/-- What the calls of a run have done. -/
def trace : Shared → List Event → List Entry
  | _, [] => []
  | s, e :: es => entry P authKeys timeOffset s e :: trace (next P authKeys timeOffset s e) es

end

/-! One call. -/

theorem push_order (seen : SeenMsgIds) {msgId : Int64} (fresh : msgId ∉ seen.ids) :
    (seen.push msgId fresh).order = Fifo.push seenMsgIdsMax seen.order msgId := by
  change (SeenMsgIds.pushed seen.order seen.ids msgId).1 = _
  unfold SeenMsgIds.pushed Fifo.push
  cases seen.order with
  | nil => rfl
  | cons old order =>
    change (if _ then (_, _) else (_, _) : List Int64 × Finset Int64).1 = _
    split
    · next h => exact (if_pos h).symm
    · next h => exact (if_neg h).symm

/-- A call leaves the ring alone and returns no message, or it enters an id that was not in the ring,
and the message that it returns has this id and is of the time. -/
inductive Enters (now : Clock) (timeOffset : Int32) (seen : SeenMsgIds) :
    Except UnpackError DecryptedMessage × SeenMsgIds → Prop
  | refused (e : UnpackError) : Enters now timeOffset seen (.error e, seen)
  | entered (msgId : Int64) (fresh : msgId ∉ seen.ids) (result : Except UnpackError DecryptedMessage)
      (hwindow : InTimeWindow now timeOffset msgId) (hresult : ∀ msg, result = .ok msg → msg.msgId = msgId) :
      Enters now timeOffset seen (result, seen.push msgId fresh)

section
variable {P : Primitives} {authKey : List.Vector UInt8 256} {now : Clock} {seen : SeenMsgIds} {frame : List UInt8}

theorem unpack_enters (s : EncryptedSession) :
    Enters now s.timeOffset seen (s.unpack P authKey seen now frame) := by
  cases hd : decryptDataV2 P frame (AuthKey.fromBytes P authKey) with
  | error e =>
    unfold EncryptedSession.unpack
    rw [hd]
    exact .refused _
  | ok plaintext =>
    by_cases h : Addressed s now plaintext
    · rw [unpack_addressed seen hd h]
      split
      · exact .refused _
      · next fresh =>
        split
        · exact .entered _ fresh _ h.window fun msg hmsg => by rw [← Except.ok.inj hmsg]; rfl
        · exact .entered _ fresh _ h.window (by intro msg hmsg; cases hmsg)
    · obtain ⟨e, hone, -⟩ := unaddressed_fails seen hd h
      rw [hone]
      exact .refused e

/-- The other function makes its checks on the values of a session. -/
theorem dedup_enters (sessionId : Int64) (timeOffset : Int32) :
    Enters now timeOffset seen (decryptFrameDedupWithOffset P authKey sessionId now frame seen timeOffset) := by
  let s := EncryptedSession.new sessionId 0 timeOffset
  change Enters now s.timeOffset seen (decryptFrameDedupWithOffset P authKey s.sessionId now frame seen s.timeOffset)
  cases hd : decryptDataV2 P frame (AuthKey.fromBytes P authKey) with
  | error e =>
    have hother : decryptFrameWithOffset P authKey s.sessionId now frame s.timeOffset = .error (.crypto e) := by
      unfold decryptFrameWithOffset
      rw [hd]
    rw [dedup_of_error seen hother]
    exact .refused _
  | ok plaintext =>
    by_cases h : Addressed s now plaintext
    · have hother := decryptFrameWithOffset_addressed hd h
      by_cases hgood : GoodBody plaintext
      · rw [if_pos hgood] at hother
        rw [dedup_of_ok seen hother]
        split
        · exact .refused _
        · next fresh => exact .entered _ fresh _ h.window fun msg hmsg => by rw [← Except.ok.inj hmsg]
      · rw [if_neg hgood] at hother
        rw [dedup_of_error seen hother]
        exact .refused _
    · obtain ⟨e, -, hother⟩ := unaddressed_fails seen hd h
      rw [dedup_of_error seen hother]
      exact .refused e

end

section
variable {P : Primitives} {authKeys : Nat → List.Vector UInt8 256} {timeOffset : Int32}

/-- Every session is at the offset. -/
def AtOffset (timeOffset : Int32) (s : Shared) : Prop := ∀ k, (s.sessions k).timeOffset = timeOffset

theorem next_atOffset {s : Shared} (h : AtOffset timeOffset s) (e : Event) :
    AtOffset timeOffset (next P authKeys timeOffset s e) := by
  unfold next
  split
  · intro i
    dsimp only
    split
    · exact h _
    · exact h i
  · exact h

variable (P authKeys) in
/-- What an entry says of the ring before and after it. -/
theorem entry_cases {s : Shared} (h : AtOffset timeOffset s) (e : Event) :
    ((entry P authKeys timeOffset s e).entered = none ∧ (entry P authKeys timeOffset s e).accepted = none ∧
      (next P authKeys timeOffset s e).seen = s.seen) ∨
    ∃ msgId, (entry P authKeys timeOffset s e).entered = some msgId ∧ msgId ∉ s.seen.order ∧
      (next P authKeys timeOffset s e).seen.order = Fifo.push seenMsgIdsMax s.seen.order msgId ∧
      InTimeWindow e.now timeOffset msgId ∧
      ∀ msg, (entry P authKeys timeOffset s e).accepted = some msg → msg.msgId = msgId := by
  -- whatever is decrypted goes through the duplicate check
  have henters : Enters e.now timeOffset s.seen (decrypted P authKeys timeOffset s e) := by
    unfold decrypted
    split
    · next k frame _ =>
      rw [← h k]
      exact unpack_enters (s.sessions k)
    · exact dedup_enters _ _
    · exact .refused _
  have hnext : (next P authKeys timeOffset s e).seen = (decrypted P authKeys timeOffset s e).2 := by
    unfold next
    split
    · next k fresh hcall =>
      unfold decrypted
      rw [hcall]
    · rfl
  unfold entry
  dsimp only
  rw [hnext]
  generalize decrypted P authKeys timeOffset s e = r at henters
  cases henters with
  | refused err => exact Or.inl ⟨if_pos rfl, rfl, rfl⟩
  | entered msgId fresh result hwindow hresult =>
    have horder := push_order s.seen fresh
    have hlast : (s.seen.push msgId fresh).order.getLast? = some msgId := by
      rw [horder]
      exact Fifo.getLast?_push (by decide) s.seen.order msgId
    refine Or.inr ⟨msgId, ?_, fun hmem => fresh ((s.seen.mem_ids msgId).mpr hmem), horder, hwindow, ?_⟩
    · dsimp only
      rw [if_neg (s.seen.push_ne fresh), hlast]
    · intro msg hmsg
      dsimp only at hmsg
      cases result with
      | error err => cases hmsg
      | ok m => exact hresult msg (congrArg Except.ok (Option.some.inj hmsg))

/-! Runs. -/

/-- The ring is the last of what has been entered. -/
def Kept (history : List Int64) (s : Shared) : Prop := s.seen.order = Fifo.last seenMsgIdsMax history

variable (P authKeys) in
theorem entry_kept {s : Shared} (h : AtOffset timeOffset s) {history : List Int64} (hkept : Kept history s) (e : Event) :
    Kept (history ++ (entry P authKeys timeOffset s e).entered.toList) (next P authKeys timeOffset s e) := by
  rcases entry_cases P authKeys h e with ⟨hnone, -, hsame⟩ | ⟨msgId, hsome, -, hpush, -, -⟩
  · rw [hnone]
    unfold Kept
    rw [hsame, Option.toList_none, List.append_nil]
    exact hkept
  · rw [hsome]
    unfold Kept at hkept ⊢
    rw [hpush, hkept, Option.toList_some]
    exact Fifo.push_last _ history msgId

/-- What the entries say was entered. -/
def enteredIn (entries : List Entry) : List Int64 := entries.filterMap Entry.entered

theorem enteredIn_cons (x : Entry) (entries : List Entry) :
    enteredIn (x :: entries) = x.entered.toList ++ enteredIn entries := by
  unfold enteredIn
  rw [List.filterMap_cons]
  cases x.entered <;> rfl

/-- What holds where an entry of a run was made. -/
theorem trace_split {s : Shared} {es : List Event} {before after : List Entry} {x : Entry} {history : List Int64}
    (hoffset : AtOffset timeOffset s) (hkept : Kept history s)
    (h : trace P authKeys timeOffset s es = before ++ x :: after) :
    ∃ (s' : Shared) (done : List Event) (e : Event) (todo : List Event), es = done ++ e :: todo ∧
      AtOffset timeOffset s' ∧ Kept (history ++ enteredIn before) s' ∧ x = entry P authKeys timeOffset s' e ∧
      after = trace P authKeys timeOffset (next P authKeys timeOffset s' e) todo := by
  induction before generalizing s es history with
  | nil =>
    cases es with
    | nil => cases h
    | cons e es =>
      obtain ⟨hx, hafter⟩ := List.cons.inj h
      refine ⟨s, [], e, es, rfl, hoffset, ?_, hx.symm, hafter.symm⟩
      rw [enteredIn, List.filterMap_nil, List.append_nil]
      exact hkept
  | cons y before ih =>
    cases es with
    | nil => cases h
    | cons e es =>
      obtain ⟨hy, hrest⟩ := List.cons.inj h
      obtain ⟨s', done, e', todo, hes, hoffset', hkept', hx, hafter⟩ :=
        ih (next_atOffset hoffset e) (entry_kept P authKeys hoffset hkept e) hrest
      refine ⟨s', e :: done, e', todo, by rw [hes]; rfl, hoffset', ?_, hx, hafter⟩
      rw [enteredIn_cons, ← hy, ← List.append_assoc]
      exact hkept'

end

/-! The clock. -/

theorem sub_sub_corrected (server now later offset : Int64) :
    (server - (now + offset)) - (server - (later + offset)) = later - now := by
  grind

theorem toInt_secs {secs : UInt64} (h : secs.toNat < 2 ^ 63) : secs.toInt64.toInt = secs.toNat := by
  have hmod : secs.toInt64.toInt = (secs.toNat : Int).bmod (2 ^ 64) := BitVec.toInt_eq_toNat_bmod secs.toBitVec
  rw [hmod, Int.bmod_eq_of_le (by omega) (by omega)]

/-- Two times at which an id is in the window. -/
theorem window_apart {now later : Clock} {timeOffset : Int32} {msgId : Int64} (h : InTimeWindow now timeOffset msgId)
    (h' : InTimeWindow later timeOffset msgId) (hnow : now.secs.toNat < 2 ^ 63) (hlater : later.secs.toNat < 2 ^ 63) :
    later.secs.toNat ≤ now.secs.toNat + 330 := by
  unfold InTimeWindow at h h'
  dsimp only at h h'
  have hsub := sub_sub_corrected (msgId.toUInt64 >>> 32).toInt64 now.secs.toInt64 later.secs.toInt64 timeOffset.toInt64
  generalize (msgId.toUInt64 >>> 32).toInt64 - (now.secs.toInt64 + timeOffset.toInt64) = skew at h hsub
  generalize (msgId.toUInt64 >>> 32).toInt64 - (later.secs.toInt64 + timeOffset.toInt64) = skew' at h' hsub
  have hint := congrArg Int64.toInt hsub
  rw [Int64.toInt_sub, Int64.toInt_sub, toInt_secs hnow, toInt_secs hlater] at hint
  have hlow : (-300 : Int64).toInt = -300 := by decide
  have hhigh : (30 : Int64).toInt = 30 := by decide
  simp only [ge_iff_le, Int64.le_iff_toInt_le, hlow, hhigh] at h h'
  rw [Int.bmod_eq_of_le (by omega) (by omega), Int.bmod_eq_of_le (by omega) (by omega)] at hint
  omega

/-- The clock is that of a system, whose seconds an `i64` holds. -/
def SystemTime (es : List Event) : Prop := ∀ e ∈ es, e.now.secs.toNat < 2 ^ 63

/-- **Replays.** In every state of a run the ring is a queue without duplicates that holds what the
set holds. If two decryptions of the run return messages with the same id, at least 500 other ids
have been entered in between, and no more than 330 seconds have passed. -/
theorem accepted_apart (P : Primitives) (authKeys : Nat → List.Vector UInt8 256) (timeOffset : Int32) (s : Shared)
    (hoffset : AtOffset timeOffset s) (es : List Event) (hclock : SystemTime es) :
    (∀ s' ∈ Run.states (next P authKeys timeOffset) s es,
      s'.seen.order.Nodup ∧ ∀ msgId, msgId ∈ s'.seen.ids ↔ msgId ∈ s'.seen.order) ∧
    ∀ (before between after : List Entry) (x y : Entry) (m m' : DecryptedMessage),
      trace P authKeys timeOffset s es = before ++ x :: (between ++ y :: after) →
      x.accepted = some m → y.accepted = some m' → m.msgId = m'.msgId →
      (∃ others : List Int64, others.Sublist (enteredIn between) ∧ others.Nodup ∧ others.length = 500 ∧
        m.msgId ∉ others) ∧ y.now.secs.toNat ≤ x.now.secs.toNat + 330 := by
  refine ⟨fun s' _ => ⟨s'.seen.nodup, s'.seen.mem_ids⟩, ?_⟩
  intro before between after x y m m' htrace hx hy hsame
  -- The ring a run begins with counts as entered, for it is full at most.
  have hkept : Kept s.seen.order s := (Fifo.last_of_le s.seen.length_le).symm
  obtain ⟨s₁, done, e₁, todo, hes, hoffset₁, hkept₁, hentry₁, hrest⟩ := trace_split hoffset hkept htrace
  obtain ⟨s₂, done', e₂, todo', htodo, hoffset₂, hkept₂, hentry₂, -⟩ :=
    trace_split (next_atOffset hoffset₁ e₁) (entry_kept P authKeys hoffset₁ hkept₁ e₁) hrest.symm
  rcases entry_cases P authKeys hoffset₁ e₁ with
    ⟨-, hnone, -⟩ | ⟨id₁, hid₁, -, -, hwindow₁, hmsg₁⟩
  · rw [hentry₁, hnone] at hx
    cases hx
  rcases entry_cases P authKeys hoffset₂ e₂ with
    ⟨-, hnone, -⟩ | ⟨id₂, -, hfresh, -, hwindow₂, hmsg₂⟩
  · rw [hentry₂, hnone] at hy
    cases hy
  rw [hentry₁] at hx
  rw [hentry₂] at hy
  obtain rfl : id₁ = id₂ := (hmsg₁ m hx).symm.trans (hsame.trans (hmsg₂ m' hy))
  have hring : s₂.seen.order = Fifo.last 500 ((s.seen.order ++ enteredIn before) ++ id₁ :: enteredIn between) := by
    unfold Kept at hkept₂
    rw [hid₁, Option.toList_some, List.append_assoc, List.singleton_append] at hkept₂
    exact hkept₂
  have hbetween : 500 ≤ (enteredIn between).length := by
    have hgone := hfresh
    rw [hring] at hgone
    exact Fifo.le_length_between hgone
  constructor
  · -- The ring at the second time: all of it came after the first.
    rw [List.append_cons, Fifo.last_append _ hbetween] at hring
    refine ⟨s₂.seen.order, ?_, s₂.seen.nodup, ?_, ?_⟩
    · rw [hring]
      exact List.drop_sublist _ _
    · rw [hring, Fifo.length_last, Nat.min_eq_left hbetween]
    · rw [hmsg₁ m hx]
      exact hfresh
  · rw [hentry₁, hentry₂]
    have hmem₁ : e₁ ∈ es := by rw [hes]; exact List.mem_append_right _ List.mem_cons_self
    have hmem₂ : e₂ ∈ todo := by rw [htodo]; exact List.mem_append_right _ List.mem_cons_self
    have hmem₂' : e₂ ∈ es := by rw [hes]; exact List.mem_append_right _ (List.mem_cons_of_mem _ hmem₂)
    exact window_apart hwindow₁ hwindow₂ (hclock e₁ hmem₁) (hclock e₂ hmem₂')

/-! A server sends 501 messages within a second, and the first of them again. -/

/-- What a server makes of a message. -/
def serverFrame (P : Primitives) (authKey : AuthKey) (plaintext : List UInt8) : List UInt8 :=
  let msgKey := calcMsgKey P authKey plaintext .server
  let (key, iv) := calcKey P authKey msgKey .server
  authKey.keyId ++ (msgKey ++ igeEncrypt P plaintext key iv)

/-- A frame taken apart. -/
theorem decryptDataV2_parts (P : Primitives) {authKey : AuthKey} (hid : authKey.keyId.length = 8)
    {msgKey cipher : List UInt8} (hmsgKey : msgKey.length = 16) (hpos : 0 < cipher.length) (hblocks : 16 ∣ cipher.length) :
    decryptDataV2 P (authKey.keyId ++ (msgKey ++ cipher)) authKey =
      let plaintext := igeDecrypt P cipher (calcKey P authKey msgKey .server).1 (calcKey P authKey msgKey .server).2
      if msgKey ≠ calcMsgKey P authKey plaintext .server then .error .messageKeyMismatch else .ok plaintext := by
  have hlength : (authKey.keyId ++ (msgKey ++ cipher)).length = 24 + cipher.length := by
    rw [List.length_append, List.length_append, hid, hmsgKey]
    omega
  have husable : (24 + cipher.length - 24) / 16 * 16 = cipher.length := by
    rw [Nat.add_sub_cancel_left, Nat.div_mul_cancel hblocks]
  have htake : (authKey.keyId ++ (msgKey ++ cipher)).take 8 = authKey.keyId := List.take_left' hid
  have hkey : (authKey.keyId ++ (msgKey ++ cipher)).extract 8 24 = msgKey := by
    rw [List.extract_eq_take_drop, List.drop_left' hid, List.take_left' hmsgKey]
  have hrest : (authKey.keyId ++ (msgKey ++ cipher)).extract 24 (24 + cipher.length) = cipher := by
    rw [List.extract_eq_take_drop, ← List.append_assoc,
      List.drop_left' (by rw [List.length_append, hid, hmsgKey]), Nat.add_sub_cancel_left, List.take_length]
  unfold decryptDataV2
  dsimp only
  rw [hlength, husable, htake, hkey, hrest, if_neg (by omega), if_neg (fun h => h rfl)]

theorem decryptDataV2_serverFrame (P : Primitives) {authKey : AuthKey} (hid : authKey.keyId.length = 8)
    {plaintext : List UInt8} (hpos : 0 < plaintext.length) (hblocks : 16 ∣ plaintext.length) :
    decryptDataV2 P (serverFrame P authKey plaintext) authKey = .ok plaintext := by
  have hiv := calcKey_iv_length (P := P) authKey (calcMsgKey P authKey plaintext .server) .server
  have hcipher := igeEncrypt_length (P := P) (calcKey P authKey (calcMsgKey P authKey plaintext .server) .server).1 hiv hblocks
  unfold serverFrame
  dsimp only
  rw [decryptDataV2_parts P hid (calcMsgKey_length authKey plaintext .server) (by rw [hcipher]; exact hpos)
    (by rw [hcipher]; exact hblocks)]
  dsimp only
  rw [igeDecrypt_igeEncrypt _ hiv hblocks, if_neg (fun h => h rfl)]

/-- The id of message `k` of second 1000. -/
def numberedId (k : Nat) : Int64 := Int64.ofNat (1000 * 2 ^ 32 + 2 * k + 1)

/-- Message `k`, without a body. -/
def numbered (k : Nat) : Envelope := { salt := 0, sessionId := 0, msgId := numberedId k, seqNo := 0, body := [] }

def zeroKey : List.Vector UInt8 256 := List.Vector.replicate 256 0

def second1000 : Clock := ⟨1000, 0, by decide⟩

def numberedEvent (k : Nat) : Event where
  now := second1000
  call := .unpack 0 (serverFrame plainPrimitives (AuthKey.fromBytes plainPrimitives zeroKey)
    ((numbered k).bytes ++ List.replicate 16 0))

/-- What is returned for message `k`. -/
def numberedMessage (k : Nat) : DecryptedMessage where
  salt := 0
  sessionId := 0
  msgId := numberedId k
  seqNo := 0
  body := []

def oneSession : Shared := { sessions := fun _ => .new 0 0 0, seen := .new }

theorem numberedId_toInt {k : Nat} (hk : k < 501) : (numberedId k).toInt = 1000 * 2 ^ 32 + 2 * k + 1 := by
  have hmod : (numberedId k).toInt = ((1000 * 2 ^ 32 + 2 * k + 1 : Nat) : Int).bmod (2 ^ 64) := Int64.toInt_ofNat'
  rw [hmod, Int.bmod_eq_of_le (by omega) (by omega)]
  omega

theorem numberedId_inj {j k : Nat} (hj : j < 501) (hk : k < 501) (h : numberedId j = numberedId k) : j = k := by
  have hint := congrArg Int64.toInt h
  rw [numberedId_toInt hj, numberedId_toInt hk] at hint
  omega

theorem numberedId_checks : ∀ k < 501, numberedId k &&& 1 ≠ 0 ∧ InTimeWindow second1000 0 (numberedId k) := by
  decide +kernel

/-- A message whose id is not in the ring is accepted. -/
theorem entry_numbered {s : Shared} (hs : ∀ k, s.sessions k = .new 0 0 0) {k : Nat} (hk : k < 501)
    (hfresh : numberedId k ∉ s.seen.order) :
    entry plainPrimitives (fun _ => zeroKey) 0 s (numberedEvent k) =
      ⟨second1000, some (numberedId k), some (numberedMessage k)⟩ := by
  obtain ⟨hsalt, hsession, hmsgId, hseqNo, hbodyLen, hbody⟩ := bytes_parts (numbered k) (List.replicate 16 0)
  have hlength : ((numbered k).bytes ++ List.replicate 16 0).length = 48 := by
    rw [List.length_append, List.length_replicate, numbered]
    simp [Envelope.bytes]
  obtain ⟨hodd, hwindow⟩ := numberedId_checks k hk
  have hd := decryptDataV2_serverFrame plainPrimitives (AuthKey.fromBytes_keyId_length (P := plainPrimitives) zeroKey)
    (by rw [hlength]; decide : 0 < ((numbered k).bytes ++ List.replicate 16 0).length) (by rw [hlength]; decide)
  have hzero : bodyLenOf ((numbered k).bytes ++ List.replicate 16 0) = 0 := hbodyLen
  have haddressed : Addressed (.new 0 0 0) second1000 ((numbered k).bytes ++ List.replicate 16 0) := by
    refine ⟨by rw [hlength]; decide, hsession, ?_, ?_⟩
    · rw [hmsgId]
      exact hodd
    · rw [hmsgId]
      exact hwindow
  have hgood : GoodBody ((numbered k).bytes ++ List.replicate 16 0) := by
    refine ⟨?_, ?_, ?_, ?_⟩ <;> rw [hzero] <;> (try rw [hlength]) <;> decide
  have hmessage : messageIn ((numbered k).bytes ++ List.replicate 16 0) = numberedMessage k := by
    unfold messageIn
    rw [hsalt, hsession, hmsgId, hseqNo, hzero, List.extract_eq_take_drop]
    rfl
  have hnotSeen : msgIdOf ((numbered k).bytes ++ List.replicate 16 0) ∉ s.seen.ids := by
    rw [hmsgId]
    exact fun h => hfresh ((s.seen.mem_ids _).mp h)
  have haccepted : (entry plainPrimitives (fun _ => zeroKey) 0 s (numberedEvent k)).accepted = some (numberedMessage k) := by
    change ((s.sessions 0).unpack plainPrimitives zeroKey s.seen second1000 _).1.toOption = _
    rw [hs 0, unpack_addressed s.seen hd haddressed, dif_neg hnotSeen, if_pos hgood, hmessage]
    rfl
  have hoffset : AtOffset 0 s := fun i => by rw [hs i]; rfl
  rcases entry_cases plainPrimitives (fun _ => zeroKey) hoffset (numberedEvent k) with
    ⟨-, hnone, -⟩ | ⟨msgId, hentered, -, -, -, hmsg⟩
  · cases hnone.symm.trans haccepted
  · have hentered' : (entry plainPrimitives (fun _ => zeroKey) 0 s (numberedEvent k)).entered = some (numberedId k) := by
      rw [hentered, ← hmsg _ haccepted]
      rfl
    calc entry plainPrimitives (fun _ => zeroKey) 0 s (numberedEvent k)
        = ⟨second1000, (entry plainPrimitives (fun _ => zeroKey) 0 s (numberedEvent k)).entered,
            (entry plainPrimitives (fun _ => zeroKey) 0 s (numberedEvent k)).accepted⟩ := rfl
      _ = _ := by rw [hentered', haccepted]

/-- Messages that have not come before are all accepted. -/
theorem trace_numbered {s : Shared} (hs : ∀ k, s.sessions k = .new 0 0 0) {history : List Int64} (hkept : Kept history s)
    {ks : List Nat} (hks : ks.Nodup) (hlt : ∀ k ∈ ks, k < 501) (hnew : ∀ k ∈ ks, numberedId k ∉ history)
    (es : List Event) :
    ∃ s', (∀ k, s'.sessions k = .new 0 0 0) ∧ Kept (history ++ ks.map numberedId) s' ∧
      trace plainPrimitives (fun _ => zeroKey) 0 s (ks.map numberedEvent ++ es) =
        ks.map (fun k => ⟨second1000, some (numberedId k), some (numberedMessage k)⟩) ++
          trace plainPrimitives (fun _ => zeroKey) 0 s' es := by
  induction ks generalizing s history with
  | nil => exact ⟨s, hs, by rw [List.map_nil, List.append_nil]; exact hkept, rfl⟩
  | cons k ks ih =>
    obtain ⟨hk, hks⟩ := List.nodup_cons.mp hks
    have hfresh : numberedId k ∉ s.seen.order := by
      rw [hkept]
      exact fun h => hnew k List.mem_cons_self (Fifo.mem_of_mem_last h)
    have hentry := entry_numbered hs (hlt k List.mem_cons_self) hfresh
    have hkept' := entry_kept plainPrimitives (fun _ => zeroKey)
      (fun i => by rw [hs i]; rfl : AtOffset 0 s) hkept (numberedEvent k)
    rw [hentry] at hkept'
    obtain ⟨s', hs', hlast, htrace⟩ := ih (s := next plainPrimitives (fun _ => zeroKey) 0 s (numberedEvent k)) hs hkept' hks
      (fun j hj => hlt j (List.mem_cons_of_mem k hj)) (fun j hj hmem => by
        rcases List.mem_append.mp hmem with hmem | hmem
        · exact hnew j (List.mem_cons_of_mem k hj) hmem
        · have hsame := numberedId_inj (hlt j (List.mem_cons_of_mem k hj)) (hlt k List.mem_cons_self)
            (List.mem_singleton.mp hmem)
          exact hk (hsame ▸ hj))
    refine ⟨s', hs', ?_, ?_⟩
    · rw [List.map_cons, List.append_cons]
      exact hlast
    · rw [List.map_cons, List.cons_append, trace, hentry, htrace]
      rfl

def numberedEntry (k : Nat) : Entry where
  now := second1000
  entered := some (numberedId k)
  accepted := some (numberedMessage k)

def replayed : List Event := (List.range 501).map numberedEvent ++ [numberedEvent 0]

theorem replayed_now : ∀ e ∈ replayed, e.now = second1000 := by
  intro e he
  rcases List.mem_append.mp he with he | he
  · obtain ⟨k, -, rfl⟩ := List.mem_map.mp he
    rfl
  · rw [List.mem_singleton.mp he]
    rfl

theorem replayed_systemTime : SystemTime replayed := by
  intro e he
  rw [replayed_now e he]
  decide

/-- All are accepted, and the first is accepted again. -/
theorem trace_replayed : trace plainPrimitives (fun _ => zeroKey) 0 oneSession replayed =
    numberedEntry 0 :: (((List.range 500).map Nat.succ).map numberedEntry ++ numberedEntry 0 :: []) := by
  have hrange : List.range 501 = 0 :: (List.range 500).map Nat.succ := List.range_succ_eq_map
  have hempty : Kept [] oneSession := (Fifo.last_of_le (Nat.zero_le _)).symm
  obtain ⟨s', hs', hkept, htrace⟩ := trace_numbered (fun _ => rfl) hempty
    List.nodup_range (fun k hk => List.mem_range.mp hk) (fun _ _ => List.not_mem_nil) [numberedEvent 0]
  have hfresh : numberedId 0 ∉ s'.seen.order := by
    rw [hkept, hrange, List.nil_append, List.map_cons, ← List.singleton_append,
      Fifo.last_append _ (by rw [List.length_map, List.length_map, List.length_range]; exact Nat.le_refl 500)]
    intro hmem
    obtain ⟨k, hk, hsame⟩ := List.mem_map.mp (Fifo.mem_of_mem_last hmem)
    obtain ⟨j, hj, rfl⟩ := List.mem_map.mp hk
    have hlt := List.mem_range.mp hj
    have hzero := numberedId_inj (by omega) (by omega) hsame
    omega
  have hlast : trace plainPrimitives (fun _ => zeroKey) 0 s' [numberedEvent 0] = [numberedEntry 0] := by
    rw [trace, entry_numbered hs' (by decide) hfresh]
    rfl
  have hentries : (List.range 501).map (fun k => Entry.mk second1000 (some (numberedId k)) (some (numberedMessage k))) =
      numberedEntry 0 :: ((List.range 500).map Nat.succ).map numberedEntry := by
    rw [hrange]
    rfl
  unfold replayed
  rw [htrace, hlast, hentries]
  rfl

/-- The first of the 501 messages is accepted again behind them. -/
theorem accepted_twice : ¬ ∀ (P : Primitives) (authKeys : Nat → List.Vector UInt8 256) (timeOffset : Int32) (s : Shared),
    AtOffset timeOffset s → ∀ es : List Event, SystemTime es →
    es.Pairwise (fun e e' => e.now.secs ≤ e'.now.secs) →
    ∀ (before between after : List Entry) (x y : Entry) (m m' : DecryptedMessage),
      trace P authKeys timeOffset s es = before ++ x :: (between ++ y :: after) →
      x.accepted = some m → y.accepted = some m' → m.msgId ≠ m'.msgId := by
  intro h
  refine h plainPrimitives (fun _ => zeroKey) 0 oneSession (fun _ => rfl) replayed replayed_systemTime ?_
    [] _ _ _ _ _ _ trace_replayed rfl rfl rfl
  apply List.pairwise_of_forall_mem_list
  intro e he e' he'
  rw [replayed_now e he, replayed_now e' he']
  exact UInt64.le_refl _

/-- Between the two are the ids of the other 500. -/
theorem replayed_apart : ∃ others : List Int64,
    others.Sublist (enteredIn (((List.range 500).map Nat.succ).map numberedEntry)) ∧ others.Nodup ∧
      others.length = 500 ∧ numberedId 0 ∉ others :=
  ((accepted_apart plainPrimitives (fun _ => zeroKey) 0 oneSession (fun _ => rfl) replayed replayed_systemTime).2
    [] _ _ _ _ (numberedMessage 0) (numberedMessage 0) trace_replayed rfl rfl rfl).1

end Replay

end Ferogram.Mtproto
