import Mathlib.Data.Finset.Basic
import Ferogram.Crypto.DataV2
import Ferogram.Mtproto.Encrypted

/- Decrypting a server message (`ferogram-mtproto/src/encrypted.rs`), which the crate does in two
   places: `EncryptedSession::unpack` and `decrypt_frame_dedup_with_offset`. Both make the same
   checks; `unpack` enters the message id in the ring of seen ids before it looks at the length
   of the body, the other function at the very end.

   What is proved: `paths_agree_iff`, which says for which frames the two agree, and
   `server_reads_packed`, which says that a server reads every message the session packs. -/
namespace Ferogram.Mtproto
open Bytes Crypto

inductive UnpackError where
  | crypto (e : Crypto.DecryptError)
  | frameTooShort
  | sessionMismatch
  | msgIdTimeWindow
  | duplicateMsgId
  | invalidMsgId
  deriving DecidableEq, Repr

structure DecryptedMessage where
  salt : Int64
  sessionId : Int64
  msgId : Int64
  seqNo : Int32
  body : List UInt8
  deriving DecidableEq, Repr

def seenMsgIdsMax : Nat := 500

/-- The ring of seen ids: in the order they came, and as a set. -/
structure SeenMsgIds where
  order : List Int64
  ids : Finset Int64
  nodup : order.Nodup
  mem_ids : ∀ m, m ∈ ids ↔ m ∈ order
  length_le : order.length ≤ seenMsgIdsMax
  deriving DecidableEq

namespace SeenMsgIds

def new : SeenMsgIds where
  order := []
  ids := ∅
  nodup := List.nodup_nil
  mem_ids m := by simp
  length_le := Nat.zero_le _

/-- An id is entered at the back; beyond 500 the one at the front is forgotten. -/
def pushed (order : List Int64) (ids : Finset Int64) (msgId : Int64) : List Int64 × Finset Int64 :=
  match order ++ [msgId] with
  | [] => ([], insert msgId ids)
  | old :: rest =>
    if seenMsgIdsMax < (old :: rest).length then (rest, (insert msgId ids).erase old)
    else (old :: rest, insert msgId ids)

theorem append_nodup (seen : SeenMsgIds) {msgId : Int64} (fresh : msgId ∉ seen.ids) :
    (seen.order ++ [msgId]).Nodup := by
  rw [List.nodup_append]
  refine ⟨seen.nodup, List.nodup_singleton msgId, ?_⟩
  rintro a ha b hb rfl
  rw [List.mem_singleton] at hb
  exact fresh ((seen.mem_ids msgId).mpr (hb ▸ ha))

theorem pushed_spec (seen : SeenMsgIds) {msgId : Int64} (fresh : msgId ∉ seen.ids) :
    let r := pushed seen.order seen.ids msgId
    r.1.Nodup ∧ (∀ m, m ∈ r.2 ↔ m ∈ r.1) ∧ r.1.length ≤ seenMsgIdsMax := by
  have hnodup := seen.append_nodup fresh
  have hmem : ∀ m, m ∈ insert msgId seen.ids ↔ m ∈ seen.order ++ [msgId] := by
    intro m
    rw [Finset.mem_insert, seen.mem_ids, List.mem_append, List.mem_singleton, or_comm]
  have hlen : (seen.order ++ [msgId]).length ≤ seenMsgIdsMax + 1 := by
    rw [List.length_append]
    exact Nat.succ_le_succ seen.length_le
  dsimp only
  unfold pushed
  split
  · next horder => simp at horder
  · next old rest horder =>
    rw [horder] at hnodup hmem hlen
    obtain ⟨hold, hrest⟩ := List.nodup_cons.mp hnodup
    split
    · refine ⟨hrest, fun m => ?_, Nat.le_of_succ_le_succ hlen⟩
      rw [Finset.mem_erase, hmem, List.mem_cons]
      constructor
      · rintro ⟨hne, rfl | hm⟩
        · exact absurd rfl hne
        · exact hm
      · intro hm
        exact ⟨fun heq => hold (heq ▸ hm), Or.inr hm⟩
    · next hfull => exact ⟨hnodup, hmem, Nat.le_of_not_lt hfull⟩

def push (seen : SeenMsgIds) (msgId : Int64) (fresh : msgId ∉ seen.ids) : SeenMsgIds where
  order := (pushed seen.order seen.ids msgId).1
  ids := (pushed seen.order seen.ids msgId).2
  nodup := (seen.pushed_spec fresh).1
  mem_ids := (seen.pushed_spec fresh).2.1
  length_le := (seen.pushed_spec fresh).2.2

/-- What has just been entered is not what is forgotten. -/
theorem mem_pushed (order : List Int64) (ids : Finset Int64) (msgId : Int64) :
    msgId ∈ (pushed order ids msgId).1 := by
  cases order with
  | nil => exact List.mem_singleton.mpr rfl
  | cons old order =>
    have hmem : msgId ∈ order ++ [msgId] := List.mem_append_right order (List.mem_singleton.mpr rfl)
    show msgId ∈ (if _ then (order ++ [msgId], _) else (old :: (order ++ [msgId]), _) : List Int64 × _).1
    split
    · exact hmem
    · exact List.mem_cons_of_mem old hmem

theorem push_ne (seen : SeenMsgIds) {msgId : Int64} (fresh : msgId ∉ seen.ids) :
    seen.push msgId fresh ≠ seen := by
  intro heq
  have hmem : msgId ∈ (seen.push msgId fresh).order := mem_pushed _ _ _
  rw [heq] at hmem
  exact fresh ((seen.mem_ids msgId).mpr hmem)

end SeenMsgIds

/-! The two paths. -/

/-- The parts of the plaintext. -/
def saltOf (plaintext : List UInt8) : Int64 := toI64 (plaintext.take 8)
def sessionIdOf (plaintext : List UInt8) : Int64 := toI64 (plaintext.extract 8 16)
def msgIdOf (plaintext : List UInt8) : Int64 := toI64 (plaintext.extract 16 24)
def seqNoOf (plaintext : List UInt8) : Int32 := toI32 (plaintext.extract 24 28)
def bodyLenOf (plaintext : List UInt8) : Nat := ofLe (plaintext.extract 28 32)

def maxBodyLen : Nat := 16 * 1024 * 1024

/-- From 300 seconds before the corrected clock to 30 seconds after it. -/
def InTimeWindow (now : Clock) (timeOffset : Int32) (msgId : Int64) : Prop :=
  let serverSecs := (msgId.toUInt64 >>> 32).toInt64
  let corrected := now.secs.toInt64 + timeOffset.toInt64
  let skew := serverSecs - corrected
  skew ≥ -300 ∧ skew ≤ 30

instance (now : Clock) (timeOffset : Int32) (msgId : Int64) : Decidable (InTimeWindow now timeOffset msgId) :=
  inferInstanceAs (Decidable (_ ∧ _))

section
variable (P : Primitives) (authKey : List.Vector UInt8 256)

/-- The id is entered in the ring before the length of the body is checked. -/
def EncryptedSession.unpack (s : EncryptedSession) (seen : SeenMsgIds) (now : Clock) (frame : List UInt8) :
    Except UnpackError DecryptedMessage × SeenMsgIds :=
  match decryptDataV2 P frame (AuthKey.fromBytes P authKey) with
  | .error e => (.error (.crypto e), seen)
  | .ok plaintext =>
    if plaintext.length < 32 then (.error .frameTooShort, seen)
    else
      let msgId := msgIdOf plaintext
      let bodyLen := bodyLenOf plaintext
      if sessionIdOf plaintext ≠ s.sessionId then (.error .sessionMismatch, seen)
      else if msgId &&& 1 = 0 then (.error .invalidMsgId, seen)
      else if ¬InTimeWindow now s.timeOffset msgId then (.error .msgIdTimeWindow, seen)
      else if fresh : msgId ∈ seen.ids then (.error .duplicateMsgId, seen)
      else
        let seen := seen.push msgId fresh
        if maxBodyLen < bodyLen then (.error .frameTooShort, seen)
        else if plaintext.length < 32 + bodyLen then (.error .frameTooShort, seen)
        else if bodyLen % 4 ≠ 0 then (.error .frameTooShort, seen)
        else
          let padding := plaintext.length - 32 - bodyLen
          if padding < 12 ∨ 1024 < padding then (.error .frameTooShort, seen)
          else
            (.ok { salt := saltOf plaintext, sessionId := sessionIdOf plaintext, msgId := msgId
                   seqNo := seqNoOf plaintext, body := plaintext.extract 32 (32 + bodyLen) }, seen)

def decryptFrameWithOffset (sessionId : Int64) (now : Clock) (frame : List UInt8) (timeOffset : Int32) :
    Except UnpackError DecryptedMessage :=
  match decryptDataV2 P frame (AuthKey.fromBytes P authKey) with
  | .error e => .error (.crypto e)
  | .ok plaintext =>
    if plaintext.length < 32 then .error .frameTooShort
    else
      let msgId := msgIdOf plaintext
      let bodyLen := bodyLenOf plaintext
      if sessionIdOf plaintext ≠ sessionId then .error .sessionMismatch
      else if msgId &&& 1 = 0 then .error .invalidMsgId
      else if ¬InTimeWindow now timeOffset msgId then .error .msgIdTimeWindow
      else if maxBodyLen < bodyLen then .error .frameTooShort
      else if plaintext.length < 32 + bodyLen then .error .frameTooShort
      else if bodyLen % 4 ≠ 0 then .error .frameTooShort
      else
        let padding := plaintext.length - 32 - bodyLen
        if padding < 12 ∨ 1024 < padding then .error .frameTooShort
        else
          .ok { salt := saltOf plaintext, sessionId := sessionIdOf plaintext, msgId := msgId
                seqNo := seqNoOf plaintext, body := plaintext.extract 32 (32 + bodyLen) }

def decryptFrameDedupWithOffset (sessionId : Int64) (now : Clock) (frame : List UInt8) (seen : SeenMsgIds)
    (timeOffset : Int32) : Except UnpackError DecryptedMessage × SeenMsgIds :=
  match decryptFrameWithOffset P authKey sessionId now frame timeOffset with
  | .error e => (.error e, seen)
  | .ok msg =>
    if fresh : msg.msgId ∈ seen.ids then (.error .duplicateMsgId, seen)
    else (.ok msg, seen.push msg.msgId fresh)

/-! Where they agree. -/

/-- Both return the same message and the same ring, or both fail and leave the ring alone. -/
def Agree (s : EncryptedSession) (seen : SeenMsgIds) (now : Clock) (frame : List UInt8) : Prop :=
  let one := s.unpack P authKey seen now frame
  let other := decryptFrameDedupWithOffset P authKey s.sessionId now frame seen s.timeOffset
  (∃ msg, one.1 = .ok msg ∧ other.1 = .ok msg ∧ one.2 = other.2) ∨
    (∃ e e', one.1 = .error e ∧ other.1 = .error e' ∧ one.2 = seen ∧ other.2 = seen)

/-- A server message of this session and of this time. -/
structure Addressed (s : EncryptedSession) (now : Clock) (plaintext : List UInt8) : Prop where
  header : 32 ≤ plaintext.length
  session : sessionIdOf plaintext = s.sessionId
  odd : msgIdOf plaintext &&& 1 ≠ 0
  window : InTimeWindow now s.timeOffset (msgIdOf plaintext)

/-- The body has a length that TL has, is there, and is followed by 12 to 1024 bytes. -/
structure GoodBody (plaintext : List UInt8) : Prop where
  small : bodyLenOf plaintext ≤ maxBodyLen
  present : 32 + bodyLenOf plaintext ≤ plaintext.length
  aligned : bodyLenOf plaintext % 4 = 0
  padded : 12 ≤ plaintext.length - 32 - bodyLenOf plaintext ∧
    plaintext.length - 32 - bodyLenOf plaintext ≤ 1024

instance (plaintext : List UInt8) : Decidable (GoodBody plaintext) :=
  decidable_of_iff (bodyLenOf plaintext ≤ maxBodyLen ∧ 32 + bodyLenOf plaintext ≤ plaintext.length ∧
      bodyLenOf plaintext % 4 = 0 ∧ 12 ≤ plaintext.length - 32 - bodyLenOf plaintext ∧
      plaintext.length - 32 - bodyLenOf plaintext ≤ 1024)
    ⟨fun ⟨h₁, h₂, h₃, h₄⟩ => ⟨h₁, h₂, h₃, h₄⟩, fun ⟨h₁, h₂, h₃, h₄⟩ => ⟨h₁, h₂, h₃, h₄⟩⟩

/-- The checks of the body, one after another. -/
theorem body_checks {α : Type} (plaintext : List UInt8) (good bad : α) :
    (if maxBodyLen < bodyLenOf plaintext then bad
      else if plaintext.length < 32 + bodyLenOf plaintext then bad
      else if bodyLenOf plaintext % 4 ≠ 0 then bad
      else if plaintext.length - 32 - bodyLenOf plaintext < 12 ∨
        1024 < plaintext.length - 32 - bodyLenOf plaintext then bad
      else good) = if GoodBody plaintext then good else bad := by
  by_cases h : GoodBody plaintext
  · have hpadded := h.padded
    rw [if_pos h, if_neg (Nat.not_lt.mpr h.small), if_neg (Nat.not_lt.mpr h.present),
      if_neg (not_not.mpr h.aligned), if_neg (by omega)]
  · rw [if_neg h]
    split
    · rfl
    · next hsmall =>
      split
      · rfl
      · next hpresent =>
        split
        · rfl
        · next haligned =>
          rw [if_pos]
          by_contra hpadded
          exact h ⟨Nat.le_of_not_lt hsmall, Nat.le_of_not_lt hpresent, not_not.mp haligned, by omega⟩

/-- The message in a plaintext with a good body. -/
def messageIn (plaintext : List UInt8) : DecryptedMessage :=
  { salt := saltOf plaintext, sessionId := sessionIdOf plaintext, msgId := msgIdOf plaintext
    seqNo := seqNoOf plaintext, body := plaintext.extract 32 (32 + bodyLenOf plaintext) }

variable {P authKey} {s : EncryptedSession} {now : Clock} {frame plaintext : List UInt8} (seen : SeenMsgIds)

/-- A message that is addressed to the session has its body checked. -/
theorem decryptFrameWithOffset_addressed
    (hd : decryptDataV2 P frame (AuthKey.fromBytes P authKey) = .ok plaintext)
    (h : Addressed s now plaintext) :
    decryptFrameWithOffset P authKey s.sessionId now frame s.timeOffset =
      if GoodBody plaintext then .ok (messageIn plaintext) else .error .frameTooShort := by
  rw [← body_checks]
  unfold decryptFrameWithOffset
  rw [hd]
  show (if _ then _ else _) = _
  rw [if_neg (Nat.not_lt.mpr h.header)]
  show (if _ then _ else _) = _
  rw [if_neg (not_not.mpr h.session), if_neg h.odd, if_neg (not_not.mpr h.window)]
  rfl

/-- The same message in `unpack`: the ring is asked first, and takes the id in any case. -/
theorem unpack_addressed (hd : decryptDataV2 P frame (AuthKey.fromBytes P authKey) = .ok plaintext)
    (h : Addressed s now plaintext) :
    s.unpack P authKey seen now frame =
      if fresh : msgIdOf plaintext ∈ seen.ids then (.error .duplicateMsgId, seen)
      else if GoodBody plaintext then (.ok (messageIn plaintext), seen.push (msgIdOf plaintext) fresh)
      else (.error .frameTooShort, seen.push (msgIdOf plaintext) fresh) := by
  simp only [← body_checks]
  unfold EncryptedSession.unpack
  rw [hd]
  show (if _ then _ else _) = _
  rw [if_neg (Nat.not_lt.mpr h.header)]
  show (if _ then _ else _) = _
  rw [if_neg (not_not.mpr h.session), if_neg h.odd, if_neg (not_not.mpr h.window)]
  rfl

/-- Any other message fails in both, before the ring is looked at. -/
theorem unaddressed_fails (hd : decryptDataV2 P frame (AuthKey.fromBytes P authKey) = .ok plaintext)
    (h : ¬Addressed s now plaintext) :
    ∃ e, s.unpack P authKey seen now frame = (.error e, seen) ∧
      decryptFrameWithOffset P authKey s.sessionId now frame s.timeOffset = .error e := by
  unfold EncryptedSession.unpack decryptFrameWithOffset
  rw [hd]
  dsimp only
  by_cases hheader : plaintext.length < 32
  · exact ⟨.frameTooShort, if_pos hheader, if_pos hheader⟩
  rw [if_neg hheader, if_neg hheader]
  by_cases hsession : sessionIdOf plaintext ≠ s.sessionId
  · exact ⟨.sessionMismatch, if_pos hsession, if_pos hsession⟩
  rw [if_neg hsession, if_neg hsession]
  by_cases hodd : msgIdOf plaintext &&& 1 = 0
  · exact ⟨.invalidMsgId, if_pos hodd, if_pos hodd⟩
  rw [if_neg hodd, if_neg hodd]
  by_cases hwindow : ¬InTimeWindow now s.timeOffset (msgIdOf plaintext)
  · exact ⟨.msgIdTimeWindow, if_pos hwindow, if_pos hwindow⟩
  exact absurd ⟨Nat.le_of_not_lt hheader, not_not.mp hsession, hodd, not_not.mp hwindow⟩ h

/-- Two failures that leave the ring alone. -/
theorem agree_of_errors {e e' : UnpackError} (h : s.unpack P authKey seen now frame = (.error e, seen))
    (h' : decryptFrameDedupWithOffset P authKey s.sessionId now frame seen s.timeOffset = (.error e', seen)) :
    Agree P authKey s seen now frame :=
  .inr ⟨e, e', congrArg Prod.fst h, congrArg Prod.fst h', congrArg Prod.snd h, congrArg Prod.snd h'⟩

theorem dedup_of_error {e : UnpackError}
    (h : decryptFrameWithOffset P authKey s.sessionId now frame s.timeOffset = .error e) :
    decryptFrameDedupWithOffset P authKey s.sessionId now frame seen s.timeOffset = (.error e, seen) := by
  unfold decryptFrameDedupWithOffset
  rw [h]

theorem dedup_of_ok {msg : DecryptedMessage}
    (h : decryptFrameWithOffset P authKey s.sessionId now frame s.timeOffset = .ok msg) :
    decryptFrameDedupWithOffset P authKey s.sessionId now frame seen s.timeOffset =
      if fresh : msg.msgId ∈ seen.ids then (.error .duplicateMsgId, seen)
      else (.ok msg, seen.push msg.msgId fresh) := by
  unfold decryptFrameDedupWithOffset
  rw [h]

/-- A message that is addressed to the session: the two differ exactly on a new one with a bad
body. -/
theorem addressed_agree_iff (hd : decryptDataV2 P frame (AuthKey.fromBytes P authKey) = .ok plaintext)
    (h : Addressed s now plaintext) :
    Agree P authKey s seen now frame ↔ (msgIdOf plaintext ∉ seen.ids → GoodBody plaintext) := by
  have hone := unpack_addressed seen hd h
  have hother := decryptFrameWithOffset_addressed hd h
  by_cases hgood : GoodBody plaintext
  · rw [if_pos hgood] at hother
    have hdedup := dedup_of_ok seen hother
    refine iff_of_true ?_ (fun _ => hgood)
    by_cases hseen : msgIdOf plaintext ∈ seen.ids
    · rw [dif_pos hseen] at hone
      exact agree_of_errors seen hone (hdedup.trans (dif_pos hseen))
    · rw [dif_neg hseen, if_pos hgood] at hone
      have hdedup := hdedup.trans (dif_neg hseen)
      exact .inl ⟨_, congrArg Prod.fst hone, congrArg Prod.fst hdedup,
        (congrArg Prod.snd hone).trans (congrArg Prod.snd hdedup).symm⟩
  · rw [if_neg hgood] at hother
    have hdedup := dedup_of_error seen hother
    by_cases hseen : msgIdOf plaintext ∈ seen.ids
    · rw [dif_pos hseen] at hone
      exact iff_of_true (agree_of_errors seen hone hdedup) (fun hfresh => absurd hseen hfresh)
    · rw [dif_neg hseen, if_neg hgood] at hone
      refine iff_of_false ?_ (fun hbody => hgood (hbody hseen))
      rintro (⟨msg, hok, -⟩ | ⟨e, e', -, -, hring, -⟩)
      · rw [hone] at hok
        cases hok
      · rw [hone] at hring
        exact seen.push_ne hseen hring

/-- **The two decryption paths.** They agree on a frame exactly when, if the frame decrypts to a
message for this session that passes the checks of its header and has not been seen, the message
passes the checks of its body too. -/
theorem paths_agree_iff (P : Primitives) (authKey : List.Vector UInt8 256) (s : EncryptedSession)
    (seen : SeenMsgIds) (now : Clock) (frame : List UInt8) :
    Agree P authKey s seen now frame ↔
      ∀ plaintext, decryptDataV2 P frame (AuthKey.fromBytes P authKey) = .ok plaintext →
        Addressed s now plaintext → msgIdOf plaintext ∉ seen.ids → GoodBody plaintext := by
  cases hd : decryptDataV2 P frame (AuthKey.fromBytes P authKey) with
  | error e =>
    have hone : s.unpack P authKey seen now frame = (.error (.crypto e), seen) := by
      unfold EncryptedSession.unpack
      rw [hd]
    have hother : decryptFrameWithOffset P authKey s.sessionId now frame s.timeOffset = .error (.crypto e) := by
      unfold decryptFrameWithOffset
      rw [hd]
    refine iff_of_true (agree_of_errors seen hone (dedup_of_error seen hother)) ?_
    intro plaintext hok
    cases hok
  | ok plaintext =>
    by_cases h : Addressed s now plaintext
    · rw [addressed_agree_iff seen hd h]
      constructor
      · intro hbody plaintext' hok _
        cases hok
        exact hbody
      · intro hbody
        exact hbody plaintext rfl h
    · obtain ⟨e, hone, hother⟩ := unaddressed_fails seen hd h
      refine iff_of_true (agree_of_errors seen hone (dedup_of_error seen hother)) ?_
      intro plaintext' hok haddressed
      cases hok
      exact absurd haddressed h

end

section
open List.Vector

/-- Second 1000 on the clock, and a message of that second for session 0: its body has 16 bytes
and no padding follows. -/
def unpaddedFrame : List UInt8 :=
  List.replicate 40 0 ++ [1, 0, 0, 0, 0xE8, 3, 0, 0] ++ [0, 0, 0, 0] ++ [16, 0, 0, 0] ++ List.replicate 16 0

/-- Both paths reject the message for its missing padding; `unpack` keeps its id. -/
theorem unpadded_frame_enters_ring :
    ¬Agree plainPrimitives (replicate 256 0) (EncryptedSession.new 0 0 0) SeenMsgIds.new
      ⟨1000, 0, by decide⟩ unpaddedFrame := by
  rw [paths_agree_iff]
  intro h
  have hd : decryptDataV2 plainPrimitives unpaddedFrame
      (AuthKey.fromBytes plainPrimitives (replicate 256 0)) = .ok (unpaddedFrame.drop 24) := by
    decide +kernel
  have hgood := h _ hd ⟨by decide, by decide, by decide, by decide⟩ (by decide)
  exact absurd hgood.padded (by decide)

end

/-! What a server reads. -/

/-- The functions that pack a message: what they make of a body, and whether it is
content-related. -/
inductive Packs (s : EncryptedSession) (body : List UInt8) : Bool → Envelope × EncryptedSession → Prop where
  | packBodyWithMsgId (now : Clock) (contentRelated : Bool) :
      Packs s body contentRelated (s.packBodyWithMsgId now body contentRelated)
  | packContainer (now : Clock) : Packs s body false (s.packContainer now body)
  | packBodyAtMsgId (msgId : Int64) : Packs s body true (s.packBodyAtMsgId body msgId)
  | packSerializable (now : Clock) : Packs s body true (s.packSerializable now body)
  | packSerializableWithMsgId (now : Clock) : Packs s body true (s.packSerializableWithMsgId now body)
  | packWithMsgId (now : Clock) : Packs s body true (s.packWithMsgId now body)
  | pack (now : Clock) : Packs s body true (s.pack now body)

/-- What goes over the wire. -/
def wire (P : Primitives) (authKey : List.Vector UInt8 256) (e : Envelope) (rnd : List.Vector UInt8 32) :
    List UInt8 :=
  encryptDataV2 P e.bytes (AuthKey.fromBytes P authKey) rnd

/-- The envelope has the salt and the id of the session, the body, and the sequence number of its
kind. -/
structure Filled (s : EncryptedSession) (body : List UInt8) (contentRelated : Bool) (e : Envelope) : Prop where
  salt : e.salt = s.salt
  sessionId : e.sessionId = s.sessionId
  seqNo : e.seqNo = if contentRelated then s.sequence * 2 + 1 else s.sequence * 2
  body : e.body = body

theorem packBodyWithMsgId_filled (s : EncryptedSession) (now : Clock) (body : List UInt8) (contentRelated : Bool) :
    Filled s body contentRelated (s.packBodyWithMsgId now body contentRelated).1 := by
  cases contentRelated with
  | false => exact ⟨rfl, rfl, rfl, rfl⟩
  | true => exact ⟨rfl, rfl, rfl, rfl⟩

theorem Packs.filled {s : EncryptedSession} {body : List UInt8} {contentRelated : Bool}
    {r : Envelope × EncryptedSession} (h : Packs s body contentRelated r) : Filled s body contentRelated r.1 := by
  cases h with
  | packBodyWithMsgId now => exact packBodyWithMsgId_filled s now body contentRelated
  | packContainer now => exact packBodyWithMsgId_filled s now body false
  | packBodyAtMsgId msgId => exact ⟨rfl, rfl, rfl, rfl⟩
  | packSerializable now => exact packBodyWithMsgId_filled s now body true
  | packSerializableWithMsgId now => exact packBodyWithMsgId_filled s now body true
  | packWithMsgId now => exact packBodyWithMsgId_filled s now body true
  | pack now => exact packBodyWithMsgId_filled s now body true

/-- A server that holds the key opens the frame (which tests the message key), and finds these
values in it, in whole blocks and with a padding that is allowed. -/
def ServerReads (P : Primitives) (authKey : List.Vector UInt8 256) (frame : List UInt8)
    (salt sessionId msgId : Int64) (seqNo : Int32) (body : List UInt8) : Prop :=
  ∃ plaintext, openFrame P frame (AuthKey.fromBytes P authKey) = some plaintext ∧
    saltOf plaintext = salt ∧ sessionIdOf plaintext = sessionId ∧ msgIdOf plaintext = msgId ∧
    seqNoOf plaintext = seqNo ∧ bodyLenOf plaintext = body.length ∧
    plaintext.extract 32 (32 + body.length) = body ∧
    (12 ≤ plaintext.length - 32 - body.length ∧ plaintext.length - 32 - body.length ≤ 1024) ∧
    16 ∣ frame.length - 24

/-- The parts of an envelope stand where the parts of a plaintext are looked for. -/
theorem bytes_parts (e : Envelope) (padding : List UInt8) :
    let plaintext := e.bytes ++ padding
    saltOf plaintext = e.salt ∧ sessionIdOf plaintext = e.sessionId ∧ msgIdOf plaintext = e.msgId ∧
      seqNoOf plaintext = e.seqNo ∧ bodyLenOf plaintext = e.body.length % 256 ^ 4 ∧
      plaintext.extract 32 (32 + e.body.length) = e.body := by
  have hfield : ∀ (start n : Nat) (before field after : List UInt8), before.length = start → field.length = n →
      (before ++ (field ++ after)).extract start (start + n) = field := by
    intro start n before field after hbefore hfield
    rw [List.extract_eq_take_drop, List.drop_left' hbefore, Nat.add_sub_cancel_left, List.take_left' hfield]
  have hparts : e.bytes ++ padding = ofI64 e.salt ++ (ofI64 e.sessionId ++ (ofI64 e.msgId ++
      (ofI32 e.seqNo ++ (le 4 e.body.length ++ (e.body ++ padding))))) := by
    simp only [Envelope.bytes, List.append_assoc]
  dsimp only
  refine ⟨?_, ?_, ?_, ?_, ?_, ?_⟩
  · rw [saltOf, hparts, List.take_left' (by simp), toI64_ofI64]
  · rw [sessionIdOf, hparts, hfield 8 8 _ _ _ (by simp) (by simp), toI64_ofI64]
  · rw [msgIdOf, hparts, ← List.append_assoc, hfield 16 8 _ _ _ (by simp) (by simp), toI64_ofI64]
  · rw [seqNoOf, hparts, ← List.append_assoc, ← List.append_assoc, hfield 24 4 _ _ _ (by simp) (by simp),
      toI32_ofI32]
  · rw [bodyLenOf, hparts, ← List.append_assoc, ← List.append_assoc, ← List.append_assoc,
      hfield 28 4 _ _ _ (by simp) (by simp), ofLe_le]
  · rw [hparts, ← List.append_assoc, ← List.append_assoc, ← List.append_assoc, ← List.append_assoc,
      hfield 32 _ _ _ _ (by simp) rfl]

/-- The length of the padding, and of what is encrypted. -/
theorem wire_length (P : Primitives) (authKey : List.Vector UInt8 256) (e : Envelope)
    (rnd : List.Vector UInt8 32) : 16 ∣ (wire P authKey e rnd).length - 24 := by
  obtain ⟨-, hmax, hblocks⟩ := paddingLen_spec e.bytes.length
  have hrnd : rnd.1.length = 32 := rnd.2
  have hpadded : 16 ∣ (e.bytes ++ rnd.1.take (paddingLen e.bytes.length)).length := by
    rw [List.length_append, List.length_take, hrnd, Nat.min_eq_left (by omega)]
    exact hblocks
  unfold wire encryptDataV2
  dsimp only
  rw [List.length_append, List.length_append, AuthKey.fromBytes_keyId_length, calcMsgKey_length,
    igeEncrypt_length _ (calcKey_iv_length _ _ _) hpadded, Nat.add_sub_cancel_left]
  exact hpadded

/-- **An honest server reads what the client sends.** Whichever function packs a body shorter
than 4 GiB and whatever the random bytes are, the server opens the frame and finds the salt, the
session, the returned id, the sequence number and the body in it. And a frame that a server sends
decrypts to the same plaintext with up to 15 bytes behind it. -/
theorem server_reads_packed (P : Primitives) (authKey : List.Vector UInt8 256) :
    (∀ (s : EncryptedSession) (body : List UInt8) (contentRelated : Bool) (r : Envelope × EncryptedSession)
      (rnd : List.Vector UInt8 32), Packs s body contentRelated r → body.length < 2 ^ 32 →
      ServerReads P authKey (wire P authKey r.1 rnd) s.salt s.sessionId r.1.msgId
        (if contentRelated then s.sequence * 2 + 1 else s.sequence * 2) body) ∧
    ∀ frame extra : List UInt8, 24 ≤ frame.length → 16 ∣ frame.length - 24 → extra.length ≤ 15 →
      decryptDataV2 P (frame ++ extra) (AuthKey.fromBytes P authKey) =
        decryptDataV2 P frame (AuthKey.fromBytes P authKey) := by
  refine ⟨?_, fun frame extra hlen hblocks hextra => decryptDataV2_append _ hlen hblocks hextra⟩
  intro s body contentRelated r rnd hpacks hsize
  obtain ⟨hsalt, hsession, hseq, hbody⟩ := hpacks.filled
  obtain ⟨hmin, hmax, -⟩ := paddingLen_spec r.1.bytes.length
  have hrnd : rnd.1.length = 32 := rnd.2
  have hheader : r.1.bytes.length = 32 + body.length := by
    simp [Envelope.bytes, hbody]
    omega
  have hpadding : (rnd.1.take (paddingLen r.1.bytes.length)).length = paddingLen r.1.bytes.length := by
    rw [List.length_take, hrnd, Nat.min_eq_left (by omega)]
  obtain ⟨h₁, h₂, h₃, h₄, h₅, h₆⟩ := bytes_parts r.1 (rnd.1.take (paddingLen r.1.bytes.length))
  rw [hbody] at h₅ h₆
  refine ⟨_, openFrame_encryptDataV2 _ (AuthKey.fromBytes_keyId_length authKey) rnd, h₁.trans hsalt,
    h₂.trans hsession, h₃, h₄.trans hseq, ?_, h₆, ?_, wire_length P authKey r.1 rnd⟩
  · rw [h₅]
    exact Nat.mod_eq_of_lt hsize
  · rw [List.length_append, hpadding, hheader]
    rw [hheader] at hmin hmax
    omega

/-- A body that has to be padded. -/
theorem server_reads_five_bytes :
    ServerReads plainPrimitives (List.Vector.replicate 256 0)
      (wire plainPrimitives (List.Vector.replicate 256 0)
        ((EncryptedSession.new 5 6 0).packBodyAtMsgId [1, 2, 3, 4, 5] 8).1 (List.Vector.replicate 32 0)) 6 5 8 1
      [1, 2, 3, 4, 5] ∧
    decryptDataV2 plainPrimitives (unpaddedFrame ++ [1, 2, 3])
        (AuthKey.fromBytes plainPrimitives (List.Vector.replicate 256 0)) =
      decryptDataV2 plainPrimitives unpaddedFrame
        (AuthKey.fromBytes plainPrimitives (List.Vector.replicate 256 0)) :=
  ⟨(server_reads_packed plainPrimitives (List.Vector.replicate 256 0)).1 (EncryptedSession.new 5 6 0) [1, 2, 3, 4, 5] true
      _
      (List.Vector.replicate 32 0) (.packBodyAtMsgId 8) (by decide),
    (server_reads_packed plainPrimitives (List.Vector.replicate 256 0)).2 unpaddedFrame [1, 2, 3] (by decide)
      (by decide) (by decide)⟩

/-- The length field has 32 bits: a body of 4 GiB is sent with length zero. -/
theorem server_misreads_long_body :
    ¬∀ (P : Primitives) (authKey : List.Vector UInt8 256) (s : EncryptedSession) (body : List UInt8)
      (contentRelated : Bool) (r : Envelope × EncryptedSession) (rnd : List.Vector UInt8 32),
      Packs s body contentRelated r →
      ServerReads P authKey (wire P authKey r.1 rnd) s.salt s.sessionId r.1.msgId
        (if contentRelated then s.sequence * 2 + 1 else s.sequence * 2) body := by
  intro h
  have hpacks : Packs (EncryptedSession.new 5 6 0) (List.replicate (2 ^ 32) 0) true _ := .packBodyAtMsgId 8
  obtain ⟨plaintext, hopen, -, -, -, -, hlen, -⟩ := h plainPrimitives (List.Vector.replicate 256 0) _ _ _ _
    (List.Vector.replicate 32 0) hpacks
  have hbody := hpacks.filled.body
  rw [wire, openFrame_encryptDataV2 _ (AuthKey.fromBytes_keyId_length _), Option.some.injEq] at hopen
  obtain ⟨-, -, -, -, h₅, -⟩ := bytes_parts
    ((EncryptedSession.new 5 6 0).packBodyAtMsgId (List.replicate (2 ^ 32) 0) 8).1
    ((List.Vector.replicate 32 (0 : UInt8)).1.take (paddingLen
      ((EncryptedSession.new 5 6 0).packBodyAtMsgId (List.replicate (2 ^ 32) 0) 8).1.bytes.length))
  rw [hopen, hlen, hbody, List.length_replicate] at h₅
  exact absurd h₅ (by decide)

end Ferogram.Mtproto
