import Ferogram.Connect.Pfs
import Ferogram.Mtsender.NewSession
import Ferogram.Mtsender.ScanBody

/- The three loops over a container: of `MtpSender::dispatch`, of `DcConnection::scan_body`
   and of `decode_bind_response`.

   Each has a cursor of its own and its own checks, and is given here with the bodies it
   hands on, in order. The loops of the senders are the ones that their models have
   (`dispatchLoop_eq`, `scanLoop_eq`). What is proved: `containers_walked`, about the bytes that
   `build_container_body` makes of messages, and about the beginnings of those bytes. The
   induction is on the messages that are left, with the cursor where the next one starts. -/
namespace Ferogram.Mtsender
open Bytes Connect MtpSender
open Pfs (decodeBindLoop decodeBindWalk decodeBindResponse bindSucceeds)

/-! The loops. -/

/-- The loop of `dispatch`: what it returns, and the bodies it dispatches. -/
def dispatchLoop (dispatch : MtpSender → List UInt8 → Int64 → Option (MtpSender × List (List UInt8))) (body : List UInt8) :
    Nat → Nat → MtpSender → Option (MtpSender × List (List UInt8)) × List (List UInt8)
  | 0, _, s => (some (s, []), [])
  | count + 1, pos, s =>
    if body.length < pos + 16 then (some (s, []), [])
    else
      let innerMsgId := toI64 (field body pos 8)
      let bytes := ofLe (field body (pos + 12) 4)
      let pos := pos + 16
      if body.length < pos + bytes then (some (s, []), [])
      else
        let inner := field body pos bytes
        let pos := pos + bytes
        match dispatch (s.acknowledge innerMsgId) inner innerMsgId with
        | none => (none, [inner])
        | some (s, u) =>
          let (result, visited) := dispatchLoop dispatch body count pos s
          (result.map fun (s, updates) => (s, u ++ updates), inner :: visited)

/-- `dispatch` on a container. -/
def dispatchWalk (w : World) (fuel : Nat) (s : MtpSender) (body : List UInt8) :
    Option (MtpSender × List (List UInt8)) × List (List UInt8) :=
  if body.length < 8 then (some (s, []), [])
  else dispatchLoop (dispatch w fuel) body (ofLe (field body 4 4)) 8 s

/-- The loop of `scan_body`. -/
def scanLoop (scan : List UInt8 → ScanFlags → Option (Report × ScanFlags)) (body : List UInt8) :
    Nat → Nat → Option (List UInt8) → ScanFlags → Option (Report × ScanFlags) × List (List UInt8)
  | 0, _, found, flags => (some (.ok found, flags), [])
  | count + 1, pos, found, flags =>
    if body.length < pos + 16 then (some (.ok found, flags), [])
    else
      let innerBytes := ofLe (field body (pos + 12) 4)
      let pos := pos + 16
      if body.length < pos + innerBytes then (some (.ok found, flags), [])
      else
        let inner := field body pos innerBytes
        let pos := pos + innerBytes
        match scan inner flags with
        | none => (none, [inner])
        | some (.error e, flags) => (some (.error e, flags), [inner])
        | some (.ok report, flags) =>
          let (result, visited) := scanLoop scan body count pos (found.or report) flags
          (result, inner :: visited)

/-- `scan_body` on a container. -/
def scanWalk (gzInflate : List UInt8 → Option (List UInt8)) (fuel : Nat) (sentMsgId : Option Int64) (serverMsgId : Int64)
    (body : List UInt8) (flags : ScanFlags) : Option (Report × ScanFlags) × List (List UInt8) :=
  if body.length < 8 then (some (.ok none, flags), [])
  else
    scanLoop (fun inner flags => scanBody gzInflate fuel inner flags sentMsgId serverMsgId) body (ofLe (field body 4 4)) 8 none
      flags

/-! The cursor. -/

/-- The rest of the bytes, seen from the cursor. -/
theorem containerItems_cursor (body : List UInt8) (count pos : Nat) :
    containerItems (count + 1) (body.drop pos) =
      if body.length < pos + 16 then []
      else if body.length < pos + 16 + ofLe (field body (pos + 12) 4) then []
      else
        { msgId := toI64 (field body pos 8)
          seqno := toI32 (field body (pos + 8) 4)
          body := field body (pos + 16) (ofLe (field body (pos + 12) 4)) } ::
          containerItems count (body.drop (pos + 16 + ofLe (field body (pos + 12) 4))) := by
  have hfield : ∀ start len, field (body.drop pos) start len = field body (pos + start) len := by
    intro start len
    rw [field, field, List.drop_drop]
  have hhead : (body.drop pos).take 8 = field body pos 8 := rfl
  rw [containerItems]
  simp only [List.length_drop, hhead, hfield, List.drop_drop, ← Nat.add_assoc]
  have hshort : body.length - pos < 16 ↔ body.length < pos + 16 := by omega
  simp only [hshort]
  by_cases h : body.length < pos + 16
  · rw [if_pos h, if_pos h]
  · have hbody : ∀ bytes, body.length - (pos + 16) < bytes ↔ body.length < pos + 16 + bytes := by omega
    rw [if_neg h, if_neg h]
    simp only [hbody]

theorem dispatchLoop_eq (dispatch : MtpSender → List UInt8 → Int64 → Option (MtpSender × List (List UInt8))) (body : List UInt8)
    (count : Nat) : ∀ pos s, (dispatchLoop dispatch body count pos s).1 = dispatchItems dispatch s (containerItems count (body.drop pos)) := by
  induction count with
  | zero => exact fun _ _ => rfl
  | succ count ih =>
    intro pos s
    rw [containerItems_cursor, dispatchLoop]
    by_cases hheader : body.length < pos + 16
    · rw [if_pos hheader, if_pos hheader]
      rfl
    · rw [if_neg hheader, if_neg hheader]
      dsimp only
      by_cases hbody : body.length < pos + 16 + ofLe (field body (pos + 12) 4)
      · rw [if_pos hbody, if_pos hbody]
        rfl
      · rw [if_neg hbody, if_neg hbody, dispatchItems]
        cases hcall : dispatch (s.acknowledge (toI64 (field body pos 8)))
            (field body (pos + 16) (ofLe (field body (pos + 12) 4))) (toI64 (field body pos 8)) with
        | none => rfl
        | some r =>
          change Option.map _ (dispatchLoop dispatch body count _ r.1).1 = _
          rw [ih]
          exact Option.map_eq_bind

theorem scanLoop_eq (scan : List UInt8 → ScanFlags → Option (Report × ScanFlags)) (body : List UInt8) (count : Nat) :
    ∀ pos found flags, (scanLoop scan body count pos found flags).1 =
      scanItems scan found flags ((containerItems count (body.drop pos)).map InnerMessage.body) := by
  induction count with
  | zero => exact fun _ _ _ => rfl
  | succ count ih =>
    intro pos found flags
    rw [containerItems_cursor, scanLoop]
    by_cases hheader : body.length < pos + 16
    · rw [if_pos hheader, if_pos hheader]
      rfl
    · rw [if_neg hheader, if_neg hheader]
      dsimp only
      by_cases hbody : body.length < pos + 16 + ofLe (field body (pos + 12) 4)
      · rw [if_pos hbody, if_pos hbody]
        rfl
      · rw [if_neg hbody, if_neg hbody, List.map_cons, scanItems]
        cases scan (field body (pos + 16) (ofLe (field body (pos + 12) 4))) flags with
        | none => rfl
        | some r =>
          obtain ⟨report, flags⟩ := r
          cases report with
          | error e => rfl
          | ok report => exact ih _ _ _

/-- They are what the two functions do with a container. -/
theorem dispatch_container (w : World) (fuel : Nat) (s : MtpSender) {body : List UInt8} (msgId : Int64) (hlong : 4 ≤ body.length)
    (hctor : ctor body = idMsgContainer) : dispatch w (fuel + 1) s body msgId = (dispatchWalk w fuel s body).1 := by
  rw [dispatch, if_neg (by omega), if_neg (by rw [hctor]; decide), if_pos hctor, dispatchWalk]
  split
  · rfl
  · exact (dispatchLoop_eq _ _ _ _ _).symm

theorem scanBody_walk (gzInflate : List UInt8 → Option (List UInt8)) (fuel : Nat) (sentMsgId : Option Int64)
    (serverMsgId : Int64) {body : List UInt8} (flags : ScanFlags) (hlong : 4 ≤ body.length) (hctor : ctor body = idMsgContainer) :
    scanBody gzInflate (fuel + 1) body flags sentMsgId serverMsgId =
      (scanWalk gzInflate fuel sentMsgId serverMsgId body flags).1 := by
  rw [scanBody, if_neg (by omega)]
  simp only [hctor]
  rw [if_neg (by decide), if_neg (by decide), if_neg (by decide), if_neg (by decide), if_neg (by decide), if_neg (by decide),
    if_pos trivial, scanWalk]
  split
  · rfl
  · exact (scanLoop_eq _ _ _ _ _ _).symm

/-! What is visited. -/

/-- The bodies, from the cursor `pos` on, that end within `len` bytes. -/
def contained (len : Nat) : Nat → List InnerMessage → List (List UInt8)
  | _, [] => []
  | pos, m :: messages =>
    let stop := pos + 16 + m.body.length
    if stop ≤ len then m.body :: contained len stop messages else contained len stop messages

/-- Behind one that is cut off there is none. -/
theorem contained_nil {len : Nat} (messages : List InnerMessage) : ∀ {pos}, len < pos → contained len pos messages = [] := by
  induction messages with
  | nil => exact fun _ => rfl
  | cons m messages ih =>
    intro pos hpos
    rw [contained, if_neg (by omega), ih (by omega)]

/-- All of them, where the bytes are all there. -/
theorem contained_all {len : Nat} (messages : List InnerMessage) : ∀ {pos}, pos + (messages.flatMap InnerMessage.bytes).length ≤ len →
    contained len pos messages = messages.map InnerMessage.body := by
  induction messages with
  | nil => exact fun _ => rfl
  | cons m messages ih =>
    intro pos hpos
    have hbytes : m.bytes.length = 16 + m.body.length := by
      simp [InnerMessage.bytes]
      omega
    rw [List.flatMap_cons, List.length_append, hbytes] at hpos
    rw [contained, if_pos (by omega), ih (by omega), List.map_cons]

/-- What the cursor reads at the start of a message, if enough of it is there. -/
structure ItemAt (body : List UInt8) (pos : Nat) (m : InnerMessage) (rest : List UInt8) : Prop where
  header : pos + 16 ≤ body.length → toI64 (field body pos 8) = m.msgId ∧ ofLe (field body (pos + 12) 4) = m.body.length
  inner : pos + 16 + m.body.length ≤ body.length → field body (pos + 16) m.body.length = m.body ∧
    body.drop (pos + 16 + m.body.length) <+: rest

/-- Fields of what is there are fields of the whole. -/
theorem field_of_start {body whole : List UInt8} {pos start len : Nat} (h : body.drop pos <+: whole)
    (hlen : pos + start + len ≤ body.length) : field body (pos + start) len = field whole start len := by
  obtain ⟨more, hmore⟩ := h
  have hdrop : start + len ≤ (body.drop pos).length := by
    rw [List.length_drop]
    omega
  rw [field, field, ← hmore, ← List.drop_drop, List.drop_append_of_le_length (by omega),
    List.take_append_of_le_length (by rw [List.length_drop]; omega)]

theorem bytes_append (m : InnerMessage) (rest : List UInt8) :
    m.bytes ++ rest = ofI64 m.msgId ++ (ofI32 m.seqno ++ (le 4 m.body.length ++ (m.body ++ rest))) := by
  simp [InnerMessage.bytes]

/-- The length that is read is the one that was written, in four bytes. -/
theorem lengthAt {body : List UInt8} {pos : Nat} {m : InnerMessage} {rest : List UInt8} (h : body.drop pos <+: m.bytes ++ rest)
    (hlong : pos + 16 ≤ body.length) : ofLe (field body (pos + 12) 4) = m.body.length % 256 ^ 4 := by
  rw [field_of_start h (by omega), bytes_append, show (12 : Nat) = 8 + 4 from rfl, field_append_left 4 4 (ofI64_length _),
    show (4 : Nat) = 4 + 0 from rfl, field_append_left 0 (4 + 0) (ofI32_length _), field_zero_append (le_length 4 _), ofLe_le]

theorem itemAt {body : List UInt8} {pos : Nat} {m : InnerMessage} {rest : List UInt8} (hbody : m.body.length < 256 ^ 4)
    (h : body.drop pos <+: m.bytes ++ rest) : ItemAt body pos m rest := by
  constructor
  · intro hlong
    constructor
    · have hid := field_of_start h (Nat.le_trans (by omega : pos + 0 + 8 ≤ pos + 16) hlong)
      rw [Nat.add_zero] at hid
      rw [hid, bytes_append, field_zero_append (ofI64_length _), toI64_ofI64]
    · rw [lengthAt h hlong, Nat.mod_eq_of_lt hbody]
  · intro hlong
    have hsixteen : (ofI64 m.msgId ++ (ofI32 m.seqno ++ le 4 m.body.length)).length = 16 := by simp
    have hsplit : m.bytes ++ rest = (ofI64 m.msgId ++ (ofI32 m.seqno ++ le 4 m.body.length)) ++ (m.body ++ rest) := by
      simp [InnerMessage.bytes]
    constructor
    · rw [field_of_start h hlong, hsplit]
      show field _ (16 + 0) _ = _
      rw [field_append_left 0 _ hsixteen, field_zero_append rfl]
    · obtain ⟨more, hmore⟩ := h
      refine ⟨more, ?_⟩
      have hdrop : (m.bytes ++ rest).drop (16 + m.body.length) = rest := by
        rw [hsplit, ← List.drop_drop, List.drop_left' hsixteen, List.drop_left' rfl]
      rw [← hdrop, ← hmore, List.drop_append_of_le_length (by rw [List.length_drop]; omega), List.drop_drop, Nat.add_assoc]

/-- Up to the first that satisfies `p`, which is the last one then. -/
def upTo (p : List UInt8 → Bool) : List (List UInt8) → List (List UInt8)
  | [] => []
  | b :: bodies => if p b then [b] else b :: upTo p bodies

section Loops
variable {body : List UInt8}

theorem dispatchLoop_visits (dispatch : MtpSender → List UInt8 → Int64 → Option (MtpSender × List (List UInt8)))
    (messages : List InnerMessage) : ∀ {pos s r}, (∀ m ∈ messages, m.body.length < 256 ^ 4) →
      body.drop pos <+: messages.flatMap InnerMessage.bytes →
      (dispatchLoop dispatch body messages.length pos s).1 = some r →
      (dispatchLoop dispatch body messages.length pos s).2 = contained body.length pos messages := by
  induction messages with
  | nil => exact fun _ _ _ => rfl
  | cons m messages ih =>
    intro pos s r hbodies hstart hreturns
    obtain ⟨hheader, hinner⟩ := itemAt (hbodies m List.mem_cons_self) hstart
    rw [List.length_cons, dispatchLoop] at hreturns ⊢
    rw [contained]
    by_cases hshort : body.length < pos + 16
    · rw [if_pos hshort, if_neg (by omega), contained_nil _ (by omega)]
    · obtain ⟨hid, hlen⟩ := hheader (by omega)
      rw [if_neg hshort] at hreturns ⊢
      dsimp only at hreturns ⊢
      rw [hlen] at hreturns ⊢
      by_cases hcut : body.length < pos + 16 + m.body.length
      · rw [if_pos hcut, if_neg (by omega), contained_nil _ hcut]
      · obtain ⟨hm, hrest⟩ := hinner (by omega)
        rw [if_neg hcut, hm] at hreturns ⊢
        rw [if_pos (by omega)]
        cases hcall : dispatch (s.acknowledge (toI64 (field body pos 8))) m.body (toI64 (field body pos 8)) with
        | none =>
          rw [hcall] at hreturns
          cases hreturns
        | some next =>
          rw [hcall] at hreturns
          obtain ⟨r', hr', -⟩ := Option.map_eq_some_iff.mp hreturns
          have hvisits := ih (fun m' hm' => hbodies m' (List.mem_cons_of_mem m hm')) hrest hr'
          exact congrArg (m.body :: ·) hvisits

theorem scanLoop_visits (scan : List UInt8 → ScanFlags → Option (Report × ScanFlags)) (messages : List InnerMessage) :
    ∀ {pos found flags r flags'}, (∀ m ∈ messages, m.body.length < 256 ^ 4) →
      body.drop pos <+: messages.flatMap InnerMessage.bytes →
      (scanLoop scan body messages.length pos found flags).1 = some (.ok r, flags') →
      (scanLoop scan body messages.length pos found flags).2 = contained body.length pos messages := by
  induction messages with
  | nil => exact fun _ _ _ => rfl
  | cons m messages ih =>
    intro pos found flags r flags' hbodies hstart hreturns
    obtain ⟨hheader, hinner⟩ := itemAt (hbodies m List.mem_cons_self) hstart
    rw [List.length_cons, scanLoop] at hreturns ⊢
    rw [contained]
    by_cases hshort : body.length < pos + 16
    · rw [if_pos hshort, if_neg (by omega), contained_nil _ (by omega)]
    · obtain ⟨-, hlen⟩ := hheader (by omega)
      rw [if_neg hshort] at hreturns ⊢
      dsimp only at hreturns ⊢
      rw [hlen] at hreturns ⊢
      by_cases hcut : body.length < pos + 16 + m.body.length
      · rw [if_pos hcut, if_neg (by omega), contained_nil _ hcut]
      · obtain ⟨hm, hrest⟩ := hinner (by omega)
        rw [if_neg hcut, hm] at hreturns ⊢
        rw [if_pos (by omega)]
        rcases hcall : scan m.body flags with _ | ⟨_ | report, next⟩
        · rw [hcall] at hreturns
          cases hreturns
        · rw [hcall] at hreturns
          cases hreturns
        · rw [hcall] at hreturns
          have hvisits := ih (fun m' hm' => hbodies m' (List.mem_cons_of_mem m hm')) hrest hreturns
          exact congrArg (m.body :: ·) hvisits

/-- It returns `Ok` just for a success among the bodies that are there; otherwise an error. -/
theorem decodeBindLoop_visits (count : Nat) (messages : List InnerMessage) : ∀ {pos lastRealErr},
    (∀ m ∈ messages, m.body.length < 256 ^ 4) → body.drop pos <+: messages.flatMap InnerMessage.bytes →
      ((decodeBindLoop body count messages.length pos lastRealErr).1 = .ok () ↔
        ∃ b ∈ contained body.length pos messages, bindSucceeds b = true) ∧
      (decodeBindLoop body count messages.length pos lastRealErr).2 = upTo bindSucceeds (contained body.length pos messages) := by
  induction messages with
  | nil => exact fun _ _ => ⟨iff_of_false (nofun) (nofun), rfl⟩
  | cons m messages ih =>
    intro pos lastRealErr hbodies hstart
    obtain ⟨hheader, hinner⟩ := itemAt (hbodies m List.mem_cons_self) hstart
    rw [List.length_cons, decodeBindLoop, contained]
    by_cases hshort : body.length < pos + 16
    · rw [if_pos hshort, if_neg (by omega), contained_nil _ (by omega)]
      exact ⟨iff_of_false (nofun) (nofun), rfl⟩
    · obtain ⟨-, hlen⟩ := hheader (by omega)
      rw [if_neg hshort]
      dsimp only
      rw [hlen]
      by_cases hcut : body.length < pos + 16 + m.body.length
      · rw [if_pos hcut, if_neg (by omega), contained_nil _ hcut]
        exact ⟨iff_of_false (nofun) (nofun), rfl⟩
      · obtain ⟨hm, hrest⟩ := hinner (by omega)
        rw [if_neg hcut, hm, if_pos (by omega), upTo]
        have hnext := fun lastRealErr => @ih (pos + 16 + m.body.length) lastRealErr
          (fun m' hm' => hbodies m' (List.mem_cons_of_mem m hm')) hrest
        have hgo : ∀ lastRealErr, bindSucceeds m.body = false →
            ((decodeBindLoop body count messages.length (pos + 16 + m.body.length) lastRealErr).1 = .ok () ↔
              ∃ b ∈ m.body :: contained body.length (pos + 16 + m.body.length) messages, bindSucceeds b = true) ∧
            m.body :: (decodeBindLoop body count messages.length (pos + 16 + m.body.length) lastRealErr).2 =
              if bindSucceeds m.body = true then [m.body]
              else m.body :: upTo bindSucceeds (contained body.length (pos + 16 + m.body.length) messages) := by
          intro lastRealErr hfails
          obtain ⟨hok, hvisits⟩ := hnext lastRealErr
          rw [hok, hvisits, hfails, if_neg (by decide)]
          refine ⟨?_, rfl⟩
          simp only [List.mem_cons, exists_eq_or_imp, hfails, Bool.false_eq_true, false_or]
        unfold bindSucceeds at hgo ⊢
        cases hcall : Pfs.decodeBindSingle m.body with
        | ok _ => exact ⟨iff_of_true rfl ⟨m.body, List.mem_cons_self, by rw [hcall]⟩, rfl⟩
        | error e =>
          rw [hcall] at hgo
          cases e with
          | skip => exact hgo lastRealErr rfl
          | _ => exact hgo (some _) rfl

end Loops

/-! The bytes of a container. -/

theorem containerBody_eq (messages : List InnerMessage) : buildContainerBody messages =
    le 4 idMsgContainer ++ (le 4 messages.length ++ messages.flatMap InnerMessage.bytes) := by
  rw [buildContainerBody, List.append_assoc]

/-- The beginning of a container is one, if it has a constructor at all. -/
theorem start_ctor {messages : List InnerMessage} {start : List UInt8} (h : start <+: buildContainerBody messages)
    (hlong : 4 ≤ start.length) : ctor start = idMsgContainer := by
  obtain ⟨more, hmore⟩ := h
  rw [← ctor_containerBody messages, ← hmore, ctor, ctor, List.take_append_of_le_length hlong]

/-- It has the number of messages, and behind that the messages. -/
theorem start_fields {messages : List InnerMessage} (hcount : messages.length < 2 ^ 32) {start : List UInt8}
    (h : start <+: buildContainerBody messages) (hlong : 8 ≤ start.length) :
    ofLe (field start 4 4) = messages.length ∧ start.drop 8 <+: messages.flatMap InnerMessage.bytes := by
  have hfour : (le 4 idMsgContainer).length = 4 := le_length _ _
  have hlen : (le 4 messages.length).length = 4 := le_length _ _
  constructor
  · have hstart := @field_of_start start (buildContainerBody messages) 0 4 4 h (by omega)
    rw [Nat.zero_add] at hstart
    rw [hstart, containerBody_eq]
    show ofLe (field _ (4 + 0) 4) = _
    rw [field_append_left 0 4 hfour, field_zero_append hlen, ofLe_le_of_lt hcount]
  · obtain ⟨more, hmore⟩ := h
    refine ⟨more, ?_⟩
    rw [← List.drop_append_of_le_length hlong, hmore, containerBody_eq]
    show List.drop (4 + 4) _ = _
    rw [← List.drop_drop, List.drop_left' hfour, List.drop_left' hlen]

/-- The loops visit the bodies that are there, `decode_bind_response` up to the first success. -/
structure Walked (start : List UInt8) (bodies : List (List UInt8)) : Prop where
  dispatch : ∀ w fuel s r, (dispatchWalk w fuel s start).1 = some r → (dispatchWalk w fuel s start).2 = bodies
  scanBody : ∀ gzInflate fuel sentMsgId serverMsgId flags found flags',
    (scanWalk gzInflate fuel sentMsgId serverMsgId start flags).1 = some (.ok found, flags') →
      (scanWalk gzInflate fuel sentMsgId serverMsgId start flags).2 = bodies
  decodeBind : (decodeBindWalk start).2 = upTo bindSucceeds bodies
  decodeBindOk : decodeBindResponse start = .ok () ↔ ∃ b ∈ bodies, bindSucceeds b = true

theorem start_walked {messages : List InnerMessage} (hcount : messages.length < 2 ^ 32)
    (hbodies : ∀ m ∈ messages, m.body.length < 2 ^ 32) {start : List UInt8} (h : start <+: buildContainerBody messages) :
    Walked start (contained start.length 8 messages) := by
  by_cases hshort : start.length < 8
  · rw [contained_nil _ hshort]
    have hbind : ∃ e, decodeBindWalk start = (.error e, []) := by
      unfold decodeBindWalk
      by_cases hfour : start.length < 4
      · exact ⟨_, if_pos hfour⟩
      · rw [if_neg hfour, if_neg (not_not.mpr (start_ctor h (by omega))), if_pos hshort]
        exact ⟨_, rfl⟩
    obtain ⟨e, hbind⟩ := hbind
    constructor
    · intro w fuel s r _
      rw [dispatchWalk, if_pos hshort]
    · intro gzInflate fuel sentMsgId serverMsgId flags found flags' _
      rw [scanWalk, if_pos hshort]
    · rw [hbind]
      rfl
    · rw [decodeBindResponse, hbind]
      exact iff_of_false (nofun) (nofun)
  · obtain ⟨hn, hdrop⟩ := start_fields hcount h (Nat.le_of_not_lt hshort)
    have hctor := start_ctor h (by omega)
    have hbind : decodeBindWalk start = decodeBindLoop start messages.length messages.length 8 none := by
      rw [decodeBindWalk, if_neg (by omega), if_neg (not_not.mpr hctor), if_neg hshort, hn]
    obtain ⟨hok, hvisits⟩ := @decodeBindLoop_visits start messages.length messages 8 none hbodies hdrop
    constructor
    · intro w fuel s r hreturns
      rw [dispatchWalk, if_neg hshort, hn] at hreturns ⊢
      exact dispatchLoop_visits _ messages hbodies hdrop hreturns
    · intro gzInflate fuel sentMsgId serverMsgId flags found flags' hreturns
      rw [scanWalk, if_neg hshort, hn] at hreturns ⊢
      exact scanLoop_visits _ messages hbodies hdrop hreturns
    · rw [hbind, hvisits]
    · rw [decodeBindResponse, hbind, hok]

/-- Bodies and lists that fit their lengths: all of them are visited, and of the beginnings of the container those
that are there. -/
theorem containers_walked {messages : List InnerMessage} (hcount : messages.length < 2 ^ 32)
    (hbodies : ∀ m ∈ messages, m.body.length < 2 ^ 32) :
    Walked (buildContainerBody messages) (messages.map InnerMessage.body) ∧
      ∀ start, start <+: buildContainerBody messages → start ≠ buildContainerBody messages →
        Walked start (contained start.length 8 messages) := by
  constructor
  · have hlen : 8 + (messages.flatMap InnerMessage.bytes).length ≤ (buildContainerBody messages).length := by
      rw [containerBody_eq, List.length_append, List.length_append, le_length, le_length]
      omega
    rw [← contained_all messages hlen]
    exact start_walked hcount hbodies (List.prefix_refl _)
  · intro start hstart _
    exact start_walked hcount hbodies hstart

/-- A message of an odd id without a body, and a success. -/
theorem containers_walked_success :
    let messages : List InnerMessage := [⟨1, 0, []⟩, ⟨5, 1, le 4 Pfs.boolTrue⟩]
    Walked (buildContainerBody messages) (messages.map InnerMessage.body) ∧
      ∀ start, start <+: buildContainerBody messages → start ≠ buildContainerBody messages →
        Walked start (contained start.length 8 messages) :=
  containers_walked (by decide) (by decide)

/-- The length of a body of 2 ^ 32 bytes is written as 0. -/
theorem dispatchWalk_long {m : InnerMessage} (hlong : m.body.length = 2 ^ 32) :
    (dispatchWalk plainWorld 1 idle (buildContainerBody [m])).1.isSome ∧
      (dispatchWalk plainWorld 1 idle (buildContainerBody [m])).2 = [[]] := by
  have hcontainer := containerBody_length [m]
  have hone : [m].length < 2 ^ 32 := by
    rw [List.length_singleton]
    decide
  obtain ⟨hn, hdrop⟩ := start_fields hone (List.prefix_refl _) hcontainer
  have hbytes : (buildContainerBody [m]).length = 24 + m.body.length := by
    rw [containerBody_eq]
    simp [InnerMessage.bytes]
    omega
  have hzero : ofLe (field (buildContainerBody [m]) (8 + 12) 4) = 0 := by
    rw [lengthAt hdrop (by omega), hlong]
    rfl
  rw [dispatchWalk, if_neg (by omega), hn, List.length_singleton, dispatchLoop, if_neg (by omega)]
  dsimp only
  rw [hzero, if_neg (by omega)]
  exact ⟨rfl, rfl⟩

/-- A body of 2 ^ 32 bytes is visited as one without bytes; and an `rpc_error` ends the loop of `scan_body`. -/
theorem long_body_not_visited :
    (dispatchWalk plainWorld 1 idle (buildContainerBody [⟨1, 0, List.replicate (2 ^ 32) 0⟩])).1.isSome ∧
    (dispatchWalk plainWorld 1 idle (buildContainerBody [⟨1, 0, List.replicate (2 ^ 32) 0⟩])).2 ≠ [List.replicate (2 ^ 32) 0] ∧
    (scanWalk (fun _ => none) 1 none 0 (buildContainerBody [⟨1, 0, le 4 idRpcError ++ le 4 420⟩, ⟨5, 1, boolTrue⟩]) (.fresh 0)).2 ≠
      [le 4 idRpcError ++ le 4 420, boolTrue] := by
  obtain ⟨hreturns, hvisited⟩ := @dispatchWalk_long ⟨1, 0, List.replicate (2 ^ 32) 0⟩ List.length_replicate
  refine ⟨hreturns, ?_, by decide⟩
  rw [hvisited]
  intro hsame
  have hempty : [] = List.replicate (2 ^ 32) (0 : UInt8) := List.head_eq_of_cons_eq hsame
  have hlen := congrArg List.length hempty
  rw [List.length_replicate] at hlen
  exact absurd hlen (by decide)

end Ferogram.Mtsender
