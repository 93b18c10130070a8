import Ferogram.Mtsender.Sender

/- The decoder of a connection that has one request out, `DcConnection::scan_body` of
   `ferogram-mtsender/src/sender.rs`, and its result decoder beside the one of
   `MtpSender::dispatch`.

   The out-parameters are a record that goes in and comes out. Neither the nesting of
   containers nor that of compressed messages is bounded in the source; fuel bounds it here,
   and `none` is for want of it. Decompression is a parameter.

   The two decoders of an `rpc_result` have no code in common: this one scans a compressed
   payload as a message of its own, with variables it throws away, and unpacks it again if
   the scan found nothing. What is proved: `decoders_agree`. -/
namespace Ferogram.Mtsender
open Bytes Connect MtpSender

/-- What a scan writes to its caller's variables. -/
structure ScanFlags where
  salt : Int64
  needResend : Bool
  needSessionReset : Bool
  badMsgCode : Option Nat
  badMsgServerId : Option Int64
  deriving DecidableEq, Repr

/-- The variables as every caller sets them up. -/
def ScanFlags.fresh (salt : Int64) : ScanFlags :=
  { salt := salt, needResend := false, needSessionReset := false, badMsgCode := none, badMsgServerId := none }

/-- What a scan reports: nothing, a payload or an error. -/
abbrev Report := Except InvocationError (Option (List UInt8))

/-- An `rpc_error` of eight bytes at least. -/
def readRpcError (body : List UInt8) : InvocationError :=
  .rpc (RpcError.fromTelegram (toI32 (field body 4 4)) ((tlReadString (body.drop 8)).getD ""))

section Scan
variable (gzInflate : List UInt8 → Option (List UInt8))

/-- The content of a `gzip_packed`. -/
def unpacked (body : List UInt8) : Option (List UInt8) := (tlReadBytes (body.drop 4)).bind gzInflate

/-- `rpc_result`; `scan` is for a compressed payload. -/
def scanRpcResult (scan : List UInt8 → Option Report) (body : List UInt8) (sentMsgId : Option Int64) : Option Report :=
  if 12 ≤ body.length ∧ sentMsgId.any (toI64 (field body 4 8) ≠ ·) then some (.ok none)
  else
    let inner := if 12 ≤ body.length then body.drop 12 else body
    if 4 ≤ inner.length ∧ ctor inner = idGzipPacked then
      match scan inner with
      | none => none
      | some (.ok none) => some (.ok (unpacked gzInflate inner))
      | some report => some report
    else if 8 ≤ inner.length ∧ ctor inner = idRpcError then some (.error (readRpcError inner))
    else some (.ok (some inner))

/-- `sent_msg_id.is_none_or(|id| id == bad_msg_id)`. -/
def rejects (sentMsgId : Option Int64) (badMsgId : Int64) : Bool := sentMsgId.all (· = badMsgId)

def scanBadServerSalt (body : List UInt8) (flags : ScanFlags) (sentMsgId : Option Int64) : ScanFlags :=
  if 28 ≤ body.length ∧ rejects sentMsgId (toI64 (field body 4 8)) then
    { flags with salt := toI64 (field body 20 8), needResend := true }
  else flags

def scanNewSessionCreated (body : List UInt8) (flags : ScanFlags) (sentMsgId : Option Int64) : ScanFlags :=
  if 28 ≤ body.length then
    { flags with
      salt := toI64 (field body 20 8)
      needSessionReset := flags.needSessionReset || sentMsgId.any (· < toI64 (field body 4 8)) }
  else flags

def scanBadMsgNotification (body : List UInt8) (flags : ScanFlags) (sentMsgId : Option Int64) (serverMsgId : Int64) :
    ScanFlags :=
  if 20 ≤ body.length then
    let errorCode := ofLe (field body 16 4)
    let flags := { flags with needResend := rejects sentMsgId (toI64 (field body 4 8)) }
    if errorCode = 16 ∨ errorCode = 17 then
      { flags with badMsgCode := some errorCode, badMsgServerId := some serverMsgId }
    else if errorCode = 32 ∨ errorCode = 33 then { flags with badMsgCode := some errorCode }
    else flags
  else flags

/-- The loop over a container: the first payload found stays, an error ends it. -/
def scanItems (scan : List UInt8 → ScanFlags → Option (Report × ScanFlags)) :
    Option (List UInt8) → ScanFlags → List (List UInt8) → Option (Report × ScanFlags)
  | found, flags, [] => some (.ok found, flags)
  | found, flags, inner :: rest =>
    match scan inner flags with
    | none => none
    | some (.error e, flags) => some (.error e, flags)
    | some (.ok report, flags) => scanItems scan (found.or report) flags rest

def scanBody : Nat → List UInt8 → ScanFlags → Option Int64 → Int64 → Option (Report × ScanFlags)
  | 0, _, _, _, _ => none
  | fuel + 1, body, flags, sentMsgId, serverMsgId =>
    if body.length < 4 then some (.ok none, flags)
    else if ctor body = idRpcResult then
      (scanRpcResult gzInflate
        (fun inner => (scanBody fuel inner (.fresh flags.salt) none serverMsgId).map Prod.fst) body sentMsgId).map
        (·, flags)
    else if ctor body = idRpcError then
      if body.length < 8 then some (.error (.deserialize "rpc_error short"), flags)
      else some (.error (readRpcError body), flags)
    else if ctor body = idBadServerSalt then some (.ok none, scanBadServerSalt body flags sentMsgId)
    else if ctor body = idNewSessionCreated then some (.ok none, scanNewSessionCreated body flags sentMsgId)
    else if ctor body = idBadMsgNotification then
      some (.ok none, scanBadMsgNotification body flags sentMsgId serverMsgId)
    else if ctor body = idPong then
      if 12 ≤ body.length ∧ sentMsgId.any (toI64 (field body 4 8) = ·) then some (.ok (some body), flags)
      else some (.ok none, flags)
    else if ctor body = idMsgContainer then
      if body.length < 8 then some (.ok none, flags)
      else
        scanItems (fun inner flags => scanBody fuel inner flags sentMsgId serverMsgId) none flags
          ((containerItems (ofLe (field body 4 4)) (body.drop 8)).map InnerMessage.body)
    else if ctor body = idGzipPacked then
      match unpacked gzInflate body with
      | some decompressed =>
        if decompressed = [] then some (.ok none, flags)
        else scanBody fuel decompressed flags sentMsgId serverMsgId
      | none => some (.ok none, flags)
    else some (.ok none, flags)

end Scan

/-! The result of a request. -/

/-- The constructors that a scan looks into. -/
def wrappers : List Nat := [idRpcResult, idMsgContainer, idGzipPacked]

/-- An object that is an answer: an `rpc_error` has its code. -/
structure AnswerObject (object : List UInt8) : Prop where
  long : 4 ≤ object.length
  error : ctor object = idRpcError → 8 ≤ object.length
  plain : ctor object ∉ wrappers

/-- The payload is the object, or the object compressed. -/
def Carries (gzInflate : List UInt8 → Option (List UInt8)) (payload object : List UInt8) : Prop :=
  payload = object ∨ 4 ≤ payload.length ∧ ctor payload = idGzipPacked ∧ unpacked gzInflate payload = some object

/-- What the waiting caller gets of an object. -/
def outcomeOf (object : List UInt8) : Outcome :=
  if 8 ≤ object.length ∧ ctor object = idRpcError then
    .error (RpcError.fromTelegram (toI32 (field object 4 4)) ((tlReadString (object.drop 8)).getD ""))
  else .ok object

/-- The same, as a scan reports it. -/
def reported : Outcome → Report
  | .ok bytes => .ok (some bytes)
  | .error e => .error (.rpc e)

theorem reported_outcomeOf (object : List UInt8) :
    reported (outcomeOf object) =
      if 8 ≤ object.length ∧ ctor object = idRpcError then .error (readRpcError object) else .ok (some object) := by
  unfold outcomeOf
  split <;> rfl

section Agree
variable {gzInflate : List UInt8 → Option (List UInt8)}

/-- An answer by itself, scanned without a request in mind, is an error or nothing. -/
theorem scanBody_answer {object : List UInt8} (h : AnswerObject object) (fuel : Nat) (flags : ScanFlags)
    (serverMsgId : Int64) :
    (scanBody gzInflate (fuel + 1) object flags none serverMsgId).map Prod.fst =
      some (if ctor object = idRpcError then .error (readRpcError object) else .ok none) := by
  have hwrap := h.plain
  simp only [wrappers, List.mem_cons, List.not_mem_nil, or_false, not_or] at hwrap
  unfold scanBody
  rw [if_neg (Nat.not_lt.mpr h.long), if_neg hwrap.1]
  by_cases herr : ctor object = idRpcError
  · rw [if_pos herr, if_neg (Nat.not_lt.mpr (h.error herr)), if_pos herr]
    rfl
  · rw [if_neg herr, if_neg herr, if_neg hwrap.2.1, if_neg hwrap.2.2]
    simp only [Option.any_none, Bool.false_eq_true, and_false, if_false]
    split_ifs <;> rfl

/-- The decoder of a connection reports the object of the payload. -/
theorem scanRpcResult_carries {body object : List UInt8} (hlong : 16 ≤ body.length)
    (hobj : AnswerObject object) (hc : Carries gzInflate (body.drop 12) object) (fuel : Nat) (flags : ScanFlags)
    (serverMsgId : Int64) :
    scanRpcResult gzInflate
      (fun inner => (scanBody gzInflate (fuel + 2) inner flags none serverMsgId).map Prod.fst)
      body (some (toI64 (field body 4 8))) = some (reported (outcomeOf object)) := by
  have hbody : 12 ≤ body.length := by omega
  unfold scanRpcResult
  rw [if_neg (by simp), if_pos hbody, reported_outcomeOf]
  rcases hc with hplain | ⟨hlen, hgz, hobject⟩
  · have hwrap := hobj.plain
    simp only [wrappers, List.mem_cons, List.not_mem_nil, or_false, not_or] at hwrap
    rw [hplain, if_neg (fun hc => hwrap.2.2 hc.2)]
    split <;> rfl
  · have hinner : (scanBody gzInflate (fuel + 2) (body.drop 12) flags none serverMsgId).map Prod.fst =
        some (if ctor object = idRpcError then .error (readRpcError object) else .ok none) := by
      have hne : object ≠ [] := by
        rintro rfl
        exact absurd hobj.long (by decide)
      rw [← scanBody_answer hobj fuel flags serverMsgId, scanBody, if_neg (Nat.not_lt.mpr hlen)]
      simp only [hgz, hobject]
      rw [if_neg (by decide), if_neg (by decide), if_neg (by decide), if_neg (by decide), if_neg (by decide),
        if_neg (by decide), if_neg (by decide), if_pos trivial, if_neg hne]
    simp only
    rw [if_pos ⟨hlen, hgz⟩, hinner]
    by_cases herr : ctor object = idRpcError
    · rw [if_pos herr, if_pos ⟨hobj.error herr, herr⟩]
    · rw [if_neg herr, if_neg (fun hc => herr hc.2), hobject]

/-- So does the decoder of a sender. -/
theorem rpcOutcome_carries {w : World} {body object : List UInt8} (hobj : AnswerObject object)
    (hc : Carries w.gzInflate (body.drop 12) object) : rpcOutcome w body = outcomeOf object := by
  have hresult : (if 4 ≤ (body.drop 12).length ∧ ctor (body.drop 12) = idGzipPacked then
      (unpacked w.gzInflate (body.drop 12)).getD (body.drop 12) else body.drop 12) = object := by
    rcases hc with hplain | ⟨hlen, hgz, hobject⟩
    · have hwrap := hobj.plain
      simp only [wrappers, List.mem_cons, List.not_mem_nil, or_false, not_or] at hwrap
      rw [hplain, if_neg (fun hc => hwrap.2.2 hc.2)]
    · rw [if_pos ⟨hlen, hgz⟩, hobject, Option.getD_some]
  rw [← hresult]
  rfl

end Agree

/-- An `rpc_result` of 16 bytes or more gives the caller who waits for it the same outcome in both
senders, if its payload is an answer or a compressed one. -/
theorem decoders_agree (w : World) (s : MtpSender) (fuel : Nat) (hfuel : 3 ≤ fuel) (body object : List UInt8)
    (msgId serverMsgId : Int64) (flags : ScanFlags) (req : Request) (hlong : 16 ≤ body.length)
    (hctor : ctor body = idRpcResult) (hreq : s.requests.find? (sentAs (toI64 (field body 4 8))) = some req)
    (hobj : AnswerObject object) (hc : Carries w.gzInflate (body.drop 12) object) :
    ∃ outcome, (∃ s', dispatch w fuel s body msgId = some (s', []) ∧ s'.answers = s.answers ++ [(req.tx, outcome)]) ∧
      scanBody w.gzInflate fuel body flags (some (toI64 (field body 4 8))) serverMsgId =
        some (reported outcome, flags) := by
  obtain ⟨fuel, rfl⟩ := Nat.exists_eq_add_of_le' hfuel
  refine ⟨outcomeOf object, ?_, ?_⟩
  · have hresolve : s.onRpcResult w body = { s with
        requests := s.requests.eraseP (sentAs (toI64 (field body 4 8)))
        answers := s.answers ++ [(req.tx, outcomeOf object)] } := by
      unfold onRpcResult resolve complete
      rw [if_neg (by omega), rpcOutcome_carries hobj hc, hreq]
    refine ⟨_, ?_, congrArg MtpSender.answers hresolve⟩
    rw [dispatch, if_neg (by omega), if_pos hctor]
  · rw [scanBody, if_neg (by omega), if_pos hctor, scanRpcResult_carries hlong hobj hc]
    rfl

/-- `boolTrue`, and a `rpc_result` for message 8 with it compressed. -/
def boolTrue : List UInt8 := [0xb5, 0x75, 0x72, 0x99]

def zipped : List UInt8 := [120, 156, 219, 90, 90, 52, 19, 0, 5, 180, 2, 54]

def zippedResult : List UInt8 := le 4 idRpcResult ++ ofI64 8 ++ le 4 idGzipPacked ++ 12 :: zipped

/-- A request with id 8 is out, and `zipped` unpacks to `boolTrue`. -/
def outstanding : MtpSender := { idle with requests := [{ body := [], state := .sent 8 8, tx := 3 }] }

def zlibWorld : World := { plainWorld with gzInflate := fun data => if data = zipped then some boolTrue else none }

theorem decoders_agree_zipped :
    ∃ outcome, (∃ s', dispatch zlibWorld 3 outstanding zippedResult 1 = some (s', []) ∧
        s'.answers = outstanding.answers ++ [(3, outcome)]) ∧
      scanBody zlibWorld.gzInflate 3 zippedResult (.fresh 0) (some (toI64 (field zippedResult 4 8))) 1 =
        some (reported outcome, .fresh 0) :=
  decoders_agree zlibWorld outstanding 3 (by decide) zippedResult boolTrue 1 1 (.fresh 0)
    { body := [], state := .sent 8 8, tx := 3 } (by decide) (by decide) (by decide)
    ⟨by decide, by decide, by decide⟩ (.inr ⟨by decide, by decide, by decide⟩)

end Ferogram.Mtsender
