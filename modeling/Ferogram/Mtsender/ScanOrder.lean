import Mathlib.Data.List.Permutation
import Ferogram.Lib.BlockScan
import Ferogram.Mtsender.NewSession
import Ferogram.Mtsender.ScanBody

/- A container whose messages come in any order, scanned for one request.

   A message is a list of leaves, those of its messages if it is a container and of its
   content if it is compressed (`leaves`). A scan goes through the leaves, until the first
   that is an error (`interpret`, `scanBody_leaves`), and each of its variables keeps the
   last value written to it.

   So a leaf after an error is not looked at, and a `bad_msg_notification` about another
   message takes back what one about the request has said. What is proved: `orderless_iff`,
   for every list of messages whose wrappers are finitely deep. -/
namespace Ferogram.Mtsender
open Bytes Connect MtpSender BlockScan

/-! Leaves. -/

/-- What a message can say to a request: a report, or one of the three service messages. -/
inductive Leaf where
  | report (report : Report)
  | badServerSalt (badMsgId newSalt : Int64)
  | newSession (firstMsgId serverSalt : Int64)
  | badMsg (badMsgId : Int64) (errorCode : Nat)

namespace Leaf

def err : Leaf → Option InvocationError
  | .report (.error e) => some e
  | _ => none

def payload : Leaf → Option (List UInt8)
  | .report (.ok found) => found
  | _ => none

/-- An error ends a scan. -/
def stops (l : Leaf) : Bool := l.err.isSome

/-- What is written to `need_resend`. -/
def resend (sentMsgId : Option Int64) : Leaf → Option Bool
  | .badServerSalt badMsgId _ => if rejects sentMsgId badMsgId then some true else none
  | .badMsg badMsgId _ => some (rejects sentMsgId badMsgId)
  | _ => none

/-- What is written to the salt. -/
def newSalt (sentMsgId : Option Int64) : Leaf → Option Int64
  | .badServerSalt badMsgId salt => if rejects sentMsgId badMsgId then some salt else none
  | .newSession _ salt => some salt
  | _ => none

/-- What is written to `need_session_reset`. -/
def reset (sentMsgId : Option Int64) : Leaf → Option Bool
  | .newSession firstMsgId _ => if sentMsgId.any (· < firstMsgId) then some true else none
  | _ => none

/-- What is written to `bad_msg_code`. -/
def code : Leaf → Option (Option Nat)
  | .badMsg _ errorCode =>
    if errorCode = 16 ∨ errorCode = 17 ∨ errorCode = 32 ∨ errorCode = 33 then some (some errorCode) else none
  | _ => none

/-- What is written to `bad_msg_server_id`. -/
def serverId (serverMsgId : Int64) : Leaf → Option (Option Int64)
  | .badMsg _ errorCode => if errorCode = 16 ∨ errorCode = 17 then some (some serverMsgId) else none
  | _ => none

/-- The leaf rejects the request. -/
def Rejects (sentMsgId : Option Int64) (l : Leaf) : Prop := l.resend sentMsgId = some true

end Leaf

/-- What leaves say together: the first error, or the first payload. -/
def reportOf (ls : List Leaf) : Report :=
  match first Leaf.err ls with
  | some e => .error e
  | none => .ok (first Leaf.payload ls)

section Leaves
variable (gzInflate : List UInt8 → Option (List UInt8))

/-- The leaves of a message; `none` for want of fuel. -/
def leaves : Nat → Option Int64 → List UInt8 → Option (List Leaf)
  | 0, _, _ => none
  | fuel + 1, sentMsgId, body =>
    if body.length < 4 then some []
    else if ctor body = idRpcResult then
      (scanRpcResult gzInflate (fun inner => (leaves fuel none inner).map reportOf) body sentMsgId).map fun r => [.report r]
    else if ctor body = idRpcError then
      if body.length < 8 then some [.report (.error (.deserialize "rpc_error short"))]
      else some [.report (.error (readRpcError body))]
    else if ctor body = idBadServerSalt then
      some (if 28 ≤ body.length then [.badServerSalt (toI64 (field body 4 8)) (toI64 (field body 20 8))] else [])
    else if ctor body = idNewSessionCreated then
      some (if 28 ≤ body.length then [.newSession (toI64 (field body 4 8)) (toI64 (field body 20 8))] else [])
    else if ctor body = idBadMsgNotification then
      some (if 20 ≤ body.length then [.badMsg (toI64 (field body 4 8)) (ofLe (field body 16 4))] else [])
    else if ctor body = idPong then
      some (if 12 ≤ body.length ∧ sentMsgId.any (toI64 (field body 4 8) = ·) then [.report (.ok (some body))] else [])
    else if ctor body = idMsgContainer then
      if body.length < 8 then some []
      else
        (((containerItems (ofLe (field body 4 4)) (body.drop 8)).map InnerMessage.body).mapM
          (leaves fuel sentMsgId)).map List.flatten
    else if ctor body = idGzipPacked then
      match unpacked gzInflate body with
      | some decompressed => if decompressed = [] then some [] else leaves fuel sentMsgId decompressed
      | none => some []
    else some []

end Leaves

/-! A scan goes through the leaves. -/

section Interpret
variable (sentMsgId : Option Int64) (serverMsgId : Int64)

/-- What a leaf does to the variables. -/
def Leaf.write (flags : ScanFlags) (l : Leaf) : ScanFlags :=
  { salt := (l.newSalt sentMsgId).getD flags.salt
    needResend := (l.resend sentMsgId).getD flags.needResend
    needSessionReset := (l.reset sentMsgId).getD flags.needSessionReset
    badMsgCode := l.code.getD flags.badMsgCode
    badMsgServerId := (l.serverId serverMsgId).getD flags.badMsgServerId }

def interpret : Option (List UInt8) → ScanFlags → List Leaf → Report × ScanFlags
  | found, flags, [] => (.ok found, flags)
  | found, flags, l :: ls =>
    match l.err with
    | some e => (.error e, l.write sentMsgId serverMsgId flags)
    | none => interpret (found.or l.payload) (l.write sentMsgId serverMsgId flags) ls

/-- The variables after leaves that are all seen. -/
def written (flags : ScanFlags) (ls : List Leaf) : ScanFlags :=
  { salt := final (Leaf.newSalt sentMsgId) flags.salt ls
    needResend := final (Leaf.resend sentMsgId) flags.needResend ls
    needSessionReset := final (Leaf.reset sentMsgId) flags.needSessionReset ls
    badMsgCode := final Leaf.code flags.badMsgCode ls
    badMsgServerId := final (Leaf.serverId serverMsgId) flags.badMsgServerId ls }

variable {sentMsgId : Option Int64} {serverMsgId : Int64}

theorem written_cons (flags : ScanFlags) (l : Leaf) (ls : List Leaf) :
    written sentMsgId serverMsgId flags (l :: ls) =
      written sentMsgId serverMsgId (l.write sentMsgId serverMsgId flags) ls := by
  unfold written
  simp only [final_cons]
  rfl

/-- The report is that of the leaves, and every variable keeps the last value that is seen. -/
theorem interpret_eq (found : Option (List UInt8)) (flags : ScanFlags) (ls : List Leaf) :
    interpret sentMsgId serverMsgId found flags ls =
      (match first Leaf.err ls with
        | some e => .error e
        | none => .ok (found.or (first Leaf.payload ls)),
        written sentMsgId serverMsgId flags (seen Leaf.stops ls)) := by
  induction ls generalizing found flags with
  | nil => simp [interpret, first, seen, written, final, last]
  | cons l ls ih =>
    rw [interpret, seen, Leaf.stops]
    cases herr : l.err with
    | some e =>
      rw [Option.isSome_some, if_pos rfl, written_cons]
      simp [first, List.findSome?, herr]
      rfl
    | none =>
      rw [Option.isSome_none, if_neg Bool.false_ne_true, written_cons]
      dsimp only
      rw [ih]
      cases hpay : l.payload <;> simp [first, List.findSome?, herr, hpay]

theorem interpret_none (flags : ScanFlags) (ls : List Leaf) :
    interpret sentMsgId serverMsgId none flags ls =
      (reportOf ls, written sentMsgId serverMsgId flags (seen Leaf.stops ls)) := by
  rw [interpret_eq, reportOf]
  simp

theorem interpret_append (found : Option (List UInt8)) (flags : ScanFlags) (ls ls' : List Leaf) :
    interpret sentMsgId serverMsgId found flags (ls ++ ls') =
      match interpret sentMsgId serverMsgId none flags ls with
      | (.error e, flags) => (.error e, flags)
      | (.ok report, flags) => interpret sentMsgId serverMsgId (found.or report) flags ls' := by
  induction ls generalizing found flags with
  | nil => simp [interpret]
  | cons l ls ih =>
    rw [List.cons_append, interpret, interpret]
    cases herr : l.err with
    | some e => rfl
    | none =>
      dsimp only
      rw [ih, Option.none_or, interpret_eq l.payload, interpret_eq none]
      cases first Leaf.err ls with
      | some e => rfl
      | none => simp [Option.or_assoc]

/-- A loop over messages is one over their leaves. -/
theorem scanItems_leaves {scan : List UInt8 → ScanFlags → Option (Report × ScanFlags)}
    {read : List UInt8 → Option (List Leaf)} {bodies : List (List UInt8)} :
    ∀ {blocks : List (List Leaf)} (found : Option (List UInt8)) (flags : ScanFlags),
      bodies.mapM read = some blocks →
      (∀ body ∈ bodies, ∀ ls, read body = some ls → ∀ flags,
        scan body flags = some (interpret sentMsgId serverMsgId none flags ls)) →
      scanItems scan found flags bodies = some (interpret sentMsgId serverMsgId found flags blocks.flatten) := by
  induction bodies with
  | nil =>
    intro blocks found flags hread _
    obtain rfl : [] = blocks := Option.some.inj hread
    rfl
  | cons body bodies ih =>
    intro blocks found flags hread hscan
    rw [List.mapM_cons] at hread
    obtain ⟨ls, hls, hread⟩ := Option.bind_eq_some_iff.mp hread
    obtain ⟨rest, hrest, hblocks⟩ := Option.bind_eq_some_iff.mp hread
    obtain rfl := Option.some.inj hblocks
    rw [scanItems, hscan body List.mem_cons_self ls hls, List.flatten_cons, interpret_append]
    rcases interpret sentMsgId serverMsgId none flags ls with ⟨report, flags'⟩
    cases report with
    | error e => rfl
    | ok report => exact ih _ _ hrest fun b hb => hscan b (List.mem_cons_of_mem _ hb)

end Interpret

section Scan
variable {gzInflate : List UInt8 → Option (List UInt8)}

/-- What a compressed payload is scanned with matters only where it returns. -/
theorem scanRpcResult_mono {scan scan' : List UInt8 → Option Report} {body : List UInt8} {sentMsgId : Option Int64}
    {r : Report} (h : scanRpcResult gzInflate scan body sentMsgId = some r)
    (hscan : ∀ inner r, scan inner = some r → scan' inner = some r) :
    scanRpcResult gzInflate scan' body sentMsgId = some r := by
  unfold scanRpcResult at h ⊢
  split at h
  · next hother => rw [if_pos hother, ← h]
  · next hother =>
    rw [if_neg hother]
    dsimp only at h ⊢
    generalize (if 12 ≤ body.length then body.drop 12 else body) = inner at h ⊢
    by_cases hgz : 4 ≤ inner.length ∧ ctor inner = idGzipPacked
    · rw [if_pos hgz] at h ⊢
      cases hinner : scan inner with
      | none =>
        rw [hinner] at h
        cases h
      | some r =>
        rw [hscan _ _ hinner]
        rw [hinner] at h
        exact h
    · rwa [if_neg hgz] at h ⊢

theorem interpret_report (sentMsgId : Option Int64) (serverMsgId : Int64) (flags : ScanFlags) (r : Report) :
    interpret sentMsgId serverMsgId none flags [.report r] = (r, flags) := by
  cases r <;> rfl

/-- A service message only writes. -/
theorem interpret_service (sentMsgId : Option Int64) (serverMsgId : Int64) (flags : ScanFlags) {l : Leaf}
    (herr : l.err = none) (hpay : l.payload = none) :
    interpret sentMsgId serverMsgId none flags [l] = (.ok none, l.write sentMsgId serverMsgId flags) := by
  rw [interpret, herr, hpay]
  rfl

theorem interpret_badServerSalt (sentMsgId : Option Int64) (serverMsgId : Int64) (flags : ScanFlags) (body : List UInt8) :
    interpret sentMsgId serverMsgId none flags
        (if 28 ≤ body.length then [.badServerSalt (toI64 (field body 4 8)) (toI64 (field body 20 8))] else []) =
      (.ok none, scanBadServerSalt body flags sentMsgId) := by
  unfold scanBadServerSalt
  by_cases hlen : 28 ≤ body.length
  · rw [if_pos hlen, interpret_service _ _ _ rfl rfl]
    cases hrej : rejects sentMsgId (toI64 (field body 4 8)) <;>
      simp [hlen, hrej, Leaf.write, Leaf.resend, Leaf.newSalt, Leaf.reset, Leaf.code, Leaf.serverId]
  · rw [if_neg hlen, if_neg (fun hc => hlen hc.1)]
    rfl

theorem interpret_newSession (sentMsgId : Option Int64) (serverMsgId : Int64) (flags : ScanFlags) (body : List UInt8) :
    interpret sentMsgId serverMsgId none flags
        (if 28 ≤ body.length then [.newSession (toI64 (field body 4 8)) (toI64 (field body 20 8))] else []) =
      (.ok none, scanNewSessionCreated body flags sentMsgId) := by
  unfold scanNewSessionCreated
  by_cases hlen : 28 ≤ body.length
  · rw [if_pos hlen, if_pos hlen, interpret_service _ _ _ rfl rfl]
    cases hold : sentMsgId.any (· < toI64 (field body 4 8)) <;>
      simp [hold, Leaf.write, Leaf.resend, Leaf.newSalt, Leaf.reset, Leaf.code, Leaf.serverId]
  · rw [if_neg hlen, if_neg hlen]
    rfl

theorem interpret_badMsg (sentMsgId : Option Int64) (serverMsgId : Int64) (flags : ScanFlags) (body : List UInt8) :
    interpret sentMsgId serverMsgId none flags
        (if 20 ≤ body.length then [.badMsg (toI64 (field body 4 8)) (ofLe (field body 16 4))] else []) =
      (.ok none, scanBadMsgNotification body flags sentMsgId serverMsgId) := by
  unfold scanBadMsgNotification
  by_cases hlen : 20 ≤ body.length
  · rw [if_pos hlen, if_pos hlen, interpret_service _ _ _ rfl rfl]
    generalize ofLe (field body 16 4) = errorCode
    by_cases htime : errorCode = 16 ∨ errorCode = 17
    · have hcode : errorCode = 16 ∨ errorCode = 17 ∨ errorCode = 32 ∨ errorCode = 33 := by omega
      simp [htime, hcode, Leaf.write, Leaf.resend, Leaf.newSalt, Leaf.reset, Leaf.code, Leaf.serverId]
    · by_cases hseq : errorCode = 32 ∨ errorCode = 33 <;>
        simp [htime, hseq, Leaf.write, Leaf.resend, Leaf.newSalt, Leaf.reset, Leaf.code, Leaf.serverId]
  · rw [if_neg hlen, if_neg hlen]
    rfl

/-- The scan of a compressed result is for its report alone: it is of no request, and its variables are
thrown away. -/
theorem scanRpcResult_leaves {scan : List UInt8 → Option (Report × ScanFlags)} {read : List UInt8 → Option (List Leaf)}
    {body : List UInt8} {sentMsgId : Option Int64} {serverMsgId : Int64} {flags : ScanFlags} {r : Report}
    (h : scanRpcResult gzInflate (fun inner => (read inner).map reportOf) body sentMsgId = some r)
    (hscan : ∀ inner ls, read inner = some ls → scan inner = some (interpret none serverMsgId none flags ls)) :
    scanRpcResult gzInflate (fun inner => (scan inner).map Prod.fst) body sentMsgId = some r := by
  refine scanRpcResult_mono h (fun inner r hinner => ?_)
  obtain ⟨ls, hls, rfl⟩ := Option.map_eq_some_iff.mp hinner
  rw [hscan inner ls hls, Option.map_some, interpret_none]

/-- A compressed message has the leaves of its content, and none if it cannot be unpacked. -/
theorem scanPacked_leaves {scan : List UInt8 → Option (Report × ScanFlags)} {read : List UInt8 → Option (List Leaf)}
    {body : List UInt8} {sentMsgId : Option Int64} {serverMsgId : Int64} {flags : ScanFlags} {ls : List Leaf}
    (h : (match unpacked gzInflate body with
      | some decompressed => if decompressed = [] then some [] else read decompressed
      | none => some []) = some ls)
    (hscan : ∀ inner ls, read inner = some ls →
      scan inner = some (interpret sentMsgId serverMsgId none flags ls)) :
    (match unpacked gzInflate body with
      | some decompressed => if decompressed = [] then some (.ok none, flags) else scan decompressed
      | none => some (.ok none, flags)) = some (interpret sentMsgId serverMsgId none flags ls) := by
  cases hun : unpacked gzInflate body with
  | none =>
    rw [hun] at h
    obtain rfl := Option.some.inj h
    rfl
  | some decompressed =>
    rw [hun] at h
    dsimp only at h ⊢
    by_cases hempty : decompressed = []
    · rw [if_pos hempty] at h ⊢
      obtain rfl := Option.some.inj h
      rfl
    · rw [if_neg hempty] at h ⊢
      exact hscan _ _ h

/-- A scan of a message goes through its leaves. -/
theorem scanBody_leaves {fuel : Nat} : ∀ {sentMsgId : Option Int64} {body : List UInt8} {ls : List Leaf},
    leaves gzInflate fuel sentMsgId body = some ls → ∀ (serverMsgId : Int64) (flags : ScanFlags),
      scanBody gzInflate fuel body flags sentMsgId serverMsgId =
        some (interpret sentMsgId serverMsgId none flags ls) := by
  induction fuel with
  | zero => exact fun h => nomatch h
  | succ fuel ih =>
    intro sentMsgId body ls h serverMsgId flags
    -- the two definitions ask the same questions in the same order
    rw [leaves] at h
    rw [scanBody]
    by_cases hshort : body.length < 4
    · rw [if_pos hshort] at h ⊢
      obtain rfl := Option.some.inj h
      rfl
    rw [if_neg hshort] at h ⊢
    by_cases hresult : ctor body = idRpcResult
    · rw [if_pos hresult] at h ⊢
      obtain ⟨r, hr, rfl⟩ := Option.map_eq_some_iff.mp h
      rw [scanRpcResult_leaves hr (fun inner ls hls => ih hls serverMsgId (.fresh flags.salt)), Option.map_some,
        interpret_report]
    rw [if_neg hresult] at h ⊢
    by_cases herror : ctor body = idRpcError
    · rw [if_pos herror] at h ⊢
      split at h <;> rename_i hlen <;> obtain rfl := Option.some.inj h <;> rw [interpret_report]
      · rw [if_pos hlen]
      · rw [if_neg hlen]
    rw [if_neg herror] at h ⊢
    by_cases hsalt : ctor body = idBadServerSalt
    · rw [if_pos hsalt] at h ⊢
      obtain rfl := Option.some.inj h
      rw [interpret_badServerSalt]
    rw [if_neg hsalt] at h ⊢
    by_cases hsession : ctor body = idNewSessionCreated
    · rw [if_pos hsession] at h ⊢
      obtain rfl := Option.some.inj h
      rw [interpret_newSession]
    rw [if_neg hsession] at h ⊢
    by_cases hbad : ctor body = idBadMsgNotification
    · rw [if_pos hbad] at h ⊢
      obtain rfl := Option.some.inj h
      rw [interpret_badMsg]
    rw [if_neg hbad] at h ⊢
    by_cases hpong : ctor body = idPong
    · rw [if_pos hpong] at h ⊢
      obtain rfl := Option.some.inj h
      split
      · rw [interpret_report]
      · rfl
    rw [if_neg hpong] at h ⊢
    by_cases hcontainer : ctor body = idMsgContainer
    · rw [if_pos hcontainer] at h ⊢
      by_cases hlen : body.length < 8
      · rw [if_pos hlen] at h ⊢
        obtain rfl := Option.some.inj h
        rfl
      · rw [if_neg hlen] at h ⊢
        obtain ⟨blocks, hblocks, rfl⟩ := Option.map_eq_some_iff.mp h
        exact scanItems_leaves none flags hblocks fun inner _ ls hls flags => ih hls serverMsgId flags
    rw [if_neg hcontainer] at h ⊢
    by_cases hgz : ctor body = idGzipPacked
    · rw [if_pos hgz] at h ⊢
      exact scanPacked_leaves h (fun inner ls hls => ih hls serverMsgId flags)
    · rw [if_neg hgz] at h ⊢
      obtain rfl := Option.some.inj h
      rfl

end Scan

/-! What is promised. -/

/-- The counts and lengths of a container are `u32`s. -/
structure Fits (items : List InnerMessage) : Prop where
  count : items.length < 256 ^ 4
  bodies : ∀ m ∈ items, m.body.length < 256 ^ 4

/-- The variables say what the leaves call for. -/
structure CalledFor (sentMsgId : Option Int64) (serverMsgId : Int64) (ls : List Leaf) (flags : ScanFlags) : Prop where
  resend : flags.needResend = true ↔ ∃ l ∈ ls, l.Rejects sentMsgId
  reset : flags.needSessionReset = true ↔ ∃ l ∈ ls, (l.reset sentMsgId).isSome
  code : flags.badMsgCode.isSome ↔ ∃ l ∈ ls, l.code.isSome
  serverId : flags.badMsgServerId.isSome ↔ ∃ l ∈ ls, (l.serverId serverMsgId).isSome
  salt : ∀ l ∈ ls, ∀ salt ∈ l.newSalt sentMsgId, flags.salt = salt

section Order
variable (gzInflate : List UInt8 → Option (List UInt8)) (fuel : Nat) (sentMsgId : Option Int64) (serverMsgId salt : Int64)

/-- The leaves of a message in a container. -/
def leavesOf (m : InnerMessage) : List Leaf := (leaves gzInflate fuel sentMsgId m.body).getD []

/-- Every order of the messages gives one report and leaves the variables the same, with what the
messages call for. -/
def Orderless (items : List InnerMessage) : Prop :=
  ∃ report flags,
    (∀ items' : List InnerMessage, items'.Perm items →
      scanBody gzInflate (fuel + 1) (buildContainerBody items') (.fresh salt) sentMsgId serverMsgId =
        some (report, flags)) ∧
    CalledFor sentMsgId serverMsgId (items.flatMap (leavesOf gzInflate fuel sentMsgId)) flags

/-- Messages with an error have the same one, and if there are none, messages with a payload have
the same. -/
structure SameReport (f : InnerMessage → List Leaf) (items : List InnerMessage) : Prop where
  errors : ∀ m ∈ items, ∀ m' ∈ items, ∀ e ∈ first Leaf.err (f m), ∀ e' ∈ first Leaf.err (f m'), e = e'
  payloads : (∀ m ∈ items, first Leaf.err (f m) = none) →
    ∀ m ∈ items, ∀ m' ∈ items, ∀ p ∈ first Leaf.payload (f m), ∀ p' ∈ first Leaf.payload (f m'), p = p'

/-- Every variable settles at what the messages call for. -/
structure Agreeing (f : InnerMessage → List Leaf) (items : List InnerMessage) : Prop where
  report : SameReport f items
  resend : ∃ b, (b = true ↔ ∃ l ∈ items.flatMap f, l.Rejects sentMsgId) ∧
    SettlesAt (Leaf.resend sentMsgId) Leaf.stops f false b items
  reset : ∃ b, (b = true ↔ ∃ l ∈ items.flatMap f, (l.reset sentMsgId).isSome) ∧
    SettlesAt (Leaf.reset sentMsgId) Leaf.stops f false b items
  code : ∃ c : Option Nat, (c.isSome ↔ ∃ l ∈ items.flatMap f, l.code.isSome) ∧
    SettlesAt Leaf.code Leaf.stops f none c items
  serverId : ∃ i : Option Int64, (i.isSome ↔ ∃ l ∈ items.flatMap f, (l.serverId serverMsgId).isSome) ∧
    SettlesAt (Leaf.serverId serverMsgId) Leaf.stops f none i items
  salt : ∃ newSalt, (∀ l ∈ items.flatMap f, ∀ s ∈ l.newSalt sentMsgId, newSalt = s) ∧
    SettlesAt (Leaf.newSalt sentMsgId) Leaf.stops f salt newSalt items

end Order

/-! The order of the messages. -/

section Report
variable {f : InnerMessage → List Leaf} {items : List InnerMessage}

theorem sameReport_of_orders {r : Report}
    (h : ∀ items' : List InnerMessage, items'.Perm items → reportOf (items'.flatMap f) = r) : SameReport f items := by
  cases r with
  | error e₀ =>
    have herr : ∀ items' : List InnerMessage, items'.Perm items → first Leaf.err (items'.flatMap f) = some e₀ := by
      intro items' hp
      have hr := h items' hp
      unfold reportOf at hr
      cases hfirst : first Leaf.err (items'.flatMap f) with
      | none =>
        rw [hfirst] at hr
        cases hr
      | some e =>
        rw [hfirst] at hr
        cases hr
        rfl
    obtain ⟨hsome, hnone⟩ := all_orders_first.mp herr
    refine ⟨fun m hm m' hm' e he e' he' => ?_, fun hall => ?_⟩
    · exact Option.some.inj ((hsome m hm e he).symm.trans (hsome m' hm' e' he'))
    · cases hnone hall
  | ok p₀ =>
    have hboth : ∀ items' : List InnerMessage, items'.Perm items →
        first Leaf.err (items'.flatMap f) = none ∧ first Leaf.payload (items'.flatMap f) = p₀ := by
      intro items' hp
      have hr := h items' hp
      unfold reportOf at hr
      cases hfirst : first Leaf.err (items'.flatMap f) with
      | none =>
        rw [hfirst] at hr
        exact ⟨rfl, Except.ok.inj hr⟩
      | some e =>
        rw [hfirst] at hr
        cases hr
    obtain ⟨herr, -⟩ := all_orders_first.mp fun items' hp => (hboth items' hp).1
    obtain ⟨hpay, -⟩ := all_orders_first.mp fun items' hp => (hboth items' hp).2
    refine ⟨fun m hm m' hm' e he => ?_, fun _ m hm m' hm' p hp p' hp' => ?_⟩
    · cases herr m hm e he
    · exact Option.some.inj ((hpay m hm p hp).symm.trans (hpay m' hm' p' hp'))

theorem SameReport.orders (h : SameReport f items) :
    ∃ r, ∀ items' : List InnerMessage, items'.Perm items → reportOf (items'.flatMap f) = r := by
  by_cases hex : ∃ m ∈ items, ∃ e, first Leaf.err (f m) = some e
  · -- the error is the report
    obtain ⟨m, hm, e, he⟩ := hex
    refine ⟨.error e, fun items' hp => ?_⟩
    have herr : first Leaf.err (items'.flatMap f) = some e :=
      all_orders_first.mpr ⟨fun x hx u hu => congrArg some (h.errors m hm x hx e he u hu),
        fun hall => absurd (he.symm.trans (hall m hm)) (by simp)⟩ items' hp
    rw [reportOf, herr]
  · -- no message has an error
    have hnone : ∀ m ∈ items, first Leaf.err (f m) = none := by
      intro m hm
      cases he : first Leaf.err (f m) with
      | none => rfl
      | some e => exact absurd ⟨m, hm, e, he⟩ hex
    refine ⟨.ok (first Leaf.payload (items.flatMap f)), fun items' hp => ?_⟩
    have herr : first Leaf.err (items'.flatMap f) = none :=
      all_orders_first.mpr ⟨fun x hx u hu => absurd ((hnone x hx).symm.trans hu) (by simp), fun _ => rfl⟩ items' hp
    have hpay : first Leaf.payload (items'.flatMap f) = first Leaf.payload (items.flatMap f) := by
      refine all_orders_first.mpr ⟨fun x hx u hu => ?_, fun hall => ?_⟩ items' hp
      · cases hfirst : first Leaf.payload (items.flatMap f) with
        | some p =>
          obtain ⟨y, hy, hyp⟩ := first_flatMap hfirst
          exact congrArg some (h.payloads hnone y hy x hx p hyp u hu)
        | none =>
          obtain ⟨l, hl, hlu⟩ := exists_of_first hu
          have hall := List.findSome?_eq_none_iff.mp hfirst l (List.mem_flatMap.mpr ⟨x, hx, hl⟩)
          rw [hlu] at hall
          cases hall
      · cases hfirst : first Leaf.payload (items.flatMap f) with
        | none => rfl
        | some p =>
          obtain ⟨y, hy, hyp⟩ := first_flatMap hfirst
          rw [hall y hy] at hyp
          cases hyp
    rw [reportOf, herr, hpay]

end Report

section Main
variable {gzInflate : List UInt8 → Option (List UInt8)} {fuel : Nat} {sentMsgId : Option Int64}

/-- A scan of a container goes through the leaves of its messages. -/
theorem scanBody_container {items : List InnerMessage} (hfits : Fits items)
    (hleaves : ∀ m ∈ items, (leaves gzInflate fuel sentMsgId m.body).isSome) (serverMsgId : Int64) (flags : ScanFlags) :
    scanBody gzInflate (fuel + 1) (buildContainerBody items) flags sentMsgId serverMsgId =
      some (reportOf (items.flatMap (leavesOf gzInflate fuel sentMsgId)),
        written sentMsgId serverMsgId flags
          (seen Leaf.stops (items.flatMap (leavesOf gzInflate fuel sentMsgId)))) := by
  have hmap : (items.map InnerMessage.body).mapM (leaves gzInflate fuel sentMsgId) =
      some (items.map (leavesOf gzInflate fuel sentMsgId)) := by
    clear hfits
    induction items with
    | nil => rfl
    | cons m items ih =>
      obtain ⟨ls, hls⟩ := Option.isSome_iff_exists.mp (hleaves m List.mem_cons_self)
      rw [List.map_cons, List.mapM_cons, hls, ih fun m' hm' => hleaves m' (List.mem_cons_of_mem _ hm'), List.map_cons,
        leavesOf, hls]
      rfl
  have hbody : leaves gzInflate (fuel + 1) sentMsgId (buildContainerBody items) =
      some (items.flatMap (leavesOf gzInflate fuel sentMsgId)) := by
    have hlen := containerBody_length items
    rw [leaves, if_neg (by omega), ctor_containerBody, if_neg (by decide), if_neg (by decide), if_neg (by decide),
      if_neg (by decide), if_neg (by decide), if_neg (by decide), if_pos rfl, if_neg (by omega),
      containerItems_containerBody items hfits.count hfits.bodies, hmap]
    rfl
  rw [scanBody_leaves hbody, interpret_none]

end Main

/-- The order of the messages of a container makes no difference, and everything they call for is
noted, exactly if every variable settles at that and the reports are the same. -/
theorem orderless_iff (gzInflate : List UInt8 → Option (List UInt8)) (fuel : Nat) (sentMsgId : Option Int64)
    (serverMsgId salt : Int64) (items : List InnerMessage) (hfits : Fits items)
    (hleaves : ∀ m ∈ items, (leaves gzInflate fuel sentMsgId m.body).isSome) :
    Orderless gzInflate fuel sentMsgId serverMsgId salt items ↔
      Agreeing sentMsgId serverMsgId salt (leavesOf gzInflate fuel sentMsgId) items := by
  have hscan : ∀ items' : List InnerMessage, items'.Perm items →
      scanBody gzInflate (fuel + 1) (buildContainerBody items') (.fresh salt) sentMsgId serverMsgId =
        some (reportOf (items'.flatMap (leavesOf gzInflate fuel sentMsgId)),
          written sentMsgId serverMsgId (.fresh salt)
            (seen Leaf.stops (items'.flatMap (leavesOf gzInflate fuel sentMsgId)))) := by
    intro items' hp
    refine scanBody_container ⟨?_, ?_⟩ (fun m hm => hleaves m (hp.subset hm)) serverMsgId _
    · rw [hp.length_eq]
      exact hfits.count
    · exact fun m hm => hfits.bodies m (hp.subset hm)
  constructor
  · rintro ⟨report, flags, horders, hcalled⟩
    have hall : ∀ items' : List InnerMessage, items'.Perm items →
        reportOf (items'.flatMap (leavesOf gzInflate fuel sentMsgId)) = report ∧
          written sentMsgId serverMsgId (.fresh salt)
            (seen Leaf.stops (items'.flatMap (leavesOf gzInflate fuel sentMsgId))) = flags := by
      intro items' hp
      exact Prod.mk.inj (Option.some.inj ((hscan items' hp).symm.trans (horders items' hp)))
    exact {
      report := sameReport_of_orders fun items' hp => (hall items' hp).1
      resend := ⟨flags.needResend, hcalled.resend,
        all_orders_final.mp fun items' hp => congrArg ScanFlags.needResend (hall items' hp).2⟩
      reset := ⟨flags.needSessionReset, hcalled.reset,
        all_orders_final.mp fun items' hp => congrArg ScanFlags.needSessionReset (hall items' hp).2⟩
      code := ⟨flags.badMsgCode, hcalled.code,
        all_orders_final.mp fun items' hp => congrArg ScanFlags.badMsgCode (hall items' hp).2⟩
      serverId := ⟨flags.badMsgServerId, hcalled.serverId,
        all_orders_final.mp fun items' hp => congrArg ScanFlags.badMsgServerId (hall items' hp).2⟩
      salt := ⟨flags.salt, hcalled.salt,
        all_orders_final.mp fun items' hp => congrArg ScanFlags.salt (hall items' hp).2⟩ }
  · rintro ⟨hreport, ⟨b, hb, hbset⟩, ⟨t, ht, htset⟩, ⟨c, hc, hcset⟩, ⟨i, hi, hiset⟩, ⟨σ, hσ, hσset⟩⟩
    obtain ⟨r, hr⟩ := hreport.orders
    refine ⟨r, { salt := σ, needResend := b, needSessionReset := t, badMsgCode := c, badMsgServerId := i }, ?_,
      ⟨hb, ht, hc, hi, hσ⟩⟩
    intro items' hp
    rw [hscan items' hp, hr items' hp]
    unfold written ScanFlags.fresh
    rw [(hσset.perm hp).final_eq, (hbset.perm hp).final_eq, (htset.perm hp).final_eq, (hcset.perm hp).final_eq,
      (hiset.perm hp).final_eq]

/-- A `bad_server_salt` and a `bad_msg_notification` about a message. -/
def saltMessage (badMsgId newSalt : Int64) : InnerMessage :=
  { msgId := 1, seqno := 0, body := le 4 idBadServerSalt ++ ofI64 badMsgId ++ le 4 0 ++ le 4 48 ++ ofI64 newSalt }

def badMsgMessage (badMsgId : Int64) (errorCode : Nat) : InnerMessage :=
  { msgId := 1, seqno := 0, body := le 4 idBadMsgNotification ++ ofI64 badMsgId ++ le 4 0 ++ le 4 errorCode }

/-- A new salt for message 8, and an error of the clock about it. -/
theorem salted_orderless : Orderless (fun _ => none) 1 (some 8) 5 7 [saltMessage 8 99, badMsgMessage 8 16] := by
  have hleaves : [saltMessage 8 99, badMsgMessage 8 16].flatMap (leavesOf (fun _ => none) 1 (some 8)) =
    [.badServerSalt 8 99, .badMsg 8 16] := rfl
  refine (orderless_iff (fun _ => none) 1 (some 8) 5 7 _ ⟨by decide, by decide⟩ (by decide)).mpr ?_
  have hsettles : ∀ {β : Type} {w : Leaf → Option β} {v₀ v : β},
      final w v₀ (seen Leaf.stops [.badServerSalt 8 99, .badMsg 8 16]) = v →
      final w v₀ (seen Leaf.stops [.badMsg 8 16, .badServerSalt 8 99]) = v →
      SettlesAt w Leaf.stops (leavesOf (fun _ => none) 1 (some 8)) v₀ v [saltMessage 8 99, badMsgMessage 8 16] := by
    intro β w v₀ v h h'
    refine all_orders_final.mp fun items' hp => ?_
    rcases List.perm_pair.mp hp with rfl | rfl
    · exact h
    · exact h'
  exact {
    report := sameReport_of_orders fun items' hp => by
      rcases List.perm_pair.mp hp with rfl | rfl <;> rfl
    resend := ⟨true, iff_of_true rfl ⟨.badServerSalt 8 99, List.mem_cons_self, rfl⟩, hsettles rfl rfl⟩
    reset := ⟨false, iff_of_false (by decide) (by simp [hleaves, Leaf.reset]), hsettles rfl rfl⟩
    code := ⟨some 16, iff_of_true rfl ⟨.badMsg 8 16, by simp [hleaves], rfl⟩, hsettles rfl rfl⟩
    serverId := ⟨some 5, iff_of_true rfl ⟨.badMsg 8 16, by simp [hleaves], rfl⟩, hsettles rfl rfl⟩
    salt := ⟨99, by simp [hleaves, Leaf.newSalt, rejects], hsettles rfl rfl⟩ }

/-- Message 8 is rejected, and then another one, which takes that back. -/
theorem rejection_taken_back :
    ¬ ∀ (gzInflate : List UInt8 → Option (List UInt8)) (fuel : Nat) (sentMsgId : Option Int64)
      (serverMsgId salt : Int64) (items : List InnerMessage), Fits items →
      (∀ m ∈ items, (leaves gzInflate fuel sentMsgId m.body).isSome) →
      Orderless gzInflate fuel sentMsgId serverMsgId salt items := by
  intro h
  obtain ⟨report, flags, horders, hcalled⟩ := h (fun _ => none) 1 (some 8) 5 7 [badMsgMessage 8 48, badMsgMessage 9 48]
    ⟨by decide, by decide⟩ (by decide)
  have hscan := horders _ (List.Perm.refl _)
  have hflags : flags.needResend = false := by
    have hresend : ((scanBody (fun _ => none) 2 (buildContainerBody [badMsgMessage 8 48, badMsgMessage 9 48]) (.fresh 7)
        (some 8) 5).map fun out => out.2.needResend) = some false := by decide
    rw [hscan] at hresend
    exact Option.some.inj hresend
  have hrejected : ∃ l ∈ [badMsgMessage 8 48, badMsgMessage 9 48].flatMap (leavesOf (fun _ => none) 1 (some 8)),
      l.Rejects (some 8) := ⟨.badMsg 8 48, List.mem_cons_self, rfl⟩
  rw [← hcalled.resend, hflags] at hrejected
  cases hrejected

end Ferogram.Mtsender
