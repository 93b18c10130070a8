import Mathlib.Data.List.Nodup
import Ferogram.Mtsender.Sender

/- `new_session_created` in a container with results.

   The messages of a container are dispatched one by one. A result is handed to the
   request that is `Sent` under its id; `new_session_created` sets every request that is
   out back to pending, whatever its `first_msg_id` says, and from then on no result of
   the container finds its request.

   What is proved: `newSession_settles_iff`, which says for every state and every such
   container when each result reaches its request once and only requests older than
   `first_msg_id` are sent again. -/
namespace Ferogram.Mtsender
open Bytes Connect Mtproto MtpSender

/-- An `rpc_result` inside a container. -/
structure RpcResult where
  msgId : Int64
  seqno : Int32
  reqMsgId : Int64
  result : List UInt8
  /-- The length field of the message is a `u32`. -/
  fits : result.length + 12 < 256 ^ 4

namespace RpcResult

def body (r : RpcResult) : List UInt8 := le 4 idRpcResult ++ ofI64 r.reqMsgId ++ r.result

def message (r : RpcResult) : InnerMessage :=
  { msgId := r.msgId, seqno := r.seqno, body := r.body }

end RpcResult

/-- A container with one `new_session_created` and results before and after it. -/
structure SessionContainer where
  before : List RpcResult
  msgId : Int64
  seqno : Int32
  firstMsgId : Int64
  uniqueId : Int64
  serverSalt : Int64
  after : List RpcResult
  /-- The count of the messages is a `u32`. -/
  fits : before.length + after.length + 1 < 256 ^ 4

namespace SessionContainer

def created (c : SessionContainer) : InnerMessage :=
  { msgId := c.msgId, seqno := c.seqno
    body := le 4 idNewSessionCreated ++ ofI64 c.firstMsgId ++ ofI64 c.uniqueId ++ ofI64 c.serverSalt }

def messages (c : SessionContainer) : List InnerMessage :=
  c.before.map RpcResult.message ++ c.created :: c.after.map RpcResult.message

def bytes (c : SessionContainer) : List UInt8 := buildContainerBody c.messages

def results (c : SessionContainer) : List RpcResult := c.before ++ c.after

end SessionContainer

/-! A container is taken apart as it was put together. -/

theorem containerItems_messages (messages : List InnerMessage)
    (h : ∀ m ∈ messages, m.body.length < 256 ^ 4) :
    containerItems messages.length (messages.flatMap InnerMessage.bytes) = messages := by
  induction messages with
  | nil => rfl
  | cons m messages ih =>
    have hbody := h m List.mem_cons_self
    have ih := ih fun m' hm' => h m' (List.mem_cons_of_mem m hm')
    have hsplit : (m :: messages).flatMap InnerMessage.bytes =
        ofI64 m.msgId ++ (ofI32 m.seqno ++ (le 4 m.body.length ++
          (m.body ++ messages.flatMap InnerMessage.bytes))) := by
      simp [InnerMessage.bytes]
    have hlen : ¬((m :: messages).flatMap InnerMessage.bytes).length < 16 := by
      rw [hsplit]
      simp
      omega
    have hid : ((m :: messages).flatMap InnerMessage.bytes).take 8 = ofI64 m.msgId := by
      rw [hsplit, List.take_left' (ofI64_length _)]
    have hseqno : field ((m :: messages).flatMap InnerMessage.bytes) 8 4 = ofI32 m.seqno := by
      rw [hsplit, show (8 : Nat) = 8 + 0 from rfl, field_append_left 0 4 (ofI64_length _),
        field_zero_append (ofI32_length _)]
    have hcount : ofLe (field ((m :: messages).flatMap InnerMessage.bytes) 12 4) = m.body.length := by
      rw [hsplit, show (12 : Nat) = 8 + 4 from rfl, field_append_left 4 4 (ofI64_length _),
        show (4 : Nat) = 4 + 0 from rfl, field_append_left 0 (4 + 0) (ofI32_length _),
        field_zero_append (le_length 4 _), ofLe_le_of_lt hbody]
    have hdrop : ((m :: messages).flatMap InnerMessage.bytes).drop 16 =
        m.body ++ messages.flatMap InnerMessage.bytes := by
      rw [hsplit, show (16 : Nat) = 8 + 4 + 4 from rfl, ← List.drop_drop, ← List.drop_drop,
        List.drop_left' (ofI64_length _), List.drop_left' (ofI32_length _),
        List.drop_left' (le_length 4 _)]
    have hfield : field ((m :: messages).flatMap InnerMessage.bytes) 16 m.body.length = m.body := by
      rw [field, hdrop, List.take_left' rfl]
    have hrest : ((m :: messages).flatMap InnerMessage.bytes).drop (16 + m.body.length) =
        messages.flatMap InnerMessage.bytes := by
      rw [← List.drop_drop, hdrop, List.drop_left' rfl]
    rw [List.length_cons, containerItems, if_neg hlen]
    simp only [hcount, hid, hseqno, hfield, hrest, hdrop, ih, toI64_ofI64, toI32_ofI32]
    rw [if_neg (by simp)]

theorem ctor_containerBody (messages : List InnerMessage) :
    ctor (buildContainerBody messages) = idMsgContainer := by
  unfold buildContainerBody
  rw [List.append_assoc]
  exact ctor_append (by decide) _

theorem containerBody_length (messages : List InnerMessage) : 8 ≤ (buildContainerBody messages).length := by
  simp [buildContainerBody]
  omega

theorem containerItems_containerBody (messages : List InnerMessage) (hcount : messages.length < 256 ^ 4)
    (h : ∀ m ∈ messages, m.body.length < 256 ^ 4) :
    containerItems (ofLe (field (buildContainerBody messages) 4 4)) ((buildContainerBody messages).drop 8) =
      messages := by
  have hn : ofLe (field (buildContainerBody messages) 4 4) = messages.length := by
    unfold buildContainerBody
    rw [List.append_assoc]
    show ofLe (field _ (4 + 0) 4) = _
    rw [field_append_left 0 4 (le_length 4 _), field_zero_append (le_length 4 _), ofLe_le_of_lt hcount]
  have hdrop : (buildContainerBody messages).drop 8 = messages.flatMap InnerMessage.bytes := by
    unfold buildContainerBody
    exact List.drop_left' (by simp)
  rw [hn, hdrop, containerItems_messages messages h]

theorem dispatch_containerBody (w : World) (fuel : Nat) (s : MtpSender) (messages : List InnerMessage)
    (msgId : Int64) (hcount : messages.length < 256 ^ 4)
    (h : ∀ m ∈ messages, m.body.length < 256 ^ 4) :
    dispatch w (fuel + 1) s (buildContainerBody messages) msgId =
      dispatchItems (dispatch w fuel) s messages := by
  have hlen := containerBody_length messages
  rw [dispatch, if_neg (by omega), ctor_containerBody, if_neg (by decide), if_pos rfl, if_neg (by omega),
    containerItems_containerBody messages hcount h]

/-! What the messages of the container do. -/

/-- The answer in the result. -/
def RpcResult.outcome (w : World) (r : RpcResult) : Outcome := rpcOutcome w r.body

/-- A result is dispatched. -/
def settle (w : World) (s : MtpSender) (r : RpcResult) : MtpSender :=
  (s.acknowledge r.msgId).resolve r.reqMsgId (r.outcome w)

/-- `new_session_created` is dispatched. -/
def takeBack (s : MtpSender) (c : SessionContainer) : MtpSender :=
  { s.acknowledge c.msgId with
    enc := { s.enc with salt := c.serverSalt }
    requests := s.requests.map fun req => { req with state := .pending } }

theorem acknowledge_requests (s : MtpSender) (msgId : Int64) :
    (s.acknowledge msgId).requests = s.requests := by
  unfold acknowledge
  split <;> rfl

theorem acknowledge_answers (s : MtpSender) (msgId : Int64) :
    (s.acknowledge msgId).answers = s.answers := by
  unfold acknowledge
  split <;> rfl

theorem acknowledge_enc (s : MtpSender) (msgId : Int64) : (s.acknowledge msgId).enc = s.enc := by
  unfold acknowledge
  split <;> rfl

theorem dispatch_result (w : World) (fuel : Nat) (s : MtpSender) (r : RpcResult) :
    dispatch w (fuel + 1) (s.acknowledge r.msgId) r.body r.msgId = some (settle w s r, []) := by
  have hctor : ctor r.body = idRpcResult := by
    unfold RpcResult.body
    rw [List.append_assoc]
    exact ctor_append (by decide) _
  have hlen : ¬r.body.length < 12 := by
    simp [RpcResult.body]
    omega
  have hid : toI64 (field r.body 4 8) = r.reqMsgId := by
    unfold RpcResult.body
    rw [List.append_assoc]
    show toI64 (field _ (4 + 0) 8) = _
    rw [field_append_left 0 8 (le_length 4 _), field_zero_append (ofI64_length _), toI64_ofI64]
  rw [dispatch, if_neg (by omega), if_pos hctor, onRpcResult, if_neg hlen, hid]
  rfl

theorem dispatch_created (w : World) (fuel : Nat) (s : MtpSender) (c : SessionContainer) :
    dispatch w (fuel + 1) (s.acknowledge c.msgId) c.created.body c.msgId = some (takeBack s c, []) := by
  have hctor : ctor c.created.body = idNewSessionCreated := by
    unfold SessionContainer.created
    simp only [List.append_assoc]
    exact ctor_append (by decide) _
  have hlen : c.created.body.length = 28 := by simp [SessionContainer.created]
  have hsalt : toI64 (field c.created.body 20 8) = c.serverSalt := by
    unfold SessionContainer.created
    show toI64 (field _ (20 + 0) 8) = _
    rw [field_append_left 0 8 (by simp), show field (ofI64 c.serverSalt) 0 8 = ofI64 c.serverSalt from rfl,
      toI64_ofI64]
  rw [dispatch, if_neg (by omega), hctor]
  simp only [onNewSessionCreated, hlen, hsalt, acknowledge_enc, acknowledge_requests]
  rfl

theorem dispatchItems_results (w : World) (fuel : Nat) (results : List RpcResult) (s : MtpSender)
    (items : List InnerMessage) :
    dispatchItems (dispatch w (fuel + 1)) s (results.map RpcResult.message ++ items) =
      dispatchItems (dispatch w (fuel + 1)) (results.foldl (settle w) s) items := by
  induction results generalizing s with
  | nil => rfl
  | cons r results ih =>
    have hhead : dispatch w (fuel + 1) (s.acknowledge r.message.msgId) r.message.body r.message.msgId =
        some (settle w s r, []) := dispatch_result w fuel s r
    rw [List.map_cons, List.cons_append, dispatchItems, hhead, List.foldl_cons, ← ih]
    exact Option.bind_fun_some _

/-- The state the whole container leaves. -/
def settled (w : World) (s : MtpSender) (c : SessionContainer) : MtpSender :=
  c.after.foldl (settle w) (takeBack (c.before.foldl (settle w) s) c)

theorem dispatch_newSession (w : World) (fuel : Nat) (s : MtpSender) (c : SessionContainer)
    (msgId : Int64) : dispatch w (fuel + 2) s c.bytes msgId = some (settled w s c, []) := by
  have hcount : c.messages.length < 256 ^ 4 := by
    have := c.fits
    simp [SessionContainer.messages]
    omega
  have hresult : ∀ r : RpcResult, r.body.length < 256 ^ 4 := by
    intro r
    have := r.fits
    simp [RpcResult.body]
    omega
  have hbody : ∀ m ∈ c.messages, m.body.length < 256 ^ 4 := by
    intro m hm
    simp only [SessionContainer.messages, List.mem_append, List.mem_cons, List.mem_map] at hm
    obtain ⟨r, -, rfl⟩ | rfl | ⟨r, -, rfl⟩ := hm
    · exact hresult r
    · simp [SessionContainer.created]
    · exact hresult r
  have hafter := dispatchItems_results w fuel c.after (takeBack (c.before.foldl (settle w) s) c) []
  rw [List.append_nil] at hafter
  rw [SessionContainer.bytes, dispatch_containerBody w (fuel + 1) s c.messages msgId hcount hbody,
    SessionContainer.messages, dispatchItems_results, dispatchItems,
    show c.created.msgId = c.msgId from rfl, dispatch_created]
  exact (Option.bind_fun_some _).trans hafter

/-! What the server and the ids promise. -/

/-- A oneshot channel belongs to one request and an id to one message, the server answers a
message once, and it names a container only where that is a request's own id. -/
structure Answerable (requests : List Request) (results : List RpcResult) : Prop where
  txs : (requests.map Request.tx).Nodup
  ids : requests.Pairwise fun r₁ r₂ => ∀ m ∈ r₁.state.msgId?, r₂.state.msgId? ≠ some m
  once : (results.map RpcResult.reqMsgId).Nodup
  direct : ∀ r ∈ results, ∀ req ∈ requests, req.state.containerMsgId? = some r.reqMsgId →
    req.state.msgId? = some r.reqMsgId

theorem sentAs_eq_true {m : Int64} {req : Request} :
    sentAs m req = true ↔ ∃ c, req.state = .sent m c := by
  unfold sentAs
  cases req.state <;> simp

theorem msgId?_of_sentAs {m : Int64} {req : Request} (h : sentAs m req = true) :
    req.state.msgId? = some m := by
  obtain ⟨c, hc⟩ := sentAs_eq_true.mp h
  rw [hc]
  rfl

namespace Answerable
variable {requests : List Request} {results : List RpcResult}

theorem sent_unique (h : Answerable requests results) (m : Int64) :
    requests.Pairwise fun r₁ r₂ => ¬(sentAs m r₁ = true ∧ sentAs m r₂ = true) := by
  apply h.ids.imp
  intro r₁ r₂ hne ⟨h₁, h₂⟩
  exact hne m (msgId?_of_sentAs h₁) (msgId?_of_sentAs h₂)

/-- Requests with one sender are one request. -/
theorem eq_of_tx (h : Answerable requests results) {r₁ r₂ : Request} (h₁ : r₁ ∈ requests)
    (h₂ : r₂ ∈ requests) (htx : r₁.tx = r₂.tx) : r₁ = r₂ :=
  List.inj_on_of_nodup_map h.txs h₁ h₂ htx

/-- The request that is `Sent` under an id is the one a search finds. -/
theorem find_sentAs (h : Answerable requests results) {req : Request} (hreq : req ∈ requests)
    {m : Int64} (hm : sentAs m req = true) : requests.find? (sentAs m) = some req := by
  have huniq := h.sent_unique m
  clear h
  induction requests with
  | nil => cases hreq
  | cons a requests ih =>
    rw [List.pairwise_cons] at huniq
    rcases List.mem_cons.mp hreq with rfl | hreq
    · exact List.find?_cons_of_pos hm
    · have ha : ¬sentAs m a = true := fun ha => huniq.1 req hreq ⟨ha, hm⟩
      rw [List.find?_cons_of_neg ha]
      exact ih hreq huniq.2

theorem sublist (h : Answerable requests results) {requests' : List Request}
    {results' : List RpcResult} (hreq : requests'.Sublist requests) (hres : results'.Sublist results) :
    Answerable requests' results' where
  txs := h.txs.sublist (hreq.map _)
  ids := h.ids.sublist hreq
  once := h.once.sublist (hres.map _)
  direct r hr req hq := h.direct r (hres.subset hr) req (hreq.subset hq)

end Answerable

/-! The results before `new_session_created`. -/

/-- What a result sends to a channel. -/
def reply (w : World) (requests : List Request) (r : RpcResult) : Option (Nat × Outcome) :=
  (requests.find? (sentAs r.reqMsgId)).map fun req => (req.tx, r.outcome w)

/-- None of the results is for the request. -/
def unanswered (results : List RpcResult) (req : Request) : Bool :=
  results.all fun r => !sentAs r.reqMsgId req

/-- A result goes to the request that is `Sent` under its id, or to nobody. -/
theorem settle_spec (w : World) {s : MtpSender} {r : RpcResult} (h : Answerable s.requests [r]) :
    (settle w s r).requests = s.requests.filter (fun req => !sentAs r.reqMsgId req) ∧
      (settle w s r).answers = s.answers ++ (reply w s.requests r).toList := by
  unfold settle resolve complete reply
  simp only [acknowledge_requests, acknowledge_answers]
  cases hfind : s.requests.find? (sentAs r.reqMsgId) with
  | some req =>
    simp only [Option.map_some, Option.toList_some, and_true]
    exact FirstMatch.eraseP_eq_filter (h.sent_unique r.reqMsgId)
  | none =>
    have hnone := List.find?_eq_none.mp hfind
    have hkeep : s.requests.filter (fun req => !sentAs r.reqMsgId req) = s.requests := by
      rw [List.filter_eq_self]
      intro req hreq
      simpa using hnone req hreq
    -- a container's id would be the id of a `Sent` request, and there is none
    have hcontainer : s.requests.find? (sentIn r.reqMsgId) = none := by
      rw [List.find?_eq_none]
      intro req hreq hin
      have hdirect := h.direct r (by simp) req hreq
      apply hnone req hreq
      unfold sentIn at hin
      rw [sentAs_eq_true]
      cases hstate : req.state with
      | pending => simp [hstate] at hin
      | serialised m c => simp [hstate] at hin
      | sent m c =>
        rw [hstate] at hin hdirect
        simp only [decide_eq_true_eq] at hin
        have hm := hdirect (by simp [MsgState.containerMsgId?, hin])
        simp only [MsgState.msgId?, Option.some.injEq] at hm
        exact ⟨c, by rw [hm]⟩
    simp only [hcontainer, Option.getD_none, acknowledge_requests, acknowledge_answers, hkeep,
      Option.map_none, Option.toList_none, List.append_nil, and_self]

theorem settleAll_spec (w : World) {s : MtpSender} (results : List RpcResult)
    (h : Answerable s.requests results) :
    (results.foldl (settle w) s).requests = s.requests.filter (unanswered results) ∧
      (results.foldl (settle w) s).answers = s.answers ++ results.filterMap (reply w s.requests) := by
  induction results generalizing s with
  | nil =>
    constructor
    · exact (List.filter_eq_self.mpr fun _ _ => rfl).symm
    · simp
  | cons r results ih =>
    obtain ⟨hreq, hans⟩ := settle_spec w (h.sublist (List.Sublist.refl _)
      (List.Sublist.cons_cons r (List.nil_sublist results)))
    have hrest : Answerable (settle w s r).requests results := by
      rw [hreq]
      exact h.sublist List.filter_sublist (List.sublist_cons_self r results)
    obtain ⟨ihreq, ihans⟩ := ih hrest
    have hnot : r.reqMsgId ∉ results.map RpcResult.reqMsgId := (List.nodup_cons.mp h.once).1
    -- the rest look for other ids, so they find what they would have found before
    have hsame : ∀ r' ∈ results, reply w (settle w s r).requests r' = reply w s.requests r' := by
      intro r' hr'
      have hne : r'.reqMsgId ≠ r.reqMsgId := by
        intro heq
        exact hnot (heq ▸ List.mem_map_of_mem hr')
      unfold reply
      rw [hreq, List.find?_filter]
      congr 2
      funext req
      cases h' : sentAs r'.reqMsgId req with
      | false => simp
      | true =>
        have hid := msgId?_of_sentAs h'
        cases hr : sentAs r.reqMsgId req with
        | false => rfl
        | true =>
          rw [msgId?_of_sentAs hr] at hid
          exact absurd (Option.some.inj hid).symm hne
    constructor
    · rw [List.foldl_cons, ihreq, hreq, List.filter_filter]
      apply List.filter_congr
      intro req _
      simp [unanswered, Bool.and_comm]
    · rw [List.foldl_cons, ihans, hans, List.append_assoc, List.filterMap_congr hsame]
      cases hr : reply w s.requests r with
      | none => simp [hr]
      | some a => simp [hr]

/-! The results after it. -/

/-- With no request `Sent`, a result goes nowhere. -/
theorem settle_none_sent (w : World) {s : MtpSender} (h : ∀ req ∈ s.requests, req.state = .pending)
    (r : RpcResult) :
    (settle w s r).requests = s.requests ∧ (settle w s r).answers = s.answers := by
  have hfind : ∀ p : Request → Bool, (∀ req : Request, req.state = .pending → p req = false) →
      s.requests.find? p = none := by
    intro p hp
    rw [List.find?_eq_none]
    intro req hreq
    simp [hp req (h req hreq)]
  have has := hfind (sentAs r.reqMsgId) fun req hreq => by simp [sentAs, hreq]
  have hin := hfind (sentIn r.reqMsgId) fun req hreq => by simp [sentIn, hreq]
  simp [settle, resolve, complete, acknowledge_requests, acknowledge_answers, has, hin]

theorem settleAll_none_sent (w : World) {s : MtpSender} (results : List RpcResult)
    (h : ∀ req ∈ s.requests, req.state = .pending) :
    (results.foldl (settle w) s).requests = s.requests ∧
      (results.foldl (settle w) s).answers = s.answers := by
  induction results generalizing s with
  | nil => exact ⟨rfl, rfl⟩
  | cons r results ih =>
    obtain ⟨hreq, hans⟩ := settle_none_sent w h r
    obtain ⟨ihreq, ihans⟩ := ih (s := settle w s r) (by rw [hreq]; exact h)
    exact ⟨ihreq.trans hreq, ihans.trans hans⟩

/-- The whole container: the requests answered before `new_session_created` are gone, the
others pending, and the answers are those of the results before it. -/
theorem settled_spec (w : World) {s : MtpSender} {c : SessionContainer}
    (h : Answerable s.requests c.results) :
    (settled w s c).requests =
        (s.requests.filter (unanswered c.before)).map (fun req => { req with state := .pending }) ∧
      (settled w s c).answers = s.answers ++ c.before.filterMap (reply w s.requests) := by
  obtain ⟨hreq, hans⟩ := settleAll_spec w c.before
    (h.sublist (List.Sublist.refl _) (List.sublist_append_left c.before c.after))
  have hback : (takeBack (c.before.foldl (settle w) s) c).requests =
      (s.requests.filter (unanswered c.before)).map (fun req => { req with state := .pending }) := by
    rw [← hreq]
    rfl
  have hbackAns : (takeBack (c.before.foldl (settle w) s) c).answers =
      (c.before.foldl (settle w) s).answers := acknowledge_answers _ _
  obtain ⟨hreq', hans'⟩ := settleAll_none_sent w (s := takeBack (c.before.foldl (settle w) s) c) c.after
    (by
      intro req hmem
      rw [hback, List.mem_map] at hmem
      obtain ⟨old, -, rfl⟩ := hmem
      rfl)
  exact ⟨hreq'.trans hback, (hans'.trans hbackAns).trans hans⟩

/-! No result lost, no request sent again that need not be. -/

/-- The answers sent to a channel since `s`. -/
def repliesTo (s s' : MtpSender) (tx : Nat) : List (Nat × Outcome) :=
  (s'.answers.drop s.answers.length).filter (·.1 = tx)

/-- Each result for a request that was out has completed it, once; and what was out and is
pending now is older than the new session. -/
structure Settles (w : World) (s s' : MtpSender) (c : SessionContainer) : Prop where
  completed : ∀ r ∈ c.results, ∀ req ∈ s.requests, req.state.msgId? = some r.reqMsgId →
    repliesTo s s' req.tx = [(req.tx, r.outcome w)] ∧ req.tx ∉ s'.requests.map Request.tx
  older : ∀ req ∈ s.requests, ∀ m, req.state.msgId? = some m →
    ∀ req' ∈ s'.requests, req'.tx = req.tx → req'.state = .pending → m < c.firstMsgId

/-- No result after `new_session_created` is for a request that is out, those before it are
for requests that are `Sent`, and every other request that is out is older than the session. -/
structure InOrder (requests : List Request) (c : SessionContainer) : Prop where
  late : ∀ r ∈ c.after, ∀ req ∈ requests, req.state.msgId? ≠ some r.reqMsgId
  sent : ∀ r ∈ c.before, ∀ req ∈ requests, req.state.msgId? = some r.reqMsgId →
    sentAs r.reqMsgId req = true
  older : ∀ req ∈ requests, ∀ m ∈ req.state.msgId?,
    m < c.firstMsgId ∨ m ∈ c.before.map RpcResult.reqMsgId

section
variable {w : World} {s : MtpSender} {c : SessionContainer}

theorem repliesTo_settled (h : Answerable s.requests c.results) (tx : Nat) :
    repliesTo s (settled w s c) tx = (c.before.filterMap (reply w s.requests)).filter (·.1 = tx) := by
  unfold repliesTo
  rw [(settled_spec w h).2, List.drop_left]

/-- A reply to a request's channel comes from a result for the request. -/
theorem reply_eq_some (h : Answerable s.requests c.results) {req : Request} (hreq : req ∈ s.requests)
    {r : RpcResult} {a : Nat × Outcome} (ha : reply w s.requests r = some a) (htx : a.1 = req.tx) :
    sentAs r.reqMsgId req = true := by
  unfold reply at ha
  obtain ⟨found, hfound, rfl⟩ := Option.map_eq_some_iff.mp ha
  have hsame := h.eq_of_tx (List.mem_of_find?_eq_some hfound) hreq htx
  rw [← hsame]
  exact List.find?_some hfound

/-- A request that is pending afterwards was answered by none of the results before. -/
theorem unanswered_of_mem (h : Answerable s.requests c.results) {req : Request}
    (hreq : req ∈ s.requests) {req' : Request} (hreq' : req' ∈ (settled w s c).requests)
    (htx : req'.tx = req.tx) : unanswered c.before req = true := by
  rw [(settled_spec w h).1, List.mem_map] at hreq'
  obtain ⟨old, hold, rfl⟩ := hreq'
  obtain ⟨hmem, hnone⟩ := List.mem_filter.mp hold
  rw [← h.eq_of_tx hmem hreq htx]
  exact hnone

theorem answered_of_settles (h : Answerable s.requests c.results) (hs : Settles w s (settled w s c) c)
    {r : RpcResult} (hr : r ∈ c.results) {req : Request} (hreq : req ∈ s.requests)
    (hid : req.state.msgId? = some r.reqMsgId) :
    sentAs r.reqMsgId req = true ∧ r.reqMsgId ∈ c.before.map RpcResult.reqMsgId := by
  obtain ⟨hreplies, -⟩ := hs.completed r hr req hreq hid
  rw [repliesTo_settled h] at hreplies
  have hmem : (req.tx, r.outcome w) ∈
      (c.before.filterMap (reply w s.requests)).filter (·.1 = req.tx) := by
    rw [hreplies]
    exact List.mem_singleton_self _
  obtain ⟨first, hfirst, ha⟩ := List.mem_filterMap.mp (List.mem_filter.mp hmem).1
  have hsent := reply_eq_some h hreq ha rfl
  have hsame : r.reqMsgId = first.reqMsgId := by
    rw [msgId?_of_sentAs hsent] at hid
    exact (Option.some.inj hid).symm
  rw [hsame]
  exact ⟨hsent, List.mem_map_of_mem hfirst⟩

theorem inOrder_of_settles (h : Answerable s.requests c.results) (hs : Settles w s (settled w s c) c) :
    InOrder s.requests c where
  late := by
    intro r hr req hreq hid
    have hbefore := (answered_of_settles h hs (List.mem_append_right _ hr) hreq hid).2
    have honce := h.once
    rw [SessionContainer.results, List.map_append, List.nodup_append] at honce
    exact honce.2.2 _ hbefore _ (List.mem_map_of_mem hr) rfl
  sent := by
    intro r hr req hreq hid
    exact (answered_of_settles h hs (List.mem_append_left _ hr) hreq hid).1
  older := by
    intro req hreq m hid
    by_cases hbefore : m ∈ c.before.map RpcResult.reqMsgId
    · exact .inr hbefore
    · left
      have hnone : unanswered c.before req = true := by
        rw [unanswered, List.all_eq_true]
        intro r hr
        cases hsent : sentAs r.reqMsgId req with
        | false => rfl
        | true =>
          rw [msgId?_of_sentAs hsent] at hid
          rw [← Option.some.inj hid] at hbefore
          exact absurd (List.mem_map_of_mem hr) hbefore
      apply hs.older req hreq m hid { req with state := .pending }
      · rw [(settled_spec w h).1]
        exact List.mem_map_of_mem (List.mem_filter.mpr ⟨hreq, hnone⟩)
      · rfl
      · rfl

/-- The one result for a request is the one reply to it. -/
theorem replies_eq_singleton (h : Answerable s.requests c.results) {r : RpcResult} (hr : r ∈ c.before)
    {req : Request} (hreq : req ∈ s.requests) (hsent : sentAs r.reqMsgId req = true) :
    (c.before.filterMap (reply w s.requests)).filter (·.1 = req.tx) = [(req.tx, r.outcome w)] := by
  have hreply : reply w s.requests r = some (req.tx, r.outcome w) := by
    rw [reply, h.find_sentAs hreq hsent]
    rfl
  obtain ⟨l₁, l₂, hsplit⟩ := List.append_of_mem hr
  have honce := h.once
  rw [SessionContainer.results, hsplit] at honce
  simp only [List.append_assoc, List.cons_append, List.map_append, List.map_cons] at honce
  have hnodup := List.nodup_middle.mp honce
  -- any other result with a reply to this channel would have the same id
  have hother : ∀ l : List RpcResult, (∀ r' ∈ l, r' ∈ l₁ ∨ r' ∈ l₂) →
      (l.filterMap (reply w s.requests)).filter (·.1 = req.tx) = [] := by
    intro l hl
    rw [List.filter_eq_nil_iff]
    intro a ha htx
    obtain ⟨r', hr', ha⟩ := List.mem_filterMap.mp ha
    have hsent' := reply_eq_some h hreq ha (by simpa using htx)
    have hid : r'.reqMsgId = r.reqMsgId := by
      have := (msgId?_of_sentAs hsent').symm.trans (msgId?_of_sentAs hsent)
      exact Option.some.inj this
    apply (List.nodup_cons.mp hnodup).1
    rw [← hid]
    rcases hl r' hr' with h₁ | h₂
    · exact List.mem_append_left _ (List.mem_map_of_mem h₁)
    · exact List.mem_append_right _ (List.mem_append_left _ (List.mem_map_of_mem h₂))
  rw [hsplit, List.filterMap_append, List.filterMap_cons_some hreply, List.filter_append,
    List.filter_cons_of_pos (by simp), hother l₁ fun r' hr' => .inl hr', hother l₂ fun r' hr' => .inr hr']
  rfl

theorem settles_of_inOrder (h : Answerable s.requests c.results) (ho : InOrder s.requests c) :
    Settles w s (settled w s c) c where
  completed := by
    intro r hr req hreq hid
    rcases List.mem_append.mp hr with hr | hr
    · have hsent := ho.sent r hr req hreq hid
      refine ⟨?_, ?_⟩
      · rw [repliesTo_settled h]
        exact replies_eq_singleton h hr hreq hsent
      · intro hmem
        obtain ⟨req', hreq', htx⟩ := List.mem_map.mp hmem
        have hnone := unanswered_of_mem h hreq hreq' htx
        rw [unanswered, List.all_eq_true] at hnone
        have := hnone r hr
        rw [hsent] at this
        cases this
    · exact absurd hid (ho.late r hr req hreq)
  older := by
    intro req hreq m hid req' hreq' htx _
    rcases ho.older req hreq m hid with hlt | hmem
    · exact hlt
    · obtain ⟨r, hr, rfl⟩ := List.mem_map.mp hmem
      have hnone := unanswered_of_mem h hreq hreq' htx
      rw [unanswered, List.all_eq_true] at hnone
      have := hnone r hr
      rw [ho.sent r hr req hreq hid] at this
      cases this

end

/-- A container with `new_session_created` loses no result and sends no request again that the
new session knows, exactly when its results come in an order that suits the code. -/
theorem newSession_settles_iff {s : MtpSender} {c : SessionContainer}
    (h : Answerable s.requests c.results) (w : World) (fuel : Nat) (msgId : Int64) :
    (∃ s', dispatch w (fuel + 2) s c.bytes msgId = some (s', []) ∧ Settles w s s' c) ↔
      InOrder s.requests c := by
  have hdispatch := dispatch_newSession w fuel s c msgId
  constructor
  · intro ⟨s', hs', hsettles⟩
    rw [hdispatch] at hs'
    cases hs'
    exact inOrder_of_settles h hsettles
  · intro ho
    exact ⟨settled w s c, hdispatch, settles_of_inOrder h ho⟩

/-- A request that is out. -/
def oneSent : MtpSender :=
  let s := ((idle.enqueue [1, 2, 3, 4] 0).tryFillWrite plainWorld).1
  s.wrote s.writeBuf.length

/-- Its result. -/
def oneResult : RpcResult where
  msgId := 7301444403200002009
  seqno := 1
  reqMsgId := 7301444403200002000
  result := [9, 9, 9, 9]
  fits := by decide

/-- The new session starts with the request, whose result stands before or after the news. -/
def oneContainer (before after : List RpcResult) (fits : before.length + after.length + 1 < 256 ^ 4) :
    SessionContainer where
  before := before
  msgId := 7301444403200002005
  seqno := 1
  firstMsgId := 7301444403200002000
  uniqueId := 5
  serverSalt := 99
  after := after
  fits := fits

theorem answered_before :
    ∃ s', dispatch plainWorld 2 oneSent (oneContainer [oneResult] [] (by decide)).bytes 1 = some (s', []) ∧
      Settles plainWorld oneSent s' (oneContainer [oneResult] [] (by decide)) := by
  have hone : oneSent.requests =
      [⟨[1, 2, 3, 4], .sent 7301444403200002000 7301444403200002000, 0⟩] := by decide
  apply (newSession_settles_iff ⟨by decide, by decide, by decide, by decide⟩ plainWorld 0 1).mpr
  refine ⟨by decide, by decide, fun req hreq m hm => Or.inr ?_⟩
  rw [hone, List.mem_singleton] at hreq
  subst hreq
  obtain rfl : 7301444403200002000 = m := Option.some.inj hm
  decide

/-- After the news the result is lost. -/
theorem answered_after_lost :
    ¬∃ s', dispatch plainWorld 2 oneSent (oneContainer [] [oneResult] (by decide)).bytes 1 = some (s', []) ∧
      Settles plainWorld oneSent s' (oneContainer [] [oneResult] (by decide)) := by
  intro ⟨s', hs', hsettles⟩
  rw [dispatch_newSession plainWorld 0 oneSent] at hs'
  cases hs'
  have hreq : ⟨[1, 2, 3, 4], .sent 7301444403200002000 7301444403200002000, 0⟩ ∈ oneSent.requests := by
    decide
  have hreplies := (hsettles.completed oneResult (by simp [SessionContainer.results, oneContainer]) _
    hreq (by decide)).1
  revert hreplies
  decide

end Ferogram.Mtsender
