import Ferogram.Mtproto.Authentication

/- The key exchange, both ends of it.

   `Reached` are the states of a client after its third step, whatever it was answered; from
   these `finish` is called. `HonestRun` are those of a run against an honest server
   (`DhServer`): one that decrypts the client's first message for the new nonce, keeps a private
   exponent, and makes its key from what the client sends in the third step. A server may answer
   any number of times that the client shall try again.

   What is proved: `key_exchange_agrees`. -/
namespace Ferogram.Mtproto
open Bytes Crypto TlTypes Reader

/-! Sequences of checks. -/

theorem bind_eq_ok {ε α β : Type} {x : Except ε α} {f : α → Except ε β} {r : β} (h : x >>= f = .ok r) :
    ∃ a, x = .ok a ∧ f a = .ok r := by
  cases x with
  | error e => cases h
  | ok a => exact ⟨a, rfl, h⟩

theorem ensure_ok {c : Prop} [Decidable c] {e : AuthError} {u : Unit} (h : ensure c e = .ok u) : c := by
  unfold ensure at h
  by_contra hc
  rw [if_neg hc] at h
  cases h

/-! What each step has checked when it returned. -/

theorem trimBe_length (v : UInt64) : (trimBe v).length ≤ 8 := by
  simp [trimBe]

/-- All forms of the inner data are one form. -/
theorem pqInnerOf_eq (tagDc : Bool) (expiresIn : Option Int32) (pq p q : List UInt8)
    (nonce serverNonce : Int128) (newNonce : Int256) (dcId : Int32) :
    ∃ id rest, rest.length ≤ 8 ∧
      pqInnerOf tagDc expiresIn pq p q nonce serverNonce newNonce dcId =
        pqInner id pq p q nonce serverNonce newNonce rest := by
  cases tagDc with
  | false =>
    cases expiresIn with
    | none => exact ⟨_, [], by simp, rfl⟩
    | some e => exact ⟨_, ofI32 e, by simp, rfl⟩
  | true =>
    cases expiresIn with
    | none => exact ⟨_, ofI32 dcId, by simp, rfl⟩
    | some e => exact ⟨_, ofI32 dcId ++ ofI32 e, by simp, rfl⟩

/-- The second step answers for its own nonce, and keeps what the server called itself. -/
theorem doStep2Inner_ok {env : Env} {data : Step1} {response : ResPq} {random : List.Vector UInt8 256}
    {dcId : Int32} {expiresIn : Option Int32} {tagDc : Bool} {req : ReqDhParams} {s2 : Step2}
    (h : doStep2Inner env data response random dcId expiresIn tagDc = .ok (req, s2)) :
    response.nonce = data.nonce ∧ req.nonce = data.nonce ∧
      s2 = { nonce := data.nonce, serverNonce := response.serverNonce, newNonce := newNonceOf random } ∧
      ∃ id pq p q rest, pq.length ≤ 8 ∧ p.length ≤ 8 ∧ q.length ≤ 8 ∧ rest.length ≤ 8 ∧
        req.encryptedData = env.encryptHashed req.publicKeyFingerprint
          (pqInner id pq p q data.nonce response.serverNonce (newNonceOf random) rest) (rnd224Of random) := by
  obtain ⟨_, hnonce, h⟩ := bind_eq_ok h
  obtain ⟨_, -, h⟩ := bind_eq_ok h
  obtain ⟨⟨p, q⟩, -, h⟩ := bind_eq_ok h
  obtain ⟨fingerprint, -, h⟩ := bind_eq_ok h
  cases h
  obtain ⟨id, rest, hrest, hinner⟩ := pqInnerOf_eq tagDc expiresIn
    (be 8 (UInt64.ofNat (ofBe response.pq)).toNat) (trimBe p) (trimBe q) data.nonce response.serverNonce
    (newNonceOf random) dcId
  exact ⟨ensure_ok hnonce, rfl, rfl, id, _, _, _, rest, (be_length 8 _).le, trimBe_length p, trimBe_length q, hrest,
    congrArg (fun inner => env.encryptHashed fingerprint inner (rnd224Of random)) hinner⟩

/-- Inner data behind its hash, up to whole blocks. -/
def hashed (P : Primitives) (inner padding : List UInt8) : List UInt8 :=
  (P.sha1 inner).1 ++ inner ++ padding.take ((16 - (20 + inner.length) % 16) % 16)

/-- Bytes behind as many zeros as are missing are the number with 256 bytes. -/
theorem keyBytes_ok {w : Nat} {key : List.Vector UInt8 256} (h : keyBytes (toBytesBe w) = .ok key) :
    key.1 = be 256 w := by
  have hpad := padLeft_eq_be 256 (toBytesBe w)
  unfold keyBytes at h
  by_cases hlen : (toBytesBe w).length ≤ 256
  · rw [dif_pos hlen] at h
    cases h
    rwa [ofBe_toBytesBe, padLeft, Nat.sub_eq_zero_of_le hlen, List.drop_zero] at hpad
  · rw [dif_neg hlen] at h
    cases h

/-- What the third step makes of the server's parameters. -/
theorem generateClientDhParams_ok {P : Primitives} {dh : DhParamsForRetry} {nonce serverNonce : Int128}
    {newNonce : Int256} {retryId : Int64} {random : List.Vector UInt8 272} {now : Int32}
    {req : SetClientDhParams} {s3 : Step3}
    (h : generateClientDhParams P dh nonce serverNonce newNonce retryId random now = .ok (req, s3)) :
    ofBe dh.dhPrime ≠ 0 ∧
      s3.nonce = nonce ∧ s3.serverNonce = serverNonce ∧ s3.newNonce = newNonce ∧ s3.dhParams = dh ∧
      s3.authKey.1 = be 256 (modpow (ofBe dh.gA) (exponentOf random) (ofBe dh.dhPrime)) ∧
      req.nonce = nonce ∧ req.serverNonce = serverNonce ∧
      req.encryptedData = igeEncrypt P (hashed P (ClientDhInnerData.toBytes
        { nonce := nonce, serverNonce := serverNonce, retryId := retryId
          gB := toBytesBe (modpow dh.g.toNat (exponentOf random) (ofBe dh.dhPrime)) })
        (random.1.drop 256)) dh.aesKey dh.aesIv := by
  obtain ⟨_, hzero, h⟩ := bind_eq_ok h
  obtain ⟨_, -, h⟩ := bind_eq_ok h
  obtain ⟨_, -, h⟩ := bind_eq_ok h
  obtain ⟨_, -, h⟩ := bind_eq_ok h
  obtain ⟨authKey, hkey, h⟩ := bind_eq_ok h
  cases h
  exact ⟨ensure_ok hzero, rfl, rfl, rfl, rfl, keyBytes_ok hkey, rfl, rfl, rfl⟩

/-- The parameters that the third step works with, read from the server's answer. -/
def dhParamsOf (P : Primitives) (serverNonce : Int128) (newNonce : Int256) (inner : ServerDhInnerData) :
    DhParamsForRetry :=
  { dhPrime := inner.dhPrime, g := inner.g.toUInt32, gA := inner.gA, serverTime := inner.serverTime
    aesKey := (generateKeyDataFromNonce P serverNonce.1 newNonce.1).1
    aesIv := (generateKeyDataFromNonce P serverNonce.1 newNonce.1).2 }

theorem doStep3_ok {P : Primitives} {data : Step2} {response : ServerDhParams} {random : List.Vector UInt8 272}
    {now : Int32} {retryId : Int64} {r : SetClientDhParams × Step3}
    (h : doStep3 P data response random now retryId = .ok r) :
    ∃ encryptedAnswer inner, response = .ok data.nonce data.serverNonce encryptedAnswer ∧
      readHashed P ServerDhInnerData.deserialize (igeDecrypt P encryptedAnswer
        (generateKeyDataFromNonce P data.serverNonce.1 data.newNonce.1).1
        (generateKeyDataFromNonce P data.serverNonce.1 data.newNonce.1).2) = .ok inner ∧
      inner.nonce = data.nonce ∧ inner.serverNonce = data.serverNonce ∧ inner.dhPrime = telegramDhPrime ∧
      generateClientDhParams P (dhParamsOf P data.serverNonce data.newNonce inner) data.nonce data.serverNonce
        data.newNonce retryId random now = .ok r := by
  cases response with
  | fail nonce serverNonce newNonceHash =>
    obtain ⟨_, -, h⟩ := bind_eq_ok h
    obtain ⟨_, -, h⟩ := bind_eq_ok h
    cases h
  | ok nonce serverNonce encryptedAnswer =>
    obtain ⟨_, hnonce, h⟩ := bind_eq_ok h
    obtain ⟨_, hserver, h⟩ := bind_eq_ok h
    obtain ⟨_, -, h⟩ := bind_eq_ok h
    obtain ⟨inner, hinner, h⟩ := bind_eq_ok h
    obtain ⟨_, hnonce', h⟩ := bind_eq_ok h
    obtain ⟨_, hserver', h⟩ := bind_eq_ok h
    obtain ⟨_, hprime, h⟩ := bind_eq_ok h
    obtain ⟨_, -, h⟩ := bind_eq_ok h
    have hcheck : checkPAndG inner.dhPrime inner.g.toUInt32 = .ok () := by
      cases hc : checkPAndG inner.dhPrime inner.g.toUInt32 with
      | error e =>
        rw [hc] at hprime
        cases hprime
      | ok u => rfl
    refine ⟨encryptedAnswer, inner, ?_, hinner, ensure_ok hnonce', ensure_ok hserver',
      (checkPAndG_ok hcheck).2, h⟩
    rw [ensure_ok hnonce, ensure_ok hserver]

/-- The values that an answer must repeat or depend on, for `finish` to accept it. -/
structure Verified (P : Primitives) (nonce serverNonce : Int128) (newNonce : Int256)
    (authKey : List.Vector UInt8 256) (answer : SetClientDhParamsAnswer) : Prop where
  nonce : answer.nonce = nonce
  serverNonce : answer.serverNonce = serverNonce
  hash : answer.hash.1 = (AuthKey.fromBytes P authKey).calcNewNonceHash P newNonce.1 answer.num

theorem finish_ok {P : Primitives} {s3 : Step3} {answer : SetClientDhParamsAnswer} {result : FinishResult}
    (h : finish P s3 answer = .ok result) :
    Verified P s3.nonce s3.serverNonce s3.newNonce s3.authKey answer ∧
      (answer.num = 1 ∧ result = .done { authKey := s3.authKey, timeOffset := s3.timeOffset
                                         firstSalt := firstSaltOf s3.newNonce s3.serverNonce } ∨
        answer.num = 2 ∧ ∃ retryId,
          result = .retry retryId s3.dhParams s3.nonce s3.serverNonce s3.newNonce) := by
  obtain ⟨_, hnonce, h⟩ := bind_eq_ok h
  obtain ⟨_, hserver, h⟩ := bind_eq_ok h
  obtain ⟨_, hhash, h⟩ := bind_eq_ok h
  refine ⟨⟨ensure_ok hnonce, ensure_ok hserver, ensure_ok hhash⟩, ?_⟩
  cases answer with
  | dhGenOk n sn hash =>
    cases h
    exact .inl ⟨rfl, rfl⟩
  | dhGenRetry n sn hash =>
    cases h
    exact .inr ⟨rfl, _, rfl⟩
  | dhGenFail n sn hash => cases h

/-- An answer of the first kind that repeats the client's values ends the exchange. -/
theorem finish_of_verified {P : Primitives} {s3 : Step3} {answer : SetClientDhParamsAnswer}
    (h : Verified P s3.nonce s3.serverNonce s3.newNonce s3.authKey answer) (hnum : answer.num = 1) :
    finish P s3 answer = .ok (.done { authKey := s3.authKey, timeOffset := s3.timeOffset
                                      firstSalt := firstSaltOf s3.newNonce s3.serverNonce }) := by
  have hpass : ∀ (c : Prop) [Decidable c] (e : AuthError), c → ensure c e = .ok () :=
    fun c _ e hc => if_pos hc
  unfold finish checkNonce checkServerNonce checkNewNonceHash
  dsimp only
  rw [hpass _ _ h.nonce, hpass _ _ h.serverNonce, hpass _ _ h.hash, hnum]
  rfl

/-! Runs of a client. -/

section
variable (env : Env) (nonce : Int128) (random₂ : List.Vector UInt8 256) (dcId : Int32) (expiresIn : Option Int32)
  (tagDc : Bool)

/-- A client that has drawn `nonce` and `random₂` can be in the state `s3`, having sent `req`
made with the random bytes `random`, after it was answered `resPq` first and then anything. -/
inductive Reached (resPq : ResPq) : List.Vector UInt8 272 → SetClientDhParams → Step3 → Prop where
  | first {req₂ : ReqDhParams} {s2 : Step2} {response : ServerDhParams} {random : List.Vector UInt8 272}
      {now : Int32} {req : SetClientDhParams} {s3 : Step3} :
      doStep2Inner env (step1 nonce) resPq random₂ dcId expiresIn tagDc = .ok (req₂, s2) →
      step3 env.P s2 response random now = .ok (req, s3) → Reached resPq random req s3
  | again {random : List.Vector UInt8 272} {req : SetClientDhParams} {s3 : Step3}
      {answer : SetClientDhParamsAnswer} {retryId : Int64} {dh : DhParamsForRetry} {n sn : Int128} {nn : Int256}
      {random' : List.Vector UInt8 272} {now : Int32} {req' : SetClientDhParams} {s3' : Step3} :
      Reached resPq random req s3 → finish env.P s3 answer = .ok (.retry retryId dh n sn nn) →
      retryStep3 env.P dh n sn nn retryId random' now = .ok (req', s3') → Reached resPq random' req' s3'

end

/-! The server. -/

/-- An honest server of one exchange: what it says of itself and its private exponent `a`. -/
structure DhServer where
  serverNonce : Int128
  pq : List UInt8
  fingerprints : List Int64
  g : Int32
  dhPrime : List UInt8
  a : Nat
  gA : List UInt8
  serverTime : Int32
  padding : List.Vector UInt8 16
  gA_eq : ofBe gA = modpow g.toUInt32.toNat a (ofBe dhPrime)
  dhPrime_length : dhPrime.length ≤ 256
  gA_length : gA.length ≤ 256

/-- `p_q_inner_data`, of any form. -/
def readPqInner : Reader TlTypes.Error (Int128 × Int128 × Int256) := do
  let _ ← readU32
  let _ ← deserializeBytes
  let _ ← deserializeBytes
  let _ ← deserializeBytes
  let nonce ← readExact 16
  let serverNonce ← readExact 16
  let newNonce ← readExact 32
  pure (nonce, serverNonce, newNonce)

namespace DhServer

def resPq (server : DhServer) (nonce : Int128) : ResPq :=
  { nonce := nonce, serverNonce := server.serverNonce, pq := server.pq
    serverPublicKeyFingerprints := server.fingerprints }

/-- The new nonce, from the part of the request that only the owner of the RSA key can read. -/
def readNewNonce (server : DhServer) (env : Env) (req : ReqDhParams) : Option Int256 :=
  match readPqInner.run (env.decryptHashed req.publicKeyFingerprint req.encryptedData) with
  | .error _ => none
  | .ok ((nonce, serverNonce, newNonce), _) =>
    if nonce = req.nonce ∧ serverNonce = server.serverNonce then some newNonce else none

def inner (server : DhServer) (nonce : Int128) : ServerDhInnerData :=
  { nonce := nonce, serverNonce := server.serverNonce, g := server.g, dhPrime := server.dhPrime
    gA := server.gA, serverTime := server.serverTime }

def dhParams (server : DhServer) (P : Primitives) (nonce : Int128) (newNonce : Int256) : ServerDhParams :=
  let (key, iv) := generateKeyDataFromNonce P server.serverNonce.1 newNonce.1
  .ok nonce server.serverNonce (igeEncrypt P (hashed P (server.inner nonce).toBytes server.padding.1) key iv)

/-- The key, from what the client sent in its third step. -/
def key (server : DhServer) (P : Primitives) (newNonce : Int256) (req : SetClientDhParams) :
    Option (List.Vector UInt8 256) :=
  let (key, iv) := generateKeyDataFromNonce P server.serverNonce.1 newNonce.1
  match readHashed P ClientDhInnerData.deserialize (igeDecrypt P req.encryptedData key iv) with
  | .error _ => none
  | .ok inner => some (beVec 256 (modpow (ofBe inner.gB) server.a (ofBe server.dhPrime)))

def newNonceHash (P : Primitives) (key : List.Vector UInt8 256) (newNonce : Int256) (num : UInt8) : Int128 :=
  ⟨(AuthKey.fromBytes P key).calcNewNonceHash P newNonce.1 num, by
    rw [AuthKey.calcNewNonceHash, List.length_drop, (P.sha1 _).2]⟩

/-- The exchange is done. -/
def answerOk (server : DhServer) (P : Primitives) (nonce : Int128) (newNonce : Int256)
    (key : List.Vector UInt8 256) : SetClientDhParamsAnswer :=
  .dhGenOk nonce server.serverNonce (newNonceHash P key newNonce 1)

/-- The client shall draw another exponent. -/
def answerRetry (server : DhServer) (P : Primitives) (nonce : Int128) (newNonce : Int256)
    (key : List.Vector UInt8 256) : SetClientDhParamsAnswer :=
  .dhGenRetry nonce server.serverNonce (newNonceHash P key newNonce 2)

end DhServer

section
variable (env : Env) (server : DhServer) (nonce : Int128) (random₂ : List.Vector UInt8 256) (dcId : Int32)
  (expiresIn : Option Int32) (tagDc : Bool)

/-- The same with an honest server, which has read `newNonce`. -/
inductive HonestRun (newNonce : Int256) : List.Vector UInt8 272 → SetClientDhParams → Step3 → Prop where
  | first {req₂ : ReqDhParams} {s2 : Step2} {random : List.Vector UInt8 272} {now : Int32}
      {req : SetClientDhParams} {s3 : Step3} :
      doStep2Inner env (step1 nonce) (server.resPq nonce) random₂ dcId expiresIn tagDc = .ok (req₂, s2) →
      server.readNewNonce env req₂ = some newNonce →
      step3 env.P s2 (server.dhParams env.P req₂.nonce newNonce) random now = .ok (req, s3) →
      HonestRun newNonce random req s3
  | again {random : List.Vector UInt8 272} {req : SetClientDhParams} {s3 : Step3}
      {key : List.Vector UInt8 256} {retryId : Int64} {dh : DhParamsForRetry} {n sn : Int128} {nn : Int256}
      {random' : List.Vector UInt8 272} {now : Int32} {req' : SetClientDhParams} {s3' : Step3} :
      HonestRun newNonce random req s3 → server.key env.P newNonce req = some key →
      finish env.P s3 (server.answerRetry env.P req.nonce newNonce key) = .ok (.retry retryId dh n sn nn) →
      retryStep3 env.P dh n sn nn retryId random' now = .ok (req', s3') → HonestRun newNonce random' req' s3'

end

/-! What the two ends read. -/

theorem reads_pqInner (id : UInt32) {pq p q : List UInt8} (hpq : pq.length ≤ 8) (hp : p.length ≤ 8)
    (hq : q.length ≤ 8) (nonce serverNonce : Int128) (newNonce : Int256) (rest : List UInt8) :
    readPqInner.run (pqInner id pq p q nonce serverNonce newNonce rest) =
      .ok ((nonce, serverNonce, newNonce), rest) := by
  have hbytes : ∀ data : List UInt8, data.length ≤ 8 →
      Reads .unexpectedEof deserializeBytes (tlSerializeBytes data) data := by
    intro data hdata
    rw [tlSerializeBytes_eq]
    exact reads_serializeBytes (by omega)
  have h : Reads .unexpectedEof readPqInner (ofU32 id ++ (tlSerializeBytes pq ++ (tlSerializeBytes p ++
      (tlSerializeBytes q ++ (nonce.1 ++ (serverNonce.1 ++ newNonce.1)))))) (nonce, serverNonce, newNonce) :=
    (reads_u32 id).bind' ((hbytes pq hpq).bind' ((hbytes p hp).bind' ((hbytes q hq).bind'
      ((Reads.take' nonce).bind' ((Reads.take' serverNonce).bind' ((Reads.take' newNonce).map' rfl))))))
  have hfull := h.full rest
  simp only [List.append_assoc] at hfull
  exact hfull

theorem reads_serverDhInnerData {x : ServerDhInnerData} (hp : x.dhPrime.length ≤ 256) (hg : x.gA.length ≤ 256) :
    Reads .unexpectedEof ServerDhInnerData.deserialize x.toBytes x := by
  refine (reads_u32 _).bind' ?_
  rw [if_neg (not_not.mpr rfl)]
  exact (Reads.take' _).bind' ((Reads.take' _).bind' ((reads_i32 _).bind' ((reads_serializeBytes (by omega)).bind'
    ((reads_serializeBytes (by omega)).bind' ((reads_i32 _).map' rfl)))))

theorem reads_clientDhInnerData {x : ClientDhInnerData} (hg : x.gB.length ≤ 256) :
    Reads .unexpectedEof ClientDhInnerData.deserialize x.toBytes x := by
  refine (reads_u32 _).bind' ?_
  rw [if_neg (not_not.mpr rfl)]
  exact (Reads.take' _).bind' ((Reads.take' _).bind' ((reads_i64 _).bind'
    ((reads_serializeBytes (by omega)).map' rfl)))

/-- Whole blocks. -/
theorem hashed_length (P : Primitives) (inner : List UInt8) {padding : List UInt8} (h : padding.length = 16) :
    16 ∣ (hashed P inner padding).length := by
  have hsha : (P.sha1 inner).1.length = 20 := (P.sha1 inner).2
  simp only [hashed, List.length_append, List.length_take, hsha, h]
  omega

/-- Inner data behind its own hash is accepted, whatever the padding. -/
theorem readHashed_hashed {α : Type} (P : Primitives) {p : Reader TlTypes.Error α} {inner : List UInt8} {x : α}
    (h : Reads .unexpectedEof p inner x) (padding : List UInt8) :
    readHashed P p (hashed P inner padding) = .ok x := by
  have hsha : (P.sha1 inner).1.length = 20 := (P.sha1 inner).2
  have hparts : hashed P inner padding =
      (P.sha1 inner).1 ++ (inner ++ padding.take ((16 - (20 + inner.length) % 16) % 16)) :=
    List.append_assoc _ _ _
  have hlen : ¬(hashed P inner padding).length < 20 := by
    rw [hparts, List.length_append, hsha]
    omega
  have htake : (hashed P inner padding).take 20 = (P.sha1 inner).1 := by
    rw [hparts, List.take_left' hsha]
  have hdrop : (hashed P inner padding).drop 20 = inner ++ padding.take ((16 - (20 + inner.length) % 16) % 16) := by
    rw [hparts, List.drop_left' hsha]
  unfold readHashed
  rw [if_neg hlen]
  simp only [htake, hdrop, h.full, List.length_append, Nat.add_sub_cancel, List.take_left]
  exact if_neg (not_not.mpr rfl)

/-! What holds along a run. -/

section
variable {env : Env} {nonce : Int128} {random₂ : List.Vector UInt8 256} {dcId : Int32} {expiresIn : Option Int32}
  {tagDc : Bool} {random : List.Vector UInt8 272} {req : SetClientDhParams} {s3 : Step3}

/-- The client's values, whatever it was answered. -/
structure Own (nonce serverNonce : Int128) (newNonce : Int256) (random : List.Vector UInt8 272) (s3 : Step3) :
    Prop where
  nonce : s3.nonce = nonce
  serverNonce : s3.serverNonce = serverNonce
  newNonce : s3.newNonce = newNonce
  dhPrime : s3.dhParams.dhPrime = telegramDhPrime
  authKey : s3.authKey.1 =
    be 256 (modpow (ofBe s3.dhParams.gA) (exponentOf random) (ofBe s3.dhParams.dhPrime))

/-- A retry keeps the nonces and the server's parameters. -/
theorem Own.again {serverNonce : Int128} {newNonce : Int256} {P : Primitives} {answer : SetClientDhParamsAnswer}
    {retryId : Int64} {dh : DhParamsForRetry} {n sn : Int128} {nn : Int256} {random' : List.Vector UInt8 272}
    {now : Int32} {req' : SetClientDhParams} {s3' : Step3} (h : Own nonce serverNonce newNonce random s3)
    (hfinish : finish P s3 answer = .ok (.retry retryId dh n sn nn))
    (hretry : retryStep3 P dh n sn nn retryId random' now = .ok (req', s3')) :
    Own nonce serverNonce newNonce random' s3' ∧ s3'.dhParams = s3.dhParams := by
  obtain ⟨-, hdone | ⟨-, id, hresult⟩⟩ := finish_ok hfinish
  · cases hdone.2
  · cases hresult
    obtain ⟨-, h₁, h₂, h₃, h₄, h₅, -⟩ := generateClientDhParams_ok hretry
    refine ⟨⟨h₁.trans h.nonce, h₂.trans h.serverNonce, h₃.trans h.newNonce, ?_, ?_⟩, h₄⟩
    · rw [h₄, h.dhPrime]
    · rw [h₄, h₅]

theorem Reached.own {resPq : ResPq} (h : Reached env nonce random₂ dcId expiresIn tagDc resPq random req s3) :
    resPq.nonce = nonce ∧ Own nonce resPq.serverNonce (newNonceOf random₂) random s3 := by
  induction h with
  | first hstep₂ hstep₃ =>
    obtain ⟨hnonce, -, rfl, -⟩ := doStep2Inner_ok hstep₂
    obtain ⟨_, inner, -, -, -, -, hprime, hgen⟩ := doStep3_ok hstep₃
    obtain ⟨-, h₁, h₂, h₃, h₄, h₅, -⟩ := generateClientDhParams_ok hgen
    refine ⟨hnonce, h₁, h₂, h₃, ?_, ?_⟩
    · rw [h₄]
      exact hprime
    · rw [h₄, h₅]
  | again hrun hfinish hretry ih => exact ⟨ih.1, (ih.2.again hfinish hretry).1⟩

variable {server : DhServer} {newNonce : Int256}

theorem tlSerializeBytes_length_le {data : List UInt8} (h : data.length ≤ 8) :
    (tlSerializeBytes data).length ≤ 12 := by
  have hshort : data.length ≤ 253 := by omega
  rw [tlSerializeBytes_eq, serializeBytes_short hshort]
  simp only [List.length_cons, List.length_append, List.length_replicate]
  omega

/-- The inner data fits an RSA block. -/
theorem pqInner_length_le (id : UInt32) {pq p q : List UInt8} (hpq : pq.length ≤ 8) (hp : p.length ≤ 8)
    (hq : q.length ≤ 8) (nonce serverNonce : Int128) (newNonce : Int256) {rest : List UInt8}
    (hrest : rest.length ≤ 8) : (pqInner id pq p q nonce serverNonce newNonce rest).length ≤ 144 := by
  have h₁ := tlSerializeBytes_length_le hpq
  have h₂ := tlSerializeBytes_length_le hp
  have h₃ := tlSerializeBytes_length_le hq
  have hid : (ofU32 id).length = 4 := le_length 4 _
  have hnonces : nonce.1.length = 16 ∧ serverNonce.1.length = 16 ∧ newNonce.1.length = 32 :=
    ⟨nonce.2, serverNonce.2, newNonce.2⟩
  simp only [pqInner, List.length_append, hid, hnonces]
  omega

/-- An honest server reads the client's new nonce. -/
theorem readNewNonce_eq {req₂ : ReqDhParams} {s2 : Step2}
    (h : doStep2Inner env (step1 nonce) (server.resPq nonce) random₂ dcId expiresIn tagDc = .ok (req₂, s2)) :
    server.readNewNonce env req₂ = some (newNonceOf random₂) := by
  obtain ⟨-, hreq, -, id, pq, p, q, rest, hpq, hp, hq, hrest, hdata⟩ := doStep2Inner_ok h
  obtain ⟨padding, hpadding⟩ := env.decrypt_encrypt req₂.publicKeyFingerprint _ (rnd224Of random₂)
    (pqInner_length_le id hpq hp hq nonce server.serverNonce (newNonceOf random₂) hrest)
  have hread := reads_pqInner id hpq hp hq nonce server.serverNonce (newNonceOf random₂) (rest ++ padding)
  have hinner : pqInner id pq p q nonce server.serverNonce (newNonceOf random₂) (rest ++ padding) =
      env.decryptHashed req₂.publicKeyFingerprint req₂.encryptedData := by
    rw [hdata]
    refine Eq.trans ?_ hpadding
    simp only [pqInner, List.append_assoc]
  unfold DhServer.readNewNonce
  rw [← hinner, hread]
  exact if_pos ⟨hreq.symm, rfl⟩

/-- What the client knows of an honest server, and what it has sent it. -/
structure Honest (P : Primitives) (server : DhServer) (nonce : Int128) (newNonce : Int256)
    (random : List.Vector UInt8 272) (req : SetClientDhParams) (s3 : Step3) : Prop where
  own : Own nonce server.serverNonce newNonce random s3
  params : s3.dhParams = dhParamsOf P server.serverNonce newNonce (server.inner nonce)
  prime_ne_zero : ofBe server.dhPrime ≠ 0
  req_nonce : req.nonce = nonce
  sent : ∃ retryId, req.encryptedData = igeEncrypt P (hashed P (ClientDhInnerData.toBytes
      { nonce := nonce, serverNonce := server.serverNonce, retryId := retryId
        gB := toBytesBe (modpow server.g.toUInt32.toNat (exponentOf random) (ofBe server.dhPrime)) })
      (random.1.drop 256)) (generateKeyDataFromNonce P server.serverNonce.1 newNonce.1).1
      (generateKeyDataFromNonce P server.serverNonce.1 newNonce.1).2

/-- An attempt with an honest server's parameters. -/
theorem honest_of_generate {P : Primitives} {retryId : Int64} {now : Int32}
    (hprime : server.dhPrime = telegramDhPrime)
    (h : generateClientDhParams P (dhParamsOf P server.serverNonce newNonce (server.inner nonce)) nonce
      server.serverNonce newNonce retryId random now = .ok (req, s3)) :
    Honest P server nonce newNonce random req s3 := by
  obtain ⟨hzero, h₁, h₂, h₃, h₄, h₅, h₆, -, h₇⟩ := generateClientDhParams_ok h
  refine ⟨⟨h₁, h₂, h₃, ?_, ?_⟩, h₄, hzero, h₆, retryId, h₇⟩
  · rw [h₄]
    exact hprime
  · rw [h₄, h₅]

/-- The client reads what an honest server sent. -/
theorem readHashed_dhParams (P : Primitives) (server : DhServer) (nonce : Int128) (newNonce : Int256) :
    readHashed P ServerDhInnerData.deserialize (igeDecrypt P
      (igeEncrypt P (hashed P (server.inner nonce).toBytes server.padding.1)
        (generateKeyDataFromNonce P server.serverNonce.1 newNonce.1).1
        (generateKeyDataFromNonce P server.serverNonce.1 newNonce.1).2)
      (generateKeyDataFromNonce P server.serverNonce.1 newNonce.1).1
      (generateKeyDataFromNonce P server.serverNonce.1 newNonce.1).2) = .ok (server.inner nonce) := by
  rw [igeDecrypt_igeEncrypt _ (generateKeyDataFromNonce_iv_length _ newNonce.2)
    (hashed_length P _ server.padding.2)]
  exact readHashed_hashed P (reads_serverDhInnerData server.dhPrime_length server.gA_length) _

theorem HonestRun.honest (h : HonestRun env server nonce random₂ dcId expiresIn tagDc newNonce random req s3) :
    newNonce = newNonceOf random₂ ∧ Honest env.P server nonce newNonce random req s3 := by
  induction h with
  | first hstep₂ hread hstep₃ =>
    obtain ⟨-, hreq, rfl, -⟩ := doStep2Inner_ok hstep₂
    rw [readNewNonce_eq hstep₂, Option.some.injEq] at hread
    obtain ⟨encryptedAnswer, inner, hresponse, hinner, -, -, hprime, hgen⟩ := doStep3_ok hstep₃
    subst hread
    rw [hreq] at hresponse
    rw [← (ServerDhParams.ok.inj hresponse).2.2] at hinner
    have hread := readHashed_dhParams env.P server nonce (newNonceOf random₂)
    cases hread.symm.trans hinner
    exact ⟨rfl, honest_of_generate hprime hgen⟩
  | again hrun hkey hfinish hretry ih =>
    obtain ⟨hnew, hhonest⟩ := ih
    have hprime : server.dhPrime = telegramDhPrime := by
      have hdh := hhonest.own.dhPrime
      rwa [hhonest.params] at hdh
    obtain ⟨-, hdone | ⟨-, id, hresult⟩⟩ := finish_ok hfinish
    · cases hdone.2
    · cases hresult
      unfold retryStep3 at hretry
      rw [hhonest.params, hhonest.own.nonce, hhonest.own.serverNonce, hhonest.own.newNonce] at hretry
      exact ⟨hnew, honest_of_generate hprime hretry⟩

/-- Two powers of a power, in either order. -/
theorem shared_power (p g a b : Nat) :
    modpow (modpow g a p) b p = g ^ (a * b) % p ∧ modpow (modpow g b p) a p = g ^ (a * b) % p := by
  unfold modpow
  constructor
  · rw [← Nat.pow_mod, ← Nat.pow_mul]
  · rw [← Nat.pow_mod, ← Nat.pow_mul, Nat.mul_comm]

/-- The client's key is the shared power with 256 bytes. -/
theorem Honest.authKey_eq {P : Primitives} (h : Honest P server nonce newNonce random req s3) :
    s3.authKey.1 = be 256 (server.g.toUInt32.toNat ^ (server.a * exponentOf random) % ofBe server.dhPrime) := by
  have hgA : ofBe s3.dhParams.gA = modpow server.g.toUInt32.toNat server.a (ofBe server.dhPrime) := by
    rw [h.params]
    exact server.gA_eq
  have hp : ofBe s3.dhParams.dhPrime = ofBe server.dhPrime := by
    rw [h.params]
    rfl
  rw [h.own.authKey, hgA, hp, (shared_power _ _ _ _).1]

/-- The client's power fits 256 bytes. -/
theorem gB_length {p : List UInt8} (hp : p.length ≤ 256) (hzero : ofBe p ≠ 0) (g b : Nat) :
    (toBytesBe (modpow g b (ofBe p))).length ≤ 256 := by
  apply toBytesBe_length (by decide)
  calc modpow g b (ofBe p) < ofBe p := Nat.mod_lt _ (Nat.pos_of_ne_zero hzero)
    _ < 256 ^ p.length := ofBe_lt p
    _ ≤ 256 ^ 256 := Nat.pow_le_pow_right (by decide) hp

/-- What an honest server makes of a client's message. -/
theorem DhServer.key_of_sent (P : Primitives) (server : DhServer) (newNonce : Int256) {req : SetClientDhParams}
    {inner : ClientDhInnerData} {padding : List UInt8} (hgB : inner.gB.length ≤ 256) (hpadding : padding.length = 16)
    (hsent : req.encryptedData = igeEncrypt P (hashed P inner.toBytes padding)
      (generateKeyDataFromNonce P server.serverNonce.1 newNonce.1).1
      (generateKeyDataFromNonce P server.serverNonce.1 newNonce.1).2) :
    server.key P newNonce req = some (beVec 256 (modpow (ofBe inner.gB) server.a (ofBe server.dhPrime))) := by
  have hread := readHashed_hashed P (reads_clientDhInnerData hgB) padding
  unfold DhServer.key
  dsimp only
  rw [hsent, igeDecrypt_igeEncrypt _ (generateKeyDataFromNonce_iv_length _ newNonce.2)
    (hashed_length P _ hpadding), hread]

/-- So is the server's. -/
theorem Honest.key_eq {P : Primitives} (h : Honest P server nonce newNonce random req s3) :
    server.key P newNonce req = some s3.authKey := by
  obtain ⟨retryId, hsent⟩ := h.sent
  have hpadding : (random.1.drop 256).length = 16 := by
    rw [List.length_drop, random.2]
  have hgB := gB_length server.dhPrime_length h.prime_ne_zero server.g.toUInt32.toNat (exponentOf random)
  have hbytes : (beVec 256 (modpow (ofBe (toBytesBe (modpow server.g.toUInt32.toNat (exponentOf random)
      (ofBe server.dhPrime)))) server.a (ofBe server.dhPrime))).1 = s3.authKey.1 := by
    rw [h.authKey_eq, beVec_val, ofBe_toBytesBe, (shared_power _ _ _ _).2]
  rw [server.key_of_sent P newNonce hgB hpadding hsent]
  exact congrArg some (Subtype.ext hbytes)

/-- The server's answer is accepted. -/
theorem Honest.finish_answerOk {P : Primitives} (h : Honest P server nonce newNonce random req s3) :
    ∃ finished, finish P s3 (server.answerOk P req.nonce newNonce s3.authKey) = .ok (.done finished) := by
  have hnonce : req.nonce = s3.nonce := h.req_nonce.trans h.own.nonce.symm
  have hhash : (DhServer.newNonceHash P s3.authKey newNonce 1).1 =
      (AuthKey.fromBytes P s3.authKey).calcNewNonceHash P s3.newNonce.1 1 := by
    rw [h.own.newNonce]
    rfl
  exact ⟨_, finish_of_verified ⟨hnonce, h.own.serverNonce.symm, hhash⟩ rfl⟩

/-- The bytes of the first salt. -/
theorem ofI64_firstSaltOf (newNonce : Int256) (serverNonce : Int128) :
    ofI64 (firstSaltOf newNonce serverNonce) =
      List.zipWith (· ^^^ ·) (newNonce.1.take 8) (serverNonce.1.take 8) := by
  apply ofI64_toI64
  rw [List.length_zipWith, List.length_take, List.length_take, newNonce.2, serverNonce.2]
  rfl

end

/-- **The key exchange.** In a run with an honest server, however often it asks for another
attempt, the server computes `g^(ab) mod p` with 256 bytes from the client's last message, the
client accepts its answer, and whatever answer the client accepts as the last one, it ends with
that key and with the exclusive or of the nonces as its first salt. And whatever the other end
answers, an answer is accepted only with this client's nonces and the hash, of the answer's kind,
of its new nonce and its own key. -/
theorem key_exchange_agrees (env : Env) (nonce : Int128) (random₂ : List.Vector UInt8 256) (dcId : Int32)
    (expiresIn : Option Int32) (tagDc : Bool) :
    (∀ (server : DhServer) (newNonce : Int256) (random : List.Vector UInt8 272) (req : SetClientDhParams)
      (s3 : Step3), HonestRun env server nonce random₂ dcId expiresIn tagDc newNonce random req s3 →
      ∃ key, server.key env.P newNonce req = some key ∧
        key.1 = be 256 (server.g.toUInt32.toNat ^ (server.a * exponentOf random) % ofBe server.dhPrime) ∧
        (∃ finished, finish env.P s3 (server.answerOk env.P req.nonce newNonce key) = .ok (.done finished)) ∧
        ∀ answer finished, finish env.P s3 answer = .ok (.done finished) →
          finished.authKey = key ∧ ofI64 finished.firstSalt =
            List.zipWith (· ^^^ ·) ((newNonceOf random₂).1.take 8) (server.serverNonce.1.take 8)) ∧
    ∀ (resPq : ResPq) (random : List.Vector UInt8 272) (req : SetClientDhParams) (s3 : Step3)
      (answer : SetClientDhParamsAnswer) (result : FinishResult),
      Reached env nonce random₂ dcId expiresIn tagDc resPq random req s3 → finish env.P s3 answer = .ok result →
      resPq.nonce = nonce ∧ Verified env.P nonce resPq.serverNonce (newNonceOf random₂) s3.authKey answer ∧
        (answer.num = 1 ∨ answer.num = 2) ∧
        s3.authKey.1 = be 256 (modpow (ofBe s3.dhParams.gA) (exponentOf random) (ofBe telegramDhPrime)) := by
  refine ⟨?_, ?_⟩
  · intro server newNonce random req s3 hrun
    obtain ⟨rfl, hhonest⟩ := hrun.honest
    refine ⟨s3.authKey, hhonest.key_eq, hhonest.authKey_eq, hhonest.finish_answerOk, ?_⟩
    intro answer finished hfinish
    obtain ⟨-, ⟨-, hdone⟩ | ⟨-, _, hretry⟩⟩ := finish_ok hfinish
    · cases hdone
      refine ⟨rfl, ?_⟩
      rw [ofI64_firstSaltOf, hhonest.own.newNonce, hhonest.own.serverNonce]
    · cases hretry
  · intro resPq random req s3 answer result hrun hfinish
    obtain ⟨hnonce, hown⟩ := hrun.own
    obtain ⟨hverified, hresult⟩ := finish_ok hfinish
    rw [hown.nonce, hown.serverNonce, hown.newNonce] at hverified
    refine ⟨hnonce, hverified, hresult.imp And.left And.left, ?_⟩
    rw [hown.authKey, hown.dhPrime]

/-- An exchange with the plain primitives: `pq` is 15, RSA leaves its data as it is, and the
exponents are 1400 and 1500. -/
def plainEnv : Env where
  P := plainPrimitives
  factorize pq := if pq = 15 then some (3, 5) else none
  encryptHashed _ data _ := data
  decryptHashed _ data := data
  decrypt_encrypt _ _ _ _ := List.prefix_rfl

def plainServer : DhServer where
  serverNonce := List.Vector.replicate 16 7
  pq := be 8 15
  fingerprints := knownFingerprints
  g := 3
  dhPrime := telegramDhPrime
  a := 1400
  gA := be 256 (modpow 3 1400 (ofBe telegramDhPrime))
  serverTime := 0
  padding := List.Vector.replicate 16 0
  gA_eq := by decide +kernel
  dhPrime_length := by decide +kernel
  gA_length := by rw [be_length]

def plainRandom : List.Vector UInt8 272 := ⟨be 256 1500 ++ List.replicate 16 0, by
  rw [List.length_append, be_length, List.length_replicate]⟩

theorem ok_of_isOk {ε α : Type} {x : Except ε α} (h : x.isOk = true) : ∃ a, x = .ok a := by
  cases x with
  | error e => cases h
  | ok a => exact ⟨a, rfl⟩

/-- A run that comes to its third step. -/
theorem plain_run : ∃ req s3, HonestRun plainEnv plainServer (List.Vector.replicate 16 1)
      (List.Vector.replicate 256 9) 2 none false (newNonceOf (List.Vector.replicate 256 9)) plainRandom req s3 ∧
    Reached plainEnv (List.Vector.replicate 16 1) (List.Vector.replicate 256 9) 2 none false
      (plainServer.resPq (List.Vector.replicate 16 1)) plainRandom req s3 := by
  obtain ⟨⟨req₂, s2⟩, hstep₂⟩ := ok_of_isOk (x := doStep2Inner plainEnv (step1 (List.Vector.replicate 16 1))
    (plainServer.resPq (List.Vector.replicate 16 1)) (List.Vector.replicate 256 9) 2 none false) (by decide +kernel)
  obtain ⟨-, hreq, rfl, -⟩ := doStep2Inner_ok hstep₂
  obtain ⟨⟨req, s3⟩, hstep₃⟩ := ok_of_isOk (x := step3 plainPrimitives
    { nonce := List.Vector.replicate 16 1, serverNonce := plainServer.serverNonce
      newNonce := newNonceOf (List.Vector.replicate 256 9) }
    (plainServer.dhParams plainPrimitives (List.Vector.replicate 16 1) (newNonceOf (List.Vector.replicate 256 9)))
    plainRandom 0) (by decide +kernel)
  have hanswer : step3 plainEnv.P
      { nonce := List.Vector.replicate 16 1, serverNonce := plainServer.serverNonce
        newNonce := newNonceOf (List.Vector.replicate 256 9) }
      (plainServer.dhParams plainEnv.P req₂.nonce (newNonceOf (List.Vector.replicate 256 9)))
      plainRandom 0 = .ok (req, s3) := by
    rw [hreq]
    exact hstep₃
  exact ⟨req, s3, .first hstep₂ (readNewNonce_eq hstep₂) hanswer, .first hstep₂ hanswer⟩

theorem plain_exchange_agrees :
    ∃ req s3 key finished, plainServer.key plainPrimitives (newNonceOf (List.Vector.replicate 256 9)) req = some key ∧
      key.1 = be 256 (plainServer.g.toUInt32.toNat ^ (plainServer.a * exponentOf plainRandom) %
        ofBe plainServer.dhPrime) ∧
      finish plainPrimitives s3 (plainServer.answerOk plainPrimitives req.nonce
        (newNonceOf (List.Vector.replicate 256 9)) key) = .ok (.done finished) ∧
      finished.authKey = key ∧
      Verified plainPrimitives (List.Vector.replicate 16 1) plainServer.serverNonce
        (newNonceOf (List.Vector.replicate 256 9)) s3.authKey
        (plainServer.answerOk plainPrimitives req.nonce (newNonceOf (List.Vector.replicate 256 9)) key) := by
  obtain ⟨req, s3, hrun, hreached⟩ := plain_run
  obtain ⟨hhonest, hany⟩ := key_exchange_agrees plainEnv (List.Vector.replicate 16 1)
    (List.Vector.replicate 256 9) 2 none false
  obtain ⟨key, hkey, hbytes, ⟨finished, hfinish⟩, hlast⟩ := hhonest plainServer _ _ _ _ hrun
  exact ⟨req, s3, key, finished, hkey, hbytes, hfinish, (hlast _ _ hfinish).1,
    (hany _ _ _ _ _ _ hreached hfinish).2.1⟩

end Ferogram.Mtproto
