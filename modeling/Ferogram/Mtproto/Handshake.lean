import Ferogram.Crypto.Factorize
import Ferogram.Crypto.Rsa
import Ferogram.Mtproto.KeyExchange

/- The steps of the key exchange as they run: on a clock, with the loops of the factorisation and
   of the RSA padding, and with a subtraction that a build may check for overflow.

   A step ends in an `AuthError` of the source, in a panic, or out of fuel. Where it returns it is the
   step of `Authentication` (`doStep2Inner_eq`, `step3_eq`). The ciphers assert that they are
   given whole blocks; they are (`hashed_length`, `Rsa.dataWithHash_length`, and a check of the
   third step).

   What is proved: `handshake_answers_iff`, when each step returns. The second one hangs on an odd
   `pq` below 13, the third one panics on an answer too short for its hash and on a clock before
   1970, and `finish` always returns. -/
namespace Ferogram.Mtproto.Handshake
open Bytes Checked Crypto TlTypes

inductive Fault where
  | auth (error : AuthError)
  | stop (stop : Stop)
  deriving DecidableEq

/-- `Ok`, or an error that the source returns. -/
def Answered {α : Type} (x : Except Fault α) : Prop :=
  ∀ fault, x = .error fault → ∃ error, fault = .auth error ∧ error ≠ .panicked

/-- The steps that have loops are given fuel; it is enough from somewhere on. -/
def Returns {α : Type} (x : Nat → Except Fault α) : Prop := ∃ enough, ∀ fuel, enough < fuel → Answered (x fuel)

def checked {α : Type} (x : Except AuthError α) : Except Fault α := x.mapError .auth

def run {α : Type} (x : Except Stop α) : Except Fault α := x.mapError .stop

/-! The steps. -/

/-- The first fingerprint that there is a key for. -/
def knownFingerprint (response : ResPq) : Option Int64 :=
  response.serverPublicKeyFingerprints.find? fun fp => (Rsa.keyForFingerprint fp).isSome

/-- What the second step encrypts, with the factors. -/
def innerOf (data : Step1) (response : ResPq) (random : List.Vector UInt8 256) (dcId : Int32) (expiresIn : Option Int32)
    (tagDc : Bool) (p q : UInt64) : List UInt8 :=
  pqInnerOf tagDc expiresIn (be 8 (UInt64.ofNat (ofBe response.pq)).toNat) (trimBe p) (trimBe q) data.nonce
    response.serverNonce (newNonceOf random) dcId

section
variable (P : Primitives)

/-- The end of the second step, with the factors. -/
def reqDhParams (fuel : Nat) (data : Step1) (response : ResPq) (random : List.Vector UInt8 256) (dcId : Int32)
    (expiresIn : Option Int32) (tagDc : Bool) (p q : UInt64) : Except Fault (ReqDhParams × Step2) := do
  let pqInner := innerOf data response random dcId expiresIn tagDc p q
  let fingerprint ← checked (okOr (knownFingerprint response) (.unknownFingerprints response.serverPublicKeyFingerprints))
  let key ← checked (okOr (Rsa.keyForFingerprint fingerprint) .panicked)
  let ciphertext ← run (Rsa.encryptHashed P fuel pqInner key (rnd224Of random))
  pure ({ nonce := data.nonce, serverNonce := response.serverNonce, p := trimBe p, q := trimBe q
          publicKeyFingerprint := fingerprint, encryptedData := ciphertext },
        { nonce := data.nonce, serverNonce := response.serverNonce, newNonce := newNonceOf random })

def doStep2Inner (fuel : Nat) (data : Step1) (response : ResPq) (random : List.Vector UInt8 256) (dcId : Int32)
    (expiresIn : Option Int32) (tagDc : Bool) : Except Fault (ReqDhParams × Step2) := do
  checked (checkNonce response.nonce data.nonce)
  checked (ensure (response.pq.length = 8) (.invalidPqSize response.pq.length))
  let pq := UInt64.ofNat (ofBe response.pq)
  let factors ← run (Factorize.factorize fuel pq)
  let (p, q) ← checked (okOr factors (.factorizationFailed pq))
  reqDhParams P fuel data response random dcId expiresIn tagDc p q

/-- The seconds since 1970 of a clock that counts nanoseconds, cut to `i32`. -/
def secondsOf (clock : Int) : Int32 := Int32.ofInt (clock / 1000000000)

def now (clock : Int) : Except Fault Int32 :=
  if clock < 0 then .error (.auth .panicked) else .ok (secondsOf clock)

/-- `server_time - now` is no `i32`. -/
def OffsetOverflows (serverTime now : Int32) : Prop :=
  ¬(-2147483648 ≤ serverTime.toInt - now.toInt ∧ serverTime.toInt - now.toInt ≤ 2147483647)

instance (serverTime now : Int32) : Decidable (OffsetOverflows serverTime now) := inferInstanceAs (Decidable (¬ _))

/-- A build with `overflowChecks` panics where another one wraps. -/
def generateClientDhParams (overflowChecks : Bool) (dh : DhParamsForRetry) (nonce serverNonce : Int128)
    (newNonce : Int256) (retryId : Int64) (random : List.Vector UInt8 272) (now : Int32) :
    Except Fault (SetClientDhParams × Step3) :=
  if overflowChecks = true ∧ OffsetOverflows dh.serverTime now then .error (.auth .panicked)
  else checked (Mtproto.generateClientDhParams P dh nonce serverNonce newNonce retryId random now)

/-- The third step up to its own parameters: what it reads from the answer. -/
def answerParams (data : Step2) (response : ServerDhParams) : Except AuthError DhParamsForRetry :=
  match response with
  | .fail nonce serverNonce _ => do
    checkNonce nonce data.nonce
    checkServerNonce serverNonce data.serverNonce
    throw .dhParamsFail
  | .ok nonce serverNonce encryptedAnswer => do
    checkNonce nonce data.nonce
    checkServerNonce serverNonce data.serverNonce
    ensure (encryptedAnswer.length % 16 = 0) (.encryptedResponseNotPadded encryptedAnswer.length)
    let (key, iv) := generateKeyDataFromNonce P data.serverNonce.1 data.newNonce.1
    let inner ← readHashed P ServerDhInnerData.deserialize (igeDecrypt P encryptedAnswer key iv)
    checkNonce inner.nonce data.nonce
    checkServerNonce inner.serverNonce data.serverNonce
    (checkPAndG inner.dhPrime inner.g.toUInt32).mapError .invalidDhPrime
    ensure (safety ≤ ofBe inner.dhPrime) .panicked
    checkGInRange (ofBe inner.gA) safety (ofBe inner.dhPrime - safety)
    pure { dhPrime := inner.dhPrime, g := inner.g.toUInt32, gA := inner.gA, serverTime := inner.serverTime
           aesKey := key, aesIv := iv }

def step3 (overflowChecks : Bool) (data : Step2) (response : ServerDhParams) (random : List.Vector UInt8 272)
    (clock : Int) : Except Fault (SetClientDhParams × Step3) := do
  let now ← now clock
  let dh ← checked (answerParams P data response)
  generateClientDhParams P overflowChecks dh data.nonce data.serverNonce data.newNonce 0 random now

def retryStep3 (overflowChecks : Bool) (dhParams : DhParamsForRetry) (nonce serverNonce : Int128) (newNonce : Int256)
    (retryId : Int64) (random : List.Vector UInt8 272) (clock : Int) : Except Fault (SetClientDhParams × Step3) := do
  let now ← now clock
  generateClientDhParams P overflowChecks dhParams nonce serverNonce newNonce retryId random now

def finish (data : Step3) (response : SetClientDhParamsAnswer) : Except Fault FinishResult :=
  checked (Mtproto.finish P data response)

/-- A client can be in the state `s3` after its third step, having been answered anything. -/
inductive Reached (overflowChecks : Bool) : Step3 → Prop where
  | first {s2 : Step2} {response : ServerDhParams} {random : List.Vector UInt8 272} {clock : Int}
      {req : SetClientDhParams} {s3 : Step3} :
      step3 P overflowChecks s2 response random clock = .ok (req, s3) → Reached overflowChecks s3
  | again {s3 s3' : Step3} {answer : SetClientDhParamsAnswer} {retryId : Int64} {dh : DhParamsForRetry}
      {n sn : Int128} {nn : Int256} {random : List.Vector UInt8 272} {clock : Int} {req : SetClientDhParams} :
      Reached overflowChecks s3 → finish P s3 answer = .ok (.retry retryId dh n sn nn) →
      retryStep3 P overflowChecks dh n sn nn retryId random clock = .ok (req, s3') → Reached overflowChecks s3'

/-! When a step returns. -/

/-- What is asked of an answer that the second step does not refuse: its number is not too small, and
the padding comes to a block below the modulus of the key. -/
structure Manageable (data : Step1) (response : ResPq) (random : List.Vector UInt8 256) (dcId : Int32)
    (expiresIn : Option Int32) (tagDc : Bool) : Prop where
  notTiny : ofBe response.pq % 2 = 1 → 13 ≤ ofBe response.pq
  fits : ∀ fuel p q fingerprint key, Factorize.factorize fuel (UInt64.ofNat (ofBe response.pq)) = .ok (some (p, q)) →
    knownFingerprint response = some fingerprint → Rsa.keyForFingerprint fingerprint = some key →
    Rsa.Fits P key (innerOf data response random dcId expiresIn tagDc p q) (rnd224Of random)

/-- An answer to this client in whole blocks, with less than a hash in them. -/
def ShortAnswer (data : Step2) (response : ServerDhParams) : Prop :=
  ∃ encryptedAnswer, response = .ok data.nonce data.serverNonce encryptedAnswer ∧
    encryptedAnswer.length % 16 = 0 ∧ encryptedAnswer.length < 20

end

/-! Faults. -/

section
variable {α β : Type}

def NoPanic (x : Except AuthError α) : Prop := x ≠ .error .panicked

theorem NoPanic.bind {x : Except AuthError α} {f : α → Except AuthError β} (h : NoPanic x)
    (hf : ∀ a, x = .ok a → NoPanic (f a)) : NoPanic (x >>= f) := by
  cases x with
  | error e => exact fun heq => h (congrArg Except.error (Except.error.inj heq))
  | ok a => exact hf a rfl

theorem noPanic_ok (a : α) : NoPanic (.ok a) := nofun

theorem noPanic_error {e : AuthError} (h : e ≠ .panicked) : NoPanic (.error e : Except AuthError α) :=
  fun heq => h (Except.error.inj heq)

theorem noPanic_ensure {c : Prop} [Decidable c] {e : AuthError} (h : c ∨ e ≠ .panicked) : NoPanic (ensure c e) := by
  unfold ensure
  split
  · exact noPanic_ok _
  · next hc => exact noPanic_error (h.resolve_left hc)

theorem noPanic_checkNonce (got expected : Int128) : NoPanic (checkNonce got expected) := noPanic_ensure (.inr nofun)

theorem noPanic_checkServerNonce (got expected : Int128) : NoPanic (checkServerNonce got expected) :=
  noPanic_ensure (.inr nofun)

theorem noPanic_checkGInRange (val lo hi : Nat) : NoPanic (checkGInRange val lo hi) := noPanic_ensure (.inr nofun)

theorem mapError_ok {ε ε' : Type} {x : Except ε α} {f : ε → ε'} {a : α} (h : x.mapError f = .ok a) : x = .ok a := by
  cases x with
  | error e => cases h
  | ok b => exact congrArg Except.ok (Except.ok.inj h)

theorem answered_auth {e : AuthError} (h : e ≠ .panicked) : Answered (.error (.auth e) : Except Fault α) := by
  intro fault hfault
  cases hfault
  exact ⟨e, rfl, h⟩

theorem not_answered_panicked : ¬ Answered (.error (.auth .panicked) : Except Fault α) := by
  intro h
  obtain ⟨_, hfault, hne⟩ := h _ rfl
  cases hfault
  exact hne rfl

theorem not_answered_stop (stop : Stop) : ¬ Answered (.error (.stop stop) : Except Fault α) := by
  intro h
  obtain ⟨_, hfault, -⟩ := h _ rfl
  cases hfault

theorem answered_checked {x : Except AuthError α} : Answered (checked x) ↔ NoPanic x := by
  cases x with
  | ok a => exact iff_of_true nofun (noPanic_ok a)
  | error e =>
    constructor
    · intro h
      obtain ⟨error, herror, hne⟩ := h (.auth e) rfl
      cases herror
      exact noPanic_error hne
    · exact fun h => answered_auth fun hpanicked => h (congrArg Except.error hpanicked)

theorem checked_ok {x : Except AuthError α} {a : α} : checked x = .ok a ↔ x = .ok a :=
  ⟨mapError_ok, fun h => by rw [h]; rfl⟩

theorem answered_run {x : Except Stop α} : Answered (run x) ↔ ∃ a, x = .ok a := by
  cases x with
  | ok a => exact iff_of_true nofun ⟨a, rfl⟩
  | error stop => exact iff_of_false (not_answered_stop stop) nofun

theorem Answered.bind_iff {x : Except Fault α} {f : α → Except Fault β} :
    Answered (x >>= f) ↔ Answered x ∧ ∀ a, x = .ok a → Answered (f a) := by
  cases x with
  | error fault =>
    constructor
    · exact fun h => ⟨fun fault' heq => h fault' (congrArg Except.error (Except.error.inj heq)), nofun⟩
    · exact fun h fault' heq => h.1 fault' (congrArg Except.error (Except.error.inj heq))
  | ok a => exact ⟨fun h => ⟨nofun, fun b hb => Except.ok.inj hb ▸ h⟩, fun h => h.2 a rfl⟩

theorem Returns.congr {x y : Nat → Except Fault α} (h : ∃ enough, ∀ fuel, enough < fuel → x fuel = y fuel) :
    Returns x ↔ Returns y := by
  obtain ⟨enough, hsame⟩ := h
  constructor
  · rintro ⟨n, hn⟩
    refine ⟨n + enough, fun fuel hfuel => ?_⟩
    rw [← hsame fuel (by omega)]
    exact hn fuel (by omega)
  · rintro ⟨n, hn⟩
    refine ⟨n + enough, fun fuel hfuel => ?_⟩
    rw [hsame fuel (by omega)]
    exact hn fuel (by omega)

theorem returns_const {x : Except Fault α} : Returns (fun _ => x) ↔ Answered x :=
  ⟨fun ⟨enough, h⟩ => h (enough + 1) (Nat.lt_succ_self enough), fun h => ⟨0, fun _ _ => h⟩⟩

end

/-! The second step. -/

section
variable {P : Primitives} {data : Step1} {response : ResPq} {random : List.Vector UInt8 256} {dcId : Int32}
  {expiresIn : Option Int32} {tagDc : Bool}

theorem innerOf_length_le (p q : UInt64) : (innerOf data response random dcId expiresIn tagDc p q).length ≤ 144 := by
  obtain ⟨id, rest, hrest, hinner⟩ := pqInnerOf_eq tagDc expiresIn (be 8 (UInt64.ofNat (ofBe response.pq)).toNat)
    (trimBe p) (trimBe q) data.nonce response.serverNonce (newNonceOf random) dcId
  unfold innerOf
  rw [hinner]
  exact pqInner_length_le id (be_length 8 _).le (trimBe_length p) (trimBe_length q) _ _ _ hrest

theorem knownFingerprint_key {fingerprint : Int64} (h : knownFingerprint response = some fingerprint) :
    ∃ key, Rsa.keyForFingerprint fingerprint = some key := by
  have hsome := List.find?_some h
  exact Option.isSome_iff_exists.mp hsome

theorem reqDhParams_returns_iff (p q : UInt64) :
    Returns (fun fuel => reqDhParams P fuel data response random dcId expiresIn tagDc p q) ↔
      ∀ fingerprint key, knownFingerprint response = some fingerprint → Rsa.keyForFingerprint fingerprint = some key →
        Rsa.Fits P key (innerOf data response random dcId expiresIn tagDc p q) (rnd224Of random) := by
  cases hknown : knownFingerprint response with
  | none =>
    refine iff_of_true ?_ fun _ _ h => by cases h
    unfold reqDhParams
    rw [hknown]
    exact returns_const.mpr (answered_auth nofun)
  | some fingerprint =>
    obtain ⟨key, hkey⟩ := knownFingerprint_key hknown
    have hstep : ∀ fuel, Answered (reqDhParams P fuel data response random dcId expiresIn tagDc p q) ↔
        ∃ block, Rsa.encryptHashed P fuel (innerOf data response random dcId expiresIn tagDc p q) key (rnd224Of random) =
          .ok block := by
      intro fuel
      unfold reqDhParams
      rw [hknown]
      change Answered (checked (okOr (Rsa.keyForFingerprint fingerprint) .panicked) >>= _) ↔ _
      rw [hkey]
      change Answered (run _ >>= _) ↔ _
      rw [Answered.bind_iff, answered_run]
      exact and_iff_left fun _ _ => nofun
    have hlength : (innerOf data response random dcId expiresIn tagDc p q).length ≤ 144 := innerOf_length_le p q
    have hfits := Rsa.encryptHashed_returns_iff (P := P) hlength key (rnd224Of random)
    constructor
    · rintro ⟨enough, h⟩ _ key' hsome hkey'
      cases hsome
      cases hkey.symm.trans hkey'
      exact hfits.mp ⟨enough + 1, (hstep _).mp (h _ (Nat.lt_succ_self enough))⟩
    · intro h
      obtain ⟨enough, block, hblock⟩ := hfits.mpr (h fingerprint key rfl hkey)
      refine ⟨enough, fun fuel hfuel => (hstep fuel).mpr ⟨block, ?_⟩⟩
      exact (Rsa.encryptHashed_below (Nat.le_of_lt hfuel) _ key _).eq_of_ok hblock

/-- An answer that is not refused is factorised. -/
theorem doStep2Inner_checked (hnonce : response.nonce = data.nonce) (hsize : response.pq.length = 8) (fuel : Nat) :
    doStep2Inner P fuel data response random dcId expiresIn tagDc =
      run (Factorize.factorize fuel (UInt64.ofNat (ofBe response.pq))) >>= fun factors =>
        checked (okOr factors (.factorizationFailed (UInt64.ofNat (ofBe response.pq)))) >>= fun (p, q) =>
          reqDhParams P fuel data response random dcId expiresIn tagDc p q := by
  unfold doStep2Inner checkNonce ensure
  rw [if_pos hnonce, if_pos hsize]
  rfl

theorem doStep2Inner_refused (h : ¬(response.nonce = data.nonce ∧ response.pq.length = 8)) :
    Returns (fun fuel => doStep2Inner P fuel data response random dcId expiresIn tagDc) := by
  by_cases hnonce : response.nonce = data.nonce
  · have hsize : ¬ response.pq.length = 8 := fun hsize => h ⟨hnonce, hsize⟩
    unfold doStep2Inner checkNonce ensure
    rw [if_pos hnonce, if_neg hsize]
    exact returns_const.mpr (answered_auth nofun)
  · unfold doStep2Inner checkNonce ensure
    rw [if_neg hnonce]
    exact returns_const.mpr (answered_auth nofun)

/-- With enough fuel the step is what it is with the factors. -/
theorem doStep2Inner_returns_iff (hnonce : response.nonce = data.nonce) (hsize : response.pq.length = 8)
    {answer : Option (UInt64 × UInt64)}
    (hanswer : Converges (Factorize.factorize · (UInt64.ofNat (ofBe response.pq))) answer) :
    Returns (fun fuel => doStep2Inner P fuel data response random dcId expiresIn tagDc) ↔
      ∀ p q, answer = some (p, q) →
        Returns (fun fuel => reqDhParams P fuel data response random dcId expiresIn tagDc p q) := by
  obtain ⟨enough, hanswer⟩ := hanswer
  have hsame : ∀ fuel, enough < fuel → doStep2Inner P fuel data response random dcId expiresIn tagDc =
      checked (okOr answer (.factorizationFailed (UInt64.ofNat (ofBe response.pq)))) >>= fun (p, q) =>
        reqDhParams P fuel data response random dcId expiresIn tagDc p q := by
    intro fuel hfuel
    have hfactors : Factorize.factorize fuel (UInt64.ofNat (ofBe response.pq)) = .ok answer := hanswer fuel hfuel
    rw [doStep2Inner_checked hnonce hsize, hfactors]
    exact pure_bind answer _
  rw [Returns.congr ⟨enough, hsame⟩]
  cases answer with
  | none => exact iff_of_true (returns_const.mpr (answered_auth nofun)) nofun
  | some factors =>
    obtain ⟨p, q⟩ := factors
    constructor
    · rintro h p' q' heq
      cases heq
      exact h
    · exact fun h => h p q rfl

theorem ofBe_pq_toNat (hsize : response.pq.length = 8) : (UInt64.ofNat (ofBe response.pq)).toNat = ofBe response.pq := by
  apply UInt64.toNat_ofNat_of_lt'
  have hlt := ofBe_lt response.pq
  rwa [hsize] at hlt

theorem step2_returns_iff :
    Returns (fun fuel => doStep2Inner P fuel data response random dcId expiresIn tagDc) ↔
      (response.nonce = data.nonce → response.pq.length = 8 →
        Manageable P data response random dcId expiresIn tagDc) := by
  by_cases hpass : response.nonce = data.nonce ∧ response.pq.length = 8
  case neg => exact iff_of_true (doStep2Inner_refused hpass) fun hnonce hsize => absurd ⟨hnonce, hsize⟩ hpass
  obtain ⟨hnonce, hsize⟩ := hpass
  have hpq := ofBe_pq_toNat hsize
  by_cases htiny : ofBe response.pq % 2 = 1 → 13 ≤ ofBe response.pq
  · obtain ⟨answer, hanswer⟩ := Factorize.factorize_converges (hpq.symm ▸ htiny)
    rw [doStep2Inner_returns_iff hnonce hsize hanswer]
    constructor
    · refine fun h _ _ => ⟨htiny, fun fuel p q fingerprint key hfactors => ?_⟩
      have hconverges := converges_of_ok (fun _ _ hle => Factorize.factorize_below hle _) hfactors
      exact (reqDhParams_returns_iff p q).mp (h p q (hanswer.eq hconverges)) fingerprint key
    · rintro h p q rfl
      obtain ⟨enough, henough⟩ := hanswer
      refine (reqDhParams_returns_iff p q).mpr fun fingerprint key => ?_
      exact (h hnonce hsize).fits (enough + 1) p q fingerprint key (henough _ (Nat.lt_succ_self enough))
  · -- the factorisation is out of fuel whatever it was given
    refine iff_of_false ?_ fun h => htiny (h hnonce hsize).notTiny
    rintro ⟨enough, h⟩
    obtain ⟨hodd, hsmall⟩ := Classical.not_imp.mp htiny
    have hanswered : Answered (doStep2Inner P (enough + 1) data response random dcId expiresIn tagDc) :=
      h (enough + 1) (Nat.lt_succ_self enough)
    rw [doStep2Inner_checked hnonce hsize, Factorize.factorize_tiny (enough + 1) (hpq.symm ▸ hodd) (by omega)] at hanswered
    exact not_answered_stop .outOfFuel hanswered

end

/-! The third step. -/

theorem safety_le : safety ≤ ofBe telegramDhPrime := by decide +kernel

section
variable {P : Primitives}

/-- With the known prime there is nothing to panic at. -/
theorem noPanic_generateClientDhParams {dh : DhParamsForRetry} (hprime : dh.dhPrime = telegramDhPrime)
    (nonce serverNonce : Int128) (newNonce : Int256) (retryId : Int64) (random : List.Vector UInt8 272) (now : Int32) :
    NoPanic (Mtproto.generateClientDhParams P dh nonce serverNonce newNonce retryId random now) := by
  have hsafety := safety_le
  have hpos : 0 < safety := by decide +kernel
  have hlength : telegramDhPrime.length ≤ 256 := by decide +kernel
  have hzero : ofBe telegramDhPrime ≠ 0 := by omega
  unfold Mtproto.generateClientDhParams
  rw [hprime]
  dsimp only
  refine (noPanic_ensure (.inl hzero)).bind fun _ _ => (noPanic_checkGInRange _ _ _).bind fun _ _ => ?_
  refine (noPanic_ensure (.inl hsafety)).bind fun _ _ => (noPanic_checkGInRange _ _ _).bind fun _ _ => ?_
  refine NoPanic.bind ?_ fun _ _ => noPanic_ok _
  unfold keyBytes
  rw [dif_pos (gB_length hlength hzero _ _)]
  exact noPanic_ok _

/-- Only what is shorter than a hash is not read. -/
theorem noPanic_readHashed_iff {α : Type} (p : Reader TlTypes.Error α) (plain : List UInt8) :
    NoPanic (readHashed P p plain) ↔ 20 ≤ plain.length := by
  unfold readHashed
  split
  case isTrue hshort => exact iff_of_false (fun h => h rfl) (by omega)
  case isFalse hlong =>
    refine iff_of_true ?_ (by omega)
    dsimp only
    split
    · exact noPanic_error nofun
    · split
      · exact noPanic_error nofun
      · exact noPanic_ok _

theorem answerParams_ok {data : Step2} {response : ServerDhParams} {dh : DhParamsForRetry}
    (h : answerParams P data response = .ok dh) : dh.dhPrime = telegramDhPrime := by
  cases response with
  | fail nonce serverNonce newNonceHash =>
    obtain ⟨_, -, h⟩ := bind_eq_ok h
    obtain ⟨_, -, h⟩ := bind_eq_ok h
    cases h
  | ok nonce serverNonce encryptedAnswer =>
    obtain ⟨_, -, h⟩ := bind_eq_ok h
    obtain ⟨_, -, h⟩ := bind_eq_ok h
    obtain ⟨_, -, h⟩ := bind_eq_ok h
    obtain ⟨inner, -, h⟩ := bind_eq_ok h
    obtain ⟨_, -, h⟩ := bind_eq_ok h
    obtain ⟨_, -, h⟩ := bind_eq_ok h
    obtain ⟨_, hprime, h⟩ := bind_eq_ok h
    obtain ⟨_, -, h⟩ := bind_eq_ok h
    obtain ⟨_, -, h⟩ := bind_eq_ok h
    cases h
    exact (checkPAndG_ok (mapError_ok hprime)).2

theorem noPanic_answerParams_iff (data : Step2) (response : ServerDhParams) :
    NoPanic (answerParams P data response) ↔ ¬ ShortAnswer data response := by
  cases response with
  | fail nonce serverNonce newNonceHash =>
    refine iff_of_true ?_ fun ⟨_, h, _⟩ => by cases h
    unfold answerParams
    dsimp only
    refine (noPanic_checkNonce _ _).bind fun _ _ => (noPanic_checkServerNonce _ _).bind fun _ _ => ?_
    exact noPanic_error nofun
  | ok nonce serverNonce encryptedAnswer =>
    constructor
    · -- the checks pass and the hash is not there
      rintro h ⟨_, heq, hblocks, hshort⟩
      cases heq
      have hlen : (igeDecrypt P encryptedAnswer (generateKeyDataFromNonce P data.serverNonce.1 data.newNonce.1).1
          (generateKeyDataFromNonce P data.serverNonce.1 data.newNonce.1).2).length < 20 := by
        rwa [igeDecrypt_length _ (generateKeyDataFromNonce_iv_length _ data.newNonce.2) (Nat.dvd_of_mod_eq_zero hblocks)]
      unfold answerParams checkNonce checkServerNonce ensure readHashed at h
      dsimp only at h
      rw [if_pos rfl, if_pos rfl, if_pos hblocks, if_pos hlen] at h
      exact h rfl
    · intro h
      unfold answerParams
      dsimp only
      refine NoPanic.bind (noPanic_checkNonce _ _) fun _ hnonce => ?_
      refine NoPanic.bind (noPanic_checkServerNonce _ _) fun _ hserver => ?_
      refine NoPanic.bind (noPanic_ensure (.inr nofun)) fun _ hblocks => ?_
      have hblocks := ensure_ok hblocks
      have hlong : 20 ≤ encryptedAnswer.length := by
        by_contra hshort
        refine h ⟨encryptedAnswer, ?_, hblocks, by omega⟩
        rw [ensure_ok hnonce, ensure_ok hserver]
      refine NoPanic.bind ?_ fun inner _ => ?_
      · rwa [noPanic_readHashed_iff, igeDecrypt_length _ (generateKeyDataFromNonce_iv_length _ data.newNonce.2)
          (Nat.dvd_of_mod_eq_zero hblocks)]
      refine NoPanic.bind (noPanic_checkNonce _ _) fun _ _ => ?_
      refine NoPanic.bind (noPanic_checkServerNonce _ _) fun _ _ => ?_
      refine NoPanic.bind ?_ fun _ hprime => ?_
      · cases checkPAndG inner.dhPrime inner.g.toUInt32 with
        | error source => exact noPanic_error nofun
        | ok _ => exact noPanic_ok ()
      have hprime := (checkPAndG_ok (mapError_ok hprime)).2
      rw [hprime]
      refine NoPanic.bind (noPanic_ensure (.inl safety_le)) fun _ _ => ?_
      exact NoPanic.bind (noPanic_checkGInRange _ _ _) fun _ _ => noPanic_ok _

theorem now_ok {clock : Int} {now : Int32} (h : Handshake.now clock = .ok now) : now = secondsOf clock := by
  unfold Handshake.now at h
  split at h
  · cases h
  · exact (Except.ok.inj h).symm

/-- What is done at a reading of the clock. -/
theorem answered_now_bind_iff {α : Type} (clock : Int) (f : Int32 → Except Fault α) :
    Answered (now clock >>= f) ↔ 0 ≤ clock ∧ Answered (f (secondsOf clock)) := by
  by_cases hneg : clock < 0
  · have hpanic : now clock = .error (.auth .panicked) := if_pos hneg
    rw [hpanic]
    exact iff_of_false not_answered_panicked fun h => absurd h.1 (by omega)
  · have hnow : now clock = .ok (secondsOf clock) := if_neg hneg
    rw [hnow]
    exact (and_iff_right (by omega)).symm

theorem answered_generateClientDhParams_iff (overflowChecks : Bool) {dh : DhParamsForRetry}
    (hprime : dh.dhPrime = telegramDhPrime) (nonce serverNonce : Int128) (newNonce : Int256) (retryId : Int64)
    (random : List.Vector UInt8 272) (now : Int32) :
    Answered (generateClientDhParams P overflowChecks dh nonce serverNonce newNonce retryId random now) ↔
      (overflowChecks = true → ¬ OffsetOverflows dh.serverTime now) := by
  unfold generateClientDhParams
  split
  case isTrue hoverflow => exact iff_of_false not_answered_panicked fun h => h hoverflow.1 hoverflow.2
  case isFalse hfits =>
    refine iff_of_true ?_ fun hchecks hoverflow => hfits ⟨hchecks, hoverflow⟩
    exact answered_checked.mpr (noPanic_generateClientDhParams hprime _ _ _ _ _ _)

theorem step3_answers_iff (overflowChecks : Bool) (data : Step2) (response : ServerDhParams)
    (random : List.Vector UInt8 272) (clock : Int) :
    Answered (step3 P overflowChecks data response random clock) ↔
      0 ≤ clock ∧ ¬ ShortAnswer data response ∧ (overflowChecks = true → ∀ dh, answerParams P data response = .ok dh →
        ¬ OffsetOverflows dh.serverTime (secondsOf clock)) := by
  unfold step3
  rw [answered_now_bind_iff, Answered.bind_iff, answered_checked, noPanic_answerParams_iff]
  refine and_congr_right fun _ => and_congr_right fun _ => ⟨fun h hchecks dh hdh => ?_, fun h dh hdh => ?_⟩
  · exact (answered_generateClientDhParams_iff overflowChecks (answerParams_ok hdh) _ _ _ _ _ _).mp
      (h dh (checked_ok.mpr hdh)) hchecks
  · exact (answered_generateClientDhParams_iff overflowChecks (answerParams_ok (checked_ok.mp hdh)) _ _ _ _ _ _).mpr
      fun hchecks => h hchecks dh (checked_ok.mp hdh)

/-! The attempts behind the first. -/

theorem generateClientDhParams_keeps {overflowChecks : Bool} {dh : DhParamsForRetry} {nonce serverNonce : Int128}
    {newNonce : Int256} {retryId : Int64} {random : List.Vector UInt8 272} {now : Int32} {req : SetClientDhParams}
    {s3 : Step3} (h : generateClientDhParams P overflowChecks dh nonce serverNonce newNonce retryId random now =
      .ok (req, s3)) : s3.dhParams = dh := by
  unfold generateClientDhParams at h
  split at h
  · cases h
  · exact (generateClientDhParams_ok (checked_ok.mp h)).2.2.2.2.1

theorem finish_retry {s3 : Step3} {answer : SetClientDhParamsAnswer} {retryId : Int64} {dh : DhParamsForRetry}
    {n sn : Int128} {nn : Int256} (h : finish P s3 answer = .ok (.retry retryId dh n sn nn)) : dh = s3.dhParams := by
  obtain ⟨-, ⟨-, hdone⟩ | ⟨-, _, hretry⟩⟩ := finish_ok (checked_ok.mp h)
  · cases hdone
  · cases hretry
    rfl

theorem Reached.dhPrime {overflowChecks : Bool} {s3 : Step3} (h : Reached P overflowChecks s3) :
    s3.dhParams.dhPrime = telegramDhPrime := by
  induction h with
  | first hstep =>
    obtain ⟨_, -, hstep⟩ := bind_eq_ok hstep
    obtain ⟨dh, hdh, hstep⟩ := bind_eq_ok hstep
    rw [generateClientDhParams_keeps hstep]
    exact answerParams_ok (checked_ok.mp hdh)
  | again _ hfinish hretry ih =>
    obtain ⟨_, -, hretry⟩ := bind_eq_ok hretry
    rwa [generateClientDhParams_keeps hretry, finish_retry hfinish]

theorem retryStep3_answers_iff {overflowChecks : Bool} {dh : DhParamsForRetry} (hprime : dh.dhPrime = telegramDhPrime)
    (n sn : Int128) (nn : Int256) (retryId : Int64) (random : List.Vector UInt8 272) (clock : Int) :
    Answered (retryStep3 P overflowChecks dh n sn nn retryId random clock) ↔
      0 ≤ clock ∧ (overflowChecks = true → ¬ OffsetOverflows dh.serverTime (secondsOf clock)) := by
  unfold retryStep3
  rw [answered_now_bind_iff, answered_generateClientDhParams_iff overflowChecks hprime]

theorem finish_answers (data : Step3) (response : SetClientDhParamsAnswer) : Answered (finish P data response) := by
  refine answered_checked.mpr ?_
  unfold Mtproto.finish
  refine (noPanic_checkNonce _ _).bind fun _ _ => (noPanic_checkServerNonce _ _).bind fun _ _ => ?_
  refine NoPanic.bind (noPanic_ensure (.inr nofun)) fun _ _ => ?_
  dsimp only
  split
  · exact noPanic_ok _
  · split
    · exact noPanic_ok _
    · exact noPanic_error nofun

/-! Where they return, these are the steps on seconds and with factors. -/

theorem doStep3_eq (data : Step2) (response : ServerDhParams) (random : List.Vector UInt8 272) (now : Int32)
    (retryId : Int64) : doStep3 P data response random now retryId = answerParams P data response >>= fun dh =>
      Mtproto.generateClientDhParams P dh data.nonce data.serverNonce data.newNonce retryId random now := by
  cases response with
  | fail nonce serverNonce newNonceHash =>
    unfold doStep3 answerParams
    dsimp only
    rw [bind_assoc]
    refine bind_congr fun _ => ?_
    rw [bind_assoc]
    exact bind_congr fun _ => rfl
  | ok nonce serverNonce encryptedAnswer =>
    unfold doStep3 answerParams
    dsimp only
    simp only [bind_assoc]
    refine bind_congr fun _ => bind_congr fun _ => bind_congr fun _ => bind_congr fun inner => ?_
    refine bind_congr fun _ => bind_congr fun _ => ?_
    cases hprime : checkPAndG inner.dhPrime inner.g.toUInt32 with
    | error source => rfl
    | ok _ =>
      have hsafety : ensure (safety ≤ ofBe inner.dhPrime) .panicked = .ok () := by
        rw [(checkPAndG_ok hprime).2]
        exact if_pos safety_le
      rw [hsafety]
      exact bind_congr fun _ => rfl

theorem step3_eq {overflowChecks : Bool} {data : Step2} {response : ServerDhParams} {random : List.Vector UInt8 272}
    {clock : Int} {r : SetClientDhParams × Step3} (h : step3 P overflowChecks data response random clock = .ok r) :
    Mtproto.step3 P data response random (secondsOf clock) = .ok r := by
  obtain ⟨_, hnow, h⟩ := bind_eq_ok h
  obtain ⟨dh, hdh, h⟩ := bind_eq_ok h
  cases now_ok hnow
  unfold generateClientDhParams at h
  split at h
  · cases h
  · unfold Mtproto.step3
    rw [doStep3_eq, checked_ok.mp hdh]
    exact checked_ok.mp h

theorem run_ok {α : Type} {x : Except Stop α} {a : α} (h : run x = .ok a) : x = .ok a := mapError_ok h

/-- The factorisation and the RSA of `env` are what the loops come to. -/
structure Realises (P : Primitives) (env : Env) : Prop where
  factorize : ∀ {fuel pq answer}, Factorize.factorize fuel pq = .ok answer → env.factorize pq = answer
  encryptHashed : ∀ {fuel fingerprint key data random block}, Rsa.keyForFingerprint fingerprint = some key →
    Rsa.encryptHashed P fuel data key random = .ok block → env.encryptHashed fingerprint data random = block

theorem isSome_keyForFingerprint (fp : Int64) :
    (Rsa.keyForFingerprint fp).isSome = decide (fp ∈ knownFingerprints) := by
  have hmem : fp ∈ knownFingerprints ↔ fp = -3414540481677951611 ∨ fp = -5595554452916591101 := by
    unfold knownFingerprints
    rw [List.mem_cons, List.mem_singleton]
  unfold Rsa.keyForFingerprint
  split
  case isTrue h => exact (decide_eq_true (hmem.mpr (.inl h))).symm
  case isFalse h =>
    split
    case isTrue h' => exact (decide_eq_true (hmem.mpr (.inr h'))).symm
    case isFalse h' => exact (decide_eq_false fun hin => (hmem.mp hin).elim h h').symm

theorem okOr_ok {α : Type} {x : Option α} {e : AuthError} {a : α} (h : okOr x e = .ok a) : x = some a := by
  cases x with
  | none => cases h
  | some b => exact congrArg some (Except.ok.inj h)

theorem doStep2Inner_eq {env : Env} (henv : Realises P env) {fuel : Nat} {data : Step1} {response : ResPq}
    {random : List.Vector UInt8 256} {dcId : Int32} {expiresIn : Option Int32} {tagDc : Bool} {r : ReqDhParams × Step2}
    (h : doStep2Inner P fuel data response random dcId expiresIn tagDc = .ok r) :
    Mtproto.doStep2Inner env data response random dcId expiresIn tagDc = .ok r := by
  obtain ⟨_, hnonce, h⟩ := bind_eq_ok h
  obtain ⟨_, hsize, h⟩ := bind_eq_ok h
  obtain ⟨factors, hrun, h⟩ := bind_eq_ok h
  obtain ⟨⟨p, q⟩, hfactors, h⟩ := bind_eq_ok h
  obtain ⟨fingerprint, hknown, h⟩ := bind_eq_ok h
  obtain ⟨key, hkey, h⟩ := bind_eq_ok h
  obtain ⟨block, hblock, h⟩ := bind_eq_ok h
  have hfind : response.serverPublicKeyFingerprints.find? (· ∈ knownFingerprints) = some fingerprint := by
    have hsome := okOr_ok (checked_ok.mp hknown)
    unfold knownFingerprint at hsome
    simpa only [isSome_keyForFingerprint] using hsome
  have hpq : env.factorize (UInt64.ofNat (ofBe response.pq)) = some (p, q) := by
    rw [henv.factorize (run_ok hrun)]
    exact okOr_ok (checked_ok.mp hfactors)
  have hencrypted := henv.encryptHashed (okOr_ok (checked_ok.mp hkey)) (run_ok hblock)
  unfold Mtproto.doStep2Inner
  dsimp only
  rw [checked_ok.mp hnonce, checked_ok.mp hsize, hpq, hfind]
  cases h
  rw [← hencrypted]
  rfl

end

/-- **The handshake on a server's input.** The second step returns exactly if an answer that it
does not refuse is manageable, the third one if the clock is past 1970, the answer has room for its hash and,
where it is checked, the difference of the times fits, the later attempts likewise; the end of the
handshake always returns. -/
theorem handshake_answers_iff (P : Primitives) (overflowChecks : Bool) :
    (∀ (data : Step1) (response : ResPq) (random : List.Vector UInt8 256) (dcId : Int32) (expiresIn : Option Int32)
      (tagDc : Bool), Returns (fun fuel => doStep2Inner P fuel data response random dcId expiresIn tagDc) ↔
        (response.nonce = data.nonce → response.pq.length = 8 →
          Manageable P data response random dcId expiresIn tagDc)) ∧
    (∀ (data : Step2) (response : ServerDhParams) (random : List.Vector UInt8 272) (clock : Int),
      Answered (step3 P overflowChecks data response random clock) ↔
        0 ≤ clock ∧ ¬ ShortAnswer data response ∧ (overflowChecks = true → ∀ dh, answerParams P data response = .ok dh →
          ¬ OffsetOverflows dh.serverTime (secondsOf clock))) ∧
    (∀ (s3 : Step3) (answer : SetClientDhParamsAnswer) (retryId : Int64) (dh : DhParamsForRetry) (n sn : Int128)
      (nn : Int256) (random : List.Vector UInt8 272) (clock : Int), Reached P overflowChecks s3 →
      finish P s3 answer = .ok (.retry retryId dh n sn nn) →
      (Answered (retryStep3 P overflowChecks dh n sn nn retryId random clock) ↔
        0 ≤ clock ∧ (overflowChecks = true → ¬ OffsetOverflows dh.serverTime (secondsOf clock)))) ∧
    ∀ (s3 : Step3) (answer : SetClientDhParamsAnswer), Answered (finish P s3 answer) := by
  refine ⟨fun _ _ _ _ _ _ => step2_returns_iff, fun _ _ _ _ => step3_answers_iff _ _ _ _ _, ?_, finish_answers⟩
  intro s3 answer retryId dh n sn nn random clock hreached hfinish
  refine retryStep3_answers_iff ?_ n sn nn retryId random clock
  rw [finish_retry hfinish]
  exact hreached.dhPrime

/-- A server that asks for another attempt is answered, unless the clock was set back before 1970. -/
theorem plain_handshake_answers :
    ∃ (s3 : Step3) (answer : SetClientDhParamsAnswer) (retryId : Int64), Reached plainPrimitives false s3 ∧
      finish plainPrimitives s3 answer = .ok (.retry retryId s3.dhParams s3.nonce s3.serverNonce s3.newNonce) ∧
      Answered (retryStep3 plainPrimitives false s3.dhParams s3.nonce s3.serverNonce s3.newNonce retryId plainRandom 0) ∧
      ¬ Answered (retryStep3 plainPrimitives false s3.dhParams s3.nonce s3.serverNonce s3.newNonce retryId plainRandom
        (-1)) := by
  obtain ⟨result, hresult⟩ := ok_of_isOk (x := step3 plainPrimitives false
    { nonce := List.Vector.replicate 16 1, serverNonce := plainServer.serverNonce
      newNonce := newNonceOf (List.Vector.replicate 256 9) }
    (plainServer.dhParams plainPrimitives (List.Vector.replicate 16 1) (newNonceOf (List.Vector.replicate 256 9)))
    plainRandom 0 >>= fun r => finish plainPrimitives r.2
      (.dhGenRetry (List.Vector.replicate 16 1) plainServer.serverNonce (List.Vector.replicate 16 0)))
    (by decide +kernel)
  obtain ⟨⟨req, s3⟩, hstep, hfinish⟩ := bind_eq_ok hresult
  obtain ⟨-, ⟨hnum, -⟩ | ⟨-, retryId, rfl⟩⟩ := finish_ok (checked_ok.mp hfinish)
  · exact absurd hnum (by decide)
  · obtain ⟨-, -, hretry, -⟩ := handshake_answers_iff plainPrimitives false
    refine ⟨s3, _, retryId, .first hstep, hfinish, ?_, fun h => ?_⟩
    · exact (hretry s3 _ retryId _ _ _ _ plainRandom 0 (.first hstep) hfinish).mpr ⟨by decide, nofun⟩
    · have hclock := ((hretry s3 _ retryId _ _ _ _ plainRandom (-1) (.first hstep) hfinish).mp h).1
      exact absurd hclock (by decide)

/-- Three as `pq`, and no bytes where the hash should be. -/
theorem tiny_pq_hangs :
    ¬ Returns (fun fuel => doStep2Inner plainPrimitives fuel (step1 (List.Vector.replicate 16 1))
      { nonce := List.Vector.replicate 16 1, serverNonce := List.Vector.replicate 16 7, pq := be 8 3
        serverPublicKeyFingerprints := knownFingerprints } (List.Vector.replicate 256 9) 2 none false) ∧
    ¬ Answered (step3 plainPrimitives false
      { nonce := List.Vector.replicate 16 1, serverNonce := List.Vector.replicate 16 7
        newNonce := List.Vector.replicate 32 9 }
      (.ok (List.Vector.replicate 16 1) (List.Vector.replicate 16 7) []) plainRandom 0) := by
  refine ⟨?_, ?_⟩
  · rw [step2_returns_iff]
    intro h
    have hthree : ofBe (be 8 3) = 3 := by decide
    have hnotTiny := (h rfl (be_length 8 3)).notTiny
    rw [hthree] at hnotTiny
    exact absurd (hnotTiny rfl) (by decide)
  · rw [step3_answers_iff]
    rintro ⟨-, hlong, -⟩
    exact hlong ⟨[], rfl, rfl, by decide⟩

end Ferogram.Mtproto.Handshake
