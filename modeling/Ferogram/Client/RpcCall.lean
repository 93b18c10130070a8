import Ferogram.Mtsender.Sender

/- One call to the server, `rpc_call_raw_ex` of `client/mod.rs`, with `RetryLoop` of
   `ferogram-mtsender/src/retry.rs` and the names of `errors.rs`.

   The environment of a call is the list of its attempts: the answer to each, and what the
   client then does about it, a migration or the verdict of the retry policy.

   An error that ends a call reaches the caller as `surfaced` says, unless it is a redirect
   that could not be followed. -/
namespace Ferogram.Mtsender

namespace RpcError

/-- A pattern may have a `*` at its end or at its start. -/
def is (e : RpcError) (pattern : String) : Bool :=
  let p := pattern.toList
  if p.getLast? = some '*' then p.dropLast.isPrefixOf e.name.toList
  else if p.head? = some '*' then p.tail.isSuffixOf e.name.toList
  else e.name = pattern

def migrateDcId (e : RpcError) : Option Int32 :=
  if e.code ≠ 303 then none
  else if e.name = "PHONE_MIGRATE" ∨ e.name = "NETWORK_MIGRATE" ∨ e.name = "FILE_MIGRATE" ∨ e.name = "USER_MIGRATE" ∨
      "_MIGRATE".toList.isSuffixOf e.name.toList then
    some (e.value.getD 2).toInt32
  else none

end RpcError

namespace InvocationError

def is : InvocationError → String → Bool
  | .rpc e, pattern => e.is pattern
  | _, _ => false

def migrateDcId : InvocationError → Option Int32
  | .rpc e => e.migrateDcId
  | _ => none

end InvocationError

/-! The retry loop. -/

/-- What a policy sees; times are in milliseconds. -/
structure RetryContext where
  failCount : Nat
  sleptSoFar : Nat
  error : InvocationError
  deriving DecidableEq

/-- A policy as it stands when it is asked: the delay before the next attempt, if there is one. -/
abbrev RetryPolicy := RetryContext → Option Nat

namespace RetryContext

/-- `RetryLoop::new`. -/
def new : RetryContext := { failCount := 1, sleptSoFar := 0, error := .dropped }

/-- `RetryLoop::advance`. -/
def advance (ctx : RetryContext) (shouldRetry : RetryPolicy) (err : InvocationError) :
    Except InvocationError RetryContext :=
  match shouldRetry { ctx with error := err } with
  | some delay =>
    .ok { failCount := min (ctx.failCount + 1) (2 ^ 32 - 1), sleptSoFar := ctx.sleptSoFar + delay, error := err }
  | none => .error err

end RetryContext

/-! The call. -/

/-- The answer of `do_rpc_call`, the outcome of `migrate_to` if it is a redirect, and the policy. -/
structure Attempt where
  answer : Except InvocationError (List UInt8)
  migrated : Except InvocationError Unit
  shouldRetry : RetryPolicy

inductive AttemptEnd where
  | returned (result : Except InvocationError (List UInt8))
  | again (ctx : RetryContext)

/-- The names of errors that say a peer's access hash is no good. -/
def staleHashNames : List String :=
  ["PEER_ID_INVALID", "CHANNEL_INVALID", "USER_ID_INVALID", "CHANNEL_PRIVATE", "INPUT_USER_DEACTIVATED"]

/-- `RetryLoop::advance(e).await?`. -/
def retried (ctx : RetryContext) (a : Attempt) (e : InvocationError) : AttemptEnd :=
  match ctx.advance a.shouldRetry e with
  | .ok ctx => .again ctx
  | .error e => .returned (.error e)

/-- One turn of the loop of `rpc_call_raw_ex`. -/
def attempt (ctx : RetryContext) (a : Attempt) : AttemptEnd :=
  match a.answer with
  | .ok body => .returned (.ok body)
  | .error e =>
    if e.migrateDcId.isSome then
      match a.migrated with
      | .ok () => .again ctx
      | .error e => .returned (.error e)
    else
      match e with
      | .rpc r =>
        if r.code = 401 then .returned (.error (.rpc r))
        else if r.name ∈ staleHashNames then .returned (.error .staleHash)
        else retried ctx a e
      | _ => retried ctx a e

/-- The result of a call, once it has one. -/
def rpcCallRaw : RetryContext → List Attempt → Option (Except InvocationError (List UInt8))
  | _, [] => none
  | ctx, a :: rest =>
    match attempt ctx a with
    | .returned result => some result
    | .again ctx => rpcCallRaw ctx rest

/-- The attempt that ends the call. -/
def lastAttempt : RetryContext → List Attempt → Option Attempt
  | _, [] => none
  | ctx, a :: rest =>
    match attempt ctx a with
    | .returned _ => some a
    | .again ctx => lastAttempt ctx rest

/-! What the caller gets to see. -/

/-- A pattern without a star is a name. -/
theorem RpcError.is_plain (r : RpcError) {pattern : String} (hlast : pattern.toList.getLast? ≠ some '*')
    (head : pattern.toList.head? ≠ some '*') : r.is pattern = decide (r.name = pattern) := by
  unfold RpcError.is
  dsimp only
  rw [if_neg hlast, if_neg head]

/-- The error that the caller gets for one that ends the call. -/
def surfaced (r : RpcError) : InvocationError :=
  if r.code ≠ 401 ∧ r.name ∈ staleHashNames then .staleHash else .rpc r

theorem rpcCallRaw_last {attempts : List Attempt} {a : Attempt} :
    ∀ {ctx : RetryContext}, lastAttempt ctx attempts = some a →
      ∃ ctx' result, attempt ctx' a = .returned result ∧ rpcCallRaw ctx attempts = some result := by
  induction attempts with
  | nil => exact fun h => nomatch h
  | cons b rest ih =>
    intro ctx h
    unfold lastAttempt at h
    unfold rpcCallRaw
    cases hb : attempt ctx b with
    | returned result =>
      rw [hb] at h
      obtain rfl := Option.some.inj h
      exact ⟨ctx, result, hb, rfl⟩
    | again ctx' =>
      rw [hb] at h
      exact ih h

theorem retried_returned {ctx : RetryContext} {a : Attempt} {e : InvocationError}
    {result : Except InvocationError (List UInt8)} (h : retried ctx a e = .returned result) : result = .error e := by
  unfold retried RetryContext.advance at h
  cases hp : a.shouldRetry { ctx with error := e } with
  | some delay =>
    rw [hp] at h
    cases h
  | none =>
    rw [hp] at h
    exact (AttemptEnd.returned.inj h).symm

theorem attempt_rpc (ctx : RetryContext) {a : Attempt} {r : RpcError} (hr : a.answer = .error (.rpc r)) :
    attempt ctx a =
      if r.migrateDcId.isSome then
        match a.migrated with
        | .ok () => .again ctx
        | .error e => .returned (.error e)
      else if r.code = 401 then .returned (.error (.rpc r))
      else if r.name ∈ staleHashNames then .returned (.error .staleHash)
      else retried ctx a (.rpc r) := by
  unfold attempt
  rw [hr]
  rfl

/-- An error ends the call as a redirect that failed, or as `surfaced` says. -/
theorem attempt_refused {ctx : RetryContext} {a : Attempt} {r : RpcError}
    {result : Except InvocationError (List UInt8)} (hr : a.answer = .error (.rpc r))
    (h : attempt ctx a = .returned result) :
    if r.migrateDcId.isSome then ∃ e, a.migrated = .error e ∧ result = .error e else result = .error (surfaced r) := by
  rw [attempt_rpc ctx hr] at h
  by_cases hm : r.migrateDcId.isSome = true
  · rw [if_pos hm] at h ⊢
    cases hmig : a.migrated with
    | ok u =>
      rw [hmig] at h
      cases h
    | error e =>
      rw [hmig] at h
      exact ⟨e, rfl, (AttemptEnd.returned.inj h).symm⟩
  · rw [if_neg hm] at h ⊢
    unfold surfaced
    by_cases hcode : r.code = 401
    · rw [if_pos hcode] at h
      rw [if_neg (fun hc => hc.1 hcode)]
      exact (AttemptEnd.returned.inj h).symm
    · rw [if_neg hcode] at h
      by_cases hname : r.name ∈ staleHashNames
      · rw [if_pos hname] at h
        rw [if_pos ⟨hcode, hname⟩]
        exact (AttemptEnd.returned.inj h).symm
      · rw [if_neg hname] at h
        rw [if_neg (fun hc => hname hc.2)]
        exact retried_returned h

/-- The result of a call whose last answer is an error. -/
theorem rpcCallRaw_refused {attempts : List Attempt} {a : Attempt} {r : RpcError}
    (h : lastAttempt .new attempts = some a) (hr : a.answer = .error (.rpc r)) :
    ∃ e, rpcCallRaw .new attempts = some (.error e) ∧
      if r.migrateDcId.isSome then a.migrated = .error e else e = surfaced r := by
  obtain ⟨ctx, result, hresult, hcall⟩ := rpcCallRaw_last h
  have hend := attempt_refused hr hresult
  by_cases hm : r.migrateDcId.isSome = true
  · rw [if_pos hm] at hend
    obtain ⟨e, he, rfl⟩ := hend
    exact ⟨e, hcall, by rwa [if_pos hm]⟩
  · rw [if_neg hm] at hend
    obtain rfl := hend
    exact ⟨_, hcall, by rw [if_neg hm]⟩

end Ferogram.Mtsender
