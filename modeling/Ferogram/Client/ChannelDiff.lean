import Ferogram.Msgbox.Resume
import Ferogram.Client.PeerCache
import Ferogram.Client.RpcCall

/- One channel's turn in the loop of `Client::run_pending_differences`: the request that the
   box has, the access hash of the channel put into it (`prepare`), and what becomes of the
   answer (`settle`).

   Between the request and its answer other tasks have the box and the peer cache, so `settle`
   starts from any box in which the channel is marked and queued, and every answer of
   `fetch_by_id_rpc` comes with the cache as it then is. How an answer's bytes are read is a
   parameter.

   Two of the promises of the loop are broken. A private channel is not dropped, because
   `rpc_call_raw_ex` has taken the name off the error before the loop looks at it
   (`error_by_name_iff`). And a hash that has just been fetched is written over with the zero
   read before it (`hash_usable_iff`). -/
namespace Ferogram.Client
open Msgbox MessageBoxes Mtsender
open Tl (GetChannelDifference ChannelDifference)
open Peers (PeerCache)

/-! The request. -/

/-- An answer, and the cache when it comes. -/
structure Fetched (α : Type) where
  answer : Except InvocationError α
  cache : PeerCache

/-- The answers of `fetch_by_id_rpc` for a channel: the chats of `channels.getChannels`, or the
error of the call or of reading it, and the users and chats of `messages.getPeerDialogs`, if they
can be read. -/
structure ChannelFetch where
  channels : Fetched (List Peers.Chat)
  dialogs : Fetched (Option (List Peers.User × List Peers.Chat))

def isEmptyChat : Peers.Chat → Bool
  | .empty _ => true
  | _ => false

/-- `fetch_by_id_rpc` for a channel, and the cache it leaves. -/
def fetchByIdRpc (f : ChannelFetch) : Except InvocationError Unit × PeerCache :=
  match f.channels.answer with
  | .error e => (.error e, f.channels.cache)
  | .ok chats =>
    let nonEmpty := chats.filter fun ch => !isEmptyChat ch
    if nonEmpty ≠ [] then (.ok (), nonEmpty.foldl PeerCache.cacheChat f.channels.cache)
    else
      match f.dialogs.answer with
      | .error e => (.error e, f.dialogs.cache)
      | .ok none => (.ok (), f.dialogs.cache)
      | .ok (some (users, chats)) =>
        (.ok (), chats.foldl PeerCache.cacheChat (users.foldl PeerCache.cacheUser f.dialogs.cache))

/-- What a turn finds outside the box. -/
structure Surroundings where
  cache : PeerCache
  autoResolvePeers : Bool
  fetch : ChannelFetch
  isBot : Bool

/-- The hash that the cache has for a channel, zero if there is none. -/
def cachedHash (cache : PeerCache) (channelId : Int) : Int64 :=
  ((cache.channels.lookup (.ofInt channelId)).map Prod.fst).getD 0

/-- `req.channel = InputChannel { .. }`. -/
def setChannel (req : GetChannelDifference) (channelId : Int) (accessHash : Int64) : GetChannelDifference :=
  { req with channelId := channelId, accessHash := accessHash.toInt }

/-- The request that is sent, unless the difference is put off. -/
def prepare (w : Surroundings) (channelId : Int) (req : GetChannelDifference) : Option GetChannelDifference :=
  let accessHash := cachedHash w.cache channelId
  let resolved : Option GetChannelDifference :=
    if accessHash = 0 then
      if w.autoResolvePeers then
        match fetchByIdRpc w.fetch with
        | (.ok (), cache) =>
          let h := cachedHash cache channelId
          if h ≠ 0 then some (setChannel req channelId h) else none
        | (.error _, _) => none
      else none
    else some req
  resolved.map fun req =>
    -- also where the hash has just been fetched
    { setChannel req channelId accessHash with limit := if w.isBot then 100000 else 100 }

inductive ChannelTurn where
  | nothing
  | deferred (reason : PrematureEndReason)
  | sent (channelId : Int) (req : GetChannelDifference)
  deriving DecidableEq

/-- The turn up to the request. -/
def beginTurn (dbg : Bool) (now : Instant) (w : Surroundings) : BoxCall ChannelTurn := do
  match ← MessageBoxes.getChannelDifference with
  | none => pure .nothing
  | some (channelId, req) =>
    match prepare w channelId req with
    | some req => pure (.sent channelId req)
    | none =>
      endChannelDifference dbg now .temporaryServerIssues
      pure (.deferred .temporaryServerIssues)

/-! The answer. -/

/-- The end of a turn: the reason for which the difference was given up on, what goes out and
into the peer cache, and whether the loop is left. -/
structure Settled where
  ended : Option PrematureEndReason
  result : UpdateAndPeers
  leaves : Bool

def isIo : InvocationError → Bool
  | .io _ => true
  | _ => false

def hasCode (code : Int32) : InvocationError → Bool
  | .rpc r => r.code = code
  | _ => false

/-- The error arms: the reason, and whether the loop is left. -/
def errorArm (e : InvocationError) : PrematureEndReason × Bool :=
  if e.is "PERSISTENT_TIMESTAMP_OUTDATED" then (.temporaryServerIssues, false)
  else if e.is "PERSISTENT_TIMESTAMP_INVALID" then (.temporaryServerIssues, false)
  else if e.is "CHANNEL_PRIVATE" then (.banned, false)
  else if hasCode 500 e then (.temporaryServerIssues, false)
  else (.temporaryServerIssues, isIo e || hasCode 401 e)

/-- The rest of a turn, from the answer of `rpc_call_raw`. -/
def settle (dbg : Bool) (now : Instant) (deserialize : List UInt8 → Option ChannelDifference)
    (answer : Except InvocationError (List UInt8)) : BoxCall Settled :=
  match answer with
  | .ok raw =>
    match deserialize raw with
    | some diff => do
      let result ← applyChannelDifference dbg now diff
      pure { ended := none, result := result, leaves := false }
    | none => do
      -- a stale counter would ask for the same difference again
      endChannelDifference dbg now .banned
      pure { ended := some .banned, result := ([], [], []), leaves := false }
  | .error e => do
    endChannelDifference dbg now (errorArm e).1
    pure { ended := some (errorArm e).1, result := ([], [], []), leaves := (errorArm e).2 }

/-! What is promised. -/

/-- The cache when the request goes out. -/
def cacheAtSend (w : Surroundings) (channelId : Int) : PeerCache :=
  if cachedHash w.cache channelId = 0 ∧ w.autoResolvePeers then (fetchByIdRpc w.fetch).2 else w.cache

/-- A request that goes out has the channel and the hash that the cache has for it, which is not
zero; where none does, the difference is given up on for now. -/
def HashUsable (dbg : Bool) (now : Instant) (s : MessageBoxes) (w : Surroundings) (channelId : Int) : Prop :=
  match (beginTurn dbg now w).run s with
  | (.ok (.sent _ req), _) =>
    req.channelId = channelId ∧ req.accessHash = (cachedHash (cacheAtSend w channelId) channelId).toInt ∧
      req.accessHash ≠ 0
  | (.ok turn, s') =>
    turn = .deferred .temporaryServerIssues ∧
      s' = channelEnded { s with channelDiffInFlight := some channelId } now channelId .temporaryServerIssues
  | (.error _, _) => False

/-- The hash has to be fetched, and is. -/
def Refetched (w : Surroundings) (channelId : Int) : Prop :=
  cachedHash w.cache channelId = 0 ∧ w.autoResolvePeers = true ∧ (fetchByIdRpc w.fetch).1 = .ok () ∧
    cachedHash (fetchByIdRpc w.fetch).2 channelId ≠ 0

/-- A private channel is dropped; any other error leaves the channel and its counter. -/
def ErrorByName (s : MessageBoxes) (channelId : Int) (r : RpcError) (done : Except Panic Settled × MessageBoxes) : Prop :=
  ∃ settled, done.1 = .ok settled ∧
    if r.name = "CHANNEL_PRIVATE" then settled.ended = some .banned ∧ done.2.entry (.channel channelId) = none
    else settled.ended = some .temporaryServerIssues ∧
      ∃ pts, channelPts s channelId = some pts ∧ channelPts done.2 channelId = some pts

/-! The request that goes out. -/

section Request
variable {dbg : Bool} {now : Instant} {s : MessageBoxes} {w : Surroundings} {channelId : Int}

/-- A turn for a channel sends what `prepare` makes of the box's request, or ends. -/
theorem beginTurn_run (h : RepInv s) (hn : s.nextChannel = some channelId) :
    ∃ req, (beginTurn dbg now w).run s =
      match prepare w channelId req with
      | some req => (.ok (.sent channelId req), { s with channelDiffInFlight := some channelId })
      | none =>
        (.ok (.deferred .temporaryServerIssues),
          channelEnded { s with channelDiffInFlight := some channelId } now channelId .temporaryServerIssues) := by
  obtain ⟨e, -, hreq⟩ := getChannelDifference_some h hn
  refine ⟨channelRequest channelId e.pts, ?_⟩
  have hmark : RepInv { s with channelDiffInFlight := some channelId } := h.congr rfl rfl
  have hq : .channel channelId ∈ s.gettingDiffFor := nextChannel_queued hn
  have hend := endChannelDifference_run dbg now hmark rfl hq .temporaryServerIssues
  simp only [beginTurn, Call.bind_run, hreq]
  cases prepare w channelId (channelRequest channelId e.pts) with
  | some req => rfl
  | none => simp only [Call.bind_run, hend, Call.pure_run]

/-- What is sent has the hash that was read first. -/
theorem prepare_some {req req' : GetChannelDifference} (h : prepare w channelId req = some req') :
    req'.channelId = channelId ∧ req'.accessHash = (cachedHash w.cache channelId).toInt ∧
      (cachedHash w.cache channelId = 0 → Refetched w channelId) := by
  obtain ⟨req₁, hres, rfl⟩ := Option.map_eq_some_iff.mp h
  refine ⟨rfl, rfl, fun hzero => ?_⟩
  rw [if_pos hzero] at hres
  split at hres
  · next hauto =>
    split at hres
    · next cache hfetch =>
      dsimp only at hres
      split at hres
      · next hne =>
        rw [← show (fetchByIdRpc w.fetch).2 = cache by rw [hfetch]] at hne
        exact ⟨hzero, hauto, by rw [hfetch], hne⟩
      · cases hres
    · cases hres
  · cases hres

theorem prepare_none {req : GetChannelDifference} (h : prepare w channelId req = none) :
    ¬ Refetched w channelId := by
  rintro ⟨hzero, hauto, hok, hne⟩
  have hres := Option.map_eq_none_iff.mp h
  have hfetch : fetchByIdRpc w.fetch = (.ok (), (fetchByIdRpc w.fetch).2) := Prod.ext hok rfl
  rw [if_pos hzero, if_pos hauto, hfetch] at hres
  dsimp only at hres
  rw [if_pos hne] at hres
  cases hres

end Request

/-- Channel 5 is queued, at counter 10. -/
def oneQueued : Start :=
  .load 0 { pts := 0, qts := 0, date := 1, seq := 1, channels := [⟨5, 10⟩] }

theorem oneQueued_distinct : oneQueued.DistinctChannels := by
  show ([5] : List Int).Nodup
  decide

theorem oneQueued_reachable (dbg : Bool) : Reachable dbg oneQueued.box := ⟨oneQueued, [], oneQueued_distinct, trivial, rfl⟩

/-- Nobody has channel 5 in the cache; the server has it, with hash 77. -/
def uncached (autoResolvePeers : Bool) : Surroundings :=
  { cache := .new false, autoResolvePeers := autoResolvePeers, isBot := false
    fetch :=
      { channels := { answer := .ok [.channel ⟨5, some 77, false, false, false⟩], cache := .new false }
        dialogs := { answer := .error .dropped, cache := .new false } } }

/-- The request has a usable hash, or is put off, exactly where the hash did not have to be
fetched or could not be. -/
theorem hash_usable_iff (dbg : Bool) (now : Instant) (s : MessageBoxes) (h : Reachable dbg s) (channelId : Int)
    (hn : s.nextChannel = some channelId) (w : Surroundings) :
    HashUsable dbg now s w channelId ↔ ¬ Refetched w channelId := by
  obtain ⟨req, hrun⟩ : ∃ req, (beginTurn dbg now w).run s = _ := beginTurn_run h.repInv hn
  unfold HashUsable
  rw [hrun]
  cases hp : prepare w channelId req with
  | none => exact iff_of_true ⟨rfl, rfl⟩ (prepare_none hp)
  | some req' =>
    obtain ⟨hid, hash, hzero⟩ := prepare_some hp
    dsimp only
    rw [hash]
    constructor
    · rintro ⟨-, -, hne⟩ hre
      rw [hre.1] at hne
      exact hne rfl
    · intro hre
      have hne : cachedHash w.cache channelId ≠ 0 := fun hz => hre (hzero hz)
      refine ⟨hid, ?_, fun hz => hne (Int64.toInt_inj.mp hz)⟩
      unfold cacheAtSend
      rw [if_neg (fun hc => hne hc.1)]

theorem hash_unresolved : HashUsable true 0 oneQueued.box (uncached false) 5 := by
  refine (hash_usable_iff true 0 oneQueued.box (oneQueued_reachable true) 5 (by decide) (uncached false)).mpr ?_
  rintro ⟨-, hauto, -⟩
  cases hauto

/-- The hash is fetched, and the request goes out with zero. -/
theorem hash_overwritten :
    ¬ ∀ (dbg : Bool) (now : Instant) (s : MessageBoxes), Reachable dbg s → ∀ channelId,
      s.nextChannel = some channelId → ∀ w, HashUsable dbg now s w channelId := by
  intro h
  have husable := h true 0 oneQueued.box (oneQueued_reachable true) 5 (by decide) (uncached true)
  have hrun : ((beginTurn true 0 (uncached true)).run oneQueued.box).1 =
      .ok (.sent 5 { force := false, channelId := 5, accessHash := 0, filter := .empty, pts := 10, limit := 100 }) := rfl
  unfold HashUsable at husable
  rcases hturn : (beginTurn true 0 (uncached true)).run oneQueued.box with ⟨turn, s'⟩
  rw [hturn] at husable hrun
  obtain rfl : turn = _ := hrun
  exact husable.2.2 rfl

/-! An error. -/

theorem is_outdated (r : RpcError) :
    r.is "PERSISTENT_TIMESTAMP_OUTDATED" = decide (r.name = "PERSISTENT_TIMESTAMP_OUTDATED") :=
  r.is_plain (by decide) (by decide)

theorem is_invalid (r : RpcError) :
    r.is "PERSISTENT_TIMESTAMP_INVALID" = decide (r.name = "PERSISTENT_TIMESTAMP_INVALID") :=
  r.is_plain (by decide) (by decide)

theorem is_private (r : RpcError) : r.is "CHANNEL_PRIVATE" = decide (r.name = "CHANNEL_PRIVATE") :=
  r.is_plain (by decide) (by decide)

/-- The name of a private channel comes through only with the code of a lost authorization. -/
theorem surfaced_private (r : RpcError) :
    (surfaced r).is "CHANNEL_PRIVATE" = true ↔ r.name = "CHANNEL_PRIVATE" ∧ r.code = 401 := by
  unfold surfaced
  by_cases hstale : r.code ≠ 401 ∧ r.name ∈ staleHashNames
  · rw [if_pos hstale]
    exact iff_of_false Bool.false_ne_true (fun hr => hstale.1 hr.2)
  · rw [if_neg hstale, InvocationError.is, is_private, decide_eq_true_eq]
    refine ⟨fun hname => ⟨hname, ?_⟩, And.left⟩
    by_contra hcode
    refine hstale ⟨hcode, ?_⟩
    rw [hname]
    decide

/-- The only error for which the channel is dropped. -/
theorem errorArm_fst (e : InvocationError) :
    (errorArm e).1 = if e.is "CHANNEL_PRIVATE" then .banned else .temporaryServerIssues := by
  cases e with
  | rpc r =>
    unfold errorArm
    simp only [InvocationError.is, is_outdated, is_invalid, is_private, decide_eq_true_eq]
    by_cases hout : r.name = "PERSISTENT_TIMESTAMP_OUTDATED"
    · rw [if_pos hout, if_neg (by rw [hout]; decide)]
    · rw [if_neg hout]
      by_cases hinv : r.name = "PERSISTENT_TIMESTAMP_INVALID"
      · rw [if_pos hinv, if_neg (by rw [hinv]; decide)]
      · rw [if_neg hinv]
        by_cases hpriv : r.name = "CHANNEL_PRIVATE"
        · rw [if_pos hpriv, if_pos hpriv]
        · rw [if_neg hpriv, if_neg hpriv]
          split <;> rfl
  | _ => rfl

/-- A private channel is never a redirect. -/
theorem migrateDcId_private {r : RpcError} (h : r.name = "CHANNEL_PRIVATE") : r.migrateDcId = none := by
  unfold RpcError.migrateDcId
  rw [h]
  split
  · rfl
  · rw [if_neg (by decide)]

section Error
variable {s : MessageBoxes} {channelId : Int}

/-- Giving up because of an error: the name that has come through decides. -/
theorem errorByName_settle (dbg : Bool) (now : Instant) (deserialize : List UInt8 → Option ChannelDifference)
    (h : RepInv s) (hin : s.channelDiffInFlight = some channelId) (hq : .channel channelId ∈ s.gettingDiffFor)
    (r : RpcError) (e : InvocationError) :
    ErrorByName s channelId r ((settle dbg now deserialize (.error e)).run s) ↔
      (r.name = "CHANNEL_PRIVATE" ↔ e.is "CHANNEL_PRIVATE" = true) := by
  have hrun : (settle dbg now deserialize (.error e)).run s =
      (.ok { ended := some (errorArm e).1, result := ([], [], []), leaves := (errorArm e).2 },
        channelEnded s now channelId (errorArm e).1) := by
    simp only [settle, Call.bind_run, endChannelDifference_run dbg now h hin hq, Call.pure_run]
  have hpts := channelEnded_pts h now channelId channelId (errorArm e).1
  rw [hrun]
  unfold ErrorByName
  rw [errorArm_fst] at hpts ⊢
  by_cases hr : r.name = "CHANNEL_PRIVATE"
  · simp only [if_pos hr]
    by_cases he : e.is "CHANNEL_PRIVATE" = true
    · rw [if_pos he, if_pos ⟨rfl, rfl⟩] at hpts
      rw [if_pos he]
      exact iff_of_true ⟨_, rfl, rfl, Option.map_eq_none_iff.mp hpts⟩ (iff_of_true hr he)
    · rw [if_neg he]
      refine iff_of_false ?_ (fun hiff => he (hiff.mp hr))
      rintro ⟨_, hs, hended, -⟩
      obtain rfl := Except.ok.inj hs
      cases hended
  · simp only [if_neg hr]
    by_cases he : e.is "CHANNEL_PRIVATE" = true
    · rw [if_pos he]
      refine iff_of_false ?_ (fun hiff => hr (hiff.mpr he))
      rintro ⟨_, hs, hended, -⟩
      obtain rfl := Except.ok.inj hs
      cases hended
    · rw [if_neg he, if_neg (by simp)] at hpts
      rw [if_neg he]
      obtain ⟨entry, hentry, -⟩ := h.backed _ hq
      have hsome : channelPts s channelId = some entry.pts := by
        unfold channelPts
        rw [hentry]
        rfl
      exact iff_of_true ⟨_, rfl, rfl, entry.pts, hsome, hpts.trans hsome⟩ (iff_of_false hr he)

end Error

/-- An error that ends the request is told by its name exactly where a private channel comes with
the code of a lost authorization, and no migration fails because of a private channel. -/
theorem error_by_name_iff (dbg : Bool) (now : Instant) (s : MessageBoxes) (h : Reachable dbg s) (channelId : Int)
    (hin : s.channelDiffInFlight = some channelId) (hq : .channel channelId ∈ s.gettingDiffFor)
    (deserialize : List UInt8 → Option ChannelDifference) (attempts : List Attempt) (a : Attempt) (r : RpcError)
    (hlast : lastAttempt .new attempts = some a) (hr : a.answer = .error (.rpc r)) :
    (∃ answer, rpcCallRaw .new attempts = some answer ∧
      ErrorByName s channelId r ((settle dbg now deserialize answer).run s)) ↔
    (r.name = "CHANNEL_PRIVATE" → r.code = 401) ∧
      (r.migrateDcId.isSome → ∀ e, a.migrated = .error e → e.is "CHANNEL_PRIVATE" = false) := by
  obtain ⟨e, hcall, he⟩ := rpcCallRaw_refused hlast hr
  have hiff : (∃ answer, rpcCallRaw .new attempts = some answer ∧
      ErrorByName s channelId r ((settle dbg now deserialize answer).run s)) ↔
      (r.name = "CHANNEL_PRIVATE" ↔ e.is "CHANNEL_PRIVATE" = true) := by
    rw [← errorByName_settle dbg now deserialize h.repInv hin hq r e]
    constructor
    · rintro ⟨answer, hanswer, hnamed⟩
      obtain rfl := Option.some.inj (hcall.symm.trans hanswer)
      exact hnamed
    · exact fun hnamed => ⟨_, hcall, hnamed⟩
  rw [hiff]
  by_cases hm : r.migrateDcId.isSome = true
  · rw [if_pos hm] at he
    have hname : r.name ≠ "CHANNEL_PRIVATE" := by
      intro hname
      rw [migrateDcId_private hname] at hm
      cases hm
    simp [hname, hm, he]
  · rw [if_neg hm] at he
    subst he
    rw [surfaced_private]
    simp [hm]

/-- The server answers with `code` and `name`; nothing is tried again. -/
def answered (code : Int32) (name : String) : Attempt :=
  { answer := .error (.rpc ⟨code, name, none⟩), migrated := .ok (), shouldRetry := fun _ => none }

/-- The box of `oneQueued` once the request of channel 5 is out. -/
def requested : MessageBoxes := { oneQueued.box with channelDiffInFlight := some 5 }

theorem requested_reachable (dbg : Bool) : Reachable dbg requested :=
  ⟨oneQueued, [(0, .getChannelDifference)], oneQueued_distinct, ⟨trivial, trivial⟩, rfl⟩

theorem private_unauthorized :
    ∃ answer, rpcCallRaw .new [answered 401 "CHANNEL_PRIVATE"] = some answer ∧
      ErrorByName requested 5 ⟨401, "CHANNEL_PRIVATE", none⟩
        ((settle true 0 (fun _ => none) answer).run requested) := by
  refine (error_by_name_iff true 0 requested (requested_reachable true) 5 rfl (by decide) (fun _ => none)
    [answered 401 "CHANNEL_PRIVATE"] (answered 401 "CHANNEL_PRIVATE") ⟨401, "CHANNEL_PRIVATE", none⟩
    rfl rfl).mpr ⟨fun _ => rfl, ?_⟩
  intro hm
  rw [migrateDcId_private rfl] at hm
  cases hm

/-- The server says with code 400 that the channel is private; its entry stays. -/
theorem private_kept :
    ¬ ∀ (dbg : Bool) (now : Instant) (s : MessageBoxes), Reachable dbg s → ∀ channelId,
      s.channelDiffInFlight = some channelId → .channel channelId ∈ s.gettingDiffFor →
      ∀ (deserialize : List UInt8 → Option ChannelDifference) (attempts : List Attempt) (a : Attempt) (r : RpcError),
        lastAttempt .new attempts = some a → a.answer = .error (.rpc r) →
        ∃ answer, rpcCallRaw .new attempts = some answer ∧
          ErrorByName s channelId r ((settle dbg now deserialize answer).run s) := by
  intro h
  obtain ⟨answer, hanswer, hnamed⟩ := h true 0 requested (requested_reachable true) 5 rfl (by decide) (fun _ => none)
    [answered 400 "CHANNEL_PRIVATE"] (answered 400 "CHANNEL_PRIVATE") ⟨400, "CHANNEL_PRIVATE", none⟩ rfl rfl
  obtain rfl : answer = .error .staleHash := (Option.some.inj hanswer).symm
  have hq : .channel 5 ∈ requested.gettingDiffFor := by decide
  have hiff := (errorByName_settle true 0 (fun _ => none) (requested_reachable true).repInv rfl hq
    ⟨400, "CHANNEL_PRIVATE", none⟩ .staleHash).mp hnamed
  exact Bool.false_ne_true (hiff.mp rfl)

end Ferogram.Client
