import Ferogram.Lib.Crew
import Ferogram.Lib.Json

/- The resolver of domains over HTTPS (`ferogram/src/dns_resolver.rs`): its cache, and any
   number of calls that share it.

   A call looks in the cache under the lock, asks both providers and takes what comes first,
   asks both again if that is nothing, and writes the cache under the lock; between two of
   these steps others may come. What the providers send is an input of a step, and so is the
   time since the step before it, in milliseconds. JSON is another crate's.

   A `Stored` is an answer that has been put into the cache; the list of them is for the
   statements only. What is proved: a call returns nothing, or all of one answer to its own
   question that has not run out, and for ten seconds after an answer nobody is asked again
   (`resolved_fresh`). -/
namespace Ferogram.Dns

/-- `TTL_MIN` and `TTL_MAX`, in seconds. -/
def ttlMin : Nat := 10
def ttlMax : Nat := 300

/-- A domain, and whether for IPv6. -/
abbrev Key : Type := String × Bool

structure CacheEntry where
  ips : List String
  expiresAt : Nat
  deriving DecidableEq

structure DnsEntry where
  data : String
  ttl : Nat
  deriving DecidableEq

inductive DohError where
  | http (text : String)
  | parse (text : String)
  deriving DecidableEq

/-- An item of the answer: one of another type, or without data, is passed over. -/
def readItem (typeFilter : Option Nat) (item : Json) : Option DnsEntry :=
  let other : Bool :=
    match typeFilter, (item.get "type").bind Json.asU64 with
    | some expected, some t => t ≠ expected
    | _, _ => false
  if other then none
  else
    match (item.get "data").bind Json.asStr with
    | some data => some { data := data, ttl := ((item.get "TTL").bind Json.asU64).getD ttlMin }
    | none => none

section
variable (fromSlice : List UInt8 → Except String Json)

def parseDohJson (bytes : List UInt8) (typeFilter : Option Nat) : Except DohError (List DnsEntry) :=
  if bytes.isEmpty then .error (.parse "empty response")
  else
    match fromSlice bytes with
    | .error e => .error (.parse ("JSON: " ++ e))
    | .ok value =>
      match value.get "Answer" with
      | none => .ok []
      | some answer =>
        match answer.asArray with
        | none => .error (.parse "Answer not an array")
        | some items => .ok (items.filterMap (readItem typeFilter))

/-- AAAA or A. -/
def rrtype (ipv6 : Bool) : Nat := if ipv6 then 28 else 1

/-- `query_google` and `query_mozilla`, by what has been sent. -/
def query (key : Key) (resp : Except String (List UInt8)) : Except DohError (List DnsEntry) :=
  match resp with
  | .error e => .error (.http e)
  | .ok bytes => parseDohJson fromSlice bytes (some (rrtype key.2))

end

/-- The least TTL, within the bounds. -/
def ttlOf (entries : List DnsEntry) : Nat := min (max ((entries.map DnsEntry.ttl).min?.getD ttlMin) ttlMin) ttlMax

/-! The calls. -/

inductive Phase where
  | called
  | asking
  | retrying
  /-- The lock is waited for, with what was sent and when. -/
  | storing (resp : List UInt8) (entries : List DnsEntry) (answeredAt : Nat)
  | returned (ips : List String) (time : Nat)
  deriving DecidableEq

/-- A call of `resolve_type`. -/
structure Call where
  key : Key
  phase : Phase
  deriving DecidableEq

/-- An answer that has been put into the cache. -/
structure Stored where
  key : Key
  resp : List UInt8
  entries : List DnsEntry
  answeredAt : Nat
  storedAt : Nat

structure Resolver where
  now : Nat
  cache : Key → Option CacheEntry
  stored : List Stored

/-- What comes with a step: the time since the last one, what was sent first, and what the two
send when they are asked again. -/
structure Ready where
  elapsed : Nat
  first : Except String (List UInt8)
  google : Except String (List UInt8)
  mozilla : Except String (List UInt8)

section
variable (fromSlice : List UInt8 → Except String Json)

/-- An answer with anything in it. -/
def answer (key : Key) (resp : Except String (List UInt8)) (now : Nat) : Option Phase :=
  match resp, query fromSlice key resp with
  | .ok bytes, .ok entries => if entries ≠ [] then some (.storing bytes entries now) else none
  | _, _ => none

def put (r : Resolver) (key : Key) (entry : CacheEntry) : Key → Option CacheEntry :=
  fun k => if k = key then some entry else r.cache k

def step (r : Resolver) (call : Call) (ready : Ready) : Resolver × Call :=
  let r := { r with now := r.now + ready.elapsed }
  match call.phase with
  | .called =>
    match r.cache call.key with
    | some entry =>
      if r.now < entry.expiresAt then (r, { call with phase := .returned entry.ips r.now })
      else (r, { call with phase := .asking })
    | none => (r, { call with phase := .asking })
  | .asking => (r, { call with phase := (answer fromSlice call.key ready.first r.now).getD .retrying })
  | .retrying =>
    let found := (answer fromSlice call.key ready.google r.now).or (answer fromSlice call.key ready.mozilla r.now)
    (r, { call with phase := found.getD (.returned [] r.now) })
  | .storing resp entries answeredAt =>
    let ips := entries.map DnsEntry.data
    let entry := { ips := ips, expiresAt := r.now + 1000 * ttlOf entries }
    ({ r with
        cache := put r call.key entry
        stored := r.stored ++ [⟨call.key, resp, entries, answeredAt, r.now⟩] },
      { call with phase := .returned ips r.now })
  | .returned .. => (r, call)

def next : Crew Resolver Call → Nat × Ready → Crew Resolver Call := Crew.next (step fromSlice)

/-- A new resolver, and the calls that will be made. -/
def start (keys : List Key) : Crew Resolver Call where
  shared := { now := 0, cache := fun _ => none, stored := [] }
  workers := keys.map fun key => { key := key, phase := .called }

def crewAfter (keys : List Key) (is : List (Nat × Ready)) : Crew Resolver Call := Run.final (next fromSlice) (start keys) is

end

/-! What is kept. -/

section
variable (fromSlice : List UInt8 → Except String Json)

/-- What was sent is an answer to the question, with something in it. -/
def Answers (key : Key) (resp : List UInt8) (entries : List DnsEntry) : Prop :=
  parseDohJson fromSlice resp (some (rrtype key.2)) = .ok entries ∧ entries ≠ []

/-- The addresses are all of the answer `x` to the key, at a time at which it has not run out. -/
structure Gives (x : Stored) (key : Key) (ips : List String) (time : Nat) : Prop where
  asked : x.key = key
  answers : Answers fromSlice x.key x.resp x.entries
  ips : ips = x.entries.map DnsEntry.data
  waited : x.answeredAt ≤ x.storedAt
  since : x.storedAt ≤ time
  live : time < x.storedAt + 1000 * ttlOf x.entries

/-- The cache holds answers that have been put there, and for ten seconds one no older. -/
structure Keeps (r : Resolver) : Prop where
  answered : ∀ x ∈ r.stored, Answers fromSlice x.key x.resp x.entries ∧ x.answeredAt ≤ x.storedAt ∧ x.storedAt ≤ r.now
  cached : ∀ key entry, r.cache key = some entry → ∃ x ∈ r.stored,
    x.key = key ∧ entry.ips = x.entries.map DnsEntry.data ∧ entry.expiresAt = x.storedAt + 1000 * ttlOf x.entries
  lasting : ∀ x ∈ r.stored, ∃ entry, r.cache x.key = some entry ∧ x.storedAt + 1000 * ttlMin ≤ entry.expiresAt

def CallOk (r : Resolver) (call : Call) : Prop :=
  match call.phase with
  | .storing resp entries answeredAt => Answers fromSlice call.key resp entries ∧ answeredAt ≤ r.now
  | .returned ips time => ips = [] ∨ ∃ x ∈ r.stored, Gives fromSlice x call.key ips time
  | _ => True

/-- A call that has returned addresses has returned all of one answer to its own question. -/
def Served (c : Crew Resolver Call) : Prop :=
  ∀ call ∈ c.workers, ∀ ips time, call.phase = .returned ips time →
    ips = [] ∨ ∃ x ∈ c.shared.stored, Gives fromSlice x call.key ips time

/-- A call that starts within ten seconds of an answer to its question returns addresses there and then. -/
def Spared (c : Crew Resolver Call) : Prop :=
  ∀ x ∈ c.shared.stored, ∀ i call, c.workers[i]? = some call → call.phase = .called → call.key = x.key →
    ∀ ready : Ready, c.shared.now + ready.elapsed < x.storedAt + 1000 * ttlMin →
      ∃ ips, ips ≠ [] ∧ (next fromSlice c (i, ready)).workers[i]? =
        some { call with phase := .returned ips (c.shared.now + ready.elapsed) }

def Ok (c : Crew Resolver Call) : Prop := Keeps fromSlice c.shared ∧ ∀ call ∈ c.workers, CallOk fromSlice c.shared call

variable {fromSlice}

theorem ttlMin_le (entries : List DnsEntry) : ttlMin ≤ ttlOf entries := by
  simp only [ttlOf, ttlMin, ttlMax]
  omega

theorem answer_some {key : Key} {resp : Except String (List UInt8)} {now : Nat} {phase : Phase}
    (h : answer fromSlice key resp now = some phase) :
    ∃ bytes entries, phase = .storing bytes entries now ∧ Answers fromSlice key bytes entries := by
  cases resp with
  | error e => cases h
  | ok bytes =>
    cases hquery : query fromSlice key (.ok bytes) with
    | error e =>
      simp only [answer, hquery] at h
      cases h
    | ok entries =>
      simp only [answer, hquery] at h
      split at h
      · next hne => exact ⟨bytes, entries, (Option.some.inj h).symm, hquery, hne⟩
      · cases h

/-- A call in the middle of its work, with an answer or without one. -/
theorem callOk_answer {r : Resolver} {call : Call} {found : Option Phase} {other : Phase}
    (hfound : ∀ phase, found = some phase →
      ∃ bytes entries, phase = .storing bytes entries r.now ∧ Answers fromSlice call.key bytes entries)
    (hother : CallOk fromSlice r { call with phase := other }) :
    CallOk fromSlice r { call with phase := found.getD other } := by
  cases found with
  | none => exact hother
  | some phase =>
    obtain ⟨bytes, entries, rfl, hanswers⟩ := hfound phase rfl
    exact ⟨hanswers, Nat.le_refl _⟩

/-- What others do. -/
theorem CallOk.mono {r r' : Resolver} {call : Call} (h : CallOk fromSlice r call) (hnow : r.now ≤ r'.now)
    (hstored : ∀ x ∈ r.stored, x ∈ r'.stored) : CallOk fromSlice r' call := by
  rw [CallOk] at h ⊢
  split
  · next hphase =>
    rw [hphase] at h
    exact ⟨h.1, Nat.le_trans h.2 hnow⟩
  · next hphase =>
    rw [hphase] at h
    refine h.imp_right fun hx => ?_
    obtain ⟨x, hmem, hgives⟩ := hx
    exact ⟨x, hstored x hmem, hgives⟩
  · trivial

theorem Keeps.wait {r : Resolver} (h : Keeps fromSlice r) (elapsed : Nat) :
    Keeps fromSlice { r with now := r.now + elapsed } where
  answered := by
    intro x hx
    obtain ⟨hanswers, hwaited, hnow⟩ := h.answered x hx
    exact ⟨hanswers, hwaited, Nat.le_trans hnow (Nat.le_add_right _ _)⟩
  cached := h.cached
  lasting := h.lasting

/-- An answer is put into the cache; one for the same key that was there is older. -/
theorem Keeps.store {r : Resolver} (h : Keeps fromSlice r) {x : Stored}
    (hanswers : Answers fromSlice x.key x.resp x.entries) (hwaited : x.answeredAt ≤ r.now) (hnow : x.storedAt = r.now) :
    Keeps fromSlice { r with
      cache := put r x.key { ips := x.entries.map DnsEntry.data, expiresAt := r.now + 1000 * ttlOf x.entries }
      stored := r.stored ++ [x] } where
  answered := by
    intro y hy
    rcases List.mem_append.mp hy with hold | hnew
    · exact h.answered y hold
    · obtain rfl := List.mem_singleton.mp hnew
      refine ⟨hanswers, hnow.symm ▸ hwaited, ?_⟩
      exact Nat.le_of_eq hnow
  cached := by
    intro key entry hentry
    simp only [put] at hentry
    split at hentry
    · next hkey =>
      obtain rfl := Option.some.inj hentry
      exact ⟨x, List.mem_append_right _ (List.mem_singleton.mpr rfl), hkey.symm, rfl, by simp only [hnow]⟩
    · obtain ⟨y, hy, hrest⟩ := h.cached key entry hentry
      exact ⟨y, List.mem_append_left _ hy, hrest⟩
  lasting := by
    intro y hy
    have hmin := ttlMin_le x.entries
    have hbefore : y.storedAt ≤ r.now := by
      rcases List.mem_append.mp hy with hold | hnew
      · exact (h.answered y hold).2.2
      · obtain rfl := List.mem_singleton.mp hnew
        omega
    by_cases hkey : y.key = x.key
    · refine ⟨{ ips := x.entries.map DnsEntry.data, expiresAt := r.now + 1000 * ttlOf x.entries }, ?_, ?_⟩
      · simp only [put, hkey, if_true]
      · simp only []
        omega
    · have hold : y ∈ r.stored := by
        rcases List.mem_append.mp hy with hold | hnew
        · exact hold
        · exact absurd (congrArg Stored.key (List.mem_singleton.mp hnew)) hkey
      obtain ⟨entry, hentry, hlasts⟩ := h.lasting y hold
      exact ⟨entry, by simp only [put, hkey, if_false, hentry], hlasts⟩

/-- What a call takes from the cache. -/
theorem Keeps.gives {r : Resolver} (h : Keeps fromSlice r) {key : Key} {entry : CacheEntry}
    (hentry : r.cache key = some entry) (hlive : r.now < entry.expiresAt) : ∃ x ∈ r.stored, Gives fromSlice x key entry.ips r.now := by
  obtain ⟨x, hx, rfl, hips, hexpires⟩ := h.cached key entry hentry
  obtain ⟨hanswers, hwaited, hsince⟩ := h.answered x hx
  exact ⟨x, hx, ⟨rfl, hanswers, hips, hwaited, hsince, by omega⟩⟩

/-- What a step does to the resolver and to the call that takes it. -/
theorem step_ok {r : Resolver} {call : Call} (ready : Ready) (hr : Keeps fromSlice r) (hcall : CallOk fromSlice r call) :
    Keeps fromSlice (step fromSlice r call ready).1 ∧
      CallOk fromSlice (step fromSlice r call ready).1 (step fromSlice r call ready).2 ∧
      r.now ≤ (step fromSlice r call ready).1.now ∧ ∀ x ∈ r.stored, x ∈ (step fromSlice r call ready).1.stored := by
  have hwait := hr.wait ready.elapsed
  have hlater : r.now ≤ r.now + ready.elapsed := Nat.le_add_right _ _
  obtain ⟨key, phase⟩ := call
  cases phase with
  | called =>
    cases hentry : r.cache key with
    | none =>
      simp only [step, hentry]
      exact ⟨hwait, trivial, hlater, fun _ hx => hx⟩
    | some entry =>
      simp only [step, hentry]
      split
      · next hlive => exact ⟨hwait, Or.inr (hwait.gives hentry hlive), hlater, fun _ hx => hx⟩
      · exact ⟨hwait, trivial, hlater, fun _ hx => hx⟩
  | asking =>
    refine ⟨hwait, ?_, hlater, fun _ hx => hx⟩
    exact @callOk_answer _ { r with now := r.now + ready.elapsed } ⟨key, .asking⟩ _ .retrying
      (fun _ h => answer_some h) trivial
  | retrying =>
    refine ⟨hwait, ?_, hlater, fun _ hx => hx⟩
    refine @callOk_answer _ { r with now := r.now + ready.elapsed } ⟨key, .retrying⟩ _ (.returned [] (r.now + ready.elapsed))
      (fun phase h => ?_) (Or.inl rfl)
    rcases Option.or_eq_some_iff.mp h with hgoogle | ⟨-, hmozilla⟩
    · exact answer_some hgoogle
    · exact answer_some hmozilla
  | storing resp entries answeredAt =>
    obtain ⟨hanswers, hbefore⟩ := hcall
    have hbefore : answeredAt ≤ r.now + ready.elapsed := Nat.le_trans hbefore hlater
    have hmin := ttlMin_le entries
    refine ⟨@Keeps.store _ _ hwait ⟨key, resp, entries, answeredAt, r.now + ready.elapsed⟩ hanswers hbefore rfl, ?_, hlater,
      fun x hx => List.mem_append_left _ hx⟩
    have hlive : r.now + ready.elapsed < r.now + ready.elapsed + 1000 * ttlOf entries := by
      simp only [ttlMin] at hmin
      omega
    refine Or.inr ⟨⟨key, resp, entries, answeredAt, r.now + ready.elapsed⟩, ?_, ?_⟩
    · exact List.mem_append_right _ (List.mem_singleton.mpr rfl)
    · exact ⟨rfl, hanswers, rfl, hbefore, Nat.le_refl _, hlive⟩
  | returned ips time =>
    exact ⟨hwait, hcall.mono hlater fun _ hx => hx, hlater, fun _ hx => hx⟩

theorem next_ok (c : Crew Resolver Call) (i : Nat × Ready) (h : Ok fromSlice c) : Ok fromSlice (next fromSlice c i) := by
  refine Crew.next_inv (step fromSlice) h fun call hi => ?_
  have hmem : call ∈ c.workers := List.mem_iff_getElem?.mpr ⟨i.1, hi⟩
  obtain ⟨hkeeps, hcall, hnow, hstored⟩ := step_ok i.2 h.1 (h.2 call hmem)
  exact ⟨hkeeps, Crew.forall_set (fun v hv => (h.2 v hv).mono hnow hstored) hcall⟩

theorem start_ok (keys : List Key) : Ok fromSlice (start keys) := by
  refine ⟨⟨nofun, nofun, nofun⟩, fun call hcall => ?_⟩
  obtain ⟨key, -, rfl⟩ := List.mem_map.mp hcall
  trivial

theorem Ok.served {c : Crew Resolver Call} (h : Ok fromSlice c) : Served fromSlice c := by
  intro call hcall ips time hphase
  have hcall := h.2 call hcall
  rw [CallOk, hphase] at hcall
  exact hcall

theorem Ok.spared {c : Crew Resolver Call} (h : Ok fromSlice c) : Spared fromSlice c := by
  intro x hx i call hi hphase hkey ready htime
  obtain ⟨key, phase⟩ := call
  obtain rfl : phase = .called := hphase
  obtain rfl : key = x.key := hkey
  obtain ⟨entry, hentry, hlasts⟩ := h.1.lasting x hx
  have hlive : c.shared.now + ready.elapsed < entry.expiresAt := by omega
  obtain ⟨y, -, hgives⟩ := (h.1.wait ready.elapsed).gives hentry hlive
  refine ⟨entry.ips, ?_, ?_⟩
  · rw [hgives.ips]
    exact fun hnil => hgives.answers.2 (List.map_eq_nil_iff.mp hnil)
  · obtain ⟨hlt, -⟩ := List.getElem?_eq_some_iff.mp hi
    rw [next, Crew.next_some (step fromSlice) hi]
    simp only [List.getElem?_set_self hlt, step, hentry, hlive, if_true]

end

/-- Whatever is asked, and whatever the providers send and when, in any interleaving: a call that has
returned addresses has returned all of one answer to its own question, before it ran out; and for ten
seconds after an answer to its own question is in the cache a call that starts asks nobody. -/
theorem resolved_fresh (fromSlice : List UInt8 → Except String Json) (keys : List Key) (is : List (Nat × Ready)) :
    Served fromSlice (crewAfter fromSlice keys is) ∧ Spared fromSlice (crewAfter fromSlice keys is) := by
  have hok : Ok fromSlice (crewAfter fromSlice keys is) :=
    Run.states_inv_all (next fromSlice) next_ok is (start keys) (start_ok keys) _ (Run.final_mem_states _ is _)
  exact ⟨hok.served, hok.spared⟩

end Ferogram.Dns
