import Mathlib.Data.List.TakeWhile
import Ferogram.Lib.Decimal

/- The text of IP and socket addresses, `1.2.3.4:443` or `[2001:db8::1%4]:443`.

   A reader takes characters off the front of a text. What it takes is made of characters of
   its own, and does not depend on a rest that starts with another one (`Local`); each reader
   is so because its parts are.

   What is proved: `parseSocketAddr_append`. In a text with a colon before its last part, that
   part is the port and the rest is the host. -/
namespace SocketText

abbrev Reader (α : Type) := StateT (List Char) Option α

inductive IpAddr where
  | v4 (octets : List Nat)
  | v6 (segments : List Nat)
  deriving DecidableEq

/-- An address has no scope if the number is 0. -/
structure SocketAddr where
  ip : IpAddr
  port : Nat
  scopeId : Nat
  deriving DecidableEq

/-- The digit, in a radix up to 36. -/
def toDigit (radix : Nat) (c : Char) : Option Nat :=
  let digit :=
    if '0' ≤ c ∧ c ≤ '9' then some (c.toNat - 48)
    else if 'a' ≤ c ∧ c ≤ 'z' then some (c.toNat - 87)
    else if 'A' ≤ c ∧ c ≤ 'Z' then some (c.toNat - 55)
    else none
  digit.filter fun d => d < radix

def isDigit (radix : Nat) (c : Char) : Bool := (toDigit radix c).isSome

def value (radix : Nat) (digits : List Char) : Nat :=
  digits.foldl (fun n c => n * radix + (toDigit radix c).getD 0) 0

def readGivenChar (c : Char) : Reader Unit := fun s =>
  match s with
  | d :: rest => if d = c then some ((), rest) else none
  | [] => none

/-- All the digits that there are: at least one, `maxDigits` of them if it is given, and a number
below `bound`. -/
def readNumber (radix : Nat) (maxDigits : Option Nat) (allowZeroPrefix : Bool) (bound : Nat) : Reader Nat := fun s =>
  let digits := s.takeWhile (isDigit radix)
  if digits ≠ [] ∧ (∀ m ∈ maxDigits, digits.length ≤ m) ∧
      (allowZeroPrefix ∨ digits.head? ≠ some '0' ∨ digits.length = 1) ∧ value radix digits < bound then
    some (value radix digits, s.dropWhile (isDigit radix))
  else none

/-- With the separator in front, but for the first. -/
def readSeparator {α : Type} (sep : Char) (index : Nat) (inner : Reader α) : Reader α := do
  if 0 < index then readGivenChar sep
  inner

def readOctet : Reader Nat := readNumber 10 (some 3) false 256

def readIpv4 : Reader (List Nat) := do
  let a ← readOctet
  readGivenChar '.'
  let b ← readOctet
  readGivenChar '.'
  let c ← readOctet
  readGivenChar '.'
  let d ← readOctet
  pure [a, b, c, d]

/-- The two segments of an IPv4 address at the end. -/
def embedded : List Nat → List Nat
  | [a, b, c, d] => [a * 256 + b, c * 256 + d]
  | _ => []

def readSegment : Reader Nat := readNumber 16 (some 4) true 65536

/-- As many segments as there are, up to `limit`, and whether an IPv4 address was the end. -/
def readGroups (i : Nat) : Nat → Reader (List Nat × Bool)
  | 0 => pure ([], false)
  | limit + 1 =>
    (if limit = 0 then failure
    else do
      let octets ← readSeparator ':' i readIpv4
      pure (embedded octets, true)) <|>
    (do
      let segment ← readSeparator ':' i readSegment
      let (segments, v4) ← readGroups (i + 1) limit
      pure (segment :: segments, v4)) <|>
    pure ([], false)

def readIpv6 : Reader (List Nat) := do
  let (head, v4) ← readGroups 0 8
  if head.length = 8 then pure head
  else if v4 then failure
  else
    readGivenChar ':'
    readGivenChar ':'
    let (tail, _) ← readGroups 0 (8 - (head.length + 1))
    pure (head ++ List.replicate (8 - head.length - tail.length) 0 ++ tail)

def readScopeId : Reader Nat := do
  readGivenChar '%'
  readNumber 10 none true 0x100000000

def readPort : Reader Nat := do
  readGivenChar ':'
  readNumber 10 none true 65536

def readSocketAddrV4 : Reader SocketAddr := do
  let octets ← readIpv4
  let port ← readPort
  pure ⟨.v4 octets, port, 0⟩

/-- The address and the scope. -/
def readScoped : Reader (IpAddr × Nat) := do
  let segments ← readIpv6
  let scopeId ← readScopeId <|> pure 0
  pure (.v6 segments, scopeId)

def readBracketed : Reader (IpAddr × Nat) := do
  readGivenChar '['
  let host ← readScoped
  readGivenChar ']'
  pure host

def readSocketAddrV6 : Reader SocketAddr := do
  let (ip, scopeId) ← readBracketed
  let port ← readPort
  pure ⟨ip, port, scopeId⟩

def readIpAddr : Reader IpAddr := (IpAddr.v4 <$> readIpv4) <|> (IpAddr.v6 <$> readIpv6)

def readSocketAddr : Reader SocketAddr := readSocketAddrV4 <|> readSocketAddrV6

/-- Of the whole text. -/
def parseWith {α : Type} (p : Reader α) (s : List Char) : Option α :=
  (p.run s).bind fun x => if x.2 = [] then some x.1 else none

def parseIpAddr (s : List Char) : Option IpAddr := parseWith readIpAddr s

def parseSocketAddr (s : List Char) : Option SocketAddr := parseWith readSocketAddr s

/-! What a reader takes. -/

/-- The text does not start with one of the characters. -/
def Stops (S : Char → Bool) (r : List Char) : Prop := ∀ c ∈ r.head?, S c = false

structure Local {α : Type} (S : Char → Bool) (p : Reader α) : Prop where
  taken : ∀ s a r, p.run s = some (a, r) → ∃ c, s = c ++ r ∧ ∀ x ∈ c, S x = true
  append : ∀ s r, Stops S r → p.run (s ++ r) = (p.run s).map fun x => (x.1, x.2 ++ r)

theorem stops_cons {S : Char → Bool} {c : Char} (r : List Char) (h : S c = false) : Stops S (c :: r) := by
  intro d hd
  rw [← Option.some.inj hd, h]

section Local
variable {α β : Type} {S : Char → Bool}

theorem Local.pure (a : α) : Local S (Pure.pure a : Reader α) := by
  refine ⟨fun s b r h => ⟨[], ?_, fun x hx => absurd hx List.not_mem_nil⟩, fun s r _ => rfl⟩
  rw [StateT.run_pure] at h
  exact congrArg Prod.snd (Option.some.inj h)

theorem Local.failure : Local S (failure : Reader α) where
  taken := fun s a r h => by cases h
  append := fun s r _ => rfl

theorem Local.bind {p : Reader α} {f : α → Reader β} (hp : Local S p) (hf : ∀ a, Local S (f a)) : Local S (p >>= f) where
  taken := by
    intro s b r h
    rw [StateT.run_bind] at h
    obtain ⟨⟨a, t⟩, ha, hb⟩ := Option.bind_eq_some_iff.mp h
    obtain ⟨c, rfl, hc⟩ := hp.taken s a t ha
    obtain ⟨d, rfl, hd⟩ := (hf a).taken t b r hb
    refine ⟨c ++ d, (List.append_assoc c d r).symm, fun x hx => ?_⟩
    exact (List.mem_append.mp hx).elim (hc x) (hd x)
  append := by
    intro s r hr
    rw [StateT.run_bind, StateT.run_bind, hp.append s r hr]
    cases p.run s with
    | none => rfl
    | some x => exact (hf x.1).append x.2 r hr

theorem run_orElse (p q : Reader α) (s : List Char) : (p <|> q).run s = (p.run s).or (q.run s) := by
  change (p.run s <|> q.run s) = _
  cases p.run s <;> rfl

theorem Local.orElse {p q : Reader α} (hp : Local S p) (hq : Local S q) : Local S (p <|> q) where
  taken := by
    intro s a r h
    rw [run_orElse] at h
    rcases Option.or_eq_some_iff.mp h with h | ⟨-, h⟩
    · exact hp.taken s a r h
    · exact hq.taken s a r h
  append := by
    intro s r hr
    rw [run_orElse, run_orElse, hp.append s r hr, hq.append s r hr]
    cases p.run s <;> rfl

theorem Local.mono {T : Char → Bool} {p : Reader α} (hp : Local S p) (h : ∀ c, S c = true → T c = true) : Local T p where
  taken := by
    intro s a r hrun
    obtain ⟨c, hs, hc⟩ := hp.taken s a r hrun
    exact ⟨c, hs, fun x hx => h x (hc x hx)⟩
  append := by
    intro s r hr
    apply hp.append s r
    intro c hc
    cases hS : S c with
    | false => rfl
    | true => exact absurd (h c hS) (by rw [hr c hc]; exact Bool.false_ne_true)

theorem local_givenChar {c : Char} (h : S c = true) : Local S (readGivenChar c) where
  taken := by
    intro s a r hrun
    cases s with
    | nil => cases hrun
    | cons d rest =>
      change (if d = c then some ((), rest) else none) = some (a, r) at hrun
      split at hrun
      · next hd =>
        cases hrun
        refine ⟨[d], rfl, fun x hx => ?_⟩
        rw [List.mem_singleton.mp hx, hd, h]
      · cases hrun
  append := by
    intro s r hr
    cases s with
    | nil =>
      cases r with
      | nil => rfl
      | cons d rest =>
        have hd : d ≠ c := by
          rintro rfl
          exact absurd h (by rw [hr d rfl]; exact Bool.false_ne_true)
        exact if_neg hd
    | cons d rest =>
      change (if d = c then some ((), rest ++ r) else none) = (if d = c then some ((), rest) else none).map _
      split <;> rfl

theorem local_number {radix : Nat} (maxDigits : Option Nat) (allowZeroPrefix : Bool) (bound : Nat)
    (h : ∀ c, isDigit radix c = true → S c = true) : Local S (readNumber radix maxDigits allowZeroPrefix bound) := by
  refine Local.mono ⟨?_, ?_⟩ h
  · intro s n r hrun
    change (if _ then some (_, _) else none) = _ at hrun
    split at hrun
    · cases hrun
      refine ⟨s.takeWhile (isDigit radix), List.takeWhile_append_dropWhile.symm, fun x hx => ?_⟩
      exact List.all_eq_true.mp List.all_takeWhile x hx
    · cases hrun
  · intro s r hr
    have hstop : r.takeWhile (isDigit radix) = [] ∧ r.dropWhile (isDigit radix) = r := by
      cases r with
      | nil => exact ⟨rfl, rfl⟩
      | cons d rest =>
        have hd : ¬ isDigit radix d = true := by rw [hr d rfl]; exact Bool.false_ne_true
        exact ⟨List.takeWhile_cons_of_neg hd, List.dropWhile_cons_of_neg hd⟩
    have htake : (s ++ r).takeWhile (isDigit radix) = s.takeWhile (isDigit radix) := by
      rw [List.takeWhile_append, hstop.1]
      split
      · next hall =>
        rw [List.append_nil]
        exact (List.takeWhile_prefix _).eq_of_length hall |>.symm
      · rfl
    have hdrop : (s ++ r).dropWhile (isDigit radix) = s.dropWhile (isDigit radix) ++ r := by
      rw [List.dropWhile_append, hstop.2]
      split
      · next hempty => rw [List.isEmpty_iff.mp hempty, List.nil_append]
      · rfl
    change (if _ then some (_, _) else none) = (if _ then some (_, _) else none).map _
    rw [htake, hdrop]
    split <;> rfl

theorem Local.separator {sep : Char} (hsep : S sep = true) (index : Nat) {p : Reader α} (hp : Local S p) :
    Local S (readSeparator sep index p) := by
  unfold readSeparator
  split
  · exact (local_givenChar hsep).bind fun _ => hp
  · exact hp

end Local

/-! The characters of each reader. -/

theorem isDigit_mono {radix radix' : Nat} (h : radix ≤ radix') {c : Char} (hc : isDigit radix c = true) :
    isDigit radix' c = true := by
  obtain ⟨d, hd⟩ := Option.isSome_iff_exists.mp hc
  obtain ⟨hd, hlt⟩ := Option.filter_eq_some_iff.mp hd
  refine Option.isSome_iff_exists.mpr ⟨d, Option.filter_eq_some_iff.mpr ⟨hd, ?_⟩⟩
  exact decide_eq_true (Nat.lt_of_lt_of_le (of_decide_eq_true hlt) h)

def isIpv4Char (c : Char) : Bool := isDigit 10 c || c == '.'
def isIpv6Char (c : Char) : Bool := isDigit 16 c || c == '.' || c == ':'
def isScopedChar (c : Char) : Bool := isIpv6Char c || c == '%'

theorem isIpv6Char_of_ipv4 {c : Char} (h : isIpv4Char c = true) : isIpv6Char c = true := by
  unfold isIpv4Char isIpv6Char at *
  rcases Bool.or_eq_true_iff.mp h with h | h
  · rw [isDigit_mono (by decide) h]
    rfl
  · rw [h, Bool.or_true, Bool.true_or]

theorem isIpv6Char_of_digit {c : Char} (h : isDigit 16 c = true) : isIpv6Char c = true := by
  unfold isIpv6Char
  rw [h]
  rfl

theorem local_ipv4 : Local isIpv4Char readIpv4 := by
  have hoctet : Local isIpv4Char readOctet := by
    apply local_number
    intro c hc
    unfold isIpv4Char
    rw [hc]
    rfl
  have hdot : Local isIpv4Char (readGivenChar '.') := local_givenChar (by decide)
  exact hoctet.bind fun _ => hdot.bind fun _ => hoctet.bind fun _ => hdot.bind fun _ => hoctet.bind fun _ =>
    hdot.bind fun _ => hoctet.bind fun _ => Local.pure _

theorem local_groups (i limit : Nat) : Local isIpv6Char (readGroups i limit) := by
  induction limit generalizing i with
  | zero => exact Local.pure _
  | succ limit ih =>
    have hipv4 : Local isIpv6Char (readSeparator ':' i readIpv4) :=
      (local_ipv4.mono fun _ => isIpv6Char_of_ipv4).separator (by decide) i
    have hsegment : Local isIpv6Char (readSeparator ':' i readSegment) :=
      (local_number _ _ _ fun _ => isIpv6Char_of_digit).separator (by decide) i
    refine Local.orElse ?_ (Local.orElse (hsegment.bind fun _ => ?_) (Local.pure _))
    · split
      · exact Local.failure
      · exact hipv4.bind fun _ => Local.pure _
    · exact (ih (i + 1)).bind fun _ => Local.pure _

theorem local_ipv6 : Local isIpv6Char readIpv6 := by
  have hcolon : Local isIpv6Char (readGivenChar ':') := local_givenChar (by decide)
  refine (local_groups 0 8).bind fun x => ?_
  dsimp only
  split
  · exact Local.pure _
  · split
    · exact Local.failure
    · exact hcolon.bind fun _ => hcolon.bind fun _ => (local_groups 0 _).bind fun _ => Local.pure _

theorem local_scoped : Local isScopedChar readScoped := by
  have hscope : Local isScopedChar readScopeId := by
    refine (local_givenChar (by decide)).bind fun _ => local_number _ _ _ fun c hc => ?_
    unfold isScopedChar
    rw [isIpv6Char_of_digit (isDigit_mono (by decide) hc)]
    rfl
  refine (local_ipv6.mono fun c hc => ?_).bind fun _ => (hscope.orElse (Local.pure 0)).bind fun _ => Local.pure _
  unfold isScopedChar
  rw [hc]
  rfl

/-! The host and the port. -/

/-- The text before the port, and its scope. -/
def readHost : Reader (IpAddr × Nat) := (do let octets ← readIpv4; pure (.v4 octets, 0)) <|> readBracketed

def parseHost (s : List Char) : Option (IpAddr × Nat) := parseWith readHost s
def parsePort (s : List Char) : Option Nat := parseWith (readNumber 10 none true 65536) s

theorem parseWith_eq_some {α : Type} {p : Reader α} {s : List Char} {a : α} :
    parseWith p s = some a ↔ p.run s = some (a, []) := by
  unfold parseWith
  constructor
  · intro h
    obtain ⟨⟨b, r⟩, hrun, hb⟩ := Option.bind_eq_some_iff.mp h
    split at hb
    · next hr =>
      obtain rfl : r = [] := hr
      obtain rfl : b = a := Option.some.inj hb
      exact hrun
    · cases hb
  · intro h
    rw [h]
    rfl

theorem run_givenChar_cons (c : Char) (s : List Char) : (readGivenChar c).run (c :: s) = some ((), s) := if_pos rfl

theorem run_givenChar_of_notMem {c : Char} {s : List Char} (h : c ∉ s) : (readGivenChar c).run s = none := by
  cases s with
  | nil => rfl
  | cons d rest =>
    have hd : d ≠ c := fun hd => h (by rw [hd]; exact List.mem_cons_self)
    exact if_neg hd

/-- Up to the bracket that closes. -/
def readOpen : Reader (IpAddr × Nat) := do
  readGivenChar '['
  readScoped

def isOpenChar (c : Char) : Bool := isScopedChar c || c == '['

theorem local_open : Local isOpenChar readOpen := by
  refine (local_givenChar (by decide)).bind fun _ => local_scoped.mono fun c hc => ?_
  unfold isOpenChar
  rw [hc]
  rfl

theorem run_bracketed (s : List Char) : readBracketed.run s = (readOpen.run s).bind fun x =>
    ((readGivenChar ']').run x.2).map fun y => (x.1, y.2) := by
  have h : readBracketed = readOpen >>= fun host => readGivenChar ']' >>= fun _ => pure host := by
    unfold readBracketed readOpen
    rw [bind_assoc]
  rw [h, StateT.run_bind]
  apply congrArg ((readOpen.run s).bind ·)
  funext x
  rw [StateT.run_bind]
  cases (readGivenChar ']').run x.2 <;> rfl

/-- Nothing behind a closed bracket matters, and nothing without one is read. -/
theorem bracketed_append {s r : List Char} (hr : ']' ∉ r) :
    readBracketed.run (s ++ r) = (readBracketed.run s).map fun x => (x.1, x.2 ++ r) := by
  have hnone : ∀ {t : List Char}, ']' ∉ t → readBracketed.run t = none := by
    intro t ht
    rw [run_bracketed]
    cases hopen : readOpen.run t with
    | none => rfl
    | some x =>
      obtain ⟨c, rfl, -⟩ := local_open.taken t x.1 x.2 hopen
      rw [Option.bind_some, run_givenChar_of_notMem fun h => ht (List.mem_append_right c h)]
      rfl
  by_cases hs : ']' ∈ s
  · obtain ⟨c, e, rfl, hc⟩ := List.eq_append_cons_of_mem hs
    have hclosed : ∀ e' : List Char, readBracketed.run (c ++ ']' :: e') =
        (readOpen.run c).bind fun x => if x.2 = [] then some (x.1, e') else none := by
      intro e'
      rw [run_bracketed, local_open.append c (']' :: e') (stops_cons e' (by decide))]
      cases hopen : readOpen.run c with
      | none => rfl
      | some x =>
        obtain ⟨d, rfl, -⟩ := local_open.taken c x.1 x.2 hopen
        rw [Option.map_some, Option.bind_some, Option.bind_some]
        cases hx : x.2 with
        | nil =>
          rw [List.nil_append, run_givenChar_cons]
          rfl
        | cons y rest =>
          have hy : y ≠ ']' := fun h => hc (List.mem_append_right d (by rw [hx, h]; exact List.mem_cons_self))
          rw [if_neg (List.cons_ne_nil y rest)]
          exact congrArg (Option.map _) (if_neg hy)
    rw [List.append_assoc, List.cons_append, hclosed, hclosed]
    cases readOpen.run c with
    | none => rfl
    | some x =>
      rw [Option.bind_some, Option.bind_some]
      split <;> rfl
  · rw [hnone hs, hnone fun h => (List.mem_append.mp h).elim hs hr]
    rfl

/-- What starts with a digit has no bracket in front. -/
theorem bracketed_of_ipv4 {s : List Char} {x : List Nat × List Char} (h : readIpv4.run s = some x) :
    readBracketed.run s = none := by
  cases s with
  | nil => cases h
  | cons c rest =>
    by_cases hc : c = '['
    · subst hc
      cases h
    · rw [run_bracketed]
      have hopen : readOpen.run (c :: rest) = none := by
        unfold readOpen
        rw [StateT.run_bind]
        exact congrArg (Option.bind · _) (if_neg hc)
      rw [hopen]
      rfl

theorem socketAddr_host_port :
    readSocketAddr = readHost >>= fun host => readPort >>= fun port => pure ⟨host.1, port, host.2⟩ := by
  funext s
  change readSocketAddr.run s = StateT.run _ s
  unfold readSocketAddr readHost readSocketAddrV4 readSocketAddrV6
  rw [run_orElse, StateT.run_bind, StateT.run_bind, StateT.run_bind, run_orElse, StateT.run_bind]
  cases hipv4 : readIpv4.run s with
  | none => rfl
  | some x =>
    rw [bracketed_of_ipv4 hipv4]
    exact Option.or_none

theorem host_append {h d : List Char} (hd : ']' ∉ d) :
    readHost.run (h ++ ':' :: d) = (readHost.run h).map fun x => (x.1, x.2 ++ ':' :: d) := by
  have hbracket : ']' ∉ ':' :: d := fun hmem => (List.mem_cons.mp hmem).elim (by decide) hd
  unfold readHost
  rw [run_orElse, run_orElse, bracketed_append hbracket,
    (local_ipv4.bind fun _ => Local.pure _).append h _ (stops_cons d (by decide))]
  cases (readIpv4 >>= fun octets => pure (IpAddr.v4 octets, 0) : Reader (IpAddr × Nat)).run h <;> rfl

/-- The colon in front of the port is the last one. -/
theorem port_append (rest d : List Char) :
    parseWith readPort (rest ++ ':' :: d) = if rest = [] then parsePort d else none := by
  cases rest with
  | nil => rfl
  | cons c rest =>
    rw [if_neg (List.cons_ne_nil c rest), List.cons_append]
    apply Option.eq_none_iff_forall_ne_some.mpr
    intro port hport
    have hrun := parseWith_eq_some.mp hport
    unfold readPort at hrun
    rw [StateT.run_bind] at hrun
    obtain ⟨⟨u, t⟩, hcolon, hnumber⟩ := Option.bind_eq_some_iff.mp hrun
    have ht : rest ++ ':' :: d = t := by
      change (if c = ':' then some ((), rest ++ ':' :: d) else none) = some (u, t) at hcolon
      split at hcolon
      · exact congrArg Prod.snd (Option.some.inj hcolon)
      · cases hcolon
    -- All that is behind the first colon would be digits.
    have hlocal : Local (isDigit 10) (readNumber 10 none true 65536) := local_number _ _ _ fun _ h => h
    obtain ⟨digits, hdigits, hall⟩ := hlocal.taken t port [] hnumber
    have hmem : ':' ∈ digits := by
      rw [← List.append_nil digits, ← hdigits, ← ht]
      exact List.mem_append_right rest List.mem_cons_self
    exact absurd (hall ':' hmem) (by decide)

/-- **The text of a socket address.** What is behind a colon is the port, if it does not close a
bracket, and what comes before it the host. -/
theorem parseSocketAddr_append (h : List Char) {d : List Char} (hbracket : ']' ∉ d) :
    parseSocketAddr (h ++ ':' :: d) =
      (parseHost h).bind fun host => (parsePort d).map fun port => ⟨host.1, port, host.2⟩ := by
  unfold parseSocketAddr parseHost
  rw [socketAddr_host_port]
  have hrun : ∀ s, (readHost >>= fun host => readPort >>= fun port => pure (SocketAddr.mk host.1 port host.2)).run s =
      (readHost.run s).bind fun x => (readPort.run x.2).map fun y => (SocketAddr.mk x.1.1 y.1 x.1.2, y.2) := by
    intro s
    rw [StateT.run_bind]
    apply congrArg ((readHost.run s).bind ·)
    funext x
    rw [StateT.run_bind]
    cases readPort.run x.2 <;> rfl
  -- behind the host there is only the port
  have hport : ∀ (rest : List Char) (host : IpAddr × Nat),
      ((readPort.run (rest ++ ':' :: d)).map fun y => (SocketAddr.mk host.1 y.1 host.2, y.2)).bind
          (fun x => if x.2 = [] then some x.1 else none) =
        if rest = [] then (parsePort d).map fun port => SocketAddr.mk host.1 port host.2 else none := by
    intro rest host
    have hparse := port_append rest d
    unfold parseWith at hparse
    calc ((readPort.run (rest ++ ':' :: d)).map fun y => (SocketAddr.mk host.1 y.1 host.2, y.2)).bind
          (fun x => if x.2 = [] then some x.1 else none)
        = ((readPort.run (rest ++ ':' :: d)).bind fun x => if x.2 = [] then some x.1 else none).map
            fun port => SocketAddr.mk host.1 port host.2 := by
          cases readPort.run (rest ++ ':' :: d) with
          | none => rfl
          | some y =>
            simp only [Option.map_some, Option.bind_some]
            split <;> rfl
      _ = _ := by
          rw [hparse]
          split <;> rfl
  unfold parseWith
  rw [hrun, host_append hbracket]
  cases readHost.run h with
  | none => rfl
  | some x =>
    simp only [Option.map_some, Option.bind_some]
    rw [hport]
    split <;> rfl

/-! The parts. -/

theorem parseIpAddr_v4 {s : List Char} {octets : List Nat} :
    parseIpAddr s = some (.v4 octets) ↔ readIpv4.run s = some (octets, []) := by
  unfold parseIpAddr readIpAddr
  rw [parseWith_eq_some, run_orElse, StateT.run_map, StateT.run_map]
  cases readIpv4.run s with
  | none =>
    cases readIpv6.run s <;> simp
  | some x => simp [Prod.ext_iff]

theorem bracketed_v6 {s : List Char} {x : (IpAddr × Nat) × List Char} (h : readBracketed.run s = some x) :
    ∃ segments, x.1.1 = .v6 segments := by
  rw [run_bracketed] at h
  obtain ⟨y, hopen, hx⟩ := Option.bind_eq_some_iff.mp h
  obtain ⟨z, -, rfl⟩ := Option.map_eq_some_iff.mp hx
  unfold readOpen readScoped at hopen
  rw [StateT.run_bind] at hopen
  obtain ⟨u, -, hscoped⟩ := Option.bind_eq_some_iff.mp hopen
  rw [StateT.run_bind] at hscoped
  obtain ⟨segments, -, hscope⟩ := Option.bind_eq_some_iff.mp hscoped
  rw [StateT.run_bind] at hscope
  obtain ⟨id, -, hpure⟩ := Option.bind_eq_some_iff.mp hscope
  refine ⟨segments.1, ?_⟩
  rw [← Option.some.inj hpure]

theorem parseHost_v4 {s : List Char} {octets : List Nat} {scopeId : Nat} :
    parseHost s = some (.v4 octets, scopeId) ↔ parseIpAddr s = some (.v4 octets) ∧ scopeId = 0 := by
  rw [parseIpAddr_v4]
  unfold parseHost readHost
  rw [parseWith_eq_some, run_orElse, StateT.run_bind]
  cases hipv4 : readIpv4.run s with
  | none =>
    constructor
    · intro h
      obtain ⟨segments, hv6⟩ := bracketed_v6 (x := ((.v4 octets, scopeId), [])) (by exact h)
      cases hv6
    · rintro ⟨h, -⟩
      cases h
  | some x =>
    change some ((IpAddr.v4 x.1, 0), x.2) = some ((IpAddr.v4 octets, scopeId), []) ↔ some x = some (octets, []) ∧ scopeId = 0
    constructor
    · intro h
      obtain ⟨⟨hoctets, hscope⟩, hrest⟩ := by simpa [Prod.ext_iff] using h
      exact ⟨congrArg some (Prod.ext hoctets hrest), hscope.symm⟩
    · rintro ⟨h, rfl⟩
      rw [Option.some.inj h]

theorem toDigit_ten {c : Char} (h : c.isDigit = true) : toDigit 10 c = some (c.toNat - 48) := by
  have hrange : '0' ≤ c ∧ c ≤ '9' := by
    rw [Char.isDigit, Bool.and_eq_true, decide_eq_true_iff, decide_eq_true_iff] at h
    exact h
  unfold toDigit
  rw [if_pos hrange]
  refine Option.filter_eq_some_iff.mpr ⟨rfl, decide_eq_true ?_⟩
  have hle : c.toNat ≤ 57 := hrange.2
  omega

theorem isDigit_ten {c : Char} (h : c.isDigit = true) : isDigit 10 c = true := by
  unfold isDigit
  rw [toDigit_ten h]
  rfl

theorem value_toDigits (n : Nat) : value 10 (Nat.toDigits 10 n) = n := by
  have hfold : ∀ (digits : List Char) (k : Nat), (∀ c ∈ digits, c.isDigit = true) →
      digits.foldl (fun n c => n * 10 + (toDigit 10 c).getD 0) k = Nat.ofDigitChars 10 digits k := by
    intro digits
    induction digits with
    | nil => intro k _; rfl
    | cons c digits ih =>
      intro k hall
      rw [List.foldl_cons, Nat.ofDigitChars_cons, toDigit_ten (hall c List.mem_cons_self), Nat.mul_comm k 10]
      exact ih _ fun d hd => hall d (List.mem_cons_of_mem c hd)
  unfold value
  rw [hfold _ 0 fun c hc => Nat.isDigit_of_mem_toDigits (by decide) (by decide) hc, Nat.ofDigitChars_ten_toDigits]

/-- The port that is printed. -/
theorem parsePort_format (port : Int) :
    parsePort (Decimal.format port) = if 0 ≤ port ∧ port < 65536 then some port.toNat else none := by
  have hrun : ∀ s : List Char, parsePort s =
      if s.takeWhile (isDigit 10) ≠ [] ∧ value 10 (s.takeWhile (isDigit 10)) < 65536 then
        (if s.dropWhile (isDigit 10) = [] then some (value 10 (s.takeWhile (isDigit 10))) else none)
      else none := by
    intro s
    unfold parsePort parseWith readNumber
    change (if _ then some (_, _) else none).bind _ = _
    simp only [Option.not_mem_none, false_implies, implies_true, true_or, true_and]
    split <;> rfl
  rw [hrun]
  unfold Decimal.format
  split
  · next hneg =>
    have htake : ('-' :: Nat.toDigits 10 port.natAbs).takeWhile (isDigit 10) = [] := List.takeWhile_cons_of_neg (by decide)
    rw [htake, if_neg (fun h => h.1 rfl), if_neg (fun h => absurd hneg (by omega))]
  · next hpos =>
    have hall : ∀ c ∈ Nat.toDigits 10 port.natAbs, isDigit 10 c = true := fun c hc =>
      isDigit_ten (Nat.isDigit_of_mem_toDigits (by decide) (by decide) hc)
    rw [List.takeWhile_eq_self_iff.mpr hall, List.dropWhile_eq_nil_iff.mpr hall, value_toDigits, if_pos rfl]
    have hiff : (Nat.toDigits 10 port.natAbs ≠ [] ∧ port.natAbs < 65536) ↔ 0 ≤ port ∧ port < 65536 :=
      ⟨fun h => ⟨by omega, by omega⟩, fun h => ⟨Nat.toDigits_ne_nil, by omega⟩⟩
    have habs : port.natAbs = port.toNat := by omega
    rw [if_congr hiff rfl rfl, habs]

theorem notMem_format {c : Char} (port : Int) (hdigit : c.isDigit = false) (hminus : c ≠ '-') : c ∉ Decimal.format port := by
  intro h
  rcases Decimal.mem_format h with h | h
  · exact absurd h (by rw [hdigit]; exact Bool.false_ne_true)
  · exact hminus h

end SocketText
