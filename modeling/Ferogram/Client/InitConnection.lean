import Mathlib.Data.List.Induction
import Ferogram.Lib.Assoc
import Ferogram.Lib.SocketText
import Ferogram.Mtsender.Sender
import Ferogram.Session.StringSession

/- The DC tables after `init_connection` of `ferogram/src/client/mod.rs`, which writes the
   options of the reply to `help.getConfig` into them one after another.

   A table has one address for each DC, and it is a text: `DcEntry::socket_addr` parses it
   where a session is exported. `DcEntry::from_parts` puts an IPv6 address in brackets, which
   the text needs to be parsed; `init_connection` does not.

   What is proved: `initConnection_exact`, which says for which replies every address that is
   written can be parsed. -/
namespace Ferogram.Session
open SocketText hiding IpAddr

/-! `DcEntry` and its text. -/

def DcFlags.MEDIA_ONLY : DcFlags := ⟨2⟩
def DcFlags.TCPO_ONLY : DcFlags := ⟨4⟩
def DcFlags.CDN : DcFlags := ⟨8⟩
def DcFlags.STATIC : DcFlags := ⟨16⟩

def DcFlags.set (flags flag : DcFlags) : DcFlags := ⟨flags.bits ||| flag.bits⟩

/-- "invalid DC address: {addr}" -/
structure InvalidDcAddress where
  addr : String
  deriving DecidableEq

def DcEntry.socketAddr (d : DcEntry) : Except InvalidDcAddress SocketAddr :=
  match parseSocketAddr d.addr.toList with
  | some addr => .ok addr
  | none => .error ⟨d.addr⟩

theorem socketAddr_ok {d : DcEntry} {a : SocketAddr} : d.socketAddr = .ok a ↔ parseSocketAddr d.addr.toList = some a := by
  unfold DcEntry.socketAddr
  cases parseSocketAddr d.addr.toList with
  | none => exact ⟨nofun, nofun⟩
  | some b => exact ⟨fun h => congrArg some (Except.ok.inj h), fun h => congrArg Except.ok (Option.some.inj h)⟩

/-- A host and a port make the text of an address. -/
theorem parse_host_port (host : String) (port : Int) :
    parseSocketAddr (host ++ ":" ++ String.ofList (Decimal.format port)).toList =
      (parseHost host.toList).bind fun h =>
        if 0 ≤ port ∧ port < 65536 then some ⟨h.1, port.toNat, h.2⟩ else none := by
  have htext : (host ++ ":" ++ String.ofList (Decimal.format port)).toList = host.toList ++ ':' :: Decimal.format port := by
    simp
  rw [htext, parseSocketAddr_append host.toList (notMem_format port (by decide) (by decide)), parsePort_format]
  apply congrArg ((parseHost host.toList).bind ·)
  funext h
  split <;> rfl

end Ferogram.Session

namespace Ferogram.InitConnection
open Session SocketText
open Mtsender (InvocationError)

/-- What is read of a `DcOption`. -/
structure DcOption where
  ipv6 : Bool
  mediaOnly : Bool
  tcpoOnly : Bool
  cdn : Bool
  static : Bool
  id : Int32
  ipAddress : String
  port : Int32
  deriving DecidableEq

structure DcTables where
  dcOptions : Assoc Int32 DcEntry
  mediaDcOptions : Assoc Int32 DcEntry

def DcOption.addr (o : DcOption) : String := o.ipAddress ++ ":" ++ String.ofList (Decimal.format o.port.toInt)

def DcOption.flags (o : DcOption) : DcFlags :=
  let flags := DcFlags.NONE
  let flags := if o.ipv6 then flags.set .IPV6 else flags
  let flags := if o.mediaOnly then flags.set .MEDIA_ONLY else flags
  let flags := if o.tcpoOnly then flags.set .TCPO_ONLY else flags
  let flags := if o.cdn then flags.set .CDN else flags
  if o.static then flags.set .STATIC else flags

/-- The entry that is there or a new one, with the address and the flags of the option. -/
def DcOption.entry (o : DcOption) (found : Option DcEntry) : DcEntry :=
  let e := found.getD
    { dcId := o.id, addr := o.addr, authKey := none, firstSalt := 0, timeOffset := 0, flags := o.flags }
  { e with addr := o.addr, flags := o.flags }

def register (options : Assoc Int32 DcEntry) (o : DcOption) : Assoc Int32 DcEntry :=
  options.insert o.id (o.entry (AList.lookup o.id options))

def registerOption (allowIpv6 : Bool) (t : DcTables) (o : DcOption) : DcTables :=
  if o.ipv6 && !allowIpv6 then t
  else if o.mediaOnly || o.cdn then { t with mediaDcOptions := register t.mediaDcOptions o }
  else if !o.tcpoOnly then { t with dcOptions := register t.dcOptions o }
  else t

/-- `answer` is the reply to the call: `none` if it is not a config. -/
def initConnection (allowIpv6 : Bool) (t : DcTables) (answer : Except InvocationError (Option (List DcOption))) :
    DcTables × Except InvocationError Unit :=
  match answer with
  | .error e => (t, .error e)
  | .ok none => (t, .ok ())
  | .ok (some dcOptions) => (dcOptions.foldl (registerOption allowIpv6) t, .ok ())

/-! One table. -/

inductive Table where
  | plain
  | media
  deriving DecidableEq

def DcTables.get (t : DcTables) : Table → Assoc Int32 DcEntry
  | .plain => t.dcOptions
  | .media => t.mediaDcOptions

/-- The option is written to the entry of a DC in a table. -/
def DcOption.writes (allowIpv6 : Bool) (table : Table) (id : Int32) (o : DcOption) : Bool :=
  (!o.ipv6 || allowIpv6) && o.id = id &&
    match table with
    | .plain => !o.mediaOnly && !o.cdn && !o.tcpoOnly
    | .media => o.mediaOnly || o.cdn

/-- The option that an entry has its address from. -/
def lastWritten (allowIpv6 : Bool) (reply : List DcOption) (table : Table) (id : Int32) : Option DcOption :=
  (reply.filter (DcOption.writes allowIpv6 table id)).getLast?

theorem lookup_register (options : Assoc Int32 DcEntry) (o : DcOption) (id : Int32) :
    AList.lookup id (register options o) =
      if o.id = id then some (o.entry (AList.lookup id options)) else AList.lookup id options := by
  unfold register
  rw [Assoc.lookup_insert_if]
  by_cases h : id = o.id
  · rw [if_pos h, if_pos h.symm, h]
  · rw [if_neg h, if_neg fun h' => h h'.symm]

theorem lookup_registerOption (allowIpv6 : Bool) (t : DcTables) (o : DcOption) (table : Table) (id : Int32) :
    AList.lookup id ((registerOption allowIpv6 t o).get table) =
      if o.writes allowIpv6 table id then some (o.entry (AList.lookup id (t.get table)))
      else AList.lookup id (t.get table) := by
  unfold registerOption DcOption.writes
  cases o.ipv6 <;> cases allowIpv6 <;> cases o.mediaOnly <;> cases o.cdn <;> cases o.tcpoOnly <;> cases table <;>
    simp [DcTables.get, lookup_register]

theorem lastWritten_mem {allowIpv6 : Bool} {reply : List DcOption} {table : Table} {id : Int32} {o : DcOption}
    (h : lastWritten allowIpv6 reply table id = some o) : o ∈ reply ∧ o.writes allowIpv6 table id = true :=
  List.mem_filter.mp (List.mem_of_getLast? h)

theorem writes_id {allowIpv6 : Bool} {table : Table} {id : Int32} {o : DcOption} (h : o.writes allowIpv6 table id = true) :
    o.id = id := by
  unfold DcOption.writes at h
  rw [Bool.and_eq_true, Bool.and_eq_true] at h
  exact of_decide_eq_true h.1.2

/-- Of two options the second one counts. -/
theorem entry_entry {o o' : DcOption} (h : o'.id = o.id) (found : Option DcEntry) :
    o.entry (some (o'.entry found)) = o.entry found := by
  cases found with
  | none =>
    unfold DcOption.entry
    simp only [Option.getD_some, Option.getD_none, h]
  | some e => rfl

/-- What an entry is after all options. -/
theorem lookup_foldl (allowIpv6 : Bool) (t : DcTables) (reply : List DcOption) (table : Table) (id : Int32) :
    AList.lookup id ((reply.foldl (registerOption allowIpv6) t).get table) =
      match lastWritten allowIpv6 reply table id with
      | some o => some (o.entry (AList.lookup id (t.get table)))
      | none => AList.lookup id (t.get table) := by
  induction reply using List.reverseRecOn with
  | nil => rfl
  | append_singleton reply o ih =>
    rw [List.foldl_append, List.foldl_cons, List.foldl_nil, lookup_registerOption, ih]
    have hconcat : lastWritten allowIpv6 (reply ++ [o]) table id =
        (reply.filter (DcOption.writes allowIpv6 table id) ++ [o].filter (DcOption.writes allowIpv6 table id)).getLast? := by
      rw [lastWritten, List.filter_append]
    rw [hconcat]
    by_cases ho : o.writes allowIpv6 table id = true
    · rw [if_pos ho, List.filter_cons_of_pos ho, List.filter_nil, List.getLast?_concat]
      cases hlast : lastWritten allowIpv6 reply table id with
      | none => rfl
      | some o' => exact congrArg some (entry_entry ((writes_id (lastWritten_mem hlast).2).trans (writes_id ho).symm) _)
    · rw [if_neg ho, List.filter_cons_of_neg ho, List.filter_nil, List.append_nil]
      rfl

/-! The addresses. -/

def DcOption.IsIpv4 (o : DcOption) : Prop := ∃ octets, parseIpAddr o.ipAddress.toList = some (.v4 octets)

/-- An option of IPv4 that is neither for media or a CDN nor for obfuscated connections only. -/
def DcOption.Plain (o : DcOption) : Prop :=
  o.ipv6 = false ∧ o.mediaOnly = false ∧ o.cdn = false ∧ o.tcpoOnly = false ∧ o.IsIpv4

/-- The entry's address is parsed to the address and the port of the option. -/
def Reaches (e : DcEntry) (o : DcOption) : Prop :=
  ∃ a, e.socketAddr = .ok a ∧ parseIpAddr o.ipAddress.toList = some a.ip ∧ o.port.toInt = a.port

/-- What the tables should be after a reply. -/
structure Connectable (allowIpv6 : Bool) (reply : List DcOption) (t t' : DcTables) : Prop where
  /-- Each entry that was written has the address of an option of its DC. -/
  address : ∀ table id, (∃ o ∈ reply, o.writes allowIpv6 table id) →
    ∃ e, AList.lookup id (t'.get table) = some e ∧ ∃ o ∈ reply, o.id = id ∧ Reaches e o
  /-- Each entry that was there has its keys. -/
  kept : ∀ table id e, AList.lookup id (t.get table) = some e → ∃ e', AList.lookup id (t'.get table) = some e' ∧
    e'.authKey = e.authKey ∧ e'.firstSalt = e.firstSalt ∧ e'.timeOffset = e.timeOffset
  /-- A DC with an option of IPv4 has an address of IPv4. -/
  ipv4 : ∀ o ∈ reply, o.Plain →
    ∃ e, AList.lookup o.id t'.dcOptions = some e ∧ ∃ a octets, e.socketAddr = .ok a ∧ a.ip = .v4 octets

/-- The text is an IPv6 address in brackets, that of another option of the DC. -/
def Bracketed (reply : List DcOption) (o : DcOption) : Prop :=
  ∃ segments scopeId, parseHost o.ipAddress.toList = some (.v6 segments, scopeId) ∧
    ∃ other ∈ reply, other.id = o.id ∧ other.port = o.port ∧ parseIpAddr other.ipAddress.toList = some (.v6 segments)

/-- The options that are written last. -/
def LastParse (allowIpv6 : Bool) (reply : List DcOption) : Prop :=
  ∀ table id o, lastWritten allowIpv6 reply table id = some o →
    (0 ≤ o.port.toInt ∧ o.port.toInt < 65536) ∧
      (o.IsIpv4 ∨ (Bracketed reply o ∧ ¬ (table = .plain ∧ ∃ p ∈ reply, p.id = id ∧ p.Plain)))

theorem socketAddr_entry {o : DcOption} {found : Option DcEntry} {a : SocketAddr} :
    (o.entry found).socketAddr = .ok a ↔ ∃ host, parseHost o.ipAddress.toList = some host ∧
      (0 ≤ o.port.toInt ∧ o.port.toInt < 65536) ∧ a = ⟨host.1, o.port.toInt.toNat, host.2⟩ := by
  rw [socketAddr_ok]
  change parseSocketAddr o.addr.toList = some a ↔ _
  unfold DcOption.addr
  rw [parse_host_port]
  constructor
  · intro h
    obtain ⟨host, hhost, ha⟩ := Option.bind_eq_some_iff.mp h
    split at ha
    · next hport => exact ⟨host, hhost, hport, (Option.some.inj ha).symm⟩
    · cases ha
  · rintro ⟨host, hhost, hport, rfl⟩
    rw [hhost, Option.bind_some, if_pos hport]

theorem lastWritten_isSome {allowIpv6 : Bool} {reply : List DcOption} {table : Table} {id : Int32} {o : DcOption}
    (ho : o ∈ reply) (hwrites : o.writes allowIpv6 table id = true) : ∃ l, lastWritten allowIpv6 reply table id = some l := by
  cases h : lastWritten allowIpv6 reply table id with
  | some l => exact ⟨l, rfl⟩
  | none =>
    have hnil : reply.filter (DcOption.writes allowIpv6 table id) = [] := List.getLast?_eq_none_iff.mp h
    exact absurd (List.mem_filter.mpr ⟨ho, hwrites⟩) (by rw [hnil]; exact List.not_mem_nil)

theorem Plain.writes (allowIpv6 : Bool) {o : DcOption} (h : o.Plain) : o.writes allowIpv6 .plain o.id = true := by
  obtain ⟨hipv6, hmedia, hcdn, htcpo, -⟩ := h
  unfold DcOption.writes
  rw [hipv6, hmedia, hcdn, htcpo]
  simp

/-- The keys are kept whatever the reply is. -/
theorem kept_keys (allowIpv6 : Bool) (reply : List DcOption) (t : DcTables) (table : Table) (id : Int32) (e : DcEntry)
    (h : AList.lookup id (t.get table) = some e) :
    ∃ e', AList.lookup id ((reply.foldl (registerOption allowIpv6) t).get table) = some e' ∧
      e'.authKey = e.authKey ∧ e'.firstSalt = e.firstSalt ∧ e'.timeOffset = e.timeOffset := by
  rw [lookup_foldl, h]
  cases lastWritten allowIpv6 reply table id with
  | none => exact ⟨e, rfl, rfl, rfl, rfl⟩
  | some o => exact ⟨_, rfl, rfl, rfl, rfl⟩

/-- **The DC tables.** Every address that a reply writes is parsed to one of the DC's options, and
a DC with a plain IPv4 option has one of IPv4, exactly if the last option of each entry has the text
of an IPv4 address and a port (or brackets of its own, which the server does not send). -/
theorem initConnection_exact (allowIpv6 : Bool) (t : DcTables) (reply : List DcOption) :
    Connectable allowIpv6 reply t (initConnection allowIpv6 t (.ok (some reply))).1 ↔ LastParse allowIpv6 reply := by
  change Connectable allowIpv6 reply t (reply.foldl (registerOption allowIpv6) t) ↔ _
  constructor
  · intro h table id o hlast
    obtain ⟨hmem, hwrites⟩ := lastWritten_mem hlast
    obtain ⟨e, he, other, hother, hid, a, ha, hip, hport⟩ := h.address table id ⟨o, hmem, hwrites⟩
    rw [lookup_foldl, hlast] at he
    obtain rfl := Option.some.inj he
    obtain ⟨host, hhost, hrange, rfl⟩ := socketAddr_entry.mp ha
    refine ⟨hrange, ?_⟩
    obtain ⟨ip, scopeId⟩ := host
    cases ip with
    | v4 octets => exact Or.inl ⟨octets, (parseHost_v4.mp hhost).1⟩
    | v6 segments =>
      -- an IPv6 address got there with its own port, and no plain entry may be one
      have hsame : other.port = o.port := Int32.toInt_inj.mp (by
        rw [hport]
        exact Int.toNat_of_nonneg hrange.1)
      refine Or.inr ⟨⟨segments, scopeId, hhost, other, hother, hid.trans (writes_id hwrites).symm, hsame, hip⟩, ?_⟩
      rintro ⟨rfl, p, hp, rfl, hplain⟩
      obtain ⟨e', he', a', octets, ha', hv4⟩ := h.ipv4 p hp hplain
      have hlookup := lookup_foldl allowIpv6 t reply .plain p.id
      rw [hlast] at hlookup
      obtain rfl := Option.some.inj (he'.symm.trans hlookup)
      rw [ha] at ha'
      rw [← Except.ok.inj ha'] at hv4
      cases hv4
  · intro h
    refine ⟨?_, kept_keys allowIpv6 reply t, ?_⟩
    · rintro table id ⟨o, ho, hwrites⟩
      obtain ⟨last, hlast⟩ := lastWritten_isSome ho hwrites
      obtain ⟨hmem, hlastWrites⟩ := lastWritten_mem hlast
      obtain ⟨hrange, hparse⟩ := h table id last hlast
      refine ⟨_, by rw [lookup_foldl, hlast], ?_⟩
      rcases hparse with ⟨octets, hv4⟩ | ⟨⟨segments, scopeId, hhost, other, hother, hid, hport, hip⟩, -⟩
      · refine ⟨last, hmem, writes_id hlastWrites, _,
          socketAddr_entry.mpr ⟨_, parseHost_v4.mpr ⟨hv4, rfl⟩, hrange, rfl⟩, hv4, ?_⟩
        exact (Int.toNat_of_nonneg hrange.1).symm
      · refine ⟨other, hother, hid.trans (writes_id hlastWrites), _,
          socketAddr_entry.mpr ⟨_, hhost, hrange, rfl⟩, hip, ?_⟩
        rw [hport]
        exact (Int.toNat_of_nonneg hrange.1).symm
    · intro p hp hplain
      obtain ⟨last, hlast⟩ := lastWritten_isSome hp (Plain.writes allowIpv6 hplain)
      obtain ⟨hrange, hparse⟩ := h .plain p.id last hlast
      have hlookup := lookup_foldl allowIpv6 t reply .plain p.id
      rw [hlast] at hlookup
      refine ⟨_, hlookup, ?_⟩
      rcases hparse with ⟨octets, hv4⟩ | ⟨-, hno⟩
      · exact ⟨_, octets, socketAddr_entry.mpr ⟨_, parseHost_v4.mpr ⟨hv4, rfl⟩, hrange, rfl⟩, rfl⟩
      · exact absurd ⟨rfl, p, hp, rfl, hplain⟩ hno

/-- A DC with an address of each family. -/
def twoFamilies : List DcOption :=
  [⟨false, false, false, false, false, 2, "149.154.167.51", 443⟩,
   ⟨true, false, false, false, false, 2, "2001:67c:4e8:f002::a", 443⟩]

/-- With IPv6 allowed, the address of IPv6 replaces the other one and is not parsed. -/
theorem ipv6_overwrites : ¬ ∀ (allowIpv6 : Bool) (t : DcTables) (reply : List DcOption),
    Connectable allowIpv6 reply t (initConnection allowIpv6 t (.ok (some reply))).1 := by
  intro h
  obtain ⟨e, he, o, -, -, a, ha, -⟩ :=
    (h true ⟨∅, ∅⟩ twoFamilies).address .plain 2 ⟨_, List.mem_cons_self, by decide⟩
  have hlast : lastWritten true twoFamilies .plain 2 = twoFamilies.getLast? := by decide
  have hlookup : AList.lookup 2 ((initConnection true ⟨∅, ∅⟩ (.ok (some twoFamilies))).1.get .plain) = _ :=
    lookup_foldl true ⟨∅, ∅⟩ twoFamilies .plain 2
  rw [hlast] at hlookup
  obtain rfl := Option.some.inj (he.symm.trans hlookup)
  obtain ⟨host, hhost, -⟩ := socketAddr_entry.mp ha
  have hnone : parseHost "2001:67c:4e8:f002::a".toList = none := by rfl
  cases hnone.symm.trans hhost

end Ferogram.InitConnection
