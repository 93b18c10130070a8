import Mathlib.Data.Finset.Basic
import Mathlib.Data.List.MinMax
import Ferogram.Lib.Run
import Ferogram.Mtsender.Sender

/- The pool of per-DC connections (`ferogram-mtsender/src/pool.rs`).

   A slot is shared: the pool holds it while it is in use for new calls, and every lease
   of it holds it until the call is over, also after the pool has dropped it. So the
   slots live in one list, a handle is a slot's number, and comparing numbers is
   `Arc::ptr_eq`. A lease is its slot's number; `leases` has one entry for each lease
   that has not been dropped yet, and an operation names a lease by its place there.
   The tasks of the client do their operations one at a time in any order.

   What is proved: `pool_accounting`, over every such run. -/
namespace Ferogram.Mtsender

/-- One connection. `inFlight` is an `AtomicUsize`: it wraps. -/
structure ConnSlot where
  inFlight : UInt64
  alive : Bool
  deriving DecidableEq, Repr

structure DcPool where
  slots : List ConnSlot
  conns : Int32 → Option (List Nat)
  initDone : Finset Int32
  leases : List Nat

namespace DcPool

def new : DcPool := { slots := [], conns := fun _ => none, initDone := ∅, leases := [] }

/-- The DC's slots. -/
def slotsOf (p : DcPool) (dcId : Int32) : List Nat := (p.conns dcId).getD []

def alive (p : DcPool) (i : Nat) : Bool := (p.slots[i]?).elim false ConnSlot.alive

def inFlight (p : DcPool) (i : Nat) : Nat := (p.slots[i]?).elim 0 fun slot => slot.inFlight.toNat

/-- A new slot joins those of the DC that are still alive. -/
def insert (p : DcPool) (dcId : Int32) : DcPool :=
  { p with
    slots := p.slots ++ [{ inFlight := 0, alive := true }]
    conns := Function.update p.conns dcId
      (some ((p.slotsOf dcId).filter p.alive ++ [p.slots.length]))
    initDone := Insert.insert dcId p.initDone }

/-- `min_by_key` takes the first of the least busy ones. -/
def selectSlot (p : DcPool) (dcId : Int32) : Except InvocationError Nat :=
  match ((p.slotsOf dcId).filter p.alive).argmin p.inFlight with
  | some i => .ok i
  | none => .error (.deserialize s!"no ready connection for DC{dcId}")

def fetchAdd (slot : ConnSlot) : ConnSlot := { slot with inFlight := slot.inFlight + 1 }
def fetchSub (slot : ConnSlot) : ConnSlot := { slot with inFlight := slot.inFlight - 1 }

def reserveSlot (p : DcPool) (dcId : Int32) : Except InvocationError (Nat × DcPool) := do
  let i ← p.selectSlot dcId
  pure (i, { p with slots := p.slots.modify i fetchAdd, leases := i :: p.leases })

/-- `Drop for SlotLease`. -/
def dropLease (p : DcPool) (k : Nat) : DcPool :=
  match p.leases[k]? with
  | some i => { p with slots := p.slots.modify i fetchSub, leases := p.leases.eraseIdx k }
  | none => p

def evict (p : DcPool) (dcId : Int32) : DcPool :=
  { p with conns := Function.update p.conns dcId none, initDone := p.initDone.erase dcId }

/-- The DC session lost its `initConnection` state. -/
def isConnectionNotInited : Except InvocationError (List UInt8) → Bool
  | .error (.rpc e) => e.name == "CONNECTION_NOT_INITED"
  | _ => false

/-- The auth key is gone. -/
def isAuthKeyGone : Except InvocationError (List UInt8) → Bool
  | .error (.rpc e) => e.code == -404
  | _ => false

def isErr : Except InvocationError (List UInt8) → Bool
  | .error _ => true
  | .ok _ => false

/-- `fatal` in `finish_call`: the connection cannot serve another call. -/
def isFatal (p : DcPool) (lease : Nat) (result : Except InvocationError (List UInt8)) : Bool :=
  isAuthKeyGone result || isConnectionNotInited result || (isErr result && !p.alive lease)

/-- `lease` is the number of the slot the call went through. -/
def finishCall (p : DcPool) (dcId : Int32) (lease : Nat) (result : Except InvocationError (List UInt8)) :
    DcPool :=
  if p.isFatal lease result && (p.slotsOf dcId).contains lease then p.evict dcId else p

/-- The drain task, or a call that finds the sender task gone. -/
def die (p : DcPool) (i : Nat) : DcPool :=
  { p with slots := p.slots.modify i fun slot => { slot with alive := false } }

/-- `isize::MAX`: `Arc::clone` aborts the process when a value has more handles. -/
def maxRefcount : Nat := 2 ^ 63 - 1

inductive Op where
  | insert (dcId : Int32)
  | reserveSlot (dcId : Int32)
  | dropLease (k : Nat)
  | die (i : Nat)
  | finishCall (dcId : Int32) (k : Nat) (result : Except InvocationError (List UInt8))
  | evict (dcId : Int32)

/-- One operation of one task. -/
def next (p : DcPool) : Op → DcPool
  | .insert dcId => p.insert dcId
  | .reserveSlot dcId =>
    match p.reserveSlot dcId with
    | .ok (i, p') =>
      -- The handles are the leases and the pool's own; an aborted process takes no step.
      if p.leases.count i + 1 ≤ maxRefcount then p' else p
    | .error _ => p
  | .dropLease k => p.dropLease k
  | .die i => p.die i
  | .finishCall dcId k result =>
    match p.leases[k]? with
    | some lease => p.finishCall dcId lease result
    | none => p
  | .evict dcId => p.evict dcId

/-! What an operation does to a slot's counter and to the leases of it. -/

theorem finishCall_slots (p : DcPool) (dcId : Int32) (lease : Nat)
    (result : Except InvocationError (List UInt8)) :
    (p.finishCall dcId lease result).slots = p.slots := by
  unfold finishCall
  split <;> rfl

theorem finishCall_leases (p : DcPool) (dcId : Int32) (lease : Nat)
    (result : Except InvocationError (List UInt8)) :
    (p.finishCall dcId lease result).leases = p.leases := by
  unfold finishCall
  split <;> rfl

/-- A late result touches nothing. -/
theorem finishCall_late {p : DcPool} {dcId : Int32} {lease : Nat}
    (h : lease ∉ p.slotsOf dcId) (result : Except InvocationError (List UInt8)) :
    p.finishCall dcId lease result = p := by
  have hcontains : (p.slotsOf dcId).contains lease = false := by simpa using h
  unfold finishCall
  rw [hcontains, Bool.and_false, if_neg Bool.false_ne_true]

theorem selectSlot_ok {p : DcPool} {dcId : Int32} {i : Nat} :
    p.selectSlot dcId = .ok i ↔
      ((p.slotsOf dcId).filter p.alive).argmin p.inFlight = some i := by
  unfold selectSlot
  split
  case h_1 j hj => rw [hj]; simp
  case h_2 hnone => rw [hnone]; simp

theorem reserveSlot_ok {p p' : DcPool} {dcId : Int32} {i : Nat} :
    p.reserveSlot dcId = .ok (i, p') ↔ p.selectSlot dcId = .ok i ∧
      p' = { p with slots := p.slots.modify i fetchAdd, leases := i :: p.leases } := by
  unfold reserveSlot
  cases hsel : p.selectSlot dcId with
  | error e => simp [bind, Except.bind]
  | ok j =>
    simp only [bind, Except.bind, pure, Except.pure, Except.ok.injEq, Prod.mk.injEq]
    constructor
    · rintro ⟨rfl, rfl⟩
      exact ⟨rfl, rfl⟩
    · rintro ⟨rfl, rfl⟩
      exact ⟨rfl, rfl⟩

/-- The slot chosen is alive, belongs to the DC and is the least busy one. -/
theorem selectSlot_minimal {p : DcPool} {dcId : Int32} {i : Nat} (h : p.selectSlot dcId = .ok i) :
    i ∈ p.slotsOf dcId ∧ p.alive i = true ∧
      ∀ j ∈ p.slotsOf dcId, p.alive j = true → p.inFlight i ≤ p.inFlight j := by
  have harg := selectSlot_ok.mp h
  have hmem := List.mem_filter.mp (List.argmin_mem harg)
  refine ⟨hmem.1, hmem.2, ?_⟩
  intro j hj halive
  exact List.le_of_mem_argmin (List.mem_filter.mpr ⟨hj, halive⟩) harg

theorem selectSlot_isOk {p : DcPool} {dcId : Int32} :
    (∃ i, p.selectSlot dcId = .ok i) ↔ ∃ i ∈ p.slotsOf dcId, p.alive i = true := by
  constructor
  · rintro ⟨i, hi⟩
    have hmin := selectSlot_minimal hi
    exact ⟨i, hmin.1, hmin.2.1⟩
  · rintro ⟨i, hi, halive⟩
    have hne : (p.slotsOf dcId).filter p.alive ≠ [] := by
      intro hnil
      exact List.filter_eq_nil_iff.mp hnil i hi halive
    obtain ⟨j, hj⟩ := Option.ne_none_iff_exists'.mp
      (mt (List.argmin_eq_none (f := p.inFlight)).mp hne)
    exact ⟨j, selectSlot_ok.mpr hj⟩

/-! The counters. -/

/-- Every slot counts its leases, and every lease is of a slot. -/
structure Counted (p : DcPool) : Prop where
  inFlight : ∀ i slot, p.slots[i]? = some slot → slot.inFlight.toNat = p.leases.count i
  leased : ∀ i ∈ p.leases, i < p.slots.length

theorem fetchAdd_toNat {slot : ConnSlot} (h : slot.inFlight.toNat + 1 < 2 ^ 64) :
    (fetchAdd slot).inFlight.toNat = slot.inFlight.toNat + 1 := by
  unfold fetchAdd
  rw [UInt64.toNat_add]
  exact Nat.mod_eq_of_lt h

theorem fetchSub_toNat {slot : ConnSlot} (h : 0 < slot.inFlight.toNat) :
    (fetchSub slot).inFlight.toNat = slot.inFlight.toNat - 1 := by
  unfold fetchSub
  have hle : (1 : UInt64) ≤ slot.inFlight := by
    rw [UInt64.le_iff_toNat_le]
    exact h
  rw [UInt64.toNat_sub_of_le _ _ hle]
  rfl

theorem Counted.insert {p : DcPool} (h : p.Counted) (dcId : Int32) : (p.insert dcId).Counted := by
  constructor
  · intro i slot hslot
    rcases Nat.lt_trichotomy i p.slots.length with hlt | rfl | hgt
    · exact h.inFlight i slot (by rwa [DcPool.insert, List.getElem?_append_left hlt] at hslot)
    · -- The new slot: no lease can be of a slot that did not exist.
      have hnew : slot = { inFlight := 0, alive := true } := by
        simpa [DcPool.insert] using hslot.symm
      have hcount : p.leases.count p.slots.length = 0 := by
        rw [List.count_eq_zero]
        intro hmem
        exact Nat.lt_irrefl _ (h.leased _ hmem)
      rw [hnew]
      exact hcount.symm
    · have hnone : (p.insert dcId).slots[i]? = none := by
        simp [DcPool.insert]
        omega
      rw [hnone] at hslot
      cases hslot
  · intro i hi
    have := h.leased i hi
    simp only [DcPool.insert, List.length_append, List.length_singleton]
    omega

theorem Counted.reserveSlot {p p' : DcPool} (h : p.Counted) {dcId : Int32} {i : Nat}
    (hres : p.reserveSlot dcId = .ok (i, p')) (hcap : p.leases.count i + 1 ≤ maxRefcount) :
    p'.Counted := by
  obtain ⟨hsel, rfl⟩ := reserveSlot_ok.mp hres
  have halive := (selectSlot_minimal hsel).2.1
  have hlt : i < p.slots.length := by
    by_contra hge
    rw [alive, List.getElem?_eq_none (Nat.le_of_not_lt hge)] at halive
    cases halive
  constructor
  · intro j slot hslot
    rw [List.getElem?_modify] at hslot
    by_cases hij : i = j
    · subst hij
      obtain ⟨old, hold, rfl⟩ : ∃ old, p.slots[i]? = some old ∧ fetchAdd old = slot := by
        simpa [Option.map_eq_some_iff] using hslot
      have hcount := h.inFlight i old hold
      rw [fetchAdd_toNat (by unfold maxRefcount at hcap; omega), List.count_cons_self, hcount]
    · have hold : p.slots[j]? = some slot := by simpa [hij] using hslot
      rw [List.count_cons_of_ne hij]
      exact h.inFlight j slot hold
  · intro j hj
    rw [List.length_modify]
    rcases List.mem_cons.mp hj with rfl | hj
    · exact hlt
    · exact h.leased j hj

theorem Counted.dropLease {p : DcPool} (h : p.Counted) (k : Nat) : (p.dropLease k).Counted := by
  unfold DcPool.dropLease
  split
  case h_2 => exact h
  case h_1 i hi =>
    have hmem : i ∈ p.leases := List.mem_of_getElem? hi
    have hperm : p.leases.Perm (i :: p.leases.eraseIdx k) := by
      obtain ⟨hk, hget⟩ := List.getElem?_eq_some_iff.mp hi
      rw [← hget]
      exact (List.getElem_cons_eraseIdx_perm hk).symm
    constructor
    · intro j slot hslot
      rw [List.getElem?_modify] at hslot
      by_cases hij : i = j
      · subst hij
        obtain ⟨old, hold, rfl⟩ : ∃ old, p.slots[i]? = some old ∧ fetchSub old = slot := by
          simpa [Option.map_eq_some_iff] using hslot
        have hcount := h.inFlight i old hold
        rw [hperm.count_eq, List.count_cons_self] at hcount
        rw [fetchSub_toNat (by omega), hcount]
        rfl
      · have hold : p.slots[j]? = some slot := by simpa [hij] using hslot
        have hcount := h.inFlight j slot hold
        rwa [hperm.count_eq, List.count_cons_of_ne hij] at hcount
    · intro j hj
      rw [List.length_modify]
      exact h.leased j (List.mem_of_mem_eraseIdx hj)

theorem Counted.die {p : DcPool} (h : p.Counted) (i : Nat) : (p.die i).Counted := by
  constructor
  · intro j slot hslot
    simp only [DcPool.die, List.getElem?_modify] at hslot
    obtain ⟨old, hold, rfl⟩ := Option.map_eq_some_iff.mp hslot
    have hcount := h.inFlight j old hold
    by_cases hij : i = j
    · rw [if_pos hij]
      exact hcount
    · rw [if_neg hij]
      exact hcount
  · intro j hj
    rw [DcPool.die, List.length_modify]
    exact h.leased j hj

theorem Counted.next {p : DcPool} (op : Op) (h : p.Counted) : (p.next op).Counted := by
  cases op with
  | insert dcId => exact h.insert dcId
  | reserveSlot dcId =>
    unfold DcPool.next
    dsimp only
    split
    case h_1 i p' hres =>
      by_cases hcap : p.leases.count i + 1 ≤ maxRefcount
      · rw [if_pos hcap]
        exact h.reserveSlot hres hcap
      · rw [if_neg hcap]
        exact h
    case h_2 => exact h
  | dropLease k => exact h.dropLease k
  | die i => exact h.die i
  | finishCall dcId k result =>
    unfold DcPool.next
    dsimp only
    split
    case h_1 lease hlease =>
      exact ⟨by rw [finishCall_slots, finishCall_leases]; exact h.inFlight,
        by rw [finishCall_slots, finishCall_leases]; exact h.leased⟩
    case h_2 => exact h
  | evict dcId => exact ⟨h.inFlight, h.leased⟩

theorem Counted.new : DcPool.new.Counted :=
  ⟨fun _ _ h => by simp [DcPool.new] at h, fun _ h => by simp [DcPool.new] at h⟩

/-- What a drop takes back is one lease, and one of its slot's counter. -/
theorem Counted.dropLease_ends {p : DcPool} (h : p.Counted) {k i : Nat} (hlease : p.leases[k]? = some i) :
    (p.dropLease k).leases = p.leases.eraseIdx k ∧ (p.dropLease k).inFlight i + 1 = p.inFlight i ∧
      ∀ j, j ≠ i → (p.dropLease k).inFlight j = p.inFlight j := by
  have hmem : i ∈ p.leases := List.mem_of_getElem? hlease
  obtain ⟨slot, hslot⟩ : ∃ slot, p.slots[i]? = some slot := ⟨_, List.getElem?_eq_getElem (h.leased i hmem)⟩
  have hpos : 0 < slot.inFlight.toNat := by
    rw [h.inFlight i slot hslot]
    exact List.count_pos_iff.mpr hmem
  have hdrop : p.dropLease k = { p with slots := p.slots.modify i fetchSub, leases := p.leases.eraseIdx k } := by
    rw [DcPool.dropLease, hlease]
  rw [hdrop]
  refine ⟨rfl, ?_, fun j hj => ?_⟩
  · simp only [DcPool.inFlight, List.getElem?_modify, hslot, if_true, Option.map_eq_map, Option.map_some, Option.elim_some,
      fetchSub_toNat hpos]
    omega
  · simp only [DcPool.inFlight, List.getElem?_modify, if_neg hj.symm, id_map']

/-- In every state of every run: each counter, also of a slot the pool has dropped, is
the number of live leases; a slot can be reserved exactly when the DC has a live one,
and the one handed out is a least busy live one, with one lease more; a drop ends the
one lease, and takes one from the counter of its slot; a result that comes after its
slot has left the DC changes neither the connections nor the set of initialised DCs. -/
theorem pool_accounting (ops : List Op) (p : DcPool) (hp : p ∈ Run.states next DcPool.new ops) :
    (∀ i slot, p.slots[i]? = some slot → slot.inFlight.toNat = p.leases.count i) ∧
    (∀ dcId, (∃ i p', p.reserveSlot dcId = .ok (i, p')) ↔ ∃ i ∈ p.slotsOf dcId, p.alive i = true) ∧
    (∀ dcId i p', p.reserveSlot dcId = .ok (i, p') →
      i ∈ p.slotsOf dcId ∧ p.alive i = true ∧ p'.leases = i :: p.leases ∧
        ∀ j ∈ p.slotsOf dcId, p.alive j = true → p.inFlight i ≤ p.inFlight j) ∧
    (∀ k i, p.leases[k]? = some i →
      (p.dropLease k).leases = p.leases.eraseIdx k ∧ (p.dropLease k).inFlight i + 1 = p.inFlight i ∧
        ∀ j, j ≠ i → (p.dropLease k).inFlight j = p.inFlight j) ∧
    (∀ dcId lease result, lease ∈ p.leases → lease ∉ p.slotsOf dcId →
      (p.finishCall dcId lease result).conns = p.conns ∧
        (p.finishCall dcId lease result).initDone = p.initDone) := by
  have hcounted : p.Counted :=
    Run.states_inv_all next (fun p op => Counted.next op) ops DcPool.new Counted.new p hp
  refine ⟨hcounted.inFlight, ?_, ?_, fun k i => hcounted.dropLease_ends, ?_⟩
  · intro dcId
    rw [← selectSlot_isOk]
    constructor
    · rintro ⟨i, p', hres⟩
      exact ⟨i, (reserveSlot_ok.mp hres).1⟩
    · rintro ⟨i, hi⟩
      exact ⟨i, _, reserveSlot_ok.mpr ⟨hi, rfl⟩⟩
  · intro dcId i p' hres
    obtain ⟨hsel, rfl⟩ := reserveSlot_ok.mp hres
    obtain ⟨hmem, halive, hleast⟩ := selectSlot_minimal hsel
    exact ⟨hmem, halive, rfl, hleast⟩
  · intro dcId lease result _ hlate
    rw [finishCall_late hlate]
    exact ⟨rfl, rfl⟩

/-- A connection dies under two calls and is replaced before the result of the second one is handled;
the first one's lease is dropped. -/
def replacedRun : List Op :=
  [.insert 2, .reserveSlot 2, .reserveSlot 2, .die 0, .finishCall 2 0 (.error .dropped), .dropLease 0, .insert 2]

theorem pool_accounting_replaced :
    (Run.final next DcPool.new replacedRun).leases = [0] ∧
    ((Run.final next DcPool.new replacedRun).dropLease 0).inFlight 0 + 1 =
      (Run.final next DcPool.new replacedRun).inFlight 0 ∧
    (Run.final next DcPool.new replacedRun).slotsOf 2 = [1] ∧
    ((Run.final next DcPool.new replacedRun).finishCall 2 0 (.error .dropped)).conns =
      (Run.final next DcPool.new replacedRun).conns :=
  ⟨by decide,
    ((pool_accounting replacedRun _ (Run.final_mem_states next replacedRun DcPool.new)).2.2.2.1 0 0
      (by decide)).2.1, by decide,
    ((pool_accounting replacedRun _ (Run.final_mem_states next replacedRun DcPool.new)).2.2.2.2 2 0
      (.error .dropped) (by decide) (by decide)).1⟩

end DcPool

end Ferogram.Mtsender
