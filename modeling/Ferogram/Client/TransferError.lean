import Ferogram.Client.RpcCall
import Ferogram.Mtsender.Step
import Mathlib.Data.List.Infix

/- The errors of a transfer, `TransferError` of `ferogram/src/transfer.rs`, and the two
   conversions between them and those of a call. What an I/O error is made of is its text.

   What is proved: `conversion_exact_iff`, what comes back of an error that goes through both
   conversions. The name is all that `is` looks at (`is_all_iff`), and the name of a flood wait
   comes back with the seconds behind it. -/
namespace Ferogram.Mtsender

def RpcError.floodWaitSeconds (e : RpcError) : Option UInt64 :=
  if e.code = 420 ∧ e.name = "FLOOD_WAIT" then e.value.map UInt32.toUInt64 else none

def InvocationError.floodWaitSeconds : InvocationError → Option UInt64
  | .rpc e => e.floodWaitSeconds
  | _ => none

end Ferogram.Mtsender

namespace Ferogram.Transfer
open Mtsender (RpcError InvocationError intText)

inductive TransferError where
  | cancelled
  | network (io : String)
  | rpc (code : Int32) (name : String)
  | floodWait (seconds : UInt64)
  | checkpoint (io : String)
  | other (e : InvocationError)
  deriving DecidableEq

/-- The name of a flood wait as it comes back. -/
def floodWaitName (seconds : UInt64) : String := "FLOOD_WAIT_" ++ intText seconds.toNat

def floodWaitError (seconds : UInt64) : RpcError :=
  { code := 420, name := floodWaitName seconds, value := some seconds.toUInt32 }

def TransferError.toInvocation : TransferError → InvocationError
  | .cancelled => .deserialize "transfer cancelled by caller"
  | .network io => .io io
  | .checkpoint io => .io io
  | .rpc code name => .rpc { code := code, name := name, value := none }
  | .floodWait seconds => .rpc (floodWaitError seconds)
  | .other e => e

def TransferError.ofInvocation : InvocationError → TransferError
  | .io io => .network io
  | .dropped => .network "connection dropped"
  | .rpc e => if e.code = 420 then .floodWait (e.value.getD 0).toUInt64 else .rpc e.code e.name
  | .deserialize s => if "cancel".toList <:+: s.toList then .cancelled else .other (.deserialize s)
  | e => .other e

/-- Through both conversions. -/
def back (e : InvocationError) : InvocationError := (TransferError.ofInvocation e).toInvocation

/-- What comes back means the same to the retry policies, the migration and the callers. -/
structure KeepsMeaning (e : InvocationError) : Prop where
  floodWait : (back e).floodWaitSeconds = e.floodWaitSeconds
  migrate : (back e).migrateDcId = e.migrateDcId
  is : ∀ pattern, (back e).is pattern = e.is pattern

/-- The errors that keep their meaning: a flood wait whose name has the seconds already, and
a redirect to the DC that is taken for a missing one. -/
def Kept : InvocationError → Prop
  | .rpc e =>
    if e.code = 420 then e.name = floodWaitName (e.value.getD 0).toUInt64
    else e.code = 303 → "_MIGRATE".toList <:+ e.name.toList → e.value = none ∨ e.value = some 2
  | _ => True

/-! Names. -/

theorem is_star (e : RpcError) (name : String) : e.is (name ++ "*") = name.toList.isPrefixOf e.name.toList := by
  have hlist : (name ++ "*").toList = name.toList ++ ['*'] := String.toList_append
  unfold RpcError.is
  simp only [hlist, List.getLast?_concat, if_true, List.dropLast_concat]

/-- Two errors that answer every pattern alike have the same name. -/
theorem is_all_iff (e e' : RpcError) : (∀ pattern, e.is pattern = e'.is pattern) ↔ e.name = e'.name := by
  constructor
  · intro h
    have hle : e.name.toList <+: e'.name.toList := by
      have hstar := h (e.name ++ "*")
      rw [is_star, is_star, List.isPrefixOf_iff_prefix.mpr (List.prefix_refl _)] at hstar
      exact List.isPrefixOf_iff_prefix.mp hstar.symm
    have hge : e'.name.toList <+: e.name.toList := by
      have hstar := h (e'.name ++ "*")
      rw [is_star, is_star, List.isPrefixOf_iff_prefix.mpr (List.prefix_refl e'.name.toList)] at hstar
      exact List.isPrefixOf_iff_prefix.mp hstar
    exact String.toList_injective (hle.eq_of_length_le hge.length_le)
  · intro h pattern
    unfold RpcError.is
    rw [h]

/-- It is none that is waited for. -/
theorem floodWaitName_ne (seconds : UInt64) : floodWaitName seconds ≠ "FLOOD_WAIT" := by
  intro h
  have hlen := congrArg String.length h
  unfold floodWaitName at hlen
  rw [String.length_append] at hlen
  have hlong : "FLOOD_WAIT_".length = 11 ∧ "FLOOD_WAIT".length = 10 := by decide
  omega

theorem floodWaitSeconds_error (seconds : UInt64) : (floodWaitError seconds).floodWaitSeconds = none :=
  if_neg fun h => floodWaitName_ne seconds h.2

/-! Redirects. -/

/-- The names that are written out in full end like the others. -/
theorem migrateDcId_eq (e : RpcError) : e.migrateDcId =
    if e.code = 303 ∧ "_MIGRATE".toList <:+ e.name.toList then some (e.value.getD 2).toInt32 else none := by
  have hnames : (e.name = "PHONE_MIGRATE" ∨ e.name = "NETWORK_MIGRATE" ∨ e.name = "FILE_MIGRATE" ∨
      e.name = "USER_MIGRATE" ∨ "_MIGRATE".toList.isSuffixOf e.name.toList = true) ↔ "_MIGRATE".toList <:+ e.name.toList := by
    rw [List.isSuffixOf_iff_suffix]
    constructor
    · rintro (h | h | h | h | h)
      · rw [h]
        decide
      · rw [h]
        decide
      · rw [h]
        decide
      · rw [h]
        decide
      · exact h
    · exact fun h => Or.inr (Or.inr (Or.inr (Or.inr h)))
  unfold RpcError.migrateDcId
  by_cases hcode : e.code = 303
  · simp only [hcode, hnames, ne_eq, not_true_eq_false, if_false, true_and]
  · rw [if_pos hcode, if_neg fun h => hcode h.1]

/-- The DC of a redirect without a number is the second one. -/
theorem dc_eq_two_iff (value : Option UInt32) : (2 : UInt32).toInt32 = (value.getD 2).toInt32 ↔ value = none ∨ value = some 2 := by
  have hinj : ∀ v w : UInt32, v.toInt32 = w.toInt32 ↔ v = w := fun v w => ⟨congrArg Int32.toUInt32, congrArg UInt32.toInt32⟩
  rw [hinj]
  cases value with
  | none => exact ⟨fun _ => Or.inl rfl, fun _ => rfl⟩
  | some v =>
    constructor
    · exact fun h => Or.inr (congrArg some h.symm)
    · rintro (h | h)
      · cases h
      · exact (Option.some.inj h).symm

theorem migrate_kept_iff (e : RpcError) : ({ e with value := none } : RpcError).migrateDcId = e.migrateDcId ↔
    (e.code = 303 → "_MIGRATE".toList <:+ e.name.toList → e.value = none ∨ e.value = some 2) := by
  rw [migrateDcId_eq, migrateDcId_eq]
  by_cases h : e.code = 303 ∧ "_MIGRATE".toList <:+ e.name.toList
  · rw [if_pos h, if_pos h, Option.some_inj]
    exact (dc_eq_two_iff e.value).trans ⟨fun hvalue _ _ => hvalue, fun himp => himp h.1 h.2⟩
  · rw [if_neg h, if_neg h]
    exact ⟨fun _ hcode hname => absurd ⟨hcode, hname⟩ h, fun _ => rfl⟩

/-! Both conversions. -/

theorem back_flood {e : RpcError} (h : e.code = 420) :
    back (.rpc e) = .rpc (floodWaitError (e.value.getD 0).toUInt64) := by
  unfold back TransferError.ofInvocation
  dsimp only
  rw [if_pos h]
  rfl

theorem back_rpc {e : RpcError} (h : e.code ≠ 420) : back (.rpc e) = .rpc { e with value := none } := by
  unfold back TransferError.ofInvocation
  dsimp only
  rw [if_neg h]
  rfl

/-- What is not from the server comes back as something that is not from the server. -/
theorem back_other {e : InvocationError} (h : ∀ rpc, e ≠ .rpc rpc) : ∀ rpc, back e ≠ .rpc rpc := by
  intro rpc
  cases e with
  | rpc rpc' => exact absurd rfl (h rpc')
  | deserialize s =>
    unfold back TransferError.ofInvocation
    dsimp only
    split <;> exact InvocationError.noConfusion
  | _ => exact InvocationError.noConfusion

theorem KeepsMeaning.of_other {e : InvocationError} (h : ∀ rpc, e ≠ .rpc rpc) : KeepsMeaning e := by
  have hnone : ∀ {e : InvocationError}, (∀ rpc, e ≠ .rpc rpc) →
      e.floodWaitSeconds = none ∧ e.migrateDcId = none ∧ ∀ pattern, e.is pattern = false := by
    intro e h
    cases e with
    | rpc rpc => exact absurd rfl (h rpc)
    | _ => exact ⟨rfl, rfl, fun _ => rfl⟩
  obtain ⟨hflood, hmigrate, his⟩ := hnone h
  obtain ⟨hflood', hmigrate', his'⟩ := hnone (back_other h)
  exact ⟨hflood'.trans hflood.symm, hmigrate'.trans hmigrate.symm, fun pattern => (his' pattern).trans (his pattern).symm⟩

/-- A flood wait never comes back as one. -/
theorem floodWaitSeconds_back (e : InvocationError) : (back e).floodWaitSeconds = none := by
  cases hback : back e with
  | rpc rpc =>
    cases e with
    | rpc e =>
      by_cases hcode : e.code = 420
      · rw [back_flood hcode] at hback
        obtain rfl := InvocationError.rpc.inj hback
        exact floodWaitSeconds_error _
      · rw [back_rpc hcode] at hback
        obtain rfl := InvocationError.rpc.inj hback
        exact if_neg fun h => hcode h.1
    | _ => exact absurd hback (back_other (by simp) rpc)
  | _ => rfl

theorem keepsMeaning_flood_iff {e : RpcError} (h : e.code = 420) :
    KeepsMeaning (.rpc e) ↔ e.name = floodWaitName (e.value.getD 0).toUInt64 := by
  have hback := back_flood h
  constructor
  · intro hkeeps
    have his : ∀ pattern, e.is pattern = (floodWaitError (e.value.getD 0).toUInt64).is pattern := by
      intro pattern
      have hpattern := hkeeps.is pattern
      rw [hback] at hpattern
      exact hpattern.symm
    exact (is_all_iff e _).mp his
  · intro hname
    refine ⟨?_, ?_, ?_⟩
    · have hnone : e.floodWaitSeconds = none := if_neg fun h => floodWaitName_ne _ (hname.symm.trans h.2)
      rw [floodWaitSeconds_back]
      exact hnone.symm
    · rw [hback]
      have hnone : e.migrateDcId = none := by
        rw [migrateDcId_eq, h]
        exact if_neg fun h303 => absurd h303.1 (by decide)
      exact hnone.symm
    · intro pattern
      rw [hback]
      exact (is_all_iff _ e).mpr hname.symm pattern

theorem keepsMeaning_iff (e : InvocationError) : KeepsMeaning e ↔ Kept e := by
  cases e with
  | rpc e =>
    unfold Kept
    dsimp only
    by_cases hcode : e.code = 420
    · rw [if_pos hcode]
      exact keepsMeaning_flood_iff hcode
    · rw [if_neg hcode, ← migrate_kept_iff]
      have hback := back_rpc hcode
      constructor
      · intro hkeeps
        have hmigrate := hkeeps.migrate
        rw [hback] at hmigrate
        exact hmigrate
      · intro hmigrate
        refine ⟨?_, ?_, ?_⟩
        · have hnone : e.floodWaitSeconds = none := if_neg fun h => hcode h.1
          rw [floodWaitSeconds_back]
          exact hnone.symm
        · rw [hback]
          exact hmigrate
        · intro pattern
          rw [hback]
          exact (is_all_iff _ e).mpr rfl pattern
  | _ => exact iff_of_true (KeepsMeaning.of_other (by simp)) trivial

/-! A cancelled transfer. -/

/-- The error that `poll_pause_cancel` gives to its callers. -/
def pollPauseCancel : InvocationError := TransferError.cancelled.toInvocation

/-- **Conversion of errors.** Which errors keep their meaning, and which `Deserialize` errors
become `Cancelled` although they are others. -/
theorem conversion_exact_iff (e : InvocationError) (s : String) :
    (KeepsMeaning e ↔ Kept e) ∧
      ((TransferError.ofInvocation (.deserialize s) = .cancelled → .deserialize s = pollPauseCancel) ↔
        ("cancel".toList <:+: s.toList → s = "transfer cancelled by caller")) := by
  refine ⟨keepsMeaning_iff e, ?_⟩
  have hcancelled : TransferError.ofInvocation (.deserialize s) = .cancelled ↔ "cancel".toList <:+: s.toList := by
    unfold TransferError.ofInvocation
    dsimp only
    by_cases h : "cancel".toList <:+: s.toList
    · rw [if_pos h]
      exact iff_of_true rfl h
    · rw [if_neg h]
      exact iff_of_false TransferError.noConfusion h
  have htext : (InvocationError.deserialize s = pollPauseCancel) ↔ s = "transfer cancelled by caller" :=
    ⟨InvocationError.deserialize.inj, congrArg InvocationError.deserialize⟩
  rw [hcancelled, htext]

/-- A flood wait is not waited for, a redirect leads elsewhere, and a failure is taken for a cancel. -/
theorem floodWait_lost :
    ¬ KeepsMeaning (.rpc (RpcError.fromTelegram 420 "FLOOD_WAIT_30")) ∧
      ¬ KeepsMeaning (.rpc (RpcError.fromTelegram 303 "FILE_MIGRATE_4")) ∧
      TransferError.ofInvocation (.deserialize "request cancelled by server") = .cancelled ∧
      InvocationError.deserialize "request cancelled by server" ≠ pollPauseCancel := by
  refine ⟨fun h => absurd h.floodWait (by decide), fun h => absurd h.migrate (by decide), by decide, by decide⟩

end Ferogram.Transfer
