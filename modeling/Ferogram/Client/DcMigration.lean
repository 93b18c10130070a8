import Mathlib.Data.Finset.Basic
import Ferogram.Lib.Crew

/- The copy of the account's authorization to another DC, `copy_auth_to_dc` of
   `ferogram/src/dc_migration.rs`, by any number of tasks at once.

   `DcAuthTracker` has two sets, each under a lock of its own: the DCs that have a copy, and
   those whose slot is taken while an export or import is under way. A step below is what a
   call does under one lock, or the end of one of its two waits, at which it may also be
   dropped.

   A slot is taken exactly by the one call that has taken it and not given it back
   (`Inv.slot`), which a dropped call never does. What is proved: `authorization_copied`,
   over every run. A second call does not wait for the first one's import. -/
namespace Ferogram.DcMigration

/-- Where a call is: not begun, told that there is no copy, in one of its two waits, about to
give the slot back after an import and then to note the copy, about to give the slot back after
a failure, over, or dropped in a wait. -/
inductive Phase where
  | waiting
  | asked
  | exporting
  | importing
  | marking
  | marked
  | cancelling
  | returned (ok : Bool)
  | dropped
  deriving DecidableEq

structure CopyCall where
  target : Int32
  phase : Phase
  deriving DecidableEq

/-- `succeeded` are the DCs on which an import has succeeded. -/
structure Tracker where
  copied : Finset Int32
  inProgress : Finset Int32
  succeeded : Finset Int32
  deriving DecidableEq

namespace Tracker

def new : Tracker := { copied := ∅, inProgress := ∅, succeeded := ∅ }

def hasCopied (s : Tracker) (dcId : Int32) : Bool := dcId ∈ s.copied

/-- The slot, if it is free. -/
def beginImport (s : Tracker) (dcId : Int32) : Tracker × Bool :=
  ({ s with inProgress := insert dcId s.inProgress }, dcId ∉ s.inProgress)

/-- `cancel_import`, and the first half of `mark_copied`. -/
def cancelImport (s : Tracker) (dcId : Int32) : Tracker := { s with inProgress := s.inProgress.erase dcId }

/-- The second half of `mark_copied`. -/
def noteCopied (s : Tracker) (dcId : Int32) : Tracker := { s with copied := insert dcId s.copied }

end Tracker

inductive Event where
  | lock
  | answer (ok : Bool)
  | drop
  deriving DecidableEq

section Step
variable (home : Int32)

def step (s : Tracker) (w : CopyCall) (e : Event) : Tracker × CopyCall :=
  match w.phase, e with
  | .waiting, .lock =>
    (s, { w with phase := if w.target = home ∨ s.hasCopied w.target = true then .returned true else .asked })
  | .asked, .lock =>
    ((s.beginImport w.target).1,
      { w with phase := if (s.beginImport w.target).2 then .exporting else .returned true })
  | .exporting, .answer ok => (s, { w with phase := if ok then .importing else .cancelling })
  | .importing, .answer true => ({ s with succeeded := insert w.target s.succeeded }, { w with phase := .marking })
  | .importing, .answer false => (s, { w with phase := .cancelling })
  | .exporting, .drop | .importing, .drop => (s, { w with phase := .dropped })
  | .marking, .lock => (s.cancelImport w.target, { w with phase := .marked })
  | .marked, .lock => (s.noteCopied w.target, { w with phase := .returned true })
  | .cancelling, .lock => (s.cancelImport w.target, { w with phase := .returned false })
  | _, _ => (s, w)

def start (targets : List Int32) : Crew Tracker CopyCall :=
  { shared := .new, workers := targets.map fun target => ⟨target, .waiting⟩ }

/-- The steps of the calls, in any order. -/
def run (targets : List Int32) (events : List (Nat × Event)) : Crew Tracker CopyCall :=
  Run.final (Crew.next (step home)) (start targets) events

end Step

/-! The slots. -/

/-- The call has taken the slot and not given it back. -/
def Phase.holds : Phase → Bool
  | .exporting | .importing | .marking | .cancelling | .dropped => true
  | _ => false

/-- An import of the call has succeeded. -/
def Phase.imported : Phase → Bool
  | .marking | .marked => true
  | _ => false

def CopyCall.Holds (w : CopyCall) (dcId : Int32) : Prop := w.target = dcId ∧ w.phase.holds = true

/-- The slots are held; a call that is about to note a copy has one, and so has a DC that is noted. -/
structure Inv (c : Crew Tracker CopyCall) : Prop where
  held : c.Held (fun s dcId => dcId ∈ s.inProgress) CopyCall.Holds
  imported : ∀ w ∈ c.workers, w.phase.imported = true → w.target ∈ c.shared.succeeded
  copied : c.shared.copied ⊆ c.shared.succeeded

section Steps
variable {home : Int32} {c : Crew Tracker CopyCall} {i : Nat} {w w' : CopyCall} {s' : Tracker}

/-- A step that neither takes a slot nor gives one back. -/
theorem Inv.keep (hc : Inv c) (hi : c.workers[i]? = some w) (htarget : w'.target = w.target)
    (hholds : w'.phase.holds = w.phase.holds) (hslots : s'.inProgress = c.shared.inProgress)
    (himported : w'.phase.imported = true → w'.target ∈ s'.succeeded) (hsucceeded : c.shared.succeeded ⊆ s'.succeeded)
    (hcopied : s'.copied ⊆ s'.succeeded) : Inv { shared := s', workers := c.workers.set i w' } := by
  have hsame : ∀ dcId, w'.Holds dcId ↔ w.Holds dcId := by
    intro dcId
    rw [CopyCall.Holds, CopyCall.Holds, htarget, hholds]
  refine ⟨hc.held.set hi (fun dcId h => Or.inl ((hsame dcId).mp h)) ?_, ?_, hcopied⟩
  · intro dcId
    rw [hslots, hsame]
    constructor
    · intro h
      exact (em (w.Holds dcId)).imp_right fun hnot => ⟨h, hnot⟩
    · intro h
      exact h.elim (fun hw => (hc.held.taken dcId).mpr ⟨w, List.mem_of_getElem? hi, hw⟩) And.left
  · exact Crew.forall_set (fun v hv h => hsucceeded (hc.imported v hv h)) himported

/-- A call takes a slot that is free. -/
theorem Inv.take (hc : Inv c) (hi : c.workers[i]? = some w) (hw : w.phase.holds = false)
    (hfree : w.target ∉ c.shared.inProgress) :
    Inv { shared := (c.shared.beginImport w.target).1, workers := c.workers.set i { w with phase := .exporting } } := by
  have hnot : ∀ dcId, ¬ w.Holds dcId := fun dcId h => absurd (hw.symm.trans h.2) nofun
  refine ⟨hc.held.set hi ?_ ?_, Crew.forall_set hc.imported nofun, hc.copied⟩
  · rintro dcId ⟨rfl, -⟩
    exact Or.inr hfree
  · intro dcId
    rw [Tracker.beginImport, Finset.mem_insert]
    constructor
    · rintro (rfl | h)
      · exact Or.inl ⟨rfl, rfl⟩
      · exact Or.inr ⟨h, hnot dcId⟩
    · rintro (⟨rfl, -⟩ | ⟨h, -⟩)
      · exact Or.inl rfl
      · exact Or.inr h

/-- A call gives its slot back. -/
theorem Inv.release {phase : Phase} (hc : Inv c) (hi : c.workers[i]? = some w) (hw : w.phase.holds = true)
    (hphase : phase.holds = false) (himported : phase.imported = true → w.target ∈ c.shared.succeeded) :
    Inv { shared := c.shared.cancelImport w.target, workers := c.workers.set i { w with phase } } := by
  have hnot : ∀ dcId, ¬ ({ w with phase } : CopyCall).Holds dcId := fun dcId h => absurd (hphase.symm.trans h.2) nofun
  refine ⟨hc.held.set hi (fun dcId h => absurd h (hnot dcId)) ?_, Crew.forall_set hc.imported himported, hc.copied⟩
  intro dcId
  rw [Tracker.cancelImport, Finset.mem_erase]
  constructor
  · rintro ⟨hne, h⟩
    exact Or.inr ⟨h, fun hself => hne hself.1.symm⟩
  · rintro (h | ⟨h, hself⟩)
    · exact absurd h (hnot dcId)
    · exact ⟨fun heq => hself ⟨heq.symm, hw⟩, h⟩

theorem Inv.next (hc : Inv c) (e : Nat × Event) : Inv (Crew.next (step home) c e) := by
  cases hi : c.workers[e.1]? with
  | none => rwa [Crew.next_none _ hi]
  | some w =>
    rw [Crew.next_some _ hi]
    have hmem : w ∈ c.workers := List.mem_of_getElem? hi
    unfold step
    split
    · next hw _ =>
      refine hc.keep hi rfl ?_ rfl ?_ (Finset.Subset.refl _) hc.copied
      · rw [hw]
        dsimp only
        split <;> rfl
      · dsimp only
        split <;> nofun
    · next hw _ =>
      by_cases hfree : w.target ∈ c.shared.inProgress
      · -- somebody else has the claim
        have hslots : (c.shared.beginImport w.target).1 = c.shared := by
          rw [Tracker.beginImport, Finset.insert_eq_of_mem hfree]
        have hskip : (c.shared.beginImport w.target).2 = false := decide_eq_false (not_not.mpr hfree)
        rw [hslots, hskip]
        exact hc.keep hi rfl (by rw [hw]; rfl) rfl nofun (Finset.Subset.refl _) hc.copied
      · -- the claim is free
        have hclaim : (c.shared.beginImport w.target).2 = true := decide_eq_true hfree
        rw [hclaim]
        exact hc.take hi (by rw [hw]; rfl) hfree
    · next ok hw _ =>
      refine hc.keep hi rfl ?_ rfl ?_ (Finset.Subset.refl _) hc.copied
      · rw [hw]
        cases ok <;> rfl
      · cases ok <;> nofun
    · next hw _ =>
      exact hc.keep hi rfl (by rw [hw]; rfl) rfl (fun _ => Finset.mem_insert_self ..) (Finset.subset_insert ..)
        (hc.copied.trans (Finset.subset_insert ..))
    · next hw _ => exact hc.keep hi rfl (by rw [hw]; rfl) rfl nofun (Finset.Subset.refl _) hc.copied
    · next hw _ => exact hc.keep hi rfl (by rw [hw]; rfl) rfl nofun (Finset.Subset.refl _) hc.copied
    · next hw _ => exact hc.keep hi rfl (by rw [hw]; rfl) rfl nofun (Finset.Subset.refl _) hc.copied
    · next hw _ => exact hc.release hi (by rw [hw]; rfl) rfl fun _ => hc.imported w hmem (by rw [hw]; rfl)
    · next hw _ =>
      refine hc.keep hi rfl (by rw [hw]; rfl) rfl nofun (Finset.Subset.refl _) ?_
      exact Finset.insert_subset (hc.imported w hmem (by rw [hw]; rfl)) hc.copied
    · next hw _ => exact hc.release hi (by rw [hw]; rfl) rfl nofun
    · exact hc.keep hi rfl rfl rfl (hc.imported w hmem) (Finset.Subset.refl _) hc.copied

end Steps

theorem start_inv (targets : List Int32) : Inv (start targets) := by
  have hphase : ∀ w ∈ (start targets).workers, w.phase = .waiting := by
    intro w hw
    obtain ⟨target, -, rfl⟩ := List.mem_map.mp hw
    rfl
  have hnone : ∀ w ∈ (start targets).workers, ∀ dcId, ¬ w.Holds dcId := by
    rintro w hw dcId ⟨-, h⟩
    rw [hphase w hw] at h
    cases h
  refine ⟨⟨?_, ?_⟩, ?_, Finset.empty_subset _⟩
  · intro dcId
    constructor
    · intro h
      cases h
    · rintro ⟨w, hw, h⟩
      exact absurd h (hnone w hw dcId)
  · intro dcId i j v w hi _ hv _
    exact absurd hv (hnone v (List.mem_of_getElem? hi) dcId)
  · intro w hw h
    rw [hphase w hw] at h
    cases h

theorem run_inv (home : Int32) (targets : List Int32) (events : List (Nat × Event)) : Inv (run home targets events) :=
  Run.states_inv_all (I := Inv) (Crew.next (step home)) (fun _ e hc => hc.next e) events _ (start_inv targets) _
    (Run.final_mem_states _ events _)

/-! What the calls do. -/

/-- The state of the account's authorization on other DCs. -/
structure Copies (home : Int32) (c : Crew Tracker CopyCall) : Prop where
  /-- One import at a time for each DC. -/
  oneImport : ∀ (i j : Nat) (v w : CopyCall), c.workers[i]? = some v → c.workers[j]? = some w → v.phase = .importing →
    w.phase = .importing → v.target = w.target → i = j
  /-- A call that begins after the copy is noted exports and imports nothing. -/
  noneAfter : ∀ (i : Nat) (w : CopyCall), c.workers[i]? = some w → w.phase = .waiting → w.target ∈ c.shared.copied →
    ∀ (later : List (Nat × Event)) (v : CopyCall), (Run.final (Crew.next (step home)) c later).workers[i]? = some v →
      v.phase = .waiting ∨ v.phase = .returned true
  /-- A call succeeds at home, after an import, or where another call has the slot. -/
  succeeds : ∀ (i : Nat) (w v : CopyCall) (e : Event), c.workers[i]? = some w → w.phase ≠ .returned true →
    (Crew.next (step home) c (i, e)).workers[i]? = some v → v.phase = .returned true →
      w.target = home ∨ w.target ∈ c.shared.succeeded ∨ ∃ j u, j ≠ i ∧ c.workers[j]? = some u ∧ u.Holds w.target
  /-- A call that fails has given the slot back. -/
  fails : ∀ (i : Nat) (w v : CopyCall) (e : Event), c.workers[i]? = some w → w.phase ≠ .returned false →
    (Crew.next (step home) c (i, e)).workers[i]? = some v → v.phase = .returned false →
      w.target ∉ (Crew.next (step home) c (i, e)).shared.inProgress
  /-- A slot that is not free is in the hands of a call. -/
  slots : ∀ dcId ∈ c.shared.inProgress, ∃ w ∈ c.workers, w.Holds dcId

section Results
variable {home : Int32} {c : Crew Tracker CopyCall} {i : Nat} {w v : CopyCall}

theorem Inv.oneImport (hc : Inv c) {j : Nat} (hi : c.workers[i]? = some v) (hj : c.workers[j]? = some w)
    (hv : v.phase = .importing) (hw : w.phase = .importing) (htarget : v.target = w.target) : i = j :=
  hc.held.one v.target i j v w hi hj ⟨rfl, by rw [hv]; rfl⟩ ⟨htarget.symm, by rw [hw]; rfl⟩

/-- A noted copy stays noted. -/
theorem copied_step (s : Tracker) (w : CopyCall) (e : Event) : s.copied ⊆ (step home s w e).1.copied := by
  unfold step
  split
  · exact Finset.Subset.refl _
  · exact Finset.Subset.refl _
  · exact Finset.Subset.refl _
  · exact Finset.Subset.refl _
  · exact Finset.Subset.refl _
  · exact Finset.Subset.refl _
  · exact Finset.Subset.refl _
  · exact Finset.Subset.refl _
  · exact Finset.subset_insert ..
  · exact Finset.Subset.refl _
  · exact Finset.Subset.refl _

/-- The call in place `i` has not begun or is over, with a copy noted. -/
def Idle (i : Nat) (dcId : Int32) (c : Crew Tracker CopyCall) : Prop :=
  dcId ∈ c.shared.copied ∧ ∃ w, c.workers[i]? = some w ∧ w.target = dcId ∧ (w.phase = .waiting ∨ w.phase = .returned true)

theorem idle_step {dcId : Int32} (c : Crew Tracker CopyCall) (e : Nat × Event) (h : Idle i dcId c) :
    Idle i dcId (Crew.next (step home) c e) := by
  obtain ⟨hcopied, w, hi, htarget, hphase⟩ := h
  cases hj : c.workers[e.1]? with
  | none =>
    rw [Crew.next_none _ hj]
    exact ⟨hcopied, w, hi, htarget, hphase⟩
  | some u =>
    rw [Crew.next_some _ hj]
    refine ⟨copied_step c.shared u e.2 hcopied, ?_⟩
    by_cases hij : e.1 = i
    · rw [hij, hi] at hj
      obtain rfl := Option.some.inj hj
      rw [hij, List.getElem?_set_self (List.getElem?_eq_some_iff.mp hi).1]
      refine ⟨_, rfl, ?_⟩
      -- Its only step is to find the copy.
      unfold step
      split
      · have hfound : w.target = home ∨ c.shared.hasCopied w.target = true := Or.inr (decide_eq_true (htarget ▸ hcopied))
        rw [if_pos hfound]
        exact ⟨htarget, Or.inr rfl⟩
      all_goals first | exact ⟨htarget, hphase⟩ | (next hw _ => rw [hw] at hphase; rcases hphase with h | h <;> cases h)
    · rw [List.getElem?_set_ne hij]
      exact ⟨w, hi, htarget, hphase⟩

theorem noneAfter (hi : c.workers[i]? = some w) (hw : w.phase = .waiting) (hcopied : w.target ∈ c.shared.copied)
    (later : List (Nat × Event)) (hv : (Run.final (Crew.next (step home)) c later).workers[i]? = some v) :
    v.phase = .waiting ∨ v.phase = .returned true := by
  have hidle : Idle i w.target (Run.final (Crew.next (step home)) c later) :=
    Run.states_inv_all (I := Idle i w.target) _ idle_step later c ⟨hcopied, w, hi, rfl, Or.inl hw⟩ _
      (Run.final_mem_states _ later c)
  obtain ⟨-, u, hu, -, hphase⟩ := hidle
  obtain rfl := Option.some.inj (hu.symm.trans hv)
  exact hphase

theorem next_worker (hi : c.workers[i]? = some w) {e : Event} (hv : (Crew.next (step home) c (i, e)).workers[i]? = some v) :
    v = (step home c.shared w e).2 := by
  rw [Crew.next_some _ hi, List.getElem?_set_self (List.getElem?_eq_some_iff.mp hi).1] at hv
  exact (Option.some.inj hv).symm

theorem Inv.succeeds (hc : Inv c) (hi : c.workers[i]? = some w) (hw : w.phase ≠ .returned true) {e : Event}
    (hv : (Crew.next (step home) c (i, e)).workers[i]? = some v) (hok : v.phase = .returned true) :
    w.target = home ∨ w.target ∈ c.shared.succeeded ∨ ∃ j u, j ≠ i ∧ c.workers[j]? = some u ∧ u.Holds w.target := by
  rw [next_worker hi hv] at hok
  clear hv
  unfold step at hok
  split at hok
  · split at hok
    · next h => exact h.imp id fun h => Or.inl (hc.copied (of_decide_eq_true h))
    · cases hok
  · next hasked =>
    split at hok
    · cases hok
    · next h =>
      -- The slot is taken; this call does not have it.
      have htaken : w.target ∈ c.shared.inProgress := by
        by_contra hfree
        exact h (decide_eq_true hfree)
      obtain ⟨u, hu, hholds⟩ := (hc.held.taken w.target).mp htaken
      obtain ⟨j, hj⟩ := List.mem_iff_getElem?.mp hu
      refine Or.inr (Or.inr ⟨j, u, ?_, hj, hholds⟩)
      rintro rfl
      obtain rfl := Option.some.inj (hi.symm.trans hj)
      have hnone := hholds.2
      rw [hasked] at hnone
      cases hnone
  · split at hok <;> cases hok
  · cases hok
  · cases hok
  · cases hok
  · cases hok
  · cases hok
  · next hmarked => exact Or.inr (Or.inl (hc.imported w (List.mem_of_getElem? hi) (by rw [hmarked]; rfl)))
  · cases hok
  · exact absurd hok hw

theorem fails (hi : c.workers[i]? = some w) (hw : w.phase ≠ .returned false) {e : Event}
    (hv : (Crew.next (step home) c (i, e)).workers[i]? = some v) (herr : v.phase = .returned false) :
    w.target ∉ (Crew.next (step home) c (i, e)).shared.inProgress := by
  rw [next_worker hi hv] at herr
  rw [Crew.next_some _ hi]
  clear hv
  unfold step at herr
  split at herr
  · split at herr <;> cases herr
  · split at herr <;> cases herr
  · split at herr <;> cases herr
  · cases herr
  · cases herr
  · cases herr
  · cases herr
  · cases herr
  · cases herr
  · next hcancelling =>
    have hstep : (step home c.shared w .lock).1 = c.shared.cancelImport w.target := by simp [step, hcancelling]
    rw [hstep]
    exact Finset.notMem_erase w.target _
  · exact absurd herr hw

end Results

/-- **The copies of the authorization**, in every state that the calls reach. -/
theorem authorization_copied (home : Int32) (targets : List Int32) (events : List (Nat × Event)) :
    Copies home (run home targets events) where
  oneImport := fun _ _ _ _ hi hj hv hw htarget => (run_inv home targets events).oneImport hi hj hv hw htarget
  noneAfter := fun _ _ hi hw hcopied later _ hv => noneAfter hi hw hcopied later hv
  succeeds := fun _ _ _ _ hi hw hv hok => (run_inv home targets events).succeeds hi hw hv hok
  fails := fun _ _ _ _ hi hw hv herr => fails hi hw hv herr
  slots := fun dcId h => ((run_inv home targets events).held.taken dcId).mp h

/-- While one call waits for its export, a second one returns. -/
theorem second_returns : ¬ ∀ (home : Int32) (targets : List Int32) (events : List (Nat × Event)),
    ∀ w ∈ (run home targets events).workers, w.phase = .returned true → w.target ≠ home →
      w.target ∈ (run home targets events).shared.succeeded := by
  intro h
  have hrun : (run 2 [4, 4] [(0, .lock), (0, .lock), (1, .lock), (1, .lock)]).workers =
      [⟨4, .exporting⟩, ⟨4, .returned true⟩] := by decide
  have hnone : (4 : Int32) ∉ (run 2 [4, 4] [(0, .lock), (0, .lock), (1, .lock), (1, .lock)]).shared.succeeded := by decide
  exact hnone (h 2 [4, 4] _ ⟨4, .returned true⟩ (by rw [hrun]; simp) rfl (by decide))

end Ferogram.DcMigration
