import Ferogram.Msgbox.Difference

/- The entry helpers as operations on a map from keys to entries. Every helper
   that edits an entry is a `setEntry` of the edited one (`updateEntry_snd`,
   `setPts_eq`, `forceUpdateEntry_eq`), and on strictly sorted entries a `setEntry`
   changes one lookup and no other (`entry_setEntry`). From here on nothing
   unfolds a binary search. -/
namespace Ferogram.Msgbox
open Ferogram.Tl

namespace MessageBoxes

variable {s : MessageBoxes}

/-- The entries are strictly sorted by key. -/
def Sorted (s : MessageBoxes) : Prop := SortedVec.Strict LiveEntry.key s.entries

/-- The entries are sorted by key, where a key may occur more than once. -/
def Ordered (s : MessageBoxes) : Prop := SortedVec.Ordered LiveEntry.key s.entries

/-- Some entry has the key. -/
def HasKey (s : MessageBoxes) (key : Key) : Prop := ∃ e ∈ s.entries, e.key = key

theorem Sorted.ordered (h : s.Sorted) : s.Ordered := SortedVec.Strict.ordered h

theorem entry_eq_find (hs : s.Sorted) (key : Key) :
    s.entry key = SortedVec.find LiveEntry.key key s.entries :=
  SortedVec.getElem?_search hs key

theorem setEntry_eq (s : MessageBoxes) (e : LiveEntry) :
    s.setEntry e = { s with entries := SortedVec.put LiveEntry.key e s.entries } := by
  unfold setEntry SortedVec.put position
  cases SortedVec.search LiveEntry.key e.key s.entries <;> rfl

theorem popEntry_snd (s : MessageBoxes) (key : Key) :
    (s.popEntry key).2 = { s with entries := SortedVec.remove LiveEntry.key key s.entries } := by
  unfold popEntry SortedVec.remove position
  cases SortedVec.search LiveEntry.key key s.entries <;> rfl

/-- A lookup that succeeds names an entry with that key. -/
theorem entry_mem (hs : s.Ordered) {key : Key} {e : LiveEntry}
    (h : s.entry key = some e) : e ∈ s.entries ∧ e.key = key := by
  unfold entry position at h
  rcases SortedVec.search_cases hs key with ⟨l₁, a, l₂, hl, ha, hpos⟩ | ⟨l₁, l₂, hl, _, _, hpos⟩
  · rw [hpos] at h
    have hget : s.entries[l₁.length]? = some a := by simp [hl]
    obtain rfl : a = e := by simpa [hget] using h
    exact ⟨by simp [hl], ha⟩
  · rw [hpos] at h; cases h

theorem entry_isSome (hs : s.Ordered) (key : Key) :
    (s.entry key).isSome ↔ s.HasKey key := by
  unfold HasKey
  rw [← SortedVec.search_isOk hs key]
  unfold entry position
  rcases SortedVec.search_cases hs key with ⟨l₁, a, l₂, hl, ha, hpos⟩ | ⟨l₁, l₂, hl, _, _, hpos⟩
  · rw [hpos]; simp [hl]
  · rw [hpos]; simp

theorem entry_of_mem (hs : s.Sorted) {e : LiveEntry} (he : e ∈ s.entries) :
    s.entry e.key = some e := by
  rw [entry_eq_find hs]; exact SortedVec.find_of_mem hs he

/-- An edit in place is a `setEntry` of the edited entry. -/
theorem updateEntry_snd (s : MessageBoxes) (key : Key) {f : LiveEntry → LiveEntry}
    (hs : s.Ordered) (hf : ∀ e, (f e).key = e.key) :
    (s.updateEntry key f).2 = match s.entry key with
      | some e => s.setEntry (f e)
      | none => s := by
  cases he : s.entry key with
  | none =>
    have hpos : ∀ i, s.position key ≠ .ok i := by
      intro i hi
      have : (s.entry key).isSome := (entry_isSome hs key).mpr
        ((SortedVec.search_isOk hs key).mp ⟨i, hi⟩)
      rw [he] at this; cases this
    unfold updateEntry
    split
    · next i hi => exact absurd hi (hpos i)
    · rfl
  | some e =>
    obtain ⟨hmem, hkey⟩ := entry_mem hs he
    simp only
    rw [setEntry_eq, SortedVec.put, hf e, hkey]
    unfold entry at he
    unfold updateEntry
    unfold position at he ⊢
    cases hi : SortedVec.search LiveEntry.key key s.entries with
    | ok i =>
      rw [hi] at he
      simp only at he ⊢
      rw [List.modify_eq_set_getElem?, he]
      rfl
    | error i => rw [hi] at he; cases he

theorem updateEntry_fst (s : MessageBoxes) (key : Key) (f : LiveEntry → LiveEntry)
    (hs : s.Ordered) : (s.updateEntry key f).1 = (s.entry key).isSome := by
  have h := entry_isSome hs key
  rw [HasKey, ← SortedVec.search_isOk hs key] at h
  unfold updateEntry position
  split
  · next i hi => exact (h.mpr ⟨i, hi⟩).symm
  · next i hi =>
    have : ¬ (s.entry key).isSome = true := fun hc => by
      obtain ⟨j, hj⟩ := h.mp hc
      rw [hi] at hj; cases hj
    simp [Bool.eq_false_iff.mpr this]

/-- `force_update_entry` applies the closure to the entry found or to the one
given, and stores the outcome. -/
theorem forceUpdateEntry_eq {α : Type} (s : MessageBoxes) (e : LiveEntry)
    (f : LiveEntry → LiveEntry × α) (hs : s.Ordered) (hf : ∀ e, (f e).1.key = e.key) :
    s.forceUpdateEntry e f =
      (s.setEntry (f ((s.entry e.key).getD e)).1, (f ((s.entry e.key).getD e)).2) := by
  have hkey : ((s.entry e.key).getD e).key = e.key := by
    cases he : s.entry e.key with
    | none => rfl
    | some a => exact (entry_mem hs he).2
  rw [setEntry_eq, SortedVec.put, hf, hkey]
  unfold forceUpdateEntry entry position
  cases hi : SortedVec.search LiveEntry.key e.key s.entries with
  | ok i => rfl
  | error i => rfl

theorem setPts_eq (s : MessageBoxes) (now : Instant) (key : Key) (pts : Int32) (hs : s.Ordered) :
    s.setPts now key pts =
      s.setEntry { (s.entry key).getD (freshEntry key pts (nextUpdatesDeadline now)) with
        pts := pts } := by
  have h1 := updateEntry_fst s key (fun e => { e with pts := pts }) hs
  have h2 := updateEntry_snd (f := fun e => { e with pts := pts }) s key hs (fun _ => rfl)
  unfold setPts
  rcases hu : s.updateEntry key (fun e => { e with pts := pts }) with ⟨found, s'⟩
  rw [hu] at h1 h2
  simp only at h1 h2
  subst h1 h2
  cases s.entry key with
  | none => rfl
  | some e => rfl

/-! Lookups after an edit, on sorted entries. -/

theorem setEntry_sorted (hs : s.Sorted) (e : LiveEntry) :
    (s.setEntry e).Sorted := by
  rw [setEntry_eq]; exact SortedVec.put_strict hs e

theorem setEntry_ordered (hs : s.Ordered) (e : LiveEntry) :
    (s.setEntry e).Ordered := by
  rw [setEntry_eq]; exact SortedVec.put_ordered hs e

theorem mem_setEntry (hs : s.Ordered) {e a : LiveEntry}
    (h : a ∈ (s.setEntry e).entries) : a = e ∨ a ∈ s.entries := by
  rw [setEntry_eq] at h
  exact SortedVec.mem_put hs h

theorem entry_setEntry (hs : s.Sorted) (e : LiveEntry) (key : Key) :
    (s.setEntry e).entry key = if key = e.key then some e else s.entry key := by
  rw [entry_eq_find (setEntry_sorted hs e), entry_eq_find hs, setEntry_eq]
  exact SortedVec.find_put hs e key

theorem popEntry_sorted (hs : s.Sorted) (key : Key) :
    (s.popEntry key).2.Sorted := by
  rw [popEntry_snd]
  exact List.Pairwise.sublist (SortedVec.remove_sublist hs.ordered key) hs

theorem entry_popEntry (hs : s.Sorted) (key key' : Key) :
    (s.popEntry key).2.entry key' = if key' = key then none else s.entry key' := by
  rw [entry_eq_find (popEntry_sorted hs key), entry_eq_find hs, popEntry_snd]
  exact SortedVec.find_remove hs key key'

theorem entry_key (hs : s.Ordered) {key : Key} {e : LiveEntry}
    (h : s.entry key = some e) : e.key = key := (entry_mem hs h).2

/-- What an edit of one entry does to the lookups. -/
theorem entry_updateEntry (hs : s.Sorted) (key : Key)
    {f : LiveEntry → LiveEntry} (hf : ∀ e, (f e).key = e.key) (key' : Key) :
    (s.updateEntry key f).2.entry key' =
      if key' = key then (s.entry key).map f else s.entry key' := by
  rw [updateEntry_snd s key hs.ordered hf]
  cases he : s.entry key with
  | none =>
    simp only [Option.map_none]
    split
    · next h => rw [h, he]
    · rfl
  | some e =>
    have hk : (f e).key = key := by rw [hf, entry_key hs.ordered he]
    rw [entry_setEntry hs, hk]
    rfl

theorem updateEntry_sorted (hs : s.Sorted) (key : Key)
    {f : LiveEntry → LiveEntry} (hf : ∀ e, (f e).key = e.key) : (s.updateEntry key f).2.Sorted := by
  rw [updateEntry_snd s key hs.ordered hf]
  split
  · exact setEntry_sorted hs _
  · exact hs

/-! The other fields are not touched. -/

@[simp] theorem setEntry_gettingDiffFor (s : MessageBoxes) (e : LiveEntry) :
    (s.setEntry e).gettingDiffFor = s.gettingDiffFor := by rw [setEntry_eq]

@[simp] theorem setEntry_nextDeadline (s : MessageBoxes) (e : LiveEntry) :
    (s.setEntry e).nextDeadline = s.nextDeadline := by rw [setEntry_eq]

@[simp] theorem updateEntry_gettingDiffFor (s : MessageBoxes) (key : Key)
    (f : LiveEntry → LiveEntry) : (s.updateEntry key f).2.gettingDiffFor = s.gettingDiffFor := by
  unfold updateEntry; split <;> rfl

@[simp] theorem updateEntry_nextDeadline (s : MessageBoxes) (key : Key)
    (f : LiveEntry → LiveEntry) : (s.updateEntry key f).2.nextDeadline = s.nextDeadline := by
  unfold updateEntry; split <;> rfl

@[simp] theorem popEntry_gettingDiffFor (s : MessageBoxes) (key : Key) :
    (s.popEntry key).2.gettingDiffFor = s.gettingDiffFor := by rw [popEntry_snd]

@[simp] theorem popEntry_nextDeadline (s : MessageBoxes) (key : Key) :
    (s.popEntry key).2.nextDeadline = s.nextDeadline := by rw [popEntry_snd]

end MessageBoxes

end Ferogram.Msgbox
