import Ferogram.Lib.Lazy
import Ferogram.TlTypes.RoundTrip
import Ferogram.Client.Dialogs

/- Where a dialog cursor goes on.

   A cursor has the offset of the next page and not what is left of the page at hand, so the
   dialogs of that page that have not been handed out are skipped. `Serves` says that a server
   has a list: it answers with one page of it after another as the iterator moves its offset, and
   with an empty page at its end. What is proved: `cursor_resumes_iff`, for both iterators and
   after any number of calls. -/
namespace Ferogram.Dialogs
open Bytes Reader TlTypes Mtsender Lazy
open Peers (InputPeer Peer)

/-! The offset peer. -/

/-- How many peers are inside one another. -/
def depth : InputPeer → Nat
  | .userFromMessage peer _ _ => depth peer + 1
  | .channelFromMessage peer _ _ => depth peer + 1
  | _ => 0

theorem depth_le (p : InputPeer) : depth p ≤ (toBytes p).length := by
  induction p with
  | userFromMessage peer msgId userId ih =>
    simp only [depth, toBytes, List.length_append, ofU32, le_length]
    omega
  | channelFromMessage peer msgId channelId ih =>
    simp only [depth, toBytes, List.length_append, ofU32, le_length]
    omega
  | _ => exact Nat.zero_le _

/-- A constructor id, and what follows it. -/
theorem reads_ctor (fuel : Nat) (id : UInt32) {b : List UInt8} {p : InputPeer}
    (h : Reads .unexpectedEof (readInputPeerOf (readInputPeer fuel) id) b p) :
    Reads .unexpectedEof (readInputPeer (fuel + 1)) (ofU32 id ++ b) p := (reads_u32 id).bind' h

theorem reads_inputPeer (p : InputPeer) : ∀ fuel, depth p < fuel →
    Reads .unexpectedEof (readInputPeer fuel) (toBytes p) p := by
  induction p with
  | empty =>
    rintro (_ | fuel) hfuel
    · cases hfuel
    · have h := reads_ctor fuel idInputPeerEmpty (Reads.pure' InputPeer.empty)
      rwa [List.append_nil] at h
  | peerSelf =>
    rintro (_ | fuel) hfuel
    · cases hfuel
    · have h := reads_ctor fuel idInputPeerSelf (Reads.pure' InputPeer.peerSelf)
      rwa [List.append_nil] at h
  | chat chatId =>
    rintro (_ | fuel) hfuel
    · cases hfuel
    · exact reads_ctor _ _ ((reads_i64 chatId).map' rfl)
  | user userId accessHash =>
    rintro (_ | fuel) hfuel
    · cases hfuel
    · exact reads_ctor _ _ ((reads_i64 userId).bind' ((reads_i64 accessHash).map' rfl))
  | channel channelId accessHash =>
    rintro (_ | fuel) hfuel
    · cases hfuel
    · exact reads_ctor _ _ ((reads_i64 channelId).bind' ((reads_i64 accessHash).map' rfl))
  | userFromMessage peer msgId userId ih =>
    rintro (_ | fuel) hfuel
    · cases hfuel
    · have hpeer := ih fuel (Nat.lt_of_succ_lt_succ hfuel)
      exact reads_ctor _ _ (hpeer.bind' ((reads_i32 msgId).bind' ((reads_i64 userId).map' rfl)))
  | channelFromMessage peer msgId channelId ih =>
    rintro (_ | fuel) hfuel
    · cases hfuel
    · have hpeer := ih fuel (Nat.lt_of_succ_lt_succ hfuel)
      exact reads_ctor _ _ (hpeer.bind' ((reads_i32 msgId).bind' ((reads_i64 channelId).map' rfl)))

/-- **The offset peer survives the cursor.** -/
theorem iterDialogsFrom_cursor (it : DialogIter) :
    iterDialogsFrom it.cursor = .ok { it with done := false, buffer := [] } := by
  have hread := (reads_inputPeer it.offset.peer _ (Nat.lt_succ_of_le (depth_le it.offset.peer))).full []
  rw [List.append_nil] at hread
  unfold iterDialogsFrom DialogIter.cursor
  dsimp only
  rw [hread]

/-! A server with a list. -/

/-- Asked from one offset after another, the server answers with one page of the list after
another, and then with an empty one. -/
inductive Serves (c : Client) (ask : Offset → GetDialogs) : Offset → List Dialog → Prop
  | done {o : Offset} {count : Option Int32} (h : c.getDialogs (ask o) = .ok ([], count)) : Serves c ask o []
  | page {o o' : Offset} {items : List Dialog} {count : Option Int32} (hne : items ≠ [])
      (h : c.getDialogs (ask o) = .ok (items.take pageSize, count))
      (hadvance : c.advance o (items.take pageSize) = (.ok o', o'))
      (hrest : Serves c ask o' (items.drop pageSize)) : Serves c ask o items

theorem pageSize_pos : 0 < pageSize := by decide

/-- So many dialogs of the list have been handed out. -/
structure At (c : Client) (items : List Dialog) (n : Nat) (it : DialogIter) : Prop where
  serves : Serves c it.request it.offset (items.drop (fetched pageSize n))
  buffer : it.buffer = ahead pageSize items n
  done : it.done = true → items.length ≤ fetched pageSize n

section
variable {c : Client} {items : List Dialog} {it : DialogIter}

theorem At.start (h : Serves c it.request it.offset items) (hbuffer : it.buffer = []) (hdone : it.done = false) :
    At c items 0 it where
  serves := h
  buffer := hbuffer
  done hd := by rw [hdone] at hd; cases hd

/-- Past the end every position is the same. -/
theorem At.past {n m : Nat} (h : At c items n it) (hn : items.length ≤ n) (hm : items.length ≤ m) : At c items m it := by
  have hnil : ∀ k, items.length ≤ k → items.drop (fetched pageSize k) = [] := fun k hk =>
    List.drop_eq_nil_of_le (Nat.le_trans hk (le_fetched pageSize_pos k))
  have hahead : ∀ k, items.length ≤ k → ahead pageSize items k = [] := fun k hk =>
    (ahead_eq_nil_iff pageSize_pos items k).mpr (.inr hk)
  refine ⟨?_, ?_, fun _ => Nat.le_trans hm (le_fetched pageSize_pos m)⟩
  · rw [hnil m hm, ← hnil n hn]
    exact h.serves
  · rw [h.buffer, hahead n hn, hahead m hm]

/-- The iterator from the cursor is at the next page. -/
theorem At.rebuilt {n : Nat} (h : At c items n it) :
    At c (items.drop (fetched pageSize n)) 0 { it with done := false, buffer := [] } :=
  At.start h.serves rfl rfl

theorem At.buffer_length {n : Nat} (h : At c items n it) :
    it.buffer.length = min (fetched pageSize n) items.length - n := by
  rw [h.buffer, ahead, List.length_drop, List.length_take]

/-- The next dialog of the page at hand. -/
theorem next_held {n : Nat} {d : Dialog} {buffer : List Dialog} (h : At c items n it)
    (hbuffer : it.buffer = d :: buffer) :
    ∃ it', it.next c = (.ok items[n]?, it') ∧ At c items (n + 1) it' := by
  have hle := le_fetched pageSize_pos n
  have hlen := h.buffer_length
  rw [hbuffer, List.length_cons] at hlen
  have hfetched : fetched pageSize (n + 1) = fetched pageSize n := if_pos (by omega)
  have hahead : (items.take (fetched pageSize n)).drop n = d :: buffer := by
    rw [← hbuffer, h.buffer]
    rfl
  have hget : items[n]? = some d := by
    have hhead := congrArg List.head? hahead
    rwa [List.head?_drop, List.getElem?_take_of_lt (by omega)] at hhead
  refine ⟨{ it with buffer := buffer }, ?_, ?_, ?_, ?_⟩
  · unfold DialogIter.next
    rw [hbuffer, hget]
  · rw [hfetched]
    exact h.serves
  · show buffer = (items.take (fetched pageSize (n + 1))).drop (n + 1)
    rw [hfetched, ← List.drop_drop, hahead]
    rfl
  · rw [hfetched]
    exact h.done

/-- The first dialog of the next page, or the end of the list. -/
theorem next_fetched {n : Nat} (h : At c items n it) (hbuffer : it.buffer = []) (hdone : ¬ it.done = true) :
    ∃ it', it.next c = (.ok items[n]?, it') ∧ At c items (n + 1) it' := by
  have hle := le_fetched pageSize_pos n
  have hlen := h.buffer_length
  rw [hbuffer, List.length_nil] at hlen
  have hserves := h.serves
  generalize hrest : items.drop (fetched pageSize n) = rest at hserves
  cases hserves with
  | @done _ count hanswer =>
    have hall := List.drop_eq_nil_iff.mp hrest
    refine ⟨{ it with total := it.total.or count, done := true }, ?_, ?_⟩
    · unfold DialogIter.next
      rw [hbuffer, List.getElem?_eq_none (by omega)]
      simp [hdone, hanswer, Client.advance]
    · have hpast := h.past (m := n + 1) (by omega) (by omega)
      exact ⟨hpast.serves, hpast.buffer.trans rfl, fun _ => by have := le_fetched pageSize_pos (n + 1); omega⟩
  | @page _ o' _ count hne hanswer hadvance hserves' =>
    have hmore : fetched pageSize n < items.length := by
      by_contra hc
      exact hne (hrest.symm.trans (List.drop_eq_nil_of_le (by omega)))
    have hn : fetched pageSize n = n := by omega
    have hfetched : fetched pageSize (n + 1) = n + pageSize := by
      rw [fetched, if_neg (by omega), hn]
    rw [hn] at hrest
    subst hrest
    refine ⟨{ it with
      total := it.total.or count
      done := ((items.drop n).take pageSize).isEmpty || ((items.drop n).take pageSize).length < pageSize || it.done
      offset := o'
      buffer := ((items.drop n).take pageSize).tail }, ?_, ?_, ?_, ?_⟩
    · have hhead : ((items.drop n).take pageSize).head? = items[n]? := by
        rw [List.head?_take, if_neg (by decide), List.head?_drop]
      unfold DialogIter.next
      rw [hbuffer]
      simp only [if_neg hdone, hanswer, hadvance, hhead]
    · rw [hfetched, ← List.drop_drop]
      exact hserves'
    · show _ = (items.take (fetched pageSize (n + 1))).drop (n + 1)
      rw [hfetched, ← List.drop_drop, List.drop_take]
      rw [Nat.add_sub_cancel_left, List.drop_one]
    · -- a short page is the last
      intro hend
      have hshort : ((items.drop n).take pageSize).length < pageSize := by
        simp only [Bool.or_eq_true, List.isEmpty_iff, decide_eq_true_eq] at hend
        rcases hend with (hnil | hshort) | hold
        · rw [hnil]
          decide
        · exact hshort
        · exact absurd hold hdone
      rw [List.length_take, List.length_drop] at hshort
      omega

/-- One call. -/
theorem next_at {n : Nat} (h : At c items n it) :
    ∃ it', it.next c = (.ok items[n]?, it') ∧ At c items (n + 1) it' := by
  cases hbuffer : it.buffer with
  | cons d buffer => exact next_held h hbuffer
  | nil =>
    by_cases hdone : it.done = true
    · -- the last page has been handed out
      have hle := le_fetched pageSize_pos n
      have hlen := h.buffer_length
      rw [hbuffer, List.length_nil] at hlen
      have hall := h.done hdone
      refine ⟨it, ?_, h.past (by omega) (by omega)⟩
      unfold DialogIter.next
      rw [hbuffer, List.getElem?_eq_none (by omega)]
      simp [hdone]
    · exact next_fetched h hbuffer hdone

/-- A loop that hands on the dialogs with `p`: it comes to the first of those that are left, or to
the end of the list. -/
theorem loop_at {β : Type} (p : Dialog → Bool) (F : Nat → DialogIter → β) (hit : Dialog → DialogIter → β)
    (atEnd : Nat → DialogIter → β)
    (hstep : ∀ fuel i d i', i.next c = (.ok (some d), i') → F (fuel + 1) i = if p d then hit d i' else F fuel i')
    (hover : ∀ fuel i i', i.next c = (.ok none, i') → F (fuel + 1) i = atEnd fuel i') (k : Nat) :
    ∀ (left n : Nat) (it : DialogIter), At c items n it → n + left = items.length →
      (∃ d i', (items.drop n).find? p = some d ∧ F (left + 1 + k) it = hit d i' ∧
        At c items (n + (items.drop n).findIdx p + 1) i') ∨
      (∃ i', (items.drop n).find? p = none ∧ F (left + 1 + k) it = atEnd k i' ∧ At c items items.length i') := by
  intro left
  induction left with
  | zero =>
    intro n it h hn
    obtain ⟨i', hnext, hAt⟩ := next_at h
    rw [List.getElem?_eq_none (by omega)] at hnext
    refine .inr ⟨i', ?_, ?_, hAt.past (by omega) (Nat.le_refl _)⟩
    · rw [List.drop_eq_nil_of_le (by omega)]
      rfl
    · rw [Nat.zero_add, Nat.add_comm 1 k]
      exact hover k it i' hnext
  | succ left ih =>
    intro n it h hn
    obtain ⟨i', hnext, hAt⟩ := next_at h
    have hlt : n < items.length := by omega
    rw [List.getElem?_eq_getElem hlt] at hnext
    have hF : F (left + 1 + 1 + k) it = if p items[n] then hit items[n] i' else F (left + 1 + k) i' := by
      rw [Nat.add_right_comm (left + 1) 1 k]
      exact hstep _ it _ i' hnext
    rw [List.drop_eq_getElem_cons hlt, List.find?_cons, List.findIdx_cons, hF]
    cases hp : p items[n] with
    | true => exact .inl ⟨items[n], i', rfl, rfl, hAt⟩
    | false =>
      simp only [Bool.false_eq_true, if_false, cond_false]
      rcases ih (n + 1) i' hAt (by omega) with ⟨d, i'', hfind, hloop, hAt'⟩ | ⟨i'', hfind, hloop, hAt'⟩
      · refine .inl ⟨d, i'', hfind, hloop, ?_⟩
        rwa [Nat.add_right_comm n 1] at hAt'
      · exact .inr ⟨i'', hfind, hloop, hAt'⟩

/-- The same from where a number of them has been found, with fuel for the whole list. -/
theorem loop_found {β : Type} (p : Dialog → Bool) (F : Nat → DialogIter → β) (hit : Dialog → DialogIter → β)
    (atEnd : Nat → DialogIter → β)
    (hstep : ∀ fuel i d i', i.next c = (.ok (some d), i') → F (fuel + 1) i = if p d then hit d i' else F fuel i')
    (hover : ∀ fuel i i', i.next c = (.ok none, i') → F (fuel + 1) i = atEnd fuel i') {m fuel : Nat}
    (h : At c items (consumed p items m) it) (hfuel : items.length + 1 ≤ fuel) :
    (∃ d i', (items.filter p)[m]? = some d ∧ F fuel it = hit d i' ∧ At c items (consumed p items (m + 1)) i') ∨
    (∃ k i', (items.filter p)[m]? = none ∧ fuel ≤ k + items.length + 1 ∧ F fuel it = atEnd k i' ∧
      At c items (consumed p items (m + 1)) i') := by
  have hle := consumed_le p items m
  obtain ⟨k, hk⟩ := Nat.exists_eq_add_of_le (show items.length - consumed p items m + 1 ≤ fuel by omega)
  have hloop := loop_at p F hit atEnd hstep hover k (items.length - consumed p items m) _ it h (by omega)
  rw [← hk] at hloop
  rw [getElem?_filter]
  rcases hloop with ⟨d, i', hfind, hF, hAt⟩ | ⟨i', hfind, hF, hAt⟩
  · refine .inl ⟨d, i', hfind, hF, ?_⟩
    rwa [consumed_found hfind]
  · refine .inr ⟨k, i', hfind, by omega, hF, ?_⟩
    rwa [consumed_over hfind]

end

/-! One call of a folder's iterator. -/

/-- Two iterators over the same folder. -/
structure SameFolder (fi it : DialogFilterIter) : Prop where
  filterId : it.filterId = fi.filterId
  filter : it.filter = fi.filter
  scanArchive : it.scanArchive = fi.scanArchive

theorem SameFolder.congr {fi it it' : DialogFilterIter} (h : SameFolder fi it) (hid : it'.filterId = it.filterId)
    (hfilter : it'.filter = it.filter) (hscan : it'.scanArchive = it.scanArchive) : SameFolder fi it' :=
  ⟨hid.trans h.filterId, hfilter.trans h.filter, hscan.trans h.scanArchive⟩

section
variable {c : Client} {now : Int32} {fi it : DialogFilterIter} {main archived : List Dialog} {fuel m : Nat}

/-- The dialogs of the folder. -/
def DialogFilterIter.shows (now : Int32) (fi : DialogFilterIter) (d : Dialog) : Bool := d.matchesFilter now fi.filter

variable (c now fi archived) in
/-- In the archive, when so many have been found there. -/
structure InArchive (m : Nat) (it : DialogFilterIter) : Prop where
  same : SameFolder fi it
  phase : it.inArchive = true
  position : At c archived (consumed (fi.shows now) archived m) it.archived

variable (c now fi main archived) in
/-- In the main list, when so many have been found there; past its end only if the archive is not
scanned. -/
structure InMain (m : Nat) (it : DialogFilterIter) : Prop where
  same : SameFolder fi it
  phase : it.inArchive = false
  position : At c main (consumed (fi.shows now) main m) it.main
  archive : At c archived 0 it.archived
  bound : m ≤ (main.filter (fi.shows now)).length ∨ fi.scanArchive = false

theorem InArchive.next (h : InArchive c now fi archived m it) (hfuel : archived.length + 1 ≤ fuel) :
    ∃ it', it.next c now fuel = some (.ok (archived.filter (fi.shows now))[m]?, it') ∧
      InArchive c now fi archived (m + 1) it' := by
  have hloop := loop_found (fi.shows now) (fun fuel i => DialogFilterIter.next c now fuel { it with archived := i })
    (fun d i => some (.ok (some d), { it with archived := i })) (fun _ i => some (.ok none, { it with archived := i }))
    (fun fuel i d i' hi => by
      simp only [DialogFilterIter.next, h.phase, hi, if_true, h.same.filter]
      rfl)
    (fun fuel i i' hi => by simp only [DialogFilterIter.next, h.phase, hi, if_true]) h.position hfuel
  rcases hloop with ⟨d, i', hget, hnext, hAt⟩ | ⟨k, i', hget, -, hnext, hAt⟩
  · rw [hget]
    exact ⟨{ it with archived := i' }, hnext, h.same.congr rfl rfl rfl, h.phase, hAt⟩
  · rw [hget]
    exact ⟨{ it with archived := i' }, hnext, h.same.congr rfl rfl rfl, h.phase, hAt⟩

/-- Of the main list and, behind it, the archive. -/
def DialogFilterIter.contents (now : Int32) (fi : DialogFilterIter) (main archived : List Dialog) : List Dialog :=
  main.filter (fi.shows now) ++ if fi.scanArchive then archived.filter (fi.shows now) else []

variable (c now fi main archived) in
/-- When so many have been found in both. -/
def InFolder (m : Nat) (it : DialogFilterIter) : Prop :=
  InMain c now fi main archived m it ∨
    fi.scanArchive = true ∧ (main.filter (fi.shows now)).length < m ∧
      InArchive c now fi archived (m - (main.filter (fi.shows now)).length) it

theorem getElem?_contents_main (h : m < (main.filter (fi.shows now)).length) :
    (fi.contents now main archived)[m]? = (main.filter (fi.shows now))[m]? :=
  List.getElem?_append_left h

theorem getElem?_contents_archive (hscan : fi.scanArchive = true) (h : (main.filter (fi.shows now)).length ≤ m) :
    (fi.contents now main archived)[m]? =
      (archived.filter (fi.shows now))[m - (main.filter (fi.shows now)).length]? := by
  unfold DialogFilterIter.contents
  rw [List.getElem?_append_right h, if_pos hscan]

theorem InMain.next (h : InMain c now fi main archived m it) (hfuel : main.length + archived.length + 2 ≤ fuel) :
    ∃ it', it.next c now fuel = some (.ok (fi.contents now main archived)[m]?, it') ∧
      InFolder c now fi main archived (m + 1) it' := by
  have hloop := loop_found (fi.shows now) (fun fuel i => DialogFilterIter.next c now fuel { it with main := i })
    (fun d i => some (.ok (some d), { it with main := i }))
    (fun k i => if it.scanArchive then DialogFilterIter.next c now k { it with main := i, inArchive := true }
      else some (.ok none, { it with main := i }))
    (fun fuel i d i' hi => by
      simp only [DialogFilterIter.next, h.phase, hi, Bool.false_eq_true, if_false, h.same.filter]
      rfl)
    (fun fuel i i' hi => by simp only [DialogFilterIter.next, h.phase, hi, Bool.false_eq_true, if_false]) h.position
    (show main.length + 1 ≤ fuel by omega)
  rcases hloop with ⟨d, i', hget, hnext, hAt⟩ | ⟨k, i', hget, hk, hnext, hAt⟩
  · have hlt := (List.getElem?_eq_some_iff.mp hget).1
    refine ⟨{ it with main := i' }, ?_, .inl ⟨h.same.congr rfl rfl rfl, h.phase, hAt, h.archive, .inl hlt⟩⟩
    rw [getElem?_contents_main hlt, hget]
    exact hnext
  · have hover := List.getElem?_eq_none_iff.mp hget
    cases hscan : fi.scanArchive with
    | true =>
      -- the rest of the call is the archive's
      have hm : m = (main.filter (fi.shows now)).length := by
        rcases h.bound with hbound | hnone
        · omega
        · rw [hscan] at hnone
          cases hnone
      have harchive : InArchive c now fi archived 0 { it with main := i', inArchive := true } :=
        ⟨h.same.congr rfl rfl rfl, rfl, h.archive⟩
      obtain ⟨it', hnext', hit'⟩ := harchive.next (show archived.length + 1 ≤ k by omega)
      refine ⟨it', ?_, .inr ⟨hscan, by omega, ?_⟩⟩
      · rw [getElem?_contents_archive hscan hover, hm, Nat.sub_self]
        exact (hnext.trans (if_pos (h.same.scanArchive.trans hscan))).trans hnext'
      · rw [hm, Nat.add_sub_cancel_left]
        exact hit'
    | false =>
      have hnoscan : ¬ it.scanArchive = true := by
        rw [h.same.scanArchive, hscan]
        decide
      have hnone : (fi.contents now main archived)[m]? = none := by
        unfold DialogFilterIter.contents
        rw [hscan, if_neg (by decide), List.append_nil]
        exact hget
      refine ⟨{ it with main := i' }, ?_, .inl ⟨h.same.congr rfl rfl rfl, h.phase, hAt, h.archive, .inr hscan⟩⟩
      rw [hnone]
      exact hnext.trans (if_neg hnoscan)

theorem InFolder.next (h : InFolder c now fi main archived m it) (hfuel : main.length + archived.length + 2 ≤ fuel) :
    ∃ it', it.next c now fuel = some (.ok (fi.contents now main archived)[m]?, it') ∧
      InFolder c now fi main archived (m + 1) it' := by
  rcases h with h | ⟨hscan, hm, h⟩
  · exact h.next hfuel
  · obtain ⟨it', hnext, hit'⟩ := h.next (show archived.length + 1 ≤ fuel by omega)
    refine ⟨it', ?_, .inr ⟨hscan, by omega, ?_⟩⟩
    · rw [getElem?_contents_archive hscan (Nat.le_of_lt hm)]
      exact hnext
    · rwa [Nat.sub_add_comm (Nat.le_of_lt hm)]

end

/-! Cursors. -/

/-- A call that does not fail. -/
def DialogIter.call (c : Client) (it : DialogIter) : Option (Option Dialog × DialogIter) :=
  match it.next c with
  | (.ok d, it) => some (d, it)
  | (.error _, _) => none

/-- A call that does not fail, with enough fuel. -/
def DialogFilterIter.call (c : Client) (now : Int32) (fuel : Nat) (it : DialogFilterIter) :
    Option (Option Dialog × DialogFilterIter) :=
  match it.next c now fuel with
  | some (.ok d, it) => some (d, it)
  | _ => none

/-- Through a cursor. -/
def DialogIter.rebuilt (it : DialogIter) : Option DialogIter := (iterDialogsFrom it.cursor).toOption

def DialogFilterIter.rebuilt (filters : List DialogFilter) (it : DialogFilterIter) : Option DialogFilterIter :=
  (iterDialogsInFilterFrom filters it.cursor).toOption

/-- What has been read of the list at hand when `m` dialogs of the folder have been handed out, and
not been looked at. -/
def DialogFilterIter.pending (now : Int32) (fi : DialogFilterIter) (main archived : List Dialog) (m : Nat) : List Dialog :=
  if m ≤ (main.filter (fi.shows now)).length ∨ fi.scanArchive = false then
    ahead pageSize main (consumed (fi.shows now) main m)
  else
    ahead pageSize archived (consumed (fi.shows now) archived (m - (main.filter (fi.shows now)).length))

/-- What is on the pages behind. -/
def DialogFilterIter.later (now : Int32) (fi : DialogFilterIter) (main archived : List Dialog) (m : Nat) : List Dialog :=
  if m ≤ (main.filter (fi.shows now)).length ∨ fi.scanArchive = false then
    fi.contents now (main.drop (fetched pageSize (consumed (fi.shows now) main m))) archived
  else
    (archived.drop (fetched pageSize
      (consumed (fi.shows now) archived (m - (main.filter (fi.shows now)).length)))).filter (fi.shows now)

section
variable {c : Client} {now : Int32} {fi it : DialogFilterIter} {items main archived : List Dialog} {fuel : Nat}

theorem call_yields (c : Client) (items : List Dialog) : Yields (DialogIter.call c) items (At c items) := by
  intro n it h
  obtain ⟨it', hnext, hit'⟩ := next_at h
  refine ⟨it', ?_, hit'⟩
  unfold DialogIter.call
  rw [hnext]

theorem rebuilt_eq (it : DialogIter) : it.rebuilt = some { it with done := false, buffer := [] } := by
  unfold DialogIter.rebuilt
  rw [iterDialogsFrom_cursor]
  rfl

theorem folder_yields (hfuel : main.length + archived.length + 2 ≤ fuel) :
    Yields (DialogFilterIter.call c now fuel) (fi.contents now main archived) (InFolder c now fi main archived) := by
  intro m it h
  obtain ⟨it', hnext, hit'⟩ := h.next hfuel
  refine ⟨it', ?_, hit'⟩
  unfold DialogFilterIter.call
  rw [hnext]

theorem archive_yields (hfuel : archived.length + 1 ≤ fuel) :
    Yields (DialogFilterIter.call c now fuel) (archived.filter (fi.shows now)) (InArchive c now fi archived) := by
  intro m it h
  obtain ⟨it', hnext, hit'⟩ := h.next hfuel
  refine ⟨it', ?_, hit'⟩
  unfold DialogFilterIter.call
  rw [hnext]

/-- The folder is looked up again, and is the same one. -/
theorem folder_rebuilt {filters : List DialogFilter} {filterId : Int32} (hfi : iterDialogsInFilter filters filterId = .ok fi)
    (h : SameFolder fi it) : it.rebuilt filters = some { it with
      main := { it.main with done := false, buffer := [] }
      archived := { it.archived with done := false, buffer := [] } } := by
  unfold iterDialogsInFilter at hfi
  cases hresolve : resolveDialogFilter filters filterId with
  | error e =>
    rw [hresolve] at hfi
    cases hfi
  | ok f =>
    rw [hresolve] at hfi
    cases hfi
    obtain ⟨hid, hfilter, hscan⟩ := h
    cases it with
    | mk id filter main archived scanArchive inArchive =>
      dsimp only at hid hfilter hscan
      subst hid hfilter hscan
      unfold DialogFilterIter.rebuilt iterDialogsInFilterFrom DialogFilterIter.cursor
      dsimp only
      rw [hresolve, iterDialogsFrom_cursor, iterDialogsFrom_cursor]
      rfl

theorem later_eq_iff (m : Nat) :
    fi.later now main archived m = (fi.contents now main archived).drop m ↔
      ∀ d ∈ fi.pending now main archived m, fi.shows now d = false := by
  unfold DialogFilterIter.later DialogFilterIter.pending
  by_cases hphase : m ≤ (main.filter (fi.shows now)).length ∨ fi.scanArchive = false
  · have hdrop : (fi.contents now main archived).drop m =
        (main.drop (consumed (fi.shows now) main m)).filter (fi.shows now) ++
          if fi.scanArchive then archived.filter (fi.shows now) else [] := by
      unfold DialogFilterIter.contents
      rw [← drop_filter]
      rcases hphase with hm | hscan
      · exact List.drop_append_of_le_length hm
      · rw [hscan, if_neg (by decide), List.append_nil, List.append_nil]
    rw [if_pos hphase, if_pos hphase, hdrop]
    exact filter_fetched_iff pageSize_pos _ _ _ _
  · have hdrop : (fi.contents now main archived).drop m =
        (archived.drop (consumed (fi.shows now) archived (m - (main.filter (fi.shows now)).length))).filter
          (fi.shows now) := by
      simp only [not_or, Bool.not_eq_false] at hphase
      unfold DialogFilterIter.contents
      rw [hphase.2, if_pos rfl, ← drop_filter, List.drop_append, List.drop_eq_nil_of_le (by omega), List.nil_append]
    have hiff := filter_fetched_iff pageSize_pos (fi.shows now) archived []
      (consumed (fi.shows now) archived (m - (main.filter (fi.shows now)).length))
    rw [List.append_nil, List.append_nil] at hiff
    rw [if_neg hphase, if_neg hphase, hdrop]
    exact hiff

/-- What the rebuilt iterator over a folder yields. -/
theorem folder_later {filters : List DialogFilter} {filterId : Int32}
    (hfi : iterDialogsInFilter filters filterId = .ok fi) (hfuel : main.length + archived.length + 2 ≤ fuel) {m : Nat}
    (h : InFolder c now fi main archived m it) :
    ∃ r J, it.rebuilt filters = some r ∧
      Yields (DialogFilterIter.call c now fuel) (fi.later now main archived m) J ∧ J 0 r := by
  rcases h with h | ⟨hscan, hm, h⟩
  · refine ⟨_, InFolder c now fi (main.drop (fetched pageSize (consumed (fi.shows now) main m))) archived,
      folder_rebuilt hfi h.same, ?_, .inl ⟨h.same.congr rfl rfl rfl, h.phase, ?_, ?_,
        .inl (Nat.zero_le _)⟩⟩
    · unfold DialogFilterIter.later
      rw [if_pos h.bound]
      exact folder_yields (by rw [List.length_drop]; omega)
    · exact h.position.rebuilt
    · exact h.archive.rebuilt
  · refine ⟨_, InArchive c now fi (archived.drop (fetched pageSize
        (consumed (fi.shows now) archived (m - (main.filter (fi.shows now)).length)))),
      folder_rebuilt hfi h.same, ?_, ⟨h.same.congr rfl rfl rfl, h.phase, h.position.rebuilt⟩⟩
    have hphase : ¬ (m ≤ (main.filter (fi.shows now)).length ∨ fi.scanArchive = false) := by
      rw [hscan]
      simpa using hm
    unfold DialogFilterIter.later
    rw [if_neg hphase]
    exact archive_yields (by rw [List.length_drop]; omega)

end

/-- The iterator a client starts with, with its two settings. -/
def dialogsOf (excludePinned : Bool) (folderId : Option Int32) : DialogIter :=
  (iterDialogs.withExcludePinned excludePinned).withFolderId folderId

theorem dialogs_resume_iff {c : Client} {excludePinned : Bool} {folderId : Option Int32} {items : List Dialog}
    (hitems : Serves c (dialogsOf excludePinned folderId).request (dialogsOf excludePinned folderId).offset items)
    (n : Nat) :
    Resumes (DialogIter.call c) DialogIter.rebuilt items (dialogsOf excludePinned folderId) n ↔
      pageSize ∣ n ∨ items.length ≤ n := by
  have hstart : At c items 0 (dialogsOf excludePinned folderId) := At.start hitems rfl rfl
  have hiff := resumes_iff (n := n) (call_yields c items) hstart
    (fun it hit => ⟨_, _, rebuilt_eq it, call_yields c (items.drop (fetched pageSize n)), hit.rebuilt⟩)
  have hahead := filter_fetched_iff pageSize_pos (fun _ => true) items [] n
  simp only [List.filter_true, List.append_nil] at hahead
  rw [hiff, hahead, ← ahead_eq_nil_iff pageSize_pos, List.eq_nil_iff_forall_not_mem]
  simp

theorem folder_start {c : Client} {now : Int32} {filters : List DialogFilter} {filterId : Int32} {fi : DialogFilterIter}
    {main archived : List Dialog} (hfi : iterDialogsInFilter filters filterId = .ok fi)
    (hmain : Serves c fi.main.request fi.main.offset main)
    (harchived : Serves c fi.archived.request fi.archived.offset archived) :
    InFolder c now fi main archived 0 fi := by
  unfold iterDialogsInFilter at hfi
  cases hresolve : resolveDialogFilter filters filterId with
  | error e =>
    rw [hresolve] at hfi
    cases hfi
  | ok f =>
    rw [hresolve] at hfi
    cases hfi
    exact .inl ⟨⟨rfl, rfl, rfl⟩, rfl, At.start hmain rfl rfl, At.start harchived rfl rfl, .inl (Nat.zero_le _)⟩

/-- An iterator from a cursor goes on where the first one stopped: over the dialogs exactly at the
end of a page or of the list, and over a folder exactly if nothing of the folder is left on the
page at hand. -/
theorem cursor_resumes_iff (c : Client) (now : Int32) (excludePinned : Bool) (folderId : Option Int32)
    (filters : List DialogFilter) (filterId : Int32) (fi : DialogFilterIter) (items main archived : List Dialog)
    (hitems : Serves c (dialogsOf excludePinned folderId).request (dialogsOf excludePinned folderId).offset items)
    (hfi : iterDialogsInFilter filters filterId = .ok fi)
    (hmain : Serves c fi.main.request fi.main.offset main)
    (harchived : Serves c fi.archived.request fi.archived.offset archived)
    (n fuel : Nat) (hfuel : main.length + archived.length + 2 ≤ fuel) :
    (Resumes (DialogIter.call c) DialogIter.rebuilt items (dialogsOf excludePinned folderId) n ↔
      pageSize ∣ n ∨ items.length ≤ n) ∧
    (Resumes (DialogFilterIter.call c now fuel) (DialogFilterIter.rebuilt filters) (fi.contents now main archived) fi n ↔
      ∀ d ∈ fi.pending now main archived n, fi.shows now d = false) := by
  refine ⟨dialogs_resume_iff hitems n, ?_⟩
  rw [resumes_iff (folder_yields hfuel) (folder_start hfi hmain harchived) (fun it hit => folder_later hfi hfuel hit)]
  exact later_eq_iff n

/-! Two dialogs, and one in the archive. -/

def plainDialog (userId : Int64) (topMessage : Int32) : Dialog where
  raw := .dialog ⟨.user userId, topMessage, 0, none, none⟩
  message := some (.message 1700000000)
  entity := some (some ⟨false, true⟩)
  chat := none

def twoDialogs : List Dialog := [plainDialog 1 20, plainDialog 2 10]

def archivedDialog : List Dialog := [plainDialog 3 5]

/-- A server with two dialogs in its main list, and one in the archive. -/
def smallClient : Client where
  getDialogs req :=
    .ok (if req.offsetId = 0 then if req.folderId = some 1 then archivedDialog else twoDialogs else [], none)
  inputOf
    | .user userId => .ok (.user userId 7)
    | .chat chatId => .ok (.chat chatId)
    | .channel channelId => .ok (.channel channelId 7)

theorem smallClient_serves (excludePinned : Bool) {folderId : Option Int32} (h : folderId ≠ some 1) :
    Serves smallClient (dialogsOf excludePinned folderId).request (dialogsOf excludePinned folderId).offset twoDialogs := by
  refine @Serves.page _ _ _ ⟨1700000000, 10, .user 2 7⟩ _ none (List.cons_ne_nil _ _) ?_ rfl (@Serves.done _ _ _ none rfl)
  show Except.ok (if (0 : Int32) = 0 then if folderId = some 1 then archivedDialog else twoDialogs else [], none) = _
  rw [if_pos rfl, if_neg h]
  rfl

theorem smallClient_archive :
    Serves smallClient (dialogsOf false (some 1)).request (dialogsOf false (some 1)).offset archivedDialog :=
  @Serves.page _ _ _ ⟨1700000000, 5, .user 3 7⟩ _ none (List.cons_ne_nil _ _) rfl rfl (@Serves.done _ _ _ none rfl)

/-- A shared folder with all three. -/
def folders : List DialogFilter := [.chatlist 5 [] [.user 1 7, .user 2 7, .user 3 7]]

/-- After both dialogs of the main list: the archived one is still to come. -/
theorem cursor_resumes_archive :
    Resumes (DialogFilterIter.call smallClient 0 5) (DialogFilterIter.rebuilt folders) (twoDialogs ++ archivedDialog)
      ⟨5, { includePeers := [1, 2, 3] }, dialogsOf false (some 0), dialogsOf false (some 1), true, false⟩ 2 := by
  have h := (cursor_resumes_iff smallClient 0 false none folders 5
    ⟨5, { includePeers := [1, 2, 3] }, dialogsOf false (some 0), dialogsOf false (some 1), true, false⟩
    twoDialogs twoDialogs archivedDialog (smallClient_serves false (by decide)) rfl (smallClient_serves false (by decide))
    smallClient_archive 2 5 (by decide)).2
  exact h.mpr (by decide)

/-- A cursor taken after the first of two dialogs skips the second. -/
theorem cursor_skips : ¬ ∀ (c : Client) (items : List Dialog) (n : Nat),
    Serves c (dialogsOf false none).request (dialogsOf false none).offset items →
      Resumes (DialogIter.call c) DialogIter.rebuilt items (dialogsOf false none) n := by
  intro h
  have hresumes := h smallClient twoDialogs 1 (smallClient_serves false (by decide))
  rw [dialogs_resume_iff (smallClient_serves false (by decide))] at hresumes
  revert hresumes
  decide

end Ferogram.Dialogs
