import Ferogram.Client.Dialogs
import Ferogram.Client.PeerRef
import Ferogram.Lib.Retry

/- Iterators whose calls fail: `DialogIter::next` and `MessageIter::next` of
   `ferogram/src/dialog.rs`. A call may fail in resolving the peer, in `peer_to_input` or in the
   request; what the server and the cache answer when nothing fails is a function.

   Most failures change nothing that matters. Two do. A `MessageIter` takes its unresolved peer
   out before it resolves it, and finds none in the next call. A `DialogIter` that has a page
   counts it as read before `peer_to_input` gives the next offset, and loses it. What is proved:
   `iterators_survive`, for every run without these two. -/
namespace Ferogram.Dialogs
open Mtsender Retry
open Peers (InputPeer Peer PeerRef)

/-- What goes wrong in a call; a request fails with all that `get_messages_with_count` or
    `get_dialogs_raw_with_count` does. -/
inductive Outage where
  | clear
  | rpc (e : InvocationError)
  | resolve (e : InvocationError)
  | input (e : InvocationError)
  deriving DecidableEq

/-! Dialogs. -/

/-- The server and the cache when nothing fails. -/
structure DialogServer where
  page : GetDialogs → List Dialog × Option Int32
  input : Peer → InputPeer

def DialogServer.under (server : DialogServer) (o : Outage) : Client where
  getDialogs req :=
    match o with
    | .rpc e => .error e
    | _ => .ok (server.page req)
  inputOf p :=
    match o with
    | .input e => .error e
    | _ => .ok (server.input p)

/-- A call of `DialogIter::next`. -/
def DialogServer.call (server : DialogServer) (it : DialogIter) (o : Outage) :
    Answer InvocationError (Option Dialog) × DialogIter :=
  match it.next (server.under o) with
  | (.ok d, it') => (.value d, it')
  | (.error e, it') => (.failed e, it')

/-- `peer_to_input` does not fail behind a page. -/
def DialogServer.InputFound (server : DialogServer) (it : DialogIter) (o : Outage) : Prop :=
  ∀ e, o = .input e → it.buffer ≠ [] ∨ it.done = true ∨
    ∀ last, (server.page (it.request it.offset)).1.getLast? = some last → last.peer = none

/-! Messages. -/

structure MessageIter (μ : Type) where
  unresolved : Option PeerRef
  peer : Option Peer
  offsetId : Int32
  done : Bool
  buffer : List μ
  total : Option Int32
  deriving DecidableEq

/-- `Client::iter_messages`. -/
def iterMessages {μ : Type} (peer : PeerRef) : MessageIter μ where
  unresolved := some peer
  peer := none
  offsetId := 0
  done := false
  buffer := []
  total := none

structure History (μ : Type) where
  id : μ → Int32
  resolve : PeerRef → Peer
  input : Peer → InputPeer
  page : InputPeer → (limit offsetId : Int32) → List μ × Option Int32

namespace MessageIter
variable {μ : Type}

/-- The peer of an iterator, and the iterator that has it. `take` leaves none behind. -/
def resolved (h : History μ) (o : Outage) (it : MessageIter μ) :
    Answer InvocationError Peer × MessageIter μ :=
  match it.peer with
  | some p => (.value p, it)
  | none =>
    match it.unresolved with
    | none => (.panicked, it)
    | some pr =>
      let it := { it with unresolved := none }
      match o with
      | .resolve e => (.failed e, it)
      | _ => (.value (h.resolve pr), { it with peer := some (h.resolve pr) })

/-- The page is read into the buffer. -/
def fill (h : History μ) (it : MessageIter μ) (page : List μ) (count : Option Int32) : MessageIter μ :=
  { it with
    total := it.total.or count
    done := page.isEmpty || page.length < pageSize || it.done
    offsetId :=
      match page.getLast? with
      | some last => h.id last
      | none => it.offsetId
    buffer := page }

def next (h : History μ) (it : MessageIter μ) (o : Outage) : Answer InvocationError (Option μ) × MessageIter μ :=
  match it.buffer with
  | m :: buffer => (.value (some m), { it with buffer := buffer })
  | [] =>
    if it.done then (.value none, it)
    else
      match it.resolved h o with
      | (.panicked, it) => (.panicked, it)
      | (.failed e, it) => (.failed e, it)
      | (.value peer, it) =>
        match o with
        | .input e => (.failed e, it)
        | .rpc e => (.failed e, it)
        | _ =>
          let (page, count) := h.page (h.input peer) (Int32.ofNat pageSize) it.offsetId
          let it := it.fill h page count
          (.value it.buffer.head?, { it with buffer := it.buffer.tail })

/-- The peer is resolved, or resolving it does not fail. -/
def PeerFound (it : MessageIter μ) (o : Outage) : Prop :=
  ∀ e, o = .resolve e → it.buffer ≠ [] ∨ it.done = true ∨ it.peer.isSome = true

end MessageIter

/-! A `DialogIter` is as it was. -/

namespace DialogServer
variable {server : DialogServer} {it : DialogIter} {o : Outage}

theorem advance_under (offset : Offset) (page : List Dialog)
    (h : ∀ e, o = .input e → ∀ last, page.getLast? = some last → last.peer = none) :
    (server.under o).advance offset page = (server.under .clear).advance offset page := by
  unfold Client.advance
  cases hlast : page.getLast? with
  | none => rfl
  | some last =>
    simp only
    cases hpeer : last.peer with
    | none => rfl
    | some p =>
      cases o with
      | input e => exact absurd (hpeer.symm.trans (h e rfl last hlast)) (by simp)
      | _ => rfl

theorem advance_clear (server : DialogServer) (offset : Offset) (page : List Dialog) :
    ∃ next, (server.under .clear).advance offset page = (.ok next, next) := by
  unfold Client.advance
  cases page.getLast? with
  | none => exact ⟨_, rfl⟩
  | some last =>
    cases hpeer : last.peer with
    | none => exact ⟨_, by simp only [hpeer]; rfl⟩
    | some p => exact ⟨_, by simp only [hpeer]; rfl⟩

theorem call_clear (server : DialogServer) (it : DialogIter) : ∃ d, (server.call it .clear).1 = .value d := by
  unfold call DialogIter.next
  cases it.buffer with
  | cons d buffer => exact ⟨_, rfl⟩
  | nil =>
    cases it.done with
    | true => exact ⟨_, rfl⟩
    | false =>
      obtain ⟨next, hnext⟩ := server.advance_clear it.offset (server.page (it.request it.offset)).1
      simp only [under] at hnext ⊢
      simp [hnext]

/-- A call fails in the request and changes nothing, or it is undisturbed. -/
theorem call_cases (h : server.InputFound it o) :
    (∃ e, server.call it o = (.failed e, it)) ∨ server.call it o = server.call it .clear := by
  unfold call DialogIter.next
  cases hbuffer : it.buffer with
  | cons d buffer => exact Or.inr rfl
  | nil =>
    cases hdone : it.done with
    | true => exact Or.inr rfl
    | false =>
      cases o with
      | rpc e => exact Or.inl ⟨e, rfl⟩
      | clear => exact Or.inr rfl
      | resolve e => exact Or.inr rfl
      | input e =>
        refine Or.inr ?_
        have hlast : ∀ last, (server.page (it.request it.offset)).1.getLast? = some last → last.peer = none := by
          rcases h e rfl with hne | htrue | hlast
          · exact absurd hbuffer hne
          · exact absurd (hdone.symm.trans htrue) Bool.false_ne_true
          · exact hlast
        have hadvance : (server.under (.input e)).advance it.offset (server.page (it.request it.offset)).1 =
            (server.under .clear).advance it.offset (server.page (it.request it.offset)).1 :=
          advance_under it.offset _ fun _ _ => hlast
        have hinput : (server.under (.input e)).getDialogs (it.request it.offset) = .ok (server.page (it.request it.offset)) := rfl
        have hclear : (server.under .clear).getDialogs (it.request it.offset) = .ok (server.page (it.request it.offset)) := rfl
        rw [hinput, hclear]
        rcases hpage : server.page (it.request it.offset) with ⟨page, count⟩
        rw [hpage] at hadvance
        rw [if_neg Bool.false_ne_true, if_neg Bool.false_ne_true]
        simp only [hadvance]

theorem survives (server : DialogServer) (it : DialogIter) (os : List Outage)
    (h : Run.AllSteps (fun it o => (server.call it o).2) server.InputFound it os) :
    Survives server.call .clear it os := by
  have hclear : ∀ s t : DialogIter, s = t → ∃ d, (server.call s .clear).1 = .value d ∧ (server.call t .clear).1 = .value d ∧
      (server.call s .clear).2 = (server.call t .clear).2 := by
    rintro s _ rfl
    obtain ⟨d, hd⟩ := server.call_clear s
    exact ⟨d, hd, hd, rfl⟩
  refine survives_of_sim (R := Eq) ?_ hclear os it it rfl h
  rintro s _ o rfl ho
  rcases call_cases ho with ⟨e, he⟩ | hsame
  · exact Or.inl ⟨e, by rw [he], by rw [he]⟩
  · obtain ⟨d, hd⟩ := server.call_clear s
    exact Or.inr ⟨d, by rw [hsame, hd], hd, by rw [hsame]⟩

end DialogServer

/-! A `MessageIter` has its peer perhaps. -/

namespace MessageIter
variable {μ : Type} {h : History μ} {it : MessageIter μ} {o : Outage}

/-- The iterator with the peer that it was made for. -/
def withPeer (h : History μ) (it : MessageIter μ) (pr : PeerRef) : MessageIter μ :=
  { it with unresolved := none, peer := some (h.resolve pr) }

/-- There is a peer to read from. -/
def Able (it : MessageIter μ) : Prop := it.peer.isSome = true ∨ it.unresolved.isSome = true

/-- The same iterator, or the peer has been resolved in a call that failed. -/
def Ahead (h : History μ) (s t : MessageIter μ) : Prop :=
  (s = t ∧ t.Able) ∨ ∃ pr, t.peer = none ∧ t.unresolved = some pr ∧ s = t.withPeer h pr

theorem next_buffered {m : μ} {buffer : List μ} (hbuffer : it.buffer = m :: buffer) (o : Outage) :
    it.next h o = (.value (some m), { it with buffer := buffer }) := by
  unfold next
  rw [hbuffer]

theorem next_done (hbuffer : it.buffer = []) (hdone : it.done = true) (o : Outage) : it.next h o = (.value none, it) := by
  unfold next
  rw [hbuffer]
  simp only [hdone, if_true]

/-- A call that has its peer fails and changes nothing, or it is undisturbed. -/
theorem next_cases {p : Peer} (hpeer : it.peer = some p) (o : Outage) :
    (∃ e, it.next h o = (.failed e, it)) ∨ it.next h o = it.next h .clear := by
  unfold next resolved
  rw [hpeer]
  cases it.buffer with
  | cons m buffer => exact Or.inr rfl
  | nil =>
    cases it.done with
    | true => exact Or.inr rfl
    | false =>
      cases o with
      | clear => exact Or.inr rfl
      | rpc e => exact Or.inl ⟨e, rfl⟩
      | resolve e => exact Or.inr rfl
      | input e => exact Or.inl ⟨e, rfl⟩

/-- A call that resolves its peer goes on like one that has it. -/
theorem next_resolves {pr : PeerRef} (hbuffer : it.buffer = []) (hdone : it.done = false) (hpeer : it.peer = none)
    (hunresolved : it.unresolved = some pr) (ho : ∀ e, o ≠ .resolve e) :
    it.next h o = (it.withPeer h pr).next h o := by
  have hplain : it.resolved h o = (.value (h.resolve pr), it.withPeer h pr) := by
    unfold resolved
    rw [hpeer]
    simp only [hunresolved]
    cases o with
    | resolve e => exact absurd rfl (ho e)
    | _ => rfl
  have hhas : (it.withPeer h pr).resolved h o = (.value (h.resolve pr), it.withPeer h pr) := rfl
  unfold next
  rw [hplain, hhas, hbuffer, show (it.withPeer h pr).buffer = [] from hbuffer,
    show (it.withPeer h pr).done = it.done from rfl, hdone]
  rfl

theorem next_clear (hable : it.Able) : ∃ m, (it.next h .clear).1 = .value m ∧ (it.next h .clear).2.Able := by
  cases hbuffer : it.buffer with
  | cons m buffer =>
    rw [next_buffered hbuffer]
    exact ⟨some m, rfl, hable⟩
  | nil =>
    cases hdone : it.done with
    | true =>
      rw [next_done hbuffer hdone]
      exact ⟨none, rfl, hable⟩
    | false =>
      have hfetch : ∀ it : MessageIter μ, it.buffer = [] → it.done = false → it.peer.isSome = true →
          ∃ m, (it.next h .clear).1 = .value m ∧ (it.next h .clear).2.Able := by
        intro it hbuffer hdone hsome
        obtain ⟨p, hp⟩ := Option.isSome_iff_exists.mp hsome
        unfold next resolved
        rw [hp, hbuffer]
        simp only [hdone, Bool.false_eq_true, if_false]
        exact ⟨_, rfl, Or.inl (by simp [fill, hp])⟩
      cases hpeer : it.peer with
      | some p => exact hfetch it hbuffer hdone (by rw [hpeer]; rfl)
      | none =>
        rcases hable with hsome | hsome
        · rw [hpeer] at hsome
          cases hsome
        · obtain ⟨pr, hpr⟩ := Option.isSome_iff_exists.mp hsome
          rw [next_resolves hbuffer hdone hpeer hpr fun e he => by cases he]
          exact hfetch _ hbuffer hdone rfl

/-- Undisturbed, an iterator that is ahead gives the same. -/
theorem ahead_clear {s t : MessageIter μ} (hst : Ahead h s t) :
    ∃ m, (s.next h .clear).1 = .value m ∧ (t.next h .clear).1 = .value m ∧
      Ahead h (s.next h .clear).2 (t.next h .clear).2 := by
  rcases hst with ⟨rfl, hable⟩ | ⟨pr, hpeer, hunresolved, rfl⟩
  · obtain ⟨m, hm, hnext⟩ := next_clear (h := h) hable
    exact ⟨m, hm, hm, Or.inl ⟨rfl, hnext⟩⟩
  · cases hbuffer : t.buffer with
    | cons m buffer =>
      have hwith : (t.withPeer h pr).buffer = m :: buffer := hbuffer
      rw [next_buffered hbuffer, next_buffered hwith]
      exact ⟨some m, rfl, rfl, Or.inr ⟨pr, hpeer, hunresolved, rfl⟩⟩
    | nil =>
      cases hdone : t.done with
      | true =>
        have hwith : (t.withPeer h pr).buffer = [] := hbuffer
        rw [next_done hbuffer hdone, next_done hwith hdone]
        exact ⟨none, rfl, rfl, Or.inr ⟨pr, hpeer, hunresolved, rfl⟩⟩
      | false =>
        rw [next_resolves hbuffer hdone hpeer hunresolved fun e he => by cases he]
        have hable : (t.withPeer h pr).Able := Or.inl rfl
        obtain ⟨m, hm, hnext⟩ := next_clear (h := h) hable
        exact ⟨m, hm, hm, Or.inl ⟨rfl, hnext⟩⟩

/-- A call in which the peer is found fails and leaves the iterator ahead, or gives what an
    undisturbed one gives. -/
theorem ahead_step {s t : MessageIter μ} (hst : Ahead h s t) (ho : s.PeerFound o) :
    (∃ e, (s.next h o).1 = .failed e ∧ Ahead h (s.next h o).2 t) ∨
      ∃ m, (s.next h o).1 = .value m ∧ (t.next h .clear).1 = .value m ∧ Ahead h (s.next h o).2 (t.next h .clear).2 := by
  have hpeer : ∀ p, s.peer = some p → (∃ e, (s.next h o).1 = .failed e ∧ Ahead h (s.next h o).2 t) ∨
      ∃ m, (s.next h o).1 = .value m ∧ (t.next h .clear).1 = .value m ∧ Ahead h (s.next h o).2 (t.next h .clear).2 := by
    intro p hp
    rcases next_cases (h := h) hp o with ⟨e, he⟩ | hsame
    · rw [he]
      exact Or.inl ⟨e, rfl, hst⟩
    · rw [hsame]
      exact Or.inr (ahead_clear hst)
  cases hp : s.peer with
  | some p => exact hpeer p hp
  | none =>
    rcases hst with ⟨rfl, hable⟩ | ⟨pr, -, -, rfl⟩
    · have hclear : s.next h o = s.next h .clear → (∃ e, (s.next h o).1 = .failed e ∧ Ahead h (s.next h o).2 s) ∨
          ∃ m, (s.next h o).1 = .value m ∧ (s.next h .clear).1 = .value m ∧
            Ahead h (s.next h o).2 (s.next h .clear).2 := by
        intro hsame
        rw [hsame]
        exact Or.inr (ahead_clear (Or.inl ⟨rfl, hable⟩))
      cases hbuffer : s.buffer with
      | cons m buffer => exact hclear (by rw [next_buffered hbuffer, next_buffered hbuffer])
      | nil =>
        cases hdone : s.done with
        | true => exact hclear (by rw [next_done hbuffer hdone, next_done hbuffer hdone])
        | false =>
          -- the peer is resolved in this call, and stays resolved
          have hno : ∀ e, o ≠ .resolve e := by
            intro e he
            rcases ho e he with hne | htrue | hsome
            · exact hne hbuffer
            · exact Bool.false_ne_true (hdone.symm.trans htrue)
            · rw [hp] at hsome
              cases hsome
          obtain ⟨pr, hpr⟩ : ∃ pr, s.unresolved = some pr := by
            rcases hable with hsome | hsome
            · rw [hp] at hsome
              cases hsome
            · exact Option.isSome_iff_exists.mp hsome
          have hresolved := next_resolves (h := h) hbuffer hdone hp hpr hno
          have hfound : (s.withPeer h pr).peer = some (h.resolve pr) := rfl
          rcases next_cases (h := h) hfound o with ⟨e, he⟩ | hsame
          · rw [hresolved, he]
            exact Or.inl ⟨e, rfl, Or.inr ⟨pr, hp, hpr, rfl⟩⟩
          · refine hclear ?_
            rw [hresolved, hsame, next_resolves hbuffer hdone hp hpr fun e he => by cases he]
    · cases hp

theorem survives (h : History μ) (pr : PeerRef) (os : List Outage)
    (hfound : Run.AllSteps (fun it o => (MessageIter.next h it o).2) PeerFound (iterMessages pr) os) :
    Survives (MessageIter.next h) .clear (iterMessages pr) os := by
  have hstep : ∀ (s t : MessageIter μ) (o : Outage), Ahead h s t → s.PeerFound o →
      (∃ e, (s.next h o).1 = .failed e ∧ Ahead h (s.next h o).2 t) ∨
        ∃ m, (s.next h o).1 = .value m ∧ (t.next h .clear).1 = .value m ∧ Ahead h (s.next h o).2 (t.next h .clear).2 :=
    fun _ _ _ hst ho => ahead_step hst ho
  exact survives_of_sim hstep (fun _ _ hst => ahead_clear hst) os (iterMessages pr) (iterMessages pr)
    (Or.inl ⟨rfl, Or.inr rfl⟩) hfound

/-- Once resolving has failed, every further call panics. -/
theorem resolve_failure (hbuffer : it.buffer = []) (hdone : it.done = false) (hpeer : it.peer = none)
    (hunresolved : it.unresolved.isSome = true) (e : InvocationError) :
    (it.next h (.resolve e)).1 = .failed e ∧ ∀ o, ((it.next h (.resolve e)).2.next h o).1 = .panicked := by
  obtain ⟨pr, hpr⟩ := Option.isSome_iff_exists.mp hunresolved
  have hfail : it.next h (.resolve e) = (.failed e, { it with unresolved := none }) := by
    unfold next resolved
    rw [hbuffer, hpeer]
    simp only [hdone, Bool.false_eq_true, if_false, hpr]
  rw [hfail]
  refine ⟨rfl, fun o => ?_⟩
  unfold next resolved
  simp only [hbuffer, hdone, hpeer, Bool.false_eq_true, if_false]

end MessageIter

/-- Iterators survive the failures of a run: that of a dialog list in which `peer_to_input` does not
    fail behind a page, and that of a history in which resolving the peer does not fail. -/
theorem iterators_survive {μ : Type} (server : DialogServer) (h : History μ) (it : DialogIter) (pr : PeerRef)
    (dialogCalls messageCalls : List Outage)
    (hinput : Run.AllSteps (fun it o => (server.call it o).2) server.InputFound it dialogCalls)
    (hpeer : Run.AllSteps (fun it o => (MessageIter.next h it o).2) MessageIter.PeerFound (iterMessages pr) messageCalls) :
    Survives server.call .clear it dialogCalls ∧ Survives (MessageIter.next h) .clear (iterMessages pr) messageCalls :=
  ⟨server.survives it dialogCalls hinput, MessageIter.survives h pr messageCalls hpeer⟩

/-- A server with one dialog, whatever it is asked. -/
def oneDialog : DialogServer where
  page _ := ([{ raw := .dialog ⟨.user 7, 5, 0, none, none⟩, message := some (.message 100), entity := none, chat := none }], none)
  input
    | .user userId => .user userId 1
    | .chat chatId => .chat chatId
    | .channel channelId => .channel channelId 1

/-- A history of one message. -/
def oneMessage : History Int32 where
  id m := m
  resolve _ := .user 7
  input
    | .user userId => .user userId 1
    | .chat chatId => .chat chatId
    | .channel channelId => .channel channelId 1
  page _ _ offsetId := if offsetId = 0 then ([5], none) else ([], none)

theorem iterators_survive_rpc :
    Survives oneDialog.call .clear iterDialogs [.rpc .dropped, .clear, .resolve .dropped] ∧
      Survives (MessageIter.next oneMessage) .clear (iterMessages (.id 7)) [.input .dropped, .rpc .dropped, .clear] :=
  iterators_survive oneDialog oneMessage iterDialogs (.id 7) _ _
    (by simp [Run.AllSteps, DialogServer.InputFound]) (by simp [Run.AllSteps, MessageIter.PeerFound])

/-- After a failure in `peer_to_input` the only dialog is gone, and after one in resolving the peer
    the next call panics. -/
theorem iterators_lost :
    ¬ Survives oneDialog.call .clear iterDialogs [.input .dropped] ∧
      ¬ Survives (MessageIter.next oneMessage) .clear (iterMessages (.id 7)) [.resolve .dropped, .clear] := by
  constructor
  · rintro ⟨-, hgoes⟩
    obtain ⟨given, rest, hgiven, -, hclean, hafter⟩ := hgoes 1
    have hnone : given = [] := hgiven.symm.trans (by decide)
    subst hnone
    have hsame : undisturbed oneDialog.call .clear iterDialogs 1 =
        undisturbed oneDialog.call .clear (after oneDialog.call iterDialogs [.input .dropped]) 1 :=
      hclean.trans hafter.symm
    exact absurd hsame (by decide)
  · rintro ⟨hquiet, -⟩
    exact hquiet .panicked (by decide) rfl

end Ferogram.Dialogs
