import Ferogram.Msgbox.Sources

/- How the client feeds the message box, `ferogram/src/client/mod.rs`: pushed
   frames go through `dispatch_updates`, which forwards what the box approves to
   `update_tx`; the responses of the client's own calls go through
   `feed_own_updates`, which throws it away, as `dispatch_updates` does for an
   `updateShortSentMessage`.

   An own response can fill a gap, and what was buffered behind it is then
   returned by a call that forwards nothing (`buffered_lost`). Where no response
   does that to a pushed update that has not been forwarded yet, everything pushed
   that the box approves is forwarded (`pushed_forwarded`).

   The deserializers are generated from the schema at build time and are a
   parameter. `update_tx` never fills up here, and a list of raw updates stands
   for the updates they are converted into, one or more each. -/
namespace Ferogram.Client
open Ferogram.Tl Ferogram.Msgbox MessageBoxes

/-- `messages.ChatInviteJoinResult`. -/
inductive ChatInviteJoinResult where
  | ok (updates : Updates)
  | webView (rest : Blob)
  deriving DecidableEq, Repr

/-- The deserializers of the generated types; the boxed ones (`enums`) read the
constructor id themselves, the bare ones (`types`) start after it. -/
structure Deserialize where
  updates : List UInt8 → Option Updates
  chatInviteJoinResult : List UInt8 → Option ChatInviteJoinResult
  updateShort : List UInt8 → Option UpdateShort
  updateShortSentMessage : List UInt8 → Option UpdateShortSentMessage
  affectedMessages : List UInt8 → Option AffectedMessages

/-- `u32::from_le_bytes` of the first four bytes, if there are that many. -/
def constructorId : List UInt8 → Option UInt32
  | a :: b :: c :: d :: _ =>
    some (a.toUInt32 ||| b.toUInt32 <<< 8 ||| c.toUInt32 <<< 16 ||| d.toUInt32 <<< 24)
  | _ => none

/-- `classify_own_response`. -/
def classifyOwnResponse (tl : Deserialize) (body : List UInt8) : Option UpdatesLike :=
  match constructorId body with
  | none => none
  | some id =>
    match tl.updates body with
    | some updates => some (.updates updates)
    | none =>
      match tl.chatInviteJoinResult body with
      | some (.ok updates) => some (.updates updates)
      | _ =>
        -- messages.affectedMessages
        if id = 0x84d19185 then (tl.affectedMessages (body.drop 4)).map .affectedMessages else none

/-- What `dispatch_updates` takes a frame for. -/
inductive Incoming where
  | ignored
  | tooLong
  | sent (affected : AffectedMessages)
  | container (original : Option Updates)
  deriving DecidableEq, Repr

def parseFrame (tl : Deserialize) (body : List UInt8) : Incoming :=
  match constructorId body with
  | none => .ignored
  | some cid =>
    if cid = 0xe317af7e then .tooLong
    else if cid = 0x74ae4240 then
      match tl.updates body with
      | some (.updates u) => .container (some (.updates u))
      | _ => .container none
    else if cid = 0x725b04c3 then
      match tl.updates body with
      | some (.combined u) => .container (some (.combined u))
      | _ => .container none
    else if cid = 0x78d4dec1 then
      .container ((tl.updateShort (body.drop 4)).map .updateShort)
    else if cid = 0x9015e101 then
      match tl.updateShortSentMessage (body.drop 4) with
      | some sent => .sent { pts := sent.pts, ptsCount := sent.ptsCount }
      | none => .ignored
    else .container none

/-- What a container is to the box. -/
def containerInput : Option Updates → UpdatesLike
  | some updates => .updates updates
  | none => .malformedUpdates

/-- The client, as far as updates go: the box, the tasks `updatesTooLong` has
spawned, and what went into `update_tx`. The last two fields keep the history the
results are about: what pushed containers held, and what the box approved. -/
structure State where
  box : MessageBoxes
  spawned : Nat
  updateTx : List Update
  pushed : List Update
  returned : List Update

namespace State

/-- `let _ = message_box.process_updates(..)`. -/
def discard (x : State) (now : Instant) (b : UpdatesLike) : State :=
  let r := x.box.processUpdates now b
  { x with box := r.2, returned := x.returned ++ approved r.1 }

/-- A container: every approved update is forwarded. -/
def forward (x : State) (now : Instant) (b : UpdatesLike) : State :=
  let r := x.box.processUpdates now b
  { x with
    box := r.2
    updateTx := x.updateTx ++ approved r.1
    pushed := x.pushed ++ b.contents
    returned := x.returned ++ approved r.1 }

def dispatchUpdates (tl : Deserialize) (x : State) (now : Instant) (body : List UInt8) : State :=
  match parseFrame tl body with
  | .ignored => x
  | .tooLong => { x with spawned := x.spawned + 1 }
  | .sent affected => x.discard now (.affectedMessages affected)
  | .container original => x.forward now (containerInput original)

/-- A task spawned for an `updatesTooLong` runs. -/
def runSpawned (x : State) (now : Instant) : State :=
  if x.spawned = 0 then x
  else { x.discard now .connectionClosed with spawned := x.spawned - 1 }

def feedOwnUpdates (tl : Deserialize) (x : State) (now : Instant) (body : List UInt8) : State :=
  match classifyOwnResponse tl body with
  | some parsed => x.discard now parsed
  | none => x

end State

/-- What happens to the client. -/
inductive Event where
  | frame (body : List UInt8)
  | ownResponse (body : List UInt8)
  | spawnedTask
  deriving DecidableEq, Repr

def handle (tl : Deserialize) (x : State) (i : Instant × Event) : State :=
  match i.2 with
  | .frame body => x.dispatchUpdates tl i.1 body
  | .ownResponse body => x.feedOwnUpdates tl i.1 body
  | .spawnedTask => x.runSpawned i.1

/-- Everything pushed that the box has approved is in `update_tx`. -/
def NoneLost (x : State) : Prop := ∀ u ∈ x.pushed, u ∈ x.returned → u ∈ x.updateTx

/-- A batch whose results are thrown away brings no pushed update that has not been
forwarded: it holds none, and fills the gap before none. -/
structure Harmless (x : State) (b : UpdatesLike) : Prop where
  contents : ∀ u ∈ b.contents, u ∈ x.pushed → u ∈ x.updateTx
  gaps : ∀ u, FillsGap x.box b u → u.update ∈ x.pushed → u.update ∈ x.updateTx

/-- Own responses and sent messages are harmless, and no container brings an
update that was thrown away before. -/
def Undisturbed (tl : Deserialize) (x : State) (i : Instant × Event) : Prop :=
  match i.2 with
  | .frame body =>
    match parseFrame tl body with
    | .sent affected => Accepted x.box (.affectedMessages affected) →
        Harmless x (.affectedMessages affected)
    | .container original =>
      ∀ u ∈ (containerInput original).contents, u ∈ x.returned → u ∈ x.updateTx
    | _ => True
  | .ownResponse body =>
    ∀ parsed, classifyOwnResponse tl body = some parsed → Accepted x.box parsed → Harmless x parsed
  | .spawnedTask => True

/-- What holds all the time. -/
structure Kept (x : State) : Prop where
  sound : Sound x.box
  noneLost : NoneLost x

theorem Kept.discard {x : State} (h : Kept x) (now : Instant) {b : UpdatesLike}
    (hb : Accepted x.box b → Harmless x b) : Kept (x.discard now b) := by
  refine ⟨(processUpdates_moves x.box b).sound h.sound, fun u hu hret => ?_⟩
  rcases List.mem_append.mp hret with hret | hret
  · exact h.noneLost u hu hret
  · obtain ⟨hacc, hown | ⟨p, rfl, hgap⟩⟩ := returned_source h.sound hret
    · exact (hb hacc).contents u hown hu
    · exact (hb hacc).gaps p hgap hu

theorem Kept.forward {x : State} (h : Kept x) (now : Instant) {b : UpdatesLike}
    (hb : ∀ u ∈ b.contents, u ∈ x.returned → u ∈ x.updateTx) : Kept (x.forward now b) := by
  refine ⟨(processUpdates_moves x.box b).sound h.sound, fun u hu hret => ?_⟩
  apply List.mem_append.mpr
  rcases List.mem_append.mp hret with hret | hret
  · left
    rcases List.mem_append.mp hu with hu | hu
    · exact h.noneLost u hu hret
    · exact hb u hu hret
  · exact Or.inr hret

/-- A closed connection is never accepted. -/
theorem not_accepted_connectionClosed (s : MessageBoxes) : ¬ Accepted s .connectionClosed := by
  rintro ⟨c, hc, -⟩
  cases hc

theorem handle_kept (tl : Deserialize) {x : State} (i : Instant × Event)
    (hi : Undisturbed tl x i) (h : Kept x) : Kept (handle tl x i) := by
  obtain ⟨now, event⟩ := i
  cases event with
  | frame body =>
    change Kept (x.dispatchUpdates tl now body)
    unfold State.dispatchUpdates
    unfold Undisturbed at hi
    dsimp only at hi
    cases hp : parseFrame tl body with
    | ignored => exact h
    | tooLong => exact ⟨h.sound, h.noneLost⟩
    | sent affected =>
      rw [hp] at hi
      exact h.discard now hi
    | container original =>
      rw [hp] at hi
      exact h.forward now hi
  | ownResponse body =>
    change Kept (x.feedOwnUpdates tl now body)
    unfold State.feedOwnUpdates
    cases hc : classifyOwnResponse tl body with
    | none => exact h
    | some parsed => exact h.discard now (hi parsed hc)
  | spawnedTask =>
    change Kept (x.runSpawned now)
    unfold State.runSpawned
    split
    · exact h
    · have hd : Kept (x.discard now .connectionClosed) :=
        h.discard now (fun hacc => absurd hacc (not_accepted_connectionClosed x.box))
      exact ⟨hd.sound, hd.noneLost⟩

/-- In every order of frames, own responses and spawned tasks in which the steps
that throw results away are harmless, every pushed update that the box approves is
forwarded. -/
theorem pushed_forwarded (tl : Deserialize) (dbg : Bool) {s : MessageBoxes} (h : Reachable dbg s)
    (pushed : List Update) (events : List (Instant × Event))
    (hevents : Run.AllSteps (handle tl) (Undisturbed tl)
      { box := s, spawned := 0, updateTx := [], pushed := pushed, returned := [] } events) :
    ∀ x ∈ Run.states (handle tl)
      { box := s, spawned := 0, updateTx := [], pushed := pushed, returned := [] } events,
      NoneLost x := by
  intro x hx
  have hstart :
      Kept { box := s, spawned := 0, updateTx := [], pushed := pushed, returned := [] } :=
    ⟨h.sound, fun u _ hret => by cases hret⟩
  exact (Run.states_inv (handle tl) (fun x i hi => handle_kept tl i hi) events _ hstart hevents
    x hx).noneLost

/-- A batch of updates of keys that have nothing buffered fills no gap. -/
theorem Harmless.of_unbuffered {x : State} {b : UpdatesLike}
    (hc : ∀ u ∈ b.contents, u ∈ x.pushed → u ∈ x.updateTx)
    (hh : ∀ u ∈ b.contents, ∀ key, updateKey u = some key → ∀ e, x.box.entry key = some e →
      e.held = []) : Harmless x b := by
  refine ⟨hc, fun u hgap => ?_⟩
  obtain ⟨v, hv, hkey⟩ := hgap.concerned
  obtain ⟨e, l, he, hu, -⟩ := hgap.leads
  rw [hh v hv u.info.key (by simpa [belongsTo] using hkey) e he] at hu
  cases hu

/-- Number `n`, in four bytes. -/
def smallInt (n : UInt8) : List UInt8 := [n, 0, 0, 0]

/-- The deserializers, on objects of small numbers: an `updateShort` with the
deletion of one message, and `messages.affectedMessages`. -/
def smallTl : Deserialize where
  updates _ := none
  chatInviteJoinResult _ := none
  updateShort
    | [0xe5, 0xb0, 0x0d, 0xa2, 0x15, 0xc4, 0xb5, 0x1c, 1, 0, 0, 0, id, 0, 0, 0, pts, 0, 0, 0,
       count, 0, 0, 0, date, 0, 0, 0] =>
      some { update := .deleteMessages [.ofNat id.toNat] (.ofNat pts.toNat) (.ofNat count.toNat),
             date := .ofNat date.toNat }
    | _ => none
  updateShortSentMessage _ := none
  affectedMessages
    | [pts, 0, 0, 0, count, 0, 0, 0] =>
      some { pts := .ofNat pts.toNat, ptsCount := .ofNat count.toNat }
    | _ => none

/-- The frame of an `updateShort` that deletes message 7. -/
def deletionFrame (pts : UInt8) : List UInt8 :=
  [0xc1, 0xde, 0xd4, 0x78, 0xe5, 0xb0, 0x0d, 0xa2, 0x15, 0xc4, 0xb5, 0x1c] ++ smallInt 1 ++
    smallInt 7 ++ smallInt pts ++ smallInt 1 ++ smallInt 1

/-- The response to an own deletion. -/
def affectedResponse (pts : UInt8) : List UInt8 :=
  [0x85, 0x91, 0xd1, 0x84] ++ smallInt pts ++ smallInt 1

theorem deletionFrame_parse (pts : UInt8) : parseFrame smallTl (deletionFrame pts) =
    .container (some (.updateShort
      { update := .deleteMessages [7] (.ofNat pts.toNat) 1, date := 1 })) := rfl

theorem affectedResponse_classify (pts : UInt8) :
    classifyOwnResponse smallTl (affectedResponse pts) =
      some (.affectedMessages { pts := .ofNat pts.toNat, ptsCount := 1 }) := rfl

/-- The client with the account at `pts` 10. -/
def clientAtTen : State :=
  { box := atTen, spawned := 0, updateTx := [], pushed := [], returned := [] }

theorem deletionFrame_undisturbed {x : State} {pts : UInt8}
    (h : .deleteMessages [7] (.ofNat pts.toNat) 1 ∉ x.returned) (now : Instant) :
    Undisturbed smallTl x (now, .frame (deletionFrame pts)) := by
  unfold Undisturbed
  dsimp only
  rw [deletionFrame_parse]
  intro u hu hret
  obtain rfl : u = .deleteMessages [7] (.ofNat pts.toNat) 1 := List.mem_singleton.mp hu
  exact absurd hret h

/-- An own deletion between two pushed ones. -/
def interleaved : List (Instant × Event) :=
  [(1, .frame (deletionFrame 11)), (2, .ownResponse (affectedResponse 12)),
   (3, .frame (deletionFrame 13))]

theorem deletions_forwarded :
    let x := Run.final (handle smallTl) clientAtTen interleaved
    x.updateTx = [.deleteMessages [7] 11 1, .deleteMessages [7] 13 1] ∧ NoneLost x := by
  refine ⟨by decide +kernel, pushed_forwarded smallTl true atTen_reachable [] interleaved
    ⟨?_, ?_, ?_, trivial⟩ _ (Run.final_mem_states _ _ _)⟩
  · exact deletionFrame_undisturbed (by simp) 1
  · intro parsed hparsed _
    rw [affectedResponse_classify] at hparsed
    cases hparsed
    apply Harmless.of_unbuffered
    · decide +kernel
    · intro u hu key hkey e he
      obtain rfl : u = .deleteMessages [] 12 1 := List.mem_singleton.mp hu
      cases hkey
      have hheld : ((handle smallTl clientAtTen (1, .frame (deletionFrame 11))).box.entry
          .common).map LiveEntry.held = some [] := by decide +kernel
      rw [show (handle smallTl clientAtTen (1, .frame (deletionFrame 11))).box.entry .common =
        some e from he] at hheld
      exact Option.some.inj hheld
  · exact deletionFrame_undisturbed (by decide +kernel) 3

/-- A pushed deletion that arrives before the response it has to wait for. -/
def gapFilled : List (Instant × Event) :=
  [(1, .frame (deletionFrame 12)), (2, .ownResponse (affectedResponse 11))]

/-- The response brings it out, and it is thrown away with the response. -/
theorem buffered_lost :
    let x := Run.final (handle smallTl) clientAtTen gapFilled
    Reachable true atTen ∧ x.pushed = [.deleteMessages [7] 12 1] ∧
    x.returned = [.deleteMessages [] 11 1, .deleteMessages [7] 12 1] ∧ x.updateTx = [] ∧
    ¬ NoneLost x := by
  refine ⟨atTen_reachable, by decide +kernel, by decide +kernel, by decide +kernel, fun h => ?_⟩
  have hlost := h (.deleteMessages [7] 12 1) (by decide +kernel) (by decide +kernel)
  exact absurd hlost (by decide +kernel)

end Ferogram.Client
