import Mathlib.Data.List.Infix

/- Routers and the dispatcher, the part of `ferogram/src/filters/router.rs` that concerns messages.

   A router keeps its own handlers apart from the routers that it includes, and `flatten` puts the
   own ones first; the dispatcher flattens a router at once and keeps everything in the order of the
   calls. `runMessage` looks for a handler of the conversation's state first, and runs every handler
   that accepts the message where it finds none.

   Filters are functions. The calls that set routers up are a tree (`Calls`), and a handler is known
   by the place of the call that registered it. -/
namespace Ferogram.Filters
variable {μ : Type}

/-- Where a call stands: the way to it, into a router that is included or on to the next call. -/
abbrev Place : Type := List Bool

structure MessageHandler (μ : Type) where
  filter : μ → Bool
  handler : Place

structure FsmMessageHandler (μ : Type) where
  filter : μ → Bool
  expectedState : String
  handler : Place

/-- The lists that `flatten` makes. -/
structure FlatHandlers (μ : Type) where
  newMsg : List (MessageHandler μ) := []
  editedMsg : List (MessageHandler μ) := []
  fsmNewMsg : List (FsmMessageHandler μ) := []
  fsmEditedMsg : List (FsmMessageHandler μ) := []

structure Router (μ : Type) extends FlatHandlers μ where
  scope : Option (μ → Bool) := none
  children : List (Router μ) := []

def combineScopes (parent own : Option (μ → Bool)) : Option (μ → Bool) :=
  match parent, own with
  | some p, some s => some fun m => p m && s m
  | some p, none | none, some p => some p
  | none, none => none

def scopedMsg (h : MessageHandler μ) (scope : Option (μ → Bool)) : MessageHandler μ :=
  match scope with
  | some s => { h with filter := fun m => s m && h.filter m }
  | none => h

def scopedFsm (h : FsmMessageHandler μ) (scope : Option (μ → Bool)) : FsmMessageHandler μ :=
  match scope with
  | some s => { h with filter := fun m => s m && h.filter m }
  | none => h

namespace FlatHandlers

def extend (flat other : FlatHandlers μ) : FlatHandlers μ where
  newMsg := flat.newMsg ++ other.newMsg
  editedMsg := flat.editedMsg ++ other.editedMsg
  fsmNewMsg := flat.fsmNewMsg ++ other.fsmNewMsg
  fsmEditedMsg := flat.fsmEditedMsg ++ other.fsmEditedMsg

def scopedBy (own : FlatHandlers μ) (scope : Option (μ → Bool)) : FlatHandlers μ where
  newMsg := own.newMsg.map (scopedMsg · scope)
  editedMsg := own.editedMsg.map (scopedMsg · scope)
  fsmNewMsg := own.fsmNewMsg.map (scopedFsm · scope)
  fsmEditedMsg := own.fsmEditedMsg.map (scopedFsm · scope)

end FlatHandlers

namespace Router

mutual

def flatten (parentScope : Option (μ → Bool)) : Router μ → FlatHandlers μ
  | ⟨own, scope, children⟩ =>
    let combinedScope := combineScopes parentScope scope
    flattenInto combinedScope (own.scopedBy combinedScope) children

/-- The loop over the children. -/
def flattenInto (combinedScope : Option (μ → Bool)) (flat : FlatHandlers μ) : List (Router μ) → FlatHandlers μ
  | [] => flat
  | child :: children => flattenInto combinedScope (flat.extend (flatten combinedScope child)) children

end

end Router

/-! Registration. -/

/-- The methods that register a handler for messages. -/
inductive Kind where
  | onMessage
  | onEdit
  | onMessageFsm (state : String)
  | onEditFsm (state : String)
  deriving DecidableEq

/-- The calls on a router or on the dispatcher, one after another. -/
inductive Calls (μ : Type) where
  | done
  | register (kind : Kind) (filter : μ → Bool) (rest : Calls μ)
  -- the router that is included, with its scope and the calls on it
  | includeRouter (scope : Option (μ → Bool)) (child rest : Calls μ)

/-- The place of the next call. -/
def Place.next (p : Place) : Place := p ++ [true]

/-- The place of the first call on a router that is included. -/
def Place.inside (p : Place) : Place := p ++ [false]

namespace FlatHandlers

def onMessage (own : FlatHandlers μ) (p : Place) (filter : μ → Bool) : FlatHandlers μ :=
  { own with newMsg := own.newMsg ++ [⟨filter, p⟩] }

def onEdit (own : FlatHandlers μ) (p : Place) (filter : μ → Bool) : FlatHandlers μ :=
  { own with editedMsg := own.editedMsg ++ [⟨filter, p⟩] }

def onMessageFsm (own : FlatHandlers μ) (p : Place) (filter : μ → Bool) (state : String) : FlatHandlers μ :=
  { own with fsmNewMsg := own.fsmNewMsg ++ [⟨filter, state, p⟩] }

def onEditFsm (own : FlatHandlers μ) (p : Place) (filter : μ → Bool) (state : String) : FlatHandlers μ :=
  { own with fsmEditedMsg := own.fsmEditedMsg ++ [⟨filter, state, p⟩] }

def register (own : FlatHandlers μ) (p : Place) (filter : μ → Bool) : Kind → FlatHandlers μ
  | .onMessage => own.onMessage p filter
  | .onEdit => own.onEdit p filter
  | .onMessageFsm state => own.onMessageFsm p filter state
  | .onEditFsm state => own.onEditFsm p filter state

end FlatHandlers

namespace Router

def includeRouter (r router : Router μ) : Router μ := { r with children := r.children ++ [router] }

/-- A router after some calls. -/
def calls (r : Router μ) (p : Place) : Calls μ → Router μ
  | .done => r
  | .register kind filter rest => calls { r with toFlatHandlers := r.toFlatHandlers.register p filter kind } p.next rest
  | .includeRouter scope child rest => calls (r.includeRouter (calls { scope } p.inside child)) p.next rest

end Router

/-! The dispatcher. -/

/-- What a message tells about its conversation. -/
class MessageLike (μ : Type) where
  senderUserId : μ → Option Int64
  chatId : μ → Int64

inductive StateKeyStrategy where
  | perUserPerChat
  | perUser
  | perChat
  deriving DecidableEq

structure StateKey where
  userId : Option Int64
  chatId : Int64
  deriving DecidableEq

def StateKey.fromMessage [MessageLike μ] (msg : μ) : StateKeyStrategy → StateKey
  | .perUserPerChat => ⟨MessageLike.senderUserId msg, MessageLike.chatId msg⟩
  | .perUser => ⟨MessageLike.senderUserId msg, 0⟩
  | .perChat => ⟨none, MessageLike.chatId msg⟩

/-- `get_state` of a storage; the error is its text. -/
abbrev StateStorage : Type := StateKey → Except String (Option String)

structure Dispatcher (μ : Type) extends FlatHandlers μ where
  stateStorage : Option StateStorage := none
  keyStrategy : StateKeyStrategy := .perUserPerChat

inductive MessageUpdate (μ : Type) where
  | newMessage (msg : μ)
  | messageEdited (msg : μ)

/-- A handler that is run; one of a conversation's state gets the state and its key. -/
inductive Run where
  | regular (handler : Place)
  | fsm (handler : Place) (key : StateKey) (state : String)
  deriving DecidableEq

/-- The state of a conversation. A read that fails counts as none. -/
def currentState [MessageLike μ] (msg : μ) (storage : Option StateStorage) (strategy : StateKeyStrategy) : Option String :=
  storage.bind fun getState => ((getState (StateKey.fromMessage msg strategy)).toOption).join

/-- A handler that is found for the state is run alone. -/
def aloneOr : Option Run → List Run → List Run
  | some run, _ => [run]
  | none, regular => regular

def runMessage [MessageLike μ] (msg : μ) (regular : List (MessageHandler μ)) (fsm : List (FsmMessageHandler μ))
    (storage : Option StateStorage) (strategy : StateKeyStrategy) : List Run :=
  let matched : Option Run :=
    if fsm.isEmpty then none
    else
      match currentState msg storage strategy with
      | none => none
      | some current =>
        (fsm.find? fun h => h.expectedState = current && h.filter msg).map fun h =>
          .fsm h.handler (StateKey.fromMessage msg strategy) current
  aloneOr matched ((regular.filter fun h => h.filter msg).map fun h => .regular h.handler)

namespace Dispatcher

/-- A dispatcher after some calls. -/
def calls (d : Dispatcher μ) (p : Place) : Calls μ → Dispatcher μ
  | .done => d
  | .register kind filter rest => calls { d with toFlatHandlers := d.toFlatHandlers.register p filter kind } p.next rest
  | .includeRouter scope child rest =>
    calls { d with
      toFlatHandlers := d.toFlatHandlers.extend ((Router.calls { scope } p.inside child).flatten none) } p.next rest

/-- `dispatch`, for the updates that have a message. -/
def dispatch [MessageLike μ] (d : Dispatcher μ) : MessageUpdate μ → List Run
  | .newMessage msg => runMessage msg d.newMsg d.fsmNewMsg d.stateStorage d.keyStrategy
  | .messageEdited msg => runMessage msg d.editedMsg d.fsmEditedMsg d.stateStorage d.keyStrategy

end Dispatcher

/-! What a tree of routers means. -/

/-- A registration, with the scopes around it and its own filter. -/
structure Registration (μ : Type) where
  kind : Kind
  filters : List (μ → Bool)
  place : Place

def Registration.accepts (r : Registration μ) (msg : μ) : Bool := r.filters.all (· msg)

/-- The registrations in order, an included router's where it is included. -/
def Calls.registrations (scopes : List (μ → Bool)) (p : Place) : Calls μ → List (Registration μ)
  | .done => []
  | .register kind filter rest => ⟨kind, scopes ++ [filter], p⟩ :: registrations scopes p.next rest
  | .includeRouter scope child rest =>
    registrations (scopes ++ scope.toList) p.inside child ++ registrations scopes p.next rest

namespace MessageUpdate

def msg : MessageUpdate μ → μ
  | .newMessage msg | .messageEdited msg => msg

def kind : MessageUpdate μ → Kind
  | .newMessage _ => .onMessage
  | .messageEdited _ => .onEdit

def fsmKind (state : String) : MessageUpdate μ → Kind
  | .newMessage _ => .onMessageFsm state
  | .messageEdited _ => .onEditFsm state

end MessageUpdate

/-- The registrations of a kind that accept a message. -/
def Calls.accepting (c : Calls μ) (kind : Kind) (msg : μ) : List (Registration μ) :=
  (c.registrations [] []).filter fun r => r.kind = kind && r.accepts msg

/-- The handlers that are to run: the first one of the conversation's state that accepts the
    message, and without one all regular ones that do, in the order they were registered in. -/
def expectedRuns [MessageLike μ] (storage : Option StateStorage) (strategy : StateKeyStrategy) (c : Calls μ)
    (u : MessageUpdate μ) : List Run :=
  let chosen := (currentState u.msg storage strategy).bind fun current =>
    (c.accepting (u.fsmKind current) u.msg).head?.map fun r =>
      Run.fsm r.place (StateKey.fromMessage u.msg strategy) current
  aloneOr chosen ((c.accepting u.kind u.msg).map fun r => .regular r.place)

end Ferogram.Filters
