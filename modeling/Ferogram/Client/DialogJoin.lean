import Ferogram.Client.Dialogs
import Ferogram.Lib.Assoc

/- A response with dialogs, and the dialogs that `get_dialogs` and `get_dialogs_raw_with_count`
   (`ferogram/src/client/dialogs.rs`) make of it. Messages, users and chats come in lists of their
   own and are joined with the dialogs by id; the map of the messages has the bare id as its key,
   and the ids of two channels may be the same.

   What is proved: `joined_iff`. A dialog has its own message, and the iterator goes on from that
   message, where no message with the same id comes behind it in the response. -/
namespace Ferogram.Dialogs
open Mtsender
open Peers (InputPeer Peer)

/-- A message, with what the join and the iterator look at. -/
inductive ApiMessage where
  | message (id : Int32) (peer : Peer) (date : Int32)
  | service (id : Int32) (peer : Peer) (date : Int32)
  | empty (id : Int32) (peer : Option Peer)
  deriving DecidableEq

namespace ApiMessage

def id : ApiMessage → Int32
  | .message id _ _ => id
  | .service id _ _ => id
  | .empty id _ => id

/-- The chat that a message is in. -/
def peer : ApiMessage → Option Peer
  | .message _ peer _ => some peer
  | .service _ peer _ => some peer
  | .empty _ peer => peer

/-- The date of a message, which an empty one does not have. -/
def date : ApiMessage → Int32
  | .message _ _ date => date
  | .service _ _ date => date
  | .empty _ _ => 0

end ApiMessage

inductive ApiDialog where
  | dialog (d : RawDialog)
  | folder
  | community (communityId : Int64)
  deriving DecidableEq

inductive ApiUser where
  | user (id : Int64) (u : DialogUser)
  | empty (id : Int64)
  deriving DecidableEq

structure ApiChat where
  id : Int64
  chat : DialogChat
  deriving DecidableEq

/-- The lists of `messages.dialogs` and of `messages.dialogsSlice`. -/
structure DialogLists where
  dialogs : List ApiDialog
  messages : List ApiMessage
  users : List ApiUser
  chats : List ApiChat
  deriving DecidableEq

inductive DialogsResponse where
  | dialogs (lists : DialogLists)
  | slice (count : Int32) (lists : DialogLists)
  | notModified (count : Int32)
  deriving DecidableEq

/-- A dialog with what belongs to it. -/
structure BuiltDialog where
  raw : ApiDialog
  message : Option ApiMessage
  entity : Option DialogUser
  chat : Option DialogChat
  deriving DecidableEq

namespace DialogLists

def msgMap (r : DialogLists) : Assoc Int32 ApiMessage := Assoc.collect (r.messages.map fun m => (m.id, m))

/-- Empty users are left out. -/
def userMap (r : DialogLists) : Assoc Int64 DialogUser :=
  Assoc.collect (r.users.filterMap fun u =>
    match u with
    | .user id u => some (id, u)
    | .empty _ => none)

def chatMap (r : DialogLists) : Assoc Int64 DialogChat := Assoc.collect (r.chats.map fun c => (c.id, c.chat))

def build (r : DialogLists) (d : ApiDialog) : BuiltDialog :=
  let topId : Int32 :=
    match d with
    | .dialog x => x.topMessage
    | _ => 0
  let peer : Option Peer :=
    match d with
    | .dialog x => some x.peer
    | _ => none
  { raw := d
    message := AList.lookup topId r.msgMap
    entity := peer.bind fun p =>
      match p with
      | .user userId => AList.lookup userId r.userMap
      | _ => none
    -- a community is found by its own id
    chat :=
      match d with
      | .community communityId => AList.lookup communityId r.chatMap
      | _ => peer.bind fun p =>
        match p with
        | .chat chatId => AList.lookup chatId r.chatMap
        | .channel channelId => AList.lookup channelId r.chatMap
        | _ => none }

def buildAll (r : DialogLists) : List BuiltDialog := r.dialogs.map r.build

end DialogLists

/-- `get_dialogs`, once the response is read. -/
def getDialogs : DialogsResponse → List BuiltDialog
  | .dialogs r => r.buildAll
  | .slice _ r => r.buildAll
  | .notModified _ => []

/-- `get_dialogs_raw_with_count`, once the response is read. -/
def getDialogsRawWithCount : DialogsResponse → List BuiltDialog × Option Int32
  | .dialogs r => (r.buildAll, none)
  | .slice count r => (r.buildAll, some count)
  | .notModified count => ([], some count)

/-! What the iterators see of it. -/

def ApiMessage.view : ApiMessage → DialogMessage
  | .message _ _ date => .message date
  | .service _ _ date => .service date
  | .empty _ _ => .empty

def ApiDialog.view : ApiDialog → RawDialogEnum
  | .dialog d => .dialog d
  | .folder => .folder
  | .community _ => .community

def BuiltDialog.view (b : BuiltDialog) : Dialog where
  raw := b.raw.view
  message := b.message.map ApiMessage.view
  entity := b.entity.map some
  chat := b.chat

/-- A client that asks this server. -/
def clientOf (server : GetDialogs → Except InvocationError DialogsResponse)
    (inputOf : Peer → Except InvocationError InputPeer) : Client where
  getDialogs req := (server req).map fun resp =>
    ((getDialogsRawWithCount resp).1.map BuiltDialog.view, (getDialogsRawWithCount resp).2)
  inputOf := inputOf

/-! Each dialog and its own message. -/

def ApiMessage.IsTopOf (m : ApiMessage) (d : RawDialog) : Prop := m.id = d.topMessage ∧ m.peer = some d.peer

/-- The dialog's own top message is there, and behind it none with the same id. -/
def DialogLists.HasLast (r : DialogLists) (d : RawDialog) : Prop :=
  ∃ front m back, r.messages = front ++ m :: back ∧ m.IsTopOf d ∧ ∀ m' ∈ back, m'.id ≠ d.topMessage

def DialogsResponse.lists : DialogsResponse → DialogLists
  | .dialogs r => r
  | .slice _ r => r
  | .notModified _ => ⟨[], [], [], []⟩

namespace DialogLists
variable {r : DialogLists} {d : RawDialog} {m : ApiMessage}

theorem lookup_msgMap {id : Int32} :
    AList.lookup id r.msgMap = some m ↔
      ∃ front back, r.messages = front ++ m :: back ∧ m.id = id ∧ ∀ m' ∈ back, m'.id ≠ id := by
  rw [msgMap, Assoc.lookup_collect_eq_some_iff]
  constructor
  · rintro ⟨front, back, hl, hback⟩
    obtain ⟨front', rest, hmsgs, -, hrest⟩ := List.map_eq_append_iff.mp hl
    obtain ⟨m', back', rfl, hm, hback'⟩ := List.map_eq_cons_iff.mp hrest
    obtain ⟨hid, rfl⟩ := Prod.mk.inj hm
    refine ⟨front', back', hmsgs, hid, fun x hx => ?_⟩
    rw [← hback'] at hback
    exact hback _ (List.mem_map_of_mem hx)
  · rintro ⟨front, back, hmsgs, rfl, hback⟩
    refine ⟨front.map fun m => (m.id, m), back.map fun m => (m.id, m), by rw [hmsgs]; simp, ?_⟩
    intro e he
    obtain ⟨x, hx, rfl⟩ := List.mem_map.mp he
    exact hback x hx

/-- A dialog carries its own message exactly if no message with the same id comes behind it. -/
theorem carries_iff :
    (∃ m, (r.build (.dialog d)).message = some m ∧ m.IsTopOf d) ↔ r.HasLast d := by
  show (∃ m, AList.lookup d.topMessage r.msgMap = some m ∧ m.IsTopOf d) ↔ _
  constructor
  · rintro ⟨m, hlook, htop⟩
    obtain ⟨front, back, hmsgs, -, hback⟩ := lookup_msgMap.mp hlook
    exact ⟨front, m, back, hmsgs, htop, hback⟩
  · rintro ⟨front, m, back, hmsgs, htop, hback⟩
    exact ⟨m, lookup_msgMap.mpr ⟨front, back, hmsgs, htop.1, hback⟩, htop⟩

end DialogLists

theorem built_eq (resp : DialogsResponse) :
    (getDialogsRawWithCount resp).1 = resp.lists.buildAll ∧ getDialogs resp = resp.lists.buildAll := by
  cases resp <;> exact ⟨rfl, rfl⟩

/-- Each dialog whose top message is in the response carries that message. -/
def DialogsResponse.PairsTops (resp : DialogsResponse) (built : List BuiltDialog) : Prop :=
  ∀ b ∈ built, ∀ d, b.raw = .dialog d → (∃ m ∈ resp.lists.messages, m.IsTopOf d) →
    ∃ m, b.message = some m ∧ m.IsTopOf d

/-- The iterator goes on from the top message of the last dialog: its offset has the date and the id
    of the one and the peer of the other. -/
def DialogsResponse.GoesOnFromTop (resp : DialogsResponse) : Prop :=
  ∀ (server : GetDialogs → Except InvocationError DialogsResponse) (inputOf : Peer → Except InvocationError InputPeer)
    (it it' : DialogIter) (got : Option Dialog),
    it.buffer = [] → it.done = false → server (it.request it.offset) = .ok resp →
    it.next (clientOf server inputOf) = (.ok got, it') →
    ∀ b, (getDialogsRawWithCount resp).1.getLast? = some b → ∀ d, b.raw = .dialog d →
      (∃ m ∈ resp.lists.messages, m.IsTopOf d) →
      ∃ m ∈ resp.lists.messages, m.IsTopOf d ∧ it'.offset.date = m.date ∧ it'.offset.id = m.id ∧
        inputOf d.peer = .ok it'.offset.peer

theorem view_date (m : ApiMessage) (b : BuiltDialog) (h : b.message = some m) : b.view.date = m.date := by
  unfold Dialog.date BuiltDialog.view
  rw [h]
  cases m <;> rfl

theorem pairsTops_iff (resp : DialogsResponse) :
    resp.PairsTops resp.lists.buildAll ↔
      ∀ d, .dialog d ∈ resp.lists.dialogs → (∃ m ∈ resp.lists.messages, m.IsTopOf d) → resp.lists.HasLast d := by
  constructor
  · intro h d hd hin
    exact DialogLists.carries_iff.mp (h _ (List.mem_map_of_mem hd) d rfl hin)
  · intro h b hb d hraw hin
    obtain ⟨x, hx, rfl⟩ := List.mem_map.mp hb
    obtain rfl : x = .dialog d := hraw
    exact DialogLists.carries_iff.mpr (h d hx hin)

/-- The offset behind a page that ends in a dialog with a message. -/
theorem advance_of_last {c : Client} {o o' o'' : Offset} {page : List Dialog} {last : Dialog} {p : Peer}
    (hlast : page.getLast? = some last) (hpeer : last.peer = some p) (h : c.advance o page = (.ok o', o'')) :
    o''.date = last.date ∧ o''.id = last.topMessage ∧ c.inputOf p = .ok o''.peer := by
  unfold Client.advance at h
  simp only [hlast, hpeer] at h
  cases hin : c.inputOf p with
  | error e =>
    rw [hin] at h
    exact absurd (congrArg Prod.fst h) (by simp)
  | ok input =>
    rw [hin] at h
    obtain rfl := (Prod.mk.inj h).2
    exact ⟨rfl, rfl, rfl⟩

/-- A call that fetches a page leaves the offset behind it. -/
theorem next_fetches {c : Client} {it it' : DialogIter} {page : List Dialog} {count : Option Int32} {got : Option Dialog}
    (hbuffer : it.buffer = []) (hdone : it.done = false)
    (hpage : c.getDialogs (it.request it.offset) = .ok (page, count)) (h : it.next c = (.ok got, it')) :
    ∃ o, c.advance it.offset page = (.ok o, it'.offset) := by
  unfold DialogIter.next at h
  simp only [hbuffer, hdone, hpage, Bool.false_eq_true, if_false] at h
  cases hadv : c.advance it.offset page with
  | mk res o =>
    rw [hadv] at h
    cases res with
    | error e => exact absurd (congrArg Prod.fst h) (by simp)
    | ok o' =>
      obtain rfl := (Prod.mk.inj h).2
      exact ⟨o', rfl⟩

theorem goesOnFromTop {resp : DialogsResponse} (h : resp.PairsTops resp.lists.buildAll) : resp.GoesOnFromTop := by
  intro server inputOf it it' got hbuffer hdone hserver hnext b hlast d hraw hin
  rw [(built_eq resp).1] at hlast
  obtain ⟨m, hmessage, htop⟩ := h b (List.mem_of_getLast? hlast) d hraw hin
  have hpage : (clientOf server inputOf).getDialogs (it.request it.offset) =
      .ok (resp.lists.buildAll.map BuiltDialog.view, (getDialogsRawWithCount resp).2) := by
    unfold clientOf
    rw [← (built_eq resp).1]
    simp only [hserver]
    rfl
  obtain ⟨o, hadv⟩ := next_fetches hbuffer hdone hpage hnext
  have hview : (resp.lists.buildAll.map BuiltDialog.view).getLast? = some b.view := by
    rw [List.getLast?_map, hlast]
    rfl
  have hraw' : b.view.raw = .dialog d := congrArg ApiDialog.view hraw
  have hpeer : b.view.peer = some d.peer := by rw [Dialog.peer, hraw']
  have htopId : b.view.topMessage = d.topMessage := by rw [Dialog.topMessage, hraw']
  obtain ⟨hdate, hid, hinput⟩ := advance_of_last hview hpeer hadv
  -- the message that the dialog carries is one of the response
  have hmem : m ∈ resp.lists.messages := by
    obtain ⟨x, hx, rfl⟩ := List.mem_map.mp (List.mem_of_getLast? hlast)
    obtain rfl : x = .dialog d := hraw
    obtain ⟨front, back, hmsgs, -, -⟩ := DialogLists.lookup_msgMap.mp hmessage
    rw [hmsgs]
    exact List.mem_append_right _ List.mem_cons_self
  exact ⟨m, hmem, htop, by rw [hdate, view_date m b hmessage], by rw [hid, htopId, htop.1], hinput⟩

/-- Both joins give every dialog its own top message, and the iterator goes on from there, exactly
    if no message of the response has the id of a dialog's top message and comes behind it. -/
theorem joined_iff (resp : DialogsResponse) :
    (resp.PairsTops (getDialogs resp) ∧ resp.PairsTops (getDialogsRawWithCount resp).1 ∧ resp.GoesOnFromTop) ↔
      ∀ d, .dialog d ∈ resp.lists.dialogs → (∃ m ∈ resp.lists.messages, m.IsTopOf d) → resp.lists.HasLast d := by
  rw [(built_eq resp).1, (built_eq resp).2]
  constructor
  · intro h
    exact (pairsTops_iff resp).mp h.1
  · intro h
    have hpairs := (pairsTops_iff resp).mpr h
    exact ⟨hpairs, hpairs, goesOnFromTop hpairs⟩

/-- Two channels whose top messages have the same id. -/
def twoChannels : DialogLists where
  dialogs := [.dialog ⟨.channel 1, 5, 0, none, none⟩, .dialog ⟨.channel 2, 5, 0, none, none⟩]
  messages := [.message 5 (.channel 1) 100, .message 5 (.channel 2) 200]
  users := []
  chats := []

/-- The first dialog has the message of the second. -/
theorem joined_wrong : ¬ ∀ resp : DialogsResponse, resp.PairsTops (getDialogs resp) ∧
    resp.PairsTops (getDialogsRawWithCount resp).1 ∧ resp.GoesOnFromTop := by
  intro h
  obtain ⟨m, hm, htop⟩ := (h (.dialogs twoChannels)).1
    (twoChannels.build (.dialog ⟨.channel 1, 5, 0, none, none⟩)) List.mem_cons_self ⟨.channel 1, 5, 0, none, none⟩ rfl
    ⟨.message 5 (.channel 1) 100, List.mem_cons_self, rfl, rfl⟩
  have hwrong : (twoChannels.build (.dialog ⟨.channel 1, 5, 0, none, none⟩)).message =
      some (.message 5 (.channel 2) 200) := by decide
  obtain rfl := Option.some.inj (hwrong.symm.trans hm)
  exact absurd htop.2 (by decide)

end Ferogram.Dialogs
