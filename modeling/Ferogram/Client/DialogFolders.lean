import Ferogram.Client.Dialogs
import Ferogram.Client.PeerLookup

/- Chat folders. `matches_filter` asks a flattened filter, in which the three lists of a folder are
   sets of bare numbers; `admits` is the rule of a folder with the notion of being on a list left
   open. `matchesFilter_eq` says that the code follows the rule with numbers in place of peers, and
   `matchesFilter_eq_plain_iff` says when that makes no difference: a number is that of another kind
   of peer, or a peer is named through a message and its number is not taken down. -/
namespace Ferogram.Dialogs
open Peers (InputPeer Peer)

/-! The rule of a folder. -/

/-- An element of the list is this peer. -/
def Listed (list : List InputPeer) (p : Peer) : Bool := list.any fun e => e.peer = some p

/-- An element of the list has the number of this peer. -/
def Numbered (list : List InputPeer) (p : Peer) : Bool := list.any fun e => inputPeerId e = some (peerId p)

namespace DialogFilter

/-- The lists that let a dialog in. -/
def wanted : DialogFilter → List InputPeer
  | .default => []
  | .chatlist _ pinnedPeers includePeers => pinnedPeers ++ includePeers
  | .dialogFilter f => f.pinnedPeers ++ f.includePeers

/-- The list that keeps a dialog out. -/
def unwanted : DialogFilter → List InputPeer
  | .dialogFilter f => f.excludePeers
  | _ => []

end DialogFilter

/-- The flags of a folder: what is archived, read or muted may be out, and a kind of chat in. -/
def DialogFilterBody.admitsKind (now : Int32) (f : DialogFilterBody) (d : Dialog) (r : RawDialog) : Bool :=
  let isBot := d.entity.join.any DialogUser.bot
  let isContact := d.entity.join.any DialogUser.contact
  let isBroadcast := decide (d.chat = some (.channel true))
  let isOut : Prop := f.excludeArchived ∧ r.folderId = some 1 ∨ f.excludeRead ∧ r.unreadCount = 0 ∨
    f.excludeMuted ∧ r.muteUntil.any (now < ·)
  !decide isOut &&
    (f.bots && isBot || f.contacts && d.entity.isSome && isContact && !isBot ||
      f.nonContacts && d.entity.isSome && !isContact && !isBot ||
      f.groups && (d.chat.isSome && !isBroadcast) || f.broadcasts && isBroadcast)

namespace DialogFilter

/-- Only a folder with flags lets a dialog in that is on no list. -/
def admitsKind (now : Int32) (f : DialogFilter) (d : Dialog) (r : RawDialog) : Bool :=
  match f with
  | .dialogFilter f => f.admitsKind now d r
  | _ => false

/-- The rule: what is excluded is out, what is pinned or included is in, and the flags decide about
    the others. A dialog without a peer is in the folder of all chats only. -/
def admits (on : List InputPeer → Peer → Bool) (now : Int32) (f : DialogFilter) (d : Dialog) : Bool :=
  if f = .default then true
  else
    match d.raw with
    | .dialog r => !on f.unwanted r.peer && (on f.wanted r.peer || f.admitsKind now d r)
    | _ => false

/-- The rule on the folder's own lists. -/
def plainRule : Int32 → DialogFilter → Dialog → Bool := admits Listed

end DialogFilter

/-! The flattened filter. -/

theorem mem_peerIdSet {list : List InputPeer} {p : Peer} : peerId p ∈ peerIdSet list ↔ Numbered list p = true := by
  simp [peerIdSet, Numbered]

theorem Numbered_append (a b : List InputPeer) (p : Peer) : Numbered (a ++ b) p = (Numbered a p || Numbered b p) :=
  List.any_append

/-- The flags of the flattened filter are those of the folder. -/
theorem matchesKind_ofFilter (now : Int32) (f : DialogFilterBody) (d : Dialog) (r : RawDialog) :
    (if f.excludeArchived ∧ r.folderId = some 1 then false
      else if f.excludeRead ∧ r.unreadCount = 0 then false
      else if f.excludeMuted ∧ r.muteUntil.any (now < ·) then false
      else d.matchesKind (.ofFilter (.dialogFilter f))) = f.admitsKind now d r := by
  have hjoin : d.entity.bind id = d.entity.join := rfl
  unfold DialogFilterBody.admitsKind Dialog.matchesKind FlattenedDialogFilter.ofFilter
  simp only [hjoin]
  by_cases h1 : f.excludeArchived ∧ r.folderId = some 1
  · simp only [h1, and_self, if_true, true_or, decide_true, Bool.not_true, Bool.false_and]
  · by_cases h2 : f.excludeRead ∧ r.unreadCount = 0
    · simp only [h2, h1, and_self, if_true, if_false, true_or, or_true, decide_true, Bool.not_true, Bool.false_and]
    · by_cases h3 : f.excludeMuted ∧ r.muteUntil.any (now < ·)
      · simp only [h3, h2, h1, and_self, if_true, if_false, or_true, decide_true, Bool.not_true, Bool.false_and]
      · simp only [h3, h2, h1, if_false, or_self, decide_false, Bool.not_false, Bool.true_and]

/-- The code follows the rule with numbers in place of peers. -/
theorem matchesFilter_eq (now : Int32) (f : DialogFilter) (d : Dialog) :
    d.matchesFilter now (.ofFilter f) = f.admits Numbered now d := by
  cases hraw : d.raw with
  | folder => cases f <;> simp [Dialog.matchesFilter, DialogFilter.admits, hraw, FlattenedDialogFilter.ofFilter]
  | community => cases f <;> simp [Dialog.matchesFilter, DialogFilter.admits, hraw, FlattenedDialogFilter.ofFilter]
  | dialog r =>
    cases f with
    | default => simp [Dialog.matchesFilter, DialogFilter.admits, FlattenedDialogFilter.ofFilter]
    | chatlist fid pinnedPeers includePeers =>
      -- a shared folder has no flags, so a peer that is on no list is out
      have hnone : d.matchesKind (.ofFilter (.chatlist fid pinnedPeers includePeers)) = false := by
        simp [Dialog.matchesKind, FlattenedDialogFilter.ofFilter]
      have hcode : d.matchesFilter now (.ofFilter (.chatlist fid pinnedPeers includePeers)) =
          decide (Numbered pinnedPeers r.peer = true ∨ Numbered includePeers r.peer = true) := by
        unfold Dialog.matchesFilter
        rw [hnone]
        simp [hraw, FlattenedDialogFilter.ofFilter, mem_peerIdSet]
      have hnil : Numbered [] r.peer = false := rfl
      rw [hcode]
      simp only [DialogFilter.admits, reduceCtorEq, if_false, hraw, DialogFilter.unwanted, DialogFilter.wanted,
        DialogFilter.admitsKind, Numbered_append, hnil]
      cases Numbered pinnedPeers r.peer <;> cases Numbered includePeers r.peer <;> rfl
    | dialogFilter f =>
      have hcode : d.matchesFilter now (.ofFilter (.dialogFilter f)) =
          if Numbered f.excludePeers r.peer = true then false
          else if Numbered f.pinnedPeers r.peer = true ∨ Numbered f.includePeers r.peer = true then true
          else f.admitsKind now d r := by
        rw [← matchesKind_ofFilter now f d r]
        unfold Dialog.matchesFilter
        simp only [hraw, ← mem_peerIdSet]
        rfl
      rw [hcode]
      simp only [DialogFilter.admits, reduceCtorEq, if_false, hraw, DialogFilter.unwanted, DialogFilter.wanted,
        DialogFilter.admitsKind, Numbered_append]
      cases Numbered f.excludePeers r.peer <;> cases Numbered f.pinnedPeers r.peer <;>
        cases Numbered f.includePeers r.peer <;> simp

/-! When numbers are as good as peers. -/

/-- Where the numbers have the peer of a dialog out and the list does not, the rule has it out
    anyway; where the list has it out and the numbers do not, they do not let it in; and where both
    leave it, the flags let it in, or numbers and lists agree about what is pinned or included. -/
def Untouched (now : Int32) (f : DialogFilter) (d : Dialog) (r : RawDialog) : Prop :=
  if Numbered f.unwanted r.peer then
    Listed f.unwanted r.peer = true ∨ (Listed f.wanted r.peer = false ∧ f.admitsKind now d r = false)
  else if Listed f.unwanted r.peer then
    Numbered f.wanted r.peer = false ∧ f.admitsKind now d r = false
  else f.admitsKind now d r = true ∨ Numbered f.wanted r.peer = Listed f.wanted r.peer

theorem matchesFilter_eq_plain_iff (now : Int32) (f : DialogFilter) (d : Dialog) :
    d.matchesFilter now (.ofFilter f) = f.plainRule now d ↔ ∀ r, d.raw = .dialog r → Untouched now f d r := by
  rw [matchesFilter_eq]
  cases hraw : d.raw with
  | folder => simp [DialogFilter.plainRule, DialogFilter.admits, hraw]
  | community => simp [DialogFilter.plainRule, DialogFilter.admits, hraw]
  | dialog r =>
    simp only [RawDialogEnum.dialog.injEq, forall_eq']
    have hrule : ∀ on : List InputPeer → Peer → Bool, f ≠ .default →
        f.admits on now d = (!on f.unwanted r.peer && (on f.wanted r.peer || f.admitsKind now d r)) := by
      intro on hf
      rw [DialogFilter.admits, if_neg hf, hraw]
    by_cases hf : f = .default
    · subst hf
      exact iff_of_true rfl (Or.inr rfl)
    · unfold Untouched DialogFilter.plainRule
      rw [hrule Numbered hf, hrule Listed hf]
      cases Numbered f.unwanted r.peer <;> cases Listed f.unwanted r.peer <;> cases Numbered f.wanted r.peer <;>
        cases Listed f.wanted r.peer <;> cases f.admitsKind now d r <;> simp

/-- Numbers are as good as peers where no element of the list has the number of another kind of
    peer, or the peer without its number. -/
theorem Numbered_eq_Listed {list : List InputPeer} {p : Peer}
    (h : ∀ e ∈ list, inputPeerId e = some (peerId p) ↔ e.peer = some p) : Numbered list p = Listed list p := by
  induction list with
  | nil => rfl
  | cons e list ih =>
    have hhead := h e List.mem_cons_self
    have htail := ih fun e he => h e (List.mem_cons_of_mem _ he)
    unfold Numbered Listed at htail ⊢
    rw [List.any_cons, List.any_cons, htail, decide_eq_decide.mpr hhead]

theorem Untouched_of_lists {now : Int32} {f : DialogFilter} {d : Dialog} {r : RawDialog}
    (h : ∀ e ∈ f.unwanted ++ f.wanted, inputPeerId e = some (peerId r.peer) ↔ e.peer = some r.peer) :
    Untouched now f d r := by
  have hunwanted := Numbered_eq_Listed fun e he => h e (List.mem_append_left _ he)
  have hwanted := Numbered_eq_Listed fun e he => h e (List.mem_append_right _ he)
  unfold Untouched
  rw [hunwanted, hwanted]
  cases Listed f.unwanted r.peer <;> simp

/-- The folder of the basic group 7 shows the user 7. -/
theorem matchesFilter_wrong_kind : ¬ ∀ (now : Int32) (f : DialogFilter) (d : Dialog),
    d.matchesFilter now (.ofFilter f) = f.plainRule now d := by
  intro h
  have hne := h 0 (.chatlist 2 [] [.chat 7])
    { raw := .dialog { peer := .user 7, topMessage := 1, unreadCount := 0, muteUntil := none, folderId := none }
      message := none
      entity := some (some { bot := false, contact := false })
      chat := none }
  exact absurd hne (by decide)

end Ferogram.Dialogs
