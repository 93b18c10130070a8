import Ferogram.Filters.Router

/- What becomes of the order of registration. For one kind of handler and one message, `ordered` has
   the places of the handlers that accept the message in the order of the calls, `flattened` those of
   a router in the order of `flatten`: the router's own ones and then the ones of the routers it
   includes. The lists have the same places, so they differ in order only.

   What is proved: `dispatch_iff`, when the handlers that run are the expected ones. -/
namespace Ferogram.Filters
variable {μ : Type} {k : Kind} {m : μ}

/-- A scope lets a message in. -/
def passes (m : μ) : Option (μ → Bool) → Bool
  | none => true
  | some s => s m

namespace Calls

/-- The router has a handler of its own that accepts the message. -/
def hasOwn (k : Kind) (m : μ) : Calls μ → Bool
  | .done => false
  | .register kind filter rest => kind = k && filter m || hasOwn k m rest
  | .includeRouter _ _ rest => hasOwn k m rest

/-- The router or one that it includes has a handler that accepts the message. -/
def hasAny (k : Kind) (m : μ) : Calls μ → Bool
  | .done => false
  | .register kind filter rest => kind = k && filter m || hasAny k m rest
  | .includeRouter scope child rest => passes m scope && hasAny k m child || hasAny k m rest

/-- No handler of a router that accepts the message is registered behind an inclusion that brings
    one; and so in the routers that it includes. -/
def InOrder (k : Kind) (m : μ) : Calls μ → Prop
  | .done => True
  | .register _ _ rest => InOrder k m rest
  | .includeRouter scope child rest =>
    (passes m scope = true → InOrder k m child ∧ (child.hasAny k m = true → rest.hasOwn k m = false)) ∧ InOrder k m rest

/-- The first handler that accepts the message is the router's own, or none of the router's own is
    registered behind the inclusion that brings it; and so in that router. -/
def FirstInOrder (k : Kind) (m : μ) : Calls μ → Prop
  | .done => True
  | .register kind filter rest => (kind = k ∧ filter m = true) ∨ FirstInOrder k m rest
  | .includeRouter scope child rest =>
    if passes m scope && child.hasAny k m then FirstInOrder k m child ∧ rest.hasOwn k m = false
    else FirstInOrder k m rest

/-- The same for the calls on the dispatcher, which keeps its order. -/
def IncludesInOrder (k : Kind) (m : μ) : Calls μ → Prop
  | .done => True
  | .register _ _ rest => IncludesInOrder k m rest
  | .includeRouter scope child rest => (passes m scope = true → InOrder k m child) ∧ IncludesInOrder k m rest

def FirstIncludeInOrder (k : Kind) (m : μ) : Calls μ → Prop
  | .done => True
  | .register kind filter rest => (kind = k ∧ filter m = true) ∨ FirstIncludeInOrder k m rest
  | .includeRouter scope child rest =>
    if passes m scope && child.hasAny k m then FirstInOrder k m child else FirstIncludeInOrder k m rest

/-! The orders. -/

def ordered (k : Kind) (m : μ) (p : Place) : Calls μ → List Place
  | .done => []
  | .register kind filter rest => (if kind = k ∧ filter m = true then [p] else []) ++ ordered k m p.next rest
  | .includeRouter scope child rest =>
    (if passes m scope then ordered k m p.inside child else []) ++ ordered k m p.next rest

def own (k : Kind) (m : μ) (p : Place) : Calls μ → List Place
  | .done => []
  | .register kind filter rest => (if kind = k ∧ filter m = true then [p] else []) ++ own k m p.next rest
  | .includeRouter _ _ rest => own k m p.next rest

def included (k : Kind) (m : μ) (p : Place) : Calls μ → List Place
  | .done => []
  | .register _ _ rest => included k m p.next rest
  | .includeRouter scope child rest =>
    (if passes m scope then own k m p.inside child ++ included k m p.inside child else []) ++ included k m p.next rest

/-- The order of `flatten`. -/
def flattened (k : Kind) (m : μ) (p : Place) (c : Calls μ) : List Place := c.own k m p ++ c.included k m p

/-- The order of the dispatcher. -/
def dispatched (k : Kind) (m : μ) (p : Place) : Calls μ → List Place
  | .done => []
  | .register kind filter rest => (if kind = k ∧ filter m = true then [p] else []) ++ dispatched k m p.next rest
  | .includeRouter scope child rest =>
    (if passes m scope then flattened k m p.inside child else []) ++ dispatched k m p.next rest

/-! Places. -/

theorem place_of_ordered {c : Calls μ} : ∀ {p q : Place}, q ∈ c.ordered k m p → p <+: q := by
  induction c with
  | done => exact fun h => absurd h List.not_mem_nil
  | register kind filter rest ih =>
    intro p q h
    rcases List.mem_append.mp h with h | h
    · split at h
      · rw [List.mem_singleton.mp h]
      · cases h
    · exact (List.prefix_append p [true]).trans (ih h)
  | includeRouter scope child rest ihc ihr =>
    intro p q h
    rcases List.mem_append.mp h with h | h
    · split at h
      · exact (List.prefix_append p [false]).trans (ihc h)
      · cases h
    · exact (List.prefix_append p [true]).trans (ihr h)

/-- No place is both inside an inclusion and behind it. -/
theorem next_inside {p q : Place} (hnext : p.next <+: q) (hinside : p.inside <+: q) : False := by
  obtain ⟨a, rfl⟩ := hnext
  obtain ⟨b, hb⟩ := hinside
  unfold Place.inside Place.next at hb
  rw [List.append_assoc, List.append_assoc] at hb
  exact absurd (List.append_cancel_left hb) (by simp)

/-- A handler is known by its place. -/
theorem ordered_nodup (c : Calls μ) : ∀ p, (c.ordered k m p).Nodup := by
  induction c with
  | done => exact fun p => List.nodup_nil
  | register kind filter rest ih =>
    intro p
    have hrest := ih p.next
    rw [ordered]
    split
    · refine List.nodup_cons.mpr ⟨fun h => ?_, hrest⟩
      exact absurd (place_of_ordered h).length_le (by simp [Place.next])
    · exact hrest
  | includeRouter scope child rest ihc ihr =>
    intro p
    have hrest := ihr p.next
    rw [ordered]
    split
    · exact List.nodup_append.mpr ⟨ihc p.inside, hrest, fun _ hinside _ hnext heq =>
        next_inside (place_of_ordered hnext) (place_of_ordered (heq ▸ hinside))⟩
    · exact hrest

theorem own_eq_nil_iff (c : Calls μ) : ∀ p, c.own k m p = [] ↔ c.hasOwn k m = false := by
  induction c with
  | done => exact fun p => iff_of_true rfl rfl
  | register kind filter rest ih =>
    intro p
    unfold own hasOwn
    rw [List.append_eq_nil_iff, ih]
    by_cases h : kind = k ∧ filter m = true
    · simp [h]
    · simp only [if_neg h, true_and, Bool.or_eq_false_iff]
      simp only [iff_and_self]
      intro _
      simpa using h
  | includeRouter scope child rest ihc ihr => exact fun p => ihr p.next

theorem ordered_eq_nil_iff (c : Calls μ) : ∀ p, c.ordered k m p = [] ↔ c.hasAny k m = false := by
  induction c with
  | done => exact fun p => iff_of_true rfl rfl
  | register kind filter rest ih =>
    intro p
    unfold ordered hasAny
    rw [List.append_eq_nil_iff, ih]
    by_cases h : kind = k ∧ filter m = true
    · simp [h]
    · simp only [if_neg h, true_and, Bool.or_eq_false_iff]
      simp only [iff_and_self]
      intro _
      simpa using h
  | includeRouter scope child rest ihc ihr =>
    intro p
    unfold ordered hasAny
    rw [List.append_eq_nil_iff, ihr, Bool.or_eq_false_iff]
    cases passes m scope <;> simp [ihc]

/-- Nothing is lost and nothing doubled. -/
theorem flattened_perm (c : Calls μ) : ∀ p, (c.flattened k m p).Perm (c.ordered k m p) := by
  unfold flattened
  induction c with
  | done => exact fun p => .refl _
  | register kind filter rest ih =>
    intro p
    rw [own, included, ordered, List.append_assoc]
    exact (ih p.next).append_left _
  | includeRouter scope child rest ihc ihr =>
    intro p
    rw [own, included, ordered]
    refine (List.perm_append_comm_assoc _ _ _).trans (List.Perm.append ?_ (ihr p.next))
    cases passes m scope
    · exact .refl _
    · exact ihc p.inside

theorem place_of_own {c : Calls μ} {p q : Place} (h : q ∈ c.own k m p) : p <+: q :=
  place_of_ordered ((c.flattened_perm p).mem_iff.mp (List.mem_append_left _ h))

theorem flattened_length (c : Calls μ) (p : Place) : (c.flattened k m p).length = (c.ordered k m p).length :=
  (c.flattened_perm p).length_eq

end Calls

/-! Lists that are put together in two ways. -/

section
variable {α : Type} {O F K E X : List α}

/-- A part that is moved to the front changes nothing if it is empty, or what it passes is. -/
theorem append_swap_iff (hlen : F.length = E.length) (hdisjoint : ∀ x ∈ O, x ∉ E) :
    O ++ (F ++ K) = E ++ X ↔ F = E ∧ O ++ K = X ∧ (E ≠ [] → O = []) := by
  cases E with
  | nil =>
    obtain rfl : F = [] := List.eq_nil_of_length_eq_zero hlen
    simp
  | cons e E =>
    cases O with
    | nil =>
      rw [List.nil_append, List.append_eq_append_iff_of_size_eq_left hlen]
      simp
    | cons o O =>
      refine iff_of_false (fun h => ?_) (fun h => ?_)
      · exact hdisjoint o List.mem_cons_self (List.mem_cons.mpr (Or.inl (List.cons.inj h).1))
      · exact absurd (h.2.2 (List.cons_ne_nil _ _)) (List.cons_ne_nil _ _)

theorem head_swap_iff (hlen : F.length = E.length) (hdisjoint : ∀ x ∈ O, x ∉ E) :
    (O ++ (F ++ K)).head? = (E ++ X).head? ↔
      (E = [] → (O ++ K).head? = X.head?) ∧ (E ≠ [] → O = [] ∧ F.head? = E.head?) := by
  cases E with
  | nil =>
    obtain rfl : F = [] := List.eq_nil_of_length_eq_zero hlen
    simp
  | cons e E =>
    cases O with
    | nil =>
      cases F with
      | nil => cases hlen
      | cons f F => simp
    | cons o O =>
      refine iff_of_false (fun h => ?_) (fun h => absurd (h.2 (List.cons_ne_nil _ _)).1 (List.cons_ne_nil _ _))
      exact hdisjoint o List.mem_cons_self (List.mem_cons.mpr (Or.inl (Option.some.inj h)))

end

namespace Calls

theorem own_apart (child rest : Calls μ) (p : Place) : ∀ x ∈ rest.own k m p.next, x ∉ child.ordered k m p.inside :=
  fun _ hnext hinside => next_inside (place_of_own hnext) (place_of_ordered hinside)

theorem flattened_eq_iff (c : Calls μ) : ∀ p, c.flattened k m p = c.ordered k m p ↔ c.InOrder k m := by
  induction c with
  | done => exact fun p => iff_of_true rfl trivial
  | register kind filter rest ih =>
    intro p
    have hrest := ih p.next
    unfold flattened at hrest
    unfold flattened own included ordered InOrder
    rw [List.append_assoc, List.append_cancel_left_eq, hrest]
  | includeRouter scope child rest ihc ihr =>
    intro p
    have hrest := ihr p.next
    unfold flattened at hrest
    unfold flattened own included ordered InOrder
    cases hpass : passes m scope with
    | false => simpa using hrest
    | true =>
      have hswap := append_swap_iff (K := rest.included k m p.next) (X := rest.ordered k m p.next)
        (flattened_length (k := k) (m := m) child p.inside) (own_apart child rest p)
      rw [ihc, hrest, own_eq_nil_iff, ne_eq, ordered_eq_nil_iff, Bool.not_eq_false] at hswap
      simp only [if_true, forall_const]
      exact hswap.trans ⟨fun h => ⟨⟨h.1, h.2.2⟩, h.2.1⟩, fun h => ⟨h.1.1, h.2, h.1.2⟩⟩

theorem flattened_head_iff (c : Calls μ) :
    ∀ p, (c.flattened k m p).head? = (c.ordered k m p).head? ↔ c.FirstInOrder k m := by
  induction c with
  | done => exact fun p => iff_of_true rfl trivial
  | register kind filter rest ih =>
    intro p
    have hrest := ih p.next
    unfold flattened at hrest
    unfold flattened own included ordered FirstInOrder
    by_cases h : kind = k ∧ filter m = true
    · simp [h]
    · simpa [h] using hrest
  | includeRouter scope child rest ihc ihr =>
    intro p
    have hrest := ihr p.next
    unfold flattened at hrest
    unfold flattened own included ordered FirstInOrder
    cases hpass : passes m scope with
    | false => simpa using hrest
    | true =>
      have hswap := head_swap_iff (K := rest.included k m p.next) (X := rest.ordered k m p.next)
        (flattened_length (k := k) (m := m) child p.inside) (own_apart child rest p)
      rw [ihc, hrest, own_eq_nil_iff, ne_eq, ordered_eq_nil_iff] at hswap
      simp only [if_true, Bool.true_and]
      refine hswap.trans ?_
      cases child.hasAny k m
      · simp
      · simp [and_comm]

theorem dispatched_perm (c : Calls μ) : ∀ p, (c.dispatched k m p).Perm (c.ordered k m p) := by
  induction c with
  | done => exact fun p => .refl _
  | register kind filter rest ih => exact fun p => (ih p.next).append_left _
  | includeRouter scope child rest ihc ihr =>
    intro p
    rw [dispatched, ordered]
    refine List.Perm.append ?_ (ihr p.next)
    cases passes m scope
    · exact .refl _
    · exact flattened_perm child p.inside

theorem dispatched_eq_iff (c : Calls μ) : ∀ p, c.dispatched k m p = c.ordered k m p ↔ c.IncludesInOrder k m := by
  induction c with
  | done => exact fun p => iff_of_true rfl trivial
  | register kind filter rest ih =>
    intro p
    unfold dispatched ordered IncludesInOrder
    rw [List.append_cancel_left_eq, ih]
  | includeRouter scope child rest ihc ihr =>
    intro p
    unfold dispatched ordered IncludesInOrder
    cases hpass : passes m scope with
    | false => simpa using ihr p.next
    | true =>
      simp only [if_true, forall_const]
      rw [List.append_eq_append_iff_of_size_eq_left (flattened_length child p.inside), flattened_eq_iff, ihr]

theorem dispatched_head_iff (c : Calls μ) :
    ∀ p, (c.dispatched k m p).head? = (c.ordered k m p).head? ↔ c.FirstIncludeInOrder k m := by
  induction c with
  | done => exact fun p => iff_of_true rfl trivial
  | register kind filter rest ih =>
    intro p
    unfold dispatched ordered FirstIncludeInOrder
    by_cases h : kind = k ∧ filter m = true
    · simp [h]
    · simpa [h] using ih p.next
  | includeRouter scope child rest ihc ihr =>
    intro p
    unfold dispatched ordered FirstIncludeInOrder
    cases hpass : passes m scope with
    | false => simpa using ihr p.next
    | true =>
      have hswap := head_swap_iff (O := []) (K := rest.dispatched k m p.next) (X := rest.ordered k m p.next)
        (flattened_length (k := k) (m := m) child p.inside) (fun _ h => absurd h List.not_mem_nil)
      rw [List.nil_append, List.nil_append, ne_eq, ordered_eq_nil_iff, flattened_head_iff, ihr] at hswap
      simp only [if_true, Bool.true_and]
      refine hswap.trans ?_
      cases child.hasAny k m <;> simp

end Calls

/-! The lists of the code. -/

namespace FlatHandlers

/-- The handlers of a kind that accept a message. -/
def places (k : Kind) (m : μ) (flat : FlatHandlers μ) : List Place :=
  match k with
  | .onMessage => (flat.newMsg.filter fun h => h.filter m).map (·.handler)
  | .onEdit => (flat.editedMsg.filter fun h => h.filter m).map (·.handler)
  | .onMessageFsm state => (flat.fsmNewMsg.filter fun h => h.expectedState = state && h.filter m).map (·.handler)
  | .onEditFsm state => (flat.fsmEditedMsg.filter fun h => h.expectedState = state && h.filter m).map (·.handler)

theorem places_extend (flat other : FlatHandlers μ) :
    (flat.extend other).places k m = flat.places k m ++ other.places k m := by
  cases k <;> simp [places, extend]

theorem places_scopedBy (own : FlatHandlers μ) (scope : Option (μ → Bool)) :
    (own.scopedBy scope).places k m = if passes m scope then own.places k m else [] := by
  cases scope with
  | none => cases k <;> simp [places, scopedBy, passes, scopedMsg, scopedFsm]
  | some s =>
    cases hs : s m <;> cases k <;>
      simp [places, scopedBy, passes, scopedMsg, scopedFsm, hs, List.filter_map, Function.comp_def]

theorem places_register (own : FlatHandlers μ) (p : Place) (filter : μ → Bool) (kind : Kind) :
    (own.register p filter kind).places k m = own.places k m ++ if kind = k ∧ filter m = true then [p] else [] := by
  cases hf : filter m <;> cases kind <;> cases k <;>
    simp [places, register, onMessage, onEdit, onMessageFsm, onEditFsm, hf, List.filter_cons] <;>
    split <;> simp

end FlatHandlers

theorem passes_combine (m : μ) (parent own : Option (μ → Bool)) :
    passes m (combineScopes parent own) = (passes m parent && passes m own) := by
  cases parent <;> cases own <;> simp [passes, combineScopes]

namespace Calls

/-- The routers that the calls include. -/
def routers (p : Place) : Calls μ → List (Router μ)
  | .done => []
  | .register _ _ rest => routers p.next rest
  | .includeRouter scope child rest => Router.calls { scope } p.inside child :: routers p.next rest

end Calls

namespace Router

theorem calls_eq (c : Calls μ) : ∀ (r : Router μ) (p : Place),
    (r.calls p c).toFlatHandlers.places k m = r.toFlatHandlers.places k m ++ c.own k m p ∧
      (r.calls p c).scope = r.scope ∧ (r.calls p c).children = r.children ++ c.routers p := by
  induction c with
  | done => exact fun r p => ⟨(List.append_nil _).symm, rfl, (List.append_nil _).symm⟩
  | register kind filter rest ih =>
    intro r p
    obtain ⟨hown, hscope, hchildren⟩ := ih { r with toFlatHandlers := r.toFlatHandlers.register p filter kind } p.next
    refine ⟨?_, hscope, hchildren⟩
    rw [FlatHandlers.places_register] at hown
    rw [Calls.own, ← List.append_assoc]
    exact hown
  | includeRouter scope child rest ihc ihr =>
    intro r p
    obtain ⟨hown, hscope, hchildren⟩ := ihr (r.includeRouter (Router.calls { scope } p.inside child)) p.next
    refine ⟨hown, hscope, hchildren.trans ?_⟩
    rw [Calls.routers, includeRouter, List.append_assoc]
    rfl

theorem flattenInto_places (scope : Option (μ → Bool)) (children : List (Router μ)) : ∀ flat : FlatHandlers μ,
    (flattenInto scope flat children).places k m =
      flat.places k m ++ children.flatMap fun r => (r.flatten scope).places k m := by
  induction children with
  | nil => exact fun flat => (List.append_nil _).symm
  | cons child children ih =>
    intro flat
    rw [flattenInto, ih, FlatHandlers.places_extend, List.flatMap_cons, List.append_assoc]

theorem flatten_places (parent : Option (μ → Bool)) (r : Router μ) :
    (r.flatten parent).places k m =
      (if passes m parent && passes m r.scope then r.toFlatHandlers.places k m else []) ++
        r.children.flatMap fun child => (child.flatten (combineScopes parent r.scope)).places k m := by
  obtain ⟨own, scope, children⟩ := r
  rw [flatten, flattenInto_places, FlatHandlers.places_scopedBy, passes_combine]

/-- What `flatten` makes of the routers that some calls include. -/
theorem routers_places (c : Calls μ) : ∀ (p : Place) (parent : Option (μ → Bool)),
    (c.routers p).flatMap (fun r => (r.flatten parent).places k m) =
      if passes m parent then c.included k m p else [] := by
  induction c with
  | done => exact fun p parent => by simp [Calls.routers, Calls.included]
  | register kind filter rest ih => exact fun p parent => ih p.next parent
  | includeRouter scope child rest ihc ihr =>
    intro p parent
    obtain ⟨hown, hscope, hchildren⟩ := calls_eq (k := k) (m := m) child { scope } p.inside
    have hplain : ({ scope } : Router μ).toFlatHandlers.places k m = [] := by
      cases k <;> rfl
    rw [hplain, List.nil_append] at hown
    rw [Calls.routers, List.flatMap_cons, flatten_places, hown, hscope, hchildren, List.nil_append, ihc, passes_combine,
      ihr, Calls.included]
    cases passes m parent <;> cases passes m scope <;> simp

/-- `flatten` puts a router's own handlers first, and then those of each router that it includes. -/
theorem flatten_calls (c : Calls μ) (p : Place) (scope : Option (μ → Bool)) :
    ((Router.calls { scope } p c).flatten none).places k m = if passes m scope then c.flattened k m p else [] := by
  obtain ⟨hown, hscope, hchildren⟩ := calls_eq (k := k) (m := m) c { scope } p
  have hplain : ({ scope } : Router μ).toFlatHandlers.places k m = [] := by
    cases k <;> rfl
  rw [hplain, List.nil_append] at hown
  rw [flatten_places, hown, hscope, hchildren, List.nil_append, routers_places, passes_combine, Calls.flattened]
  cases passes m scope <;> simp [passes]

end Router

namespace Dispatcher

theorem calls_places (c : Calls μ) : ∀ (d : Dispatcher μ) (p : Place),
    (d.calls p c).toFlatHandlers.places k m = d.toFlatHandlers.places k m ++ c.dispatched k m p := by
  induction c with
  | done => exact fun d p => (List.append_nil _).symm
  | register kind filter rest ih =>
    intro d p
    rw [calls, ih, FlatHandlers.places_register, Calls.dispatched, List.append_assoc]
  | includeRouter scope child rest ihc ihr =>
    intro d p
    rw [calls, ihr, FlatHandlers.places_extend, Router.flatten_calls, Calls.dispatched, List.append_assoc]

theorem calls_settings (c : Calls μ) : ∀ (d : Dispatcher μ) (p : Place),
    (d.calls p c).stateStorage = d.stateStorage ∧ (d.calls p c).keyStrategy = d.keyStrategy := by
  induction c with
  | done => exact fun d p => ⟨rfl, rfl⟩
  | register kind filter rest ih => exact fun d p => ih _ p.next
  | includeRouter scope child rest ihc ihr => exact fun d p => ihr _ p.next

end Dispatcher

theorem registrations_places (c : Calls μ) : ∀ (scopes : List (μ → Bool)) (p : Place),
    ((c.registrations scopes p).filter fun r => r.kind = k && r.accepts m).map (·.place) =
      if scopes.all (· m) then c.ordered k m p else [] := by
  induction c with
  | done => exact fun scopes p => by simp [Calls.registrations, Calls.ordered]
  | register kind filter rest ih =>
    intro scopes p
    have hrest := ih scopes p.next
    unfold Calls.registrations Calls.ordered
    have hhead : (kind = k && Registration.accepts ⟨kind, scopes ++ [filter], p⟩ m) =
        (scopes.all (· m) && decide (kind = k ∧ filter m = true)) := by
      rw [Registration.accepts, List.all_append, Bool.decide_and, Bool.decide_eq_true, List.all_cons, List.all_nil,
        Bool.and_true, Bool.and_left_comm]
    rw [List.filter_cons, hhead]
    cases hall : scopes.all (· m) with
    | false =>
      rw [hall] at hrest
      simpa using hrest
    | true =>
      rw [hall, if_pos rfl] at hrest
      by_cases h : kind = k ∧ filter m = true
      · simp only [Bool.true_and, decide_eq_true h, if_true, List.map_cons, hrest, if_pos h, List.singleton_append]
      · simp only [Bool.true_and, decide_eq_false h, Bool.false_eq_true, if_false, if_true, hrest, if_neg h, List.nil_append]
  | includeRouter scope child rest ihc ihr =>
    intro scopes p
    unfold Calls.registrations Calls.ordered
    rw [List.filter_append, List.map_append, ihc, ihr, List.all_append]
    cases scope with
    | none => cases scopes.all (· m) <;> simp [passes]
    | some s => cases scopes.all (· m) <;> cases hs : s m <;> simp [passes, hs]

/-! What is run. -/

section
variable [MessageLike μ] {storage : Option StateStorage} {strategy : StateKeyStrategy} {c : Calls μ} {u : MessageUpdate μ}

/-- What is run, of the places of the handlers of a state and of those of the regular ones. -/
def runs (storage : Option StateStorage) (strategy : StateKeyStrategy) (msg : μ) (fsm : String → List Place)
    (regular : List Place) : List Run :=
  aloneOr ((currentState msg storage strategy).bind fun current =>
      (fsm current).head?.map fun p => Run.fsm p (StateKey.fromMessage msg strategy) current)
    (regular.map .regular)

theorem runMessage_eq (msg : μ) (regular : List (MessageHandler μ)) (fsm : List (FsmMessageHandler μ)) :
    runMessage msg regular fsm storage strategy =
      runs storage strategy msg
        (fun state => (fsm.filter fun h => h.expectedState = state && h.filter msg).map (·.handler))
        ((regular.filter fun h => h.filter msg).map (·.handler)) := by
  unfold runMessage runs
  cases fsm with
  | nil => cases currentState msg storage strategy <;> simp [Function.comp_def]
  | cons h fsm =>
    cases currentState msg storage strategy with
    | none => simp [Function.comp_def]
    | some current =>
      simp only [List.isEmpty_cons, Bool.false_eq_true, if_false, Option.bind_some, List.head?_map, List.head?_filter,
        Option.map_map, List.map_map, Function.comp_def]

/-- The dispatcher runs what it finds in its own order. -/
theorem dispatch_eq :
    Dispatcher.dispatch (({ stateStorage := storage, keyStrategy := strategy } : Dispatcher μ).calls [] c) u =
      runs storage strategy u.msg (fun state => c.dispatched (u.fsmKind state) u.msg []) (c.dispatched u.kind u.msg []) := by
  have hplaces : ∀ k, (({ stateStorage := storage, keyStrategy := strategy } : Dispatcher μ).calls [] c).toFlatHandlers.places
      k u.msg = c.dispatched k u.msg [] := by
    intro k
    have h := Dispatcher.calls_places (k := k) (m := u.msg) c { stateStorage := storage, keyStrategy := strategy } []
    have hplain : ({ stateStorage := storage, keyStrategy := strategy } : Dispatcher μ).toFlatHandlers.places k u.msg = [] := by
      cases k <;> rfl
    rwa [hplain, List.nil_append] at h
  obtain ⟨hstorage, hstrategy⟩ :=
    Dispatcher.calls_settings c { stateStorage := storage, keyStrategy := strategy } []
  cases u with
  | newMessage msg =>
    rw [Dispatcher.dispatch, runMessage_eq, hstorage, hstrategy]
    simp only [← hplaces]
    rfl
  | messageEdited msg =>
    rw [Dispatcher.dispatch, runMessage_eq, hstorage, hstrategy]
    simp only [← hplaces]
    rfl

theorem expectedRuns_eq :
    expectedRuns storage strategy c u =
      runs storage strategy u.msg (fun state => c.ordered (u.fsmKind state) u.msg []) (c.ordered u.kind u.msg []) := by
  have hplaces : ∀ k, (c.accepting k u.msg).map (·.place) = c.ordered k u.msg [] := fun k =>
    registrations_places c [] []
  unfold expectedRuns runs
  simp only [← hplaces, List.head?_map, Option.map_map, List.map_map, Function.comp_def]

/-- The calls keep the order that the update needs: that of the handlers of the conversation's
    state, as far as the first one is concerned, and without one that of the regular handlers. -/
def KeepsOrder (storage : Option StateStorage) (strategy : StateKeyStrategy) (c : Calls μ) (u : MessageUpdate μ) : Prop :=
  match currentState u.msg storage strategy with
  | none => c.IncludesInOrder u.kind u.msg
  | some current =>
    if c.hasAny (u.fsmKind current) u.msg then c.FirstIncludeInOrder (u.fsmKind current) u.msg
    else c.IncludesInOrder u.kind u.msg

theorem regular_inj {a b : List Place} : a.map Run.regular = b.map Run.regular ↔ a = b :=
  List.map_inj_right fun _ _ => Run.regular.inj

/-- The handlers that run for an update are the ones that its meaning names, in that order, exactly
    if the calls keep the order that it needs. -/
theorem dispatch_iff (storage : Option StateStorage) (strategy : StateKeyStrategy) (c : Calls μ) (u : MessageUpdate μ) :
    Dispatcher.dispatch (({ stateStorage := storage, keyStrategy := strategy } : Dispatcher μ).calls [] c) u =
      expectedRuns storage strategy c u ↔ KeepsOrder storage strategy c u := by
  rw [dispatch_eq, expectedRuns_eq]
  unfold runs KeepsOrder
  cases currentState u.msg storage strategy with
  | none => exact regular_inj.trans (c.dispatched_eq_iff [])
  | some current =>
    have hlen := (Calls.dispatched_perm (k := u.fsmKind current) (m := u.msg) c []).length_eq
    have hnil := Calls.ordered_eq_nil_iff (k := u.fsmKind current) (m := u.msg) c []
    have hhead := Calls.dispatched_head_iff (k := u.fsmKind current) (m := u.msg) c []
    simp only [Option.bind_some]
    cases hany : c.hasAny (u.fsmKind current) u.msg with
    | false =>
      have hordered := hnil.mpr hany
      have hdispatched : c.dispatched (u.fsmKind current) u.msg [] = [] :=
        List.eq_nil_of_length_eq_zero (by rw [hlen, hordered]; rfl)
      rw [hordered, hdispatched]
      exact regular_inj.trans (c.dispatched_eq_iff [])
    | true =>
      have hne : c.ordered (u.fsmKind current) u.msg [] ≠ [] := fun h => Bool.false_ne_true ((hnil.mp h).symm.trans hany)
      obtain ⟨e, es, he⟩ := List.exists_cons_of_ne_nil hne
      obtain ⟨f, fs, hf⟩ := List.exists_cons_of_length_pos (l := c.dispatched (u.fsmKind current) u.msg [])
        (by rw [hlen, he]; exact Nat.succ_pos _)
      rw [he, hf] at hhead
      rw [he, hf, if_pos rfl, ← hhead]
      simp [aloneOr]

end

/-- A conversation of its own for every message. -/
instance : MessageLike Nat where
  senderUserId _ := none
  chatId m := Int64.ofNat m

/-- A router that includes another one before it registers its handler. -/
def includeFirst : Calls Nat :=
  .includeRouter none (.includeRouter none (.register .onMessage (fun _ => true) .done)
    (.register .onMessage (fun _ => true) .done)) .done

/-- The handler of the router runs before that of the router it includes. -/
theorem dispatch_wrong : ¬ ∀ (storage : Option StateStorage) (strategy : StateKeyStrategy) (c : Calls Nat) (u : MessageUpdate Nat),
    Dispatcher.dispatch (({ stateStorage := storage, keyStrategy := strategy } : Dispatcher Nat).calls [] c) u =
      expectedRuns storage strategy c u := by
  intro h
  exact absurd (h none .perUser includeFirst (.newMessage 1)) (by decide)

end Ferogram.Filters
