import BranchBound.Proofs.Memory
import BranchBound.Proofs.Quiescence

/-! # Bystanders

What is proved of one constraint should not depend on what else is posted.  So of a *bystander* no more is
relied on than what holds of every constraint, whether it suits its domains or not: it assigns its own
trailed integers only, and if it is a circuit it stays in order (`Constraint.bystander`).

Everybody is told of what they watch, and of nothing else (`Engine.Registered`).  **So every engine that can be
made meets the contracts of bystanders** (`Made.meets`), in whatever state it is. -/
namespace BranchBound

/-- What is relied on of a propagator does not depend on what else there is, and its trailed integers are
there. -/
structure Contract.Lasting {π : Type} [Propagator π] (k : Contract π) : Prop where
  stable : k.Stable
  settled_grows : ∀ s t, k.Settled s → s.store.Grows t.store → s.cells.values.size ≤ t.cells.values.size →
    (∀ i, k.own i → t.cells.value i = s.cells.value i) → k.Settled t
  own_lt : ∀ p s due, k.Ready p s due → ∀ i, k.own i → i < s.cells.values.size

namespace Circuit
variable (c : Circuit)

theorem lasting_contract : c.contract.Lasting where
  stable := by
    rintro p s t due ⟨pending, rfl, ready⟩ grown size cells
    exact ⟨pending, rfl, ready.grows grown size cells⟩
  settled_grows _ _ settled grown size cells := (settled.ready.grows grown size cells).settled
  own_lt := by
    rintro p s due ⟨pending, -, ready⟩ i own
    exact Nat.lt_of_lt_of_le own.2 ready.base.size_le

theorem lasting_restContract : c.restContract.Lasting where
  stable := stable_restContract c
  settled_grows _ _ settled grown size cells :=
    ⟨settled.1.grows grown size cells, settled.2.grows grown size cells⟩
  own_lt := by
    rintro p s due ⟨pending, -, -, taut⟩ i own
    exact Nat.lt_of_lt_of_le own.2 taut.inOrder.size_le

end Circuit

namespace Constraint
variable {p q : Constraint} {s t : Space}

@[simp] theorem own_synchronise (p : Constraint) : p.synchronise.own = p.own := by
  cases p <;> rfl

@[simp] theorem watches_synchronise (p : Constraint) : p.synchronise.watches = p.watches := by
  cases p <;> rfl

theorem own_eq_of_synchronise (h : q.synchronise = p.synchronise) : q.own = p.own := by
  rw [← own_synchronise q, h, own_synchronise]

theorem watches_eq_of_synchronise (h : q.synchronise = p.synchronise) : q.watches = p.watches := by
  rw [← watches_synchronise q, h, watches_synchronise]

/-- A circuit is in order. -/
def Orderly (p : Constraint) (s : Space) : Prop := ∀ c, p.synchronise = .circuit c → c.InOrder s

/-- What a circuit has noted is nodes. -/
def NotesNodes (p : Constraint) : Prop := ∀ c, p = .circuit c → ∀ i ∈ c.pending, i < c.numNodes

theorem own_of_circuit {c : Circuit} (h : p.synchronise = .circuit c) : p.own = c.own := by
  rw [← own_synchronise p, h]
  rfl

theorem Orderly.congr (h : p.Orderly s) (same : q.synchronise = p.synchronise) : q.Orderly s :=
  fun c hc => h c (same.symm.trans hc)

theorem Orderly.grows (h : p.Orderly s) (grown : s.store.Grows t.store)
    (size : s.cells.values.size ≤ t.cells.values.size)
    (cells : ∀ i, p.own i → t.cells.value i = s.cells.value i) : p.Orderly t :=
  fun c hc => (h c hc).grows grown size (own_of_circuit hc ▸ cells)

theorem Orderly.congr_bare (h : p.Orderly s) (hb : t.bare = s.bare) : p.Orderly t :=
  fun c hc => (h c hc).congr_bare hb

theorem Orderly.narrows {other : Nat → Prop} (h : p.Orderly s) (hs : s.Valid) (hn : s.Narrows other t)
    (disjoint : ∀ i, p.own i → ¬ other i) : p.Orderly t := by
  intro c hc
  refine (h c hc).narrowed hs.store hn.store (Nat.le_of_eq hn.numCells_eq.symm) fun k hk => hn.cell_eq ?_
  exact disjoint k (own_of_circuit hc ▸ hk)

theorem NotesNodes.synchronise (p : Constraint) : p.synchronise.NotesNodes := by
  intro c hc i hi
  rw [pending_of_synchronise hc] at hi
  cases hi

/-- A constraint is told of nodes only, if it is told of what it watches. -/
theorem NotesNodes.notify {i : Nat} {v : Var} {event : Event} (h : p.NotesNodes)
    (hw : WatchedAt p.watches i v event) : (p.notify i event).NotesNodes := by
  cases p with
  | circuit b =>
    intro c hc j hj
    cases hc
    rw [Circuit.numNodes_notify]
    rcases Circuit.mem_pending_notify.mp hj with ⟨-, rfl⟩ | hj
    · exact (Circuit.watchedAt_iff.mp hw).1
    · exact h b rfl j hj
  | _ => exact fun c hc => by cases hc

/-- However a call ends, a circuit is in order afterwards, and has noted nodes. -/
theorem Hands.orderly {r : Constraint × Space} (h : p.Hands s r) : p.Orderly r.2 ∧ r.1.NotesNodes := by
  refine ⟨fun c hc => ?_, fun c hc => ?_⟩
  · obtain ⟨pending, rfl⟩ := eq_circuit_of_synchronise hc
    obtain ⟨_, _, tended⟩ := h.circuit _ rfl
    exact Circuit.inOrder_congr.mp tended.inOrder
  · cases p with
    | circuit b =>
      obtain ⟨noted, heq, tended⟩ := h.circuit b rfl
      rw [heq] at hc
      cases hc
      exact tended.pending_lt
    | _ =>
      have same := h.synchronise_eq
      rw [hc] at same
      cases same

/-- **What is relied on of any constraint.** -/
def bystander (p : Constraint) : Contract Constraint where
  watches := p.watches
  own := p.own
  Is q := q.synchronise = p.synchronise
  Ready q s _ := q.synchronise = p.synchronise ∧ p.Orderly s ∧ q.NotesNodes
  Settled := p.Orderly
  Holds _ := False
  Sure := False
  is_of_ready ready := ready.1
  ready_mono ready _ := ready
  ready_congr ready hb := ⟨ready.1, ready.2.1.congr_bare hb, ready.2.2⟩
  settled_congr settled hb := settled.congr_bare hb
  ready_narrows ready hs hn disjoint _ _ _ := ⟨ready.1, ready.2.1.narrows hs hn disjoint, ready.2.2⟩
  settled_narrows settled hs hn disjoint _ _ := settled.narrows hs hn disjoint
  notified {q s i v event due} hw ready := by
    obtain ⟨same, orderly, nodes⟩ := ready
    refine ⟨⟨(synchronise_notify q i event).trans same, orderly, ?_⟩, rfl⟩
    exact nodes.notify (watches_eq_of_synchronise same ▸ hw)
  synchronised {q s} is _ settled := ⟨(synchronise_synchronise q).trans is, settled, .synchronise q⟩
  propagated {q s} ready hs := by
    obtain ⟨same, orderly, nodes⟩ := ready
    have inOrder (c : Circuit) (hc : q = .circuit c) : c.InOrder s :=
      Circuit.inOrder_congr.mp (orderly c.synchronise (by rw [← same, hc]; rfl))
    refine (hands_propagate hs inOrder nodes).mono (fun _ r hr => ?_) fun _ r hr => ?_
    · obtain ⟨hands, -⟩ := hr
      have after := hands.orderly
      exact ⟨own_eq_of_synchronise same ▸ hands.narrows,
        ⟨hands.synchronise_eq.trans same, after.1.congr same.symm, after.2⟩, after.1.congr same.symm⟩
    · exact ⟨own_eq_of_synchronise same ▸ hr.narrows, hr.synchronise_eq.trans same, fun h => h.elim⟩
  spares _ _ _ holds := holds.elim

theorem lasting_bystander (p : Constraint) : p.bystander.Lasting where
  stable _ _ _ _ ready grown size cells := ⟨ready.1, ready.2.1.grows grown size cells, ready.2.2⟩
  settled_grows _ _ settled grown size cells := settled.grows grown size cells
  own_lt := by
    rintro q s due ⟨-, orderly, -⟩ i own
    cases p with
    | circuit c => exact Nat.lt_of_lt_of_le own.2 (orderly _ rfl).size_le
    | _ => exact own.elim

end Constraint

namespace Engine
variable {e e' : Engine Constraint} {id : Nat}

/-! ## Who is told of what -/

/-- Everybody is told of what they watch, and of nothing else. -/
def Registered (e : Engine Constraint) : Prop :=
  ∀ id i event v, ⟨id, i⟩ ∈ e.watchList.affected event v ↔
    ∃ p, e.outline id = some p ∧ WatchedAt p.watches i v event

theorem Registered.congr (h : e.Registered) (watchList : e'.watchList = e.watchList)
    (outline : e'.outline = e.outline) : e'.Registered := by
  intro id i event v
  rw [watchList, outline]
  exact h id i event v

theorem outline_withPosted (p : Constraint) (watchList : WatchList) (id : Nat) :
    (e.withPosted p watchList).outline id = if id = e.numPropagators then
      some (Propagator.attach p e.space.cells.values.size e.store).synchronise else e.outline id := by
  unfold outline
  rw [propagator?_withPosted]
  split <;> rfl

theorem watches_attach (p : Constraint) (firstCell : Nat) (s : Store) :
    (Propagator.attach p firstCell s).watches = p.watches := by
  cases p <;> rfl

/-- Nobody is known beyond those who were posted. -/
theorem outline_eq_none (h : e.numPropagators ≤ id) : e.outline id = none := by
  have none : e.posted.get? id = none := Array.getElem?_eq_none h
  unfold outline propagator?
  rw [none]
  rfl

theorem Registered.post {p : Constraint} (h : e.Registered) (hp : e.post p = .ok e') : e'.Registered := by
  obtain ⟨-, watchList, hw, rfl⟩ := post_eq_ok hp
  intro id i event v
  change ⟨id, i⟩ ∈ watchList.affected event v ↔ _
  rw [mem_affected_post hw, h id i event v, outline_withPosted]
  by_cases hid : id = e.numPropagators
  · -- nobody was told as the new one before
    rw [if_pos hid, outline_eq_none (Nat.le_of_eq hid.symm)]
    have same : _ = Propagator.watches p :=
      (Constraint.watches_synchronise _).trans (watches_attach p e.space.cells.values.size e.store)
    constructor
    · rintro (⟨_, h, -⟩ | ⟨-, watched⟩)
      · cases h
      · exact ⟨_, rfl, same.symm ▸ watched⟩
    · rintro ⟨q, hq, watched⟩
      cases hq
      exact .inr ⟨hid, same ▸ watched⟩
  · rw [if_neg hid]
    constructor
    · rintro (found | ⟨heq, -⟩)
      · exact found
      · exact absurd heq hid
    · exact .inl

/-- **In every engine that can be made everybody is told of what they watch.** -/
theorem Made.registered (h : e.Made) : e.Registered := by
  induction h with
  | empty =>
    intro id i event v
    constructor
    · exact fun h => by cases h
    · rintro ⟨_, h, -⟩
      cases h
  | declare _ hd ih =>
    obtain ⟨-, rfl⟩ := declare_eq_ok hd
    intro id i event v
    rw [show WatchList.affected _ event v = _ from WatchList.affected_grow]
    exact ih id i event v
  | post _ hp ih => exact ih.post hp
  | narrow _ _ ih => exact ih.congr rfl rfl
  | propagate h hp ih =>
    have keeps := ((Run.propagate h.valid .start (.inl rfl)).of_ok hp).2
    exact ih.congr keeps.watchList_eq (h.inOrder.outline_propagate.of_ok hp)
  | refuted h hp ih =>
    have keeps := ((Run.propagate h.valid .start (.inl rfl)).of_error hp).2.1
    exact ih.congr keeps.watchList_eq (h.inOrder.outline_propagate.of_error hp)
  | checkpoint _ ih => exact ih.congr rfl rfl
  | restore h hr ih =>
    obtain ⟨-, -, watchList, -⟩ := restored_eq h.valid hr
    exact ih.congr watchList (propagator?_of_restore h.valid hr).1

/-! ## Engines of bystanders -/

/-- All constraints that were posted, as bystanders. -/
def bystanders (e : Engine Constraint) : List (Contract Constraint) :=
  e.posted.items.toList.map fun p => p.propagator.bystander

theorem getElem?_bystanders (id : Nat) :
    e.bystanders[id]? = (e.propagator? id).map Constraint.bystander := by
  unfold bystanders propagator?
  rw [List.getElem?_map, Array.getElem?_toList, Option.map_map]
  rfl

theorem exists_of_bystander {c : Contract Constraint} (h : e.bystanders[id]? = some c) :
    ∃ p, e.propagator? id = some p ∧ c = p.bystander := by
  rw [getElem?_bystanders] at h
  obtain ⟨p, hp, rfl⟩ := Option.map_eq_some_iff.mp h
  exact ⟨p, hp, rfl⟩

theorem outline_of_propagator? {p : Constraint} (h : e.propagator? id = some p) :
    e.outline id = some p.synchronise := congrArg (Option.map Constraint.synchronise) h

theorem InOrder.orderly {p : Constraint} (h : e.InOrder) (hp : e.propagator? id = some p) :
    p.Orderly e.space ∧ p.NotesNodes := by
  refine ⟨fun c hc => ?_, fun c hc => h.pending_lt id c (hc ▸ hp)⟩
  have outline := outline_of_propagator? hp
  rw [hc] at outline
  exact h.of_outline outline

theorem served_bystanders (registered : e.Registered) (inOrder : e.InOrder) : Served e.bystanders e where
  length_eq := (List.length_map _).symm
  mem_affected id i event v := by
    rw [registered id i event v]
    constructor
    · rintro ⟨p, hp, watched⟩
      obtain ⟨q, hq, rfl⟩ := Option.map_eq_some_iff.mp hp
      rw [Constraint.watches_synchronise] at watched
      refine ⟨q.bystander, ?_, watched⟩
      rw [getElem?_bystanders, hq]
      rfl
    · rintro ⟨c, hc, watched⟩
      obtain ⟨q, hq, rfl⟩ := exists_of_bystander hc
      exact ⟨_, outline_of_propagator? hq, (Constraint.watches_synchronise q).symm ▸ watched⟩
  disjoint id id' c c' hne hc hc' i hi hi' := by
    obtain ⟨p, hp, rfl⟩ := exists_of_bystander hc
    obtain ⟨q, hq, rfl⟩ := exists_of_bystander hc'
    -- only circuits have trailed integers
    cases p with
    | circuit a =>
      cases q with
      | circuit b =>
        exact inOrder.apart id id' _ _ hne (outline_of_circuit hp) (outline_of_circuit hq) i hi hi'
      | _ => exact hi'
    | _ => exact hi

/-- **Every engine that can be made meets the contracts of bystanders.** -/
theorem Made.meets (h : e.Made) : Meets e.bystanders e where
  valid := h.valid
  served := served_bystanders h.registered h.inOrder
  kept := {
    is := fun id c p hc hp => by
      obtain ⟨q, hq, rfl⟩ := exists_of_bystander hc
      rw [propagator?_of_posted hp] at hq
      cases hq
      rfl
    saved := fun _ hb hk => absurd hk (Nat.not_lt_of_le hb)
    ready := fun _ id c p hc hp => by
      obtain ⟨q, hq, rfl⟩ := exists_of_bystander hc
      have orderly := h.inOrder.orderly hq
      rw [propagator?_of_posted hp] at hq
      cases hq
      exact ⟨rfl, orderly⟩
    awake := fun _ id c hc => by
      obtain ⟨q, hq, rfl⟩ := exists_of_bystander hc
      exact .inr (.inr (h.inOrder.orderly hq).1)
    settled := fun h => by cases h }

end Engine
end BranchBound
