import BranchBound.Proofs.Backtracking
import BranchBound.Proofs.Circuit.Pending

/-! # Engines and what their constraints remember

Apart from what circuits have noted, the constraints of an engine never change (`Engine.outline`), and a
return to an earlier level makes them forget it (`propagator?_of_restore`).  No other constraint remembers
anything; the tables of changeover costs could be kept, but nobody would see it
(`ChangeoverCost.forget_refillFilter`).

In every engine that can be made, circuits are in order at all levels (`Engine.InOrder`): their trailed
integers are their own, and they are told of their own variables only.  No constraint need suit its domains
for this, and no discipline be kept (`Made.inOrder`). -/
namespace BranchBound

/-- The trail of cells tells of cells that are there. -/
theorem Space.Narrows.cells_lt {own : Nat → Prop} {s t : Space} (h : s.Narrows own t)
    (own_lt : ∀ k, own k → k < s.cells.values.size)
    (hs : ∀ change ∈ s.cells.trail.changes, change.cell < s.cells.values.size) :
    ∀ change ∈ t.cells.trail.changes, change.cell < t.cells.values.size := by
  induction h with
  | refl => exact hs
  | shrink _ _ _ ih => exact ih
  | @assign t i x h hi ih =>
    intro change hc
    rw [Cells.size_assign]
    dsimp only at hc
    unfold Cells.assign at hc
    split at hc
    · exact ih change hc
    · rcases List.mem_cons.mp hc with rfl | hc
      · rw [h.numCells_eq]
        exact own_lt i hi
      · exact ih change hc

namespace Cells
variable {c : Cells} {k : Nat}

theorem foldl_undo_push {values : Arena Int} {x : Int} {changes : List CellChange}
    (h : ∀ change ∈ changes, change.cell < values.size) :
    changes.foldl undo (values.push x) = (changes.foldl undo values).push x := by
  induction changes generalizing values with
  | nil => rfl
  | cons change changes ih =>
    have pushed : undo (values.push x) change = (undo values change).push x := by
      refine Arena.ext_get? fun i => ?_
      have lt := h change List.mem_cons_self
      simp only [undo, Arena.get?_set, Arena.get?_push, Arena.size_set]
      split
      · rename_i heq
        rw [← heq, if_neg (Nat.ne_of_lt lt), if_neg (Nat.ne_of_lt lt)]
      · rfl
    rw [List.foldl_cons, List.foldl_cons, pushed]
    refine ih fun change' hc => ?_
    rw [undo, Arena.size_set]
    exact h change' (List.mem_cons_of_mem change hc)

/-- Cells that are allocated have their first values at all levels. -/
theorem valuesAt_foldl_grow_eq (initial : List Int)
    (h : ∀ change ∈ c.trail.undone k, change.cell < c.values.size) :
    (initial.foldl grow c).valuesAt k = (initial.foldl grow { values := c.valuesAt k }).values := by
  induction initial generalizing c with
  | nil => rfl
  | cons x initial ih =>
    have pushed : (c.grow x).valuesAt k = (c.valuesAt k).push x := foldl_undo_push h
    rw [List.foldl_cons, List.foldl_cons, ih fun change hc => ?_, pushed]
    · rfl
    · change change.cell < (c.values.push x).size
      rw [Arena.size_push]
      exact Nat.lt_succ_of_lt (h change hc)

end Cells

/-! ## Constraints -/

namespace Constraint
variable {p q : Constraint} {s : Space}

/-- The trailed integers that a constraint assigns. -/
def own : Constraint → Nat → Prop
  | .circuit c => c.own
  | _ => Filter.noCells

@[simp] theorem synchronise_circuit (c : Circuit) :
    (Constraint.circuit c).synchronise = .circuit { c with pending := [] } := rfl

@[simp] theorem synchronise_synchronise (p : Constraint) : p.synchronise.synchronise = p.synchronise := by
  cases p <;> rfl

@[simp] theorem synchronise_notify (p : Constraint) (i : Nat) (event : Event) :
    (p.notify i event).synchronise = p.synchronise := by
  cases p with
  | circuit c =>
    change Constraint.circuit (c.notify i event).synchronise = .circuit c.synchronise
    rw [Circuit.notify_eq]
    rfl
  | _ => rfl

/-- A constraint that is a circuit once it has forgotten is one. -/
theorem eq_circuit_of_synchronise {c : Circuit} (h : p.synchronise = .circuit c) :
    ∃ pending, p = .circuit { c with pending } := by
  cases p with
  | circuit d =>
    cases h
    exact ⟨d.pending, rfl⟩
  | _ => cases h

theorem pending_of_synchronise {c : Circuit} (h : p.synchronise = .circuit c) : c.pending = [] := by
  obtain ⟨_, rfl⟩ := eq_circuit_of_synchronise h
  rw [← Constraint.circuit.inj h]
  rfl

/-- What a call of a constraint hands back, however it ends. -/
structure Hands (p : Constraint) (s : Space) (r : Constraint × Space) : Prop where
  narrows : s.Narrows p.own r.2
  synchronise_eq : r.1.synchronise = p.synchronise
  circuit : ∀ c, p = .circuit c → ∃ pending, r.1 = .circuit { c with pending } ∧
    c.Tended s (pending, r.2)

/-- **A call of a constraint in order keeps it in order**; if it ends well, a circuit has noted nothing and
has joined what it fixed. -/
theorem hands_propagate (hs : s.Valid) (h : ∀ c, p = .circuit c → c.InOrder s)
    (lt : ∀ c, p = .circuit c → ∀ i ∈ c.pending, i < c.numNodes) :
    Ends (Propagator.propagate p s)
      (fun _ r => p.Hands s r ∧ ∀ c, p = .circuit c → r.1 = .circuit { c with pending := [] } ∧
        ∀ i, i < c.numNodes → r.2.store.isFixed (c.predecessor i) = true →
          s.store.isFixed (c.predecessor i) = false → c.InVain r.2 i)
      (fun _ r => p.Hands s r) := by
  cases hr : p.rule? with
  | some r =>
    have own : p.own = Filter.noCells := by
      cases p with
      | circuit c => exact (ne_circuit hr c rfl).elim
      | _ => rfl
    rw [(follows hr).propagate, Rule.ends_run]
    refine (r.filtered hs).mono (fun _ t ht => ?_) fun _ t ht => ?_
    · exact ⟨⟨own ▸ ht.1, rfl, fun c hc => (ne_circuit hr c hc).elim⟩,
        fun c hc => (ne_circuit hr c hc).elim⟩
    · exact ⟨own ▸ ht.narrows, rfl, fun c hc => (ne_circuit hr c hc).elim⟩
  | none =>
    obtain ⟨c, rfl⟩ := exists_circuit hr
    have noted := Circuit.ends_filter_noted hs (h c rfl) (lt c rfl)
    rw [show c = { c with pending := c.pending } from rfl, Circuit.ends_propagate]
    have hands (r : List Nat × Space) (tended : c.Tended s r) :
        Hands (.circuit c) s (.circuit { c with pending := r.1 }, r.2) :=
      ⟨tended.narrows, rfl, fun d hd => by
        cases hd
        exact ⟨r.1, rfl, tended⟩⟩
    refine noted.mono (fun _ r hr => ⟨hands r hr.1, fun d hd => ?_⟩) fun _ r hr => hands r hr
    cases hd
    exact ⟨by rw [hr.2.1], hr.2.2⟩

end Constraint

namespace Engine
variable {e e' : Engine Constraint} {id : Nat} {p : Posted Constraint} {source : Option Nat}
  {d : Delivery} {c : Circuit} {k : Nat}

/-! ## What never changes -/

/-- The constraint that was posted as `id`, without what it has noted. -/
def outline (e : Engine Constraint) (id : Nat) : Option Constraint :=
  (e.propagator? id).map Constraint.synchronise

theorem propagator?_of_posted (h : e.posted.get? id = some p) : e.propagator? id = some p.propagator :=
  congrArg (Option.map Posted.propagator) h

theorem outline_of_posted (h : e.posted.get? id = some p) :
    e.outline id = some p.propagator.synchronise :=
  congrArg (Option.map Constraint.synchronise) (propagator?_of_posted h)

theorem propagator?_deliver (id : Nat) : (e.deliver source d).propagator? id =
    if d.watcher.propagator = id then
      (e.propagator? id).map fun p => p.notify d.watcher.position d.event
    else e.propagator? id := by
  unfold propagator?
  split
  · rename_i hid
    subst hid
    rw [get?_deliver_self, Option.map_map, Option.map_map]
    rfl
  · rename_i hid
    rw [get?_deliver_ne hid]

theorem outline_deliver : (e.deliver source d).outline = e.outline := by
  funext id
  unfold outline
  rw [propagator?_deliver]
  split
  · rw [Option.map_map]
    congr 1
    funext p
    exact p.synchronise_notify _ _
  · rfl

theorem outline_foldl_deliver (ds : List Delivery) : (ds.foldl (deliver source) e).outline = e.outline := by
  induction ds generalizing e with
  | nil => rfl
  | cons d ds ih => rw [List.foldl_cons, ih, outline_deliver]

theorem outline_deliverAll : (e.deliverAll source).outline = e.outline := outline_foldl_deliver _

theorem propagator?_called (after : Constraint × Space) (hp : e.posted.get? id = some p) (id' : Nat) :
    (e.called id p after).propagator? id' = if id = id' then some after.1 else e.propagator? id' := by
  unfold propagator?
  rw [get?_called]
  split
  · rename_i hid
    rw [← hid, hp]
    rfl
  · rfl

theorem outline_called {after : Constraint × Space} (hp : e.posted.get? id = some p)
    (same : after.1.synchronise = p.propagator.synchronise) :
    (e.called id p after).outline = e.outline := by
  funext id'
  unfold outline
  rw [propagator?_called after hp]
  split
  · rename_i hid
    rw [← hid, propagator?_of_posted hp]
    exact congrArg some same
  · rfl

/-! ## Returning -/

theorem propagator?_synchronise (e : Engine Constraint) (id id' : Nat) :
    (e.synchronise id).propagator? id' =
      if id = id' then e.outline id' else e.propagator? id' := by
  unfold outline propagator? synchronise
  dsimp only
  rw [Arena.get?_modify]
  split
  · rw [Option.map_map, Option.map_map]
    rfl
  · rfl

theorem outline_synchronise (e : Engine Constraint) (id : Nat) : (e.synchronise id).outline = e.outline := by
  funext id'
  rw [outline, propagator?_synchronise]
  split
  · unfold outline
    rw [Option.map_map]
    congr 1
    funext p
    exact p.synchronise_synchronise
  · rfl

theorem propagator?_foldl_synchronise (ids : List Nat) :
    (ids.foldl synchronise e).outline = e.outline ∧ ∀ id,
      (ids.foldl synchronise e).propagator? id = if id ∈ ids then e.outline id else e.propagator? id := by
  induction ids generalizing e with
  | nil => exact ⟨rfl, fun _ => (if_neg List.not_mem_nil).symm⟩
  | cons first ids ih =>
    obtain ⟨outline, rest⟩ := ih (e := e.synchronise first)
    rw [List.foldl_cons]
    refine ⟨outline.trans (outline_synchronise e first), fun id => ?_⟩
    rw [rest, outline_synchronise, propagator?_synchronise]
    by_cases hid : id ∈ ids <;> by_cases hfirst : first = id <;> simp [hid, hfirst, eq_comm]

/-- Returning to a level gives the space back, and clears what waits. -/
theorem restored_eq (he : e.Valid) (h : e.restore k = .ok e') : k < e.level ∧
    e'.space = ⟨⟨e.store.domainsAt k, e.store.trail.back k, []⟩,
      ⟨e.space.cells.valuesAt k, e.space.cells.trail.back k⟩⟩ ∧
    e'.watchList = e.watchList ∧ e'.queue = e.queue.clear ∧ e'.numPropagators = e.numPropagators := by
  obtain ⟨space, restored, rfl⟩ := restore_eq_ok he h
  have hk : k < e.level := restored.lt_level
  have same := h
  unfold restore at same
  rw [if_neg (Nat.not_le_of_lt hk), Space.restore_eq he.space hk] at same
  obtain ⟨hspace, hqueue, hwatch, hsize⟩ := foldl_synchronise (e.returned space) e.posted.keys
  refine ⟨hk, ?_, hwatch, hqueue, hsize⟩
  rw [← Except.ok.inj same]
  exact (foldl_synchronise _ _).1

/-- **Returning to a level makes all constraints forget what they noted**, and nothing else. -/
theorem propagator?_of_restore (he : e.Valid) (h : e.restore k = .ok e') :
    e'.outline = e.outline ∧ ∀ id, e'.propagator? id = e.outline id := by
  obtain ⟨space, -, rfl⟩ := restore_eq_ok he h
  obtain ⟨outline, all⟩ := propagator?_foldl_synchronise (e := e.returned space) e.posted.keys
  refine ⟨outline, fun id => (all id).trans ?_⟩
  split
  · rfl
  · rename_i unknown
    have none : e.propagator? id = .none := by
      cases hp : e.posted.get? id with
      | none => exact congrArg (Option.map Posted.propagator) hp
      | some p => exact absurd (List.mem_range.mpr (lt_numPropagators_of hp)) unknown
    change e.propagator? id = e.outline id
    rw [Engine.outline, none]
    rfl

/-! ## Circuits in order -/

/-- The trailed integers of circuits are their own and in order at all levels, and circuits are told of
their own variables only. -/
structure InOrder (e : Engine Constraint) : Prop where
  valid : e.Valid
  registered : e.watchList.registrations.size = e.store.numVars
  cells_lt : ∀ change ∈ e.space.cells.trail.changes, change.cell < e.space.cells.values.size
  watcher_lt : ∀ id i event v, ⟨id, i⟩ ∈ e.watchList.affected event v → id < e.numPropagators
  told : ∀ id c, e.outline id = some (.circuit c) → ∀ i event v,
    ⟨id, i⟩ ∈ e.watchList.affected event v → i < c.numNodes ∧ v = c.predecessor i
  apart : ∀ id id' c c', id ≠ id' → e.outline id = some (.circuit c) →
    e.outline id' = some (.circuit c') → ∀ k, c.own k → ¬ c'.own k
  circuits : ∀ id c, e.outline id = some (.circuit c) → ∀ k, c.InOrder (e.space.rewind k)
  pending_lt : ∀ id c, e.propagator? id = some (.circuit c) → ∀ i ∈ c.pending, i < c.numNodes

theorem outline_of_circuit (h : e.propagator? id = some (.circuit c)) :
    e.outline id = some (.circuit { c with pending := [] }) := by
  rw [outline, h]
  rfl

theorem propagator?_withPosted {p : Constraint} {watchList : WatchList} (id : Nat) :
    (e.withPosted p watchList).propagator? id =
      if id = e.numPropagators then some (Propagator.attach p e.space.cells.values.size e.store)
      else e.propagator? id :=
  (congrArg (Option.map Posted.propagator) (Arena.get?_push _ _ _)).trans
    (apply_ite (Option.map Posted.propagator) _ _ _)

/-- A circuit of an engine in which a constraint has been posted was there before or is that constraint. -/
theorem circuit_withPosted {p : Constraint} {watchList : WatchList}
    (hc : (e.withPosted p watchList).outline id = some (.circuit c)) :
    (id ≠ e.numPropagators ∧ e.outline id = some (.circuit c)) ∨
      (id = e.numPropagators ∧ ∃ b, p = .circuit b ∧
        c = { b with firstCell := e.space.cells.values.size, pending := [] }) := by
  unfold Engine.outline at hc ⊢
  rw [propagator?_withPosted] at hc
  split at hc
  · rename_i hid
    refine .inr ⟨hid, ?_⟩
    cases p with
    | circuit b =>
      cases hc
      exact ⟨b, rfl, rfl⟩
    | _ => cases hc
  · rename_i hid
    exact .inl ⟨hid, hc⟩

namespace InOrder

theorem of_outline (h : e.InOrder) (hc : e.outline id = some (.circuit c)) : c.InOrder e.space := by
  have here := h.circuits id c hc e.space.level
  rw [Space.rewind_of_le h.valid.space (Nat.le_refl _)] at here
  exact here.congr_bare rfl

theorem own_lt (h : e.InOrder) (hc : e.outline id = some (.circuit c)) {i : Nat} (hi : c.own i) :
    i < e.space.cells.values.size := Nat.lt_of_lt_of_le hi.2 (h.of_outline hc).size_le

theorem circuit (h : e.InOrder) (hc : e.propagator? id = some (.circuit c)) : c.InOrder e.space :=
  Circuit.inOrder_congr.mp (h.of_outline (outline_of_circuit hc))

/-- What leaves an engine at its level and all circuits in order. -/
theorem step (h : e.InOrder) (keeps : e.Keeps e') (same : e'.outline = e.outline)
    (cells_lt : ∀ change ∈ e'.space.cells.trail.changes, change.cell < e'.space.cells.values.size)
    (now : ∀ id c, e.outline id = some (.circuit c) → c.InOrder e'.space)
    (lt : ∀ id c, e'.propagator? id = some (.circuit c) → ∀ i ∈ c.pending, i < c.numNodes) :
    e'.InOrder where
  valid := keeps.valid
  registered := by
    rw [keeps.watchList_eq, h.registered]
    exact keeps.below.numVars_eq.symm
  cells_lt := cells_lt
  watcher_lt := by
    rw [keeps.watchList_eq, keeps.numPropagators_eq]
    exact h.watcher_lt
  told := by
    rw [same, keeps.watchList_eq]
    exact h.told
  apart := by
    rw [same]
    exact h.apart
  circuits id c hc k := by
    rw [same] at hc
    -- below the current level nothing changes, and from there on a level is the engine as it is
    rcases Nat.lt_or_ge k e.level with hlt | hge
    · rw [keeps.below.rewind_eq k hlt]
      exact h.circuits id c hc k
    · rw [Space.rewind_of_le keeps.valid.space (Nat.le_trans (Nat.le_of_eq keeps.below.level_eq) hge)]
      exact (now id c hc).congr_bare rfl
  pending_lt := lt

theorem drained (h : e.InOrder) : InOrder { e with space := e.space.drain } :=
  ⟨⟨h.valid.space.drain, h.valid.queue⟩, h.registered, h.cells_lt, h.watcher_lt, h.told, h.apart, h.circuits,
    h.pending_lt⟩

theorem withQueue {queue : Queue} (h : e.InOrder) (hq : queue.Valid e.numPropagators) :
    InOrder { e with queue } :=
  ⟨⟨h.valid.space, hq⟩, h.registered, h.cells_lt, h.watcher_lt, h.told, h.apart, h.circuits,
    h.pending_lt⟩

theorem abandon {cause : Inconsistency} (h : e.InOrder) : (e.abandon id cause).InOrder :=
  ⟨⟨h.valid.space.drain, h.valid.queue.clear⟩, h.registered, h.cells_lt, h.watcher_lt, h.told, h.apart,
    h.circuits, h.pending_lt⟩

theorem withStore {store : Store} (h : e.InOrder) (hn : e.store.Narrows store) :
    (e.withStore store).InOrder :=
  h.step (keeps_withStore h.valid hn) rfl h.cells_lt
    (fun _ _ hc => (h.of_outline hc).narrowed h.valid.space.store hn (Nat.le_refl _) fun _ _ => rfl)
    h.pending_lt

/-! ## Propagation -/

theorem deliver (h : e.InOrder) {v : Var} (hd : d.watcher ∈ e.watchList.affected d.event v) :
    (e.deliver source d).InOrder := by
  refine h.step (keeps_deliver h.valid) outline_deliver ?_ (fun id c hc => ?_) fun id c hc i hi => ?_
  · rw [space_deliver]
    exact h.cells_lt
  · rw [space_deliver]
    exact h.of_outline hc
  · rw [propagator?_deliver] at hc
    split at hc
    · rename_i hid
      subst hid
      obtain ⟨p, hp, heq⟩ := Option.map_eq_some_iff.mp hc
      cases p with
      | circuit b =>
        have told := (h.told _ _ (outline_of_circuit hp) _ _ _ hd).1
        cases heq
        rw [Circuit.numNodes_notify]
        rcases Circuit.mem_pending_notify.mp hi with ⟨-, rfl⟩ | hi
        · exact told
        · exact h.pending_lt _ b hp i hi
      | _ => cases heq
    · exact h.pending_lt id c hc i hi

theorem foldl_deliver (h : e.InOrder) {ds : List Delivery}
    (hds : ∀ d ∈ ds, ∃ v, d.watcher ∈ e.watchList.affected d.event v) :
    (ds.foldl (Engine.deliver source) e).InOrder := by
  induction ds generalizing e with
  | nil => exact h
  | cons d ds ih =>
    rw [List.foldl_cons]
    obtain ⟨v, hd⟩ := hds d List.mem_cons_self
    refine ih (h.deliver hd) fun d' hd' => ?_
    rw [watchList_deliver]
    exact hds d' (List.mem_cons_of_mem d hd')

theorem deliverAll (h : e.InOrder) : (e.deliverAll source).InOrder :=
  h.drained.foldl_deliver fun _ hd =>
    have ⟨v, _, hv⟩ := mem_deliveries.mp hd
    ⟨v, hv⟩

/-- A constraint that hands back a space has left the trailed integers of others alone. -/
theorem value_of_hands {after : Constraint × Space} {id' : Nat} (h : e.InOrder)
    (hp : e.posted.get? id = some p) (hands : p.propagator.Hands e.space after) (hne : id ≠ id')
    (hc : e.outline id' = some (.circuit c)) (hk : c.own k) :
    after.2.cells.value k = e.space.cells.value k := by
  refine hands.narrows.cell_eq fun hk' => ?_
  cases hq : p.propagator with
  | circuit b =>
    rw [hq] at hk'
    exact h.apart id' id _ _ (Ne.symm hne) hc (outline_of_circuit (hq ▸ propagator?_of_posted hp)) k hk hk'
  | _ => rw [hq] at hk'; exact hk'

theorem called {after : Constraint × Space} (h : e.InOrder) (hp : e.posted.get? id = some p)
    (hands : p.propagator.Hands e.space after) : (e.called id p after).InOrder := by
  have own_lt (k : Nat) (hk : p.propagator.own k) : k < e.space.cells.values.size := by
    cases hc : p.propagator with
    | circuit c =>
      rw [hc] at hk
      exact h.own_lt (outline_of_circuit (hc ▸ propagator?_of_posted hp)) hk
    | _ => rw [hc] at hk; exact hk.elim
  refine h.step (keeps_called h.valid hands.narrows) (outline_called hp hands.synchronise_eq)
    (hands.narrows.cells_lt own_lt h.cells_lt) (fun id' c hc => ?_) fun id' c hc => ?_
  · change c.InOrder after.2
    by_cases hid : id = id'
    · subst hid
      rw [outline_of_posted hp] at hc
      obtain ⟨pending, hpending⟩ := Constraint.eq_circuit_of_synchronise (Option.some.inj hc)
      obtain ⟨_, -, tended⟩ := hands.circuit _ hpending
      exact Circuit.inOrder_congr.mp tended.inOrder
    · exact (h.of_outline hc).narrowed h.valid.space.store hands.narrows.store
        (Nat.le_of_eq hands.narrows.numCells_eq.symm) fun k hk => h.value_of_hands hp hands hid hc hk
  · rw [propagator?_called _ hp] at hc
    split at hc
    · cases hq : p.propagator with
      | circuit b =>
        obtain ⟨pending, heq, tended⟩ := hands.circuit b hq
        rw [heq] at hc
        cases hc
        exact tended.pending_lt
      | _ =>
        have same := hands.synchronise_eq
        rw [Option.some.inj hc, hq] at same
        cases same
    · exact h.pending_lt id' c hc

theorem hands (h : e.InOrder) (hp : e.posted.get? id = some p) :
    Ends (Propagator.propagate p.propagator e.space)
      (fun _ r => p.propagator.Hands e.space r ∧ ∀ c, p.propagator = .circuit c →
        r.1 = .circuit { c with pending := [] } ∧ ∀ i, i < c.numNodes →
          r.2.store.isFixed (c.predecessor i) = true → e.store.isFixed (c.predecessor i) = false →
          c.InVain r.2 i)
      (fun _ r => p.propagator.Hands e.space r) :=
  Constraint.hands_propagate h.valid.space (fun _ hc => h.circuit (hc ▸ propagator?_of_posted hp))
    fun c hc => h.pending_lt id c (hc ▸ propagator?_of_posted hp)

theorem call (h : e.InOrder) (hp : e.posted.get? id = some p) :
    Ends (e.call id p) (fun _ => InOrder) (fun _ => InOrder) := by
  have hands := h.hands hp
  unfold Engine.call
  dsimp only
  split <;> rename_i hr <;> rw [hr] at hands
  · exact (h.called hp hands.1).deliverAll
  · exact (h.called hp hands).abandon
  · exact h.called hp hands

theorem turn (h : e.InOrder) : Ends (Engine.turn e) (fun _ => InOrder) (fun _ => InOrder) :=
  ends_turn_of h.valid (fun _ => h) fun _ _ _ _ valid hp => (h.withQueue valid).call hp

theorem propagate (h : e.InOrder) : Ends e.propagate (fun _ => InOrder) (fun _ => InOrder) :=
  ends_descend (fun _ ht => ht.turn) h.deliverAll

theorem outline_call (h : e.InOrder) (hp : e.posted.get? id = some p) :
    Ends (e.call id p) (fun _ e' => e'.outline = e.outline) (fun _ e' => e'.outline = e.outline) := by
  have hands := h.hands hp
  unfold Engine.call
  dsimp only
  split <;> rename_i hr <;> rw [hr] at hands
  · exact outline_deliverAll.trans (outline_called hp hands.1.synchronise_eq)
  · exact outline_called hp hands.synchronise_eq
  · exact outline_called hp hands.synchronise_eq

theorem outline_turn (h : e.InOrder) :
    Ends (Engine.turn e) (fun _ e' => e'.outline = e.outline) (fun _ e' => e'.outline = e.outline) :=
  ends_turn_of h.valid (fun _ => rfl) fun _ _ _ _ valid hp => (h.withQueue valid).outline_call hp

/-- **Propagation changes no constraint** but for what it has noted. -/
theorem outline_propagate (h : e.InOrder) :
    Ends e.propagate (fun _ e' => e'.outline = e.outline) (fun _ e' => e'.outline = e.outline) := by
  have kept : Ends e.propagate (fun _ t => t.InOrder ∧ t.outline = e.outline)
      (fun _ t => t.outline = e.outline) := by
    refine ends_descend (fun t ht => ?_) ⟨h.deliverAll, outline_deliverAll⟩
    exact (ht.1.turn.and ht.1.outline_turn).mono (fun _ _ hu => ⟨hu.1, hu.2.trans ht.2⟩)
      fun _ _ hu => hu.2.trans ht.2
  exact kept.mono_ok fun _ _ ht => ht.2

/-! ## Levels -/

theorem checkpoint (h : e.InOrder) : e.checkpoint.InOrder where
  valid := ⟨h.valid.space.checkpoint, h.valid.queue⟩
  registered := h.registered
  cells_lt change hc := h.cells_lt change (Trail.changes_checkpoint e.space.cells.trail ▸ hc)
  watcher_lt := h.watcher_lt
  told := h.told
  apart := h.apart
  circuits id c hc k := by
    change c.InOrder (e.space.checkpoint.rewind k)
    rw [Space.rewind_checkpoint]
    exact h.circuits id c hc k
  pending_lt := h.pending_lt

theorem restore (h : e.InOrder) (hr : e.restore k = .ok e') : e'.InOrder := by
  have back := restored h.valid hr
  obtain ⟨-, space, watchList, -, size⟩ := restored_eq h.valid hr
  obtain ⟨same, forgotten⟩ := propagator?_of_restore h.valid hr
  refine ⟨back.valid, ?_, ?_, ?_, ?_, ?_, fun id c hc j => ?_, fun id c hc i hi => ?_⟩
  · rw [watchList, h.registered]
    exact back.space.numVars_eq.symm
  · rw [space]
    intro change hc
    change change.cell < (Cells.valuesAt _ _).size
    rw [Cells.valuesAt, Cells.size_foldl_undo]
    exact h.cells_lt change
      (Trail.undone_append_back e.space.cells.trail k ▸ List.mem_append_right _ hc)
  · rw [watchList, size]
    exact h.watcher_lt
  · rw [same, watchList]
    exact h.told
  · rw [same]
    exact h.apart
  · rw [same] at hc
    rcases Nat.le_total j k with hj | hj
    · rw [back.space.rewind_eq j hj]
      exact h.circuits id c hc j
    · rw [Space.rewind_of_le back.valid.space (Nat.le_trans (Nat.le_of_eq back.space.level_eq) hj),
        back.space.bare_eq]
      exact h.circuits id c hc k
  · rw [forgotten] at hc
    obtain ⟨p, -, hp⟩ := Option.map_eq_some_iff.mp hc
    rw [Constraint.pending_of_synchronise hp] at hi
    cases hi

/-! ## Building -/

theorem declare {lower upper : Int} (h : e.InOrder) (hd : e.declare lower upper = .ok e') :
    e'.InOrder := by
  have valid := h.valid.declare hd
  obtain ⟨-, rfl⟩ := declare_eq_ok hd
  have affected (event : Event) (v : Var) :
      e.watchList.grow.affected event v = e.watchList.affected event v := WatchList.affected_grow
  refine ⟨valid, ?_, h.cells_lt, fun id i event v hw => h.watcher_lt id i event v (affected event v ▸ hw),
    fun id c hc i event v hw => h.told id c hc i event v (affected event v ▸ hw), h.apart,
    fun id c hc k => ?_, h.pending_lt⟩
  · change (e.watchList.registrations.push []).size = (e.store.domains.push _).size
    rw [Arena.size_push, Arena.size_push]
    exact congrArg (· + 1) h.registered
  · exact (h.circuits id c hc k).grows (h.valid.space.grows_rewind _ k) (Nat.le_refl _) fun _ _ => rfl

/-- What is at level `k` when a constraint has been posted: its trailed integers have their first values. -/
theorem rewind_withPosted {p : Constraint} {watchList : WatchList} (h : e.InOrder) (k : Nat) :
    (e.withPosted p watchList).space.rewind k = ⟨(e.space.rewind k).store,
      { values := ((Propagator.cells p).foldl Cells.grow (e.space.rewind k).cells).values }⟩ := by
  have lt (change : CellChange) (hc : change ∈ e.space.cells.trail.undone k) :
      change.cell < e.space.cells.values.size := h.cells_lt change
    (Trail.undone_append_back e.space.cells.trail k ▸ List.mem_append_left _ hc)
  exact congrArg (fun values => Space.mk { domains := e.store.domainsAt k } { values })
    (Cells.valuesAt_foldl_grow_eq (Propagator.cells p) lt)

/-- A constraint that is posted leaves the circuits in order at all levels, and is in order if it is one. -/
theorem circuit_at_withPosted {p : Constraint} {watchList : WatchList} (h : e.InOrder)
    (known : ∀ v events, (v, events) ∈ Propagator.watches p → v < e.watchList.registrations.size)
    (hc : (e.withPosted p watchList).outline id = some (.circuit c)) (k : Nat) :
    c.InOrder ((e.withPosted p watchList).space.rewind k) := by
  have size : (e.space.rewind k).cells.values.size = e.space.cells.values.size :=
    Cells.size_foldl_undo _ _
  rw [h.rewind_withPosted]
  rcases circuit_withPosted hc with ⟨-, hc⟩ | ⟨rfl, b, rfl, rfl⟩
  · refine (h.circuits id c hc k).grows (Store.grows_of_domains rfl) ?_ fun i hi => ?_
    · exact Cells.size_le_foldl_grow _ _
    · exact Cells.value_foldl_grow_of_lt _ (size.symm ▸ h.own_lt hc hi)
  · -- at every level it has its first values, as those are not trailed
    refine Circuit.inOrder_of_initial ?_ (fun i hi => ?_) fun i x hx => ?_
    · dsimp only
      rw [Cells.size_foldl_grow, size]
      change _ ≤ _ + b.initialCells.length
      rw [Circuit.length_initialCells]
      exact Nat.le_refl _
    · have watches : WatchedAt b.watches i (b.predecessor i) .assign :=
        Circuit.watchedAt_iff.mpr ⟨hi, rfl⟩
      obtain ⟨events, watched, -⟩ := watches
      have lt := known _ _ (List.mem_of_getElem? watched)
      rw [h.registered] at lt
      exact Nat.lt_of_lt_of_eq lt (Store.size_domainsAt e.store k).symm
    · replace hx : b.initialCells[i]? = some x := hx
      have first := Cells.value_foldl_grow (c := (e.space.rewind k).cells) hx
      rw [size] at first
      exact first

theorem post {p : Constraint} (h : e.InOrder) (hp : e.post p = .ok e') : e'.InOrder := by
  have valid := h.valid.post hp
  obtain ⟨-, watchList, hw, rfl⟩ := post_eq_ok hp
  obtain ⟨registered, known⟩ := WatchList.known_of_foldlM hw
  refine ⟨valid, registered.trans h.registered, fun change hc => ?_, fun id i event v hw' => ?_,
    fun id c hc i event v hw' => ?_, fun id id' c c' hne hc hc' i hi hi' => ?_, fun id c hc k => ?_,
    fun id c hc i hi => ?_⟩
  · change change ∈ ((Propagator.cells p).foldl Cells.grow e.space.cells).trail.changes at hc
    change change.cell < ((Propagator.cells p).foldl Cells.grow e.space.cells).values.size
    rw [level_foldl_grow] at hc
    rw [Cells.size_foldl_grow]
    exact Nat.lt_add_right _ (h.cells_lt change hc)
  · rw [numPropagators_withPosted]
    rcases (mem_affected_post hw).mp hw' with hw' | ⟨rfl, -⟩
    · exact Nat.lt_succ_of_lt (h.watcher_lt id i event v hw')
    · exact Nat.lt_succ_self _
  · rcases circuit_withPosted hc with ⟨hid, hc⟩ | ⟨rfl, b, rfl, rfl⟩
    · rcases (mem_affected_post hw).mp hw' with hw' | ⟨rfl, -⟩
      · exact h.told id c hc i event v hw'
      · exact absurd rfl hid
    · -- nobody was told as the new one before
      rcases (mem_affected_post hw).mp hw' with hw' | ⟨-, watched⟩
      · exact absurd (h.watcher_lt _ i event v hw') (Nat.lt_irrefl _)
      · exact Circuit.watchedAt_iff.mp watched
  · -- the trailed integers of the new one lie behind those of all others
    rcases circuit_withPosted hc with ⟨hid, hc⟩ | ⟨rfl, b, rfl, rfl⟩ <;>
      rcases circuit_withPosted hc' with ⟨hid', hc'⟩ | ⟨rfl, b', hb, rfl⟩
    · exact h.apart id id' c c' hne hc hc' i hi hi'
    · exact absurd (h.own_lt hc hi) (Nat.not_lt_of_le hi'.1)
    · exact absurd (h.own_lt hc' hi') (Nat.not_lt_of_le hi.1)
    · exact hne rfl
  · exact h.circuit_at_withPosted known hc k
  · rw [propagator?_withPosted] at hc
    split at hc
    · cases p with
      | circuit b =>
        cases hc
        exact Circuit.mem_nodes.mp (List.mem_filter.mp (List.mem_reverse.mp hi)).1
      | _ => cases hc
    · exact h.pending_lt id c hc i hi

/-- **Circuits stay in order in a run**, whatever it comes to. -/
theorem run {e₀ : Engine Constraint} {m : Mode} (h₀ : e₀.InOrder) (h : e₀.Run m e) : e.InOrder := by
  induction h with
  | start => exact h₀
  | narrow _ _ hn ih => exact ih.withStore hn
  | refuted _ ih => exact ih
  | note _ _ ih =>
    exact ⟨⟨ih.valid.space, ih.valid.queue⟩, ih.registered, ih.cells_lt, ih.watcher_lt, ih.told, ih.apart,
      ih.circuits, ih.pending_lt⟩
  | deliver _ _ ih => exact ih.deliverAll
  | turn _ ht ih => exact ih.turn.of_ok ht
  | done _ ht ih => exact ih.turn.of_ok ht
  | failed _ ht ih => exact ih.turn.of_error ht
  | checkpoint _ ih => exact ih.checkpoint
  | restore _ _ hr ih => exact ih.restore hr

end InOrder

theorem inOrder_empty : ({} : Engine Constraint).InOrder where
  valid := valid_empty
  registered := rfl
  cells_lt _ h := by cases h
  watcher_lt _ _ _ _ h := by cases h
  told _ _ h := by cases h
  apart _ _ _ _ _ h := by cases h
  circuits _ _ h := by cases h
  pending_lt _ _ h := by cases h

/-- **In every engine that can be made, circuits are in order.** -/
theorem Made.inOrder (h : e.Made) : e.InOrder := by
  induction h with
  | empty => exact inOrder_empty
  | declare _ hd ih => exact ih.declare hd
  | post _ hp ih => exact ih.post hp
  | narrow _ hn ih => exact ih.withStore hn
  | propagate _ hp ih => exact ih.propagate.of_ok hp
  | refuted _ hp ih => exact ih.propagate.of_error hp
  | checkpoint _ ih => exact ih.checkpoint
  | restore _ hr ih => exact ih.restore hr

end Engine
end BranchBound
