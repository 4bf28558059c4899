import BranchBound.Proofs.Course

/-! # Engines that differ in what waits in vain

Two engines echo each other if they are the same but for nodes that their circuits have noted in vain
(`Engine.Echoes`).  They propagate alike: the same constraints are called in the same order, with the same
outcome, and the engines that they come to echo each other again (`Echoes.propagate`). -/
namespace BranchBound

/-! ## Constraints -/

/-- A constraint, and the same with further nodes that wait in vain. -/
inductive Constraint.Burdened (s : Space) : Constraint → Constraint → Prop
  | same (p : Constraint) : Burdened s p p
  | vain {c : Circuit} {stale : List Nat} (h : ∀ i ∈ stale, c.InVain s i) :
    Burdened s (.circuit c) (.circuit { c with pending := c.pending ++ stale })

namespace Constraint.Burdened
variable {p q : Constraint} {s t : Space}

theorem synchronise_eq (h : Burdened s p q) : q.synchronise = p.synchronise := by cases h <;> rfl

theorem priority_eq (h : Burdened s p q) : q.priority = p.priority := by cases h <;> rfl

theorem notify (h : Burdened s p q) (i : Nat) (event : Event) :
    Burdened s (p.notify i event) (q.notify i event) := by
  cases h with
  | same p => exact .same _
  | @vain c stale h =>
    change Burdened s (.circuit (c.notify i event)) (.circuit (Circuit.notify _ i event))
    unfold Circuit.notify
    split
    · exact .vain (c := { c with pending := i :: c.pending }) h
    · exact .vain h

/-- It depends on the trailed integers of the constraint. -/
theorem congr (h : Burdened s p q)
    (same : ∀ c, p = .circuit c → ∀ k, c.own k → t.cells.value k = s.cells.value k) : Burdened t p q := by
  cases h with
  | same p => exact .same _
  | @vain c stale h =>
    refine .vain fun i hi => ?_
    obtain ⟨lt, joined⟩ := h i hi
    exact ⟨lt, same c rfl _ (Circuit.own_merged lt) ▸ joined⟩

/-- **A constraint is called alike**, whatever waits in vain. -/
theorem propagate (h : Burdened s p q) (hs : s.Valid) (inOrder : ∀ c, p = .circuit c → c.InOrder s)
    (lt : ∀ c, p = .circuit c → ∀ i ∈ c.pending, i < c.numNodes) :
    Ends (Propagator.propagate p s) (fun _ r => Propagator.propagate q s = .ok () r)
      (fun halt r => ∃ q', Burdened r.2 r.1 q' ∧ Propagator.propagate q s = .error halt (q', r.2)) := by
  cases h with
  | same p =>
    cases Propagator.propagate p s with
    | ok _ r => rfl
    | error halt r => exact ⟨r.1, .same _, rfl⟩
  | @vain c stale h =>
    have alike := Circuit.alike_filter hs (inOrder c rfl) (lt c rfl) h
    rw [show c = { c with pending := c.pending } from rfl, Circuit.propagate_eq, ends_mapState,
      Circuit.propagate_eq]
    refine Ends.mono alike (fun _ r hr => ?_) fun halt r hr => ?_
    · rw [hr]
      rfl
    · obtain ⟨left, vain, heq⟩ := hr
      rw [heq]
      exact ⟨_, .vain (c := { c with pending := r.1 }) vain, rfl⟩

end Constraint.Burdened

/-! ## Queues -/

namespace Queue
variable {q q' : Queue} {id lane n : Nat}

/-- Who waits is read off the lanes. -/
theorem isWaiting_eq_of_lanes (hq : q.Valid n) (hq' : q'.Valid n) (h : q.lanes = q'.lanes) :
    q.isWaiting id = q'.isWaiting id := by
  rw [Bool.eq_iff_iff, ← hq.mem_iff, ← hq'.mem_iff, waits, waits, h]

theorem lanes_enqueue_eq (hq : q.Valid n) (hq' : q'.Valid n) (h : q.lanes = q'.lanes) :
    (q.enqueue id lane).lanes = (q'.enqueue id lane).lanes := by
  unfold enqueue
  rw [isWaiting_eq_of_lanes hq hq' h]
  split
  · exact h
  · exact congrArg (fun lanes => lanes.modify lane (· ++ [id])) h

/-- Whose turn it is is read off the lanes. -/
theorem pop_eq_of_lanes (hq : q.Valid n) (hq' : q'.Valid n) (h : q.lanes = q'.lanes) :
    (q.pop = none ∧ q'.pop = none) ∨ ∃ id r r', q.pop = some (id, r) ∧ q'.pop = some (id, r') ∧
      r.lanes = r'.lanes := by
  have top : q.occupied.top? = q'.occupied.top? := (h ▸ hq.occupied).top?_eq hq'.occupied
  unfold pop
  rw [top, h]
  cases q'.occupied.top? with
  | none => exact .inl ⟨rfl, rfl⟩
  | some first =>
    dsimp only
    rcases q'.lanes[first]? with _ | _ | ⟨id, lane⟩
    · exact .inl ⟨rfl, rfl⟩
    · exact .inl ⟨rfl, rfl⟩
    · exact .inr ⟨id, _, _, rfl, rfl, rfl⟩

theorem length_eq_of_lanes (h : q.lanes = q'.lanes) : q.length = q'.length := by
  unfold length
  rw [h]

end Queue

/-! ## Engines -/

namespace Engine
variable {a b : Engine Constraint} {id : Nat} {p q : Posted Constraint} {source : Option Nat}
  {d : Delivery}

/-- The engine `b` is the engine `a` with nodes that wait in vain. -/
structure Echoes (a b : Engine Constraint) : Prop where
  inOrder : a.InOrder
  inOrder' : b.InOrder
  space_eq : b.space = a.space
  watchList_eq : b.watchList = a.watchList
  lanes_eq : b.queue.lanes = a.queue.lanes
  numPropagators_eq : b.numPropagators = a.numPropagators
  burdened : ∀ id p q, a.propagator? id = some p → b.propagator? id = some q →
    Constraint.Burdened a.space p q

/-- Two results are alike, and the engines in them echo each other. -/
inductive EndsAlike {α : Type} : (r r' : EStateM.Result Failure (Engine Constraint) α) → Prop
  | ok {x : α} {a b : Engine Constraint} (h : Echoes a b) : EndsAlike (.ok x a) (.ok x b)
  | error {f : Failure} {a b : Engine Constraint} (h : Echoes a b) : EndsAlike (.error f a) (.error f b)

theorem queue_deliver_eq {p : Constraint} (h : a.propagator? d.watcher.propagator = some p) :
    (a.deliver source d).queue = if source ≠ some d.watcher.propagator then
      a.queue.enqueue d.watcher.propagator p.priority.lane else a.queue := by
  obtain ⟨q, hq, rfl⟩ := Option.map_eq_some_iff.mp h
  have priority : (q.propagator.notify d.watcher.position d.event).priority = q.propagator.priority := by
    cases q.propagator <;> rfl
  rw [queue_deliver_of_some hq, ← priority]
  by_cases own : source = some d.watcher.propagator
  · simp [own]
  · simp only [ne_eq, own, not_false_eq_true, decide_true, Bool.and_true, if_true]
    rfl

namespace Echoes

theorem known (h : Echoes a b) : a.propagator? id = none ↔ b.propagator? id = none := by
  have size : b.posted.items.size = a.posted.items.size := h.numPropagators_eq
  simp [propagator?, Arena.get?, size]

theorem exists_partner {p : Constraint} (h : Echoes a b) (hp : a.propagator? id = some p) :
    ∃ q, b.propagator? id = some q ∧ Constraint.Burdened a.space p q := by
  cases hq : b.propagator? id with
  | none => exact absurd (hp.symm.trans (h.known.mpr hq)) (Option.some_ne_none p)
  | some q => exact ⟨q, rfl, h.burdened id p q hp hq⟩

theorem deliver {v : Var} (h : Echoes a b) (hd : d.watcher ∈ a.watchList.affected d.event v) :
    Echoes (a.deliver source d) (b.deliver source d) where
  inOrder := h.inOrder.deliver hd
  inOrder' := h.inOrder'.deliver (h.watchList_eq.symm ▸ hd)
  space_eq := by
    rw [space_deliver, space_deliver]
    exact h.space_eq
  watchList_eq := by
    rw [watchList_deliver, watchList_deliver]
    exact h.watchList_eq
  lanes_eq := by
    cases hp : a.propagator? d.watcher.propagator with
    | none =>
      rw [queue_deliver_of_none (Option.map_eq_none_iff.mp hp),
        queue_deliver_of_none (Option.map_eq_none_iff.mp (h.known.mp hp))]
      exact h.lanes_eq
    | some p =>
      obtain ⟨q, hq, burdened⟩ := h.exists_partner hp
      rw [queue_deliver_eq hp, queue_deliver_eq hq, burdened.priority_eq]
      split
      · exact Queue.lanes_enqueue_eq h.inOrder'.valid.queue
          (h.numPropagators_eq.symm ▸ h.inOrder.valid.queue) h.lanes_eq
      · exact h.lanes_eq
  numPropagators_eq := by
    rw [numPropagators_deliver, numPropagators_deliver]
    exact h.numPropagators_eq
  burdened id p q hp hq := by
    rw [propagator?_deliver] at hp hq
    rw [space_deliver]
    split at hp <;> rename_i hid
    · rw [if_pos hid] at hq
      obtain ⟨p', hp', rfl⟩ := Option.map_eq_some_iff.mp hp
      obtain ⟨q', hq', rfl⟩ := Option.map_eq_some_iff.mp hq
      exact (h.burdened id p' q' hp' hq').notify _ _
    · rw [if_neg hid] at hq
      exact h.burdened id p q hp hq

theorem foldl_deliver (h : Echoes a b) {ds : List Delivery}
    (hds : ∀ d ∈ ds, ∃ v, d.watcher ∈ a.watchList.affected d.event v) :
    Echoes (ds.foldl (Engine.deliver source) a) (ds.foldl (Engine.deliver source) b) := by
  induction ds generalizing a b with
  | nil => exact h
  | cons d ds ih =>
    rw [List.foldl_cons, List.foldl_cons]
    obtain ⟨v, hd⟩ := hds d List.mem_cons_self
    refine ih (h.deliver hd) fun d' hd' => ?_
    rw [watchList_deliver]
    exact hds d' (List.mem_cons_of_mem d hd')

theorem drained (h : Echoes a b) :
    Echoes { a with space := a.space.drain } { b with space := b.space.drain } where
  inOrder := h.inOrder.drained
  inOrder' := h.inOrder'.drained
  space_eq := congrArg Space.drain h.space_eq
  watchList_eq := h.watchList_eq
  lanes_eq := h.lanes_eq
  numPropagators_eq := h.numPropagators_eq
  burdened id p q hp hq := (h.burdened id p q hp hq).congr fun _ _ _ _ => rfl

theorem deliverAll (h : Echoes a b) : Echoes (a.deliverAll source) (b.deliverAll source) := by
  have same : b.deliveries = a.deliveries := by
    unfold deliveries store
    rw [h.space_eq, h.watchList_eq]
  unfold Engine.deliverAll
  rw [same]
  refine foldl_deliver h.drained fun d hd => ?_
  obtain ⟨v, -, hv⟩ := mem_deliveries.mp hd
  exact ⟨v, hv⟩

theorem withQueue {r r' : Queue} (h : Echoes a b) (hr : r.Valid a.numPropagators)
    (hr' : r'.Valid b.numPropagators) (lanes : r'.lanes = r.lanes) :
    Echoes { a with queue := r } { b with queue := r' } :=
  ⟨h.inOrder.withQueue hr, h.inOrder'.withQueue hr', h.space_eq, h.watchList_eq, lanes, h.numPropagators_eq,
    h.burdened⟩

/-- After a call that hands back the same space, the engines echo each other. -/
theorem called {after : Constraint × Space} {q' : Constraint} (h : Echoes a b)
    (hp : a.posted.get? id = some p) (hq : b.posted.get? id = some q)
    (hands : p.propagator.Hands a.space after) (hands' : q.propagator.Hands b.space (q', after.2))
    (burdened : Constraint.Burdened after.2 after.1 q') :
    Echoes (a.called id p after) (b.called id q (q', after.2)) where
  inOrder := h.inOrder.called hp hands
  inOrder' := h.inOrder'.called hq hands'
  space_eq := rfl
  watchList_eq := h.watchList_eq
  lanes_eq := h.lanes_eq
  numPropagators_eq := by
    rw [numPropagators_called, numPropagators_called]
    exact h.numPropagators_eq
  burdened id' r r' hr hr' := by
    rw [propagator?_called _ hp] at hr
    rw [propagator?_called _ hq] at hr'
    split at hr <;> rename_i hid
    · rw [if_pos hid] at hr'
      cases hr
      cases hr'
      exact burdened
    · rw [if_neg hid] at hr'
      refine (h.burdened id' r r' hr hr').congr fun c hc k hk => ?_
      subst hc
      exact h.inOrder.value_of_hands hp hands hid (outline_of_circuit hr) hk

theorem abandon {cause : Inconsistency} (h : Echoes a b) : Echoes (a.abandon id cause) (b.abandon id cause) where
  inOrder := h.inOrder.abandon
  inOrder' := h.inOrder'.abandon
  space_eq := congrArg Space.drain h.space_eq
  watchList_eq := h.watchList_eq
  lanes_eq := congrArg (List.map fun _ => []) h.lanes_eq
  numPropagators_eq := h.numPropagators_eq
  burdened id p q hp hq := (h.burdened id p q hp hq).congr fun _ _ _ _ => rfl

/-! ## Propagation -/

theorem call (h : Echoes a b) (hp : a.posted.get? id = some p) (hq : b.posted.get? id = some q) :
    EndsAlike (a.call id p) (b.call id q) := by
  have hands := h.inOrder.hands hp
  have hands' := h.inOrder'.hands hq
  have alike := (h.burdened id _ _ (propagator?_of_posted hp) (propagator?_of_posted hq)).propagate
    h.inOrder.valid.space (fun c hc => h.inOrder.circuit (hc ▸ propagator?_of_posted hp))
    fun c hc => h.inOrder.pending_lt id c (hc ▸ propagator?_of_posted hp)
  rw [h.space_eq] at hands'
  unfold Engine.call
  dsimp only
  rw [h.space_eq]
  cases hr : Propagator.propagate p.propagator a.space with
  | ok _ after =>
    rw [hr] at alike hands
    replace alike : Propagator.propagate q.propagator a.space = .ok () after := alike
    rw [alike] at hands' ⊢
    exact .ok (h.called hp hq hands.1 (h.space_eq ▸ hands'.1) (.same _)).deliverAll
  | error halt after =>
    rw [hr] at alike hands
    obtain ⟨q', burdened, alike⟩ := alike
    rw [alike] at hands' ⊢
    have called := h.called hp hq hands (h.space_eq ▸ hands') burdened
    -- both have handed back the same space, and stop for the same cause
    cases halt with
    | inconsistent cause => exact .error called.abandon
    | fault cause => exact .error called

theorem turn (h : Echoes a b) : EndsAlike (Engine.turn a) (Engine.turn b) := by
  unfold Engine.turn
  have known : b.queue.Valid a.numPropagators := h.numPropagators_eq ▸ h.inOrder'.valid.queue
  rcases Queue.pop_eq_of_lanes h.inOrder.valid.queue known h.lanes_eq.symm with
    ⟨none, none'⟩ | ⟨id, r, r', some, some', lanes⟩
  · rw [none, none']
    exact .ok h
  · obtain ⟨valid, lt⟩ := h.inOrder.valid.queue.pop some
    obtain ⟨valid', lt'⟩ := h.inOrder'.valid.queue.pop some'
    obtain ⟨p, hp⟩ := posted_eq_some lt
    obtain ⟨q, hq⟩ := posted_eq_some lt'
    have called : EndsAlike (({ a with queue := r } : Engine Constraint).call id p)
        (({ b with queue := r' } : Engine Constraint).call id q) :=
      (h.withQueue valid valid' lanes.symm).call hp hq
    rw [some, some']
    dsimp only
    rw [hp, hq]
    dsimp only
    generalize ({ a with queue := r } : Engine Constraint).call id p = x,
      ({ b with queue := r' } : Engine Constraint).call id q = y at called
    cases called with
    | ok echoes => exact .ok echoes
    | error echoes => exact .error echoes

theorem repeatAtMost (h : Echoes a b) (n : Nat) :
    EndsAlike (repeatAtMost Engine.turn n a) (repeatAtMost Engine.turn n b) := by
  -- on the number of turns, as the engines after a turn echo each other again
  induction n generalizing a b with
  | zero => exact .ok h
  | succ n ih =>
    have turned := h.turn
    unfold BranchBound.repeatAtMost
    generalize Engine.turn a = x, Engine.turn b = y at turned
    cases turned with
    | error echoes => exact .error echoes
    | @ok more _ _ echoes =>
      cases more with
      | true => exact ih echoes
      | false => exact .ok echoes

/-- **Engines that echo each other propagate alike.** -/
theorem propagate (h : Echoes a b) : EndsAlike a.propagate b.propagate := by
  have delivered : Echoes (a.deliverAll none) (b.deliverAll none) := h.deliverAll
  have same : (b.deliverAll none).potential = (a.deliverAll none).potential := by
    unfold potential
    rw [delivered.space_eq, delivered.numPropagators_eq, Queue.length_eq_of_lanes delivered.lanes_eq]
  -- the number of turns that are allowed is read off the potential, which ignores what waits in vain
  unfold Engine.propagate descend
  rw [same]
  exact delivered.repeatAtMost _

end Echoes

end Engine
end BranchBound
