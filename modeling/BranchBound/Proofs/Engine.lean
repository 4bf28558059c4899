import BranchBound.Engine
import BranchBound.Proofs.Filter
import BranchBound.Proofs.Queue

/-! # Engines at work

What an engine comes to from a start is described step by step (`Engine.Run`), together with the
mode that it is in: between two propagations its domains may be narrowed, while it is busy its
propagators are called in turn, and it is quiet when nobody has a reason to be called.

A propagator is handed nothing but narrowings and its trailed integers (`LawfulPropagator`).  So
every step keeps the engine valid (`Run.valid`) and, unless it returns there, what lower levels
return to.  **Propagation comes to an end** (`ends_turn`: a turn lowers the potential), and then the
engine is quiet (`Run.propagate`); if no turn takes an assignment away, propagation keeps it
(`Run.propagate_admits`). -/
namespace BranchBound

/-- Whatever a propagator does, it narrows. -/
class LawfulPropagator (π : Type) [Propagator π] : Prop where
  narrows (p : π) {s : Space} (hs : s.Valid) :
    Ends (Propagator.propagate p s) (fun _ r => s.Narrows (fun _ => True) r.2)
      (fun _ r => s.Narrows (fun _ => True) r.2)

namespace Engine
variable {π : Type}

/-- The space is valid, and so is the queue. -/
structure Valid (e : Engine π) : Prop where
  space : e.space.Valid
  queue : e.queue.Valid e.numPropagators

theorem valid_empty : ({} : Engine π).Valid where
  space := {
    store := fun v d h => by simp [Store.domain?, Arena.get?] at h
    earlier := fun k h => absurd h (Nat.not_lt_zero k)
    level_cells := rfl
    changed_lt := fun c h => by cases h }
  queue := Queue.valid_empty

/-- What a step leaves of an engine that does not return to a lower level. -/
structure Keeps (e e' : Engine π) : Prop where
  valid : e'.Valid
  below : e.space.SameBelow e'.space
  within : ∀ v x, e'.store.contains v x = true → e.store.contains v x = true
  numPropagators_eq : e'.numPropagators = e.numPropagators
  watchList_eq : e'.watchList = e.watchList

theorem Keeps.refl {e : Engine π} (h : e.Valid) : e.Keeps e :=
  ⟨h, .refl, fun _ _ hx => hx, rfl, rfl⟩

theorem Keeps.trans {e e' e'' : Engine π} (h : e.Keeps e') (h' : e'.Keeps e'') : e.Keeps e'' where
  valid := h'.valid
  below := h.below.trans h'.below
  within v x hx := h.within v x (h'.within v x hx)
  numPropagators_eq := h'.numPropagators_eq.trans h.numPropagators_eq
  watchList_eq := h'.watchList_eq.trans h.watchList_eq

variable {e e' : Engine π} {p : Posted π} {id : Nat} {source : Option Nat} {d : Delivery}

theorem lt_numPropagators_of (h : e.posted.get? id = some p) : id < e.numPropagators := by
  obtain ⟨hid, -⟩ := Array.getElem?_eq_some_iff.mp h
  exact hid

theorem posted_eq_some (h : id < e.numPropagators) : ∃ p, e.posted.get? id = some p :=
  ⟨_, Array.getElem?_eq_getElem h⟩

/-- The engine when a propagator has handed back what is in `after`. -/
def called (e : Engine π) (id : Nat) (p : Posted π) (after : π × Space) : Engine π :=
  { e with
    space := after.2
    posted := e.posted.set id { p with propagator := after.1 }
    numPropagations := e.numPropagations + 1
    journal := e.journal.add (.propagated id) }

theorem numPropagators_called (after : π × Space) :
    (e.called id p after).numPropagators = e.numPropagators := Arena.size_set _ _ _

theorem get?_called (after : π × Space) (id' : Nat) : (e.called id p after).posted.get? id' =
    if id = id' then (e.posted.get? id').map fun _ => { p with propagator := after.1 }
    else e.posted.get? id' := Arena.get?_set _ _ _ _

theorem keeps_called {own : Nat → Prop} {after : π × Space} (he : e.Valid)
    (h : e.space.Narrows own after.2) : e.Keeps (e.called id p after) where
  valid := ⟨h.valid he.space, he.queue.mono (Nat.le_of_eq (numPropagators_called after).symm)⟩
  below := h.sameBelow he.space
  within _ _ hx := h.store.contains he.space.store hx
  numPropagators_eq := numPropagators_called after
  watchList_eq := rfl

theorem keeps_abandon (he : e.Valid) (cause : Inconsistency) : e.Keeps (e.abandon id cause) :=
  ⟨⟨he.space.drain, he.queue.clear⟩, Space.sameBelow_drain, fun _ _ hx => hx, rfl, rfl⟩

theorem Keeps.popped {queue : Queue} (he : e.Valid) (hq : e.queue.pop = some (id, queue)) :
    e.Keeps { e with queue } :=
  ⟨⟨he.space, (he.queue.pop hq).1⟩, .refl, fun _ _ hx => hx, rfl, rfl⟩

variable [Propagator π]

/-! ## Deliveries -/

@[simp] theorem space_deliver : (e.deliver source d).space = e.space := by
  unfold deliver
  dsimp only
  split <;> rfl

@[simp] theorem watchList_deliver : (e.deliver source d).watchList = e.watchList := by
  unfold deliver
  dsimp only
  split <;> rfl

@[simp] theorem numPropagators_deliver :
    (e.deliver source d).numPropagators = e.numPropagators := by
  unfold deliver
  dsimp only
  split
  · rfl
  · exact Arena.size_set _ _ _

theorem get?_deliver_self : (e.deliver source d).posted.get? d.watcher.propagator =
    (e.posted.get? d.watcher.propagator).map fun p => { p with
      propagator := (Propagator.notify p.propagator e.space d.watcher.position d.event).1 } := by
  unfold deliver
  dsimp only
  split
  · rename_i unknown
    rw [unknown]
    rfl
  · rename_i p hp
    refine (Arena.get?_set _ _ _ _).trans ?_
    rw [if_pos rfl, hp]
    rfl

theorem get?_deliver_ne (h : d.watcher.propagator ≠ id) :
    (e.deliver source d).posted.get? id = e.posted.get? id := by
  unfold deliver
  dsimp only
  split
  · rfl
  · exact (Arena.get?_set _ _ _ _).trans (if_neg h)

theorem queue_deliver_of_none (h : e.posted.get? d.watcher.propagator = none) :
    (e.deliver source d).queue = e.queue := by
  unfold deliver
  dsimp only
  rw [h]

theorem queue_deliver_of_some (h : e.posted.get? d.watcher.propagator = some p) :
    (e.deliver source d).queue =
      let after := Propagator.notify p.propagator e.space d.watcher.position d.event
      if after.2 && source ≠ some d.watcher.propagator then
        e.queue.enqueue d.watcher.propagator (Propagator.priority after.1).lane
      else e.queue := by
  unfold deliver
  dsimp only
  rw [h]

/-- Who waits still waits when others are told of an event. -/
theorem mem_waits_deliver (he : e.Valid) (h : id ∈ e.queue.waits) :
    id ∈ (e.deliver source d).queue.waits := by
  cases hp : e.posted.get? d.watcher.propagator with
  | none => rwa [queue_deliver_of_none hp]
  | some p =>
    rw [queue_deliver_of_some hp]
    dsimp only
    split
    · exact (Queue.mem_waits_enqueue he.queue (Priority.lane_lt _)).mpr (.inr h)
    · exact h

/-- Who is told of an event that others caused waits from then on, if it wants to be called. -/
theorem mem_waits_deliver_self (he : e.Valid) (hp : e.posted.get? d.watcher.propagator = some p)
    (wanted : (Propagator.notify p.propagator e.space d.watcher.position d.event).2 = true)
    (others : source ≠ some d.watcher.propagator) :
    d.watcher.propagator ∈ (e.deliver source d).queue.waits := by
  rw [queue_deliver_of_some hp]
  dsimp only
  rw [wanted, if_pos (by simpa using others)]
  exact (Queue.mem_waits_enqueue he.queue (Priority.lane_lt _)).mpr (.inl rfl)

theorem Valid.deliver (h : e.Valid) : (e.deliver source d).Valid where
  space := by rw [space_deliver]; exact h.space
  queue := by
    rw [numPropagators_deliver]
    cases hp : e.posted.get? d.watcher.propagator with
    | none =>
      rw [queue_deliver_of_none hp]
      exact h.queue
    | some p =>
      rw [queue_deliver_of_some hp]
      dsimp only
      split
      · exact h.queue.enqueue (Priority.lane_lt _) (lt_numPropagators_of hp)
      · exact h.queue

theorem keeps_deliver (h : e.Valid) : e.Keeps (e.deliver source d) :=
  ⟨h.deliver, space_deliver (e := e) ▸ .refl, fun _ _ hx => by rwa [store, space_deliver] at hx,
    numPropagators_deliver, watchList_deliver⟩

theorem space_foldl_deliver (ds : List Delivery) : (ds.foldl (deliver source) e).space = e.space := by
  induction ds generalizing e with
  | nil => rfl
  | cons d ds ih => rw [List.foldl_cons, ih, space_deliver]

theorem keeps_foldl_deliver (h : e.Valid) (ds : List Delivery) :
    e.Keeps (ds.foldl (deliver source) e) := by
  induction ds generalizing e with
  | nil => exact .refl h
  | cons d ds ih => exact (keeps_deliver h).trans (ih h.deliver)

@[simp] theorem space_deliverAll : (e.deliverAll source).space = e.space.drain :=
  space_foldl_deliver _

theorem events_deliverAll : (e.deliverAll source).store.events = [] := by
  rw [store, space_deliverAll]
  rfl

theorem keeps_deliverAll (h : e.Valid) : e.Keeps (e.deliverAll source) := by
  have drained : e.Keeps { e with space := e.space.drain } :=
    ⟨⟨h.space.drain, h.queue⟩, Space.sameBelow_drain, fun _ _ hx => hx, rfl, rfl⟩
  exact drained.trans (keeps_foldl_deliver drained.valid _)

/-- If nothing happened, nobody is told. -/
theorem deliverAll_of_silent (h : e.store.events = []) : e.deliverAll source = e := by
  have none : e.deliveries = [] := by simp [deliveries, Store.pending, h]
  have same : { e with space := e.space.drain } = e := by rw [Space.drain_of_silent h]
  unfold deliverAll
  rw [none]
  exact same

/-! ## Turns -/

/-- **A turn is a call of the head of those who wait**, who is off the queue then. -/
theorem ends_turn_of {Q : Bool → Engine π → Prop} {E : Failure → Engine π → Prop} (he : e.Valid)
    (nobody : e.queue.pop = none → Q false e)
    (call : ∀ id queue p, e.queue.pop = some (id, queue) → queue.Valid e.numPropagators →
      e.posted.get? id = some p → Ends (({ e with queue } : Engine π).call id p) (fun _ => Q true) E) :
    Ends (turn e) Q E := by
  unfold turn
  cases hq : e.queue.pop with
  | none => exact nobody hq
  | some next =>
    obtain ⟨id, queue⟩ := next
    obtain ⟨valid, lt⟩ := he.queue.pop hq
    obtain ⟨p, hp⟩ := posted_eq_some lt
    have called := call id queue p hq valid hp
    dsimp only
    rw [hp]
    dsimp only
    split <;> rename_i hr <;> rw [hr] at called <;> exact called

variable [LawfulPropagator π]

theorem ends_call (id : Nat) (he : e.Valid) (hs : e.store.events = []) :
    Ends (e.call id p)
      (fun _ e' => e.Keeps e' ∧ e'.store.events = [] ∧
        (e'.space.numValues < e.space.numValues ∨
          (e'.space.numValues = e.space.numValues ∧ e'.queue = e.queue)))
      (fun _ e' => e.Keeps e') := by
  have narrowed := LawfulPropagator.narrows p.propagator he.space
  unfold call
  dsimp only
  split <;> rename_i hr <;> rw [hr] at narrowed
  · rename_i after
    replace narrowed : e.space.Narrows (fun _ => True) after.2 := narrowed
    obtain ⟨new, hnew, -, same, less⟩ := narrowed.told he.space.store
    have keeps : e.Keeps (e.called id p after) := keeps_called he narrowed
    refine ⟨keeps.trans (keeps_deliverAll keeps.valid), events_deliverAll, ?_⟩
    -- a propagator that changed no domain causes no event, so nobody is queued because of it
    by_cases hn : new = []
    · have silent : (e.called id p after).store.events = [] := by
        change after.2.store.events = []
        rw [hnew, hn, List.nil_append]
        exact hs
      refine .inr ?_
      change ((e.called id p after).deliverAll (some id)).space.numValues = _ ∧
        ((e.called id p after).deliverAll (some id)).queue = _
      rw [deliverAll_of_silent silent]
      exact ⟨congrArg Store.numValues (same hn), rfl⟩
    · refine .inl ?_
      rw [space_deliverAll]
      exact less hn
  · rename_i cause after
    have keeps : e.Keeps (e.called id p after) := keeps_called he narrowed
    exact keeps.trans (keeps_abandon keeps.valid cause)
  · exact keeps_called he narrowed

/-- **Every turn lowers the potential**, and there is none only when nobody waits. -/
theorem ends_turn (he : e.Valid) (hs : e.store.events = []) :
    Ends (turn e)
      (fun more e' => e.Keeps e' ∧ e'.store.events = [] ∧
        if more then e'.potential < e.potential else e' = e ∧ e.queue.pop = none)
      (fun _ e' => e.Keeps e') := by
  refine ends_turn_of he (fun nobody => ⟨.refl he, hs, rfl, nobody⟩) fun id queue p hq valid hp => ?_
  have popped := Keeps.popped he hq
  refine (ends_call id popped.valid hs).mono (fun _ e' called => ?_) fun _ _ => popped.trans
  obtain ⟨keeps, silent, lower⟩ := called
  refine ⟨popped.trans keeps, silent, ?_⟩
  rw [if_pos rfl]
  have length := he.queue.length_of_pop hq
  have most := keeps.valid.queue.length_le
  unfold potential
  rw [keeps.numPropagators_eq] at most ⊢
  rcases lower with lower | ⟨same, queue_eq⟩
  · have := Nat.mul_le_mul_right (e.numPropagators + 1) (Nat.succ_le_of_lt lower)
    change _ * (e.numPropagators + 1) + _ < _
    change _ ≤ e.numPropagators at most
    dsimp only at this
    rw [Nat.succ_mul] at this
    omega
  · rw [same, queue_eq]
    change _ * (e.numPropagators + 1) + _ < _
    dsimp only
    omega

/-! ## Returning -/

section
omit [LawfulPropagator π]

theorem foldl_synchronise (e : Engine π) (ids : List Nat) :
    (ids.foldl synchronise e).space = e.space ∧ (ids.foldl synchronise e).queue = e.queue ∧
      (ids.foldl synchronise e).watchList = e.watchList ∧
      (ids.foldl synchronise e).numPropagators = e.numPropagators := by
  induction ids generalizing e with
  | nil => exact ⟨rfl, rfl, rfl, rfl⟩
  | cons id ids ih =>
    obtain ⟨space, queue, watchList, size⟩ := ih (e.synchronise id)
    exact ⟨space, queue, watchList, size.trans (Arena.size_modify _ _ _)⟩

/-- The engine in the space that it returned to, before anyone is told. -/
def returned (e : Engine π) (space : Space) : Engine π := { e with space, queue := e.queue.clear }

theorem restore_eq_ok {k : Nat} (he : e.Valid) (h : e.restore k = .ok e') :
    ∃ space, e.space.Restored k space ∧
      e' = e.posted.keys.foldl synchronise (e.returned space) := by
  unfold restore at h
  split at h
  · cases h
  · cases hr : e.space.restore k with
    | error cause =>
      rw [hr] at h
      cases h
    | ok space =>
      rw [hr] at h
      cases h
      exact ⟨space, Space.restored he.space hr, rfl⟩

/-- A level that was opened and not returned from can be returned to. -/
theorem restore_ne_error {k : Nat} (he : e.Valid) (hk : k < e.level) (cause : Fault) :
    e.restore k ≠ .error cause := by
  unfold restore
  rw [if_neg (Nat.not_le_of_lt hk), Space.restore_eq he.space hk]
  exact fun h => by cases h

/-- What returning leaves of an engine. -/
structure Restored (e : Engine π) (k : Nat) (e' : Engine π) : Prop where
  valid : e'.Valid
  space : e.space.Restored k e'.space
  numPropagators_eq : e'.numPropagators = e.numPropagators
  watchList_eq : e'.watchList = e.watchList

theorem restored {k : Nat} (he : e.Valid) (h : e.restore k = .ok e') : e.Restored k e' := by
  obtain ⟨space, hs, rfl⟩ := restore_eq_ok he h
  obtain ⟨hspace, hqueue, hwatch, hsize⟩ :=
    foldl_synchronise (e.returned space) e.posted.keys
  refine ⟨⟨?_, ?_⟩, ?_, hsize, hwatch⟩
  · rw [hspace]
    exact hs.valid
  · rw [hqueue, hsize]
    exact he.queue.clear
  · rw [hspace]
    exact hs

end

/-! ## Runs -/

/-- What an engine is about. -/
inductive Mode
  /-- The domains may be narrowed from outside, and not all events are delivered. -/
  | free
  /-- All events are delivered, and propagators are called in turn. -/
  | busy
  /-- Nobody has a reason to be called. -/
  | quiet
  /-- The domains were refuted. -/
  | dead
  deriving DecidableEq

/-- Whether the domains may be narrowed from outside. -/
def Mode.Idle (m : Mode) : Prop := m = .free ∨ m = .quiet

theorem Mode.Idle.ne_dead {m : Mode} (h : m.Idle) : m ≠ .dead := by
  rintro rfl
  rcases h with h | h <;> cases h

/-- The engine with the domains of a store. -/
def withStore (e : Engine π) (store : Store) : Engine π :=
  { e with space := { e.space with store } }

/-- What an engine can come to from a start, with the mode that it is in then. -/
inductive Run (e₀ : Engine π) : Mode → Engine π → Prop
  | start : Run e₀ .free e₀
  | narrow {m : Mode} {e : Engine π} {store : Store} (h : Run e₀ m e) (hm : m.Idle)
    (hn : e.store.Narrows store) : Run e₀ .free (e.withStore store)
  | refuted {m : Mode} {e : Engine π} (h : Run e₀ m e) : Run e₀ .dead e
  | note {m : Mode} {e : Engine π} (h : Run e₀ m e) (n : Note) : Run e₀ m (e.note n)
  | deliver {m : Mode} {e : Engine π} (h : Run e₀ m e) (hm : m.Idle) :
    Run e₀ .busy (e.deliverAll none)
  | turn {e e' : Engine π} (h : Run e₀ .busy e) (ht : e.turn = .ok true e') : Run e₀ .busy e'
  | done {e e' : Engine π} (h : Run e₀ .busy e) (ht : e.turn = .ok false e') : Run e₀ .quiet e'
  | failed {e e' : Engine π} {f : Failure} (h : Run e₀ .busy e) (ht : e.turn = .error f e') :
    Run e₀ .dead e'
  | checkpoint {e : Engine π} (h : Run e₀ .quiet e) : Run e₀ .free e.checkpoint
  | restore {m : Mode} {e e' : Engine π} {k : Nat} (h : Run e₀ m e) (hk : e₀.level ≤ k)
    (hr : e.restore k = .ok e') : Run e₀ .free e'

omit [Propagator π] [LawfulPropagator π] in
theorem keeps_withStore {store : Store} (he : e.Valid) (h : e.store.Narrows store) :
    e.Keeps (e.withStore store) :=
  have narrows : e.space.Narrows Filter.noCells ⟨store, e.space.cells⟩ := .of_store h
  ⟨⟨narrows.valid he.space, he.queue⟩, narrows.sameBelow he.space,
    fun _ _ hx => h.contains he.space.store hx, rfl, rfl⟩

namespace Run
variable {e₀ : Engine π} {m : Mode}

/-- Every step keeps what an engine is made of. -/
structure Inside (e₀ : Engine π) (m : Mode) (e : Engine π) : Prop where
  valid : e.Valid
  level_le : e₀.level ≤ e.level
  numVars_eq : e.store.numVars = e₀.store.numVars
  width_eq : ∀ v, (e.store.domain v).width = (e₀.store.domain v).width
  numPropagators_eq : e.numPropagators = e₀.numPropagators
  watchList_eq : e.watchList = e₀.watchList
  silent : m = .busy ∨ m = .quiet → e.store.events = []

omit [Propagator π] [LawfulPropagator π] in
theorem Inside.keeps {m' : Mode} (h : Inside e₀ m e) (hk : e.Keeps e')
    (hs : m' = .busy ∨ m' = .quiet → e'.store.events = []) : Inside e₀ m' e' where
  valid := hk.valid
  level_le := Nat.le_trans h.level_le (Nat.le_of_eq hk.below.level_eq.symm)
  numVars_eq := hk.below.numVars_eq.trans h.numVars_eq
  width_eq v := (hk.below.width_eq v).trans (h.width_eq v)
  numPropagators_eq := hk.numPropagators_eq.trans h.numPropagators_eq
  watchList_eq := hk.watchList_eq.trans h.watchList_eq
  silent := hs

theorem inside (h₀ : e₀.Valid) (h : Run e₀ m e) : Inside e₀ m e := by
  induction h with
  | start => exact ⟨h₀, Nat.le_refl _, rfl, fun _ => rfl, rfl, rfl, by simp⟩
  | narrow _ _ hn ih => exact ih.keeps (keeps_withStore ih.valid hn) (by simp)
  | refuted _ ih => exact { ih with silent := by simp }
  | note _ _ ih => exact { ih with valid := ⟨ih.valid.space, ih.valid.queue⟩ }
  | deliver _ _ ih => exact ih.keeps (keeps_deliverAll ih.valid) fun _ => events_deliverAll
  | turn _ ht ih =>
    have turned := (ends_turn ih.valid (ih.silent (.inl rfl))).of_ok ht
    exact ih.keeps turned.1 fun _ => turned.2.1
  | done _ ht ih =>
    have turned := (ends_turn ih.valid (ih.silent (.inl rfl))).of_ok ht
    exact ih.keeps turned.1 fun _ => turned.2.1
  | failed _ ht ih =>
    exact ih.keeps ((ends_turn ih.valid (ih.silent (.inl rfl))).of_error ht) (by simp)
  | checkpoint _ ih =>
    refine { ih with
      valid := ⟨ih.valid.space.checkpoint, ih.valid.queue⟩
      level_le := ?_
      silent := by simp }
    exact Nat.le_trans ih.level_le (Nat.le_of_lt (Nat.lt_of_lt_of_eq (Nat.lt_succ_self _)
      Space.level_checkpoint.symm))
  | @restore m e e' k _ hk hr ih =>
    have back := restored ih.valid hr
    refine ⟨back.valid, ?_, back.space.numVars_eq.trans ih.numVars_eq,
      fun v => (back.space.width_eq v).trans (ih.width_eq v), back.numPropagators_eq.trans ih.numPropagators_eq,
      back.watchList_eq.trans ih.watchList_eq, by simp⟩
    change _ ≤ e'.space.level
    rw [back.space.level_eq]
    exact hk

/-- Whatever level an engine returns to, no variable has a value there that it did not have at the
start. -/
def Confined (e₀ e : Engine π) : Prop := ∀ k, e₀.level ≤ k → ∀ v x,
  (e.space.rewind k).store.contains v x = true → e₀.store.contains v x = true

omit [Propagator π] [LawfulPropagator π] in
theorem Confined.store (h : Confined e₀ e) (he : e.Valid) (level : e₀.level ≤ e.level) {v : Var}
    {x : Int} (hx : e.store.contains v x = true) : e₀.store.contains v x = true := by
  refine h e.level level v x ?_
  rw [show e.space.rewind e.level = e.space.bare from Space.rewind_of_le he.space (Nat.le_refl _)]
  exact hx

omit [Propagator π] [LawfulPropagator π] in
theorem Confined.keeps (h : Confined e₀ e) (he : e.Valid) (level : e₀.level ≤ e.level)
    (hk : e.Keeps e') : Confined e₀ e' := by
  intro k hle v x hx
  rcases Nat.lt_or_ge k e.level with hlt | hge
  · rw [hk.below.rewind_eq k hlt] at hx
    exact h k hle v x hx
  · rw [Space.rewind_of_le hk.valid.space (Nat.le_trans (Nat.le_of_eq hk.below.level_eq) hge)] at hx
    exact h.store he level (hk.within v x hx)

theorem confined (h₀ : e₀.Valid) (h : Run e₀ m e) : Confined e₀ e := by
  have step {m : Mode} {e e' : Engine π} (h : Run e₀ m e) (ih : Confined e₀ e) (hk : e.Keeps e') :
      Confined e₀ e' := ih.keeps (h.inside h₀).valid (h.inside h₀).level_le hk
  induction h with
  | start =>
    intro k hk v x hx
    rwa [Space.rewind_of_le h₀.space hk] at hx
  | narrow h _ hn ih => exact step h ih (keeps_withStore (h.inside h₀).valid hn)
  | refuted _ ih => exact ih
  | note _ _ ih => exact ih
  | deliver h _ ih => exact step h ih (keeps_deliverAll (h.inside h₀).valid)
  | turn h ht ih =>
    have inside := h.inside h₀
    exact step h ih ((ends_turn inside.valid (inside.silent (.inl rfl))).of_ok ht).1
  | done h ht ih =>
    have inside := h.inside h₀
    exact step h ih ((ends_turn inside.valid (inside.silent (.inl rfl))).of_ok ht).1
  | failed h ht ih =>
    have inside := h.inside h₀
    exact step h ih ((ends_turn inside.valid (inside.silent (.inl rfl))).of_error ht)
  | checkpoint _ ih =>
    intro k hk v x hx
    change (Space.rewind (Space.checkpoint _) k).store.contains v x = true at hx
    rw [Space.rewind_checkpoint] at hx
    exact ih k hk v x hx
  | @restore m e e' j h hk hr ih =>
    have back := restored (h.inside h₀).valid hr
    intro k hle v x hx
    rcases Nat.le_total k j with hkj | hjk
    · rw [back.space.rewind_eq k hkj] at hx
      exact ih k hle v x hx
    · rw [Space.rewind_of_le back.valid.space (Nat.le_trans (Nat.le_of_eq back.space.level_eq) hjk),
        back.space.bare_eq] at hx
      exact ih j hk v x hx

/-- **No variable ever gets a value that it did not have at the start.** -/
theorem within (h₀ : e₀.Valid) (h : Run e₀ m e) {v : Var} {x : Int}
    (hx : e.store.contains v x = true) : e₀.store.contains v x = true :=
  (h.confined h₀).store (h.inside h₀).valid (h.inside h₀).level_le hx

omit [LawfulPropagator π] in
theorem quiet_of_silent (h : Run e₀ m e) (hm : m.Idle) (silent : e.store.events = [])
    (nobody : e.queue.pop = none) : Run e₀ .quiet e := by
  have told := h.deliver hm
  rw [deliverAll_of_silent silent] at told
  refine told.done ?_
  unfold Engine.turn
  rw [nobody]

/-- Nobody waits as long as an engine is quiet. -/
theorem pop_eq_none (h₀ : e₀.Valid) (h : Run e₀ m e) (quiet : m = .quiet) : e.queue.pop = none := by
  induction h with
  | note _ _ ih => exact ih quiet
  | done h ht =>
    have inside := h.inside h₀
    obtain ⟨-, -, rfl, nobody⟩ := (ends_turn inside.valid (inside.silent (.inl rfl))).of_ok ht
    exact nobody
  | _ => cases quiet

/-- **An engine stays quiet when a level is opened**, so that another one can be opened at once. -/
theorem quiet_of_checkpoint (h₀ : e₀.Valid) (h : Run e₀ .quiet e) : Run e₀ .quiet e.checkpoint :=
  have nobody : e.queue.pop = none := h.pop_eq_none h₀ rfl
  h.checkpoint.quiet_of_silent (.inl rfl) ((h.inside h₀).silent (.inr rfl)) nobody

/-- **Propagation comes to an end, and then nobody has a reason to be called.** -/
theorem propagate (h₀ : e₀.Valid) (h : Run e₀ m e) (hm : m.Idle) :
    Ends e.propagate (fun _ e' => Run e₀ .quiet e' ∧ e.Keeps e')
      (fun f e' => Run e₀ .dead e' ∧ e.Keeps e' ∧ ∃ u, Run e₀ .busy u ∧ u.turn = .error f e') := by
  have first : e.Keeps (e.deliverAll none) := keeps_deliverAll (h.inside h₀).valid
  refine ends_descend_done (I := fun t => Run e₀ .busy t ∧ e.Keeps t)
    (J := fun t => Run e₀ .quiet t ∧ e.Keeps t) ?_ ⟨h.deliver hm, first⟩
  rintro t ⟨ht, keeps⟩
  have inside := ht.inside h₀
  have turned := ends_turn inside.valid (inside.silent (.inl rfl))
  refine ends_of (fun more u hu => ?_) fun f u hu => ?_
  · obtain ⟨kept, -, lower⟩ := turned.of_ok hu
    cases more with
    | true => exact ⟨⟨ht.turn hu, keeps.trans kept⟩, lower⟩
    | false => exact ⟨ht.done hu, keeps.trans kept⟩
  · exact ⟨ht.failed hu, keeps.trans (turned.of_error hu), t, ht, hu⟩

theorem quiet_of_propagate (h₀ : e₀.Valid) (h : Run e₀ m e) (hm : m.Idle)
    (hp : e.propagate = .ok () e') : Run e₀ .quiet e' :=
  ((h.propagate h₀ hm).of_ok hp).1

end Run

/-! ## Assignments that are spared -/

/-- No call of a propagator, in any state that the engine can come to, takes the assignment away or
refutes domains that contain it. -/
def Spares (e₀ : Engine π) (a : Assignment) : Prop :=
  ∀ e, Run e₀ .busy e → e.store.Admits a →
    Ends (turn e) (fun _ e' => e'.store.Admits a)
      (fun f _ => ∀ source cause, f ≠ .refuted source cause)

omit [LawfulPropagator π] in
/-- **Propagation keeps what every turn keeps.** -/
theorem Run.propagate_of_turns {e₀ : Engine π} {m : Mode} {P : Store → Prop}
    {E : Failure → Engine π → Prop} (drain : ∀ s : Store, P s → P s.drain)
    (turns : ∀ t, Run e₀ .busy t → P t.store → Ends (Engine.turn t) (fun _ t' => P t'.store) E)
    (h : Run e₀ m e) (hm : m.Idle) (hP : P e.store) : Ends e.propagate (fun _ e' => P e'.store) E := by
  have delivered : P (e.deliverAll none).store := by
    rw [store, space_deliverAll]
    exact drain _ hP
  suffices ∀ n t, Run e₀ .busy t → P t.store →
      Ends (repeatAtMost Engine.turn n t) (fun _ e' => P e'.store) E from
    this _ _ (h.deliver hm) delivered
  intro n
  induction n with
  | zero => exact fun t _ ht => ht
  | succ n ih =>
    intro t ht hPt
    have turned := turns t ht hPt
    unfold repeatAtMost
    split <;> rename_i hr <;> rw [hr] at turned
    · exact turned
    · exact ih _ (ht.turn hr) turned
    · exact turned

omit [LawfulPropagator π] in
/-- Propagation keeps an assignment that is spared. -/
theorem Run.propagate_admits {e₀ : Engine π} {m : Mode} {a : Assignment} (h₀ : e₀.Spares a)
    (h : Run e₀ m e) (hm : m.Idle) (ha : e.store.Admits a) :
    Ends e.propagate (fun _ e' => e'.store.Admits a)
      (fun f _ => ∀ source cause, f ≠ .refuted source cause) :=
  h.propagate_of_turns (P := (·.Admits a)) (fun _ ha => ha) h₀ hm ha

end Engine
end BranchBound
