import BranchBound.Proofs.Construction

/-! # Contracts of propagators

A contract says what can be relied on of a propagator (`Contract`): when it is *ready* to be called,
given the events that it is still to be told about, and what holds of the space when it has *settled*,
so that it need not be called again.  A call makes it settle; it stays settled as long as others
change nothing that it watches; and when the space returns to a level at which it had settled, it is
ready again.  Besides, a call spares the assignments for which the constraint holds, and it may be sure
not to break down.

Every engine whose propagators keep their contracts keeps this: **everybody who is not settled waits
or has an event to be told** (`Engine.Kept`).  So when the engine is quiet all propagators have
settled (`Run.settled`), no propagator that is sure breaks down (`Run.turn_ne_fault`), and an
assignment for which all constraints hold is spared (`spares_of_holds`). -/
namespace BranchBound

/-- Whether an event of a variable is watched at a position. -/
def WatchedAt (watches : List (Var × List Event)) (i : Nat) (v : Var) (event : Event) : Prop :=
  ∃ events, watches[i]? = some (v, events) ∧ event ∈ events

/-- Who is told of an event of a variable when a propagator registers what it watches, at positions from `n`
on. -/
def watchersOf (id n : Nat) (watches : List (Var × List Event)) (event : Event) (v : Var) : List Watcher :=
  (watches.zipIdx n).filterMap fun ((u, events), position) =>
    if u = v ∧ event ∈ events then some ⟨id, position⟩ else none

theorem watchersOf_cons {id n : Nat} {u v : Var} {events : List Event} {watches : List (Var × List Event)}
    {event : Event} : watchersOf id n ((u, events) :: watches) event v =
      (if u = v ∧ event ∈ events then [⟨id, n⟩] else []) ++ watchersOf id (n + 1) watches event v := by
  unfold watchersOf
  by_cases told : u = v ∧ event ∈ events
  · simp only [List.zipIdx_cons, List.filterMap_cons, if_pos told, List.singleton_append]
  · simp only [List.zipIdx_cons, List.filterMap_cons, if_neg told, List.nil_append]

theorem mem_watchersOf {id id' i n : Nat} {v : Var} {watches : List (Var × List Event)} {event : Event} :
    ⟨id', i⟩ ∈ watchersOf id n watches event v ↔ id' = id ∧ n ≤ i ∧ WatchedAt watches (i - n) v event := by
  unfold watchersOf WatchedAt
  simp only [List.mem_filterMap, Prod.exists, List.mem_zipIdx_iff_le_and_getElem?_sub, Option.ite_none_right_eq_some,
    Option.some.injEq, Watcher.mk.injEq]
  constructor
  · rintro ⟨u, events, position, ⟨le, found⟩, ⟨rfl, told⟩, rfl, rfl⟩
    exact ⟨rfl, le, events, found, told⟩
  · rintro ⟨rfl, le, events, found, told⟩
    exact ⟨v, events, i, ⟨le, found⟩, ⟨rfl, told⟩, rfl, rfl⟩

namespace WatchList
variable {w w' : WatchList} {watcher : Watcher} {u v : Var} {events : List Event} {event : Event}

/-- Nobody watches a variable that is new. -/
theorem affected_grow : w.grow.affected event v = w.affected event v := by
  unfold affected
  rw [affected?_grow]
  split
  · rename_i new
    subst new
    have none : w.affected? event w.registrations.size = none := by
      simp [affected?, Arena.get?, Arena.size]
    rw [none]
    rfl
  · rfl

theorem watch_known (h : w.watch watcher u events = .ok w') :
    u < w.registrations.size ∧ w'.registrations.size = w.registrations.size := by
  unfold watch at h
  split at h
  · cases h
    exact ⟨‹_›, Arena.size_modify _ _ _⟩
  · cases h

/-- Who has registered last is told last. -/
theorem affected_watch (h : w.watch watcher u events = .ok w') :
    w'.affected event v = w.affected event v ++ if u = v ∧ event ∈ events then [watcher] else [] := by
  obtain ⟨known, -⟩ := watch_known h
  unfold affected
  rw [affected?_watch h]
  cases hw : w.affected? event v with
  | none =>
    have none : w.registrations.get? v = none := by simpa [affected?] using hw
    have away : u ≠ v := by
      rintro rfl
      simp only [Arena.get?, Array.getElem?_eq_none_iff] at none
      exact absurd known (Nat.not_lt_of_le none)
    simp [away]
  | some ws =>
    rw [Option.map_some, Option.getD_some, Option.getD_some]
    split
    · rfl
    · rw [List.append_nil]

/-- Only variables that are there are watched. -/
theorem known_of_foldlM {watches : List (Var × List Event)} {id n : Nat}
    (h : (watches.zipIdx n).foldlM
      (fun w ((v, events), position) => w.watch ⟨id, position⟩ v events) w = .ok w') :
    w'.registrations.size = w.registrations.size ∧
      ∀ v events, (v, events) ∈ watches → v < w.registrations.size := by
  induction watches generalizing w n with
  | nil =>
    cases h
    exact ⟨rfl, fun _ _ h => by cases h⟩
  | cons first watches ih =>
    obtain ⟨u, events⟩ := first
    rw [List.zipIdx_cons, List.foldlM_cons] at h
    dsimp only at h
    cases hw : w.watch ⟨id, n⟩ u events with
    | error cause => rw [hw] at h; cases h
    | ok w₁ =>
      rw [hw] at h
      obtain ⟨known, size⟩ := watch_known hw
      obtain ⟨size', others⟩ := ih h
      refine ⟨size'.trans size, fun v events' hv => ?_⟩
      rcases List.mem_cons.mp hv with heq | hv
      · cases heq
        exact known
      · exact size ▸ others v events' hv

/-- A propagator that registers what it watches is told of it after everybody else, and nobody else is told
more. -/
theorem affected_foldlM {watches : List (Var × List Event)} {id n : Nat}
    (h : (watches.zipIdx n).foldlM
      (fun w ((v, events), position) => w.watch ⟨id, position⟩ v events) w = .ok w') :
    w'.affected event v = w.affected event v ++ watchersOf id n watches event v := by
  induction watches generalizing w n with
  | nil =>
    cases h
    exact (List.append_nil _).symm
  | cons first watches ih =>
    obtain ⟨u, events⟩ := first
    rw [List.zipIdx_cons, List.foldlM_cons] at h
    dsimp only at h
    cases hw : w.watch ⟨id, n⟩ u events with
    | error cause => rw [hw] at h; cases h
    | ok w₁ =>
      rw [hw] at h
      rw [ih h, affected_watch hw, List.append_assoc, watchersOf_cons]

theorem mem_affected_foldlM {watches : List (Var × List Event)} {id id' i n : Nat}
    (h : (watches.zipIdx n).foldlM
      (fun w ((v, events), position) => w.watch ⟨id, position⟩ v events) w = .ok w') :
    ⟨id', i⟩ ∈ w'.affected event v ↔ ⟨id', i⟩ ∈ w.affected event v ∨
      (id' = id ∧ n ≤ i ∧ WatchedAt watches (i - n) v event) := by
  rw [affected_foldlM h, List.mem_append, mem_watchersOf]

end WatchList

/-- What can be relied on of a propagator. -/
structure Contract (π : Type) [Propagator π] where
  watches : List (Var × List Event)
  /-- The trailed integers that it assigns. -/
  own : Nat → Prop
  /-- Whether it is this propagator, whatever its memory is. -/
  Is : π → Prop
  /-- What it needs when it is called, given what it is still to be told. -/
  Ready : π → Space → List (Nat × Event) → Prop
  /-- What holds as long as it need not be called. -/
  Settled : Space → Prop
  /-- The assignments that it is meant to spare. -/
  Holds : Assignment → Prop
  /-- Whether it is sure not to break down. -/
  Sure : Prop
  is_of_ready {p : π} {s : Space} {due : List (Nat × Event)} : Ready p s due → Is p
  ready_mono {p : π} {s : Space} {due due' : List (Nat × Event)} : Ready p s due → due ⊆ due' →
    Ready p s due'
  ready_congr {p : π} {s t : Space} {due : List (Nat × Event)} : Ready p s due → t.bare = s.bare →
    Ready p t due
  settled_congr {s t : Space} : Settled s → t.bare = s.bare → Settled t
  /-- What others change is told. -/
  ready_narrows {p : π} {s t : Space} {due due' : List (Nat × Event)} {other : Nat → Prop}
    {new : List (Var × Event)} : Ready p s due → s.Valid → s.Narrows other t →
    (∀ i, own i → ¬ other i) → Told new s.store t.store → due ⊆ due' →
    (∀ i v event, (v, event) ∈ new → WatchedAt watches i v event → (i, event) ∈ due') →
    Ready p t due'
  /-- What is not watched does not matter. -/
  settled_narrows {s t : Space} {other : Nat → Prop} {new : List (Var × Event)} : Settled s →
    s.Valid → s.Narrows other t → (∀ i, own i → ¬ other i) → Told new s.store t.store →
    (∀ i v event, (v, event) ∈ new → ¬ WatchedAt watches i v event) → Settled t
  notified {p : π} {s : Space} {i : Nat} {v : Var} {event : Event} {due : List (Nat × Event)} :
    WatchedAt watches i v event → Ready p s ((i, event) :: due) →
    Ready (Propagator.notify p s i event).1 s due ∧ (Propagator.notify p s i event).2 = true
  synchronised {p : π} {s : Space} : Is p → s.Valid → Settled s →
    Ready (Propagator.synchronise p s) s []
  propagated {p : π} {s : Space} : Ready p s [] → s.Valid →
    Ends (Propagator.propagate p s)
      (fun _ r => s.Narrows own r.2 ∧ Ready r.1 r.2 [] ∧ Settled r.2)
      (fun halt r => s.Narrows own r.2 ∧ Is r.1 ∧ (Sure → ∀ cause, halt ≠ .fault cause))
  spares {p : π} {s : Space} {a : Assignment} : Ready p s [] → s.Valid → s.store.Admits a →
    Holds a → Ends (Propagator.propagate p s) (fun _ r => r.2.store.Admits a)
      (fun halt _ => ∀ cause, halt ≠ .inconsistent cause)

namespace Contract
variable {π : Type} [Propagator π]

/-- Whether somebody is ready does not depend on the trailed integers of others. -/
def Private (k : Contract π) : Prop :=
  ∀ p s t due, k.Ready p s due → t.store = s.store → s.cells.values.size ≤ t.cells.values.size →
    (∀ i, k.own i → t.cells.value i = s.cells.value i) → k.Ready p t due

/-- The contract of a propagator that is attached to a space: its trailed integers are new, and it is ready
at first. -/
structure Attaches (k : Contract π) (p : π) (s : Space) : Prop where
  watches : k.watches = Propagator.watches p
  own : ∀ i, k.own i → s.cells.values.size ≤ i ∧
    i < s.cells.values.size + (Propagator.cells p).length
  ready : k.Ready (Propagator.attach p s.cells.values.size s.store)
    ⟨s.store, (Propagator.cells p).foldl Cells.grow s.cells⟩ []
  keptPrivate : k.Private

end Contract

namespace Engine
variable {π : Type}

/-- What a propagator is still to be told, of some deliveries. -/
def dueOf (ds : List Delivery) (id : Nat) : List (Nat × Event) :=
  (ds.filter (·.watcher.propagator = id)).map fun d => (d.watcher.position, d.event)

theorem mem_dueOf {ds : List Delivery} {id i : Nat} {event : Event} :
    (i, event) ∈ dueOf ds id ↔ ⟨⟨id, i⟩, event⟩ ∈ ds := by
  simp only [dueOf, List.mem_map, List.mem_filter, decide_eq_true_eq, Prod.mk.injEq]
  constructor
  · rintro ⟨⟨⟨id', i'⟩, event'⟩, ⟨hd, rfl⟩, rfl, rfl⟩
    exact hd
  · intro hd
    exact ⟨_, ⟨hd, rfl⟩, rfl, rfl⟩

theorem dueOf_cons_self {d : Delivery} {ds : List Delivery} :
    dueOf (d :: ds) d.watcher.propagator =
      (d.watcher.position, d.event) :: dueOf ds d.watcher.propagator := by
  simp [dueOf]

theorem dueOf_cons_ne {d : Delivery} {ds : List Delivery} {id : Nat}
    (h : d.watcher.propagator ≠ id) : dueOf (d :: ds) id = dueOf ds id := by
  simp [dueOf, h]

theorem mem_deliveries {e : Engine π} {id i : Nat} {event : Event} :
    (⟨⟨id, i⟩, event⟩ : Delivery) ∈ e.deliveries ↔
      ∃ v, (v, event) ∈ e.store.events ∧ ⟨id, i⟩ ∈ e.watchList.affected event v := by
  simp only [deliveries, Store.pending, List.mem_flatMap, List.mem_reverse, List.mem_map,
    Prod.exists, Delivery.mk.injEq]
  constructor
  · rintro ⟨v, event', he, watcher, hw, rfl, rfl⟩
    exact ⟨v, he, hw⟩
  · rintro ⟨v, he, hw⟩
    exact ⟨v, event, he, _, hw, rfl, rfl⟩

variable [Propagator π]

/-- Everybody is told what they watch, and no two propagators assign the same trailed integer. -/
structure Served (cs : List (Contract π)) (e : Engine π) : Prop where
  length_eq : e.numPropagators = cs.length
  mem_affected : ∀ id i event v, ⟨id, i⟩ ∈ e.watchList.affected event v ↔
    ∃ c, cs[id]? = some c ∧ WatchedAt c.watches i v event
  disjoint : ∀ (id id' : Nat) (c c' : Contract π), id ≠ id' → cs[id]? = some c → cs[id']? = some c' →
    ∀ i, c.own i → ¬ c'.own i

/-- **Everybody who is not settled waits or has an event to be told**, unless the domains were
refuted; and at all levels that can be returned to everybody has settled. -/
structure Kept (cs : List (Contract π)) (base : Nat) (m : Mode) (e : Engine π) : Prop where
  is : ∀ id c p, cs[id]? = some c → e.posted.get? id = some p → c.Is p.propagator
  saved : ∀ k, base ≤ k → k < e.level → ∀ c ∈ cs, c.Settled (e.space.rewind k)
  ready : m ≠ .dead → ∀ id c p, cs[id]? = some c → e.posted.get? id = some p →
    c.Ready p.propagator e.space (dueOf e.deliveries id)
  awake : m ≠ .dead → ∀ id c, cs[id]? = some c →
    id ∈ e.queue.waits ∨ dueOf e.deliveries id ≠ [] ∨ c.Settled e.space
  settled : m = .quiet → ∀ c ∈ cs, c.Settled e.space

variable {cs : List (Contract π)} {base : Nat} {e e' : Engine π} {m : Mode}

/-! ## Narrowing from outside -/

/-- What is told when domains shrink. -/
theorem due_of_narrows {own : Nat → Prop} (hs : Served cs e) {space : Space}
    (hw : e'.watchList = e.watchList) (hspace : e'.space = space) (he : e.Valid)
    (hn : e.space.Narrows own space) : ∃ new, Told new e.store space.store ∧
      (∀ id, dueOf e.deliveries id ⊆ dueOf e'.deliveries id) ∧
      ∀ id c, cs[id]? = some c → ∀ i v event, (v, event) ∈ new → WatchedAt c.watches i v event →
        (i, event) ∈ dueOf e'.deliveries id := by
  obtain ⟨new, hnew, told, -, -⟩ := hn.told he.space.store
  have events : e'.store.events = new ++ e.store.events := by
    rw [store, hspace]
    exact hnew
  refine ⟨new, told, fun id => ?_, fun id c hc i v event hv hwat => ?_⟩
  · rintro ⟨i, event⟩ hi
    rw [mem_dueOf, mem_deliveries] at hi ⊢
    obtain ⟨v, hv, hmem⟩ := hi
    exact ⟨v, events ▸ List.mem_append_right new hv, hw ▸ hmem⟩
  · rw [mem_dueOf, mem_deliveries, events, hw]
    exact ⟨v, List.mem_append_left _ hv, (hs.mem_affected id i event v).mpr ⟨c, hc, hwat⟩⟩

/-- A propagator that need not be called has no reason to be, if it is told nothing. -/
theorem settled_of_not_due {own : Nat → Prop} {c : Contract π} {id : Nat} {space : Space}
    {new : List (Var × Event)} (he : e.Valid) (hn : e.space.Narrows own space)
    (hown : ∀ i, c.own i → ¬ own i) (told : Told new e.store space.store)
    (due : ∀ i v event, (v, event) ∈ new → WatchedAt c.watches i v event →
      (i, event) ∈ dueOf e'.deliveries id) (h : c.Settled e.space) :
    dueOf e'.deliveries id ≠ [] ∨ c.Settled space := by
  by_cases hd : dueOf e'.deliveries id = []
  · refine .inr (c.settled_narrows h he.space hn hown told fun i v event hv hwat => ?_)
    have := due i v event hv hwat
    rw [hd] at this
    cases this
  · exact .inl hd

/-- What is settled at the levels below stays so. -/
theorem Kept.saved_narrows {own : Nat → Prop} {t : Space} (h : Kept cs base m e) (he : e.Valid)
    (narrows : e.space.Narrows own t) (k : Nat) (hb : base ≤ k) (hk : k < t.level) (c : Contract π)
    (hc : c ∈ cs) : c.Settled (t.rewind k) := by
  have hk' : k < e.level := Nat.lt_of_lt_of_eq hk narrows.level_eq
  rw [narrows.rewind_eq he.space hk']
  exact h.saved k hb hk' c hc

theorem Kept.narrow {store : Store} (h : Kept cs base m e) (hs : Served cs e) (he : e.Valid)
    (hm : m.Idle) (hn : e.store.Narrows store) : Kept cs base .free (e.withStore store) := by
  have alive := hm.ne_dead
  have narrows : e.space.Narrows Filter.noCells (e.withStore store).space := .of_store hn
  have nobody (c : Contract π) : ∀ i, c.own i → ¬ Filter.noCells i := fun _ _ h => h
  obtain ⟨new, told, sub, due⟩ := due_of_narrows hs
    (show (e.withStore store).watchList = e.watchList from rfl) rfl he narrows
  refine ⟨h.is, h.saved_narrows he narrows, fun _ id c p hc hp => ?_, fun _ id c hc => ?_,
    fun h => by cases h⟩
  · exact c.ready_narrows (h.ready alive id c p hc hp) he.space narrows (nobody c) told (sub id)
      (due id c hc)
  · rcases h.awake alive id c hc with waits | hdue | settled
    · exact .inl waits
    · refine .inr (.inl fun hnil => hdue ?_)
      exact List.subset_nil.mp (hnil ▸ sub id)
    · exact .inr (settled_of_not_due he narrows (nobody c) told (due id c hc) settled)

/-! ## Deliveries -/

/-- The invariant while the events of a space are delivered: who is not settled waits, or is still to
be told of something, unless it caused that itself. -/
structure Delivering (cs : List (Contract π)) (source : Option Nat) (s : Space)
    (ds : List Delivery) (e : Engine π) : Prop where
  space_eq : e.space = s
  valid : e.Valid
  is : ∀ id c p, cs[id]? = some c → e.posted.get? id = some p → c.Is p.propagator
  ready : ∀ id c p, cs[id]? = some c → e.posted.get? id = some p →
    c.Ready p.propagator s (dueOf ds id)
  awake : ∀ id c, cs[id]? = some c →
    id ∈ e.queue.waits ∨ (source ≠ some id ∧ dueOf ds id ≠ []) ∨ c.Settled s

theorem Delivering.step {source : Option Nat} {s : Space} {d : Delivery} {ds : List Delivery}
    (h : Delivering cs source s (d :: ds) e) (length : e.numPropagators = cs.length)
    (watched : ∀ c, cs[d.watcher.propagator]? = some c →
      ∃ v, WatchedAt c.watches d.watcher.position v d.event) :
    Delivering cs source s ds (e.deliver source d) := by
  have notified (c : Contract π) (hc : cs[d.watcher.propagator]? = some c) :
      ∃ p, e.posted.get? d.watcher.propagator = some p ∧
        c.Ready (Propagator.notify p.propagator e.space d.watcher.position d.event).1 s
          (dueOf ds d.watcher.propagator) ∧
        (Propagator.notify p.propagator e.space d.watcher.position d.event).2 = true := by
    obtain ⟨hlt, -⟩ := List.getElem?_eq_some_iff.mp hc
    obtain ⟨p, hp⟩ := posted_eq_some (length.symm ▸ hlt)
    obtain ⟨v, hv⟩ := watched c hc
    have ready := h.ready _ c p hc hp
    rw [dueOf_cons_self] at ready
    rw [h.space_eq]
    exact ⟨p, hp, c.notified hv ready⟩
  have told (id : Nat) (c : Contract π) (p : Posted π) (hc : cs[id]? = some c)
      (hpost : (e.deliver source d).posted.get? id = some p) :
      c.Ready p.propagator s (dueOf ds id) := by
    by_cases hid : d.watcher.propagator = id
    · subst id
      obtain ⟨p', hp', ready, -⟩ := notified c hc
      rw [get?_deliver_self, hp'] at hpost
      obtain rfl := Option.some.inj hpost
      exact ready
    · rw [get?_deliver_ne hid] at hpost
      rw [← dueOf_cons_ne hid]
      exact h.ready id c p hc hpost
  refine ⟨space_deliver.trans h.space_eq, h.valid.deliver,
    fun id c p hc hpost => c.is_of_ready (told id c p hc hpost), told, fun id c hc => ?_⟩
  by_cases hid : d.watcher.propagator = id
  · subst id
    rcases h.awake _ c hc with waits | ⟨others, -⟩ | settled
    · exact .inl (mem_waits_deliver h.valid waits)
    · obtain ⟨p, hp, -, wanted⟩ := notified c hc
      exact .inl (mem_waits_deliver_self h.valid hp wanted others)
    · exact .inr (.inr settled)
  · rw [← dueOf_cons_ne hid]
    exact (h.awake id c hc).imp_left (mem_waits_deliver h.valid)

theorem Delivering.all {source : Option Nat} {s : Space} {ds : List Delivery}
    (h : Delivering cs source s ds e) (length : e.numPropagators = cs.length)
    (watched : ∀ d ∈ ds, ∀ c, cs[d.watcher.propagator]? = some c →
      ∃ v, WatchedAt c.watches d.watcher.position v d.event) :
    Delivering cs source s [] (ds.foldl (deliver source) e) := by
  induction ds generalizing e with
  | nil => exact h
  | cons d ds ih =>
    rw [List.foldl_cons]
    exact ih (h.step length (watched d List.mem_cons_self)) (numPropagators_deliver.trans length)
      fun d' hd' => watched d' (List.mem_cons_of_mem d hd')

theorem Served.watched (hs : Served cs e) {d : Delivery} (hd : d ∈ e.deliveries) {c : Contract π}
    (hc : cs[d.watcher.propagator]? = some c) : ∃ v, WatchedAt c.watches d.watcher.position v d.event := by
  obtain ⟨⟨id, i⟩, event⟩ := d
  obtain ⟨v, -, hmem⟩ := mem_deliveries.mp hd
  obtain ⟨c', hc', hw⟩ := (hs.mem_affected id i event v).mp hmem
  obtain rfl : c = c' := Option.some.inj (hc.symm.trans hc')
  exact ⟨v, hw⟩

omit [Propagator π] in
theorem deliveries_of_silent (h : e.store.events = []) : e.deliveries = [] := by
  simp [deliveries, Store.pending, h]

/-- When everything is delivered, who is not settled waits. -/
theorem Delivering.kept {source : Option Nat} {s : Space} (h : Delivering cs source s [] e)
    (silent : e.store.events = [])
    (saved : ∀ k, base ≤ k → k < s.level → ∀ c ∈ cs, c.Settled (s.rewind k)) :
    Kept cs base .busy e := by
  have none (id : Nat) : dueOf e.deliveries id = [] := by rw [deliveries_of_silent silent]; rfl
  refine ⟨h.is, fun k hb hk c hc => ?_, fun _ id c p hc hp => ?_, fun _ id c hc => ?_,
    fun h => by cases h⟩
  · change k < e.space.level at hk
    rw [h.space_eq] at hk ⊢
    exact saved k hb hk c hc
  · rw [none, h.space_eq]
    exact h.ready id c p hc hp
  · rw [h.space_eq]
    exact (h.awake id c hc).imp_right fun h => .inr (h.resolve_left fun h => h.2 rfl)

theorem Kept.deliver (h : Kept cs base m e) (hs : Served cs e) (he : e.Valid) (hm : m.Idle) :
    Kept cs base .busy (e.deliverAll none) := by
  have alive := hm.ne_dead
  have start : Delivering cs none e.space.drain e.deliveries { e with space := e.space.drain } := by
    refine ⟨rfl, ⟨he.space.drain, he.queue⟩, h.is, fun id c p hc hp => ?_, fun id c hc => ?_⟩
    · exact c.ready_congr (h.ready alive id c p hc hp) rfl
    · rcases h.awake alive id c hc with waits | due | settled
      · exact .inl waits
      · exact .inr (.inl ⟨by simp, due⟩)
      · exact .inr (.inr (c.settled_congr settled rfl))
  exact (start.all hs.length_eq fun d hd c hc => hs.watched hd hc).kept events_deliverAll h.saved

/-! ## Turns -/

/-- After a call that ended well, the propagator that was called has settled, and all others are told
what it changed. -/
theorem Kept.called {id : Nat} {p : Posted π} {c : Contract π} {called : Engine π}
    {after : π × Space} (h : Kept cs base .busy e) (hs : Served cs e) (he : e.Valid)
    (silent : e.store.events = []) (hp : e.posted.get? id = some p) (hc : cs[id]? = some c)
    (narrows : e.space.Narrows c.own after.2) (ready : c.Ready after.1 after.2 [])
    (settled : c.Settled after.2) (keeps : e.Keeps called) (space : called.space = after.2)
    (posted : ∀ id', called.posted.get? id' =
      if id = id' then (e.posted.get? id').map fun _ => { p with propagator := after.1 }
      else e.posted.get? id')
    (waits : ∀ id', id' ∈ e.queue.waits → id' ≠ id → id' ∈ called.queue.waits) :
    Delivering cs (some id) called.space.drain called.deliveries
      { called with space := called.space.drain } := by
  have none (id : Nat) : dueOf e.deliveries id = [] := by rw [deliveries_of_silent silent]; rfl
  have bare : called.space.drain.bare = after.2.bare := space ▸ rfl
  obtain ⟨new, told, sub, due⟩ := due_of_narrows hs keeps.watchList_eq space he narrows
  have apart {id' : Nat} {c' : Contract π} (hid : id ≠ id') (hc' : cs[id']? = some c') :
      ∀ i, c'.own i → ¬ c.own i := hs.disjoint id' id c' c (Ne.symm hid) hc' hc
  have ready' (id' : Nat) (c' : Contract π) (p' : Posted π) (hc' : cs[id']? = some c')
      (hp' : called.posted.get? id' = some p') :
      c'.Ready p'.propagator called.space.drain (dueOf called.deliveries id') := by
    rw [posted] at hp'
    split at hp'
    · rename_i hid
      subst hid
      obtain rfl : c = c' := Option.some.inj (hc.symm.trans hc')
      rw [hp] at hp'
      cases hp'
      exact c.ready_congr (c.ready_mono ready (List.nil_subset _)) bare
    · rename_i hid
      exact c'.ready_congr (c'.ready_narrows (h.ready (by simp) id' c' p' hc' hp') he.space
        narrows (apart hid hc') told (sub id') (due id' c' hc')) bare
  refine ⟨rfl, ⟨keeps.valid.space.drain, keeps.valid.queue⟩,
    fun id' c' p' hc' hp' => c'.is_of_ready (ready' id' c' p' hc' hp'), ready',
    fun id' c' hc' => ?_⟩
  by_cases hid : id = id'
  · subst hid
    obtain rfl : c = c' := Option.some.inj (hc.symm.trans hc')
    exact .inr (.inr (c.settled_congr settled bare))
  · have source : some id ≠ some id' := fun h => hid (Option.some.inj h)
    rcases h.awake (by simp) id' c' hc' with hwaits | hdue | hsettled
    · exact .inl (waits id' hwaits (Ne.symm hid))
    · exact absurd (none id') hdue
    · exact .inr ((settled_of_not_due he narrows (apart hid hc') told (due id' c' hc') hsettled).imp
        (fun hd => ⟨source, hd⟩) fun hd => c'.settled_congr hd bare)

/-- A call of the head of those who wait, who is off the queue then. -/
theorem Kept.call {id : Nat} {p : Posted π} {queue : Queue} (h : Kept cs base .busy e)
    (hs : Served cs e) (he : e.Valid) (silent : e.store.events = [])
    (hq : e.queue.pop = some (id, queue)) (valid : queue.Valid e.numPropagators)
    (hp : e.posted.get? id = some p) :
    Ends (({ e with queue } : Engine π).call id p) (fun _ => Kept cs base .busy)
      (fun f e' => Kept cs base .dead e' ∧ ((∀ c ∈ cs, c.Sure) → ∀ cause, f ≠ .fault cause)) := by
  obtain ⟨c, hc⟩ : ∃ c, cs[id]? = some c :=
    ⟨_, List.getElem?_eq_getElem (hs.length_eq ▸ lt_numPropagators_of hp)⟩
  have popped : e.Keeps { e with queue } :=
    ⟨⟨he.space, valid⟩, .refl, fun _ _ hx => hx, rfl, rfl⟩
  have ready := h.ready (by simp) id c p hc hp
  rw [deliveries_of_silent silent] at ready
  have result := c.propagated ready he.space
  have posted (after : π × Space) (id' : Nat) :
      (({ e with queue } : Engine π).called id p after).posted.get? id' =
        if id = id' then (e.posted.get? id').map fun _ => { p with propagator := after.1 }
        else e.posted.get? id' := Arena.get?_set _ _ _ _
  have waits (id' : Nat) (hw : id' ∈ e.queue.waits) (hid : id' ≠ id) : id' ∈ queue.waits := by
    rw [he.queue.waits_of_pop hq] at hw
    exact (List.mem_cons.mp hw).resolve_left hid
  unfold Engine.call
  dsimp only
  cases hr : Propagator.propagate p.propagator e.space with
  | ok _ after =>
    rw [hr] at result
    obtain ⟨narrows, ready', settled'⟩ := result
    have keeps : e.Keeps (({ e with queue } : Engine π).called id p after) :=
      popped.trans (keeps_called popped.valid narrows)
    have start := h.called hs he silent hp hc narrows ready' settled' keeps rfl (posted after) waits
    have served : Served cs (({ e with queue } : Engine π).called id p after) :=
      ⟨keeps.numPropagators_eq.trans hs.length_eq, hs.mem_affected, hs.disjoint⟩
    have delivered := start.all served.length_eq fun d hd c hc => served.watched hd hc
    exact delivered.kept events_deliverAll fun k hb hk c hc => h.saved_narrows he narrows k hb hk c hc
  | error halt after =>
    rw [hr] at result
    obtain ⟨narrows, is', unfaulty⟩ := result
    -- whatever ended the call, what is left is good for returning to an earlier level
    have is (id' : Nat) (c' : Contract π) (p' : Posted π) (hc' : cs[id']? = some c')
        (hp' : (({ e with queue } : Engine π).called id p after).posted.get? id' = some p') :
        c'.Is p'.propagator := by
      rw [posted] at hp'
      split at hp'
      · rename_i hid
        subst hid
        obtain rfl : c = c' := Option.some.inj (hc.symm.trans hc')
        rw [hp] at hp'
        cases hp'
        exact is'
      · exact h.is id' c' p' hc' hp'
    have saved := h.saved_narrows he narrows
    cases halt with
    | inconsistent cause =>
      exact ⟨⟨is, fun k hb hk c hc => saved k hb hk c hc, fun h => absurd rfl h, fun h => absurd rfl h,
        fun h => by cases h⟩, fun _ cause h => by cases h⟩
    | fault cause =>
      exact ⟨⟨is, saved, fun h => absurd rfl h, fun h => absurd rfl h, fun h => by cases h⟩,
        fun sure => absurd rfl (unfaulty (sure c (List.mem_of_getElem? hc)) cause)⟩

/-- If nobody waits and nothing is to be told, everybody has settled. -/
theorem Kept.rest (h : Kept cs base .busy e) (he : e.Valid) (silent : e.store.events = [])
    (nobody : e.queue.pop = none) : Kept cs base .quiet e := by
  refine ⟨h.is, h.saved, fun _ => h.ready (by simp), fun _ => h.awake (by simp), fun _ c hc => ?_⟩
  obtain ⟨id, hid⟩ := List.getElem?_of_mem hc
  rcases h.awake (by simp) id c hid with waits | due | settled
  · rw [he.queue.pop_eq_none_iff.mp nobody] at waits
    cases waits
  · rw [deliveries_of_silent silent] at due
    exact absurd rfl due
  · exact settled

theorem Kept.turn (h : Kept cs base .busy e) (hs : Served cs e) (he : e.Valid)
    (silent : e.store.events = []) :
    Ends (turn e) (fun more e' => Kept cs base (if more then .busy else .quiet) e')
      (fun f e' => Kept cs base .dead e' ∧ ((∀ c ∈ cs, c.Sure) → ∀ cause, f ≠ .fault cause)) :=
  ends_turn_of he (h.rest he silent) fun _ _ _ hq valid hp => h.call hs he silent hq valid hp

/-! ## Levels -/

theorem Kept.checkpoint (h : Kept cs base .quiet e) (he : e.Valid) :
    Kept cs base .free e.checkpoint where
  is := h.is
  saved k hb hk c hc := by
    change c.Settled (e.space.checkpoint.rewind k)
    rw [Space.rewind_checkpoint]
    rcases Nat.lt_or_ge k e.level with hlt | hge
    · exact h.saved k hb hlt c hc
    · rw [Space.rewind_of_le he.space hge]
      exact c.settled_congr (h.settled rfl c hc) rfl
  ready _ id c p hc hp := c.ready_congr (h.ready (by simp) id c p hc hp) rfl
  awake _ id c hc := .inr (.inr (c.settled_congr (h.settled rfl c (List.mem_of_getElem? hc)) rfl))
  settled h := by cases h

/-- When all propagators are told that the space returned, all are ready again. -/
theorem ready_foldl_synchronise (ids : List Nat) (he : e.Valid)
    (is : ∀ id c p, cs[id]? = some c → e.posted.get? id = some p → c.Is p.propagator)
    (settled : ∀ c ∈ cs, c.Settled e.space) (id : Nat) (c : Contract π) (p : Posted π)
    (hc : cs[id]? = some c) (hp : (ids.foldl synchronise e).posted.get? id = some p)
    (hid : id ∈ ids ∨ ∀ q, e.posted.get? id = some q → c.Ready q.propagator e.space []) :
    c.Ready p.propagator e.space [] := by
  induction ids generalizing e with
  | nil =>
    exact hid.elim (fun h => by cases h) fun h => h p hp
  | cons first ids ih =>
    have lookup (id : Nat) : (e.synchronise first).posted.get? id =
        if first = id then (e.posted.get? id).map fun p =>
          { p with propagator := Propagator.synchronise p.propagator e.space }
        else e.posted.get? id := Arena.get?_modify _ _ _ _
    have ready (id : Nat) (c : Contract π) (q : Posted π) (hc : cs[id]? = some c)
        (hq : (e.synchronise first).posted.get? id = some q)
        (h : first = id ∨ ∀ q, e.posted.get? id = some q → c.Ready q.propagator e.space []) :
        c.Ready q.propagator e.space [] := by
      rw [lookup] at hq
      split at hq
      · obtain ⟨q', hq', rfl⟩ := Option.map_eq_some_iff.mp hq
        exact c.synchronised (is id c q' hc hq') he.space (settled c (List.mem_of_getElem? hc))
      · rename_i hne
        exact h.resolve_left hne q hq
    have valid : (e.synchronise first).Valid :=
      ⟨he.space, he.queue.mono (Nat.le_of_eq (Arena.size_modify _ _ _).symm)⟩
    rw [List.foldl_cons] at hp
    refine ih (e := e.synchronise first) valid (fun id' c' q hc' hq => ?_) settled hp ?_
    · by_cases hfirst : first = id'
      · exact c'.is_of_ready (ready id' c' q hc' hq (.inl hfirst))
      · rw [lookup, if_neg hfirst] at hq
        exact is id' c' q hc' hq
    · by_cases hfirst : first = id
      · exact .inr fun q hq => ready id c q hc hq (.inl hfirst)
      · rcases hid with hid | hid
        · exact .inl ((List.mem_cons.mp hid).resolve_left (Ne.symm hfirst))
        · exact .inr fun q hq => ready id c q hc hq (.inr hid)

theorem Kept.restore {k : Nat} (h : Kept cs base m e) (hs : Served cs e) (he : e.Valid)
    (hb : base ≤ k) (hr : e.restore k = .ok e') : Kept cs base .free e' := by
  have back := Engine.restored he hr
  obtain ⟨space, hspace, rfl⟩ := restore_eq_ok he hr
  obtain ⟨same, waits, -, size⟩ := foldl_synchronise (e.returned space) e.posted.keys
  have settled (c : Contract π) (hc : c ∈ cs) : c.Settled space := by
    have := h.saved k hb hspace.lt_level c hc
    rw [← hspace.bare_eq] at this
    exact c.settled_congr this rfl
  have silent : (e.posted.keys.foldl synchronise (e.returned space)).store.events = [] := by
    rw [store, same]
    exact hspace.events_eq
  have none (id : Nat) : dueOf (e.posted.keys.foldl synchronise (e.returned space)).deliveries id =
      [] := by
    rw [deliveries_of_silent silent]
    rfl
  have ready (id : Nat) (c : Contract π) (p : Posted π) (hc : cs[id]? = some c)
      (hp : (e.posted.keys.foldl synchronise (e.returned space)).posted.get? id = some p) :
      c.Ready p.propagator space [] := by
    obtain ⟨hlt, -⟩ := List.getElem?_eq_some_iff.mp hc
    refine ready_foldl_synchronise (e := e.returned space) e.posted.keys
      ⟨hspace.valid, he.queue.clear⟩ h.is settled id c p hc hp (.inl ?_)
    exact List.mem_range.mpr (Nat.lt_of_lt_of_eq hlt hs.length_eq.symm)
  refine ⟨fun id c p hc hp => c.is_of_ready (ready id c p hc hp), fun j hj hlt c hc => ?_,
    fun _ id c p hc hp => ?_, fun _ id c hc => .inr (.inr ?_), fun h => by cases h⟩
  · have level : j < k := Nat.lt_of_lt_of_eq hlt back.space.level_eq
    rw [back.space.rewind_eq j (Nat.le_of_lt level)]
    exact h.saved j hj (Nat.lt_trans level hspace.lt_level) c hc
  · rw [none, same]
    exact ready id c p hc hp
  · rw [same]
    exact settled c (List.mem_of_getElem? hc)

/-! ## Runs -/

/-- Every propagator of an engine keeps a contract from here on. -/
structure Meets (cs : List (Contract π)) (e : Engine π) : Prop where
  valid : e.Valid
  served : Served cs e
  kept : Kept cs e.level .free e

variable [LawfulPropagator π] {e₀ : Engine π}

/-- **What every step keeps, a run keeps**, also of the levels below its start. -/
theorem Run.kept_of_le {base : Nat} (valid : e₀.Valid) (served₀ : Served cs e₀) (kept : Kept cs base .free e₀)
    (le : base ≤ e₀.level) (h : Run e₀ m e) : Served cs e ∧ Kept cs base m e := by
  have served {m : Mode} {e : Engine π} (h : Run e₀ m e) : Served cs e := by
    have inside := h.inside valid
    exact ⟨inside.numPropagators_eq.trans served₀.length_eq, inside.watchList_eq ▸ served₀.mem_affected,
      served₀.disjoint⟩
  refine ⟨served h, ?_⟩
  induction h with
  | start => exact kept
  | narrow h hm hn ih => exact ih.narrow (served h) (h.inside valid).valid hm hn
  | refuted _ ih => exact ⟨ih.is, ih.saved, fun h => absurd rfl h, fun h => absurd rfl h,
      fun h => by cases h⟩
  | note _ _ ih => exact ⟨ih.is, ih.saved, ih.ready, ih.awake, ih.settled⟩
  | deliver h hm ih => exact ih.deliver (served h) (h.inside valid).valid hm
  | turn h ht ih =>
    have inside := h.inside valid
    exact (ih.turn (served h) inside.valid (inside.silent (.inl rfl))).of_ok ht
  | done h ht ih =>
    have inside := h.inside valid
    exact (ih.turn (served h) inside.valid (inside.silent (.inl rfl))).of_ok ht
  | failed h ht ih =>
    have inside := h.inside valid
    exact ((ih.turn (served h) inside.valid (inside.silent (.inl rfl))).of_error ht).1
  | checkpoint h ih => exact ih.checkpoint (h.inside valid).valid
  | restore h hk hr ih => exact ih.restore (served h) (h.inside valid).valid (Nat.le_trans le hk) hr

theorem Run.kept (h₀ : Meets cs e₀) (h : Run e₀ m e) : Served cs e ∧ Kept cs e₀.level m e :=
  h.kept_of_le h₀.valid h₀.served h₀.kept (Nat.le_refl _)

/-- **When an engine is quiet, all propagators have settled.** -/
theorem Run.settled (h₀ : Meets cs e₀) (h : Run e₀ .quiet e) : ∀ c ∈ cs, c.Settled e.space :=
  (h.kept h₀).2.settled rfl

/-- **No propagator breaks down**, if all are sure not to. -/
theorem Run.turn_ne_fault (h₀ : Meets cs e₀) (sure : ∀ c ∈ cs, c.Sure) (h : Run e₀ .busy e)
    (cause : Fault) : e.turn ≠ .error (.fault cause) e' := by
  intro ht
  have inside := h.inside h₀.valid
  obtain ⟨served, kept⟩ := h.kept h₀
  exact ((kept.turn served inside.valid (inside.silent (.inl rfl))).of_error ht).2 sure cause rfl

/-- **What every propagator spares that is ready, a turn spares.** -/
theorem Run.ends_turn_spared (h₀ : Meets cs e₀) {P : Store → Prop} (drain : ∀ s : Store, P s → P s.drain)
    (spares : ∀ c ∈ cs, ∀ p (s : Space), c.Ready p s [] → s.Valid → P s.store →
      Ends (Propagator.propagate p s) (fun _ r => P r.2.store) fun halt _ => ∀ cause, halt ≠ .inconsistent cause)
    (h : Run e₀ .busy e) (hP : P e.store) :
    Ends (Engine.turn e) (fun _ e' => P e'.store) fun f _ => ∀ source cause, f ≠ .refuted source cause := by
  have inside := h.inside h₀.valid
  obtain ⟨served, kept⟩ := h.kept h₀
  refine ends_turn_of inside.valid (fun _ => hP) fun id queue p _ _ hp => ?_
  obtain ⟨c, hc⟩ : ∃ c, cs[id]? = some c :=
    ⟨_, List.getElem?_eq_getElem (served.length_eq ▸ lt_numPropagators_of hp)⟩
  have ready := kept.ready (by simp) id c p hc hp
  rw [deliveries_of_silent (inside.silent (.inl rfl))] at ready
  have spared := spares c (List.mem_of_getElem? hc) p.propagator e.space ready inside.valid.space hP
  unfold Engine.call
  dsimp only
  cases hr : Propagator.propagate p.propagator e.space with
  | ok _ after =>
    rw [hr] at spared
    change P (Engine.store (Engine.deliverAll _ _))
    rw [store, space_deliverAll]
    exact drain _ spared
  | error halt after =>
    rw [hr] at spared
    cases halt with
    | inconsistent cause => exact absurd rfl (spared cause)
    | fault cause => exact fun source cause' h => by cases h

/-- **An assignment for which all constraints hold is spared.** -/
theorem spares_of_holds (h₀ : Meets cs e₀) {a : Assignment} (holds : ∀ c ∈ cs, c.Holds a) :
    e₀.Spares a := fun _ h ha =>
  h.ends_turn_spared h₀ (P := (·.Admits a)) (fun _ ha => ha)
    (fun c hc _ _ ready hs ha => c.spares ready hs ha (holds c hc)) ha

/-! ## Posting -/

/-- All propagators that were posted so far are ready and wait to be called. -/
structure Posting (cs : List (Contract π)) (e : Engine π) : Prop where
  valid : e.Valid
  served : Served cs e
  own_lt : ∀ c ∈ cs, ∀ i, c.own i → i < e.space.cells.values.size
  ready : ∀ id c p, cs[id]? = some c → e.posted.get? id = some p →
    c.Ready p.propagator e.space (dueOf e.deliveries id)
  waits : ∀ id, id < cs.length → id ∈ e.queue.waits

omit [LawfulPropagator π] in
theorem Posting.meets (h : Posting cs e) : Meets cs e where
  valid := h.valid
  served := h.served
  kept := {
    is := fun id c p hc hp => c.is_of_ready (h.ready id c p hc hp)
    saved := fun _ hb hk => absurd hk (Nat.not_lt_of_le hb)
    ready := fun _ => h.ready
    awake := fun _ id _ hc => .inl (h.waits id (List.getElem?_eq_some_iff.mp hc).1)
    settled := fun h => by cases h }

omit [LawfulPropagator π] in
/-- Nobody watches a variable that is declared, and whatever is to be told still is. -/
theorem Served.declare {lower upper : Int} (h : Served cs e) (hd : e.declare lower upper = .ok e') :
    Served cs e' ∧ ∀ id, dueOf e.deliveries id ⊆ dueOf e'.deliveries id := by
  obtain ⟨-, rfl⟩ := declare_eq_ok hd
  have affected (event : Event) (v : Var) : e.watchList.grow.affected event v = e.watchList.affected event v :=
    WatchList.affected_grow
  refine ⟨⟨h.length_eq, fun id i event v => ?_, h.disjoint⟩, ?_⟩
  · rw [affected]
    exact h.mem_affected id i event v
  · rintro id ⟨i, event⟩ due
    rw [mem_dueOf, mem_deliveries] at due ⊢
    obtain ⟨v, hv, hmem⟩ := due
    exact ⟨v, hv, (affected event v).symm ▸ hmem⟩

omit [LawfulPropagator π] in
/-- A variable that is declared makes no difference to those who are ready without it. -/
theorem Posting.declare {lower upper : Int} (h : Posting cs e) (hd : e.declare lower upper = .ok e')
    (others : ∀ c ∈ cs, ∀ q due, c.Ready q e.space due → c.Ready q e'.space due) : Posting cs e' := by
  have valid := h.valid.declare hd
  obtain ⟨served, deliveries⟩ := h.served.declare hd
  obtain ⟨-, rfl⟩ := declare_eq_ok hd
  refine ⟨valid, served, h.own_lt, fun id c p hc hp => ?_, h.waits⟩
  exact c.ready_mono (others c (List.mem_of_getElem? hc) _ _ (h.ready id c p hc hp)) (deliveries id)

/-! ### A propagator that is posted -/

omit [LawfulPropagator π] in
/-- It is told of what it watches, and nobody else is told more. -/
theorem mem_affected_post {p : π} {watchList : WatchList} {id i : Nat} {event : Event} {v : Var}
    (hw : (Propagator.watches p).zipIdx.foldlM
      (fun w ((v, events), position) => w.watch ⟨e.numPropagators, position⟩ v events) e.watchList =
        .ok watchList) :
    ⟨id, i⟩ ∈ watchList.affected event v ↔ ⟨id, i⟩ ∈ e.watchList.affected event v ∨
      (id = e.numPropagators ∧ WatchedAt (Propagator.watches p) i v event) := by
  rw [WatchList.mem_affected_foldlM hw]
  simp

omit [LawfulPropagator π] in
/-- Its contract is the last. -/
theorem getElem?_concat (cs : List (Contract π)) (c : Contract π) (id : Nat) :
    (cs ++ [c])[id]? = if id = cs.length then some c else cs[id]? := by
  by_cases hid : id = cs.length
  · rw [if_pos hid, hid, List.getElem?_concat_length]
  · rw [if_neg hid, List.getElem?_append]
    split
    · rfl
    · rw [List.getElem?_singleton, if_neg (by omega)]
      exact (List.getElem?_eq_none (by omega)).symm

omit [LawfulPropagator π] in
/-- It comes last, and all others are who they were. -/
theorem posted_withPosted {p : π} {watchList : WatchList} {id : Nat} {q : Posted π}
    (hq : (e.withPosted p watchList).posted.get? id = some q) :
    (id = e.numPropagators ∧ q.propagator = Propagator.attach p e.space.cells.values.size e.store) ∨
      (id < e.numPropagators ∧ e.posted.get? id = some q) := by
  unfold withPosted at hq
  rw [Arena.get?_push] at hq
  split at hq
  · rename_i hid
    exact .inl ⟨hid, (Option.some.inj hq) ▸ rfl⟩
  · exact .inr ⟨lt_numPropagators_of hq, hq⟩

omit [LawfulPropagator π] in
theorem Served.post {p : π} {c : Contract π} {watchList : WatchList} (h : Served cs e)
    (own_lt : ∀ c ∈ cs, ∀ i, c.own i → i < e.space.cells.values.size)
    (hw : (Propagator.watches p).zipIdx.foldlM
      (fun w ((v, events), position) => w.watch ⟨e.numPropagators, position⟩ v events) e.watchList =
        .ok watchList)
    (watches : c.watches = Propagator.watches p)
    (own : ∀ i, c.own i → e.space.cells.values.size ≤ i) :
    Served (cs ++ [c]) (e.withPosted p watchList) := by
  have length := h.length_eq
  refine ⟨?_, fun id i event v => ?_, fun id id' c₁ c₂ hne h₁ h₂ i hi hi' => ?_⟩
  · rw [numPropagators_withPosted, List.length_append, length]
    rfl
  · change ⟨id, i⟩ ∈ watchList.affected event v ↔ _
    rw [mem_affected_post hw, h.mem_affected, getElem?_concat, length]
    constructor
    · rintro (⟨c', hc', hwat⟩ | ⟨rfl, hwat⟩)
      · have := (List.getElem?_eq_some_iff.mp hc').1
        exact ⟨c', by rw [if_neg (by omega)]; exact hc', hwat⟩
      · exact ⟨c, if_pos rfl, watches ▸ hwat⟩
    · rintro ⟨c', hc', hwat⟩
      split at hc'
      · rename_i heq
        cases hc'
        exact .inr ⟨heq, watches ▸ hwat⟩
      · exact .inl ⟨c', hc', hwat⟩
  · -- the trailed integers of the last are new
    rw [getElem?_concat] at h₁ h₂
    split at h₁ <;> split at h₂
    · omega
    · cases h₁
      have old := own_lt c₂ (List.mem_of_getElem? h₂) i hi'
      exact absurd old (Nat.not_lt_of_le (own i hi))
    · cases h₂
      have old := own_lt c₁ (List.mem_of_getElem? h₁) i hi
      exact absurd old (Nat.not_lt_of_le (own i hi'))
    · exact h.disjoint id id' c₁ c₂ hne h₁ h₂ i hi hi'

omit [LawfulPropagator π] in
/-- Whatever is to be told still is when a propagator has been posted. -/
theorem dueOf_subset_post {p : π} {watchList : WatchList}
    (hw : (Propagator.watches p).zipIdx.foldlM
      (fun w ((v, events), position) => w.watch ⟨e.numPropagators, position⟩ v events) e.watchList =
        .ok watchList) (id : Nat) :
    dueOf e.deliveries id ⊆ dueOf (e.withPosted p watchList).deliveries id := by
  rintro ⟨i, event⟩ due
  rw [mem_dueOf, mem_deliveries] at due ⊢
  obtain ⟨v, hv, hmem⟩ := due
  exact ⟨v, hv, (mem_affected_post hw).mpr (.inl hmem)⟩

omit [LawfulPropagator π] in
/-- Everybody is ready when a propagator has been posted, if it is ready at first and all others still are. -/
theorem Served.ready_post {p : π} {c : Contract π} {watchList : WatchList} (h : Served cs e)
    (hw : (Propagator.watches p).zipIdx.foldlM
      (fun w ((v, events), position) => w.watch ⟨e.numPropagators, position⟩ v events) e.watchList =
        .ok watchList) {s : Space}
    (ready : c.Ready (Propagator.attach p e.space.cells.values.size e.store) s [])
    (others : ∀ id c' q, cs[id]? = some c' → e.posted.get? id = some q →
      c'.Ready q.propagator s (dueOf e.deliveries id)) (id : Nat) (c' : Contract π) (q : Posted π)
    (hc : (cs ++ [c])[id]? = some c') (hq : (e.withPosted p watchList).posted.get? id = some q) :
    c'.Ready q.propagator s (dueOf (e.withPosted p watchList).deliveries id) := by
  have length := h.length_eq
  rw [getElem?_concat] at hc
  rcases posted_withPosted hq with ⟨hid, hattach⟩ | ⟨hid, hq⟩
  · rw [if_pos (hid.trans length)] at hc
    cases hc
    rw [hattach]
    exact c.ready_mono ready (List.nil_subset _)
  · rw [if_neg (by omega)] at hc
    exact c'.ready_mono (others id c' q hc hq) (dueOf_subset_post hw id)

omit [LawfulPropagator π] in
/-- The propagator that was posted waits, and whoever waited still does. -/
theorem mem_waits_withPosted {p : π} {watchList : WatchList} {id : Nat} (he : e.Valid) :
    id ∈ (e.withPosted p watchList).queue.waits ↔ id = e.numPropagators ∨ id ∈ e.queue.waits :=
  Queue.mem_waits_enqueue he.queue (Priority.lane_lt _)

omit [LawfulPropagator π] in
/-- **A propagator that is posted keeps its contract from then on**, if it is ready at first and its
trailed integers are new. -/
theorem Posting.post {p : π} {c : Contract π} (h : Posting cs e) (hp : e.post p = .ok e')
    (watches : c.watches = Propagator.watches p)
    (ready : c.Ready (Propagator.attach p e.space.cells.values.size e.store) e'.space [])
    (own : ∀ i, c.own i → e.space.cells.values.size ≤ i ∧ i < e'.space.cells.values.size)
    (others : ∀ c ∈ cs, ∀ q due, c.Ready q e.space due → c.Ready q e'.space due) :
    Posting (cs ++ [c]) e' := by
  have valid := h.valid.post hp
  obtain ⟨-, watchList, hw, rfl⟩ := post_eq_ok hp
  have length := h.served.length_eq
  have size : e.space.cells.values.size ≤ (e.withPosted p watchList).space.cells.values.size :=
    Cells.size_le_foldl_grow _ _
  refine ⟨valid, h.served.post h.own_lt hw watches fun i hi => (own i hi).1, fun c' hc' i hi => ?_,
    h.served.ready_post hw ready fun id c' q hc' hq =>
      others c' (List.mem_of_getElem? hc') _ _ (h.ready id c' q hc' hq), fun id hid => ?_⟩
  · rcases List.mem_append.mp hc' with hc' | hc'
    · exact Nat.lt_of_lt_of_le (h.own_lt c' hc' i hi) size
    · obtain rfl := List.mem_singleton.mp hc'
      exact (own i hi).2
  · rw [List.length_append, List.length_singleton] at hid
    refine (mem_waits_withPosted h.valid).mpr ?_
    by_cases heq : id = e.numPropagators
    · exact .inl heq
    · exact .inr (h.waits id (by omega))

omit [LawfulPropagator π] in
/-- **A propagator that is attached keeps its contract from then on**, and nobody else notices. -/
theorem Posting.attach {p : π} {c : Contract π} (h : Posting cs e) (hp : e.post p = .ok e')
    (attaches : c.Attaches p e.space) (keptPrivate : ∀ c ∈ cs, c.Private) : Posting (cs ++ [c]) e' := by
  have posted := hp
  obtain ⟨-, watchList, -, rfl⟩ := post_eq_ok hp
  have more : (e.withPosted p watchList).space.cells.values.size =
      e.space.cells.values.size + (Propagator.cells p).length := Cells.size_foldl_grow _ _
  refine h.post posted attaches.watches attaches.ready (fun i hi => ?_) fun c' hc' q due ready => ?_
  · rw [more]
    exact attaches.own i hi
  · exact keptPrivate c' hc' q _ _ due ready rfl (more ▸ Nat.le_add_right _ _) fun i hi =>
      Cells.value_foldl_grow_of_lt _ (h.own_lt c' hc' i hi)

omit [LawfulPropagator π] in
/-- **Propagators that are posted keep their contracts from then on**, if there is one for each of them
whatever it is attached to. -/
theorem Posting.exists_posted {P : π → Contract π → Prop} {ps : List π} (h : Posting cs e)
    (keptPrivate : ∀ c ∈ cs, c.Private)
    (contracts : ∀ p ∈ ps, ∀ s : Space, s.Valid → s.store = e.store → ∃ c : Contract π, c.Attaches p s ∧ P p c)
    (hps : ps.foldlM (fun (e : Engine π) p => e.post p) e = .ok e') :
    ∃ cs', Posting (cs ++ cs') e' ∧ (∀ c ∈ cs', ∃ p ∈ ps, P p c) ∧ ∀ p ∈ ps, ∃ c ∈ cs', P p c := by
  induction ps generalizing e cs with
  | nil =>
    cases hps
    exact ⟨[], by rwa [List.append_nil], fun _ hc => (by cases hc), fun _ hp => (by cases hp)⟩
  | cons p ps ih =>
    obtain ⟨c, attaches, said⟩ := contracts p List.mem_cons_self e.space h.valid.space rfl
    rw [List.foldlM_cons] at hps
    cases hp : e.post p with
    | error cause =>
      rw [hp] at hps
      cases hps
    | ok e₁ =>
      rw [hp] at hps
      have posting := h.attach hp attaches keptPrivate
      have same : e₁.store = e.store := by
        obtain ⟨-, watchList, -, rfl⟩ := post_eq_ok hp
        rfl
      obtain ⟨cs', posting', all, every⟩ := ih posting (fun c' hc' => by
          rcases List.mem_append.mp hc' with hc' | hc'
          · exact keptPrivate c' hc'
          · exact List.mem_singleton.mp hc' ▸ attaches.keptPrivate)
        (fun p' hp' s hs heq => contracts p' (List.mem_cons_of_mem p hp') s hs (heq.trans same)) hps
      rw [List.append_assoc] at posting'
      refine ⟨c :: cs', posting', fun c' hc' => ?_, fun p' hp' => ?_⟩
      · rcases List.mem_cons.mp hc' with rfl | hc'
        · exact ⟨p, List.mem_cons_self, said⟩
        · obtain ⟨p', hp', said'⟩ := all c' hc'
          exact ⟨p', List.mem_cons_of_mem p hp', said'⟩
      · rcases List.mem_cons.mp hp' with rfl | hp'
        · exact ⟨c, List.mem_cons_self, said⟩
        · obtain ⟨c', hc', said'⟩ := every p' hp'
          exact ⟨c', List.mem_cons_of_mem c hc', said'⟩

end Engine
end BranchBound
