import BranchBound.Proofs.Memory

/-! # Engines in the course of a search

A search opens levels only at rest, and after a refutation it returns to an earlier level before it does
anything else (`Engine.Course`).  Then a circuit that has noted a node whose arc is still to be joined
waits to be called (`Engine.Heedful`): it is told by others and queued, or by itself, and then it has
joined the arc already.

**So at rest all nodes that a circuit has noted wait in vain** (`Course.inVain`). -/
namespace BranchBound

/-- An assignment is told of a variable that became fixed. -/
theorem Space.Narrows.of_assign {own : Nat → Prop} {s t : Space} {v : Var} (h : s.Narrows own t)
    (hs : s.store.Valid) (hv : (v, .assign) ∈ t.store.events) :
    (v, .assign) ∈ s.store.events ∨ (t.store.isFixed v = true ∧ s.store.isFixed v = false) := by
  induction h with
  | refl => exact .inl hv
  | assign _ _ ih => exact ih hv
  | @shrink t w d d' c e h hd hsh ih =>
    have valid := h.store.valid hs
    have valid' := valid.record hd hsh
    have step : t.store.Narrows (t.store.record w d' c e) := .single hd hsh
    rw [Store.events_record] at hv
    rcases List.mem_append.mp hv with hv | hv
    · -- the variable itself changed, and only one that was not fixed does
      have here : v = w ∧ d'.isFixed = true := by
        unfold Store.eventsOf at hv
        split at hv <;> cases hsh <;> simp_all
      obtain ⟨rfl, fixed⟩ := here
      refine .inr ⟨?_, Bool.eq_false_iff.mpr fun before => ?_⟩
      · rwa [Store.isFixed, Store.domain_of (Store.domain?_record_self hd)]
      · have := Store.isFixed_of_within valid (fun _ hx => h.store.contains hs hx) before
        rw [Store.isFixed, Store.domain_of hd, hsh.not_isFixed] at this
        cases this
    · refine (ih hv).imp_right fun became => ⟨?_, became.2⟩
      exact Store.isFixed_of_within valid' (fun _ hx => step.contains valid hx) became.1

namespace Engine

/-! ## The course of a search -/

/-- What an engine can come to from nothing if levels are opened only at rest, and a refutation is followed
by a return to an earlier level. -/
inductive Course {π : Type} [Propagator π] : Mode → Engine π → Prop
  | empty : Course .free {}
  | declare {m : Mode} {e e' : Engine π} {lower upper : Int} (h : Course m e) (hm : m.Idle)
    (hd : e.declare lower upper = .ok e') : Course .free e'
  | post {m : Mode} {e e' : Engine π} {p : π} (h : Course m e) (hm : m.Idle)
    (hp : e.post p = .ok e') : Course .free e'
  | narrow {m : Mode} {e : Engine π} {store : Store} (h : Course m e) (hm : m.Idle)
    (hn : e.store.Narrows store) : Course .free (e.withStore store)
  | refuted {m : Mode} {e : Engine π} (h : Course m e) : Course .dead e
  | propagate {m : Mode} {e e' : Engine π} (h : Course m e) (hm : m.Idle)
    (hp : e.propagate = .ok () e') : Course .quiet e'
  | failed {m : Mode} {e e' : Engine π} {f : Failure} (h : Course m e) (hm : m.Idle)
    (hp : e.propagate = .error f e') : Course .dead e'
  | checkpoint {e : Engine π} (h : Course .quiet e) : Course .quiet e.checkpoint
  | restore {m : Mode} {e e' : Engine π} {k : Nat} (h : Course m e) (hr : e.restore k = .ok e') :
    Course .quiet e'

theorem Course.made {π : Type} [Propagator π] {m : Mode} {e : Engine π} (h : Course m e) : e.Made := by
  induction h with
  | empty => exact .empty
  | declare _ _ hd ih => exact ih.declare hd
  | post _ _ hp ih => exact ih.post hp
  | narrow _ _ hn ih => exact ih.narrow hn
  | refuted _ ih => exact ih
  | propagate _ _ hp ih => exact ih.propagate hp
  | failed _ _ hp ih => exact ih.refuted hp
  | checkpoint _ ih => exact ih.checkpoint
  | restore _ hr ih => exact ih.restore hr

/-! ## Circuits that heed what they are told -/

variable {e e' : Engine Constraint} {id : Nat} {p : Posted Constraint} {source : Option Nat}
  {d : Delivery} {m : Mode}

/-- Whoever is posted as `id` waits to be called, or the nodes that it has noted wait in vain. -/
def HeedfulAt (e : Engine Constraint) (id : Nat) : Prop :=
  ∀ c, e.propagator? id = some (.circuit c) → id ∈ e.queue.waits ∨ ∀ i ∈ c.pending, c.InVain e.space i

/-- Every circuit that has noted a node whose arc is to be joined waits to be called. -/
def Heedful (e : Engine Constraint) : Prop := ∀ id, e.HeedfulAt id

/-- Nobody heeds less when memories, queue and trailed integers are what they were. -/
theorem HeedfulAt.congr (h : e.HeedfulAt id) (same : e'.propagator? id = e.propagator? id)
    (waits : id ∈ e.queue.waits → id ∈ e'.queue.waits)
    (cells : ∀ c, e.propagator? id = some (.circuit c) → ∀ k, c.own k →
      e'.space.cells.value k = e.space.cells.value k) : e'.HeedfulAt id := by
  intro c hc
  rw [same] at hc
  refine (h c hc).imp waits fun vain i hi => ?_
  obtain ⟨lt, joined⟩ := vain i hi
  exact ⟨lt, cells c hc _ (Circuit.own_merged lt) ▸ joined⟩

/-- Those who are told of what they did themselves have joined the arcs. -/
def Foreseen (source : Option Nat) (e : Engine Constraint) (d : Delivery) : Prop :=
  source = some d.watcher.propagator → d.event = .assign →
    ∀ c, e.outline d.watcher.propagator = some (.circuit c) → c.InVain e.space d.watcher.position

theorem Heedful.deliver (h : e.Heedful) (he : e.Valid) (foreseen : Foreseen source e d) :
    (e.deliver source d).Heedful := by
  intro id
  by_cases hid : d.watcher.propagator = id
  · subst hid
    intro c hc
    rw [propagator?_deliver, if_pos rfl] at hc
    obtain ⟨b, hb, heq⟩ := Option.map_eq_some_iff.mp hc
    obtain ⟨p, hp, rfl⟩ := Option.map_eq_some_iff.mp hb
    -- the queue passes over who caused the event, so its own notes have to be joined already
    by_cases own : source = some d.watcher.propagator
    · cases hq : p.propagator with
      | circuit b =>
        rw [hq] at hb heq
        rcases h _ b hb with waits | vain
        · exact .inl (mem_waits_deliver he waits)
        · refine .inr fun i hi => ?_
          have told := fun assigned => foreseen own assigned _ (outline_of_circuit hb)
          rw [space_deliver]
          cases heq
          rw [Circuit.inVain_notify]
          rcases Circuit.mem_pending_notify.mp hi with ⟨assigned, rfl⟩ | hi
          · exact told assigned
          · exact vain i hi
      | _ => rw [hq] at heq; cases heq
    · exact .inl (mem_waits_deliver_self he hp rfl own)
  · refine (h id).congr ?_ (mem_waits_deliver he) fun _ _ _ _ => by rw [space_deliver]
    rw [propagator?_deliver, if_neg hid]

theorem Heedful.foldl_deliver (h : e.Heedful) (he : e.Valid) {ds : List Delivery}
    (foreseen : ∀ d ∈ ds, Foreseen source e d) : (ds.foldl (Engine.deliver source) e).Heedful := by
  induction ds generalizing e with
  | nil => exact h
  | cons d ds ih =>
    rw [List.foldl_cons]
    refine ih (h.deliver he (foreseen d List.mem_cons_self)) he.deliver fun d' hd' => ?_
    unfold Foreseen
    rw [outline_deliver, space_deliver]
    exact foreseen d' (List.mem_cons_of_mem d hd')

theorem Heedful.deliverAll (h : e.Heedful) (he : e.Valid)
    (foreseen : ∀ d ∈ e.deliveries, Foreseen source e d) : (e.deliverAll source).Heedful :=
  foldl_deliver (e := { e with space := e.space.drain }) h ⟨he.space.drain, he.queue⟩ foreseen

/-! ## Turns -/

/-- After a call that ended well everybody heeds what they were told, the one who was called included. -/
theorem heedful_called {after : Constraint × Space} (inOrder : e.InOrder) (hp : e.posted.get? id = some p)
    (hands : p.propagator.Hands e.space after)
    (forgotten : ∀ c, p.propagator = .circuit c → after.1 = .circuit { c with pending := [] })
    (others : ∀ id', id' ≠ id → e.HeedfulAt id') : (e.called id p after).Heedful := by
  intro id'
  by_cases hid : id = id'
  · subst hid
    intro c hc
    rw [propagator?_called _ hp, if_pos rfl] at hc
    -- it has forgotten all that it had noted
    refine .inr fun i hi => ?_
    cases hq : p.propagator with
    | circuit b =>
      rw [forgotten b hq] at hc
      cases hc
      cases hi
    | _ =>
      have same := hands.synchronise_eq
      rw [Option.some.inj hc, hq] at same
      cases same
  · refine (others id' (Ne.symm hid)).congr ?_ (fun hw => hw) fun c hc k hk => ?_
    · rw [propagator?_called _ hp, if_neg hid]
    · exact inOrder.value_of_hands hp hands hid (outline_of_circuit hc) hk

theorem heedful_call (inOrder : e.InOrder) (silent : e.store.events = []) (hp : e.posted.get? id = some p)
    (others : ∀ id', id' ≠ id → e.HeedfulAt id') :
    Ends (e.call id p) (fun _ => Heedful) (fun _ _ => True) := by
  have hands := inOrder.hands hp
  unfold call
  dsimp only
  split <;> rename_i hr <;> rw [hr] at hands
  · rename_i after
    obtain ⟨hands, settled⟩ := hands
    have called := inOrder.called hp hands
    refine (heedful_called inOrder hp hands (fun c hc => (settled c hc).1) others).deliverAll called.valid
      fun d hd own assigned c hc => ?_
    -- what it told itself of became fixed during the call
    obtain ⟨v, hv, watched⟩ := mem_deliveries.mp hd
    obtain ⟨lt, rfl⟩ := called.told _ _ hc _ _ _ watched
    rw [assigned] at hv
    have fixed := (hands.narrows.of_assign inOrder.valid.space.store hv).resolve_left fun h => by
      change _ ∈ e.store.events at h
      rw [silent] at h
      cases h
    cases own
    rw [outline_called hp hands.synchronise_eq, outline_of_posted hp] at hc
    obtain ⟨pending, hpending⟩ := Constraint.eq_circuit_of_synchronise (Option.some.inj hc)
    exact (settled _ hpending).2 _ lt fixed.1 fixed.2
  · trivial
  · trivial

theorem heedful_turn (h : e.Heedful) (inOrder : e.InOrder) (silent : e.store.events = []) :
    Ends (turn e) (fun _ => Heedful) (fun _ _ => True) := by
  refine ends_turn_of inOrder.valid (fun _ => h) fun id queue p hq valid hp => ?_
  -- the one whose turn it is does not wait any more, so the others alone are heedful when it is called
  have waits := inOrder.valid.queue.waits_of_pop hq
  exact heedful_call (inOrder.withQueue valid) silent hp fun id' hid =>
    (h id').congr rfl (fun hw => (List.mem_cons.mp (waits ▸ hw)).resolve_left hid) fun _ _ _ _ => rfl

theorem heedful_propagate (h : e.Heedful) (inOrder : e.InOrder) :
    Ends e.propagate (fun _ e' => e'.Heedful ∧ e'.store.events = [] ∧ e'.queue.pop = none)
      (fun _ _ => True) := by
  refine ends_descend_done (I := fun t => t.InOrder ∧ t.Heedful ∧ t.store.events = []) (fun t ht => ?_)
    ⟨inOrder.deliverAll, h.deliverAll inOrder.valid fun _ _ own => (by cases own), events_deliverAll⟩
  obtain ⟨inOrder, heedful, silent⟩ := ht
  refine (((ends_turn inOrder.valid silent).and inOrder.turn).and
    (heedful_turn heedful inOrder silent)).mono (fun more u hu => ?_) fun _ _ _ => trivial
  obtain ⟨⟨⟨-, silent', lower⟩, inOrder'⟩, heedful'⟩ := hu
  cases more with
  | true => exact ⟨⟨inOrder', heedful', silent'⟩, lower⟩
  | false =>
    obtain ⟨rfl, nobody⟩ := lower
    exact ⟨heedful', silent, nobody⟩

/-! ## All along -/

theorem Heedful.post {p : Constraint} (h : e.Heedful) (inOrder : e.InOrder) (hp : e.post p = .ok e') :
    e'.Heedful := by
  obtain ⟨-, watchList, -, rfl⟩ := post_eq_ok hp
  intro id
  have waits : id ∈ (e.queue.enqueue e.numPropagators (Propagator.priority p).lane).waits ↔
      id = e.numPropagators ∨ id ∈ e.queue.waits :=
    Queue.mem_waits_enqueue inOrder.valid.queue (Priority.lane_lt (Propagator.priority p))
  by_cases hid : id = e.numPropagators
  · exact fun c _ => .inl (waits.mpr (.inl hid))
  · refine (h id).congr ?_ (fun hw => waits.mpr (.inr hw)) fun c hc k hk => ?_
    · rw [propagator?_withPosted, if_neg hid]
    · have lt := inOrder.own_lt (outline_of_circuit hc) hk
      exact congrArg (·.getD 0) ((Cells.get?_foldl_grow _ _ k).trans (if_pos lt))

/-- **In the course of a search, circuits heed what they are told.** -/
theorem Course.heedful {e : Engine Constraint} (h : Course m e) (alive : m ≠ .dead) : e.Heedful := by
  have idle {m : Mode} (hm : m.Idle) : m ≠ .dead := by rcases hm with rfl | rfl <;> simp
  induction h with
  | empty => exact fun _ _ hc => by cases hc
  | declare h hm hd ih =>
    obtain ⟨-, rfl⟩ := declare_eq_ok hd
    exact ih (idle hm)
  | post h hm hp ih => exact (ih (idle hm)).post h.made.inOrder hp
  | narrow h hm hn ih => exact ih (idle hm)
  | refuted => exact absurd rfl alive
  | propagate h hm hp ih => exact ((heedful_propagate (ih (idle hm)) h.made.inOrder).of_ok hp).1
  | failed => exact absurd rfl alive
  | checkpoint h ih => exact ih (by simp)
  | restore h hr =>
    -- nobody waits after a return, but nobody has noted anything either
    intro id c hc
    refine .inr fun i hi => ?_
    rw [(propagator?_of_restore h.made.valid hr).2] at hc
    obtain ⟨p, -, hp⟩ := Option.map_eq_some_iff.mp hc
    rw [Constraint.pending_of_synchronise hp] at hi
    cases hi

/-- At rest nothing is to be told and nobody waits. -/
theorem Course.rest {e : Engine Constraint} (h : Course m e) (quiet : m = .quiet) :
    e.store.events = [] ∧ e.queue.pop = none := by
  induction h with
  | propagate h hm hp =>
    have alive : ∀ {m : Mode}, m.Idle → m ≠ .dead := by rintro m (rfl | rfl) <;> simp
    exact ((heedful_propagate (h.heedful (alive hm)) h.made.inOrder).of_ok hp).2
  | checkpoint h ih => exact ih rfl
  | restore h hr =>
    obtain ⟨-, space, -, queue, -⟩ := restored_eq h.made.valid hr
    exact ⟨by rw [store, space], queue ▸ Queue.pop_clear _⟩
  | _ => cases quiet

/-- **At rest, all nodes that a circuit has noted wait in vain.** -/
theorem Course.inVain {e : Engine Constraint} {c : Circuit} (h : Course .quiet e)
    (hc : e.propagator? id = some (.circuit c)) : ∀ i ∈ c.pending, c.InVain e.space i := by
  refine (h.heedful (by simp) id c hc).resolve_left fun waits => ?_
  rw [h.made.valid.queue.pop_eq_none_iff.mp (h.rest rfl).2] at waits
  cases waits

end Engine
end BranchBound
