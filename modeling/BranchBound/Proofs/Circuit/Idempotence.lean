import BranchBound.Proofs.Circuit.Contract
import BranchBound.Proofs.Persistence

/-! # Circuits that are called again

A call leaves no node before itself, and every node with the support that it needs (`Circuit.Calm`).  As
long as nobody else changes a predecessor it stays so, and all arcs that are fixed have been joined.  So
another call finds nothing to remove, nothing to assign and nothing to join; it only forgets which nodes
were told to it (`Circuit.filter_eq_of_calm`). -/
namespace BranchBound
namespace Circuit
variable {c : Circuit} {s t : Space} {pending : List Nat} {due : List (Nat × Event)} {i node v : Nat}
  {x : Int}

/-- The predecessors are distinct, and every value, which is a node, can be removed. -/
structure Fit (c : Circuit) (s : Store) : Prop where
  injective : ∀ i j, i < c.numNodes → j < c.numNodes → c.predecessor i = c.predecessor j → i = j
  known : ∀ i, i < c.numNodes → c.predecessor i < s.numVars
  sources : ∀ i, i < c.numNodes → ∀ x, s.contains (c.predecessor i) x = true →
    ∃ j : Nat, j < c.numNodes ∧ x = j
  width_le : ∀ i, i < c.numNodes → (s.domain (c.predecessor i)).width ≤ Domain.holeLimit

/-- Some node can come behind a node, and does if it is the only one. -/
structure Supported (c : Circuit) (s : Store) (v : Nat) : Prop where
  some : c.support s v ≠ 0
  only : c.support s v = 1 → ∀ i, i < c.numNodes → s.contains (c.predecessor i) v = true →
    s.fixed? (c.predecessor i) = .some (v : Int)

/-- No node comes before itself, and every node has the support that it needs. -/
structure Calm (c : Circuit) (s : Store) : Prop where
  apart : ∀ i, i < c.numNodes → s.contains (c.predecessor i) i = false
  supported : ∀ v, v < c.numNodes → c.Supported s v

section
variable {s t : Store}

theorem Fit.narrows (h : c.Fit s) (hs : s.Valid) (hn : s.Narrows t) : c.Fit t where
  injective := h.injective
  known i hi := hn.numVars_eq ▸ h.known i hi
  sources i hi x hx := h.sources i hi x (hn.contains hs hx)
  width_le i hi := (hn.width_eq _).symm ▸ h.width_le i hi

theorem Fit.grows (h : c.Fit s) (grown : s.Grows t) : c.Fit t := by
  have known {i : Nat} (hi : i < c.numNodes) := grown.known (h.known i hi)
  refine ⟨h.injective, fun i hi => (known hi).1, fun i hi x hx => ?_, fun i hi => ?_⟩
  · rw [Store.contains, (known hi).2] at hx
    exact h.sources i hi x hx
  · rw [(known hi).2]
    exact h.width_le i hi

/-- All that matters is the predecessors. -/
theorem Calm.congr (h : c.Calm s)
    (same : ∀ i, i < c.numNodes → t.domain (c.predecessor i) = s.domain (c.predecessor i)) : c.Calm t := by
  have contains {i : Nat} (hi : i < c.numNodes) (x : Int) :
      t.contains (c.predecessor i) x = s.contains (c.predecessor i) x := by
    rw [Store.contains, same i hi, Store.contains]
  have support (v : Nat) : c.support t v = c.support s v :=
    List.countP_congr fun i hi => by rw [contains (mem_nodes.mp hi)]
  refine ⟨fun i hi => (contains hi _).trans (h.apart i hi), fun v hv => ⟨?_, fun one i hi hx => ?_⟩⟩
  · rw [support]
    exact (h.supported v hv).some
  · rw [Store.fixed?, same i hi]
    rw [support] at one
    rw [contains hi] at hx
    exact (h.supported v hv).only one i hi hx

end

/-! ## What a call leaves -/

theorem ends_removePredecessor_gone (ht : t.Valid)
    (width : (t.store.domain (c.predecessor i)).width ≤ Domain.holeLimit) :
    Ends (c.removePredecessor i x (pending, t))
      (fun _ r => t.store.Narrows r.2.store ∧ r.2.store.contains (c.predecessor i) x = false ∧
        r.2.cells = t.cells) (fun _ _ => True) := by
  refine ends_removePredecessor_of ?_
  rw [Filter.remove, Filter.ends_onStore]
  exact (Store.keeps_remove ht.store).mono (fun changed store hn =>
    ⟨hn.narrows, hn.removed ht.store width, rfl⟩) fun _ _ _ => trivial

/-- After the loops are removed, no node comes before itself. -/
theorem ends_removeLoops_apart (hs : s.Valid) (fit : c.Fit s.store) :
    Ends (c.nodes.forM (fun node => c.removePredecessor node node) (pending, s))
      (fun _ r => ∀ i, i < c.numNodes → r.2.store.contains (c.predecessor i) i = false)
      (fun _ _ => True) := by
  have loops := ends_forM (l := c.nodes) (f := fun node => c.removePredecessor node node)
    (I := fun before r => s.Narrows (fun _ => True) r.2 ∧
      ∀ i ∈ before, r.2.store.contains (c.predecessor i) i = false)
    (E := fun _ _ => True) (s := (pending, s)) (fun before i rest split r hr => ?_)
    ⟨.refl, fun _ hi => by cases hi⟩
  · exact loops.mono_ok fun _ r hr i hi => hr.2 i (mem_nodes.mpr hi)
  · obtain ⟨narrows, apart⟩ := hr
    have hi : i < c.numNodes := mem_nodes.mp (by rw [split]; simp)
    have valid := narrows.valid hs
    have fit' := fit.narrows hs.store narrows.store
    refine ((narrowing_removePredecessor hs r narrows).and
      (ends_removePredecessor_gone valid (fit'.width_le i hi))).mono (fun _ r' hr' => ?_)
      fun _ _ _ => trivial
    refine ⟨hr'.1, fun j hj => ?_⟩
    rcases List.mem_append.mp hj with hj | hj
    · exact hr'.2.1.contains_eq_false valid.store (apart j hj)
    · obtain rfl := List.mem_singleton.mp hj
      exact hr'.2.2.1

/-- **A node that asks for nothing has its support.** -/
theorem ends_assignOnly_supported (ht : t.Valid) :
    Ends (c.assignOnly v (c.support t.store v) (pending, t))
      (fun more r => more = false → r = (pending, t) ∧ c.Supported t.store v) (fun _ _ => True) := by
  refine ends_assignOnly_of (fun _ => trivial) (fun one node hnode inside => ?_) fun some alone _ =>
    ⟨rfl, some, fun one i hi hx => absurd (hx.symm.trans (alone one i hi)) (by simp)⟩
  have some : c.support t.store v ≠ 0 := by omega
  rw [Filter.assign, Filter.ends_onStore]
  refine Ends.mono (Store.keeps_assign ht.store) (fun changed store hn => ?_) fun _ _ _ => trivial
  cases changed with
  | true => exact fun h => by cases h
  | false =>
    obtain rfl := hn.unchanged rfl
    refine fun _ => ⟨rfl, some, fun _ i hi hx => ?_⟩
    obtain rfl := eq_of_support_eq_one one hi hnode hx inside
    exact Store.fixed?_eq_some_iff.mpr ⟨((hn.contains_iff _).mp (ht.store.contains_lower _)).2,
      ((hn.contains_iff _).mp (ht.store.contains_upper _)).2⟩

theorem ends_supports_supported (ht : t.Valid) :
    Ends (c.supports (pending, t))
      (fun more r => more = false → r = (pending, t) ∧ ∀ v, v < c.numNodes → c.Supported t.store v)
      (fun _ _ => True) := by
  unfold supports
  rw [ends_bind, Filter.ends_beside, Filter.ends_read]
  have fold := ends_foldlM_prefix (l := c.nodes.map fun value => (value, c.support t.store value))
    (f := fun changed x => return (← c.assignOnly x.1 x.2) || changed)
    (I := fun before more r => more = false →
      r = (pending, t) ∧ ∀ x ∈ before, c.Supported t.store x.1)
    (E := fun _ _ => True) (b := false) (s := (pending, t)) (fun before x rest split more r hr => ?_)
    fun _ => ⟨rfl, fun _ hx => by cases hx⟩
  · refine fold.mono_ok fun more r hr unchanged => ?_
    obtain ⟨same, supported⟩ := hr unchanged
    exact ⟨same, fun v hv => supported (v, c.support t.store v)
      (List.mem_map_of_mem (mem_nodes.mpr hv))⟩
  · rw [ends_bind]
    cases more with
    | true => exact ends_of (fun b r' _ h => by simp at h) fun _ _ _ => trivial
    | false =>
      obtain ⟨rfl, supported⟩ := hr rfl
      have counted : x.2 = c.support t.store x.1 := by
        obtain ⟨v, -, rfl⟩ := List.mem_map.mp
          (show x ∈ c.nodes.map fun value => (value, c.support t.store value) by rw [split]; simp)
        rfl
      rw [counted]
      refine (ends_assignOnly_supported ht).mono_ok fun b r' hr' unchanged => ?_
      obtain ⟨same, here⟩ := hr' (Bool.or_eq_false_iff.mp unchanged).1
      refine ⟨same, fun y hy => ?_⟩
      rcases List.mem_append.mp hy with hy | hy
      · exact supported y hy
      · obtain rfl := List.mem_singleton.mp hy
        exact here

theorem ends_round_supported {r : List Nat × Space} (hr : r.2.Valid) :
    Ends (c.round r)
      (fun more r' => more = false → ∀ v, v < c.numNodes → c.Supported r'.2.store v)
      (fun _ _ => True) := by
  obtain ⟨pending, t⟩ := r
  cases pending with
  | nil =>
    refine ends_round_nil.mpr ((ends_supports_supported hr).mono_ok fun more r' h unchanged => ?_)
    obtain ⟨rfl, supported⟩ := h unchanged
    exact supported
  | cons node rest => exact ends_round_cons.mpr (ends_of (fun _ _ _ h => by cases h) fun _ _ _ => trivial)

/-- **A call leaves a circuit calm.** -/
theorem Ready.ends_filter_calm (h : c.Ready pending s []) (hs : s.Valid) (fit : c.Fit s.store) :
    Ends (c.filter (pending, s)) (fun _ r => c.Calm r.2.store) (fun _ _ => True) := by
  obtain ⟨ls, chains⟩ := h.chains
  unfold filter
  have loops := (ends_removeLoops hs h.base h.working chains).and (ends_removeLoops_apart hs fit)
  refine Ends.bind (loops.mono (fun _ _ => id) fun _ _ _ => trivial) fun _ r hr => ?_
  refine ends_descend_done
    (I := fun r => (Working c s (potential (pending, s)) r ∧ ∃ ls, c.Chains r.2 ls) ∧
      ∀ i, i < c.numNodes → r.2.store.contains (c.predecessor i) i = false)
    (J := fun r => c.Calm r.2.store) (fun r hr => ?_) hr
  obtain ⟨⟨working, ls, chains⟩, apart⟩ := hr
  have valid := working.narrows.valid hs
  refine (((ends_round hs h.base working chains).and (ends_round_supported valid)).and
    (narrowing_round (c := c) valid r .refl)).mono (fun more r' hr' => ?_) fun _ _ _ => trivial
  obtain ⟨⟨joined, supported⟩, narrows⟩ := hr'
  have apart' (i : Nat) (hi : i < c.numNodes) :=
    narrows.store.contains_eq_false valid.store (apart i hi)
  cases more with
  | true => exact ⟨⟨joined.1, apart'⟩, joined.2⟩
  | false => exact ⟨apart', supported rfl⟩

/-! ## What another call finds -/

section
variable (hs : s.Valid) (known : ∀ i, i < c.numNodes → c.predecessor i < s.store.numVars)
  (calm : c.Calm s.store)

include hs known calm in
theorem removePredecessor_eq_of_calm (hi : i < c.numNodes) :
    c.removePredecessor i i (pending, s) = .ok () (pending, s) := by
  have gone := (Store.remove_eq_false_iff hs.store).mpr
    ⟨rfl, known i hi, .inl (calm.apart i hi)⟩
  have removed : Filter.remove (c.predecessor i) i s = .ok false s :=
    Filter.onStore_eq_ok.mpr ⟨gone, rfl⟩
  refine eq_ok_of_ends ?_
  refine ends_removePredecessor_of ?_
  rw [removed]
  exact ⟨rfl, rfl⟩

/-- What was joined is not joined again. -/
theorem merge_eq_of_joined (joined : s.store.isFixed (c.predecessor node) = true →
    s.cells.value (c.merged node) ≠ 0) : c.merge node (pending, s) = .ok () (pending, s) := by
  refine eq_ok_of_ends ?_
  refine ends_merge_of (fun source free fixed => ?_) fun _ => ⟨rfl, rfl⟩
  exact absurd free (joined (Store.isFixed_of_fixed? fixed))

include hs known in
theorem assignOnly_eq_of_supported (h : c.Supported s.store v) :
    c.assignOnly v (c.support s.store v) (pending, s) = .ok false (pending, s) := by
  refine eq_ok_of_ends ?_
  refine ends_assignOnly_of (fun none => absurd none h.some) (fun one node hnode inside => ?_)
    fun _ _ => ⟨rfl, rfl⟩
  have assigned : Filter.assign (c.predecessor node) v s = .ok false s :=
    Filter.onStore_eq_ok.mpr
      ⟨Store.assign_eq_false hs.store (known node hnode) (h.only one node hnode inside), rfl⟩
  rw [assigned]
  exact ⟨rfl, rfl⟩

include hs known calm in
theorem supports_eq_of_calm : c.supports (pending, s) = .ok false (pending, s) := by
  refine eq_ok_of_ends (ends_supports_of (I := fun more r => more = false ∧ r = (pending, s)) ⟨rfl, rfl⟩
    fun v hv more r hr => ?_)
  obtain ⟨rfl, rfl⟩ := hr
  rw [assignOnly_eq_of_supported hs known (calm.supported v hv)]
  exact ⟨rfl, rfl⟩

include hs known calm in
/-- **Another call only forgets what was told.** -/
theorem filter_eq_of_calm (joined : ∀ i, i < c.numNodes → s.store.isFixed (c.predecessor i) = true →
    s.cells.value (c.merged i) ≠ 0) (hp : ∀ i ∈ pending, i < c.numNodes) :
    c.filter (pending, s) = .ok () ([], s) := by
  refine eq_ok_of_ends ?_
  unfold filter
  refine Ends.bind (ends_forM (I := fun _ r => r = (pending, s)) (fun before i rest split r hr => ?_) rfl)
    fun _ r hr => ?_
  · subst hr
    have hi : i < c.numNodes := mem_nodes.mp (by rw [split]; simp)
    rw [removePredecessor_eq_of_calm hs known calm hi]
    rfl
  · subst hr
    refine (ends_descend_done (I := fun r => r.2 = s ∧ ∀ i ∈ r.1, i < c.numNodes)
      (J := fun r => r = ([], s)) (fun r hr => ?_) ⟨rfl, hp⟩).mono_ok fun _ _ h => ⟨rfl, h⟩
    obtain ⟨pending, s⟩ := r
    obtain ⟨rfl, lt⟩ := hr
    cases pending with
    | nil =>
      rw [ends_round_nil, supports_eq_of_calm hs known calm]
      rfl
    | cons node rest =>
      rw [ends_round_cons, merge_eq_of_joined (joined node (lt node List.mem_cons_self))]
      exact ⟨⟨rfl, fun i hi => lt i (List.mem_cons_of_mem node hi)⟩, potential_lt_cons⟩

end

/-! ## Circuits at rest -/

/-- The only value of a predecessor cannot be removed. -/
theorem ends_removePredecessor_fixed (hs : s.Valid) (fixed : s.store.fixed? (c.predecessor i) = some x) :
    Ends (c.removePredecessor i x (pending, s)) (fun _ _ => False) (fun _ r => r.2 = s) := by
  refine ends_removePredecessor_of ?_
  rw [Filter.remove, Filter.ends_onStore]
  refine Ends.mono (Store.keeps_remove hs.store) (fun changed store hn => ?_) fun halt store hr => ?_
  · have inside := (hn.narrows.valid hs.store).contains_lower (c.predecessor i)
    have here := Store.eq_of_fixed? fixed (hn.narrows.contains hs.store inside)
    have bounds : s.store.lower (c.predecessor i) = x ∧ s.store.upper (c.predecessor i) = x :=
      Store.fixed?_eq_some_iff.mp fixed
    rcases ((hn.contains_iff _).mp inside).2 with hne | ⟨-, lower, -⟩
    · exact absurd here hne
    · exact absurd lower (by omega)
  · rw [hr.eq]

/-- A circuit of a single node is refuted. -/
theorem ends_filter_single (hs : s.Valid) (fit : c.Fit s.store) (one : c.numNodes = 1) :
    Ends (c.filter (pending, s)) (fun _ _ => False) (fun _ r => r.2 = s) := by
  unfold filter
  refine Ends.bind (P := fun _ _ => False) ?_ fun _ _ h => h.elim
  refine (ends_forM (I := fun before r => before = [] ∧ r = (pending, s))
    (fun before i rest split r hr => ?_) ⟨rfl, rfl⟩).mono_ok fun _ _ hr => ?_
  · obtain ⟨rfl, rfl⟩ := hr
    have hi : i < c.numNodes := mem_nodes.mp (by rw [split]; simp)
    have only (x : Int) (hx : s.store.contains (c.predecessor i) x = true) : x = i := by
      obtain ⟨j, hj, rfl⟩ := fit.sources i hi x hx
      omega
    exact (ends_removePredecessor_fixed hs (Store.fixed?_eq_some_iff.mpr
      ⟨only _ (hs.store.contains_lower _), only _ (hs.store.contains_upper _)⟩)).mono_ok
      fun _ _ h => h.elim
  · have := congrArg List.length hr.1
    simp [nodes, one] at this

/-- The circuit can be called with some nodes waiting, and then comes to rest. -/
structure Prepared (c : Circuit) (pending : List Nat) (s : Space) (due : List (Nat × Event)) : Prop where
  fit : c.Fit s.store
  pending_lt : ∀ i ∈ pending, i < c.numNodes
  ready : 2 ≤ c.numNodes → c.Ready pending s due

/-- Another call would find nothing to do. -/
structure Resting (c : Circuit) (s : Space) : Prop where
  fit : c.Fit s.store
  calm : c.Calm s.store
  settled : 2 ≤ c.numNodes → c.Settled s

theorem Prepared.mono {due' : List (Nat × Event)} (h : c.Prepared pending s due) (sub : due ⊆ due') :
    c.Prepared pending s due' :=
  ⟨h.fit, h.pending_lt, fun two => (h.ready two).mono sub⟩

theorem Prepared.grows (h : c.Prepared pending s due) (grown : s.store.Grows t.store)
    (size : s.cells.values.size ≤ t.cells.values.size)
    (cells : ∀ i, c.own i → t.cells.value i = s.cells.value i) : c.Prepared pending t due :=
  ⟨h.fit.grows grown, h.pending_lt, fun two => (h.ready two).grows grown size cells⟩

theorem Prepared.congr_bare (h : c.Prepared pending s due) (hb : t.bare = s.bare) :
    c.Prepared pending t due :=
  ⟨h.fit.grows (Store.grows_of_domains (Space.domains_eq_of_bare hb)), h.pending_lt,
    fun two => (h.ready two).congr_bare hb⟩

theorem Prepared.notify {event : Event} {v : Var} (hw : WatchedAt c.watches i v event)
    (h : c.Prepared pending s ((i, event) :: due)) :
    c.Prepared (if event = .assign then i :: pending else pending) s due := by
  refine ⟨h.fit, fun j hj => ?_, fun two => (h.ready two).notify hw⟩
  split at hj
  · rcases List.mem_cons.mp hj with rfl | hj
    · exact (watchedAt_iff.mp hw).1
    · exact h.pending_lt j hj
  · exact h.pending_lt j hj

theorem Resting.prepared (h : c.Resting s) : c.Prepared [] s [] :=
  ⟨h.fit, fun _ h => (by cases h), fun two => (h.settled two).ready⟩

theorem Resting.grows (h : c.Resting s) (grown : s.store.Grows t.store)
    (size : s.cells.values.size ≤ t.cells.values.size)
    (cells : ∀ i, c.own i → t.cells.value i = s.cells.value i) : c.Resting t := by
  refine ⟨h.fit.grows grown, h.calm.congr fun i hi => (grown.known (h.fit.known i hi)).2, fun two => ?_⟩
  exact ((h.settled two).ready.grows grown size cells).settled

theorem Resting.congr_bare (h : c.Resting s) (hb : t.bare = s.bare) : c.Resting t :=
  h.grows (Store.grows_of_domains (Space.domains_eq_of_bare hb))
    (Nat.le_of_eq (congrArg Arena.size (Space.values_eq_of_bare hb)).symm)
    fun i _ => Space.value_eq_of_bare hb i

/-- All arcs that are fixed have been joined. -/
theorem Resting.joined (h : c.Resting s) (hs : s.Valid) (hi : i < c.numNodes)
    (fixed : s.store.isFixed (c.predecessor i) = true) : s.cells.value (c.merged i) ≠ 0 := by
  by_cases two : 2 ≤ c.numNodes
  · exact (h.settled two).joined i hi fixed
  · -- a single node has no predecessor but itself
    have inside := hs.store.contains_lower (c.predecessor i)
    obtain ⟨j, hj, heq⟩ := h.fit.sources i hi _ inside
    obtain rfl : j = i := by omega
    rw [heq, h.calm.apart j hi] at inside
    cases inside

section
variable {other : Nat → Prop} {new : List (Var × Event)} (hs : s.Valid) (hn : s.Narrows other t)
  (disjoint : ∀ i, c.own i → ¬ other i) (told : Told new s.store t.store)
include hs hn disjoint told

theorem Prepared.narrows {due' : List (Nat × Event)} (h : c.Prepared pending s due) (sub : due ⊆ due')
    (hdue : ∀ i v event, (v, event) ∈ new → WatchedAt c.watches i v event → (i, event) ∈ due') :
    c.Prepared pending t due' :=
  ⟨h.fit.narrows hs.store hn.store, h.pending_lt,
    fun two => (h.ready two).narrows hs hn disjoint told sub hdue⟩

/-- **A circuit rests until it is told of something.** -/
theorem Resting.narrows (h : c.Resting s)
    (away : ∀ i v event, (v, event) ∈ new → ¬ WatchedAt c.watches i v event) : c.Resting t := by
  refine ⟨h.fit.narrows hs.store hn.store, h.calm.congr fun i hi => ?_,
    fun two => (h.settled two).narrows hs hn disjoint told away⟩
  have silent := told.silent (c.predecessor i) fun event hnew =>
    away i _ event hnew (watchedAt_iff.mpr ⟨hi, rfl⟩)
  rw [Store.domain, silent, Store.domain]

end

/-- **Another call at rest only forgets what was told.** -/
theorem Resting.filter_eq (h : c.Resting s) (hs : s.Valid) (hp : ∀ i ∈ pending, i < c.numNodes) :
    c.filter (pending, s) = .ok () ([], s) :=
  filter_eq_of_calm hs h.fit.known h.calm (fun _ hi fixed => h.joined hs hi fixed) hp

/-- **A circuit that is called comes to rest.** -/
theorem Prepared.ends_filter (h : c.Prepared pending s []) (hs : s.Valid) :
    Ends (c.filter (pending, s)) (fun _ r => s.Narrows c.own r.2 ∧ r.1 = [] ∧ c.Resting r.2)
      (fun _ r => s.Narrows c.own r.2) := by
  obtain two | one | none : 2 ≤ c.numNodes ∨ c.numNodes = 1 ∨ c.numNodes = 0 := by omega
  · have ready := h.ready two
    refine ((ready.ends_filter hs).and (ready.ends_filter_calm hs h.fit)).mono (fun _ r hr => ?_)
      fun _ r hr => hr.1.narrows
    obtain ⟨⟨narrows, waits, settled, -⟩, calm⟩ := hr
    exact ⟨narrows, waits, h.fit.narrows hs.store narrows.store, calm, fun _ => settled⟩
  · refine (ends_filter_single hs h.fit one).mono (fun _ _ h => h.elim) fun _ r hr => ?_
    rw [hr]
    exact .refl
  · have resting : c.Resting s := ⟨h.fit,
      ⟨fun i hi => absurd hi (by omega), fun v hv => absurd hv (by omega)⟩, fun two => by omega⟩
    rw [resting.filter_eq hs h.pending_lt]
    exact ⟨.refl, rfl, resting⟩

end Circuit
end BranchBound
