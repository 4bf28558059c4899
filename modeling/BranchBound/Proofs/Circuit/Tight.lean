import BranchBound.Proofs.Circuit.Pending

/-! # Chains that cannot be closed early

When an arc is joined, its source is removed from all other predecessors, and the last node of the chain
that results from the predecessors of its first, unless the chain visits every node.  So a circuit is
*tight* (`Circuit.Tight`): the source of a joined arc is no other predecessor, and an open chain of several
nodes, though not of all, cannot be closed.

This is said of the trailed integers without regard to what they describe, so it needs no more than that
they are in order.  The filter keeps it (`Circuit.Taut.ends_filter`), and so does whoever narrows the
domains. -/
namespace BranchBound
namespace Circuit
variable {c : Circuit} {s t u : Space} {r : List Nat × Space} {pending : List Nat} {i node source : Nat}
  {x : Int}

/-- The source of a joined arc is no other predecessor, and no open chain of several nodes, though not of all,
can be closed. -/
structure Tight (c : Circuit) (s : Space) : Prop where
  exclusive : ∀ i, i < c.numNodes → s.cells.value (c.merged i) ≠ 0 →
    ∀ x, s.store.fixed? (c.predecessor i) = some x →
      ∀ j, j < c.numNodes → j ≠ i → s.store.contains (c.predecessor j) x = false
  short : ∀ i, i < c.numNodes → s.cells.value (c.merged i) = 0 → 1 < s.cells.value (c.chainLength i) →
    s.cells.value (c.chainLength i) < c.numNodes →
      s.store.contains (c.predecessor i) (s.cells.value (c.chainEnd i)) = false

/-- At first no arc has been joined, and every chain has a single node. -/
theorem tight_of_initial
    (initial : ∀ k x, c.initialCells[k]? = some x → s.cells.value (c.firstCell + k) = x) : c.Tight s := by
  refine ⟨fun i hi hm => absurd ?_ hm, fun i hi _ long => absurd long ?_⟩ <;>
    obtain ⟨-, -, length, merged⟩ := getElem?_initialCells hi
  · rw [Circuit.merged, Nat.add_assoc, initial _ _ merged]
  · rw [chainLength, Nat.add_assoc, initial _ _ length]
    exact Int.lt_irrefl 1

/-- An arc that has been joined has a source. -/
theorem InOrder.exists_fixed (h : c.InOrder s) (hi : i < c.numNodes) (hm : s.cells.value (c.merged i) ≠ 0) :
    ∃ x, s.store.fixed? (c.predecessor i) = some x := by
  have fixed := h.fixed i hi hm
  cases hx : s.store.fixed? (c.predecessor i) with
  | some x => exact ⟨x, rfl⟩
  | none =>
    rw [Store.fixed?_eq_none_iff.mp hx] at fixed
    cases fixed

/-- **What is tight stays so** when domains shrink, if all that is said of an arc that is joined now is true,
and all that is said of a chain that has changed. -/
theorem Tight.step (h : c.Tight t) (order : c.InOrder t) (valid : t.store.Valid)
    (narrows : t.store.Narrows u.store)
    (exclusive : ∀ i, i < c.numNodes → u.cells.value (c.merged i) ≠ 0 →
      t.cells.value (c.merged i) ≠ 0 ∨ ∀ x, u.store.fixed? (c.predecessor i) = some x →
        ∀ j, j < c.numNodes → j ≠ i → u.store.contains (c.predecessor j) x = false)
    (short : ∀ i, i < c.numNodes → u.cells.value (c.merged i) = 0 →
      (t.cells.value (c.merged i) = 0 ∧ u.cells.value (c.chainEnd i) = t.cells.value (c.chainEnd i) ∧
        u.cells.value (c.chainLength i) = t.cells.value (c.chainLength i)) ∨
      (u.cells.value (c.chainLength i) < c.numNodes →
        u.store.contains (c.predecessor i) (u.cells.value (c.chainEnd i)) = false)) : c.Tight u where
  exclusive i hi hm x hx j hj hne := by
    rcases exclusive i hi hm with before | now
    · obtain ⟨y, hy⟩ := order.exists_fixed hi before
      obtain rfl : y = x := Option.some.inj ((narrows.fixed? valid hy).symm.trans hx)
      exact narrows.contains_eq_false valid (h.exclusive i hi before y hy j hj hne)
    · exact now x hx j hj hne
  short i hi hm long notAll := by
    rcases short i hi hm with ⟨before, last, length⟩ | now
    · rw [length] at long notAll
      rw [last]
      exact narrows.contains_eq_false valid (h.short i hi before long notAll)
    · exact now notAll

/-- It depends on the predecessors and on the own trailed integers. -/
theorem Tight.narrows (h : c.Tight t) (order : c.InOrder t) (valid : t.store.Valid)
    (narrows : t.store.Narrows u.store) (same : ∀ k, c.own k → u.cells.value k = t.cells.value k) :
    c.Tight u := by
  refine h.step order valid narrows (fun i hi hm => .inl ?_) fun i hi hm => .inl ⟨?_, ?_, ?_⟩
  · rwa [same _ (own_merged hi)] at hm
  · rwa [same _ (own_merged hi)] at hm
  · exact same _ (own_chainEnd hi)
  · exact same _ (own_chainLength hi)

theorem Tight.grows (h : c.Tight t) (order : c.InOrder t) (grown : t.store.Grows u.store)
    (same : ∀ k, c.own k → u.cells.value k = t.cells.value k) : c.Tight u := by
  have domain {i : Nat} (hi : i < c.numNodes) := (grown.known (order.known i hi)).2
  refine ⟨fun i hi hm x hx j hj hne => ?_, fun i hi hm long notAll => ?_⟩
  · rw [same _ (own_merged hi)] at hm
    rw [Store.fixed?, domain hi] at hx
    rw [Store.contains, domain hj]
    exact h.exclusive i hi hm x hx j hj hne
  · rw [same _ (own_merged hi)] at hm
    rw [same _ (own_chainLength hi)] at long notAll
    rw [Store.contains, domain hi, same _ (own_chainEnd hi)]
    exact h.short i hi hm long notAll

theorem Tight.congr_bare (h : c.Tight t) (order : c.InOrder t) (hb : u.bare = t.bare) : c.Tight u :=
  h.grows order (Store.grows_of_domains (Space.domains_eq_of_bare hb)) fun k _ => Space.value_eq_of_bare hb k

/-- The trailed integers are in order, and the circuit is tight. -/
structure Taut (c : Circuit) (s : Space) : Prop where
  inOrder : c.InOrder s
  tight : c.Tight s

theorem Taut.grows (h : c.Taut t) (grown : t.store.Grows u.store)
    (size : t.cells.values.size ≤ u.cells.values.size)
    (same : ∀ k, c.own k → u.cells.value k = t.cells.value k) : c.Taut u :=
  ⟨h.inOrder.grows grown size same, h.tight.grows h.inOrder grown same⟩

theorem Taut.congr_bare (h : c.Taut t) (hb : u.bare = t.bare) : c.Taut u :=
  ⟨h.inOrder.congr_bare hb, h.tight.congr_bare h.inOrder hb⟩

/-- Whoever narrows the domains and leaves the trailed integers alone keeps a circuit taut. -/
theorem Taut.narrows {other : Nat → Prop} (h : c.Taut t) (ht : t.Valid) (hn : t.Narrows other u)
    (disjoint : ∀ i, c.own i → ¬ other i) : c.Taut u :=
  have same (k : Nat) (hk : c.own k) : u.cells.value k = t.cells.value k := hn.cell_eq (disjoint k hk)
  ⟨h.inOrder.narrowed ht.store hn.store (Nat.le_of_eq hn.numCells_eq.symm) same,
    h.tight.narrows h.inOrder ht.store hn.store same⟩

/-! ## What the filter keeps -/

section
variable (hs : s.Valid) (fit : c.Fit s.store)
include hs fit

/-- What is removed on the way is gone. -/
theorem ends_removePredecessor_of_narrows (h : s.Narrows c.own t) (hi : i < c.numNodes) :
    Ends (c.removePredecessor i x (pending, t))
      (fun _ r => t.store.Narrows r.2.store ∧ r.2.store.contains (c.predecessor i) x = false ∧
        r.2.cells = t.cells) (fun _ _ => True) :=
  ends_removePredecessor_gone (h.valid hs) ((fit.narrows hs.store h.store).width_le i hi)

/-- **When two chains are joined**, the chain that results cannot be closed, unless it visits every node. -/
theorem ends_join_tight (h : Tended c s r) (tight : c.Tight r.2) (hsource : source < c.numNodes)
    (hnode : node < c.numNodes) :
    Ends (c.join source node r) (fun _ r' => c.Tight r'.2) (fun _ _ => True) := by
  obtain ⟨pending, t⟩ := r
  have valid := h.narrows.valid hs
  have size := h.inOrder.size_le
  have first_lt := h.inOrder.start_lt source hsource
  have last_lt := h.inOrder.end_lt node hnode
  generalize hfirst : (t.cells.value (c.chainStart source)).toNat = first
  generalize hlast : (t.cells.value (c.chainEnd node)).toNat = last
  generalize htotal : t.cells.value (c.chainLength first) + t.cells.value (c.chainLength node) = total
  rw [hfirst] at first_lt
  rw [hlast] at last_lt
  refine ends_join_of hfirst hlast rfl htotal (fun _ => ?_) fun _ => ?_
  · split
    · trivial
    · exact tight
  · dsimp only at size
    -- only the chain that starts in the first node has changed
    have result {u : Space} (narrows : t.store.Narrows u.store)
        (same : u.cells = c.linked first last total t.cells)
        (closed : total < c.numNodes → u.store.contains (c.predecessor first) last = false) :
        c.Tight u := by
      refine tight.step h.inOrder valid.store narrows (fun j hj hm => .inl ?_) fun j hj hm => ?_
      · rwa [same, merged_linked first_lt last_lt] at hm
      · rw [same, merged_linked first_lt last_lt] at hm
        rw [same, chainEnd_linked size first_lt last_lt hj, chainLength_linked size first_lt last_lt]
        by_cases hjf : j = first
        · subst hjf
          rw [if_pos rfl, if_pos rfl]
          exact .inr closed
        · rw [if_neg hjf, if_neg hjf]
          exact .inl ⟨hm, rfl, rfl⟩
    split
    · have narrows : s.Narrows c.own ⟨t.store, c.linked first last total t.cells⟩ :=
        narrows_linked h.narrows first_lt last_lt
      exact (ends_removePredecessor_of_narrows hs fit narrows first_lt).mono_ok fun _ r hr =>
        result hr.1 hr.2.2 fun _ => hr.2.1
    · rename_i all
      exact result .refl rfl fun notAll => absurd notAll all

/-- **When an arc is joined**, its source is removed from all other predecessors first. -/
theorem ends_merge_tight (h : Tended c s r) (tight : c.Tight r.2) (hnode : node < c.numNodes) :
    Ends (c.merge node r) (fun _ r' => c.Tight r'.2) (fun _ _ => True) := by
  obtain ⟨pending, t⟩ := r
  have valid := (h.narrows.valid hs).store
  refine ends_merge_of (fun source free fixed => ?_) fun _ => tight
  have removed := ends_forM (l := c.nodes.filter (· ≠ node))
    (f := fun other => c.removePredecessor other source)
    (I := fun before r => Tended c s r ∧ t.store.Narrows r.2.store ∧
      r.2.cells = t.cells.assign (c.merged node) 1 ∧
      ∀ j ∈ before, r.2.store.contains (c.predecessor j) source = false)
    (E := fun _ _ => True) (fun before other rest split r hr => ?_)
    ⟨h.joining hnode fixed, .refl, rfl, fun _ hj => by cases hj⟩
  · refine removed.mono_ok fun _ r hr => ?_
    obtain ⟨tended, narrows, cells, gone⟩ := hr
    have merged (j : Nat) : r.2.cells.value (c.merged j) =
        if j = node then 1 else t.cells.value (c.merged j) := by
      rw [cells, merged_joined h.inOrder.size_le hnode]
    refine ends_demand (fun w hw => ?_) fun _ => trivial
    refine ends_join_tight hs fit tended (tight.step h.inOrder valid narrows (fun j hj hm => ?_)
      fun j hj hm => .inl ?_) (node?_lt hw) hnode
    · by_cases hjn : j = node
      · subst hjn
        refine .inr fun y hy k hk hne => ?_
        obtain rfl : source = y := Option.some.inj ((narrows.fixed? valid fixed).symm.trans hy)
        exact gone k (List.mem_filter.mpr ⟨mem_nodes.mpr hk, by simpa using hne⟩)
      · rw [merged, if_neg hjn] at hm
        exact .inl hm
    · rw [merged] at hm
      split at hm
      · cases hm
      · rw [cells]
        exact ⟨hm, chainEnd_joined hj, chainLength_joined hj⟩
  · obtain ⟨tended, narrows, cells, gone⟩ := hr
    have mem : other ∈ c.nodes.filter (· ≠ node) := by rw [split]; simp
    have lt := mem_nodes.mp (List.mem_filter.mp mem).1
    have valid' := (tended.narrows.valid hs).store
    refine ((advances_removePredecessor hs tended lt).and
      (ends_removePredecessor_of_narrows hs fit tended.narrows lt)).mono (fun _ r' hr' => ?_)
      fun _ _ _ => trivial
    obtain ⟨⟨advances, -⟩, narrows', gone', cells'⟩ := hr'
    refine ⟨advances.tended, narrows.trans narrows', cells'.trans cells, fun j hj => ?_⟩
    rcases List.mem_append.mp hj with hj | hj
    · exact narrows'.contains_eq_false valid' (gone j hj)
    · obtain rfl := List.mem_singleton.mp hj
      exact gone'

omit fit in
theorem ends_assignOnly_tight {v count : Nat} (h : Tended c s r) (tight : c.Tight r.2) :
    Ends (c.assignOnly v count r) (fun _ r' => c.Tight r'.2) (fun _ _ => True) := by
  obtain ⟨pending, t⟩ := r
  have valid := (h.narrows.valid hs).store
  refine ends_assignOnly_of (fun _ => trivial) (fun _ node _ _ => ?_) fun _ _ => tight
  rw [Filter.assign, Filter.ends_onStore]
  exact (Store.keeps_assign valid).mono (fun changed store hn =>
    tight.narrows h.inOrder valid hn.narrows fun _ _ => rfl) fun _ _ _ => trivial

omit fit in
theorem ends_supports_tight (h : Tended c s r) (tight : c.Tight r.2) :
    Ends (c.supports r) (fun _ r' => c.Tight r'.2) (fun _ _ => True) := by
  exact (ends_supports_of (I := fun _ r' => Tended c s r' ∧ c.Tight r'.2) ⟨h, tight⟩ fun _ _ _ r hr =>
    ((advances_assignOnly hs hr.1).and (ends_assignOnly_tight hs hr.1 hr.2)).mono
      (fun _ _ hr' => ⟨hr'.1.1.tended, hr'.2⟩) fun _ _ _ => trivial).mono_ok fun _ _ hr => hr.2

theorem ends_round_tight (h : Tended c s r) (tight : c.Tight r.2) :
    Ends (c.round r) (fun _ r' => c.Tight r'.2) (fun _ _ => True) := by
  obtain ⟨pending, t⟩ := r
  cases pending with
  | nil => exact ends_round_nil.mpr (ends_supports_tight hs h tight)
  | cons node rest =>
    exact ends_round_cons.mpr (ends_merge_tight hs fit h.tail tight (h.pending_lt node List.mem_cons_self))

/-- **A call leaves a taut circuit taut.** -/
theorem Taut.ends_filter (h : c.Taut s) (lt : ∀ i ∈ pending, i < c.numNodes) :
    Ends (c.filter (pending, s)) (fun _ r => c.Taut r.2) (fun _ _ => True) := by
  have loops := ends_forM (l := c.nodes) (f := fun node => c.removePredecessor node node)
    (I := fun _ r' => Tended c s r' ∧ c.Tight r'.2) (E := fun _ _ => True) (s := (pending, s))
    (fun before i rest split r' hr => ?_) ⟨.refl h.inOrder lt, h.tight⟩
  · unfold filter
    refine loops.bind fun _ r' hr => ?_
    refine (ends_descend (I := fun r' => Tended c s r' ∧ c.Tight r'.2) (fun r' hr => ?_) hr).mono_ok
      fun _ _ hr => ⟨hr.1.inOrder, hr.2⟩
    exact ((advances_round hs hr.1).and (ends_round_tight hs fit hr.1 hr.2)).mono
      (fun _ _ hr' => ⟨hr'.1.1.tended, hr'.2⟩) fun _ _ _ => trivial
  · obtain ⟨tended, tight⟩ := hr
    have hi : i < c.numNodes := mem_nodes.mp (by rw [split]; simp)
    refine ((advances_removePredecessor hs tended hi).mono_ok fun _ r'' hr' => ?_).mono
      (fun _ _ => id) fun _ _ _ => trivial
    obtain ⟨advances, cells, removed⟩ := hr'
    exact ⟨advances.tended, tight.narrows tended.inOrder (tended.narrows.valid hs).store
      removed.narrows fun _ _ => by rw [cells]⟩

end

end Circuit
end BranchBound
