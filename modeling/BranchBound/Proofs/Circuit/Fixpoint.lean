import BranchBound.Proofs.Confluence.Circuit
import BranchBound.Proofs.Onward

/-! # What a circuit has come to at a fixpoint

The trailed integers of a circuit mean something at the ends of chains only; elsewhere they are left as they
were when a chain last began or ended there.  What they mean can be said without chains.  At a fixpoint, the
arcs that have been joined are those that are fixed, and unless all are fixed, the trailed integers at the
ends of every path of fixed arcs that cannot be made longer (`Circuit.Maximal`) tell its other end and its
length.  For such a path leads through a whole chain (`Maximal.exists_chain`).

This holds at every fixpoint of a run, and the domains are as the chains demand (`Circuit.fixpoint_described`):
only the constraint itself has to be fit for its domains. -/
namespace BranchBound
namespace Circuit
variable {c : Circuit} {s : Space} {F : Store} {ls : List (List Nat)} {l m : List Nat}
  {u v first last : Nat}

/-- A path of fixed arcs to which no node can be added. -/
structure Maximal (c : Circuit) (F : Store) (first : Nat) (l : List Nat) (last : Nat) : Prop where
  path : Path (c.Link F) first l last
  lt : ∀ v ∈ l, v < c.numNodes
  nodup : l.Nodup
  before : ∀ u, c.Link F u first → u ∈ l
  after : ∀ v, v < c.numNodes → c.Link F last v → v ∈ l

/-- What the trailed integers and the domains say at a fixpoint. -/
structure Described (c : Circuit) (s : Space) : Prop where
  merged : ∀ i, i < c.numNodes →
    (s.cells.value (c.merged i) = 1 ↔ s.store.isFixed (c.predecessor i) = true)
  ends : (∃ i, i < c.numNodes ∧ s.store.isFixed (c.predecessor i) = false) →
    ∀ first l last, c.Maximal s.store first l last →
      s.cells.value (c.chainEnd first) = last ∧ s.cells.value (c.chainStart last) = first ∧
        s.cells.value (c.chainLength first) = l.length ∧
        (l.length < c.numNodes → s.store.contains (c.predecessor first) last = false)
  apart : ∀ i, i < c.numNodes → s.store.contains (c.predecessor i) i = false
  exclusive : ∀ i, i < c.numNodes → ∀ x, s.store.fixed? (c.predecessor i) = some x →
    ∀ j, j < c.numNodes → j ≠ i → s.store.contains (c.predecessor j) x = false
  supported : ∀ v : Nat, v < c.numNodes → ∃ i, i < c.numNodes ∧ s.store.contains (c.predecessor i) v = true
  only : ∀ v i : Nat, v < c.numNodes → i < c.numNodes → s.store.contains (c.predecessor i) v = true →
    (∀ j, j < c.numNodes → s.store.contains (c.predecessor j) v = true → j = i) →
      s.store.fixed? (c.predecessor i) = some (v : Int)

/-- It does not matter who waits. -/
theorem Described.withPending (h : c.Described s) (pending : List Nat) :
    ({ c with pending } : Circuit).Described s :=
  ⟨h.merged, fun free first l last path => h.ends free first l last
    ⟨path.path, path.lt, path.nodup, path.before, path.after⟩, h.apart, h.exclusive, h.supported, h.only⟩

/-! ## Maximal paths are chains -/

/-- A chain contains every node to which a joined arc leads from one of its nodes. -/
theorem Chains.mem_of_arc (h : c.Chains s ls) (hm : m ∈ ls) (hu : u ∈ m) (hv : v < c.numNodes)
    (arc : c.Arc s u v) : v ∈ m := by
  obtain ⟨m', hm', hmem⟩ := h.exists_mem hv
  obtain ⟨x, y, chain⟩ := h.chain m' hm'
  have source : u ∈ m' := by
    rcases chain.path.pred_of_mem hmem with rfl | ⟨w, hw, arc'⟩
    · rcases chain.joined with free | ⟨closing, -⟩
      · exact absurd (free.symm.trans arc.1) (by simp)
      · exact closing.unique arc ▸ chain.path.last_mem
    · exact arc'.unique arc ▸ hw
  exact h.eq_of_mem hm hm' hu source ▸ hmem

section
variable (rest : c.Resting s) (taut : c.Taut s) (hs : s.Valid) (chains : c.Chains s ls)
include rest taut hs chains

omit taut in
/-- Every fixed arc has been joined at rest. -/
theorem arc_of_link (hv : v < c.numNodes) (link : c.Link s.store u v) : c.Arc s u v :=
  ⟨chains.merged_eq hv (rest.joined hs hv (isFixed_of_eq link)), link⟩

omit taut in
/-- **Fixed arcs form no loop**, unless all are fixed. -/
theorem not_loop (free : ∃ i, i < c.numNodes ∧ s.store.isFixed (c.predecessor i) = false)
    (nodup : l.Nodup) (lt : ∀ v ∈ l, v < c.numNodes) : ¬ Loop (c.Link s.store) l := by
  intro loop
  obtain ⟨i, hi, unfixed⟩ := free
  have joined : Loop (c.Arc s) l := loop.mono fun _ v hv => arc_of_link rest hs chains (lt v hv)
  have all := chains.numNodes_le_of_loop joined lt
  have sub : l ⊆ c.nodes := fun v hv => mem_nodes.mpr (lt v hv)
  have perm := (List.subperm_of_subset nodup sub).perm_of_length_le (by simpa [nodes] using all)
  obtain ⟨u, -, link⟩ := loop.pred_of_mem (perm.mem_iff.mpr (mem_nodes.mpr hi))
  rw [isFixed_of_eq link] at unfixed
  cases unfixed

variable (free : ∃ i, i < c.numNodes ∧ s.store.isFixed (c.predecessor i) = false)
  (h : c.Maximal s.store first l last)
include free h

omit taut in
/-- No fixed arc leads to the first node of a maximal path, and none leaves its last. -/
theorem Maximal.isolated : (∀ u, ¬ c.Link s.store u first) ∧
    ∀ v, v < c.numNodes → ¬ c.Link s.store last v := by
  have inside {m : List Nat} (sub : m ⊆ l) : ∀ v ∈ m, v < c.numNodes := fun v hv => h.lt v (sub hv)
  constructor
  · intro u link
    obtain ⟨m, path, before⟩ := h.path.exists_prefix (h.before u link)
    exact not_loop rest hs chains free (h.nodup.sublist before.sublist) (inside before.subset)
      ⟨first, u, path, link⟩
  · intro v hv link
    obtain ⟨m, path, after⟩ := h.path.exists_suffix (h.after v hv link)
    exact not_loop rest hs chains free (h.nodup.sublist after.sublist) (inside after.subset)
      ⟨v, last, path, link⟩

/-- **A maximal path leads through a whole chain.** -/
theorem Maximal.exists_chain : ∃ m, c.Chain s first m last ∧ m.length = l.length := by
  obtain ⟨noneBefore, noneAfter⟩ := h.isolated rest hs chains free
  have hfirst := h.lt first h.path.first_mem
  have closed := closed_of_resting rest taut.tight hs
  obtain ⟨m, hm, hmem⟩ := chains.exists_mem hfirst
  obtain ⟨x, y, chain⟩ := chains.chain m hm
  -- both begin in the same node, since its predecessor is not fixed
  obtain rfl : first = x := by
    apply chain.eq_first hmem
    by_contra joined
    obtain ⟨value, fixed⟩ := taut.inOrder.exists_fixed hfirst joined
    obtain ⟨u, -, rfl⟩ := rest.fit.sources first hfirst value (hs.store.contains_of_fixed? fixed)
    exact noneBefore u fixed
  have sub : l ⊆ m := h.path.forth (fun u v hv link hu => by
    have lt := h.lt v (List.mem_of_mem_tail hv)
    exact chains.mem_of_arc hm hu lt (arc_of_link rest hs chains lt link)) hmem
  have sub' : m ⊆ l := chain.path.forth (fun u v hv arc hu => by
    have lt := chains.lt_of_mem hm (List.mem_of_mem_tail hv)
    rcases h.path.succ_of_mem hu with rfl | ⟨w, hw, link⟩
    · exact absurd arc.2 (noneAfter v lt)
    · -- the source of one fixed arc is that of no other
      obtain rfl : v = w := by
        by_contra hne
        have gone := closed.exclusive w (h.lt w hw) u link v lt hne
        exact absurd (gone.symm.trans (hs.store.contains_of_fixed? arc.2)) Bool.false_ne_true
      exact hw) h.path.first_mem
  obtain rfl : last = y := chain.eq_last (sub h.path.last_mem) fun v hv arc =>
    noneAfter v (chains.lt_of_mem hm hv) arc.2
  have nodup := (List.nodup_flatten.mp chains.nodup).1 m hm
  exact ⟨m, chain, Nat.le_antisymm (List.subperm_of_subset nodup sub').length_le
    (List.subperm_of_subset h.nodup sub).length_le⟩

end

/-! ## At a fixpoint -/

/-- Some node can come behind a node that has the support that it needs. -/
theorem Supported.exists_node (h : c.Supported F v) :
    ∃ i, i < c.numNodes ∧ F.contains (c.predecessor i) v = true := by
  obtain ⟨i, hi, inside⟩ := List.countP_pos_iff.mp (Nat.pos_of_ne_zero h.some)
  exact ⟨i, mem_nodes.mp hi, inside⟩

/-- And if only one node can, it does. -/
theorem Supported.fixed_of_sole {i : Nat} (h : c.Supported F v) (hi : i < c.numNodes)
    (inside : F.contains (c.predecessor i) v = true)
    (sole : ∀ j, j < c.numNodes → F.contains (c.predecessor j) v = true → j = i) :
    F.fixed? (c.predecessor i) = .some (v : Int) := by
  have le : c.support F v ≤ [i].length := by
    unfold support
    rw [List.countP_eq_length_filter]
    apply (List.subperm_of_subset (List.nodup_range.filter _) _).length_le
    intro j hj
    obtain ⟨hj, found⟩ := List.mem_filter.mp hj
    exact List.mem_singleton.mpr (sole j (mem_nodes.mp hj) found)
  exact h.only (Nat.le_antisymm le (Nat.pos_of_ne_zero h.some)) i hi inside

/-- At rest the joined arcs are the fixed ones. -/
theorem merged_eq_one_iff {i : Nat} (rest : c.Resting s) (taut : c.Taut s) (hs : s.Valid)
    (chains : c.Chains s ls) (hi : i < c.numNodes) :
    s.cells.value (c.merged i) = 1 ↔ s.store.isFixed (c.predecessor i) = true := by
  constructor
  · intro joined
    apply taut.inOrder.fixed i hi
    rw [joined]
    exact Int.one_ne_zero
  · intro fixed
    exact chains.merged_eq hi (rest.joined hs hi fixed)

/-- **What the trailed integers and the domains say of a circuit at rest.** -/
theorem described_of_resting (rest : c.Resting s) (taut : c.Taut s) (hs : s.Valid) (two_le : 2 ≤ c.numNodes) :
    c.Described s := by
  obtain ⟨ls, chains⟩ := (rest.settled two_le).chains
  have closed := closed_of_resting rest taut.tight hs
  exact {
    merged := fun i hi => merged_eq_one_iff rest taut hs chains hi
    ends := by
      intro free first l last h
      obtain ⟨m, chain, length⟩ := h.exists_chain rest taut hs chains free
      exact ⟨chain.end_eq, chain.start_eq, length ▸ chain.length_eq, closed.short first last l h.path h.lt⟩
    apart := closed.apart
    exclusive := closed.exclusive
    supported := fun v hv => (closed.supported v hv).exists_node
    only := fun v i hv hi inside sole => (closed.supported v hv).fixed_of_sole hi inside sole }

variable {e e₁ e₂ e₃ : Engine Constraint} {mode : Engine.Mode}

/-- **At every fixpoint** of a run in which a circuit was posted that is fit for its domains, its trailed
integers describe the maximal paths of fixed arcs, and its domains are filtered accordingly. -/
theorem fixpoint_described (made : e.Made) (fit : c.Fit e.store) (two_le : 2 ≤ c.numNodes)
    (posted : e.post (.circuit c) = .ok e₁) (onward : e₁.Onward mode e₂) (idle : mode.Idle)
    (quiet : e₂.propagate = .ok () e₃) :
    ∃ d, e₃.propagator? e.numPropagators = some (.circuit d) ∧ d.predecessors = c.predecessors ∧
      d.Described e₃.space := by
  have attaches := attaches_restContract (s := e.space) fit
  have before := onward.upheld made attaches (lasting_restContract _) posted
  have after := (onward.quiet_of_propagate before.valid idle quiet).upheld made attaches
    (lasting_restContract _) posted
  obtain ⟨q, found, ⟨pending, rfl⟩, -⟩ := after.posted
  have settled : Resting _ e₃.space ∧ Taut _ e₃.space := after.settled rfl
  refine ⟨_, found, rfl, ?_⟩
  exact (described_of_resting settled.1 settled.2 after.valid.space two_le).withPending pending

end Circuit

/-! ## A sample -/

namespace Engine

/-- Four nodes, each of which can come before any. -/
def fourNodes : Engine Constraint :=
  (do
    let e ← ({} : Engine Constraint).declare 0 3
    let e ← e.declare 0 3
    let e ← e.declare 0 3
    e.declare 0 3 : Except Fault (Engine Constraint)).toOption.getD {}

/-- A cycle through four nodes. -/
def quadrangle : Engine Constraint :=
  (fourNodes.post (.circuit { predecessors := #[0, 1, 2, 3] })).toOption.getD {}

/-- Two levels are opened, and a node is put before another. -/
def bent : Engine Constraint := quadrangle.propagated.checkpoint.checkpoint.narrowed (Store.assign 1 2)

theorem post_fourNodes : fourNodes.post (.circuit { predecessors := #[0, 1, 2, 3] }) = .ok quadrangle := rfl

theorem made_fourNodes : fourNodes.Made :=
  @Made.declare _ _ _ _ 0 3 (@Made.declare _ _ _ _ 0 3 (@Made.declare _ _ _ _ 0 3
    (@Made.declare _ _ _ _ 0 3 .empty rfl) rfl) rfl) rfl

theorem run_bent : quadrangle.Run .free bent := by
  have valid := (made_fourNodes.post post_fourNodes).valid
  have quiet := Run.quiet_of_propagate valid .start (.inl rfl) (propagate_eq_of_isSome (by decide +kernel))
  exact Run.narrowed valid (quiet.quiet_of_checkpoint valid).checkpoint (.inl rfl)
    (.of_keeps fun _ hs => Store.keeps_assign hs)

end Engine

namespace Circuit

/-- Nodes 2 and 1 form a maximal path, and cannot be closed. -/
theorem fixpoint_described_fourNodes :
    Maximal { predecessors := #[0, 1, 2, 3] } Engine.bent.propagated.store 2 [2, 1] 1 ∧
    ∃ d, Engine.bent.propagated.propagator? 0 = some (.circuit d) ∧ d.predecessors = #[0, 1, 2, 3] ∧
      d.Described Engine.bent.propagated.space := by
  have unfixed : Engine.bent.propagated.store.fixed? 2 = none := by decide +kernel
  have away : ∀ v, v < 4 → ¬ Link { predecessors := #[0, 1, 2, 3] } Engine.bent.propagated.store 1 v := by
    decide +kernel
  have maximal : Maximal { predecessors := #[0, 1, 2, 3] } Engine.bent.propagated.store 2 [2, 1] 1 := by
    refine ⟨.step (by decide +kernel) (.single 1), by decide, by decide, fun u link => ?_, fun v hv link => ?_⟩
    · exact absurd (unfixed.symm.trans link) (by simp)
    · exact absurd link (away v hv)
  refine ⟨maximal, fixpoint_described Engine.made_fourNodes (Constraint.Tidy.fit_circuit ?_) (by decide)
    Engine.post_fourNodes (.run .start (.inl rfl) Engine.run_bent) (.inl rfl)
    (Engine.propagate_eq_of_isSome (by decide +kernel))⟩
  exact Constraint.tidy_circuit 0 3 (by decide) (by decide) (by decide) (by decide) (by decide) (by decide)

end Circuit
end BranchBound
