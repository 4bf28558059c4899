import BranchBound.Proofs.Circuit.Cells
import BranchBound.Proofs.Contract
import BranchBound.Proofs.Path
import Mathlib.Data.List.Pairwise

/-! # Circuits

An assignment is a circuit if the predecessors form one loop through all nodes (`Circuit.Holds`).

The arcs that are joined form chains, and the trailed integers describe them (`Circuit.Chains`): the
chains partition the nodes, and a chain is closed only if it contains all of them.  Joining an arc joins
two chains; where the filter narrows or refutes the domains, a circuit would contain a smaller loop, or a
node that is the predecessor of two others or of none. -/
namespace BranchBound
namespace Circuit
variable (c : Circuit)

/-- Whether a node is the predecessor of another in an assignment. -/
def Before (a : Assignment) (u v : Nat) : Prop := a (c.predecessor v) = (u : Int)

/-- The predecessors form one loop through all nodes. -/
def Holds (a : Assignment) : Prop := ∃ l : List Nat, l.Perm c.nodes ∧ Loop (c.Before a) l

/-- There are at least two nodes, and their variables are distinct; a predecessor is a node. -/
structure Base (s : Space) : Prop where
  two_le : 2 ≤ c.numNodes
  size_le : c.firstCell + 4 * c.numNodes ≤ s.cells.values.size
  injective : ∀ i j, i < c.numNodes → j < c.numNodes → c.predecessor i = c.predecessor j → i = j
  known : ∀ i, i < c.numNodes → c.predecessor i < s.store.numVars
  sources : ∀ i, i < c.numNodes → ∀ x, s.store.contains (c.predecessor i) x = true →
    ∃ j : Nat, j < c.numNodes ∧ x = j

variable {c}

theorem mem_nodes {i : Nat} : i ∈ c.nodes ↔ i < c.numNodes := List.mem_range

theorem Base.narrows {own : Nat → Prop} {s t : Space} (h : c.Base s) (hs : s.Valid)
    (hn : s.Narrows own t) : c.Base t where
  two_le := h.two_le
  size_le := hn.numCells_eq ▸ h.size_le
  injective := h.injective
  known i hi := hn.store.numVars_eq ▸ h.known i hi
  sources i hi x hx := h.sources i hi x (hn.store.contains hs.store hx)

/-- Where a predecessor is fixed, it is a node. -/
theorem Base.exists_source {s : Space} {i : Nat} {x : Int} (h : c.Base s) (hs : s.Valid)
    (hi : i < c.numNodes) (fixed : s.store.fixed? (c.predecessor i) = some x) :
    ∃ j : Nat, j < c.numNodes ∧ x = j :=
  h.sources i hi x (hs.store.contains_of_fixed? fixed)

/-! ## Circuits -/

namespace Holds
variable {a : Assignment} {i j u v : Nat} {l : List Nat} (h : c.Holds a)
include h

/-- Every node is the predecessor of some node. -/
theorem exists_after (hj : j < c.numNodes) : ∃ i, i < c.numNodes ∧ c.Before a j i := by
  obtain ⟨l, perm, loop⟩ := h
  obtain ⟨i, hi, before⟩ := loop.succ_of_mem (perm.mem_iff.mpr (mem_nodes.mpr hj))
  exact ⟨i, mem_nodes.mp (perm.mem_iff.mp hi), before⟩

/-- Only the predecessors matter. -/
theorem congr {b : Assignment} (same : ∀ i, i < c.numNodes → b (c.predecessor i) = a (c.predecessor i)) :
    c.Holds b := by
  obtain ⟨l, perm, loop⟩ := h
  refine ⟨l, perm, loop.mono fun u v hv before => ?_⟩
  unfold Before
  rw [same v (mem_nodes.mp (perm.mem_iff.mp hv))]
  exact before

/-- No node is the predecessor of two nodes. -/
theorem injective (hu : u < c.numNodes) (hv : v < c.numNodes)
    (same : a (c.predecessor u) = a (c.predecessor v)) : u = v := by
  -- all nodes occur among the predecessors, of which there are no more than nodes
  have sub : c.nodes ⊆ c.nodes.map fun i => (a (c.predecessor i)).toNat := by
    intro j hj
    obtain ⟨i, hi, before⟩ := h.exists_after (mem_nodes.mp hj)
    exact List.mem_map.mpr ⟨i, mem_nodes.mpr hi, by unfold Before at before; omega⟩
  have perm := (List.subperm_of_subset List.nodup_range sub).perm_of_length_le (by simp [nodes])
  have nodup := perm.nodup_iff.mp List.nodup_range
  exact List.inj_on_of_nodup_map nodup (mem_nodes.mpr hu) (mem_nodes.mpr hv) (by rw [same])

/-- **There is no smaller loop.** -/
theorem numNodes_le (loop : Loop (c.Before a) l) (inside : ∃ v ∈ l, v < c.numNodes) :
    c.numNodes ≤ l.length := by
  obtain ⟨tour, perm, all⟩ := h
  obtain ⟨v, hv, hlt⟩ := inside
  have unique (u u' v : Nat) (hu : c.Before a u v) (hu' : c.Before a u' v) : u = u' := by
    unfold Before at hu hu'
    omega
  have sub := all.subset loop unique (perm.mem_iff.mpr (mem_nodes.mpr hlt)) hv
  have := (List.subperm_of_subset (perm.nodup_iff.mpr List.nodup_range) sub).length_le
  rw [perm.length_eq] at this
  simpa [nodes] using this

/-- No node is its own predecessor. -/
theorem ne_self (two_le : 2 ≤ c.numNodes) (hi : i < c.numNodes) : ¬ c.Before a i i := by
  intro before
  have small := h.numNodes_le ⟨i, i, .single i, before⟩ ⟨i, List.mem_singleton_self i, hi⟩
  rw [List.length_singleton] at small
  omega

end Holds

/-! ## Chains -/

/-- The predecessor of a node is fixed, and the arc was joined. -/
def Arc (c : Circuit) (s : Space) (u v : Nat) : Prop :=
  s.cells.value (c.merged v) = 1 ∧ s.store.fixed? (c.predecessor v) = some (u : Int)

/-- A chain of joined arcs as the trailed integers describe it; only one through all nodes is closed. -/
structure Chain (c : Circuit) (s : Space) (first : Nat) (l : List Nat) (last : Nat) : Prop where
  path : Path (c.Arc s) first l last
  start_eq : s.cells.value (c.chainStart last) = first
  end_eq : s.cells.value (c.chainEnd first) = last
  length_eq : s.cells.value (c.chainLength first) = l.length
  joined : s.cells.value (c.merged first) = 0 ∨ (c.Arc s last first ∧ l.length = c.numNodes)

/-- The chains partition the nodes. -/
structure Chains (c : Circuit) (s : Space) (ls : List (List Nat)) : Prop where
  perm : ls.flatten.Perm c.nodes
  chain : ∀ l ∈ ls, ∃ first last, c.Chain s first l last

variable {s t : Space} {ls : List (List Nat)} {l m : List Nat} {first last i : Nat}

theorem Chain.congr (h : c.Chain s first l last)
    (merged : ∀ v ∈ l, t.cells.value (c.merged v) = s.cells.value (c.merged v))
    (fixed : ∀ v ∈ l, ∀ x, s.store.fixed? (c.predecessor v) = some x →
      t.store.fixed? (c.predecessor v) = some x)
    (hs : t.cells.value (c.chainStart last) = s.cells.value (c.chainStart last))
    (he : t.cells.value (c.chainEnd first) = s.cells.value (c.chainEnd first))
    (hl : t.cells.value (c.chainLength first) = s.cells.value (c.chainLength first)) :
    c.Chain t first l last := by
  have arc (u v : Nat) (hv : v ∈ l) (h : c.Arc s u v) : c.Arc t u v :=
    ⟨(merged v hv).trans h.1, fixed v hv _ h.2⟩
  refine ⟨h.path.mono arc, hs.trans h.start_eq, he.trans h.end_eq, hl.trans h.length_eq, ?_⟩
  rcases h.joined with free | ⟨closed, length⟩
  · exact .inl ((merged _ h.path.first_mem).trans free)
  · exact .inr ⟨arc _ _ h.path.first_mem closed, length⟩

theorem Chains.lt_of_mem (h : c.Chains s ls) (hl : l ∈ ls) (hi : i ∈ l) : i < c.numNodes :=
  mem_nodes.mp (h.perm.mem_iff.mp (List.mem_flatten.mpr ⟨l, hl, hi⟩))

/-- Chains depend on the fixed predecessors and on the trailed integers alone. -/
theorem Chains.congr (h : c.Chains s ls) (cells : ∀ i, c.own i → t.cells.value i = s.cells.value i)
    (fixed : ∀ v, v < c.numNodes → ∀ x, s.store.fixed? (c.predecessor v) = some x →
      t.store.fixed? (c.predecessor v) = some x) : c.Chains t ls := by
  refine ⟨h.perm, fun l hl => ?_⟩
  obtain ⟨first, last, chain⟩ := h.chain l hl
  have hfirst := h.lt_of_mem hl chain.path.first_mem
  have hlast := h.lt_of_mem hl chain.path.last_mem
  exact ⟨first, last, chain.congr (fun v hv => cells _ (own_merged (h.lt_of_mem hl hv)))
    (fun v hv => fixed v (h.lt_of_mem hl hv)) (cells _ (own_chainStart hlast))
    (cells _ (own_chainEnd hfirst)) (cells _ (own_chainLength hfirst))⟩

theorem Chains.nodup (h : c.Chains s ls) : ls.flatten.Nodup := h.perm.nodup_iff.mpr List.nodup_range

theorem Chains.exists_mem (h : c.Chains s ls) (hi : i < c.numNodes) : ∃ l ∈ ls, i ∈ l :=
  List.mem_flatten.mp (h.perm.mem_iff.mpr (mem_nodes.mpr hi))

theorem Chains.eq_of_mem (h : c.Chains s ls) (hl : l ∈ ls) (hm : m ∈ ls) (hil : i ∈ l) (him : i ∈ m) :
    l = m := by
  by_cases heq : l = m
  · exact heq
  have : Std.Symm (List.Disjoint : List Nat → List Nat → Prop) := ⟨fun _ _ h _ ha hb => h hb ha⟩
  exact absurd him ((List.nodup_flatten.mp h.nodup).2.forall hl hm heq hil)

theorem Chains.length_le (h : c.Chains s ls) (hl : l ∈ ls) : l.length ≤ c.numNodes := by
  have nodup := (List.nodup_flatten.mp h.nodup).1 l hl
  have sub : l ⊆ c.nodes := fun i hi => mem_nodes.mpr (h.lt_of_mem hl hi)
  have := (List.subperm_of_subset nodup sub).length_le
  simpa [nodes] using this

/-- An arc that is not joined leads to the first node of a chain. -/
theorem Chain.eq_first (h : c.Chain s first l last) (hi : i ∈ l)
    (free : s.cells.value (c.merged i) = 0) : i = first := by
  rcases h.path.pred_of_mem hi with rfl | ⟨u, -, arc⟩
  · rfl
  · exact absurd (free.symm.trans arc.1) (by simp)

/-- A node that no joined arc leaves is the last of a chain. -/
theorem Chain.eq_last (h : c.Chain s first l last) (hi : i ∈ l) (none : ∀ v ∈ l, ¬ c.Arc s i v) :
    i = last :=
  (h.path.succ_of_mem hi).resolve_right fun ⟨v, hv, arc⟩ => none v hv arc

/-- **When everything is fixed and joined, the predecessors form a circuit.** -/
theorem Chains.holds (h : c.Chains s ls) (pos : 0 < c.numNodes)
    (joined : ∀ i, i < c.numNodes → s.cells.value (c.merged i) ≠ 0) : c.Holds s.store.lower := by
  obtain ⟨l, hl, hmem⟩ := h.exists_mem pos
  obtain ⟨first, last, chain⟩ := h.chain l hl
  have before (u v : Nat) (_ : v ∈ l) (arc : c.Arc s u v) : c.Before s.store.lower u v :=
    (Store.fixed?_eq_some_iff.mp arc.2).1
  rcases chain.joined with free | ⟨closed, length⟩
  · exact absurd free (joined first (h.lt_of_mem hl chain.path.first_mem))
  · refine ⟨l, ?_, Loop.mono ⟨first, last, chain.path, closed⟩ before⟩
    have nodup := (List.nodup_flatten.mp h.nodup).1 l hl
    have sub : l ⊆ c.nodes := fun i hi => mem_nodes.mpr (h.lt_of_mem hl hi)
    exact (List.subperm_of_subset nodup sub).perm_of_length_le (by simp [nodes, length])

end Circuit
end BranchBound
