import BranchBound.Proofs.Confluence.Changeovers
import BranchBound.Proofs.Confluence.Circuit
import BranchBound.Proofs.Confluence.Costs
import BranchBound.Proofs.Confluence.Demand
import BranchBound.Proofs.Confluence.Plans
import BranchBound.Proofs.Confluence.Windows
import BranchBound.Proofs.Quiescence
import BranchBound.Proofs.Ranked

/-! # Constraints that shelter what they leave

What a constraint leaves when it has nothing more to do is said of the domains alone
(`Constraint.Closed`, `Constraint.Rested.closed`).  Whenever the constraint is called in a space that encloses
a store of which this is true, it shelters the store (`Constraint.Keeps.shelters`): so whatever was inferred
on the way to the store, and in which order, a call infers no more than that. -/
namespace BranchBound

namespace Contract
variable {π : Type} [Propagator π] {k : Contract π} {C : Store → Prop}

/-- Whoever is called takes no value away from a store of which something is true. -/
def Shelters (k : Contract π) (C : Store → Prop) : Prop :=
  ∀ p s F, k.Ready p s [] → s.Valid → F.Valid → C F → s.store.Encloses F →
    Ends (Propagator.propagate p s) (fun _ r => r.2.store.Encloses F) Filter.Unrefuted

theorem Shelters.ranked (h : k.Shelters C) : k.ranked.Shelters C :=
  fun p s F ready hs hF closed encloses =>
    Ranked.ends_propagate.mpr (h p.propagator s F ready hs hF closed encloses)

end Contract

namespace Circuit
variable {c d : Circuit} {F : Store} {j : Nat}

/-- Which trailed integers a circuit has does not matter for what it leaves. -/
theorem Closed.congr (h : c.Closed F) (same : d.predecessors = c.predecessors) : d.Closed F := by
  cases c
  cases d
  cases same
  exact ⟨h.apart, fun v hv => ⟨(h.supported v hv).some, (h.supported v hv).only⟩, h.exclusive, h.short⟩

/-- Every node comes before another one. -/
theorem Closed.exists_after (h : c.Closed F) (hj : j < c.numNodes) :
    ∃ i < c.numNodes, i ≠ j ∧ F.contains (c.predecessor i) j = true := by
  have some : 0 < c.support F j := Nat.pos_of_ne_zero (h.supported j hj).some
  obtain ⟨i, hi, inside⟩ := List.countP_pos_iff.mp some
  refine ⟨i, mem_nodes.mp hi, fun same => ?_, inside⟩
  subst same
  rw [h.apart i hj] at inside
  cases inside

end Circuit

namespace Constraint
variable {c p : Constraint} {r : Rule} {s : Space} {F : Store}

/-- What is left when a constraint has nothing more to do. -/
def Closed : Constraint → Store → Prop
  | .circuit d => d.Closed
  | .timeWindow d => d.Closed
  | .linearSum d => d.Closed
  | .productionLink d => d.Agreed
  | .cumulativeProduction d => fun F => d.Base F ∧ d.Closed F
  | .demandCapacity d => fun F => d.Exact ∧ d.Closed F
  | .stockingCost d => d.Spec
  | .changeoverCost d => fun F => d.Base F ∧ d.Closed F

/-- What a constraint cannot tell by itself: times can be inferred of the end of a visit only if another node
comes after it, and demands that are cut might seem to be met. -/
def Aided : Constraint → Store → Prop
  | .timeWindow d, F =>
    ∀ j < d.numNodes, ∃ i < d.numNodes, i ≠ j ∧ F.contains (d.predecessor i) j = true
  | .demandCapacity d, _ => d.Exact
  | _, _ => True

/-! ## What is closed at rest -/

/-- **What a constraint that rests has left is closed.** -/
theorem Rested.closed (h : c.Rested s) (hs : s.Valid) (base : ∀ r, c.rule? = some r → r.Base s.store)
    (width_le : ∀ v ∈ c.choices, (s.store.domain v).width ≤ Domain.holeLimit)
    (aided : c.Aided s.store) : c.Closed s.store := by
  have rests {r : Rule} (hr : c.rule? = some r) : r.filter s = .ok () s := (h.rule r hr).2 s hs rfl
  cases c with
  | circuit d =>
    obtain ⟨d', same, resting, taut⟩ := h.circuit d rfl
    exact (Circuit.closed_of_resting resting taut.tight hs).congr same.symm
  | timeWindow d =>
    refine TimeWindow.closed_of_rests hs (base _ rfl) (fun i hi => width_le _ ?_) aided (rests rfl)
    have lt : i < d.predecessors.size := hi
    simp [choices, TimeWindow.predecessor, lt]
  | linearSum d => exact LinearSum.closed_of_rests hs (rests rfl)
  | productionLink d => exact ProductionLink.agreed_of_rests hs (h.rule _ rfl).1 (rests rfl)
  | cumulativeProduction d =>
    exact ⟨base _ rfl, CumulativeProduction.closed_of_rests hs (base _ rfl) (rests rfl)⟩
  | demandCapacity d =>
    exact ⟨aided, DemandCapacity.closed_of_rests aided hs (fun v hv _ => width_le v hv) (rests rfl)⟩
  | stockingCost d => exact StockingCost.spec_of_rests hs (base _ rfl) (rests rfl)
  | changeoverCost d =>
    exact ⟨base _ rfl, ChangeoverCost.closed_of_rests hs (base _ rfl) width_le (rests rfl)⟩

/-! ## What is sheltered -/

/-- **A rule shelters what it leaves.** -/
theorem shelters_rule (hr : c.rule? = some r) (base : r.Base s.store) (hs : s.Valid) (hF : F.Valid)
    (closed : c.Closed F) (encloses : s.store.Encloses F) : Filter.Shelters F r.filter s := by
  cases c <;> cases hr
  case timeWindow d => exact TimeWindow.shelters_filter hF hs encloses base closed
  case linearSum d => exact LinearSum.shelters_filter hF hs encloses closed
  case productionLink d => exact ProductionLink.shelters_filter hF hs encloses closed
  case cumulativeProduction d =>
    exact CumulativeProduction.shelters_filter hF hs encloses closed.1 closed.2
  case demandCapacity d => exact DemandCapacity.shelters_filter hF hs encloses closed.2 closed.1
  case stockingCost d => exact StockingCost.shelters_filter hF hs encloses base closed
  case changeoverCost d => exact ChangeoverCost.shelters_filter hF hs encloses base closed.1 closed.2

/-- **A constraint that is called shelters what it leaves.** -/
theorem Called.shelters (h : c.Called p s) (hs : s.Valid) (hF : F.Valid) (closed : c.Closed F)
    (encloses : s.store.Encloses F) :
    Ends (Propagator.propagate p s) (fun _ r => r.2.store.Encloses F) Filter.Unrefuted := by
  cases hr : c.rule? with
  | some r =>
    obtain ⟨rfl, base⟩ := h.rule r hr
    rw [(follows hr).propagate, Rule.ends_run]
    exact (shelters_rule hr base hs hF closed encloses).mono (fun _ _ ht => ht.encloses) fun _ _ => id
  | none =>
    obtain ⟨d, rfl⟩ := exists_circuit hr
    obtain ⟨d', pending, same, rfl, ready⟩ := h.circuit d rfl
    obtain ⟨ls, chains⟩ := ready.chains
    have closed' : d'.Closed F := Circuit.Closed.congr closed same
    rw [Circuit.ends_propagate]
    exact Circuit.shelters_filter hF hs ready.base closed' ready.working chains encloses

theorem Keeps.shelters {k : Contract Constraint} (h : c.Keeps k) : k.Shelters c.Closed :=
  fun p s _ ready hs hF closed encloses => (h.called p s ready).shelters hs hF closed encloses

end Constraint
end BranchBound
