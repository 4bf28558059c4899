import BranchBound.Proofs.Onward

/-! # Circuits keep all tours and nothing else

A *tour* is an assignment of the predecessors by which they form a single cycle through all nodes
(`Circuit.Holds`).  From when a circuit is posted onward, whatever else there is, a call takes no tour away
and refutes domains only if no tour is left in them, and where all predecessors are fixed at rest, they are a
tour (`Circuit.keeps_tours`).

Nothing is asked of the width of the domains.  Where they are too wide for values between the bounds to be
removed, an arc that would close a chain early may remain until it is fixed; then joining it refutes. -/
namespace BranchBound
namespace Circuit
variable {c : Circuit} {s t : Space} {a : Assignment} {e e₁ e₂ : Engine Constraint} {m : Engine.Mode}

/-- The predecessors have values within their domains. -/
def Within (c : Circuit) (s : Store) (a : Assignment) : Prop :=
  ∀ i, i < c.numNodes → s.contains (c.predecessor i) (a (c.predecessor i)) = true

/-- A circuit takes no tour away, refutes only what contains no tour, and is satisfied by nothing but tours. -/
structure KeepsTours (c : Circuit) (id : Nat) (m : Engine.Mode) (e : Engine Constraint) : Prop where
  called : m = .busy → ∃ d, e.propagator? id = some (.circuit d) ∧ d.predecessors = c.predecessors ∧
    Ends (Propagator.propagate (Constraint.circuit d) e.space)
      (fun _ r => ∀ a, c.Holds a → c.Within e.store a → c.Within r.2.store a)
      (fun halt _ => (∃ cause, halt = .inconsistent cause) ∧ ∀ a, c.Holds a → ¬ c.Within e.store a)
  fixed : m = .quiet → (∀ i, i < c.numNodes → e.store.isFixed (c.predecessor i) = true) →
    c.Holds e.store.lower

/-- What is within the domains of the predecessors is part of an assignment within all domains. -/
theorem Holds.exists_admits (h : c.Holds a) (hs : s.Valid) (within : c.Within s.store a) :
    ∃ b, c.Holds b ∧ s.store.Admits b ∧
      ∀ i, i < c.numNodes → b (c.predecessor i) = a (c.predecessor i) := by
  obtain ⟨b, admits, same⟩ := hs.store.exists_admits (a := a)
    (P := fun v => ∃ i, i < c.numNodes ∧ v = c.predecessor i) fun v ⟨i, hi, hv⟩ => hv ▸ within i hi
  have same (i : Nat) (hi : i < c.numNodes) : b (c.predecessor i) = a (c.predecessor i) :=
    same _ ⟨i, hi, rfl⟩
  exact ⟨b, h.congr same, admits, same⟩

/-- **A circuit that is called spares every tour of its predecessors**, whatever the other variables are. -/
theorem ends_spared_of_ready {p : Constraint} (ready : c.contract.Ready p s []) (hs : s.Valid) :
    Ends (Propagator.propagate p s)
      (fun _ r => ∀ a, c.Holds a → c.Within s.store a → c.Within r.2.store a)
      (fun halt _ => (∃ cause, halt = .inconsistent cause) ∧ ∀ a, c.Holds a → ¬ c.Within s.store a) := by
  have propagated := c.contract.propagated ready hs
  refine ends_of (fun _ r hr a holds within => ?_) fun halt r hr => ⟨?_, fun a holds within => ?_⟩
  · obtain ⟨b, holds', admits, same⟩ := holds.exists_admits hs within
    have spared : r.2.store.Admits b := (c.contract.spares ready hs admits holds').of_ok hr
    obtain ⟨-, ⟨_, -, after⟩, -⟩ := propagated.of_ok hr
    intro i hi
    rw [← same i hi]
    exact spared _ (after.base.known i hi)
  · obtain ⟨-, -, unfaulty⟩ := propagated.of_error hr
    cases halt with
    | inconsistent cause => exact ⟨cause, rfl⟩
    | fault cause => exact absurd rfl (unfaulty trivial cause)
  · obtain ⟨b, holds', admits, -⟩ := holds.exists_admits hs within
    have spared := (c.contract.spares ready hs admits holds').of_error hr
    obtain ⟨-, -, unfaulty⟩ := propagated.of_error hr
    cases halt with
    | inconsistent cause => exact spared cause rfl
    | fault cause => exact unfaulty trivial cause rfl

/-- **Circuits keep all tours and nothing else.**  In any engine, whatever was posted before and will be posted
later, a circuit over several distinct variables whose values are nodes takes no tour away, and leaves nothing
but tours. -/
theorem keeps_tours (made : e.Made) (suits : c.Suits e.store) (posted : e.post (.circuit c) = .ok e₁)
    (onward : e₁.Onward m e₂) : c.KeepsTours e.numPropagators m e₂ := by
  have upheld := onward.upheld made suits.attaches_contract (lasting_contract _) posted
  obtain ⟨q, found, ⟨pending, rfl⟩, ready⟩ := upheld.posted
  refine ⟨fun busy => ⟨_, found, rfl, ?_⟩, fun quiet fixed => ?_⟩
  · have spared := ends_spared_of_ready (ready (.inl busy)) upheld.valid.space
    exact spared
  · have settled : Settled _ e₂.space := upheld.settled quiet
    exact settled.holds fixed

/-! ## A sample -/

/-- Three nodes that can form two cycles; when one node has been put before another, only one cycle is left,
and is found. -/
theorem keeps_tours_threeNodes : Engine.triangle.Onward .busy (Engine.turned.deliverAll none) ∧
    KeepsTours { predecessors := #[0, 1, 2] } 0 .busy (Engine.turned.deliverAll none) ∧
    Engine.triangle.Onward .quiet Engine.turned.propagated ∧
    (∀ i, i < 3 → Engine.turned.propagated.store.isFixed i = true) ∧
    KeepsTours { predecessors := #[0, 1, 2] } 0 .quiet Engine.turned.propagated := by
  have made : Engine.triangle.Made := Engine.made_threeNodes.post Engine.post_threeNodes
  have valid := (Engine.run_turned.inside made.valid).valid
  have turned : Engine.triangle.Onward .free Engine.turned := .run .start (.inl rfl) Engine.run_turned
  have told : Engine.triangle.Onward .busy (Engine.turned.deliverAll none) :=
    turned.run (.inl rfl) (.deliver .start (.inl rfl))
  have quiet := turned.quiet_of_propagate valid (.inl rfl) Engine.propagate_turned
  have suits := Engine.tidy_threeNodes.fit_circuit.suits (by decide)
  exact ⟨told, keeps_tours Engine.made_threeNodes suits Engine.post_threeNodes told, quiet,
    by decide +kernel, keeps_tours Engine.made_threeNodes suits Engine.post_threeNodes quiet⟩

end Circuit
end BranchBound
