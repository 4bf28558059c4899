import BranchBound.Constraint
import BranchBound.Proofs.ChangeoverCost.Filter
import BranchBound.Proofs.Circuit.Contract
import BranchBound.Proofs.CumulativeProduction
import BranchBound.Proofs.DemandCapacity
import BranchBound.Proofs.LinearSum
import BranchBound.Proofs.ProductionLink
import BranchBound.Proofs.StockingCost
import BranchBound.Proofs.TimeWindow

/-! # Constraints

Every constraint keeps a contract: a circuit one of its own (`Circuit.contract`), and the others follow
rules (`Constraint.follows`).  Seen from a model, a constraint that suits the domains (`Constraint.Suits`)
has a contract by which it spares the assignments for which it holds (`Constraint.Holds`), and which says
something of the domains when it has settled (`Constraint.Said`). -/
namespace BranchBound

namespace Circuit
variable {c : Circuit} {s t : Space}

/-- The nodes that are noted are handed over in the state, and the filter reads no others. -/
theorem propagate_eq {pending : List Nat} :
    Propagator.propagate (Constraint.circuit { c with pending }) s =
      mapState (fun r => (.circuit { c with pending := r.1 }, r.2)) (c.filter (pending, s)) := by
  have opened : Circuit.filter { c with pending } (pending, s) = c.filter (pending, s) := rfl
  change Constraint.propagate (.circuit { c with pending }) s = _
  unfold Constraint.propagate Circuit.propagate
  dsimp only
  rw [opened]
  cases c.filter (pending, s) with
  | ok _ r => rfl
  | error _ r => rfl

theorem ends_propagate {pending : List Nat} {Q : Unit → Constraint × Space → Prop}
    {E : Halt → Constraint × Space → Prop} :
    Ends (Propagator.propagate (Constraint.circuit { c with pending }) s) Q E ↔
      Ends (c.filter (pending, s)) (fun u r => Q u (.circuit { c with pending := r.1 }, r.2))
        (fun halt r => E halt (.circuit { c with pending := r.1 }, r.2)) := by
  rw [propagate_eq, ends_mapState]

/-- What is relied on of a circuit, whatever waits to be joined. -/
def contract (c : Circuit) : Contract Constraint where
  watches := c.watches
  own := c.own
  Is p := ∃ pending, p = .circuit { c with pending }
  Ready p s due := ∃ pending, p = .circuit { c with pending } ∧ c.Ready pending s due
  Settled := c.Settled
  Holds := c.Holds
  Sure := True
  is_of_ready ready := ready.imp fun _ h => h.1
  ready_mono ready sub := ready.imp fun _ h => ⟨h.1, h.2.mono sub⟩
  ready_congr ready hb := ready.imp fun _ h => ⟨h.1, h.2.congr_bare hb⟩
  settled_congr settled hb := (settled.ready.congr_bare hb).settled
  ready_narrows ready hs hn disjoint told sub due :=
    ready.imp fun _ h => ⟨h.1, h.2.narrows hs hn disjoint told sub due⟩
  settled_narrows settled hs hn disjoint told away := settled.narrows hs hn disjoint told away
  notified {p s i v event due} hw ready := by
    obtain ⟨pending, rfl, ready⟩ := ready
    refine ⟨⟨if event = .assign then i :: pending else pending, ?_, ready.notify hw⟩, rfl⟩
    exact congrArg Constraint.circuit (Circuit.notify_eq { c with pending } i event)
  synchronised is _ settled := by
    obtain ⟨pending, rfl⟩ := is
    exact ⟨[], rfl, settled.ready⟩
  propagated ready hs := by
    obtain ⟨pending, rfl, ready⟩ := ready
    rw [ends_propagate]
    refine (ready.ends_filter hs).mono (fun _ r hr => ?_) fun halt r hr =>
      ⟨hr.narrows, ⟨r.1, rfl⟩, fun _ => hr.unfaulty trivial⟩
    obtain ⟨narrows, none, settled, -⟩ := hr
    exact ⟨narrows, ⟨[], by rw [none], settled.ready⟩, settled⟩
  spares ready hs ha holds := by
    obtain ⟨pending, rfl, ready⟩ := ready
    rw [ends_propagate]
    exact (ready.ends_filter hs).mono (fun _ r hr => hr.2.2.2 _ holds ha) fun halt r hr cause hc =>
      hr.refuted cause hc _ holds ha

/-- There are at least two nodes, and their variables are distinct; a predecessor is a node. -/
structure Suits (c : Circuit) (s : Store) : Prop where
  two_le : 2 ≤ c.numNodes
  injective : ∀ i j, i < c.numNodes → j < c.numNodes → c.predecessor i = c.predecessor j → i = j
  known : ∀ i, i < c.numNodes → c.predecessor i < s.numVars
  sources : ∀ i, i < c.numNodes → ∀ x, s.contains (c.predecessor i) x = true →
    ∃ j : Nat, j < c.numNodes ∧ x = j

/-- The trailed integers of a circuit that is attached are new. -/
theorem own_attach {i : Nat} (hi : (c.attach s.cells.values.size s.store).own i) :
    s.cells.values.size ≤ i ∧ i < s.cells.values.size + (Propagator.cells (Constraint.circuit c)).length := by
  refine ⟨hi.1, Nat.lt_of_lt_of_eq hi.2 ?_⟩
  change _ = _ + c.initialCells.length
  rw [length_initialCells]
  rfl

/-- **A circuit that suits the domains keeps its contract from the start.** -/
theorem Suits.attaches_contract (h : c.Suits s.store) :
    (c.attach s.cells.values.size s.store).contract.Attaches (.circuit c) s where
  watches := rfl
  own _ := own_attach
  ready := ⟨_, rfl, ready_attach h.two_le h.injective h.known h.sources⟩
  keptPrivate := by
    rintro p s t due ⟨pending, hp, ready⟩ same size cells
    exact ⟨pending, hp, ready.congr (by rw [same]) size cells⟩

end Circuit

namespace Constraint

/-- The rule that a constraint follows, if it has no memory. -/
def rule? : Constraint → Option Rule
  | .circuit _ => none
  | .timeWindow c => some c.rule
  | .linearSum c => some c.rule
  | .productionLink c => some c.rule
  | .cumulativeProduction c => some c.rule
  | .demandCapacity c => some c.rule
  | .stockingCost c => some c.rule
  | .changeoverCost c => some c.rule

/-- Only a circuit has a memory. -/
theorem exists_circuit {c : Constraint} (h : c.rule? = none) : ∃ d, c = .circuit d := by
  cases c with
  | circuit d => exact ⟨d, rfl⟩
  | _ => cases h

theorem ne_circuit {c : Constraint} {r : Rule} (h : c.rule? = some r) (d : Circuit) : c ≠ .circuit d := by
  rintro rfl
  cases h

theorem follows {c : Constraint} {r : Rule} (h : c.rule? = some r) : Rule.Follows c r := by
  cases c <;> cases h <;>
    exact ⟨rfl, rfl, fun _ _ => rfl, fun _ _ _ => rfl, fun _ => rfl, fun _ => rfl⟩

instance : LawfulPropagator Constraint where
  narrows c s hs := by
    cases h : c.rule? with
    | some r => exact (follows h).narrows hs
    | none =>
      obtain ⟨c, rfl⟩ := exists_circuit h
      have narrowing := Circuit.narrowing_filter hs (c := c) (r := (c.pending, s)) .refl
      exact Circuit.ends_propagate.mpr narrowing

/-! ## Constraints of models -/

/-- A constraint fits together and suits the domains that it starts from. -/
structure Suits (c : Constraint) (s : Store) : Prop where
  fits : c.fits = true
  watched : ∀ v events, (v, events) ∈ c.watches → v < s.numVars
  circuit : ∀ d : Circuit, c = .circuit d → d.Suits s
  rule : ∀ r, c.rule? = some r → r.Base s

/-- The assignments for which a constraint holds. -/
def Holds (c : Constraint) (a : Assignment) : Prop :=
  (∀ d : Circuit, c = .circuit d → d.Holds a) ∧ ∀ r, c.rule? = some r → r.Holds a

/-- What a constraint that has settled says of the domains. -/
structure Said (c : Constraint) (s : Store) : Prop where
  circuit : ∀ d : Circuit, c = .circuit d →
    (∀ i, i < d.numNodes → s.isFixed (d.predecessor i) = true) → d.Holds s.lower
  rule : ∀ r, c.rule? = some r → r.Base s ∧ r.Spec s

/-- What a constraint is like when it is called, as `p`; a circuit has its trailed integers by then. -/
structure Called (c p : Constraint) (s : Space) : Prop where
  circuit : ∀ d : Circuit, c = .circuit d → ∃ (d' : Circuit) (pending : List Nat),
    d'.predecessors = d.predecessors ∧ p = .circuit { d' with pending } ∧ d'.Ready pending s []
  rule : ∀ r, c.rule? = some r → p = c ∧ r.Base s.store

/-- A contract says what a model relies on of a constraint. -/
structure Keeps (c : Constraint) (k : Contract Constraint) : Prop where
  sure : k.Sure
  called : ∀ p s, k.Ready p s [] → c.Called p s
  holds : ∀ a, c.Holds a → k.Holds a
  said : ∀ t, k.Settled t → c.Said t.store

theorem exists_contract (c : Constraint) (s : Space) (h : c.Suits s.store) :
    ∃ k : Contract Constraint, k.Attaches c s ∧ c.Keeps k := by
  cases hr : c.rule? with
  | some r =>
    have unique (r' : Rule) (hr' : c.rule? = some r') : r' = r :=
      Option.some.inj (hr'.symm.trans hr)
    refine ⟨_, Rule.attaches_contract (follows hr) (h.rule r hr), trivial, fun p t ready => ?_,
      fun a ha => ha.2 r hr, fun t ht => ?_⟩
    · exact ⟨fun d hd => (ne_circuit hr d hd).elim,
        fun r' hr' => unique r' hr' ▸ ⟨ready.1, r.base_congr.mp ready.2⟩⟩
    exact ⟨fun d hd => (ne_circuit hr d hd).elim,
      fun r' hr' => unique r' hr' ▸ ⟨r.base_congr.mp ht.1, r.spec_congr.mp ht.2⟩⟩
  | none =>
    obtain ⟨d, rfl⟩ := exists_circuit hr
    refine ⟨_, (h.circuit d rfl).attaches_contract, trivial,
      fun p t ready => ⟨fun d' hd => ?_, fun r hr' => by cases hr'⟩, fun a ha => ha.1 d rfl,
      fun t ht => ⟨fun d' hd fixed => ?_, fun r hr' => by cases hr'⟩⟩ <;> cases hd
    · obtain ⟨pending, hp, ready⟩ := ready
      exact ⟨d.attach s.cells.values.size s.store, pending, rfl, hp, ready⟩
    · exact ht.holds fixed

end Constraint
end BranchBound
