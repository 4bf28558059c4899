import BranchBound.Proofs.Circuit.Rounds
import BranchBound.Proofs.Constraint
import BranchBound.Proofs.Repetition

/-! # Calls of constraints

A constraint that is called may have to look at its variables again because of what it narrowed itself.  What a
call comes to is put down with nothing said of how often it looks (`Constraint.Performs`).

**Every call comes to a result**, whatever the arguments and the domains (`Constraint.performs`): a pass that
answers that it narrowed something has taken away a value (`Filter.lowers_of_filters`), and a circuit takes one of
its pending nodes off, or takes away a value.  There is no other result that it comes to
(`Constraint.Performs.unique`). -/
namespace BranchBound

/-- A pass that does its work lowers the number of values whenever it answers that it narrowed something. -/
theorem Filter.lowers_of_filters {pass : Filter Bool} {H : Space → Assignment → Prop} {P : Space → Prop}
    (work : ∀ s, s.Valid → Filters noCells (H s) False pass s (P s)) : Lowers Space.numValues pass Space.Valid := by
  intro s t hs run
  obtain ⟨advance, -⟩ := Ends.of_ok (work s hs) run
  exact ⟨advance.narrows.valid hs, advance.changed_lt rfl⟩

theorem ChangeoverCost.lowers_pass {c : ChangeoverCost} : Lowers Space.numValues c.pass Space.Valid := by
  intro s t hs run
  obtain ⟨narrows, -, less, -⟩ := (c.ends_pass (B := False) hs fun h => h.elim).of_ok run
  exact ⟨narrows.valid hs, less rfl⟩

namespace Constraint
variable {c : Constraint} {s : Space} {pass : Filter Bool} {f : Filter Unit}

/-- The pass that a constraint repeats until it narrows nothing. -/
def pass? : Constraint → Option (Filter Bool)
  | .timeWindow c => some c.pass
  | .linearSum c => some c.pass
  | .cumulativeProduction c => some c.pass
  | .demandCapacity c => some c.pass
  | .changeoverCost c => some c.pass
  | .circuit _ | .productionLink _ | .stockingCost _ => none

/-- The filter of a constraint that looks at its variables once. -/
def once? : Constraint → Option (Filter Unit)
  | .productionLink c => some c.filter
  | .stockingCost c => some c.filter
  | _ => none

/-- What a call of a constraint comes to, however often it looks at its variables. -/
inductive Performs (s : Space) : Constraint → EStateM.Result Halt (Constraint × Space) Unit → Prop
  | once {c : Constraint} {f : Filter Unit} (h : c.once? = some f) : Performs s c (mapState (c, ·) (f s))
  | passes {c : Constraint} {pass : Filter Bool} {r : EStateM.Result Halt Space Unit} (h : c.pass? = some pass)
    (repeats : Repeats pass s r) : Performs s c (mapState (c, ·) r)
  | loops {c : Circuit} {halt : Halt} {r : List Nat × Space}
    (refuted : (c.nodes.forM fun node => c.removePredecessor node node) (c.pending, s) = .error halt r) :
    Performs s (.circuit c) (.error halt (.circuit { c with pending := r.1 }, r.2))
  | rounds {c : Circuit} {first : List Nat × Space} {r : EStateM.Result Halt (List Nat × Space) Unit}
    (loops : (c.nodes.forM fun node => c.removePredecessor node node) (c.pending, s) = .ok () first)
    (repeats : Repeats c.round first r) :
    Performs s (.circuit c) (mapState (fun r => (.circuit { c with pending := r.1 }, r.2)) r)

theorem pass?_of_once (h : c.once? = some f) : c.pass? = none := by
  cases c with
  | productionLink | stockingCost => rfl
  | _ => cases h

theorem lowers_pass (h : c.pass? = some pass) : Lowers Space.numValues pass Space.Valid := by
  cases c with
  | circuit | productionLink | stockingCost => cases h
  | timeWindow c | linearSum c | cumulativeProduction c | demandCapacity c =>
    cases h
    exact Filter.lowers_of_filters fun s hs => c.filters_pass hs fun h => h.elim
  | changeoverCost c =>
    cases h
    exact c.lowers_pass

theorem run_eq : f.run c s = mapState (c, ·) (f s) := by
  unfold Filter.run Filter.beside
  dsimp only
  cases f s <;> rfl

theorem propagate_of_once (h : c.once? = some f) : Propagator.propagate c s = mapState (c, ·) (f s) := by
  cases c with
  | productionLink | stockingCost =>
    cases h
    exact run_eq
  | _ => cases h

theorem propagate_of_pass (h : c.pass? = some pass) :
    Propagator.propagate c s = mapState (c, ·) (descend Space.numValues pass s) := by
  cases c with
  | circuit | productionLink | stockingCost => cases h
  | _ =>
    cases h
    exact run_eq

/-- **Every call of a constraint comes to a result.** -/
theorem performs (c : Constraint) (hs : s.Valid) : c.Performs s (Propagator.propagate c s) := by
  cases hpass : c.pass? with
  | some pass =>
    rw [propagate_of_pass hpass]
    exact .passes hpass (repeats_descend (lowers_pass hpass) hs)
  | none =>
    cases honce : c.once? with
    | some f =>
      rw [propagate_of_once honce]
      exact .once honce
    | none =>
      obtain ⟨c, rfl⟩ : ∃ d, c = .circuit d := by
        cases c with
        | circuit d => exact ⟨d, rfl⟩
        | productionLink | stockingCost => cases honce
        | _ => cases hpass
      have called : Propagator.propagate (Constraint.circuit c) s =
          mapState (fun r => (.circuit { c with pending := r.1 }, r.2)) (c.filter (c.pending, s)) :=
        Circuit.propagate_eq
      rw [called]
      cases hloops : (c.nodes.forM fun node => c.removePredecessor node node) (c.pending, s) with
      | error halt r =>
        rw [show c.filter (c.pending, s) = .error halt r from bind_of_error hloops]
        exact .loops hloops
      | ok _ first =>
        have valid : first.2.Valid := by
          have fallen := Circuit.falls_forM (l := c.nodes) (f := fun node => c.removePredecessor node node)
            (fun _ => Circuit.falls_removePredecessor) (c.pending, s) hs
          exact (fallen.of_ok hloops).1
        rw [show c.filter (c.pending, s) = descend Circuit.potential c.round first from bind_of_ok hloops]
        exact .rounds hloops (repeats_descend Circuit.lowers_rounds valid)

/-- There is nothing else that a call comes to. -/
theorem Performs.unique {r r' : EStateM.Result Halt (Constraint × Space) Unit} (h : c.Performs s r)
    (h' : c.Performs s r') : r = r' := by
  cases h with
  | once honce =>
    cases h' with
    | once honce' => rw [Option.some.inj (honce.symm.trans honce')]
    | passes hpass => cases (pass?_of_once honce).symm.trans hpass
    | loops | rounds => cases honce
  | passes hpass repeats =>
    cases h' with
    | once honce => cases (pass?_of_once honce).symm.trans hpass
    | passes hpass' repeats' =>
      cases hpass.symm.trans hpass'
      rw [repeats.unique repeats']
    | loops | rounds => cases hpass
  | loops refuted =>
    cases h' with
    | once honce => cases honce
    | passes hpass => cases hpass
    | loops refuted' => cases refuted.symm.trans refuted'; rfl
    | rounds loops => cases refuted.symm.trans loops
  | rounds loops repeats =>
    cases h' with
    | once honce => cases honce
    | passes hpass => cases hpass
    | loops refuted => cases refuted.symm.trans loops
    | rounds loops' repeats' =>
      cases loops.symm.trans loops'
      rw [repeats.unique repeats']

end Constraint
end BranchBound
