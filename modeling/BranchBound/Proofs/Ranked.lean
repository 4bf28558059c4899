import BranchBound.Proofs.Contract
import BranchBound.Ranked

/-! # Contracts with other priorities

What can be relied on of a propagator does not depend on its priority: a contract is kept by the propagator
with any other priority as well (`Contract.ranked`, `Contract.Attaches.ranked`). -/
namespace BranchBound

namespace Ranked
variable {π : Type} [Propagator π] {p : Ranked π} {s : Space}

theorem propagate_eq : Propagator.propagate p s =
    mapState (fun r => ({ p with propagator := r.1 }, r.2)) (Propagator.propagate p.propagator s) := by
  simp only [Propagator.propagate]
  cases Propagator.propagate p.propagator s with
  | ok _ r => rfl
  | error _ r => rfl

theorem ends_propagate {Q : Unit → Ranked π × Space → Prop} {E : Halt → Ranked π × Space → Prop} :
    Ends (Propagator.propagate p s) Q E ↔ Ends (Propagator.propagate p.propagator s)
      (fun u r => Q u ({ p with propagator := r.1 }, r.2))
      (fun halt r => E halt ({ p with propagator := r.1 }, r.2)) := by
  rw [propagate_eq, ends_mapState]

instance [LawfulPropagator π] : LawfulPropagator (Ranked π) where
  narrows p _ hs := ends_propagate.mpr (LawfulPropagator.narrows p.propagator hs)

end Ranked

namespace Contract
variable {π : Type} [Propagator π] {k : Contract π} {p : Ranked π} {s : Space}

/-- What is relied on of a propagator, whatever its priority is. -/
def ranked (k : Contract π) : Contract (Ranked π) where
  watches := k.watches
  own := k.own
  Is p := k.Is p.propagator
  Ready p := k.Ready p.propagator
  Settled := k.Settled
  Holds := k.Holds
  Sure := k.Sure
  is_of_ready := k.is_of_ready
  ready_mono := k.ready_mono
  ready_congr := k.ready_congr
  settled_congr := k.settled_congr
  ready_narrows := k.ready_narrows
  settled_narrows := k.settled_narrows
  notified := k.notified
  synchronised := k.synchronised
  propagated ready hs := Ranked.ends_propagate.mpr (k.propagated ready hs)
  spares ready hs ha holds := Ranked.ends_propagate.mpr (k.spares ready hs ha holds)

theorem Attaches.ranked (h : k.Attaches p.propagator s) : k.ranked.Attaches p s where
  watches := h.watches
  own := h.own
  ready := h.ready
  keptPrivate p := h.keptPrivate p.propagator

end Contract
end BranchBound
