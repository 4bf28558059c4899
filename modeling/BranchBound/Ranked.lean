import BranchBound.Model

/-! # Propagators with other priorities

A propagator can be given another priority.  It does what it did, but it is called at another time.  The
constraints of a model can be posted in any order, each with any priority (`Model.Schedules`). -/
namespace BranchBound

structure Ranked (π : Type) where
  propagator : π
  rank : Priority
  deriving Repr, DecidableEq

instance {π : Type} [Propagator π] : Propagator (Ranked π) where
  name p := Propagator.name p.propagator
  priority := Ranked.rank
  fits p := Propagator.fits p.propagator
  watches p := Propagator.watches p.propagator
  cells p := Propagator.cells p.propagator
  attach p firstCell s := { p with propagator := Propagator.attach p.propagator firstCell s }
  notify p s i event :=
    (Propagator.notify p.propagator s i event).map ({ p with propagator := · }) id
  synchronise p s := { p with propagator := Propagator.synchronise p.propagator s }
  propagate p s :=
    match Propagator.propagate p.propagator s with
    | .ok _ (propagator, s) => .ok () ({ p with propagator }, s)
    | .error halt (propagator, s) => .error halt ({ p with propagator }, s)

namespace Model
variable {π : Type} (m : Model π)

/-- The constraints of a model in some order, each with some priority. -/
def Schedules (rs : List (Ranked π)) : Prop := (rs.map Ranked.propagator).Perm m.constraints

/-- The model with its constraints in another order and with other priorities. -/
def scheduled (rs : List (Ranked π)) : Model (Ranked π) where
  ranges := m.ranges
  holes := m.holes
  constraints := rs
  objective := m.objective
  decisions := m.decisions

end Model
end BranchBound
