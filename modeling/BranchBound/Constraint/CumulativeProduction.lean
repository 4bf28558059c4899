import BranchBound.Propagator
import BranchBound.Word

/-! # Cumulative production

The 0/1 indicators of one item, one for every period: up to every period it is produced at
least as often as it is required by then, and in total exactly as often as it is required by
the last period.

Let a period be *tight before* if the production that is still possible up to it is just
what is required by then: every open indicator up to it has to be 1.  Let it be *tight after*
if the production behind it has reached what may still be required: every open indicator
behind it has to be 0.  The last period that is tight before and the first that is tight
after say all. -/
namespace BranchBound

structure CumulativeProduction where
  /-- The indicators, by period. -/
  produced : List Var
  /-- How often the item is required up to and including a period. -/
  required : List Int
  deriving Repr, DecidableEq

namespace CumulativeProduction
variable (c : CumulativeProduction)

def fits : Bool := c.produced.length = c.required.length

/-- How often the item is required altogether. -/
def total : Int := c.required.getLast?.getD 0

/-- What is fixed and what is open up to and including a period. -/
structure Count where
  produced : Int
  possible : Int
  deriving Repr, DecidableEq

def Count.add (n : Count) : Option Int → Count
  | some 1 => { n with produced := n.produced + 1 }
  | some _ => n
  | none => { n with possible := n.possible + 1 }

/-- The counts up to every period, from those before the first one. -/
def counts : Count → List (Option Int) → List Count
  | _, [] => []
  | n, x :: xs => n.add x :: counts (n.add x) xs

/-- The first so many periods have to produce, and none from there on may. -/
structure Tight where
  produceBefore : Nat := 0
  idleFrom : Option Nat := none
  deriving Repr, DecidableEq

/-- How often the item may be produced behind a period, given what is required altogether and
by the period. -/
def allowed (total required : Int) : Int := Word.integer (total - required)

/-- Looks at a period, given its number, its counts and what is required by it. -/
def tighten (total produced : Int) (t : Tight) (period : Nat) (n : Count) (required : Int) :
    Except Conflict Tight :=
  if n.produced + n.possible < required then .error .demandNotMet
  else if allowed total required < produced - n.produced then .error .overProduction
  else .ok {
    produceBefore :=
      if n.produced + n.possible = required ∧ 0 < n.possible then period + 1 else t.produceBefore
    idleFrom :=
      if produced - n.produced = allowed total required ∧ t.idleFrom = none then some (period + 1)
      else t.idleFrom }

/-- What the indicators, given by their only values, leave no choice about. -/
def tight (fixed : List (Option Int)) : Except Conflict Tight := do
  let counts := counts ⟨0, 0⟩ fixed
  let produced := (counts.getLast?.map (·.produced)).getD 0
  let t ← (counts.zip c.required).zipIdx.foldlM
    (fun t ((n, required), period) => tighten c.total produced t period n required) {}
  if c.total < produced then .error .overProduction
  else if produced = c.total then return { t with idleFrom := some 0 }
  else return t

/-- Narrows an indicator, unless it is fixed already. -/
def settle (narrowing : Filter Bool) (v : Var) : Filter Bool := do
  if ← Filter.read (·.isFixed v) then return false else narrowing

def pass : Filter Bool := do
  let fixed ← Filter.read fun s => c.produced.map s.fixed?
  match c.tight fixed with
  | .error cause => refute (.conflict cause)
  | .ok t =>
    let idle := (t.idleFrom.map c.produced.drop).getD []
    Filter.inTurn
      [Filter.each (c.produced.take t.produceBefore) fun v => settle (Filter.setLower v 1) v,
        Filter.each idle fun v => settle (Filter.setUpper v 0) v]

def filter : Filter Unit := Filter.untilStable c.pass

def watches : List (Var × List Event) := c.produced.map fun v => (v, [Event.assign])

end CumulativeProduction
end BranchBound
