import BranchBound.Word

/-! # The incumbent

The best solution that any worker has found.  **A solution replaces it only if it is strictly
better**, so of equally good solutions the first one stays. -/
namespace BranchBound

/-- A solution with its objective value and the worker who found it. -/
structure Reported (α : Type) where
  objective : Int
  solution : α
  worker : Nat
  deriving Repr, DecidableEq

structure Incumbent (α : Type) where
  best : Option (Reported α) := none
  /-- The objective value of the best solution, kept beside it so that it can be read alone; the
  greatest integer as long as there is none. -/
  objective : Int := Word.maxInteger
  /-- The two agree. -/
  mirrors : objective = (best.map Reported.objective).getD Word.maxInteger := by rfl
  deriving Repr, DecidableEq

namespace Incumbent
variable {α : Type}

instance : Inhabited (Incumbent α) := ⟨{}⟩

/-- What the objective has to be lower than.  The greatest integer is no bound: everything that a
worker can find is lower. -/
def bound (i : Incumbent α) : Option Int :=
  if i.objective = Word.maxInteger then none else some i.objective

/-- Whether a candidate is strictly better than the incumbent. -/
def accepts (i : Incumbent α) (candidate : Reported α) : Bool :=
  i.best.all fun best => candidate.objective < best.objective

/-- The incumbent after a candidate. -/
def consider (i : Incumbent α) (candidate : Reported α) : Incumbent α :=
  if i.accepts candidate then { best := some candidate, objective := candidate.objective } else i

/-- The candidates that replace the incumbent in turn, and the incumbent after all of them. -/
def merge (i : Incumbent α) : List (Reported α) → List (Reported α) × Incumbent α
  | [] => ([], i)
  | candidate :: candidates =>
    let (accepted, last) := (i.consider candidate).merge candidates
    (if i.accepts candidate then candidate :: accepted else accepted, last)

/-- The bound is the objective value of the best solution, unless that is the greatest integer. -/
theorem bound_eq (i : Incumbent α) :
    i.bound = (i.best.map Reported.objective).filter (· ≠ Word.maxInteger) := by
  unfold bound
  rw [i.mirrors]
  cases i.best with
  | none => rfl
  | some best => by_cases greatest : best.objective = Word.maxInteger <;> simp [Option.filter, greatest]

theorem accepts_iff {i : Incumbent α} {candidate : Reported α} :
    i.accepts candidate = true ↔ ∀ best ∈ i.best, candidate.objective < best.objective := by
  cases h : i.best <;> simp [accepts, h]

end Incumbent
end BranchBound
