/-! # Sums

Sums of lists of integers, such as costs, and of natural numbers, such as potentials. -/
namespace BranchBound

/-- The sum of integers. -/
def sumInt : List Int → Int
  | [] => 0
  | x :: xs => x + sumInt xs

/-- The sum of natural numbers. -/
def sumNat : List Nat → Nat
  | [] => 0
  | n :: ns => n + sumNat ns

theorem sumInt_append (xs ys : List Int) : sumInt (xs ++ ys) = sumInt xs + sumInt ys := by
  induction xs with
  | nil => simp [sumInt]
  | cons x xs ih => simp only [List.cons_append, sumInt, ih]; omega

end BranchBound
