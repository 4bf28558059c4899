/-! # Sets of characters

A set of characters is given by the ranges of its code points. -/
namespace BranchBound.Text

/-- The characters from the first to the last of each range. -/
structure CharacterSet where
  ranges : List (Nat × Nat)

namespace CharacterSet

def contains (s : CharacterSet) (c : Char) : Bool :=
  s.ranges.any fun (first, last) => first ≤ c.toNat && c.toNat ≤ last

theorem contains_iff {s : CharacterSet} {c : Char} :
    s.contains c = true ↔ ∃ r ∈ s.ranges, r.1 ≤ c.toNat ∧ c.toNat ≤ r.2 := by
  simp [contains]

end CharacterSet
end BranchBound.Text
