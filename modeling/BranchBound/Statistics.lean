import BranchBound.Text.CamelCase

/-! # Statistics

What a search counts, and how it is written: one line for each number, under a name that says
whose number it is. -/
namespace BranchBound

structure Statistics where
  numDecisions : Nat := 0
  numFailures : Nat := 0
  numSolutions : Nat := 0
  numPropagations : Nat := 0
  /-- The greatest number of choice points at a time. -/
  peakDepth : Nat := 0
  deriving Repr, DecidableEq

namespace Statistics

instance : Inhabited Statistics := ⟨{}⟩

/-- The statistics of two searches together: numbers add up, the deeper peak remains. -/
def accumulate (a b : Statistics) : Statistics where
  numDecisions := a.numDecisions + b.numDecisions
  numFailures := a.numFailures + b.numFailures
  numSolutions := a.numSolutions + b.numSolutions
  numPropagations := a.numPropagations + b.numPropagations
  peakDepth := max a.peakDepth b.peakDepth

def total (all : List Statistics) : Statistics := all.foldl accumulate {}

/-- The numbers with their names. -/
def entries (s : Statistics) : List (String × Nat) :=
  [("num_decisions", s.numDecisions), ("num_failures", s.numFailures),
    ("num_solutions", s.numSolutions), ("num_propagations", s.numPropagations),
    ("peak_depth", s.peakDepth)]

/-- The name of a part of something that may have a name itself. -/
def qualify (whole part : String) : String :=
  if whole.isEmpty then part else whole ++ "_" ++ part

/-- The line for a number. -/
def line (name : String) (value : Nat) : String :=
  s!"%%%gourd-stat: {Text.camelCase name}={value}"

/-- The line behind all numbers. -/
def closing : String := "%%%gourd-stat-end"

/-- The lines for all numbers of whatever has the given name. -/
def lines (s : Statistics) (owner : String) : List String :=
  s.entries.map fun (name, value) => line (qualify owner name) value

end Statistics
end BranchBound
