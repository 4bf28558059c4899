import BranchBound.Fault
import BranchBound.Word

/-! # Random numbers

Numbers come from a `Source`: a generator that is started from a seed, or a list of answers
that were settled beforehand.

The generator is xoshiro256++, whose four words of state are filled from the seed by a
permuted congruential generator of half their width.  A number from a range is the high
half of the product of a random word and the length of the range; words whose low half falls
behind the last whole multiple are rejected, so that all numbers are equally likely. -/
namespace BranchBound.Random

/-- The state of the generator. -/
structure Generator where
  s0 : UInt64
  s1 : UInt64
  s2 : UInt64
  s3 : UInt64
  deriving Repr, DecidableEq

def rotateLeft (x k : UInt64) : UInt64 := (x <<< k) ||| (x >>> (64 - k))

def rotateRight (x k : UInt32) : UInt32 := (x >>> k) ||| (x <<< ((32 - k) % 32))

namespace Generator

/-- A step of the congruential generator that spreads the seed. -/
def spread (state : UInt64) : UInt32 × UInt64 :=
  let state := state * 6364136223846793005 + 11634580027462260723
  let word := (((state >>> 18) ^^^ state) >>> 27).toUInt32
  (rotateRight word (state >>> 59).toUInt32, state)

/-- Two halves of a word, the low half first. -/
def spreadWord (state : UInt64) : UInt64 × UInt64 :=
  let (low, state) := spread state
  let (high, state) := spread state
  ((high.toUInt64 <<< 32) ||| low.toUInt64, state)

/-- The generator that a seed stands for. -/
def ofSeed (seed : UInt64) : Generator :=
  let (s0, state) := spreadWord seed
  let (s1, state) := spreadWord state
  let (s2, state) := spreadWord state
  let (s3, _) := spreadWord state
  ⟨s0, s1, s2, s3⟩

/-- The next word, and the generator after it. -/
def next (g : Generator) : UInt64 × Generator :=
  let word := rotateLeft (g.s0 + g.s3) 23 + g.s0
  let s2 := g.s2 ^^^ g.s0
  let s3 := g.s3 ^^^ g.s1
  (word, ⟨g.s0 ^^^ s3, g.s1 ^^^ s2, s2 ^^^ (g.s1 <<< 17), rotateLeft s3 45⟩)

/-- The greatest low half that is accepted for a range of the given length. -/
def zone (length : Nat) : Nat := length <<< (63 - length.log2) - 1

/-- A number below `length`.  A word is rejected less often than every other time; the number of
attempts is bounded only to make this a total function, and the last word is accepted. -/
def below (length : Nat) : Nat → Generator → Nat × Generator
  | 0, g =>
    let (word, g) := g.next
    (word.toNat * length / Word.size, g)
  | attempts + 1, g =>
    let (word, g) := g.next
    let product := word.toNat * length
    if product % Word.size ≤ zone length then (product / Word.size, g) else below length attempts g

/-- **A number below `length` is below `length`**, whichever words are drawn. -/
theorem below_lt {length : Nat} (h : 0 < length) (attempts : Nat) (g : Generator) :
    (below length attempts g).1 < length := by
  have bound (word : UInt64) : word.toNat * length / Word.size < length := by
    rw [Nat.div_lt_iff_lt_mul (by decide), Nat.mul_comm]
    exact Nat.mul_lt_mul_of_pos_left word.toNat_lt h
  induction attempts generalizing g with
  | zero => exact bound _
  | succ attempts ih =>
    unfold below
    dsimp only
    split
    · exact bound _
    · exact ih _

end Generator

/-- Where numbers come from. -/
inductive Source
  | generator (state : Generator)
  /-- Answers that were settled beforehand; each is taken modulo the length of its range, and
  zeros follow the last. -/
  | replay (answers : List Nat)
  deriving Repr, DecidableEq

namespace Source

def ofSeed (seed : Nat) : Source := .generator (.ofSeed (UInt64.ofNat seed))

/-- A number below `length`, which is positive. -/
def below (length : Nat) : Source → Nat × Source
  | .generator g =>
    let (n, g) := g.below length 1024
    (n, .generator g)
  | .replay [] => (0, .replay [])
  | .replay (answer :: answers) => (answer % length, .replay answers)

/-- A number from `low` up to but without `high`. -/
def draw (low high : Nat) (source : Source) : Except Fault (Nat × Source) :=
  if low < high then
    let (n, source) := source.below (high - low)
    .ok (low + n, source)
  else .error .emptyRange

theorem below_lt {length : Nat} (h : 0 < length) (source : Source) :
    (source.below length).1 < length := by
  match source with
  | .generator g => exact Generator.below_lt h 1024 g
  | .replay [] => exact h
  | .replay (answer :: answers) => exact Nat.mod_lt answer h

end Source
end BranchBound.Random
