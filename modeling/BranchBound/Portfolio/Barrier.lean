import BranchBound.Word
import Mathlib.Logic.Function.Basic

/-! # Barriers

A barrier at which a number of parties wait for one another.  Who comes before the others waits inside;
the last to come goes on at once and begins a new *generation*, and that is what those inside look for: a
party goes on when the generation is no longer the one in which it came.  Some of them may look late, when
others have come to the barrier again. -/
namespace BranchBound

structure Barrier (ι : Type) where
  /-- How many have come in this generation. -/
  count : Nat := 0
  generation : Nat := 0
  /-- In which generation a party came, if it is inside. -/
  inside : ι → Option Nat := fun _ => none

namespace Barrier
variable {ι : Type} [DecidableEq ι]

/-- The generation after another one; the numbers are used again some time. -/
def following (generation : Nat) : Nat := (generation + 1) % Word.size

/-- A party comes to the barrier, or looks whether it can go on; answers whether it goes on.  As long as
it has to wait there is nothing that it can do. -/
def wait? (parties : Nat) (p : ι) (b : Barrier ι) : Option (Bool × Barrier ι) :=
  match b.inside p with
  | none =>
    if b.count + 1 < parties then
      some (false, { b with
        count := b.count + 1
        inside := Function.update b.inside p (some b.generation) })
    else some (true, { b with count := 0, generation := following b.generation })
  | some came =>
    if came = b.generation then none
    else some (true, { b with inside := Function.update b.inside p none })

end Barrier
end BranchBound
