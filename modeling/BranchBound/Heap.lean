/-! # Heaps

Numbers of which the least is at hand.  A number can be in a heap more than once; `pop` takes the
least off once.  Nothing is said of the order in which the others are kept. -/
namespace BranchBound

structure Heap where
  items : List Nat := []
  deriving Repr, DecidableEq

namespace Heap

instance : Inhabited Heap := ⟨{}⟩

variable (h : Heap)

/-- The least of the numbers. -/
def top? : Option Nat := h.items.min?

def push (k : Nat) : Heap := ⟨k :: h.items⟩

/-- Takes the least of the numbers off. -/
def pop : Heap :=
  match h.top? with
  | none => h
  | some k => ⟨h.items.erase k⟩

variable {h} {k : Nat}

theorem top?_eq_none_iff : h.top? = none ↔ h.items = [] := List.min?_eq_none_iff

/-- **What is on top is there, and nothing is less.** -/
theorem top?_eq_some_iff : h.top? = some k ↔ k ∈ h.items ∧ ∀ i ∈ h.items, k ≤ i :=
  List.min?_eq_some_iff

theorem items_pop (hk : h.top? = some k) : h.pop.items = h.items.erase k := by
  unfold pop
  rw [hk]

end Heap
end BranchBound
