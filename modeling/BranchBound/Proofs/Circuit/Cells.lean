import BranchBound.Constraint.Circuit
import BranchBound.Proofs.Space

/-! # The trailed integers of a circuit

They are of four kinds, which lie behind one another: where the chains start and end, how long they are, and
which arcs have been joined.  Integers of different kinds are different, so putting an arc down as joined
leaves what is known of the chains, and putting down a chain (`Circuit.linked`) changes what is known of its
first and last node alone. -/
namespace BranchBound
namespace Circuit
variable (c : Circuit)

/-- The trailed integers. -/
def own (i : Nat) : Prop := c.firstCell ≤ i ∧ i < c.firstCell + 4 * c.numNodes

/-- The trailed integers when a chain of so many nodes has been put down. -/
def linked (first last : Nat) (total : Int) (cells : Cells) : Cells :=
  ((cells.assign (c.chainEnd first) last).assign (c.chainStart last) first).assign (c.chainLength first) total

variable {c} {i j k first last node : Nat} {x total : Int} {cells : Cells}

/-! ## Where they lie -/

theorem own_chainStart (hi : i < c.numNodes) : c.own (c.chainStart i) := by
  unfold own chainStart
  omega

theorem own_chainEnd (hi : i < c.numNodes) : c.own (c.chainEnd i) := by
  unfold own chainEnd
  omega

theorem own_chainLength (hi : i < c.numNodes) : c.own (c.chainLength i) := by
  unfold own chainLength
  omega

theorem own_merged (hi : i < c.numNodes) : c.own (c.merged i) := by
  unfold own merged
  omega

theorem chainStart_inj : c.chainStart i = c.chainStart j ↔ i = j := Nat.add_right_inj

theorem chainEnd_inj : c.chainEnd i = c.chainEnd j ↔ i = j := Nat.add_right_inj

theorem chainLength_inj : c.chainLength i = c.chainLength j ↔ i = j := Nat.add_right_inj

theorem merged_inj : c.merged i = c.merged j ↔ i = j := Nat.add_right_inj

theorem chainStart_ne_chainEnd (hi : i < c.numNodes) : c.chainStart i ≠ c.chainEnd j := by
  unfold chainStart chainEnd
  omega

theorem chainStart_ne_chainLength (hi : i < c.numNodes) : c.chainStart i ≠ c.chainLength j := by
  unfold chainStart chainLength
  omega

theorem chainEnd_ne_chainLength (hi : i < c.numNodes) : c.chainEnd i ≠ c.chainLength j := by
  unfold chainEnd chainLength
  omega

theorem chainStart_ne_merged (hi : i < c.numNodes) : c.chainStart i ≠ c.merged j := by
  unfold chainStart merged
  omega

theorem chainEnd_ne_merged (hi : i < c.numNodes) : c.chainEnd i ≠ c.merged j := by
  unfold chainEnd merged
  omega

theorem chainLength_ne_merged (hi : i < c.numNodes) : c.chainLength i ≠ c.merged j := by
  unfold chainLength merged
  omega

/-! ## An arc is put down as joined -/

theorem chainStart_joined (hi : i < c.numNodes) :
    (cells.assign (c.merged node) x).value (c.chainStart i) = cells.value (c.chainStart i) :=
  Cells.value_assign_ne (chainStart_ne_merged hi).symm

theorem chainEnd_joined (hi : i < c.numNodes) :
    (cells.assign (c.merged node) x).value (c.chainEnd i) = cells.value (c.chainEnd i) :=
  Cells.value_assign_ne (chainEnd_ne_merged hi).symm

theorem chainLength_joined (hi : i < c.numNodes) :
    (cells.assign (c.merged node) x).value (c.chainLength i) = cells.value (c.chainLength i) :=
  Cells.value_assign_ne (chainLength_ne_merged hi).symm

theorem merged_joined_ne (hne : i ≠ node) :
    (cells.assign (c.merged node) x).value (c.merged i) = cells.value (c.merged i) :=
  Cells.value_assign_ne fun same => hne (merged_inj.mp same).symm

section
variable (size : c.firstCell + 4 * c.numNodes ≤ cells.values.size)
include size

theorem lt_size_of_own (hk : c.own k) : k < cells.values.size := Nat.lt_of_lt_of_le hk.2 size

theorem merged_joined (hnode : node < c.numNodes) : (cells.assign (c.merged node) x).value (c.merged i) =
    if i = node then x else cells.value (c.merged i) := by
  split
  · rename_i same
    rw [same]
    exact Cells.value_assign_self (lt_size_of_own size (own_merged hnode))
  · exact merged_joined_ne ‹_›

end

/-! ## A chain is put down -/

theorem merged_linked (hfirst : first < c.numNodes) (hlast : last < c.numNodes) :
    (c.linked first last total cells).value (c.merged i) = cells.value (c.merged i) := by
  unfold linked
  rw [Cells.value_assign_ne (chainLength_ne_merged hfirst), Cells.value_assign_ne (chainStart_ne_merged hlast),
    Cells.value_assign_ne (chainEnd_ne_merged hfirst)]

section
variable (size : c.firstCell + 4 * c.numNodes ≤ cells.values.size)
include size

theorem chainStart_linked (hlast : last < c.numNodes) (hi : i < c.numNodes) :
    (c.linked first last total cells).value (c.chainStart i) =
      if i = last then (first : Int) else cells.value (c.chainStart i) := by
  unfold linked
  rw [Cells.value_assign_ne (chainStart_ne_chainLength hi).symm,
    Cells.value_assign (by rw [Cells.size_assign]; exact lt_size_of_own size (own_chainStart hlast)),
    Cells.value_assign_ne (chainStart_ne_chainEnd hi).symm]
  simp only [chainStart_inj, eq_comm]

theorem chainEnd_linked (hfirst : first < c.numNodes) (hlast : last < c.numNodes) (hi : i < c.numNodes) :
    (c.linked first last total cells).value (c.chainEnd i) =
      if i = first then (last : Int) else cells.value (c.chainEnd i) := by
  unfold linked
  rw [Cells.value_assign_ne (chainEnd_ne_chainLength hi).symm,
    Cells.value_assign_ne (chainStart_ne_chainEnd hlast),
    Cells.value_assign (lt_size_of_own size (own_chainEnd hfirst))]
  simp only [chainEnd_inj, eq_comm]

theorem chainLength_linked (hfirst : first < c.numNodes) (hlast : last < c.numNodes) :
    (c.linked first last total cells).value (c.chainLength i) =
      if i = first then total else cells.value (c.chainLength i) := by
  unfold linked
  rw [Cells.value_assign (by
      rw [Cells.size_assign, Cells.size_assign]
      exact lt_size_of_own size (own_chainLength hfirst)),
    Cells.value_assign_ne (chainStart_ne_chainLength hlast),
    Cells.value_assign_ne (chainEnd_ne_chainLength hfirst)]
  simp only [chainLength_inj, eq_comm]

end

/-- Putting down a chain of its nodes changes the trailed integers of a circuit alone. -/
theorem narrows_linked {s t : Space} (h : s.Narrows c.own t) (hfirst : first < c.numNodes)
    (hlast : last < c.numNodes) : s.Narrows c.own ⟨t.store, c.linked first last total t.cells⟩ :=
  .assign (.assign (.assign h (own_chainEnd hfirst)) (own_chainStart hlast)) (own_chainLength hfirst)

end Circuit
end BranchBound
