import BranchBound.Proofs.Circuit.Chains
import BranchBound.Proofs.Filter

/-! # What the filter of a circuit can do

Everything that is shown of the filter is shown step by step: of removing a value, of joining an arc, of
giving a node to the only predecessor that is left for it, and of a round of these.  What a step can do is
said here once, in terms of what is done to the space and to the nodes that wait.

A proof that uses these rules does not look at how a step is written. -/
namespace BranchBound
namespace Circuit
variable {c : Circuit} {t : Space} {pending rest : List Nat} {i node : Nat} {x : Int}
  {E : Halt → List Nat × Space → Prop}

@[simp] theorem ends_cell {Q : Int → List Nat × Space → Prop} :
    Ends (cell i (pending, t)) Q E ↔ Q (t.cells.value i) (pending, t) := Iff.rfl

@[simp] theorem ends_defer {Q : Unit → List Nat × Space → Prop} :
    Ends (defer i (pending, t)) Q E ↔ Q () (i :: pending, t) := Iff.rfl

@[simp] theorem ends_assignCell {Q : Unit → List Nat × Space → Prop} :
    Ends ((Filter.assignCell i x).beside (pending, t)) Q E ↔ Q () (pending, ⟨t.store, t.cells.assign i x⟩) :=
  Iff.rfl

/-! ## Removing a value -/

/-- A node waits from now on if its predecessor has become fixed. -/
def waiting (i : Nat) (pending : List Nat) (changed fixed : Bool) : List Nat :=
  if changed && fixed then i :: pending else pending

theorem waiting_cases {changed fixed : Bool} :
    (waiting i pending changed fixed = pending ∧ (changed = true → fixed = false)) ∨
      (waiting i pending changed fixed = i :: pending ∧ changed = true) := by
  cases changed <;> cases fixed <;> simp [waiting]

/-- **A value is removed** from the predecessors of a node. -/
theorem ends_removePredecessor_of {Q : Unit → List Nat × Space → Prop}
    (h : Ends (Filter.remove (c.predecessor i) x t)
      (fun changed u => Q () (waiting i pending changed (u.store.isFixed (c.predecessor i)), u))
      (fun halt u => E halt (pending, u))) :
    Ends (c.removePredecessor i x (pending, t)) Q E := by
  unfold removePredecessor
  rw [ends_bind, Filter.ends_beside]
  refine h.mono_ok fun changed u hu => ?_
  unfold waiting at hu
  rw [ends_bind, Filter.ends_beside, Filter.ends_read, ends_ite]
  split
  · rename_i waits
    rwa [if_pos waits] at hu
  · rename_i free
    rwa [if_neg free] at hu

/-! ## Joining an arc -/

/-- **Two chains are joined**: the arc closes the only one that there is, or a longer chain is put down, whose
ends must not meet before it visits every node. -/
theorem ends_join_of {source first last : Nat} {length total : Int} {Q : Unit → List Nat × Space → Prop}
    (hfirst : (t.cells.value (c.chainStart source)).toNat = first)
    (hlast : (t.cells.value (c.chainEnd node)).toNat = last)
    (hlength : t.cells.value (c.chainLength node) = length)
    (htotal : t.cells.value (c.chainLength first) + length = total)
    (closing : first = node →
      if length < c.numNodes then E (.inconsistent (.conflict .prematureCycle)) (pending, t)
      else Q () (pending, t))
    (linking : first ≠ node →
      if total < c.numNodes then
        Ends (c.removePredecessor first last (pending, ⟨t.store, c.linked first last total t.cells⟩)) Q E
      else Q () (pending, ⟨t.store, c.linked first last total t.cells⟩)) :
    Ends (c.join source node (pending, t)) Q E := by
  subst hfirst hlast hlength htotal
  unfold join
  rw [ends_bind, ends_cell, ends_bind, ends_cell, ends_bind, ends_cell, ends_ite]
  split
  · rename_i same
    rw [ends_ite]
    exact closing same
  · rename_i apart
    rw [ends_bind, ends_cell, ends_bind, ends_assignCell, ends_bind, ends_assignCell, ends_bind,
      ends_assignCell, ends_ite]
    exact linking apart

theorem node?_ofNat (hi : i < c.numNodes) : c.node? (i : Int) = some i := by
  simp [node?, position?_ofNat, hi]

theorem node?_lt {value : Int} {u : Nat} (h : c.node? value = some u) : u < c.numNodes := by
  unfold node? at h
  obtain ⟨w, -, hw⟩ := Option.bind_eq_some_iff.mp h
  split at hw
  · exact Option.some.inj hw ▸ ‹_›
  · cases hw

/-- **The arc into a node is joined** if it is fixed and was not joined before: first its source is taken from
all other nodes. -/
theorem ends_merge_of {Q : Unit → List Nat × Space → Prop}
    (joins : ∀ source, t.cells.value (c.merged node) = 0 → t.store.fixed? (c.predecessor node) = some source →
      Ends ((c.nodes.filter (· ≠ node)).forM (fun other => c.removePredecessor other source)
          (pending, ⟨t.store, t.cells.assign (c.merged node) 1⟩))
        (fun _ r => Ends (demand (c.node? source) r) (fun j r' => Ends (c.join j node r') Q E) E) E)
    (stays : (∀ source, t.cells.value (c.merged node) = 0 →
      t.store.fixed? (c.predecessor node) = some source → False) → Q () (pending, t)) :
    Ends (c.merge node (pending, t)) Q E := by
  unfold merge
  rw [ends_bind, ends_cell, ends_bind, Filter.ends_beside, Filter.ends_read]
  refine ends_of_eq fun m hm => ?_
  split at hm <;> subst hm
  · rename_i source free fixed
    rw [ends_bind, ends_assignCell, ends_bind]
    exact (joins source free fixed).mono_ok fun _ r hr => ends_bind.mpr hr
  · rename_i other
    exact stays other

/-! ## Supports -/

/-- **A node without a predecessor of its own is given the only one that is left**; there is nothing to do if
there are more, and nothing can be done if there is none. -/
theorem ends_assignOnly_of {v count : Nat} {Q : Bool → List Nat × Space → Prop}
    (none : count = 0 → E (.inconsistent (.conflict .noSuccessor)) (pending, t))
    (only : count = 1 → ∀ i, i < c.numNodes → t.store.contains (c.predecessor i) v = true →
      Ends (Filter.assign (c.predecessor i) v t) (fun changed u => Q changed (waiting i pending changed true, u))
        (fun halt u => E halt (pending, u)))
    (stays : count ≠ 0 → (count = 1 → ∀ i, i < c.numNodes → t.store.contains (c.predecessor i) v = false) →
      Q false (pending, t)) :
    Ends (c.assignOnly v count (pending, t)) Q E := by
  unfold assignOnly
  refine ends_of_eq fun m hm => ?_
  split at hm <;> subst hm
  · exact none rfl
  · rw [ends_bind, Filter.ends_beside, Filter.ends_read]
    cases hfind : c.nodes.find? fun node => t.store.contains (c.predecessor node) v with
    | none =>
      refine stays Nat.one_ne_zero fun _ i hi => ?_
      simpa using List.find?_eq_none.mp hfind i (mem_nodes.mpr hi)
    | some node =>
      have hnode := mem_nodes.mp (List.mem_of_find?_eq_some hfind)
      have inside : t.store.contains (c.predecessor node) v = true := by simpa using List.find?_some hfind
      dsimp only
      rw [ends_bind, Filter.ends_beside]
      refine (only rfl node hnode inside).mono_ok fun changed u hu => ?_
      cases changed with
      | true => exact hu
      | false => exact hu
  · rename_i some one
    exact stays some fun h => absurd h one

/-- **The supports are looked at one after another**, as they were counted before. -/
theorem ends_supports_of {I : Bool → List Nat × Space → Prop} (start : I false (pending, t))
    (step : ∀ v, v < c.numNodes → ∀ changed r, I changed r →
      Ends (c.assignOnly v (c.support t.store v) r) (fun b r' => I (b || changed) r') E) :
    Ends (c.supports (pending, t)) I E := by
  unfold supports
  rw [ends_bind, Filter.ends_beside, Filter.ends_read]
  refine ends_foldlM (I := I) (fun (v, count) hcount changed r hr => ?_) start
  obtain ⟨w, hw, heq⟩ := List.mem_map.mp hcount
  cases heq
  dsimp only
  rw [ends_bind]
  exact step v (mem_nodes.mp hw) changed r hr

/-! ## Rounds -/

/-- Where no node waits, a round looks at the supports. -/
theorem ends_round_nil {Q : Bool → List Nat × Space → Prop} :
    Ends (c.round ([], t)) Q E ↔ Ends (c.supports ([], t)) Q E := by
  unfold round
  rw [ends_bind, ends_get]

/-- Where a node waits, a round joins the arc into it. -/
theorem ends_round_cons {Q : Bool → List Nat × Space → Prop} :
    Ends (c.round (node :: rest, t)) Q E ↔ Ends (c.merge node (rest, t)) (fun _ r => Q true r) E := by
  unfold round
  rw [ends_bind, ends_get]
  dsimp only
  rw [ends_bind, ends_modify, ends_bind]
  rfl

theorem potential_lt_cons : potential (rest, t) < potential (node :: rest, t) := by
  change 2 * t.numValues + rest.length < 2 * t.numValues + (rest.length + 1)
  omega

end Circuit
end BranchBound
