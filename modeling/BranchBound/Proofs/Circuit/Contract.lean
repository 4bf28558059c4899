import BranchBound.Proofs.Circuit.Filter

/-! # What is relied on of circuits

A circuit is ready to be called if the trailed integers describe the chains, and every node whose
predecessor is fixed has been joined, waits to be joined, or is still to be told of
(`Circuit.Ready`).  It has settled when all of these nodes have been joined (`Circuit.Settled`). -/
namespace BranchBound

namespace Circuit
variable {c : Circuit} {s t : Space} {pending : List Nat} {due due' : List (Nat × Event)} {i : Nat}

/-- The circuit can be called with some nodes waiting, given what it is still to be told. -/
structure Ready (c : Circuit) (pending : List Nat) (s : Space) (due : List (Nat × Event)) : Prop where
  base : c.Base s
  chains : ∃ ls, c.Chains s ls
  pending_lt : ∀ i ∈ pending, i < c.numNodes
  noticed : ∀ i, i < c.numNodes → s.store.isFixed (c.predecessor i) = true →
    s.cells.value (c.merged i) ≠ 0 ∨ i ∈ pending ∨ (i, .assign) ∈ due

/-- All arcs that are fixed have been joined. -/
structure Settled (c : Circuit) (s : Space) : Prop where
  base : c.Base s
  chains : ∃ ls, c.Chains s ls
  joined : ∀ i, i < c.numNodes → s.store.isFixed (c.predecessor i) = true →
    s.cells.value (c.merged i) ≠ 0

theorem watchedAt_iff {v : Var} {event : Event} :
    WatchedAt c.watches i v event ↔ i < c.numNodes ∧ v = c.predecessor i := by
  unfold WatchedAt watches predecessor numNodes
  simp only [List.getElem?_map, Array.getElem?_toList, Option.map_eq_some_iff, Prod.mk.injEq,
    Array.getD_eq_getD_getElem?, Array.getElem?_eq_some_iff]
  constructor
  · rintro ⟨_, ⟨u, ⟨hi, rfl⟩, rfl, rfl⟩, -⟩
    exact ⟨hi, by simp [hi]⟩
  · rintro ⟨hi, rfl⟩
    exact ⟨_, ⟨_, ⟨hi, rfl⟩, by simp [hi], rfl⟩, Event.mem_any event⟩

/-- Whether it is ready depends on the domains that it knows and on its own trailed integers. -/
theorem Ready.grows (h : c.Ready pending s due) (grown : s.store.Grows t.store)
    (size : s.cells.values.size ≤ t.cells.values.size)
    (cells : ∀ i, c.own i → t.cells.value i = s.cells.value i) : c.Ready pending t due := by
  obtain ⟨base, ⟨ls, chains⟩, pending_lt, noticed⟩ := h
  have known {i : Nat} (hi : i < c.numNodes) := grown.known (base.known i hi)
  refine ⟨⟨base.two_le, Nat.le_trans base.size_le size, base.injective, fun i hi => (known hi).1,
    fun i hi x hx => ?_⟩, ⟨ls, chains.congr cells fun i hi x hx => ?_⟩, pending_lt, fun i hi hf => ?_⟩
  · rw [Store.contains, (known hi).2] at hx
    exact base.sources i hi x hx
  · rwa [Store.fixed?, (known hi).2]
  · rw [Store.isFixed, (known hi).2] at hf
    rw [cells _ (own_merged hi)]
    exact noticed i hi hf

theorem Ready.congr (h : c.Ready pending s due) (domains : t.store.domains = s.store.domains)
    (size : s.cells.values.size ≤ t.cells.values.size)
    (cells : ∀ i, c.own i → t.cells.value i = s.cells.value i) : c.Ready pending t due :=
  h.grows (Store.grows_of_domains domains) size cells

/-- It does not depend on the past of the space. -/
theorem Ready.congr_bare (h : c.Ready pending s due) (hb : t.bare = s.bare) : c.Ready pending t due :=
  h.congr (Space.domains_eq_of_bare hb)
    (Nat.le_of_eq (congrArg Arena.size (Space.values_eq_of_bare hb)).symm)
    fun i _ => Space.value_eq_of_bare hb i

theorem Settled.ready (h : c.Settled s) : c.Ready [] s [] :=
  ⟨h.base, h.chains, fun _ h => (by cases h), fun i hi hf => .inl (h.joined i hi hf)⟩

theorem Ready.settled (h : c.Ready [] s []) : c.Settled s :=
  ⟨h.base, h.chains, fun i hi hf => (h.noticed i hi hf).elim id fun h => by simp at h⟩

theorem Ready.mono (h : c.Ready pending s due) (sub : due ⊆ due') : c.Ready pending s due' :=
  { h with noticed := fun i hi hf => (h.noticed i hi hf).imp_right (Or.imp_right fun hm => sub hm) }

section
variable {other : Nat → Prop} {new : List (Var × Event)} (hs : s.Valid) (hn : s.Narrows other t)
  (disjoint : ∀ i, c.own i → ¬ other i) (told : Told new s.store t.store)
include hs hn disjoint told

/-- **A circuit is told of the nodes whose predecessor others fix.** -/
theorem Ready.narrows (h : c.Ready pending s due) (sub : due ⊆ due')
    (hdue : ∀ i v event, (v, event) ∈ new → WatchedAt c.watches i v event → (i, event) ∈ due') :
    c.Ready pending t due' := by
  obtain ⟨ls, chains⟩ := h.chains
  refine ⟨h.base.narrows hs hn, ⟨ls, chains.congr (fun i hi => hn.cell_eq (disjoint i hi))
    fun _ _ x hx => hn.store.fixed? hs.store hx⟩, h.pending_lt, fun i hi hf => ?_⟩
  rw [hn.cell_eq (disjoint _ (own_merged hi))]
  by_cases hnew : (c.predecessor i, .assign) ∈ new
  · exact .inr (.inr (hdue i _ _ hnew (watchedAt_iff.mpr ⟨hi, rfl⟩)))
  · rw [told.fixed _ hnew] at hf
    exact (h.noticed i hi hf).imp_right (Or.imp_right fun hm => sub hm)

theorem Settled.narrows (h : c.Settled s)
    (away : ∀ i v event, (v, event) ∈ new → ¬ WatchedAt c.watches i v event) : c.Settled t :=
  (h.ready.narrows hs hn disjoint told (List.Subset.refl []) fun i v event hv hw =>
    absurd hw (away i v event hv)).settled

end

/-! ## Notes -/

/-- Only the nodes that wait are others when a circuit is told of an event. -/
theorem notify_eq (c : Circuit) (node : Nat) (event : Event) : c.notify node event =
    { c with pending := if event = .assign then node :: c.pending else c.pending } := by
  unfold notify
  split <;> rfl

theorem mem_pending_notify {event : Event} {node : Nat} :
    i ∈ (c.notify node event).pending ↔ event = .assign ∧ i = node ∨ i ∈ c.pending := by
  rw [notify_eq]
  dsimp only
  split
  · rename_i assigned
    rw [List.mem_cons, and_iff_right assigned]
  · rename_i other
    rw [or_iff_right fun h => other h.1]

theorem numNodes_notify {event : Event} {node : Nat} : (c.notify node event).numNodes = c.numNodes := by
  rw [notify_eq]
  rfl

/-- A node that is told of waits to be joined. -/
theorem Ready.notify {event : Event} {v : Var} (hw : WatchedAt c.watches i v event)
    (h : c.Ready pending s ((i, event) :: due)) :
    c.Ready (if event = .assign then i :: pending else pending) s due := by
  have hi := (watchedAt_iff.mp hw).1
  refine ⟨h.base, h.chains, fun j hj => ?_, fun j hj hf => ?_⟩
  · split at hj
    · rcases List.mem_cons.mp hj with rfl | hj
      · exact hi
      · exact h.pending_lt j hj
    · exact h.pending_lt j hj
  · rcases h.noticed j hj hf with hm | hm | hm
    · exact .inl hm
    · refine .inr (.inl ?_)
      split
      · exact List.mem_cons_of_mem i hm
      · exact hm
    · rcases List.mem_cons.mp hm with heq | hm
      · cases heq
        exact .inr (.inl (by simp))
      · exact .inr (.inr hm)

theorem Ready.working (h : c.Ready pending s []) : Working c s (potential (pending, s)) (pending, s) :=
  ⟨.refl, fun _ _ => id, h.pending_lt,
    fun i hi hf => (h.noticed i hi hf).imp_right (Or.resolve_right · (by simp)), Nat.le_refl _⟩

/-- **A circuit that is called settles**, and takes no circuit away. -/
theorem Ready.ends_filter (h : c.Ready pending s []) (hs : s.Valid) :
    Ends (c.filter (pending, s))
      (fun _ r => s.Narrows c.own r.2 ∧ r.1 = [] ∧ c.Settled r.2 ∧
        ∀ a, c.Holds a → s.store.Admits a → r.2.store.Admits a) (Ended c s) := by
  obtain ⟨ls, chains⟩ := h.chains
  refine (Circuit.ends_filter hs h.base h.working chains).mono_ok fun _ r hr => ?_
  obtain ⟨⟨done, chains'⟩, none⟩ := hr
  refine ⟨done.narrows, none, ⟨h.base.narrows hs done.narrows, chains', fun i hi hf => ?_⟩,
    done.admits⟩
  have := done.noticed i hi hf
  rw [none] at this
  exact this.resolve_right (by simp)

/-- **A circuit that is fixed and settled is one.** -/
theorem Settled.holds (h : c.Settled s)
    (fixed : ∀ i, i < c.numNodes → s.store.isFixed (c.predecessor i) = true) :
    c.Holds s.store.lower := by
  obtain ⟨ls, chains⟩ := h.chains
  exact chains.holds (Nat.lt_of_lt_of_le Nat.two_pos h.base.two_le) fun i hi =>
    h.joined i hi (fixed i hi)

/-! ## Attaching -/

theorem getElem?_initialCells (hi : i < c.numNodes) :
    c.initialCells[i]? = some (i : Int) ∧ c.initialCells[c.numNodes + i]? = some (i : Int) ∧
      c.initialCells[2 * c.numNodes + i]? = some 1 ∧
      c.initialCells[3 * c.numNodes + i]? = some 0 := by
  unfold initialCells nodes
  simp only [List.getElem?_append, List.length_append, List.length_map, List.length_range,
    List.getElem?_map]
  grind

theorem length_initialCells : c.initialCells.length = 4 * c.numNodes := by
  simp only [initialCells, nodes, List.length_append, List.length_map, List.length_range]
  omega

/-- **A circuit that is attached is ready**: at first every node is a chain of its own. -/
theorem ready_attach (two_le : 2 ≤ c.numNodes)
    (injective : ∀ i j, i < c.numNodes → j < c.numNodes → c.predecessor i = c.predecessor j → i = j)
    (known : ∀ i, i < c.numNodes → c.predecessor i < s.store.numVars)
    (sources : ∀ i, i < c.numNodes → ∀ x, s.store.contains (c.predecessor i) x = true →
      ∃ j : Nat, j < c.numNodes ∧ x = j) :
    (c.attach s.cells.values.size s.store).Ready (c.attach s.cells.values.size s.store).pending
      ⟨s.store, c.initialCells.foldl Cells.grow s.cells⟩ [] := by
  have value (k : Nat) (x : Int) (h : c.initialCells[k]? = some x) :
      (c.initialCells.foldl Cells.grow s.cells).value (s.cells.values.size + k) = x :=
    Cells.value_foldl_grow h
  refine ⟨⟨two_le, ?_, injective, known, sources⟩, ⟨c.nodes.map fun i => [i], ?_, fun l hl => ?_⟩,
    fun i hi => ?_, fun i hi hf => ?_⟩
  · rw [Cells.size_foldl_grow, length_initialCells]
    exact Nat.le_refl _
  · rw [← List.flatMap_def, List.flatMap_singleton']
    exact .refl _
  · obtain ⟨i, hi, rfl⟩ := List.mem_map.mp hl
    obtain ⟨start, last, length, merged⟩ := getElem?_initialCells (mem_nodes.mp hi)
    refine ⟨i, i, .single i, value _ _ start, ?_, ?_, .inl ?_⟩
    · rw [chainEnd, Nat.add_assoc]
      exact value _ _ last
    · rw [chainLength, Nat.add_assoc]
      exact value _ _ length
    · rw [Circuit.merged, Nat.add_assoc]
      exact value _ _ merged
  · exact mem_nodes.mp (List.mem_filter.mp (List.mem_reverse.mp hi)).1
  · exact .inr (.inl (List.mem_reverse.mpr (List.mem_filter.mpr ⟨mem_nodes.mpr hi, hf⟩)))

end Circuit
end BranchBound
