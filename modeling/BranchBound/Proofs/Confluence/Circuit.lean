import BranchBound.Proofs.Circuit.Tight
import BranchBound.Proofs.Confluence.Shelter

/-! # Circuits shelter what they have come to

Which chains the trailed integers describe depends on the order in which arcs were joined.  What a circuit
at rest says of the domains does not (`Circuit.Closed`): a node does not come before itself, and has the
support that it needs; the source of a fixed arc is no other predecessor; and a path of fixed arcs cannot be
closed, unless it visits every node.  For such a path leads through a whole chain, of which that is known
(`Circuit.closed_of_resting`).

In a space that encloses such a store, every chain is a path in the store.  So whatever the circuit removes
there is missing from the store, and it refutes nothing (`Circuit.shelters_filter`). -/
namespace BranchBound
namespace Circuit
variable {c : Circuit} {s t u : Space} {F : Store} {pending : List Nat} {ls : List (List Nat)}
  {i node source first last : Nat} {x : Int} {l : List Nat}

/-- The arc from a node to another is fixed. -/
def Link (c : Circuit) (F : Store) (u v : Nat) : Prop := F.fixed? (c.predecessor v) = some (u : Int)

instance (c : Circuit) (F : Store) (u v : Nat) : Decidable (c.Link F u v) :=
  inferInstanceAs (Decidable (F.fixed? (c.predecessor v) = some (u : Int)))

/-- What a circuit that rests says of the domains. -/
structure Closed (c : Circuit) (F : Store) : Prop where
  apart : ∀ i, i < c.numNodes → F.contains (c.predecessor i) i = false
  supported : ∀ v, v < c.numNodes → c.Supported F v
  exclusive : ∀ i, i < c.numNodes → ∀ x, F.fixed? (c.predecessor i) = some x →
    ∀ j, j < c.numNodes → j ≠ i → F.contains (c.predecessor j) x = false
  short : ∀ first last l, Path (c.Link F) first l last → (∀ v ∈ l, v < c.numNodes) →
    l.length < c.numNodes → F.contains (c.predecessor first) last = false

/-! ## What is closed at rest -/

theorem isFixed_of_eq {store : Store} {v : Var} (h : store.fixed? v = some x) : store.isFixed v = true := by
  have opened := Store.fixed?_eq_none_iff.not.mp (by rw [h]; simp)
  simpa using opened

/-- A node has one predecessor. -/
theorem Arc.unique {u w v : Nat} (h : c.Arc s u v) (h' : c.Arc s w v) : u = w :=
  Int.natCast_inj.mp (Option.some.inj (h.2.symm.trans h'.2))

/-- An arc that has been joined is put down by a 1. -/
theorem Chains.merged_eq (h : c.Chains s ls) (hi : i < c.numNodes) (hm : s.cells.value (c.merged i) ≠ 0) :
    s.cells.value (c.merged i) = 1 := by
  obtain ⟨l, hl, hmem⟩ := h.exists_mem hi
  obtain ⟨first, last, chain⟩ := h.chain l hl
  rcases chain.path.pred_of_mem hmem with rfl | ⟨u, -, arc⟩
  · rcases chain.joined with free | ⟨closing, -⟩
    · exact absurd free hm
    · exact closing.1
  · exact arc.1

/-- A list of nodes that contains a whole chain has no fewer nodes. -/
theorem Chains.length_le_of_subset {m : List Nat} (h : c.Chains s ls) (hm : m ∈ ls) (sub : m ⊆ l) :
    m.length ≤ l.length :=
  (List.subperm_of_subset ((List.nodup_flatten.mp h.nodup).1 m hm) sub).length_le

/-- A loop of joined arcs visits every node. -/
theorem Chains.numNodes_le_of_loop (h : c.Chains s ls) (loop : Loop (c.Arc s) l)
    (lt : ∀ v ∈ l, v < c.numNodes) : c.numNodes ≤ l.length := by
  obtain ⟨first, last, path, back⟩ := loop
  have loop : Loop (c.Arc s) l := ⟨first, last, path, back⟩
  obtain ⟨m, hm, hmem⟩ := h.exists_mem (lt first path.first_mem)
  obtain ⟨x, y, chain⟩ := h.chain m hm
  have closed (u v : Nat) (arc : c.Arc s u v) (hv : v ∈ l) : u ∈ l := by
    obtain ⟨u', hu', arc'⟩ := loop.pred_of_mem hv
    exact arc.unique arc' ▸ hu'
  -- going back along the loop leads to the first node of a chain, which thus is closed
  have start : x ∈ l := (chain.path.back closed).1 first hmem path.first_mem
  rcases chain.joined with free | ⟨closing, all⟩
  · obtain ⟨u, -, arc⟩ := loop.pred_of_mem start
    exact absurd (free.symm.trans arc.1) (by simp)
  · rw [← all]
    exact h.length_le_of_subset hm ((chain.path.back closed).2 (closed _ _ closing start))

/-- **A path of fixed arcs cannot be closed at rest**, unless it visits every node. -/
theorem contains_eq_false_of_path (rest : c.Resting s) (tight : c.Tight s) (hs : s.Valid)
    (path : Path (c.Link s.store) first l last) (lt : ∀ v ∈ l, v < c.numNodes)
    (notAll : l.length < c.numNodes) : s.store.contains (c.predecessor first) last = false := by
  have hfirst := lt first path.first_mem
  have pos : 0 < l.length := List.length_pos_of_mem path.first_mem
  obtain ⟨ls, chains⟩ := (rest.settled (by omega)).chains
  have arc {u v : Nat} (hv : v < c.numNodes) (link : c.Link s.store u v) : c.Arc s u v :=
    ⟨chains.merged_eq hv (rest.joined hs hv (isFixed_of_eq link)), link⟩
  have path' : Path (c.Arc s) first l last := path.mono fun _ v hv link => arc (lt v hv) link
  refine Bool.eq_false_iff.mpr fun inside => ?_
  by_cases leaves : ∃ j, j < c.numNodes ∧ c.Link s.store last j
  · -- the arc that leaves the path leads back to where it starts
    obtain ⟨j, hj, link⟩ := leaves
    have joined := arc hj link
    obtain rfl : j = first := Classical.byContradiction fun hne => by
      have gone := tight.exclusive j hj (by rw [joined.1]; exact Int.one_ne_zero) _ link first hfirst
        (Ne.symm hne)
      exact Bool.false_ne_true (gone.symm.trans inside)
    have := chains.numNodes_le_of_loop ⟨_, _, path', joined⟩ lt
    omega
  · have away (j : Nat) (hj : j < c.numNodes) : ¬ c.Arc s last j := fun joined => leaves ⟨j, hj, joined.2⟩
    obtain ⟨m, hm, hmem⟩ := chains.exists_mem (lt last path.last_mem)
    obtain ⟨x, y, chain⟩ := chains.chain m hm
    obtain rfl := chain.eq_last hmem fun v hv => away v (chains.lt_of_mem hm hv)
    have free : s.cells.value (c.merged x) = 0 :=
      chain.joined.resolve_right fun closing => away x (chains.lt_of_mem hm chain.path.first_mem) closing.1
    have closed (u v : Nat) (joined : c.Arc s u v) (hv : v ∈ l) : u ∈ l := by
      rcases path'.pred_of_mem hv with rfl | ⟨w, hw, joined'⟩
      · have := Store.eq_of_fixed? joined.2 inside
        exact absurd joined (by rw [← Int.natCast_inj.mp this]; exact away v hfirst)
      · exact joined.unique joined' ▸ hw
    -- so the path leads through a whole chain, from its first node to its last
    have sub : m ⊆ l := (chain.path.back closed).2 path.last_mem
    obtain rfl : x = first := by
      rcases path'.pred_of_mem (sub chain.path.first_mem) with rfl | ⟨u, -, joined⟩
      · rfl
      · exact absurd (free.symm.trans joined.1) (by simp)
    have length := chains.length_le_of_subset hm sub
    have gone : s.store.contains (c.predecessor x) last = false := by
      by_cases several : 1 < m.length
      · have := tight.short x hfirst free (by rw [chain.length_eq]; omega)
          (by rw [chain.length_eq]; omega)
        rwa [chain.end_eq] at this
      · obtain rfl : x = last := by
          cases chain.path with
          | single _ => rfl
          | step _ p =>
            have := List.length_pos_of_mem p.first_mem
            rw [List.length_cons] at several
            omega
        exact rest.calm.apart x hfirst
    exact Bool.false_ne_true (gone.symm.trans inside)

/-- **What a circuit at rest says of the domains.** -/
theorem closed_of_resting (rest : c.Resting s) (tight : c.Tight s) (hs : s.Valid) : c.Closed s.store where
  apart := rest.calm.apart
  supported := rest.calm.supported
  exclusive i hi x fixed := tight.exclusive i hi (rest.joined hs hi (isFixed_of_eq fixed)) x fixed
  short _ _ _ path lt notAll := contains_eq_false_of_path rest tight hs path lt notAll

/-! ## What is sheltered -/

/-- In a space that encloses the store, a node has no less support. -/
theorem support_le_of_encloses {v : Nat} (h : t.store.Encloses F) :
    c.support F v ≤ c.support t.store v :=
  List.countP_mono_left fun _ _ => h.contains _ _

section
variable (hF : F.Valid)
include hF

theorem shelters_removePredecessor (ht : t.Valid) (h : t.store.Encloses F)
    (gone : F.contains (c.predecessor i) x = false) :
    Ends (c.removePredecessor i x (pending, t)) (fun _ r => r.2.store.Encloses F) Filter.Unrefuted := by
  exact ends_removePredecessor_of ((Filter.shelters_remove hF ht h gone).mono_ok fun _ _ spared =>
    spared.encloses)

/-- The arcs of a chain are fixed in every store that is enclosed. -/
theorem Chain.path_of_encloses {store : Store} {cells : Cells} (chain : c.Chain ⟨store, cells⟩ first l last)
    (h : store.Encloses F) : Path (c.Link F) first l last :=
  chain.path.mono fun _ _ _ arc => h.fixed? hF arc.2

variable (hs : s.Valid) (base : c.Base s) (closed : c.Closed F) {bound : Nat}
include hs base closed

omit base in
/-- **When chains are joined**, a path of fixed arcs of the store results, which cannot be closed. -/
theorem shelters_join (h : Working c s bound (pending, u)) (encloses : u.store.Encloses F)
    (hsource : source < c.numNodes) (hnode : node < c.numNodes) (joining : Joining c t ls source node u) :
    Ends (c.join source node (pending, u)) (fun _ r => r.2.store.Encloses F) Filter.Unrefuted := by
  obtain ⟨A, hA, B, hB, first, last, chainA, chainB⟩ := joining.chains_of hsource hnode
  have ltA (v : Nat) (hv : v ∈ A) := joining.chains.lt_of_mem hA hv
  have ltB (v : Nat) (hv : v ∈ B) := joining.chains.lt_of_mem hB hv
  have hfirst := ltA first chainA.path.first_mem
  have hlast := ltB last chainB.path.last_mem
  have pathA := chainA.path_of_encloses hF encloses
  have pathB := chainB.path_of_encloses hF encloses
  have link : c.Link F source node := encloses.fixed? hF joining.fixed
  refine joining.ends_join hsource hnode hfirst chainA chainB (fun same => ?_) fun _ => ?_
  · subst same
    obtain rfl := joining.chains.eq_of_mem hA hB chainA.path.first_mem chainB.path.first_mem
    split
    · -- the arc that closes the chain is in the store
      rename_i short
      have gone := closed.short first source A pathA ltA (by omega)
      exact absurd (gone.symm.trans (hF.contains_of_fixed? link)) Bool.false_ne_true
    · exact encloses
  · split
    · rename_i short
      have working := h.joined hfirst hlast ((A.length : Int) + B.length)
      refine shelters_removePredecessor hF (working.narrows.valid hs) encloses
        (closed.short first last (A ++ B) (pathA.append link pathB) (fun v hv => ?_) ?_)
      · exact (List.mem_append.mp hv).elim (ltA v) (ltB v)
      · rw [List.length_append]
        omega
    · exact encloses

/-- **When an arc is joined**, its source is no other predecessor in the store. -/
theorem shelters_merge {whole : Nat} (h : Working c s whole (node :: pending, t)) (chains : c.Chains t ls)
    (hb : potential (pending, t) ≤ bound) (encloses : t.store.Encloses F) :
    Ends (c.merge node (pending, t)) (fun _ r => r.2.store.Encloses F) Filter.Unrefuted := by
  have hnode := h.pending_lt node List.mem_cons_self
  have valid : t.Valid := h.narrows.valid hs
  refine ends_merge_of (fun source free fixed => ?_) fun _ => encloses
  obtain ⟨j, hj, rfl⟩ := (base.narrows hs h.narrows).exists_source valid hnode fixed
  have start := h.joining hs base hb
  have removed := ends_forM (l := c.nodes.filter (· ≠ node))
    (f := fun other => c.removePredecessor other (j : Int))
    (I := fun _ r => s.Narrows (fun _ => True) r.2 ∧ r.2.store.Encloses F) (E := Filter.Unrefuted)
    (fun before other rest split r hr => ?_) ⟨start.narrows.mono fun _ _ => trivial, encloses⟩
  · refine ((ends_removeOthers hs base start hnode fixed).and removed).mono (fun _ r hr => ?_)
      fun _ _ hr => hr.2
    obtain ⟨pending', u⟩ := r
    obtain ⟨⟨working, cells, narrows, alone⟩, -, encloses'⟩ := hr
    rw [node?_ofNat hj]
    exact shelters_join hF hs closed working encloses' hj hnode
      (chains.joining valid free fixed cells narrows alone)
  · obtain ⟨narrows, encloses'⟩ := hr
    obtain ⟨hmem, hne⟩ := List.mem_filter.mp
      (show other ∈ c.nodes.filter (· ≠ node) by rw [split]; simp)
    have gone := closed.exclusive node hnode j (encloses.fixed? hF fixed) other (mem_nodes.mp hmem)
      (by simpa using hne)
    exact ((narrowing_removePredecessor hs r narrows).and
      (shelters_removePredecessor hF (narrows.valid hs) encloses' gone)).mono (fun _ _ => id)
        fun _ _ hr' => hr'.2

/-! ### Supports -/

omit hs base in
/-- **A node that is assigned is fixed in the store**, even if it was found by counting earlier. -/
theorem shelters_assignOnly {r : List Nat × Space} {v : Nat} (hv : v < c.numNodes) (ht : t.Valid)
    (hr : r.2.Valid) (narrows : t.store.Narrows r.2.store) (encloses : r.2.store.Encloses F) :
    Ends (c.assignOnly v (c.support t.store v) r) (fun _ r' => r'.2.store.Encloses F)
      Filter.Unrefuted := by
  obtain ⟨pending, u⟩ := r
  have supported := closed.supported v hv
  have some : c.support F v ≠ 0 := supported.some
  have le : c.support F v ≤ c.support t.store v :=
    support_le_of_encloses ((Store.Encloses.of_narrows narrows ht.store).trans encloses)
  refine ends_assignOnly_of (fun none => by omega) (fun one node hnode found => ?_) fun _ _ => encloses
  obtain ⟨i, hi, inside⟩ := List.countP_pos_iff.mp (Nat.pos_of_ne_zero some)
  have hi := mem_nodes.mp hi
  -- whoever is left in the store is the only one that is left anywhere
  obtain rfl : i = node := eq_of_support_eq_one one hi hnode
    (narrows.contains ht.store (encloses.contains _ _ inside)) (narrows.contains ht.store found)
  exact (Filter.shelters_assign hF hr encloses (supported.only (by omega) i hi inside)).mono_ok
    fun _ _ spared => spared.encloses

omit base in
theorem shelters_supports (narrows : s.Narrows (fun _ => True) t) (encloses : t.store.Encloses F) :
    Ends (c.supports (pending, t)) (fun _ r => r.2.store.Encloses F) Filter.Unrefuted := by
  have valid := narrows.valid hs
  exact (ends_supports_of (I := fun _ r => t.Narrows (fun _ => True) r.2 ∧ r.2.store.Encloses F)
    ⟨.refl, encloses⟩ fun v hv _ r hr =>
      ((narrowing_assignOnly valid r hr.1).and (shelters_assignOnly hF closed hv valid
        (hr.1.valid valid) hr.1.store hr.2)).mono (fun _ _ => id) fun _ _ hr' => hr'.2).mono_ok
    fun _ _ hr => hr.2

/-! ### The filter -/

theorem shelters_round {r : List Nat × Space} (h : Working c s bound r) (chains : c.Chains r.2 ls)
    (encloses : r.2.store.Encloses F) :
    Ends (c.round r) (fun _ r' => r'.2.store.Encloses F) Filter.Unrefuted := by
  obtain ⟨pending, t⟩ := r
  cases pending with
  | nil => exact ends_round_nil.mpr (shelters_supports hF hs closed (h.narrows.mono fun _ _ => trivial) encloses)
  | cons node rest =>
    exact ends_round_cons.mpr (shelters_merge hF hs base closed h chains (Nat.le_refl _) encloses)

/-- **A circuit shelters every store that it could have come to.** -/
theorem shelters_filter (h : Working c s bound (pending, s)) (chains : c.Chains s ls)
    (encloses : s.store.Encloses F) :
    Ends (c.filter (pending, s)) (fun _ r => r.2.store.Encloses F) Filter.Unrefuted := by
  have loops := ends_forM (l := c.nodes) (f := fun node => c.removePredecessor node node)
    (I := fun _ r => s.Narrows (fun _ => True) r.2 ∧ r.2.store.Encloses F) (E := Filter.Unrefuted)
    (s := (pending, s)) (fun before i rest split r hr => ?_) ⟨.refl, encloses⟩
  · unfold filter
    refine Ends.bind (((ends_removeLoops hs base h chains).and loops).mono (fun _ _ => id)
      fun _ _ hr => hr.2) fun _ r hr => ?_
    obtain ⟨working, -, encloses⟩ := hr
    refine (ends_descend (I := fun r => (Working c s bound r ∧ ∃ ls, c.Chains r.2 ls) ∧
      r.2.store.Encloses F) (fun r hr => ?_) ⟨working, encloses⟩).mono_ok fun _ _ hr => hr.2
    obtain ⟨⟨working, ls, chains⟩, encloses⟩ := hr
    refine ((ends_round hs base working chains).and
      (shelters_round hF hs base closed working chains encloses)).mono (fun more r' hr' => ⟨?_, hr'.2⟩)
      fun _ _ hr' => hr'.2
    cases more with
    | true => exact hr'.1.1
    | false => exact hr'.1.1
  · obtain ⟨narrows, encloses⟩ := hr
    have hi : i < c.numNodes := mem_nodes.mp (by rw [split]; simp)
    exact ((narrowing_removePredecessor hs r narrows).and (shelters_removePredecessor hF
      (narrows.valid hs) encloses (closed.apart i hi))).mono (fun _ _ => id) fun _ _ hr' => hr'.2

end

end Circuit
end BranchBound
