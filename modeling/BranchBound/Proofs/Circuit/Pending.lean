import BranchBound.Proofs.Circuit.Idempotence

/-! # Nodes that wait in vain

A circuit is told of every predecessor that becomes fixed, also of one that it fixed itself, and the node
is put down as pending again although its arc has been joined.  Such a node waits in vain.

Of any circuit, whether it suits the domains or not, the trailed integers that stand for nodes do, and an
arc that has been joined is fixed (`Circuit.InOrder`).  The filter keeps this however it ends, and what has
been joined stays joined.  If it ends well, then whatever became fixed has been joined
(`Circuit.ends_filter_noted`).

**Nodes that wait in vain make no difference** (`Circuit.alike_filter`): with them below the pending nodes
the filter ends alike, in the same space. -/
namespace BranchBound
namespace Circuit
variable {c : Circuit} {s t : Space} {r r' r'' : List Nat × Space} {i k node source : Nat} {x : Int}

/-- A trailed integer that stands for a node does, and an arc that has been joined is fixed. -/
structure InOrder (c : Circuit) (s : Space) : Prop where
  size_le : c.firstCell + 4 * c.numNodes ≤ s.cells.values.size
  known : ∀ i, i < c.numNodes → c.predecessor i < s.store.numVars
  start_lt : ∀ i, i < c.numNodes → (s.cells.value (c.chainStart i)).toNat < c.numNodes
  end_lt : ∀ i, i < c.numNodes → (s.cells.value (c.chainEnd i)).toNat < c.numNodes
  fixed : ∀ i, i < c.numNodes → s.cells.value (c.merged i) ≠ 0 →
    s.store.isFixed (c.predecessor i) = true

/-- A node whose arc has been joined waits in vain. -/
def InVain (c : Circuit) (s : Space) (i : Nat) : Prop :=
  i < c.numNodes ∧ s.cells.value (c.merged i) ≠ 0

theorem inVain_notify {event : Event} {node : Nat} : (c.notify node event).InVain s i ↔ c.InVain s i := by
  rw [notify_eq]
  exact Iff.rfl

/-- It does not matter who waits. -/
theorem inOrder_congr {pending : List Nat} : ({ c with pending } : Circuit).InOrder s ↔ c.InOrder s :=
  ⟨fun h => ⟨h.1, h.2, h.3, h.4, h.5⟩, fun h => ⟨h.1, h.2, h.3, h.4, h.5⟩⟩

/-- It depends on the variables that were there and on the own trailed integers. -/
theorem InOrder.grows (h : c.InOrder s) (grown : s.store.Grows t.store)
    (size : s.cells.values.size ≤ t.cells.values.size)
    (same : ∀ k, c.own k → t.cells.value k = s.cells.value k) : c.InOrder t where
  size_le := Nat.le_trans h.size_le size
  known i hi := (grown.known (h.known i hi)).1
  start_lt i hi := by
    rw [same _ (own_chainStart hi)]
    exact h.start_lt i hi
  end_lt i hi := by
    rw [same _ (own_chainEnd hi)]
    exact h.end_lt i hi
  fixed i hi hm := by
    rw [same _ (own_merged hi)] at hm
    rw [Store.isFixed, (grown.known (h.known i hi)).2]
    exact h.fixed i hi hm

theorem InOrder.congr_bare (h : c.InOrder s) (hb : t.bare = s.bare) : c.InOrder t :=
  h.grows (Store.grows_of_domains (Space.domains_eq_of_bare hb))
    (Nat.le_of_eq (congrArg Arena.size (Space.values_eq_of_bare hb)).symm)
    fun k _ => Space.value_eq_of_bare hb k

/-- At first every node is a chain of its own, and no arc has been joined. -/
theorem inOrder_of_initial (size_le : c.firstCell + 4 * c.numNodes ≤ s.cells.values.size)
    (known : ∀ i, i < c.numNodes → c.predecessor i < s.store.numVars)
    (initial : ∀ k x, c.initialCells[k]? = some x → s.cells.value (c.firstCell + k) = x) :
    c.InOrder s := by
  refine ⟨size_le, known, fun i hi => ?_, fun i hi => ?_, fun i hi hm => absurd ?_ hm⟩ <;>
    obtain ⟨start, last, -, merged⟩ := getElem?_initialCells hi
  · rw [chainStart, initial _ _ start]
    exact hi
  · rw [chainEnd, Nat.add_assoc, initial _ _ last]
    exact hi
  · rw [Circuit.merged, Nat.add_assoc, initial _ _ merged]

/-- What is in order stays so when domains shrink and the own trailed integers are left alone. -/
theorem InOrder.narrowed (h : c.InOrder s) (hs : s.store.Valid) (hn : s.store.Narrows t.store)
    (size : s.cells.values.size ≤ t.cells.values.size)
    (same : ∀ k, c.own k → t.cells.value k = s.cells.value k) : c.InOrder t where
  size_le := Nat.le_trans h.size_le size
  known i hi := hn.numVars_eq ▸ h.known i hi
  start_lt i hi := by
    rw [same _ (own_chainStart hi)]
    exact h.start_lt i hi
  end_lt i hi := by
    rw [same _ (own_chainEnd hi)]
    exact h.end_lt i hi
  fixed i hi hm := by
    rw [same _ (own_merged hi)] at hm
    exact Store.isFixed_of_within (hn.valid hs) (fun _ hx => hn.contains hs hx) (h.fixed i hi hm)

/-- An own trailed integer is assigned what it may hold. -/
theorem InOrder.assign (h : c.InOrder t) (hk : c.own k)
    (start : ∀ i, i < c.numNodes → k = c.chainStart i → x.toNat < c.numNodes)
    (last : ∀ i, i < c.numNodes → k = c.chainEnd i → x.toNat < c.numNodes)
    (fixed : ∀ i, i < c.numNodes → k = c.merged i → t.store.isFixed (c.predecessor i) = true) :
    c.InOrder ⟨t.store, t.cells.assign k x⟩ := by
  have value (j : Nat) : (t.cells.assign k x).value j = if k = j then x else t.cells.value j :=
    Cells.value_assign (Nat.lt_of_lt_of_le hk.2 h.size_le)
  refine ⟨Cells.size_assign.symm ▸ h.size_le, h.known, fun i hi => ?_, fun i hi => ?_, fun i hi hm => ?_⟩
  · rw [value]
    split
    · exact start i hi ‹_›
    · exact h.start_lt i hi
  · rw [value]
    split
    · exact last i hi ‹_›
    · exact h.end_lt i hi
  · dsimp only at hm
    rw [value] at hm
    split at hm
    · exact fixed i hi ‹_›
    · exact h.fixed i hi hm

/-! ## What the filter keeps however it ends -/

/-- What is kept from a space on, whether the circuit suits it or not. -/
structure Tended (c : Circuit) (s : Space) (r : List Nat × Space) : Prop where
  narrows : s.Narrows c.own r.2
  inOrder : c.InOrder r.2
  pending_lt : ∀ i ∈ r.1, i < c.numNodes
  joined : ∀ i, i < c.numNodes → s.cells.value (c.merged i) ≠ 0 → r.2.cells.value (c.merged i) ≠ 0

/-- Whether the variable of a node is that of no other node. -/
def Sole (c : Circuit) (i : Nat) : Prop :=
  ∀ j, j < c.numNodes → c.predecessor j = c.predecessor i → j = i

/-- What became fixed has been joined or waits, and no arc was joined whose variable is that of another. -/
structure Noted (c : Circuit) (s : Space) (r : List Nat × Space) : Prop where
  noted : ∀ v, r.2.store.isFixed v = true → s.store.isFixed v = false →
    ∃ i, i < c.numNodes ∧ c.predecessor i = v ∧ (i ∈ r.1 ∨ r.2.cells.value (c.merged i) ≠ 0)
  sole : ∀ i, i < c.numNodes → r.2.cells.value (c.merged i) ≠ 0 →
    s.cells.value (c.merged i) = 0 → c.Sole i

theorem Tended.refl {pending : List Nat} (h : c.InOrder s) (lt : ∀ i ∈ pending, i < c.numNodes) :
    Tended c s (pending, s) := ⟨.refl, h, lt, fun _ _ => id⟩

/-- A node need not wait for the rest to be tended. -/
theorem Tended.tail {rest : List Nat} (h : Tended c s (node :: rest, t)) : Tended c s (rest, t) :=
  ⟨h.narrows, h.inOrder, fun i hi => h.pending_lt i (List.mem_cons_of_mem node hi), h.joined⟩

theorem Noted.refl {pending : List Nat} : Noted c s (pending, s) where
  noted v hv hv' := absurd (hv.symm.trans hv') (by simp)
  sole i _ hm hm' := absurd hm' hm

/-- Whoever joins nothing and forgets nobody keeps what is noted. -/
theorem Noted.congr (h : Noted c s r) (domains : ∀ v, r'.2.store.isFixed v = true →
      r.2.store.isFixed v = true ∨ ∃ i ∈ r'.1, i < c.numNodes ∧ c.predecessor i = v)
    (sub : r.1 ⊆ r'.1)
    (same : ∀ i, i < c.numNodes → r'.2.cells.value (c.merged i) = r.2.cells.value (c.merged i)) :
    Noted c s r' where
  noted v hv hv' := by
    rcases domains v hv with before | ⟨i, hi, lt, heq⟩
    · obtain ⟨i, lt, heq, hi⟩ := h.noted v before hv'
      refine ⟨i, lt, heq, ?_⟩
      rw [same i lt]
      exact hi.imp_left fun hi => sub hi
    · exact ⟨i, lt, heq, .inl hi⟩
  sole i lt hm hm' := h.sole i lt (same i lt ▸ hm) hm'

/-- What a part of the filter that ends well does to what it starts from. -/
structure Advances (c : Circuit) (s : Space) (r r' : List Nat × Space) : Prop where
  tended : Tended c s r'
  potential_le : potential r' ≤ potential r
  noted : Noted c s r → Noted c s r'

theorem Advances.refl (h : Tended c s r) : Advances c s r r := ⟨h, Nat.le_refl _, id⟩

theorem Advances.trans (h : Advances c s r r') (h' : Advances c s r' r'') : Advances c s r r'' :=
  ⟨h'.tended, Nat.le_trans h'.potential_le h.potential_le, fun hr => h'.noted (h.noted hr)⟩

section
variable {pending pending' : List Nat} {store : Store} {keep : Int → Prop} {changed : Bool}
  (hs : s.Valid)
include hs

/-- A predecessor is narrowed, and the node is put down if that fixes it. -/
theorem Tended.narrowed (h : Tended c s (pending, t)) (hi : i < c.numNodes)
    (hn : t.store.Narrowed (c.predecessor i) keep changed store)
    (hp : (pending' = pending ∧ (changed = true → store.isFixed (c.predecessor i) = false)) ∨
      (pending' = i :: pending ∧ changed = true)) :
    Advances c s (pending, t) (pending', ⟨store, t.cells⟩) ∧
      (changed = true → potential (pending', ⟨store, t.cells⟩) < potential (pending, t)) := by
  have grown : pending' = pending ∨ pending' = i :: pending := hp.imp And.left And.left
  have valid := (h.narrows.valid hs).store
  refine ⟨⟨⟨h.narrows.trans (.of_store hn.narrows), h.inOrder.narrowed valid hn.narrows (Nat.le_refl _)
    fun _ _ => rfl, forall_lt_of_grown hi h.pending_lt grown, h.joined⟩, potential_le_of_grown hn hp,
    fun noted => ?_⟩, fun changed => potential_lt_of_grown hn changed grown⟩
  exact noted.congr (fun v fixed => (isFixed_of_grown hn hp fixed).imp_right fun ⟨same, waits⟩ =>
    ⟨i, waits, hi, same.symm⟩) (subset_of_grown grown) fun _ _ => rfl

theorem advances_removePredecessor (h : Tended c s r) (hi : i < c.numNodes) :
    Ends (c.removePredecessor i x r)
      (fun _ r' => Advances c s r r' ∧ r'.2.cells = r.2.cells ∧
        Removed r.2.store (c.predecessor i) x r'.2.store) (fun _ => Tended c s) := by
  obtain ⟨pending, t⟩ := r
  have valid := (h.narrows.valid hs).store
  refine ends_removePredecessor_of ?_
  rw [Filter.remove, Filter.ends_onStore]
  refine Ends.mono (Store.keeps_remove valid) (fun changed store hn => ?_) fun halt store hr => ?_
  · exact ⟨(h.narrowed hs hi hn waiting_cases).1, rfl, removed_of_narrowed valid hn⟩
  · rw [hr.eq]
    exact h

omit hs in
/-- A trailed integer of the chains is assigned. -/
theorem Tended.assign (h : Tended c s (pending, t)) (hk : c.own k) (away : ∀ i, k ≠ c.merged i)
    (start : ∀ i, i < c.numNodes → k = c.chainStart i → x.toNat < c.numNodes)
    (last : ∀ i, i < c.numNodes → k = c.chainEnd i → x.toNat < c.numNodes) :
    Advances c s (pending, t) (pending, ⟨t.store, t.cells.assign k x⟩) where
  tended := ⟨.assign h.narrows hk,
    h.inOrder.assign hk start last fun i _ heq => absurd heq (away i), h.pending_lt,
    fun i hi hm => by
      change (t.cells.assign k x).value _ ≠ 0
      rw [Cells.value_assign_ne (away i)]
      exact h.joined i hi hm⟩
  potential_le := Nat.le_refl _
  noted noted := noted.congr (fun _ => .inl) (List.Subset.refl _) fun i _ => Cells.value_assign_ne (away i)

theorem advances_join (h : Tended c s r) (hsource : source < c.numNodes) (hnode : node < c.numNodes) :
    Ends (c.join source node r) (fun _ => Advances c s r) (fun _ => Tended c s) := by
  obtain ⟨pending, t⟩ := r
  have first_lt : (t.cells.value (c.chainStart source)).toNat < c.numNodes :=
    h.inOrder.start_lt source hsource
  have last_lt : (t.cells.value (c.chainEnd node)).toNat < c.numNodes := h.inOrder.end_lt node hnode
  have ended : Advances c s (pending, t) (pending, ⟨t.store, t.cells.assign
      (c.chainEnd (t.cells.value (c.chainStart source)).toNat)
      (t.cells.value (c.chainEnd node)).toNat⟩) :=
    h.assign (own_chainEnd first_lt) (fun _ => chainEnd_ne_merged first_lt)
      (fun i _ _ => last_lt) fun i _ _ => last_lt
  have started := ended.trans (ended.tended.assign (k := c.chainStart
      (t.cells.value (c.chainEnd node)).toNat) (x := (t.cells.value (c.chainStart source)).toNat)
    (own_chainStart last_lt) (fun _ => chainStart_ne_merged last_lt)
    (fun i _ _ => first_lt) fun i _ _ => first_lt)
  refine ends_join_of rfl rfl rfl rfl (fun _ => ?_) fun _ => ?_
  · split
    · exact h
    · exact .refl h
  · generalize t.cells.value (c.chainLength _) + _ = total
    have counted := started.trans (started.tended.assign (k := c.chainLength
        (t.cells.value (c.chainStart source)).toNat) (x := total)
      (own_chainLength first_lt) (fun _ => chainLength_ne_merged first_lt)
      (fun _ hi heq => absurd heq.symm (chainStart_ne_chainLength hi))
      fun _ hi heq => absurd heq.symm (chainEnd_ne_chainLength hi))
    split
    · exact (advances_removePredecessor hs counted.tended first_lt).mono_ok
        fun _ _ hr => counted.trans hr.1
    · exact counted

/-! ### Joining the arc into a node -/

omit hs in
/-- A node that is fixed is known to be joined from now on. -/
theorem Tended.joining (h : Tended c s (pending, t)) (hnode : node < c.numNodes) {source : Int}
    (fixed : t.store.fixed? (c.predecessor node) = some source) :
    Tended c s (pending, ⟨t.store, t.cells.assign (c.merged node) 1⟩) := by
  refine ⟨.assign h.narrows (own_merged hnode), h.inOrder.assign (own_merged hnode)
    (fun i hi heq => ?_) (fun i hi heq => ?_) (fun i hi heq => ?_), h.pending_lt, fun i hi hm => ?_⟩
  · exact absurd heq.symm (chainStart_ne_merged hi)
  · exact absurd heq.symm (chainEnd_ne_merged hi)
  · obtain rfl := merged_inj.mp heq
    have := Store.fixed?_eq_none_iff.not.mp (by rw [fixed]; simp)
    simpa using this
  · dsimp only
    rw [merged_joined h.inOrder.size_le hnode]
    split
    · exact Int.one_ne_zero
    · exact h.joined i hi hm

omit hs in
/-- It need not wait any longer, if no other node has its variable. -/
theorem Noted.forget (noted : Noted c s (node :: pending, t)) (h : Tended c s (pending, t))
    (hnode : node < c.numNodes) (sole : c.Sole node) :
    Noted c s (pending, ⟨t.store, t.cells.assign (c.merged node) 1⟩) := by
  refine ⟨fun v hv hv' => ?_, fun i hi hm hm' => ?_⟩
  · obtain ⟨i, hi, heq, waits⟩ := noted.noted v hv hv'
    refine ⟨i, hi, heq, ?_⟩
    dsimp only
    rw [merged_joined h.inOrder.size_le hnode]
    -- the node that is taken off the list is joined from now on
    by_cases hin : i = node
    · rw [if_pos hin]
      exact .inr Int.one_ne_zero
    · rw [if_neg hin]
      exact waits.imp_left fun hmem => (List.mem_cons.mp hmem).resolve_left hin
  · dsimp only at hm
    rw [merged_joined h.inOrder.size_le hnode] at hm
    split at hm
    · rename_i same
      exact same ▸ sole
    · exact noted.sole i hi hm hm'

omit hs in
/-- Nor need a node that is joined already, or has no predecessor yet. -/
theorem Noted.skip (noted : Noted c s (node :: pending, t))
    (other : ∀ source, t.cells.value (c.merged node) = 0 → t.store.fixed? (c.predecessor node) ≠ some source) :
    Noted c s (pending, t) := by
  refine ⟨fun v hv hv' => ?_, noted.sole⟩
  obtain ⟨i, hi, heq, waits⟩ := noted.noted v hv hv'
  refine ⟨i, hi, heq, ?_⟩
  by_cases hin : i = node
  · refine .inr fun free => ?_
    subst hin heq
    cases hf : t.store.fixed? (c.predecessor i) with
    | none =>
      rw [Store.fixed?_eq_none_iff] at hf
      exact absurd (hv.symm.trans hf) (by simp)
    | some source => exact other source free hf
  · exact waits.imp_left fun hmem => (List.mem_cons.mp hmem).resolve_left hin

/-- When the value of a node has been removed from all others, no other has its variable. -/
theorem advances_apart {source : Int} (h : Tended c s r)
    (fixed : r.2.store.fixed? (c.predecessor node) = some source) :
    Ends ((c.nodes.filter (· ≠ node)).forM (fun other => c.removePredecessor other source) r)
      (fun _ r' => Advances c s r r' ∧ c.Sole node) (fun _ => Tended c s) := by
  refine Ends.mono_ok (ends_forM
    (I := fun before r' => Advances c s r r' ∧
      r'.2.store.fixed? (c.predecessor node) = some source ∧
      ∀ other ∈ before, r'.2.store.fixed? (c.predecessor other) ≠ some source)
    (fun before other rest split r' hr => ?_) ⟨.refl h, fixed, fun _ h => by cases h⟩)
    fun _ r' hr => ?_
  · obtain ⟨advances, here, gone⟩ := hr
    have mem : other ∈ c.nodes.filter (· ≠ node) := by rw [split]; simp
    have lt := mem_nodes.mp (List.mem_filter.mp mem).1
    have valid' := (advances.tended.narrows.valid hs).store
    refine (advances_removePredecessor hs advances.tended lt).mono_ok fun _ r'' hr' => ?_
    obtain ⟨advances', -, removed⟩ := hr'
    refine ⟨advances.trans advances', removed.narrows.fixed? valid' here, fun w hw => ?_⟩
    rcases List.mem_append.mp hw with hw | hw
    · exact removed.gone _ (.inr (gone w hw))
    · exact removed.gone _ (.inl (by rw [List.mem_singleton.mp hw]))
  · obtain ⟨advances, here, gone⟩ := hr
    refine ⟨advances, fun j hj heq => Classical.byContradiction fun hne => ?_⟩
    refine gone j (List.mem_filter.mpr ⟨mem_nodes.mpr hj, by simpa using hne⟩) ?_
    rw [heq]
    exact here

/-- The arc into a node is joined, if it has to be; the node need not wait any longer. -/
theorem advances_merge (h : Tended c s r) (hnode : node < c.numNodes) :
    Ends (c.merge node r)
      (fun _ r' => Tended c s r' ∧ potential r' ≤ potential r ∧
        (Noted c s (node :: r.1, r.2) → Noted c s r')) (fun _ => Tended c s) := by
  obtain ⟨pending, t⟩ := r
  refine ends_merge_of (fun source free fixed => ?_) fun other =>
    ⟨h, Nat.le_refl _, fun noted => noted.skip other⟩
  refine (advances_apart hs (h.joining hnode fixed) fixed).mono_ok fun _ r hr => ?_
  obtain ⟨advances, sole⟩ := hr
  refine ends_demand (fun u hu => ?_) fun _ => advances.tended
  refine (advances_join hs advances.tended (node?_lt hu) hnode).mono_ok fun _ r' hr' => ?_
  have all := advances.trans hr'
  exact ⟨all.tended, all.potential_le, fun noted => all.noted (noted.forget h hnode sole)⟩

theorem advances_assignOnly {v count : Nat} (h : Tended c s r) :
    Ends (c.assignOnly v count r)
      (fun more r' => Advances c s r r' ∧ (more = true → potential r' < potential r) ∧
        (more = false → r' = r)) (fun _ => Tended c s) := by
  obtain ⟨pending, t⟩ := r
  have stay : Advances c s (pending, t) (pending, t) ∧
      (false = true → potential (pending, t) < potential (pending, t)) ∧
      (false = false → (pending, t) = (pending, t)) := ⟨.refl h, fun h => (by cases h), fun _ => rfl⟩
  refine ends_assignOnly_of (fun _ => h) (fun _ node hnode _ => ?_) fun _ _ => stay
  rw [Filter.assign, Filter.ends_onStore]
  refine Ends.mono (Store.keeps_assign (h.narrows.valid hs).store) (fun changed store hn => ?_)
    fun halt store hr => hr.eq ▸ h
  cases changed with
  | true =>
    obtain ⟨advances, lower⟩ := h.narrowed hs hnode hn (.inr ⟨rfl, rfl⟩)
    exact ⟨advances, lower, fun h => by cases h⟩
  | false =>
    obtain rfl := hn.unchanged rfl
    exact stay

theorem advances_supports (h : Tended c s r) :
    Ends (c.supports r)
      (fun more r' => Advances c s r r' ∧ (more = true → potential r' < potential r) ∧
        (more = false → r' = r)) (fun _ => Tended c s) := by
  obtain ⟨pending, t⟩ := r
  refine ends_supports_of (I := fun more r' => Advances c s (pending, t) r' ∧
    (more = true → potential r' < potential (pending, t)) ∧ (more = false → r' = (pending, t)))
    ⟨.refl h, fun h => (by cases h), fun _ => rfl⟩ fun _ _ more r hr => ?_
  obtain ⟨advances, lower, same⟩ := hr
  refine (advances_assignOnly hs advances.tended).mono_ok fun b r' hr' => ?_
  obtain ⟨advances', lower', same'⟩ := hr'
  refine ⟨advances.trans advances', fun hb => ?_, fun hb => ?_⟩
  · cases b with
    | true => exact Nat.lt_of_lt_of_le (lower' rfl) advances.potential_le
    | false =>
      obtain rfl := same' rfl
      exact lower (by simpa using hb)
  · obtain ⟨rfl, rfl⟩ := Bool.or_eq_false_iff.mp hb
    rw [same' rfl, same rfl]

theorem advances_round (h : Tended c s r) :
    Ends (c.round r)
      (fun more r' => Advances c s r r' ∧
        if more then potential r' < potential r else r'.1 = []) (fun _ => Tended c s) := by
  obtain ⟨pending, t⟩ := r
  cases pending with
  | nil =>
    refine ends_round_nil.mpr ((advances_supports hs h).mono_ok fun more r' hr => ⟨hr.1, ?_⟩)
    cases more with
    | true => exact hr.2.1 rfl
    | false => exact congrArg Prod.fst (hr.2.2 rfl)
  | cons node rest =>
    rw [ends_round_cons]
    refine (advances_merge hs h.tail (h.pending_lt node List.mem_cons_self)).mono_ok fun _ r' hr => ?_
    obtain ⟨tended, le, noted⟩ := hr
    have lower : potential r' < potential (node :: rest, t) := Nat.lt_of_le_of_lt le potential_lt_cons
    exact ⟨⟨tended, Nat.le_of_lt lower, noted⟩, lower⟩

/-- **Rounds come to an end**, whether the circuit suits the domains or not. -/
theorem lowers_round : Lowers potential c.round (Tended c s) := by
  intro r r' h hr
  obtain ⟨advances, lower⟩ := (advances_round hs h).of_ok hr
  exact ⟨advances.tended, lower⟩

theorem advances_removeLoops (h : Tended c s r) :
    Ends (c.nodes.forM (fun node => c.removePredecessor node node) r) (fun _ => Advances c s r)
      (fun _ => Tended c s) := by
  refine ends_forM (I := fun _ r' => Advances c s r r') (fun before i rest split r' hr => ?_) (.refl h)
  have hi : i < c.numNodes := mem_nodes.mp (by rw [split]; simp)
  exact (advances_removePredecessor hs hr.tended hi).mono_ok fun _ _ hr' => hr.trans hr'.1

theorem advances_filter (h : Tended c s r) :
    Ends (c.filter r) (fun _ r' => Advances c s r r' ∧ r'.1 = []) (fun _ => Tended c s) := by
  unfold filter
  refine (advances_removeLoops hs h).bind fun _ r' hr => ?_
  refine ends_descend_done (I := Advances c s r) (J := fun r' => Advances c s r r' ∧ r'.1 = [])
    (fun r' hr => ?_) hr
  refine (advances_round hs hr.tended).mono_ok fun more r'' hr' => ?_
  cases more with
  | true => exact ⟨hr.trans hr'.1, hr'.2⟩
  | false => exact ⟨hr.trans hr'.1, hr'.2⟩

/-- **What a call that ends well has fixed is joined**, and nobody waits. -/
theorem ends_filter_noted {pending : List Nat} (h : c.InOrder s) (lt : ∀ i ∈ pending, i < c.numNodes) :
    Ends (c.filter (pending, s))
      (fun _ r => Tended c s r ∧ r.1 = [] ∧ ∀ i, i < c.numNodes →
        r.2.store.isFixed (c.predecessor i) = true → s.store.isFixed (c.predecessor i) = false →
        c.InVain r.2 i) (fun _ => Tended c s) := by
  refine (advances_filter hs (.refl h lt)).mono_ok fun _ r hr => ?_
  obtain ⟨advances, none⟩ := hr
  refine ⟨advances.tended, none, fun i hi now before => ⟨hi, ?_⟩⟩
  have noted := advances.noted .refl
  obtain ⟨j, hj, heq, waits⟩ := noted.noted _ now before
  rw [none] at waits
  have joined := waits.resolve_left (by simp)
  -- the variable was not fixed before, so the arc was joined just now
  have fresh : s.cells.value (c.merged j) = 0 := Classical.byContradiction fun hm => by
    have := h.fixed j hj hm
    rw [heq, before] at this
    cases this
  obtain rfl := noted.sole j hj joined fresh i hi heq.symm
  exact joined

end

/-! ## With nodes that wait in vain -/

/-- With nodes that wait below the others. -/
def laden (stale : List Nat) (r : List Nat × Space) : List Nat × Space := (r.1 ++ stale, r.2)

section
variable {stale : List Nat} {α : Type}

theorem mirrors_beside {f : Filter α} :
    Mirrors (laden stale) (f.beside : Step α) f.beside := by
  rintro ⟨pending, t⟩
  unfold Filter.beside laden
  dsimp only
  cases f t with
  | ok a t => rfl
  | error e t => rfl

theorem mirrors_cell : Mirrors (laden stale) (cell i) (cell i) := fun _ => rfl

theorem mirrors_defer : Mirrors (laden stale) (defer i) (defer i) := mirrors_modify fun _ => rfl

theorem mirrors_removePredecessor :
    Mirrors (laden stale) (c.removePredecessor i x) (c.removePredecessor i x) :=
  mirrors_beside.bind fun _ => mirrors_beside.bind fun _ => mirrors_ite mirrors_defer mirrors_pure

theorem mirrors_join : Mirrors (laden stale) (c.join source node) (c.join source node) :=
  mirrors_cell.bind fun _ => mirrors_cell.bind fun _ => mirrors_cell.bind fun _ => mirrors_ite
    (mirrors_ite mirrors_throw mirrors_pure)
    (mirrors_cell.bind fun _ => mirrors_beside.bind fun _ => mirrors_beside.bind fun _ =>
      mirrors_beside.bind fun _ => mirrors_ite mirrors_removePredecessor mirrors_pure)

theorem mirrors_demand {o : Option α} : Mirrors (laden stale) (demand o : Step α) (demand o) := by
  cases o with
  | none => exact mirrors_throw
  | some a => exact mirrors_pure

theorem mirrors_merge : Mirrors (laden stale) (c.merge node) (c.merge node) := by
  refine mirrors_cell.bind fun done => mirrors_beside.bind fun source? => ?_
  split
  · exact mirrors_beside.bind fun _ => (mirrors_forM fun _ => mirrors_removePredecessor).bind fun _ =>
      mirrors_demand.bind fun _ => mirrors_join
  · exact mirrors_pure

/-- As long as somebody waits who has a reason to, a round is the same with others below. -/
theorem round_laden_cons {rest : List Nat} :
    c.round (node :: rest ++ stale, t) = mapState (laden stale) (c.round (node :: rest, t)) :=
  (mirrors_merge.bind fun _ => mirrors_pure) (rest, t)

/-- A round with a node that waits in vain only forgets it. -/
theorem round_of_inVain {rest : List Nat} (h : c.InVain t node) :
    c.round (node :: rest, t) = .ok true (rest, t) :=
  bind_of_ok (merge_eq_of_joined fun _ => h.2)

end

/-- Two computations end alike: with the same answer in the same state, or with the same cause in states
that differ in nodes that wait in vain. -/
def EndsAlike (c : Circuit) (clean dirty : EStateM.Result Halt (List Nat × Space) Unit) : Prop :=
  Ends clean (fun _ r => dirty = .ok () r)
    (fun halt r => ∃ stale, (∀ i ∈ stale, c.InVain r.2 i) ∧ dirty = .error halt (laden stale r))

theorem EndsAlike.refl (result : EStateM.Result Halt (List Nat × Space) Unit) :
    c.EndsAlike result result := by
  cases result with
  | ok _ r => rfl
  | error halt r => exact ⟨[], fun _ h => (by cases h), by simp [laden]⟩

theorem Tended.inVain (h : Tended c s r) (hi : c.InVain s i) : c.InVain r.2 i :=
  ⟨hi.1, h.joined i hi.1 hi.2⟩

theorem potential_laden {stale : List Nat} : potential (laden stale r) = potential r + stale.length := by
  change 2 * _ + (r.1 ++ stale).length = 2 * _ + r.1.length + stale.length
  rw [List.length_append, Nat.add_assoc]

/-- Who waits in vain is forgotten in the end. -/
theorem alike_descend {stale : List Nat} (valid : r.2.Valid) (h : c.InOrder r.2)
    (lt : ∀ i ∈ r.1, i < c.numNodes) (vain : ∀ i ∈ stale, c.InVain r.2 i) :
    c.EndsAlike (descend potential c.round r) (descend potential c.round (laden stale r)) := by
  -- on the potential with them, which falls when they are forgotten too
  induction bound : potential (laden stale r) using Nat.strongRecOn generalizing r stale with
  | _ n ih =>
    subst bound
    obtain ⟨pending, t⟩ := r
    have tended : Tended c t (pending, t) := .refl h lt
    have tended' : Tended c t (laden stale (pending, t)) := .refl h fun i hi =>
      (List.mem_append.mp hi).elim (lt i) fun hi => (vain i hi).1
    cases pending with
    | nil =>
      cases stale with
      | nil => exact .refl _
      | cons i stale =>
        -- without them, nothing happens meanwhile
        have forgotten : c.round (laden (i :: stale) ([], t)) = .ok true (laden stale ([], t)) :=
          round_of_inVain (vain i List.mem_cons_self)
        rw [descend_of_more (lowers_round valid) tended' forgotten]
        refine ih _ ?_ valid h lt (fun j hj => vain j (List.mem_cons_of_mem i hj)) rfl
        rw [potential_laden, potential_laden, List.length_cons]
        omega
    | cons node rest =>
      have mirrored : c.round (laden stale (node :: rest, t)) =
          mapState (laden stale) (c.round (node :: rest, t)) := round_laden_cons
      have round := advances_round valid tended
      cases hr : c.round (node :: rest, t) with
      | error halt r =>
        rw [hr] at round mirrored
        rw [descend_of_error hr, descend_of_error mirrored]
        exact ⟨stale, fun i hi => round.inVain (vain i hi), rfl⟩
      | ok more r =>
        cases more with
        | false =>
          obtain ⟨_, _, -, hfalse⟩ := bind_eq_ok (m := c.merge node) hr
          cases hfalse
        | true =>
          rw [hr] at round mirrored
          obtain ⟨advances, lower⟩ := round
          have next := advances.tended
          rw [descend_of_more (lowers_round valid) tended hr,
            descend_of_more (lowers_round valid) tended' mirrored]
          refine ih _ ?_ (next.narrows.valid valid) next.inOrder next.pending_lt
            (fun i hi => next.inVain (vain i hi)) rfl
          rw [potential_laden, potential_laden]
          exact Nat.add_lt_add_right lower _

/-- **Nodes that wait in vain make no difference.** -/
theorem alike_filter {pending stale : List Nat} (hs : s.Valid) (h : c.InOrder s)
    (lt : ∀ i ∈ pending, i < c.numNodes) (vain : ∀ i ∈ stale, c.InVain s i) :
    c.EndsAlike (c.filter (pending, s)) (c.filter (pending ++ stale, s)) := by
  have noLoop (node : Nat) : Mirrors (laden stale) (c.removePredecessor node node)
      (c.removePredecessor node node) := mirrors_removePredecessor
  have mirrored := mirrors_forM (l := c.nodes) noLoop (pending, s)
  have loops := advances_removeLoops hs (.refl h lt)
  cases hr : c.nodes.forM (fun node => c.removePredecessor node node) (pending, s) with
  | error halt r =>
    rw [hr] at loops mirrored
    have clean : c.filter (pending, s) = .error halt r := bind_of_error hr
    have dirty : c.filter (pending ++ stale, s) = .error halt (laden stale r) := bind_of_error mirrored
    rw [clean, dirty]
    exact ⟨stale, fun i hi => loops.inVain (vain i hi), rfl⟩
  | ok _ r =>
    rw [hr] at loops mirrored
    have next := loops.tended
    have clean : c.filter (pending, s) = descend potential c.round r := bind_of_ok hr
    have dirty : c.filter (pending ++ stale, s) = descend potential c.round (laden stale r) :=
      bind_of_ok mirrored
    rw [clean, dirty]
    exact alike_descend (next.narrows.valid hs) next.inOrder next.pending_lt
      fun i hi => next.inVain (vain i hi)

end Circuit
end BranchBound
