import BranchBound.Proofs.Circuit.Steps

/-! # The filter of circuits

The filter works on a space and a list of nodes whose arcs wait to be joined (`Circuit.Working`).  Every
step of it keeps what is said of both: no circuit is lost, a node whose predecessor is fixed has been
joined or waits, and the trailed integers describe the chains.  So in the end nothing waits, and all that
is fixed is joined (`Circuit.ends_filter`). -/
namespace BranchBound
namespace Circuit
variable {c : Circuit} {s t : Space} {ls : List (List Nat)} {i : Nat}

/-! ## Whatever a circuit is called in, it narrows -/

/-- A computation that narrows a space, whatever it is. -/
def Narrowing {α : Type} (s : Space) (m : Step α) : Prop :=
  ∀ r, s.Narrows (fun _ => True) r.2 →
    Ends (m r) (fun _ r => s.Narrows (fun _ => True) r.2) (fun _ r => s.Narrows (fun _ => True) r.2)

section
variable {α β : Type} {x : Int}

theorem narrowing_pure {a : α} : Narrowing s (pure a) := fun _ => id

theorem narrowing_bind {m : Step α} {f : α → Step β} (hm : Narrowing s m)
    (hf : ∀ a, Narrowing s (f a)) : Narrowing s (m >>= f) :=
  fun r hr => (hm r hr).bind fun a => hf a

theorem narrowing_cell : Narrowing s (cell i) := fun _ => id

theorem narrowing_defer : Narrowing s (defer i) := fun _ => id

theorem narrowing_refute {cause : Inconsistency} : Narrowing s (refute cause : Step α) := fun _ => id

theorem narrowing_demand {o : Option α} : Narrowing s (demand o : Step α) :=
  fun _ hr => ends_demand (fun _ _ => hr) fun _ => hr

theorem narrowing_read {f : Store → α} : Narrowing s (Filter.read f).beside := fun _ => id

theorem narrowing_assignCell : Narrowing s (Filter.assignCell i x).beside :=
  fun _ hr => .assign hr trivial

theorem narrowing_onStore (hs : s.Valid) {f : Store.Narrowing} {v : Var}
    (h : ∀ t : Store, t.Valid → ∃ keep, t.Keeps v keep f) :
    Narrowing s (Filter.onStore f).beside := by
  rintro ⟨pending, t⟩ hr
  obtain ⟨keep, kept⟩ := h t.store (hr.valid hs).store
  rw [Filter.ends_beside, Filter.ends_onStore]
  exact kept.mono (fun _ _ hn => hr.trans (.of_store hn.narrows)) fun _ _ hn => by
    rw [hn.eq]
    exact hr

theorem narrowing_ite {p : Prop} [Decidable p] {m m' : Step α} (h : Narrowing s m)
    (h' : Narrowing s m') : Narrowing s (if p then m else m') := by
  split
  · exact h
  · exact h'

variable (hs : s.Valid)
include hs

theorem narrowing_removePredecessor : Narrowing s (c.removePredecessor i x) :=
  narrowing_bind (narrowing_onStore hs fun _ ht => ⟨_, Store.keeps_remove ht⟩) fun _ =>
    narrowing_bind narrowing_read fun _ => narrowing_ite narrowing_defer narrowing_pure

theorem narrowing_join {source node : Nat} : Narrowing s (c.join source node) :=
  narrowing_bind narrowing_cell fun _ => narrowing_bind narrowing_cell fun _ =>
    narrowing_bind narrowing_cell fun _ => narrowing_ite
      (narrowing_ite narrowing_refute narrowing_pure)
      (narrowing_bind narrowing_cell fun _ => narrowing_bind narrowing_assignCell fun _ =>
        narrowing_bind narrowing_assignCell fun _ => narrowing_bind narrowing_assignCell fun _ =>
          narrowing_ite (narrowing_removePredecessor hs) narrowing_pure)

theorem narrowing_merge {node : Nat} : Narrowing s (c.merge node) := by
  refine narrowing_bind narrowing_cell fun _ => narrowing_bind narrowing_read fun _ => ?_
  split
  · refine narrowing_bind narrowing_assignCell fun _ => narrowing_bind (fun r hr => ?_) fun _ =>
      narrowing_bind narrowing_demand fun _ => narrowing_join hs
    exact ends_forM (I := fun _ r => s.Narrows (fun _ => True) r.2)
      (fun _ _ _ _ r hr => narrowing_removePredecessor hs r hr) hr
  · exact narrowing_pure

theorem narrowing_assignOnly {v count : Nat} : Narrowing s (c.assignOnly v count) := by
  unfold assignOnly
  split
  · exact narrowing_refute
  · refine narrowing_bind narrowing_read fun _ => ?_
    split
    · exact narrowing_pure
    · exact narrowing_bind (narrowing_onStore hs fun _ ht => ⟨_, Store.keeps_assign ht⟩) fun _ =>
        narrowing_ite (narrowing_bind narrowing_defer fun _ => narrowing_pure) narrowing_pure
  · exact narrowing_pure

theorem narrowing_supports : Narrowing s c.supports :=
  narrowing_bind narrowing_read fun _ _ hr => ends_foldlM
    (fun _ _ _ r hr => narrowing_bind (narrowing_assignOnly hs) (fun _ => narrowing_pure) r hr) hr

theorem narrowing_round : Narrowing s c.round := by
  intro r hr
  unfold round
  rw [ends_bind, ends_get]
  refine ends_of_eq fun m hm => ?_
  split at hm <;> subst hm
  · exact narrowing_bind (narrowing_merge hs) (fun _ => narrowing_pure) (_, r.2) hr
  · exact narrowing_supports hs r hr

theorem narrowing_filter : Narrowing s c.filter := fun _ hr =>
  Ends.bind (ends_forM (I := fun _ r => s.Narrows (fun _ => True) r.2)
      (fun _ _ _ _ r hr => narrowing_removePredecessor hs r hr) hr)
    fun _ _ hr => ends_descend (fun r hr => narrowing_round hs r hr) hr

end

/-! ## What is kept on the way -/

/-- The least that is said of a domain from which a value was removed: it does not come down to it. -/
structure Removed (s : Store) (v : Var) (x : Int) (t : Store) : Prop where
  narrows : s.Narrows t
  gone : ∀ w, w = v ∨ s.fixed? w ≠ some x → t.fixed? w ≠ some x

theorem removed_of_narrowed {s t : Store} {v : Var} {x : Int} {changed : Bool} (hs : s.Valid)
    (h : s.Narrowed v (s.Remaining v x) changed t) : Removed s v x t := by
  refine ⟨h.narrows, fun w hw hx => ?_⟩
  by_cases hwv : w = v
  · subst w
    have inside : t.contains v x = true := (h.narrows.valid hs).contains_of_fixed? hx
    rcases ((h.contains_iff x).mp inside).2 with hne | ⟨_, _, hlt⟩
    · exact hne rfl
    · -- a value that cannot be removed lies between the bounds, which stay
      have upper := (h.contains_iff (s.upper v)).mpr
        ⟨hs.contains_upper v, .inl (Int.ne_of_gt hlt)⟩
      exact absurd (Store.eq_of_fixed? hx upper) (Int.ne_of_gt hlt)
  · refine hw.resolve_left hwv ?_
    rwa [Store.fixed?, Store.domain, h.others w hwv] at hx

/-- What the filter has done to a space, with the nodes that wait to be joined. -/
structure Working (c : Circuit) (s : Space) (bound : Nat) (r : List Nat × Space) : Prop where
  narrows : s.Narrows c.own r.2
  admits : ∀ a, c.Holds a → s.store.Admits a → r.2.store.Admits a
  pending_lt : ∀ i ∈ r.1, i < c.numNodes
  noticed : ∀ i, i < c.numNodes → r.2.store.isFixed (c.predecessor i) = true →
    r.2.cells.value (c.merged i) ≠ 0 ∨ i ∈ r.1
  potential_le : potential r ≤ bound

/-- How the filter ends early. -/
def Ended (c : Circuit) (s : Space) (halt : Halt) (r : List Nat × Space) : Prop :=
  Filter.Halted c.own c.Holds True s halt r.2

theorem subset_of_grown {pending pending' : List Nat} (h : pending' = pending ∨ pending' = i :: pending) :
    pending ⊆ pending' := by
  rcases h with rfl | rfl
  · exact fun _ => id
  · exact fun _ => List.mem_cons_of_mem _

theorem forall_lt_of_grown {pending pending' : List Nat} {n : Nat} (hi : i < n)
    (before : ∀ j ∈ pending, j < n) (h : pending' = pending ∨ pending' = i :: pending) :
    ∀ j ∈ pending', j < n := by
  rcases h with rfl | rfl
  · exact before
  · exact List.forall_mem_cons.mpr ⟨hi, before⟩

/-- A value that goes makes up for a node that is put down. -/
theorem potential_lt_of_grown {pending pending' : List Nat} {store : Store} {v : Var} {keep : Int → Prop}
    {changed : Bool} (hn : t.store.Narrowed v keep changed store) (hc : changed = true)
    (h : pending' = pending ∨ pending' = i :: pending) :
    potential (pending', ⟨store, t.cells⟩) < potential (pending, t) := by
  have lt := hn.changed_lt hc
  unfold potential
  change 2 * store.numValues + _ < 2 * t.store.numValues + _
  rcases h with rfl | rfl
  · omega
  · rw [List.length_cons]
    omega

/-- Where nothing goes no node is put down either. -/
theorem potential_le_of_grown {pending pending' : List Nat} {store : Store} {v : Var} {keep : Int → Prop}
    {changed : Bool} (hn : t.store.Narrowed v keep changed store)
    (hp : (pending' = pending ∧ (changed = true → store.isFixed v = false)) ∨
      (pending' = i :: pending ∧ changed = true)) :
    potential (pending', ⟨store, t.cells⟩) ≤ potential (pending, t) := by
  cases changed with
  | true => exact Nat.le_of_lt (potential_lt_of_grown hn rfl (hp.imp And.left And.left))
  | false =>
    obtain rfl := hn.unchanged rfl
    rcases hp with ⟨rfl, -⟩ | ⟨-, hfalse⟩
    · exact Nat.le_refl _
    · cases hfalse

/-- Only the variable that was narrowed can have become fixed, and then its node is put down. -/
theorem isFixed_of_grown {pending pending' : List Nat} {store : Store} {v w : Var} {keep : Int → Prop}
    {changed : Bool} (hn : t.store.Narrowed v keep changed store)
    (hp : (pending' = pending ∧ (changed = true → store.isFixed v = false)) ∨
      (pending' = i :: pending ∧ changed = true)) (fixed : store.isFixed w = true) :
    t.store.isFixed w = true ∨ w = v ∧ i ∈ pending' := by
  by_cases hw : w = v
  · subst hw
    rcases hp with ⟨rfl, hunfixed⟩ | ⟨rfl, -⟩
    · cases changed with
      | true => exact absurd fixed (by simp [hunfixed rfl])
      | false =>
        obtain rfl := hn.unchanged rfl
        exact .inl fixed
    · exact .inr ⟨rfl, List.mem_cons_self⟩
  · refine .inl ?_
    rwa [Store.isFixed, Store.domain, hn.others w hw] at fixed

section
variable {bound : Nat} {pending pending' : List Nat} {store : Store} {x : Int} {keep : Int → Prop}
  {changed : Bool} (hs : s.Valid) (base : c.Base s)
include hs base

omit hs in
/-- **Narrowing a predecessor is no loss**, as long as a node that is fixed by it is put down. -/
theorem Working.narrowed (h : Working c s bound (pending, t)) (hi : i < c.numNodes)
    (hn : t.store.Narrowed (c.predecessor i) keep changed store)
    (spare : ∀ a, c.Holds a → t.store.Admits a → keep (a (c.predecessor i)))
    (hp : (pending' = pending ∧ (changed = true → store.isFixed (c.predecessor i) = false)) ∨
      (pending' = i :: pending ∧ changed = true)) :
    Working c s bound (pending', ⟨store, t.cells⟩) ∧
      (changed = true → potential (pending', ⟨store, t.cells⟩) < potential (pending, t)) := by
  have grown : pending' = pending ∨ pending' = i :: pending := hp.imp And.left And.left
  refine ⟨⟨h.narrows.trans (.of_store hn.narrows),
    fun a ha hadm => hn.admits (h.admits a ha hadm) (spare a ha (h.admits a ha hadm)),
    forall_lt_of_grown hi h.pending_lt grown, fun j hj hfixed => ?_,
    Nat.le_trans (potential_le_of_grown hn hp) h.potential_le⟩,
    fun changed => potential_lt_of_grown hn changed grown⟩
  rcases isFixed_of_grown hn hp hfixed with before | ⟨same, waits⟩
  · exact (h.noticed j hj before).imp_right fun hmem => subset_of_grown grown hmem
  · obtain rfl := base.injective j i hj hi same
    exact .inr waits

/-- A refused narrowing would have taken all circuits away. -/
theorem Working.refused (h : Working c s bound (pending, t)) (hi : i < c.numNodes) {halt : Halt}
    (hr : t.store.Refused (c.predecessor i) keep halt store)
    (spare : ∀ a, c.Holds a → t.store.Admits a → keep (a (c.predecessor i))) :
    Ended c s halt (pending, ⟨store, t.cells⟩) := by
  have known := (base.narrows hs h.narrows).known i hi
  obtain rfl := hr.eq
  cases hr with
  | empty hv none =>
    refine ⟨h.narrows, fun _ _ h => (by cases h), fun _ _ a ha hadm => ?_⟩
    have := h.admits a ha hadm
    exact none _ (this _ hv) (spare a ha this)
  | unknown hv => exact absurd known (Nat.not_lt_of_le (Store.domain?_eq_none_iff.mp hv))

theorem ends_removePredecessor {r : List Nat × Space} (h : Working c s bound r)
    (hi : i < c.numNodes)
    (spare : ∀ a, c.Holds a → r.2.store.Admits a → a (c.predecessor i) ≠ x) :
    Ends (c.removePredecessor i x r)
      (fun _ r' => Working c s bound r' ∧ r'.2.cells = r.2.cells ∧
        Removed r.2.store (c.predecessor i) x r'.2.store) (Ended c s) := by
  obtain ⟨pending, t⟩ := r
  have valid := h.narrows.valid hs
  have spare' (a : Assignment) (ha : c.Holds a) (hadm : t.store.Admits a) :
      t.store.Remaining (c.predecessor i) x (a (c.predecessor i)) := .inl (spare a ha hadm)
  refine ends_removePredecessor_of ?_
  rw [Filter.remove, Filter.ends_onStore]
  refine Ends.mono (Store.keeps_remove valid.store) (fun changed store hn => ?_) fun halt store hr =>
    h.refused hs base hi hr spare'
  exact ⟨(h.narrowed base hi hn spare' waiting_cases).1, rfl, removed_of_narrowed valid.store hn⟩

/-- What is fixed is so in every assignment that is left. -/
theorem Working.before {r : List Nat × Space} (h : Working c s bound r) {a : Assignment}
    (ha : s.store.Admits a) (holds : c.Holds a) {u v : Nat} (hv : v < c.numNodes)
    (fixed : r.2.store.fixed? (c.predecessor v) = some (u : Int)) : c.Before a u v :=
  Store.eq_of_fixed? fixed (h.admits a holds ha _ ((base.narrows hs h.narrows).known v hv))

/-! ## Joining chains -/

/-- The arc from `source` into `node` is fixed, and put down as joined, but the trailed integers still
describe the chains without it. -/
structure Joining (c : Circuit) (t : Space) (ls : List (List Nat)) (source node : Nat) (u : Space) :
    Prop where
  cells_eq : u.cells = t.cells.assign (c.merged node) 1
  chains : c.Chains ⟨u.store, t.cells⟩ ls
  free : t.cells.value (c.merged node) = 0
  fixed : u.store.fixed? (c.predecessor node) = some (source : Int)
  alone : ∀ v, v < c.numNodes → v ≠ node → u.store.fixed? (c.predecessor v) ≠ some (source : Int)

variable {source node : Nat} {u : Space}

omit hs base in
/-- What is known when the source has been taken from all other nodes. -/
theorem Chains.joining (h : c.Chains t ls) (valid : t.Valid) (free : t.cells.value (c.merged node) = 0)
    (fixed : t.store.fixed? (c.predecessor node) = some (source : Int))
    (cells : u.cells = t.cells.assign (c.merged node) 1) (narrows : t.store.Narrows u.store)
    (alone : ∀ v, v < c.numNodes → v ≠ node → u.store.fixed? (c.predecessor v) ≠ some (source : Int)) :
    Joining c t ls source node u :=
  ⟨cells, h.congr (fun _ _ => rfl) fun _ _ _ hx => narrows.fixed? valid.store hx, free,
    narrows.fixed? valid.store fixed, alone⟩

section
omit hs base
variable (h : Joining c t ls source node u) {i : Nat} (hi : i < c.numNodes)
include h hi

/-! What is known of the chains is read as before. -/

theorem Joining.chainStart_eq : u.cells.value (c.chainStart i) = t.cells.value (c.chainStart i) := by
  rw [h.cells_eq, chainStart_joined hi]

theorem Joining.chainEnd_eq : u.cells.value (c.chainEnd i) = t.cells.value (c.chainEnd i) := by
  rw [h.cells_eq, chainEnd_joined hi]

theorem Joining.chainLength_eq : u.cells.value (c.chainLength i) = t.cells.value (c.chainLength i) := by
  rw [h.cells_eq, chainLength_joined hi]

end

omit hs base in
/-- The arc leads from the last node of a chain to the first node of one. -/
theorem Joining.chains_of (h : Joining c t ls source node u) (hsource : source < c.numNodes)
    (hnode : node < c.numNodes) : ∃ A ∈ ls, ∃ B ∈ ls, ∃ first last,
      c.Chain ⟨u.store, t.cells⟩ first A source ∧ c.Chain ⟨u.store, t.cells⟩ node B last := by
  obtain ⟨A, hA, hmemA⟩ := h.chains.exists_mem hsource
  obtain ⟨B, hB, hmemB⟩ := h.chains.exists_mem hnode
  obtain ⟨first, last, chainA⟩ := h.chains.chain A hA
  obtain ⟨first', last', chainB⟩ := h.chains.chain B hB
  have none (v : Nat) (hv : v ∈ A) (arc : c.Arc ⟨u.store, t.cells⟩ source v) : False := by
    by_cases hvn : v = node
    · subst v
      exact absurd (h.free.symm.trans arc.1) (by simp)
    · exact h.alone v (h.chains.lt_of_mem hA hv) hvn arc.2
  obtain rfl := chainA.eq_last hmemA none
  obtain rfl := chainB.eq_first hmemB h.free
  exact ⟨A, hA, B, hB, first, last', chainA, chainB⟩

omit hs base in
/-- The chains are joined at the nodes that the trailed integers name. -/
theorem Joining.ends_join (h : Joining c t ls source node u) (hsource : source < c.numNodes)
    (hnode : node < c.numNodes) {A B : List Nat} {first last : Nat} (hfirst : first < c.numNodes)
    (chainA : c.Chain ⟨u.store, t.cells⟩ first A source) (chainB : c.Chain ⟨u.store, t.cells⟩ node B last)
    {Q : Unit → List Nat × Space → Prop} {E : Halt → List Nat × Space → Prop}
    (closing : first = node →
      if (B.length : Int) < c.numNodes then E (.inconsistent (.conflict .prematureCycle)) (pending, u)
      else Q () (pending, u))
    (linking : first ≠ node →
      if (A.length + B.length : Int) < c.numNodes then
        Ends (c.removePredecessor first last
          (pending, ⟨u.store, c.linked first last (A.length + B.length) u.cells⟩)) Q E
      else Q () (pending, ⟨u.store, c.linked first last (A.length + B.length) u.cells⟩)) :
    Ends (c.join source node (pending, u)) Q E := by
  refine ends_join_of ?_ ?_ ?_ ?_ closing linking
  · rw [h.chainStart_eq hsource, chainA.start_eq, Int.toNat_natCast]
  · rw [h.chainEnd_eq hnode, chainB.end_eq, Int.toNat_natCast]
  · rw [h.chainLength_eq hnode, chainB.length_eq]
  · rw [h.chainLength_eq hfirst, chainA.length_eq]

/-- **The arc that closes a chain of all nodes** leaves the chains as they are. -/
theorem Joining.closed (h : Joining c t ls source node u) (hnode : node < c.numNodes) {B : List Nat}
    (hB : B ∈ ls) (chain : c.Chain ⟨u.store, t.cells⟩ node B source) (hu : s.Narrows c.own u)
    (length : B.length = c.numNodes) : c.Chains u ls := by
  have size := (base.narrows hs hu).size_le
  rw [h.cells_eq, Cells.size_assign] at size
  have other (v : Nat) (hv : v ≠ node) :
      u.cells.value (c.merged v) = t.cells.value (c.merged v) := by
    rw [h.cells_eq]
    exact merged_joined_ne hv
  refine ⟨h.chains.perm, fun l hl => ?_⟩
  by_cases hlB : l = B
  · subst l
    have hsource := h.chains.lt_of_mem hB chain.path.last_mem
    refine ⟨node, source, chain.path.mono fun w v _ arc => ⟨?_, arc.2⟩,
      (h.chainStart_eq hsource).trans chain.start_eq, (h.chainEnd_eq hnode).trans chain.end_eq,
      (h.chainLength_eq hnode).trans chain.length_eq, .inr ⟨⟨?_, h.fixed⟩, length⟩⟩
    · have : v ≠ node := by
        rintro rfl
        exact absurd (h.free.symm.trans arc.1) (by simp)
      exact (other v this).trans arc.1
    · rw [h.cells_eq, merged_joined size hnode, if_pos rfl]
  · obtain ⟨first', last', chain'⟩ := h.chains.chain l hl
    have lt {v : Nat} (hv : v ∈ l) := h.chains.lt_of_mem hl hv
    refine ⟨first', last', chain'.congr (fun v hv => other v ?_) (fun _ _ _ hx => hx)
      (h.chainStart_eq (lt chain'.path.last_mem)) (h.chainEnd_eq (lt chain'.path.first_mem))
      (h.chainLength_eq (lt chain'.path.first_mem))⟩
    rintro rfl
    exact hlB (h.chains.eq_of_mem hl hB hv chain.path.first_mem)

/-- The trailed integers when a chain from `first` to `last` of `total` nodes has been put down, and the arc
into `node` with it. -/
structure Rewired (c : Circuit) (first last node : Nat) (total : Int) (cells new : Cells) : Prop where
  start : ∀ v, v < c.numNodes →
    new.value (c.chainStart v) = if v = last then (first : Int) else cells.value (c.chainStart v)
  close : ∀ v, v < c.numNodes →
    new.value (c.chainEnd v) = if v = first then (last : Int) else cells.value (c.chainEnd v)
  number : ∀ v, v < c.numNodes →
    new.value (c.chainLength v) = if v = first then total else cells.value (c.chainLength v)
  merged : ∀ v, new.value (c.merged v) = if v = node then 1 else cells.value (c.merged v)

theorem Joining.rewired (h : Joining c t ls source node u) (hu : s.Narrows c.own u) {first last : Nat}
    (hfirst : first < c.numNodes) (hlast : last < c.numNodes) (hnode : node < c.numNodes) (total : Int) :
    Rewired c first last node total t.cells (c.linked first last total u.cells) := by
  have size := (base.narrows hs hu).size_le
  have before : c.firstCell + 4 * c.numNodes ≤ t.cells.values.size := by
    rwa [h.cells_eq, Cells.size_assign] at size
  refine ⟨fun v hv => ?_, fun v hv => ?_, fun v hv => ?_, fun v => ?_⟩
  · rw [chainStart_linked size hlast hv, h.chainStart_eq hv]
  · rw [chainEnd_linked size hfirst hlast hv, h.chainEnd_eq hv]
  · rw [chainLength_linked size hfirst hlast, h.chainLength_eq hv]
  · rw [merged_linked hfirst hlast, h.cells_eq, merged_joined before hnode]

omit hs base in
/-- A chain without any of the three nodes stays as it is. -/
theorem Rewired.chain {store : Store} {first last first' last' : Nat} {l : List Nat} {total : Int}
    {cells new : Cells} (h : Rewired c first last node total cells new)
    (chain : c.Chain ⟨store, cells⟩ first' l last') (lt : ∀ v ∈ l, v < c.numNodes)
    (apart : ∀ v ∈ l, v ≠ first ∧ v ≠ last ∧ v ≠ node) : c.Chain ⟨store, new⟩ first' l last' := by
  have first_mem := chain.path.first_mem
  have last_mem := chain.path.last_mem
  refine chain.congr (fun v hv => ?_) (fun _ _ _ hx => hx) ?_ ?_ ?_
  · exact (h.merged v).trans (if_neg (apart v hv).2.2)
  · exact (h.start last' (lt _ last_mem)).trans (if_neg (apart _ last_mem).2.1)
  · exact (h.close first' (lt _ first_mem)).trans (if_neg (apart _ first_mem).1)
  · exact (h.number first' (lt _ first_mem)).trans (if_neg (apart _ first_mem).1)

omit hs base in
/-- The arcs of before are still there, as none of them led into the node that has one now. -/
theorem Rewired.path {store : Store} {first last first' last' : Nat} {l : List Nat} {total : Int}
    {cells new : Cells} (h : Rewired c first last node total cells new)
    (free : cells.value (c.merged node) = 0) (path : Path (c.Arc ⟨store, cells⟩) first' l last') :
    Path (c.Arc ⟨store, new⟩) first' l last' := by
  refine path.mono fun w v _ arc => ⟨((h.merged v).trans (if_neg ?_)).trans arc.1, arc.2⟩
  rintro rfl
  exact absurd (free.symm.trans arc.1) (by simp)

/-- **The arc that joins two chains** leaves one in their place. -/
theorem Joining.joined (h : Joining c t ls source node u) (hu : s.Narrows c.own u) {A B : List Nat}
    {first last : Nat} (hA : A ∈ ls) (hB : B ∈ ls)
    (chainA : c.Chain ⟨u.store, t.cells⟩ first A source)
    (chainB : c.Chain ⟨u.store, t.cells⟩ node B last) (hne : first ≠ node) {total : Int}
    (htotal : total = ((A ++ B).length : Nat)) :
    c.Chains ⟨u.store, c.linked first last total u.cells⟩ ((A ++ B) :: (ls.erase A).erase B) := by
  have hAB : A ≠ B := by
    rintro rfl
    exact hne (chainA.path.ends_eq chainB.path).1
  have lt {l : List Nat} (hl : l ∈ ls) {v : Nat} (hv : v ∈ l) := h.chains.lt_of_mem hl hv
  have hfirst := lt hA chainA.path.first_mem
  have hnode := lt hB chainB.path.first_mem
  have hlast := lt hB chainB.path.last_mem
  have rewired := h.rewired hs base hu hfirst hlast hnode total
  have perm : ls.Perm (A :: B :: (ls.erase A).erase B) :=
    (List.perm_cons_erase hA).trans
      ((List.perm_cons_erase ((List.mem_erase_of_ne hAB.symm).mpr hB)).cons A)
  have flatten := perm.flatten
  rw [List.flatten_cons, List.flatten_cons, ← List.append_assoc] at flatten
  refine ⟨flatten.symm.trans h.chains.perm, fun l hl => ?_⟩
  rcases List.mem_cons.mp hl with rfl | hl
  · refine ⟨first, last, (rewired.path h.free chainA.path).append ⟨?_, h.fixed⟩
      (rewired.path h.free chainB.path), ?_, ?_, ?_, .inl ?_⟩
    · exact (rewired.merged node).trans (if_pos rfl)
    · exact (rewired.start last hlast).trans (if_pos rfl)
    · exact (rewired.close first hfirst).trans (if_pos rfl)
    · exact ((rewired.number first hfirst).trans (if_pos rfl)).trans htotal
    · refine ((rewired.merged first).trans (if_neg hne)).trans ?_
      rcases chainA.joined with free | ⟨-, length⟩
      · exact free
      · -- a chain of all nodes leaves none for another
        have nodup := (List.nodup_flatten.mp h.chains.nodup).1 A hA
        have sub : A ⊆ c.nodes := fun v hv => mem_nodes.mpr (lt hA hv)
        have all := (List.subperm_of_subset nodup sub).perm_of_length_le (by simp [nodes, length])
        have both : node ∈ A := all.mem_iff.mpr (mem_nodes.mpr hnode)
        exact absurd (h.chains.eq_of_mem hA hB both chainB.path.first_mem) hAB
  · have hlmem := List.mem_of_mem_erase (List.mem_of_mem_erase hl)
    have nodup := perm.flatten.nodup_iff.mp h.chains.nodup
    rw [List.flatten_cons, List.flatten_cons] at nodup
    have outA {v : Nat} (hv : v ∈ l) (hvA : v ∈ A) : False :=
      (List.nodup_append.mp nodup).2.2 v hvA v
        (List.mem_append_right B (List.mem_flatten.mpr ⟨l, hl, hv⟩)) rfl
    have outB {v : Nat} (hv : v ∈ l) (hvB : v ∈ B) : False :=
      (List.nodup_append.mp (List.nodup_append.mp nodup).2.1).2.2 v hvB v
        (List.mem_flatten.mpr ⟨l, hl, hv⟩) rfl
    obtain ⟨first', last', chain'⟩ := h.chains.chain l hlmem
    refine ⟨first', last', rewired.chain chain' (fun v hv => lt hlmem hv) fun v hv => ⟨?_, ?_, ?_⟩⟩
    · rintro rfl
      exact outA hv chainA.path.first_mem
    · rintro rfl
      exact outB hv chainB.path.last_mem
    · rintro rfl
      exact outB hv chainB.path.first_mem

omit hs base in
/-- Putting down a chain is no change of the domains. -/
theorem Working.joined (h : Working c s bound (pending, u)) {first last : Nat}
    (hfirst : first < c.numNodes) (hlast : last < c.numNodes) (total : Int) :
    Working c s bound (pending, ⟨u.store, c.linked first last total u.cells⟩) where
  narrows := narrows_linked h.narrows hfirst hlast
  admits := h.admits
  pending_lt := h.pending_lt
  noticed i hi hf := by
    rw [merged_linked hfirst hlast]
    exact h.noticed i hi hf
  potential_le := h.potential_le

/-- The arcs of a chain are in every circuit that is left. -/
theorem Working.path (h : Working c s bound (pending, u)) {cells : Cells} (hl : ∀ v ∈ l, v < c.numNodes)
    {a : Assignment} (ha : s.store.Admits a) (holds : c.Holds a) {first last : Nat}
    (path : Path (c.Arc ⟨u.store, cells⟩) first l last) : Path (c.Before a) first l last :=
  path.mono fun _ v hv arc => h.before hs base ha holds (hl v hv) arc.2

theorem ends_join (h : Working c s bound (pending, u)) (hsource : source < c.numNodes)
    (hnode : node < c.numNodes) (joining : Joining c t ls source node u) :
    Ends (c.join source node (pending, u))
      (fun _ r => Working c s bound r ∧ ∃ ls, c.Chains r.2 ls) (Ended c s) := by
  obtain ⟨A, hA, B, hB, first, last, chainA, chainB⟩ := joining.chains_of hsource hnode
  have ltA (v : Nat) (hv : v ∈ A) := joining.chains.lt_of_mem hA hv
  have ltB (v : Nat) (hv : v ∈ B) := joining.chains.lt_of_mem hB hv
  have hfirst := ltA first chainA.path.first_mem
  have hlast := ltB last chainB.path.last_mem
  have closing {a : Assignment} (ha : s.store.Admits a) (holds : c.Holds a) :
      c.Before a source node := h.before hs base ha holds hnode joining.fixed
  refine joining.ends_join hsource hnode hfirst chainA chainB (fun same => ?_) fun apart => ?_
  · subst same
    obtain rfl := joining.chains.eq_of_mem hA hB chainA.path.first_mem chainB.path.first_mem
    obtain rfl := (chainA.path.ends_eq chainB.path).2
    split
    · rename_i short
      refine ⟨h.narrows, fun _ _ h => (by cases h), fun _ _ a ha hadm => ?_⟩
      have loop : Loop (c.Before a) A :=
        ⟨first, source, h.path hs base ltA hadm ha chainA.path, closing hadm ha⟩
      have := ha.numNodes_le loop ⟨first, chainA.path.first_mem, hfirst⟩
      omega
    · rename_i long
      have := joining.chains.length_le hA
      exact ⟨h, ls, joining.closed hs base hnode hA chainA h.narrows (by omega)⟩
  · have chains := joining.joined hs base h.narrows hA hB chainA chainB apart
      (show (A.length : Int) + B.length = ((A ++ B).length : Nat) by
        rw [List.length_append]; omega)
    have working := h.joined hfirst hlast ((A.length : Int) + B.length)
    split
    · rename_i short
      refine (ends_removePredecessor hs base working hfirst fun a ha hadm heq => ?_).mono_ok
        fun _ r hr => ⟨hr.1, _, chains.congr (fun i _ => by rw [hr.2.1])
          fun _ _ x hx => hr.2.2.narrows.fixed? (h.narrows.valid hs).store hx⟩
      have hadm' := h.narrows.store.admits hs.store hadm
      have loop : Loop (c.Before a) (A ++ B) :=
        ⟨first, last, (h.path hs base ltA hadm' ha chainA.path).append (closing hadm' ha)
          (h.path hs base ltB hadm' ha chainB.path), heq⟩
      have := ha.numNodes_le loop ⟨first, List.mem_append_left B chainA.path.first_mem, hfirst⟩
      rw [List.length_append] at this
      omega
    · exact ⟨working, _, chains⟩

/-! ## Merging -/

omit hs base in
/-- A node that has been dealt with needs not wait any more. -/
theorem Working.popped {whole : Nat} {t' : Space} (h : Working c s whole (node :: pending, t))
    (hb : potential (pending, t) ≤ bound) (narrows : s.Narrows c.own t') (store : t'.store = t.store)
    (done : t'.store.isFixed (c.predecessor node) = true → t'.cells.value (c.merged node) ≠ 0)
    (others : ∀ i, i < c.numNodes → i ≠ node →
      t'.cells.value (c.merged i) = t.cells.value (c.merged i)) :
    Working c s bound (pending, t') := by
  refine ⟨narrows, fun a ha hadm => store ▸ h.admits a ha hadm,
    fun i hi => h.pending_lt i (List.mem_cons_of_mem _ hi), fun i hi hf => ?_, ?_⟩
  · by_cases hin : i = node
    · exact .inl (hin ▸ done (hin ▸ hf))
    · rcases h.noticed i hi (store ▸ hf) with hm | hm
      · exact .inl ((others i hi hin).symm ▸ hm)
      · exact .inr ((List.mem_cons.mp hm).resolve_left hin)
  · change 2 * t'.store.numValues + pending.length ≤ bound
    rw [store]
    exact hb

/-- The arc into the first node that waits is put down as joined. -/
theorem Working.joining {whole : Nat} (h : Working c s whole (node :: pending, t))
    (hb : potential (pending, t) ≤ bound) :
    Working c s bound (pending, ⟨t.store, t.cells.assign (c.merged node) 1⟩) := by
  have hnode := h.pending_lt node List.mem_cons_self
  have size : c.firstCell + 4 * c.numNodes ≤ t.cells.values.size := (base.narrows hs h.narrows).size_le
  refine h.popped hb (.assign h.narrows (own_merged hnode)) rfl (fun _ => ?_)
    fun i _ hne => merged_joined_ne hne
  rw [merged_joined size hnode, if_pos rfl]
  exact Int.one_ne_zero

/-- **The source of a fixed arc** is taken from all other nodes, so that it is the predecessor of none of
them. -/
theorem ends_removeOthers (h : Working c s bound (pending, t)) (hnode : node < c.numNodes)
    (fixed : t.store.fixed? (c.predecessor node) = some (source : Int)) :
    Ends ((c.nodes.filter (· ≠ node)).forM
        (fun other => c.removePredecessor other (source : Int)) (pending, t))
      (fun _ r => Working c s bound r ∧ r.2.cells = t.cells ∧ t.store.Narrows r.2.store ∧
        ∀ v, v < c.numNodes → v ≠ node → r.2.store.fixed? (c.predecessor v) ≠ some (source : Int))
      (Ended c s) := by
  have removed := ends_forM (l := c.nodes.filter (· ≠ node))
    (f := fun other => c.removePredecessor other (source : Int))
    (I := fun before r => Working c s bound r ∧ r.2.cells = t.cells ∧ t.store.Narrows r.2.store ∧
      ∀ v ∈ before, r.2.store.fixed? (c.predecessor v) ≠ some (source : Int))
    (E := Ended c s) ?_ ⟨h, rfl, .refl, fun v hv => by cases hv⟩
  · refine removed.mono_ok fun _ r hr => ?_
    obtain ⟨working, cells, narrows, gone⟩ := hr
    refine ⟨working, cells, narrows, fun v hv hne => gone v ?_⟩
    exact List.mem_filter.mpr ⟨mem_nodes.mpr hv, by simpa using hne⟩
  · intro before other rest split r hr
    obtain ⟨working, cells, narrows, gone⟩ := hr
    obtain ⟨hmem, hne⟩ := List.mem_filter.mp
      (show other ∈ c.nodes.filter (· ≠ node) by rw [split]; simp)
    have hother := mem_nodes.mp hmem
    refine (ends_removePredecessor hs base working hother fun a ha hadm heq => ?_).mono_ok
      fun _ r' hr' => ⟨hr'.1, hr'.2.1.trans cells, narrows.trans hr'.2.2.narrows, fun v hv => ?_⟩
    · have fixed' := h.before hs base (working.narrows.store.admits hs.store hadm) ha hnode fixed
      have := ha.injective hother hnode (heq.trans fixed'.symm)
      simp [this] at hne
    · rcases List.mem_append.mp hv with hv | hv
      · exact hr'.2.2.gone _ (.inr (gone v hv))
      · obtain rfl := List.mem_singleton.mp hv
        exact hr'.2.2.gone _ (.inl rfl)

/-- **Joining an arc** takes the node off the list. -/
theorem ends_merge {whole : Nat} (h : Working c s whole (node :: pending, t)) (chains : c.Chains t ls)
    (hb : potential (pending, t) ≤ bound) :
    Ends (c.merge node (pending, t))
      (fun _ r => Working c s bound r ∧ ∃ ls, c.Chains r.2 ls) (Ended c s) := by
  have hnode := h.pending_lt node List.mem_cons_self
  have valid : t.Valid := h.narrows.valid hs
  refine ends_merge_of (fun source free fixed => ?_) fun other => ?_
  · obtain ⟨j, hj, rfl⟩ := (base.narrows hs h.narrows).exists_source valid hnode fixed
    refine (ends_removeOthers hs base (h.joining hs base hb) hnode fixed).mono_ok fun _ r hr => ?_
    obtain ⟨pending', u⟩ := r
    obtain ⟨working, cells, narrows, alone⟩ := hr
    rw [node?_ofNat hj]
    exact ends_join hs base working hj hnode (chains.joining valid free fixed cells narrows alone)
  · refine ⟨h.popped hb h.narrows rfl (fun hf hz => ?_) fun _ _ _ => rfl, ls, chains⟩
    cases hfixed : t.store.fixed? (c.predecessor node) with
    | none =>
      rw [Store.fixed?_eq_none_iff.mp hfixed] at hf
      cases hf
    | some source => exact other source hz hfixed

/-! ## Supports -/

omit hs base in
theorem support_pos {store : Store} {v : Nat} (hi : i < c.numNodes)
    (h : store.contains (c.predecessor i) v = true) : 0 < c.support store v :=
  List.countP_pos_iff.mpr ⟨i, mem_nodes.mpr hi, h⟩

omit hs base in
theorem eq_of_support_eq_one {store : Store} {j v : Nat} (one : c.support store v = 1)
    (hi : i < c.numNodes) (hj : j < c.numNodes)
    (hiv : store.contains (c.predecessor i) v = true)
    (hjv : store.contains (c.predecessor j) v = true) : i = j := by
  unfold support at one
  rw [List.countP_eq_length_filter] at one
  obtain ⟨k, hk⟩ := List.length_eq_one_iff.mp one
  have only (l : Nat) (hl : l < c.numNodes) (hlv : store.contains (c.predecessor l) v = true) :
      l = k := by
    have : l ∈ c.nodes.filter fun node => store.contains (c.predecessor node) v :=
      List.mem_filter.mpr ⟨mem_nodes.mpr hl, hlv⟩
    rw [hk] at this
    exact List.mem_singleton.mp this
  rw [only i hi hiv, only j hj hjv]

theorem ends_assignOnly {r : List Nat × Space} {v : Nat} (h : Working c s bound r)
    (hv : v < c.numNodes) (ht : s.Narrows c.own t) (hn : t.store.Narrows r.2.store) :
    Ends (c.assignOnly v (c.support t.store v) r)
      (fun more r' => Working c s bound r' ∧ r'.2.cells = r.2.cells ∧
        r.2.store.Narrows r'.2.store ∧ (more = true → potential r' < potential r) ∧
        (more = false → r' = r)) (Ended c s) := by
  obtain ⟨pending, u⟩ := r
  have valid := ht.valid hs
  have base' := base.narrows hs ht
  -- a circuit contains an arc out of the node
  have left {a : Assignment} (ha : c.Holds a) (hadm : u.store.Admits a) :
      ∃ i, i < c.numNodes ∧ c.Before a v i ∧ t.store.contains (c.predecessor i) v = true := by
    obtain ⟨i, hi, before⟩ := ha.exists_after hv
    refine ⟨i, hi, before, ?_⟩
    have := hn.admits valid.store hadm _ (base'.known i hi)
    rwa [before] at this
  have stay : Working c s bound (pending, u) ∧ u.cells = u.cells ∧ u.store.Narrows u.store ∧
      (false = true → potential (pending, u) < potential (pending, u)) ∧
      (false = false → (pending, u) = (pending, u)) :=
    ⟨h, rfl, .refl, fun h => (by cases h), fun _ => rfl⟩
  refine ends_assignOnly_of (fun none => ?_) (fun one node hnode found => ?_) fun _ _ => stay
  · refine ⟨h.narrows, fun _ _ h => (by cases h), fun _ _ a ha hadm => ?_⟩
    obtain ⟨i, hi, -, inside⟩ := left ha (h.admits a ha hadm)
    exact absurd none (Nat.ne_of_gt (support_pos hi inside))
  · have inside : t.store.contains (c.predecessor node) v = true := hn.contains valid.store found
    have spare (a : Assignment) (ha : c.Holds a) (hadm : u.store.Admits a) :
        a (c.predecessor node) = (v : Int) := by
      obtain ⟨i, hi, before, inside'⟩ := left ha hadm
      obtain rfl := eq_of_support_eq_one one hi hnode inside' inside
      exact before
    rw [Filter.assign, Filter.ends_onStore]
    refine Ends.mono (Store.keeps_assign (h.narrows.valid hs).store) (fun changed store hn' => ?_)
      fun halt store hr => h.refused hs base hnode hr spare
    cases changed with
    | true =>
      obtain ⟨working, lower⟩ := h.narrowed base hnode hn' spare (.inr ⟨rfl, rfl⟩)
      exact ⟨working, rfl, hn'.narrows, lower, fun h => by cases h⟩
    | false =>
      obtain rfl := hn'.unchanged rfl
      exact stay

theorem ends_supports (h : Working c s bound (pending, t)) (chains : c.Chains t ls) :
    Ends (c.supports (pending, t))
      (fun more r => Working c s bound r ∧ (∃ ls, c.Chains r.2 ls) ∧
        (more = true → potential r < potential (pending, t)) ∧ (more = false → r = (pending, t)))
      (Ended c s) := by
  have valid : t.Valid := h.narrows.valid hs
  refine (ends_supports_of
    (I := fun more r => Working c s bound r ∧ r.2.cells = t.cells ∧ t.store.Narrows r.2.store ∧
      (more = true → potential r < potential (pending, t)) ∧ (more = false → r = (pending, t)))
    ⟨h, rfl, .refl, fun h => (by cases h), fun _ => rfl⟩ fun v hv more r hr => ?_).mono_ok
    fun more r hr => ⟨hr.1, ⟨ls, chains.congr (fun i _ => by rw [hr.2.1])
      fun _ _ x hx => hr.2.2.1.fixed? valid.store hx⟩, hr.2.2.2⟩
  obtain ⟨working, cells, narrows, lower, same⟩ := hr
  refine Ends.mono_ok (ends_assignOnly hs base working hv h.narrows narrows) fun b r' hr' => ?_
  obtain ⟨working', cells', narrows', lower', same'⟩ := hr'
  refine ⟨working', cells'.trans cells, narrows.trans narrows', fun hb => ?_, fun hb => ?_⟩
  · have before : potential r ≤ potential (pending, t) := by
      cases more with
      | true => exact Nat.le_of_lt (lower rfl)
      | false => exact Nat.le_of_eq (congrArg potential (same rfl))
    cases b with
    | true => exact Nat.lt_of_lt_of_le (lower' rfl) before
    | false =>
      obtain rfl := same' rfl
      exact lower (by simpa using hb)
  · obtain ⟨rfl, rfl⟩ := Bool.or_eq_false_iff.mp hb
    rw [same' rfl, same rfl]

/-! ## The filter -/

/-- Joining goes on until nothing waits. -/
theorem ends_round {r : List Nat × Space} (h : Working c s bound r) (chains : c.Chains r.2 ls) :
    Ends (c.round r)
      (fun more r' => if more then (Working c s bound r' ∧ ∃ ls, c.Chains r'.2 ls) ∧
          potential r' < potential r
        else (Working c s bound r' ∧ ∃ ls, c.Chains r'.2 ls) ∧ r'.1 = []) (Ended c s) := by
  obtain ⟨pending, t⟩ := r
  cases pending with
  | nil =>
    refine ends_round_nil.mpr (Ends.mono_ok (ends_supports hs base h chains) fun more r' hr => ?_)
    obtain ⟨working, chains', lower, same⟩ := hr
    cases more with
    | true => exact ⟨⟨working, chains'⟩, lower rfl⟩
    | false => exact ⟨⟨working, chains'⟩, by rw [same rfl]⟩
  | cons node rest =>
    rw [ends_round_cons]
    refine Ends.mono_ok (ends_merge hs base h chains (Nat.le_refl _)) fun _ r' hr => ?_
    obtain ⟨working, chains'⟩ := hr
    have lower : potential r' < potential (node :: rest, t) :=
      Nat.lt_of_le_of_lt working.potential_le potential_lt_cons
    exact ⟨⟨{ working with
      potential_le := Nat.le_of_lt (Nat.lt_of_lt_of_le lower h.potential_le) }, chains'⟩, lower⟩

/-- No node comes before itself. -/
theorem ends_removeLoops (h : Working c s bound (pending, s)) (chains : c.Chains s ls) :
    Ends (c.nodes.forM (fun node => c.removePredecessor node node) (pending, s))
      (fun _ r => Working c s bound r ∧ ∃ ls, c.Chains r.2 ls) (Ended c s) := by
  refine ends_forM (I := fun _ r => Working c s bound r ∧ ∃ ls, c.Chains r.2 ls)
    (fun before i rest split r hr => ?_) ⟨h, ls, chains⟩
  obtain ⟨working, ls, chains⟩ := hr
  have hi : i < c.numNodes := mem_nodes.mp (by rw [split]; simp)
  refine (ends_removePredecessor hs base working hi fun a ha hadm heq => ?_).mono_ok
    fun _ r' hr' => ⟨hr'.1, ls, chains.congr (fun j _ => by rw [hr'.2.1])
      fun _ _ x hx => hr'.2.2.narrows.fixed? (working.narrows.valid hs).store hx⟩
  -- a node before itself is a loop of one node
  have := ha.numNodes_le (l := [i]) ⟨i, i, .single i, heq⟩ ⟨i, List.mem_singleton_self i, hi⟩
  have := base.two_le
  simp at *
  omega

theorem ends_filter (h : Working c s bound (pending, s)) (chains : c.Chains s ls) :
    Ends (c.filter (pending, s))
      (fun _ r => (Working c s bound r ∧ ∃ ls, c.Chains r.2 ls) ∧ r.1 = []) (Ended c s) := by
  unfold filter
  refine Ends.bind (ends_removeLoops hs base h chains) fun _ r hr => ?_
  refine ends_descend_done (I := fun r => Working c s bound r ∧ ∃ ls, c.Chains r.2 ls)
    (J := fun r => (Working c s bound r ∧ ∃ ls, c.Chains r.2 ls) ∧ r.1 = []) (fun r hr => ?_) hr
  obtain ⟨working, ls, chains⟩ := hr
  exact ends_round hs base working chains

end

end Circuit
end BranchBound
