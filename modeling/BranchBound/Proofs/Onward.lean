import BranchBound.Proofs.Bystanders

/-! # Engines that grow in a run

Variables can be declared and constraints posted also between runs, and at any level.  What an engine can
come to in this way is reached from it *onward* (`Engine.Onward`), as long as it does not return to a level
below its own.

**A constraint that keeps a contract when it is posted keeps it onward** (`Onward.upheld`), whatever was
posted before, and whatever will be posted: the others may be bystanders. -/
namespace BranchBound
namespace Engine

/-- What an engine can come to from a start onward: it runs, and between runs variables are declared and
constraints posted. -/
inductive Onward (e₀ : Engine Constraint) : Mode → Engine Constraint → Prop
  | start : Onward e₀ .free e₀
  | declare {m : Mode} {e e' : Engine Constraint} {lower upper : Int} (h : Onward e₀ m e) (hm : m.Idle)
    (hd : e.declare lower upper = .ok e') : Onward e₀ .free e'
  | post {m : Mode} {e e' : Engine Constraint} {p : Constraint} (h : Onward e₀ m e) (hm : m.Idle)
    (hp : e.post p = .ok e') : Onward e₀ .free e'
  | run {m m' : Mode} {e e' : Engine Constraint} (h : Onward e₀ m e) (hm : m.Idle)
    (hr : e.Run m' e') : Onward e₀ m' e'
  | restore {m : Mode} {e e' : Engine Constraint} {k : Nat} (h : Onward e₀ m e) (hk : e₀.level ≤ k)
    (hr : e.restore k = .ok e') : Onward e₀ .free e'

variable {e e' e₀ : Engine Constraint} {cs : List (Contract Constraint)} {base : Nat} {m m' : Mode}
  {p : Constraint} {k : Contract Constraint}

/-- Who is quiet is free to do something else. -/
theorem Kept.free (h : Kept cs base m e) (hm : m.Idle) : Kept cs base .free e where
  is := h.is
  saved := h.saved
  ready _ := h.ready hm.ne_dead
  awake _ := h.awake hm.ne_dead
  settled h := by cases h

/-- Everybody keeps a contract that does not depend on what else there is. -/
structure Keeping (cs : List (Contract Constraint)) (base : Nat) (m : Mode) (e : Engine Constraint) :
    Prop where
  inOrder : e.InOrder
  level_le : base ≤ e.level
  silent : m = .busy ∨ m = .quiet → e.store.events = []
  served : Served cs e
  kept : Kept cs base m e
  lasting : ∀ k ∈ cs, k.Lasting

namespace Keeping

theorem own_lt (h : Keeping cs base m e) (hm : m.Idle) (hk : k ∈ cs) {i : Nat} (hi : k.own i) :
    i < e.space.cells.values.size := by
  obtain ⟨id, hid⟩ := List.getElem?_of_mem hk
  have lt : id < e.numPropagators := h.served.length_eq ▸ (List.getElem?_eq_some_iff.mp hid).1
  obtain ⟨q, hq⟩ := posted_eq_some lt
  exact (h.lasting k hk).own_lt _ _ _ (h.kept.ready hm.ne_dead id k q hid hq) i hi

theorem declare {lower upper : Int} (h : Keeping cs base m e) (hm : m.Idle)
    (hd : e.declare lower upper = .ok e') : Keeping cs base .free e' := by
  have inOrder := h.inOrder.declare hd
  obtain ⟨served, due⟩ := h.served.declare hd
  have now := grows_declare hd
  have grown (j : Nat) := h.inOrder.valid.space.grows_rewind (.ofRange lower upper) j
  obtain ⟨-, rfl⟩ := declare_eq_ok hd
  refine ⟨inOrder, h.level_le, fun h => by simp at h, served, ⟨h.kept.is, fun j hb hj c hc => ?_,
    fun _ id c q hc hq => ?_, fun _ id c hc => ?_, fun h => by cases h⟩, h.lasting⟩
  · exact (h.lasting c hc).settled_grows _ _ (h.kept.saved j hb hj c hc) (grown j) (Nat.le_refl _)
      fun _ _ => rfl
  · have ready := h.kept.ready hm.ne_dead id c q hc hq
    exact c.ready_mono ((h.lasting c (List.mem_of_getElem? hc)).stable _ _ _ _ ready now (Nat.le_refl _)
      fun _ _ => rfl) (due id)
  · rcases h.kept.awake hm.ne_dead id c hc with waits | told | settled
    · exact .inl waits
    · exact .inr (.inl fun hnil => told (List.subset_nil.mp (hnil ▸ due id)))
    · exact .inr (.inr ((h.lasting c (List.mem_of_getElem? hc)).settled_grows _ _ settled now
        (Nat.le_refl _) fun _ _ => rfl))

/-- What is settled is so still when trailed integers have been allocated. -/
theorem settled_grow (h : Keeping cs base m e) (hm : m.Idle) (hk : k ∈ cs) {s t : Space} {initial : List Int}
    (settled : k.Settled s) (size : s.cells.values.size = e.space.cells.values.size)
    (store : t.store.domains = s.store.domains)
    (values : t.cells.values = (initial.foldl Cells.grow s.cells).values) : k.Settled t := by
  apply (h.lasting k hk).settled_grows s t settled (Store.grows_of_domains store)
  · rw [values]
    exact Cells.size_le_foldl_grow _ _
  · intro i hi
    have known := Cells.value_foldl_grow_of_lt initial (size.symm ▸ h.own_lt hm hk hi)
    unfold Cells.value Cells.get? at known ⊢
    rw [values]
    exact known

/-- Below the level nothing happens, when a constraint is posted, but that trailed integers are allocated. -/
theorem saved_post (h : Keeping cs base m e) (hm : m.Idle) (hp : e.post p = .ok e') (hk : k ∈ cs) {j : Nat}
    (hb : base ≤ j) (hj : j < e.level) : k.Settled (e'.space.rewind j) := by
  obtain ⟨-, watchList, -, rfl⟩ := post_eq_ok hp
  rw [h.inOrder.rewind_withPosted]
  exact h.settled_grow hm hk (h.kept.saved j hb hj k hk) (Cells.size_foldl_undo _ _) rfl rfl

/-- The constraint that is posted waits to be called, and whoever waited or was told does so still. -/
theorem awake_post (h : Keeping cs base m e) (hm : m.Idle) (hp : e.post p = .ok e') {id : Nat}
    {c : Contract Constraint} (hc : (cs ++ [k])[id]? = some c) :
    id ∈ e'.queue.waits ∨ dueOf e'.deliveries id ≠ [] ∨ c.Settled e'.space := by
  obtain ⟨-, watchList, hw, rfl⟩ := post_eq_ok hp
  rw [getElem?_concat] at hc
  split at hc
  · rename_i last
    exact .inl ((mem_waits_withPosted h.inOrder.valid).mpr (.inl (last.trans h.served.length_eq.symm)))
  · rcases h.kept.awake hm.ne_dead id c hc with waits | told | settled
    · exact .inl ((mem_waits_withPosted h.inOrder.valid).mpr (.inr waits))
    · exact .inr (.inl fun hnil => told (List.subset_nil.mp (hnil ▸ dueOf_subset_post hw id)))
    · exact .inr (.inr (h.settled_grow hm (List.mem_of_getElem? hc) settled rfl rfl rfl))

/-- **A constraint that is posted keeps its contract from then on**, and nobody else notices. -/
theorem post (h : Keeping cs base m e) (hm : m.Idle) (hp : e.post p = .ok e')
    (attaches : k.Attaches p e.space) (lasting : k.Lasting)
    (saved : ∀ j, base ≤ j → j < e.level → k.Settled (e'.space.rewind j)) :
    Keeping (cs ++ [k]) base .free e' := by
  have inOrder := h.inOrder.post hp
  have awake (id : Nat) (c : Contract Constraint) (hc : (cs ++ [k])[id]? = some c) := h.awake_post hm hp hc
  have old {c : Contract Constraint} (hc : c ∈ cs) {j : Nat} (hb : base ≤ j) (hj : j < e.level) :=
    h.saved_post hm hp hc hb hj
  obtain ⟨-, watchList, hw, rfl⟩ := post_eq_ok hp
  have served := h.served.post (fun c hc i hi => h.own_lt hm hc hi) hw attaches.watches
    fun i hi => (attaches.own i hi).1
  have ready := h.served.ready_post hw attaches.ready fun id c q hc hq => by
    have mem := List.mem_of_getElem? hc
    apply (h.lasting c mem).stable _ _ _ _ (h.kept.ready hm.ne_dead id c q hc hq)
    · exact Store.grows_of_domains rfl
    · exact Cells.size_le_foldl_grow _ _
    · intro i hi
      exact Cells.value_foldl_grow_of_lt _ (h.own_lt hm mem hi)
  refine ⟨inOrder, h.level_le, fun h => by simp at h, served, ⟨fun id c q hc hq => ?_,
    fun j hb hj c hc => ?_, fun _ => ready, fun _ => awake, fun h => by cases h⟩, fun c hc => ?_⟩
  · exact c.is_of_ready (ready id c q hc hq)
  · rcases List.mem_append.mp hc with hc | hc
    · exact old hc hb hj
    · rw [List.mem_singleton.mp hc]
      exact saved j hb hj
  · rcases List.mem_append.mp hc with hc | hc
    · exact h.lasting c hc
    · exact List.mem_singleton.mp hc ▸ lasting

theorem run (h : Keeping cs base m e) (hm : m.Idle) (hr : e.Run m' e') : Keeping cs base m' e' := by
  have inside := hr.inside h.inOrder.valid
  obtain ⟨served, kept⟩ := hr.kept_of_le h.inOrder.valid h.served (h.kept.free hm) h.level_le
  exact ⟨h.inOrder.run hr, Nat.le_trans h.level_le inside.level_le, inside.silent, served, kept, h.lasting⟩

theorem restore {j : Nat} (h : Keeping cs base m e) (hj : base ≤ j) (hr : e.restore j = .ok e') :
    Keeping cs base .free e' := by
  have back := restored h.inOrder.valid hr
  refine ⟨h.inOrder.restore hr, ?_, fun h => by simp at h, ?_, h.kept.restore h.served h.inOrder.valid hj hr,
    h.lasting⟩
  · exact Nat.le_trans hj (Nat.le_of_eq back.space.level_eq.symm)
  · exact ⟨back.numPropagators_eq.trans h.served.length_eq, back.watchList_eq ▸ h.served.mem_affected,
      h.served.disjoint⟩

end Keeping

/-! ## Whatever is posted is a bystander -/

/-- A constraint that is posted is in order at all levels, also at those below. -/
theorem InOrder.attaches_bystander (h : e.InOrder) (hp : e.post p = .ok e') :
    (Propagator.attach p e.space.cells.values.size e.store).bystander.Attaches p e.space ∧
      ∀ j, (Propagator.attach p e.space.cells.values.size e.store).Orderly (e'.space.rewind j) := by
  have inOrder := h.post hp
  obtain ⟨-, watchList, -, rfl⟩ := post_eq_ok hp
  have found : (e.withPosted p watchList).propagator? e.numPropagators =
      some (Propagator.attach p e.space.cells.values.size e.store) := by
    rw [propagator?_withPosted, if_pos rfl]
  obtain ⟨orderly, nodes⟩ := inOrder.orderly found
  refine ⟨⟨watches_attach p _ _, fun i hi => ?_, ⟨rfl, orderly, nodes⟩,
    (Constraint.lasting_bystander _).stable.keptPrivate⟩, fun j c hc => ?_⟩
  · cases p with
    | circuit c => exact Circuit.own_attach hi
    | _ => exact hi.elim
  · refine inOrder.circuits e.numPropagators c ?_ j
    rw [outline_of_propagator? found, hc]

theorem Onward.keeping (h₀ : Keeping cs e₀.level .free e₀) (h : Onward e₀ m e) :
    ∃ cs', Keeping (cs ++ cs') e₀.level m e := by
  induction h with
  | start => exact ⟨[], (List.append_nil cs).symm ▸ h₀⟩
  | declare _ hm hd ih =>
    obtain ⟨cs', keeping⟩ := ih
    exact ⟨cs', keeping.declare hm hd⟩
  | post _ hm hp ih =>
    obtain ⟨cs', keeping⟩ := ih
    obtain ⟨attaches, orderly⟩ := keeping.inOrder.attaches_bystander hp
    have posted := keeping.post hm hp attaches (Constraint.lasting_bystander _) fun j _ _ => orderly j
    exact ⟨cs' ++ [_], List.append_assoc .. ▸ posted⟩
  | run _ hm hr ih =>
    obtain ⟨cs', keeping⟩ := ih
    exact ⟨cs', keeping.run hm hr⟩
  | restore _ hj hr ih =>
    obtain ⟨cs', keeping⟩ := ih
    exact ⟨cs', keeping.restore hj hr⟩

/-! ## What is said of one constraint -/

/-- One of the constraints keeps a contract. -/
structure Upheld (k : Contract Constraint) (id : Nat) (m : Mode) (e : Engine Constraint) : Prop where
  valid : e.Valid
  posted : ∃ q, e.propagator? id = some q ∧ k.Is q ∧ (m = .busy ∨ m = .quiet → k.Ready q e.space [])
  settled : m = .quiet → k.Settled e.space

theorem Keeping.upheld {id : Nat} (h : Keeping cs base m e) (hk : cs[id]? = some k) :
    Upheld k id m e where
  valid := h.inOrder.valid
  posted := by
    have lt : id < e.numPropagators := h.served.length_eq ▸ (List.getElem?_eq_some_iff.mp hk).1
    obtain ⟨q, hq⟩ := posted_eq_some lt
    refine ⟨q.propagator, propagator?_of_posted hq, h.kept.is id k q hk hq, fun hm => ?_⟩
    have alive : m ≠ .dead := by rcases hm with rfl | rfl <;> simp
    have ready := h.kept.ready alive id k q hk hq
    rwa [deliveries_of_silent (h.silent hm)] at ready
  settled hm := h.kept.settled hm k (List.mem_of_getElem? hk)

/-- **A constraint that keeps a contract when it is posted keeps it onward**, in whatever state the engine was
then. -/
theorem Onward.upheld {e₁ : Engine Constraint} (made : e.Made) (attaches : k.Attaches p e.space)
    (lasting : k.Lasting) (posted : e.post p = .ok e₁) (h : e₁.Onward m e') :
    Upheld k e.numPropagators m e' := by
  have meets := made.meets
  have before : Keeping e.bystanders e.level .free e :=
    ⟨made.inOrder, Nat.le_refl _, fun h => by simp at h, meets.served, meets.kept, fun c hc => by
      obtain ⟨q, -, rfl⟩ := List.mem_map.mp hc
      exact Constraint.lasting_bystander _⟩
  have keeping := before.post (.inl rfl) posted attaches lasting fun j hb hj => absurd hj (Nat.not_lt_of_le hb)
  have level : e₁.level = e.level := (retains_post made.valid posted).level_eq
  obtain ⟨cs', keeping'⟩ := h.keeping (level.symm ▸ keeping)
  refine keeping'.upheld ?_
  rw [List.append_assoc, List.getElem?_append_right (Nat.le_of_eq meets.served.length_eq.symm),
    meets.served.length_eq, Nat.sub_self]
  rfl

/-- Propagation that ends well leaves the engine quiet. -/
theorem Onward.quiet_of_propagate (he : e.Valid) (h : Onward e₀ m e) (hm : m.Idle)
    (hp : e.propagate = .ok () e') : Onward e₀ .quiet e' :=
  h.run hm (Run.quiet_of_propagate he .start (.inl rfl) hp)

end Engine
end BranchBound
