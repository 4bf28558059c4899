import BranchBound.Proofs.Confluence.Plans
import BranchBound.Proofs.DemandCapacity

/-! # Demand and capacity shelters what it has come to

Which periods are open is read period by period, and a period may have been planned in the meantime.  What
matters is that a period that was taken for open can still be counted as planned in the store that is
sheltered: if it is planned for an item, as much less is outstanding there (`DemandCapacity.Tallied`).  So
what just fits in the space just fits in the store, and there the periods have been restricted already. -/
namespace BranchBound
namespace DemandCapacity
open CumulativeProduction (unfixed)

variable {c : DemandCapacity} {F : Store} {s u f : Space} {before opens vs : List Var} {p p' : Progress}
  {v : Var} {n period item : Nat}

/-! ## What is outstanding in a store -/

/-- The plan of a store; an open period is not planned for any item. -/
def planned (F : Store) : Assignment := fun v => (F.fixed? v).getD idle

theorem planned_of {x : Int} (h : F.fixed? v = some x) : planned F v = x := by
  unfold planned
  rw [h]
  rfl

theorem planned_open (h : F.fixed? v = none) : planned F v = idle := by
  unfold planned
  rw [h]
  rfl

/-- What is outstanding of an item by a period. -/
def due (c : DemandCapacity) (F : Store) (period item : Nat) : Int :=
  max 0 (c.requirement item period - count (planned F) item (c.plan.take (period + 1)))

/-- What is outstanding of all items by a period. -/
def shortage (c : DemandCapacity) (F : Store) (period : Nat) : Int := sumInt (c.items.map (c.due F period))

/-- What is outstanding by a period fits into the open ones up to it; where it just fits, they can be planned
for nothing else. -/
structure Balanced (c : DemandCapacity) (F : Store) (period : Nat) : Prop where
  fits : c.shortage F period ≤ unfixed F (c.plan.take (period + 1))
  busy : c.shortage F period = unfixed F (c.plan.take (period + 1)) →
    ∀ v ∈ c.plan.take (period + 1), F.fixed? v = none → F.contains v idle = false
  useful : c.shortage F period = unfixed F (c.plan.take (period + 1)) →
    ∀ v ∈ c.plan.take (period + 1), F.fixed? v = none → ∀ item ∈ c.items, c.due F period item = 0 →
      F.contains v item = false

/-- All periods are balanced. -/
def Closed (c : DemandCapacity) (F : Store) : Prop := ∀ period < c.plan.length, c.Balanced F period

/-- A period is open, idle, or takes one item. -/
theorem load_add_unfixed_le : load (planned F) n vs + unfixed F vs ≤ vs.length := by
  induction vs with
  | nil =>
    rw [load_nil]
    exact Int.le_refl _
  | cons v vs ih =>
    rw [load_cons, load_singleton, List.length_cons]
    simp only [unfixed, List.map_cons, sumInt] at ih ⊢
    cases hv : F.fixed? v with
    | none =>
      rw [planned_open hv, if_neg fun item => absurd idle_lt_zero (Int.not_lt.mpr item.1), if_pos rfl]
      omega
    | some x =>
      rw [if_neg (show ¬ some x = none by simp)]
      split <;> omega

/-- An idle period is neither. -/
theorem load_add_unfixed_lt (hv : v ∈ vs) (fixed : F.fixed? v = some idle) :
    load (planned F) n vs + unfixed F vs < vs.length := by
  induction vs with
  | nil => cases hv
  | cons w vs ih =>
    have rest : load (planned F) n vs + unfixed F vs ≤ vs.length := load_add_unfixed_le
    have first : load (planned F) n [w] + unfixed F [w] ≤ 1 := load_add_unfixed_le
    have both : unfixed F (w :: vs) = unfixed F [w] + unfixed F vs := by
      simp only [unfixed, List.map_cons, List.map_nil, sumInt]
      omega
    rw [load_cons, List.length_cons, both]
    rcases List.mem_cons.mp hv with rfl | hv
    · have none : load (planned F) n [v] + unfixed F [v] = 0 := by
        rw [load_singleton, planned_of fixed,
          if_neg fun item => absurd idle_lt_zero (Int.not_lt.mpr item.1)]
        simp [unfixed, sumInt, fixed]
      omega
    · have := ih hv
      omega

theorem count_open (item : Nat) (opened : ∀ v ∈ vs, F.fixed? v = none) : count (planned F) item vs = 0 := by
  unfold count
  induction vs with
  | nil => rfl
  | cons v vs ih =>
    have other : ¬ planned F v = (item : Int) := by
      rw [planned_open (opened v List.mem_cons_self)]
      exact item_ne_idle.symm
    rw [List.map_cons, sumInt, if_neg other, ih fun w hw => opened w (List.mem_cons_of_mem v hw)]
    rfl

theorem unfixed_open (opened : ∀ v ∈ vs, F.fixed? v = none) : unfixed F vs = vs.length := by
  unfold unfixed
  induction vs with
  | nil => rfl
  | cons v vs ih =>
    rw [List.map_cons, sumInt, if_pos (opened v List.mem_cons_self),
      ih fun w hw => opened w (List.mem_cons_of_mem v hw), List.length_cons]
    omega

theorem unfixed_snoc : unfixed F (vs ++ [v]) = unfixed F vs + if F.fixed? v = none then 1 else 0 := by
  simp [unfixed, sumInt_append, sumInt]

/-! ## What is counted -/

/-- What is counted of the periods seen so far, measured by the plan of a store: the periods taken for open
are `opens`, and the others are counted as they are planned in the store. -/
structure Tallied (c : DemandCapacity) (F : Store) (before : List Var) (p : Progress) (opens : List Var)
    (u : Space) : Prop where
  size_eq : p.produced.size = c.required.numRows
  numOpen_eq : p.numOpen = opens.length
  bounded : p.Bounded before.length
  count_eq : ∀ item, count (planned F) item before = p.produced.getD item 0 + count (planned F) item opens
  unfixed_eq : unfixed F before = unfixed F opens
  opened : ∀ v ∈ before, v ∈ opens ∨ ∃ x, u.store.fixed? v = some x

theorem tallied_start (u : Space) :
    c.Tallied F [] { produced := Array.replicate c.required.numRows 0 } [] u := by
  refine ⟨Array.size_replicate, rfl, bounded_start _, fun item => ?_, rfl, fun v hv => by cases hv⟩
  rw [Array.getD_eq_getD_getElem?, Array.getElem?_replicate]
  split <;> rfl

/-- A period is counted as planned if it is, and else as open. -/
theorem Tallied.add (h : c.Tallied F before p opens u) (hF : F.Valid) (encloses : u.store.Encloses F)
    (hp : p.add (u.store.fixed? v) = some p') :
    c.Tallied F (before ++ [v]) p' (if u.store.fixed? v = none then opens ++ [v] else opens) u := by
  have bounded : p'.Bounded (before ++ [v]).length := List.length_append ▸ h.bounded.add hp
  rcases Progress.add_eq_some hp with ⟨hf, rfl⟩ | ⟨hf, rfl⟩ | ⟨j, hf, hlt, rfl⟩
  · rw [if_pos hf]
    refine ⟨h.size_eq, ?_, bounded, fun item => ?_, ?_, opened_snoc h.opened (List.subset_append_left opens [v])
      (.inl (List.mem_append_right opens List.mem_cons_self))⟩
    · have := h.numOpen_eq
      rw [List.length_append, List.length_singleton]
      dsimp only
      omega
    · have := h.count_eq item
      rw [count_snoc, count_snoc]
      dsimp only
      omega
    · rw [unfixed_snoc, unfixed_snoc, h.unfixed_eq]
  all_goals
    have fixed := encloses.fixed? hF hf
    rw [if_neg (by rw [hf]; simp)]
  · refine ⟨h.size_eq, h.numOpen_eq, bounded, fun item => ?_, ?_,
      opened_snoc h.opened (List.Subset.refl opens) (.inr ⟨_, hf⟩)⟩
    · have := h.count_eq item
      rw [count_snoc, planned_of fixed, if_neg item_ne_idle.symm]
      omega
    · rw [unfixed_snoc, fixed, h.unfixed_eq]
      simp
  · refine ⟨(Array.size_modify ..).trans h.size_eq, h.numOpen_eq, bounded, fun item => ?_, ?_,
      opened_snoc h.opened (List.Subset.refl opens) (.inr ⟨_, hf⟩)⟩
    · have := h.count_eq item
      rw [count_snoc, planned_of fixed, getD_modify hlt]
      simp only [Int.natCast_inj]
      omega
    · rw [unfixed_snoc, fixed, h.unfixed_eq]
      simp

theorem Tallied.narrows {t : Space} (h : c.Tallied F before p opens u) (hu : u.Valid)
    (ht : u.Narrows Filter.noCells t) : c.Tallied F before p opens t :=
  { h with opened := fun v hv => (h.opened v hv).imp_right fun ⟨x, hx⟩ =>
      ⟨x, ht.store.fixed? hu.store hx⟩ }

/-- What the filter takes for outstanding is, if nothing is cut. -/
theorem Tallied.exact (h : c.Tallied F (c.plan.take (period + 1)) p opens u) (exact : c.Exact)
    (hperiod : period < c.plan.length) :
    c.outstanding p period = c.missing p period ∧ total (c.missing p period) = sumInt (c.missing p period) := by
  have bounded := h.bounded
  rw [List.length_take_of_le hperiod] at bounded
  exact ⟨exact.outstanding_eq hperiod bounded, exact.total_missing hperiod bounded⟩

section
variable (h : c.Tallied F (c.plan.take (period + 1)) p opens u)
include h

/-- What is counted as outstanding of an item is at most what is, and what the periods taken for open are
planned for. -/
theorem Tallied.missing_le (item : Nat) :
    max 0 (c.requirement item period - p.produced.getD item 0) ≤
      c.due F period item + count (planned F) item opens := by
  have := h.count_eq item
  have : 0 ≤ count (planned F) item opens := count_nonneg
  unfold due
  omega

/-- **What is outstanding fits into the periods taken for open.** -/
theorem Tallied.shortage_le :
    sumInt (c.missing p period) + unfixed F (c.plan.take (period + 1)) ≤
      c.shortage F period + p.numOpen := by
  have total : sumInt (c.missing p period) ≤
      sumInt (c.items.map fun item => c.due F period item + count (planned F) item opens) :=
    sumInt_le fun item _ => h.missing_le item
  have most : load (planned F) c.required.numRows opens + unfixed F opens ≤ opens.length := load_add_unfixed_le
  rw [sumInt_add] at total
  have := h.numOpen_eq
  have := h.unfixed_eq
  unfold shortage
  unfold load items at *
  omega

/-- **If what is outstanding just fits, it does in the store as well**, and none of the periods taken for
open is idle there or planned for an item of which nothing is counted as outstanding. -/
theorem Tallied.tight (closed : c.Closed F) (hperiod : period < c.plan.length)
    (fits : sumInt (c.missing p period) = p.numOpen) :
    c.shortage F period = unfixed F (c.plan.take (period + 1)) ∧
    (∀ v ∈ opens, F.fixed? v ≠ some idle) ∧
    ∀ item : Nat, (c.missing p period)[item]? = some 0 → item ∈ c.items ∧ c.due F period item = 0 ∧
      ∀ v ∈ opens, F.fixed? v ≠ some (item : Int) := by
  have total (item : Nat) (_ : item ∈ c.items) := h.missing_le item
  have sum := sumInt_le total
  have most : load (planned F) c.required.numRows opens + unfixed F opens ≤ opens.length := load_add_unfixed_le
  have room := (closed period hperiod).fits
  have numOpen := h.numOpen_eq
  have same := h.unfixed_eq
  rw [sumInt_add] at sum
  change sumInt (c.missing p period) ≤ c.shortage F period + load (planned F) c.required.numRows opens at sum
  refine ⟨by omega, fun v hv fixed => ?_, fun item hitem => ?_⟩
  · have := load_add_unfixed_lt (n := c.required.numRows) hv fixed
    omega
  · obtain ⟨mem, hzero⟩ := getElem?_missing_eq_some.mp hitem
    have less := sumInt_sub_le total mem
    rw [sumInt_add] at less
    change sumInt (c.missing p period) - _ ≤
      c.shortage F period + load (planned F) c.required.numRows opens - _ at less
    have : 0 ≤ count (planned F) item opens := count_nonneg
    have nonneg : 0 ≤ c.due F period item := Int.le_max_left ..
    refine ⟨mem, by omega, fun v hv fixed => ?_⟩
    have := count_pos hv (planned_of fixed)
    omega

end

/-! ## What the filter has come to -/

/-- Values can be removed from the open periods. -/
def Removable (c : DemandCapacity) (F : Store) : Prop :=
  ∀ v ∈ c.plan, F.fixed? v = none → (F.domain v).width ≤ Domain.holeLimit

theorem Removable.narrows {t : Store} (h : c.Removable F) (hF : F.Valid) (hn : F.Narrows t) :
    c.Removable t := by
  intro v hv opened
  rw [hn.width_eq v]
  refine h v hv ?_
  cases fixed : F.fixed? v with
  | none => rfl
  | some x => exact (hn.fixed? hF fixed).symm.trans opened

/-- What is removed from an open period that is restricted. -/
theorem filters_restrict_gone {outstanding : List Int} (hu : u.Valid)
    (holes : u.store.fixed? v = none → (u.store.domain v).width ≤ Domain.holeLimit) :
    Filter.Filters Filter.noCells (fun _ => False) False (restrict outstanding v) u
      (u.store.fixed? v = none → u.store.contains v idle = false ∧
        ∀ item : Nat, outstanding[item]? = some 0 → u.store.contains v item = false) := by
  unfold restrict
  rw [Filter.filters_read]
  split
  · rename_i fixed
    refine Filter.filters_pure fun opened => ?_
    rw [Store.fixed?_eq_none_iff] at opened
    exact absurd (fixed.symm.trans opened) (by simp)
  · refine (Filter.filters_each (Q := fun x t => t.Valid → (t.store.domain v).width ≤ Domain.holeLimit →
      t.store.contains v x = false) fun x _ t ht => ?_).mono fun gone opened => ?_
    · refine (Filter.filters_remove (ht.valid hu) (fun h => h.elim) fun _ h => h.elim).mono
        fun remaining valid width => ?_
      refine Bool.eq_false_iff.mpr fun hin => ?_
      rcases remaining x hin with hne | ⟨plain, -⟩
      · exact hne rfl
      · rw [(valid.store.domain v).hasHoles_iff.mpr width] at plain
        cases plain
    · exact ⟨gone idle (mem_restricted.mpr (.inl rfl)) hu (holes opened), fun item hitem =>
        gone item (mem_restricted.mpr (.inr ⟨item, hitem, rfl⟩)) hu (holes opened)⟩

/-- Where the periods taken for open are open, what is counted is what is outstanding. -/
theorem Tallied.missing_eq (h : c.Tallied F (c.plan.take (period + 1)) p opens u)
    (opened : ∀ v ∈ opens, F.fixed? v = none) :
    c.missing p period = c.items.map (c.due F period) ∧
      p.numOpen = unfixed F (c.plan.take (period + 1)) := by
  constructor
  · refine List.map_congr_left fun item _ => ?_
    have := h.count_eq item
    have := count_open item opened
    unfold due
    congr 2
    omega
  · rw [h.numOpen_eq, h.unfixed_eq, unfixed_open opened]

/-- What is known of the space when no value was removed from the plan so far: the periods that were looked at
are balanced. -/
structure Resting (c : DemandCapacity) (f : Space) (before : List Var) (p : Progress) (opens : List Var) :
    Prop where
  tallied : c.Tallied f.store before p opens f
  opened : ∀ v ∈ opens, f.store.fixed? v = none
  balanced : ∀ period < before.length, c.Balanced f.store period

/-- Another period is added to the counts; it is balanced as well. -/
theorem Resting.next (h : c.Resting f before p opens) (hf : f.Valid) (hp : p.add (f.store.fixed? v) = some p')
    (here : ∀ opens', c.Tallied f.store (before ++ [v]) p' opens' f →
      (∀ w ∈ opens', f.store.fixed? w = none) → c.Balanced f.store before.length) :
    ∃ opens', c.Resting f (before ++ [v]) p' opens' := by
  have tallied := h.tallied.add hf.store (.refl _) hp
  have opened : ∀ w ∈ if f.store.fixed? v = none then opens ++ [v] else opens,
      f.store.fixed? w = none := by
    intro w hw
    split at hw
    · rcases List.mem_append.mp hw with hw | hw
      · exact h.opened w hw
      · obtain rfl := List.mem_singleton.mp hw
        assumption
    · exact h.opened w hw
  refine ⟨_, tallied, opened, fun k hk => ?_⟩
  rw [List.length_append, List.length_singleton] at hk
  rcases Nat.lt_succ_iff_lt_or_eq.mp hk with lt | rfl
  · exact h.balanced k lt
  · exact here _ tallied opened

section
variable (h : c.Tallied f.store (c.plan.take (period + 1)) p opens f)
  (opened : ∀ v ∈ opens, f.store.fixed? v = none) (exact : c.Exact) (hperiod : period < c.plan.length)
  (room : ¬ p.numOpen < total (c.outstanding p period))
include h opened exact hperiod room

/-- Where more is open than is outstanding, or nothing is, the period is balanced. -/
theorem Tallied.balanced_of_loose (loose : ¬ (total (c.outstanding p period) = p.numOpen ∧ 0 < p.numOpen)) :
    c.Balanced f.store period := by
  obtain ⟨same, numOpen⟩ := h.missing_eq opened
  obtain ⟨known, uncut⟩ := h.exact exact hperiod
  rw [known, uncut, same] at room loose
  change ¬ p.numOpen < c.shortage f.store period at room
  change ¬ (c.shortage f.store period = p.numOpen ∧ 0 < p.numOpen) at loose
  -- where it just fits, nothing is open
  have none (tight : c.shortage f.store period = unfixed f.store (c.plan.take (period + 1))) (w : Var)
      (hw : w ∈ c.plan.take (period + 1)) (hopen : f.store.fixed? w = none) : False := by
    have := CumulativeProduction.unfixed_pos hw hopen
    omega
  exact ⟨by omega, fun tight w hw hopen => (none tight w hw hopen).elim,
    fun tight w hw hopen => (none tight w hw hopen).elim⟩

/-- Where idling and whatever is not outstanding are removed from the open periods, the period is balanced. -/
theorem Tallied.balanced_of_gone (gone : ∀ w ∈ c.plan.take (period + 1), f.store.fixed? w = none →
      f.store.contains w idle = false ∧
        ∀ item : Nat, (c.outstanding p period)[item]? = some 0 → f.store.contains w item = false) :
    c.Balanced f.store period := by
  obtain ⟨same, numOpen⟩ := h.missing_eq opened
  obtain ⟨known, uncut⟩ := h.exact exact hperiod
  rw [known, uncut, same] at room
  change ¬ p.numOpen < c.shortage f.store period at room
  refine ⟨by omega, fun _ w hw hopen => (gone w hw hopen).1, fun _ w hw hopen item hitem zero => ?_⟩
  refine (gone w hw hopen).2 item ?_
  rw [known, same, List.getElem?_map, items, List.getElem?_range (List.mem_range.mp hitem)]
  exact congrArg some zero

end

section
variable (exact : c.Exact) (hf : f.Valid) (holes : c.Removable f.store)
include exact hf holes

/-- The look at another period. -/
theorem ends_filterPeriod_resting {seen : Bool × Progress}
    (advance : Filter.Advance Filter.noCells (fun _ => False) f seen.1 u)
    (rest : seen.1 = false → ∃ opens, c.Resting f before seen.2 opens) (here : before.length = period)
    (hperiod : period < c.plan.length) (hv : c.plan.take (period + 1) = before ++ [v]) :
    Ends (c.filterPeriod seen v period u)
      (fun seen' t => Filter.Advance Filter.noCells (fun _ => False) f seen'.1 t ∧
        (seen'.1 = false → ∃ opens', c.Resting f (before ++ [v]) seen'.2 opens'))
      (Filter.Halted Filter.noCells (fun _ => False) False f) := by
  subst here
  refine Ends.mono (E := Filter.Halted Filter.noCells (fun _ => False) False u) ?_
    (fun _ _ => id) fun _ _ ht => ht.after advance
  unfold filterPeriod
  rw [ends_bind, Filter.ends_read, ends_bind]
  refine Filter.ends_demand_of (fun hB => hB.elim) fun p' hp => ?_
  rw [ends_ite]
  split
  · exact ⟨.refl, fun hB => hB.elim, fun _ _ _ ha => ha.elim⟩
  rename_i room
  rw [ends_ite]
  split
  · rw [ends_bind]
    refine Ends.mono_ok (Filter.filters_each (Q := fun w t =>
      t.store.fixed? w = none → t.store.contains w idle = false ∧
        ∀ item : Nat, (c.outstanding p' before.length)[item]? = some 0 → t.store.contains w item = false)
      fun w hw t ht => ?_) fun b t ht => ⟨advance.trans ht.1, fun unchanged => ?_⟩
    · have narrows := advance.narrows.trans ht
      exact filters_restrict_gone (narrows.valid hf)
        (holes.narrows hf.store narrows.store w (List.mem_of_mem_take hw))
    · obtain ⟨hb, hseen⟩ := Bool.or_eq_false_iff.mp unchanged
      obtain rfl := advance.unchanged hseen
      obtain ⟨opens, resting⟩ := rest hseen
      exact resting.next hf hp fun opens' tallied opened =>
        (hv ▸ tallied).balanced_of_gone opened exact hperiod room (ht.2 hb)
  · rename_i loose
    refine ⟨advance, fun unchanged => ?_⟩
    obtain rfl := advance.unchanged unchanged
    obtain ⟨opens, resting⟩ := rest unchanged
    exact resting.next hf hp fun opens' tallied opened =>
      (hv ▸ tallied).balanced_of_loose opened exact hperiod room loose

theorem filters_pass_closed :
    Filter.Filters Filter.noCells (fun _ => False) False c.pass f (c.Closed f.store) := by
  have fold := ends_foldlM_prefix (l := c.plan.zipIdx)
    (f := fun seen (x : Var × Nat) => c.filterPeriod seen x.1 x.2)
    (I := fun (before : List (Var × Nat)) (seen : Bool × Progress) (t : Space) =>
      Filter.Advance Filter.noCells (fun _ => False) f seen.1 t ∧
      (seen.1 = false → ∃ opens, c.Resting f (before.map Prod.fst) seen.2 opens))
    (E := Filter.Halted Filter.noCells (fun _ => False) False f)
    (b := (false, { produced := Array.replicate c.required.numRows 0 })) (s := f)
    (fun before x rest split seen t ht => ?_)
    ⟨.refl, fun _ => ⟨[], tallied_start f, fun _ hv => (by cases hv), fun _ h => absurd h (Nat.not_lt_zero _)⟩⟩
  · unfold pass Filter.Filters
    rw [ends_bind]
    refine Ends.mono_ok fold fun seen t ht => ⟨ht.1, fun unchanged period hperiod => ?_⟩
    obtain ⟨opens, resting⟩ := ht.2 unchanged
    exact resting.balanced period (by simpa using hperiod)
  · obtain ⟨here, hlt, htake⟩ := mem_take_zipIdx split
    rw [List.map_append]
    exact ends_filterPeriod_resting exact hf holes ht.1 ht.2 (by rw [List.length_map, here]) hlt htake

/-- **What the filter of demand and capacity has come to is closed.** -/
theorem closed_of_rests (rests : c.filter f = .ok () f) : c.Closed f.store := by
  have passed := Filter.rests_of_untilStable
    (fun u hu => ⟨_, _, _, filters_pass_closed exact (hu.valid hf) (holes.narrows hf.store hu.store)⟩) rests
  exact ((filters_pass_closed exact hf holes).of_ok passed).2 rfl

end

/-! ## What is sheltered -/

section
variable (hF : F.Valid) (hs : s.Valid) (h : s.store.Encloses F) (closed : c.Closed F)
include hF hs closed

theorem shelters_restrict {t : Space} (ht : Filter.Spared F s t)
    (tallied : c.Tallied F (c.plan.take (period + 1)) p opens t) (hperiod : period < c.plan.length)
    (fits : sumInt (c.missing p period) = p.numOpen) (hv : v ∈ c.plan.take (period + 1)) :
    Filter.Shelters F (restrict (c.missing p period) v) t := by
  obtain ⟨tight, busy, useful⟩ := tallied.tight closed hperiod fits
  unfold restrict
  rw [Filter.shelters_read]
  split
  · exact Filter.shelters_pure ht.encloses
  · rename_i hopen
    have mem : v ∈ opens :=
      (tallied.opened v hv).resolve_right fun ⟨x, hx⟩ => hopen (Store.isFixed_of_fixed? hx)
    -- a value is not in the store that is sheltered, be the period open there or planned
    have gone {x : Int} (other : F.fixed? v ≠ some x) (opened : F.fixed? v = none → F.contains v x = false) :
        F.contains v x = false := by
      cases hfix : F.fixed? v with
      | none => exact opened hfix
      | some y =>
        refine Bool.eq_false_iff.mpr fun hx => other ?_
        rw [hfix, Store.eq_of_fixed? hfix hx]
    refine Filter.shelters_each ht.encloses fun x hx u hu =>
      Filter.shelters_remove hF ((ht.trans hu).narrows.valid hs) hu.encloses ?_
    rcases mem_restricted.mp hx with rfl | ⟨item, hitem, rfl⟩
    · exact gone (busy v mem) ((closed period hperiod).busy tight v hv)
    · obtain ⟨inItems, zero, other⟩ := useful item hitem
      exact gone (other v mem) fun opened =>
        (closed period hperiod).useful tight v hv opened item inItems zero

variable (exact : c.Exact)
include exact

theorem shelters_filterPeriod {seen : Bool × Progress} (hu : Filter.Spared F s u)
    (tallied : c.Tallied F before seen.2 opens u) (hperiod : period < c.plan.length)
    (hv : c.plan.take (period + 1) = before ++ [v]) :
    Ends (c.filterPeriod seen v period u)
      (fun seen' t => Filter.Spared F s t ∧ ∃ opens', c.Tallied F (before ++ [v]) seen'.2 opens' t)
      Filter.Unrefuted := by
  have valid := hu.narrows.valid hs
  unfold filterPeriod
  rw [ends_bind, Filter.ends_read, ends_bind]
  refine ends_demand (fun p' hp => ?_) fun _ cause hc => by cases hc
  have next := tallied.add hF hu.encloses hp
  have tallied' := hv ▸ next
  obtain ⟨known, uncut⟩ := tallied'.exact exact hperiod
  rw [known, uncut, ends_ite]
  split
  · rename_i short
    have := tallied'.shortage_le
    have := (closed period hperiod).fits
    omega
  · rw [ends_ite]
    split
    · rename_i tight
      rw [ends_bind]
      refine Ends.mono_ok (Filter.shelters_each hu.encloses fun w hw t ht => ?_) fun b t ht =>
        ⟨hu.trans ht, _, next.narrows valid ht.narrows⟩
      exact shelters_restrict hF hs closed (hu.trans ht) (tallied'.narrows valid ht.narrows) hperiod tight.1 hw
    · exact ⟨hu, _, next⟩

include h

theorem shelters_pass : Filter.Shelters F c.pass s := by
  have fold := ends_foldlM_prefix (l := c.plan.zipIdx)
    (f := fun seen (x : Var × Nat) => c.filterPeriod seen x.1 x.2)
    (I := fun (before : List (Var × Nat)) (seen : Bool × Progress) (t : Space) =>
      Filter.Spared F s t ∧ ∃ opens, c.Tallied F (before.map Prod.fst) seen.2 opens t)
    (E := Filter.Unrefuted)
    (b := (false, { produced := Array.replicate c.required.numRows 0 })) (s := s)
    (fun before x rest split seen t ht => ?_) ⟨.refl h, [], tallied_start s⟩
  · unfold pass Filter.Shelters
    rw [ends_bind]
    exact Ends.mono_ok fold fun _ _ ht => ht.1
  · obtain ⟨spared, opens, tallied⟩ := ht
    obtain ⟨-, hlt, htake⟩ := mem_take_zipIdx split
    rw [List.map_append]
    exact shelters_filterPeriod hF hs closed exact spared tallied hlt htake

/-- **Demand and capacity shelters what it is closed under.** -/
theorem shelters_filter : Filter.Shelters F c.filter s :=
  Filter.shelters_untilStable h fun _ ht => shelters_pass hF (ht.narrows.valid hs) ht.encloses closed exact

end

end DemandCapacity
end BranchBound
