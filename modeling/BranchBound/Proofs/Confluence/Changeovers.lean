import BranchBound.Proofs.ChangeoverCost.Filter
import BranchBound.Proofs.Confluence.Shelter

/-! # Changeover costs shelter what they have come to

With fewer values the cheapest paths are dearer, to every state (`ChangeoverCost.Rows.mono`) and from it
(`ChangeoverCost.best_mono`).  So the best way through a value costs no more where there are more values than
in the store that is sheltered, and there it costs no more than the cost can be. -/
namespace BranchBound
namespace ChangeoverCost

variable {c : ChangeoverCost} {s t F : Store} {S S' : Var → List Int} {f f' : Nat → Nat → Int}
  {vs : List Var} {v : Var} {n k j period state : Nat} {x : Int} {p : Paths}

/-! ## Paths with fewer values -/

theorem plus_mono {a b a' b' : Int} (h : a ≤ a') (h' : b ≤ b') : plus a b ≤ plus a' b' := by
  unfold plus
  omega

theorem plus_le_unreachable {a b : Int} : plus a b ≤ unreachable := by
  unfold plus unreachable Word.maxInteger Word.minInteger
  omega

theorem best_mono (sub : ∀ v ∈ vs, S' v ⊆ S v) : c.best (vs.map S) state ≤ c.best (vs.map S') state := by
  induction vs generalizing state with
  | nil => exact Int.le_refl 0
  | cons v vs ih =>
    refine le_foldl_min.mpr ⟨(le_foldl_min.mp (Int.le_refl _)).1, fun x hx => ?_⟩
    have here := (le_foldl_min.mp (Int.le_refl (c.best ((v :: vs).map S) state))).2 x
      (sub v List.mem_cons_self hx)
    exact Int.le_trans here (plus_mono (Int.le_refl _) (ih fun w hw => sub w (List.mem_cons_of_mem v hw)))

theorem Rows.le_unreachable (rows : Rows c S vs n f) (hn : n ≤ vs.length) (hk : k ≤ n) :
    f k j ≤ unreachable := by
  cases k with
  | zero =>
    rw [rows.first]
    split <;> decide
  | succ k =>
    obtain ⟨v, hv⟩ : ∃ v, vs[k]? = some v := ⟨vs[k], List.getElem?_eq_getElem (by omega)⟩
    rcases rows.drawn k v (by omega) hv j with none | ⟨state, x, -, -, eq⟩
    · exact Int.le_of_eq none
    · rw [eq]
      exact plus_le_unreachable

/-- **With fewer values it costs no less to get to a state.** -/
theorem Rows.mono (rows : Rows c S vs n f) (rows' : Rows c S' vs n f') (hn : n ≤ vs.length)
    (sub : ∀ v ∈ vs, S' v ⊆ S v) (hk : k ≤ n) : f k j ≤ f' k j := by
  induction k generalizing j with
  | zero => exact Int.le_of_eq ((rows.first j).trans (rows'.first j).symm)
  | succ k ih =>
    obtain ⟨v, hv⟩ : ∃ v, vs[k]? = some v := ⟨vs[k], List.getElem?_eq_getElem (by omega)⟩
    rcases rows'.drawn k v (by omega) hv j with none | ⟨state, x, ⟨hs, reached, hx⟩, rfl, eq⟩
    · rw [none]
      exact rows.le_unreachable hn hk
    · -- where the state can be reached with fewer values, it can with more
      have before : f k state ≤ f' k state := ih (by omega)
      have := rows'.le_unreachable (j := state) hn (show k ≤ n by omega)
      have added := (rows.extended k v (by omega) hv).least state x
        ⟨hs, by omega, sub v (List.mem_of_getElem? hv) hx⟩
      rw [eq]
      exact Int.le_trans added (plus_mono before (Int.le_refl _))

/-! ## What the filter has come to -/

/-- The cost is at least that of the best plan; it is no more than that if the plan is fixed, and else no less
than that of the best way through any value. -/
structure Closed (c : ChangeoverCost) (F : Store) : Prop where
  least : c.best (c.plan.map F.values) c.initial ≤ F.lower c.cost
  fixed : (∀ v ∈ c.plan, F.isFixed v = true) → F.upper c.cost ≤ c.best (c.plan.map F.values) c.initial
  through : (¬ ∀ v ∈ c.plan, F.isFixed v = true) → ∀ p, c.paths? (c.plan.map F.values) = some p →
    ∀ (period : Nat) (v : Var), c.plan[period]? = some v → ∀ x, F.contains v x = true →
      ∀ cost, c.through? p period x = some cost → cost ≤ F.upper c.cost

/-- **What the filter of changeover costs has come to is closed.** -/
theorem closed_of_rests {f : Space} (hf : f.Valid) (base : c.Base f.store)
    (holes : ∀ v ∈ c.plan, (f.store.domain v).width ≤ Domain.holeLimit) (rests : c.filter f = .ok () f) :
    c.Closed f.store := by
  have fit : c.Fit f.store := ⟨base.cost_lt, base.known, base.apart⟩
  obtain ⟨p, cheapest, paths, first, least, rest⟩ := exhausted_of_filter hf fit rests
  obtain ⟨p', g, paths', priced⟩ := base.exists_priced
  obtain rfl := Option.some.inj (paths.symm.trans paths')
  obtain rfl := Option.some.inj (first.symm.trans priced.cheapest_eq)
  refine ⟨least, fun fixed => ?_, fun opened q hq period v hv x hx cost hcost => ?_⟩
  · rwa [if_pos (List.all_eq_true.mpr fixed)] at rest
  · rw [if_neg fun all => opened (List.all_eq_true.mp all)] at rest
    obtain rfl := Option.some.inj (paths.symm.trans hq)
    -- nothing is removed from the period, so nothing that is there is too expensive
    have none := Filter.rests_of_each (fun y hy u hu =>
      ⟨_, _, _, filters_filterPeriod (B := False) (H := fun _ => False) (f := fun _ _ => 0) hf (fun h => h.elim)
        (fun h => h.elim) hu (List.mem_zipIdx_iff_getElem?.mp hy) (fun _ ha => ha.elim) fun _ ha => ha.elim⟩)
      rest (v, period)
      (List.mem_zipIdx_iff_getElem?.mpr hv)
    unfold filterPeriod at none
    rw [Filter.rests_read_iff] at none
    have kept := Filter.rests_of_each (fun y _ u hu =>
      ⟨fun _ => False, False, True, Filter.filters_demand (fun h => h.elim) fun cost' _ => by
        split
        · exact (Filter.filters_remove (hu.valid hf) (fun h => h.elim) fun _ h => h.elim).mono fun _ => trivial
        · exact Filter.filters_pure trivial⟩) none x (Store.mem_values.mpr hx)
    rw [hcost] at kept
    change Filter.Rests (if f.store.upper c.cost < cost then Filter.remove v x else pure false) f at kept
    split at kept
    · obtain ⟨-, gone⟩ := (Filter.rests_remove_iff hf).mp kept
      rcases gone with out | ⟨plain, -⟩
      · exact absurd (hx.symm.trans out) (by simp)
      · rw [(hf.store.domain v).hasHoles_iff.mpr (holes v (List.mem_of_getElem? hv))] at plain
        cases plain
    · omega

/-! ## What is sheltered -/

section
variable (hF : F.Valid) (h : s.Encloses F) (base : c.Base s) (baseF : c.Base F)
  (closed : c.Closed F)
include h

theorem values_subset (v : Var) : F.values v ⊆ s.values v := fun x hx =>
  Store.mem_values.mpr (h.contains v x (Store.mem_values.mp hx))

include hF base baseF closed

/-- **The best way through a value of the store costs no more than the cost can be there.** -/
theorem through_le_upper (priced : Priced c s p f) (hv : c.plan[period]? = some v)
    (hx : F.contains v x = true) {cost : Int} (hcost : c.through? p period x = some cost) :
    cost ≤ F.upper c.cost := by
  have mem := List.mem_of_getElem? hv
  have hperiod := (List.getElem?_eq_some_iff.mp hv).1
  have plannable := baseF.planned v mem x hx
  obtain ⟨cost', hcost', least, -⟩ := through_spec base priced hperiod plannable
  obtain rfl := Option.some.inj (hcost.symm.trans hcost')
  by_cases fixed : ∀ v ∈ c.plan, F.isFixed v = true
  · -- the only plan of the store keeps the constraint
    have upper := closed.fixed fixed
    have lower := closed.least
    have bounds := hF.lower_le_upper c.cost
    have small := baseF.upper_lt
    rw [baseF.best_of_fixed hF fixed] at upper lower
    have holds : c.Holds F.lower := by
      unfold Holds
      omega
    have admits : s.Admits F.lower := fun w _ => h.contains w _ (hF.contains_lower w)
    have here : F.lower v = x := (Domain.contains_of_isFixed (fixed v mem) hx).symm
    have := holds.affords.through_le_cost base priced hv admits (here.symm ▸ least)
    omega
  · obtain ⟨q, g, paths, pricedF⟩ := baseF.exists_priced
    obtain ⟨dear, hdear, -, found⟩ := through_spec baseF pricedF hperiod plannable
    have most := closed.through fixed q paths period v hv x hx dear hdear
    have small := baseF.upper_lt
    obtain ⟨state, hstate, reached, eq⟩ := found.resolve_left fun none => by omega
    have sub : ∀ w ∈ c.plan, F.values w ⊆ s.values w := fun w _ => values_subset h w
    have before := priced.rows.mono (j := state) pricedF.rows (Nat.le_refl _) sub (Nat.le_of_lt hperiod)
    have after : c.best ((c.plan.map s.values).drop (period + 1)) (c.move state x).1 ≤
        c.best ((c.plan.map F.values).drop (period + 1)) (c.move state x).1 := by
      rw [← List.map_drop, ← List.map_drop]
      exact best_mono fun w hw => sub w (List.mem_of_mem_drop hw)
    have := pricedF.rows.le_unreachable (j := state) (Nat.le_refl _) (Nat.le_of_lt hperiod)
    have le := least state hstate (by omega)
    have way : c.way s f period x state ≤ c.way F g period x state :=
      plus_mono (plus_mono before (Int.le_refl _)) after
    omega

end

section
variable {s : Space} (hF : F.Valid) (hs : s.Valid) (h : s.store.Encloses F) (base : c.Base s.store)
  (baseF : c.Base F) (closed : c.Closed F)
include hF hs h base baseF closed

theorem shelters_pass : Filter.Shelters F c.pass s := by
  unfold pass narrowBy
  rw [Filter.shelters_read]
  refine Filter.shelters_demand fun p hp => Filter.shelters_demand fun cheapest hcheapest => ?_
  obtain ⟨f, priced⟩ := exists_priced_of (B := True) (fun _ => base) hp
  have priced := priced trivial
  obtain rfl := Option.some.inj (hcheapest.symm.trans priced.cheapest_eq)
  have sub : ∀ w ∈ c.plan, F.values w ⊆ s.store.values w := fun w _ => values_subset h w
  have least : c.best (c.plan.map s.store.values) c.initial ≤ F.lower c.cost :=
    Int.le_trans (best_mono sub) closed.least
  -- only the cost changes, so a plan that is fixed now was fixed before
  have raised : Ends (Filter.setLower c.cost (c.best (c.plan.map s.store.values) c.initial) s)
      (fun _ u => Filter.Spared F s u ∧ ∀ w, w ≠ c.cost → u.store.domain? w = s.store.domain? w)
      Filter.Unrefuted := by
    have others : Ends (Filter.setLower c.cost (c.best (c.plan.map s.store.values) c.initial) s)
        (fun _ u => ∀ w, w ≠ c.cost → u.store.domain? w = s.store.domain? w) fun _ _ => True := by
      unfold Filter.setLower
      rw [Filter.ends_onStore]
      exact Ends.mono (Store.keeps_setLower hs.store) (fun _ _ hu => hu.others) fun _ _ _ => trivial
    exact ((Filter.shelters_setLower hF hs h least).and others).mono (fun _ _ => id) fun _ _ => And.left
  unfold Filter.Shelters
  rw [ends_bind, ends_discard]
  refine Ends.mono_ok raised fun _ u hu => ?_
  obtain ⟨spared, others⟩ := hu
  refine Ends.mono_ok (Q := fun _ => Filter.Spared F u) ?_ fun _ _ hw => spared.trans hw
  have valid := spared.narrows.valid hs
  rw [ends_bind, Filter.ends_read, ends_ite]
  split
  · rename_i fixed
    have same := isFixed_congr (domain_eq_of_others base.apart others)
    rw [List.all_eq_true] at fixed
    have before : ∀ v ∈ c.plan, s.store.isFixed v = true := fun v hv => (same v hv).symm.trans (fixed v hv)
    have after : ∀ v ∈ c.plan, F.isFixed v = true := fun v hv => h.isFixed hF (before v hv)
    have plan : c.plan.map F.lower = c.plan.map s.store.lower := List.map_congr_left fun v hv =>
      Domain.contains_of_isFixed (before v hv) (h.contains v _ (hF.contains_lower v))
    have upper := closed.fixed after
    rw [baseF.best_of_fixed hF after, plan, ← base.best_of_fixed hs.store before] at upper
    exact Filter.shelters_bind (Filter.shelters_discard (Filter.shelters_setUpper hF valid spared.encloses upper))
      fun _ _ hw => Filter.shelters_pure hw.encloses
  · rw [ends_bind, Filter.ends_read]
    refine Filter.shelters_each spared.encloses fun x hx t ht => ?_
    unfold filterPeriod
    rw [Filter.shelters_read]
    refine Filter.shelters_each ht.encloses fun y _ w hw => Filter.shelters_demand fun cost hcost => ?_
    split
    · rename_i expensive
      refine Filter.shelters_remove hF (hw.narrows.valid (ht.narrows.valid valid)) hw.encloses ?_
      refine Bool.eq_false_iff.mpr fun hy => ?_
      have := through_le_upper hF h base baseF closed priced (List.mem_zipIdx_iff_getElem?.mp hx) hy hcost
      have := spared.encloses.upper_le hF c.cost
      omega
    · exact Filter.shelters_pure hw.encloses

end

section
variable {s : Space} (hF : F.Valid) (hs : s.Valid) (h : s.store.Encloses F) (base : c.Base s.store)
  (baseF : c.Base F) (closed : c.Closed F)
include hF hs h base baseF closed

/-- **Changeover costs shelter what they are closed under.** -/
theorem shelters_filter : Filter.Shelters F c.filter s :=
  Filter.shelters_untilStable h fun _ ht => shelters_pass hF (ht.narrows.valid hs) ht.encloses
    (base.narrows hs.store ht.narrows.store) baseF closed

end

end ChangeoverCost
end BranchBound
