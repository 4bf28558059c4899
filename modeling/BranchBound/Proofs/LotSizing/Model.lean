import BranchBound.Proofs.Loading
import BranchBound.Proofs.LotSizing.Plan

/-! # The model of a plan

The constraints of the model suit the ranges of its variables, so it can be loaded (`exists_load`).  They
hold for an assignment that follows a feasible plan (`Follows.holds`).  Conversely, when the engine is quiet
and the plan is fixed, all variables are, and what they are fixed to follows a feasible plan
(`follows_of_quiet`). -/
namespace BranchBound.LotSizing
namespace Instance
variable {p : Instance} {item period : Nat} {plan : Plan} {a : Assignment}

/-! ## Variables -/

/-- The number of variables before those of the costs. -/
def numPlanned (p : Instance) : Nat := p.horizon + p.numItems * p.horizon

theorem indicator_bounds (hi : item < p.numItems) (ht : period < p.horizon) :
    p.horizon ≤ p.indicator item period ∧ p.indicator item period < p.numPlanned := by
  have := Matrix.position_lt hi ht
  change p.horizon ≤ p.horizon + item * p.horizon + period ∧
    p.horizon + item * p.horizon + period < p.horizon + p.numItems * p.horizon
  omega

theorem length_ranges : p.model.ranges.length = p.numPlanned + 3 := by
  simp [model, periods, numPlanned, Nat.add_assoc]

theorem ranges_planned (ht : period < p.horizon) :
    p.model.ranges[planned period]? = some (idle, (p.numItems : Int) - 1) := by
  simp [model, periods, planned, List.getElem?_append, ht]

theorem ranges_indicator (hi : item < p.numItems) (ht : period < p.horizon) :
    p.model.ranges[p.indicator item period]? = some (0, 1) := by
  obtain ⟨above, below⟩ := indicator_bounds hi ht
  have inside : p.indicator item period - p.horizon < p.numItems * p.horizon :=
    Nat.sub_lt_left_of_lt_add above below
  simp [model, periods, List.getElem?_append, Nat.not_lt_of_le above, inside]

theorem ranges_cost (k : Nat) : p.model.ranges[p.numPlanned + k]? =
    [(0, p.maxStocking), (0, p.maxChangeover), (0, p.maxStocking + p.maxChangeover)][k]? := by
  have front : (p.periods.map (fun _ => (idle, (p.numItems : Int) - 1)) ++
      List.replicate (p.numItems * p.horizon) (0, 1)).length = p.numPlanned := by
    simp [periods, numPlanned]
  change (_ ++ _)[p.numPlanned + k]? = _
  rw [List.getElem?_append_right (front ▸ Nat.le_add_right _ _), front, Nat.add_sub_cancel_left]

/-- Every variable is the plan of a period, an indicator, or a cost. -/
theorem var_cases {v : Nat} (hv : v < p.numPlanned + 3) :
    (∃ t, t < p.horizon ∧ v = planned t) ∨
      (∃ i t, i < p.numItems ∧ t < p.horizon ∧ v = p.indicator i t) ∨
      v = p.stocking ∨ v = p.changeover ∨ v = p.total := by
  have pos := Nat.pos_of_ne_zero p.data.periods
  by_cases early : v < p.horizon
  · exact .inl ⟨v, early, rfl⟩
  · by_cases cost : p.numPlanned ≤ v
    · change _ ∨ _ ∨ v = p.numPlanned ∨ v = p.numPlanned + 1 ∨ v = p.numPlanned + 2
      omega
    · have inside : v - p.horizon < p.numItems * p.horizon := by
        unfold numPlanned at cost
        omega
      refine .inr (.inl ⟨(v - p.horizon) / p.horizon, (v - p.horizon) % p.horizon,
        (Nat.div_lt_iff_lt_mul pos).mpr inside, Nat.mod_lt _ pos, ?_⟩)
      have := Nat.div_add_mod' (v - p.horizon) p.horizon
      change v = p.horizon + (v - p.horizon) / p.horizon * p.horizon + (v - p.horizon) % p.horizon
      omega

theorem mem_plan {v : Var} : v ∈ p.plan ↔ v < p.horizon := by
  simp [plan, periods, planned]

theorem length_plan : p.plan.length = p.horizon := by
  rw [plan, List.length_map, periods, List.length_range]

/-- The constraints of the model. -/
theorem mem_constraints {c : Constraint} : c ∈ p.model.constraints ↔
    (∃ t, t < p.horizon ∧ c = .productionLink (p.productionLink t)) ∨
      (∃ i, i < p.numItems ∧ c = .cumulativeProduction (p.cumulativeProduction p.required i)) ∨
      c = .demandCapacity (p.demandCapacity p.required) ∨ c = .stockingCost (p.stockingCost p.required) ∨
      c = .changeoverCost p.changeoverCost ∨ c = .linearSum ⟨[p.stocking, p.changeover], p.total⟩ := by
  simp only [model, List.mem_append, List.mem_map, List.mem_cons, List.not_mem_nil, or_false, periods,
    items, List.mem_range, or_assoc, eq_comm]

/-! ## Tables of requirements -/

theorem numRows_required : p.required.numRows = p.numItems := p.data.demandRows

theorem required_row? (hi : item < p.numItems) :
    p.required.row? item = some (p.periods.map (p.due item)) := by
  have row : p.required.row? item = some _ := Matrix.row?_ofFn (p.data.demandRows.symm ▸ hi)
  rw [row]
  refine congrArg some (List.map_congr_left fun t ht => ?_)
  exact Option.some.inj ((Matrix.get?_ofFn (p.data.demandRows.symm ▸ hi) (List.mem_range.mp ht)).symm.trans
    (required_get? hi (List.mem_range.mp ht)))

theorem required_cumulativeProduction (hi : item < p.numItems) :
    (p.cumulativeProduction p.required item).required = p.periods.map (p.due item) := by
  rw [cumulativeProduction, required_row? hi]
  rfl

theorem getLast?_due : (p.periods.map (p.due item)).getLast?.getD 0 = p.due item (p.horizon - 1) := by
  have pos := Nat.pos_of_ne_zero p.data.periods
  rw [List.getLast?_map, periods, List.getLast?_range, if_neg p.data.periods]
  rfl

theorem total_cumulativeProduction (hi : item < p.numItems) :
    (p.cumulativeProduction p.required item).total = p.due item (p.horizon - 1) := by
  rw [CumulativeProduction.total, required_cumulativeProduction hi, getLast?_due]

/-! ## What is never cut -/

theorem exact_cumulativeProduction (hi : item < p.numItems) :
    (p.cumulativeProduction p.required item).Exact := by
  intro _ most r hr
  have length : (p.cumulativeProduction p.required item).produced.length = p.horizon := by
    simp [cumulativeProduction, periods]
  rw [required_cumulativeProduction hi] at hr
  obtain ⟨t, ht, rfl⟩ := List.mem_map.mp hr
  have ht := List.mem_range.mp ht
  have := due_mono hi (Nat.le_sub_one_of_lt ht) (Nat.sub_one_lt p.data.periods)
  have := due_nonneg hi ht
  have := p.horizon_le
  rw [length] at most
  rw [total_cumulativeProduction hi] at most ⊢
  unfold Word.Fits Word.minInteger
  omega

/-- **If no more is due of any item than there are periods, no demand is cut.** -/
theorem exact_demandCapacity (due_le : ∀ item < p.numItems, p.due item (p.horizon - 1) ≤ p.horizon) :
    (p.demandCapacity p.required).Exact := by
  have bounds (item : Nat) (hi : item < p.numItems) (t : Nat) (ht : t < p.horizon) :
      0 ≤ p.due item t ∧ p.due item t ≤ p.horizon :=
    ⟨due_nonneg hi ht, Int.le_trans (due_mono hi (Nat.le_sub_one_of_lt ht) (Nat.sub_one_lt p.data.periods))
      (due_le item hi)⟩
  have items : (p.demandCapacity p.required).items = p.items := congrArg List.range numRows_required
  have length : (p.demandCapacity p.required).plan.length = p.horizon := length_plan
  have horizon := p.horizon_le
  refine ⟨fun item t hi ht n le => ?_, fun t ht => ?_⟩
  · have := bounds item (numRows_required ▸ hi) t (length ▸ ht)
    change Word.Fits (p.due item t - n)
    unfold Word.Fits Word.minInteger Word.maxInteger at *
    omega
  · rw [items]
    change Word.Fits (sumInt (p.items.map fun item => max 0 (p.due item t)))
    have least : 0 ≤ sumInt (p.items.map fun item => max 0 (p.due item t)) :=
      sumInt_nonneg fun _ _ => Int.le_max_left ..
    have most : sumInt (p.items.map fun item => max 0 (p.due item t)) ≤ p.horizon * p.items.length :=
      sumInt_le_mul fun item hitem => by
        have := bounds item (List.mem_range.mp hitem) t (length ▸ ht)
        omega
    have stored := p.data.stored
    rw [show p.items.length = p.numItems from List.length_range, Int.mul_comm] at most
    unfold Word.Fits Word.minInteger
    omega

/-- What one machine can produce in time is no more than there are periods. -/
theorem due_le_of_holds {a : Assignment} (h : (p.demandCapacity p.required).Holds a) (hi : item < p.numItems) :
    p.due item (p.horizon - 1) ≤ p.horizon := by
  have last := Nat.sub_one_lt p.data.periods
  calc p.due item (p.horizon - 1)
      ≤ DemandCapacity.count a item (p.plan.take (p.horizon - 1 + 1)) :=
        h item (p.horizon - 1) (numRows_required.symm ▸ hi) (length_plan.symm ▸ last)
    _ ≤ (p.plan.take (p.horizon - 1 + 1)).length := DemandCapacity.count_le
    _ ≤ p.horizon := Int.ofNat_le.mpr (length_plan ▸ List.length_take_le' _ _)

/-! ## Constraints -/

section
variable {s : Store} (spans : s.Spans p.model.ranges)
include spans

theorem numVars_eq : s.numVars = p.numPlanned + 3 := spans.numVars_eq.trans length_ranges

theorem known_planned {v : Var} (hv : v ∈ p.plan) : v < s.numVars := by
  rw [numVars_eq spans]
  exact Nat.lt_of_lt_of_le (mem_plan.mp hv) (Nat.le_trans (Nat.le_add_right _ _) (Nat.le_add_right _ 3))

theorem known_indicator (hi : item < p.numItems) (ht : period < p.horizon) :
    p.indicator item period < s.numVars := by
  rw [numVars_eq spans]
  exact Nat.lt_of_lt_of_le (indicator_bounds hi ht).2 (Nat.le_add_right _ 3)

theorem known_cost : p.stocking < s.numVars ∧ p.changeover < s.numVars ∧ p.total < s.numVars := by
  rw [numVars_eq spans]
  change p.numPlanned < _ ∧ p.numPlanned + 1 < _ ∧ p.numPlanned + 2 < _
  omega

theorem planned_plannable {v : Var} (hv : v ∈ p.plan) {x : Int} (hx : s.contains v x = true) :
    x = idle ∨ ∃ item : Nat, item < p.numItems ∧ x = item := by
  have := (spans.contains_iff _ _ _ (ranges_planned (mem_plan.mp hv)) x).mp hx
  exact eq_idle_or_item (by omega) (by omega)

theorem indicator_binary (hi : item < p.numItems) (ht : period < p.horizon) {x : Int}
    (hx : s.contains (p.indicator item period) x = true) : x = 0 ∨ x = 1 := by
  have := (spans.contains_iff _ _ _ (ranges_indicator hi ht) x).mp hx
  omega

theorem suits_productionLink (ht : period < p.horizon) :
    (Constraint.productionLink (p.productionLink period)).Suits s where
  fits := rfl
  watched v events hv := by
    rcases List.mem_append.mp hv with hv | hv
    · obtain ⟨w, hw, heq⟩ := List.mem_map.mp hv
      cases heq
      obtain ⟨i, hi, rfl⟩ := List.mem_map.mp hw
      exact known_indicator spans (List.mem_range.mp hi) ht
    · cases List.mem_singleton.mp hv
      exact known_planned spans (mem_plan.mpr ht)
  circuit d hd := by cases hd
  rule r hr := by
    cases hr
    refine ⟨known_planned spans (mem_plan.mpr ht), fun v hv => ?_, fun hmem => ?_⟩
    · obtain ⟨i, hi, rfl⟩ := List.mem_map.mp hv
      exact known_indicator spans (List.mem_range.mp hi) ht
    · obtain ⟨i, hi, heq⟩ := List.mem_map.mp hmem
      have above := (indicator_bounds (List.mem_range.mp hi) ht).1
      rw [heq] at above
      exact absurd ht (Nat.not_lt_of_le above)

theorem suits_cumulativeProduction (hi : item < p.numItems) :
    (Constraint.cumulativeProduction (p.cumulativeProduction p.required item)).Suits s := by
  have known (v : Var) (hv : v ∈ (p.cumulativeProduction p.required item).produced) : v < s.numVars := by
    obtain ⟨t, ht, rfl⟩ := List.mem_map.mp hv
    exact known_indicator spans hi (List.mem_range.mp ht)
  have fits : (p.cumulativeProduction p.required item).produced.length =
      (p.cumulativeProduction p.required item).required.length := by
    rw [required_cumulativeProduction hi, List.length_map]
    exact List.length_map _
  refine ⟨decide_eq_true fits, fun v events hv => ?_, fun d hd => (by cases hd), fun r hr => ?_⟩
  · obtain ⟨w, hw, heq⟩ := List.mem_map.mp hv
    cases heq
    exact known _ hw
  · cases hr
    refine ⟨fits, exact_cumulativeProduction hi, known, fun v hv x hx => ?_⟩
    obtain ⟨t, ht, rfl⟩ := List.mem_map.mp hv
    exact indicator_binary spans hi (List.mem_range.mp ht) hx

theorem suits_demandCapacity : (Constraint.demandCapacity (p.demandCapacity p.required)).Suits s where
  fits := decide_eq_true length_plan
  watched v events hv := by
    obtain ⟨w, hw, heq⟩ := List.mem_map.mp hv
    cases heq
    exact known_planned spans hw
  circuit d hd := by cases hd
  rule r hr := by
    cases hr
    refine ⟨fun a ha => exact_demandCapacity fun item hi => due_le_of_holds ha hi,
      fun v hv => known_planned spans hv, fun v hv x hx => ?_⟩
    change x = idle ∨ ∃ item : Nat, item < p.required.numRows ∧ x = item
    rw [numRows_required]
    exact planned_plannable spans hv hx

theorem suits_stockingCost : (Constraint.stockingCost (p.stockingCost p.required)).Suits s := by
  have produced (v : Var) (hv : v ∈ (p.stockingCost p.required).produced.toList) :
      ∃ i t, i < p.numItems ∧ t < p.horizon ∧ v = p.indicator i t := Matrix.mem_toList_ofFn hv
  have known (v : Var) (hv : v ∈ (p.stockingCost p.required).produced.toList) : v < s.numVars := by
    obtain ⟨i, t, hi, ht, rfl⟩ := produced v hv
    exact known_indicator spans hi ht
  have fits : (p.stockingCost p.required).fits = true := by
    unfold StockingCost.fits
    rw [show (p.stockingCost p.required).required.numRows = p.numItems from numRows_required]
    simp only [stockingCost, Matrix.ofFn, numItems, decide_true, Bool.true_and, Bool.and_true]
    exact decide_eq_true rfl
  refine ⟨fits, fun v events hv => ?_, fun d hd => (by cases hd), fun r hr => ?_⟩
  · obtain ⟨w, hw, heq⟩ := List.mem_map.mp hv
    cases heq
    exact known _ hw
  · cases hr
    refine ⟨(known_cost spans).1, known, fun v hv x hx => ?_, fun hmem => ?_, fun x hx => ?_⟩
    · obtain ⟨i, t, hi, ht, rfl⟩ := produced v hv
      exact indicator_binary spans hi ht hx
    · obtain ⟨i, t, hi, ht, heq⟩ := produced _ hmem
      exact Nat.ne_of_gt (indicator_bounds hi ht).2 heq
    · exact p.data.nonneg x (List.mem_append_left _ (List.mem_append_right _ hx))

theorem suits_changeoverCost (hs : s.Valid) : (Constraint.changeoverCost p.changeoverCost).Suits s where
  fits := decide_eq_true rfl
  watched v events hv := by
    rcases List.mem_append.mp hv with hv | hv
    · obtain ⟨w, hw, heq⟩ := List.mem_map.mp hv
      cases heq
      exact known_planned spans hw
    · cases List.mem_singleton.mp hv
      exact (known_cost spans).2.1
  circuit d hd := by cases hd
  rule r hr := by
    cases hr
    refine ⟨sound_changeoverCost, fun v hv => known_planned spans hv,
      fun v hv x hx => planned_plannable spans hv hx, (known_cost spans).2.1, fun hmem => ?_, ?_⟩
    · exact absurd (show p.horizon + p.numItems * p.horizon + 1 < p.horizon from mem_plan.mp hmem)
        (by omega)
    · have upper : s.upper p.changeover ≤ p.maxChangeover :=
        ((spans.contains_iff _ _ _ (ranges_cost 1) _).mp (hs.contains_upper _)).2
      have most := p.data.costs
      have := p.maxStocking_nonneg
      change p.maxStocking + p.maxChangeover ≤ Word.maxValue at most
      change s.upper p.changeover < Word.maxInteger
      unfold Word.maxInteger
      unfold Word.maxValue at most
      omega

theorem suits_linearSum :
    (Constraint.linearSum ⟨[p.stocking, p.changeover], p.total⟩).Suits s := by
  obtain ⟨stocking, changeover, total⟩ := known_cost spans
  have known (v : Var) (hv : v ∈ [p.stocking, p.changeover, p.total]) : v < s.numVars := by
    simp only [List.mem_cons, List.not_mem_nil, or_false] at hv
    rcases hv with rfl | rfl | rfl
    · exact stocking
    · exact changeover
    · exact total
  refine ⟨rfl, fun v events hv => ?_, fun d hd => (by cases hd), fun r hr => ?_⟩
  · obtain ⟨w, hw, heq⟩ := List.mem_map.mp hv
    cases heq
    exact known _ hw
  · cases hr
    exact ⟨fun v hv => known v (List.mem_append_left [p.total] hv), total⟩

end

/-- The constraints suit the ranges. -/
theorem suits {s : Store} (hs : s.Valid) (spans : s.Spans p.model.ranges) :
    ∀ c ∈ p.model.constraints, c.Suits s := by
  intro c hc
  rcases mem_constraints.mp hc with ⟨t, ht, rfl⟩ | ⟨i, hi, rfl⟩ | rfl | rfl | rfl | rfl
  · exact suits_productionLink spans ht
  · exact suits_cumulativeProduction spans hi
  · exact suits_demandCapacity spans
  · exact suits_stockingCost spans
  · exact suits_changeoverCost spans hs
  · exact suits_linearSum spans

/-- No range is empty. -/
theorem ranges_nonempty : ∀ r ∈ p.model.ranges, r.1 ≤ r.2 := by
  intro r hr
  obtain ⟨v, hv⟩ := List.mem_iff_getElem?.mp hr
  have hlt := (List.getElem?_eq_some_iff.mp hv).1
  rw [length_ranges] at hlt
  have stocking := p.maxStocking_nonneg
  have changeover := p.maxChangeover_nonneg
  rcases var_cases hlt with ⟨t, ht, heq⟩ | ⟨i, t, hi, ht, heq⟩ | heq | heq | heq <;> rw [heq] at hv
  · rw [ranges_planned ht] at hv
    cases hv
    unfold idle
    dsimp only
    omega
  · rw [ranges_indicator hi ht] at hv
    cases hv
    decide
  · cases (ranges_cost 0).symm.trans hv
    exact stocking
  · cases (ranges_cost 1).symm.trans hv
    exact changeover
  · cases (ranges_cost 2).symm.trans hv
    exact Int.add_nonneg stocking changeover

/-- **The model can be loaded.** -/
theorem exists_load : ∃ e, p.model.load = .ok e ∧ e.Faithful p.model :=
  Engine.exists_load ranges_nonempty rfl fun _ => suits

/-! ## Plans and assignments -/

theorem code_eq_item {x : Option Nat} : code x = (item : Int) ↔ x = some item := by
  cases x with
  | none =>
    simpa [code] using item_ne_idle.symm
  | some now =>
    rw [Option.some_inj]
    exact Int.ofNat_inj

/-- An assignment plans what a plan does, and indicates just that. -/
structure Plans (p : Instance) (a : Assignment) (plan : Plan) : Prop where
  plans : p.plan.map a = plan.map code
  indicated : ∀ i t x, i < p.numItems → plan[t]? = some x →
    a (p.indicator i t) = if x = some i then 1 else 0

/-- Besides, the costs are those of the plan. -/
structure Follows (p : Instance) (a : Assignment) (plan : Plan) : Prop extends p.Plans a plan where
  stocking : a p.stocking = p.stockingOf plan
  changeover : a p.changeover = p.changeoverOf plan
  total : a p.total = p.stockingOf plan + p.changeoverOf plan

/-- The plan that the values of the plan variables stand for. -/
def decoded (p : Instance) (a : Assignment) : Plan := p.periods.map fun t => position? (a (planned t))

theorem made_eq_sum : made item plan = sumInt (plan.map fun x => if x = some item then 1 else 0) := by
  induction plan with
  | nil => rfl
  | cons x plan ih => rw [made_cons, ih, List.map_cons, sumInt]

namespace Plans
variable (h : p.Plans a plan)
include h

theorem length_eq : plan.length = p.horizon := by
  have := congrArg List.length h.plans
  rw [List.length_map, List.length_map, length_plan] at this
  exact this.symm

theorem planned_eq {x : Option Nat} {t : Nat} (hx : plan[t]? = some x) : a (planned t) = code x := by
  have ht : t < p.horizon := h.length_eq ▸ (List.getElem?_eq_some_iff.mp hx).1
  have here := congrArg (·[t]?) h.plans
  simpa [Instance.plan, periods, ht, hx] using here

/-- What is counted of the plan variables is what the plan produces. -/
theorem count_eq (n : Nat) : DemandCapacity.count a item (p.plan.take n) = made item (plan.take n) := by
  have taken : (p.plan.take n).map a = (plan.take n).map code := by
    rw [List.map_take, h.plans, List.map_take]
  have mapped : (p.plan.take n).map (fun v => if a v = (item : Int) then (1 : Int) else 0) =
      ((p.plan.take n).map a).map fun y => if y = (item : Int) then 1 else 0 := by
    rw [List.map_map]
    rfl
  rw [DemandCapacity.count, mapped, taken, List.map_map, made_eq_sum]
  simp only [Function.comp_def, code_eq_item]

/-- **What the indicators count is what the plan produces.** -/
theorem sum_indicators (hi : item < p.numItems) (n : Nat) :
    sumInt (((p.periods.map fun t => p.indicator item t).take n).map a) = made item (plan.take n) := by
  have indicated : (p.periods.map fun t => p.indicator item t).map a =
      plan.map fun x => if x = some item then 1 else 0 := by
    refine List.ext_getElem? fun t => ?_
    rw [List.map_map, List.getElem?_map, List.getElem?_map, periods]
    cases hx : plan[t]? with
    | none =>
      rw [List.getElem?_eq_none_iff, h.length_eq] at hx
      rw [List.getElem?_eq_none_iff.mpr (by rwa [List.length_range])]
      rfl
    | some x =>
      have ht : t < p.horizon := h.length_eq ▸ (List.getElem?_eq_some_iff.mp hx).1
      rw [List.getElem?_range ht, Option.map_some, Option.map_some, ← h.indicated item t x hi hx]
      rfl
  rw [List.map_take, indicated, ← List.map_take, made_eq_sum]

theorem sum_indicators_all (hi : item < p.numItems) :
    sumInt ((p.periods.map fun t => p.indicator item t).map a) = made item plan := by
  have := h.sum_indicators hi p.horizon
  rwa [List.take_of_length_le (by simp [periods]), List.take_of_length_le (Nat.le_of_eq h.length_eq)] at this

end Plans

/-! ## Stocking -/

/-- The indicators of every item with what is due of it, and its cost. -/
theorem rows_stockingCost : (p.stockingCost p.required).rows = p.stockingCosts.zipIdx.map fun x =>
    ((p.periods.map fun t => p.indicator x.2 t, p.periods.map (p.due x.2)), x.1) := by
  have required : p.required.rows = p.items.map fun item => p.periods.map (p.due item) := by
    refine List.ext_getElem? fun i => ?_
    by_cases hi : i < p.numItems
    · rw [Matrix.getElem?_rows (numRows_required.symm ▸ hi), required_row? hi, List.getElem?_map,
        Instance.items, List.getElem?_range hi]
      rfl
    · have length : p.required.rows.length = p.numItems := by
        rw [required, dueBy, Matrix.rows_ofFn, List.length_map, List.length_range]
        exact p.data.demandRows
      rw [List.getElem?_eq_none_iff.mpr (by omega), List.getElem?_eq_none_iff.mpr (by
        rw [List.length_map, Instance.items, List.length_range]
        omega)]
  have produced : (p.stockingCost p.required).produced.rows =
      p.items.map fun item => p.periods.map fun t => p.indicator item t := Matrix.rows_ofFn
  have costs : p.stockingCosts.length = p.numItems := rfl
  unfold StockingCost.rows
  rw [produced, show (p.stockingCost p.required).required = p.required from rfl, required]
  refine List.ext_getElem? fun i => ?_
  by_cases hi : i < p.numItems
  · simp [Instance.items, hi, List.getElem?_zipIdx, Instance.stockingCost, List.zip_eq_zipWith,
      List.getElem?_zipWith, List.getElem?_eq_getElem (costs ▸ hi)]
  · rw [List.getElem?_eq_none_iff.mpr, List.getElem?_eq_none_iff.mpr] <;>
    · simp [Instance.items, Instance.stockingCost, costs]
      omega

/-- **What the indicators pay for stocking is what the plan costs.** -/
theorem Plans.charge_eq (h : p.Plans a plan) :
    (p.stockingCost p.required).charge a = p.stockingOf plan := by
  have stocked {item : Nat} (hi : item < p.numItems) :
      StockingCost.stocked a (p.periods.map fun t => p.indicator item t) (p.periods.map (p.due item)) =
        p.stocked plan item := by
    have numbered : (p.periods.map (p.due item)).zipIdx = p.periods.map fun t => (p.due item t, t) := by
      refine List.ext_getElem? fun t => ?_
      by_cases ht : t < p.horizon
      · simp [periods, ht]
      · rw [List.getElem?_eq_none_iff.mpr, List.getElem?_eq_none_iff.mpr] <;> simpa [periods] using ht
    unfold StockingCost.stocked Instance.stocked
    rw [numbered, List.map_map]
    refine congrArg sumInt (List.map_congr_left fun t _ => ?_)
    change max 0 (sumInt (((p.periods.map fun t => p.indicator item t).take (t + 1)).map a) -
      p.due item t) = _
    rw [h.sum_indicators hi]
  unfold StockingCost.charge stockingOf
  rw [rows_stockingCost, List.map_map]
  refine congrArg sumInt (List.map_congr_left fun x hx => ?_)
  change StockingCost.stocked a (p.periods.map fun t => p.indicator x.2 t)
    (p.periods.map (p.due x.2)) * x.1 = _
  rw [stocked (lt_numItems_of_mem hx)]

/-! ## Plans and constraints -/

section
variable (h : p.Plans a plan)
include h

theorem Plans.linked {t : Nat} (ht : t < p.horizon) : (p.productionLink t).Holds a := by
  intro i v hv
  change (p.items.map fun item => p.indicator item t)[i]? = some v at hv
  have hi : i < p.numItems := by
    simpa [Instance.items] using (List.getElem?_eq_some_iff.mp hv).1
  obtain rfl : p.indicator i t = v := by
    simpa [Instance.items, hi] using hv
  have hx := List.getElem?_eq_getElem (h.length_eq.symm ▸ ht)
  change _ = if a (planned t) = (i : Int) then 1 else 0
  rw [h.indicated i t _ hi hx, h.planned_eq hx]
  simp only [code_eq_item]

theorem Plans.cumulative_iff (hi : item < p.numItems) :
    (p.cumulativeProduction p.required item).Holds a ↔
      (∀ t, t < p.horizon → p.due item t ≤ made item (plan.take (t + 1))) ∧
        made item plan = p.due item (p.horizon - 1) := by
  have row := required_cumulativeProduction hi
  have total := total_cumulativeProduction hi
  have entry (t : Nat) (r : Int) : (p.cumulativeProduction p.required item).required[t]? = some r ↔
      t < p.horizon ∧ r = p.due item t := by
    rw [row, periods, List.getElem?_map]
    by_cases ht : t < p.horizon
    · simp [ht, eq_comm]
    · simp [ht]
  have produced (n : Nat) :
      sumInt (((p.cumulativeProduction p.required item).produced.take n).map a) = made item (plan.take n) :=
    h.sum_indicators hi n
  have all : sumInt ((p.cumulativeProduction p.required item).produced.map a) = made item plan :=
    h.sum_indicators_all hi
  constructor
  · rintro ⟨required_le, total_eq⟩
    refine ⟨fun t ht => ?_, by rw [← all, total_eq, total]⟩
    rw [← produced]
    exact required_le t _ ((entry t _).mpr ⟨ht, rfl⟩)
  · rintro ⟨due_le, due_eq⟩
    refine ⟨fun t r hr => ?_, by rw [all, total, due_eq]⟩
    obtain ⟨ht, rfl⟩ := (entry t r).mp hr
    rw [produced]
    exact due_le t ht

end

/-- **The constraints hold for an assignment that follows a feasible plan.** -/
theorem Follows.holds (h : p.Follows a plan) (feasible : p.Feasible plan) :
    ∀ c ∈ p.model.constraints, c.Holds a := by
  have plans := h.toPlans
  intro c hc
  rcases mem_constraints.mp hc with ⟨t, ht, rfl⟩ | ⟨i, hi, rfl⟩ | rfl | rfl | rfl | rfl <;>
    refine ⟨fun d hd => (by cases hd), fun r hr => ?_⟩ <;> cases hr
  · exact plans.linked ht
  · exact (plans.cumulative_iff hi).mpr ⟨fun t ht => feasible.due_le i t hi ht, feasible.due_eq i hi⟩
  · intro item period hitem hperiod
    change item < p.required.numRows at hitem
    change period < p.plan.length at hperiod
    rw [numRows_required] at hitem
    rw [length_plan] at hperiod
    change p.due item period ≤ DemandCapacity.count a item (p.plan.take (period + 1))
    rw [plans.count_eq]
    exact feasible.due_le item period hitem hperiod
  · refine ⟨fun x hx => ?_, ?_⟩
    · rw [rows_stockingCost] at hx
      obtain ⟨y, hy, rfl⟩ := List.mem_map.mp hx
      have hi := lt_numItems_of_mem hy
      dsimp only
      rw [plans.sum_indicators_all hi, getLast?_due, feasible.due_eq y.2 hi]
    · rw [plans.charge_eq]
      exact h.stocking
  · change a p.changeover = p.changeoverCost.pathCost p.changeoverCost.initial (p.plan.map a)
    rw [plans.plans]
    exact h.changeover
  · change a p.total = a p.stocking + (a p.changeover + 0)
    rw [h.total, h.stocking, h.changeover, Int.add_zero]

/-! ## What is fixed -/

section
variable {s : Store} (hs : s.Valid) (said : ∀ c ∈ p.model.constraints, c.Said s)
include hs said

/-- The plan of a period can be read. -/
theorem code_position? (ht : period < p.horizon) :
    code (position? (s.lower (planned period))) = s.lower (planned period) ∧
      ∀ item, position? (s.lower (planned period)) = some item → item < p.numItems := by
  have capacity := ((said _ (mem_constraints.mpr (.inr (.inr (.inl rfl))))).rule _ rfl).1.planned
    (planned period) (mem_plan.mpr ht) _ (hs.contains_lower _)
  rcases capacity with heq | ⟨item, hitem, heq⟩
  · rw [heq]
    exact ⟨rfl, fun item hi => by cases hi⟩
  · rw [heq, position?_ofNat]
    exact ⟨rfl, fun _ hi => Option.some.inj hi ▸ Nat.lt_of_lt_of_eq hitem numRows_required⟩

variable (fixed : ∀ v ∈ p.plan, s.isFixed v = true)
include fixed

/-- When a plan is fixed, an indicator is fixed to what is planned. -/
theorem fixed_indicator (hi : item < p.numItems) (ht : period < p.horizon) :
    s.isFixed (p.indicator item period) = true ∧ s.lower (p.indicator item period) =
      if position? (s.lower (planned period)) = some item then 1 else 0 := by
  have binary := ((said _ (mem_constraints.mpr (.inr (.inl ⟨item, hi, rfl⟩)))).rule _ rfl).1.indicators
    (p.indicator item period) (List.mem_map_of_mem (List.mem_range.mpr ht))
  obtain ⟨produced, unproduced⟩ :=
    ((said _ (mem_constraints.mpr (.inl ⟨period, ht, rfl⟩))).rule _ rfl).2 item (p.indicator item period)
      (by simp [productionLink, Instance.items, hi])
  have low := binary _ (hs.contains_lower _)
  have high := binary _ (hs.contains_upper _)
  have le := hs.lower_le_upper (p.indicator item period)
  have alone := Store.isFixed_iff.mp (fixed (planned period) (mem_plan.mpr ht))
  have readable := (code_position? hs said ht).1
  rw [Store.isFixed_iff]
  split
  · rename_i heq
    rw [heq] at readable
    have : 1 ≤ s.lower (p.indicator item period) :=
      produced (Store.fixed?_eq_some_iff.mpr ⟨readable.symm, alone ▸ readable.symm⟩)
    omega
  · rename_i hne
    have away : s.contains (planned period) item = false := by
      refine Bool.eq_false_iff.mpr fun hmem => hne ?_
      have bounds := Store.bounds_of_contains hmem
      rw [show s.lower (planned period) = (item : Int) by omega, position?_ofNat]
    have : s.upper (p.indicator item period) ≤ 0 := unproduced away
    omega

theorem plans_decoded : p.Plans s.lower (p.decoded s.lower) where
  plans := by
    rw [decoded, Instance.plan, List.map_map, List.map_map]
    exact List.map_congr_left fun t ht => (code_position? hs said (List.mem_range.mp ht)).1.symm
  indicated i t x hi hx := by
    have ht : t < p.horizon := by
      simpa [decoded, periods] using (List.getElem?_eq_some_iff.mp hx).1
    obtain rfl : position? (s.lower (planned t)) = x := by
      simpa [decoded, periods, ht] using hx
    exact (fixed_indicator hs said fixed hi ht).2

/-- When the plan is fixed, it is feasible. -/
theorem feasible_decoded : p.Feasible (p.decoded s.lower) := by
  have plans := plans_decoded hs said fixed
  have cumulative (i : Nat) (hi : i < p.numItems) := (plans.cumulative_iff hi).mp
    (((said _ (mem_constraints.mpr (.inr (.inl ⟨i, hi, rfl⟩)))).rule _ rfl).2 fun v hv => by
      obtain ⟨t, ht, rfl⟩ := List.mem_map.mp hv
      exact (fixed_indicator hs said fixed hi (List.mem_range.mp ht)).1)
  refine ⟨plans.length_eq, fun item hitem => ?_, fun i t hi ht => (cumulative i hi).1 t ht,
    fun i hi => (cumulative i hi).2⟩
  obtain ⟨t, ht, heq⟩ := List.mem_map.mp hitem
  exact (code_position? hs said (List.mem_range.mp ht)).2 item heq

/-- When the plan is fixed, the cost of stocking is fixed to what the plan costs. -/
theorem fixed_stocking :
    s.isFixed p.stocking = true ∧ s.lower p.stocking = p.stockingOf (p.decoded s.lower) := by
  have plans := plans_decoded hs said fixed
  have complete : (p.stockingCost p.required).Complete s.lower := by
    intro x hx
    rw [rows_stockingCost] at hx
    obtain ⟨y, hy, rfl⟩ := List.mem_map.mp hx
    have hi := lt_numItems_of_mem hy
    dsimp only
    rw [plans.sum_indicators_all hi, getLast?_due, (feasible_decoded hs said fixed).due_eq y.2 hi]
  have bounds := StockingCost.bounds_fixed (fun v hv => by
    obtain ⟨i, t, hi, ht, rfl⟩ := Matrix.mem_toList_ofFn hv
    exact (fixed_indicator hs said fixed hi ht).1) complete
  obtain ⟨least, most⟩ :=
    ((said _ (mem_constraints.mpr (.inr (.inr (.inr (.inl rfl)))))).rule _ rfl).2
  rw [bounds, plans.charge_eq] at least most
  change p.stockingOf (p.decoded s.lower) ≤ s.lower p.stocking at least
  change s.upper p.stocking ≤ p.stockingOf (p.decoded s.lower) at most
  have le := hs.lower_le_upper p.stocking
  exact ⟨Store.isFixed_iff.mpr (by omega), by omega⟩

/-- When the plan is fixed, the cost of changeovers is fixed to what the plan costs. -/
theorem fixed_changeover :
    s.isFixed p.changeover = true ∧ s.lower p.changeover = p.changeoverOf (p.decoded s.lower) := by
  obtain ⟨alone, holds⟩ :=
    ((said _ (mem_constraints.mpr (.inr (.inr (.inr (.inr (.inl rfl))))))).rule _ rfl).2 fixed
  refine ⟨alone, Eq.trans holds ?_⟩
  unfold changeoverOf
  rw [← (plans_decoded hs said fixed).plans]
  rfl

/-- **When the plan is fixed, everything is fixed**, and follows the plan. -/
theorem follows_decoded : p.Follows s.lower (p.decoded s.lower) ∧
    ∀ v, v < p.numPlanned + 3 → s.isFixed v = true := by
  obtain ⟨stocking, stocking_eq⟩ := fixed_stocking hs said fixed
  obtain ⟨changeover, changeover_eq⟩ := fixed_changeover hs said fixed
  obtain ⟨least, most⟩ :=
    ((said _ (mem_constraints.mpr (.inr (.inr (.inr (.inr (.inr rfl))))))).rule _ rfl).2
  change s.lower p.stocking + (s.lower p.changeover + 0) ≤ s.lower p.total at least
  change s.upper p.total ≤ s.upper p.stocking + (s.upper p.changeover + 0) at most
  rw [← Store.isFixed_iff.mp stocking, ← Store.isFixed_iff.mp changeover] at most
  have le := hs.lower_le_upper p.total
  refine ⟨⟨plans_decoded hs said fixed, stocking_eq, changeover_eq, by omega⟩, fun v hv => ?_⟩
  rcases var_cases hv with ⟨t, ht, heq⟩ | ⟨i, t, hi, ht, heq⟩ | heq | heq | heq <;> rw [heq]
  · exact fixed _ (mem_plan.mpr ht)
  · exact (fixed_indicator hs said fixed hi ht).1
  · exact stocking
  · exact changeover
  · exact Store.isFixed_iff.mpr (by omega)

end

/-- **When the engine is quiet and the plan is fixed, everything is fixed**, and follows a feasible plan. -/
theorem follows_of_quiet {e e' : Engine Constraint} (h : e.Faithful p.model) (run : e.Run .quiet e')
    (fixed : ∀ v ∈ p.plan, e'.store.isFixed v = true) :
    p.Feasible (p.decoded e'.store.lower) ∧ p.Follows e'.store.lower (p.decoded e'.store.lower) ∧
      ∀ v, v < e'.store.numVars → e'.store.isFixed v = true := by
  have inside := run.inside h.made.valid
  have valid : e'.store.Valid := inside.valid.space.store
  obtain ⟨follows, all⟩ := follows_decoded valid (h.said e' run) fixed
  refine ⟨feasible_decoded valid (h.said e' run) fixed, follows, fun v hv => all v ?_⟩
  rwa [inside.numVars_eq, numVars_eq h.spans] at hv

end Instance
end BranchBound.LotSizing
