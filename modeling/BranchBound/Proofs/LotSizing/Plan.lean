import BranchBound.LotSizing.Model
import BranchBound.Proofs.ChangeoverCost.Paths
import BranchBound.Proofs.Sum

/-! # Plans

A plan is feasible if it covers the horizon and produces every item as often as it is due by every period,
and altogether no more often (`Instance.Feasible`).  Its costs are those of stocking and of changeovers
(`Instance.cost?`).

Both costs are computed period by period.  Those of stocking are the sums over all items of what is produced
before it is due (`stockingCost?_eq`), and those of changeovers are the cost of a path through the items
(`exists_charges`).  No feasible plan costs more than the variables for its costs can hold
(`Feasible.stocking_le`, `changeoverOf_bounds`). -/
namespace BranchBound.LotSizing
namespace Instance
variable (p : Instance)

/-- How much of an item is due by a period. -/
def due (item period : Nat) : Int := (p.required.get? item period).getD 0

/-- How often an item is produced. -/
def made (item : Nat) (plan : Plan) : Int := (plan.count (some item) : Int)

/-- A plan that produces every item in time, and no more of it than is due altogether. -/
structure Feasible (plan : Plan) : Prop where
  length_eq : plan.length = p.horizon
  known : ∀ item, some item ∈ plan → item < p.numItems
  due_le : ∀ item period, item < p.numItems → period < p.horizon →
    p.due item period ≤ made item (plan.take (period + 1))
  due_eq : ∀ item, item < p.numItems → made item plan = p.due item (p.horizon - 1)

/-- What a plan costs. -/
def cost? (plan : Plan) : Option Int := do
  let stocking ← p.stockingCost? plan
  let charges ← p.charges? plan
  return stocking + sumInt charges

variable {p : Instance}

/-! ## What is sound about an instance -/

/-- What is known of the data of an instance. -/
structure Data (p : Instance) : Prop where
  items : p.numItems ≠ 0
  changeoverRows : p.changeovers.numRows = p.numItems
  changeoverColumns : p.changeovers.numColumns = p.numItems
  demandRows : p.demands.numRows = p.numItems
  periods : p.horizon ≠ 0
  nonneg : ∀ x ∈ p.changeovers.toList ++ p.stockingCosts ++ p.demands.toList, 0 ≤ x
  stored : (p.numItems : Int) * p.horizon ≤ Word.maxInteger
  costs : maxStockingCost p.stockingCosts p.demands + maxChangeoverCost p.changeovers p.demands ≤
    Word.maxValue

theorem data (p : Instance) : p.Data := by
  have h := p.sound
  unfold defect? at h
  dsimp only at h
  split at h
  · cases h
  rename_i items
  split at h
  · cases h
  rename_i changeovers
  split at h
  · cases h
  rename_i demands
  split at h
  · cases h
  rename_i amounts
  split at h
  · cases h
  rename_i costs
  rw [not_or, Decidable.not_not, Decidable.not_not] at changeovers
  rw [not_or, Decidable.not_not] at demands
  rw [not_or, Int.not_lt, Int.not_lt, p.demands.size_entries, demands.1, Int.natCast_mul] at costs
  refine ⟨items, changeovers.1, changeovers.2, demands.1, demands.2, fun x hx => ?_, costs.1, costs.2⟩
  rw [List.any_eq_true, not_exists] at amounts
  have := amounts x
  simp only [hx, true_and, decide_eq_true_eq] at this
  omega

/-- Periods can be counted. -/
theorem horizon_le (p : Instance) : (p.horizon : Int) ≤ Word.maxInteger := by
  have items : (1 : Int) ≤ p.numItems := Int.ofNat_le.mpr (Nat.pos_of_ne_zero p.data.items)
  have := Int.mul_le_mul_of_nonneg_right items (Int.natCast_nonneg p.horizon)
  have := p.data.stored
  omega

/-! ## What is due -/

variable {item period : Nat}

theorem getElem?_runningSums (sofar : Int) (row : List Int) (t : Nat) :
    (runningSums sofar row)[t]? = (row[t]?).map fun _ => sofar + sumInt (row.take (t + 1)) := by
  induction row generalizing sofar t with
  | nil => rfl
  | cons x row ih =>
    cases t with
    | zero => simp [runningSums, sumInt]
    | succ t =>
      rw [runningSums, List.getElem?_cons_succ, ih, List.getElem?_cons_succ, List.take_succ_cons, sumInt,
        Int.add_assoc]

/-- The demands of an item, by period. -/
def demandsOf (p : Instance) (item : Nat) : List Int := (p.demands.row? item).getD []

theorem demands_row? (hi : item < p.numItems) : p.demands.row? item = some (p.demandsOf item) ∧
    (p.demandsOf item).length = p.horizon := by
  obtain ⟨row, hrow, length⟩ := Matrix.exists_row? (m := p.demands) (p.data.demandRows.symm ▸ hi)
  rw [demandsOf, hrow]
  exact ⟨rfl, length⟩

theorem required_get? (hi : item < p.numItems) (ht : period < p.horizon) :
    p.required.get? item period = some (p.due item period) := by
  have found : p.required.get? item period = some _ :=
    Matrix.get?_ofFn (p.data.demandRows.symm ▸ hi) ht
  rw [due, found]
  rfl

/-- **What is due by a period is the sum of the demands up to it.** -/
theorem due_eq_sum (hi : item < p.numItems) (ht : period < p.horizon) :
    p.due item period = sumInt ((p.demandsOf item).take (period + 1)) := by
  obtain ⟨row, length⟩ := demands_row? hi
  have sums : (p.demands.rows.map fun row => (runningSums 0 row).toArray).toArray.getD item #[] =
      (runningSums 0 (p.demandsOf item)).toArray := by
    rw [Array.getD_eq_getD_getElem?, List.getElem?_toArray, List.getElem?_map,
      Matrix.getElem?_rows (p.data.demandRows.symm ▸ hi), row]
    rfl
  have entry : p.due item period =
      ((p.demands.rows.map fun row => (runningSums 0 row).toArray).toArray.getD item #[]).getD period 0 :=
    Option.some.inj ((required_get? hi ht).symm.trans
      (Matrix.get?_ofFn (p.data.demandRows.symm ▸ hi) ht))
  rw [entry, sums, Array.getD_eq_getD_getElem?, List.getElem?_toArray, getElem?_runningSums,
    List.getElem?_eq_getElem (length.symm ▸ ht)]
  exact Int.zero_add _

theorem demandsOf_nonneg (hi : item < p.numItems) : ∀ x ∈ p.demandsOf item, 0 ≤ x := by
  intro x hx
  rw [Matrix.row?_eq_some (demands_row? hi).1] at hx
  exact p.data.nonneg x (List.mem_append_right _ (List.mem_of_mem_drop (List.mem_of_mem_take hx)))

theorem due_nonneg (hi : item < p.numItems) (ht : period < p.horizon) : 0 ≤ p.due item period := by
  rw [due_eq_sum hi ht, ← List.map_id (List.take _ _)]
  exact sumInt_nonneg fun x hx => demandsOf_nonneg hi x (List.mem_of_mem_take hx)

/-- Nothing that is due by a period is not due later. -/
theorem due_mono (hi : item < p.numItems) {later : Nat} (le : period ≤ later) (ht : later < p.horizon) :
    p.due item period ≤ p.due item later := by
  rw [due_eq_sum hi (Nat.lt_of_le_of_lt le ht), due_eq_sum hi ht,
    ← List.take_append_drop (period + 1) ((p.demandsOf item).take (later + 1)), List.take_take,
    Nat.min_eq_left (Nat.succ_le_succ le), sumInt_append, ← List.map_id (List.drop _ _)]
  refine Int.le_add_of_nonneg_right (sumInt_nonneg fun x hx => ?_)
  exact demandsOf_nonneg hi x (List.mem_of_mem_take (List.mem_of_mem_drop hx))

/-- What is due by the last period is demanded altogether. -/
theorem due_last (hi : item < p.numItems) :
    p.due item (p.horizon - 1) = sumInt ((p.demands.row? item).getD []) := by
  have pos := Nat.pos_of_ne_zero p.data.periods
  rw [due_eq_sum hi (Nat.sub_lt pos Nat.one_pos), Nat.sub_add_cancel pos,
    List.take_of_length_le (Nat.le_of_eq (demands_row? hi).2)]
  rfl

/-! ## Stocking -/

variable {plan : Plan} {x : Option Nat}

theorem made_cons : made item (x :: plan) = (if x = some item then 1 else 0) + made item plan := by
  unfold made
  rw [List.count_cons]
  simp only [beq_iff_eq]
  split <;> omega

theorem made_nonneg : 0 ≤ made item plan := Int.natCast_nonneg _

theorem made_take_le {n : Nat} : made item (plan.take n) ≤ made item plan :=
  Int.ofNat_le.mpr ((List.take_sublist n plan).count_le _)

/-- What is paid for stocking at the end of a period, given how often every item was produced. -/
def stockPaid (p : Instance) (n : Nat → Int) (period : Nat) : Int :=
  sumInt (p.stockingCosts.zipIdx.map fun x => max (n x.2 - p.due x.2 period) 0 * x.1)

theorem lt_numItems_of_mem {x : Int × Nat} (h : x ∈ p.stockingCosts.zipIdx) : x.2 < p.numItems := by
  obtain ⟨hlt, -⟩ := List.getElem?_eq_some_iff.mp (List.mem_zipIdx_iff_getElem?.mp h)
  exact hlt

theorem stockPaid_congr {n m : Nat → Int} (h : ∀ item, item < p.numItems → n item = m item) :
    p.stockPaid n period = p.stockPaid m period := by
  refine congrArg sumInt (List.map_congr_left fun x hx => ?_)
  rw [h x.2 (lt_numItems_of_mem hx)]

theorem stockCost?_eq {produced : Array Int} {n : Nat → Int} (ht : period < p.horizon)
    (h : ∀ item, item < p.numItems → produced.getD item 0 = n item) :
    p.stockCost? p.required produced period = some (p.stockPaid n period) := by
  have looked : p.stockingCosts.zipIdx.mapM (fun (x : Int × Nat) => do
      let stock := produced.getD x.2 0 - (← p.required.get? x.2 period)
      return max stock 0 * x.1) =
        some (p.stockingCosts.zipIdx.map fun x => max (n x.2 - p.due x.2 period) 0 * x.1) := by
    refine mapM_eq_some_iff.mpr ?_
    rw [List.map_map]
    refine List.map_congr_left fun x hx => ?_
    have hi := lt_numItems_of_mem hx
    rw [h x.2 hi, required_get? hi ht]
    rfl
  unfold stockCost?
  dsimp only at looked ⊢
  rw [looked]
  rfl

/-- What was produced when a period is over, if its plan is known. -/
def produce? (p : Instance) (produced : Array Int) : Option Nat → Option (Array Int)
  | none => some produced
  | some item => if item < p.numItems then some (produced.modify item (· + 1)) else none

theorem stockingAfter_cons {required : Matrix Int} {produced : Array Int} :
    p.stockingAfter required produced period (x :: plan) =
      (p.produce? produced x).bind fun produced => (p.stockCost? required produced period).bind fun paid =>
        (p.stockingAfter required produced (period + 1) plan).bind fun rest => some (paid + rest) := by
  cases x with
  | none => rfl
  | some item =>
    rw [stockingAfter, produce?]
    dsimp only
    split <;> rfl

theorem exists_produced {produced : Array Int} {n : Nat → Int} (size : produced.size = p.numItems)
    (h : ∀ item, item < p.numItems → produced.getD item 0 = n item)
    (known : ∀ item, x = some item → item < p.numItems) :
    ∃ after, p.produce? produced x = some after ∧ after.size = p.numItems ∧
      ∀ item, item < p.numItems → after.getD item 0 = n item + made item [x] := by
  cases x with
  | none => exact ⟨produced, rfl, size, fun item hi => by rw [h item hi, made_cons]; simp [made]⟩
  | some now =>
    refine ⟨_, if_pos (known now rfl), by rw [Array.size_modify, size], fun item hi => ?_⟩
    have here := h item hi
    rw [Array.getD_eq_getD_getElem?, Array.getElem?_eq_getElem (size.symm ▸ hi)] at here
    rw [Array.getD_eq_getD_getElem?, Array.getElem?_modify, Array.getElem?_eq_getElem (size.symm ▸ hi),
      made_cons, ← here]
    simp only [Option.some.injEq, Option.getD_some]
    split <;> simp [made]

/-- **The stocking costs are paid period by period**, for what was produced up to each. -/
theorem stockingAfter_eq {produced : Array Int} {n : Nat → Int} (size : produced.size = p.numItems)
    (h : ∀ item, item < p.numItems → produced.getD item 0 = n item)
    (known : ∀ item, some item ∈ plan → item < p.numItems) (fits : period + plan.length ≤ p.horizon) :
    p.stockingAfter p.required produced period plan = some (sumInt ((List.range plan.length).map fun t =>
      p.stockPaid (fun item => n item + made item (plan.take (t + 1))) (period + t))) := by
  induction plan generalizing produced n period with
  | nil => rfl
  | cons x plan ih =>
    rw [List.length_cons] at fits
    have ht : period < p.horizon := by omega
    obtain ⟨after, found, size', h'⟩ := exists_produced size h fun item hx =>
      known item (hx ▸ List.mem_cons_self)
    have now := stockCost?_eq ht h'
    have fits' : period + 1 + plan.length ≤ p.horizon := by omega
    have later := ih size' h' (fun item hi => known item (List.mem_cons_of_mem x hi)) fits'
    have rest (t : Nat) : p.stockPaid (fun item => n item + made item [x] + made item (plan.take (t + 1)))
        (period + 1 + t) =
          p.stockPaid (fun item => n item + made item ((x :: plan).take (t + 2))) (period + (t + 1)) := by
      rw [Nat.add_assoc, Nat.add_comm 1 t]
      refine stockPaid_congr fun item _ => ?_
      rw [List.take_succ_cons, made_cons, made_cons, Int.add_assoc, Int.add_assoc]
      simp [made]
    simp only [rest] at later
    rw [stockingAfter_cons, found, Option.bind_some, now, Option.bind_some, later, Option.bind_some,
      List.length_cons, List.range_succ_eq_map, List.map_cons, List.map_map]
    rfl

/-- What is in stock of an item, over all periods. -/
def stocked (p : Instance) (plan : Plan) (item : Nat) : Int :=
  sumInt (p.periods.map fun t => max 0 (made item (plan.take (t + 1)) - p.due item t))

/-- What all items cost that are in stock. -/
def stockingOf (p : Instance) (plan : Plan) : Int :=
  sumInt (p.stockingCosts.zipIdx.map fun x => p.stocked plan x.2 * x.1)

/-- **Stocking costs as much as all items cost that are in stock.** -/
theorem stockingCost?_eq (length : plan.length = p.horizon)
    (known : ∀ item, some item ∈ plan → item < p.numItems) :
    p.stockingCost? plan = some (p.stockingOf plan) := by
  have empty (item : Nat) (hi : item < p.numItems) :
      (Array.replicate p.numItems (0 : Int)).getD item 0 = 0 := by
    rw [Array.getD_eq_getD_getElem?, Array.getElem?_replicate, if_pos hi]
    rfl
  have fits : 0 + plan.length ≤ p.horizon := Nat.le_of_eq ((Nat.zero_add _).trans length)
  have paid := stockingAfter_eq (n := fun _ => 0) Array.size_replicate empty known fits
  have each (x : Int × Nat) : sumInt ((List.range plan.length).map fun t =>
      max (0 + made x.2 (plan.take (t + 1)) - p.due x.2 (0 + t)) 0 * x.1) = p.stocked plan x.2 * x.1 := by
    rw [sumInt_mul_right, stocked, periods, length]
    simp only [Int.zero_add, Nat.zero_add, Int.max_comm]
  unfold stockPaid at paid
  rw [sumInt_comm] at paid
  simp only [each] at paid
  exact paid

theorem stockingCost_nonneg {x : Int × Nat} (hx : x ∈ p.stockingCosts.zipIdx) : 0 ≤ x.1 := by
  have mem := List.mem_of_getElem? (List.mem_zipIdx_iff_getElem?.mp hx)
  exact p.data.nonneg _ (List.mem_append_left _ (List.mem_append_right _ mem))

theorem maxStocking_nonneg (p : Instance) : 0 ≤ p.maxStocking := by
  refine sumInt_nonneg fun x hx => Int.mul_nonneg (Int.mul_nonneg (stockingCost_nonneg hx) ?_)
    (Int.natCast_nonneg _)
  change 0 ≤ sumInt ((p.demands.row? x.2).getD [])
  rw [← due_last (lt_numItems_of_mem hx)]
  exact due_nonneg (lt_numItems_of_mem hx) (Nat.sub_one_lt p.data.periods)

/-- **A feasible plan costs no more for stocking than is provided for.** -/
theorem Feasible.stocking_le (h : p.Feasible plan) :
    0 ≤ p.stockingOf plan ∧ p.stockingOf plan ≤ p.maxStocking := by
  have stocked_nonneg (item : Nat) : 0 ≤ p.stocked plan item :=
    sumInt_nonneg fun t _ => Int.le_max_left 0 _
  refine ⟨sumInt_nonneg fun x hx => Int.mul_nonneg (stocked_nonneg x.2) (stockingCost_nonneg hx),
    sumInt_le fun x hx => ?_⟩
  have hi := lt_numItems_of_mem hx
  have each (t : Nat) (ht : t ∈ p.periods) :
      max 0 (made x.2 (plan.take (t + 1)) - p.due x.2 t) ≤ made x.2 plan := by
    have : made x.2 (plan.take (t + 1)) ≤ made x.2 plan := made_take_le
    have := due_nonneg hi (List.mem_range.mp ht)
    have : 0 ≤ made x.2 plan := made_nonneg
    omega
  have most : p.stocked plan x.2 ≤ made x.2 plan * p.horizon := by
    have := sumInt_le_mul each
    rwa [periods, List.length_range] at this
  rw [h.due_eq x.2 hi, due_last hi] at most
  calc p.stocked plan x.2 * x.1
      ≤ sumInt ((p.demands.row? x.2).getD []) * p.horizon * x.1 :=
        Int.mul_le_mul_of_nonneg_right most (stockingCost_nonneg hx)
    _ = x.1 * sumInt ((p.demands.row? x.2).getD []) * p.horizon := by
        rw [Int.mul_comm _ x.1, Int.mul_assoc]

/-! ## Changeovers -/

/-- The value of a plan variable. -/
def code : Option Nat → Int
  | none => idle
  | some item => item

theorem changeoverCosts_get? {first second : Nat} (hf : first < p.numItems) (hs : second < p.numItems) :
    ∃ cost, p.changeoverCost? first second = some cost ∧
      p.changeoverCosts.get? first second = some cost := by
  have table : p.changeoverCosts.get? first second =
      some ((p.changeoverCost? first second).getD 0) := Matrix.get?_ofFn hf hs
  have known : ∃ cost, p.changeoverCost? first second = some cost := by
    unfold changeoverCost?
    split
    · exact ⟨0, rfl⟩
    · obtain ⟨cost, -, hcost⟩ := Matrix.exists_get? (m := p.changeovers)
        (p.data.changeoverRows.symm ▸ hf) (p.data.changeoverColumns.symm ▸ hs)
      exact ⟨cost, hcost⟩
  obtain ⟨cost, hcost⟩ := known
  refine ⟨cost, hcost, ?_⟩
  rw [table, hcost]
  rfl

theorem mem_changeoverCosts {cost : Int} (h : cost ∈ p.changeoverCosts.toList) :
    cost = 0 ∨ cost ∈ p.changeovers.toList := by
  obtain ⟨first, second, -, -, rfl⟩ := Matrix.mem_toList_ofFn h
  unfold changeoverCost?
  split
  · exact .inl rfl
  · cases hc : p.changeovers.get? first second with
    | none => exact .inl rfl
    | some cost => exact .inr (Array.mem_toList_iff.mpr (Array.mem_of_getElem? hc))

theorem sound_changeoverCost : p.changeoverCost.Sound where
  square := rfl
  nonneg cost hcost := by
    rcases mem_changeoverCosts hcost with rfl | hmem
    · exact Int.le_refl 0
    · exact p.data.nonneg cost (List.mem_append_left _ (List.mem_append_left _ hmem))

/-- What is charged for an item, behind another or as the first. -/
def charge? (p : Instance) (last : Option Nat) (item : Nat) : Option Int :=
  match last with
  | none => some 0
  | some last => p.changeoverCost? last item

theorem chargesAfter_cons {last : Option Nat} : p.chargesAfter last (some item :: plan) =
    (p.charge? last item).bind fun cost =>
      (p.chargesAfter (some item) plan).bind fun charges => some (cost :: charges) := by
  cases last <;> rfl

/-- What is charged for an item is what it costs to move to it. -/
theorem exists_charge {last : Option Nat} (hi : item < p.numItems)
    (hlast : ∀ item, last = some item → item < p.numItems) : ∃ cost, p.charge? last item = some cost ∧
      p.changeoverCost.move (last.getD p.numItems) (code (some item)) = (item, cost) := by
  have transition (state : Nat) : p.changeoverCost.transition? state (code (some item)) =
      if state = p.changeoverCost.initial ∨ state = item then some (item, 0)
      else (p.changeoverCosts.get? state item).bind fun cost => some (item, cost) := by
    unfold ChangeoverCost.transition?
    rw [code, if_neg item_ne_idle, position?_ofNat, Option.bind_eq_bind, Option.bind_some]
    by_cases free : state = p.changeoverCost.initial ∨ state = item
    · rw [if_pos free, if_pos (by simpa using free)]
      rfl
    · rw [if_neg free, if_neg (by simpa using free)]
      rfl
  cases last with
  | none =>
    refine ⟨0, rfl, ?_⟩
    rw [ChangeoverCost.move, transition, if_pos (.inl rfl)]
    rfl
  | some last =>
    have hlt := hlast last rfl
    obtain ⟨cost, hcost, table⟩ := changeoverCosts_get? hlt hi
    refine ⟨cost, hcost, ?_⟩
    rw [ChangeoverCost.move, Option.getD_some, transition, table]
    split
    · rename_i free
      obtain rfl := free.resolve_left (Nat.ne_of_lt hlt)
      obtain rfl : 0 = cost := Option.some.inj ((if_pos rfl).symm.trans hcost)
      rfl
    · rfl

/-- The charges of a plan add up to the cost of a path. -/
theorem exists_chargesAfter {last : Option Nat} (hlast : ∀ item, last = some item → item < p.numItems)
    (known : ∀ item, some item ∈ plan → item < p.numItems) :
    ∃ charges, p.chargesAfter last plan = some charges ∧
      sumInt charges = p.changeoverCost.pathCost (last.getD p.numItems) (plan.map code) := by
  induction plan generalizing last with
  | nil => exact ⟨[], rfl, rfl⟩
  | cons x plan ih =>
    have rest (item : Nat) (hi : some item ∈ plan) := known item (List.mem_cons_of_mem x hi)
    cases x with
    | none =>
      obtain ⟨charges, hcharges, sum⟩ := ih hlast rest
      refine ⟨0 :: charges, by rw [chargesAfter, hcharges]; rfl, ?_⟩
      rw [sumInt, sum, Int.zero_add]
      exact (Int.zero_add _).symm
    | some item =>
      have hi := known item List.mem_cons_self
      have last_lt (now : Nat) (heq : some item = some now) : now < p.numItems := Option.some.inj heq ▸ hi
      obtain ⟨charges, hcharges, sum⟩ := ih last_lt rest
      obtain ⟨cost, hcost, hmove⟩ := exists_charge hi hlast
      refine ⟨cost :: charges, by rw [chargesAfter_cons, hcost, Option.bind_some, hcharges]; rfl, ?_⟩
      rw [sumInt, sum, List.map_cons, ChangeoverCost.pathCost, hmove]
      rfl

/-- What the path of a plan through the items costs. -/
def changeoverOf (p : Instance) (plan : Plan) : Int :=
  p.changeoverCost.pathCost p.changeoverCost.initial (plan.map code)

/-- **The charges of a plan add up to the cost of its path.** -/
theorem exists_charges (known : ∀ item, some item ∈ plan → item < p.numItems) :
    ∃ charges, p.charges? plan = some charges ∧ sumInt charges = p.changeoverOf plan :=
  exists_chargesAfter (fun _ h => by cases h) known

/-- A plan that can be read costs what it costs for stocking and for changeovers. -/
theorem cost?_eq (length : plan.length = p.horizon)
    (known : ∀ item, some item ∈ plan → item < p.numItems) :
    p.cost? plan = some (p.stockingOf plan + p.changeoverOf plan) := by
  obtain ⟨charges, hcharges, sum⟩ := exists_charges known
  rw [cost?, stockingCost?_eq length known, hcharges, ← sum]
  rfl

/-- **A plan of the horizon costs no more for changeovers than is provided for.** -/
theorem changeoverOf_bounds (length : plan.length = p.horizon) :
    0 ≤ p.changeoverOf plan ∧ p.changeoverOf plan ≤ p.maxChangeover := by
  have nonneg (x : Int) (hx : x ∈ p.changeovers.toList) : 0 ≤ x :=
    p.data.nonneg x (List.mem_append_left _ (List.mem_append_left _ hx))
  have most : 0 ≤ p.changeovers.toList.max?.getD 0 ∧
      ∀ x ∈ p.changeovers.toList, x ≤ p.changeovers.toList.max?.getD 0 := by
    cases hm : p.changeovers.toList.max? with
    | none =>
      rw [List.max?_eq_none_iff.mp hm]
      exact ⟨Int.le_refl 0, fun _ hx => by cases hx⟩
    | some m =>
      obtain ⟨hmem, le⟩ := List.max?_eq_some_iff.mp hm
      exact ⟨nonneg m hmem, le⟩
  refine ⟨sound_changeoverCost.pathCost_nonneg, ?_⟩
  have each (x : Int) (hx : x ∈ p.changeoverCost.costs.toList) : x ≤ p.changeovers.toList.max?.getD 0 := by
    rcases mem_changeoverCosts hx with rfl | hmem
    · exact most.1
    · exact most.2 x hmem
  have le : p.changeoverOf plan ≤ p.changeovers.toList.max?.getD 0 * (plan.map code).length :=
    ChangeoverCost.pathCost_le most.1 each
  rwa [List.length_map, length] at le

theorem maxChangeover_nonneg (p : Instance) : 0 ≤ p.maxChangeover := by
  have length : (List.replicate p.horizon (none : Option Nat)).length = p.horizon := List.length_replicate
  obtain ⟨nonneg, le⟩ := changeoverOf_bounds length
  exact Int.le_trans nonneg le

end Instance
end BranchBound.LotSizing
