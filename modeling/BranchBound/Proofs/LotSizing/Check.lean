import BranchBound.Proofs.LotSizing.Plan

/-! # The check of schedules

The check runs through the periods and counts what is produced.  It comes to the end exactly if every item that is
produced exists and none is ever produced too late (`Schedule.checkPeriods_eq`, `Schedule.of_checkPeriods`), so a
plan that is not feasible is refused (`Schedule.check_of_not_feasible`); of one that is, the costs are compared
with those that the plan pays (`Schedule.check_of_feasible`).

What a schedule has to be is said without the tables that the check looks things up in (`Schedule.Meets`): with
sums of demands, with the item that was produced last before a period, and with what is in stock of every item.
**The check accepts a schedule exactly if it meets its instance, and names what is wrong otherwise**
(`Schedule.schedule_check_exact`). -/
namespace BranchBound.LotSizing

/-! ## What plans pay -/

namespace Instance
variable (p : Instance)

/-- The item that a plan produces last. -/
def madeLast (plan : Plan) : Option Nat := (plan.filterMap id).getLast?

/-- What is paid in a period, in which an item may be produced, if another was produced last before. -/
def switching : Option Nat → Option Nat → Int
  | some last, some item => if last = item then 0 else (p.changeovers.get? last item).getD 0
  | _, _ => 0

/-- What a plan pays for changeovers, in all periods. -/
def switchings (plan : Plan) : Int :=
  sumInt ((List.range plan.length).map fun t => p.switching (madeLast (plan.take t)) plan[t]?.join)

/-- What a plan pays for stocking, of every item and in every period, for what is produced and not yet due. -/
def stockings (plan : Plan) : Int :=
  sumInt (p.items.map fun item => sumInt (p.periods.map fun t =>
    p.stockingCosts.getD item 0 * (made item (plan.take (t + 1)) - sumInt ((p.demandsOf item).take (t + 1)))))

variable {p} {plan : Plan} {last : Option Nat} {charges : List Int}

theorem madeLast_cons (x : Option Nat) : madeLast (x :: plan) = (madeLast plan).or x := by
  unfold madeLast
  cases x with
  | none => simp
  | some item =>
    change (item :: plan.filterMap id).getLast? = _
    rw [List.getLast?_cons]
    cases (plan.filterMap id).getLast? <;> rfl

theorem eq_of_charge? {item : Nat} {cost : Int} (h : p.charge? last item = some cost) :
    cost = p.switching last (some item) := by
  cases last with
  | none => exact (Option.some.inj h).symm
  | some last =>
    change p.changeoverCost? last item = some cost at h
    unfold changeoverCost? at h
    dsimp only [switching]
    split at h
    · rw [if_pos ‹_›]
      exact (Option.some.inj h).symm
    · rw [if_neg ‹_›, h]
      rfl

/-- The charges are what is paid in the periods, if an item may have been produced before the first of them. -/
theorem sumInt_chargesAfter (h : p.chargesAfter last plan = some charges) : sumInt charges =
    sumInt ((List.range plan.length).map fun t => p.switching ((madeLast (plan.take t)).or last) plan[t]?.join) := by
  induction plan generalizing last charges with
  | nil => cases h; rfl
  | cons x plan ih =>
    -- what is produced in this period is produced last before the next one, or what was before it
    have later (t : Nat) : p.switching ((madeLast ((x :: plan).take (t + 1))).or last) (x :: plan)[t + 1]?.join =
        p.switching ((madeLast (plan.take t)).or (x.or last)) plan[t]?.join := by
      rw [List.take_succ_cons, madeLast_cons, Option.or_assoc, List.getElem?_cons_succ]
    have step (cost : Int) (rest : List Int) (hrest : p.chargesAfter (x.or last) plan = some rest)
        (hcost : cost = p.switching last x) : sumInt (cost :: rest) = sumInt ((List.range (x :: plan).length).map
          fun t => p.switching ((madeLast ((x :: plan).take t)).or last) (x :: plan)[t]?.join) := by
      rw [List.length_cons, List.range_succ_eq_map, List.map_cons, List.map_map, sumInt, sumInt, ih hrest, hcost]
      exact congrArg (p.switching last x + sumInt ·) (List.map_congr_left fun t _ => (later t).symm)
    cases x with
    | none =>
      rw [chargesAfter] at h
      obtain ⟨rest, hrest, heq⟩ := Option.bind_eq_some_iff.mp h
      cases heq
      exact step 0 rest hrest (by cases last <;> rfl)
    | some item =>
      rw [chargesAfter_cons] at h
      obtain ⟨cost, hcost, h⟩ := Option.bind_eq_some_iff.mp h
      obtain ⟨rest, hrest, heq⟩ := Option.bind_eq_some_iff.mp h
      cases heq
      exact step cost rest hrest (eq_of_charge? hcost)

/-- **What is charged for changeovers is paid for them**, production by production. -/
theorem changeoverOf_eq (known : ∀ item, some item ∈ plan → item < p.numItems) :
    p.changeoverOf plan = p.switchings plan := by
  obtain ⟨charges, hcharges, sum⟩ := exists_charges known
  rw [← sum, sumInt_chargesAfter hcharges]
  simp only [Option.or_none]
  rfl

/-- **Nothing is missing in the stock of a feasible plan**, so what it pays is for what is not yet due. -/
theorem stockingOf_eq (feasible : p.Feasible plan) : p.stockingOf plan = p.stockings plan := by
  have byItem : p.stockingCosts.zipIdx.map (fun x => p.stocked plan x.2 * x.1) =
      p.items.map fun item => p.stocked plan item * p.stockingCosts.getD item 0 := by
    refine List.ext_getElem? fun item => ?_
    rw [List.getElem?_map, List.getElem?_map, List.getElem?_zipIdx, Nat.zero_add]
    by_cases hi : item < p.numItems
    · obtain ⟨cost, hcost⟩ : ∃ cost, p.stockingCosts[item]? = some cost := ⟨_, List.getElem?_eq_getElem hi⟩
      rw [items, List.getElem?_range hi, hcost]
      dsimp only [Option.map_some]
      rw [List.getD_eq_getElem?_getD, hcost]
      rfl
    · rw [items, List.getElem?_eq_none (Nat.le_of_not_lt hi),
        List.getElem?_eq_none (by rw [List.length_range]; exact Nat.le_of_not_lt hi)]
      rfl
  unfold stockingOf stockings
  rw [byItem]
  refine congrArg sumInt (List.map_congr_left fun item hitem => ?_)
  have hi : item < p.numItems := List.mem_range.mp hitem
  rw [stocked, ← sumInt_mul_right]
  refine congrArg sumInt (List.map_congr_left fun t ht => ?_)
  have ht : t < p.horizon := List.mem_range.mp ht
  have inTime := feasible.due_le item t hi ht
  rw [← due_eq_sum hi ht, Int.max_eq_right (by omega), Int.mul_comm]

end Instance

namespace Schedule
variable {p : Instance} {plan : Plan} {x : Option Nat} {period : Nat} {produced after : Array Int} {n : Nat → Int}

open Instance (made)

/-! ## The periods -/

theorem missed?_eq_none_iff (ht : period < p.horizon) : missed? p p.required produced period = none ↔
    ∀ item, item < p.numItems → p.due item period ≤ produced.getD item 0 := by
  unfold missed?
  rw [List.findSome?_eq_none_iff]
  have looked (item : Nat) (hi : item < p.numItems) : (do
      let due ← p.required.get? item period
      let amount := produced.getD item 0
      if amount < due then some (Breakdown.demandMissed item period amount due) else none) = none ↔
        p.due item period ≤ produced.getD item 0 := by
    rw [Instance.required_get? hi ht]
    simp
  constructor
  · exact fun h item hi => (looked item hi).mp (h item (List.mem_range.mpr hi))
  · exact fun h item hitem => (looked item (List.mem_range.mp hitem)).mpr (h item (List.mem_range.mp hitem))

/-- The next period is checked for what is produced when it is over. -/
theorem checkPeriods_cons {next : Array Int} {required : Matrix Int} (h : p.produce? produced x = some next)
    (hm : missed? p required next period = none) :
    checkPeriods p required produced period (x :: plan) = checkPeriods p required next (period + 1) plan := by
  cases x with
  | none =>
    cases h
    rw [checkPeriods, hm]
  | some item =>
    by_cases hi : item < p.numItems
    · obtain rfl := Option.some.inj ((if_pos hi).symm.trans h)
      rw [checkPeriods, if_neg (Nat.not_le_of_lt hi)]
      dsimp only
      rw [hm]
    · cases (if_neg hi).symm.trans h

/-- If the periods pass, so does the next one, in which an item is produced that exists. -/
theorem of_checkPeriods_cons {required : Matrix Int}
    (h : checkPeriods p required produced period (x :: plan) = .ok after) :
    (∀ item, x = some item → item < p.numItems) ∧ ∃ next, p.produce? produced x = some next ∧
      missed? p required next period = none ∧ checkPeriods p required next (period + 1) plan = .ok after := by
  cases x with
  | none =>
    rw [checkPeriods] at h
    split at h
    · cases h
    · exact ⟨nofun, produced, rfl, ‹_›, h⟩
  | some item =>
    rw [checkPeriods] at h
    split at h
    · cases h
    · rename_i known
      have known := Nat.lt_of_not_le known
      dsimp only at h
      split at h
      · cases h
      · refine ⟨fun _ heq => Option.some.inj heq ▸ known, _, if_pos known, ‹_›, h⟩

/-- What was made before a period, in it and behind it is what was made before and from it on. -/
theorem made_from (item : Nat) (rest : Plan) :
    n item + made item [x] + made item rest = n item + made item (x :: rest) := by
  have first : made item (x :: rest) = made item [x] + made item rest := by
    rw [Instance.made_cons, Instance.made_cons]
    simp [made]
  rw [first, Int.add_assoc]

/-- **The check of the periods counts what is produced**, if it is never less than what is due. -/
theorem checkPeriods_eq (size : produced.size = p.numItems)
    (h : ∀ item, item < p.numItems → produced.getD item 0 = n item)
    (known : ∀ item, some item ∈ plan → item < p.numItems) (fits : period + plan.length ≤ p.horizon)
    (due_le : ∀ item t, item < p.numItems → t < plan.length →
      p.due item (period + t) ≤ n item + made item (plan.take (t + 1))) :
    ∃ after, checkPeriods p p.required produced period plan = .ok after ∧
      ∀ item, item < p.numItems → after.getD item 0 = n item + made item plan := by
  induction plan generalizing produced n period with
  | nil => exact ⟨produced, rfl, fun item hi => (h item hi).trans (Int.add_zero _).symm⟩
  | cons x plan ih =>
    rw [List.length_cons] at fits
    obtain ⟨next, found, size', h'⟩ := Instance.exists_produced size h fun item hx =>
      known item (hx ▸ List.mem_cons_self)
    have met : missed? p p.required next period = none :=
      (missed?_eq_none_iff (by omega)).mpr fun item hi => by
        rw [h' item hi]
        exact due_le item 0 hi (Nat.succ_pos _)
    have later (item t : Nat) (hi : item < p.numItems) (ht : t < plan.length) :
        p.due item (period + 1 + t) ≤ n item + made item [x] + made item (plan.take (t + 1)) := by
      rw [made_from, Nat.add_assoc, Nat.add_comm 1 t]
      exact due_le item (t + 1) hi (Nat.succ_lt_succ ht)
    obtain ⟨after, checked, counted⟩ :=
      ih size' h' (fun item hi => known item (List.mem_cons_of_mem x hi)) (by omega) later
    refine ⟨after, (checkPeriods_cons found met).trans checked, fun item hi => ?_⟩
    rw [counted item hi, made_from]

/-- **Periods that pass are those of a plan** in which every item exists and none is produced too late. -/
theorem of_checkPeriods (size : produced.size = p.numItems)
    (h : ∀ item, item < p.numItems → produced.getD item 0 = n item) (fits : period + plan.length ≤ p.horizon)
    (passed : checkPeriods p p.required produced period plan = .ok after) :
    (∀ item, some item ∈ plan → item < p.numItems) ∧ ∀ item t, item < p.numItems → t < plan.length →
      p.due item (period + t) ≤ n item + made item (plan.take (t + 1)) := by
  induction plan generalizing produced n period with
  | nil => exact ⟨fun _ hi => (by cases hi), fun _ _ _ ht => absurd ht (Nat.not_lt_zero _)⟩
  | cons x plan ih =>
    rw [List.length_cons] at fits
    obtain ⟨here, next, found, met, rest⟩ := of_checkPeriods_cons passed
    obtain ⟨next', found', size', h'⟩ := Instance.exists_produced size h here
    obtain rfl := Option.some.inj (found.symm.trans found')
    obtain ⟨known, due_le⟩ := ih size' h' (by omega) rest
    refine ⟨fun item hi => ?_, fun item t hi ht => ?_⟩
    · rcases List.mem_cons.mp hi with heq | hi
      · exact here item heq.symm
      · exact known item hi
    · cases t with
      | zero =>
        have now := (missed?_eq_none_iff (by omega)).mp met item hi
        rwa [h' item hi] at now
      | succ t =>
        have later := due_le item t hi (Nat.lt_of_succ_lt_succ ht)
        rwa [made_from, Nat.add_assoc, Nat.add_comm 1 t] at later

/-! ## The check as a whole -/

variable {s : Schedule}

theorem getD_replicate_zero (item : Nat) (hi : item < p.numItems) :
    (Array.replicate p.numItems (0 : Int)).getD item 0 = 0 := by
  rw [Array.getD_eq_getD_getElem?, Array.getElem?_replicate, if_pos hi]
  rfl

/-- After the last period no item is found exactly if every one is made as often as it is due then. -/
theorem find?_eq_none_iff (counted : ∀ item, item < p.numItems → after.getD item 0 = 0 + made item plan) :
    p.items.find? (fun item => decide (some (after.getD item 0) ≠ p.required.get? item (p.horizon - 1))) = none ↔
      ∀ item, item < p.numItems → made item plan = p.due item (p.horizon - 1) := by
  have last : p.horizon - 1 < p.horizon := Nat.sub_one_lt p.data.periods
  have looked (item : Nat) (hi : item < p.numItems) :
      some (after.getD item 0) = p.required.get? item (p.horizon - 1) ↔
        made item plan = p.due item (p.horizon - 1) := by
    rw [Instance.required_get? hi last, counted item hi, Int.zero_add, Option.some_inj]
  rw [List.find?_eq_none]
  constructor
  · intro h item hi
    have same := h item (List.mem_range.mpr hi)
    rw [decide_eq_true_iff, Decidable.not_not] at same
    exact (looked item hi).mp same
  · intro h item hitem
    have hi := List.mem_range.mp hitem
    rw [decide_eq_true_iff, Decidable.not_not]
    exact (looked item hi).mpr (h item hi)

/-- The plan costs what is reported. -/
def Costs (p : Instance) (s : Schedule) : Prop :=
  p.changeoverOf s.plan = s.changeoverCost ∧ p.stockingOf s.plan = s.stockingCost ∧
    s.totalCost = p.changeoverOf s.plan + p.stockingOf s.plan

instance : Decidable (s.Costs p) := inferInstanceAs (Decidable (_ ∧ _ ∧ _))

/-- **Of a feasible plan the costs are compared** with those that are reported. -/
theorem check_of_feasible (feasible : p.Feasible s.plan) : s.check p = .ok (if s.Costs p then none else
    some (.wrongCosts (p.stockingOf s.plan) (p.changeoverOf s.plan) s.stockingCost s.changeoverCost s.totalCost)) := by
  have due_le (item t : Nat) (hi : item < p.numItems) (ht : t < s.plan.length) :
      p.due item (0 + t) ≤ 0 + made item (s.plan.take (t + 1)) := by
    rw [Nat.zero_add, Int.zero_add]
    exact feasible.due_le item t hi (feasible.length_eq ▸ ht)
  obtain ⟨after, checked, counted⟩ := checkPeriods_eq Array.size_replicate getD_replicate_zero feasible.known
    (Nat.le_of_eq ((Nat.zero_add _).trans feasible.length_eq)) due_le
  have exactly := (find?_eq_none_iff counted).mpr feasible.due_eq
  obtain ⟨charges, hcharges, sum⟩ := Instance.exists_charges feasible.known
  have wrong : (sumInt charges ≠ s.changeoverCost ∨ p.stockingOf s.plan ≠ s.stockingCost ∨
      s.totalCost ≠ sumInt charges + p.stockingOf s.plan) ↔ ¬ s.Costs p := by
    rw [sum, Costs, Decidable.not_and_iff_not_or_not, Decidable.not_and_iff_not_or_not]
  unfold check
  rw [if_neg (not_not_intro feasible.length_eq)]
  dsimp only [pure_bind]
  rw [checked]
  dsimp only
  rw [exactly]
  dsimp only
  rw [hcharges, Instance.stockingCost?_eq feasible.length_eq feasible.known]
  dsimp only
  by_cases costs : s.Costs p
  · rw [if_pos costs, if_neg (mt wrong.mp (not_not_intro costs))]
    rfl
  · rw [if_neg costs, if_pos (wrong.mpr costs), sum]
    rfl

/-- **A plan that is not feasible is refused.** -/
theorem check_of_not_feasible (h : ¬ p.Feasible s.plan) : ∃ cause, s.check p = .ok (some cause) := by
  unfold check
  by_cases length : s.plan.length = p.horizon
  · rw [if_neg (not_not_intro length)]
    dsimp only [pure_bind]
    cases passed : checkPeriods p p.required (Array.replicate p.numItems 0) 0 s.plan with
    | error cause => exact ⟨cause, rfl⟩
    | ok after =>
      dsimp only
      cases more : p.items.find? (fun item => decide (some (after.getD item 0) ≠
          p.required.get? item (p.horizon - 1))) with
      | some item => exact ⟨_, rfl⟩
      | none =>
        -- there is nothing left that could keep the plan from being feasible
        have fits : 0 + s.plan.length ≤ p.horizon := Nat.le_of_eq ((Nat.zero_add _).trans length)
        obtain ⟨known, due_le⟩ := of_checkPeriods Array.size_replicate getD_replicate_zero fits passed
        obtain ⟨after', passed', counted⟩ :=
          checkPeriods_eq Array.size_replicate getD_replicate_zero known fits due_le
        cases passed.symm.trans passed'
        refine absurd ⟨length, known, fun item period hi ht => ?_, (find?_eq_none_iff counted).mp more⟩ h
        have inTime := due_le item period hi (length.symm ▸ ht)
        rwa [Nat.zero_add, Int.zero_add] at inTime
  · rw [if_pos length]
    exact ⟨_, rfl⟩

/-- The plan covers the horizon with items that exist, every item is produced in time and exactly as often as it is
demanded, and the costs are those that the plan pays. -/
structure Meets (p : Instance) (s : Schedule) : Prop where
  length_eq : s.plan.length = p.horizon
  known : ∀ item, some item ∈ s.plan → item < p.numItems
  inTime : ∀ item t, item < p.numItems → t < p.horizon →
    sumInt ((p.demandsOf item).take (t + 1)) ≤ made item (s.plan.take (t + 1))
  exactly : ∀ item, item < p.numItems → made item s.plan = sumInt (p.demandsOf item)
  changeover : s.changeoverCost = p.switchings s.plan
  stocking : s.stockingCost = p.stockings s.plan
  total : s.totalCost = s.stockingCost + s.changeoverCost

theorem meets_iff : s.Meets p ↔ p.Feasible s.plan ∧ s.Costs p := by
  constructor
  · intro h
    have feasible : p.Feasible s.plan := by
      refine ⟨h.length_eq, h.known, fun item t hi ht => ?_, fun item hi => ?_⟩
      · rw [Instance.due_eq_sum hi ht]
        exact h.inTime item t hi ht
      · rw [Instance.due_last hi]
        exact h.exactly item hi
    refine ⟨feasible, ?_⟩
    unfold Costs
    rw [Instance.changeoverOf_eq h.known, Instance.stockingOf_eq feasible, h.total, ← h.changeover, ← h.stocking]
    exact ⟨rfl, rfl, Int.add_comm _ _⟩
  · rintro ⟨feasible, changeover, stocking, total⟩
    refine ⟨feasible.length_eq, feasible.known, fun item t hi ht => ?_, fun item hi => ?_, ?_, ?_, ?_⟩
    · rw [← Instance.due_eq_sum hi ht]
      exact feasible.due_le item t hi ht
    · rw [feasible.due_eq item hi, Instance.due_last hi]
      rfl
    · rw [← changeover, Instance.changeoverOf_eq feasible.known]
    · rw [← stocking, Instance.stockingOf_eq feasible]
    · rw [total, changeover, stocking, Int.add_comm]

/-- **The check accepts exactly the schedules that meet the instance**, and names what is wrong with every other. -/
theorem schedule_check_exact (p : Instance) (s : Schedule) : (s.check p = .ok none ↔ s.Meets p) ∧
    ((∃ cause, s.check p = .ok (some cause)) ↔ ¬ s.Meets p) := by
  rw [meets_iff]
  by_cases feasible : p.Feasible s.plan
  · rw [check_of_feasible feasible]
    by_cases costs : s.Costs p
    · simp [feasible, costs]
    · simp [costs]
  · obtain ⟨cause, refused⟩ := check_of_not_feasible feasible
    rw [refused]
    simp [feasible]

end Schedule
end BranchBound.LotSizing
