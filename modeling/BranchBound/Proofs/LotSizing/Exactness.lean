import BranchBound.Proofs.LotSizing.Model
import BranchBound.Proofs.LotSizing.Schedule
import BranchBound.Proofs.Portfolio

/-! # Plans are found exactly

Every leaf of a search follows a feasible plan (`follows_of_leaf`), and for every feasible plan there is an
assignment that no constraint takes away (`exists_spared`).  So every solution of a search is a schedule that
is right (`solution_right`), and **what a portfolio proves optimal is the least cost of a feasible plan**
(`solve_optimal`). -/
namespace BranchBound.LotSizing
namespace Instance
open Search

variable {p : Instance} {e : Engine Constraint} {s : Solution} {plan : Plan}

theorem decisive (h : e.Faithful p.model) : e.Decisive p.model where
  objective_lt := (known_cost h.spans).2.2
  decisions_lt _ hv := known_planned h.spans hv
  all_fixed _ run fixed := (follows_of_quiet h run fixed).2.2

/-- **A leaf follows the feasible plan that it stands for.** -/
theorem follows_of_leaf (h : e.Faithful p.model) (leaf : Leaf (p.model.root e) s) :
    p.Feasible (p.decoded s.value) ∧ p.Follows s.value (p.decoded s.value) ∧
      s.objective = s.value p.total := by
  obtain ⟨e', run, fixed, value, objective⟩ := leaf.value_eq
  have numVars := (run.inside h.made.valid).numVars_eq
  obtain ⟨feasible, follows, -⟩ := follows_of_quiet h run fun v hv =>
    fixed v (numVars ▸ known_planned h.spans hv)
  rw [value]
  exact ⟨feasible, follows, value ▸ objective⟩

/-- What a leaf stands for costs its objective value. -/
theorem cost_of_leaf (h : e.Faithful p.model) (leaf : Leaf (p.model.root e) s) :
    p.Feasible (p.decoded s.value) ∧ p.cost? (p.decoded s.value) = some s.objective := by
  obtain ⟨feasible, follows, objective⟩ := follows_of_leaf h leaf
  exact ⟨feasible, by rw [cost?_eq feasible.length_eq feasible.known, objective, follows.total]⟩

/-! ## An assignment for every plan -/

/-- The assignment that follows a plan. -/
def assignment (p : Instance) (plan : Plan) : Assignment := fun v =>
  if v < p.horizon then code (plan[v]?.getD none)
  else if v < p.numPlanned then
    if plan[(v - p.horizon) % p.horizon]? = some (some ((v - p.horizon) / p.horizon)) then 1 else 0
  else [p.stockingOf plan, p.changeoverOf plan, p.stockingOf plan + p.changeoverOf plan].getD
    (v - p.numPlanned) 0

theorem assignment_cost (k : Nat) : p.assignment plan (p.numPlanned + k) =
    [p.stockingOf plan, p.changeoverOf plan, p.stockingOf plan + p.changeoverOf plan].getD k 0 := by
  have late : p.numPlanned ≤ p.numPlanned + k := Nat.le_add_right _ _
  have early : p.horizon ≤ p.numPlanned := Nat.le_add_right _ _
  unfold assignment
  rw [if_neg (Nat.not_lt_of_le (Nat.le_trans early late)), if_neg (Nat.not_lt_of_le late),
    Nat.add_sub_cancel_left]

theorem follows_assignment (length : plan.length = p.horizon) : p.Follows (p.assignment plan) plan where
  plans := by
    refine List.ext_getElem? fun t => ?_
    by_cases ht : t < p.horizon
    · have := List.getElem?_eq_getElem (length.symm ▸ ht)
      simp [Instance.plan, periods, planned, ht, assignment, this]
    · rw [List.getElem?_eq_none_iff.mpr, List.getElem?_eq_none_iff.mpr] <;>
        simp [Instance.plan, periods, length, Nat.le_of_not_lt ht]
  indicated i t x hi hx := by
    have ht : t < p.horizon := length ▸ (List.getElem?_eq_some_iff.mp hx).1
    obtain ⟨above, below⟩ := indicator_bounds hi ht
    have position : p.indicator i t - p.horizon = p.horizon * i + t := by
      rw [indicator, Nat.add_assoc, Nat.add_sub_cancel_left, Nat.mul_comm]
    have row : (p.horizon * i + t) / p.horizon = i := by
      rw [Nat.mul_add_div (Nat.pos_of_ne_zero p.data.periods), Nat.div_eq_of_lt ht, Nat.add_zero]
    have column : (p.horizon * i + t) % p.horizon = t := by
      rw [Nat.mul_add_mod, Nat.mod_eq_of_lt ht]
    unfold assignment
    rw [if_neg (Nat.not_lt_of_le above), if_pos below, position, row, column, hx]
    simp only [Option.some.injEq]
  stocking := assignment_cost 0
  changeover := assignment_cost 1
  total := assignment_cost 2

theorem code_bounds {x : Option Nat} (known : ∀ item, x = some item → item < p.numItems) :
    idle ≤ code x ∧ code x ≤ (p.numItems : Int) - 1 := by
  unfold idle
  cases x with
  | none =>
    change (-1 : Int) ≤ -1 ∧ (-1 : Int) ≤ _
    omega
  | some item =>
    have := known item rfl
    change (-1 : Int) ≤ (item : Int) ∧ (item : Int) ≤ _
    omega

/-- **A feasible plan has an assignment that no constraint takes away**, with its cost as the objective. -/
theorem exists_spared (h : e.Faithful p.model) (feasible : p.Feasible plan) :
    ∃ a, e.Spares a ∧ e.store.Admits a ∧ p.cost? plan = some (a p.total) := by
  have follows := follows_assignment feasible.length_eq
  have stocking := feasible.stocking_le
  have changeover := changeoverOf_bounds feasible.length_eq
  refine ⟨p.assignment plan, h.spares _ (follows.holds feasible), h.spans.admits_iff.mpr
    fun v lower upper hv => ?_, by rw [cost?_eq feasible.length_eq feasible.known, follows.total]⟩
  have hlt := (List.getElem?_eq_some_iff.mp hv).1
  rw [length_ranges] at hlt
  rcases var_cases hlt with ⟨t, ht, heq⟩ | ⟨i, t, hi, ht, heq⟩ | heq | heq | heq <;> rw [heq] at hv ⊢
  · rw [ranges_planned ht] at hv
    cases hv
    have hx := List.getElem?_eq_getElem (feasible.length_eq.symm ▸ ht)
    rw [follows.planned_eq hx]
    exact code_bounds fun item hitem => feasible.known item (hitem ▸ List.mem_of_getElem? hx)
  · rw [ranges_indicator hi ht] at hv
    cases hv
    rw [follows.indicated i t _ hi (List.getElem?_eq_getElem (feasible.length_eq.symm ▸ ht))]
    split <;> decide
  · cases (ranges_cost 0).symm.trans hv
    rw [follows.stocking]
    exact stocking
  · cases (ranges_cost 1).symm.trans hv
    rw [follows.changeover]
    exact changeover
  · cases (ranges_cost 2).symm.trans hv
    rw [follows.total]
    omega

/-! ## Searches and portfolios -/

/-- **What a leaf stands for is a schedule that is right.** -/
theorem right_of_leaf (h : e.Faithful p.model) (leaf : Leaf (p.model.root e) s) :
    (p.schedule s).Right p ∧ s.objective = (p.schedule s).totalCost := by
  obtain ⟨feasible, follows, objective⟩ := follows_of_leaf h leaf
  obtain ⟨charges, hcharges, sum⟩ := exists_charges feasible.known
  have found : (p.schedule s).charges = charges := congrArg (·.getD []) hcharges
  refine ⟨⟨feasible, ?_, ?_, ?_, ?_⟩, rfl⟩
  · exact (stockingCost?_eq feasible.length_eq feasible.known).trans (congrArg some follows.stocking.symm)
  · rw [found]
    exact hcharges
  · rw [found, sum]
    exact follows.changeover.symm
  · change s.objective = s.value p.stocking + s.value p.changeover
    rw [objective, follows.total, follows.stocking, follows.changeover]

/-- **Every solution is a schedule that is right.**  The model can be loaded, and in every session with a
search of it, all runs end well, and every solution stands for a feasible plan with its costs, which pass the
check, and with their sum as the objective. -/
theorem solution_right (p : Instance) : ∃ e, p.model.load = .ok e ∧
    ∀ (seed : Nat) (s : Search Constraint) (log : List Entry),
      Session (Search.start e p.model.objective p.model.decisions seed) s log →
        (∀ (κ : Type) [Stopping κ] (condition : κ), ∃ r, s.run condition = .ok () r) ∧
        ∀ solution, .solution solution ∈ log →
          (p.schedule solution).Right p ∧ solution.objective = (p.schedule solution).totalCost ∧
            (p.schedule solution).check p = .ok none := by
  obtain ⟨e, load, faithful⟩ := exists_load (p := p)
  have he := faithful.made.valid
  refine ⟨e, load, fun seed s log session => ?_⟩
  change Session ((p.model.root e).search seed) s log at session
  refine ⟨fun κ _ condition => session.exists_run he (faithful.flawless (decisive faithful)) condition,
    fun solution hsolution => ?_⟩
  obtain ⟨right, objective⟩ := right_of_leaf faithful ((session.inv he).2.2.leaves solution hsolution)
  exact ⟨right, objective, right.check_eq⟩

/-- **What is proven optimal is the least cost of a feasible plan**, and an instance is infeasible only if
there is none, whatever the options and the signals are. -/
theorem solve_optimal (p : Instance) (o : Options) {ε σ : Type} {ask : EStateM ε σ Signals}
    {tell : Progress → EStateM ε σ Unit} {env env' : σ} {result : Except SolverError Outcome}
    (h : Portfolio.solve o p.model ask tell env = .ok result env') :
    (∀ outcome, result = .ok outcome → outcome.provenOptimal = true → ∃ best, outcome.best = some best ∧
      IsLeast {x | ∃ plan, p.Feasible plan ∧ p.cost? plan = some x} best.objective) ∧
    (result = .error .infeasible → ∀ plan, ¬ p.Feasible plan) := by
  obtain ⟨e, load, faithful⟩ := exists_load (p := p)
  have answers := (Portfolio.ends_solve load faithful.made.valid
    (faithful.flawless (decisive faithful)) env).of_ok h
  have encode (x : Int) (hx : x ∈ {x | ∃ plan, p.Feasible plan ∧ p.cost? plan = some x}) :
      ∃ a, e.Spares a ∧ e.store.Admits a ∧ a p.total = x := by
    obtain ⟨plan, feasible, cost⟩ := hx
    obtain ⟨a, spared, admitted, value⟩ := exists_spared faithful feasible
    exact ⟨a, spared, admitted, Option.some.inj (value.symm.trans cost)⟩
  obtain ⟨proven, infeasible⟩ := answers.isLeast encode fun s leaf => ⟨_, cost_of_leaf faithful leaf⟩
  refine ⟨proven, fun hresult plan feasible => ?_⟩
  obtain ⟨a, -, -, cost⟩ := exists_spared faithful feasible
  exact Set.eq_empty_iff_forall_notMem.mp (infeasible hresult) _ ⟨plan, feasible, cost⟩

/-- Two items that are both due by the second period; to begin with the second costs more stocking and less for
the changeover. -/
def twoItems : Instance where
  changeovers := ⟨2, 2, #[0, 5, 3, 0], rfl⟩
  stockingCosts := [1, 2]
  demands := ⟨2, 2, #[0, 1, 0, 1], rfl⟩
  sound := by decide

theorem solve_optimal_twoItems : ∃ outcome best,
    (Portfolio.solve { numWorkers := 2 } twoItems.model (pure {}) (fun _ => pure ⟨⟩) :
      EStateM Unit Unit _) () = .ok (.ok outcome) () ∧ outcome.provenOptimal = true ∧
        outcome.best = some best ∧ best.objective = 5 ∧
        IsLeast {x | ∃ plan, twoItems.Feasible plan ∧ twoItems.cost? plan = some x} 5 := by
  have answer : (match (Portfolio.solve { numWorkers := 2 } twoItems.model (pure {}) (fun _ => pure ⟨⟩) :
      EStateM Unit Unit _) () with
    | .ok (.ok outcome) _ =>
      decide (outcome.provenOptimal = true ∧ outcome.best.map Reported.objective = some 5)
    | _ => false) = true := by decide +kernel
  split at answer
  · rename_i outcome env h
    obtain ⟨proven, objective⟩ := of_decide_eq_true answer
    obtain ⟨best, hbest, least⟩ := (solve_optimal twoItems _ h).1 outcome rfl proven
    rw [hbest] at objective
    have five : best.objective = 5 := Option.some.inj objective
    exact ⟨outcome, best, h, proven, hbest, five, five ▸ least⟩
  · cases answer

end Instance
end BranchBound.LotSizing
