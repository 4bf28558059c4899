import BranchBound.Proofs.Portfolio
import BranchBound.Proofs.Routing.Model
import BranchBound.Proofs.Routing.Tour

/-! # Tours are found exactly

Every leaf of a search takes a route within the windows (`exists_route_of_leaf`), and every feasible order
has an assignment that no constraint takes away (`exists_spared`).  So every solution of a search is a legal
tour whose objective is its makespan (`solution_legal`), and **what a portfolio proves optimal is the least
duration of a feasible order** (`solve_exact`). -/
namespace BranchBound.Routing
namespace Instance
open Search

variable {p : Instance} {e : Engine Constraint} {s : Solution} {order : List Nat}

theorem decisive (h : e.Faithful p.model) : e.Decisive p.model where
  objective_lt := known_makespan h.spans
  decisions_lt v hv := known_of_mem h.spans (List.mem_toArray.mpr hv)
  all_fixed e' run fixed := by
    obtain ⟨order, -, all⟩ := exists_route_of_quiet h run fun i hi =>
      fixed _ (List.mem_map_of_mem (mem_nodes.mpr hi))
    exact all

/-- **A leaf takes a route within the windows.** -/
theorem exists_route_of_leaf (h : e.Faithful p.model) (leaf : Leaf (p.model.root e) s) :
    ∃ order, p.Route s.value order ∧ (∀ i, i < p.numNodes → p.reaching s.value i ≤ (p.window i).latest) ∧
      s.objective = s.value p.makespan := by
  have admits := (h.spans.admits_iff).mp (leaf.admits h.made.valid)
  obtain ⟨e', run, fixed, value, objective⟩ := leaf.value_eq
  have numVars : e'.store.numVars = 2 * p.numNodes :=
    (run.inside h.made.valid).numVars_eq.trans (numVars_eq h.spans)
  obtain ⟨order, route, -⟩ := exists_route_of_quiet h run fun i hi =>
    fixed i (numVars ▸ Nat.lt_of_lt_of_le hi (Nat.le_mul_of_pos_left _ Nat.two_pos))
  refine ⟨order, value ▸ route, fun i hi => ?_, objective⟩
  unfold reaching
  split
  · rename_i heq
    have := (admits _ _ _ ranges_makespan).2
    rw [heq]
    omega
  · rename_i hne
    exact (admits _ _ _ (ranges_arrivalTime hi hne)).2

/-- **A feasible order has an assignment that no constraint takes away**, with its duration as the
objective. -/
theorem exists_spared (h : e.Faithful p.model) (feasible : p.Feasible order) :
    ∃ a, e.Spares a ∧ e.store.Admits a ∧ a p.makespan = p.duration order := by
  obtain ⟨a, route, nodes, windows⟩ := exists_route feasible
  refine ⟨a, h.spares a route.holds, h.spans.admits_iff.mpr fun v lower upper hv => ?_, route.duration_eq.symm⟩
  have hlt := (List.getElem?_eq_some_iff.mp hv).1
  rw [length_ranges] at hlt
  rcases var_cases hlt with ⟨i, hi, heq⟩ | ⟨i, hi, hd, heq⟩ | heq <;> rw [heq] at hv ⊢
  · rw [ranges_predecessor hi] at hv
    obtain ⟨j, hj, heq⟩ := nodes i hi
    cases hv
    omega
  · rw [ranges_arrivalTime hi hd] at hv
    have := windows i hi
    rw [reaching, if_neg hd] at this
    cases hv
    exact this
  · rw [ranges_makespan] at hv
    have := windows depot depot_lt
    rw [reaching, if_pos rfl] at this
    cases hv
    unfold start at *
    omega

/-- **Every solution is a legal tour.**  The model can be loaded, and in every session with a search of it, all
runs end well, and all solutions are legal tours that pass the check, with their makespan as the objective. -/
theorem solution_legal (p : Instance) : ∃ e, p.model.load = .ok e ∧
    ∀ (seed : Nat) (s : Search Constraint) (log : List Entry),
      Session (Search.start e p.model.objective p.model.decisions seed) s log →
        (∀ (κ : Type) [Stopping κ] (condition : κ), ∃ r, s.run condition = .ok () r) ∧
        ∀ solution, .solution solution ∈ log →
          (p.tour solution).Legal p ∧ solution.objective = (p.tour solution).makespan ∧
            (p.tour solution).defect? p = .ok none := by
  obtain ⟨e, load, faithful⟩ := exists_load (p := p)
  have he := faithful.made.valid
  refine ⟨e, load, fun seed s log session => ?_⟩
  change Session ((p.model.root e).search seed) s log at session
  refine ⟨fun κ _ condition => session.exists_run he (faithful.flawless (decisive faithful)) condition,
    fun solution hsolution => ?_⟩
  have leaf := (session.inv he).2.2.leaves solution hsolution
  obtain ⟨order, route, onTime, objective⟩ := exists_route_of_leaf faithful leaf
  have legal := route.legal onTime
  exact ⟨legal, objective, legal.defect?_eq⟩

/-- **What is proven optimal is the least duration of a feasible order**, and an instance is infeasible only if
there is none, whatever the options and the signals are. -/
theorem solve_exact (p : Instance) (o : Options) {ε σ : Type} {ask : EStateM ε σ Signals}
    {tell : Progress → EStateM ε σ Unit} {env env' : σ} {result : Except SolverError Outcome}
    (h : Portfolio.solve o p.model ask tell env = .ok result env') :
    (∀ outcome, result = .ok outcome → outcome.provenOptimal = true → ∃ best, outcome.best = some best ∧
      IsLeast {x | ∃ order, p.Feasible order ∧ p.duration order = x} best.objective) ∧
    (result = .error .infeasible → ∀ order, ¬ p.Feasible order) := by
  obtain ⟨e, load, faithful⟩ := exists_load (p := p)
  have answers := (Portfolio.ends_solve load faithful.made.valid
    (faithful.flawless (decisive faithful)) env).of_ok h
  have encode (x : Int) (hx : x ∈ {x | ∃ order, p.Feasible order ∧ p.duration order = x}) :
      ∃ a, e.Spares a ∧ e.store.Admits a ∧ a p.makespan = x := by
    obtain ⟨order, feasible, rfl⟩ := hx
    exact exists_spared faithful feasible
  have decode (s : Solution) (leaf : Leaf (p.model.root e) s) :
      ∃ order, p.Feasible order ∧ p.duration order = s.objective := by
    obtain ⟨order, route, onTime, objective⟩ := exists_route_of_leaf faithful leaf
    exact ⟨order, route.feasible onTime, by rw [route.duration_eq, objective]⟩
  obtain ⟨proven, infeasible⟩ := answers.isLeast encode decode
  refine ⟨proven, fun hresult order feasible => ?_⟩
  exact Set.eq_empty_iff_forall_notMem.mp (infeasible hresult) _ ⟨order, feasible, rfl⟩

/-- Two cities, of which the second is reached before it opens; the other order is late for the first. -/
def twoCities : Instance where
  distances := ⟨3, 3, #[0, 2, 9, 2, 0, 3, 4, 3, 0], rfl⟩
  windows := [⟨0, 20⟩, ⟨0, 10⟩, ⟨6, 15⟩]
  sound := by decide

theorem solve_exact_twoCities : ∃ outcome best,
    (Portfolio.solve { numWorkers := 2 } twoCities.model (pure {}) (fun _ => pure ⟨⟩) :
      EStateM Unit Unit _) () = .ok (.ok outcome) () ∧ outcome.provenOptimal = true ∧
        outcome.best = some best ∧ best.objective = 10 ∧
        IsLeast {x | ∃ order, twoCities.Feasible order ∧ twoCities.duration order = x} 10 := by
  have answer : (match (Portfolio.solve { numWorkers := 2 } twoCities.model (pure {}) (fun _ => pure ⟨⟩) :
      EStateM Unit Unit _) () with
    | .ok (.ok outcome) _ =>
      decide (outcome.provenOptimal = true ∧ outcome.best.map Reported.objective = some 10)
    | _ => false) = true := by decide +kernel
  split at answer
  · rename_i outcome env h
    obtain ⟨proven, objective⟩ := of_decide_eq_true answer
    obtain ⟨best, hbest, least⟩ := (solve_exact twoCities _ h).1 outcome rfl proven
    rw [hbest] at objective
    have ten : best.objective = 10 := Option.some.inj objective
    exact ⟨outcome, best, h, proven, hbest, ten, ten ▸ least⟩
  · cases answer

end Instance
end BranchBound.Routing
