import BranchBound.Proofs.Merging

/-! # Decisions and budgets

The condition of a search is asked where propagation has come to rest, so a new choice point is opened
within the budget only.  On the way back from a refutation the next value of a choice point is decided
without asking: **a budget can be overrun** (`limit_overrun`).  But each of these decisions uses up a value
that was left to be tried at a choice point, so the decisions made and the values left to be tried are
together never more than the budget and what the choice points of one path can hold (`ends_run_within`).
**That much, and no more, do workers exceed their limits** (`decisions_le`). -/
namespace BranchBound

/-! ## Conditions that stop in time -/

namespace Condition

/-- The condition stops a search after so many decisions, if not before. -/
def StopsAfter (n : Nat) (c : Condition) : Prop := ∀ k, n ≤ k → (decided^[k] c).shouldStop = true

theorem StopsAfter.mono {n n' : Nat} {c : Condition} (h : c.StopsAfter n) (le : n ≤ n') :
    c.StopsAfter n' := fun k hk => h k (Nat.le_trans le hk)

theorem StopsAfter.decided {n k : Nat} {c : Condition} (h : c.StopsAfter n) :
    (Condition.decided^[k] c).StopsAfter (n - k) := by
  intro j hj
  rw [← Function.iterate_add_apply]
  exact h (j + k) (by omega)

theorem StopsAfter.shouldStop {c : Condition} (h : c.StopsAfter 0) : c.shouldStop = true :=
  h 0 (Nat.le_refl 0)

theorem stopsAfter_decisions (budget made : Nat) : (decisions budget made).StopsAfter (budget - made) := by
  have iterate (k : Nat) : decided^[k] (decisions budget made) = decisions budget (made + k) := by
    induction k with
    | zero => rfl
    | succ k ih =>
      rw [Function.iterate_succ_apply', ih]
      rfl
  intro k hk
  rw [iterate]
  exact decide_eq_true (by omega)

theorem stopsAfter_budget (limit : Nat) : (budget limit).StopsAfter limit := stopsAfter_decisions limit 0

theorem StopsAfter.either {n : Nat} {first : Condition} (h : first.StopsAfter n) (second : Condition) :
    (Condition.either first second).StopsAfter n := by
  have iterate (k : Nat) : Condition.decided^[k] (.either first second) =
      .either (Condition.decided^[k] first) (Condition.decided^[k] second) := by
    induction k with
    | zero => rfl
    | succ k ih =>
      rw [Function.iterate_succ_apply', ih, Function.iterate_succ_apply', Function.iterate_succ_apply']
      rfl
  intro k hk
  rw [iterate]
  unfold Condition.shouldStop
  rw [h k hk, Bool.true_or]

end Condition

/-- The condition of a round stops when the budget of the round is spent. -/
theorem Worker.stopsAfter_roundCondition (limits : Limits) (budget worker : Nat) :
    (roundCondition limits budget worker).StopsAfter budget := by
  unfold roundCondition
  split
  · exact ((Condition.stopsAfter_budget budget).either _).either _
  · exact (Condition.stopsAfter_budget budget).either _

namespace Search
variable {π κ : Type}

/-! ## Values left to be tried -/

/-- The number of values that are left to be tried at some choice points. -/
def numUntried : List ChoicePoint → Nat
  | [] => 0
  | c :: above => c.untried.length + numUntried above

/-- What the choice points of one path can hold. -/
def Root.slack (R : Root π) : Nat := R.decisions.length * (R.breadth - 1)

theorem Ladder.numUntried_le {decisions : List Var} {base level breadth : Nat} {s : Space}
    {cs : List ChoicePoint} (h : Ladder decisions base s cs level)
    (width : ∀ v ∈ decisions, (s.store.domain v).width ≤ breadth) :
    numUntried cs ≤ cs.length * (breadth - 1) := by
  induction h with
  | nil => exact Nat.zero_le _
  | @cons c above _ rung ih =>
    have length := Nat.le_trans rung.length_le (width _ rung.mem)
    unfold numUntried
    rw [List.length_cons, Nat.succ_mul]
    omega

theorem Inv.numUntried_le [Propagator π] [LawfulPropagator π] {R : Root π} {s : Search π} {p : Phase}
    (hR : R.engine.Valid) (h : Inv R s p) : numUntried s.choicePoints ≤ R.slack := by
  obtain ⟨⟨m, stands, -⟩, -⟩ := h
  have width (v : Var) (hv : v ∈ R.decisions) : (s.store.domain v).width ≤ R.breadth :=
    Nat.le_trans (Nat.le_of_eq ((stands.inside hR).width_eq v)) (Root.width_le_breadth hv)
  exact Nat.le_trans (stands.ladder.numUntried_le width)
    (Nat.mul_le_mul_right _ stands.ladder.length_le)

/-! ## Operations and the decisions that they make -/

/-- The number of decisions that were made. -/
def Run.made (r : Run π κ) : Nat := r.search.counts.numDecisions

/-- What is left alone by operations that decide nothing. -/
structure Undecided (r r' : Run π κ) : Prop where
  made_eq : r'.made = r.made
  choicePoints_eq : r'.search.choicePoints = r.search.choicePoints
  condition_eq : r'.condition = r.condition

theorem Undecided.refl (r : Run π κ) : Undecided r r := ⟨rfl, rfl, rfl⟩

theorem Undecided.trans {r r' r'' : Run π κ} (h : Undecided r r') (h' : Undecided r' r'') :
    Undecided r r'' :=
  ⟨h'.made_eq.trans h.made_eq, h'.choicePoints_eq.trans h.choicePoints_eq,
    h'.condition_eq.trans h.condition_eq⟩

/-- What operations make of a run that decide a number of times. -/
structure Decides [Stopping κ] (n : Nat) (r r' : Run π κ) : Prop where
  made_eq : r'.made = r.made + n
  condition_eq : r'.condition = Stopping.decided^[n] r.condition

theorem Undecided.decides [Stopping κ] {r r' : Run π κ} (h : Undecided r r') : Decides 0 r r' :=
  ⟨h.made_eq, h.condition_eq⟩

theorem Decides.trans [Stopping κ] {n n' : Nat} {r r' r'' : Run π κ} (h : Decides n r r')
    (h' : Decides n' r' r'') : Decides (n + n') r r'' := by
  refine ⟨by rw [h'.made_eq, h.made_eq, Nat.add_assoc], ?_⟩
  rw [h'.condition_eq, h.condition_eq, ← Function.iterate_add_apply, Nat.add_comm]

/-- An operation decides nothing, whether it ends well or not. -/
def DecidesNothing {α : Type} (m : Step π κ α) : Prop :=
  ∀ r, Ends (m r) (fun _ => Undecided r) (fun _ => Undecided r)

section
variable {α β : Type} {m : Step π κ α} {f : α → Step π κ β}

theorem DecidesNothing.bind (h : DecidesNothing m) (hf : ∀ a, DecidesNothing (f a)) :
    DecidesNothing (m >>= f) := fun r =>
  (h r).bind fun a t before => (hf a t).mono (fun _ _ => before.trans) fun _ _ => before.trans

theorem decidesNothing_pure (a : α) : DecidesNothing (pure a : Step π κ α) := Undecided.refl

theorem decidesNothing_throw (cause : SearchError) : DecidesNothing (throw cause : Step π κ α) :=
  Undecided.refl

theorem decidesNothing_current : DecidesNothing (current : Step π κ (Search π)) := Undecided.refl

theorem decidesNothing_onSearch {g : Search π → Search π}
    (made : ∀ s, (g s).counts.numDecisions = s.counts.numDecisions)
    (choicePoints : ∀ s, (g s).choicePoints = s.choicePoints) :
    DecidesNothing (onSearch g : Step π κ Unit) := fun _ => ⟨made _, choicePoints _, rfl⟩

theorem decidesNothing_narrow (f : Store.Narrowing) : DecidesNothing (narrow f : Step π κ _) := by
  refine decidesNothing_current.bind fun s => ?_
  cases f s.store with
  | ok changed store =>
    exact .bind (decidesNothing_onSearch (fun _ => rfl) fun _ => rfl) fun _ => decidesNothing_pure _
  | error halt store =>
    cases halt with
    | inconsistent cause =>
      exact .bind (decidesNothing_onSearch (fun _ => rfl) fun _ => rfl) fun _ => decidesNothing_pure _
    | fault cause =>
      refine .bind (.bind (decidesNothing_onSearch (fun _ => rfl) fun _ => rfl) fun _ => ?_) fun _ => ?_
      · exact decidesNothing_pure _
      · exact decidesNothing_throw _

theorem decidesNothing_refuted (source : Option Nat) : DecidesNothing (refuted source : Step π κ Unit) := by
  unfold refuted count
  refine .bind (decidesNothing_onSearch (fun _ => rfl) fun _ => rfl) fun _ => ?_
  exact decidesNothing_current.bind fun _ => decidesNothing_onSearch (fun _ => rfl) fun _ => rfl

theorem decidesNothing_bound : DecidesNothing (bound : Step π κ Bool) := by
  refine decidesNothing_current.bind fun s => ?_
  cases s.best with
  | none => exact decidesNothing_pure _
  | some best =>
    refine (decidesNothing_narrow _).bind fun answer => ?_
    cases answer with
    | ok changed => exact decidesNothing_pure _
    | error cause => exact (decidesNothing_refuted none).bind fun _ => decidesNothing_pure _

theorem decidesNothing_record : DecidesNothing (record : Step π κ Unit) := by
  refine decidesNothing_current.bind fun s => ?_
  cases Solution.unfixed? s.store with
  | some v => exact decidesNothing_throw _
  | none =>
    cases Solution.ofStore s.store s.objective with
    | error cause => exact decidesNothing_throw _
    | ok solution =>
      refine .bind (decidesNothing_onSearch (fun _ => rfl) fun _ => rfl) fun _ => ?_
      refine .bind (decidesNothing_onSearch (fun _ => rfl) fun _ => rfl) fun _ => ?_
      refine .bind (decidesNothing_onSearch (fun s => ?_) fun s => choicePoints_tighten) fun _ r => ?_
      · exact congrArg Statistics.numDecisions counts_tighten
      · rw [ends_modify]
        exact ⟨rfl, rfl, rfl⟩

variable [Propagator π]

theorem decidesNothing_propagate : DecidesNothing (propagate : Step π κ Bool) := by
  refine decidesNothing_bound.bind fun bounded => ?_
  cases bounded with
  | false => exact decidesNothing_pure _
  | true =>
    refine decidesNothing_current.bind fun s => ?_
    have engine (e : Engine π) : DecidesNothing (onSearch ({ · with engine := e }) : Step π κ Unit) :=
      decidesNothing_onSearch (fun _ => rfl) fun _ => rfl
    cases s.engine.propagate with
    | ok _ e => exact (engine e).bind fun _ => decidesNothing_pure _
    | error failure e =>
      cases failure with
      | refuted source cause =>
        exact (engine e).bind fun _ => (decidesNothing_refuted source).bind fun _ => decidesNothing_pure _
      | fault cause => exact (engine e).bind fun _ => decidesNothing_throw _

theorem decidesNothing_refute (c : ChoicePoint) : DecidesNothing (refute c : Step π κ Bool) := by
  refine decidesNothing_current.bind fun s => ?_
  cases s.engine.restore c.checkpoint with
  | error cause => exact decidesNothing_throw _
  | ok engine =>
    refine .bind (decidesNothing_onSearch (fun _ => rfl) fun _ => rfl) fun _ => ?_
    refine (decidesNothing_narrow _).bind fun answer => ?_
    cases answer with
    | ok changed => exact decidesNothing_propagate
    | error cause => exact (decidesNothing_refuted none).bind fun _ => decidesNothing_pure _

end

section
variable [Stopping κ] {r : Run π κ}

/-- **A decision counts when it is made**, and the condition is told of it. -/
theorem ends_decide_decides (v : Var) (value : Int) :
    Ends (decide v value r) (fun _ r' => Decides 1 r r' ∧ r'.search.choicePoints = r.search.choicePoints)
      (fun _ r' => r'.made = r.made) := by
  have opened : DecidesNothing (onSearch fun s => { s with engine := s.engine.checkpoint } : Step π κ Unit) :=
    decidesNothing_onSearch (fun _ => rfl) fun _ => rfl
  have narrowed := opened.bind fun _ => decidesNothing_narrow (Store.assign v value)
  unfold decide
  rw [← bind_assoc]
  refine ((narrowed r).mono (fun _ _ => id) fun _ _ h => h.made_eq).bind fun answer t before => ?_
  cases answer with
  | error cause => exact before.made_eq
  | ok changed =>
    refine ⟨⟨congrArg (· + 1) before.made_eq, ?_⟩, before.choicePoints_eq⟩
    change Stopping.decided t.condition = Stopping.decided r.condition
    rw [before.condition_eq]

/-- A new choice point is opened by one decision. -/
theorem ends_branch_decides :
    Ends (branch r) (fun _ => Decides 1 r) (fun _ r' => r'.made = r.made) := by
  refine ends_branch_of (fun _ _ => rfl) (fun _ _ => rfl) (fun _ _ _ _ _ => rfl)
    fun v selector source value rest _ _ => ?_
  exact (ends_decide_decides v value).mono (fun _ r' h => ⟨h.1.made_eq, h.1.condition_eq⟩) fun _ _ h => h

variable [Propagator π]

/-- **On the way back, a decision uses up a value that was to be tried.** -/
theorem ends_backtrack_decides {cs : List ChoicePoint} (hcs : r.search.choicePoints = cs) :
    Ends (backtrack cs r)
      (fun p r' => p ≠ .branching ∧ (∃ n, Decides n r r') ∧
        r'.made + numUntried r'.search.choicePoints ≤ r.made + numUntried cs)
      (fun _ r' => r'.made = r.made) := by
  -- a choice point that is left takes its untried values with it; one that goes on uses one of them
  induction cs generalizing r with
  | nil => exact ⟨Phase.noConfusion, ⟨0, rfl, rfl⟩, by rw [hcs]⟩
  | cons c above ih =>
    refine ends_backtrack_cons ((decidesNothing_refute c r).mono
      (fun _ t before => ⟨fun _ => ?_, fun d _ next => ?_⟩) fun _ _ h => h.made_eq)
    · have passed : Decides 0 r (t.withChoicePoints above) := ⟨before.made_eq, before.condition_eq⟩
      refine (ih (r := t.withChoicePoints above) rfl).mono ?_ fun _ _ h => h.trans before.made_eq
      rintro p r' ⟨other, ⟨n, decides⟩, le⟩
      refine ⟨other, ⟨_, passed.trans decides⟩, Nat.le_trans le ?_⟩
      rw [passed.made_eq]
      exact Nat.add_le_add_left (Nat.le_add_left _ _) _
    · obtain ⟨-, -, -, suffix, -⟩ := ChoicePoint.advance?_eq_some next
      have less : d.untried.length + 1 ≤ c.untried.length := suffix.length_le
      have passed : Decides 0 r (t.withChoicePoints (d :: above)) :=
        ⟨before.made_eq, before.condition_eq⟩
      refine (ends_decide_decides (r := t.withChoicePoints (d :: above)) d.decision d.current).mono
        (fun _ r' h => ?_) fun _ _ h => h.trans before.made_eq
      obtain ⟨decides, choicePoints⟩ := h
      refine ⟨Phase.noConfusion, ⟨_, passed.trans decides⟩, ?_⟩
      rw [choicePoints, decides.made_eq, passed.made_eq]
      change r.made + 0 + 1 + (d.untried.length + numUntried above) ≤
        r.made + (c.untried.length + numUntried above)
      omega

end

variable [Propagator π]

/-- What a step decides.  A step that branches makes one decision; no other step makes the decisions made
and the values left to be tried more.  The search branches only if the condition does not stop it. -/
structure Advances (r r' : Run π) : Prop where
  decides : ∃ n, Decides n r r' ∧ (r.search.phase = .branching → n = 1)
  uses : r.search.phase ≠ .branching → r'.made + numUntried r'.search.choicePoints ≤
    r.made + numUntried r.search.choicePoints
  branching : r'.search.phase = .branching → r'.made = r.made ∧ r.condition.shouldStop = false

omit [Propagator π] in
theorem Undecided.advances {r t : Run π} {p : Phase} (h : Undecided r t)
    (other : r.search.phase ≠ .branching) (goes : p = .branching → r.condition.shouldStop = false) :
    Advances r { t with search := { t.search with phase := p } } where
  decides := ⟨0, ⟨h.made_eq, h.condition_eq⟩, fun phase => absurd phase other⟩
  uses _ := Nat.le_of_eq (congrArg₂ (· + numUntried ·) h.made_eq h.choicePoints_eq)
  branching phase := ⟨h.made_eq, goes phase⟩

theorem ends_step_advances (r : Run π) : Ends (step r) (fun _ => Advances r) (fun _ r' => r'.made = r.made) := by
  cases phase : r.search.phase with
  | propagating =>
    have other : r.search.phase ≠ .branching := by rw [phase]; exact Phase.noConfusion
    rw [step_of_propagating phase]
    refine ((decidesNothing_propagate r).mono (fun _ _ => id) fun _ _ h => h.made_eq).bind
      fun ok t before => ?_
    rw [ends_bind, ends_enter]
    exact before.advances other fun branching => by cases ok <;> cases branching
  | quiescent =>
    have other : r.search.phase ≠ .branching := by rw [phase]; exact Phase.noConfusion
    have asked : Undecided r { r with condition := (Stopping.ask r.condition).2 } := ⟨rfl, rfl, rfl⟩
    cases stop : (Stopping.ask r.condition).1 with
    | true =>
      rw [step_of_asked phase stop]
      exact asked.advances other Phase.noConfusion
    | false =>
      rw [step_of_quiescent phase stop]
      cases allFixed r.search.store r.search.decisions with
      | error cause => rfl
      | ok fixed => exact asked.advances other fun _ => stop
  | branching =>
    rw [step_of_branching phase]
    refine ends_branch_decides.bind fun _ t decides => ?_
    rw [ends_bind, ends_enter]
    exact ⟨⟨1, ⟨decides.made_eq, decides.condition_eq⟩, fun _ => rfl⟩, fun other => absurd phase other,
      Phase.noConfusion⟩
  | complete =>
    have other : r.search.phase ≠ .branching := by rw [phase]; exact Phase.noConfusion
    rw [step_of_complete phase]
    refine ((decidesNothing_record r).mono (fun _ _ => id) fun _ _ h => h.made_eq).bind
      fun _ t before => ?_
    rw [ends_bind, ends_enter]
    exact before.advances other Phase.noConfusion
  | failed =>
    have other : r.search.phase ≠ .branching := by rw [phase]; exact Phase.noConfusion
    rw [step_of_failed phase]
    refine (ends_backtrack_decides rfl).bind fun p t h => ?_
    obtain ⟨going, ⟨n, decides⟩, le⟩ := h
    rw [ends_bind, ends_enter]
    exact ⟨⟨n, ⟨decides.made_eq, decides.condition_eq⟩, fun branching => absurd branching other⟩,
      fun _ => le, fun branching => absurd branching going⟩
  | exhausted =>
    rw [step_of_exhausted phase]
    refine ⟨⟨0, ⟨rfl, rfl⟩, fun branching => ?_⟩, fun _ => Nat.le_refl _, fun branching => ?_⟩
    · rw [phase] at branching
      cases branching
    · rw [phase] at branching
      cases branching

/-! ## Runs within a budget -/

section
variable [LawfulPropagator π] {R : Root π} {first : Option Int} {budget limit : Nat} {r : Run π}

/-- The invariant of a run that is to stop when `budget` decisions are made in all: with the values that are
left to be tried, the decisions exceed a limit that is not lower by no more than the slack. -/
structure Run.Within (R : Root π) (first : Option Int) (budget limit : Nat) (r : Run π) : Prop where
  inv : Run.Inv R first r
  stops : r.condition.StopsAfter (budget - r.made)
  made_le : r.made + numUntried r.search.choicePoints ≤ limit + R.slack
  branching : r.search.phase = .branching → r.made < budget

theorem ends_step_within (hR : R.engine.Valid) (le : budget ≤ limit) (h : Run.Within R first budget limit r) :
    Ends (step r) (fun _ => Run.Within R first budget limit) (fun _ r' => r'.made ≤ limit + R.slack) := by
  refine ((ends_step hR h.inv).and (ends_step_advances r)).mono ?_ fun _ _ ended => ?_
  · rintro more t ⟨⟨inv, -⟩, ⟨n, decides, single⟩, uses, branching⟩
    refine ⟨inv, ?_, ?_, fun phase => ?_⟩
    · -- the condition counts down by as much as the decisions go up
      rw [decides.made_eq, Nat.sub_add_eq, decides.condition_eq]
      exact h.stops.decided
    · by_cases phase : r.search.phase = .branching
      · -- the decision is within the budget, and no path has more values to be tried than the slack
        have open' := h.branching phase
        have made := decides.made_eq
        rw [single phase] at made
        exact Nat.add_le_add (by omega) (inv.search.numUntried_le hR)
      · exact Nat.le_trans (uses phase) h.made_le
    · -- if the budget were spent, the condition would have stopped the search
      obtain ⟨made, going⟩ := branching phase
      rw [made]
      refine Nat.not_le.mp fun spent => ?_
      have stops := h.stops
      rw [Nat.sub_eq_zero_of_le spent] at stops
      rw [stops.shouldStop] at going
      cases going
  · rw [ended.2]
    exact Nat.le_trans (Nat.le_add_right _ _) h.made_le

/-- **A run exceeds its limit by no more than the slack**, even if it breaks down. -/
theorem ends_run_within (hR : R.engine.Valid) {s : Search π} (inv : Inv R s s.phase) (rests : Rests s.phase)
    {condition : Condition} (stops : condition.StopsAfter (budget - s.counts.numDecisions))
    (le : budget ≤ limit)
    (made : s.counts.numDecisions + numUntried s.choicePoints ≤ limit + R.slack) :
    Ends (s.run condition) (fun _ => Run.Within R s.best budget limit)
      (fun _ r => r.made ≤ limit + R.slack) := by
  refine ends_descend (fun r hr => ends_step_within hR le hr) ⟨⟨inv, rfl⟩, stops, made, fun phase => ?_⟩
  rcases rests with resting | resting
  · exact Phase.noConfusion (resting.symm.trans phase)
  · exact Phase.noConfusion (resting.symm.trans phase)

end
end Search

/-! ## Workers and portfolios -/

namespace Model
variable {π : Type} [Propagator π]

/-- By how much a search of the model can exceed a limit: the number of decisions times the number of further
values of each. -/
def slack (m : Model π) : Nat :=
  match m.load with
  | .ok e => (m.root e).slack
  | .error _ => 0

theorem slack_of_load {m : Model π} {e : Engine π} (h : m.load = .ok e) : m.slack = (m.root e).slack := by
  unfold slack
  rw [h]

end Model

namespace Worker
variable {π : Type} [Propagator π] [LawfulPropagator π] {m : Model π} {w : Worker π} {limits : Limits}
  {bound : Option Int} {r : List (Reported Solution) × Worker π}

omit [Propagator π] [LawfulPropagator π] in
theorem numDecisions_of_search {s : Search π} (h : w.search = some s) :
    w.statistics.numDecisions = s.counts.numDecisions := by
  unfold statistics
  rw [h]
  rfl

omit [Propagator π] [LawfulPropagator π] in
/-- A bound changes nothing that is counted or left to be tried. -/
theorem told_eq (s : Search π) (bound : Option Int) :
    (s.told bound).counts = s.counts ∧ (s.told bound).choicePoints = s.choicePoints := by
  cases bound with
  | none => exact ⟨rfl, rfl⟩
  | some b =>
    unfold Search.told Search.tighten
    dsimp only [Option.elim]
    split
    · exact ⟨rfl, rfl⟩
    · exact ⟨rfl, rfl⟩

/-- What a worker may have decided under a limit, together with what it may still have to try. -/
structure Within (m : Model π) (limit : Nat) (w : Worker π) : Prop where
  made_le : w.statistics.numDecisions ≤ limit + m.slack
  untried_le : ∀ s, w.status = .searching → w.search = some s →
    s.counts.numDecisions + Search.numUntried s.choicePoints ≤ limit + m.slack

omit [LawfulPropagator π] in
theorem within_start (m : Model π) (id seed limit : Nat) : (start m id seed).Within m limit := by
  unfold start
  cases m.load with
  | error cause => exact ⟨Nat.zero_le _, fun _ status => by cases status⟩
  | ok e =>
    refine ⟨Nat.zero_le _, fun s _ search => ?_⟩
    cases search
    exact Nat.zero_le _

/-- A worker in a session has no more left to try than the slack. -/
theorem InSession.within {Allowed : Int → Prop} (h : w.InSession m Allowed) {limit : Nat}
    (le : w.statistics.numDecisions ≤ limit) : w.Within m limit := by
  refine ⟨Nat.le_trans le (Nat.le_add_right _ _), fun s status search => ?_⟩
  obtain ⟨e, s', seed, log, load, search', session, -⟩ := h (status ▸ fun _ h => by cases h)
  obtain rfl : s = s' := Option.some.inj (search.symm.trans search')
  have valid := (Engine.loaded_of_load load).made.valid
  rw [numDecisions_of_search search] at le
  rw [m.slack_of_load load]
  exact Nat.add_le_add le ((session.inv valid).1.numUntried_le valid)

/-- **A round exceeds a limit by no more than the slack**, if its budget is within the limit. -/
theorem Rounded.within {Allowed : Int → Prop} (hr : Rounded limits bound w r) (session : w.InSession m Allowed)
    {limit : Nat}
    (h : w.Within m limit)
    (le : ∀ made, w.statistics.numDecisions = made → roundBudget limits made ≠ 0 →
      made + roundBudget limits made ≤ limit) : r.2.Within m limit := by
  cases hr with
  | idle => exact h
  | @spent s status search =>
    obtain ⟨counts, -⟩ := told_eq s bound
    refine ⟨?_, fun _ status => by cases status⟩
    change (s.told bound).counts.numDecisions ≤ _
    rw [counts, ← numDecisions_of_search search]
    exact h.made_le
  | @ran s status search budget =>
    obtain ⟨e, s', seed, log, load, search', session, -⟩ := session (status ▸ fun _ h => by cases h)
    obtain rfl : s = s' := Option.some.inj (search.symm.trans search')
    have valid := (Engine.loaded_of_load load).made.valid
    obtain ⟨log', session', -⟩ :=
      exists_session_told session bound (fun _ _ => trivial) fun _ _ => trivial
    obtain ⟨inv, rests, -⟩ := session'.inv valid
    obtain ⟨counts, choicePoints⟩ := told_eq s bound
    have made := h.untried_le s status search
    rw [m.slack_of_load load, ← counts, ← choicePoints] at made
    have within := le _ (numDecisions_of_search search) (counts ▸ budget)
    rw [← counts] at within
    have stops := stopsAfter_roundCondition limits
      (roundBudget limits (s.told bound).counts.numDecisions) w.id
    have ended := Search.ends_run_within valid inv rests
      (stops.mono (Nat.le_of_eq (Nat.add_sub_cancel_left _ _).symm)) within made
    rw [← m.slack_of_load load] at ended
    cases hrun : (s.told bound).run (roundCondition limits
        (roundBudget limits (s.told bound).counts.numDecisions) w.id) with
    | error cause t =>
      obtain ⟨failure, failed⟩ := exists_statusOf_error w.id cause t
      exact ⟨ended.of_error hrun, fun _ status _ => by cases failed.symm.trans status⟩
    | ok _ t =>
      have made := (ended.of_ok hrun).made_le
      rw [← m.slack_of_load load] at made
      refine ⟨Nat.le_trans (Nat.le_add_right _ _) made, fun s _ search => ?_⟩
      cases search
      exact made

end Worker

namespace Portfolio
variable {π : Type} [Propagator π] [LawfulPropagator π]

/-- **By how much limits are exceeded.**  Whatever signals a portfolio is given, in no number of rounds does
a worker make more decisions than its limit and the slack of the model together, and in no round more than
the interval and the slack. -/
theorem decisions_le (o : Options) (m : Model π) (signals : Nat → Signals) :
    (∀ k, ∀ w ∈ ((start o m).afterRounds o signals k).workers, ∀ limit, o.decisionLimit = some limit →
      w.statistics.numDecisions ≤ limit + m.slack) ∧
    ∀ k, ∀ w ∈ ((start o m).afterRounds o signals k).workers, ∀ bound,
      (w.round (limits o (signals k)) bound).2.statistics.numDecisions ≤
        w.statistics.numDecisions + o.syncInterval + m.slack := by
  have session (k : Nat) : ∀ w ∈ ((start o m).afterRounds o signals k).workers, w.InSession m fun _ => True :=
    inSession_afterRounds inSession_of_mem_start fun _ _ _ _ => trivial
  have altogether (limit : Nat) (hlimit : o.decisionLimit = some limit) (k : Nat) :
      ∀ w ∈ ((start o m).afterRounds o signals k).workers, w.Within m limit := by
    induction k with
    | zero =>
      intro w hw
      obtain ⟨id, -, rfl⟩ := List.mem_map.mp hw
      exact Worker.within_start m id _ limit
    | succ k ih =>
      rw [workers_afterRounds_succ]
      intro w' hw'
      obtain ⟨w, hw, rfl⟩ := List.mem_map.mp hw'
      refine (w.rounded _ _).within (session k w hw) (ih w hw) fun made _ budget => ?_
      unfold limits Worker.roundBudget at budget ⊢
      rw [hlimit] at budget ⊢
      dsimp only at budget ⊢
      omega
  refine ⟨fun k w hw limit hlimit => (altogether limit hlimit k w hw).made_le, fun k w hw bound => ?_⟩
  have before := (session k w hw).within (Nat.le_add_right w.statistics.numDecisions o.syncInterval)
  refine ((w.rounded _ _).within (session k w hw) before fun made hmade _ => ?_).made_le
  unfold limits Worker.roundBudget
  dsimp only
  split <;> omega

/-! ## A limit that is exceeded -/

/-- A variable that is twice what is asked for, so that a value of it may be refuted only when it is tried. -/
def doubleModel : Model Constraint where
  ranges := [(0, 4), (0, 9), (4, 4)]
  constraints := [.linearSum ⟨[0, 0], 2⟩]
  objective := 0
  decisions := [0, 1]

theorem decisions_le_doubleModel : doubleModel.slack = 18 ∧
    ∀ k, ∀ w ∈ ((start { seed := 2, syncInterval := 1, decisionLimit := some 1 } doubleModel).afterRounds
      { seed := 2, syncInterval := 1, decisionLimit := some 1 } (fun _ => {}) k).workers,
        w.statistics.numDecisions ≤ 1 + 18 := by
  have slack : doubleModel.slack = 18 := by decide +kernel
  refine ⟨slack, fun k w hw => ?_⟩
  have le := (decisions_le { seed := 2, syncInterval := 1, decisionLimit := some 1 } doubleModel
    (fun _ => {})).1 k w hw 1 rfl
  rw [slack] at le
  exact le

/-- **Neither the decision limit nor the interval of the rounds is a limit**: a portfolio that may make one
decision altogether, and one in a round, makes three in its first round. -/
theorem limit_overrun :
    (∃ outcome numRounds told, observe { seed := 2, syncInterval := 1, decisionLimit := some 1 } doubleModel
        (fun _ => {}) = (.ok outcome, numRounds, told) ∧ outcome.statistics.numDecisions = 3) ∧
      (¬ ∀ (o : Options) (m : Model Constraint) (signals : Nat → Signals) (k : Nat),
        ∀ w ∈ ((start o m).afterRounds o signals k).workers, ∀ limit, o.decisionLimit = some limit →
          w.statistics.numDecisions ≤ limit) ∧
      ¬ ∀ (o : Options) (m : Model Constraint) (signals : Nat → Signals) (k : Nat),
        ∀ w ∈ ((start o m).afterRounds o signals k).workers, ∀ bound,
          (w.round (limits o (signals k)) bound).2.statistics.numDecisions ≤
            w.statistics.numDecisions + o.syncInterval := by
  refine ⟨?_, fun all => ?_, fun all => ?_⟩
  · have observed : (match observe { seed := 2, syncInterval := 1, decisionLimit := some 1 } doubleModel
        (fun _ => {}) with
        | (.ok outcome, _, _) => decide (outcome.statistics.numDecisions = 3)
        | _ => false) = true := by decide +kernel
    split at observed
    · rename_i outcome numRounds told answer
      exact ⟨outcome, numRounds, told, answer, of_decide_eq_true observed⟩
    · cases observed
  · let o : Options := { seed := 2, syncInterval := 1, decisionLimit := some 1 }
    have made : ((start o doubleModel).afterRounds o (fun _ => {}) 1).workers.map
        (·.statistics.numDecisions) = [3] := by decide +kernel
    obtain ⟨w, hw, three⟩ := List.mem_map.mp (made ▸ List.mem_singleton_self 3)
    have le := all o doubleModel (fun _ => {}) 1 w hw 1 rfl
    rw [three] at le
    exact absurd le (by decide)
  · let o : Options := { seed := 2, syncInterval := 1, decisionLimit := some 1 }
    have made : ((start o doubleModel).afterRounds o (fun _ => {}) 0).workers.map (fun w =>
        (w.statistics.numDecisions, (w.round (limits o {}) none).2.statistics.numDecisions)) =
          [(0, 3)] := by decide +kernel
    obtain ⟨w, hw, three⟩ := List.mem_map.mp (made ▸ List.mem_singleton_self (0, 3))
    obtain ⟨before, after⟩ := Prod.mk.inj three
    have le := all o doubleModel (fun _ => {}) 0 w hw none
    rw [before, after] at le
    exact absurd le (by decide)

end Portfolio
end BranchBound
