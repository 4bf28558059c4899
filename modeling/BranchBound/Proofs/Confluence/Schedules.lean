import BranchBound.Proofs.Confluence.Constraint
import BranchBound.Proofs.Confluence.Engine
import BranchBound.Proofs.LotSizing.Model
import BranchBound.Proofs.Routing.Model

/-! # The fixpoint does not depend on the schedule

A model is orderly if its constraints suit the ranges of its variables and are fit for them
(`Model.Orderly`).  In whatever order its constraints are posted, and with whatever priorities, the engine
converges to domains that are closed under all of them (`Model.Orderly.exists_convergent`).

The models of tours and of plans are orderly, unless there are so many nodes or items that values cannot be
removed one by one.  **So nobody who narrows and propagates them step by step can tell how they were
scheduled** (`Model.follow_eq_of_schedules`). -/
namespace BranchBound

namespace Store
variable {s t : Store} {ranges : List (Int × Int)}

/-- Variables with the same ranges look alike. -/
theorem Spans.alike (h : s.Spans ranges) (h' : t.Spans ranges) : s.Alike t := by
  have same : s.numVars = t.numVars := h.numVars_eq.trans h'.numVars_eq.symm
  -- a variable that is not there is as good as one with a fixed value
  have unknown {v : Var} (hv : ¬ v < s.numVars) : s.domain v = t.domain v := by
    rw [domain_of_numVars_le (Nat.le_of_not_lt hv), domain_of_numVars_le (same ▸ Nat.le_of_not_lt hv)]
  have range {v : Var} (hv : v < s.numVars) : ∃ lower upper, ranges[v]? = some (lower, upper) := by
    rw [h.numVars_eq] at hv
    exact ⟨_, _, List.getElem?_eq_getElem hv⟩
  have contains (v : Var) (x : Int) : s.contains v x = true ↔ t.contains v x = true := by
    by_cases hv : v < s.numVars
    · obtain ⟨lower, upper, hr⟩ := range hv
      rw [h.contains_iff v lower upper hr, h'.contains_iff v lower upper hr]
    · rw [Store.contains, Store.contains, unknown hv]
  refine ⟨⟨same, fun v x => (contains v x).mpr⟩, ⟨same.symm, fun v x => (contains v x).mp⟩, fun v => ?_⟩
  by_cases hv : v < s.numVars
  · obtain ⟨lower, upper, hr⟩ := range hv
    rw [h.width_eq v lower upper hr, h'.width_eq v lower upper hr]
  · rw [unknown hv]

end Store

/-! ## Orderly models -/

namespace Model
variable {m : Model Constraint} {rs rs' : List (Ranked Constraint)}

/-- The ranges suit the constraints and are fit for them, values can be removed one by one from predecessors
and plans, and what a constraint cannot tell by itself is known where the others are closed. -/
structure Orderly (m : Model Constraint) : Prop where
  nonempty : ∀ r ∈ m.ranges, r.1 ≤ r.2
  holes : m.holes = []
  suits : ∀ s : Store, s.Valid → s.Spans m.ranges → ∀ c ∈ m.constraints, c.Suits s
  fit : ∀ s : Store, s.Valid → s.Spans m.ranges → ∀ c ∈ m.constraints, c.Fit s
  width_le : ∀ s : Store, s.Spans m.ranges → ∀ c ∈ m.constraints, ∀ v ∈ c.choices,
    (s.domain v).width ≤ Domain.holeLimit
  aided : ∀ s : Store, (∀ c ∈ m.constraints, (∀ F, c.Aided F) → c.Closed s) → ∀ c ∈ m.constraints, c.Aided s

/-- What all constraints of a model have left. -/
def Closed (m : Model Constraint) (s : Store) : Prop := ∀ c ∈ m.constraints, c.Closed s

/-- **However an orderly model is scheduled, it can be loaded, and the engine converges** to domains that are
closed under all constraints. -/
theorem Orderly.exists_convergent (h : m.Orderly) (schedules : m.Schedules rs) :
    ∃ e, (m.scheduled rs).load = .ok e ∧ e.store.Spans m.ranges ∧ e.Convergent m.Closed := by
  have mem {p : Ranked Constraint} (hp : p ∈ rs) : p.propagator ∈ m.constraints :=
    schedules.mem_iff.mp (List.mem_map_of_mem hp)
  have scheduled {c : Constraint} (hc : c ∈ m.constraints) : ∃ p ∈ rs, p.propagator = c :=
    List.mem_map.mp (schedules.mem_iff.mpr hc)
  obtain ⟨e, load, made, spans, contracts⟩ := Engine.exists_loaded (m := m.scheduled rs) h.nonempty h.holes
    fun s hs spans p hp => ⟨(h.suits s hs spans _ (mem hp)).fits, (h.suits s hs spans _ (mem hp)).watched⟩
  -- by one family of contracts nothing is taken from a closed store, and by another one what is left is closed
  obtain ⟨ks, meets, all, every⟩ := contracts (fun p k => ∃ k', p.propagator.Keeps k' ∧ k = k'.ranked)
    fun p hp s hs spans => by
      obtain ⟨k, attaches, keeps⟩ := p.propagator.exists_contract s (h.suits _ hs.store spans _ (mem hp))
      exact ⟨k.ranked, attaches.ranked, k, keeps, rfl⟩
  obtain ⟨ks', meets', -, every'⟩ := contracts (fun p k => ∀ t, k.Settled t → p.propagator.Rested t)
    fun p hp s hs spans => by
      obtain ⟨k, attaches, -, -, rested⟩ :=
        Constraint.exists_restContract (s := s) (h.fit _ hs.store spans _ (mem hp))
      exact ⟨k.ranked, attaches.ranked, rested⟩
  have sure : ∀ k ∈ ks, k.Sure := by
    intro k hk
    obtain ⟨p, -, k', keeps, rfl⟩ := all k hk
    exact keeps.sure
  refine ⟨e, load, spans, meets.convergent sure (fun k hk p s F ready hs hF closed => ?_)
    fun e' run c hc => ?_⟩
  · obtain ⟨q, hq, k', keeps, rfl⟩ := all k hk
    exact keeps.shelters.ranked p s F ready hs hF (closed _ (mem hq))
  · have inside := run.inside made.valid
    have rested (c : Constraint) (hc : c ∈ m.constraints) : c.Rested e'.space := by
      obtain ⟨p, hp, rfl⟩ := scheduled hc
      obtain ⟨k, hk, rested⟩ := every' p hp
      exact rested _ (run.settled meets' k hk)
    have base (c : Constraint) (hc : c ∈ m.constraints) (r : Rule) (hr : c.rule? = some r) :
        r.Base e'.store := by
      obtain ⟨p, hp, rfl⟩ := scheduled hc
      obtain ⟨k, hk, k', keeps, rfl⟩ := every p hp
      exact ((keeps.said _ (run.settled meets _ hk)).rule r hr).1
    have width_le (c : Constraint) (hc : c ∈ m.constraints) (v : Var) (hv : v ∈ c.choices) :
        (e'.store.domain v).width ≤ Domain.holeLimit :=
      (inside.width_eq v).symm ▸ h.width_le _ spans c hc v hv
    have closed (c : Constraint) (hc : c ∈ m.constraints) (aided : c.Aided e'.store) : c.Closed e'.store :=
      (rested c hc).closed inside.valid.space (base c hc) (width_le c hc) aided
    exact closed c hc (h.aided _ (fun c hc aided => closed c hc (aided _)) c hc)

/-- **What is seen of an orderly model step by step does not depend on its schedule.** -/
theorem Orderly.exists_follow_eq (h : m.Orderly) (schedules : m.Schedules rs) (schedules' : m.Schedules rs') :
    ∃ e e', (m.scheduled rs).load = .ok e ∧ (m.scheduled rs').load = .ok e' ∧ ∀ steps,
      e.follow steps = e'.follow steps ∧ Engine.Unbroken (e.follow steps) := by
  obtain ⟨e, load, spans, converges⟩ := h.exists_convergent schedules
  obtain ⟨e', load', spans', converges'⟩ := h.exists_convergent schedules'
  exact ⟨e, e', load, load', fun steps =>
    converges.follow_eq converges' steps .start (.inl rfl) .start (.inl rfl) (spans.alike spans')⟩

end Model

/-! ## Tours -/

namespace Routing.Instance
variable {p : Instance} {s : Store} {v : Var}

/-- A predecessor can be removed from a node unless there are too many nodes. -/
theorem width_predecessor_le (small : p.numNodes ≤ Domain.holeLimit) (spans : s.Spans p.model.ranges)
    (hv : v ∈ p.predecessors.toArray.toList) : (s.domain v).width ≤ Domain.holeLimit := by
  obtain ⟨i, hi, rfl⟩ := List.mem_map.mp hv
  rw [spans.width_eq _ _ _ (ranges_predecessor (mem_nodes.mp hi))]
  omega

theorem fit_circuit (small : p.numNodes ≤ Domain.holeLimit) (spans : s.Spans p.model.ranges) :
    p.circuit.Fit s := by
  have suits := (suits_circuit spans).circuit p.circuit rfl
  refine ⟨suits.injective, suits.known, suits.sources, fun i hi => width_predecessor_le small spans ?_⟩
  have lt : i < p.circuit.predecessors.size := hi
  have entry : p.circuit.predecessor i = p.circuit.predecessors[i] := by simp [Circuit.predecessor, lt]
  rw [entry]
  exact Array.getElem_mem_toList lt

/-- **The model of a tour is orderly**, unless there are too many nodes. -/
theorem orderly (small : p.numNodes ≤ Domain.holeLimit) : p.model.Orderly where
  nonempty := ranges_nonempty
  holes := rfl
  suits _ := suits
  fit s _ spans c hc := by
    rcases List.mem_cons.mp hc with rfl | hc
    · exact fit_circuit small spans
    · rw [List.mem_singleton.mp hc]
      exact trivial
  width_le s spans c hc v hv := by
    rcases List.mem_cons.mp hc with rfl | hc
    · exact width_predecessor_le small spans hv
    · rw [List.mem_singleton.mp hc] at hv
      exact width_predecessor_le small spans hv
  aided s closed c hc := by
    rcases List.mem_cons.mp hc with rfl | hc
    · exact trivial
    · rw [List.mem_singleton.mp hc]
      have circuit : p.circuit.Closed s := closed (.circuit p.circuit) List.mem_cons_self fun _ => trivial
      exact fun j hj => circuit.exists_after hj

end Routing.Instance

/-! ## Plans -/

namespace LotSizing.Instance
variable {p : Instance} {s : Store} {v : Var} {period : Nat}

/-- An item can be removed from a plan unless there are too many items. -/
theorem width_planned_le (small : p.numItems < Domain.holeLimit) (spans : s.Spans p.model.ranges)
    (hv : v ∈ p.plan) : (s.domain v).width ≤ Domain.holeLimit := by
  have width : (s.domain v).width = ((p.numItems : Int) - 1 - idle + 1).toNat :=
    spans.width_eq v _ _ (ranges_planned (mem_plan.mp hv))
  unfold idle at width
  omega

theorem fit_productionLink (small : p.numItems < Domain.holeLimit) (hs : s.Valid)
    (spans : s.Spans p.model.ranges) (ht : period < p.horizon) : (p.productionLink period).Fit s := by
  have base := (suits_productionLink spans ht).rule _ rfl
  have distinct : (p.productionLink period).indicators.Nodup := by
    refine List.Nodup.map_on (fun i hi j hj same => ?_) List.nodup_range
    have pos := Nat.pos_of_ne_zero p.data.periods
    have same : p.horizon + i * p.horizon + period = p.horizon + j * p.horizon + period := same
    exact Nat.eq_of_mul_eq_mul_right pos (Nat.add_left_cancel (Nat.add_right_cancel same))
  refine ⟨base.plan, base.indicators, List.nodup_cons.mpr ⟨base.apart, distinct⟩, fun v hv => ?_,
    width_planned_le small spans (mem_plan.mpr ht)⟩
  obtain ⟨i, hi, rfl⟩ := List.mem_map.mp hv
  have bounds := spans.contains_iff _ _ _ (ranges_indicator (List.mem_range.mp hi) ht)
  exact ⟨((bounds _).mp (hs.contains_lower _)).1, ((bounds _).mp (hs.contains_upper _)).2⟩

/-- **The model of a plan is orderly**, unless there are too many items. -/
theorem orderly (small : p.numItems < Domain.holeLimit) : p.model.Orderly where
  nonempty := ranges_nonempty
  holes := rfl
  suits _ := suits
  fit s hs spans c hc := by
    have suits := suits hs spans c hc
    rcases mem_constraints.mp hc with ⟨t, ht, rfl⟩ | ⟨i, hi, rfl⟩ | rfl | rfl | rfl | rfl
    · exact fit_productionLink small hs spans ht
    · exact trivial
    · exact fun v hv => ⟨known_planned spans hv, width_planned_le small spans hv⟩
    · have base := suits.rule _ rfl
      exact ⟨base.cost_lt, base.known, base.indicators, base.apart⟩
    · have base := suits.rule _ rfl
      exact ⟨base.cost_lt, base.known, base.apart⟩
    · exact trivial
  width_le s spans c hc v hv := by
    rcases mem_constraints.mp hc with ⟨t, ht, rfl⟩ | ⟨i, hi, rfl⟩ | rfl | rfl | rfl | rfl
    · rw [List.mem_singleton.mp hv]
      exact width_planned_le small spans (mem_plan.mpr ht)
    · cases hv
    · exact width_planned_le small spans hv
    · cases hv
    · exact width_planned_le small spans hv
    · cases hv
  aided s closed c hc := by
    rcases mem_constraints.mp hc with ⟨t, ht, rfl⟩ | ⟨i, hi, rfl⟩ | rfl | rfl | rfl | rfl
    · exact trivial
    · exact trivial
    · refine exact_demandCapacity fun item hi => ?_
      obtain ⟨base, closed⟩ : (p.cumulativeProduction p.required item).Base s ∧
          (p.cumulativeProduction p.required item).Closed s :=
        closed (.cumulativeProduction _) (mem_constraints.mpr (.inr (.inl ⟨item, hi, rfl⟩))) fun _ => trivial
      have most := (closed.met.total_bounds base.fits).2
      rw [total_cumulativeProduction hi] at most
      simpa [cumulativeProduction, periods] using most
    · exact trivial
    · exact trivial
    · exact trivial

end LotSizing.Instance

/-! ## Both -/

/-- The models of instances in which values can be removed one by one: tours of at most 65536 nodes, and plans
of at most 65535 items. -/
inductive Manageable : Model Constraint → Prop
  | tour (p : Routing.Instance) (small : p.numNodes ≤ 65536) : Manageable p.model
  | plan (p : LotSizing.Instance) (small : p.numItems ≤ 65535) : Manageable p.model

theorem Manageable.orderly {m : Model Constraint} (h : Manageable m) : m.Orderly := by
  cases h with
  | tour p small => exact p.orderly small
  | plan p small => exact p.orderly (Nat.lt_succ_of_le small)

/-- **The fixpoint does not depend on the schedule.**  However the constraints of a tour or of a plan are
ordered, and whatever priorities they have, narrowings are answered alike step by step, propagation comes to
the same domains, and the first conflict is in the same step. -/
theorem Model.follow_eq_of_schedules {m : Model Constraint} (h : Manageable m)
    {rs rs' : List (Ranked Constraint)} (schedules : m.Schedules rs) (schedules' : m.Schedules rs') :
    ∃ e e', (m.scheduled rs).load = .ok e ∧ (m.scheduled rs').load = .ok e' ∧
      ∀ steps, e.follow steps = e'.follow steps ∧ Engine.Unbroken (e.follow steps) :=
  h.orderly.exists_follow_eq schedules schedules'

/-- Two cities that can be visited in either order, in time 9. -/
def eitherWay : Routing.Instance where
  distances := ⟨3, 3, #[0, 2, 4, 2, 0, 3, 4, 3, 0], rfl⟩
  windows := [⟨0, 12⟩, ⟨0, 7⟩, ⟨0, 7⟩]
  sound := by decide

/-- The constraints as they are. -/
def eitherWay.plain : List (Ranked Constraint) :=
  [⟨.circuit eitherWay.circuit, .medium⟩, ⟨.timeWindow eitherWay.timeWindow, .low⟩]

/-- The other way round, with the times first. -/
def eitherWay.timely : List (Ranked Constraint) :=
  [⟨.timeWindow eitherWay.timeWindow, .high⟩, ⟨.circuit eitherWay.circuit, .veryLow⟩]

/-- After a first propagation the tour shall take no longer than 8. -/
def eitherWay.hurry : List (List Restriction) := [[], [.setUpper eitherWay.makespan 8]]

theorem follow_eq_of_schedules_eitherWay : ∃ e e',
    (eitherWay.model.scheduled eitherWay.timely).load = .ok e ∧
      (eitherWay.model.scheduled eitherWay.plain).load = .ok e' ∧
      (∀ steps, e.follow steps = e'.follow steps ∧ Engine.Unbroken (e.follow steps)) ∧
      (e.follow eitherWay.hurry).map (fun report => decide (report.outcome = Engine.Outcome.conflict)) =
        [false, true] := by
  have manageable : Manageable eitherWay.model := .tour eitherWay (by decide)
  have timely : eitherWay.model.Schedules eitherWay.timely := List.Perm.swap _ _ _
  have plain : eitherWay.model.Schedules eitherWay.plain := .refl _
  obtain ⟨e, e', load, load', same⟩ := Model.follow_eq_of_schedules manageable timely plain
  have seen : (match (eitherWay.model.scheduled eitherWay.timely).load with
    | .ok e => (e.follow eitherWay.hurry).map
      fun report : Engine.Report => decide (report.outcome = Engine.Outcome.conflict)
    | .error _ => []) = [false, true] := by decide +kernel
  rw [load] at seen
  exact ⟨e, e', load, load', same, seen⟩

end BranchBound
