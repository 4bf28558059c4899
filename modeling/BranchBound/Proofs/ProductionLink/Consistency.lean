import BranchBound.Proofs.CumulativeProduction.Support

/-! # Production links that are domain consistent

A solution of a production link is an assignment within the domains of the plan and of the indicators in which
the indicator of an item is 1 exactly if the plan is that item (`ProductionLink.Possible`).  The indicators say
nothing of each other but what they say of the plan, so there is one solution for each value of the plan that
all the indicators leave (`ProductionLink.choice`).

One pass from the indicators to the plan and one back leave the two with nothing more to say of each other
(`ProductionLink.ends_agreed`).  Then **no value of the plan is missed by an indicator**: an open one can be
either, and one that is fixed has had its say.  So every value of the plan is part of a solution.  An indicator
that can be 1 can be so since the plan can be its item, and one that can be 0 since the plan can be something
else; so **every value of an indicator is part of a solution, too**. -/
namespace BranchBound
namespace ProductionLink
variable {c : ProductionLink} {s : Store} {a : Assignment} {k : Nat} {v : Var} {x : Int}

/-- The variables of a production link. -/
def scope (c : ProductionLink) : List Var := c.plan :: c.indicators

/-- A solution within the domains. -/
structure Possible (c : ProductionLink) (s : Store) (a : Assignment) : Prop where
  within : ∀ v ∈ c.scope, s.contains v (a v) = true
  linked : ∀ (k : Nat) (v : Var), c.indicators[k]? = some v → (a v = 1 ↔ a c.plan = (k : Int))

theorem mem_scope_plan : c.plan ∈ c.scope := List.mem_cons_self

theorem mem_scope_indicator (hk : c.indicators[k]? = some v) : v ∈ c.scope :=
  List.mem_cons_of_mem _ (List.mem_of_getElem? hk)

theorem Fit.base (fit : c.Fit s) : c.Base s :=
  ⟨fit.plan, fit.indicators, (List.nodup_cons.mp fit.distinct).1⟩

theorem Fit.lt_of_mem_scope (fit : c.Fit s) (hv : v ∈ c.scope) : v < s.numVars := by
  rcases List.mem_cons.mp hv with rfl | hv
  · exact fit.plan
  · exact fit.indicators v hv

/-- An indicator is 0 or 1. -/
theorem Fit.zero_or_one (fit : c.Fit s) (hk : c.indicators[k]? = some v) (hx : s.contains v x = true) :
    x = 0 ∨ x = 1 := by
  have inside := Store.bounds_of_contains hx
  have binary := fit.binary v (List.mem_of_getElem? hk)
  omega

/-- Only the plan and the indicators matter. -/
theorem Holds.congr {b : Assignment} (h : c.Holds a) (same : ∀ v ∈ c.scope, b v = a v) : c.Holds b := by
  intro k v hk
  rw [same v (mem_scope_indicator hk), same c.plan mem_scope_plan]
  exact h k v hk

/-- A solution keeps the link, as indicators that are not 1 are 0. -/
theorem Possible.holds (fit : c.Fit s) (h : c.Possible s a) : c.Holds a := by
  intro k v hk
  have linked := h.linked k v hk
  split
  · rename_i planned
    exact linked.mpr planned
  · rename_i unplanned
    have := fit.zero_or_one hk (h.within v (mem_scope_indicator hk))
    exact this.resolve_right (mt linked.mp unplanned)

/-- A solution is part of an assignment within all domains. -/
theorem Possible.exists_admits (fit : c.Fit s) (hs : s.Valid) (h : c.Possible s a) :
    ∃ b, c.Holds b ∧ s.Admits b ∧ ∀ v ∈ c.scope, b v = a v := by
  obtain ⟨b, hb, same⟩ := hs.exists_admits h.within
  exact ⟨b, (h.holds fit).congr same, hb, same⟩

theorem Possible.of_narrows {t : Store} (hs : s.Valid) (hn : s.Narrows t) (h : c.Possible t a) :
    c.Possible s a :=
  ⟨fun v hv => hn.contains hs (h.within v hv), h.linked⟩

/-! ## One solution for each value of the plan -/

/-- The plan is `x`, and the indicators follow. -/
def choice (c : ProductionLink) (x : Int) : Assignment := fun v =>
  if v = c.plan then x else if (c.indicators.idxOf v : Int) = x then 1 else 0

theorem choice_plan : c.choice x c.plan = x := if_pos rfl

theorem Fit.choice_indicator (fit : c.Fit s) (hk : c.indicators[k]? = some v) :
    c.choice x v = if (k : Int) = x then 1 else 0 := by
  obtain ⟨hlt, here⟩ := List.getElem?_eq_some_iff.mp hk
  have place : c.indicators.idxOf v = k := by
    rw [← here]
    exact (List.nodup_cons.mp fit.distinct).2.idxOf_getElem k hlt
  unfold choice
  rw [if_neg (fit.apart hk), place]

theorem Fit.linked_choice (fit : c.Fit s) (hk : c.indicators[k]? = some v) :
    c.choice x v = 1 ↔ c.choice x c.plan = (k : Int) := by
  rw [fit.choice_indicator hk, choice_plan]
  split <;> omega

namespace Agreed
variable (agreed : c.Agreed s) (hs : s.Valid) (fit : c.Fit s)
include agreed hs fit

/-- **Every value of the plan is part of a solution.** -/
theorem possible_choice (hx : s.contains c.plan x = true) : c.Possible s (c.choice x) := by
  refine ⟨fun v hv => ?_, fun k v hk => fit.linked_choice hk⟩
  rcases List.mem_cons.mp hv with rfl | hv
  · rwa [choice_plan]
  · obtain ⟨k, hk⟩ := List.mem_iff_getElem?.mp hv
    obtain ⟨⟨planned, excluded⟩, -⟩ := agreed k v hk
    rw [fit.choice_indicator hk]
    cases hf : s.fixed? v with
    | none =>
      refine CumulativeProduction.contains_of_open hs (fun _ => fit.zero_or_one hk) hf ?_
      split <;> simp
    | some y =>
      have inside := hs.contains_of_fixed? hf
      rcases fit.zero_or_one hk inside with rfl | rfl
      · -- the plan cannot be the item of an indicator that is 0
        rwa [if_neg]
        rintro rfl
        exact absurd (hx.symm.trans (excluded 0 hf (by decide))) (by simp)
      · rwa [if_pos (Store.eq_of_fixed? (planned hf) hx).symm]

/-- **Every value that is left is part of a solution.** -/
theorem supported (hv : v ∈ c.scope) (hx : s.contains v x = true) : ∃ a, c.Possible s a ∧ a v = x := by
  rcases List.mem_cons.mp hv with rfl | hv
  · exact ⟨c.choice x, agreed.possible_choice hs fit hx, choice_plan⟩
  · obtain ⟨k, hk⟩ := List.mem_iff_getElem?.mp hv
    obtain ⟨planned, excluded⟩ := (agreed k v hk).2
    have inside := Store.bounds_of_contains hx
    -- it is enough that the plan has a value that is the item or is not, as the indicator has it
    have follow {y : Int} (hy : s.contains c.plan y = true) (value : (if (k : Int) = y then 1 else 0) = x) :
        ∃ a, c.Possible s a ∧ a v = x :=
      ⟨c.choice y, agreed.possible_choice hs fit hy, (fit.choice_indicator hk).trans value⟩
    rcases fit.zero_or_one hk hx with rfl | rfl
    · by_cases lower : s.lower c.plan = k
      · have upper : (k : Int) ≠ s.upper c.plan := by
          intro upper
          have := planned (Store.fixed?_eq_some_iff.mpr ⟨lower, upper.symm⟩)
          omega
        exact follow (hs.contains_upper c.plan) (if_neg upper)
      · exact follow (hs.contains_lower c.plan) (if_neg (Ne.symm lower))
    · have item : s.contains c.plan k = true := by
        by_contra none
        have := excluded (Bool.eq_false_iff.mpr none)
        omega
      exact follow item (if_pos rfl)

end Agreed

/-! ## The filter -/

/-- What the filter comes to has a solution and exactly the values of the solutions there were, and is left as it
is from then on; and it refutes only what has no solution. -/
theorem ends_filter_exact {s : Space} (hs : s.Valid) (fit : c.Fit s.store) :
    Ends (c.filter s)
      (fun _ t => ¬ (¬ ∃ a, c.Possible s.store a) ∧
        (∀ v ∈ c.scope, ∀ x, t.store.contains v x = true ↔ ∃ a, c.Possible s.store a ∧ a v = x) ∧
        c.filter t = .ok () t)
      (fun halt _ => (∃ cause, halt = .inconsistent cause) ∧ ¬ ∃ a, c.Possible s.store a) := by
  have sound := Rule.ends_sound (r := c.rule) (P := c.Possible s.store) hs fit.base
    (fun _ => fit.lt_of_mem_scope) fun _ possible => possible.exists_admits fit hs.store
  refine ends_of (fun _ t run => ?_) fun halt t run => ?_
  · obtain ⟨hn, spares⟩ := sound.of_ok run
    have ht := hn.valid hs
    have fit' := fit.narrows hs.store hn.store
    have agreed := ((ends_agreed hs fit).of_ok run).2
    have possible := agreed.possible_choice ht.store fit' (ht.store.contains_lower c.plan)
    refine ⟨not_not.mpr ⟨_, possible.of_narrows hs.store hn.store⟩, fun v hv x => ⟨fun hx => ?_, ?_⟩,
      filter_eq_of_agreed ht fit' agreed⟩
    · obtain ⟨a, ha, value⟩ := agreed.supported ht.store fit' hv hx
      exact ⟨a, ha.of_narrows hs.store hn.store, value⟩
    · rintro ⟨a, ha, rfl⟩
      exact spares a ha v hv
  · obtain ⟨cause, impossible⟩ := sound.of_error run
    exact ⟨cause, not_exists.mpr impossible⟩

/-- **A production link is domain consistent after one pass**: it is refuted exactly if there is no solution, and
otherwise the plan and every indicator are left the values that they take in the solutions, and no others.  A
second call changes nothing. -/
theorem propagate_exact {s : Space} (hs : s.Valid) (fit : c.Fit s.store) :
    ((∃ cause u, Propagator.propagate (Constraint.productionLink c) s = .error (.inconsistent cause) u) ↔
      ¬ ∃ a, c.Possible s.store a) ∧
    ((∃ a, c.Possible s.store a) → ∃ t,
      Propagator.propagate (Constraint.productionLink c) s = .ok () (.productionLink c, t) ∧
      (∀ v ∈ c.scope, ∀ x, t.store.contains v x = true ↔ ∃ a, c.Possible s.store a ∧ a v = x) ∧
      Propagator.propagate (Constraint.productionLink c) t = .ok () (.productionLink c, t)) := by
  have called (s : Space) : Propagator.propagate (Constraint.productionLink c) s =
    c.filter.run (.productionLink c) s := rfl
  simp only [called]
  obtain ⟨refuted, ended⟩ := Rule.run_exact (p := Constraint.productionLink c) (ends_filter_exact hs fit)
  refine ⟨refuted, fun possible => ?_⟩
  obtain ⟨t, run, values, rests⟩ := ended (not_not.mpr possible)
  exact ⟨t, run, values, Rule.run_of_ok rests⟩

/-- Three items, and idle periods that have no indicator. -/
def threeItems : ProductionLink := ⟨3, [0, 1, 2]⟩

/-- The item in the middle is not produced. -/
def threeItemsSpace : Space := .ofRanges [(0, 1), (0, 0), (0, 1), (-1, 2)]

theorem exact_threeItems : threeItemsSpace.Valid ∧ threeItems.Fit threeItemsSpace.store ∧
    ∃ t, Propagator.propagate (Constraint.productionLink threeItems) threeItemsSpace =
      .ok () (.productionLink threeItems, t) ∧
      t.store.contains 3 1 = false ∧ t.store.contains 3 (-1) = true ∧ t.store.contains 2 1 = true := by
  have valid : threeItemsSpace.Valid := Space.valid_ofRanges (by decide)
  have fit : threeItems.Fit threeItemsSpace.store :=
    ⟨by decide, by decide, by decide, by decide, by decide⟩
  have idle : threeItems.Possible threeItemsSpace.store (threeItems.choice (-1)) :=
    ⟨by decide, fun _ _ => fit.linked_choice⟩
  have last : threeItems.Possible threeItemsSpace.store (threeItems.choice 2) :=
    ⟨by decide, fun _ _ => fit.linked_choice⟩
  obtain ⟨t, run, values, -⟩ := (propagate_exact valid fit).2 ⟨_, idle⟩
  refine ⟨valid, fit, t, run, ?_, (values 3 (by decide) _).mpr ⟨_, idle, rfl⟩,
    (values 2 (by decide) _).mpr ⟨_, last, rfl⟩⟩
  rw [← Bool.not_eq_true, values 3 (by decide)]
  rintro ⟨a, ha, value⟩
  have one : a 1 = 1 := (ha.linked 1 1 rfl).mpr value
  have inside := ha.within 1 (by decide)
  rw [one] at inside
  exact absurd inside (by decide)

end ProductionLink
end BranchBound
