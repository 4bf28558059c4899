import BranchBound.Proofs.Confluence.Demand
import BranchBound.Proofs.Constraint

/-! # What demand and capacity decides

A plan is possible if it is within the domains and produces every item as often as it is required
(`DemandCapacity.Possible`).  The periods that are counted as open are so when the pass comes to them, while
others before them may be planned in the meantime; but of a possible plan every count is right whenever it was
taken (`Counted`), so no value of it goes.

What the filter comes to is balanced in every period (`DemandCapacity.Closed`).  On a fixed plan no period is
open, so nothing is outstanding, and the filter accepts exactly what is required (`Closed.holds`).

All of this is as long as no integer is cut: the demands of a period may well add up to less than nothing
(`accepted_idleOverflowing`). -/
namespace BranchBound
namespace DemandCapacity
open CumulativeProduction (unfixed)
variable {c : DemandCapacity} {s t : Store} {a : Assignment} {vs : List Var} {period : Nat}

/-- A plan within the domains that meets what is required. -/
structure Possible (c : DemandCapacity) (s : Store) (a : Assignment) : Prop where
  within : ∀ v ∈ c.plan, s.contains v (a v) = true
  holds : c.Holds a

theorem count_congr {b : Assignment} {item : Nat} (same : ∀ v ∈ vs, b v = a v) :
    count b item vs = count a item vs := by
  unfold count
  exact congrArg sumInt (List.map_congr_left fun v hv => by rw [same v hv])

/-- Only the plan matters. -/
theorem Holds.congr {b : Assignment} (h : c.Holds a) (same : ∀ v ∈ c.plan, b v = a v) : c.Holds b := by
  intro item period hitem hperiod
  rw [count_congr fun v hv => same v (List.take_subset _ _ hv)]
  exact h item period hitem hperiod

/-- A plan is part of an assignment within all domains. -/
theorem Possible.exists_admits (hs : s.Valid) (h : c.Possible s a) :
    ∃ b, c.Holds b ∧ s.Admits b ∧ ∀ v ∈ c.plan, b v = a v := by
  obtain ⟨b, hb, same⟩ := hs.exists_admits h.within
  exact ⟨b, h.holds.congr same, hb, same⟩

/-! ## Fixed plans -/

section
variable (fixed : ∀ v ∈ c.plan, s.isFixed v = true)
include fixed

theorem unfixed_of_fixed (sub : vs ⊆ c.plan) : unfixed s vs = 0 := by
  have closed (v : Var) (hv : v ∈ vs) : ¬ s.fixed? v = none := by
    rw [Store.fixed?_eq_none_iff, fixed v (sub hv)]
    simp
  unfold unfixed
  rw [List.map_congr_left fun v hv => if_neg (closed v hv)]
  exact sumInt_zero

/-- **A fixed plan that is balanced in every period meets what is required.** -/
theorem Closed.holds (closed : c.Closed s) : c.Holds s.lower := by
  intro item period hitem hperiod
  -- nothing is outstanding, as no period is open
  have nothing := (closed period hperiod).fits
  rw [unfixed_of_fixed fixed (List.take_subset _ _)] at nothing
  have others : ∀ i ∈ c.items, 0 ≤ c.due s period i := fun i _ => by
    unfold due
    omega
  have here := sumInt_sub_le others (List.mem_range.mpr hitem)
  rw [sumInt_zero] at here
  have same : count (planned s) item (c.plan.take (period + 1)) =
      count s.lower item (c.plan.take (period + 1)) := by
    refine count_congr fun v hv => planned_of (Store.isFixed_iff_fixed?.mp ?_)
    exact fixed v (List.take_subset _ _ hv)
  change c.shortage s period ≤ 0 at nothing
  unfold shortage at nothing
  unfold due at here nothing
  rw [same] at here
  omega

end

/-! ## The filter -/

/-- **What the filter comes to is balanced in every period**, if nothing is cut and values could be removed
from the plan. -/
theorem closed_of_filter {s t : Space} (hs : s.Valid) (exact : c.Exact) (holes : c.Removable t.store)
    (run : c.filter s = .ok () t) : c.Closed t.store := by
  have narrows := ((c.rule.filtered hs).of_ok run).1
  have rests : c.pass t = .ok false t := Filter.pass_of_untilStable
    (fun u hu => ⟨_, False, _, filters_pass (hu.valid hs) fun h => h.elim⟩) run
  exact ((filters_pass_closed exact (narrows.valid hs) holes).of_ok rests).2 rfl

end DemandCapacity
end BranchBound
