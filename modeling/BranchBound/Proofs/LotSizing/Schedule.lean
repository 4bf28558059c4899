import BranchBound.Proofs.LotSizing.Check

/-! # Schedules that are right

A schedule is right if its plan is feasible and its costs are those of the plan (`Schedule.Right`).  The check
finds nothing wrong with a schedule that is right (`Right.check_eq`). -/
namespace BranchBound.LotSizing
namespace Schedule
variable {p : Instance}

/-- The plan is feasible, and what is reported of its costs is what it costs. -/
structure Right (p : Instance) (s : Schedule) : Prop where
  feasible : p.Feasible s.plan
  stocking : p.stockingCost? s.plan = some s.stockingCost
  charges : p.charges? s.plan = some s.charges
  changeover : sumInt s.charges = s.changeoverCost
  total : s.totalCost = s.stockingCost + s.changeoverCost

/-- **Nothing is wrong with a schedule that is right.** -/
theorem Right.check_eq {s : Schedule} (h : s.Right p) : s.check p = .ok none := by
  have feasible := h.feasible
  obtain ⟨charges, hcharges, sum⟩ := Instance.exists_charges feasible.known
  cases h.charges.symm.trans hcharges
  have stocking : p.stockingOf s.plan = s.stockingCost :=
    Option.some.inj ((Instance.stockingCost?_eq feasible.length_eq feasible.known).symm.trans h.stocking)
  have changeover : p.changeoverOf s.plan = s.changeoverCost := sum.symm.trans h.changeover
  have total : s.totalCost = p.changeoverOf s.plan + p.stockingOf s.plan := by
    rw [changeover, stocking, h.total, Int.add_comm]
  rw [check_of_feasible feasible, if_pos ⟨changeover, stocking, total⟩]

end Schedule
end BranchBound.LotSizing
