import BranchBound.Proofs.Routing.Order

/-! # The check of tours

The stops of a tour are those that the check lets pass exactly if the tour visits the cities in some order and
returns (`Tour.closed_and_complete_iff`), and then the check of the legs compares the arrival times with the
schedule of that order, visit by visit (`Tour.checkLegs_eq_none_iff`).

A tour that is as it should be keeps the schedule, returns when the schedule does, and takes from the start to the
return (`Tour.Right`).  **The check accepts a tour exactly if it keeps the schedule and its makespan matches its own
return time; so what it accepts is right exactly if the return time is the arrival time of the depot as well**
(`Tour.tour_check_exact`), to which the check does not compare it (`Tour.accepts_late_return`). -/
namespace BranchBound.Routing
namespace Tour
variable {p : Instance} {t : Tour} {order stops : List Nat} {source target : Nat} {time : Int}

/-! ## The stops -/

theorem eraseDups_of_nodup {l : List Nat} (h : l.Nodup) : l.eraseDups = l := by
  induction l with
  | nil => rfl
  | cons x l ih =>
    obtain ⟨hx, hl⟩ := List.nodup_cons.mp h
    have others : (l.filter fun y => !y == x) = l :=
      List.filter_eq_self.mpr fun y hy => by
        have : y ≠ x := fun heq => hx (heq ▸ hy)
        simpa using this
    rw [List.eraseDups_cons, others, ih hl]

theorem nodup_eraseDups (l : List Nat) : l.eraseDups.Nodup := by
  -- on the length, because what is left of the tail is not a tail
  induction hn : l.length using Nat.strongRecOn generalizing l with
  | _ n ih =>
    subst hn
    cases l with
    | nil => exact List.nodup_nil
    | cons x l =>
      have fewer := List.length_filter_le (fun y => !y == x) l
      rw [List.eraseDups_cons, List.nodup_cons, List.mem_eraseDups]
      refine ⟨fun hx => ?_, ih _ (Nat.lt_succ_of_le fewer) _ rfl⟩
      simpa using (List.mem_filter.mp hx).2

/-- Nothing was there twice if nothing is lost by taking everything once. -/
theorem nodup_of_length_eraseDups {l : List Nat} (h : l.eraseDups.length = l.length) : l.Nodup := by
  have once := nodup_eraseDups l
  have inside : l.eraseDups ⊆ l := fun _ => List.mem_eraseDups.mp
  have all : l.eraseDups.Perm l := (List.subperm_of_subset once inside).perm_of_length_le (Nat.le_of_eq h.symm)
  exact all.nodup_iff.mp once

/-- There is one stop more than there are nodes, and the first and the last are the depot. -/
theorem closed_iff : t.closed p = true ↔
    ∃ order, order.length + 1 = p.numNodes ∧ t.stops = depot :: (order ++ [depot]) := by
  have two := Instance.two_le_numNodes (p := p)
  unfold Tour.closed
  simp only [Bool.and_eq_true, decide_eq_true_eq]
  constructor
  · rintro ⟨⟨length, first⟩, last⟩
    obtain ⟨rest, hrest⟩ := List.head?_eq_some_iff.mp first
    rw [hrest, List.length_cons] at length
    have ne : rest ≠ [] := by
      rintro rfl
      rw [List.length_nil] at length
      omega
    rw [hrest, List.getLast?_cons_of_ne_nil ne] at last
    obtain ⟨order, rfl⟩ := List.getLast?_eq_some_iff.mp last
    rw [List.length_append, List.length_singleton] at length
    exact ⟨order, Nat.succ.inj length, hrest⟩
  · rintro ⟨order, length, stops⟩
    rw [stops, ← length]
    refine ⟨⟨?_, rfl⟩, ?_⟩
    · rw [List.length_cons, List.length_append, List.length_singleton]
    · rw [List.getLast?_cons_of_ne_nil (List.concat_ne_nil _ _), List.getLast?_concat]

/-- In between, all nodes are visited once exactly if all cities are. -/
theorem complete_iff (length : order.length + 1 = p.numNodes) (stops : t.stops = depot :: (order ++ [depot])) :
    t.complete p = true ↔ order.Perm p.cities := by
  have visited : t.stops.take p.numNodes = depot :: order := by
    rw [stops, ← length, List.take_succ_cons, List.take_left]
  unfold Tour.complete
  rw [visited, ← Instance.perm_nodes_iff]
  simp only [Bool.and_eq_true, decide_eq_true_eq, List.all_eq_true]
  constructor
  · rintro ⟨once, known⟩
    have nodup : (depot :: order).Nodup := nodup_of_length_eraseDups (once.trans length.symm)
    have inside : depot :: order ⊆ p.nodes := fun i hi => Instance.mem_nodes.mpr (known i hi)
    have all : p.nodes.length = (depot :: order).length := by
      rw [Instance.nodes, List.length_range, List.length_cons, length]
    exact (List.subperm_of_subset nodup inside).perm_of_length_le (Nat.le_of_eq all)
  · intro all
    have nodup : (depot :: order).Nodup := all.nodup_iff.mpr List.nodup_range
    rw [eraseDups_of_nodup nodup]
    exact ⟨length, fun i hi => Instance.mem_nodes.mp (all.mem_iff.mp hi)⟩

/-- **The stops that pass the check are those of an order of the cities**, with the depot at both ends. -/
theorem closed_and_complete_iff : t.closed p = true ∧ t.complete p = true ↔
    ∃ order : List Nat, order.Perm p.cities ∧ t.stops = depot :: (order ++ [depot]) := by
  constructor
  · rintro ⟨closed, complete⟩
    obtain ⟨order, length, stops⟩ := closed_iff.mp closed
    exact ⟨order, (complete_iff length stops).mp complete, stops⟩
  · rintro ⟨order, perm, stops⟩
    have length : order.length + 1 = p.numNodes := by
      have all := (Instance.perm_nodes_iff.mpr perm).length_eq
      rwa [List.length_cons, Instance.nodes, List.length_range] at all
    exact ⟨closed_iff.mpr ⟨order, length, stops⟩, (complete_iff length stops).mpr perm⟩

/-! ## The legs -/

/-- **The legs pass the check exactly if every visit is reached when it should be**, and in time. -/
theorem checkLegs_eq_none_iff : t.checkLegs p time ((source :: stops).zip stops) = .ok none ↔
    ∀ x ∈ p.visits source time stops, t.arrivals[x.1]? = some x.2.2 ∧ x.2.2 ≤ (p.window x.1).latest := by
  induction stops generalizing source time with
  | nil => simp [checkLegs, Instance.visits]
  | cons target stops ih =>
    simp only [List.zip_cons_cons, checkLegs, Instance.visits, List.forall_mem_cons]
    cases here : t.arrivals[target]? with
    | none => simp
    | some arrival =>
      by_cases expected : arrival = p.arrival source time target
      · subst expected
        by_cases late : (p.window target).latest < p.arrival source time target
        · simp only [ne_eq, not_true_eq_false, if_false, if_pos late]
          simp [Int.not_le.mpr late]
        · simp only [ne_eq, not_true_eq_false, if_false, if_neg late, ih]
          simp [Int.not_lt.mp late]
      · simp [expected]

/-- Legs between nodes that have an arrival time can be checked. -/
theorem exists_checkLegs_eq (known : ∀ i ∈ stops, i < t.arrivals.length) :
    ∃ answer, t.checkLegs p time ((source :: stops).zip stops) = .ok answer := by
  induction stops generalizing source time with
  | nil => exact ⟨none, rfl⟩
  | cons target stops ih =>
    obtain ⟨arrival, here⟩ : ∃ arrival, t.arrivals[target]? = some arrival :=
      ⟨_, List.getElem?_eq_getElem (known target List.mem_cons_self)⟩
    obtain ⟨answer, rest⟩ : ∃ answer, t.checkLegs p arrival ((target :: stops).zip stops) = .ok answer :=
      ih fun i hi => known i (List.mem_cons_of_mem _ hi)
    simp only [List.zip_cons_cons, checkLegs, here, rest]
    split
    · exact ⟨_, rfl⟩
    · split <;> exact ⟨_, rfl⟩

/-! ## Tours that are right -/

/-- The tour visits the cities in the given order, which is one of all cities, and every node, the depot on the
return included, is reached when the schedule of that order says, and within its window. -/
structure Scheduled (p : Instance) (t : Tour) (order : List Nat) : Prop where
  perm : order.Perm p.cities
  stops : t.stops = depot :: (order ++ [depot])
  arrival : ∀ x ∈ p.visits depot p.start (order ++ [depot]), t.arrivals[x.1]? = some x.2.2
  inWindow : ∀ x ∈ p.visits depot p.start (order ++ [depot]),
    (p.window x.1).earliest ≤ x.2.2 ∧ x.2.2 ≤ (p.window x.1).latest

/-- The tour keeps the schedule of some order, returns when that does, and takes from the start to the return. -/
def Right (p : Instance) (t : Tour) : Prop := ∃ order, t.Scheduled p order ∧
  t.returnTime = p.timeAfter depot p.start (order ++ [depot]) ∧ t.makespan = t.returnTime - p.start

theorem earliest_le_of_mem_visits {x : Nat × Nat × Int} (hx : x ∈ p.visits source time stops) :
    (p.window x.1).earliest ≤ x.2.2 := by
  induction stops generalizing source time with
  | nil => cases hx
  | cons target stops ih =>
    rcases List.mem_cons.mp hx with rfl | hx
    · exact Int.le_max_left _ _
    · exact ih hx

/-- The last visit is that of the last stop. -/
theorem exists_mem_visits (source : Nat) (time : Int) (order : List Nat) :
    ∃ before, (target, before, p.timeAfter source time (order ++ [target])) ∈
      p.visits source time (order ++ [target]) := by
  induction order generalizing source time with
  | nil => exact ⟨source, List.mem_cons_self⟩
  | cons first order ih =>
    obtain ⟨before, mem⟩ := ih first (p.arrival source time first)
    exact ⟨before, List.mem_cons_of_mem _ mem⟩

theorem Scheduled.arrivals_depot (h : t.Scheduled p order) :
    t.arrivals[depot]? = some (p.timeAfter depot p.start (order ++ [depot])) := by
  obtain ⟨before, mem⟩ := exists_mem_visits depot p.start order
  exact h.arrival _ mem

theorem scheduled_iff (stops : t.stops = depot :: (order ++ [depot])) (perm : order.Perm p.cities) :
    t.Scheduled p order ↔ t.checkLegs p p.start t.legs = .ok none := by
  rw [Tour.legs, stops, List.tail_cons, checkLegs_eq_none_iff]
  constructor
  · exact fun h x hx => ⟨h.arrival x hx, (h.inWindow x hx).2⟩
  · exact fun h => ⟨perm, stops, fun x hx => (h x hx).1, fun x hx => ⟨earliest_le_of_mem_visits hx, (h x hx).2⟩⟩

theorem exists_scheduled_iff : (∃ order, t.Scheduled p order) ↔
    (t.closed p = true ∧ t.complete p = true) ∧ t.checkLegs p p.start t.legs = .ok none := by
  constructor
  · rintro ⟨order, h⟩
    exact ⟨closed_and_complete_iff.mpr ⟨order, h.perm, h.stops⟩, (scheduled_iff h.stops h.perm).mp h⟩
  · rintro ⟨shape, legs⟩
    obtain ⟨order, perm, stops⟩ := closed_and_complete_iff.mp shape
    exact ⟨order, (scheduled_iff stops perm).mpr legs⟩

/-! ## The check as a whole -/

theorem defect?_eq_none_iff : t.defect? p = .ok none ↔
    (∃ order, t.Scheduled p order) ∧ t.makespan = t.returnTime - p.start := by
  rw [exists_scheduled_iff]
  unfold Tour.defect?
  cases t.closed p with
  | false => simp [pure, Except.pure]
  | true =>
    cases t.complete p with
    | false => simp [pure, Except.pure]
    | true =>
      cases t.checkLegs p p.start t.legs with
      | error cause => simp [bind, Except.bind]
      | ok cause? =>
        cases cause? with
        | some cause => simp [bind, Except.bind, pure, Except.pure]
        | none => simp [bind, Except.bind, pure, Except.pure]

/-- A tour with an arrival time for every node can be checked. -/
theorem exists_defect?_eq (h : t.arrivals.length = p.numNodes) : ∃ answer, t.defect? p = .ok answer := by
  unfold Tour.defect?
  cases hclosed : t.closed p with
  | false => exact ⟨_, rfl⟩
  | true =>
    cases hcomplete : t.complete p with
    | false => exact ⟨_, rfl⟩
    | true =>
      obtain ⟨order, perm, stops⟩ := closed_and_complete_iff.mp ⟨hclosed, hcomplete⟩
      have known : ∀ i ∈ order ++ [depot], i < t.arrivals.length := by
        intro i hi
        have all : (order ++ [depot]).Perm p.nodes :=
          (List.perm_append_singleton _ _).trans (Instance.perm_nodes_iff.mpr perm)
        rw [h]
        exact Instance.mem_nodes.mp (all.mem_iff.mp hi)
      obtain ⟨answer, legs⟩ : ∃ answer, t.checkLegs p p.start t.legs = .ok answer := by
        rw [Tour.legs, stops, List.tail_cons]
        exact exists_checkLegs_eq known
      rw [legs]
      cases answer with
      | some cause => exact ⟨_, rfl⟩
      | none =>
        simp only [Bool.not_true, Bool.false_eq_true, if_false, bind, Except.bind]
        split <;> exact ⟨_, rfl⟩

/-- **What the check of a tour finds out.**  It can be done if every node has an arrival time; it accepts the tour
exactly if the tour keeps the schedule of an order and its makespan matches its return time, and names a defect
otherwise; and the tours that are right are those that it accepts and whose return time is the arrival time of the
depot. -/
theorem tour_check_exact (h : t.arrivals.length = p.numNodes) :
    (t.defect? p = .ok none ↔ (∃ order, t.Scheduled p order) ∧ t.makespan = t.returnTime - p.start) ∧
    ((∃ cause, t.defect? p = .ok (some cause)) ↔
      ¬ ((∃ order, t.Scheduled p order) ∧ t.makespan = t.returnTime - p.start)) ∧
    (t.Right p ↔ t.defect? p = .ok none ∧ t.arrivals[depot]? = some t.returnTime) := by
  refine ⟨defect?_eq_none_iff, ?_, ?_⟩
  · rw [← defect?_eq_none_iff]
    obtain ⟨answer, checked⟩ := exists_defect?_eq h
    rw [checked]
    cases answer <;> simp
  · rw [defect?_eq_none_iff]
    constructor
    · rintro ⟨order, scheduled, returns, makespan⟩
      exact ⟨⟨⟨order, scheduled⟩, makespan⟩, returns ▸ scheduled.arrivals_depot⟩
    · rintro ⟨⟨⟨order, scheduled⟩, makespan⟩, back⟩
      exact ⟨order, scheduled, Option.some.inj (back.symm.trans scheduled.arrivals_depot), makespan⟩

/-- A single city, three away from the depot. -/
def outAndBack : Instance where
  distances := ⟨2, 2, #[0, 3, 3, 0], rfl⟩
  windows := [⟨0, 10⟩, ⟨0, 10⟩]
  sound := by decide

/-- There and back, with a return that is one too late, and so is the makespan. -/
def lateReturn : Tour where
  makespan := 7
  stops := [0, 1, 0]
  arrivals := [6, 3]
  waits := [0, 0]
  returnTime := 7

theorem tour_check_exact_lateReturn : lateReturn.arrivals.length = outAndBack.numNodes ∧
    lateReturn.defect? outAndBack = .ok none ∧ (∃ order, lateReturn.Scheduled outAndBack order) :=
  have known : lateReturn.arrivals.length = outAndBack.numNodes := by decide
  have accepted : lateReturn.defect? outAndBack = .ok none := by decide
  ⟨known, accepted, ((tour_check_exact known).1.mp accepted).1⟩

/-- **A return time that is not the arrival time of the depot is accepted.** -/
theorem accepts_late_return : lateReturn.arrivals.length = outAndBack.numNodes ∧
    ¬ (lateReturn.defect? outAndBack = .ok none ↔ lateReturn.Right outAndBack) := by
  refine ⟨by decide, fun accepts => ?_⟩
  obtain ⟨order, scheduled, returns, -⟩ := accepts.mp (by decide)
  have back := scheduled.arrivals_depot
  rw [← returns] at back
  revert back
  decide

end Tour
end BranchBound.Routing
