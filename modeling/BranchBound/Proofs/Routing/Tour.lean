import BranchBound.Proofs.Routing.Check
import Mathlib.Data.List.Induction

/-! # Tours of routes

A tour is legal if it leaves from the depot, visits every city once and returns, each leg takes the time
that it should, and every node is reached within its window (`Tour.Legal`).  The check of tours accepts
the legal ones (`Tour.Legal.defect?_eq`).

**The tour of a solution that takes a route within the windows is legal** (`Route.legal`): following the
predecessors backwards gives the route, and going along it gives the waiting times. -/
namespace BranchBound.Routing
namespace Tour

/-- When a tour leaves a node. -/
def departure? (p : Instance) (t : Tour) (i : Nat) : Option Int :=
  if i = depot then some p.start else t.arrivals[i]?

/-- A tour goes from one node to another in time, and waits there until the window opens. -/
structure Timely (p : Instance) (t : Tour) (i j : Nat) (departure arrival wait : Int) : Prop where
  departure_eq : t.departure? p i = some departure
  arrival_eq : t.arrivals[j]? = some arrival
  wait_eq : t.waits[j]? = some wait
  arrives : arrival = departure + p.distance i j + wait
  waits : wait = max 0 ((p.window j).earliest - departure - p.distance i j)
  opened : (p.window j).earliest ≤ arrival
  closed : arrival ≤ (p.window j).latest

/-- The tour starts and ends at the depot and visits every city once, its times are right, and every node
is reached within its window. -/
structure Legal (p : Instance) (t : Tour) : Prop where
  stops : ∃ order : List Nat, order.Perm p.cities ∧ t.stops = depot :: (order ++ [depot])
  legs : ∀ i j, (i, j) ∈ t.legs → ∃ departure arrival wait, t.Timely p i j departure arrival wait
  returns : t.arrivals[depot]? = some t.returnTime
  makespan : t.makespan = t.returnTime - p.start

/-! ## The check of a tour -/

variable {p : Instance} {t : Tour} {order : List Nat} {i j source : Nat} {departure : Int}

theorem Timely.arrival_eq_arrival {arrival wait : Int} (leg : t.Timely p i j departure arrival wait) :
    p.arrival i departure j = arrival := by
  have := leg.arrives
  have := leg.waits
  unfold Instance.arrival
  omega

/-- A leg from a node that is left at a known time passes the check. -/
theorem exists_arrival (left : t.departure? p i = some departure)
    (h : ∃ departure arrival wait, t.Timely p i j departure arrival wait) :
    ∃ arrival, t.arrivals[j]? = some arrival ∧ p.arrival i departure j = arrival ∧
      ¬ (p.window j).latest < arrival := by
  obtain ⟨departure', arrival, wait, leg⟩ := h
  obtain rfl : departure = departure' := Option.some.inj (left.symm.trans leg.departure_eq)
  exact ⟨arrival, leg.arrival_eq, leg.arrival_eq_arrival, Int.not_lt.mpr leg.closed⟩

/-- The legs along some cities and back to the depot pass the check. -/
theorem checkLegs_eq (cities : ∀ i ∈ order, i ≠ depot) (left : t.departure? p source = some departure)
    (timely : ∀ i j, (i, j) ∈ (source :: (order ++ [depot])).zip (order ++ [depot]) →
      ∃ departure arrival wait, t.Timely p i j departure arrival wait) :
    t.checkLegs p departure ((source :: (order ++ [depot])).zip (order ++ [depot])) = .ok none := by
  induction order generalizing source departure with
  | nil =>
    obtain ⟨arrival, here, expected, inTime⟩ := exists_arrival left (timely _ _ List.mem_cons_self)
    simp only [List.nil_append, List.zip_cons_cons, List.zip_nil_right, checkLegs, here, expected, ne_eq,
      not_true_eq_false, if_false, if_neg inTime]
  | cons target order ih =>
    obtain ⟨arrival, here, expected, inTime⟩ := exists_arrival left (timely _ _ List.mem_cons_self)
    have left' : t.departure? p target = some arrival := by
      rw [departure?, if_neg (cities target List.mem_cons_self), here]
    simp only [List.cons_append, List.zip_cons_cons, checkLegs, here, expected, ne_eq,
      not_true_eq_false, if_false, if_neg inTime]
    exact ih (fun i hi => cities i (List.mem_cons_of_mem _ hi)) left'
      fun i j hij => timely i j (List.mem_cons_of_mem _ hij)

/-- **A legal tour passes the check.** -/
theorem Legal.defect?_eq (h : t.Legal p) : t.defect? p = .ok none := by
  obtain ⟨order, perm, stops⟩ := h.stops
  have legs : t.legs = (depot :: (order ++ [depot])).zip (order ++ [depot]) := by
    rw [Tour.legs, stops, List.tail_cons]
  have checked : t.checkLegs p p.start t.legs = .ok none := by
    rw [legs]
    refine checkLegs_eq (fun i hi => (Instance.mem_cities.mp (perm.mem_iff.mp hi)).2) (if_pos rfl) ?_
    rw [← legs]
    exact h.legs
  exact defect?_eq_none_iff.mpr
    ⟨exists_scheduled_iff.mpr ⟨closed_and_complete_iff.mpr h.stops, checked⟩, h.makespan⟩

end Tour

namespace Instance
variable {p : Instance} {s : Solution} {order : List Nat} {i j last : Nat}

/-! ## Successors -/

section
variable {f : Nat → Nat} {l : List Nat} {next : Array Nat}

theorem size_foldl_setIfInBounds :
    (l.foldl (fun next node => next.setIfInBounds (f node) node) next).size = next.size := by
  induction l generalizing next with
  | nil => rfl
  | cons x l ih => rw [List.foldl_cons, ih, Array.size_setIfInBounds]

/-- What is written to distinct places can be read there. -/
theorem getElem?_foldl_setIfInBounds (inj : ∀ i ∈ l, ∀ j ∈ l, f i = f j → i = j) (hj : j ∈ l)
    (hlt : f j < next.size) :
    (l.foldl (fun next node => next.setIfInBounds (f node) node) next)[f j]? = some j := by
  induction l using List.reverseRecOn with
  | nil => cases hj
  | append_singleton l x ih =>
    rw [List.foldl_append, List.foldl_cons, List.foldl_nil, Array.getElem?_setIfInBounds,
      size_foldl_setIfInBounds]
    have mem {i : Nat} (hi : i ∈ l) : i ∈ l ++ [x] := List.mem_append_left _ hi
    have hx : x ∈ l ++ [x] := List.mem_append_right _ (List.mem_singleton_self x)
    by_cases heq : x = j
    · rw [heq, if_pos rfl, if_pos hlt]
    · rw [if_neg fun h => heq (inj x hx j hj h)]
      refine ih (fun i hi j hj => inj i (mem hi) j (mem hj)) ?_
      exact (List.mem_append.mp hj).resolve_right fun h => heq (List.mem_singleton.mp h).symm

end

/-- No node is the predecessor of two nodes. -/
theorem Route.predecessor_injective {a : Assignment} (h : p.Route a order) :
    ∀ i ∈ p.nodes, ∀ j ∈ p.nodes, (a (predecessor i)).toNat = (a (predecessor j)).toNat → i = j := by
  obtain ⟨last, path, back⟩ := h.loop
  have perm := perm_nodes_iff.mpr h.perm
  have loop : Loop (p.Leg a) (depot :: order) := ⟨depot, last, path, back⟩
  have onto : p.nodes ⊆ p.nodes.map fun i => (a (predecessor i)).toNat := by
    intro i hi
    obtain ⟨j, hj, leg⟩ := loop.succ_of_mem (perm.mem_iff.mpr hi)
    exact List.mem_map.mpr ⟨j, perm.mem_iff.mp hj, by rw [leg.1, Int.toNat_natCast]⟩
  have nodup : p.nodes.Nodup := List.nodup_range
  have same := (List.subperm_of_subset nodup onto).perm_of_length_le (Nat.le_of_eq (List.length_map _))
  intro i hi j hj heq
  exact List.inj_on_of_nodup_map (same.nodup_iff.mp nodup) hi hj heq

theorem Route.successors_eq (h : p.Route s.value order) (hi : i < p.numNodes) (hj : j < p.numNodes)
    (leg : p.Leg s.value i j) : (p.successors s).getD i depot = j := by
  have inside : (s.value (predecessor j)).toNat < (Array.replicate p.numNodes depot).size := by
    rw [leg.1, Int.toNat_natCast, Array.size_replicate]
    exact hi
  have written := getElem?_foldl_setIfInBounds h.predecessor_injective (mem_nodes.mpr hj) inside
  rw [leg.1, Int.toNat_natCast] at written
  unfold successors
  rw [Array.getD_eq_getD_getElem?, written]
  rfl

/-- Following the successors goes along a path to the depot. -/
theorem follow_eq {R : Nat → Nat → Prop} {next : Array Nat} {n : Nat}
    (path : Path R i (order ++ [depot]) depot) (cities : ∀ i ∈ order, i ≠ depot)
    (successor : ∀ i ∈ order, ∀ j ∈ order ++ [depot], R i j → next.getD i depot = j) (hn : order.length ≤ n) :
    follow next n i = order ++ [depot] := by
  induction order generalizing i n with
  | nil =>
    obtain rfl := path.of_cons.1
    cases n with
    | zero => rfl
    | succ n => exact if_pos rfl
  | cons first order ih =>
    obtain ⟨rfl, ⟨hnil, -⟩ | ⟨second, h, path⟩⟩ := path.of_cons
    · exact absurd hnil (by simp)
    · obtain ⟨n, rfl⟩ := Nat.exists_eq_succ_of_ne_zero (Nat.ne_of_gt (Nat.lt_of_lt_of_le
        (Nat.zero_lt_succ _) hn))
      have there := successor i List.mem_cons_self second (List.mem_cons_of_mem _ path.first_mem) h
      rw [follow, if_neg (cities i List.mem_cons_self), there, ih path
        (fun i hi => cities i (List.mem_cons_of_mem _ hi))
        (fun i hi j hj => successor i (List.mem_cons_of_mem _ hi) j (List.mem_cons_of_mem _ hj))
        (Nat.le_of_succ_le_succ hn)]
      rfl

/-! ## Waiting times -/

/-- Along some cities and to the depot, every wait lasts from when a node could be reached until its window
opens; elsewhere nothing is written. -/
theorem waitsAlong_eq {a : Assignment} {arrivals waits : Array Int} (cities : ∀ i ∈ order, i ≠ depot)
    (times : ∀ i ∈ order, arrivals.getD i 0 = p.leaving a i) (nodup : (order ++ [depot]).Nodup)
    (inside : ∀ j ∈ order ++ [depot], j < waits.size) :
    (∀ k, k ∉ order ++ [depot] → (p.waitsAlong arrivals (p.leaving a i)
      ((i :: (order ++ [depot])).zip (order ++ [depot])) waits)[k]? = waits[k]?) ∧
    ∀ u v, (u, v) ∈ (i :: (order ++ [depot])).zip (order ++ [depot]) → (p.waitsAlong arrivals
      (p.leaving a i) ((i :: (order ++ [depot])).zip (order ++ [depot])) waits)[v]? =
        some (max ((p.window v).earliest - (p.leaving a u + p.distance u v)) 0) := by
  induction order generalizing i waits with
  | nil =>
    refine ⟨fun k hk => ?_, fun u v huv => ?_⟩
    · have other : depot ≠ k := fun heq => hk (List.mem_singleton.mpr heq.symm)
      exact Array.getElem?_setIfInBounds_ne other
    · obtain ⟨rfl, rfl⟩ := Prod.mk.inj (List.mem_singleton.mp huv)
      exact Array.getElem?_setIfInBounds_self_of_lt (inside _ (List.mem_singleton_self _))
  | cons target order ih =>
    obtain ⟨fresh, nodup⟩ := List.nodup_cons.mp nodup
    have size (x : Int) : (waits.setIfInBounds target x).size = waits.size :=
      Array.size_setIfInBounds
    obtain ⟨others, written⟩ := @ih target (waits.setIfInBounds target
        (max ((p.window target).earliest - (p.leaving a i + p.distance i target)) 0))
      (fun i hi => cities i (List.mem_cons_of_mem _ hi)) (fun i hi => times i (List.mem_cons_of_mem _ hi))
      nodup fun j hj => size _ ▸ inside j (List.mem_cons_of_mem _ hj)
    simp only [List.cons_append, List.zip_cons_cons, waitsAlong, times target List.mem_cons_self]
    refine ⟨fun k hk => ?_, fun u v huv => ?_⟩
    · have other : target ≠ k := fun heq => hk (heq ▸ List.mem_cons_self)
      rw [others k fun h => hk (List.mem_cons_of_mem _ h)]
      exact Array.getElem?_setIfInBounds_ne other
    · rcases List.mem_cons.mp huv with heq | huv
      · obtain ⟨rfl, rfl⟩ := Prod.mk.inj heq
        rw [others _ fresh]
        exact Array.getElem?_setIfInBounds_self_of_lt (inside _ List.mem_cons_self)
      · exact written u v huv

/-! ## The tour of a route -/

theorem arrivals_eq : (p.tour s).arrivals = p.nodes.map (p.reaching s.value) := by
  rw [nodes_eq, List.map_cons]
  refine congrArg₂ List.cons ?_ (List.map_congr_left fun i hi => ?_)
  · rw [reaching, if_pos rfl, Int.add_comm]
  · rw [reaching, if_neg (mem_cities.mp hi).2]

theorem arrivals_get (hi : i < p.numNodes) : (p.tour s).arrivals[i]? = some (p.reaching s.value i) := by
  rw [arrivals_eq, List.getElem?_map, nodes, List.getElem?_range hi]
  rfl

namespace Route
variable (h : p.Route s.value order)
include h

theorem around : ∃ last, Path (p.Leg s.value) depot (depot :: (order ++ [depot])) last := by
  obtain ⟨last, path, back⟩ := h.loop
  exact ⟨depot, path.append back (.single depot)⟩

theorem inside : ∀ i ∈ depot :: (order ++ [depot]), i < p.numNodes := by
  intro i hi
  refine mem_nodes.mp ((perm_nodes_iff.mpr h.perm).mem_iff.mp ?_)
  rcases List.mem_cons.mp hi with rfl | hi
  · exact List.mem_cons_self
  · exact (List.mem_append.mp hi).elim (List.mem_cons_of_mem _)
      fun h => List.mem_singleton.mp h ▸ List.mem_cons_self

/-- **The tour of a solution visits the cities of its route in their order.** -/
theorem stops_eq : (p.tour s).stops = depot :: (order ++ [depot]) := by
  have length : order.length + 1 = p.numNodes := by
    have := (perm_nodes_iff.mpr h.perm).length_eq
    rwa [List.length_cons, nodes, List.length_range] at this
  obtain ⟨last, path, back⟩ := h.loop
  have around : Path (p.Leg s.value) depot (depot :: (order ++ [depot])) depot :=
    path.append back (.single depot)
  obtain ⟨-, ⟨hnil, -⟩ | ⟨first, leg, path⟩⟩ := around.of_cons
  · exact absurd hnil (by simp)
  have leave := h.successors_eq (h.inside depot List.mem_cons_self)
    (h.inside first (List.mem_cons_of_mem _ path.first_mem)) leg
  change depot :: follow (p.successors s) p.numNodes ((p.successors s).getD depot depot) = _
  rw [leave, follow_eq path h.cities (fun i hi j hj leg => h.successors_eq
    (h.inside i (List.mem_cons_of_mem _ (List.mem_append_left _ hi)))
    (h.inside j (List.mem_cons_of_mem _ hj)) leg) (length ▸ Nat.le_succ _)]

theorem waits_get (hij : (i, j) ∈ (depot :: (order ++ [depot])).zip (order ++ [depot])) :
    (p.tour s).waits[j]? =
      some (max ((p.window j).earliest - (p.leaving s.value i + p.distance i j)) 0) := by
  have nodup : (order ++ [depot]).Nodup :=
    ((List.perm_append_singleton _ _).trans (perm_nodes_iff.mpr h.perm)).nodup_iff.mpr List.nodup_range
  have times (i : Nat) (hi : i ∈ order) :
      (p.tour s).arrivals.toArray.getD i 0 = p.leaving s.value i := by
    have hlt := h.inside i (List.mem_cons_of_mem _ (List.mem_append_left _ hi))
    rw [Array.getD_eq_getD_getElem?, List.getElem?_toArray, arrivals_get hlt,
      leaving_eq_reaching (h.cities i hi)]
    rfl
  have inside : ∀ j ∈ order ++ [depot], j < (Array.replicate p.numNodes (0 : Int)).size := fun j hj => by
    rw [Array.size_replicate]
    exact h.inside j (List.mem_cons_of_mem _ hj)
  have written := (waitsAlong_eq (i := depot) h.cities times nodup inside).2 i j hij
  have stops := h.stops_eq
  change (p.waitsAlong (p.tour s).arrivals.toArray p.start
    ((p.tour s).stops.zip (p.tour s).stops.tail) _).toList[j]? = _
  rw [Array.getElem?_toList, stops]
  exact written

/-- **The tour of a solution that takes a route within the windows is legal.** -/
theorem legal (onTime : ∀ i, i < p.numNodes → p.reaching s.value i ≤ (p.window i).latest) :
    (p.tour s).Legal p where
  stops := ⟨order, h.perm, h.stops_eq⟩
  legs i j hij := by
    rw [Tour.legs, h.stops_eq] at hij
    obtain ⟨last, around⟩ := h.around
    have leg := around.of_mem_zip hij
    have hi := h.inside i (List.of_mem_zip hij).1
    have hj := h.inside j (List.mem_cons_of_mem _ (List.of_mem_zip hij).2)
    have arrival := leg.2
    unfold Instance.arrival at arrival
    refine ⟨p.leaving s.value i, _, _, ?_, arrivals_get hj, h.waits_get hij, ?_, ?_, ?_, onTime j hj⟩
    · rw [Tour.departure?, arrivals_get hi, leaving]
      split
      · rfl
      · rename_i hne
        rw [reaching, if_neg hne]
    · omega
    · omega
    · omega
  returns := rfl
  makespan := by
    change s.value p.makespan = p.start + s.value p.makespan - p.start
    omega

end Route

end Instance
end BranchBound.Routing
