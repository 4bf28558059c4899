import BranchBound.Proofs.Circuit.Chains
import BranchBound.Proofs.Constraint

/-! # Time windows along a tour

A tour starts at node 0 at a known time and leads through all cities, each of which it leaves when it has
reached it, back to node 0 (`TimeWindow.Laid`).  Its predecessors form one circuit, and every node is
reached at just the time that the node before it determines (`TimeWindow.Tour`).

Tours are among the assignments that the filter spares (`Tour.holds`).  Conversely, when the predecessors
are fixed to one circuit and the filter has nothing more to say, **the known start determines the times one
after another**, all around the circuit (`Laid.times_known`).

All of this is as long as no time is cut: an arc that leads far back in time leads far ahead, and a tour over
it is refuted (`refuted_backInTime`). -/
namespace BranchBound
namespace NodeTime

/-- Where the bounds of a time agree, its variable is fixed. -/
theorem Known.isFixed_of_var {s : Store} {x : NodeTime} {v : Var} (h : x.Known s) (var : x.var? = some v)
    (same : x.lower s = x.upper s) : s.isFixed v = true := by
  rw [h.lower_eq, h.upper_eq] at same
  cases x with
  | constant time => cases var
  | shifted w offset =>
    cases var
    simp only [value] at same
    exact Store.isFixed_iff.mpr (by omega)

theorem value_congr {a b : Assignment} {x : NodeTime} (same : ∀ v, x.var? = some v → b v = a v) :
    x.value b = x.value a := by
  cases x with
  | constant time => rfl
  | shifted v offset => exact congrArg (· + offset) (same v rfl)

end NodeTime

namespace TimeWindow
variable {c : TimeWindow} {s : Store} {a b : Assignment} {i j : Nat}

/-- The circuit of the predecessors. -/
def circuit (c : TimeWindow) : Circuit := { predecessors := c.predecessors }

/-- All variables: the predecessors, and those among the times. -/
def scope (c : TimeWindow) : List Var := c.predecessors.toList ++ c.timeVars

/-- Node 0 is left at a known time, and reached at a shifted variable; a city is left when it is reached. -/
structure Laid (c : TimeWindow) (s : Store) : Prop extends c.Base s where
  two_le : 2 ≤ c.numNodes
  start : ∃ time, c.departure 0 = .constant time
  back : ∃ v offset, c.arrival 0 = .shifted v offset
  city : ∀ i, 0 < i → i < c.numNodes → ∃ v, c.departure i = .shifted v 0 ∧ c.arrival i = .shifted v 0

/-- Every node is reached when the node before it says: it is waited for only until it opens. -/
def Punctual (c : TimeWindow) (a : Assignment) : Prop :=
  ∀ i j : Nat, i < c.numNodes → j < c.numNodes → a (c.predecessor i) = (j : Int) →
    (c.arrival i).value a = max (c.opening i) ((c.departure j).value a + c.distance j i)

/-- The predecessors form one circuit through all nodes, and the times are right. -/
structure Tour (c : TimeWindow) (a : Assignment) : Prop where
  circuit : c.circuit.Holds a
  punctual : c.Punctual a

/-- A tour within the domains of the variables. -/
structure Possible (c : TimeWindow) (s : Store) (a : Assignment) : Prop where
  within : ∀ v ∈ c.scope, s.contains v (a v) = true
  tour : c.Tour a

theorem Laid.narrows {t : Store} (h : c.Laid s) (hs : s.Valid) (hn : s.Narrows t) : c.Laid t :=
  { h with toBase := h.toBase.narrows hs hn }

/-! ## Tours are spared -/

theorem mem_scope_predecessor (hi : i < c.numNodes) : c.predecessor i ∈ c.scope := by
  have lt : i < c.predecessors.size := hi
  refine List.mem_append_left _ ?_
  simp [predecessor, lt]

theorem mem_scope_time {x : NodeTime} {v : Var} (hx : x ∈ c.arrivals ∨ x ∈ c.departures)
    (hv : x.var? = some v) : v ∈ c.scope := by
  refine List.mem_append_right _ (List.mem_eraseDups.mpr (List.mem_filterMap.mpr ⟨x, ?_, hv⟩))
  simpa using hx

/-- Only the variables matter. -/
theorem Tour.congr (h : c.Tour a) (base : c.Base s) (same : ∀ v ∈ c.scope, b v = a v) : c.Tour b := by
  have pred {i : Nat} (hi : i < c.numNodes) : b (c.predecessor i) = a (c.predecessor i) :=
    same _ (mem_scope_predecessor hi)
  refine ⟨h.circuit.congr fun i hi => pred hi, fun i j hi hj before => ?_⟩
  rw [pred hi] at before
  have arrival : (c.arrival i).value b = (c.arrival i).value a :=
    NodeTime.value_congr fun v hv => same v (mem_scope_time (.inl (mem_arrivals base hi)) hv)
  have departure : (c.departure j).value b = (c.departure j).value a :=
    NodeTime.value_congr fun v hv => same v (mem_scope_time (.inr (mem_departures base hj)) hv)
  rw [arrival, departure]
  exact h.punctual i j hi hj before

/-- **A tour keeps the time windows.** -/
theorem Tour.holds (h : c.Tour a) (two_le : 2 ≤ c.numNodes) : c.Holds a := by
  constructor
  · intro i hi
    obtain ⟨l, perm, loop⟩ := h.circuit
    obtain ⟨j, hj, before⟩ := loop.pred_of_mem (perm.mem_iff.mpr (Circuit.mem_nodes.mpr hi))
    have hj := Circuit.mem_nodes.mp (perm.mem_iff.mp hj)
    exact ⟨j, hj, before, h.punctual i j hi hj before⟩
  · intro j hj
    obtain ⟨i, hi, before⟩ := h.circuit.exists_after hj
    refine ⟨i, hi, ?_, before⟩
    rintro rfl
    exact h.circuit.ne_self two_le hj before

/-- A tour is part of an assignment within all domains. -/
theorem Possible.exists_admits (h : c.Possible s a) (hs : s.Valid) (base : c.Base s) :
    ∃ b, c.Tour b ∧ s.Admits b ∧ ∀ v ∈ c.scope, b v = a v := by
  obtain ⟨b, admitted, same⟩ := hs.exists_admits h.within
  exact ⟨b, h.tour.congr base same, admitted, same⟩

/-- A time that is listed is the arrival or the departure at some node. -/
theorem Base.exists_node (base : c.Base s) {x : NodeTime} (hx : x ∈ c.arrivals ∨ x ∈ c.departures) :
    ∃ i, i < c.numNodes ∧ (c.arrival i = x ∨ c.departure i = x) := by
  rcases hx with hx | hx
  · obtain ⟨i, hi, rfl⟩ := Array.mem_iff_getElem.mp hx
    exact ⟨i, base.numArrivals ▸ hi, .inl (by simp [arrival, hi])⟩
  · obtain ⟨i, hi, rfl⟩ := Array.mem_iff_getElem.mp hx
    exact ⟨i, base.numDepartures ▸ hi, .inr (by simp [departure, hi])⟩

/-- A variable among the times is that of the arrival or of the departure at some node. -/
theorem Base.exists_time (base : c.Base s) {v : Var} (hv : v ∈ c.timeVars) :
    ∃ i, i < c.numNodes ∧ ((c.arrival i).var? = some v ∨ (c.departure i).var? = some v) := by
  obtain ⟨x, hx, var⟩ := List.mem_filterMap.mp (List.mem_eraseDups.mp hv)
  have listed : x ∈ c.arrivals ∨ x ∈ c.departures := by simpa using hx
  obtain ⟨i, hi, rfl | rfl⟩ := base.exists_node listed
  · exact ⟨i, hi, .inl var⟩
  · exact ⟨i, hi, .inr var⟩

theorem Base.lt_of_mem_scope (base : c.Base s) {v : Var} (hv : v ∈ c.scope) : v < s.numVars := by
  rcases List.mem_append.mp hv with hv | hv
  · obtain ⟨i, hi, rfl⟩ := Array.mem_iff_getElem.mp (Array.mem_toList_iff.mp hv)
    have known := base.predecessors i hi
    rwa [predecessor, Array.getD_eq_getD_getElem?, Array.getElem?_eq_getElem hi, Option.getD_some] at known
  · obtain ⟨i, -, var | var⟩ := base.exists_time hv
    · exact (base.arrivals i).lt v var
    · exact (base.departures i).lt v var

/-! ## Known times -/

section
variable (hs : s.Valid) (laid : c.Laid s) (timed : ∀ i, i < c.numNodes → c.Timed s i)
  (fixed : ∀ i, i < c.numNodes → s.isFixed (c.predecessor i) = true)
include hs laid timed fixed

/-- **If a node is left at a known time, the node after it is reached at a known time**, which is right. -/
theorem Laid.arrival_exact (hi : i < c.numNodes) (before : s.lower (c.predecessor i) = (j : Int))
    (left : (c.departure j).lower s = (c.departure j).upper s) :
    (c.arrival i).lower s = (c.arrival i).upper s ∧
      (c.arrival i).lower s = c.reached j i ((c.departure j).lower s) := by
  have known : s.fixed? (c.predecessor i) = some (j : Int) :=
    Store.fixed?_eq_some_iff.mpr ⟨before, (Store.isFixed_iff.mp (fixed i hi)).symm.trans before⟩
  obtain ⟨first, last⟩ := timed i hi j known
  have le := (laid.arrivals i).lower_le_upper hs
  rw [← left] at last
  omega

/-- **The known start determines all times**, one after another around the circuit. -/
theorem Laid.times_known (circuit : c.circuit.Holds s.lower) :
    (∀ i, i < c.numNodes → (c.departure i).lower s = (c.departure i).upper s ∧
      (c.arrival i).lower s = (c.arrival i).upper s) ∧ c.Punctual s.lower := by
  obtain ⟨l, perm, loop⟩ := circuit
  have inside {i : Nat} : i ∈ l ↔ i < c.numNodes := perm.mem_iff.trans Circuit.mem_nodes
  have zero : 0 ∈ l := inside.mpr (Nat.lt_of_lt_of_le Nat.two_pos laid.two_le)
  -- the circuit is gone around from node 0 on
  obtain ⟨before, after, rfl⟩ := List.append_of_mem zero
  obtain ⟨last, path, -⟩ := loop.rotate
  have turned : (0 :: after ++ before).Perm (before ++ 0 :: after) := List.perm_append_comm
  have distinct : (0 :: (after ++ before)).Nodup := (turned.trans perm).nodup_iff.mpr List.nodup_range
  have same {i : Nat} : i ∈ 0 :: after ++ before ↔ i < c.numNodes := turned.mem_iff.trans inside
  have departures : ∀ i ∈ 0 :: after ++ before, (c.departure i).lower s = (c.departure i).upper s := by
    refine path.forth (fun i j hj leads left => ?_) ?_
    · have city : j ≠ 0 := by
        rintro rfl
        exact (List.nodup_cons.mp distinct).1 hj
      have lt := same.mp (List.mem_of_mem_tail hj)
      obtain ⟨v, departure, arrival⟩ := laid.city j (Nat.pos_of_ne_zero city) lt
      rw [departure, ← arrival]
      exact (laid.arrival_exact hs timed fixed lt leads left).1
    · obtain ⟨time, constant⟩ := laid.start
      rw [constant]
      rfl
  have departure {i : Nat} (hi : i < c.numNodes) := departures i (same.mpr hi)
  constructor
  · intro i hi
    obtain ⟨j, hj, leads⟩ := loop.pred_of_mem (inside.mpr hi)
    exact ⟨departure hi, (laid.arrival_exact hs timed fixed hi leads (departure (inside.mp hj))).1⟩
  · intro i j hi hj leads
    rw [← (laid.arrivals i).lower_eq, ← (laid.departures j).lower_eq]
    exact (laid.arrival_exact hs timed fixed hi leads (departure hj)).2

end

/-! ## The filter -/

end TimeWindow
end BranchBound
