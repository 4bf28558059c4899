import BranchBound.Proofs.Loading
import BranchBound.Proofs.Routing.Order
import BranchBound.Proofs.TimeWindow.Tour

/-! # The model of a tour

The constraints of the model suit the ranges of its variables, so it can be loaded (`exists_load`).  They
hold for an assignment that takes a route through all cities (`Route.holds`).  Conversely, when the engine
is quiet and the predecessors are fixed, all variables are, and what they are fixed to takes a route
(`exists_route_of_quiet`). -/
namespace BranchBound.Routing
namespace Instance
variable {p : Instance} {i j : Nat} {a : Assignment}

/-! ## What is sound about an instance -/

theorem depot_lt : depot < p.numNodes := Nat.lt_of_lt_of_le Nat.two_pos two_le_numNodes

theorem window_eq (hi : i < p.numNodes) : p.windows[i]? = some (p.window i) := by
  unfold window window?
  rw [List.getElem?_eq_getElem hi]
  rfl

theorem defects_eq_none : distanceDefect? p.numNodes p.distances = none ∧
    ∀ i, i < p.numNodes → windowDefect? i (p.window i) = none := by
  have h := p.sound
  unfold defect? at h
  rw [show sizeDefect? p.windows.length p.distances.numRows = none from sizeDefect?_eq_none] at h
  cases distances : distanceDefect? p.numNodes p.distances with
  | some cause =>
    rw [show distanceDefect? p.windows.length p.distances = some cause from distances] at h
    cases h
  | none =>
    rw [show distanceDefect? p.windows.length p.distances = none from distances] at h
    exact ⟨rfl, fun i hi => List.findSome?_eq_none_iff.mp h (p.window i, i)
      (List.mem_zipIdx_iff_getElem?.mpr (window_eq hi))⟩

theorem window_sound (hi : i < p.numNodes) : 0 ≤ (p.window i).earliest ∧
    (p.window i).earliest ≤ (p.window i).latest ∧ (p.window i).latest ≤ Word.maxValue := by
  have h := defects_eq_none.2 i hi
  unfold windowDefect? at h
  split at h
  · cases h
  · split at h
    · cases h
    · omega

theorem distances_sound : p.distances.numRows = p.numNodes ∧ p.distances.numColumns = p.numNodes ∧
    ∀ x ∈ p.distances.toList, 0 ≤ x ∧ x ≤ Word.maxValue := by
  have rows := sizeDefect?_eq_none (p := p)
  unfold sizeDefect? at rows
  have h := defects_eq_none (p := p).1
  unfold distanceDefect? at h
  split at h
  · cases h
  · rename_i columns
    refine ⟨?_, Decidable.not_not.mp columns, ?_⟩
    · split at rows
      · cases rows
      · split at rows
        · cases rows
        · rename_i h
          exact Decidable.not_not.mp h
    · split at h
      · cases h
      · cases h
      · rename_i least greatest
        intro x hx
        have := List.find?_eq_none.mp least x hx
        have := List.find?_eq_none.mp greatest x hx
        simp only [decide_eq_true_eq] at *
        omega

theorem exists_distance (hi : i < p.numNodes) (hj : j < p.numNodes) :
    p.distances.get? i j = some (p.distance i j) := by
  obtain ⟨rows, columns, -⟩ := distances_sound (p := p)
  obtain ⟨x, -, hx⟩ := Matrix.exists_get? (m := p.distances) (i := i) (j := j) (rows ▸ hi) (columns ▸ hj)
  rw [distance, distance?, hx]
  rfl

theorem small_of_sound {x : Int} (h : 0 ≤ x ∧ x ≤ Word.maxValue) : Word.Small x := by
  unfold Word.maxValue at h
  unfold Word.Small
  omega

theorem small_distance (hi : i < p.numNodes) (hj : j < p.numNodes) : Word.Small (p.distance i j) :=
  small_of_sound (distances_sound.2.2 _ (Array.mem_toList_iff.mpr (Array.mem_of_getElem? (exists_distance hi hj))))

/-! ## Variables -/

theorem length_ranges : p.model.ranges.length = 2 * p.numNodes := by
  have := two_le_numNodes (p := p)
  unfold numNodes at *
  simp only [model, nodes, numNodes, List.length_append, List.length_map, List.length_range,
    List.length_tail, List.length_singleton]
  omega

theorem ranges_predecessor (hi : i < p.numNodes) :
    p.model.ranges[predecessor i]? = some (0, (p.numNodes : Int) - 1) := by
  simp [model, nodes, predecessor, List.getElem?_append, hi]

theorem ranges_arrivalTime (hi : i < p.numNodes) (hd : i ≠ depot) :
    p.model.ranges[p.arrivalTime i]? = some ((p.window i).earliest, (p.window i).latest) := by
  obtain ⟨k, rfl⟩ := Nat.exists_eq_succ_of_ne_zero hd
  have length : (p.nodes.map fun _ => ((0 : Int), (p.numNodes : Int) - 1)).length = p.numNodes := by
    rw [List.length_map, nodes, List.length_range]
  have entry : p.windows.tail[k]? = some (p.window (k + 1)) := by
    rw [List.getElem?_tail, window_eq hi]
  have inside := (List.getElem?_eq_some_iff.mp entry).1
  change (_ ++ _ ++ [_])[p.numNodes + k]? = _
  rw [List.append_assoc, List.getElem?_append_right (by omega), length, Nat.add_sub_cancel_left,
    List.getElem?_append_left (by rwa [List.length_map]), List.getElem?_map, entry]
  rfl

theorem ranges_makespan :
    p.model.ranges[p.makespan]? = some (0, (p.window depot).latest - p.start) := by
  have length := length_ranges (p := p)
  unfold model at length ⊢
  dsimp only at length ⊢
  rw [List.length_append, List.length_singleton] at length
  have last : p.makespan = (p.nodes.map (fun _ => ((0 : Int), (p.numNodes : Int) - 1)) ++
      p.windows.tail.map fun w => (w.earliest, w.latest)).length :=
    (Nat.eq_sub_of_add_eq length).symm
  rw [last, List.getElem?_concat_length]

/-- Every variable is a predecessor, the arrival time at a city, or the makespan. -/
theorem var_cases {v : Nat} (hv : v < 2 * p.numNodes) :
    (∃ i, i < p.numNodes ∧ v = predecessor i) ∨
      (∃ i, i < p.numNodes ∧ i ≠ depot ∧ v = p.arrivalTime i) ∨ v = p.makespan := by
  by_cases hp : v < p.numNodes
  · exact .inl ⟨v, hp, rfl⟩
  · by_cases hm : v = 2 * p.numNodes - 1
    · exact .inr (.inr hm)
    · have city : p.numNodes + (v + 1 - p.numNodes) - 1 = v := by omega
      exact .inr (.inl ⟨v + 1 - p.numNodes, by omega, Nat.ne_of_gt (by unfold depot; omega), city.symm⟩)

/-! ## Constraints -/

theorem numNodes_circuit : p.circuit.numNodes = p.numNodes := by
  simp [circuit, Circuit.numNodes, predecessors, nodes]

theorem predecessor_circuit (hi : i < p.numNodes) : p.circuit.predecessor i = predecessor i := by
  simp [circuit, Circuit.predecessor, predecessors, nodes, hi]

theorem numNodes_timeWindow : p.timeWindow.numNodes = p.numNodes := numNodes_circuit

theorem predecessor_timeWindow (hi : i < p.numNodes) :
    p.timeWindow.predecessor i = predecessor i := predecessor_circuit hi

theorem cityTimes_eq (hi : i + 1 < p.numNodes) :
    p.cityTimes[i]? = some (.shifted (p.arrivalTime (i + 1)) 0) := by
  have city : p.nodes[i + 1]? = p.cities[i]? := by rw [nodes_eq, List.getElem?_cons_succ]
  rw [nodes, List.getElem?_range hi] at city
  rw [cityTimes, List.getElem?_map, ← city]
  rfl

theorem departure_timeWindow (hi : i < p.numNodes) : p.timeWindow.departure i =
    if i = depot then .constant p.start else .shifted (p.arrivalTime i) 0 := by
  cases i with
  | zero => rfl
  | succ i =>
    have city := cityTimes_eq hi
    simp [timeWindow, TimeWindow.departure, city, depot, Array.getD_eq_getD_getElem?]

theorem arrival_timeWindow (hi : i < p.numNodes) : p.timeWindow.arrival i =
    if i = depot then .shifted p.makespan p.start else .shifted (p.arrivalTime i) 0 := by
  cases i with
  | zero => rfl
  | succ i =>
    have city := cityTimes_eq hi
    simp [timeWindow, TimeWindow.arrival, city, depot, Array.getD_eq_getD_getElem?]

theorem opening_timeWindow (hi : i < p.numNodes) : p.timeWindow.opening i = (p.window i).earliest := by
  simp [TimeWindow.opening, timeWindow, Array.getD_eq_getD_getElem?, window_eq hi]

theorem reached_timeWindow (hi : i < p.numNodes) (time : Int) :
    p.timeWindow.reached j i time = p.arrival j time i := by
  rw [TimeWindow.reached, opening_timeWindow hi]
  rfl

theorem departure_value (hi : i < p.numNodes) :
    (p.timeWindow.departure i).value a = p.leaving a i := by
  rw [departure_timeWindow hi, leaving]
  split
  · rfl
  · exact Int.add_zero _

theorem arrival_value (hi : i < p.numNodes) :
    (p.timeWindow.arrival i).value a = p.reaching a i := by
  rw [arrival_timeWindow hi, reaching]
  split
  · rfl
  · exact Int.add_zero _

section
variable {s : Store} (spans : s.Spans p.model.ranges)
include spans

theorem numVars_eq : s.numVars = 2 * p.numNodes := spans.numVars_eq.trans length_ranges

theorem known_predecessor (hi : i < p.numNodes) : predecessor i < s.numVars := by
  rw [numVars_eq spans]
  exact Nat.lt_of_lt_of_le hi (Nat.le_mul_of_pos_left _ Nat.two_pos)

theorem known_makespan : p.makespan < s.numVars :=
  spans.numVars_eq.symm ▸ (List.getElem?_eq_some_iff.mp ranges_makespan).1

theorem predecessor_isNode (hi : i < p.numNodes) (x : Int)
    (hx : s.contains (predecessor i) x = true) : ∃ j : Nat, j < p.numNodes ∧ x = j := by
  have := (spans.contains_iff _ _ _ (ranges_predecessor hi) x).mp hx
  exact ⟨x.toNat, by omega, by omega⟩

/-- A variable of a circuit, or of what follows the same nodes, is a predecessor. -/
theorem known_of_mem {v : Var} (hv : v ∈ p.predecessors.toArray) : v < s.numVars := by
  obtain ⟨i, hi, rfl⟩ := List.mem_map.mp (List.mem_toArray.mp hv)
  exact known_predecessor spans (mem_nodes.mp hi)

theorem suits_circuit : (Constraint.circuit p.circuit).Suits s where
  fits := rfl
  watched v events hv := by
    obtain ⟨w, hw, heq⟩ := List.mem_map.mp hv
    cases heq
    exact known_of_mem spans (Array.mem_toList_iff.mp hw)
  circuit d hd := by
    cases hd
    refine ⟨numNodes_circuit ▸ two_le_numNodes, fun i j hi hj h => ?_, fun i hi => ?_, fun i hi x hx => ?_⟩
    · rw [numNodes_circuit] at hi hj
      rw [predecessor_circuit hi, predecessor_circuit hj] at h
      exact h
    · rw [numNodes_circuit] at hi
      rw [predecessor_circuit hi]
      exact known_predecessor spans hi
    · rw [numNodes_circuit] at hi ⊢
      rw [predecessor_circuit hi] at hx
      exact predecessor_isNode spans hi x hx
  rule r hr := by cases hr

/-! ### Times -/

theorem lt_of_mem_cityTimes {x : NodeTime} {v : Var} (hx : x ∈ p.cityTimes) (hv : x.var? = some v) :
    v < s.numVars := by
  obtain ⟨i, hi, rfl⟩ := List.mem_map.mp hx
  cases hv
  have city := mem_cities.mp hi
  exact spans.numVars_eq.symm ▸ (List.getElem?_eq_some_iff.mp (ranges_arrivalTime city.1 city.2)).1

theorem lt_of_mem_departures {x : NodeTime} {v : Var} (hx : x ∈ p.timeWindow.departures)
    (hv : x.var? = some v) : v < s.numVars := by
  rcases List.mem_cons.mp (List.mem_toArray.mp hx) with rfl | hx
  · cases hv
  · exact lt_of_mem_cityTimes spans hx hv

theorem lt_of_mem_arrivals {x : NodeTime} {v : Var} (hx : x ∈ p.timeWindow.arrivals)
    (hv : x.var? = some v) : v < s.numVars := by
  rcases List.mem_cons.mp (List.mem_toArray.mp hx) with rfl | hx
  · cases hv
    exact known_makespan spans
  · exact lt_of_mem_cityTimes spans hx hv

variable (hs : s.Valid)
include hs

/-- The bounds of a variable with small values are small. -/
theorem small_bounds {v : Var} {lower upper : Int} (range : p.model.ranges[v]? = some (lower, upper))
    (least : 0 ≤ lower) (most : upper ≤ Word.maxValue) : Word.Small (s.lower v) ∧ Word.Small (s.upper v) := by
  have first := (spans.contains_iff v lower upper range _).mp (hs.contains_lower v)
  have last := (spans.contains_iff v lower upper range _).mp (hs.contains_upper v)
  exact ⟨small_of_sound (by omega), small_of_sound (by omega)⟩

theorem small_cityTime {x : NodeTime} (hx : x ∈ p.cityTimes) : x.Small s := by
  obtain ⟨i, hi, rfl⟩ := List.mem_map.mp hx
  have city := mem_cities.mp hi
  obtain ⟨least, -, most⟩ := window_sound city.1
  obtain ⟨lower, upper⟩ := small_bounds spans hs (ranges_arrivalTime city.1 city.2) least most
  exact ⟨lower, upper, by decide⟩

omit spans hs in
theorem small_start : Word.Small p.start := by
  have := window_sound (p := p) depot_lt
  exact small_of_sound (by unfold start; omega)

theorem small_departure (i : Nat) : (p.timeWindow.departure i).Small s := by
  rcases TimeWindow.departure_mem_or (c := p.timeWindow) i with hx | constant
  · rcases List.mem_cons.mp (List.mem_toArray.mp hx) with start | hx
    · rw [start]
      exact small_start
    · exact small_cityTime spans hs hx
  · rw [constant]
    exact (by decide : Word.Small 0)

theorem small_arrival (i : Nat) : (p.timeWindow.arrival i).Small s := by
  rcases TimeWindow.arrival_mem_or (c := p.timeWindow) i with hx | constant
  · rcases List.mem_cons.mp (List.mem_toArray.mp hx) with back | hx
    · have sound := window_sound (p := p) depot_lt
      obtain ⟨lower, upper⟩ := small_bounds spans hs ranges_makespan (by omega) (by unfold start; omega)
      rw [back]
      exact ⟨lower, upper, small_start⟩
    · exact small_cityTime spans hs hx
  · rw [constant]
    exact (by decide : Word.Small 0)

theorem base_timeWindow : p.timeWindow.Base s where
  numDepartures := by
    rw [numNodes_timeWindow, timeWindow, List.size_toArray, List.length_cons, cityTimes,
      List.length_map, ← List.length_cons, ← nodes_eq, nodes, List.length_range]
  numArrivals := by
    rw [numNodes_timeWindow, timeWindow, List.size_toArray, List.length_cons, cityTimes,
      List.length_map, ← List.length_cons, ← nodes_eq, nodes, List.length_range]
  numOpenings := by
    rw [numNodes_timeWindow, timeWindow, List.size_toArray, List.length_map]
    rfl
  distances i j hi hj := by
    rw [numNodes_timeWindow] at hi hj
    exact ⟨_, exists_distance hi hj⟩
  departures i := (small_departure spans hs i).known fun v hv => by
    rcases TimeWindow.departure_mem_or (c := p.timeWindow) i with hx | constant
    · exact lt_of_mem_departures spans hx hv
    · rw [constant] at hv
      cases hv
  arrivals i := (small_arrival spans hs i).known fun v hv => by
    rcases TimeWindow.arrival_mem_or (c := p.timeWindow) i with hx | constant
    · exact lt_of_mem_arrivals spans hx hv
    · rw [constant] at hv
      cases hv
  predecessors i hi := by
    rw [numNodes_timeWindow] at hi
    rw [predecessor_timeWindow hi]
    exact known_predecessor spans hi
  sources i hi x hx := by
    rw [numNodes_timeWindow] at hi ⊢
    rw [predecessor_timeWindow hi] at hx
    exact predecessor_isNode spans hi x hx
  clear i j hi hj _ := by
    rw [numNodes_timeWindow] at hi hj
    refine .of_small (small_departure spans hs j) (small_arrival spans hs i) (small_distance hj hi) ?_
    rw [opening_timeWindow hi]
    have := window_sound hi
    exact small_of_sound (by omega)

theorem suits_timeWindow : (Constraint.timeWindow p.timeWindow).Suits s where
  fits := rfl
  watched v events hv := by
    rcases List.mem_append.mp hv with hv | hv
    · obtain ⟨w, hw, heq⟩ := List.mem_map.mp hv
      cases heq
      exact known_of_mem spans (Array.mem_toList_iff.mp hw)
    · obtain ⟨w, hw, heq⟩ := List.mem_map.mp hv
      cases heq
      obtain ⟨x, hx, hv⟩ := List.mem_filterMap.mp (List.mem_eraseDups.mp hw)
      rcases List.mem_append.mp hx with hx | hx
      · exact lt_of_mem_arrivals spans (Array.mem_toList_iff.mp hx) hv
      · exact lt_of_mem_departures spans (Array.mem_toList_iff.mp hx) hv
  circuit d hd := by cases hd
  rule r hr := by
    cases hr
    exact base_timeWindow spans hs

end

/-- The constraints suit the ranges. -/
theorem suits {s : Store} (hs : s.Valid) (spans : s.Spans p.model.ranges) : ∀ c ∈ p.model.constraints, c.Suits s := by
  intro c hc
  rcases List.mem_cons.mp hc with rfl | hc
  · exact suits_circuit spans
  · rw [List.mem_singleton.mp hc]
    exact suits_timeWindow spans hs

/-- No range is empty. -/
theorem ranges_nonempty : ∀ r ∈ p.model.ranges, r.1 ≤ r.2 := by
  intro r hr
  obtain ⟨v, hv⟩ := List.mem_iff_getElem?.mp hr
  have hlt := (List.getElem?_eq_some_iff.mp hv).1
  rw [length_ranges] at hlt
  rcases var_cases hlt with ⟨i, hi, heq⟩ | ⟨i, hi, hd, heq⟩ | heq <;> rw [heq] at hv
  · rw [ranges_predecessor hi] at hv
    cases hv
    exact Int.le_sub_one_of_lt (Int.ofNat_lt.mpr (Nat.zero_lt_of_lt hi))
  · rw [ranges_arrivalTime hi hd] at hv
    cases hv
    exact (window_sound hi).2.1
  · rw [ranges_makespan] at hv
    cases hv
    have := (window_sound (p := p) depot_lt).2.1
    unfold start
    dsimp only
    omega

/-- **The model can be loaded.** -/
theorem exists_load : ∃ e, p.model.load = .ok e ∧ e.Faithful p.model :=
  Engine.exists_load ranges_nonempty rfl fun _ hs spans => suits hs spans

/-! ## Routes and constraints -/

/-- **The constraints hold for an assignment that takes a route.** -/
theorem Route.holds {order : List Nat} (h : p.Route a order) : ∀ c ∈ p.model.constraints, c.Holds a := by
  obtain ⟨last, path, back⟩ := h.loop
  have perm := perm_nodes_iff.mpr h.perm
  have inside {i : Nat} (hi : i ∈ depot :: order) : i < p.numNodes := mem_nodes.mp (perm.mem_iff.mp hi)
  have loop : Loop (p.Leg a) (depot :: order) := ⟨depot, last, path, back⟩
  have circuit : p.circuit.Holds a := by
    refine ⟨depot :: order, by rw [Circuit.nodes, numNodes_circuit]; exact perm, loop.mono fun u v hv leg => ?_⟩
    unfold Circuit.Before
    rw [predecessor_circuit (inside hv)]
    exact leg.1
  have tour : p.timeWindow.Tour a := by
    refine ⟨circuit, fun i j hi hj before => ?_⟩
    rw [numNodes_timeWindow] at hi hj
    rw [predecessor_timeWindow hi] at before
    obtain ⟨j', -, leg⟩ := loop.pred_of_mem (perm.mem_iff.mpr (mem_nodes.mpr hi))
    obtain rfl : j = j' := Int.ofNat.inj (before.symm.trans leg.1)
    rw [arrival_value hi, departure_value hj, leg.2]
    exact (reached_timeWindow hi _).symm
  intro c hc
  rcases List.mem_cons.mp hc with rfl | hc
  · refine ⟨fun d hd => ?_, fun r hr => (by cases hr)⟩
    cases hd
    exact circuit
  · rw [List.mem_singleton.mp hc]
    refine ⟨fun d hd => (by cases hd), fun r hr => ?_⟩
    cases hr
    exact tour.holds (numNodes_timeWindow ▸ two_le_numNodes)

/-! ## What is fixed -/

section
variable {s : Store} (base : p.timeWindow.Base s)
include base

/-- The times are those of a tour that starts at the depot. -/
theorem laid_timeWindow : p.timeWindow.Laid s where
  toBase := base
  two_le := numNodes_timeWindow ▸ two_le_numNodes
  start := ⟨p.start, (departure_timeWindow depot_lt).trans (if_pos rfl)⟩
  back := ⟨p.makespan, p.start, (arrival_timeWindow depot_lt).trans (if_pos rfl)⟩
  city i hpos hi := by
    rw [numNodes_timeWindow] at hi
    have city : i ≠ depot := Nat.ne_of_gt hpos
    exact ⟨p.arrivalTime i, (departure_timeWindow hi).trans (if_neg city),
      (arrival_timeWindow hi).trans (if_neg city)⟩

variable (hs : s.Valid) (fixed : ∀ i, i < p.numNodes → s.isFixed (predecessor i) = true)
  (timed : ∀ i, i < p.numNodes → p.timeWindow.Timed s i)
include hs fixed timed

/-- **When the predecessors form a circuit and the times are settled, everything is fixed**, and takes a
route. -/
theorem exists_route_of_fixed (circuit : p.circuit.Holds s.lower) :
    ∃ order, p.Route s.lower order ∧ ∀ v, v < 2 * p.numNodes → s.isFixed v = true := by
  obtain ⟨times, punctual⟩ := (laid_timeWindow base).times_known hs
    (fun i hi => timed i (numNodes_timeWindow ▸ hi))
    (fun i hi => by
      rw [numNodes_timeWindow] at hi
      rw [predecessor_timeWindow hi]
      exact fixed i hi) circuit
  have leg {i j : Nat} (hj : j < p.numNodes) (before : p.circuit.Before s.lower i j) :
      p.Leg s.lower i j := by
    unfold Circuit.Before at before
    rw [predecessor_circuit hj] at before
    obtain ⟨i', hi, heq⟩ := base.sources j (numNodes_timeWindow ▸ hj) (i : Int) (by
      rw [predecessor_timeWindow hj, ← before]
      exact hs.contains_lower _)
    obtain rfl : i = i' := Int.ofNat.inj heq
    have time := punctual j i (numNodes_timeWindow ▸ hj) hi (by rwa [predecessor_timeWindow hj])
    rw [numNodes_timeWindow] at hi
    refine ⟨before, ?_⟩
    rw [← arrival_value hj, ← departure_value hi, time]
    exact reached_timeWindow hj _
  obtain ⟨l, perm, loop⟩ := circuit
  rw [Circuit.nodes, numNodes_circuit] at perm
  have mem : depot ∈ l := perm.mem_iff.mpr (mem_nodes.mpr depot_lt)
  obtain ⟨before, after, rfl⟩ := List.append_of_mem mem
  have perm' : (depot :: (after ++ before)).Perm p.nodes := List.perm_append_comm.trans perm
  obtain ⟨last, path, back⟩ := loop.rotate
  have legs : Path (p.Leg s.lower) depot (depot :: (after ++ before)) last :=
    path.mono fun i j hj => leg (mem_nodes.mp (perm'.mem_iff.mp hj))
  refine ⟨after ++ before, ⟨perm_nodes_iff.mp perm', last, legs, leg depot_lt back⟩, fun v hv => ?_⟩
  rcases var_cases hv with ⟨i, hi, heq⟩ | ⟨i, hi, hd, heq⟩ | heq <;> rw [heq]
  · exact fixed i hi
  · have known := base.arrivals i
    have arrival := (times i (numNodes_timeWindow ▸ hi)).2
    rw [arrival_timeWindow hi, if_neg hd] at known arrival
    exact known.isFixed_of_var rfl arrival
  · have known := base.arrivals depot
    have arrival := (times depot (numNodes_timeWindow ▸ depot_lt)).2
    rw [arrival_timeWindow depot_lt, if_pos rfl] at known arrival
    exact known.isFixed_of_var rfl arrival

end

/-- **When the engine is quiet and the predecessors are fixed, everything is fixed**, and takes a route. -/
theorem exists_route_of_quiet {e e' : Engine Constraint} (h : e.Faithful p.model) (run : e.Run .quiet e')
    (fixed : ∀ i, i < p.numNodes → e'.store.isFixed (predecessor i) = true) :
    ∃ order, p.Route e'.store.lower order ∧ ∀ v, v < e'.store.numVars → e'.store.isFixed v = true := by
  have inside := run.inside h.made.valid
  have circuit := (h.said e' run (.circuit p.circuit) List.mem_cons_self).circuit _ rfl fun i hi => by
    rw [numNodes_circuit] at hi
    rw [predecessor_circuit hi]
    exact fixed i hi
  have said := (h.said e' run (.timeWindow p.timeWindow) (List.mem_cons_of_mem _ List.mem_cons_self)).rule _ rfl
  obtain ⟨order, route, all⟩ := exists_route_of_fixed said.1 inside.valid.space.store fixed
    (fun i hi => said.2 i (numNodes_timeWindow ▸ hi)) circuit
  refine ⟨order, route, fun v hv => all v ?_⟩
  rwa [inside.numVars_eq, numVars_eq h.spans] at hv

end Instance
end BranchBound.Routing
