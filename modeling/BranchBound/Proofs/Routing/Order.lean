import BranchBound.Proofs.Path
import BranchBound.Proofs.Filter
import BranchBound.Routing.Model

/-! # Orders of the cities

An order of the cities is feasible if the tour through them, which waits wherever it is early and never
longer, meets the latest time of every city and of the depot on its return (`Instance.Feasible`).

An assignment of the model takes a route through some cities (`Instance.Route`) if the predecessors lead
through them and the times are those of the tour.  Its makespan is then the duration of the order
(`Route.duration_eq`), and every order has such an assignment (`exists_route`). -/
namespace BranchBound.Routing
namespace Instance
variable (p : Instance)

/-! ## Schedules -/

/-- When the last of some nodes is reached, if `source` is left at a time and the nodes are visited in
turn. -/
def timeAfter (source : Nat) (time : Int) : List Nat → Int
  | [] => time
  | target :: rest => timeAfter target (p.arrival source time target) rest

/-- No node is reached after its latest time. -/
def OnTime (source : Nat) (time : Int) : List Nat → Prop
  | [] => True
  | target :: rest => p.arrival source time target ≤ (p.window target).latest ∧
      OnTime target (p.arrival source time target) rest

/-- An order of all cities in which they can be visited in time. -/
structure Feasible (order : List Nat) : Prop where
  perm : order.Perm p.cities
  onTime : p.OnTime depot p.start (order ++ [depot])

/-- The time between leaving the depot and returning to it. -/
def duration (order : List Nat) : Int := p.timeAfter depot p.start (order ++ [depot]) - p.start

variable {p}

theorem mem_nodes {i : Nat} : i ∈ p.nodes ↔ i < p.numNodes := List.mem_range

theorem nodes_eq : p.nodes = depot :: p.cities := by
  have := two_le_numNodes (p := p)
  unfold cities nodes
  cases h : p.numNodes with
  | zero => omega
  | succ n => rw [List.range_succ_eq_map]; rfl

theorem mem_cities {i : Nat} : i ∈ p.cities ↔ i < p.numNodes ∧ i ≠ depot := by
  have nodup : p.nodes.Nodup := List.nodup_range
  rw [nodes_eq, List.nodup_cons] at nodup
  rw [← mem_nodes, nodes_eq, List.mem_cons]
  constructor
  · exact fun h => ⟨.inr h, fun heq => nodup.1 (heq ▸ h)⟩
  · exact fun h => h.1.resolve_left h.2

theorem perm_nodes_iff {order : List Nat} : (depot :: order).Perm p.nodes ↔ order.Perm p.cities := by
  rw [nodes_eq, List.perm_cons]

/-! ## Routes -/

section
variable (p) (a : Assignment)

/-- When a node is left. -/
def leaving (i : Nat) : Int := if i = depot then p.start else a (p.arrivalTime i)

/-- When a node is reached and open. -/
def reaching (i : Nat) : Int := if i = depot then a p.makespan + p.start else a (p.arrivalTime i)

/-- One node is the predecessor of another, and the times agree. -/
def Leg (i j : Nat) : Prop :=
  a (predecessor j) = (i : Int) ∧ p.reaching a j = p.arrival i (p.leaving a i) j

/-- The predecessors lead from the depot through some cities and back, and the times agree. -/
structure Route (order : List Nat) : Prop where
  perm : order.Perm p.cities
  loop : ∃ last, Path (p.Leg a) depot (depot :: order) last ∧ p.Leg a last depot

end

variable {a : Assignment} {i j last : Nat} {order : List Nat}

theorem leaving_eq_reaching (hi : i ≠ depot) : p.leaving a i = p.reaching a i := by
  rw [leaving, reaching, if_neg hi, if_neg hi]

theorem onTime_append {source : Nat} {time : Int} {target : Nat} :
    p.OnTime source time (order ++ [target]) ↔ p.OnTime source time order ∧
      p.timeAfter source time (order ++ [target]) ≤ (p.window target).latest := by
  induction order generalizing source time with
  | nil => simp [OnTime, timeAfter]
  | cons first order ih => simp only [List.cons_append, OnTime, timeAfter, ih, and_assoc]

/-- Along the legs the schedule is what the assignment says. -/
theorem schedule_of_path (path : Path (p.Leg a) i (i :: order) last) (cities : ∀ j ∈ order, j ≠ depot) :
    (∀ target, p.timeAfter i (p.leaving a i) (order ++ [target]) =
      p.arrival last (p.leaving a last) target) ∧
      (p.OnTime i (p.leaving a i) order ↔ ∀ j ∈ order, p.reaching a j ≤ (p.window j).latest) := by
  induction order generalizing i with
  | nil =>
    obtain ⟨-, ⟨-, rfl⟩ | ⟨next, -, path⟩⟩ := path.of_cons
    · exact ⟨fun _ => rfl, by simp [OnTime]⟩
    · cases path
  | cons first order ih =>
    obtain ⟨-, ⟨hnil, -⟩ | ⟨next, leg, path⟩⟩ := path.of_cons
    · exact absurd hnil (by simp)
    obtain rfl := path.of_cons.1
    have time : p.arrival i (p.leaving a i) next = p.leaving a next := by
      rw [leaving_eq_reaching (cities next List.mem_cons_self), leg.2]
    obtain ⟨after, onTime⟩ := ih path fun j hj => cities j (List.mem_cons_of_mem _ hj)
    refine ⟨fun target => ?_, ?_⟩
    · rw [List.cons_append, timeAfter, time, after]
    · simp only [OnTime, time, onTime, List.forall_mem_cons]
      rw [leaving_eq_reaching (cities next List.mem_cons_self)]

namespace Route
variable (h : p.Route a order)
include h

theorem cities : ∀ j ∈ order, j ≠ depot := fun _ hj => (mem_cities.mp (h.perm.mem_iff.mp hj)).2

/-- **The makespan of a route is the duration of the order.** -/
theorem duration_eq : p.duration order = a p.makespan := by
  obtain ⟨last, path, back⟩ := h.loop
  have after := (schedule_of_path path h.cities).1 depot
  rw [← back.2, leaving, if_pos rfl, reaching, if_pos rfl] at after
  unfold duration
  omega

/-- A route that meets the windows is one through a feasible order. -/
theorem feasible (onTime : ∀ j, j < p.numNodes → p.reaching a j ≤ (p.window j).latest) :
    p.Feasible order := by
  obtain ⟨last, path, back⟩ := h.loop
  refine ⟨h.perm, onTime_append.mpr ⟨?_, ?_⟩⟩
  · refine ((schedule_of_path path h.cities).2.mpr fun j hj => onTime j ?_)
    exact (mem_cities.mp (h.perm.mem_iff.mp hj)).1
  · have := h.duration_eq
    have depot_lt : depot < p.numNodes := Nat.lt_of_lt_of_le Nat.two_pos two_le_numNodes
    have := onTime depot depot_lt
    unfold duration at *
    rw [reaching, if_pos rfl] at this
    omega

end Route

/-! ## The assignment of an order -/

/-- The nodes that are visited, each with the node before it and the time when it is reached. -/
def visits (p : Instance) (source : Nat) (time : Int) : List Nat → List (Nat × Nat × Int)
  | [] => []
  | target :: rest =>
    let reached := p.arrival source time target
    (target, source, reached) :: visits p target reached rest

theorem visits_fst (source : Nat) (time : Int) : (p.visits source time order).map Prod.fst = order := by
  induction order generalizing source time with
  | nil => rfl
  | cons target order ih => rw [visits, List.map_cons, ih]

/-- Every visit comes from a node that was visited before, and is neither too early nor too late. -/
theorem visit_bounds {source : Nat} {time : Int} (onTime : p.OnTime source time order) :
    ∀ x ∈ p.visits source time order, x.2.1 ∈ source :: order ∧
      (p.window x.1).earliest ≤ x.2.2 ∧ x.2.2 ≤ (p.window x.1).latest := by
  induction order generalizing source time with
  | nil => exact fun _ hx => by cases hx
  | cons target order ih =>
    intro x hx
    rcases List.mem_cons.mp hx with rfl | hx
    · exact ⟨List.mem_cons_self, Int.le_max_left _ _, onTime.1⟩
    · exact ⟨List.mem_cons_of_mem _ (ih onTime.2 x hx).1, (ih onTime.2 x hx).2⟩

/-- What is paired with distinct keys is a function of them. -/
theorem exists_function {α : Type} [Inhabited α] (xs : List (Nat × α)) (h : (xs.map Prod.fst).Nodup) :
    ∃ f : Nat → α, ∀ x ∈ xs, f x.1 = x.2 := by
  induction xs with
  | nil => exact ⟨fun _ => default, fun _ hx => by cases hx⟩
  | cons x xs ih =>
    rw [List.map_cons, List.nodup_cons] at h
    obtain ⟨f, hf⟩ := ih h.2
    refine ⟨fun i => if i = x.1 then x.2 else f i, fun y hy => ?_⟩
    rcases List.mem_cons.mp hy with rfl | hy
    · exact if_pos rfl
    · have : y.1 ≠ x.1 := fun heq => h.1 (heq ▸ List.mem_map_of_mem hy)
      exact (if_neg this).trans (hf y hy)

/-- The assignment in which every node has the given predecessor and time. -/
def assignmentOf (p : Instance) (visit : Nat → Nat × Int) : Assignment := fun v =>
  if v < p.numNodes then ((visit v).1 : Int)
  else if v = p.makespan then (visit depot).2 - p.start
  else (visit (v + 1 - p.numNodes)).2

section
variable {visit : Nat → Nat × Int}

theorem assignmentOf_predecessor (hi : i < p.numNodes) :
    p.assignmentOf visit (predecessor i) = (visit i).1 := if_pos hi

theorem assignmentOf_arrivalTime (hi : i < p.numNodes) (hd : i ≠ depot) :
    p.assignmentOf visit (p.arrivalTime i) = (visit i).2 := by
  have beyond : ¬ p.numNodes + i - 1 < p.numNodes := by
    unfold depot at hd
    omega
  have before : p.numNodes + i - 1 ≠ 2 * p.numNodes - 1 := by omega
  have city : p.numNodes + i - 1 + 1 - p.numNodes = i := by
    unfold depot at hd
    omega
  exact (if_neg beyond).trans ((if_neg before).trans (by rw [arrivalTime, city]))

theorem assignmentOf_makespan :
    p.assignmentOf visit p.makespan = (visit depot).2 - p.start := by
  have beyond : ¬ 2 * p.numNodes - 1 < p.numNodes := by
    have := two_le_numNodes (p := p)
    omega
  exact (if_neg beyond).trans (if_pos rfl)

theorem reaching_assignmentOf (hi : i < p.numNodes) :
    p.reaching (p.assignmentOf visit) i = (visit i).2 := by
  unfold reaching
  split
  · rename_i heq
    rw [assignmentOf_makespan, heq]
    omega
  · rename_i hne
    exact assignmentOf_arrivalTime hi hne

/-- The visits of a walk are legs of the assignment. -/
theorem path_of_visits {source : Nat} {time : Int} (inside : ∀ i ∈ order, i < p.numNodes)
    (h : ∀ x ∈ p.visits source time (order ++ [depot]), visit x.1 = x.2)
    (leaving : p.leaving (p.assignmentOf visit) source = time) (cities : ∀ i ∈ order, i ≠ depot) :
    ∃ last, Path (p.Leg (p.assignmentOf visit)) source (source :: order) last ∧
      p.Leg (p.assignmentOf visit) last depot := by
  have leg (source : Nat) (time : Int) (target : Nat) (hlt : target < p.numNodes)
      (hv : visit target = (source, p.arrival source time target))
      (leaving : p.leaving (p.assignmentOf visit) source = time) :
      p.Leg (p.assignmentOf visit) source target := by
    refine ⟨?_, ?_⟩
    · rw [assignmentOf_predecessor hlt, hv]
    · rw [reaching_assignmentOf hlt, hv, leaving]
  induction order generalizing source time with
  | nil =>
    exact ⟨source, .single source, leg source time depot
      (Nat.lt_of_lt_of_le Nat.two_pos two_le_numNodes) (h _ List.mem_cons_self) leaving⟩
  | cons target order ih =>
    have first := leg source time target (inside target List.mem_cons_self) (h _ List.mem_cons_self)
      leaving
    have left : p.leaving (p.assignmentOf visit) target = p.arrival source time target := by
      rw [leaving_eq_reaching (cities target List.mem_cons_self),
        reaching_assignmentOf (inside target List.mem_cons_self), h _ List.mem_cons_self]
    obtain ⟨last, path, back⟩ := ih (fun i hi => inside i (List.mem_cons_of_mem _ hi))
      (fun x hx => h x (List.mem_cons_of_mem _ hx)) left fun i hi => cities i (List.mem_cons_of_mem _ hi)
    exact ⟨last, .step first path, back⟩

end

/-- **Every feasible order has an assignment that takes its route**, within the windows. -/
theorem exists_route (h : p.Feasible order) : ∃ a, p.Route a order ∧
    (∀ i, i < p.numNodes → ∃ j : Nat, j < p.numNodes ∧ a (predecessor i) = j) ∧
    ∀ i, i < p.numNodes → (p.window i).earliest ≤ p.reaching a i ∧
      p.reaching a i ≤ (p.window i).latest := by
  have inside (i : Nat) (hi : i ∈ order) := mem_cities.mp (h.perm.mem_iff.mp hi)
  have perm : (order ++ [depot]).Perm p.nodes :=
    (List.perm_append_singleton _ _).trans (perm_nodes_iff.mpr h.perm)
  obtain ⟨visit, hvisit⟩ := exists_function (p.visits depot p.start (order ++ [depot]))
    (by rw [visits_fst]; exact perm.nodup_iff.mpr List.nodup_range)
  have visited (i : Nat) (hi : i < p.numNodes) :
      (i, visit i) ∈ p.visits depot p.start (order ++ [depot]) := by
    have mem : i ∈ (p.visits depot p.start (order ++ [depot])).map Prod.fst := by
      rw [visits_fst]
      exact perm.mem_iff.mpr (mem_nodes.mpr hi)
    obtain ⟨x, hx, rfl⟩ := List.mem_map.mp mem
    rw [hvisit x hx]
    exact hx
  have bounds (i : Nat) (hi : i < p.numNodes) := visit_bounds h.onTime _ (visited i hi)
  refine ⟨p.assignmentOf visit, ⟨h.perm, ?_⟩, fun i hi => ⟨(visit i).1, ?_, ?_⟩, fun i hi => ?_⟩
  · exact path_of_visits (fun i hi => (inside i hi).1) hvisit (if_pos rfl) fun i hi => (inside i hi).2
  · rcases List.mem_cons.mp (bounds i hi).1 with heq | hmem
    · dsimp only at heq
      rw [heq]
      exact Nat.lt_of_lt_of_le Nat.two_pos two_le_numNodes
    · exact mem_nodes.mp (perm.mem_iff.mp hmem)
  · exact assignmentOf_predecessor hi
  · rw [reaching_assignmentOf hi]
    exact (bounds i hi).2

end Instance
end BranchBound.Routing
