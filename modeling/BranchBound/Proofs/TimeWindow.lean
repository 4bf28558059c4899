import BranchBound.Constraint.TimeWindow
import BranchBound.Proofs.Persistence
import BranchBound.Proofs.Tables

/-! # Time windows

An assignment keeps the time windows if every node has a predecessor, is reached at just the time that
the predecessor determines, and is the predecessor of another node (`TimeWindow.Holds`).  The filter
spares these assignments, and when it has nothing more to say, the bounds of the arrival at a node with
a fixed predecessor are those that the bounds of the departure determine (`TimeWindow.Timed`); so when
everything is fixed, the times are right.

The filter computes with integers of 64 bits.  All this is known as long as none of the times that it
computes is cut, neither at a node (`NodeTime.Known`) nor over an arc that is left (`TimeWindow.Clear`).

All that a pass reads is watched, so a pass that has nothing to do stays so
(`TimeWindow.idempotent`). -/
namespace BranchBound

theorem Store.values_of_fixed? {s : Store} {v : Var} {x : Int} (hs : s.Valid)
    (h : s.fixed? v = some x) : s.values v = [x] := by
  obtain ⟨hl, hu⟩ := fixed?_eq_some_iff.mp h
  have present := (Domain.contains_iff.mp (hs.contains_of_fixed? h)).2.2
  unfold values Domain.values
  rw [show (s.domain v).lower = x from hl, show (s.domain v).upper = x from hu]
  simp [List.range_one, present]

namespace NodeTime
variable {own : Nat → Prop} {G : Assignment → Prop} {B : Prop} {s : Space} {x : NodeTime} {bound : Int}

/-- The time in an assignment. -/
def value (a : Assignment) : NodeTime → Int
  | .constant time => time
  | .shifted v offset => a v + offset

/-- Its variable exists, and its bounds are not cut. -/
structure Known (s : Store) (x : NodeTime) : Prop where
  lt : ∀ v, x.var? = some v → v < s.numVars
  fits : ∀ v offset, x = .shifted v offset →
    Word.Fits (s.lower v + offset) ∧ Word.Fits (s.upper v + offset)

/-- A bound is not cut when it is set. -/
def Takes (bound : Int) : NodeTime → Prop
  | .constant _ => True
  | .shifted _ offset => Word.Fits (bound - offset)

namespace Known
variable {s F : Store} {x : NodeTime}

/-- The bounds of a time are those of its variable. -/
theorem lower_eq (h : x.Known s) : x.lower s = x.value s.lower := by
  cases x with
  | constant time => rfl
  | shifted v offset => exact Word.integer_eq_self (h.fits v offset rfl).1

theorem upper_eq (h : x.Known s) : x.upper s = x.value s.upper := by
  cases x with
  | constant time => rfl
  | shifted v offset => exact Word.integer_eq_self (h.fits v offset rfl).2

theorem lower_le_upper (h : x.Known s) (hs : s.Valid) : x.lower s ≤ x.upper s := by
  rw [h.lower_eq, h.upper_eq]
  cases x with
  | constant time => exact Int.le_refl _
  | shifted v offset => exact Int.add_le_add_right (hs.lower_le_upper v) offset

theorem bounds_of_admits {a : Assignment} (h : x.Known s) (ha : s.Admits a) :
    x.lower s ≤ x.value a ∧ x.value a ≤ x.upper s := by
  rw [h.lower_eq, h.upper_eq]
  cases x with
  | constant time => exact ⟨Int.le_refl _, Int.le_refl _⟩
  | shifted v offset =>
    have := Store.bounds_of_contains (ha v (h.lt v rfl))
    simp only [value]
    omega

section
variable (h : x.Known s) (encloses : s.Encloses F) (hF : F.Valid)
include h encloses hF

theorem enclosed : x.Known F := by
  refine ⟨fun v hv => encloses.numVars_eq ▸ h.lt v hv, fun v offset hx => ?_⟩
  obtain ⟨least, greatest⟩ := h.fits v offset hx
  have := encloses.lower_le hF v
  have := encloses.upper_le hF v
  have := hF.lower_le_upper v
  unfold Word.Fits at *
  omega

theorem lower_le : x.lower s ≤ x.lower F := by
  rw [h.lower_eq, (h.enclosed encloses hF).lower_eq]
  cases x with
  | constant time => exact Int.le_refl _
  | shifted v offset => exact Int.add_le_add_right (encloses.lower_le hF v) offset

theorem upper_le : x.upper F ≤ x.upper s := by
  rw [h.upper_eq, (h.enclosed encloses hF).upper_eq]
  cases x with
  | constant time => exact Int.le_refl _
  | shifted v offset => exact Int.add_le_add_right (encloses.upper_le hF v) offset

end
end Known

/-- All that makes up a time is small. -/
def Small (s : Store) : NodeTime → Prop
  | .constant time => Word.Small time
  | .shifted v offset => Word.Small (s.lower v) ∧ Word.Small (s.upper v) ∧ Word.Small offset

instance (s : Store) : (x : NodeTime) → Decidable (x.Small s)
  | .constant time => inferInstanceAs (Decidable (Word.Small time))
  | .shifted _ _ => inferInstanceAs (Decidable (_ ∧ _ ∧ _))

namespace Small
variable {s : Store} {x : NodeTime} (h : x.Small s)
include h

theorem known (lt : ∀ v, x.var? = some v → v < s.numVars) : x.Known s := by
  refine ⟨lt, fun v offset hx => ?_⟩
  subst hx
  simp only [Small, Word.Small] at h
  simp only [Word.Fits, Word.minInteger, Word.maxInteger]
  omega

theorem bounds : -2305843009213693952 ≤ x.lower s ∧ x.upper s ≤ 2305843009213693952 := by
  cases x with
  | constant time =>
    simp only [Small, Word.Small] at h
    simp only [lower, upper]
    omega
  | shifted v offset =>
    simp only [Small, Word.Small] at h
    have least : Word.Fits (s.lower v + offset) := by
      simp only [Word.Fits, Word.minInteger, Word.maxInteger]
      omega
    have greatest : Word.Fits (s.upper v + offset) := by
      simp only [Word.Fits, Word.minInteger, Word.maxInteger]
      omega
    simp only [lower, upper, Word.integer_eq_self least, Word.integer_eq_self greatest]
    omega

theorem takes {bound : Int} (small : -4611686018427387904 ≤ bound ∧ bound ≤ 4611686018427387904) :
    x.Takes bound := by
  cases x with
  | constant time => trivial
  | shifted v offset =>
    simp only [Small, Word.Small] at h
    simp only [Takes, Word.Fits, Word.minInteger, Word.maxInteger]
    omega

end Small

section
variable (hs : s.Valid) (known : B → x.Known s.store) (takes : B → x.Takes bound)
include hs known takes

theorem filters_setLower (spare : ∀ a, Granted B G a → s.store.Admits a → bound ≤ x.value a) :
    Filter.Filters own (Granted B G) B (x.setLower bound) s (B → bound ≤ x.lower s.store) := by
  cases x with
  | constant time =>
    dsimp only [setLower]
    split
    · refine Filter.filters_refute fun a ha hadm => ?_
      have := spare a ha hadm
      simp only [value] at this
      omega
    · exact Filter.filters_pure fun _ => by simp only [lower]; omega
  | shifted v offset =>
    refine (Filter.filters_setLower hs (fun hB => (known hB).lt v rfl) fun a ha hadm => ?_).mono
      fun h hB => ?_
    · have := spare a ha hadm
      rw [Word.integer_eq_self (takes ha.1)]
      simp only [value] at this
      omega
    · rw [Word.integer_eq_self (takes hB)] at h
      rw [(known hB).lower_eq]
      simp only [value]
      omega

theorem filters_setUpper (spare : ∀ a, Granted B G a → s.store.Admits a → x.value a ≤ bound) :
    Filter.Filters own (Granted B G) B (x.setUpper bound) s (B → x.upper s.store ≤ bound) := by
  cases x with
  | constant time =>
    dsimp only [setUpper]
    split
    · refine Filter.filters_refute fun a ha hadm => ?_
      have := spare a ha hadm
      simp only [value] at this
      omega
    · exact Filter.filters_pure fun _ => by simp only [upper]; omega
  | shifted v offset =>
    refine (Filter.filters_setUpper hs (fun hB => (known hB).lt v rfl) fun a ha hadm => ?_).mono
      fun h hB => ?_
    · have := spare a ha hadm
      rw [Word.integer_eq_self (takes ha.1)]
      simp only [value] at this
      omega
    · rw [Word.integer_eq_self (takes hB)] at h
      rw [(known hB).upper_eq]
      simp only [value]
      omega

end

/-- The bounds of its variable are the same in both stores. -/
def Still (s t : Store) (x : NodeTime) : Prop :=
  ∀ v, x.var? = some v → t.lower v = s.lower v ∧ t.upper v = s.upper v

namespace Still

theorem bounds_eq {s t : Store} (h : x.Still s t) : x.lower t = x.lower s ∧ x.upper t = x.upper s := by
  cases x with
  | constant time => exact ⟨rfl, rfl⟩
  | shifted v offset =>
    obtain ⟨lower, upper⟩ := h v rfl
    simp only [NodeTime.lower, NodeTime.upper, lower, upper, and_self]

variable {t : Space} (h : x.Still s.store t.store) (numVars : t.store.numVars = s.store.numVars)
include h numVars

theorem persists_setLower : Filter.Persists Filter.Unchanged (x.setLower bound) s t := by
  cases x with
  | constant time =>
    dsimp only [setLower]
    split
    · exact Filter.persists_refute
    · exact Filter.persists_pure
  | shifted v offset =>
    exact Filter.persists_setLower numVars fun le => (h v rfl).1 ▸ le

theorem persists_setUpper : Filter.Persists Filter.Unchanged (x.setUpper bound) s t := by
  cases x with
  | constant time =>
    dsimp only [setUpper]
    split
    · exact Filter.persists_refute
    · exact Filter.persists_pure
  | shifted v offset =>
    exact Filter.persists_setUpper numVars fun le => (h v rfl).2 ▸ le

end Still

end NodeTime

namespace TimeWindow
variable (c : TimeWindow)

def departure (node : Nat) : NodeTime := c.departures.getD node (.constant 0)

def arrival (node : Nat) : NodeTime := c.arrivals.getD node (.constant 0)

def opening (node : Nat) : Int := c.earliest.getD node 0

def distance (source target : Nat) : Int := (c.distances.get? source target).getD 0

/-- When `target` is reached and open, if `source` is left at a time. -/
def reached (source target : Nat) (time : Int) : Int :=
  max (c.opening target) (time + c.distance source target)

/-- When `target` is reached and open as far as words tell, if `source` is left at a time. -/
def computed (source target : Nat) (time : Int) : Int :=
  max (c.opening target) (Word.integer (time + c.distance source target))

/-- The times over an arc are not cut: neither those at which its target may be reached, nor those at which
its source may have to be left. -/
structure Clear (s : Store) (source target : Nat) : Prop where
  forth : ∀ time, (c.departure source).lower s ≤ time → time ≤ (c.departure source).upper s →
    Word.Fits (time + c.distance source target) ∧ (c.arrival target).Takes (c.reached source target time)
  back : ∀ time, (c.arrival target).lower s ≤ time → time ≤ (c.arrival target).upper s →
    Word.Fits (time - c.distance source target) ∧ (c.departure source).Takes (time - c.distance source target)

/-- The tables have an entry for every node, and all variables exist; a predecessor is a node.  No time is
cut. -/
structure Base (s : Store) : Prop where
  numDepartures : c.departures.size = c.numNodes
  numArrivals : c.arrivals.size = c.numNodes
  numOpenings : c.earliest.size = c.numNodes
  distances : ∀ i j, i < c.numNodes → j < c.numNodes → ∃ d, c.distances.get? i j = some d
  departures : ∀ i, (c.departure i).Known s
  arrivals : ∀ i, (c.arrival i).Known s
  predecessors : ∀ i, i < c.numNodes → c.predecessor i < s.numVars
  sources : ∀ i, i < c.numNodes → ∀ x, s.contains (c.predecessor i) x = true →
    ∃ j : Nat, j < c.numNodes ∧ x = j
  clear : ∀ i j : Nat, i < c.numNodes → j < c.numNodes → s.contains (c.predecessor i) j = true → c.Clear s j i

/-- The nodes have predecessors that determine their times, and every node is one of another. -/
structure Holds (a : Assignment) : Prop where
  arrives : ∀ i, i < c.numNodes → ∃ j : Nat, j < c.numNodes ∧ a (c.predecessor i) = j ∧
    (c.arrival i).value a = c.reached j i ((c.departure j).value a)
  leaves : ∀ j : Nat, j < c.numNodes → ∃ i, i < c.numNodes ∧ i ≠ j ∧ a (c.predecessor i) = j

/-- The bounds of the arrival at a node are those that a fixed predecessor determines. -/
def Timed (s : Store) (i : Nat) : Prop :=
  ∀ j : Nat, s.fixed? (c.predecessor i) = some (j : Int) →
    c.reached j i ((c.departure j).lower s) ≤ (c.arrival i).lower s ∧
      (c.arrival i).upper s ≤ c.reached j i ((c.departure j).upper s)

variable {c}

namespace Clear
variable {s F : Store} {i j : Nat} (h : c.Clear s j i)
include h

theorem enclosed (departure : (c.departure j).Known s) (arrival : (c.arrival i).Known s)
    (encloses : s.Encloses F) (hF : F.Valid) : c.Clear F j i :=
  ⟨fun time first last => h.forth time (Int.le_trans (departure.lower_le encloses hF) first)
      (Int.le_trans last (departure.upper_le encloses hF)),
    fun time first last => h.back time (Int.le_trans (arrival.lower_le encloses hF) first)
      (Int.le_trans last (arrival.upper_le encloses hF))⟩

variable {time : Int}

/-- Over such an arc words tell when its target is reached, -/
theorem computed_eq (first : (c.departure j).lower s ≤ time) (last : time ≤ (c.departure j).upper s) :
    c.computed j i time = c.reached j i time := by
  unfold computed reached
  rw [Word.integer_eq_self (h.forth time first last).1]

/-- and when its source has to be left. -/
theorem integer_sub_eq (first : (c.arrival i).lower s ≤ time) (last : time ≤ (c.arrival i).upper s) :
    Word.integer (time - c.distance j i) = time - c.distance j i :=
  Word.integer_eq_self (h.back time first last).1

end Clear

theorem Base.enclosed {s F : Store} (h : c.Base s) (encloses : s.Encloses F) (hF : F.Valid) : c.Base F :=
  { h with
    departures := fun i => (h.departures i).enclosed encloses hF
    arrivals := fun i => (h.arrivals i).enclosed encloses hF
    predecessors := fun i hi => encloses.numVars_eq ▸ h.predecessors i hi
    sources := fun i hi x hx => h.sources i hi x (encloses.contains _ x hx)
    clear := fun i j hi hj hin => (h.clear i j hi hj (encloses.contains _ _ hin)).enclosed (h.departures j)
      (h.arrivals i) encloses hF }

theorem Base.congr {s t : Store} (h : c.Base s) (same : t.domains = s.domains) : c.Base t := by
  cases s
  cases t
  cases same
  exact { h with
    departures := fun i => ⟨(h.departures i).lt, (h.departures i).fits⟩
    arrivals := fun i => ⟨(h.arrivals i).lt, (h.arrivals i).fits⟩
    clear := fun i j hi hj hin => ⟨(h.clear i j hi hj hin).forth, (h.clear i j hi hj hin).back⟩ }

theorem Base.narrows {s t : Store} (h : c.Base s) (hs : s.Valid) (hn : s.Narrows t) : c.Base t :=
  h.enclosed (.of_narrows hn hs) (hn.valid hs)

theorem Holds.arrival_eq {a : Assignment} {i j : Nat} (h : c.Holds a) (hi : i < c.numNodes)
    (hj : a (c.predecessor i) = (j : Int)) :
    (c.arrival i).value a = c.reached j i ((c.departure j).value a) := by
  obtain ⟨j', -, hj', eq⟩ := h.arrives i hi
  obtain rfl : j' = j := by omega
  exact eq

/-! ## Tables -/

section
variable {s : Store} {i j : Nat}

theorem departure_eq {x : NodeTime} (h : c.departures[i]? = some x) : c.departure i = x := by
  rw [departure, Array.getD_eq_getD_getElem?, h, Option.getD_some]

theorem arrival_eq {x : NodeTime} (h : c.arrivals[i]? = some x) : c.arrival i = x := by
  rw [arrival, Array.getD_eq_getD_getElem?, h, Option.getD_some]

theorem departure_mem_or (i : Nat) : c.departure i ∈ c.departures ∨ c.departure i = .constant 0 := by
  rw [departure, Array.getD_eq_getD_getElem?]
  cases h : c.departures[i]? with
  | none => exact .inr rfl
  | some x => exact .inl (Array.mem_of_getElem? h)

theorem arrival_mem_or (i : Nat) : c.arrival i ∈ c.arrivals ∨ c.arrival i = .constant 0 := by
  rw [arrival, Array.getD_eq_getD_getElem?]
  cases h : c.arrivals[i]? with
  | none => exact .inr rfl
  | some x => exact .inl (Array.mem_of_getElem? h)

theorem opening_eq {time : Int} (h : c.earliest[i]? = some time) : c.opening i = time := by
  rw [opening, Array.getD_eq_getD_getElem?, h, Option.getD_some]

theorem distance_eq {d : Int} (h : c.distances.get? i j = some d) : c.distance i j = d := by
  rw [distance, h, Option.getD_some]

namespace Base
variable (h : c.Base s) (hi : i < c.numNodes)
include h hi

theorem getElem?_departures : c.departures[i]? = some (c.departure i) := by
  have entry := Array.getElem?_eq_getElem (h.numDepartures.symm ▸ hi)
  rw [entry, departure_eq entry]

theorem getElem?_arrivals : c.arrivals[i]? = some (c.arrival i) := by
  have entry := Array.getElem?_eq_getElem (h.numArrivals.symm ▸ hi)
  rw [entry, arrival_eq entry]

theorem getElem?_earliest : c.earliest[i]? = some (c.opening i) := by
  have entry := Array.getElem?_eq_getElem (h.numOpenings.symm ▸ hi)
  rw [entry, opening_eq entry]

theorem get?_distances (hj : j < c.numNodes) : c.distances.get? i j = some (c.distance i j) := by
  obtain ⟨d, hd⟩ := h.distances i j hi hj
  rw [hd, distance_eq hd]

/-- An arc between nodes is looked up. -/
theorem arc_eq (hj : j < c.numNodes) : c.arc i j = pure (c.distance i j, c.departure i) := by
  unfold arc
  rw [position?_ofNat]
  simp only [demand, pure_bind, h.get?_distances hi hj, h.getElem?_departures hi]

variable (hs : s.Valid)
include hs

/-- The latest departure is that towards another node that still accepts it. -/
theorem latestTowards_eq (hj : j < c.numNodes) :
    c.latestTowards s i j = some (if j ≠ i ∧ s.contains (c.predecessor j) i = true then
      some ((c.arrival j).upper s - c.distance i j) else none) := by
  unfold latestTowards
  simp only [Bool.and_eq_true, decide_eq_true_eq]
  split
  · rename_i accepts
    have latest := (h.clear j i hj hi accepts.2).integer_sub_eq ((h.arrivals j).lower_le_upper hs) (Int.le_refl _)
    rw [h.getElem?_arrivals hj, h.get?_distances hi hj]
    exact congrArg (fun time => some (some time)) latest
  · rfl

/-- The latest departures that are looked at. -/
theorem mem_latest {latest : List (Option Int)}
    (hlatest : c.nodes.mapM (c.latestTowards s i) = some latest) {x : Int} :
    x ∈ latest.filterMap id ↔ ∃ j < c.numNodes, j ≠ i ∧ s.contains (c.predecessor j) i = true ∧
      x = (c.arrival j).upper s - c.distance i j := by
  have entries := mapM_eq_some_iff.mp hlatest
  have all : latest.map some = c.nodes.map fun j => some (if j ≠ i ∧
      s.contains (c.predecessor j) i = true then some ((c.arrival j).upper s - c.distance i j) else none) := by
    rw [← entries]
    exact List.map_congr_left fun j hj => h.latestTowards_eq hi hs (List.mem_range.mp hj)
  have eq : latest = c.nodes.map fun j => if j ≠ i ∧
      s.contains (c.predecessor j) i = true then some ((c.arrival j).upper s - c.distance i j) else none := by
    have := congrArg (List.filterMap id) all
    simpa [List.filterMap_map, Function.comp_def] using this
  rw [eq, List.mem_filterMap]
  simp only [List.mem_map, nodes, List.mem_range, id_eq, exists_exists_and_eq_and]
  refine exists_congr fun j => and_congr_right fun _ => ?_
  split
  · rename_i h
    simp [h, eq_comm]
  · rename_i h
    refine ⟨fun h => (by cases h), fun ⟨hne, hin, _⟩ => absurd ⟨hne, hin⟩ h⟩

end Base

end

/-! ## Small times -/

section
variable {s : Store} {i j : Nat}

/-- **Over an arc between small times no time is cut.** -/
theorem Clear.of_small (departure : (c.departure j).Small s) (arrival : (c.arrival i).Small s)
    (distance : Word.Small (c.distance j i)) (opening : Word.Small (c.opening i)) : c.Clear s j i := by
  have left := departure.bounds
  have met := arrival.bounds
  unfold Word.Small at distance opening
  have fits {x : Int} (small : -4611686018427387904 ≤ x ∧ x ≤ 4611686018427387904) : Word.Fits x := by
    simp only [Word.Fits, Word.minInteger, Word.maxInteger]
    omega
  refine ⟨fun time first last => ⟨fits (by omega), arrival.takes ?_⟩,
    fun time first last => ⟨fits (by omega), departure.takes (by omega)⟩⟩
  unfold reached
  omega

end

/-! ## Arcs -/

section
variable {B : Prop} {s : Space} {node : Nat}

/-- What is known of the arrival at a node. -/
abbrev target (c : TimeWindow) (node : Nat) (s : Store) : Target where
  node
  arrival := c.arrival node
  earliest := c.opening node
  lower := (c.arrival node).lower s
  upper := (c.arrival node).upper s

theorem ends_arc {H : Assignment → Prop} {source : Int} {Q : Int × NodeTime → Space → Prop}
    (base : B → c.Base s.store) (hnode : node < c.numNodes)
    (known : B → ∃ j : Nat, j < c.numNodes ∧ source = j)
    (h : ∀ j : Nat, source = j → Q (c.distance j node, c.departure j) s) :
    Ends (c.arc source node s) Q (Filter.Halted Filter.noCells H B s) := by
  unfold arc
  rw [ends_bind]
  refine Filter.ends_demand_of (fun hB => ?_) fun j hj => ?_
  · obtain ⟨j, -, rfl⟩ := known hB
    exact ⟨j, position?_ofNat j⟩
  have source_eq : source = j := eq_of_position? hj
  have lt (hB : B) : j < c.numNodes := by
    obtain ⟨j', hj', eq⟩ := known hB
    omega
  rw [ends_bind]
  refine Filter.ends_demand_of (fun hB => ⟨_, (base hB).get?_distances (lt hB) hnode⟩) fun d hd => ?_
  rw [ends_bind]
  refine Filter.ends_demand_of (fun hB => ⟨_, (base hB).getElem?_departures (lt hB)⟩) fun _ hdeparture => ?_
  obtain rfl := distance_eq hd
  obtain rfl := departure_eq hdeparture
  exact h j source_eq

/-! ## Arcs into a node -/

/-- The times from first to last can be set as bounds. -/
structure Span.Settable (x : NodeTime) (span : Span) : Prop where
  le : span.first ≤ span.last
  first : x.Takes span.first
  last : x.Takes span.last

theorem Span.Settable.join {x : NodeTime} {span : Span} {other? : Option Span} (h : span.Settable x)
    (h' : ∀ other, other? = some other → other.Settable x) : (span.join other?).Settable x := by
  cases other? with
  | none => exact h
  | some other =>
    have found := h' other rfl
    refine ⟨Int.le_trans (Int.min_le_right ..) (Int.le_trans h.le (Int.le_max_right ..)), ?_, ?_⟩
    · dsimp only [Span.join]
      rcases Int.le_total other.first span.first with le | le
      · rw [Int.min_eq_left le]
        exact found.first
      · rw [Int.min_eq_right le]
        exact h.first
    · dsimp only [Span.join]
      rcases Int.le_total other.last span.last with le | le
      · rw [Int.max_eq_right le]
        exact h.last
      · rw [Int.max_eq_left le]
        exact found.last

/-- The arrivals over an arc can be set, if no time over it is cut. -/
theorem Base.clear_of_fixed? {s : Store} {i j : Nat} (h : c.Base s) (hs : s.Valid) (hi : i < c.numNodes)
    (hf : s.fixed? (c.predecessor i) = some (j : Int)) : c.Clear s j i := by
  have inside := hs.contains_of_fixed? hf
  obtain ⟨k, hk, eq⟩ := h.sources i hi j inside
  obtain rfl := Int.ofNat.inj eq
  exact h.clear i j hi hk inside

theorem Holds.arrival_eq_of_fixed? {s : Store} {a : Assignment} {i j : Nat} (h : c.Holds a) (base : c.Base s)
    (hi : i < c.numNodes) (hf : s.fixed? (c.predecessor i) = some (j : Int)) (hadm : s.Admits a) :
    (c.arrival i).value a = c.reached j i ((c.departure j).value a) :=
  h.arrival_eq hi (Store.eq_of_fixed? hf (hadm _ (base.predecessors i hi)))

theorem Clear.settable {s : Store} {i j : Nat} (h : c.Clear s j i)
    (ordered : (c.departure j).lower s ≤ (c.departure j).upper s) : Span.Settable (c.arrival i)
      ⟨c.reached j i ((c.departure j).lower s), c.reached j i ((c.departure j).upper s)⟩ := by
  refine ⟨?_, (h.forth _ (Int.le_refl _) ordered).2, (h.forth _ ordered (Int.le_refl _)).2⟩
  dsimp only [reached]
  omega

/-- What has been seen of the predecessors of a node: the arrivals over those that are left, and if
nothing was removed, exactly the arrivals over the only one. -/
structure Seen (c : TimeWindow) (B : Prop) (node : Nat) (s : Space) (before : List Int)
    (seen : Bool × Option Span) (u : Space) : Prop where
  advance : Filter.Advance Filter.noCells (Granted B c.Holds) s seen.1 u
  start : before = [] → seen.2 = none
  spans : ∀ a, Granted B c.Holds a → s.store.Admits a → a (c.predecessor node) ∈ before →
    ∃ span, seen.2 = some span ∧ span.first ≤ (c.arrival node).value a ∧
      (c.arrival node).value a ≤ span.last
  settable : B → ∀ span, seen.2 = some span → span.Settable (c.arrival node)
  fixed : seen.1 = false → ∀ j : Nat, s.store.fixed? (c.predecessor node) = some (j : Int) →
    before = [(j : Int)] →
    seen.2 = some ⟨c.computed j node ((c.departure j).lower s.store),
      c.computed j node ((c.departure j).upper s.store)⟩

/-- A predecessor that is taken away is none over which an assignment arrives. -/
theorem Seen.removed {before : List Int} {seen : Bool × Option Span} {u w : Space} {b : Bool} {x : Int}
    (h : Seen c B node s before seen u) (hx : s.store.contains (c.predecessor node) x = true)
    (spare : ∀ a, Granted B c.Holds a → u.store.Admits a → a (c.predecessor node) ≠ x)
    (advance : Filter.Advance Filter.noCells (Granted B c.Holds) u b w)
    (gone : b = false → ∀ y, u.store.contains (c.predecessor node) y = true →
      u.store.Remaining (c.predecessor node) x y) :
    Seen c B node s (before ++ [x]) (b || seen.1, seen.2) w := by
  refine ⟨h.advance.trans advance, by simp, fun a ha hadm hmem => ?_, h.settable, fun hb i hi heq => ?_⟩
  · rcases List.mem_append.mp hmem with hmem | hmem
    · exact h.spans a ha hadm hmem
    · exact absurd (List.mem_singleton.mp hmem) (spare a ha (h.advance.admits a ha hadm))
  · -- the only value of a domain is not removed without notice
    obtain ⟨hb, hseen⟩ := Bool.or_eq_false_iff.mp hb
    obtain rfl := h.advance.unchanged hseen
    obtain ⟨hl, -⟩ := Store.fixed?_eq_some_iff.mp hi
    have same : x = i := Store.eq_of_fixed? hi hx
    rcases gone hb _ hx with hne | ⟨-, hlt, -⟩
    · exact absurd rfl hne
    · exact absurd (hl.trans same.symm) (Int.ne_of_lt hlt)

/-- The arrivals over a predecessor that stays are added to those seen before. -/
theorem Seen.joined {before : List Int} {seen : Bool × Option Span} {u : Space} {j : Nat}
    (h : Seen c B node s before seen u)
    (within : ∀ a, Granted B c.Holds a → u.store.Admits a → a (c.predecessor node) = (j : Int) →
      c.computed j node ((c.departure j).lower u.store) ≤ (c.arrival node).value a ∧
        (c.arrival node).value a ≤ c.computed j node ((c.departure j).upper u.store))
    (settable : B → Span.Settable (c.arrival node) ⟨c.computed j node ((c.departure j).lower u.store),
      c.computed j node ((c.departure j).upper u.store)⟩) :
    Seen c B node s (before ++ [(j : Int)])
      (seen.1, some (Span.join ⟨c.computed j node ((c.departure j).lower u.store),
        c.computed j node ((c.departure j).upper u.store)⟩ seen.2)) u := by
  refine ⟨h.advance, by simp, fun a ha hadm hmem => ⟨_, rfl, ?_⟩, fun hB span hspan => ?_, fun hb i hi heq => ?_⟩
  · rcases List.mem_append.mp hmem with hmem | hmem
    · obtain ⟨span, hspan, hfirst, hlast⟩ := h.spans a ha hadm hmem
      rw [hspan]
      simp only [Span.join]
      omega
    · have hin := within a ha (h.advance.admits a ha hadm) (List.mem_singleton.mp hmem)
      cases seen.2 with
      | none => simp only [Span.join]; omega
      | some span => simp only [Span.join]; omega
  · exact Option.some.inj hspan ▸ (settable hB).join (h.settable hB)
  · obtain rfl := h.advance.unchanged hb
    cases before with
    | nil =>
      rw [h.start rfl]
      obtain rfl : j = i := Int.ofNat.inj (List.singleton_inj.mp heq)
      rfl
    | cons y before => simp at heq

variable (hs : s.Valid) (base : B → c.Base s.store) (hnode : node < c.numNodes)
include hs base hnode

theorem ends_reachFrom {before : List Int} {seen : Bool × Option Span} {u : Space} {x : Int}
    (h : Seen c B node s before seen u) (hx : s.store.contains (c.predecessor node) x = true) :
    Ends (c.reachFrom (c.target node s.store) seen x u) (Seen c B node s (before ++ [x]))
      (Filter.Halted Filter.noCells (Granted B c.Holds) B s) := by
  have narrows := h.advance.narrows
  have valid := narrows.valid hs
  have base' (hB : B) : c.Base u.store := (base hB).narrows hs.store narrows.store
  refine Ends.mono (E := Filter.Halted Filter.noCells (Granted B c.Holds) B u) ?_
    (fun _ _ => id) fun _ _ ht => ht.after h.advance
  unfold reachFrom
  rw [ends_bind]
  refine ends_arc base' hnode (fun hB => (base hB).sources node hnode x hx) fun j hj => ?_
  subst hj
  rw [ends_bind, Filter.ends_read, ends_bind, Filter.ends_read]
  have ordered (hB : B) := ((base' hB).departures j).lower_le_upper valid.store
  have clear (hB : B) : c.Clear u.store j node := by
    obtain ⟨j', hj', eq⟩ := (base hB).sources node hnode j hx
    obtain rfl := Int.ofNat.inj eq
    exact ((base hB).clear node j hnode hj' hx).enclosed ((base hB).departures j) ((base hB).arrivals node)
      (.of_narrows narrows.store hs.store) valid.store
  have first_eq (hB : B) := (clear hB).computed_eq (Int.le_refl _) (ordered hB)
  have last_eq (hB : B) := (clear hB).computed_eq (ordered hB) (Int.le_refl _)
  -- an assignment with this predecessor arrives within the bounds that it determines
  have within (a : Assignment) (ha : Granted B c.Holds a) (hadm : u.store.Admits a)
      (hj : a (c.predecessor node) = (j : Int)) :
      c.computed j node ((c.departure j).lower u.store) ≤ (c.arrival node).value a ∧
        (c.arrival node).value a ≤ c.computed j node ((c.departure j).upper u.store) := by
    have := ((base' ha.1).departures j).bounds_of_admits hadm
    rw [first_eq ha.1, last_eq ha.1, ha.2.arrival_eq hnode hj]
    unfold reached
    omega
  rw [ends_ite]
  split
  · rename_i unfit
    have spare (a : Assignment) (ha : Granted B c.Holds a) (hadm : u.store.Admits a) :
        a (c.predecessor node) ≠ (j : Int) := by
      intro heq
      have hin := within a ha hadm heq
      have hat := ((base ha.1).arrivals node).bounds_of_admits (narrows.store.admits hs.store hadm)
      simp only [Bool.or_eq_true, decide_eq_true_eq] at unfit
      unfold computed at hin
      omega
    rw [ends_bind]
    exact Ends.mono_ok (Filter.filters_remove valid
      (fun hB => (base' hB).predecessors node hnode) spare) fun b w hw =>
        h.removed hx spare hw.1 hw.2
  · refine h.joined within fun hB => ?_
    rw [first_eq hB, last_eq hB]
    exact (clear hB).settable (ordered hB)

theorem ends_reachAll :
    Ends ((s.store.values (c.predecessor node)).foldlM (c.reachFrom (c.target node s.store))
        (false, none) s)
      (Seen c B node s (s.store.values (c.predecessor node)))
      (Filter.Halted Filter.noCells (Granted B c.Holds) B s) :=
  ends_foldlM_prefix
    (fun before x rest split _ _ h => ends_reachFrom hs base hnode h
      (Store.mem_values.mp (by rw [split]; exact List.mem_append_right before List.mem_cons_self)))
    ⟨.refl, fun _ => rfl, fun _ _ _ h => (by cases h), fun _ _ h => (by cases h), fun _ _ _ h => (by cases h)⟩

omit hnode in
theorem filters_boundArrival {span : Option Span}
    (within : ∀ a, Granted B c.Holds a → s.store.Admits a → ∀ found, span = some found →
      found.first ≤ (c.arrival node).value a ∧ (c.arrival node).value a ≤ found.last)
    (settable : B → ∀ found, span = some found → found.Settable (c.arrival node)) (t : Target)
    (ht : t.arrival = c.arrival node) :
    Filter.Filters Filter.noCells (Granted B c.Holds) B (boundArrival t span) s
      (B → ∀ found, span = some found → found.first ≤ (c.arrival node).lower s.store ∧
        (c.arrival node).upper s.store ≤ found.last) := by
  cases span with
  | none => exact Filter.filters_pure fun _ _ h => by cases h
  | some found =>
    dsimp only [boundArrival]
    split
    · rw [ht, Filter.inTurn_pair]
      have known (u : Space) (hu : s.Narrows Filter.noCells u) (hB : B) :
          (c.arrival node).Known u.store := ((base hB).narrows hs.store hu.store).arrivals node
      refine Filter.Filters.mono (Filter.filters_andThen
        (NodeTime.filters_setLower hs (known s .refl) (fun hB => (settable hB found rfl).first)
          fun a ha hadm => (within a ha hadm found rfl).1)
        fun u hu => NodeTime.filters_setUpper (hu.valid hs) (known u hu) (fun hB => (settable hB found rfl).last)
          fun a ha hadm => (within a ha (hu.store.admits hs.store hadm) found rfl).2) fun h hB other hother => ?_
      obtain rfl := Option.some.inj hother
      exact ⟨h.1 hB, h.2 hB⟩
    · rename_i crossed
      exact Filter.filters_pure fun hB _ _ => absurd (settable hB found rfl).le crossed

theorem filters_latestDeparture {j : Nat} (hf : s.store.fixed? (c.predecessor node) = some (j : Int)) :
    Filter.Filters Filter.noCells (Granted B c.Holds) B
      ((c.departure j).setUpper (Word.integer ((c.arrival node).upper s.store - c.distance j node))) s
      (B → (c.departure j).upper s.store ≤
        Word.integer ((c.arrival node).upper s.store - c.distance j node)) := by
  have ordered (hB : B) := ((base hB).arrivals node).lower_le_upper hs.store
  have clear (hB : B) := (base hB).clear_of_fixed? hs.store hnode hf
  have latest (hB : B) := (clear hB).integer_sub_eq (ordered hB) (Int.le_refl _)
  refine NodeTime.filters_setUpper hs (fun hB => (base hB).departures j) (fun hB => ?_) fun a ha hadm => ?_
  · rw [latest hB]
    exact ((clear hB).back _ (ordered hB) (Int.le_refl _)).2
  · have arrives := ha.2.arrival_eq_of_fixed? (base ha.1) hnode hf hadm
    have within := ((base ha.1).arrivals node).bounds_of_admits hadm
    rw [latest ha.1]
    unfold reached at arrives
    omega

/-- A tour that does not wait arrives when its departure and the distance say. -/
theorem filters_earliestDeparture {j : Nat} (hf : s.store.fixed? (c.predecessor node) = some (j : Int))
    (waitless : c.opening node < (c.arrival node).lower s.store) :
    Filter.Filters Filter.noCells (Granted B c.Holds) B
      ((c.departure j).setLower (Word.integer ((c.arrival node).lower s.store - c.distance j node))) s
      (B → Word.integer ((c.arrival node).lower s.store - c.distance j node) ≤
        (c.departure j).lower s.store) := by
  have ordered (hB : B) := ((base hB).arrivals node).lower_le_upper hs.store
  have clear (hB : B) := (base hB).clear_of_fixed? hs.store hnode hf
  have earliest (hB : B) := (clear hB).integer_sub_eq (Int.le_refl _) (ordered hB)
  refine NodeTime.filters_setLower hs (fun hB => (base hB).departures j) (fun hB => ?_) fun a ha hadm => ?_
  · rw [earliest hB]
    exact ((clear hB).back _ (Int.le_refl _) (ordered hB)).2
  · have arrives := ha.2.arrival_eq_of_fixed? (base ha.1) hnode hf hadm
    have within := ((base ha.1).arrivals node).bounds_of_admits hadm
    rw [earliest ha.1]
    unfold reached at arrives
    omega

theorem filters_boundDeparture (t : Target) (ht : t.node = node) (ha : t.arrival = c.arrival node)
    (he : t.earliest = c.opening node) :
    Filter.Filters Filter.noCells (Granted B c.Holds) B (c.boundDeparture t) s True := by
  unfold boundDeparture
  rw [ht, ha, he, Filter.filters_read]
  cases hf : s.store.fixed? (c.predecessor node) with
  | none => exact Filter.filters_pure trivial
  | some source =>
    have inside := hs.store.contains_of_fixed? hf
    unfold Filter.Filters
    dsimp only
    rw [ends_bind]
    refine ends_arc base hnode (fun hB => (base hB).sources node hnode source inside) fun j hj => ?_
    subst hj
    change Filter.Filters _ _ _ (Filter.read _ >>= _) s True
    rw [Filter.filters_read]
    refine (filters_latestDeparture hs base hnode hf).bind fun cut u hu _ => ?_
    rw [ends_bind, Filter.ends_read, ends_ite]
    split
    · rename_i waitless
      rw [ends_bind]
      have narrows := hu.narrows
      refine Ends.mono (filters_earliestDeparture (narrows.valid hs)
        (fun hB => (base hB).narrows hs.store narrows.store) hnode (narrows.store.fixed? hs.store hf) waitless)
        (fun b w hw => ⟨hu.trans hw.1, fun _ => trivial⟩) fun halt w hw => hw.after hu
    · exact ⟨hu, fun _ => trivial⟩

theorem filters_filterTarget :
    Filter.Filters Filter.noCells (Granted B c.Holds) B (c.filterTarget node) s
      (B → c.Timed s.store node) := by
  unfold filterTarget
  refine Filter.filters_demand (fun hB => ⟨_, (base hB).getElem?_arrivals hnode⟩) fun _ harrival => ?_
  refine Filter.filters_demand (fun hB => ⟨_, (base hB).getElem?_earliest hnode⟩) fun _ hearliest => ?_
  obtain rfl := arrival_eq harrival
  obtain rfl := opening_eq hearliest
  rw [Filter.filters_read, Filter.filters_read, Filter.filters_read]
  unfold Filter.Filters
  rw [ends_bind]
  refine Ends.mono_ok (ends_reachAll hs base hnode) fun r u hu => ?_
  have narrows := hu.advance.narrows
  have base' (hB : B) : c.Base u.store := (base hB).narrows hs.store narrows.store
  rw [ends_bind, Filter.inTurn_pair]
  refine Ends.mono (Filter.filters_andThen
    (filters_boundArrival (narrows.valid hs) base' (fun a ha hadm found hfound => ?_) hu.settable _ rfl)
    fun w hw => filters_boundDeparture (hw.valid (narrows.valid hs))
      (fun hB => (base' hB).narrows (narrows.valid hs).store hw.store) hnode _ rfl rfl rfl)
    (fun bounded w hw => ⟨?_, fun hb hB j hj => ?_⟩) fun halt w hw => hw.after hu.advance
  · have hadm' := narrows.store.admits hs.store hadm
    obtain ⟨seen, hseen, between⟩ := hu.spans a ha hadm'
      (Store.mem_values.mpr (hadm' _ ((base ha.1).predecessors node hnode)))
    obtain rfl := Option.some.inj (hfound.symm.trans hseen)
    exact between
  · rw [Bool.or_comm]
    exact hu.advance.trans hw.1
  · obtain ⟨hremoved, hbounded⟩ := Bool.or_eq_false_iff.mp hb
    have bounded := (hw.2 hbounded).1 hB _ (hu.fixed hremoved j hj (Store.values_of_fixed? hs.store hj))
    have inside := hs.store.contains_of_fixed? hj
    obtain ⟨j', hj', eq⟩ := (base hB).sources node hnode j inside
    obtain rfl := Int.ofNat.inj eq
    have clear := (base hB).clear node j hnode hj' inside
    have ordered := ((base hB).departures j).lower_le_upper hs.store
    rwa [hu.advance.unchanged hremoved, clear.computed_eq (Int.le_refl _) ordered,
      clear.computed_eq ordered (Int.le_refl _)] at bounded

/-! ## Arcs out of a node -/

theorem filters_filterSource :
    Filter.Filters Filter.noCells (Granted B c.Holds) B (c.filterSource node) s True := by
  unfold filterSource
  refine Filter.filters_demand (fun hB => ⟨_, (base hB).getElem?_departures hnode⟩) fun _ hdeparture => ?_
  obtain rfl := departure_eq hdeparture
  split
  · exact Filter.filters_pure trivial
  rw [Filter.filters_read]
  refine Filter.filters_demand (fun hB => exists_mapM_eq_some fun target htarget =>
    ⟨_, (base hB).latestTowards_eq hnode hs.store (List.mem_range.mp htarget)⟩) fun latest hlatest => ?_
  split
  · exact Filter.filters_pure trivial
  · rename_i bound hbound
    refine (NodeTime.filters_setUpper hs (fun hB => (base hB).departures node) (fun hB => ?_)
      fun a ha hadm => ?_).mono fun _ => trivial
    · obtain ⟨target, htarget, -, inside, rfl⟩ :=
        ((base hB).mem_latest hnode hs.store hlatest).mp (List.max?_eq_some_iff.mp hbound).1
      exact (((base hB).clear target node htarget hnode inside).back _
        (((base hB).arrivals target).lower_le_upper hs.store) (Int.le_refl _)).2
    -- the tour leaves the node towards some other one, which it has to reach in time
    obtain ⟨target, htarget, hne, heq⟩ := ha.2.leaves node hnode
    have arrives := ha.2.arrival_eq htarget heq
    have bounds := ((base ha.1).arrivals target).bounds_of_admits hadm
    have inside : s.store.contains (c.predecessor target) node = true := by
      rw [← heq]
      exact hadm _ ((base ha.1).predecessors target htarget)
    have := (List.max?_eq_some_iff.mp hbound).2 _
      (((base ha.1).mem_latest hnode hs.store hlatest).mpr ⟨target, htarget, hne, inside, rfl⟩)
    unfold reached at arrives
    omega

end

/-! ## The rule -/

section
variable {s t : Store} {i : Nat}

theorem mem_timeVars {x : NodeTime} {v : Var} (hx : x ∈ c.arrivals ∨ x ∈ c.departures)
    (hv : x.var? = some v) : (v, Event.bounds) ∈ c.watches := by
  refine List.mem_append_right _ (List.mem_map_of_mem (List.mem_eraseDups.mpr ?_))
  refine List.mem_filterMap.mpr ⟨x, ?_, hv⟩
  simpa using hx

theorem mem_arrivals (h : c.Base s) (hi : i < c.numNodes) : c.arrival i ∈ c.arrivals :=
  Array.mem_of_getElem? (h.getElem?_arrivals hi)

theorem mem_departures (h : c.Base s) (hi : i < c.numNodes) : c.departure i ∈ c.departures :=
  Array.mem_of_getElem? (h.getElem?_departures hi)

theorem mem_predecessors (hi : i < c.numNodes) : (c.predecessor i, Event.any) ∈ c.watches := by
  refine List.mem_append_left _ (List.mem_map_of_mem (f := fun v => (v, Event.any)) ?_)
  have lt : i < c.predecessors.size := hi
  simp [predecessor, lt]

/-- The bounds of a time are as before if nothing was told of its variable. -/
theorem still_of_told {new : List (Var × Event)} {x : NodeTime} (hx : x ∈ c.arrivals ∨ x ∈ c.departures)
    (told : Told new s t) (away : Unwatched c.watches new) : x.Still s t :=
  fun _ hv => away.bounds_eq told (mem_timeVars hx hv)

theorem Timed.told {new : List (Var × Event)} (base : c.Base s) (hi : i < c.numNodes)
    (h : c.Timed s i) (hs : s.Valid) (told : Told new s t) (away : Unwatched c.watches new) :
    c.Timed t i := by
  intro j hj
  have fixed : s.fixed? (c.predecessor i) = some (j : Int) := by
    rw [Store.fixed?, ← away.domain_eq told (mem_predecessors hi)]
    exact hj
  obtain ⟨j', hj', eq⟩ := base.sources i hi j (hs.contains_of_fixed? fixed)
  obtain rfl : j' = j := by omega
  obtain ⟨hal, hau⟩ := (still_of_told (.inl (mem_arrivals base hi)) told away).bounds_eq
  obtain ⟨hdl, hdu⟩ := (still_of_told (.inr (mem_departures base hj')) told away).bounds_eq
  rw [hal, hau, hdl, hdu]
  exact h j' fixed

end

theorem filters_pass {B : Prop} {s : Space} (hs : s.Valid) (base : B → c.Base s.store) :
    Filter.Filters Filter.noCells (Granted B c.Holds) B c.pass s
      (B → ∀ i, i < c.numNodes → c.Timed s.store i) := by
  have base' (u : Space) (hu : s.Narrows Filter.noCells u) (hB : B) : c.Base u.store :=
    (base hB).narrows hs.store hu.store
  have passed : Filter.Filters Filter.noCells (Granted B c.Holds) B
      (Filter.inTurn (c.nodes.map c.filterTarget ++ c.nodes.map c.filterSource)) s
      ((∀ i ∈ c.nodes, B → c.Timed s.store i) ∧ True) := by
    refine Filter.filters_inTurn_append (Q := fun _ => True) ?_ fun u hu => ?_
    · rw [Filter.inTurn_map]
      exact Filter.filters_each fun i hi u hu => filters_filterTarget (hu.valid hs) (base' u hu)
        (List.mem_range.mp hi)
    · rw [Filter.inTurn_map]
      exact (Filter.filters_each fun i hi w hw => filters_filterSource (hw.valid (hu.valid hs))
        (base' w (hu.trans hw)) (List.mem_range.mp hi)).mono fun _ => trivial
  exact passed.mono fun h hB i hi => h.1 i (List.mem_range.mpr hi) hB

/-- **The time windows as a rule.** -/
def rule (c : TimeWindow) : Rule where
  watches := c.watches
  filter := c.filter
  Base := c.Base
  Spec s := ∀ i, i < c.numNodes → c.Timed s i
  Holds := c.Holds
  base_congr := ⟨fun h => h.congr rfl, fun h => h.congr rfl⟩
  spec_congr := Iff.rfl
  base_narrows h hs hn := h.narrows hs hn
  spec_told base h hs _ told away i hi := (h i hi).told base hi hs told away
  filtered hs := Filter.ends_untilStable fun _ ht =>
    filters_pass (ht.valid hs) fun base => base.narrows hs.store ht.store

/-! ## Idempotence -/

section
variable {s t : Space} {node : Nat} {source : Int} {α : Type} {Q : α → Prop}

theorem persists_arc {g : Int × NodeTime → Filter α}
    (h : ∀ distance departure, departure ∈ c.departures → Filter.Persists Q (g (distance, departure)) s t) :
    Filter.Persists Q (c.arc source node >>= g) s t := by
  unfold arc
  simp only [bind_assoc, pure_bind]
  refine Filter.persists_demand fun i _ => Filter.persists_demand fun distance _ => ?_
  exact Filter.persists_demand fun departure hd => h distance departure (Array.mem_of_getElem? hd)

variable (same : Unnoticed c.watches s.store t.store)
include same

/-- The bounds of a time are watched. -/
theorem still_of_unnoticed {x : NodeTime} (hx : x ∈ c.arrivals ∨ x ∈ c.departures) :
    x.Still s.store t.store :=
  fun v hv => same.bounds_eq v (mem_timeVars hx hv)

variable (hs : s.Valid) (ht : t.Valid) (hnode : node < c.numNodes)
include hs ht hnode

/-- Whether a predecessor is removed, and else what it adds to the times, depends on what is watched. -/
theorem persists_reachFrom {target : Target} (heq : target.node = node) (seen : Bool × Option Span) :
    Filter.Persists (fun r : Bool × Option Span => Filter.Unchanged r.1) (c.reachFrom target seen source)
      s t := by
  have domain := same.domain_eq _ (mem_predecessors (heq ▸ hnode))
  unfold reachFrom
  refine persists_arc fun distance departure hd => ?_
  obtain ⟨lower, upper⟩ := (still_of_unnoticed same (.inr hd)).bounds_eq
  refine Filter.persists_read (by rw [lower]) (Filter.persists_read (by rw [upper]) ?_)
  split
  · refine Filter.persists_bind (P := Filter.Unchanged) ?_ (fun removed _ => Filter.persists_pure)
      fun removed u r w hr h => ?_
    · exact Filter.persists_remove same.numVars_eq hs.store ht.store fun gone => gone.congr domain
    · cases h
      exact (Bool.or_eq_false_iff.mp hr).1
  · exact Filter.persists_pure

omit hs ht in
theorem persists_boundDeparture {target : Target} (heq : target.node = node)
    (ha : target.arrival ∈ c.arrivals) : Filter.Persists Filter.Unchanged (c.boundDeparture target) s t := by
  have domain := same.domain_eq _ (mem_predecessors (heq ▸ hnode))
  obtain ⟨lower, upper⟩ := (still_of_unnoticed same (.inl ha)).bounds_eq
  unfold boundDeparture
  refine Filter.persists_read (by rw [Store.fixed?, Store.fixed?, domain]) ?_
  split
  · exact Filter.persists_pure
  · refine persists_arc fun distance departure hd => ?_
    have still := still_of_unnoticed same (.inr hd)
    refine Filter.persists_read (by rw [upper]) ?_
    refine Filter.persists_bind (still.persists_setUpper same.numVars_eq) (fun cut hcut => ?_)
      fun cut u b w hb h => ?_
    · refine Filter.persists_read lower ?_
      split
      · exact Filter.persists_or (still.persists_setLower same.numVars_eq)
      · exact Filter.persists_pure
    · obtain ⟨lower, u', -, h⟩ := bind_eq_ok h
      split at h
      · exact Filter.unchanged_of_or hb h
      · cases h
        exact hb

theorem persists_filterTarget : Filter.Persists Filter.Unchanged (c.filterTarget node) s t := by
  have domain := same.domain_eq _ (mem_predecessors hnode)
  unfold filterTarget
  refine Filter.persists_demand fun arrival ha => Filter.persists_demand fun earliest _ => ?_
  have mem : arrival ∈ c.arrivals := Array.mem_of_getElem? ha
  have still := still_of_unnoticed same (.inl mem)
  obtain ⟨lower, upper⟩ := still.bounds_eq
  refine Filter.persists_read (by rw [Store.values, Store.values, domain]) ?_
  refine Filter.persists_read lower (Filter.persists_read upper ?_)
  refine Filter.persists_bind (P := fun r : Bool × Option Span => Filter.Unchanged r.1)
    (Filter.persists_foldlM (fun source _ seen _ => persists_reachFrom same hs ht hnode rfl seen)
      (fun source _ seen u seen' w hseen h => ?_) _ (Eq.refl false)) (fun r _ => ?_) fun r u b w hb h => ?_
  · unfold reachFrom at h
    obtain ⟨x, u₁, -, h⟩ := bind_eq_ok h
    obtain ⟨first, u₂, -, h⟩ := bind_eq_ok h
    obtain ⟨last, u₃, -, h⟩ := bind_eq_ok h
    split at h
    · obtain ⟨removed, u₄, -, h⟩ := bind_eq_ok h
      cases h
      exact (Bool.or_eq_false_iff.mp hseen).2
    · cases h
      exact hseen
  · refine Filter.persists_bind (P := Filter.Unchanged) (Filter.persists_pair ?_
      (persists_boundDeparture same hnode rfl mem)) (fun bounded _ => Filter.persists_pure)
      fun bounded u b w hb h => ?_
    · cases r.2 with
      | none => exact Filter.persists_pure
      | some span =>
        dsimp only [boundArrival]
        split
        · exact Filter.persists_pair (still.persists_setLower same.numVars_eq)
            (still.persists_setUpper same.numVars_eq)
        · exact Filter.persists_pure
    · cases h
      exact (Bool.or_eq_false_iff.mp hb).2
  · obtain ⟨bounded, u', -, h⟩ := bind_eq_ok h
    cases h
    exact (Bool.or_eq_false_iff.mp hb).1

omit hs ht hnode in
theorem persists_filterSource : Filter.Persists Filter.Unchanged (c.filterSource node) s t := by
  unfold filterSource
  refine Filter.persists_demand fun departure hd => ?_
  have still := still_of_unnoticed same (.inr (Array.mem_of_getElem? hd))
  split
  · exact Filter.persists_pure
  · have latest : c.nodes.mapM (c.latestTowards t.store node) =
        c.nodes.mapM (c.latestTowards s.store node) := by
      refine mapM_congr fun target htarget => ?_
      have domain := same.domain_eq _ (mem_predecessors (List.mem_range.mp htarget))
      unfold latestTowards
      rw [Store.contains, Store.contains, domain]
      cases ha : c.arrivals[target]? with
      | none => rfl
      | some arrival =>
        have upper := (still_of_unnoticed same (.inl (Array.mem_of_getElem? ha))).bounds_eq.2
        simp only [Option.bind_eq_bind, Option.bind_some, upper]
    refine Filter.persists_read latest ?_
    refine Filter.persists_demand fun latest _ => ?_
    split
    · exact Filter.persists_pure
    · exact still.persists_setUpper same.numVars_eq

end

/-- **Time windows are idempotent.** -/
theorem idempotent (c : TimeWindow) : c.rule.Idempotent fun _ => True := by
  refine Rule.idempotent_of_pass c.pass rfl (fun _ _ _ => trivial) (fun _ _ => trivial)
    (fun s hs => ⟨_, False, _, filters_pass hs fun h => h.elim⟩) fun s t hs ht _ _ same => ?_
  refine Filter.persists_inTurn fun f hf => ?_
  rcases List.mem_append.mp hf with hf | hf
  · obtain ⟨node, hnode, rfl⟩ := List.mem_map.mp hf
    exact persists_filterTarget same hs ht (List.mem_range.mp hnode)
  · obtain ⟨node, -, rfl⟩ := List.mem_map.mp hf
    exact persists_filterSource same

end TimeWindow
end BranchBound
