import BranchBound.Proofs.ChangeoverCost.Paths
import BranchBound.Proofs.Persistence

/-! # Changeover costs

The cost of an assignment is what its plan pays for changeovers.  The filter raises the cost to that of the
cheapest plan that is still possible, and removes a value if the cheapest way to it and the cheapest way
from it cost more together than the cost can be.  When the plan is fixed, the cost is what the plan pays
(`ChangeoverCost.ends_filter`).

The last pass may still change the cost, but in a way that the next pass would have nothing to add to: what
it says depends on the plan and on the upper bound of the cost only, and these are watched
(`ChangeoverCost.idempotent`). -/
namespace BranchBound
namespace ChangeoverCost
variable (c : ChangeoverCost)

/-- The plan of a period is an item, or idle, and no plan is as expensive as no path. -/
structure Base (s : Store) : Prop where
  sound : c.Sound
  known : ∀ v ∈ c.plan, v < s.numVars
  planned : ∀ v ∈ c.plan, ∀ x, s.contains v x = true → c.Plannable x
  cost_lt : c.cost < s.numVars
  apart : c.cost ∉ c.plan
  upper_lt : s.upper c.cost < unreachable

/-- The cost is what the plan pays for changeovers. -/
def Holds (a : Assignment) : Prop := a c.cost = c.pathCost c.initial (c.plan.map a)

/-- The cost is enough to pay for the plan. -/
def Affords (a : Assignment) : Prop := c.pathCost c.initial (c.plan.map a) ≤ a c.cost

/-- When the plan is fixed, so is its cost. -/
def Spec (s : Store) : Prop :=
  (∀ v ∈ c.plan, s.isFixed v = true) → s.isFixed c.cost = true ∧ c.Holds s.lower

variable {c}

theorem Base.narrows {s t : Store} (h : c.Base s) (hs : s.Valid) (hn : s.Narrows t) : c.Base t where
  sound := h.sound
  known v hv := hn.numVars_eq ▸ h.known v hv
  planned v hv x hx := h.planned v hv x (hn.contains hs hx)
  cost_lt := hn.numVars_eq ▸ h.cost_lt
  apart := h.apart
  upper_lt := Int.lt_of_le_of_lt (hn.upper_le hs c.cost) h.upper_lt

/-! ## Domains of the plan -/

section
variable {s t : Store}

/-- What changes the cost only leaves the plan as it is. -/
theorem domain_eq_of_others (apart : c.cost ∉ c.plan)
    (others : ∀ w, w ≠ c.cost → t.domain? w = s.domain? w) : ∀ v ∈ c.plan, t.domain v = s.domain v :=
  fun v hv => by rw [Store.domain, Store.domain, others v fun heq => apart (heq ▸ hv)]

variable (plan : ∀ v ∈ c.plan, t.domain v = s.domain v)
include plan

theorem map_values_congr : c.plan.map t.values = c.plan.map s.values :=
  List.map_congr_left fun v hv => by rw [Store.values, plan v hv, Store.values]

theorem map_lower_congr : c.plan.map t.lower = c.plan.map s.lower :=
  List.map_congr_left fun v hv => by rw [Store.lower, plan v hv, Store.lower]

theorem isFixed_congr : ∀ v ∈ c.plan, t.isFixed v = s.isFixed v :=
  fun v hv => by rw [Store.isFixed, plan v hv, Store.isFixed]

theorem all_isFixed_congr : c.plan.all t.isFixed = c.plan.all s.isFixed := by
  rw [Bool.eq_iff_iff, List.all_eq_true, List.all_eq_true]
  exact forall₂_congr fun v hv => by rw [isFixed_congr plan v hv]

end
section
variable {s t : Store} {a : Assignment}

/-- What an assignment plans for a period is possible. -/
theorem Base.mem_values (base : c.Base s) (ha : s.Admits a) : ∀ v ∈ c.plan, a v ∈ s.values v :=
  fun v hv => Store.mem_values.mpr (ha v (base.known v hv))

theorem Holds.affords (h : c.Holds a) : c.Affords a := Int.le_of_eq h.symm

theorem Affords.cost_lt (base : c.Base s) (h : c.Affords a) (ha : s.Admits a) :
    c.pathCost c.initial (c.plan.map a) < unreachable := by
  have := (Store.bounds_of_contains (ha c.cost base.cost_lt)).2
  have := base.upper_lt
  unfold Affords at h
  omega

theorem Base.values_plannable (base : c.Base s) : ∀ v ∈ c.plan, ∀ x ∈ s.values v, c.Plannable x :=
  fun v hv x hx => base.planned v hv x (Store.mem_values.mp hx)

/-- Of a fixed plan, the best is the one there is. -/
theorem Base.best_of_fixed (base : c.Base s) (hs : s.Valid)
    (fixed : ∀ v ∈ c.plan, s.isFixed v = true) : c.best (c.plan.map s.values) c.initial =
      min unreachable (c.pathCost c.initial (c.plan.map s.lower)) :=
  base.sound.best_fixed fun v hv => Domain.values_of_isFixed (hs.domain v) (fixed v hv)

theorem Holds.cost_eq_best (base : c.Base s) (hs : s.Valid) (fixed : ∀ v ∈ c.plan, s.isFixed v = true)
    (h : c.Holds a) (ha : s.Admits a) : a c.cost = c.best (c.plan.map s.values) c.initial := by
  have small := h.affords.cost_lt base ha
  have same : c.plan.map a = c.plan.map s.lower := List.map_congr_left fun v hv =>
    Domain.contains_of_isFixed (fixed v hv) (ha v (base.known v hv))
  rw [h, base.best_of_fixed hs fixed, ← same]
  omega

/-- **A fixed plan fixes its cost** once both bounds are at what the best plan costs. -/
theorem Base.spec_of_bounds (base : c.Base s) (hs : s.Valid) (hn : s.Narrows t)
    (fixed : ∀ v ∈ c.plan, s.isFixed v = true) (plan : ∀ v ∈ c.plan, t.domain v = s.domain v)
    (lower : c.best (c.plan.map s.values) c.initial ≤ t.lower c.cost)
    (upper : t.upper c.cost ≤ c.best (c.plan.map s.values) c.initial) : c.Spec t := fun _ => by
  have := (hn.valid hs).lower_le_upper c.cost
  have := (base.narrows hs hn).upper_lt
  rw [base.best_of_fixed hs fixed] at lower upper
  refine ⟨Store.isFixed_iff.mpr (by omega), ?_⟩
  unfold Holds
  rw [map_lower_congr plan]
  omega

/-- What the tables of paths say of the assignments that a filter is meant to spare. -/
structure Priced (c : ChangeoverCost) (s : Store) (p : Paths) (f : Nat → Nat → Int) : Prop where
  forward : p.forward.Shows (c.plan.length + 1) (c.initial + 1) f
  reaches : Reaches c s.values c.plan c.plan.length f
  rows : Rows c s.values c.plan c.plan.length f
  backward : p.backward.Shows (c.plan.length + 1) (c.initial + 1) fun i state =>
    c.best ((c.plan.map s.values).drop i) state

theorem Base.exists_priced (base : c.Base s) :
    ∃ p f, c.paths? (c.plan.map s.values) = some p ∧ Priced c s p f := by
  obtain ⟨forward, f, hf, shows, reaches, rows⟩ := base.sound.exists_forward base.values_plannable
  have plannable : ∀ values ∈ c.plan.map s.values, ∀ x ∈ values, c.Plannable x := fun values hvalues => by
    obtain ⟨v, hv, rfl⟩ := List.mem_map.mp hvalues
    exact base.values_plannable v hv
  obtain ⟨backward, hb, shows'⟩ := base.sound.exists_backward plannable
  rw [List.length_map] at shows'
  exact ⟨⟨forward, backward⟩, f, by rw [paths?, hf, hb]; rfl, shows, reaches, rows, shows'⟩

theorem Priced.cheapest_eq {p : Paths} {f : Nat → Nat → Int} (priced : Priced c s p f) :
    p.backward.get? 0 c.initial = some (c.best (c.plan.map s.values) c.initial) :=
  priced.backward.get?_eq 0 c.initial (Nat.zero_lt_succ _) (Nat.lt_succ_self _)

theorem exists_priced_of {B : Prop} {p : Paths} (base : B → c.Base s)
    (hp : c.paths? (c.plan.map s.values) = some p) : ∃ f, B → Priced c s p f := by
  by_cases hB : B
  · obtain ⟨p', f, hp', priced⟩ := (base hB).exists_priced
    obtain rfl := Option.some.inj (hp.symm.trans hp')
    exact ⟨f, fun _ => priced⟩
  · exact ⟨fun _ _ => 0, fun h => absurd h hB⟩

/-- What the cheapest way through a value of a period costs that goes through a state. -/
def way (c : ChangeoverCost) (s : Store) (f : Nat → Nat → Int) (period : Nat) (x : Int) (state : Nat) : Int :=
  plus (plus (f period state) (c.move state x).2)
    (c.best ((c.plan.map s.values).drop (period + 1)) (c.move state x).1)

/-- The best way through a value of a period is the best of the ways through a state. -/
theorem through_spec {p : Paths} {f : Nat → Nat → Int} {period : Nat} {x : Int} (base : c.Base s)
    (priced : Priced c s p f) (hperiod : period < c.plan.length) (hx : c.Plannable x) :
    ∃ cost, c.through? p period x = some cost ∧
      (∀ state, state ≤ c.initial → f period state ≠ unreachable → cost ≤ c.way s f period x state) ∧
      (cost = unreachable ∨
        ∃ state ≤ c.initial, f period state ≠ unreachable ∧ cost = c.way s f period x state) := by
  have looked := foldlM_option (l := c.states)
    (f := fun best state => do
      let sofar ← p.forward.get? period state
      if sofar = unreachable then return best
      else
        let step ← c.transition? state x
        return min best (plus (plus sofar step.2) (← p.backward.get? (period + 1) step.1)))
    (I := fun before cost =>
      (∀ state ∈ before, f period state ≠ unreachable → cost ≤ c.way s f period x state) ∧
      (cost = unreachable ∨
        ∃ state ≤ c.initial, f period state ≠ unreachable ∧ cost = c.way s f period x state))
    (b := unreachable) (fun before state rest split cost hcost => ?_) ⟨fun _ h => (by cases h), .inl rfl⟩
  · obtain ⟨cost, eq, least, found⟩ := looked
    exact ⟨cost, eq, fun state hs => least state (List.mem_range.mpr (Nat.lt_succ_of_le hs)), found⟩
  · have hs : state < c.initial + 1 := List.mem_range.mp (show state ∈ c.states by rw [split]; simp)
    obtain ⟨transition, le⟩ := base.sound.transition (Nat.le_of_lt_succ hs) hx
    have backward := priced.backward.get?_eq (period + 1) (c.move state x).1 (by omega) (by omega)
    rw [priced.forward.get?_eq period state (by omega) hs, transition]
    simp only [Option.bind_eq_bind, Option.bind_some, backward]
    split
    · rename_i unreached
      refine ⟨cost, rfl, fun state' hs' reached => ?_, hcost.2⟩
      rcases List.mem_append.mp hs' with hs' | hs'
      · exact hcost.1 state' hs' reached
      · obtain rfl := List.mem_singleton.mp hs'
        exact absurd unreached reached
    · rename_i here
      refine ⟨_, rfl, fun state' hs' reached => ?_, ?_⟩
      · rcases List.mem_append.mp hs' with hs' | hs'
        · exact Int.le_trans (Int.min_le_left _ _) (hcost.1 state' hs' reached)
        · obtain rfl := List.mem_singleton.mp hs'
          exact Int.min_le_right _ _
      · change min cost (c.way s f period x state) = unreachable ∨ ∃ state' ≤ c.initial,
          f period state' ≠ unreachable ∧ min cost (c.way s f period x state) = c.way s f period x state'
        rcases Int.le_total cost (c.way s f period x state) with le | le
        · rw [Int.min_eq_left le]
          exact hcost.2
        · exact .inr ⟨state, Nat.le_of_lt_succ hs, here, Int.min_eq_right le⟩

/-- **An assignment pays at least as much as the best way through each of its values.** -/
theorem Affords.through_le_cost {p : Paths} {f : Nat → Nat → Int} {period : Nat} {v : Var} {cost : Int}
    (base : c.Base s) (priced : Priced c s p f) (hv : c.plan[period]? = some v) (h : c.Affords a)
    (ha : s.Admits a)
    (hcost : ∀ state, state ≤ c.initial → f period state ≠ unreachable →
      cost ≤ c.way s f period (a v) state) :
    cost ≤ a c.cost := by
  unfold way at hcost
  have sound := base.sound
  have hperiod := (List.getElem?_eq_some_iff.mp hv).1
  have possible := base.mem_values ha
  have split : c.plan = c.plan.take period ++ v :: c.plan.drop (period + 1) := by
    obtain ⟨hlt, heq⟩ := List.getElem?_eq_some_iff.mp hv
    rw [← heq, List.getElem_cons_drop, List.take_append_drop]
  have total : c.pathCost c.initial (c.plan.map a) = c.pathCost c.initial ((c.plan.take period).map a) +
      ((c.move (c.pathEnd c.initial ((c.plan.take period).map a)) (a v)).2 +
        c.pathCost (c.move (c.pathEnd c.initial ((c.plan.take period).map a)) (a v)).1
          ((c.plan.drop (period + 1)).map a)) := by
    conv => lhs; rw [split]
    rw [List.map_append, pathCost_append]
    rfl
  have small := h.cost_lt base ha
  unfold Affords at h
  have plannable : ∀ x ∈ (c.plan.take period).map a, c.Plannable x := fun x hx => by
    obtain ⟨w, hw, rfl⟩ := List.mem_map.mp hx
    exact base.values_plannable w (List.take_subset _ _ hw) _ (possible w (List.take_subset _ _ hw))
  generalize hstate : c.pathEnd c.initial ((c.plan.take period).map a) = state at total
  have hle : state ≤ c.initial := hstate ▸ sound.pathEnd_le (Nat.le_refl _) plannable
  have move : 0 ≤ (c.move state (a v)).2 := sound.move_nonneg
  have rest : 0 ≤ c.pathCost (c.move state (a v)).1 ((c.plan.drop (period + 1)).map a) :=
    sound.pathCost_nonneg
  have before := priced.reaches.least period (Nat.le_of_lt hperiod) a
    (fun w hw => possible w (List.take_subset _ _ hw)) (by omega)
  rw [hstate] at before
  have after : c.best ((c.plan.drop (period + 1)).map s.values) (c.move state (a v)).1 ≤
      c.pathCost (c.move state (a v)).1 ((c.plan.drop (period + 1)).map a) :=
    sound.best_le fun w hw => possible w (List.drop_subset (period + 1) _ hw)
  rw [List.map_drop] at after
  have := hcost state hle (by omega)
  have pos := priced.reaches.nonneg period state
  have := plus_le pos move
  have best : 0 ≤ c.best ((c.plan.map s.values).drop (period + 1)) (c.move state (a v)).1 :=
    sound.best_nonneg
  have := plus_le (plus_nonneg pos move) best
  omega

end
/-! ## The filter -/

section
variable {B : Prop} {H : Assignment → Prop} {s u : Space} {p : Paths} {f : Nat → Nat → Int} {limit : Int}
  {v : Var} {period : Nat}
variable (hs : s.Valid) (base : B → c.Base s.store) (priced : B → Priced c s.store p f)
include hs base priced

theorem filters_filterPeriod (hsu : s.Narrows Filter.noCells u) (hv : c.plan[period]? = some v)
    (affords : ∀ a, H a → Granted B c.Affords a)
    (hlimit : ∀ a, H a → u.store.Admits a → a c.cost ≤ limit) :
    Filter.Filters Filter.noCells H B (c.filterPeriod p limit v period) u True := by
  have mem := List.mem_of_getElem? hv
  unfold filterPeriod
  rw [Filter.filters_read]
  refine (Filter.filters_each (Q := fun _ _ => True) fun x hx t ht => ?_).mono fun _ => trivial
  have plannable (hB : B) : c.Plannable x := (base hB).planned v mem x
    (hsu.store.contains hs.store (Store.mem_values.mp hx))
  have through (hB : B) := through_spec (base hB) (priced hB) (List.getElem?_eq_some_iff.mp hv).1
    (plannable hB)
  refine Filter.filters_demand (fun hB => ?_) fun cost hcost => ?_
  · obtain ⟨cost, hcost, -⟩ := through hB
    exact ⟨cost, hcost⟩
  · split
    · rename_i expensive
      have hst := hsu.trans ht
      refine (Filter.filters_remove (hst.valid hs)
        (fun hB => hst.store.numVars_eq ▸ (base hB).known v mem) fun a ha hadm heq => ?_).mono
        fun _ => trivial
      have granted := affords a ha
      obtain ⟨cost', hcost', least, -⟩ := through granted.1
      obtain rfl := Option.some.inj (hcost.symm.trans hcost')
      have := granted.2.through_le_cost (base granted.1) (priced granted.1) hv
        (hst.store.admits hs.store hadm) (heq ▸ least)
      have := hlimit a ha (ht.store.admits (hsu.valid hs).store hadm)
      omega
    · exact Filter.filters_pure trivial

end

/-- The cost of a fixed plan, which has been bounded from below, is bounded from above as well. -/
theorem ends_settle {B : Prop} {H : Assignment → Prop} {s u : Space} {b : Bool} {x : Int} (hs : s.Valid)
    (base : B → c.Base s.store) (best : B → x = c.best (c.plan.map s.store.values) c.initial)
    (fixed : B → ∀ v ∈ c.plan, s.store.isFixed v = true)
    (first : Filter.Advance Filter.noCells H s b u) (raised : s.store.Narrowed c.cost (x ≤ ·) b u.store)
    (spare : ∀ a, H a → s.store.Admits a → a c.cost ≤ x) :
    Ends (Filter.setUpper c.cost x u)
      (fun _ t => s.Narrows Filter.noCells t ∧ (∀ a, H a → s.store.Admits a → t.store.Admits a) ∧
        (B → c.Spec t.store))
      (Filter.Halted Filter.noCells H B s) := by
  have valid := first.narrows.valid hs
  refine Ends.mono (Filter.ends_of_keeps (Store.keeps_setUpper valid.store)
    (fun hB => first.narrows.store.numVars_eq ▸ (base hB).cost_lt)
    fun a ha hadm => spare a ha (first.narrows.store.admits hs.store hadm))
    (fun b' t ht => ?_) fun halt t ht => ht.after first
  obtain ⟨second, lowered⟩ := ht
  have both := first.trans second
  refine ⟨both.narrows, both.admits, fun hB => ?_⟩
  have lower := ((raised.contains_iff _).mp (valid.store.contains_lower c.cost)).2
  have upper := ((lowered.contains_iff _).mp ((both.narrows.valid hs).store.contains_upper c.cost)).2
  rw [best hB] at lower upper
  refine (base hB).spec_of_bounds hs.store both.narrows.store (fixed hB) ?_
    (Int.le_trans lower (second.narrows.store.lower_le valid.store c.cost)) upper
  exact domain_eq_of_others (base hB).apart fun w hw =>
    (lowered.others w hw).trans (raised.others w hw)

/-- A pass spares whoever can pay for a plan, unless the plan is fixed and does not cost as much. -/
theorem ends_pass_of {B : Prop} {H : Assignment → Prop} {s : Space} (hs : s.Valid) (base : B → c.Base s.store)
    (affords : ∀ a, H a → Granted B c.Affords a)
    (exact : ∀ a, H a → s.store.Admits a → (∀ v ∈ c.plan, s.store.isFixed v = true) →
      a c.cost ≤ c.best (c.plan.map s.store.values) c.initial) :
    Ends (c.pass s)
      (fun more t => s.Narrows Filter.noCells t ∧ (∀ a, H a → s.store.Admits a → t.store.Admits a) ∧
        (more = true → t.numValues < s.numValues) ∧ (more = false → B → c.Spec t.store))
      (Filter.Halted Filter.noCells H B s) := by
  unfold pass narrowBy
  rw [ends_bind, Filter.ends_read, ends_bind]
  refine Filter.ends_demand_of (fun hB => ?_) fun p hp => ?_
  · obtain ⟨p, -, hp, -⟩ := (base hB).exists_priced
    exact ⟨p, hp⟩
  obtain ⟨f, priced⟩ := exists_priced_of base hp
  rw [ends_bind]
  refine Filter.ends_demand_of (fun hB => ⟨_, (priced hB).cheapest_eq⟩) fun x hx => ?_
  have best (hB : B) : x = c.best (c.plan.map s.store.values) c.initial :=
    Option.some.inj (hx.symm.trans (priced hB).cheapest_eq)
  rw [ends_bind, ends_discard]
  refine Ends.mono_ok (Filter.ends_of_keeps (Store.keeps_setLower hs.store) (fun hB => (base hB).cost_lt)
    fun a ha hadm => ?_) fun b u hu => ?_
  · obtain ⟨hB, pays⟩ := affords a ha
    rw [best hB]
    exact Int.le_trans ((base hB).sound.best_le ((base hB).mem_values hadm)) pays
  obtain ⟨first, raised⟩ := hu
  have valid := first.narrows.valid hs
  have known (hB : B) : c.cost < u.store.numVars :=
    first.narrows.store.numVars_eq ▸ (base hB).cost_lt
  rw [ends_bind, Filter.ends_read, ends_ite]
  split
  · rename_i fixed
    rw [List.all_eq_true] at fixed
    -- the plan was fixed before, as only the cost has changed
    have before (hB : B) : ∀ v ∈ c.plan, s.store.isFixed v = true := fun v hv => by
      rw [← isFixed_congr (domain_eq_of_others (base hB).apart raised.others) v hv]
      exact fixed v hv
    rw [ends_bind, ends_discard]
    refine (ends_settle hs base best before first raised fun a ha hadm => ?_).mono_ok
      fun b' t ⟨narrows, admits, spec⟩ => ⟨narrows, admits, fun h => (by cases h), fun _ => spec⟩
    have hB := (affords a ha).1
    rw [best hB]
    exact exact a ha hadm (before hB)
  · rename_i opened
    rw [ends_bind, Filter.ends_read]
    refine Ends.mono (Filter.filters_each (Q := fun _ _ => True) fun x hx t ht => ?_) (fun more t ht => ?_)
      fun halt t ht => ht.after first
    · refine filters_filterPeriod hs base priced (first.narrows.trans ht)
        (List.mem_zipIdx_iff_getElem?.mp hx) affords fun a ha hadm => ?_
      have hadm' := ht.store.admits valid.store hadm
      exact (Store.bounds_of_contains (hadm' c.cost (known (affords a ha).1))).2
    · have both := first.trans ht.1
      refine ⟨both.narrows, both.admits, fun h => ?_, fun h _ fixed => ?_⟩
      · exact Nat.lt_of_lt_of_le (ht.1.changed_lt h) first.numValues_le
      · rw [ht.1.unchanged h] at fixed
        exact absurd (List.all_eq_true.mpr fixed) opened

/-- A pass that asks for no other one has fixed the cost of a fixed plan. -/
theorem ends_pass {B : Prop} {s : Space} (hs : s.Valid) (base : B → c.Base s.store) :
    Ends (c.pass s)
      (fun more t => s.Narrows Filter.noCells t ∧
        (∀ a, Granted B c.Holds a → s.store.Admits a → t.store.Admits a) ∧
        (more = true → t.numValues < s.numValues) ∧ (more = false → B → c.Spec t.store))
      (Filter.Halted Filter.noCells (Granted B c.Holds) B s) :=
  ends_pass_of hs base (fun _ ha => ⟨ha.1, ha.2.affords⟩) fun _ ha hadm fixed =>
    Int.le_of_eq (ha.2.cost_eq_best (base ha.1) hs.store fixed hadm)

/-- **When a plan is fixed, so is its cost.** -/
theorem ends_filter {s : Space} (hs : s.Valid) :
    Ends (c.filter s)
      (fun _ t => s.Narrows Filter.noCells t ∧
        (∀ a, Granted (c.Base s.store) c.Holds a → s.store.Admits a → t.store.Admits a) ∧
        (c.Base s.store → c.Spec t.store))
      (Filter.Halted Filter.noCells (Granted (c.Base s.store) c.Holds) (c.Base s.store) s) := by
  refine ends_descend_done (I := fun t => s.Narrows Filter.noCells t ∧
    ∀ a, Granted (c.Base s.store) c.Holds a → s.store.Admits a → t.store.Admits a)
    (fun t ht => ?_) ⟨.refl, fun _ _ => id⟩
  obtain ⟨narrows, admits⟩ := ht
  refine Ends.mono (ends_pass (B := c.Base s.store) (narrows.valid hs) fun hB =>
    hB.narrows hs.store narrows.store) (fun more u hu => ?_) fun halt u hu => ?_
  · obtain ⟨narrows', admits', less, spec⟩ := hu
    have admits'' (a : Assignment) (ha : Granted (c.Base s.store) c.Holds a) (hadm : s.store.Admits a) :=
      admits' a ha (admits a ha hadm)
    cases more with
    | true => exact ⟨⟨narrows.trans narrows', admits''⟩, less rfl⟩
    | false => exact ⟨narrows.trans narrows', admits'', spec rfl⟩
  · exact ⟨narrows.trans hu.narrows, hu.unfaulty, fun cause hc a ha hadm =>
      hu.refuted cause hc a ha (admits a ha hadm)⟩

/-- What is told of no watched variable leaves the verdict on a fixed plan as it is. -/
theorem Spec.told {s t : Store} {new : List (Var × Event)} (h : c.Spec s) (hs : s.Valid)
    (hn : s.Narrows t) (told : Told new s t) (away : Unwatched c.watches new) : c.Spec t := by
  intro fixed
  have domain (v : Var) (hv : v ∈ c.plan) : t.domain v = s.domain v :=
    away.domain_eq told (List.mem_append_left _ (List.mem_map_of_mem (f := fun v => (v, Event.any)) hv))
  have upper : t.upper c.cost = s.upper c.cost := told.upper c.cost (away c.cost _ _
    (List.mem_append_right _ (List.mem_singleton_self _)) (List.mem_singleton_self _))
  obtain ⟨cost, holds⟩ := h fun v hv => isFixed_congr domain v hv ▸ fixed v hv
  have := Store.isFixed_iff.mp cost
  have := hn.lower_le hs c.cost
  have := (hn.valid hs).lower_le_upper c.cost
  refine ⟨Store.isFixed_iff.mpr (by omega), ?_⟩
  unfold Holds at holds ⊢
  rw [map_lower_congr domain]
  omega

/-- **Changeover costs as a rule.** -/
def rule (c : ChangeoverCost) : Rule where
  watches := c.watches
  filter := c.filter
  Base := c.Base
  Spec := c.Spec
  Holds := c.Holds
  base_congr := ⟨fun h => ⟨h.1, h.2, h.3, h.4, h.5, h.6⟩, fun h => ⟨h.1, h.2, h.3, h.4, h.5, h.6⟩⟩
  spec_congr := Iff.rfl
  base_narrows h hs hn := h.narrows hs hn
  spec_told _ h hs hn told away := h.told hs hn told away
  filtered hs := ends_filter hs

/-! ## Idempotence -/

/-- The variables are known, and the cost is none of the plan. -/
structure Fit (c : ChangeoverCost) (s : Store) : Prop where
  cost_lt : c.cost < s.numVars
  known : ∀ v ∈ c.plan, v < s.numVars
  apart : c.cost ∉ c.plan

/-- The plan and its cost have nothing more to say of each other. -/
def Exhausted (c : ChangeoverCost) (s : Space) : Prop :=
  ∃ p cheapest, c.paths? (c.plan.map s.store.values) = some p ∧
    p.backward.get? 0 c.initial = some cheapest ∧ cheapest ≤ s.store.lower c.cost ∧
    if c.plan.all s.store.isFixed then s.store.upper c.cost ≤ cheapest
    else Filter.each c.plan.zipIdx (fun x => c.filterPeriod p (s.store.upper c.cost) x.1 x.2) s =
      .ok false s

section
variable {s t : Space}

/-- What is said depends on the plan and on the upper bound of the cost. -/
theorem Exhausted.congr (h : c.Exhausted s) (hs : s.Valid) (ht : t.Valid)
    (numVars : t.store.numVars = s.store.numVars)
    (plan : ∀ v ∈ c.plan, t.store.domain v = s.store.domain v)
    (upper : t.store.upper c.cost = s.store.upper c.cost)
    (lower : s.store.lower c.cost ≤ t.store.lower c.cost) : c.Exhausted t := by
  obtain ⟨p, cheapest, paths, first, least, rest⟩ := h
  refine ⟨p, cheapest, ?_, first, Int.le_trans least lower, ?_⟩
  · rwa [map_values_congr plan]
  · rw [all_isFixed_congr plan, upper]
    split
    · rename_i all
      rwa [if_pos all] at rest
    · rename_i opened
      rw [if_neg opened] at rest
      refine (Filter.persists_each (s := s) (fun x hx => ?_) false s rfl rest).2
      have hv : x.1 ∈ c.plan := List.mem_of_getElem? (List.mem_zipIdx_iff_getElem?.mp hx)
      refine Filter.persists_read (by rw [Store.values, plan _ hv, Store.values])
        (Filter.persists_each fun y _ => ?_)
      refine Filter.persists_demand fun cost _ => ?_
      split
      · exact Filter.persists_remove numVars hs.store ht.store fun gone => gone.congr (plan _ hv)
      · exact Filter.persists_pure

/-- **A pass that asks for no other one has said all.** -/
theorem ends_exhausted (hs : s.Valid) (fit : c.Fit s.store) :
    Ends (c.pass s) (fun more t => more = false → c.Exhausted t) (fun _ _ => True) := by
  unfold pass narrowBy
  rw [ends_bind, Filter.ends_read, ends_bind]
  refine ends_demand (fun p hp => ?_) fun _ => trivial
  rw [ends_bind]
  refine ends_demand (fun x hx => ?_) fun _ => trivial
  rw [ends_bind, ends_discard, Filter.setLower, Filter.ends_onStore]
  refine Ends.mono (Store.keeps_setLower hs.store) (fun b store raised => ?_) fun _ _ _ => trivial
  have narrows : s.Narrows Filter.noCells ⟨store, s.cells⟩ := .of_store raised.narrows
  have valid := narrows.valid hs
  -- only the cost changes, so the paths stay what they are
  have paths {u : Store} (others : ∀ w, w ≠ c.cost → u.domain? w = s.store.domain? w) :
      c.paths? (c.plan.map u.values) = some p := by
    rwa [map_values_congr (domain_eq_of_others fit.apart others)]
  have least := ((raised.contains_iff _).mp (valid.store.contains_lower c.cost)).2
  rw [ends_bind, Filter.ends_read, ends_ite]
  split
  · rename_i fixed
    rw [ends_bind, ends_discard, Filter.setUpper, Filter.ends_onStore]
    refine Ends.mono (Store.keeps_setUpper valid.store) (fun b' store' lowered => ?_) fun _ _ _ => trivial
    have valid' := lowered.narrows.valid valid.store
    have others (w : Var) (hw : w ≠ c.cost) := (lowered.others w hw).trans (raised.others w hw)
    refine fun _ => ⟨p, x, paths others, hx,
      Int.le_trans least (lowered.narrows.lower_le valid.store c.cost), ?_⟩
    rw [if_pos ((all_isFixed_congr (domain_eq_of_others fit.apart lowered.others)).trans fixed)]
    exact ((lowered.contains_iff _).mp (valid'.contains_upper c.cost)).2
  · rename_i opened
    rw [ends_bind, Filter.ends_read]
    refine ends_of (fun more t ht unchanged => ?_) fun _ _ _ => trivial
    subst unchanged
    have kept : Filter.Filters Filter.noCells (Granted False c.Holds) False
        (Filter.each c.plan.zipIdx fun x => c.filterPeriod p (store.upper c.cost) x.1 x.2)
        ⟨store, s.cells⟩ (∀ x ∈ c.plan.zipIdx, True) :=
      Filter.filters_each fun y hy u hu => filters_filterPeriod (f := fun _ _ => 0) hs (fun h => h.elim)
        (fun h => h.elim) (narrows.trans hu) (List.mem_zipIdx_iff_getElem?.mp hy) (fun _ ha => ha.1.elim)
        fun _ ha => ha.1.elim
    obtain rfl := (kept.of_ok ht).1.unchanged rfl
    refine ⟨p, x, paths raised.others, hx, least, ?_⟩
    rw [if_neg opened]
    exact ht

/-- **Where all is said there is nothing to do.** -/
theorem pass_eq_of_exhausted (fit : c.Fit s.store) (h : c.Exhausted s) : c.pass s = .ok false s := by
  obtain ⟨p, x, paths, first, least, rest⟩ := h
  have lower : Filter.setLower c.cost x s = .ok false s :=
    Filter.onStore_eq_ok.mpr ⟨Store.setLower_eq_false_iff.mpr ⟨rfl, fit.cost_lt, least⟩, rfl⟩
  refine eq_ok_of_ends ?_
  unfold pass narrowBy
  rw [ends_bind, Filter.ends_read, paths, ends_bind]
  change Ends ((demand (p.backward.get? 0 c.initial) >>= _ : Filter Bool) s) _ _
  rw [first, ends_bind]
  change Ends ((discard (Filter.setLower c.cost x) >>= _ : Filter Bool) s) _ _
  rw [ends_bind, ends_discard, lower]
  change Ends ((Filter.read (fun s => c.plan.all s.isFixed) >>= _ : Filter Bool) s) _ _
  rw [ends_bind, Filter.ends_read, ends_ite]
  split at rest
  · rename_i fixed
    have upper : Filter.setUpper c.cost x s = .ok false s :=
      Filter.onStore_eq_ok.mpr ⟨Store.setUpper_eq_false_iff.mpr ⟨rfl, fit.cost_lt, rest⟩, rfl⟩
    rw [if_pos fixed, ends_bind, ends_discard, upper]
    exact ⟨rfl, rfl⟩
  · rename_i opened
    rw [if_neg opened, ends_bind, Filter.ends_read]
    exact ends_of (fun b t ht => by cases rest.symm.trans ht; exact ⟨rfl, rfl⟩)
      fun _ _ ht => by cases rest.symm.trans ht

end

theorem Fit.narrows {s t : Store} (fit : c.Fit s) (hn : s.Narrows t) : c.Fit t :=
  ⟨hn.numVars_eq ▸ fit.cost_lt, fun v hv => hn.numVars_eq ▸ fit.known v hv, fit.apart⟩

/-- **What the filter has come to is exhausted.** -/
theorem exhausted_of_filter {s t : Space} (hs : s.Valid) (fit : c.Fit s.store) (h : c.filter s = .ok () t) :
    c.Exhausted t := by
  have lowers : Lowers Space.numValues c.pass fun u => u.Valid ∧ c.Fit u.store := fun {u w} hu hw => by
    have less := (ends_pass (B := False) hu.1 fun h => h.elim).of_ok hw
    exact ⟨⟨less.1.valid hu.1, hu.2.narrows less.1.store⟩, less.2.2.1 rfl⟩
  obtain ⟨u, hu, hpass⟩ := descend_ends lowers ⟨hs, fit⟩ h
  exact (ends_exhausted hu.1 hu.2).of_ok hpass rfl

/-- **Changeover costs are idempotent.** -/
theorem idempotent (c : ChangeoverCost) : c.rule.Idempotent c.Fit := by
  refine ⟨fun fit _ hn => fit.narrows hn, fun fit grown => ?_, fun {s t} hs fit h => ?_,
    fun {s t} hs ht fit fit' unnoticed h => ?_⟩
  · exact ⟨(grown.known fit.cost_lt).1, fun v hv => (grown.known (fit.known v hv)).1, fit.apart⟩
  · have fit' : c.Fit t.store := fit.narrows ((ends_filter hs).of_ok h).1.store
    exact Filter.untilStable_of_pass (pass_eq_of_exhausted fit' (exhausted_of_filter hs fit h))
  · refine Filter.untilStable_of_pass (pass_eq_of_exhausted fit' ?_)
    exact (exhausted_of_filter hs fit h).congr hs ht unnoticed.numVars_eq
      (fun v hv => unnoticed.domain_eq v (List.mem_append_left _
        (List.mem_map_of_mem (f := fun v => (v, Event.any)) hv)))
      (unnoticed.upper_eq _ (List.mem_append_right _ (List.mem_singleton_self _)))
      (unnoticed.lower_le ht.store c.cost)

end ChangeoverCost
end BranchBound
