import BranchBound.Proofs.Confluence.Changeovers
import BranchBound.Proofs.Constraint
import Mathlib.Data.List.Forall2
import Mathlib.Logic.Function.Basic

/-! # The plans that can be paid

A plan is affordable if it is within the domains and its changeovers cost no more than the cost can be
(`ChangeoverCost.Affordable`).  The tables of paths do not only bound what plans cost: whatever they show is
what some plan costs (`Sound.exists_best`, `Rows.exists_path`), as long as it is less than the cost of no
path.  So where nothing is left that is too expensive, **every value is that of an affordable plan**
(`Closed.supported`).

The values of affordable plans are spared by every pass, until the plan is fixed (`ends_filter_spared`).  Only
then can the cost be refuted that is left to pay for it. -/
namespace BranchBound
namespace ChangeoverCost
variable {c : ChangeoverCost} {s F : Store} {S : Var → List Int} {f : Nat → Nat → Int} {a : Assignment}
  {vs : List Var} {xs : List Int} {v : Var} {x : Int} {n k j item state : Nat}

/-! ## What a plan costs -/

/-- What it costs to produce an item after another one. -/
def changeover (c : ChangeoverCost) (before after : Int) : Int :=
  if before = after then 0 else (c.costs.get? before.toNat after.toNat).getD 0

/-- What a plan costs: every item that is produced is charged for by the one that was produced before it,
however long the idle time in between; so the first one is free. -/
def price (c : ChangeoverCost) (xs : List Int) : Int :=
  let made := xs.filter (· ≠ idle)
  sumInt ((made.zip made.tail).map fun x => c.changeover x.1 x.2)

theorem move_idle : c.move state idle = (state, 0) := by simp [move, transition?]

theorem move_initial : c.move c.initial (item : Int) = (item, 0) := by
  simp [move, transition?, item_ne_idle, position?_ofNat]

section
variable (sound : c.Sound)
include sound

theorem Sound.move_item (hs : state < c.costs.numRows) (hi : item < c.costs.numRows) :
    c.move state (item : Int) = (item, c.changeover state item) := by
  obtain ⟨cost, -, hcost⟩ := Matrix.exists_get? hs (sound.square ▸ hi)
  have away : state ≠ c.initial := Nat.ne_of_lt hs
  by_cases same : state = item
  · simp [move, transition?, item_ne_idle, position?_ofNat, changeover, same]
  · have apart : (state : Int) ≠ item := fun heq => same (Int.ofNat_inj.mp heq)
    simp [move, transition?, item_ne_idle, position?_ofNat, changeover, same, apart, away, hcost]

/-- Behind an item the path pays for what is produced after it. -/
theorem Sound.pathCost_item (hs : state < c.costs.numRows) (hx : ∀ x ∈ xs, c.Plannable x) :
    c.pathCost state xs = sumInt ((((state : Int) :: xs.filter (· ≠ idle)).zip (xs.filter (· ≠ idle))).map
      fun x => c.changeover x.1 x.2) := by
  induction xs generalizing state with
  | nil => rfl
  | cons x xs ih =>
    have rest : ∀ y ∈ xs, c.Plannable y := fun y hy => hx y (List.mem_cons_of_mem x hy)
    rcases hx x List.mem_cons_self with rfl | ⟨item, hi, rfl⟩
    · rw [pathCost, move_idle, List.filter_cons_of_neg (by simp), ih hs rest, Int.zero_add]
    · rw [pathCost, sound.move_item hs hi, List.filter_cons_of_pos (by simpa using item_ne_idle), ih hi rest]
      rfl

/-- **A path from the initial state pays the price of its values.** -/
theorem Sound.pathCost_eq_price (hx : ∀ x ∈ xs, c.Plannable x) : c.pathCost c.initial xs = c.price xs := by
  induction xs with
  | nil => rfl
  | cons x xs ih =>
    have rest : ∀ y ∈ xs, c.Plannable y := fun y hy => hx y (List.mem_cons_of_mem x hy)
    rcases hx x List.mem_cons_self with rfl | ⟨item, hi, rfl⟩
    · rw [pathCost, move_idle, price, List.filter_cons_of_neg (by simp), ih rest, Int.zero_add]
      rfl
    · rw [pathCost, move_initial, price, List.filter_cons_of_pos (by simpa using item_ne_idle),
        sound.pathCost_item hi rest, Int.zero_add]
      rfl

/-! ## The cheapest is what something costs -/

omit sound in
theorem plus_eq_add {a b : Int} (ha : 0 ≤ a) (hb : 0 ≤ b) (h : plus a b < unreachable) :
    plus a b = a + b := by
  unfold plus Word.minInteger at h ⊢
  omega

/-- **The best that is still possible is what some path costs.** -/
theorem Sound.exists_best (h : c.best (vs.map S) state < unreachable) :
    ∃ xs, List.Forall₂ (fun v x => x ∈ S v) vs xs ∧ c.pathCost state xs = c.best (vs.map S) state := by
  induction vs generalizing state with
  | nil => exact ⟨[], .nil, rfl⟩
  | cons v vs ih =>
    -- the least of what is left to do was found at one of the values
    obtain ⟨x, hx, eq⟩ : ∃ x ∈ S v, c.best ((v :: vs).map S) state =
        plus (c.move state x).2 (c.best (vs.map S) (c.move state x).1) :=
      foldl_min_eq.resolve_left (Int.ne_of_lt h)
    have move : 0 ≤ (c.move state x).2 := sound.move_nonneg
    have rest : 0 ≤ c.best (vs.map S) (c.move state x).1 := sound.best_nonneg
    have sum := plus_eq_add move rest (eq ▸ h)
    have below : c.best (vs.map S) (c.move state x).1 < unreachable := by omega
    obtain ⟨xs, chosen, cost⟩ := ih below
    refine ⟨x :: xs, .cons hx chosen, ?_⟩
    rw [eq, sum, pathCost, cost]

/-- **Wherever the table shows a cost, some path gets there for it.** -/
theorem Rows.exists_path (rows : Rows c S vs n f) (nonneg : ∀ i j, 0 ≤ f i j) (hn : n ≤ vs.length)
    (hk : k ≤ n) (h : f k j < unreachable) : ∃ xs, List.Forall₂ (fun v x => x ∈ S v) (vs.take k) xs ∧
      c.pathEnd c.initial xs = j ∧ c.pathCost c.initial xs = f k j := by
  induction k generalizing j with
  | zero =>
    rw [rows.first] at h ⊢
    split at h
    · rename_i here
      exact ⟨[], .nil, here.symm, (if_pos here).symm⟩
    · exact absurd h (Int.lt_irrefl _)
  | succ k ih =>
    obtain ⟨v, hv⟩ : ∃ v, vs[k]? = some v := ⟨vs[k], List.getElem?_eq_getElem (by omega)⟩
    obtain ⟨state, x, ⟨-, -, hx⟩, rfl, eq⟩ := (rows.drawn k v hk hv j).resolve_left (Int.ne_of_lt h)
    have move : 0 ≤ (c.move state x).2 := sound.move_nonneg
    have sofar := nonneg k state
    have sum := plus_eq_add sofar move (eq ▸ h)
    obtain ⟨xs, chosen, here, cost⟩ := ih (j := state) (by omega) (by omega)
    refine ⟨xs ++ [x], ?_, by rw [pathEnd_append, here]; rfl, ?_⟩
    · rw [List.take_add_one, hv]
      exact List.rel_append chosen (.cons hx .nil)
    · rw [pathCost_append, here, cost, eq, sum, pathCost, pathCost, Int.add_zero]

end

/-- Values of distinct variables are given by an assignment. -/
theorem exists_planned (distinct : vs.Nodup) (h : List.Forall₂ (fun v x => x ∈ S v) vs xs) :
    ∃ a : Assignment, vs.map a = xs ∧ ∀ v ∈ vs, a v ∈ S v := by
  induction h with
  | nil => exact ⟨fun _ => 0, rfl, fun v hv => by cases hv⟩
  | @cons v x vs xs hx _ ih =>
    obtain ⟨fresh, distinct⟩ := List.nodup_cons.mp distinct
    obtain ⟨a, values, within⟩ := ih distinct
    have other (w : Var) (hw : w ∈ vs) : Function.update a v x w = a w :=
      Function.update_of_ne (fun heq : w = v => fresh (heq ▸ hw)) ..
    refine ⟨Function.update a v x, ?_, fun w hw => ?_⟩
    · rw [List.map_cons, Function.update_self, List.map_congr_left other, values]
    · rcases List.mem_cons.mp hw with rfl | hw
      · rwa [Function.update_self]
      · rw [other w hw]
        exact within w hw

/-- **The cheapest way through a value is what some plan costs** that is within the domains. -/
theorem Base.exists_through {p : Paths} {period : Nat} (base : c.Base s) (priced : Priced c s p f)
    (distinct : c.plan.Nodup) (hv : c.plan[period]? = some v) (hx : s.contains v x = true)
    (h : c.way s f period x state < unreachable) :
    ∃ a : Assignment, (∀ w ∈ c.plan, s.contains w (a w) = true) ∧
      c.pathCost c.initial (c.plan.map a) = c.way s f period x state ∧ a v = x := by
  obtain ⟨hperiod, here⟩ := List.getElem?_eq_some_iff.mp hv
  have sofar := priced.reaches.nonneg period state
  have move : 0 ≤ (c.move state x).2 := base.sound.move_nonneg
  have rest : 0 ≤ c.best ((c.plan.drop (period + 1)).map s.values) (c.move state x).1 :=
    base.sound.best_nonneg
  unfold way at h ⊢
  rw [← List.map_drop] at h ⊢
  have whole := plus_eq_add (plus_nonneg sofar move) rest h
  have first := plus_eq_add sofar move (by omega)
  obtain ⟨xs, chosen, arrived, cost⟩ := priced.rows.exists_path base.sound priced.reaches.nonneg
    (Nat.le_refl _) (Nat.le_of_lt hperiod) (j := state) (by omega)
  have below : c.best ((c.plan.drop (period + 1)).map s.values) (c.move state x).1 < unreachable := by omega
  obtain ⟨ys, chosen', cost'⟩ := base.sound.exists_best below
  have split : c.plan = c.plan.take period ++ v :: c.plan.drop (period + 1) := by
    rw [← here, List.getElem_cons_drop, List.take_append_drop]
  have joined : List.Forall₂ (fun v x => x ∈ s.values v) c.plan (xs ++ x :: ys) := by
    rw [split]
    exact List.rel_append chosen (.cons (Store.mem_values.mpr hx) chosen')
  obtain ⟨a, values, within⟩ := exists_planned distinct joined
  refine ⟨a, fun w hw => Store.mem_values.mp (within w hw), ?_, ?_⟩
  · rw [values, pathCost_append, arrived, cost, pathCost, cost', whole, first, Int.add_assoc]
  · have length := chosen.length_eq
    rw [List.length_take, Nat.min_eq_left (Nat.le_of_lt hperiod)] at length
    have at_period := congrArg (·[period]?) values
    simp only [List.getElem?_map, hv, Option.map_some] at at_period
    rw [List.getElem?_append_right (by omega), length, Nat.sub_self] at at_period
    exact Option.some.inj at_period

/-! ## Affordable plans -/

/-- A plan within the domains that costs no more than the cost can be. -/
structure Affordable (c : ChangeoverCost) (s : Store) (a : Assignment) : Prop where
  within : ∀ v ∈ c.plan, s.contains v (a v) = true
  price_le : c.price (c.plan.map a) ≤ s.upper c.cost

/-- There is no other plan that is affordable. -/
structure Sole (c : ChangeoverCost) (s : Store) (a : Assignment) : Prop where
  affordable : c.Affordable s a
  only : ∀ b, c.Affordable s b → c.plan.map b = c.plan.map a

theorem Base.pathCost_eq_price (base : c.Base s) (within : ∀ v ∈ c.plan, s.contains v (a v) = true) :
    c.pathCost c.initial (c.plan.map a) = c.price (c.plan.map a) := by
  refine base.sound.pathCost_eq_price fun x hx => ?_
  obtain ⟨v, hv, rfl⟩ := List.mem_map.mp hx
  exact base.planned v hv _ (within v hv)

/-- A plan is part of an assignment within all domains, with any cost that can be. -/
theorem exists_admits {n : Int} (hs : s.Valid) (base : c.Base s)
    (within : ∀ v ∈ c.plan, s.contains v (a v) = true) (hn : s.contains c.cost n = true) :
    ∃ b, s.Admits b ∧ c.plan.map b = c.plan.map a ∧ b c.cost = n := by
  have apart (v : Var) (hv : v ∈ c.plan) : v ≠ c.cost := fun heq => base.apart (heq ▸ hv)
  obtain ⟨b, admits, same⟩ := hs.exists_admits (P := fun v => v ∈ c.plan ∨ v = c.cost)
    (a := Function.update a c.cost n) fun v hv => by
      rcases hv with hv | rfl
      · rw [Function.update_of_ne (apart v hv)]
        exact within v hv
      · rwa [Function.update_self]
  refine ⟨b, admits, List.map_congr_left fun v hv => ?_, ?_⟩
  · rw [same v (.inl hv), Function.update_of_ne (apart v hv)]
  · rw [same c.cost (.inr rfl), Function.update_self]

/-- Whoever has as much as the cost can be can pay for a plan that is affordable. -/
theorem Affordable.exists_affords (hs : s.Valid) (base : c.Base s) (h : c.Affordable s a) :
    ∃ b, c.Affords b ∧ s.Admits b ∧ c.plan.map b = c.plan.map a := by
  obtain ⟨b, admits, same, pays⟩ := exists_admits hs base h.within (hs.contains_upper c.cost)
  refine ⟨b, ?_, admits, same⟩
  unfold Affords
  rw [same, pays, base.pathCost_eq_price h.within]
  exact h.price_le

theorem Affordable.of_narrows {t : Store} (hs : s.Valid) (hn : s.Narrows t) (h : c.Affordable t a) :
    c.Affordable s a :=
  ⟨fun v hv => hn.contains hs (h.within v hv), Int.le_trans h.price_le (hn.upper_le hs c.cost)⟩

namespace Closed
variable (closed : c.Closed F) (hF : F.Valid) (base : c.Base F) (distinct : c.plan.Nodup)
include closed hF base distinct

/-- **The cost is at least that of some affordable plan**, and no plan is cheaper. -/
theorem exists_cheapest : ∃ a, c.Affordable F a ∧ c.price (c.plan.map a) ≤ F.lower c.cost ∧
    ∀ b : Assignment, (∀ v ∈ c.plan, F.contains v (b v) = true) →
      c.price (c.plan.map a) ≤ c.price (c.plan.map b) := by
  have least := closed.least
  have bounds := hF.lower_le_upper c.cost
  have small := base.upper_lt
  have below : c.best (c.plan.map F.values) c.initial < unreachable := by omega
  obtain ⟨xs, chosen, cost⟩ := base.sound.exists_best below
  obtain ⟨a, rfl, values⟩ := exists_planned distinct chosen
  have within (v : Var) (hv : v ∈ c.plan) : F.contains v (a v) = true := Store.mem_values.mp (values v hv)
  rw [base.pathCost_eq_price within] at cost
  refine ⟨a, ⟨within, by omega⟩, by omega, fun b hb => ?_⟩
  rw [cost, ← base.pathCost_eq_price hb]
  exact base.sound.best_le fun v hv => Store.mem_values.mpr (hb v hv)

/-- **Every value that is left is that of an affordable plan.** -/
theorem supported (hv : v ∈ c.plan) (hx : F.contains v x = true) : ∃ a, c.Affordable F a ∧ a v = x := by
  by_cases fixed : ∀ v ∈ c.plan, F.isFixed v = true
  · obtain ⟨a, ha, -⟩ := closed.exists_cheapest hF base distinct
    have here := Domain.contains_of_isFixed (fixed v hv) (ha.within v hv)
    exact ⟨a, ha, here.trans (Domain.contains_of_isFixed (fixed v hv) hx).symm⟩
  · obtain ⟨period, hperiod⟩ := List.getElem?_of_mem hv
    obtain ⟨p, f, paths, priced⟩ := base.exists_priced
    obtain ⟨cost, hcost, -, found⟩ := through_spec base priced (List.getElem?_eq_some_iff.mp hperiod).1
      (base.planned v hv x hx)
    have le := closed.through fixed p paths period v hperiod x hx cost hcost
    have small := base.upper_lt
    obtain ⟨state, -, -, eq⟩ := found.resolve_left fun none => by omega
    have below : c.way F f period x state < unreachable := by omega
    obtain ⟨a, within, pays, value⟩ := base.exists_through priced distinct hperiod hx below
    rw [base.pathCost_eq_price within] at pays
    exact ⟨a, ⟨within, by omega⟩, value⟩

/-- **If only one plan is affordable, the cost is what it costs.** -/
theorem fixed_of_only (only : ∀ b, c.Affordable F b → c.plan.map b = c.plan.map a) :
    F.fixed? c.cost = some (c.price (c.plan.map a)) := by
  have same (v : Var) (hv : v ∈ c.plan) (x : Int) (hx : F.contains v x = true) : x = a v := by
    obtain ⟨b, hb, rfl⟩ := closed.supported hF base distinct hv hx
    exact List.map_inj_left.mp (only b hb) v hv
  have fixed (v : Var) (hv : v ∈ c.plan) : F.isFixed v = true := Store.isFixed_iff.mpr
    ((same v hv _ (hF.contains_lower v)).trans (same v hv _ (hF.contains_upper v)).symm)
  obtain ⟨b, hb, paid, -⟩ := closed.exists_cheapest hF base distinct
  have best : c.best (c.plan.map F.values) c.initial ≤ c.pathCost c.initial (c.plan.map b) :=
    base.sound.best_le fun v hv => Store.mem_values.mpr (hb.within v hv)
  rw [base.pathCost_eq_price hb.within] at best
  rw [only b hb] at best paid
  have := closed.fixed fixed
  have := hF.lower_le_upper c.cost
  exact Store.fixed?_eq_some_iff.mpr ⟨by omega, by omega⟩

end Closed

/-! ## The filter -/

/-- The values of whoever can pay for a plan are left. -/
def SparesPlans (c : ChangeoverCost) (s t : Store) : Prop :=
  ∀ a, c.Affords a → s.Admits a → ∀ v ∈ c.plan, t.contains v (a v) = true

/-- Where the plan is fixed there is but one to spare, and a pass has nothing more to say of it. -/
theorem SparesPlans.pass {s t : Space} (spared : c.SparesPlans s.store t.store) (valid : t.Valid)
    (base : c.Base t.store) (fixed : ∀ v ∈ c.plan, t.store.isFixed v = true) :
    Ends (c.pass t)
      (fun more u => t.Narrows Filter.noCells u ∧ c.SparesPlans s.store u.store ∧
        (∀ v ∈ c.plan, u.store.isFixed v = true) ∧ (more = true → u.numValues < t.numValues))
      (fun _ _ => ∀ a b, c.Affords a → c.Affords b → s.store.Admits a → s.store.Admits b →
        c.plan.map a = c.plan.map b) := by
  have only {a : Assignment} (ha : c.Affords a) (hadm : s.store.Admits a) {v : Var} (hv : v ∈ c.plan) :
      a v = t.store.lower v := Domain.contains_of_isFixed (fixed v hv) (spared a ha hadm v hv)
  refine (ends_pass (B := True) valid fun _ => base).mono (fun more u hu => ?_)
    fun _ _ _ a b ha hb hadm hadm' => ?_
  · obtain ⟨narrows, -, less, -⟩ := hu
    have kept (v : Var) (hv : v ∈ c.plan) := narrows.store.isFixed valid.store (fixed v hv)
    refine ⟨narrows, fun a ha hadm v hv => ?_, fun v hv => (kept v hv).1, less⟩
    rw [only ha hadm hv, ← (kept v hv).2]
    exact (narrows.valid valid).store.contains_lower v
  · exact List.map_congr_left fun v hv => (only ha hadm hv).trans (only hb hadm' hv).symm

/-- **Every pass spares the values of affordable plans**, and what is refuted has at most one. -/
theorem ends_filter_spared {s : Space} (hs : s.Valid) (base : c.Base s.store) :
    Ends (c.filter s) (fun _ t => c.SparesPlans s.store t.store)
      (fun _ _ => ∀ a b, c.Affords a → c.Affords b → s.store.Admits a → s.store.Admits b →
        c.plan.map a = c.plan.map b) := by
  -- as long as the plan is open, the cost is spared as well
  refine ends_descend_done (I := fun t : Space => s.Narrows Filter.noCells t ∧ c.SparesPlans s.store t.store ∧
      ((∀ v ∈ c.plan, t.store.isFixed v = true) ∨ ∀ a, c.Affords a → s.store.Admits a → t.store.Admits a))
    (J := fun t => c.SparesPlans s.store t.store) (fun t ht => ?_)
    ⟨.refl, fun a _ ha v hv => ha v (base.known v hv), .inr fun _ _ => id⟩
  obtain ⟨narrows, spared, state⟩ := ht
  have valid := narrows.valid hs
  have base' := base.narrows hs.store narrows.store
  by_cases fixed : ∀ v ∈ c.plan, t.store.isFixed v = true
  · refine (spared.pass valid base' fixed).mono_ok fun more u hu => ?_
    obtain ⟨narrows', spared', fixed', less⟩ := hu
    cases more with
    | false => exact spared'
    | true => exact ⟨⟨narrows.trans narrows', spared', .inl fixed'⟩, less rfl⟩
  · have admits := state.resolve_left fixed
    refine (ends_pass_of (B := True) (H := Granted True c.Affords) valid (fun _ => base') (fun _ ha => ha)
      fun _ _ _ all => absurd all fixed).mono (fun more u hu => ?_) fun halt u hu a _ ha _ hadm _ => ?_
    · obtain ⟨narrows', admits', less, -⟩ := hu
      have both (a : Assignment) (ha : c.Affords a) (hadm : s.store.Admits a) : u.store.Admits a :=
        admits' a ⟨trivial, ha⟩ (admits a ha hadm)
      have spared' : c.SparesPlans s.store u.store := fun a ha hadm v hv =>
        both a ha hadm v (narrows'.store.numVars_eq ▸ base'.known v hv)
      cases more with
      | false => exact spared'
      | true => exact ⟨⟨narrows.trans narrows', spared', .inr both⟩, less rfl⟩
    · obtain ⟨cause, rfl⟩ := hu.exists_cause trivial
      exact absurd (admits a ha hadm) (hu.refuted cause rfl a ⟨trivial, ha⟩)

/-- No plan is affordable, or only one whose price the cost cannot be. -/
def Hopeless (c : ChangeoverCost) (s : Store) : Prop :=
  (¬ ∃ a, c.Affordable s a) ∨ ∃ a, c.Sole s a ∧ s.contains c.cost (c.price (c.plan.map a)) = false

section
variable {s t : Space} (hs : s.Valid) (base : c.Base s.store)
include hs base

/-- An affordable plan is spared, up to its cost. -/
theorem Affordable.within_of_filter (ha : c.Affordable s.store a) (run : c.filter s = .ok () t) :
    ∀ v ∈ c.plan, t.store.contains v (a v) = true := by
  intro v hv
  obtain ⟨b, pays, admits, same⟩ := ha.exists_affords hs.store base
  rw [← List.map_inj_left.mp same v hv]
  exact (ends_filter_spared hs base).of_ok run b pays admits v hv

/-- **What is refuted is hopeless.** -/
theorem hopeless_of_filter {halt : Halt} (run : c.filter s = .error halt t) :
    (∃ cause, halt = .inconsistent cause) ∧ c.Hopeless s.store := by
  have halted := (c.rule.filtered hs).of_error run
  obtain ⟨cause, rfl⟩ := halted.exists_cause base
  refine ⟨⟨cause, rfl⟩, Classical.or_iff_not_imp_left.mpr fun some => ?_⟩
  obtain ⟨a, ha⟩ := Classical.not_not.mp some
  refine ⟨a, ⟨ha, fun b hb => ?_⟩, Bool.eq_false_iff.mpr fun inside => ?_⟩
  · obtain ⟨a', pays, admits, same⟩ := ha.exists_affords hs.store base
    obtain ⟨b', pays', admits', same'⟩ := hb.exists_affords hs.store base
    rw [← same, ← same']
    exact (ends_filter_spared hs base).of_error run b' a' pays' pays admits' admits
  · -- with its price for its cost, the plan would keep the constraint
    obtain ⟨b, admits, same, pays⟩ := exists_admits hs.store base ha.within inside
    refine halted.refuted cause rfl b ⟨base, ?_⟩ admits
    change b c.cost = c.pathCost c.initial (c.plan.map b)
    rw [same, pays, base.pathCost_eq_price ha.within]

variable (distinct : c.plan.Nodup) (holes : ∀ v ∈ c.plan, (s.store.domain v).width ≤ Domain.holeLimit)
  (run : c.filter s = .ok () t)
include holes run

theorem closed_of_filter : t.Valid ∧ s.store.Narrows t.store ∧ c.Base t.store ∧ c.Closed t.store := by
  have narrows := ((c.rule.filtered hs).of_ok run).1
  have valid := narrows.valid hs
  have base' := base.narrows hs.store narrows.store
  refine ⟨valid, narrows.store, base', closed_of_rests valid base' (fun v hv => ?_) ?_⟩
  · rw [narrows.store.width_eq v]
    exact holes v hv
  · exact c.idempotent.again hs ⟨base.cost_lt, base.known, base.apart⟩ run

include distinct

/-- **Every period is left the values of affordable plans**, and no others. -/
theorem contains_iff_affordable (hv : v ∈ c.plan) :
    t.store.contains v x = true ↔ ∃ a, c.Affordable s.store a ∧ a v = x := by
  obtain ⟨valid, narrows, base', closed⟩ := closed_of_filter hs base holes run
  constructor
  · intro hx
    obtain ⟨a, ha, value⟩ := closed.supported valid.store base' distinct hv hx
    exact ⟨a, ha.of_narrows hs.store narrows, value⟩
  · rintro ⟨a, ha, rfl⟩
    exact ha.within_of_filter hs base run v hv

/-- **The cost is at least that of the cheapest affordable plan.** -/
theorem exists_cheapest_affordable : ∃ a, c.Affordable s.store a ∧
    c.price (c.plan.map a) ≤ t.store.lower c.cost ∧
    ∀ b, c.Affordable s.store b → c.price (c.plan.map a) ≤ c.price (c.plan.map b) := by
  obtain ⟨valid, narrows, base', closed⟩ := closed_of_filter hs base holes run
  obtain ⟨a, ha, paid, least⟩ := closed.exists_cheapest valid.store base' distinct
  exact ⟨a, ha.of_narrows hs.store narrows, paid, fun b hb => least b (hb.within_of_filter hs base run)⟩

/-- **The only affordable plan fixes the cost.** -/
theorem Sole.fixed_of_filter (sole : c.Sole s.store a) :
    t.store.fixed? c.cost = some (c.price (c.plan.map a)) := by
  obtain ⟨valid, narrows, base', closed⟩ := closed_of_filter hs base holes run
  exact closed.fixed_of_only valid.store base' distinct fun b hb => sole.only b (hb.of_narrows hs.store narrows)

/-- What is not refuted is not hopeless. -/
theorem not_hopeless_of_filter : ¬ c.Hopeless s.store := by
  obtain ⟨valid, narrows, -, -⟩ := closed_of_filter hs base holes run
  rintro (none | ⟨a, sole, missing⟩)
  · obtain ⟨a, ha, -⟩ := exists_cheapest_affordable hs base distinct holes run
    exact none ⟨a, ha⟩
  · have fixed := sole.fixed_of_filter hs base distinct holes run
    have inside := narrows.contains hs.store (valid.store.contains_of_fixed? fixed)
    rw [missing] at inside
    cases inside

end

/-- **Changeover costs filter exactly the values that cannot be paid.**  A plan is refuted exactly if none is
affordable, or only one is whose price the cost cannot be.  Otherwise every period is left the values of
affordable plans and no others, and the cost is at least that of the cheapest; it is fixed if there is only
one. -/
theorem propagate_exactly_affordable {s : Space} (hs : s.Valid) (base : c.Base s.store)
    (distinct : c.plan.Nodup) (holes : ∀ v ∈ c.plan, (s.store.domain v).width ≤ Domain.holeLimit) :
    ((∃ cause u, Propagator.propagate (Constraint.changeoverCost c) s = .error (.inconsistent cause) u) ↔
      c.Hopeless s.store) ∧
    (¬ c.Hopeless s.store →
      ∃ t, Propagator.propagate (Constraint.changeoverCost c) s = .ok () (.changeoverCost c, t) ∧
        (∀ v ∈ c.plan, ∀ x, t.store.contains v x = true ↔ ∃ a, c.Affordable s.store a ∧ a v = x) ∧
        (∃ a, c.Affordable s.store a ∧ c.price (c.plan.map a) ≤ t.store.lower c.cost ∧
          ∀ b, c.Affordable s.store b → c.price (c.plan.map a) ≤ c.price (c.plan.map b)) ∧
        ∀ a, c.Sole s.store a → t.store.fixed? c.cost = some (c.price (c.plan.map a))) := by
  refine Rule.run_exact (p := Constraint.changeoverCost c) (f := c.filter) ?_
  refine ends_of (fun _ t run => ?_) fun halt t run => hopeless_of_filter hs base run
  exact ⟨not_hopeless_of_filter hs base distinct holes run,
    fun v hv x => contains_iff_affordable hs base distinct holes run hv,
    exists_cheapest_affordable hs base distinct holes run,
    fun a sole => sole.fixed_of_filter hs base distinct holes run⟩

/-- Two items over three periods; it costs 5 to produce the second after the first, and 2 the other way. -/
def twoChangeovers : ChangeoverCost := ⟨[0, 1, 2], ⟨2, 2, #[0, 5, 2, 0], rfl⟩, 3⟩

/-- The first item is produced first, and there is not enough to change to the second. -/
def twoChangeoversSpace : Space := .ofRanges [(0, 0), (-1, 1), (-1, 1), (0, 4)]

theorem exactly_affordable_twoChangeovers : twoChangeoversSpace.Valid ∧
    twoChangeovers.Base twoChangeoversSpace.store ∧ twoChangeovers.plan.Nodup ∧
    (∀ v ∈ twoChangeovers.plan, (twoChangeoversSpace.store.domain v).width ≤ Domain.holeLimit) ∧
    ∃ t, Propagator.propagate (Constraint.changeoverCost twoChangeovers) twoChangeoversSpace =
      .ok () (.changeoverCost twoChangeovers, t) := by
  have valid : twoChangeoversSpace.Valid := Space.valid_ofRanges (by decide)
  have distinct : twoChangeovers.plan.Nodup := by decide
  have holes : ∀ v ∈ twoChangeovers.plan,
      (twoChangeoversSpace.store.domain v).width ≤ Domain.holeLimit := by decide
  have base : twoChangeovers.Base twoChangeoversSpace.store := by
    refine ⟨⟨rfl, by decide⟩, by decide, fun v hv x hx => ?_, by decide, by decide, by decide⟩
    have bounds := Store.bounds_of_contains hx
    have : ∀ v ∈ twoChangeovers.plan, -1 ≤ twoChangeoversSpace.store.lower v ∧
        twoChangeoversSpace.store.upper v ≤ 1 := by decide
    have := this v hv
    exact eq_idle_or_item (show -1 ≤ x by omega) (show x < 2 by omega)
  have affordable : twoChangeovers.Affordable twoChangeoversSpace.store fun _ => 0 := ⟨by decide, by decide⟩
  have resting : twoChangeovers.Affordable twoChangeoversSpace.store fun v => [0, -1, 0].getD v 0 :=
    ⟨by decide, by decide⟩
  have hope : ¬ twoChangeovers.Hopeless twoChangeoversSpace.store := by
    rintro (none | ⟨a, sole, -⟩)
    · exact none ⟨_, affordable⟩
    · -- there are two plans
      exact absurd ((sole.only _ affordable).trans (sole.only _ resting).symm) (by decide)
  obtain ⟨t, run, -⟩ := (propagate_exactly_affordable valid base distinct holes).2 hope
  exact ⟨valid, base, distinct, holes, t, run⟩

end ChangeoverCost
end BranchBound
