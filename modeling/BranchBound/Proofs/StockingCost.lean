import BranchBound.Constraint.StockingCost
import BranchBound.Proofs.LinearSum
import BranchBound.Proofs.Persistence
import BranchBound.Proofs.Tables

/-! # Stocking costs

What is produced of an item up to a period is at least what is certain by then, and at least what cannot
be produced behind it any more; it is at most what is possible by then, and at most what is not certain
behind it.  So the stock of every period is bounded (`StockingCost.stock_bounds`), and with it the cost.
When every indicator is fixed, the bounds meet (`StockingCost.bounds_fixed`).

The bounds depend on which indicators are fixed, and to what, but not on the cost.  So one pass is enough,
and it is enough to watch the indicators (`StockingCost.idempotent`). -/
namespace BranchBound
namespace StockingCost
variable (c : StockingCost)

/-- What is in stock of an item, over all periods. -/
def stocked (a : Assignment) (vs : List Var) (required : List Int) : Int :=
  sumInt (required.zipIdx.map fun x => max 0 (sumInt ((vs.take (x.2 + 1)).map a) - x.1))

/-- The indicators of every item with its requirements and its cost. -/
def rows : List ((List Var × List Int) × Int) :=
  (c.produced.rows.zip c.required.rows).zip c.stockingCosts

/-- What an assignment pays for stocking. -/
def charge (a : Assignment) : Int := sumInt (c.rows.map fun x => stocked a x.1.1 x.1.2 * x.2)

/-- Every item is produced as often as it is required altogether. -/
def Complete (a : Assignment) : Prop :=
  ∀ x ∈ c.rows, sumInt (x.1.1.map a) = x.1.2.getLast?.getD 0

/-- The indicators are 0 or 1, and the cost is another variable. -/
structure Base (s : Store) : Prop where
  cost_lt : c.cost < s.numVars
  known : ∀ v ∈ c.produced.toList, v < s.numVars
  indicators : ∀ v ∈ c.produced.toList, ∀ x, s.contains v x = true → x = 0 ∨ x = 1
  apart : c.cost ∉ c.produced.toList
  nonneg : ∀ x ∈ c.stockingCosts, 0 ≤ x

/-- The variables are known and distinct, and the indicators are 0 or 1. -/
structure Fit (s : Store) : Prop where
  cost_lt : c.cost < s.numVars
  known : ∀ v ∈ c.produced.toList, v < s.numVars
  indicators : ∀ v ∈ c.produced.toList, ∀ x, s.contains v x = true → x = 0 ∨ x = 1
  apart : c.cost ∉ c.produced.toList

/-- The cost is what is paid for stocking. -/
structure Holds (a : Assignment) : Prop where
  complete : c.Complete a
  cost_eq : a c.cost = c.charge a

/-- The cost is within its bounds. -/
def Spec (s : Store) : Prop :=
  (c.bounds s).least ≤ s.lower c.cost ∧ s.upper c.cost ≤ (c.bounds s).most

variable {c}

theorem Base.narrows {s t : Store} (h : c.Base s) (hs : s.Valid) (hn : s.Narrows t) : c.Base t where
  cost_lt := hn.numVars_eq ▸ h.cost_lt
  known v hv := hn.numVars_eq ▸ h.known v hv
  indicators v hv x hx := h.indicators v hv x (hn.contains hs hx)
  apart := h.apart
  nonneg := h.nonneg

theorem Base.fit {s : Store} (h : c.Base s) : c.Fit s := ⟨h.cost_lt, h.known, h.indicators, h.apart⟩

theorem indicator_of_mem_rows {x : (List Var × List Int) × Int} (hx : x ∈ c.rows) :
    (∀ v ∈ x.1.1, v ∈ c.produced.toList) ∧ x.2 ∈ c.stockingCosts := by
  obtain ⟨⟨vs, required⟩, cost⟩ := x
  obtain ⟨hrow, hcost⟩ := List.of_mem_zip hx
  exact ⟨fun v hv => Matrix.mem_toList_of_mem_rows (List.of_mem_zip hrow).1 hv, hcost⟩

/-! ## Bounds -/

theorem foldl_add {α : Type} (f : α → Bounds) (xs : List α) (b : Bounds) :
    xs.foldl (fun sum x => sum.add (f x)) b =
      ⟨b.least + sumInt (xs.map fun x => (f x).least), b.most + sumInt (xs.map fun x => (f x).most)⟩ := by
  induction xs generalizing b with
  | nil => simp [sumInt]
  | cons x xs ih =>
    rw [List.foldl_cons, ih]
    simp only [Bounds.add, List.map_cons, sumInt, Int.add_assoc]

theorem foldl_add_zero {α : Type} (f : α → Bounds) (xs : List α) :
    xs.foldl (fun (sum : Bounds) x => sum.add (f x)) {} =
      ⟨sumInt (xs.map fun x => (f x).least), sumInt (xs.map fun x => (f x).most)⟩ := by
  rw [foldl_add, Int.zero_add, Int.zero_add]

/-- The bounds are the sum of those of every item, however these are given. -/
theorem bounds_eq {s : Store} {f : (List Var × List Int) × Int → Bounds}
    (h : ∀ x ∈ c.rows, stocks (x.1.1.map (Indicator.ofVar s)) x.1.2 = f x) :
    c.bounds s =
      ⟨sumInt (c.rows.map fun x => (f x).least * x.2), sumInt (c.rows.map fun x => (f x).most * x.2)⟩ := by
  have least : c.rows.map (fun x => (stocks (x.1.1.map (Indicator.ofVar s)) x.1.2).least * x.2) =
      c.rows.map fun x => (f x).least * x.2 := List.map_congr_left fun x hx => by rw [h x hx]
  have most : c.rows.map (fun x => (stocks (x.1.1.map (Indicator.ofVar s)) x.1.2).most * x.2) =
      c.rows.map fun x => (f x).most * x.2 := List.map_congr_left fun x hx => by rw [h x hx]
  rw [← least, ← most]
  exact foldl_add_zero (fun x : (List Var × List Int) × Int =>
    (stocks (x.1.1.map (Indicator.ofVar s)) x.1.2).scale x.2) c.rows

section
variable {s : Store} {a : Assignment} {vs ws before after : List Var} {total : Int} {required : List Int}

/-- What is certain and what is possible bound what is produced. -/
def Bounded (s : Store) (a : Assignment) (vs : List Var) : Prop :=
  ∀ v ∈ vs, (Indicator.ofVar s v).certain ≤ a v ∧
    a v ≤ (Indicator.ofVar s v).certain + (Indicator.ofVar s v).possible

theorem Bounded.sum (h : Bounded s a vs) :
    sumInt ((vs.map (Indicator.ofVar s)).map (·.certain)) ≤ sumInt (vs.map a) ∧
      sumInt (vs.map a) ≤ sumInt ((vs.map (Indicator.ofVar s)).map (·.certain)) +
        sumInt ((vs.map (Indicator.ofVar s)).map (·.possible)) := by
  induction vs with
  | nil => simp [sumInt]
  | cons v vs ih =>
    have := h v List.mem_cons_self
    have := ih fun w hw => h w (List.mem_cons_of_mem v hw)
    simp only [List.map_cons, sumInt]
    omega

/-- **The stock of a period is within its bounds.** -/
theorem stock_bounds (due : Int) (hb : Bounded s a before) (ha : Bounded s a after)
    (htotal : sumInt (before.map a) + sumInt (after.map a) = total) :
    (stock total due (before.map (Indicator.ofVar s)) (after.map (Indicator.ofVar s))).least ≤
        max 0 (sumInt (before.map a) - due) ∧
      max 0 (sumInt (before.map a) - due) ≤
        (stock total due (before.map (Indicator.ofVar s)) (after.map (Indicator.ofVar s))).most := by
  have := hb.sum
  have := ha.sum
  unfold stock
  dsimp only
  omega

theorem stocks_eq (indicators : List Indicator) (required : List Int) :
    stocks indicators required =
      ⟨sumInt (required.zipIdx.map fun x => (stock (required.getLast?.getD 0) x.1
          (indicators.take (x.2 + 1)) (indicators.drop (x.2 + 1))).least),
        sumInt (required.zipIdx.map fun x => (stock (required.getLast?.getD 0) x.1
          (indicators.take (x.2 + 1)) (indicators.drop (x.2 + 1))).most)⟩ :=
  foldl_add_zero (fun x : Int × Nat => stock (required.getLast?.getD 0) x.1
    (indicators.take (x.2 + 1)) (indicators.drop (x.2 + 1))) required.zipIdx

theorem stocks_bounds (h : Bounded s a vs) (htotal : sumInt (vs.map a) = required.getLast?.getD 0) :
    (stocks (vs.map (Indicator.ofVar s)) required).least ≤ stocked a vs required ∧
      stocked a vs required ≤ (stocks (vs.map (Indicator.ofVar s)) required).most := by
  have parts (k : Nat) : sumInt ((vs.take k).map a) + sumInt ((vs.drop k).map a) =
      required.getLast?.getD 0 := by
    rw [← sumInt_append, ← List.map_append, List.take_append_drop]
    exact htotal
  have each (x : Int × Nat) := stock_bounds x.1
    (fun v hv => h v (List.take_subset (x.2 + 1) vs hv))
    (fun v hv => h v (List.drop_subset (x.2 + 1) vs hv)) (parts (x.2 + 1))
  rw [stocks_eq]
  simp only [← List.map_take, ← List.map_drop]
  exact ⟨sumInt_le fun x _ => (each x).1, sumInt_le fun x _ => (each x).2⟩

/-- Indicators are bounded by what is certain and what is possible. -/
theorem bounded_of_binary (hs : s.Valid) (binary : ∀ v ∈ vs, ∀ x, s.contains v x = true → x = 0 ∨ x = 1)
    (ha : ∀ v ∈ vs, s.contains v (a v) = true) : Bounded s a vs := by
  intro v hv
  have bounds := Store.bounds_of_contains (ha v hv)
  unfold Indicator.ofVar
  dsimp only
  split
  · rename_i hf
    have := Store.isFixed_iff.mp hf
    omega
  · have lower := binary v hv _ (hs.contains_lower v)
    have upper := binary v hv _ (hs.contains_upper v)
    omega

/-- **What is paid is within the bounds.** -/
theorem charge_mem_bounds (hs : s.Valid)
    (binary : ∀ v ∈ c.produced.toList, ∀ x, s.contains v x = true → x = 0 ∨ x = 1)
    (nonneg : ∀ x ∈ c.stockingCosts, 0 ≤ x) (within : ∀ v ∈ c.produced.toList, s.contains v (a v) = true)
    (complete : c.Complete a) : (c.bounds s).least ≤ c.charge a ∧ c.charge a ≤ (c.bounds s).most := by
  have each (x : (List Var × List Int) × Int) (hx : x ∈ c.rows) := stocks_bounds
    (bounded_of_binary hs (fun v hv => binary v ((indicator_of_mem_rows hx).1 v hv))
      fun v hv => within v ((indicator_of_mem_rows hx).1 v hv)) (complete x hx)
  have cost (x : (List Var × List Int) × Int) (hx : x ∈ c.rows) : 0 ≤ x.2 :=
    nonneg _ (indicator_of_mem_rows hx).2
  rw [bounds_eq fun _ _ => rfl]
  exact ⟨sumInt_le fun x hx => Int.mul_le_mul_of_nonneg_right (each x hx).1 (cost x hx),
    sumInt_le fun x hx => Int.mul_le_mul_of_nonneg_right (each x hx).2 (cost x hx)⟩

/-- **The cost is within its bounds.** -/
theorem Holds.cost_mem_bounds (base : c.Base s) (hs : s.Valid) (h : c.Holds a) (ha : s.Admits a) :
    (c.bounds s).least ≤ a c.cost ∧ a c.cost ≤ (c.bounds s).most := by
  rw [h.cost_eq]
  exact charge_mem_bounds hs base.indicators base.nonneg (fun v hv => ha v (base.known v hv)) h.complete

/-- When the indicators are fixed, nothing is possible but what is certain. -/
theorem sum_fixed (h : ∀ v ∈ vs, s.isFixed v = true) :
    sumInt ((vs.map (Indicator.ofVar s)).map (·.certain)) = sumInt (vs.map s.lower) ∧
      sumInt ((vs.map (Indicator.ofVar s)).map (·.possible)) = 0 := by
  induction vs with
  | nil => simp [sumInt]
  | cons v vs ih =>
    have := ih fun w hw => h w (List.mem_cons_of_mem v hw)
    have fixed := h v List.mem_cons_self
    simp only [List.map_cons, sumInt, Indicator.ofVar, fixed, if_true]
    omega

theorem stocks_fixed (h : ∀ v ∈ vs, s.isFixed v = true)
    (htotal : sumInt (vs.map s.lower) = required.getLast?.getD 0) :
    stocks (vs.map (Indicator.ofVar s)) required =
      ⟨stocked s.lower vs required, stocked s.lower vs required⟩ := by
  have each (x : Int × Nat) : stock (required.getLast?.getD 0) x.1
      ((vs.take (x.2 + 1)).map (Indicator.ofVar s)) ((vs.drop (x.2 + 1)).map (Indicator.ofVar s)) =
      ⟨max 0 (sumInt ((vs.take (x.2 + 1)).map s.lower) - x.1),
        max 0 (sumInt ((vs.take (x.2 + 1)).map s.lower) - x.1)⟩ := by
    have parts : sumInt ((vs.take (x.2 + 1)).map s.lower) + sumInt ((vs.drop (x.2 + 1)).map s.lower) =
        required.getLast?.getD 0 := by
      rw [← sumInt_append, ← List.map_append, List.take_append_drop]
      exact htotal
    have before := sum_fixed fun v hv => h v (List.take_subset (x.2 + 1) vs hv)
    have after := sum_fixed fun v hv => h v (List.drop_subset (x.2 + 1) vs hv)
    unfold stock
    rw [before.1, before.2, after.1, after.2, Bounds.mk.injEq]
    omega
  rw [stocks_eq]
  simp only [← List.map_take, ← List.map_drop, each]
  rfl

/-- **When every indicator is fixed, the bounds are what is paid.** -/
theorem bounds_fixed (h : ∀ v ∈ c.produced.toList, s.isFixed v = true) (complete : c.Complete s.lower) :
    c.bounds s = ⟨c.charge s.lower, c.charge s.lower⟩ := by
  have each (x : (List Var × List Int) × Int) (hx : x ∈ c.rows) := stocks_fixed
    (fun v hv => h v ((indicator_of_mem_rows hx).1 v hv)) (complete x hx)
  exact bounds_eq each

end
/-! ## The filter -/

theorem Fit.ofVar_congr {s t : Store} {v : Var} (hs : s.Valid) (ht : t.Valid) (fit : c.Fit s)
    (fit' : c.Fit t) (hv : v ∈ c.produced.toList) (h : t.fixed? v = s.fixed? v) :
    Indicator.ofVar t v = Indicator.ofVar s v := by
  cases hf : s.fixed? v with
  | some x =>
    have now := h.trans hf
    have hs' := Store.fixed?_eq_some_iff.mp hf
    have ht' := Store.fixed?_eq_some_iff.mp now
    have fixed : s.isFixed v = true := Store.isFixed_iff.mpr (hs'.1.trans hs'.2.symm)
    have fixed' : t.isFixed v = true := Store.isFixed_iff.mpr (ht'.1.trans ht'.2.symm)
    simp only [Indicator.ofVar, fixed, fixed', hs'.1, ht'.1]
  | none =>
    -- what is open is 0 or 1
    have opened {u : Store} (hu : u.Valid) (hb : c.Fit u) (h : u.fixed? v = none) :
        Indicator.ofVar u v = ⟨0, 1⟩ := by
      have lower := hb.indicators v hv _ (hu.contains_lower v)
      have upper := hb.indicators v hv _ (hu.contains_upper v)
      have le := hu.lower_le_upper v
      have hopen := Store.fixed?_eq_none_iff.mp h
      have ne : u.lower v ≠ u.upper v := fun heq => by
        rw [Store.isFixed_iff.mpr heq] at hopen
        cases hopen
      simp only [Indicator.ofVar, hopen]
      congr 1
      omega
    rw [opened hs fit hf, opened ht fit' (h.trans hf)]

theorem bounds_congr {s t : Store}
    (h : ∀ v ∈ c.produced.toList, Indicator.ofVar t v = Indicator.ofVar s v) : c.bounds t = c.bounds s := by
  have each (x : (List Var × List Int) × Int) (hx : x ∈ c.rows) :
      x.1.1.map (Indicator.ofVar t) = x.1.1.map (Indicator.ofVar s) :=
    List.map_congr_left fun v hv => h v ((indicator_of_mem_rows hx).1 v hv)
  refine (bounds_eq fun x hx => ?_).trans (bounds_eq fun _ _ => rfl).symm
  rw [each x hx]

/-- **One pass is enough**, as the bounds do not depend on the cost. -/
theorem ends_filter {s : Space} (hs : s.Valid) :
    Ends (c.filter s)
      (fun _ t => s.Narrows Filter.noCells t ∧
        (∀ a, Granted (c.Base s.store) c.Holds a → s.store.Admits a → t.store.Admits a) ∧
        (c.cost ∉ c.produced.toList → c.Spec t.store))
      (Filter.Halted Filter.noCells (Granted (c.Base s.store) c.Holds) (c.Base s.store) s) := by
  have within (a : Assignment) (ha : Granted (c.Base s.store) c.Holds a) (hadm : s.store.Admits a) :=
    ha.2.cost_mem_bounds ha.1 hs.store hadm
  unfold filter
  rw [ends_bind, Filter.ends_read, ends_discard, Filter.inTurn_pair, ends_bind]
  refine Ends.mono_ok (Filter.ends_of_keeps (Store.keeps_setLower hs.store) (fun hB => hB.cost_lt)
    fun a ha hadm => (within a ha hadm).1) fun b t ht => ?_
  obtain ⟨first, raised⟩ := ht
  have valid := first.narrows.valid hs
  rw [ends_bind]
  refine Ends.mono (Filter.ends_of_keeps (Store.keeps_setUpper valid.store)
    (fun hB => first.narrows.store.numVars_eq ▸ hB.cost_lt)
    fun a ha hadm => (within a ha (first.narrows.store.admits hs.store hadm)).2) (fun b' u hu => ?_)
    fun halt u hu => hu.after first
  obtain ⟨second, lowered⟩ := hu
  have both := first.trans second
  refine ⟨both.narrows, both.admits, fun apart => ?_⟩
  have same : c.bounds u.store = c.bounds s.store := bounds_congr fun v hv => by
    have hne : v ≠ c.cost := fun heq => apart (heq ▸ hv)
    have domain : u.store.domain v = s.store.domain v := by
      rw [Store.domain, Store.domain, lowered.others v hne, raised.others v hne]
    unfold Indicator.ofVar Store.lower Store.isFixed
    rw [domain]
  have lower := ((raised.contains_iff _).mp (valid.store.contains_lower c.cost)).2
  have upper := ((lowered.contains_iff _).mp ((both.narrows.valid hs).store.contains_upper c.cost)).2
  have := second.narrows.store.lower_le valid.store c.cost
  unfold Spec
  rw [same]
  exact ⟨by omega, upper⟩

/-- What the bounds say stays said as long as nothing new is known of the indicators. -/
theorem Spec.narrows {s t : Store} (h : c.Spec s) (hs : s.Valid) (ht : t.Valid) (fit : c.Fit s)
    (fit' : c.Fit t) (fixed : ∀ v ∈ c.produced.toList, t.fixed? v = s.fixed? v)
    (lower : s.lower c.cost ≤ t.lower c.cost) (upper : t.upper c.cost ≤ s.upper c.cost) : c.Spec t := by
  have same : c.bounds t = c.bounds s :=
    bounds_congr fun v hv => fit.ofVar_congr hs ht fit' hv (fixed v hv)
  unfold Spec at h ⊢
  rw [same]
  omega

theorem mem_watches {v : Var} (hv : v ∈ c.produced.toList) : (v, [Event.assign]) ∈ c.watches :=
  List.mem_map_of_mem (f := fun v => (v, [Event.assign])) hv

/-- **Stocking costs as a rule.** -/
def rule (c : StockingCost) : Rule where
  watches := c.watches
  filter := c.filter
  Base := c.Base
  Spec := c.Spec
  Holds := c.Holds
  base_congr := ⟨fun h => ⟨h.1, h.2, h.3, h.4, h.5⟩, fun h => ⟨h.1, h.2, h.3, h.4, h.5⟩⟩
  spec_congr := Iff.rfl
  base_narrows h hs hn := h.narrows hs hn
  spec_told base h hs hn told away :=
    h.narrows hs (hn.valid hs) base.fit (base.narrows hs hn).fit
      (fun _ hv => away.fixed?_eq told hn hs (mem_watches hv)) (hn.lower_le hs c.cost)
      (hn.upper_le hs c.cost)
  filtered hs := (ends_filter hs).mono_ok fun _ _ ht => ⟨ht.1, ht.2.1, fun base => ht.2.2 base.apart⟩

/-! ## Idempotence -/

/-- **Where the cost is within its bounds there is nothing to do.** -/
theorem filter_eq_of_spec {s : Space} (hv : c.cost < s.store.numVars) (h : c.Spec s.store) :
    c.filter s = .ok () s := by
  have lower : Filter.setLower c.cost (c.bounds s.store).least s = .ok false s :=
    Filter.onStore_eq_ok.mpr ⟨Store.setLower_eq_false_iff.mpr ⟨rfl, hv, h.1⟩, rfl⟩
  have upper : Filter.setUpper c.cost (c.bounds s.store).most s = .ok false s :=
    Filter.onStore_eq_ok.mpr ⟨Store.setUpper_eq_false_iff.mpr ⟨rfl, hv, h.2⟩, rfl⟩
  have both : Filter.inTurn [Filter.setLower c.cost (c.bounds s.store).least,
      Filter.setUpper c.cost (c.bounds s.store).most] s = .ok false s := by
    refine Filter.each_eq_false fun f hf => ?_
    rcases List.mem_cons.mp hf with rfl | hf
    · exact lower
    · obtain rfl := List.mem_singleton.mp hf
      exact upper
  exact Filter.discard_eq both

/-- **Stocking costs are idempotent**: the bounds do not depend on the cost, and not on what is unknown of
the indicators. -/
theorem idempotent (c : StockingCost) : c.rule.Idempotent c.Fit where
  narrows fit hs hn := ⟨hn.numVars_eq ▸ fit.cost_lt, fun v hv => hn.numVars_eq ▸ fit.known v hv,
    fun v hv x hx => fit.indicators v hv x (hn.contains hs hx), fit.apart⟩
  grows fit grown := by
    refine ⟨(grown.known fit.cost_lt).1, fun v hv => (grown.known (fit.known v hv)).1, fun v hv x hx => ?_,
      fit.apart⟩
    rw [Store.contains, (grown.known (fit.known v hv)).2] at hx
    exact fit.indicators v hv x hx
  again {s t} hs fit h := by
    obtain ⟨narrows, -, spec⟩ := (ends_filter hs).of_ok h
    exact filter_eq_of_spec (narrows.store.numVars_eq ▸ fit.cost_lt) (spec fit.apart)
  unnoticed {s t} hs ht fit fit' unnoticed h := by
    have spec := ((ends_filter hs).of_ok h).2.2 fit.apart
    exact filter_eq_of_spec fit'.cost_lt (spec.narrows hs.store ht.store fit fit'
      (fun _ hv => unnoticed.fixed?_eq _ (mem_watches hv)) (unnoticed.lower_le ht.store c.cost)
      (unnoticed.upper_le ht.store c.cost))

end StockingCost
end BranchBound
