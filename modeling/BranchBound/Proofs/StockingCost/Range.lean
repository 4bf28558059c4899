import BranchBound.Proofs.Constraint
import BranchBound.Proofs.CumulativeProduction.Support
import BranchBound.Proofs.StockingCost
import Mathlib.Order.Bounds.Basic

/-! # The exact range of the stock

The bounds of the stock are added up over all periods and all items, each taken on its own.  They are exact
all the same, since two completions of the indicators come to all of them at once: an item that is produced
**as early as possible** is the most in stock at the end of every period, and one that is produced **as late as
possible** the least (`stocks_eq_stocked`).  The items have no indicator in common, so that every item can be
produced like this (`exists_glued`).

What is known of the cost is then what the completions pay, from the least to the most, and no other variable
is touched (`StockingCost.ends_filter_exact`). -/
namespace BranchBound

namespace Matrix
variable {α : Type}

/-- **The rows, one after the other, are what there is.** -/
theorem flatten_rows (m : Matrix α) : m.rows.flatten = m.toList := by
  have found : ∀ i ∈ List.range m.numRows,
      m.row? i = some ((m.toList.drop (i * m.numColumns)).take m.numColumns) := fun i hi => by
    obtain ⟨row, hrow, -⟩ := exists_row? (List.mem_range.mp hi)
    rw [hrow, row?_eq_some hrow]
  have upTo (n : Nat) : ((List.range n).map fun i =>
      (m.toList.drop (i * m.numColumns)).take m.numColumns).flatten = m.toList.take (n * m.numColumns) := by
    induction n with
    | zero => simp
    | succ n ih =>
      rw [List.range_succ, List.map_append, List.flatten_append, ih, Nat.succ_mul, List.take_add]
      simp
  rw [rows, filterMap_eq_of_some found, upTo, ← m.size_entries]
  exact List.take_length

end Matrix

namespace StockingCost
open CumulativeProduction (certain unfixed earliest)
variable {c : StockingCost} {s t : Store} {a b : Assignment} {vs : List Var} {v : Var} {x : Int}

/-- A completion of the indicators within their domains: every item is produced as often as it is required
altogether. -/
structure Completes (c : StockingCost) (s : Store) (a : Assignment) : Prop where
  within : ∀ v ∈ c.produced.toList, s.contains v (a v) = true
  complete : c.Complete a

/-- What the completions pay for stocking. -/
def charges (c : StockingCost) (s : Store) : Set Int := {n | ∃ a, c.Completes s a ∧ c.charge a = n}

/-- A number is within bounds. -/
def Bounds.Allows (b : Bounds) (n : Int) : Prop := b.least ≤ n ∧ n ≤ b.most

/-- Only the indicators matter. -/
theorem charge_congr (same : ∀ v ∈ c.produced.toList, a v = b v) : c.charge a = c.charge b := by
  have sums {x : (List Var × List Int) × Int} (hx : x ∈ c.rows) (n : Nat) :
      (x.1.1.take n).map a = (x.1.1.take n).map b :=
    List.map_congr_left fun v hv => same v ((indicator_of_mem_rows hx).1 v (List.take_subset _ _ hv))
  unfold charge stocked
  congr 1
  exact List.map_congr_left fun x hx => by simp only [sums hx]

/-! ## As late as possible -/

/-- What is fixed stays as it is, and of the open indicators the last `k` produce. -/
def latest (s : Store) (vs : List Var) (k : Int) : Assignment := fun v =>
  (s.fixed? v).getD (1 - earliest s vs (unfixed s vs - k) v)

/-- An indicator that is not among the last to produce is among the first not to. -/
theorem latest_add_earliest (binary : ∀ x, s.fixed? v = some x → x = 0 ∨ x = 1) (k : Int) :
    latest s vs k v + earliest s vs (unfixed s vs - k) v =
      (if s.fixed? v = some 1 then 1 else 0) + ((if s.fixed? v = some 1 then 1 else 0) +
        if s.fixed? v = none then 1 else 0) := by
  unfold latest
  cases hf : s.fixed? v with
  | some x =>
    unfold earliest
    rcases binary x hf with rfl | rfl <;> simp [hf]
  | none => simp

/-- **Up to every place the latest production is what is certain, and of what is open what cannot be left for
later.** -/
theorem sum_latest (distinct : vs.Nodup) (binary : ∀ v ∈ vs, ∀ x, s.fixed? v = some x → x = 0 ∨ x = 1)
    {k : Int} (hk : k ≤ unfixed s vs) (i : Nat) : sumInt ((vs.take i).map (latest s vs k)) =
      certain s (vs.take i) + max 0 (k - (unfixed s vs - unfixed s (vs.take i))) := by
  have first := CumulativeProduction.sum_earliest distinct binary (k := unfixed s vs - k) (by omega) i
  have both : sumInt ((vs.take i).map (latest s vs k)) +
      sumInt ((vs.take i).map (earliest s vs (unfixed s vs - k))) =
      certain s (vs.take i) + (certain s (vs.take i) + unfixed s (vs.take i)) := by
    unfold certain unfixed
    rw [← sumInt_add, ← sumInt_add, ← sumInt_add]
    exact congrArg sumInt (List.map_congr_left fun v hv =>
      latest_add_earliest (binary v (List.take_subset i vs hv)) k)
  omega

theorem contains_latest (hs : s.Valid) (binary : ∀ x, s.contains v x = true → x = 0 ∨ x = 1) {k : Int} :
    s.contains v (latest s vs k v) = true := by
  have first : s.contains v (earliest s vs (unfixed s vs - k) v) = true :=
    CumulativeProduction.contains_earliest hs binary
  unfold latest
  cases hf : s.fixed? v with
  | some x =>
    have same : s.contains v (earliest s vs k v) = true := CumulativeProduction.contains_earliest hs binary
    rwa [earliest, hf] at same
  | none =>
    have := binary _ first
    exact CumulativeProduction.contains_of_open hs binary hf (by rw [Option.getD_none]; omega)

/-! ## The stock of an item -/

/-- What is certain and what is possible of indicators is what is counted of them. -/
theorem sum_indicators (hs : s.Valid) (binary : ∀ v ∈ vs, ∀ x, s.contains v x = true → x = 0 ∨ x = 1) :
    sumInt ((vs.map (Indicator.ofVar s)).map (·.certain)) = certain s vs ∧
      sumInt ((vs.map (Indicator.ofVar s)).map (·.possible)) = unfixed s vs := by
  rw [List.map_map, List.map_map]
  constructor
  · refine congrArg sumInt (List.map_congr_left fun v hv => ?_)
    change s.lower v = _
    cases hf : s.fixed? v with
    | some x =>
      rw [(Store.fixed?_eq_some_iff.mp hf).1]
      rcases CumulativeProduction.binary_of_fixed hs (binary v hv) hf with rfl | rfl <;> rfl
    | none =>
      have zero := CumulativeProduction.contains_of_open hs (binary v hv) hf (.inl rfl)
      have := Store.bounds_of_contains zero
      have := binary v hv _ (hs.contains_lower v)
      rw [if_neg (by simp)]
      omega
  · refine congrArg sumInt (List.map_congr_left fun v _ => ?_)
    change (if s.isFixed v = true then (0 : Int) else 1) = _
    cases hf : s.fixed? v with
    | some x => rw [if_pos (Store.isFixed_of_fixed? hf), if_neg (by simp)]
    | none => rw [if_neg (by rw [Store.fixed?_eq_none_iff.mp hf]; simp), if_pos rfl]

/-- **The bounds of the stock are those of the latest and of the earliest production**, where it is neither
too much already nor too little in the end. -/
theorem stocks_eq_stocked (hs : s.Valid) (distinct : vs.Nodup)
    (binary : ∀ v ∈ vs, ∀ x, s.contains v x = true → x = 0 ∨ x = 1) {required : List Int} {k : Int}
    (total : required.getLast?.getD 0 = certain s vs + k) (hk : 0 ≤ k ∧ k ≤ unfixed s vs) :
    stocks (vs.map (Indicator.ofVar s)) required =
      ⟨stocked (latest s vs k) vs required, stocked (earliest s vs k) vs required⟩ := by
  have fixed (v : Var) (hv : v ∈ vs) (x : Int) (hx : s.fixed? v = some x) : x = 0 ∨ x = 1 :=
    CumulativeProduction.binary_of_fixed hs (binary v hv) hx
  have part {ws : List Var} (sub : ws ⊆ vs) := sum_indicators hs fun v (hv : v ∈ ws) => binary v (sub hv)
  have each (x : Int × Nat) : stock (required.getLast?.getD 0) x.1
      ((vs.take (x.2 + 1)).map (Indicator.ofVar s)) ((vs.drop (x.2 + 1)).map (Indicator.ofVar s)) =
      ⟨max 0 (sumInt ((vs.take (x.2 + 1)).map (latest s vs k)) - x.1),
        max 0 (sumInt ((vs.take (x.2 + 1)).map (earliest s vs k)) - x.1)⟩ := by
    have before := part (List.take_subset (x.2 + 1) vs)
    have after := part (List.drop_subset (x.2 + 1) vs)
    have produced := CumulativeProduction.certain_append s (vs.take (x.2 + 1)) (vs.drop (x.2 + 1))
    have opened := CumulativeProduction.unfixed_append s (vs.take (x.2 + 1)) (vs.drop (x.2 + 1))
    rw [List.take_append_drop] at produced opened
    unfold stock
    rw [before.1, before.2, after.1, after.2, sum_latest distinct fixed hk.2,
      CumulativeProduction.sum_earliest distinct fixed hk.1, Bounds.mk.injEq]
    omega
  rw [stocks_eq]
  simp only [← List.map_take, ← List.map_drop, each]
  rfl

/-! ## The stocks of all items -/

/-- What is given for each of some lists of variables that have none in common can be put together. -/
theorem exists_glued {α : Type} {rows : List α} {scope : α → List Var}
    (apart : rows.Pairwise fun x y => (scope x).Disjoint (scope y)) (f : α → Assignment) (rest : Assignment) :
    ∃ a : Assignment, (∀ x ∈ rows, ∀ v ∈ scope x, a v = f x v) ∧
      ∀ v, (∀ x ∈ rows, v ∉ scope x) → a v = rest v := by
  induction rows with
  | nil => exact ⟨rest, fun x hx => (by cases hx), fun _ _ => rfl⟩
  | cons x rows ih =>
    obtain ⟨first, others⟩ := List.pairwise_cons.mp apart
    obtain ⟨a, given, left⟩ := ih others
    refine ⟨fun v => if v ∈ scope x then f x v else a v, fun y hy v hv => ?_, fun v away => ?_⟩
    · rcases List.mem_cons.mp hy with rfl | hy
      · exact if_pos hv
      · exact (if_neg fun here => first y hy here hv).trans (given y hy v hv)
    · exact (if_neg (away x List.mem_cons_self)).trans
        (left v fun y hy => away y (List.mem_cons_of_mem x hy))

theorem nodup_of_mem_rows (distinct : c.produced.toList.Nodup) {x : (List Var × List Int) × Int}
    (hx : x ∈ c.rows) : x.1.1.Nodup := by
  rw [← Matrix.flatten_rows, List.nodup_flatten] at distinct
  exact distinct.1 _ (List.of_mem_zip (List.of_mem_zip hx).1).1

/-- No two items share an indicator. -/
theorem pairwise_rows (distinct : c.produced.toList.Nodup) :
    c.rows.Pairwise fun x y => x.1.1.Disjoint y.1.1 := by
  rw [← Matrix.flatten_rows, List.nodup_flatten, List.pairwise_iff_getElem] at distinct
  rw [List.pairwise_iff_getElem]
  intro i j hi hj lt
  simp only [rows, List.length_zip] at hi hj
  simp only [rows, List.getElem_zip]
  exact distinct.2 i j (by omega) (by omega) lt

/-- **What is produced of every item can be chosen for it alone.** -/
theorem exists_completes (hs : s.Valid) (distinct : c.produced.toList.Nodup)
    {f : (List Var × List Int) × Int → Assignment}
    (within : ∀ x ∈ c.rows, ∀ v ∈ x.1.1, s.contains v (f x v) = true)
    (total : ∀ x ∈ c.rows, sumInt (x.1.1.map (f x)) = x.1.2.getLast?.getD 0) :
    ∃ a, c.Completes s a ∧ c.charge a = sumInt (c.rows.map fun x => stocked (f x) x.1.1 x.1.2 * x.2) := by
  obtain ⟨a, given, left⟩ := exists_glued (pairwise_rows distinct) f s.lower
  have sums {x : (List Var × List Int) × Int} (hx : x ∈ c.rows) (n : Nat) :
      (x.1.1.take n).map a = (x.1.1.take n).map (f x) :=
    List.map_congr_left fun v hv => given x hx v (List.take_subset _ _ hv)
  refine ⟨a, ⟨fun v _ => ?_, fun x hx => ?_⟩, ?_⟩
  · by_cases here : ∃ x ∈ c.rows, v ∈ x.1.1
    · obtain ⟨x, hx, hv⟩ := here
      rw [given x hx v hv]
      exact within x hx v hv
    · rw [left v fun x hx hv => here ⟨x, hx, hv⟩]
      exact hs.contains_lower v
  · have all := sums hx x.1.1.length
    rw [List.take_length] at all
    rw [all]
    exact total x hx
  · unfold charge stocked
    exact congrArg sumInt (List.map_congr_left fun x hx => by simp only [sums hx])

section
variable (hs : s.Valid) (distinct : c.produced.toList.Nodup)
  (binary : ∀ v ∈ c.produced.toList, ∀ x, s.contains v x = true → x = 0 ∨ x = 1)
include hs binary

/-- A completion leaves to the open indicators of an item neither less than nothing nor more than they are. -/
theorem Completes.room (h : c.Completes s a) {x : (List Var × List Int) × Int} (hx : x ∈ c.rows) :
    0 ≤ x.1.2.getLast?.getD 0 - certain s x.1.1 ∧
      x.1.2.getLast?.getD 0 - certain s x.1.1 ≤ unfixed s x.1.1 := by
  have inside (v : Var) (hv : v ∈ x.1.1) := (indicator_of_mem_rows hx).1 v hv
  have bounded := (bounded_of_binary hs (fun v hv => binary v (inside v hv))
    fun v hv => h.within v (inside v hv)).sum
  have counts := sum_indicators hs fun v hv => binary v (inside v hv)
  have total := h.complete x hx
  omega

include distinct

/-- **Both bounds are what some completion pays.** -/
theorem Completes.exists_extremal (h : c.Completes s a) :
    (∃ b, c.Completes s b ∧ c.charge b = (c.bounds s).least) ∧
      ∃ b, c.Completes s b ∧ c.charge b = (c.bounds s).most := by
  let chosen (x : (List Var × List Int) × Int) : Int := x.1.2.getLast?.getD 0 - certain s x.1.1
  have inside {x : (List Var × List Int) × Int} (hx : x ∈ c.rows) (v : Var) (hv : v ∈ x.1.1) :=
    binary v ((indicator_of_mem_rows hx).1 v hv)
  have fixed {x : (List Var × List Int) × Int} (hx : x ∈ c.rows) (v : Var) (hv : v ∈ x.1.1) (y : Int)
      (hy : s.fixed? v = some y) : y = 0 ∨ y = 1 :=
    CumulativeProduction.binary_of_fixed hs (inside hx v hv) hy
  have apart {x : (List Var × List Int) × Int} (hx : x ∈ c.rows) : x.1.1.Nodup :=
    nodup_of_mem_rows distinct hx
  have room {x : (List Var × List Int) × Int} (hx : x ∈ c.rows) : 0 ≤ chosen x ∧ chosen x ≤ unfixed s x.1.1 :=
    h.room hs binary hx
  have whole {x : (List Var × List Int) × Int} (hx : x ∈ c.rows) :
      x.1.2.getLast?.getD 0 = certain s x.1.1 + chosen x := by
    dsimp only [chosen]
    omega
  have eq := bounds_eq (c := c) (s := s) (f := fun x => ⟨stocked (latest s x.1.1 (chosen x)) x.1.1 x.1.2,
    stocked (earliest s x.1.1 (chosen x)) x.1.1 x.1.2⟩)
    fun x hx => stocks_eq_stocked hs (apart hx) (inside hx) (whole hx) (room hx)
  rw [eq]
  constructor
  · refine exists_completes hs distinct (f := fun x => latest s x.1.1 (chosen x))
      (fun x hx v hv => contains_latest hs (inside hx v hv)) fun x hx => ?_
    have sum := sum_latest (apart hx) (fixed hx) (room hx).2 x.1.1.length
    have := room hx
    have := whole hx
    rw [List.take_length] at sum
    omega
  · refine exists_completes hs distinct (f := fun x => earliest s x.1.1 (chosen x))
      (fun x hx v hv => CumulativeProduction.contains_earliest hs (inside hx v hv)) fun x hx => ?_
    have sum := CumulativeProduction.sum_earliest (apart hx) (fixed hx) (room hx).1 x.1.1.length
    have := room hx
    have := whole hx
    rw [List.take_length] at sum
    omega

end

/-! ## The filter -/

/-- **The cost is left its values between the bounds, and nothing else is touched**; only a cost that has none
is refuted. -/
theorem ends_filter_exact {s : Space} (hs : s.Valid) (known : c.cost < s.store.numVars) :
    Ends (c.filter s)
      (fun _ t => (¬ ∀ x, s.store.contains c.cost x = true → ¬ (c.bounds s.store).Allows x) ∧ t.store.Valid ∧
        (∀ x, t.store.contains c.cost x = true ↔
          s.store.contains c.cost x = true ∧ (c.bounds s.store).Allows x) ∧
        ∀ v, v ≠ c.cost → t.store.domain? v = s.store.domain? v)
      (fun halt _ => (∃ cause, halt = .inconsistent cause) ∧
        ∀ x, s.store.contains c.cost x = true → ¬ (c.bounds s.store).Allows x) := by
  unfold filter
  rw [ends_bind, Filter.ends_read, ends_discard, Filter.inTurn_pair, ends_bind]
  refine (Filter.ends_onStore_of_keeps (Store.keeps_setLower hs.store) known).mono (fun first t raised => ?_)
    fun halt _ refused => ⟨refused.1, fun x hx between => refused.2 x hx between.1⟩
  have valid := raised.narrows.valid hs.store
  rw [ends_bind]
  refine (Filter.ends_onStore_of_keeps (Store.keeps_setUpper valid) (raised.narrows.numVars_eq ▸ known)).mono
    (fun second u lowered => ?_) fun halt _ refused => ⟨refused.1, fun x hx between => ?_⟩
  · have both := raised.both lowered
    have valid' := lowered.narrows.valid valid
    obtain ⟨there, between⟩ := (both.contains_iff _).mp (valid'.contains_lower c.cost)
    exact ⟨fun none => none _ there between, valid', both.contains_iff, both.others⟩
  · exact refused.2 x ((raised.contains_iff x).mpr ⟨hx, between.1⟩) between.2

/-- **The range of the stock is exact**: the bounds are the least and the most that a completion pays.  A cost
without a value in between is refuted, and otherwise it is left its values in between; so it is what is paid
once every indicator is fixed. -/
theorem propagate_exact_range {s : Space} (hs : s.Valid) (known : c.cost < s.store.numVars)
    (distinct : c.produced.toList.Nodup)
    (binary : ∀ v ∈ c.produced.toList, ∀ x, s.store.contains v x = true → x = 0 ∨ x = 1)
    (nonneg : ∀ x ∈ c.stockingCosts, 0 ≤ x) (completable : ∃ a, c.Completes s.store a) :
    IsLeast (c.charges s.store) (c.bounds s.store).least ∧
      IsGreatest (c.charges s.store) (c.bounds s.store).most ∧
      ((∃ cause u, Propagator.propagate (Constraint.stockingCost c) s = .error (.inconsistent cause) u) ↔
        ∀ x, s.store.contains c.cost x = true → ¬ (c.bounds s.store).Allows x) ∧
      ∀ x, s.store.contains c.cost x = true → (c.bounds s.store).Allows x →
        ∃ t, Propagator.propagate (Constraint.stockingCost c) s = .ok () (.stockingCost c, t) ∧
          (∀ y, t.store.contains c.cost y = true ↔
            s.store.contains c.cost y = true ∧ (c.bounds s.store).Allows y) ∧
          (∀ v, v ≠ c.cost → t.store.domain? v = s.store.domain? v) ∧
          ((∀ v ∈ c.produced.toList, s.store.isFixed v = true) →
            ∀ a, c.Completes s.store a → t.store.fixed? c.cost = some (c.charge a)) := by
  have within (a : Assignment) (ha : c.Completes s.store a) :=
    charge_mem_bounds hs.store binary nonneg ha.within ha.complete
  obtain ⟨a, ha⟩ := completable
  obtain ⟨⟨low, hlow, least⟩, high, hhigh, most⟩ := ha.exists_extremal hs.store distinct binary
  have called : Propagator.propagate (Constraint.stockingCost c) s = c.filter.run (.stockingCost c) s := rfl
  obtain ⟨failed, passed⟩ := Rule.run_exact (p := Constraint.stockingCost c) (ends_filter_exact hs known)
  refine ⟨⟨⟨low, hlow, least⟩, ?_⟩, ⟨⟨high, hhigh, most⟩, ?_⟩, called ▸ failed, fun x hx allowed => ?_⟩
  · rintro _ ⟨b, hb, rfl⟩
    exact (within b hb).1
  · rintro _ ⟨b, hb, rfl⟩
    exact (within b hb).2
  · obtain ⟨t, run, valid, values, others⟩ := passed fun none => none x hx allowed
    refine ⟨t, called.trans run, values, others, fun fixed b hb => ?_⟩
    -- there is but one completion, so the bounds are what it pays
    have only (d : Assignment) (hd : c.Completes s.store d) : c.charge d = c.charge b :=
      charge_congr fun v hv => (Domain.contains_of_isFixed (fixed v hv) (hd.within v hv)).trans
        (Domain.contains_of_isFixed (fixed v hv) (hb.within v hv)).symm
    obtain ⟨-, above, below⟩ := (values _).mp (valid.contains_lower c.cost)
    obtain ⟨-, above', below'⟩ := (values _).mp (valid.contains_upper c.cost)
    have := only low hlow
    have := only high hhigh
    exact Store.fixed?_eq_some_iff.mpr ⟨by omega, by omega⟩

/-- Two items over three periods: one unit of the first is due in the last period, and one unit of the second
in the middle one. -/
def twoItems : StockingCost where
  produced := ⟨2, 3, #[0, 1, 2, 3, 4, 5], rfl⟩
  required := ⟨2, 3, #[0, 0, 1, 0, 1, 1], rfl⟩
  stockingCosts := [3, 5]
  cost := 6

/-- The second item is not produced in the first period. -/
def twoItemsSpace : Space := .ofRanges [(0, 1), (0, 1), (0, 1), (0, 0), (0, 1), (0, 1), (0, 20)]

theorem exact_range_twoItems : twoItemsSpace.Valid ∧ twoItems.cost < twoItemsSpace.store.numVars ∧
    twoItems.produced.toList.Nodup ∧
    IsLeast (twoItems.charges twoItemsSpace.store) 0 ∧
    IsGreatest (twoItems.charges twoItemsSpace.store) 6 := by
  have valid : twoItemsSpace.Valid := Space.valid_ofRanges (by decide)
  have known : twoItems.cost < twoItemsSpace.store.numVars := by decide
  have distinct : twoItems.produced.toList.Nodup := by decide
  have binary (v : Var) (hv : v ∈ twoItems.produced.toList) (x : Int)
      (hx : twoItemsSpace.store.contains v x = true) : x = 0 ∨ x = 1 := by
    have bounds := Store.bounds_of_contains hx
    have : ∀ v ∈ twoItems.produced.toList, 0 ≤ twoItemsSpace.store.lower v ∧
        twoItemsSpace.store.upper v ≤ 1 := by decide
    have := this v hv
    omega
  have completes : twoItems.Completes twoItemsSpace.store fun v => [0, 0, 1, 0, 1, 0].getD v 0 :=
    ⟨by decide, by unfold Complete; decide⟩
  obtain ⟨least, most, -⟩ := propagate_exact_range valid known distinct binary (by decide) ⟨_, completes⟩
  exact ⟨valid, known, distinct, least, most⟩

end StockingCost
end BranchBound
