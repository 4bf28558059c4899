import BranchBound.Proofs.Confluence.Plans
import BranchBound.Proofs.Constraint

/-! # What can be produced

A plan for one item is possible if it is within the domains of the indicators and meets what is required
(`CumulativeProduction.Possible`).  Counting decides whether there is one: of the open indicators it takes
as many as are still required, **the earliest first** (`earliest`), and no other choice of as many produces
more by any period.  So a plan is found whenever the counts leave room for it (`Met.exists_possible`).

The same is true with one more indicator fixed.  Where everything that is tight is fixed already, the
counts leave room for either value of an open indicator (`Chosen.met`), so every value that is left has a
plan to support it.

All this is so as long as no difference of requirements is cut.  A requirement that is so low that it says
nothing can refute what has a plan (`refuted_overflowing`). -/
namespace BranchBound
namespace CumulativeProduction
variable {c : CumulativeProduction} {s t : Store} {a : Assignment} {vs : List Var} {v : Var} {x : Int}

/-- A plan for the item, within the domains of its indicators. -/
structure Possible (c : CumulativeProduction) (s : Store) (a : Assignment) : Prop where
  within : ∀ v ∈ c.produced, s.contains v (a v) = true
  holds : c.Holds a

/-- Only the indicators matter. -/
theorem Holds.congr {b : Assignment} (h : c.Holds a) (same : ∀ v ∈ c.produced, b v = a v) : c.Holds b := by
  have sums {vs : List Var} (sub : vs ⊆ c.produced) : vs.map b = vs.map a :=
    List.map_congr_left fun v hv => same v (sub hv)
  constructor
  · intro i r hr
    rw [sums (List.take_subset _ _)]
    exact h.required_le i r hr
  · rw [sums (List.Subset.refl _)]
    exact h.total_eq

/-- A plan is part of an assignment within all domains. -/
theorem Possible.exists_admits (hs : s.Valid) (h : c.Possible s a) :
    ∃ b, c.Holds b ∧ s.Admits b ∧ ∀ v ∈ c.produced, b v = a v := by
  obtain ⟨b, hb, same⟩ := hs.exists_admits h.within
  exact ⟨b, h.holds.congr same, hb, same⟩

/-! ## The earliest production -/

/-- What is fixed stays as it is, and of the open indicators the first `k` produce. -/
def earliest (s : Store) (vs : List Var) (k : Int) : Assignment := fun v =>
  (s.fixed? v).getD (if unfixed s (vs.take (vs.idxOf v)) < k then 1 else 0)

theorem unfixed_append (s : Store) (vs ws : List Var) :
    unfixed s (vs ++ ws) = unfixed s vs + unfixed s ws := by
  simp only [unfixed, List.map_append, sumInt_append]

theorem unfixed_nonneg (s : Store) (vs : List Var) : 0 ≤ unfixed s vs := by
  refine sumInt_nonneg fun v _ => ?_
  split <;> decide

/-- **Up to every place the earliest production is what is certain, and of what is open as much as there
is to choose.** -/
theorem sum_earliest (distinct : vs.Nodup) (binary : ∀ v ∈ vs, ∀ x, s.fixed? v = some x → x = 0 ∨ x = 1)
    {k : Int} (hk : 0 ≤ k) (i : Nat) : sumInt ((vs.take i).map (earliest s vs k)) =
      certain s (vs.take i) + min k (unfixed s (vs.take i)) := by
  induction i with
  | zero =>
    have : min k 0 = 0 := by omega
    simp [sumInt, certain, unfixed, this]
  | succ i ih =>
    by_cases hi : i < vs.length
    · have first : vs.idxOf vs[i] = i := distinct.idxOf_getElem i hi
      have opened := unfixed_nonneg s (vs.take i)
      rw [List.take_succ_eq_append_getElem hi, List.map_append, sumInt_append, certain_append, unfixed_append,
        ih]
      simp only [certain, unfixed, List.map_cons, List.map_nil, sumInt, earliest, first] at opened ⊢
      cases hf : s.fixed? vs[i] with
      | none =>
        simp only [Option.getD_none, reduceCtorEq, if_false, if_true]
        split <;> omega
      | some x =>
        rcases binary _ (List.getElem_mem hi) x hf with rfl | rfl
        · simp
        · simp
          omega
    · have all : vs.take (i + 1) = vs.take i := by
        rw [List.take_of_length_le (by omega), List.take_of_length_le (by omega)]
      rw [all, ih]

section
variable (hs : s.Valid) (binary : ∀ x, s.contains v x = true → x = 0 ∨ x = 1)
include hs binary

/-- An open indicator can be either. -/
theorem contains_of_open (opened : s.fixed? v = none) (hx : x = 0 ∨ x = 1) : s.contains v x = true := by
  have lower := hs.contains_lower v
  have upper := hs.contains_upper v
  have least := binary _ lower
  have most := binary _ upper
  have apart : s.lower v ≠ s.upper v := by
    intro same
    rw [Store.fixed?_eq_none_iff, Store.isFixed_iff.mpr same] at opened
    cases opened
  have := hs.lower_le_upper v
  -- two values out of 0 and 1 are 0 and 1
  rcases hx with rfl | rfl
  · rwa [show s.lower v = 0 by omega] at lower
  · rwa [show s.upper v = 1 by omega] at upper

theorem binary_of_fixed (fixed : s.fixed? v = some x) : x = 0 ∨ x = 1 :=
  binary x (hs.contains_of_fixed? fixed)

theorem contains_earliest {k : Int} : s.contains v (earliest s vs k v) = true := by
  unfold earliest
  cases hf : s.fixed? v with
  | some x => exact hs.contains_of_fixed? hf
  | none =>
    refine contains_of_open hs binary hf ?_
    rw [Option.getD_none]
    split
    · exact .inr rfl
    · exact .inl rfl

end

/-- **If the counts leave room, the earliest production is a plan.** -/
theorem Met.exists_possible (met : c.Met s) (hs : s.Valid) (base : c.Base s) (distinct : c.produced.Nodup) :
    ∃ a, c.Possible s a := by
  have most : certain s c.produced ≤ c.total - 0 := met.after 0 0 rfl
  have least : c.total ≤ certain s c.produced + unfixed s c.produced :=
    total_le base.fits (fun vs => certain s vs + unfixed s vs) rfl met.before
  have binary (v : Var) (hv : v ∈ c.produced) (x : Int) (hx : s.fixed? v = some x) : x = 0 ∨ x = 1 :=
    binary_of_fixed hs (base.indicators v hv) hx
  have sum (i : Nat) := sum_earliest distinct binary (k := c.total - certain s c.produced) (by omega) i
  refine ⟨earliest s c.produced (c.total - certain s c.produced),
    fun v hv => contains_earliest hs (base.indicators v hv), fun i r hr => ?_, ?_⟩
  · -- either everything that is open produces by then, or as much as may be left for later
    have before := met.before i r hr
    have after := met.after (i + 1) r hr
    have parts := certain_append s (c.produced.take (i + 1)) (c.produced.drop (i + 1))
    rw [List.take_append_drop] at parts
    rw [sum (i + 1)]
    omega
  · have all := sum c.produced.length
    rw [List.take_length] at all
    rw [all]
    omega

/-! ## One more indicator fixed -/

/-- An open indicator has been fixed, and no other. -/
structure Chosen (s : Store) (v : Var) (x : Int) (t : Store) : Prop where
  opened : s.fixed? v = none
  fixed : t.fixed? v = some x
  others : ∀ w, w ≠ v → t.fixed? w = s.fixed? w

namespace Chosen
variable (h : Chosen s v x t)
include h

theorem certain_eq (distinct : vs.Nodup) (hv : v ∈ vs) :
    certain t vs = certain s vs + if x = 1 then 1 else 0 := by
  have rest := sumInt_sub_eq (f := fun w => if t.fixed? w = some 1 then 1 else 0)
    (g := fun w => if s.fixed? w = some 1 then 1 else 0) distinct hv
    fun w _ hw => by simp only [h.others w hw]
  simp only [h.fixed, h.opened, Option.some.injEq, reduceCtorEq, if_false] at rest
  unfold certain
  omega

theorem unfixed_eq (distinct : vs.Nodup) (hv : v ∈ vs) : unfixed t vs = unfixed s vs - 1 := by
  have rest := sumInt_sub_eq (f := fun w => if t.fixed? w = none then 1 else 0)
    (g := fun w => if s.fixed? w = none then 1 else 0) distinct hv
    fun w _ hw => by simp only [h.others w hw]
  simp only [h.fixed, h.opened, reduceCtorEq, if_false, if_true] at rest
  unfold unfixed
  omega

theorem counts_eq (hv : v ∉ vs) : certain t vs = certain s vs ∧ unfixed t vs = unfixed s vs := by
  have same : vs.map t.fixed? = vs.map s.fixed? := by
    refine List.map_congr_left fun w hw => h.others w ?_
    rintro rfl
    exact hv hw
  constructor
  · unfold certain
    rw [List.map_congr_left fun w hw => by rw [List.map_eq_map_iff.mp same w hw]]
  · unfold unfixed
    rw [List.map_congr_left fun w hw => by rw [List.map_eq_map_iff.mp same w hw]]

/-- **Whatever an open indicator is fixed to leaves room**, where everything that is tight is fixed. -/
theorem met (closed : c.Closed s) (distinct : c.produced.Nodup) : c.Met t := by
  have untied {P : Prop} (fixed : P → s.isFixed v = true) : ¬ P := by
    intro holds
    have opened := Store.fixed?_eq_none_iff.mp h.opened
    rw [fixed holds] at opened
    cases opened
  constructor
  · intro i r hr
    have room := closed.met.before i r hr
    by_cases hv : v ∈ c.produced.take (i + 1)
    · have apart : c.produced.take (i + 1) |>.Nodup := distinct.sublist (List.take_sublist _ _)
      have loose := untied fun tight => closed.before i r hr tight v hv
      rw [h.certain_eq apart hv, h.unfixed_eq apart hv]
      split <;> omega
    · rw [(h.counts_eq hv).1, (h.counts_eq hv).2]
      exact room
  · intro k r hr
    have room := closed.met.after k r hr
    by_cases hv : v ∈ c.produced.drop k
    · have apart : c.produced.drop k |>.Nodup := distinct.sublist (List.drop_sublist _ _)
      have loose := untied fun tight => closed.after k r hr tight v hv
      rw [h.certain_eq apart hv]
      split <;> omega
    · rw [(h.counts_eq hv).1]
      exact room

end Chosen

/-- An open variable can be fixed to any of its values. -/
theorem exists_chosen (hs : s.Valid) (hv : v < s.numVars) (opened : s.fixed? v = none)
    (hx : s.contains v x = true) : ∃ t, s.Narrows t ∧ Chosen s v x t := by
  have assigned := Store.keeps_assign (x := x) (v := v) hs
  cases run : Store.assign v x s with
  | ok changed t =>
    have done := assigned.of_ok run
    have valid := done.narrows.valid hs
    have only (y : Int) (hy : t.contains v y = true) : y = x := ((done.contains_iff y).mp hy).2
    refine ⟨t, done.narrows, opened, Store.fixed?_eq_some_iff.mpr ?_, fun w hw => ?_⟩
    · exact ⟨only _ (valid.contains_lower v), only _ (valid.contains_upper v)⟩
    · unfold Store.fixed? Store.domain
      rw [done.others w hw]
  | error halt t =>
    -- it is not refused, since there is the value
    cases assigned.of_error run with
    | empty _ gone => exact absurd rfl (gone x hx)
    | unknown missing => exact absurd (Store.domain?_eq_none_iff.mp missing) (Nat.not_le_of_lt hv)

theorem Possible.of_narrows (hs : s.Valid) (hn : s.Narrows t) (h : c.Possible t a) : c.Possible s a :=
  ⟨fun v hv => hn.contains hs (h.within v hv), h.holds⟩

/-- **Every value that is left is part of a plan.** -/
theorem Closed.supported (closed : c.Closed s) (hs : s.Valid) (base : c.Base s) (distinct : c.produced.Nodup)
    (hv : v ∈ c.produced) (hx : s.contains v x = true) : ∃ a, c.Possible s a ∧ a v = x := by
  cases hf : s.fixed? v with
  | some y =>
    obtain ⟨a, ha⟩ := closed.met.exists_possible hs base distinct
    refine ⟨a, ha, ?_⟩
    rw [Store.eq_of_fixed? hf hx]
    exact Store.eq_of_fixed? hf (ha.within v hv)
  | none =>
    obtain ⟨t, hn, chosen⟩ := exists_chosen hs (base.known v hv) hf hx
    have met := chosen.met closed distinct
    obtain ⟨a, ha⟩ := met.exists_possible (hn.valid hs) (base.narrows hs hn) distinct
    exact ⟨a, ha.of_narrows hs hn, Store.eq_of_fixed? chosen.fixed (ha.within v hv)⟩

/-! ## The filter -/

/-- What the filter comes to has a plan, and exactly the values of the plans there were; and it refutes only
what has none. -/
theorem ends_filter {s : Space} (hs : s.Valid) (base : c.Base s.store) (distinct : c.produced.Nodup) :
    Ends (c.filter s)
      (fun _ t => (∃ a, c.Possible s.store a) ∧
        ∀ v ∈ c.produced, ∀ x, t.store.contains v x = true ↔ ∃ a, c.Possible s.store a ∧ a v = x)
      (fun halt _ => (∃ cause, halt = .inconsistent cause) ∧ ∀ a, ¬ c.Possible s.store a) := by
  have sound := Rule.ends_sound (r := c.rule) (P := c.Possible s.store) hs base base.known
    fun _ possible => possible.exists_admits hs.store
  refine ends_of (fun _ t run => ?_) fun halt t run => sound.of_error run
  obtain ⟨hn, spares⟩ := sound.of_ok run
  have ht := hn.valid hs
  have base' := base.narrows hs.store hn.store
  have closed := closed_of_rests ht base' (c.idempotent.again hs trivial run)
  constructor
  · obtain ⟨a, ha⟩ := closed.met.exists_possible ht.store base' distinct
    exact ⟨a, ha.of_narrows hs.store hn.store⟩
  · intro v hv x
    constructor
    · intro hx
      obtain ⟨a, ha, value⟩ := closed.supported ht.store base' distinct hv hx
      exact ⟨a, ha.of_narrows hs.store hn.store, value⟩
    · rintro ⟨a, ha, rfl⟩
      exact spares a ha v hv

end CumulativeProduction
end BranchBound
