import BranchBound.Proofs.Confluence.Costs
import BranchBound.Proofs.Constraint
import BranchBound.Proofs.Store.Intersection
import Mathlib.Logic.Function.Basic

/-! # Sums that are consistent at their bounds

A solution of a linear sum is an assignment within the domains of its variables that keeps it
(`LinearSum.Possible`).  The filter takes no value of a solution away, and it refutes only what has none.

Where it comes to, every bound is there for a reason: with the variable at this bound the sum can be kept by
numbers between the bounds of the others (`LinearSum.Between`), as **the sums from the least to the most leave
out no number** (`Closed.exists_between`).  These numbers need not be values, since a domain can have holes
between its bounds.

The sums may lie far outside of the range of values.  They can be cut to it before a domain is narrowed, which
makes no difference (`Filter.narrow_cut`). -/
namespace BranchBound

namespace LinearSum
variable {c : LinearSum} {s t : Store} {a : Assignment} {v : Var} {n : Int}

/-- The variables of a sum. -/
def scope (c : LinearSum) : List Var := c.terms ++ [c.total]

theorem mem_scope_term (hv : v ∈ c.terms) : v ∈ c.scope := List.mem_append_left _ hv

theorem mem_scope_total : c.total ∈ c.scope := List.mem_append_right _ (List.mem_singleton_self _)

/-- A solution within the domains. -/
structure Possible (c : LinearSum) (s : Store) (a : Assignment) : Prop where
  within : ∀ v ∈ c.scope, s.contains v (a v) = true
  holds : c.Holds a

/-- A solution between the bounds. -/
structure Between (c : LinearSum) (s : Store) (a : Assignment) : Prop where
  within : ∀ v ∈ c.scope, s.lower v ≤ a v ∧ a v ≤ s.upper v
  holds : c.Holds a

theorem Base.lt_of_mem_scope (base : c.Base s) (hv : v ∈ c.scope) : v < s.numVars := by
  rcases List.mem_append.mp hv with hv | hv
  · exact base.terms v hv
  · rw [List.mem_singleton.mp hv]
    exact base.total

/-- Only the terms and the total matter. -/
theorem Holds.congr {b : Assignment} (h : c.Holds a) (same : ∀ v ∈ c.scope, b v = a v) : c.Holds b := by
  have terms : c.terms.map b = c.terms.map a := List.map_congr_left fun v hv => same v (mem_scope_term hv)
  unfold Holds
  rw [terms, same c.total mem_scope_total]
  exact h

/-- A solution is part of an assignment within all domains. -/
theorem Possible.exists_admits (hs : s.Valid) (h : c.Possible s a) :
    ∃ b, c.Holds b ∧ s.Admits b ∧ ∀ v ∈ c.scope, b v = a v := by
  obtain ⟨b, hb, same⟩ := hs.exists_admits h.within
  exact ⟨b, h.holds.congr same, hb, same⟩

/-! ## Solutions at the bounds -/

/-- A total that is between the sums of some numbers is the sum of terms that are in between. -/
theorem exists_between {first last : Assignment} (distinct : c.scope.Nodup)
    (inside : ∀ v ∈ c.terms, s.lower v ≤ first v ∧ first v ≤ last v ∧ last v ≤ s.upper v)
    (total : s.lower c.total ≤ n ∧ n ≤ s.upper c.total)
    (sums : sumInt (c.terms.map first) ≤ n ∧ n ≤ sumInt (c.terms.map last)) :
    ∃ a, c.Between s a ∧ a c.total = n ∧ ∀ v ∈ c.terms, first v ≤ a v ∧ a v ≤ last v := by
  obtain ⟨nodup, -, apart⟩ := List.nodup_append.mp distinct
  obtain ⟨b, near, sum⟩ := exists_sumInt_eq nodup (fun v hv => (inside v hv).2.1) sums.1 sums.2
  let a : Assignment := Function.update b c.total n
  have here : a c.total = n := Function.update_self ..
  have term (v : Var) (hv : v ∈ c.terms) : a v = b v :=
    Function.update_of_ne (apart v hv _ (List.mem_singleton_self _)) ..
  refine ⟨a, ⟨fun v hv => ?_, ?_⟩, here, fun v hv => ?_⟩
  · rcases List.mem_append.mp hv with hv | hv
    · have := inside v hv
      have := near v hv
      rw [term v hv]
      omega
    · rwa [List.mem_singleton.mp hv, here]
  · unfold Holds
    rw [here, List.map_congr_left term, sum]
  · rw [term v hv]
    exact near v hv

/-- A sum with another number for one of its terms. -/
theorem sum_update {bound : Assignment} {x : Int} (distinct : c.terms.Nodup) (hv : v ∈ c.terms) :
    sumInt (c.terms.map (Function.update bound v x)) = sumInt (c.terms.map bound) - bound v + x := by
  have rest := sumInt_sub_eq (f := Function.update bound v x) (g := bound) distinct hv
    fun w _ hw => Function.update_of_ne hw ..
  rw [Function.update_self] at rest
  omega

/-- **Every bound is that of a solution between the bounds**, where the total and the terms have nothing more
to say of each other. -/
theorem Closed.exists_between (closed : c.Closed s) (hs : s.Valid) (distinct : c.scope.Nodup)
    (hv : v ∈ c.scope) : (∃ a, c.Between s a ∧ a v = s.lower v) ∧ ∃ a, c.Between s a ∧ a v = s.upper v := by
  have nodup : c.terms.Nodup := (List.nodup_append.mp distinct).1
  obtain ⟨least, most⟩ := closed.total
  have bounds := hs.lower_le_upper c.total
  have whole (w : Var) (_ : w ∈ c.terms) :
      s.lower w ≤ s.lower w ∧ s.lower w ≤ s.upper w ∧ s.upper w ≤ s.upper w :=
    ⟨Int.le_refl _, hs.lower_le_upper w, Int.le_refl _⟩
  unfold range at least most
  dsimp only at least most
  rcases List.mem_append.mp hv with hv | hv
  · obtain ⟨above, below⟩ := closed.term v hv
    unfold range at above below
    dsimp only at above below
    have le := hs.lower_le_upper v
    -- the term is held at one of its bounds, and the total is at the same one of its own
    have held {x n : Int} (hx : s.lower v ≤ x ∧ x ≤ s.upper v)
        (hn : s.lower c.total ≤ n ∧ n ≤ s.upper c.total)
        (sums : sumInt (c.terms.map s.lower) - s.lower v + x ≤ n ∧
          n ≤ sumInt (c.terms.map s.upper) - s.upper v + x) : ∃ a, c.Between s a ∧ a v = x := by
      rw [← sum_update nodup hv, ← sum_update nodup hv] at sums
      have inside (w : Var) (hw : w ∈ c.terms) : s.lower w ≤ Function.update s.lower v x w ∧
          Function.update s.lower v x w ≤ Function.update s.upper v x w ∧
          Function.update s.upper v x w ≤ s.upper w := by
        by_cases here : w = v
        · rw [here, Function.update_self, Function.update_self]
          exact ⟨hx.1, Int.le_refl _, hx.2⟩
        · rw [Function.update_of_ne here, Function.update_of_ne here]
          exact whole w hw
      obtain ⟨a, between, -, near⟩ := LinearSum.exists_between distinct inside hn sums
      have := near v hv
      rw [Function.update_self, Function.update_self] at this
      exact ⟨a, between, by omega⟩
    exact ⟨held (n := s.lower c.total) (by omega) (by omega) (by omega),
      held (n := s.upper c.total) (by omega) (by omega) (by omega)⟩
  · rw [List.mem_singleton.mp hv]
    have held {n : Int} (hn : s.lower c.total ≤ n ∧ n ≤ s.upper c.total) :=
      LinearSum.exists_between distinct whole hn (n := n) (by omega)
    obtain ⟨a, between, lower, -⟩ := held ⟨Int.le_refl _, bounds⟩
    obtain ⟨b, between', upper, -⟩ := held ⟨bounds, Int.le_refl _⟩
    exact ⟨⟨a, between, lower⟩, b, between', upper⟩

/-- When the terms are fixed, so is the total. -/
theorem Closed.fixed (closed : c.Closed s) (hs : s.Valid) (fixed : ∀ v ∈ c.terms, s.isFixed v = true) :
    s.fixed? c.total = some (sumInt (c.terms.map s.lower)) := by
  have same : c.terms.map s.upper = c.terms.map s.lower :=
    List.map_congr_left fun v hv => (Store.isFixed_iff.mp (fixed v hv)).symm
  obtain ⟨least, most⟩ := closed.total
  have := hs.lower_le_upper c.total
  unfold range at least most
  rw [same] at most
  dsimp only at least most
  exact Store.fixed?_eq_some_iff.mpr ⟨by omega, by omega⟩

/-! ## The filter -/

/-- **Linear sums are sound and consistent at their bounds.**  No value of a solution goes, and only what has
no solution is refuted; and in the end every bound of every variable is that of a solution between the bounds,
so a total whose terms are fixed is fixed to their sum. -/
theorem propagate_sound_and_consistent {s : Space} (hs : s.Valid) (base : c.Base s.store)
    (distinct : c.scope.Nodup) :
    Ends (Propagator.propagate (Constraint.linearSum c) s)
      (fun _ u => (∀ a, c.Possible s.store a → ∀ v ∈ c.scope, u.2.store.contains v (a v) = true) ∧
        (∀ v ∈ c.scope, (∃ a, c.Between u.2.store a ∧ a v = u.2.store.lower v) ∧
          ∃ a, c.Between u.2.store a ∧ a v = u.2.store.upper v) ∧
        ((∀ v ∈ c.terms, u.2.store.isFixed v = true) →
          u.2.store.fixed? c.total = some (sumInt (c.terms.map u.2.store.lower))))
      (fun halt _ => (∃ cause, halt = .inconsistent cause) ∧ ∀ a, ¬ c.Possible s.store a) := by
  rw [(Constraint.follows (c := .linearSum c) rfl).propagate, Rule.ends_run]
  have sound := Rule.ends_sound (r := c.rule) (P := c.Possible s.store) hs base
    (fun _ hv => base.lt_of_mem_scope hv) fun _ possible => possible.exists_admits hs.store
  refine ends_of (fun _ t run => ?_) fun halt t run => sound.of_error run
  obtain ⟨hn, spares⟩ := sound.of_ok run
  have ht := hn.valid hs
  have closed := closed_of_rests ht (c.idempotent.again hs trivial run)
  exact ⟨spares, fun v hv => closed.exists_between ht.store distinct hv, closed.fixed ht.store⟩

/-- Three numbers and their sum. -/
def threeTerms : LinearSum := ⟨[0, 1, 2], 3⟩

/-- The last of the numbers is at least 5, which leaves less to the others. -/
def threeTermsSpace : Space := .ofRanges [(0, 20), (-3, 4), (5, 30), (0, 12)]

theorem sound_and_consistent_threeTerms : threeTermsSpace.Valid ∧ threeTerms.Base threeTermsSpace.store ∧
    threeTerms.scope.Nodup ∧
    ∃ u, Propagator.propagate (Constraint.linearSum threeTerms) threeTermsSpace = .ok () u ∧
      ∃ a, threeTerms.Between u.2.store a ∧ a 0 = u.2.store.upper 0 := by
  have valid : threeTermsSpace.Valid := Space.valid_ofRanges (by decide)
  have base : threeTerms.Base threeTermsSpace.store := ⟨by decide, by decide⟩
  have distinct : threeTerms.scope.Nodup := by decide
  have possible : threeTerms.Possible threeTermsSpace.store fun v => [1, 2, 5, 8].getD v 0 :=
    ⟨by decide, rfl⟩
  have ended := propagate_sound_and_consistent valid base distinct
  refine ⟨valid, base, distinct, ?_⟩
  cases run : Propagator.propagate (Constraint.linearSum threeTerms) threeTermsSpace with
  | ok _ u => exact ⟨u, rfl, ((ended.of_ok run).2.1 0 (by decide)).2⟩
  | error halt u => exact absurd possible ((ended.of_error run).2 _)

end LinearSum
end BranchBound
