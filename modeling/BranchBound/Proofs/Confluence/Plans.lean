import BranchBound.Proofs.Confluence.Shelter
import BranchBound.Proofs.CumulativeProduction
import BranchBound.Proofs.DemandCapacity
import BranchBound.Proofs.ProductionLink

/-! # The constraints of a plan shelter what they have come to

For every constraint there is what its filter has come to (`ProductionLink.Agreed`,
`CumulativeProduction.Closed`, `DemandCapacity.Closed`).  In a space that has more values less is fixed and
more is open.  So what is counted there leaves at least as much room; and where it leaves none, the store
that is sheltered has none left either, and the values that go are not in it. -/
namespace BranchBound

/-! ## Production links -/

namespace ProductionLink
variable {c : ProductionLink} {s f : Space} {F : Store} {k : Nat} {v : Var}

/-- **What the filter of a production link has come to is agreed.** -/
theorem agreed_of_rests (hf : f.Valid) (fit : c.Fit f.store) (rests : c.filter f = .ok () f) :
    c.Agreed f.store :=
  ((ends_agreed hf fit).of_ok rests).2

section
variable (hF : F.Valid) (hs : s.Valid) (h : s.store.Encloses F)
include hF hs h

theorem shelters_narrowPlan (heeded : c.Heeded F k v) : Filter.Shelters F (c.narrowPlan v k) s := by
  unfold narrowPlan
  rw [Filter.shelters_read]
  split
  · exact Filter.shelters_pure h
  · rename_i one
    exact Filter.shelters_assign hF hs h (heeded.planned (h.fixed? hF one))
  · rename_i x hx fixed
    exact Filter.shelters_remove hF hs h (heeded.excluded x (h.fixed? hF fixed) hx)

theorem shelters_narrowIndicator {planned? : Option Int} (linked : c.Linked F k v)
    (planned : ∀ x, planned? = some x → F.fixed? c.plan = some x) :
    Filter.Shelters F (c.narrowIndicator planned? v k) s := by
  unfold narrowIndicator
  rw [Filter.shelters_read]
  split
  · rename_i this
    exact Filter.shelters_setLower hF hs h (linked.1 (planned _ this))
  · split
    · exact Filter.shelters_pure h
    · rename_i impossible
      have gone : s.store.contains c.plan k = false := by simpa using impossible
      exact Filter.shelters_setUpper hF hs h (linked.2 (h.contains_eq_false gone))

/-- **A production link shelters a plan that agrees with its indicators.** -/
theorem shelters_filter (agreed : c.Agreed F) : Filter.Shelters F c.filter s := by
  have way (t : Space) (ht : Filter.Spared F s t) (x : Var × Nat) (hx : x ∈ c.indicators.zipIdx) :
      Filter.Shelters F (c.narrowPlan x.1 x.2) t :=
    shelters_narrowPlan hF (ht.narrows.valid hs) ht.encloses (agreed _ _ (item_of_mem hx)).1
  unfold filter
  refine Filter.shelters_bind (Filter.shelters_discard (Filter.shelters_each h fun x hx t ht => way t ht x hx))
    fun _ u hu => ?_
  rw [Filter.shelters_read]
  -- the plan may have become fixed on the way there
  have planned (x : Int) (hx : u.store.fixed? c.plan = some x) : F.fixed? c.plan = some x :=
    hu.encloses.fixed? hF hx
  refine Filter.shelters_discard (Filter.shelters_each hu.encloses fun x hx t ht => ?_)
  exact shelters_narrowIndicator hF (ht.narrows.valid (hu.narrows.valid hs)) ht.encloses
    (agreed _ _ (item_of_mem hx)).2 planned

end

end ProductionLink

/-! ## Cumulative production -/

namespace CumulativeProduction
variable {c : CumulativeProduction} {s F : Store} {vs : List Var} {v : Var} {t t' : Tight} {i : Nat}

section
variable (h : s.Encloses F) (hF : F.Valid)
include h hF

/-- Less is certain where there are more values. -/
theorem certain_mono (v : Var) : (if s.fixed? v = some 1 then 1 else 0 : Int) ≤
    if F.fixed? v = some 1 then 1 else 0 := by
  split
  · rename_i one
    exact Int.le_of_eq (if_pos (h.fixed? hF one)).symm
  · split <;> decide

/-- More is possible where there are more values. -/
theorem possible_mono (v : Var) :
    (if F.fixed? v = some 1 then 1 else 0 : Int) + (if F.fixed? v = none then 1 else 0) ≤
      (if s.fixed? v = some 1 then 1 else 0) + if s.fixed? v = none then 1 else 0 := by
  cases hs : s.fixed? v with
  | some x => simp [h.fixed? hF hs]
  | none =>
    cases hv : F.fixed? v with
    | none => simp
    | some y =>
      simp only [Option.some.injEq, reduceCtorEq, if_false, if_true]
      split <;> decide

theorem certain_le (vs : List Var) : certain s vs ≤ certain F vs :=
  sumInt_le fun v _ => certain_mono h hF v

theorem possible_le (vs : List Var) : certain F vs + unfixed F vs ≤ certain s vs + unfixed s vs := by
  unfold certain unfixed
  rw [← sumInt_add, ← sumInt_add]
  exact sumInt_le fun v _ => possible_mono h hF v

/-- If no more is certain of fewer values, what is open is not certain. -/
theorem ne_one_of_certain (le : certain F vs ≤ certain s vs) (hv : v ∈ vs) (opened : s.fixed? v = none) :
    F.fixed? v ≠ some 1 := by
  intro one
  have others := sumInt_sub_le (fun w _ => certain_mono h hF w) hv
  rw [if_pos one, if_neg (by rw [opened]; simp)] at others
  unfold certain at le
  omega

/-- If no less is possible with fewer values, what is open is still possible. -/
theorem eq_one_of_possible (le : certain s vs + unfixed s vs ≤ certain F vs + unfixed F vs) (hv : v ∈ vs)
    (opened : s.fixed? v = none) : F.fixed? v = none ∨ F.fixed? v = some 1 := by
  by_contra hne
  obtain ⟨closed, other⟩ := not_or.mp hne
  have others := sumInt_sub_le (fun w _ => possible_mono h hF w) hv
  rw [if_neg other, if_neg closed, if_neg (by rw [opened]; simp), if_pos opened] at others
  unfold certain unfixed at le
  rw [sumInt_add, sumInt_add] at others
  omega

end

theorem Met.mono (met : c.Met F) (h : s.Encloses F) (hF : F.Valid) : c.Met s where
  before i r hr := Int.le_trans (met.before i r hr) (possible_le h hF _)
  after k r hr := Int.le_trans (certain_le h hF _) (met.after k r hr)

/-- Everything that is tight is fixed. -/
structure Closed (c : CumulativeProduction) (F : Store) : Prop where
  met : c.Met F
  before : ∀ (i : Nat) (r : Int), c.required[i]? = some r →
    certain F (c.produced.take (i + 1)) + unfixed F (c.produced.take (i + 1)) = r →
    ∀ v ∈ c.produced.take (i + 1), F.isFixed v = true
  after : ∀ (k : Nat) (r : Int), (0 :: c.required)[k]? = some r →
    certain F (c.produced.drop k) = c.total - r → ∀ v ∈ c.produced.drop k, F.isFixed v = true

/-! ### The filter -/

theorem unfixed_pos (hv : v ∈ vs) (opened : s.fixed? v = none) : 0 < unfixed s vs := by
  have least : ∀ w ∈ vs, (0 : Int) ≤ if s.fixed? w = none then 1 else 0 := fun w _ => by split <;> decide
  have others := sumInt_sub_le least hv
  rw [if_pos opened, sumInt_zero] at others
  unfold unfixed
  omega

/-- An indicator that need not be settled is fixed, or what it is narrowed to is no news. -/
theorem rests_settle {narrowing : Filter Bool} {f : Space} (rests : Filter.Rests (settle narrowing v) f) :
    f.store.isFixed v = true ∨ Filter.Rests narrowing f := by
  unfold settle at rests
  rw [Filter.rests_read_iff] at rests
  split at rests
  · exact .inl ‹_›
  · exact .inr rests

/-- What is settled does its work, whatever that is meant to spare. -/
theorem work_settle {narrowing : Var → Filter Bool} {ws : List Var} {f : Space}
    (work : ∀ v t, f.Narrows Filter.noCells t →
      Filter.Filters Filter.noCells (Granted False c.Holds) False (narrowing v) t True) (t : Space)
    (ht : f.Narrows Filter.noCells t) : Filter.Filters Filter.noCells (Granted False c.Holds) False
      (Filter.each ws fun v => settle (narrowing v) v) t (∀ v ∈ ws, True) :=
  Filter.filters_each (Q := fun _ _ => True) fun v _ u hu => filters_settle fun _ => work v u (ht.trans hu)

theorem Base.fixed_of_le {F : Store} (base : c.Base F) (hF : F.Valid) (hv : v ∈ c.produced)
    (le : 1 ≤ F.lower v ∨ F.upper v ≤ 0) : F.isFixed v = true := by
  have lower := base.indicators v hv _ (hF.contains_lower v)
  have upper := base.indicators v hv _ (hF.contains_upper v)
  have := hF.lower_le_upper v
  exact Store.isFixed_iff.mpr (by omega)

/-- **What the filter of cumulative production has come to is closed.** -/
theorem closed_of_rests {f : Space} (hf : f.Valid) (base : c.Base f.store) (rests : c.filter f = .ok () f) :
    c.Closed f.store := by
  have passed : Filter.Rests c.pass f := Filter.rests_of_untilStable
    (fun u hu => ⟨_, False, _, filters_pass (hu.valid hf) fun h => h.elim⟩) rests
  unfold pass at passed
  rw [Filter.rests_read_iff] at passed
  obtain ⟨found, -⟩ := tight_found (s := f.store) base.fits base.exact
  cases htight : c.tight (c.produced.map f.store.fixed?) with
  | error cause =>
    simp only [htight] at passed
    cases passed
  | ok t =>
    have tightened := found t htight
    simp only [htight] at passed
    have lower (v : Var) (u : Space) (hu : f.Narrows Filter.noCells u) :
        Filter.Filters Filter.noCells (Granted False c.Holds) False (Filter.setLower v 1) u True :=
      (Filter.filters_setLower (hu.valid hf) (fun h => h.elim) fun _ h => h.1.elim).mono fun _ => trivial
    have upper (v : Var) (u : Space) (hu : f.Narrows Filter.noCells u) :
        Filter.Filters Filter.noCells (Granted False c.Holds) False (Filter.setUpper v 0) u True :=
      (Filter.filters_setUpper (hu.valid hf) (fun h => h.elim) fun _ h => h.1.elim).mono fun _ => trivial
    obtain ⟨produce, idle⟩ := Filter.rests_of_pair (fun u hu => ⟨_, _, _, work_settle lower u hu⟩)
      (fun u hu => ⟨_, _, _, work_settle upper u hu⟩) passed
    have produce := Filter.rests_of_each
      (fun v _ u hu => ⟨_, _, _, filters_settle fun _ => lower v u hu⟩) produce
    have idle := Filter.rests_of_each
      (fun v _ u hu => ⟨_, _, _, filters_settle fun _ => upper v u hu⟩) idle
    refine ⟨tightened.met, fun i r hr tight v hv => ?_, fun k r hr tight v hv => ?_⟩
    · -- what is open would have to be produced
      by_contra hopen
      have opened : f.store.fixed? v = none := Store.fixed?_eq_none_iff.mpr (by simpa using hopen)
      have := tightened.produce i r hr tight (unfixed_pos hv opened)
      have hv' := (List.take_prefix_take_left this).subset hv
      rcases rests_settle (produce v hv') with fixed | rests
      · exact hopen fixed
      · exact hopen (base.fixed_of_le hf.store (List.mem_of_mem_take hv)
          (.inl (Filter.rests_setLower_iff.mp rests).2))
    · obtain ⟨j, hj, known⟩ := tightened.idle k r hr tight
      rw [known] at idle
      have hv' : v ∈ c.produced.drop j := by
        have := List.mem_of_mem_drop (l := c.produced.drop j) (i := k - j) (a := v)
        rw [List.drop_drop, Nat.add_sub_cancel' hj] at this
        exact this hv
      rcases rests_settle (idle v hv') with fixed | rests
      · exact fixed
      · exact base.fixed_of_le hf.store (List.mem_of_mem_drop hv) (.inr (Filter.rests_setUpper_iff.mp rests).2)

section
variable {s : Space} {p : Tight} (hF : F.Valid) (hs : s.Valid) (h : s.store.Encloses F) (baseF : c.Base F)
  (closed : c.Closed F)
include h

theorem shelters_settle {narrowing : Filter Bool}
    (shelters : s.store.fixed? v = none → Filter.Shelters F narrowing s) :
    Filter.Shelters F (settle narrowing v) s := by
  unfold settle
  rw [Filter.shelters_read]
  split
  · exact Filter.shelters_pure h
  · rename_i opened
    exact shelters (Store.fixed?_eq_none_iff.mpr (by simpa using opened))

include hF closed

/-- What has to be produced is produced in the store that is sheltered. -/
theorem one_of_tight (tightened : Tightened c s.store p) (hv : v ∈ c.produced.take p.produceBefore)
    (opened : s.store.fixed? v = none) : F.fixed? v = some 1 := by
  rcases tightened.produced with none | ⟨i, r, hi, hr, tight⟩
  · rw [none, List.take_zero] at hv
    cases hv
  · rw [hi] at hv
    have possible := possible_le h hF (c.produced.take (i + 1))
    have met := closed.met.before i r hr
    rcases eq_one_of_possible h hF (by omega) hv opened with none | one
    · have := closed.before i r hr (by omega) v hv
      rw [Store.fixed?_eq_none_iff] at none
      exact absurd (this.symm.trans none) (by simp)
    · exact one

include baseF

/-- What has to be idle is idle in the store that is sheltered. -/
theorem zero_of_tight {k : Nat} (tightened : Tightened c s.store p) (hk : p.idleFrom = some k)
    (hv : v ∈ c.produced.drop k) (opened : s.store.fixed? v = none) : F.upper v ≤ 0 := by
  obtain ⟨r, hr, tight⟩ := tightened.idled k hk
  have certain := certain_le h hF (c.produced.drop k)
  have met := closed.met.after k r hr
  have other := ne_one_of_certain h hF (by omega) hv opened
  have fixed := closed.after k r hr (by omega) v hv
  have lower : F.lower v = F.upper v := Store.isFixed_iff.mp fixed
  rcases baseF.indicators v (List.mem_of_mem_drop hv) _ (hF.contains_upper v) with zero | one
  · omega
  · exact absurd (Store.fixed?_eq_some_iff.mpr ⟨lower.trans one, one⟩) other

include hs

theorem shelters_pass : Filter.Shelters F c.pass s := by
  have opened {t : Space} {v : Var} (ht : Filter.Spared F s t) (hv : t.store.fixed? v = none) :
      s.store.fixed? v = none := (Store.Encloses.of_narrows ht.narrows.store hs.store).fixed?_eq_none
        (ht.narrows.valid hs).store hv
  obtain ⟨found, failed⟩ := tight_found (s := s.store) baseF.fits baseF.exact
  unfold pass
  rw [Filter.shelters_read]
  split
  · rename_i cause htight
    exact absurd (closed.met.mono h hF) (failed _ htight)
  · rename_i p htight
    have tightened := found p htight
    refine Filter.shelters_pair h (fun t ht => ?_) fun t ht => ?_
    · refine Filter.shelters_each ht.encloses fun v hv u hu => ?_
      have hsu := ht.trans hu
      refine shelters_settle hsu.encloses fun hopen => ?_
      have one := one_of_tight hF h closed tightened hv (opened hsu hopen)
      exact Filter.shelters_setLower hF (hsu.narrows.valid hs) hsu.encloses
        (Int.le_of_eq (Store.fixed?_eq_some_iff.mp one).1.symm)
    · refine Filter.shelters_each ht.encloses fun v hv u hu => ?_
      have hsu := ht.trans hu
      refine shelters_settle hsu.encloses fun hopen => ?_
      cases hk : p.idleFrom with
      | none =>
        rw [hk] at hv
        cases hv
      | some k =>
        rw [hk] at hv
        exact Filter.shelters_setUpper hF (hsu.narrows.valid hs) hsu.encloses
          (zero_of_tight hF h baseF closed tightened hk hv (opened hsu hopen))

/-- **Cumulative production shelters what it is closed under.** -/
theorem shelters_filter : Filter.Shelters F c.filter s :=
  Filter.shelters_untilStable h fun _ ht => shelters_pass hF (ht.narrows.valid hs) ht.encloses baseF closed

end

end CumulativeProduction
end BranchBound
