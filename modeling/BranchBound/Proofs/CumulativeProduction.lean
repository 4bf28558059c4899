import BranchBound.Constraint.CumulativeProduction
import BranchBound.Proofs.LinearSum
import BranchBound.Proofs.Tables

/-! # Cumulative production

An assignment keeps the constraint if the item is produced at least as often as it is required by every
period, and in total exactly as often.  The indicators that are fixed and those that are open bound how
often it is produced (`CumulativeProduction.sum_bounds`); where a bound is reached, the open ones have no
choice.  Which bounds are reached is what the look at all periods finds (`CumulativeProduction.tight_found`). -/
namespace BranchBound
namespace CumulativeProduction
variable (c : CumulativeProduction)

/-- No difference between what is required altogether and by a period is cut; unless nothing can be enough, or
little enough, anyway. -/
def Exact : Prop := 0 ≤ c.total → c.total ≤ c.produced.length → ∀ r ∈ c.required, Word.Fits (c.total - r)

/-- There is a requirement for every period, and the indicators are 0 or 1. -/
structure Base (s : Store) : Prop where
  fits : c.produced.length = c.required.length
  exact : c.Exact
  known : ∀ v ∈ c.produced, v < s.numVars
  indicators : ∀ v ∈ c.produced, ∀ x, s.contains v x = true → x = 0 ∨ x = 1

/-- The item is produced as often as it is required. -/
structure Holds (a : Assignment) : Prop where
  required_le : ∀ (i : Nat) (r : Int), c.required[i]? = some r →
    r ≤ sumInt ((c.produced.take (i + 1)).map a)
  total_eq : sumInt (c.produced.map a) = c.total

variable {c}

theorem Base.narrows {s t : Store} (h : c.Base s) (hs : s.Valid) (hn : s.Narrows t) : c.Base t :=
  ⟨h.fits, h.exact, fun v hv => hn.numVars_eq ▸ h.known v hv,
    fun v hv x hx => h.indicators v hv x (hn.contains hs hx)⟩

/-! ## Counting -/

/-- How many of some indicators are fixed to 1. -/
def certain (s : Store) (vs : List Var) : Int :=
  sumInt (vs.map fun v => if s.fixed? v = some 1 then 1 else 0)

/-- How many of some indicators are open. -/
def unfixed (s : Store) (vs : List Var) : Int :=
  sumInt (vs.map fun v => if s.fixed? v = none then 1 else 0)

theorem certain_append (s : Store) (vs ws : List Var) :
    certain s (vs ++ ws) = certain s vs + certain s ws := by
  simp only [certain, List.map_append, sumInt_append]

theorem add_fixed (s : Store) (n : Count) (v : Var) :
    n.add (s.fixed? v) = ⟨n.produced + certain s [v], n.possible + unfixed s [v]⟩ := by
  unfold certain unfixed
  cases hf : s.fixed? v with
  | none => simp [Count.add, sumInt, hf]
  | some x =>
    by_cases hx : x = 1
    · subst hx
      simp [Count.add, sumInt, hf]
    · have : n.add (some x) = n := by
        unfold Count.add
        split
        · exact absurd (Option.some.inj ‹_›) hx
        · rfl
        · cases ‹some x = none›
      simp [this, sumInt, hf, hx]

theorem getElem?_counts (s : Store) (vs : List Var) (n : Count) (i : Nat) :
    (counts n (vs.map s.fixed?))[i]? = if i < vs.length then
      some ⟨n.produced + certain s (vs.take (i + 1)), n.possible + unfixed s (vs.take (i + 1))⟩
    else none := by
  induction vs generalizing n i with
  | nil => simp [counts]
  | cons v vs ih =>
    rw [List.map_cons, counts, add_fixed]
    cases i with
    | zero => simp
    | succ i =>
      rw [List.getElem?_cons_succ, ih, List.take_succ_cons, List.length_cons]
      simp only [certain, unfixed, List.map_cons, List.map_nil, sumInt, Nat.add_lt_add_iff_right]
      split
      · congr 2 <;> omega
      · rfl

theorem length_counts (n : Count) (xs : List (Option Int)) : (counts n xs).length = xs.length := by
  induction xs generalizing n with
  | nil => rfl
  | cons x xs ih => rw [counts, List.length_cons, ih, List.length_cons]

/-- The last counts tell how many indicators are fixed to 1 altogether. -/
theorem produced_eq (s : Store) (vs : List Var) :
    (((counts ⟨0, 0⟩ (vs.map s.fixed?)).getLast?.map (·.produced)).getD 0) = certain s vs := by
  rw [List.getLast?_eq_getElem?, length_counts, List.length_map, getElem?_counts]
  cases vs with
  | nil => rfl
  | cons v vs => simp

theorem certain_nonneg (s : Store) (vs : List Var) : 0 ≤ certain s vs := by
  refine sumInt_nonneg fun v _ => ?_
  split <;> decide

theorem certain_add_unfixed_le (s : Store) (vs : List Var) : certain s vs + unfixed s vs ≤ vs.length := by
  induction vs with
  | nil => exact Int.le_refl _
  | cons v vs ih =>
    simp only [certain, unfixed, List.map_cons, sumInt, List.length_cons] at ih ⊢
    cases s.fixed? v with
    | none =>
      simp only [reduceCtorEq, if_false, if_true]
      omega
    | some x =>
      simp only [reduceCtorEq, if_false]
      split <;> omega

/-- If up to every period there is as much as is required, there is as much as is required altogether. -/
theorem total_le (fits : c.produced.length = c.required.length) (amount : List Var → Int) (none : amount [] = 0)
    (required : ∀ (i : Nat) (r : Int), c.required[i]? = some r → r ≤ amount (c.produced.take (i + 1))) :
    c.total ≤ amount c.produced := by
  unfold total
  cases hlast : c.required.getLast? with
  | none =>
    have : c.produced = [] := by
      rw [List.getLast?_eq_none_iff] at hlast
      rw [hlast] at fits
      exact List.eq_nil_of_length_eq_zero fits
    rw [this, none]
    exact Int.le_refl _
  | some r =>
    rw [List.getLast?_eq_getElem?] at hlast
    have := required _ r hlast
    have hlt := (List.getElem?_eq_some_iff.mp hlast).1
    rwa [List.take_of_length_le (by rw [fits]; omega)] at this

section
variable {s : Store} {a : Assignment} {vs : List Var}
  (hv : ∀ v ∈ vs, (a v = 0 ∨ a v = 1) ∧ ∀ x, s.fixed? v = some x → a v = x)
include hv

/-- **What is fixed and what is open bound what is produced.** -/
theorem sum_bounds : certain s vs ≤ sumInt (vs.map a) ∧
    sumInt (vs.map a) ≤ certain s vs + unfixed s vs := by
  induction vs with
  | nil => exact ⟨Int.le_refl _, Int.le_refl _⟩
  | cons v vs ih =>
    obtain ⟨least, most⟩ := ih fun w hw => hv w (List.mem_cons_of_mem v hw)
    obtain ⟨binary, fixed⟩ := hv v List.mem_cons_self
    simp only [certain, unfixed, List.map_cons, sumInt] at least most ⊢
    cases hf : s.fixed? v with
    | none => simp only [reduceCtorEq, if_false, if_true]; omega
    | some x =>
      have := fixed x hf
      simp only [Option.some.injEq, reduceCtorEq, if_false]
      split <;> omega

/-- If no less is produced than possible, everything open is produced. -/
theorem eq_one_of_le (h : certain s vs + unfixed s vs ≤ sumInt (vs.map a)) :
    ∀ v ∈ vs, s.fixed? v = none → a v = 1 := by
  induction vs with
  | nil => exact fun v hv => by cases hv
  | cons v vs ih =>
    have rest := fun w hw => hv w (List.mem_cons_of_mem v hw)
    obtain ⟨-, most⟩ := sum_bounds rest
    obtain ⟨binary, fixed⟩ := hv v List.mem_cons_self
    simp only [certain, unfixed, List.map_cons, sumInt] at h most ih
    have here : (if s.fixed? v = some 1 then 1 else 0) + (if s.fixed? v = none then 1 else 0) ≥ a v := by
      cases hf : s.fixed? v with
      | none => simp only [reduceCtorEq, if_false, if_true]; omega
      | some x =>
        have := fixed x hf
        simp only [Option.some.injEq, reduceCtorEq, if_false]
        split <;> omega
    intro w hw hopen
    rcases List.mem_cons.mp hw with rfl | hw
    · simp only [hopen, reduceCtorEq, if_false, if_true] at h here
      omega
    · exact ih rest (by omega) w hw hopen

/-- If no more is produced than certain, nothing open is produced. -/
theorem eq_zero_of_le (h : sumInt (vs.map a) ≤ certain s vs) :
    ∀ v ∈ vs, s.fixed? v = none → a v = 0 := by
  induction vs with
  | nil => exact fun v hv => by cases hv
  | cons v vs ih =>
    have rest := fun w hw => hv w (List.mem_cons_of_mem v hw)
    obtain ⟨least, -⟩ := sum_bounds rest
    obtain ⟨binary, fixed⟩ := hv v List.mem_cons_self
    simp only [certain, List.map_cons, sumInt] at h least ih
    have here : (if s.fixed? v = some 1 then 1 else 0) ≤ a v := by
      cases hf : s.fixed? v with
      | none => simp only [reduceCtorEq, if_false]; omega
      | some x =>
        have := fixed x hf
        simp only [Option.some.injEq]
        split <;> omega
    intro w hw hopen
    rcases List.mem_cons.mp hw with rfl | hw
    · simp only [hopen, reduceCtorEq, if_false] at h here
      omega
    · exact ih rest (by omega) w hw hopen

end
/-! ## What is found tight -/

section
variable {s : Store} {t : Tight} {i : Nat}

/-- What is required can be met by every period, and what is certain behind it is not too much; before the
first period nothing is required. -/
structure Met (c : CumulativeProduction) (s : Store) : Prop where
  before : ∀ (i : Nat) (r : Int), c.required[i]? = some r →
    r ≤ certain s (c.produced.take (i + 1)) + unfixed s (c.produced.take (i + 1))
  after : ∀ (k : Nat) (r : Int), (0 :: c.required)[k]? = some r →
    certain s (c.produced.drop k) ≤ c.total - r

/-- What is found tight in the first `n` periods is, and nothing else is. -/
structure Found (c : CumulativeProduction) (s : Store) (n : Nat) (t : Tight) : Prop where
  before : ∀ (i : Nat) (r : Int), i < n → c.required[i]? = some r →
    r ≤ certain s (c.produced.take (i + 1)) + unfixed s (c.produced.take (i + 1))
  after : ∀ (i : Nat) (r : Int), i < n → c.required[i]? = some r →
    certain s (c.produced.drop (i + 1)) ≤ c.total - r
  produced : t.produceBefore = 0 ∨ ∃ (i : Nat) (r : Int), t.produceBefore = i + 1 ∧
    c.required[i]? = some r ∧ certain s (c.produced.take (i + 1)) + unfixed s (c.produced.take (i + 1)) = r
  produce : ∀ (i : Nat) (r : Int), i < n → c.required[i]? = some r →
    certain s (c.produced.take (i + 1)) + unfixed s (c.produced.take (i + 1)) = r →
    0 < unfixed s (c.produced.take (i + 1)) → i + 1 ≤ t.produceBefore
  idled : ∀ k, t.idleFrom = some k → k ≤ n ∧ ∃ r : Int, (0 :: c.required)[k]? = some r ∧
    certain s (c.produced.drop k) = c.total - r
  idle : ∀ (i : Nat) (r : Int), i < n → c.required[i]? = some r →
    certain s (c.produced.drop (i + 1)) = c.total - r → ∃ k ≤ i + 1, t.idleFrom = some k

theorem found_start : Found c s 0 {} where
  before _ _ hi := absurd hi (Nat.not_lt_zero _)
  after _ _ hi := absurd hi (Nat.not_lt_zero _)
  produced := .inl rfl
  produce _ _ hi := absurd hi (Nat.not_lt_zero _)
  idled _ hk := by cases hk
  idle _ _ hi := absurd hi (Nat.not_lt_zero _)

/-- What holds of the periods up to one holds of those before it and of the one. -/
theorem forall_lt_succ {P : Nat → Int → Prop} {n : Nat} {r : Int} (hr : c.required[n]? = some r)
    (before : ∀ i r, i < n → c.required[i]? = some r → P i r) (here : P n r) (i : Nat) (r' : Int)
    (hi : i < n + 1) (hr' : c.required[i]? = some r') : P i r' := by
  rcases Nat.lt_succ_iff_lt_or_eq.mp hi with lt | rfl
  · exact before i r' lt hr'
  · obtain rfl := Option.some.inj (hr.symm.trans hr')
    exact here

/-- What is required can be met only if it is neither negative nor more than there are periods. -/
theorem Met.total_bounds (h : c.Met s) (fits : c.produced.length = c.required.length) :
    0 ≤ c.total ∧ c.total ≤ c.produced.length := by
  have least : certain s c.produced ≤ c.total - 0 := h.after 0 0 rfl
  have most := total_le fits (fun vs => certain s vs + unfixed s vs) rfl h.before
  have := certain_nonneg s c.produced
  have := certain_add_unfixed_le s c.produced
  omega

/-- The look at another period. -/
theorem tighten_found (exact : ∀ r ∈ c.required, Word.Fits (c.total - r)) {n : Count} {r : Int}
    (hn : (counts ⟨0, 0⟩ (c.produced.map s.fixed?))[i]? = some n) (hr : c.required[i]? = some r)
    (found : Found c s i t) :
    (∀ t', tighten c.total (certain s c.produced) t i n r = .ok t' → Found c s (i + 1) t') ∧
    ∀ e, tighten c.total (certain s c.produced) t i n r = .error e → ¬ c.Met s := by
  rw [getElem?_counts] at hn
  split at hn
  case isFalse => cases hn
  obtain rfl := Option.some.inj hn
  have parts := certain_append s (c.produced.take (i + 1)) (c.produced.drop (i + 1))
  rw [List.take_append_drop] at parts
  unfold tighten
  rw [allowed, Word.integer_eq_self (exact r (List.mem_of_getElem? hr))]
  dsimp only
  simp only [Int.zero_add]
  split
  · refine ⟨fun _ h => (by cases h), fun _ _ met => ?_⟩
    have := met.before i r hr
    omega
  · split
    · refine ⟨fun _ h => (by cases h), fun _ _ met => ?_⟩
      have := met.after (i + 1) r hr
      omega
    · refine ⟨fun t' ht' => ?_, fun _ h => by cases h⟩
      cases ht'
      refine ⟨forall_lt_succ hr found.before (by omega), forall_lt_succ hr found.after (by omega), ?_,
        forall_lt_succ hr (fun j r' hj hr' tight pos => ?_) fun tight pos => ?_, fun k hk => ?_,
        forall_lt_succ hr (fun j r' hj hr' tight => ?_) fun tight => ?_⟩
      · dsimp only
        split
        · rename_i tight
          exact .inr ⟨i, r, rfl, hr, tight.1⟩
        · exact found.produced
      · have := found.produce j r' hj hr' tight pos
        dsimp only
        split <;> omega
      · dsimp only
        exact Nat.le_of_eq (if_pos ⟨tight, pos⟩).symm
      · dsimp only at hk
        split at hk
        · cases hk
          exact ⟨Nat.le_refl _, r, hr, by omega⟩
        · obtain ⟨le, exact'⟩ := found.idled k hk
          exact ⟨Nat.le_succ_of_le le, exact'⟩
      · obtain ⟨k, hk, known⟩ := found.idle j r' hj hr' tight
        refine ⟨k, hk, ?_⟩
        dsimp only
        rw [if_neg (by rw [known]; simp)]
        exact known
      · -- an earlier period that is tight comes first
        dsimp only
        cases hidle : t.idleFrom with
        | none => exact ⟨i + 1, Nat.le_refl _, by rw [if_pos ⟨by omega, rfl⟩]⟩
        | some k => exact ⟨k, Nat.le_succ_of_le (found.idled k hidle).1, by simp⟩

section
variable (fits : c.produced.length = c.required.length)
include fits

/-- What the look at every period keeps, the look at all periods keeps. -/
theorem tighten_all {I : Nat → Tight → Prop} {E : Prop} (start : I 0 {})
    (step : ∀ i n r t, (counts ⟨0, 0⟩ (c.produced.map s.fixed?))[i]? = some n → c.required[i]? = some r → I i t →
      (∀ t', tighten c.total (certain s c.produced) t i n r = .ok t' → I (i + 1) t') ∧
      ∀ e, tighten c.total (certain s c.produced) t i n r = .error e → E) :
    (∀ t, ((counts ⟨0, 0⟩ (c.produced.map s.fixed?)).zip c.required).zipIdx.foldlM (fun t x =>
        tighten c.total (certain s c.produced) t x.2 x.1.1 x.1.2) {} = .ok t → I c.produced.length t) ∧
    ∀ e, ((counts ⟨0, 0⟩ (c.produced.map s.fixed?)).zip c.required).zipIdx.foldlM (fun t x =>
        tighten c.total (certain s c.produced) t x.2 x.1.1 x.1.2) {} = .error e → E := by
  have length : ((counts ⟨0, 0⟩ (c.produced.map s.fixed?)).zip c.required).zipIdx.length =
      c.produced.length := by
    rw [List.length_zipIdx, List.length_zip, length_counts, List.length_map, ← fits, Nat.min_self]
  have looked {before rest : List ((Count × Int) × Nat)} {x : (Count × Int) × Nat}
      (split : ((counts ⟨0, 0⟩ (c.produced.map s.fixed?)).zip c.required).zipIdx = before ++ x :: rest) :
      before.length = x.2 ∧ (counts ⟨0, 0⟩ (c.produced.map s.fixed?))[x.2]? = some x.1.1 ∧
        c.required[x.2]? = some x.1.2 := by
    have at' : ((counts ⟨0, 0⟩ (c.produced.map s.fixed?)).zip c.required).zipIdx[before.length]? = some x := by
      rw [split]
      simp
    rw [List.getElem?_zipIdx] at at'
    obtain ⟨y, hy, rfl⟩ := Option.map_eq_some_iff.mp at'
    rw [Nat.zero_add]
    exact ⟨rfl, List.getElem?_zip_eq_some.mp hy⟩
  have fold := foldlM_except
    (l := ((counts ⟨0, 0⟩ (c.produced.map s.fixed?)).zip c.required).zipIdx)
    (f := fun t x => tighten c.total (certain s c.produced) t x.2 x.1.1 x.1.2)
    (I := fun before t => I before.length t) (E := fun _ => E) (b := {}) ?_ ?_ start
  · rwa [length] at fold
  · intro before x rest split t t' ht hx
    obtain ⟨here, hn, hr⟩ := looked split
    rw [here] at ht
    rw [List.length_append, List.length_singleton, here]
    exact (step _ _ _ t hn hr ht).1 t' hx
  · intro before x rest split t e ht hx
    obtain ⟨here, hn, hr⟩ := looked split
    rw [here] at ht
    exact (step _ _ _ t hn hr ht).2 e hx

/-- What is required by every period can be met, whatever else is found. -/
theorem le_of_tighten_all {t : Tight} (h : ((counts ⟨0, 0⟩ (c.produced.map s.fixed?)).zip c.required).zipIdx.foldlM
      (fun t x => tighten c.total (certain s c.produced) t x.2 x.1.1 x.1.2) {} = .ok t) (r : Int)
    (hr : c.required[i]? = some r) :
    r ≤ certain s (c.produced.take (i + 1)) + unfixed s (c.produced.take (i + 1)) := by
  have all := tighten_all (s := s) (E := True) fits
    (I := fun n _ => ∀ i r, i < n → c.required[i]? = some r →
      r ≤ certain s (c.produced.take (i + 1)) + unfixed s (c.produced.take (i + 1)))
    (fun _ _ hi => absurd hi (Nat.not_lt_zero _)) fun i n r t hn hr before =>
      ⟨fun t' ht' => forall_lt_succ hr before ?_, fun _ _ => trivial⟩
  · exact all.1 t h i r (fits ▸ (List.getElem?_eq_some_iff.mp hr).1) hr
  · rw [getElem?_counts] at hn
    split at hn
    case isFalse => cases hn
    obtain rfl := Option.some.inj hn
    unfold tighten at ht'
    simp only [Int.zero_add] at ht'
    split at ht'
    · cases ht'
    · omega

end

/-- What is tight in the end. -/
structure Tightened (c : CumulativeProduction) (s : Store) (t : Tight) : Prop where
  met : c.Met s
  produced : t.produceBefore = 0 ∨ ∃ (i : Nat) (r : Int), t.produceBefore = i + 1 ∧
    c.required[i]? = some r ∧ certain s (c.produced.take (i + 1)) + unfixed s (c.produced.take (i + 1)) = r
  produce : ∀ (i : Nat) (r : Int), c.required[i]? = some r →
    certain s (c.produced.take (i + 1)) + unfixed s (c.produced.take (i + 1)) = r →
    0 < unfixed s (c.produced.take (i + 1)) → i + 1 ≤ t.produceBefore
  idled : ∀ k, t.idleFrom = some k → ∃ r : Int, (0 :: c.required)[k]? = some r ∧
    certain s (c.produced.drop k) = c.total - r
  idle : ∀ (k : Nat) (r : Int), (0 :: c.required)[k]? = some r →
    certain s (c.produced.drop k) = c.total - r → ∃ j ≤ k, t.idleFrom = some j

theorem Found.met (found : Found c s c.produced.length t) (fits : c.produced.length = c.required.length)
    (most : certain s c.produced ≤ c.total) : c.Met s where
  before i r hr := found.before i r (fits ▸ (List.getElem?_eq_some_iff.mp hr).1) hr
  after k r hr := by
    cases k with
    | zero =>
      cases hr
      rw [List.drop_zero]
      omega
    | succ i =>
      rw [List.getElem?_cons_succ] at hr
      exact found.after i r (fits ▸ (List.getElem?_eq_some_iff.mp hr).1) hr

/-- After the last period only the time before the first is left to be looked at: if all that is required is
certain, every period that is open is idle. -/
theorem Found.tightened (found : Found c s c.produced.length t) (fits : c.produced.length = c.required.length)
    (most : certain s c.produced ≤ c.total) :
    Tightened c s (if certain s c.produced = c.total then { t with idleFrom := some 0 } else t) := by
  have inside {i : Nat} {r : Int} (hr : c.required[i]? = some r) : i < c.produced.length :=
    fits ▸ (List.getElem?_eq_some_iff.mp hr).1
  have met := found.met fits most
  split
  · rename_i all
    refine ⟨met, found.produced, fun i r hr => found.produce i r (inside hr) hr, fun k hk => ?_,
      fun k _ _ _ => ⟨0, Nat.zero_le k, rfl⟩⟩
    cases hk
    exact ⟨0, rfl, by rw [List.drop_zero]; omega⟩
  · rename_i notAll
    refine ⟨met, found.produced, fun i r hr => found.produce i r (inside hr) hr,
      fun k hk => (found.idled k hk).2, fun k r hr tight => ?_⟩
    cases k with
    | zero =>
      cases hr
      rw [List.drop_zero] at tight
      omega
    | succ i => exact found.idle i r (inside hr) hr tight

theorem tight_eq : c.tight (c.produced.map s.fixed?) =
    (((counts ⟨0, 0⟩ (c.produced.map s.fixed?)).zip c.required).zipIdx.foldlM (fun t x =>
      tighten c.total (certain s c.produced) t x.2 x.1.1 x.1.2) {}).bind fun t =>
    if c.total < certain s c.produced then .error .overProduction
    else if certain s c.produced = c.total then .ok { t with idleFrom := some 0 }
    else .ok t := by
  rw [← produced_eq]
  rfl

/-- What is found tight is so only where what is required altogether can be met. -/
theorem total_bounds_of_tight (fits : c.produced.length = c.required.length) {t : Tight}
    (h : c.tight (c.produced.map s.fixed?) = .ok t) : 0 ≤ c.total ∧ c.total ≤ c.produced.length := by
  rw [tight_eq] at h
  have before := fun t h i r => le_of_tighten_all (s := s) fits (t := t) h r (i := i)
  generalize ((counts ⟨0, 0⟩ (c.produced.map s.fixed?)).zip c.required).zipIdx.foldlM (fun t x =>
    tighten c.total (certain s c.produced) t x.2 x.1.1 x.1.2) {} = looked at before h
  cases looked with
  | error e => cases h
  | ok t' =>
    have most := total_le fits (fun vs => certain s vs + unfixed s vs) rfl fun i r => before t' rfl i r
    have := certain_nonneg s c.produced
    have := certain_add_unfixed_le s c.produced
    simp only [Except.bind] at h
    split at h
    · cases h
    · omega

/-- **What is tight is found, and only what cannot be met is refuted.** -/
theorem tight_found (fits : c.produced.length = c.required.length) (exact : c.Exact) :
    (∀ t, c.tight (c.produced.map s.fixed?) = .ok t → Tightened c s t) ∧
    ∀ e, c.tight (c.produced.map s.fixed?) = .error e → ¬ c.Met s := by
  by_cases meetable : 0 ≤ c.total ∧ c.total ≤ c.produced.length
  case neg =>
    exact ⟨fun t ht => absurd (total_bounds_of_tight fits ht) meetable,
      fun _ _ met => absurd (met.total_bounds fits) meetable⟩
  rw [tight_eq]
  obtain ⟨ok, error⟩ := tighten_all (s := s) fits found_start fun i n r t hn hr =>
    tighten_found (exact meetable.1 meetable.2) hn hr
  generalize ((counts ⟨0, 0⟩ (c.produced.map s.fixed?)).zip c.required).zipIdx.foldlM (fun t x =>
    tighten c.total (certain s c.produced) t x.2 x.1.1 x.1.2) {} = looked at ok error ⊢
  cases looked with
  | error e => exact ⟨fun _ h => (by cases h), fun _ _ => error e rfl⟩
  | ok t =>
    simp only [Except.bind]
    split
    · refine ⟨fun _ h => (by cases h), fun _ _ met => ?_⟩
      have : certain s c.produced ≤ c.total - 0 := met.after 0 0 rfl
      omega
    · rename_i most
      have tightened := (ok t rfl).tightened fits (Int.not_lt.mp most)
      split
      · rename_i all
        rw [if_pos all] at tightened
        exact ⟨fun t' ht' => by cases ht'; exact tightened, fun _ h => by cases h⟩
      · rename_i notAll
        rw [if_neg notAll] at tightened
        exact ⟨fun t' ht' => by cases ht'; exact tightened, fun _ h => by cases h⟩

end

/-! ## What is left no choice -/

/-- What is found tight leaves the open indicators no choice. -/
structure Sound (c : CumulativeProduction) (s : Store) (t : Tight) : Prop where
  produce : ∀ a, c.Holds a → s.Admits a → ∀ (i : Nat) (v : Var), i < t.produceBefore →
    c.produced[i]? = some v → s.fixed? v = none → a v = 1
  idle : ∀ a, c.Holds a → s.Admits a → ∀ k : Nat, t.idleFrom = some k → ∀ (i : Nat) (v : Var), k ≤ i →
    c.produced[i]? = some v → s.fixed? v = none → a v = 0

section
variable {a : Assignment} (h : c.Holds a)
include h

theorem Holds.sum_take_add_sum_drop (k : Nat) :
    sumInt ((c.produced.take k).map a) + sumInt ((c.produced.drop k).map a) = c.total := by
  rw [← h.total_eq, ← sumInt_append, ← List.map_append, List.take_append_drop]

/-- What is required by a period is produced by then; before the first period nothing is required. -/
theorem Holds.le_sum_take {k : Nat} {r : Int} (hr : (0 :: c.required)[k]? = some r) :
    r ≤ sumInt ((c.produced.take k).map a) := by
  cases k with
  | zero =>
    cases hr
    exact Int.le_refl _
  | succ i => exact h.required_le i r hr

end

section
variable {s : Store} (base : c.Base s)
include base

theorem Base.agrees {a : Assignment} (ha : s.Admits a) {vs : List Var} (sub : vs ⊆ c.produced) :
    ∀ v ∈ vs, (a v = 0 ∨ a v = 1) ∧ ∀ x, s.fixed? v = some x → a v = x := by
  intro v hv
  have inside := ha v (base.known v (sub hv))
  exact ⟨base.indicators v (sub hv) _ inside, fun x hx => Store.eq_of_fixed? hx inside⟩

/-- Where an assignment is left, what is required can be met. -/
theorem Base.met {a : Assignment} (hadm : s.Admits a) (ha : c.Holds a) : c.Met s where
  before i r hr := Int.le_trans (ha.required_le i r hr)
    (sum_bounds (base.agrees hadm (List.take_subset (i + 1) c.produced))).2
  after k r hr := by
    have least := (sum_bounds (base.agrees hadm (List.drop_subset k c.produced))).1
    have := ha.le_sum_take hr
    have := ha.sum_take_add_sum_drop k
    omega

/-- **What is tight leaves no choice**: a bound on what is produced is reached there. -/
theorem Tightened.sound {t : Tight} (h : Tightened c s t) : Sound c s t where
  produce a ha hadm i v hi hv hopen := by
    rcases h.produced with none | ⟨j, r, before, hr, tight⟩
    · omega
    · have agrees := base.agrees hadm (List.take_subset (j + 1) c.produced)
      refine eq_one_of_le agrees (tight ▸ ha.required_le j r hr) v ?_ hopen
      exact List.mem_of_getElem? ((List.getElem?_take_of_lt (before ▸ hi)).trans hv)
  idle a ha hadm k hk i v hi hv hopen := by
    obtain ⟨r, hr, tight⟩ := h.idled k hk
    have agrees := base.agrees hadm (List.drop_subset k c.produced)
    have := ha.le_sum_take hr
    have := ha.sum_take_add_sum_drop k
    refine eq_zero_of_le agrees (by omega) v ?_ hopen
    refine List.mem_of_getElem? (i := i - k) ?_
    rw [List.getElem?_drop, Nat.add_sub_cancel' hi]
    exact hv

/-- **What is tight leaves no choice, and only a requirement that cannot be met is refuted.** -/
theorem tight_spec :
    (∀ t, c.tight (c.produced.map s.fixed?) = .ok t → Sound c s t ∧
      (∀ (i : Nat) (r : Int), c.required[i]? = some r →
        r ≤ certain s (c.produced.take (i + 1)) + unfixed s (c.produced.take (i + 1))) ∧
      certain s c.produced ≤ c.total) ∧
    ∀ e, c.tight (c.produced.map s.fixed?) = .error e → ∀ a, c.Holds a → ¬ s.Admits a := by
  obtain ⟨found, refuted⟩ := tight_found (s := s) base.fits base.exact
  refine ⟨fun t ht => ?_, fun e he a ha hadm => refuted e he (base.met hadm ha)⟩
  have tightened := found t ht
  have most : certain s c.produced ≤ c.total - 0 := tightened.met.after 0 0 rfl
  exact ⟨tightened.sound base, tightened.met.before, by omega⟩

end

/-! ## The filter -/

section
variable {B : Prop} {s : Space}

/-- An open indicator is narrowed to what it is left no choice about. -/
theorem filters_settle {narrowing : Filter Bool} {v : Var}
    (h : s.store.fixed? v = none →
      Filter.Filters Filter.noCells (Granted B c.Holds) B narrowing s True) :
    Filter.Filters Filter.noCells (Granted B c.Holds) B (settle narrowing v) s True := by
  unfold settle
  rw [Filter.filters_read]
  split
  · exact Filter.filters_pure trivial
  · rename_i hopen
    exact h (Store.fixed?_eq_none_iff.mpr (by simpa using hopen))

/-- When everything is fixed, what is certain is what is produced. -/
theorem Base.holds {s : Store} (base : c.Base s) (hs : s.Valid)
    (fixed : ∀ v ∈ c.produced, s.isFixed v = true)
    (met : ∀ (i : Nat) (r : Int), c.required[i]? = some r →
      r ≤ certain s (c.produced.take (i + 1)) + unfixed s (c.produced.take (i + 1)))
    (most : certain s c.produced ≤ c.total) : c.Holds s.lower := by
  have agrees {vs : List Var} (sub : vs ⊆ c.produced) :
      ∀ v ∈ vs, (s.lower v = 0 ∨ s.lower v = 1) ∧ ∀ x, s.fixed? v = some x → s.lower v = x :=
    fun v hv => ⟨base.indicators v (sub hv) _ (hs.contains_lower v),
      fun x hx => (Store.fixed?_eq_some_iff.mp hx).1⟩
  have none {vs : List Var} (sub : vs ⊆ c.produced) : unfixed s vs = 0 := by
    unfold unfixed
    induction vs with
    | nil => rfl
    | cons v vs ih =>
      have := fixed v (sub List.mem_cons_self)
      have open' : s.fixed? v ≠ none := fun h => by
        rw [Store.fixed?_eq_none_iff] at h
        exact absurd (this.symm.trans h) (by simp)
      simp only [List.map_cons, sumInt, if_neg open', ih fun w hw => sub (List.mem_cons_of_mem v hw)]
      rfl
  have sum {vs : List Var} (sub : vs ⊆ c.produced) : sumInt (vs.map s.lower) = certain s vs := by
    have := sum_bounds (agrees sub)
    have := none sub
    omega
  have required (i : Nat) (r : Int) (hr : c.required[i]? = some r) :
      r ≤ sumInt ((c.produced.take (i + 1)).map s.lower) := by
    have := met i r hr
    rw [sum (List.take_subset _ _)]
    rw [none (List.take_subset _ _)] at this
    omega
  refine ⟨required, Int.le_antisymm ?_ ?_⟩
  · rw [sum (List.Subset.refl _)]
    exact most
  · exact total_le base.fits (fun vs => sumInt (vs.map s.lower)) rfl required

variable (hs : s.Valid) (base : B → c.Base s.store)
include hs base

theorem filters_pass :
    Filter.Filters Filter.noCells (Granted B c.Holds) B c.pass s
      (B → (∀ v ∈ c.produced, s.store.isFixed v = true) → c.Holds s.store.lower) := by
  have opened {t : Space} {v : Var} (ht : s.Narrows Filter.noCells t)
      (h : t.store.fixed? v = none) : s.store.fixed? v = none := by
    cases hv : s.store.fixed? v with
    | none => rfl
    | some x => exact absurd ((ht.store.fixed? hs.store hv).symm.trans h) (by simp)
  have known {t : Space} {v : Var} (ht : s.Narrows Filter.noCells t) (hv : v ∈ c.produced) (hB : B) :
      v < t.store.numVars := ht.store.numVars_eq ▸ (base hB).known v hv
  unfold pass
  rw [Filter.filters_read]
  split
  · rename_i cause htight
    exact Filter.filters_refute fun a ha hadm =>
      (tight_spec (base ha.1)).2 _ htight a ha.2 hadm
  · rename_i t htight
    have spec (hB : B) := (tight_spec (base hB)).1 t htight
    rw [Filter.inTurn_pair]
    refine (Filter.filters_andThen (P := True) (Q := fun _ => True) ?_ fun u hu => ?_).mono
      fun _ hB fixed => (base hB).holds hs.store fixed (spec hB).2.1 (spec hB).2.2
    · refine (Filter.filters_each fun v hv u hu => filters_settle fun hopen => ?_).mono
        fun _ => trivial
      obtain ⟨i, hi⟩ := List.mem_iff_getElem?.mp hv
      rw [List.getElem?_take] at hi
      split at hi
      case isFalse => cases hi
      rename_i hlt
      refine (Filter.filters_setLower (hu.valid hs) (known hu (List.mem_of_getElem? hi))
        fun a ha hadm => ?_).mono fun _ => trivial
      exact Int.le_of_eq ((spec ha.1).1.produce a ha.2 (hu.store.admits hs.store hadm) i v hlt hi
        (opened hu hopen)).symm
    · cases hidle : t.idleFrom with
      | none => exact Filter.filters_pure trivial
      | some k =>
        refine (Filter.filters_each fun v hv w hw => filters_settle fun hopen => ?_).mono
          fun _ => trivial
        obtain ⟨i, hi⟩ := List.mem_iff_getElem?.mp hv
        have hi' : c.produced[k + i]? = some v := by
          rw [← List.getElem?_drop]
          exact hi
        have hsw := hu.trans hw
        refine (Filter.filters_setUpper (hsw.valid hs) (known hsw (List.mem_of_getElem? hi'))
          fun a ha hadm => ?_).mono fun _ => trivial
        exact Int.le_of_eq ((spec ha.1).1.idle a ha.2 (hsw.store.admits hs.store hadm) k hidle
          (k + i) v (Nat.le_add_right k i) hi' (opened hsw hopen))

end

/-- **Cumulative production as a rule.** -/
def rule (c : CumulativeProduction) : Rule where
  watches := c.watches
  filter := c.filter
  Base := c.Base
  Spec s := (∀ v ∈ c.produced, s.isFixed v = true) → c.Holds s.lower
  Holds := c.Holds
  base_congr := ⟨fun h => ⟨h.1, h.2, h.3, h.4⟩, fun h => ⟨h.1, h.2, h.3, h.4⟩⟩
  spec_congr := Iff.rfl
  base_narrows h hs hn := h.narrows hs hn
  spec_told {s t new} _ h hs hn told away fixed := by
    have before (v : Var) (hv : v ∈ c.produced) :=
      away.of_isFixed told hn hs (List.mem_map_of_mem (f := fun v => (v, [Event.assign])) hv)
        (fixed v hv)
    have same {vs : List Var} (sub : vs ⊆ c.produced) : vs.map t.lower = vs.map s.lower :=
      List.map_congr_left fun v hv => (before v (sub hv)).2
    obtain ⟨required_le, total_eq⟩ := h fun v hv => (before v hv).1
    refine ⟨fun i r hr => ?_, ?_⟩
    · rw [same (List.take_subset _ _)]
      exact required_le i r hr
    · rw [same (List.Subset.refl _)]
      exact total_eq
  filtered {s} hs := Filter.ends_untilStable fun _ ht =>
    (filters_pass (ht.valid hs) fun hB => Base.narrows hB hs.store ht.store).mono fun h => h

/-- **Cumulative production is idempotent**: all that is read is which indicators are fixed, and that is
watched. -/
theorem idempotent (c : CumulativeProduction) : c.rule.Idempotent fun _ => True := by
  refine Rule.idempotent_of_pass c.pass rfl (fun _ _ _ => trivial) (fun _ _ => trivial)
    (fun s hs => ⟨_, False, _, filters_pass hs fun h => h.elim⟩) fun s t hs ht _ _ unnoticed => ?_
  have watched {v : Var} (hv : v ∈ c.produced) : (v, [Event.assign]) ∈ c.watches :=
    List.mem_map_of_mem (f := fun v => (v, [Event.assign])) hv
  have settled {v : Var} (hv : v ∈ c.produced) {narrowing : Filter Bool}
      (h : Filter.Persists Filter.Unchanged narrowing s t) :
      Filter.Persists Filter.Unchanged (settle narrowing v) s t := by
    refine Filter.persists_read (unnoticed.isFixed_eq (watched hv)) ?_
    split
    · exact Filter.persists_pure
    · exact h
  unfold pass
  refine Filter.persists_read (List.map_congr_left fun v hv => unnoticed.fixed?_eq v (watched hv)) ?_
  split
  · exact Filter.persists_refute
  · rename_i tight _
    refine Filter.persists_pair ?_ ?_
    · refine Filter.persists_each fun v hv => settled (List.mem_of_mem_take hv) ?_
      exact Filter.persists_setLower unnoticed.numVars_eq fun le =>
        Int.le_trans le (unnoticed.lower_le ht.store v)
    · refine Filter.persists_each fun v hv => settled ?_ ?_
      · cases hidle : tight.idleFrom with
        | none =>
          rw [hidle] at hv
          cases hv
        | some k =>
          rw [hidle] at hv
          exact List.mem_of_mem_drop hv
      · exact Filter.persists_setUpper unnoticed.numVars_eq fun le =>
          Int.le_trans (unnoticed.upper_le ht.store v) le

end CumulativeProduction
end BranchBound
