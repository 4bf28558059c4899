import BranchBound.Proofs.Store.Reachable
import Mathlib.Data.Set.Insert

/-! # Narrowing is intersection

Each of the five operations names a set of integers (`Restriction.target`), and **it intersects the values of its
variable with this set** (`Store.Intersected`).  If nothing would be left it is refused, and the store is what it
was.

What is told of the change can be read off the domain before and after (`Domain.report`): a bound that moved, a
value between the bounds that was removed, and last that a single value is left.  A single change is reported like
this (`Shrinks.report_eq`), and so are two changes of which the first raises the lower bound and the second cuts the
upper one (`Step.reported_both`), **as the first does not leave a single value if there is more to cut**.

Propagators pass on larger integers than there are values.  They are compared with the bounds before they are cut to
a word, so nothing of them is lost (`Restriction.inContext_eq`). -/
namespace BranchBound

/-! ## What is told of a change -/

namespace Domain
variable {d d' : Domain} {e : Event}

/-- What is told of a domain that became another. -/
def report (d d' : Domain) : List Event :=
  (if d'.lower ≠ d.lower then [.lowerBound] else []) ++ (if d'.upper ≠ d.upper then [.upperBound] else []) ++
    (if d'.values ≠ d.values ∧ d'.lower = d.lower ∧ d'.upper = d.upper then [.removal] else []) ++
    (if d.isFixed = false ∧ d'.isFixed = true then [.assign] else [])

theorem report_self (d : Domain) : d.report d = [] := by
  cases h : d.isFixed <;> simp [report, h]

theorem nodup_report (d d' : Domain) : (d.report d').Nodup := by
  unfold report
  split <;> split <;> split <;> split <;> decide

@[simp] theorem lowerBound_mem_report : .lowerBound ∈ d.report d' ↔ d'.lower ≠ d.lower := by
  simp [report]

@[simp] theorem upperBound_mem_report : .upperBound ∈ d.report d' ↔ d'.upper ≠ d.upper := by
  simp [report]

@[simp] theorem removal_mem_report :
    .removal ∈ d.report d' ↔ d'.values ≠ d.values ∧ d'.lower = d.lower ∧ d'.upper = d.upper := by
  simp [report]

@[simp] theorem assign_mem_report : .assign ∈ d.report d' ↔ d.isFixed = false ∧ d'.isFixed = true := by
  simp [report]

end Domain

/-- **A single change is told by its event**, and by one more if a single value is left. -/
theorem Shrinks.report_eq {v : Var} {d d' : Domain} {c : Change} {e : Event} (h : Shrinks v d d' c e)
    (hd : d.Valid) : d.report d' = e :: if d'.isFixed then [.assign] else [] := by
  have opened := h.not_isFixed
  cases h with
  | @raise b lt mem =>
    have moved : (d.raise b).lower ≠ d.lower := (Int.ne_of_lt lt).symm
    have same : (d.raise b).upper = d.upper := rfl
    simp [Domain.report, moved, same, opened]
  | @cut b lt mem =>
    have moved : (d.cut b).upper ≠ d.upper := Int.ne_of_lt lt
    have same : (d.cut b).lower = d.lower := rfl
    simp [Domain.report, moved, same, opened]
  | @drop x hx =>
    have lower : (d.drop x).lower = d.lower := rfl
    have upper : (d.drop x).upper = d.upper := rfl
    have gone : (d.drop x).values ≠ d.values := by
      intro same
      have inside := Domain.contains_iff.mpr ⟨Int.le_of_lt hx.lower_lt, Int.le_of_lt hx.lt_upper, hx.present⟩
      rw [← Domain.mem_values, ← same, Domain.mem_values, Domain.contains_drop hd hx] at inside
      exact inside.2 rfl
    simp [Domain.report, gone, lower, upper, opened]

namespace Store
variable {s t u : Store} {v w : Var} {d d' : Domain} {e : Event} {x : Int}

/-- The events that were added are those of one variable, and what is told of its domain. -/
def Reported (s : Store) (v : Var) (t : Store) : Prop :=
  t.pending = s.pending ++ ((s.domain v).report (t.domain v)).map (v, ·)

/-- At most one change of a domain, which is told by `e`. -/
inductive Step (s : Store) (v : Var) (e : Event) : Store → Prop
  | none : Step s v e s
  | one {d d' : Domain} {c : Change} (hd : s.domain? v = some d) (h : Shrinks v d d' c e) :
    Step s v e (s.record v d' c e)

theorem pending_record (d' : Domain) (c : Change) (e : Event) : (s.record v d' c e).pending =
    s.pending ++ (e :: if d'.isFixed then [.assign] else []).map (v, ·) := by
  unfold pending
  rw [events_record, List.reverse_append, eventsOf]
  cases d'.isFixed <;> rfl

theorem Step.reported (h : s.Step v e t) (hs : s.Valid) : s.Reported v t := by
  unfold Reported
  cases h with
  | none => rw [Domain.report_self, List.map_nil, List.append_nil]
  | one hd h => rw [domain_of hd, domain_of (domain?_record_self hd), h.report_eq (hs v _ hd), pending_record]

/-- **Both bounds are told, and then the single value**, which is not left by the first if there is a second. -/
theorem Step.reported_both (h : s.Step v .lowerBound t) (h' : t.Step v .upperBound u) (hs : s.Valid) :
    s.Reported v u := by
  cases h with
  | none => exact h'.reported hs
  | @one d d' c hd h =>
    cases h' with
    | none => exact (Step.one hd h).reported hs
    | @one e e' c' he h' =>
      obtain rfl : d' = e := Option.some.inj ((domain?_record_self hd).symm.trans he)
      have opened := h.not_isFixed
      have still := h'.not_isFixed
      have moved : e'.lower ≠ d.lower := by
        rw [h'.lower_eq (by decide)]
        cases h with
        | raise lt _ => exact (Int.ne_of_lt lt).symm
      have moved' : e'.upper ≠ d.upper := by
        rw [← h.upper_eq (by decide)]
        cases h' with
        | cut lt _ => exact Int.ne_of_lt lt
      unfold Reported
      rw [domain_of hd, domain_of (domain?_record_self he), pending_record, pending_record, List.append_assoc]
      refine congrArg (s.pending ++ ·) ?_
      simp [Domain.report, moved, moved', opened, still]

/-! ## The operations -/

theorem step_setLower :
    Ends (setLower v x s) (fun _ t => s.Step v .lowerBound t) (fun _ _ => True) := by
  refine ends_withDomain (fun _ => trivial) fun d hd => ?_
  split
  · exact .none
  · cases found : d.ceil x with
    | none => trivial
    | some b =>
      obtain ⟨le, mem, -⟩ := Domain.ceil_eq_some found (by omega)
      exact .one hd (.raise (by omega) mem)

theorem step_setUpper :
    Ends (setUpper v x s) (fun _ t => s.Step v .upperBound t) (fun _ _ => True) := by
  refine ends_withDomain (fun _ => trivial) fun d hd => ?_
  split
  · exact .none
  · cases found : d.floor x with
    | none => trivial
    | some b =>
      obtain ⟨le, mem, -⟩ := Domain.floor_eq_some found (by omega)
      exact .one hd (.cut (by omega) mem)

theorem reported_both {first last : Int} (hs : s.Valid) :
    Ends (both (setLower v first) (setUpper v last) s) (fun _ t => s.Reported v t) (fun _ _ => True) := by
  unfold both
  rw [ends_bind]
  refine step_setLower.mono (fun _ t step => ?_) fun _ _ _ => trivial
  rw [ends_bind]
  exact step_setUpper.mono (fun _ u step' => step.reported_both step' hs) fun _ _ _ => trivial

theorem reported_remove (hs : s.Valid) :
    Ends (remove v x s) (fun _ t => s.Reported v t) (fun _ _ => True) := by
  have same : s.Reported v s := (Step.none (e := .removal)).reported hs
  refine ends_withDomain (fun _ => trivial) fun d hd => ?_
  split
  · exact same
  · rename_i inside
    split
    · trivial
    · split
      · exact step_setLower.mono (fun _ t step => step.reported hs) fun _ _ _ => trivial
      · split
        · exact step_setUpper.mono (fun _ t step => step.reported hs) fun _ _ _ => trivial
        · split
          · rename_i holes
            obtain ⟨hl, hu, present⟩ := Domain.contains_iff.mp (by simpa using inside)
            exact (Step.one hd (.drop ⟨by omega, by omega, present, holes⟩)).reported hs
          · exact same

theorem reported_assign (hs : s.Valid) :
    Ends (assign v x s) (fun _ t => s.Reported v t) (fun _ _ => True) := by
  refine ends_withDomain (fun _ => trivial) fun d hd => ?_
  split
  · exact reported_both hs
  · trivial

theorem reported_narrow {first last : Int} (hs : s.Valid) :
    Ends (narrow v first last s) (fun _ t => s.Reported v t) (fun _ _ => True) := by
  refine ends_withDomain (fun _ => trivial) fun d hd => ?_
  cases d.ceil (max first d.lower) with
  | none => trivial
  | some b =>
    dsimp only
    split
    · exact reported_both hs
    · trivial

end Store

/-- **Every operation reports what it has done.** -/
theorem Restriction.reported {s : Store} (hs : s.Valid) (r : Restriction) :
    Ends (r.narrowing s) (fun _ t => s.Reported r.var t) (fun _ _ => True) := by
  cases r with
  | setLower v x => exact Store.step_setLower.mono (fun _ t step => step.reported hs) fun _ _ _ => trivial
  | setUpper v x => exact Store.step_setUpper.mono (fun _ t step => step.reported hs) fun _ _ _ => trivial
  | remove v x => exact Store.reported_remove hs
  | assign v x => exact Store.reported_assign hs
  | narrow v first last => exact Store.reported_narrow hs

/-! ## Sets of values -/

namespace Store
variable {s t : Store} {v : Var}

/-- The values that a variable can still take. -/
def valueSet (s : Store) (v : Var) : Set Int := {x | s.contains v x = true}

theorem isFixed_iff_singleton (hs : s.Valid) : s.isFixed v = true ↔ ∃ x, s.valueSet v = {x} := by
  constructor
  · intro fixed
    refine ⟨s.lower v, Set.ext fun x => ⟨fun hx => ?_, ?_⟩⟩
    · exact eq_of_fixed? (isFixed_iff_fixed?.mp fixed) hx
    · rintro rfl
      exact hs.contains_lower v
  · rintro ⟨x, single⟩
    have lower : s.lower v ∈ s.valueSet v := hs.contains_lower v
    have upper : s.upper v ∈ s.valueSet v := hs.contains_upper v
    rw [single, Set.mem_singleton_iff] at lower upper
    exact isFixed_iff.mpr (lower.trans upper.symm)

theorem values_eq_iff (hs : s.Valid) (ht : t.Valid) :
    (t.domain v).values = (s.domain v).values ↔ t.valueSet v = s.valueSet v := by
  constructor
  · intro same
    refine Set.ext fun x => ?_
    change t.contains v x = true ↔ s.contains v x = true
    rw [contains, contains, ← Domain.mem_values, ← Domain.mem_values, same]
  · intro same
    exact congrArg Domain.View.values ((ht.domain v).view_eq (hs.domain v) fun x => Set.ext_iff.mp same x)

/-- The events that tell of a change of a variable. -/
structure Announced (s : Store) (v : Var) (new : List Event) (t : Store) : Prop where
  nodup : new.Nodup
  lowerBound : .lowerBound ∈ new ↔ t.lower v ≠ s.lower v
  upperBound : .upperBound ∈ new ↔ t.upper v ≠ s.upper v
  removal : .removal ∈ new ↔ t.valueSet v ≠ s.valueSet v ∧ t.lower v = s.lower v ∧ t.upper v = s.upper v
  assign : .assign ∈ new ↔ (¬ ∃ x, s.valueSet v = {x}) ∧ ∃ x, t.valueSet v = {x}

theorem announced_report (hs : s.Valid) (ht : t.Valid) :
    s.Announced v ((s.domain v).report (t.domain v)) t where
  nodup := Domain.nodup_report _ _
  lowerBound := Domain.lowerBound_mem_report
  upperBound := Domain.upperBound_mem_report
  removal := by
    rw [Domain.removal_mem_report, ne_eq, values_eq_iff hs ht]
    rfl
  assign := by
    rw [Domain.assign_mem_report, ← isFixed_iff_singleton hs, ← isFixed_iff_singleton ht, Bool.not_eq_true]
    rfl

/-- The values of a variable were intersected with a set, which was answered and told. -/
structure Intersected (s : Store) (v : Var) (keep : Set Int) (changed : Bool) (t : Store) : Prop where
  values : t.valueSet v = s.valueSet v ∩ keep
  changed_iff : changed = true ↔ t.valueSet v ≠ s.valueSet v
  others : ∀ w, w ≠ v → t.domain? w = s.domain? w
  announced : ∃ new : List Event, t.pending = s.pending ++ new.map (v, ·) ∧ s.Announced v new t

/-- A domain has changed if it has lost values. -/
theorem Narrowed.changed_iff {keep : Int → Prop} {changed : Bool} (h : s.Narrowed v keep changed t)
    (hs : s.Valid) : changed = true ↔ t.valueSet v ≠ s.valueSet v := by
  constructor
  · intro hc same
    have here (w : Var) (x : Int) : t.contains w x = true ↔ s.contains w x = true := by
      by_cases hw : w = v
      · rw [hw]
        exact Set.ext_iff.mp same x
      · rw [contains, contains, domain, h.others w hw, ← domain]
    have alike : t.Alike s := ⟨⟨h.narrows.numVars_eq, fun w x => (here w x).mpr⟩,
      ⟨h.narrows.numVars_eq.symm, fun w x => (here w x).mp⟩, h.narrows.width_eq⟩
    have := alike.numValues_eq (h.narrows.valid hs) hs
    have := h.changed_lt hc
    omega
  · intro differ
    by_contra hc
    rw [h.unchanged (Bool.not_eq_true _ ▸ hc)] at differ
    exact differ rfl

end Store

namespace Restriction
variable {s : Store} {r : Restriction} {y : Int}

/-- The set that it names; wide domains keep what is between their bounds. -/
def target : Restriction → Store → Set Int
  | .setLower _ x, _ => {y | x ≤ y}
  | .setUpper _ x, _ => {y | y ≤ x}
  | .remove v x, s =>
    {y | y ≠ x ∨ (Domain.holeLimit < (s.domain v).width ∧ s.lower v < x ∧ x < s.upper v)}
  | .assign _ x, _ => {x}
  | .narrow _ first last, _ => {y | first ≤ y ∧ y ≤ last}

theorem mem_target_iff (hs : s.Valid) : y ∈ r.target s ↔ r.Keep s y := by
  cases r with
  | remove v x =>
    have holes : (s.domain v).hasHoles = false ↔ Domain.holeLimit < (s.domain v).width := by
      rw [← Bool.not_eq_true, (hs.domain v).hasHoles_iff, Nat.not_le]
    change _ ∨ _ ↔ _ ∨ _
    rw [holes]
  | _ => exact Iff.rfl

/-- **An operation intersects or is refused.** -/
theorem ends_intersected (hs : s.Valid) (hv : r.var < s.numVars) :
    Ends (r.narrowing s)
      (fun changed t => (s.valueSet r.var ∩ r.target s).Nonempty ∧ s.Intersected r.var (r.target s) changed t)
      (fun halt t => halt = .inconsistent .emptyDomain ∧ t = s ∧ s.valueSet r.var ∩ r.target s = ∅) := by
  refine ((r.keeps hs).and (r.reported hs)).mono (fun changed t ended => ?_) fun halt t ended => ?_
  · obtain ⟨narrowed, reported⟩ := ended
    have ht := narrowed.narrows.valid hs
    have values : t.valueSet r.var = s.valueSet r.var ∩ r.target s := by
      refine Set.ext fun y => (narrowed.contains_iff y).trans ?_
      exact and_congr_right fun _ => (mem_target_iff hs).symm
    refine ⟨values ▸ ⟨t.lower r.var, ht.contains_lower r.var⟩, values, narrowed.changed_iff hs, narrowed.others,
      _, reported, Store.announced_report hs ht⟩
  · cases ended.1 with
    | empty _ none =>
      refine ⟨rfl, rfl, Set.eq_empty_of_forall_notMem fun y hy => none y hy.1 ((mem_target_iff hs).mp hy.2)⟩
    | unknown missing => exact absurd (Store.domain?_eq_none_iff.mp missing) (Nat.not_le_of_lt hv)

/-- An operation that would leave nothing is refused. -/
theorem narrowing_eq_error (hs : s.Valid) (hv : r.var < s.numVars) (none : s.valueSet r.var ∩ r.target s = ∅) :
    r.narrowing s = .error (.inconsistent .emptyDomain) s := by
  have ended := ends_intersected hs hv
  cases run : r.narrowing s with
  | ok changed t => exact absurd none (ended.of_ok run).1.ne_empty
  | error halt t =>
    obtain ⟨rfl, rfl, -⟩ := ended.of_error run
    rfl

end Restriction

/-! ## Integers that are not words -/

namespace Filter
variable {s : Space} {v : Var} {x first last : Int}

/-- Keeps the values that are at least `x`, which is cut to a word if it is between the bounds. -/
def setLowerWord (v : Var) (x : Int) : Filter Bool := do
  let lower ← read (·.lower v)
  let upper ← read (·.upper v)
  if x ≤ lower then return false
  else if upper < x then refute .emptyDomain
  else onStore (Store.setLower v (Word.value x))

/-- Keeps the values that are at most `x`, which is cut to a word if it is between the bounds. -/
def setUpperWord (v : Var) (x : Int) : Filter Bool := do
  let lower ← read (·.lower v)
  let upper ← read (·.upper v)
  if upper ≤ x then return false
  else if x < lower then refute .emptyDomain
  else onStore (Store.setUpper v (Word.value x))

/-- Keeps the values from `first` to `last`, which are cut to words if they do not cross in the range of values. -/
def narrowWord (v : Var) (first last : Int) : Filter Bool :=
  let first := max first (-Word.maxValue - 1)
  let last := min last Word.maxValue
  if last < first then refute .emptyDomain else onStore (Store.narrow v (Word.value first) (Word.value last))

/-- **Bounds that are cut to the range of values narrow a domain of values as they are.** -/
theorem narrow_cut {s : Space} {v : Var} {first last : Int}
    (values : -Word.maxValue - 1 ≤ s.store.lower v ∧ s.store.upper v ≤ Word.maxValue) :
    narrow v (max first (-Word.maxValue - 1)) (min last Word.maxValue) s = narrow v first last s := by
  have narrowed : Store.narrow v (max first (-Word.maxValue - 1)) (min last Word.maxValue) s.store =
      Store.narrow v first last s.store := by
    refine Store.withDomain_congr fun d hd => ?_
    rw [Store.lower, Store.upper, Store.domain_of hd] at values
    rw [show max (max first (-Word.maxValue - 1)) d.lower = max first d.lower by omega,
      show min (min last Word.maxValue) d.upper = min last d.upper by omega]
  unfold narrow onStore
  dsimp only
  rw [narrowed]

/-- An operation that would leave nothing is refused in a space as well. -/
theorem onStore_eq_error {r : Restriction} (hs : s.store.Valid) (hv : r.var < s.store.numVars)
    (none : s.store.valueSet r.var ∩ r.target s.store = ∅) :
    onStore r.narrowing s = .error (.inconsistent .emptyDomain) s := by
  obtain ⟨store, cells⟩ := s
  unfold onStore
  simp only [Restriction.narrowing_eq_error hs hv none]

section
variable (hs : s.store.Valid) (hv : v < s.store.numVars)
  (values : -Word.maxValue - 1 ≤ s.store.lower v ∧ s.store.upper v ≤ Word.maxValue)
include hs hv values

theorem setLowerWord_eq : setLowerWord v x s = setLower v x s := by
  have bounds (y : Int) (hy : y ∈ s.store.valueSet v) := Store.bounds_of_contains hy
  change (if x ≤ s.store.lower v then pure false
    else if s.store.upper v < x then refute .emptyDomain
    else onStore (Store.setLower v (Word.value x))) s = _
  split
  · rename_i low
    exact (onStore_eq_ok.mpr ⟨Store.setLower_eq_false_iff.mpr ⟨rfl, hv, low⟩, rfl⟩).symm
  · split
    · rename_i high
      refine (onStore_eq_error (r := .setLower v x) hs hv (Set.eq_empty_of_forall_notMem fun y hy => ?_)).symm
      have := bounds y hy.1
      have : x ≤ y := hy.2
      omega
    · rw [Word.value_eq_self (by omega)]
      rfl

theorem setUpperWord_eq : setUpperWord v x s = setUpper v x s := by
  have bounds (y : Int) (hy : y ∈ s.store.valueSet v) := Store.bounds_of_contains hy
  change (if s.store.upper v ≤ x then pure false
    else if x < s.store.lower v then refute .emptyDomain
    else onStore (Store.setUpper v (Word.value x))) s = _
  split
  · rename_i high
    exact (onStore_eq_ok.mpr ⟨Store.setUpper_eq_false_iff.mpr ⟨rfl, hv, high⟩, rfl⟩).symm
  · split
    · rename_i low
      refine (onStore_eq_error (r := .setUpper v x) hs hv (Set.eq_empty_of_forall_notMem fun y hy => ?_)).symm
      have := bounds y hy.1
      have : y ≤ x := hy.2
      omega
    · rw [Word.value_eq_self (by omega)]
      rfl

theorem narrowWord_eq : narrowWord v first last s = narrow v first last s := by
  change (if min last Word.maxValue < max first (-Word.maxValue - 1) then refute .emptyDomain
    else onStore (Store.narrow v (Word.value (max first (-Word.maxValue - 1)))
      (Word.value (min last Word.maxValue)))) s = _
  split
  · rename_i crossed
    refine (onStore_eq_error (r := .narrow v first last) hs hv (Set.eq_empty_of_forall_notMem fun y hy => ?_)).symm
    have : s.store.lower v ≤ y ∧ y ≤ s.store.upper v := Store.bounds_of_contains hy.1
    have : first ≤ y ∧ y ≤ last := hy.2
    omega
  · rw [Word.value_eq_self (by omega), Word.value_eq_self (by omega)]
    exact narrow_cut values

end
end Filter

namespace Restriction
variable {s : Store}

/-- The operation as a propagator has it. -/
def inContext : Restriction → Filter Bool
  | .setLower v x => Filter.setLowerWord v x
  | .setUpper v x => Filter.setUpperWord v x
  | .remove v x => Filter.remove v x
  | .assign v x => Filter.assign v x
  | .narrow v first last => Filter.narrowWord v first last

/-- **No integer is too large for a propagator to pass it on.** -/
theorem inContext_eq {s : Space} {r : Restriction} (hs : s.store.Valid) (hv : r.var < s.store.numVars)
    (values : -Word.maxValue - 1 ≤ s.store.lower r.var ∧ s.store.upper r.var ≤ Word.maxValue) :
    r.inContext s = Filter.onStore r.narrowing s := by
  cases r with
  | setLower v x => exact Filter.setLowerWord_eq hs hv values
  | setUpper v x => exact Filter.setUpperWord_eq hs hv values
  | narrow v first last => exact Filter.narrowWord_eq hs hv values
  | _ => rfl

end Restriction

/-- **Narrowing is intersection.**  If no value would be left, an operation is refused and nothing has changed;
otherwise the values of its variable are intersected with the set that it names, and nothing else.  A propagator
finds the same whatever integers it passes on. -/
theorem Store.Reachable.intersected {s : Store} (h : s.Reachable) (r : Restriction) (hv : r.var < s.numVars) :
    (s.valueSet r.var ∩ r.target s = ∅ →
      r.narrowing s = .error (.inconsistent .emptyDomain) s ∧
      ∀ cells, r.inContext ⟨s, cells⟩ = .error (.inconsistent .emptyDomain) ⟨s, cells⟩) ∧
    (s.valueSet r.var ∩ r.target s ≠ ∅ → ∃ changed t,
      r.narrowing s = .ok changed t ∧ s.Intersected r.var (r.target s) changed t ∧
      ∀ cells, r.inContext ⟨s, cells⟩ = .ok changed ⟨t, cells⟩) := by
  have valid := h.sound.valid
  have values := h.sound.bounds_inRange hv
  have same (cells : Cells) : r.inContext ⟨s, cells⟩ = Filter.onStore r.narrowing ⟨s, cells⟩ :=
    r.inContext_eq valid hv values
  constructor
  · intro none
    refine ⟨Restriction.narrowing_eq_error valid hv none, fun cells => ?_⟩
    rw [same]
    exact Filter.onStore_eq_error valid hv none
  · intro some
    have ended := Restriction.ends_intersected valid hv
    cases run : r.narrowing s with
    | ok changed t =>
      refine ⟨changed, t, rfl, (ended.of_ok run).2, fun cells => ?_⟩
      rw [same, Filter.onStore]
      simp only [run]
    | error halt t => exact absurd (ended.of_error run).2.2 some

/-- A range of holes is refused, and the least of two values can be removed. -/
theorem Store.intersected_holed : Store.holed.Reachable ∧ 0 < Store.holed.numVars ∧
    (Restriction.narrow 0 2 2).narrowing .holed = .error (.inconsistent .emptyDomain) .holed ∧
    ∃ t, (Restriction.remove 0 1).narrowing .holed = .ok true t ∧ t.valueSet 0 = {3} := by
  have known : 0 < Store.holed.numVars := by decide
  have values (x : Int) : x ∈ Store.holed.valueSet 0 ↔ x = 1 ∨ x = 3 := by
    change Store.holed.contains 0 x = true ↔ _
    rw [← Store.mem_values, show Store.holed.values 0 = [1, 3] from rfl]
    simp
  refine ⟨reachable_holed, known, ?_, ?_⟩
  · have refused := (Reachable.intersected reachable_holed (.narrow 0 2 2) known).1
    refine (refused (Set.eq_empty_of_forall_notMem fun x hx => ?_)).1
    have := (values x).mp hx.1
    have : 2 ≤ x ∧ x ≤ 2 := hx.2
    omega
  · have kept : Store.holed.valueSet 0 ∩ (Restriction.remove 0 1).target .holed = {3} := by
      refine Set.ext fun x => ?_
      have target : x ∈ (Restriction.remove 0 1).target .holed ↔ x ≠ 1 :=
        or_iff_left fun wide => absurd wide.1 (by decide)
      rw [Set.mem_inter_iff, values, target, Set.mem_singleton_iff]
      omega
    obtain ⟨changed, t, run, intersected, -⟩ :=
      (Reachable.intersected reachable_holed (.remove 0 1) known).2 (kept ▸ Set.singleton_ne_empty _)
    have left : t.valueSet 0 = {3} := intersected.values.trans kept
    have changes : changed = true := by
      refine intersected.changed_iff.mpr fun same => ?_
      have one : (1 : Int) ∈ Store.holed.valueSet 0 := (values 1).mpr (.inl rfl)
      have := same ▸ one
      rw [show (Restriction.remove 0 1).var = 0 from rfl, left] at this
      exact absurd this (by decide)
    exact ⟨t, changes ▸ run, left⟩

end BranchBound
