import BranchBound.Constraint.ChangeoverCost
import BranchBound.Proofs.Tables

/-! # Tables that are filled in again

The tables of cheapest paths are made anew for every pass.  If they were kept from one pass to the next and
filled in again (`refill?`), nothing would change (`refill?_eq`): every row is cleared or put down before it is
looked at, so what a table held before makes no difference.  **A filter that keeps its tables, over all passes
and calls, is the filter** (`forget_refillFilter`).

A state beyond the last column is looked up in the rows behind.  What two tables agree on is therefore told by
the position in their data, not by row and column. -/
namespace BranchBound

/-! ## Tables that agree in part -/

namespace Matrix
variable {α : Type} {t t' : Matrix α} {known : Nat → Prop} {i j n m : Nat} {x : α}

/-- Two tables of `n` rows and `m` columns hold the same at some of their positions. -/
structure Agree (n m : Nat) (known : Nat → Prop) (t t' : Matrix α) : Prop where
  numRows : t.numRows = n
  numRows' : t'.numRows = n
  numColumns : t.numColumns = m
  numColumns' : t'.numColumns = m
  entry_eq : ∀ k, known k → t'.entries[k]? = t.entries[k]?

namespace Agree

theorem mono {known' : Nat → Prop} (h : Agree n m known t t') (h' : ∀ k, known' k → known k) :
    Agree n m known' t t' :=
  { h with entry_eq := fun k hk => h.entry_eq k (h' k hk) }

theorem size_eq (h : Agree n m known t t') : t'.entries.size = t.entries.size := by
  rw [t.size_entries, t'.size_entries, h.numRows, h.numColumns, h.numRows', h.numColumns']

theorem get?_eq (h : Agree n m known t t') (hk : known (i * m + j)) : t'.get? i j = t.get? i j := by
  unfold get?
  rw [h.numColumns, h.numColumns']
  exact h.entry_eq _ hk

/-- Tables of one size have entries at the same positions. -/
theorem get?_eq_none_iff (h : Agree n m known t t') : t'.get? i j = none ↔ t.get? i j = none := by
  unfold get?
  rw [h.numColumns, h.numColumns', Array.getElem?_eq_none_iff, Array.getElem?_eq_none_iff, h.size_eq]

/-- An entry that is put into both tables is one more that they agree on. -/
theorem set (h : Agree n m known t t') (i j : Nat) (x : α) :
    Agree n m (fun k => known k ∨ k = i * m + j) (t.set i j x) (t'.set i j x) := by
  refine { h with entry_eq := fun k hk => ?_ }
  unfold Matrix.set
  dsimp only
  rw [h.numColumns, h.numColumns', Array.getElem?_setIfInBounds, Array.getElem?_setIfInBounds, h.size_eq]
  split
  · rfl
  · rename_i hne
    exact h.entry_eq k (hk.resolve_right fun heq => hne heq.symm)

theorem foldl_set (h : Agree n m known t t') (i : Nat) (x : α) (js : List Nat) :
    Agree n m (fun k => known k ∨ ∃ j ∈ js, k = i * m + j)
      (js.foldl (fun t j => t.set i j x) t) (js.foldl (fun t j => t.set i j x) t') := by
  induction js generalizing known t t' with
  | nil =>
    refine h.mono fun k hk => hk.resolve_right ?_
    rintro ⟨_, hj, -⟩
    cases hj
  | cons j js ih =>
    refine (ih (h.set i j x)).mono fun k hk => ?_
    rcases hk with hk | ⟨j', hj', rfl⟩
    · exact .inl (.inl hk)
    · rcases List.mem_cons.mp hj' with rfl | hj'
      · exact .inl (.inr rfl)
      · exact .inr ⟨j', hj', rfl⟩

/-- Behind their last entries all tables of one size are the same. -/
theorem beyond (h : Agree n m known t t') : Agree n m (fun k => known k ∨ n * m ≤ k) t t' := by
  refine { h with entry_eq := fun k hk => hk.elim (h.entry_eq k) fun hk => ?_ }
  have size : t.entries.size ≤ k := by rwa [t.size_entries, h.numRows, h.numColumns]
  rw [Array.getElem?_eq_none size, Array.getElem?_eq_none (h.size_eq.symm ▸ size)]

/-- Tables that agree everywhere are equal. -/
theorem eq (h : Agree n m known t t') (all : ∀ k, k < n * m → known k) : t' = t := by
  have entries : t'.entries = t.entries := Array.ext_getElem? fun k =>
    h.beyond.entry_eq k ((Nat.lt_or_ge k (n * m)).imp_left (all k))
  obtain ⟨rows, rows', columns, columns', -⟩ := h
  cases t
  cases t'
  subst rows columns rows' columns' entries
  rfl

end Agree

theorem set_replicate (i j : Nat) (x : α) : (replicate n m x).set i j x = replicate n m x := by
  have same (k : Nat) : ((replicate n m x).set i j x).entries[k]? = (replicate n m x).entries[k]? := by
    change ((Array.replicate (n * m) x).setIfInBounds (i * m + j) x)[k]? = (Array.replicate (n * m) x)[k]?
    rw [Array.getElem?_setIfInBounds]
    split
    · rename_i heq
      subst heq
      simp [Array.getElem?_replicate]
    · rfl
  have agree : Agree n m (fun _ => True) (replicate n m x) ((replicate n m x).set i j x) :=
    ⟨rfl, rfl, rfl, rfl, fun k _ => same k⟩
  exact agree.eq fun _ _ => trivial

/-- A position in the first rows is in the last of them or before it. -/
theorem lt_succ_mul {k : Nat} (h : k < (i + 1) * m) : k < i * m ∨ ∃ j < m, k = i * m + j := by
  rw [Nat.succ_mul] at h
  rcases Nat.lt_or_ge k (i * m) with hk | hk
  · exact .inl hk
  · exact .inr ⟨k - i * m, by omega, by omega⟩

end Matrix

namespace ChangeoverCost
variable (c : ChangeoverCost)

/-! ## Filling in again -/

/-- As `forward?`, in a table that may hold anything. -/
def refillForward? (t : Matrix Int) (plan : List (List Int)) : Option (Matrix Int) :=
  plan.zipIdx.foldlM (fun t (values, period) => c.extend? t period values)
    ((c.states.foldl (fun t state => t.set 0 state unreachable) t).set 0 c.initial 0)

/-- As `backward?`, in a table that may hold anything. -/
def refillBackward? (t : Matrix Int) (plan : List (List Int)) : Option (Matrix Int) :=
  plan.zipIdx.reverse.foldlM (fun t (values, period) =>
    c.states.foldlM (fun t state => do
      return t.set period state (← c.cheapest? t period state values)) t)
    (c.states.foldl (fun t state => t.set plan.length state 0) t)

/-- As `paths?`, in tables that may hold anything. -/
def refill? (old : Paths) (plan : List (List Int)) : Option Paths := do
  return ⟨← c.refillForward? old.forward plan, ← c.refillBackward? old.backward plan⟩

variable {c} {t t' : Matrix Int} {known : Nat → Prop} {n period state : Nat} {values : List Int}

/-- A row that is cleared is one more that two tables agree on. -/
theorem agree_clear (h : Matrix.Agree n (c.initial + 1) known t t') (period : Nat) (x : Int) :
    Matrix.Agree n (c.initial + 1)
      (fun k => known k ∨ ∃ state < c.initial + 1, k = period * (c.initial + 1) + state)
      (c.states.foldl (fun t state => t.set period state x) t)
      (c.states.foldl (fun t state => t.set period state x) t') := by
  refine (h.foldl_set period x c.states).mono fun k hk => hk.imp_right ?_
  rintro ⟨state, hs, rfl⟩
  exact ⟨state, List.mem_range.mpr hs, rfl⟩

/-- A cost that is recorded leaves what two tables agree on. -/
theorem agree_improve (h : Matrix.Agree n (c.initial + 1) known t t') (period state : Nat) (cost : Int) :
    Option.Rel (Matrix.Agree n (c.initial + 1) known) (improve? t period state cost)
      (improve? t' period state cost) := by
  unfold improve?
  cases hx : t.get? period state with
  | none =>
    rw [h.get?_eq_none_iff.mpr hx]
    exact .none
  | some x =>
    obtain ⟨x', hx'⟩ := Option.ne_none_iff_exists'.mp fun none =>
      Option.some_ne_none x (hx.symm.trans (h.get?_eq_none_iff.mp none))
    rw [hx']
    refine .some { h with entry_eq := fun k hk => ?_ }
    by_cases here : known (period * (c.initial + 1) + state)
    · have same : x' = x := Option.some.inj (hx'.symm.trans ((h.get?_eq here).trans hx))
      rw [same]
      exact (h.set period state (min x cost)).entry_eq k (.inl hk)
    · -- the entry is beyond what the tables agree on
      have apart : period * (c.initial + 1) + state ≠ k := fun heq => here (heq ▸ hk)
      unfold Matrix.set
      dsimp only
      rw [h.numColumns, h.numColumns', Array.getElem?_setIfInBounds_ne apart,
        Array.getElem?_setIfInBounds_ne apart]
      exact h.entry_eq k hk

/-- Extending looks at the row of the period only, and clears the next. -/
theorem agree_extend (h : Matrix.Agree n (c.initial + 1) (· < (period + 1) * (c.initial + 1)) t t') :
    Option.Rel (Matrix.Agree n (c.initial + 1) (· < (period + 2) * (c.initial + 1)))
      (c.extend? t period values) (c.extend? t' period values) := by
  have cleared := (agree_clear h (period + 1) unreachable).mono fun k => Matrix.lt_succ_mul
  refine foldlM_option_rel (l := c.states)
    (I := fun _ => Matrix.Agree n (c.initial + 1) (· < (period + 2) * (c.initial + 1)))
    (fun before state rest split u u' agree => ?_) cleared
  have hs : state < c.initial + 1 := List.mem_range.mp (show state ∈ c.states by rw [split]; simp)
  have same : u'.get? period state = u.get? period state :=
    agree.get?_eq (Nat.lt_trans (Matrix.position_lt (Nat.lt_succ_self period) hs)
      (Nat.mul_lt_mul_of_pos_right (Nat.lt_succ_self _) (Nat.succ_pos _)))
  rw [same]
  cases u.get? period state with
  | none => exact .none
  | some sofar =>
    simp only [Option.bind_eq_bind, Option.bind_some]
    split
    · exact .some agree
    · refine foldlM_option_rel (l := values)
        (I := fun _ => Matrix.Agree n (c.initial + 1) (· < (period + 2) * (c.initial + 1)))
        (fun _ x _ _ u u' agree => ?_) agree
      cases c.transition? state x with
      | none => exact .none
      | some next => exact agree_improve agree (period + 1) next.1 (plus sofar next.2)

/-- The cheapest cost is looked up in the rows behind the period only. -/
theorem cheapest?_congr (h : Matrix.Agree n (c.initial + 1) known t t')
    (behind : ∀ k, (period + 1) * (c.initial + 1) ≤ k → known k) :
    c.cheapest? t' period state values = c.cheapest? t period state values := by
  unfold cheapest?
  congr 1
  funext best x
  cases c.transition? state x with
  | none => rfl
  | some next =>
    simp only [Option.bind_eq_bind, Option.bind_some]
    rw [h.get?_eq (behind _ (Nat.le_add_right _ _))]

/-- A row that is put down from the rows behind it is one more that two tables agree on. -/
theorem agree_putDown
    (h : Matrix.Agree n (c.initial + 1) (fun k => (period + 1) * (c.initial + 1) ≤ k) t t') :
    Option.Rel (Matrix.Agree n (c.initial + 1) fun k => period * (c.initial + 1) ≤ k)
      (c.states.foldlM (fun t state => do
        return t.set period state (← c.cheapest? t period state values)) t)
      (c.states.foldlM (fun t state => do
        return t.set period state (← c.cheapest? t period state values)) t') := by
  have put := foldlM_option_rel (l := c.states)
    (f := fun t state => do return t.set period state (← c.cheapest? t period state values))
    (I := fun before => Matrix.Agree n (c.initial + 1) fun k =>
      (period + 1) * (c.initial + 1) ≤ k ∨ ∃ state ∈ before, k = period * (c.initial + 1) + state)
    (fun before state rest _ u u' agree => ?_) (h.mono fun k hk => hk.resolve_right ?_)
  · refine option_rel_mono put fun u u' agree => agree.mono fun k hk => ?_
    rcases Nat.lt_or_ge k ((period + 1) * (c.initial + 1)) with lt | le
    · obtain ⟨state, hs, rfl⟩ := (Matrix.lt_succ_mul lt).resolve_left (Nat.not_lt_of_le hk)
      exact .inr ⟨state, List.mem_range.mpr hs, rfl⟩
    · exact .inl le
  · rw [cheapest?_congr agree fun k hk => .inl hk]
    cases c.cheapest? u period state values with
    | none => exact .none
    | some cost =>
      refine .some ((agree.set period state cost).mono fun k hk => ?_)
      rcases hk with hk | ⟨state', hs, rfl⟩
      · exact .inl (.inl hk)
      · rcases List.mem_append.mp hs with hs | hs
        · exact .inl (.inr ⟨state', hs, rfl⟩)
        · exact .inr (by rw [List.mem_singleton.mp hs])
  · rintro ⟨_, hs, -⟩
    cases hs

/-! ## What the tables held before -/

/-- A table for a plan of so many periods: a row for every period and the end, a column for every state. -/
structure Sized (c : ChangeoverCost) (numPeriods : Nat) (t : Matrix Int) : Prop where
  numRows : t.numRows = numPeriods + 1
  numColumns : t.numColumns = c.initial + 1

theorem sized_blank (numPeriods : Nat) : c.Sized numPeriods (c.blank numPeriods) := ⟨rfl, rfl⟩

variable {plan : List (List Int)}

theorem Sized.agree (h : c.Sized plan.length t) (h' : c.Sized plan.length t') :
    Matrix.Agree (plan.length + 1) (c.initial + 1) (fun _ => False) t t' :=
  ⟨h.numRows, h'.numRows, h.numColumns, h'.numColumns, fun _ hk => hk.elim⟩

theorem rel_refillForward? (h : c.Sized plan.length t) (h' : c.Sized plan.length t') :
    Option.Rel (Matrix.Agree (plan.length + 1) (c.initial + 1)
      (· < (plan.length + 1) * (c.initial + 1))) (c.refillForward? t plan) (c.refillForward? t' plan) := by
  have start : Matrix.Agree (plan.length + 1) (c.initial + 1) (· < (0 + 1) * (c.initial + 1))
      ((c.states.foldl (fun t state => t.set 0 state unreachable) t).set 0 c.initial 0)
      ((c.states.foldl (fun t state => t.set 0 state unreachable) t').set 0 c.initial 0) :=
    ((agree_clear (h.agree h') 0 unreachable).set 0 c.initial 0).mono fun k hk =>
      .inl ((Matrix.lt_succ_mul hk).imp_left fun none => absurd none (by omega))
  refine option_rel_mono (foldlM_option_rel (l := plan.zipIdx)
    (I := fun before => Matrix.Agree (plan.length + 1) (c.initial + 1)
      (· < (before.length + 1) * (c.initial + 1))) (fun before x rest split u u' agree => ?_) start)
    fun u u' agree => List.length_zipIdx ▸ agree
  obtain ⟨values, period⟩ := x
  obtain ⟨rfl, -, -⟩ := mem_take_zipIdx split
  rw [List.length_append]
  exact agree_extend agree

theorem rel_refillBackward? (h : c.Sized plan.length t) (h' : c.Sized plan.length t') :
    Option.Rel (Matrix.Agree (plan.length + 1) (c.initial + 1) fun _ => True)
      (c.refillBackward? t plan) (c.refillBackward? t' plan) := by
  have start : Matrix.Agree (plan.length + 1) (c.initial + 1) (fun k => plan.length * (c.initial + 1) ≤ k)
      (c.states.foldl (fun t state => t.set plan.length state 0) t)
      (c.states.foldl (fun t state => t.set plan.length state 0) t') :=
    (agree_clear (h.agree h') plan.length 0).beyond.mono fun k hk => by
      rcases Nat.lt_or_ge k ((plan.length + 1) * (c.initial + 1)) with lt | le
      · exact .inl (.inr ((Matrix.lt_succ_mul lt).resolve_left (Nat.not_lt_of_le hk)))
      · exact .inr le
  -- the rows from the one put down last to the end are known
  refine option_rel_mono (foldlM_option_rel (l := plan.zipIdx.reverse)
    (I := fun before => Matrix.Agree (plan.length + 1) (c.initial + 1)
      fun k => plan.length * (c.initial + 1) ≤ k + before.length * (c.initial + 1))
    (fun before x rest split u u' agree => ?_) (start.mono fun k hk => ?_))
    fun u u' agree => agree.mono fun k _ => ?_
  · obtain ⟨values, period⟩ := x
    have split' : plan.zipIdx = rest.reverse ++ (values, period) :: before.reverse := by
      rw [← List.reverse_reverse plan.zipIdx, split]
      simp
    obtain ⟨hperiod, -, -⟩ := mem_take_zipIdx split'
    have length := congrArg List.length split'
    simp only [List.length_zipIdx, List.length_append, List.length_reverse, List.length_cons]
      at length hperiod
    have whole : plan.length = (period + 1) + before.length := by omega
    refine option_rel_mono (agree_putDown (agree.mono fun k hk => ?_))
      fun u u' agree => agree.mono fun k hk => ?_
    · rw [whole, Nat.add_mul]
      exact Nat.add_le_add_right hk _
    · rw [whole, Nat.add_mul, List.length_append, List.length_singleton, Nat.succ_mul] at hk
      rw [Nat.succ_mul] at hk
      omega
  · simpa using hk
  · rw [List.length_reverse, List.length_zipIdx]
    exact Nat.le_add_left _ _

/-- Clearing a blank table leaves it blank. -/
theorem clear_blank (n : Nat) :
    c.states.foldl (fun t state => t.set 0 state unreachable) (c.blank n) = c.blank n := by
  induction c.states with
  | nil => rfl
  | cons state states ih => rwa [List.foldl_cons, blank, Matrix.set_replicate]

theorem refillForward?_congr (h : c.Sized plan.length t) (h' : c.Sized plan.length t') :
    c.refillForward? t' plan = c.refillForward? t plan :=
  eq_of_option_rel (rel_refillForward? h h') fun _ _ agree => agree.eq fun _ hk => hk

theorem refillBackward?_congr (h : c.Sized plan.length t) (h' : c.Sized plan.length t') :
    c.refillBackward? t' plan = c.refillBackward? t plan :=
  eq_of_option_rel (rel_refillBackward? h h') fun _ _ agree => agree.eq fun _ _ => trivial

/-- The tables from a pass before. -/
structure Kept (c : ChangeoverCost) (numPeriods : Nat) (old : Paths) : Prop where
  forward : c.Sized numPeriods old.forward
  backward : c.Sized numPeriods old.backward

theorem Kept.refilled {old p : Paths} (kept : c.Kept plan.length old) (h : c.refill? old plan = some p) :
    c.Kept plan.length p := by
  have forward := rel_refillForward? kept.forward kept.forward
  have backward := rel_refillBackward? kept.backward kept.backward
  obtain ⟨f, hf', h⟩ := Option.bind_eq_some_iff.mp h
  obtain ⟨b, hb', h⟩ := Option.bind_eq_some_iff.mp h
  rw [hf'] at forward
  rw [hb'] at backward
  cases forward with
  | some forward =>
    cases backward with
    | some backward =>
      obtain rfl := Option.some.inj h
      exact ⟨⟨forward.numRows, forward.numColumns⟩, ⟨backward.numRows, backward.numColumns⟩⟩

/-- **What the tables held before makes no difference.** -/
theorem refill?_eq {old : Paths} (kept : c.Kept plan.length old) : c.refill? old plan = c.paths? plan := by
  have forward : c.refillForward? old.forward plan = c.forward? plan := by
    rw [refillForward?_congr (sized_blank _) kept.forward, refillForward?, clear_blank]
    rfl
  have backward : c.refillBackward? old.backward plan = c.backward? plan :=
    refillBackward?_congr (sized_blank _) kept.backward
  rw [refill?, forward, backward]
  rfl

/-! ## The filter -/

/-- A result without the tables. -/
def Paths.forget {α : Type} : EStateM.Result Halt (Paths × Space) α → EStateM.Result Halt Space α
  | .ok a (_, s) => .ok a s
  | .error e (_, s) => .error e s

/-- As `pass`, in the tables of the pass before. -/
def refillPass (c : ChangeoverCost) : EStateM Halt (Paths × Space) Bool := fun (old, s) =>
  match c.refill? old (c.plan.map s.store.values) with
  | none => demand none (old, s)
  | some p => (c.narrowBy p).beside (p, s)

/-- As `filter`, in tables that are kept from pass to pass, and from call to call. -/
def refillFilter (c : ChangeoverCost) : EStateM Halt (Paths × Space) Unit :=
  descend (fun kept => kept.2.numValues) c.refillPass

theorem forget_beside {α : Type} (f : Filter α) (p : Paths) (s : Space) : Paths.forget (f.beside (p, s)) = f s := by
  unfold Filter.beside
  dsimp only
  split <;> rename_i run <;> exact run.symm

theorem forget_refillPass {old : Paths} {s : Space} (kept : c.Kept c.plan.length old) :
    Paths.forget (c.refillPass (old, s)) = c.pass s := by
  have length : (c.plan.map s.store.values).length = c.plan.length := List.length_map _
  have run : c.pass s = (demand (c.paths? (c.plan.map s.store.values)) >>= c.narrowBy) s := rfl
  rw [run, ← refill?_eq (length ▸ kept)]
  unfold refillPass
  dsimp only
  cases c.refill? old (c.plan.map s.store.values) with
  | none => rfl
  | some p => exact forget_beside _ p s

/-- A pass leaves tables that can be filled in again. -/
theorem kept_refillPass (x : Paths × Space) (kept : c.Kept c.plan.length x.1) :
    EndsIn (fun y : Paths × Space => c.Kept c.plan.length y.1) (c.refillPass x) := by
  obtain ⟨old, s⟩ := x
  have length : (c.plan.map s.store.values).length = c.plan.length := List.length_map _
  unfold refillPass
  dsimp only
  cases again : c.refill? old (c.plan.map s.store.values) with
  | none => exact kept
  | some p =>
    have kept' : c.Kept c.plan.length p := length ▸ Kept.refilled (length.symm ▸ kept) again
    unfold Filter.beside
    dsimp only
    split <;> exact kept'

/-- **A filter that keeps its tables filters just as one that makes them anew**, and leaves tables that can be
filled in again by the next call. -/
theorem forget_refillFilter (x : Paths × Space) (kept : c.Kept c.plan.length x.1) :
    Paths.forget (c.refillFilter x) = c.filter x.2 ∧
      EndsIn (fun y : Paths × Space => c.Kept c.plan.length y.1) (c.refillFilter x) := by
  refine ⟨?_, descend_preserves kept_refillPass x kept⟩
  suffices ∀ n x, c.Kept c.plan.length x.1 →
      Paths.forget (repeatAtMost c.refillPass n x) = repeatAtMost c.pass n x.2 from this _ x kept
  intro n
  induction n with
  | zero => exact fun _ _ => rfl
  | succ n ih =>
    intro x kept
    have step := forget_refillPass (s := x.2) kept
    have kept' := kept_refillPass x kept
    unfold repeatAtMost
    cases run : c.refillPass x with
    | error e y =>
      rw [run] at step
      rw [← step]
      rfl
    | ok more y =>
      rw [run] at step kept'
      rw [← step]
      cases more with
      | false => rfl
      | true => exact ih y kept'

end ChangeoverCost
end BranchBound
