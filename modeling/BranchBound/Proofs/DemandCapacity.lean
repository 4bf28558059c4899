import BranchBound.Constraint.DemandCapacity
import BranchBound.Proofs.LinearSum
import BranchBound.Proofs.Tables

/-! # Demand and capacity

An assignment keeps the constraint if every item is planned as often as it is required by every period.
Each open period takes at most one item (`DemandCapacity.load_le`), so the outstanding demand has to fit
into the open periods; and if it just fits, none of them is left for anything else.

The filter computes with integers of 64 bits.  As long as no difference and no sum is cut
(`DemandCapacity.Exact`), what it takes for outstanding is (`DemandCapacity.Exact.outstanding_eq`). -/
namespace BranchBound
namespace DemandCapacity
variable (c : DemandCapacity)

/-- How often an item is required by a period. -/
def requirement (item period : Nat) : Int := (c.required.get? item period).getD 0

/-- How many of some periods are planned for an item. -/
def count (a : Assignment) (item : Nat) (vs : List Var) : Int :=
  sumInt (vs.map fun v => if a v = (item : Int) then 1 else 0)

/-- Neither what is required of an item, less what may be produced of it, nor what is required of all items
by a period is cut. -/
structure Exact : Prop where
  fits : ∀ item period, item < c.required.numRows → period < c.plan.length →
    ∀ n : Nat, n ≤ period + 1 → Word.Fits (c.requirement item period - n)
  sum_fits : ∀ period < c.plan.length, Word.Fits (sumInt (c.items.map fun item => max 0 (c.requirement item period)))

/-- Every item is planned as often as it is required. -/
def Holds (a : Assignment) : Prop :=
  ∀ item period, item < c.required.numRows → period < c.plan.length →
    c.requirement item period ≤ count a item (c.plan.take (period + 1))

/-- The plan of a period is an item, or idle; and if what is required can be met at all, nothing is cut. -/
structure Base (s : Store) : Prop where
  exact : ∀ a, c.Holds a → c.Exact
  known : ∀ v ∈ c.plan, v < s.numVars
  planned : ∀ v ∈ c.plan, ∀ x, s.contains v x = true →
    x = idle ∨ ∃ item : Nat, item < c.required.numRows ∧ x = item

variable {c}

theorem Base.narrows {s t : Store} (h : c.Base s) (hs : s.Valid) (hn : s.Narrows t) : c.Base t :=
  ⟨h.exact, fun v hv => hn.numVars_eq ▸ h.known v hv, fun v hv x hx => h.planned v hv x (hn.contains hs hx)⟩

/-! ## Counting -/

section
variable {a : Assignment} {item n : Nat} {vs ws : List Var} {v : Var}

theorem count_append : count a item (vs ++ ws) = count a item vs + count a item ws := by
  simp only [count, List.map_append, sumInt_append]

theorem count_nonneg : 0 ≤ count a item vs := by
  induction vs with
  | nil => exact Int.le_refl _
  | cons v vs ih =>
    simp only [count, List.map_cons, sumInt] at ih ⊢
    split <;> omega

theorem count_pos (hv : v ∈ vs) (h : a v = (item : Int)) : 0 < count a item vs := by
  obtain ⟨before, after, rfl⟩ := List.append_of_mem hv
  have : 0 ≤ count a item before := count_nonneg
  have : 0 ≤ count a item after := count_nonneg
  rw [count_append]
  simp only [count, List.map_cons, sumInt, if_pos h] at *
  omega

theorem count_le : count a item vs ≤ vs.length := by
  have each : ∀ v ∈ vs, (if a v = (item : Int) then 1 else 0 : Int) ≤ 1 := fun v _ => by split <;> decide
  have most := sumInt_le_mul each
  rwa [Int.one_mul] at most

/-- How many of some periods are planned for any of the first `n` items. -/
def load (a : Assignment) (n : Nat) (vs : List Var) : Int :=
  sumInt ((List.range n).map fun item => count a item vs)

theorem load_nil : load a n [] = 0 := by
  unfold load count
  induction n with
  | zero => rfl
  | succ n ih =>
    rw [List.range_succ, List.map_append, sumInt_append, ih]
    rfl

theorem load_cons : load a n (v :: vs) = load a n [v] + load a n vs := by
  unfold load
  induction n with
  | zero => rfl
  | succ n ih =>
    rw [List.range_succ, List.map_append, sumInt_append, ih, List.map_append, sumInt_append,
      List.map_append, sumInt_append]
    simp only [List.map_cons, List.map_nil, sumInt, count]
    omega

theorem load_singleton : load a n [v] = if 0 ≤ a v ∧ a v < n then 1 else 0 := by
  unfold load count
  induction n with
  | zero =>
    rw [if_neg (by omega)]
    rfl
  | succ n ih =>
    rw [List.range_succ, List.map_append, sumInt_append, ih]
    simp only [List.map_cons, List.map_nil, sumInt]
    split <;> split <;> split <;> omega

/-- **A period takes at most one item.** -/
theorem load_le : load a n vs ≤ vs.length := by
  induction vs with
  | nil => rw [load_nil]; exact Int.le_refl _
  | cons v vs ih =>
    rw [load_cons, load_singleton, List.length_cons]
    split <;> omega

theorem load_lt (hv : v ∈ vs) (h : a v = idle) : load a n vs < vs.length := by
  induction vs with
  | nil => cases hv
  | cons w vs ih =>
    have : load a n vs ≤ vs.length := load_le
    rw [load_cons, load_singleton, List.length_cons]
    rcases List.mem_cons.mp hv with rfl | hv
    · rw [h]
      simp only [idle, show ¬ (0 ≤ (-1 : Int) ∧ (-1 : Int) < n) by omega, if_false]
      omega
    · have := ih hv
      split <;> omega

end
/-! ## Counting with words -/

/-- No item is counted more often than there are periods. -/
def Progress.Bounded (p : Progress) (periods : Nat) : Prop :=
  ∀ item, ∃ n : Nat, n ≤ periods ∧ p.produced.getD item 0 = n

/-- What is outstanding of every item by a period, if nothing is cut. -/
def missing (c : DemandCapacity) (p : Progress) (period : Nat) : List Int :=
  c.items.map fun item => max 0 (c.requirement item period - p.produced.getD item 0)

/-- A sum is cut as a whole, though each of its parts is. -/
theorem total_eq (ns : List Int) : total ns = Word.integer (sumInt ns) := by
  have rest : ∀ (ns : List Int) (x : Int), ns.foldl (fun sum n => Word.integer (sum + n)) (Word.integer x) =
      Word.integer (x + sumInt ns) := by
    intro ns
    induction ns with
    | nil =>
      intro x
      rw [List.foldl_nil, sumInt, Int.add_zero]
    | cons n ns ih =>
      intro x
      rw [List.foldl_cons, Int.add_comm, Word.integer_add_integer, ih, sumInt, Int.add_comm n, Int.add_assoc]
  have := rest ns 0
  rwa [Int.zero_add] at this

section
variable {p : Progress} {period : Nat} (exact : c.Exact) (hperiod : period < c.plan.length)
  (bounded : p.Bounded (period + 1))
include exact hperiod bounded

theorem Exact.outstanding_eq : c.outstanding p period = c.missing p period := by
  refine List.map_congr_left fun item hitem => ?_
  obtain ⟨n, le, count⟩ := bounded item
  change max 0 (Word.integer (c.requirement item period - _)) = _
  rw [count, Word.integer_eq_self (exact.fits item period (List.mem_range.mp hitem) hperiod n le)]

theorem Exact.total_missing : total (c.missing p period) = sumInt (c.missing p period) := by
  have least : sumInt (c.items.map fun _ => 0) ≤ sumInt (c.missing p period) :=
    sumInt_le fun item _ => Int.le_max_left ..
  have most : sumInt (c.missing p period) ≤ sumInt (c.items.map fun item => max 0 (c.requirement item period)) :=
    sumInt_le fun item _ => by
      obtain ⟨n, -, count⟩ := bounded item
      omega
  have greatest := (exact.sum_fits period hperiod).2
  rw [total_eq, Word.integer_eq_self]
  rw [sumInt_zero] at least
  exact ⟨Int.le_trans (by decide) least, Int.le_trans most greatest⟩

end
/-! ## The filter -/

section
variable {B : Prop} {s u : Space} {before opens : List Var} {p p' : Progress} {v : Var}

/-- What is counted of the periods seen so far: some were open then, and the others are counted as they
are planned. -/
structure Counted (c : DemandCapacity) (B : Prop) (s : Space) (before : List Var) (p : Progress)
    (opens : List Var) (u : Space) : Prop where
  size_eq : p.produced.size = c.required.numRows
  numOpen_eq : p.numOpen = opens.length
  bounded : p.Bounded before.length
  count_eq : ∀ a, Granted B c.Holds a → s.store.Admits a → ∀ item, item < c.required.numRows →
    count a item before = p.produced.getD item 0 + count a item opens
  opened : ∀ v ∈ before, v ∈ opens ∨ ∃ x, u.store.fixed? v = some x

/-- Another period is open, or is planned by now. -/
theorem opened_snoc {opens' : List Var} (old : ∀ w ∈ before, w ∈ opens ∨ ∃ x, u.store.fixed? w = some x)
    (sub : opens ⊆ opens') (here : v ∈ opens' ∨ ∃ x, u.store.fixed? v = some x) :
    ∀ w ∈ before ++ [v], w ∈ opens' ∨ ∃ x, u.store.fixed? w = some x := by
  intro w hw
  rcases List.mem_append.mp hw with hw | hw
  · exact (old w hw).imp_left fun hw => sub hw
  · obtain rfl := List.mem_singleton.mp hw
    exact here

/-- What is outstanding is known of every item. -/
theorem getElem?_missing_eq_some {period item : Nat} {x : Int} :
    (c.missing p period)[item]? = some x ↔ item ∈ c.items ∧
      max 0 (c.requirement item period - p.produced.getD item 0) = x := by
  unfold missing items
  rw [List.getElem?_map, Option.map_eq_some_iff, List.mem_range]
  constructor
  · rintro ⟨i, hi, known⟩
    obtain ⟨hlt, rfl⟩ := List.getElem?_eq_some_iff.mp hi
    rw [List.getElem_range] at known
    exact ⟨by simpa using hlt, known⟩
  · rintro ⟨hlt, known⟩
    exact ⟨item, List.getElem?_range hlt, known⟩

/-- The values that are taken from an open period. -/
theorem mem_restricted {outstanding : List Int} {x : Int} :
    x ∈ idle :: outstanding.zipIdx.filterMap (fun (n, item) => if n = 0 then some (item : Int) else none) ↔
      x = idle ∨ ∃ item : Nat, outstanding[item]? = some 0 ∧ x = item := by
  rw [List.mem_cons, List.mem_filterMap]
  refine or_congr_right ⟨fun ⟨⟨n, item⟩, hmem, heq⟩ => ?_, fun ⟨item, hitem, heq⟩ => ?_⟩
  · dsimp only at heq
    split at heq
    · rename_i hn
      exact ⟨item, hn ▸ List.mem_zipIdx_iff_getElem?.mp hmem, (Option.some.inj heq).symm⟩
    · cases heq
  · exact ⟨(0, item), List.mem_zipIdx_iff_getElem?.mpr hitem, heq ▸ rfl⟩

/-- What a period adds to the counts. -/
theorem Progress.add_eq_some {o : Option Int} (h : p.add o = some p') :
    (o = none ∧ p' = { p with numOpen := p.numOpen + 1 }) ∨ (o = some idle ∧ p' = p) ∨
      ∃ item : Nat, o = some (item : Int) ∧ item < p.produced.size ∧
        p' = { p with produced := p.produced.modify item (· + 1) } := by
  unfold Progress.add at h
  split at h
  · exact .inl ⟨rfl, (Option.some.inj h).symm⟩
  · rename_i x
    split at h
    · rename_i hidle
      exact .inr (.inl ⟨congrArg some hidle, (Option.some.inj h).symm⟩)
    · obtain ⟨item, hitem, h⟩ := Option.bind_eq_some_iff.mp h
      split at h
      · rename_i hlt
        exact .inr (.inr ⟨item, congrArg some (eq_of_position? hitem), hlt, (Option.some.inj h).symm⟩)
      · cases h

theorem count_snoc {a : Assignment} {item : Nat} :
    count a item (before ++ [v]) = count a item before + if a v = (item : Int) then 1 else 0 := by
  rw [count_append]
  simp [count, sumInt]

theorem getD_modify {counts : Array Int} {i j : Nat} (hi : i < counts.size) :
    (counts.modify i (· + 1)).getD j 0 = counts.getD j 0 + if i = j then 1 else 0 := by
  rw [Array.getD_eq_getD_getElem?, Array.getD_eq_getD_getElem?, Array.getElem?_modify]
  split
  · subst j
    simp [hi]
  · omega

theorem bounded_start (numItems : Nat) : Progress.Bounded { produced := Array.replicate numItems 0 } 0 := by
  intro item
  refine ⟨0, Nat.le_refl 0, ?_⟩
  rw [Array.getD_eq_getD_getElem?, Array.getElem?_replicate]
  split <;> rfl

theorem Progress.Bounded.add {n : Nat} {o : Option Int} (h : p.Bounded n) (hp : p.add o = some p') :
    p'.Bounded (n + 1) := by
  intro item
  obtain ⟨k, le, count⟩ := h item
  rcases Progress.add_eq_some hp with ⟨-, rfl⟩ | ⟨-, rfl⟩ | ⟨j, -, hlt, rfl⟩
  · exact ⟨k, by omega, count⟩
  · exact ⟨k, by omega, count⟩
  · dsimp only
    rw [getD_modify hlt, count]
    split
    · exact ⟨k + 1, by omega, by omega⟩
    · exact ⟨k, by omega, by omega⟩

/-- A period is counted as planned if it is, and else as open. -/
theorem Counted.add (h : Counted c B s before p opens u) (hp : p.add (u.store.fixed? v) = some p')
    (agrees : ∀ a, Granted B c.Holds a → s.store.Admits a → ∀ x, u.store.fixed? v = some x → a v = x) :
    ∃ opens', Counted c B s (before ++ [v]) p' opens' u := by
  have least {a : Assignment} (ha : Granted B c.Holds a) (hadm : s.store.Admits a) {item : Nat}
      (hi : item < c.required.numRows) := h.count_eq a ha hadm item hi
  have bounded : p'.Bounded (before ++ [v]).length := List.length_append ▸ h.bounded.add hp
  rcases Progress.add_eq_some hp with ⟨hf, rfl⟩ | ⟨hf, rfl⟩ | ⟨j, hf, hlt, rfl⟩
  · refine ⟨opens ++ [v], h.size_eq, ?_, bounded, fun a ha hadm item hi => ?_,
      opened_snoc h.opened (List.subset_append_left opens [v]) (.inl (List.mem_append_right opens (by simp)))⟩
    · rw [List.length_append, List.length_singleton]
      have := h.numOpen_eq
      dsimp only
      omega
    · have := least ha hadm hi
      rw [count_snoc, count_snoc]
      dsimp only
      omega
  · refine ⟨opens, h.size_eq, h.numOpen_eq, bounded, fun a ha hadm item hi => ?_,
      opened_snoc h.opened (List.Subset.refl opens) (.inr ⟨_, hf⟩)⟩
    have := least ha hadm hi
    have other : ¬ a v = (item : Int) := by
      rw [agrees a ha hadm _ hf]
      exact item_ne_idle.symm
    rw [count_snoc, if_neg other]
    omega
  · refine ⟨opens, (Array.size_modify ..).trans h.size_eq, h.numOpen_eq, bounded, fun a ha hadm item hi => ?_,
      opened_snoc h.opened (List.Subset.refl opens) (.inr ⟨_, hf⟩)⟩
    have := least ha hadm hi
    rw [count_snoc, agrees a ha hadm _ hf, getD_modify hlt]
    simp only [Int.natCast_inj]
    omega

/-- Every period that is planned at all is planned to be idle or for an item that is counted. -/
theorem Counted.exists_add (h : Counted c B s before p opens u)
    (planned : ∀ x, u.store.fixed? v = some x → x = idle ∨ ∃ item : Nat, item < c.required.numRows ∧ x = item) :
    ∃ p', p.add (u.store.fixed? v) = some p' := by
  cases hf : u.store.fixed? v with
  | none => exact ⟨_, rfl⟩
  | some x =>
    unfold Progress.add
    dsimp only
    split
    · exact ⟨_, rfl⟩
    · rename_i busy
      obtain ⟨item, hlt, rfl⟩ := (planned x hf).resolve_left busy
      rw [position?_ofNat]
      exact ⟨_, if_pos (h.size_eq ▸ hlt)⟩

theorem Counted.narrows {t : Space} (h : Counted c B s before p opens u) (hu : u.Valid)
    (ht : u.Narrows Filter.noCells t) : Counted c B s before p opens t :=
  { h with opened := fun v hv => (h.opened v hv).imp_right fun ⟨x, hx⟩ =>
      ⟨x, ht.store.fixed? hu.store hx⟩ }

/-- What is outstanding of an item has to be planned in the periods that were open. -/
theorem Counted.missing_le {period : Nat} (h : Counted c B s (c.plan.take (period + 1)) p opens u)
    (hperiod : period < c.plan.length) {a : Assignment} (ha : Granted B c.Holds a)
    (hadm : s.store.Admits a) : ∀ item ∈ c.items,
      max 0 (c.requirement item period - p.produced.getD item 0) ≤ count a item opens := by
  intro item hitem
  have hlt := List.mem_range.mp hitem
  have := ha.2 item period hlt hperiod
  have := h.count_eq a ha hadm item hlt
  have : 0 ≤ count a item opens := count_nonneg
  omega

/-- **If the outstanding demand just fits, every open period is needed for it.** -/
theorem Counted.needed {period : Nat} (h : Counted c B s (c.plan.take (period + 1)) p opens u)
    (hperiod : period < c.plan.length) {a : Assignment} (ha : Granted B c.Holds a)
    (hadm : s.store.Admits a) :
    sumInt (c.missing p period) ≤ p.numOpen ∧
      (sumInt (c.missing p period) = p.numOpen → ∀ v ∈ opens, a v ≠ idle ∧
        ∀ item : Nat, (c.missing p period)[item]? = some 0 → a v ≠ item) := by
  have le := h.missing_le hperiod ha hadm
  have total : sumInt (c.missing p period) ≤ load a c.required.numRows opens := sumInt_le le
  have fits : load a c.required.numRows opens ≤ opens.length := load_le
  have numOpen := h.numOpen_eq
  refine ⟨by omega, fun heq v hv => ⟨fun hidle => ?_, fun item hitem hav => ?_⟩⟩
  · have := load_lt (n := c.required.numRows) hv hidle
    omega
  · obtain ⟨mem, hzero⟩ := getElem?_missing_eq_some.mp hitem
    have less := sumInt_sub_le le mem
    change sumInt (c.missing p period) - _ ≤ load a c.required.numRows opens - _ at less
    have := count_pos hv hav
    omega

variable (hs : s.Valid) (base : B → c.Base s.store)
include hs base

/-- Restricting an open period that is needed for the outstanding demand is no loss. -/
theorem filters_restrict {period : Nat} {t : Space} (hst : s.Narrows Filter.noCells t)
    (h : Counted c B s (c.plan.take (period + 1)) p opens t) (hperiod : period < c.plan.length)
    {outstanding : List Int}
    (known : ∀ a, Granted B c.Holds a → outstanding = c.missing p period ∧ sumInt (c.missing p period) = p.numOpen)
    (hv : v ∈ c.plan.take (period + 1)) :
    Filter.Filters Filter.noCells (Granted B c.Holds) B (restrict outstanding v) t True := by
  unfold restrict
  rw [Filter.filters_read]
  split
  · exact Filter.filters_pure trivial
  · rename_i hopen
    have opened : v ∈ opens :=
      (h.opened v hv).resolve_right fun ⟨x, hx⟩ => hopen (Store.isFixed_of_fixed? hx)
    refine (Filter.filters_each fun x hx u hu => Filter.filters_remove ((hst.trans hu).valid hs)
      (fun hB => ?_) fun a ha hadm => ?_).mono fun _ => trivial
    · exact (hst.trans hu).store.numVars_eq ▸ (base hB).known v (List.take_subset _ _ hv)
    · obtain ⟨busy, useful⟩ := (h.needed hperiod ha
        ((hst.trans hu).store.admits hs.store hadm)).2 (known a ha).2 v opened
      rcases mem_restricted.mp hx with rfl | ⟨item, hitem, rfl⟩
      · exact busy
      · exact useful item ((known a ha).1 ▸ hitem)

theorem ends_filterPeriod {seen : Bool × Progress} {period : Nat}
    (advance : Filter.Advance Filter.noCells (Granted B c.Holds) s seen.1 u)
    (h : Counted c B s before seen.2 opens u) (hperiod : period < c.plan.length)
    (hv : c.plan.take (period + 1) = before ++ [v]) :
    Ends (c.filterPeriod seen v period u)
      (fun seen' t => Filter.Advance Filter.noCells (Granted B c.Holds) s seen'.1 t ∧
        ∃ opens', Counted c B s (before ++ [v]) seen'.2 opens' t)
      (Filter.Halted Filter.noCells (Granted B c.Holds) B s) := by
  have valid := advance.narrows.valid hs
  have mem : v ∈ c.plan := List.take_subset (period + 1) _ (by rw [hv]; simp)
  have known (hB : B) : v < u.store.numVars :=
    advance.narrows.store.numVars_eq ▸ (base hB).known v mem
  refine Ends.mono (E := Filter.Halted Filter.noCells (Granted B c.Holds) B u) ?_
    (fun _ _ => id) fun _ _ ht => ht.after advance
  unfold filterPeriod
  rw [ends_bind, Filter.ends_read, ends_bind]
  refine Filter.ends_demand_of (fun hB => h.exists_add fun x hx => ?_) fun p' hp' => ?_
  · exact (base hB).planned v mem x (advance.narrows.store.contains hs.store (valid.store.contains_of_fixed? hx))
  · obtain ⟨opens', counted⟩ := h.add hp' fun a ha hadm x hx =>
      Store.eq_of_fixed? hx (advance.admits a ha hadm v (known ha.1))
    have counted' : Counted c B s (c.plan.take (period + 1)) p' opens' u := hv ▸ counted
    have bounded : p'.Bounded (period + 1) := by
      have := counted'.bounded
      rwa [List.length_take_of_le hperiod] at this
    have known (a : Assignment) (ha : Granted B c.Holds a) : c.outstanding p' period = c.missing p' period ∧
        total (c.outstanding p' period) = sumInt (c.missing p' period) := by
      have exact := (base ha.1).exact a ha.2
      have same := exact.outstanding_eq hperiod bounded
      exact ⟨same, same ▸ exact.total_missing hperiod bounded⟩
    rw [ends_ite]
    split
    · rename_i short
      refine ⟨.refl, fun _ _ h => (by cases h), fun _ _ a ha hadm => ?_⟩
      have := (counted'.needed hperiod ha (advance.narrows.store.admits hs.store hadm)).1
      have := (known a ha).2
      omega
    · rw [ends_ite]
      split
      · rename_i tight
        rw [ends_bind]
        refine Ends.mono_ok (Filter.filters_each (Q := fun _ _ => True) fun w hw t ht =>
          filters_restrict hs base (advance.narrows.trans ht) (counted'.narrows valid ht) hperiod
            (fun a ha => ⟨(known a ha).1, (known a ha).2.symm.trans tight.1⟩) hw) fun b t ht => ?_
        exact ⟨advance.trans ht.1, opens', counted.narrows valid ht.1.narrows⟩
      · exact ⟨advance, opens', counted⟩

theorem filters_pass :
    Filter.Filters Filter.noCells (Granted B c.Holds) B c.pass s True := by
  have start : Counted c B s [] { produced := Array.replicate c.required.numRows 0 } [] s := by
    refine ⟨Array.size_replicate, rfl, bounded_start _, fun a ha hadm item hi => ?_, fun v hv => by cases hv⟩
    simp [count, sumInt, hi]
  have fold := ends_foldlM_prefix (l := c.plan.zipIdx)
    (f := fun seen (x : Var × Nat) => c.filterPeriod seen x.1 x.2)
    (I := fun (before : List (Var × Nat)) (seen : Bool × Progress) (t : Space) =>
      Filter.Advance Filter.noCells (Granted B c.Holds) s seen.1 t ∧
      ∃ opens, Counted c B s (before.map Prod.fst) seen.2 opens t)
    (E := Filter.Halted Filter.noCells (Granted B c.Holds) B s)
    (b := (false, { produced := Array.replicate c.required.numRows 0 })) (s := s)
    (fun before x rest split seen t ht => ?_) ⟨.refl, [], start⟩
  · unfold pass Filter.Filters
    rw [ends_bind]
    exact Ends.mono_ok fold fun _ t ht => ⟨ht.1, fun _ => trivial⟩
  · obtain ⟨advance, opens, counted⟩ := ht
    obtain ⟨-, hlt, htake⟩ := mem_take_zipIdx split
    rw [List.map_append]
    exact ends_filterPeriod hs base advance counted hlt htake

end

/-- **Demand and capacity as a rule.** -/
def rule (c : DemandCapacity) : Rule where
  watches := c.watches
  filter := c.filter
  Base := c.Base
  Spec _ := True
  Holds := c.Holds
  base_congr := ⟨fun h => ⟨h.1, h.2, h.3⟩, fun h => ⟨h.1, h.2, h.3⟩⟩
  spec_congr := Iff.rfl
  base_narrows h hs hn := h.narrows hs hn
  spec_told _ _ _ _ _ _ := trivial
  filtered hs := Filter.ends_untilStable fun _ ht =>
    (filters_pass (ht.valid hs) fun hB => Base.narrows hB hs.store ht.store).mono fun _ _ => trivial

/-- The plan is known, and values can be removed from it. -/
def Fit (c : DemandCapacity) (s : Store) : Prop :=
  ∀ v ∈ c.plan, v < s.numVars ∧ (s.domain v).width ≤ Domain.holeLimit

/-- **Demand and capacity is idempotent**, if values can be removed from the plan: all that is read is which
periods are fixed, and what was removed from an open period stays so. -/
theorem idempotent (c : DemandCapacity) : c.rule.Idempotent c.Fit := by
  refine Rule.idempotent_of_pass c.pass rfl
    (fun fit hs hn v hv => ⟨hn.numVars_eq ▸ (fit v hv).1, (hn.width_eq v).symm ▸ (fit v hv).2⟩)
    (fun fit grown v hv => ?_)
    (fun s hs => ⟨_, False, _, filters_pass hs fun h => h.elim⟩) fun s t hs ht fit _ unnoticed => ?_
  · have known := grown.known (fit v hv).1
    exact ⟨known.1, known.2.symm ▸ (fit v hv).2⟩
  have fixed {v : Var} (hv : v ∈ c.plan) : (v, [Event.assign]) ∈ c.watches :=
    List.mem_map_of_mem (f := fun v => (v, [Event.assign])) hv
  have restricted {v : Var} (hv : v ∈ c.plan) (outstanding : List Int) :
      Filter.Persists Filter.Unchanged (restrict outstanding v) s t := by
    refine Filter.persists_read (unnoticed.isFixed_eq (fixed hv)) ?_
    split
    · exact Filter.persists_pure
    · refine Filter.persists_each fun x _ =>
        Filter.persists_remove unnoticed.numVars_eq hs.store ht.store fun gone => .inl ?_
      have out := gone.resolve_right fun h => by
        rw [((hs.store.domain v).hasHoles_iff).mpr (fit v hv).2] at h
        exact absurd h.1 (by simp)
      exact Bool.eq_false_iff.mpr (mt (unnoticed.contains v x) (Bool.eq_false_iff.mp out))
  unfold pass
  refine Filter.persists_bind (P := fun seen : Bool × Progress => Filter.Unchanged seen.1) ?_
    (fun seen _ => Filter.persists_pure) fun seen u b w hb h => ?_
  · refine Filter.persists_foldlM (Q := fun seen : Bool × Progress => Filter.Unchanged seen.1)
      (fun x hx seen _ => ?_) (fun x _ seen u seen' w hseen h => ?_) _ (Eq.refl false)
    · have hv : x.1 ∈ c.plan := List.mem_of_getElem? (List.mem_zipIdx_iff_getElem?.mp hx)
      unfold filterPeriod
      refine Filter.persists_read (unnoticed.fixed?_eq _ (fixed hv)) ?_
      refine Filter.persists_demand fun p _ => ?_
      dsimp only
      split
      · exact Filter.persists_refute
      · split
        · refine Filter.persists_bind (Filter.persists_each fun v hv => restricted (List.mem_of_mem_take hv) _)
            (fun changed _ => Filter.persists_pure) fun changed u b w hb h => ?_
          cases h
          exact (Bool.or_eq_false_iff.mp hb).1
        · exact Filter.persists_pure
    · obtain ⟨only?, u₁, -, h⟩ := bind_eq_ok h
      obtain ⟨p, u₂, -, h⟩ := bind_eq_ok h
      dsimp only at h
      split at h
      · cases h
      · split at h
        · obtain ⟨changed, u₃, -, h⟩ := bind_eq_ok h
          cases h
          exact (Bool.or_eq_false_iff.mp hseen).2
        · cases h
          exact hseen
  · cases h
    exact hb

end DemandCapacity
end BranchBound
