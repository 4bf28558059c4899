import BranchBound.Constraint.ChangeoverCost
import BranchBound.Proofs.Tables

/-! # Cheapest paths

A plan leads from the initial state to the item that is produced last (`pathEnd`) and pays for the
changeovers in between (`pathCost`).  The cheapest way to the end of the plans that are still possible is
put down in `best`, and the table of `backward?` shows it (`exists_backward`).  No plan that is still
possible gets to a state for less than what the table of `forward?` shows (`exists_forward`).

Costs saturate, which loses nothing of a plan that costs less than `unreachable`. -/
namespace BranchBound
namespace ChangeoverCost
variable (c : ChangeoverCost)

/-- A value of the plan is idle, or an item. -/
def Plannable (x : Int) : Prop := x = idle ∨ ∃ item : Nat, item < c.costs.numRows ∧ x = item

/-- There is a cost for every changeover, and none is negative. -/
structure Sound : Prop where
  square : c.costs.numRows = c.costs.numColumns
  nonneg : ∀ x ∈ c.costs.toList, 0 ≤ x

/-- The state behind a value, and what it costs to get there. -/
def move (state : Nat) (value : Int) : Nat × Int := (c.transition? state value).getD (state, 0)

/-- The state behind some values. -/
def pathEnd (state : Nat) : List Int → Nat
  | [] => state
  | x :: xs => pathEnd (c.move state x).1 xs

/-- What the changeovers between some values cost. -/
def pathCost (state : Nat) : List Int → Int
  | [] => 0
  | x :: xs => (c.move state x).2 + pathCost (c.move state x).1 xs

/-- The cost of the cheapest way from a state to the end. -/
def best : List (List Int) → Nat → Int
  | [], _ => 0
  | values :: plan, state =>
    values.foldl (fun b x => min b (plus (c.move state x).2 (best plan (c.move state x).1))) unreachable

variable {c} {state k : Nat} {x : Int} {xs ys : List Int}

theorem pathEnd_append : c.pathEnd state (xs ++ ys) = c.pathEnd (c.pathEnd state xs) ys := by
  induction xs generalizing state with
  | nil => rfl
  | cons x xs ih => exact ih

theorem pathCost_append :
    c.pathCost state (xs ++ ys) = c.pathCost state xs + c.pathCost (c.pathEnd state xs) ys := by
  induction xs generalizing state with
  | nil => exact (Int.zero_add _).symm
  | cons x xs ih =>
    simp only [List.cons_append, pathCost, pathEnd, ih, Int.add_assoc]

/-- A move is free, or costs what is in the table. -/
theorem transition?_cost {m : Nat × Int} (h : c.transition? state x = some m) :
    m.2 = 0 ∨ m.2 ∈ c.costs.toList := by
  unfold transition? at h
  split at h
  · cases h
    exact .inl rfl
  · obtain ⟨item, -, h⟩ := Option.bind_eq_some_iff.mp h
    split at h
    · cases h
      exact .inl rfl
    · obtain ⟨y, hy, h⟩ := Option.bind_eq_some_iff.mp h
      cases h
      exact .inr (Array.mem_toList_iff.mpr (Array.mem_of_getElem? hy))

section
variable (sound : c.Sound)
include sound

theorem Sound.transition (hs : state ≤ c.initial) (hx : c.Plannable x) :
    c.transition? state x = some (c.move state x) ∧ (c.move state x).1 ≤ c.initial := by
  have found : ∃ next cost, c.transition? state x = some (next, cost) ∧ next ≤ c.initial := by
    unfold transition?
    rcases hx with rfl | ⟨item, hitem, rfl⟩
    · exact ⟨state, 0, if_pos rfl, hs⟩
    · rw [if_neg item_ne_idle, position?_ofNat]
      simp only [Option.bind_eq_bind, Option.bind_some]
      by_cases free : state = c.initial ∨ state = item
      · have : (state = c.initial || state = item) = true := by simpa using free
        rw [if_pos this]
        exact ⟨item, 0, rfl, Nat.le_of_lt hitem⟩
      · have : ¬ (state = c.initial || state = item) = true := by simpa using free
        rw [if_neg this]
        have inside : state < c.costs.numRows := by
          unfold initial at free hs
          omega
        obtain ⟨cost, -, hcost⟩ := Matrix.exists_get? inside (sound.square ▸ hitem)
        rw [hcost]
        exact ⟨item, cost, rfl, Nat.le_of_lt hitem⟩
  obtain ⟨next, cost, h, hnext⟩ := found
  have : c.move state x = (next, cost) := by rw [move, h, Option.getD_some]
  rw [this]
  exact ⟨h, hnext⟩

theorem Sound.move_nonneg : 0 ≤ (c.move state x).2 := by
  unfold move
  cases h : c.transition? state x with
  | none => exact Int.le_refl 0
  | some m =>
    rcases transition?_cost h with free | mem
    · exact Int.le_of_eq free.symm
    · exact sound.nonneg _ mem

theorem Sound.pathCost_nonneg : 0 ≤ c.pathCost state xs := by
  induction xs generalizing state with
  | nil => exact Int.le_refl 0
  | cons x xs ih => exact Int.add_nonneg sound.move_nonneg ih

omit sound in
/-- No plan pays more than the dearest changeover in every period. -/
theorem pathCost_le {most : Int} (nonneg : 0 ≤ most) (h : ∀ x ∈ c.costs.toList, x ≤ most) :
    c.pathCost state xs ≤ most * xs.length := by
  induction xs generalizing state with
  | nil => exact Int.le_of_eq (Int.mul_zero most).symm
  | cons x xs ih =>
    have first : (c.move state x).2 ≤ most := by
      unfold move
      cases hm : c.transition? state x with
      | none => exact nonneg
      | some m =>
        rcases transition?_cost hm with free | mem
        · rw [Option.getD_some, free]
          exact nonneg
        · exact h _ mem
    have rest : c.pathCost (c.move state x).1 xs ≤ most * xs.length := ih
    rw [List.length_cons, Int.natCast_succ, Int.mul_add, Int.mul_one, pathCost]
    omega

theorem Sound.pathEnd_le (hs : state ≤ c.initial) (hx : ∀ x ∈ xs, c.Plannable x) :
    c.pathEnd state xs ≤ c.initial := by
  induction xs generalizing state with
  | nil => exact hs
  | cons x xs ih =>
    exact ih (sound.transition hs (hx x List.mem_cons_self)).2 fun y hy =>
      hx y (List.mem_cons_of_mem x hy)

end
/-! ## Saturation -/

theorem plus_nonneg {a b : Int} (ha : 0 ≤ a) (hb : 0 ≤ b) : 0 ≤ plus a b := by
  unfold plus unreachable Word.maxInteger
  omega

theorem plus_le {a b : Int} (ha : 0 ≤ a) (hb : 0 ≤ b) : plus a b ≤ a + b := by
  unfold plus Word.minInteger
  omega

theorem plus_min {a b : Int} (ha : 0 ≤ a) (hb : 0 ≤ b) :
    plus a (min unreachable b) = min unreachable (a + b) := by
  unfold plus unreachable Word.maxInteger Word.minInteger
  omega

/-! ## The best that is still possible -/

section
variable (sound : c.Sound) {s : Var → List Int} {a : Var → Int} {vs : List Var}
include sound

theorem Sound.best_nonneg {plan : List (List Int)} : 0 ≤ c.best plan state := by
  induction plan generalizing state with
  | nil => exact Int.le_refl 0
  | cons values plan ih =>
    exact le_foldl_min.mpr ⟨by decide, fun x _ => plus_nonneg sound.move_nonneg ih⟩

/-- **No plan that is possible is cheaper than the best.** -/
theorem Sound.best_le (h : ∀ v ∈ vs, a v ∈ s v) :
    c.best (vs.map s) state ≤ c.pathCost state (vs.map a) := by
  induction vs generalizing state with
  | nil => exact Int.le_refl 0
  | cons v vs ih =>
    have here := (le_foldl_min.mp (Int.le_refl (c.best ((v :: vs).map s) state))).2 (a v)
      (h v List.mem_cons_self)
    have move : 0 ≤ (c.move state (a v)).2 := sound.move_nonneg
    have best : 0 ≤ c.best (vs.map s) (c.move state (a v)).1 := sound.best_nonneg
    have := plus_le move best
    have rest : c.best (vs.map s) (c.move state (a v)).1 ≤ c.pathCost (c.move state (a v)).1 (vs.map a) :=
      ih fun w hw => h w (List.mem_cons_of_mem v hw)
    simp only [List.map_cons, pathCost] at here ⊢
    omega

/-- **If there is only one plan, the best is what it costs.** -/
theorem Sound.best_fixed (h : ∀ v ∈ vs, s v = [a v]) :
    c.best (vs.map s) state = min unreachable (c.pathCost state (vs.map a)) := by
  induction vs generalizing state with
  | nil => rfl
  | cons v vs ih =>
    rw [List.map_cons, h v List.mem_cons_self, best, List.foldl_cons, List.foldl_nil,
      ih fun w hw => h w (List.mem_cons_of_mem v hw),
      plus_min sound.move_nonneg sound.pathCost_nonneg, List.map_cons, pathCost]
    omega

end
/-! ## The way to the end -/

section
variable {t : Matrix Int} {f : Nat → Nat → Int} {n m period : Nat} {values : List Int}

/-- A row that is filled from left to right, with what does not depend on it. -/
theorem exists_fill (look : Matrix Int → Nat → Option Int) (g : Nat → Int) (ht : t.Shows n m f)
    (hp : period < n) (h : ∀ t' f', t'.Shows n m f' → (∀ i j, i ≠ period → f' i j = f i j) →
      ∀ j, j < m → look t' j = some (g j)) :
    ∃ t', (List.range m).foldlM (fun t j => do return t.set period j (← look t j)) t = some t' ∧
      t'.Shows n m fun i j => if i = period then g j else f i j := by
  have filled := foldlM_option (l := List.range m)
    (f := fun t j => do return t.set period j (← look t j))
    (I := fun before t => t.Shows n m fun i j => if i = period ∧ j ∈ before then g j else f i j)
    (b := t) (fun before j rest split t' ht' => ?_)
    (ht.congr fun i j _ _ => if_neg fun h => by cases h.2)
  · obtain ⟨t', ht', shows⟩ := filled
    refine ⟨t', ht', shows.congr fun i j _ hj => ?_⟩
    simp [hj]
  · have hj : j < m := List.mem_range.mp (by rw [split]; simp)
    have found := h t' _ ht' (fun i j hi => if_neg fun h => hi h.1) j hj
    refine ⟨t'.set period j (g j), by rw [found]; rfl, (ht'.set hp hj).congr fun i j' _ _ => ?_⟩
    by_cases hi : i = period <;> by_cases hj' : j' = j <;> simp [hi, hj']

theorem shows_fill (ht : t.Shows n m f) (hp : period < n) (x : Int) :
    ((List.range m).foldl (fun t j => t.set period j x) t).Shows n m fun i j =>
      if i = period then x else f i j := by
  obtain ⟨t', ht', shows⟩ := exists_fill (fun _ _ => some x) (fun _ => x) ht hp
    fun _ _ _ _ _ _ => rfl
  have pure : (List.range m).foldlM (fun t j => some (t.set period j x)) t =
      some ((List.range m).foldl (fun t j => t.set period j x) t) := List.foldlM_pure
  rw [← Option.some.inj (ht'.symm.trans pure)]
  exact shows

variable (sound : c.Sound)
include sound

theorem Sound.cheapest_eq (ht : t.Shows (n + 1) (c.initial + 1) f) (hp : period < n)
    (hs : state ≤ c.initial) (hx : ∀ x ∈ values, c.Plannable x) :
    c.cheapest? t period state values = some (values.foldl (fun b x =>
      min b (plus (c.move state x).2 (f (period + 1) (c.move state x).1))) unreachable) := by
  unfold cheapest?
  generalize unreachable = b
  induction values generalizing b with
  | nil => rfl
  | cons x values ih =>
    obtain ⟨move, le⟩ := sound.transition hs (hx x List.mem_cons_self)
    rw [List.foldlM_cons, List.foldl_cons, move]
    have entry := ht.get?_eq (period + 1) (c.move state x).1 (by omega) (by omega)
    simp only [Option.bind_eq_bind, Option.bind_some, entry, Option.pure_def]
    exact ih (fun y hy => hx y (List.mem_cons_of_mem x hy)) _

/-- **The table shows the best that is still possible from every state on.** -/
theorem Sound.exists_backward {plan : List (List Int)}
    (hx : ∀ values ∈ plan, ∀ x ∈ values, c.Plannable x) :
    ∃ t, c.backward? plan = some t ∧
      t.Shows (plan.length + 1) (c.initial + 1) fun i state => c.best (plan.drop i) state := by
  have blank : (c.blank plan.length).Shows (plan.length + 1) (c.initial + 1) fun _ _ => unreachable :=
    Matrix.shows_replicate
  have last := shows_fill blank (Nat.lt_succ_self plan.length) 0
  have filled := foldlM_option (l := plan.zipIdx.reverse)
    (f := fun t (x : List Int × Nat) => c.states.foldlM (fun t state => do
      return t.set x.2 state (← c.cheapest? t x.2 state x.1)) t)
    (I := fun before t => t.Shows (plan.length + 1) (c.initial + 1) fun i state =>
      if plan.length ≤ i + before.length then c.best (plan.drop i) state else unreachable)
    (fun before x rest split t ht => ?_) (last.congr fun i state hi _ => ?_)
  · obtain ⟨t, ht, shows⟩ := filled
    refine ⟨t, ht, shows.congr fun i state _ _ => ?_⟩
    rw [List.length_reverse, List.length_zipIdx, if_pos (Nat.le_add_left _ _)]
  · obtain ⟨values, period⟩ := x
    have split' : plan.zipIdx = rest.reverse ++ (values, period) :: before.reverse := by
      rw [← List.reverse_reverse plan.zipIdx, split]
      simp
    obtain ⟨hperiod, hlt, -⟩ := mem_take_zipIdx split'
    have length := congrArg List.length split'
    simp only [List.length_zipIdx, List.length_append, List.length_reverse, List.length_cons] at length hperiod
    have at_period : plan[period]? = some values :=
      List.mem_zipIdx_iff_getElem?.mp (show (values, period) ∈ plan.zipIdx by rw [split']; simp)
    have drop : plan.drop period = values :: plan.drop (period + 1) := by
      obtain ⟨h, heq⟩ := List.getElem?_eq_some_iff.mp at_period
      rw [List.drop_eq_getElem_cons h, heq]
    obtain ⟨t', ht', shows⟩ := exists_fill (fun t state => c.cheapest? t period state values)
      (c.best (plan.drop period)) ht (show period < plan.length + 1 by omega)
      fun t' f' shows same state hs => by
        rw [sound.cheapest_eq shows hlt (Nat.le_of_lt_succ hs) (hx values (List.mem_of_getElem? at_period)),
          drop, best]
        have known : plan.length ≤ period + 1 + before.length := by omega
        simp only [same (period + 1) _ (Nat.succ_ne_self period), if_pos known]
    refine ⟨t', ht', shows.congr fun i state _ _ => ?_⟩
    rw [List.length_append, List.length_singleton]
    by_cases hi : i = period
    · rw [hi, if_pos rfl, if_pos (by omega)]
    · rw [if_neg hi]
      congr 1
      exact propext ⟨fun h => by omega, fun h => by omega⟩
  · by_cases h : i = plan.length
    · rw [h, if_pos rfl, if_pos (Nat.le_add_right _ _), List.drop_length]
      rfl
    · rw [if_neg h, if_neg]
      simp only [List.length_nil]
      omega

end
/-! ## The way from the start -/

/-- What became of a table when the costs of a period were added for some states and values. -/
structure Extended (c : ChangeoverCost) (period : Nat) (f : Nat → Nat → Int) (added : Nat → Int → Prop)
    (g : Nat → Nat → Int) : Prop where
  others : ∀ i j, i ≠ period + 1 → g i j = f i j
  nonneg : ∀ j, 0 ≤ g (period + 1) j
  least : ∀ state x, added state x →
    g (period + 1) (c.move state x).1 ≤ plus (f period state) (c.move state x).2

/-- Every cost that a table shows behind a period was added for a state and a value, or is that of no path. -/
def Drawn (c : ChangeoverCost) (period : Nat) (f : Nat → Nat → Int) (added : Nat → Int → Prop)
    (g : Nat → Nat → Int) : Prop :=
  ∀ j, g (period + 1) j = unreachable ∨ ∃ state x, added state x ∧ (c.move state x).1 = j ∧
    g (period + 1) j = plus (f period state) (c.move state x).2

section
variable {f g : Nat → Nat → Int} {n period : Nat} {added : Nat → Int → Prop} {t : Matrix Int}
  {values : List Int}

theorem Drawn.congr {added' : Nat → Int → Prop} (h : Drawn c period f added g)
    (h' : ∀ state x, added state x → added' state x) : Drawn c period f added' g :=
  fun j => (h j).imp_right fun ⟨state, x, hx, rest⟩ => ⟨state, x, h' state x hx, rest⟩

theorem Drawn.add {state : Nat} {x : Int} (h : Drawn c period f added g) :
    Drawn c period f (fun state' y => added state' y ∨ state' = state ∧ y = x)
      fun i' j' => if i' = period + 1 ∧ j' = (c.move state x).1 then
        min (g (period + 1) (c.move state x).1) (plus (f period state) (c.move state x).2) else g i' j' := by
  have before : Drawn c period f (fun state' y => added state' y ∨ state' = state ∧ y = x) g :=
    h.congr fun _ _ hx => .inl hx
  intro j
  dsimp only
  by_cases hj : j = (c.move state x).1
  · subst hj
    rw [if_pos ⟨rfl, rfl⟩]
    rcases Int.le_total (g (period + 1) (c.move state x).1) (plus (f period state) (c.move state x).2) with le | le
    · rw [Int.min_eq_left le]
      exact before _
    · rw [Int.min_eq_right le]
      exact .inr ⟨state, x, .inr ⟨rfl, rfl⟩, rfl, rfl⟩
  · rw [if_neg fun h => hj h.2]
    exact before j

theorem Extended.congr {added' : Nat → Int → Prop} (h : Extended c period f added g)
    (h' : ∀ state x, added' state x → added state x) : Extended c period f added' g :=
  ⟨h.others, h.nonneg, fun state x hx => h.least state x (h' state x hx)⟩

theorem Extended.add {j : Nat} {cost : Int} (h : Extended c period f added g) (pos : 0 ≤ cost) :
    Extended c period f (fun state x => added state x ∨
      (c.move state x).1 = j ∧ cost = plus (f period state) (c.move state x).2)
      fun i' j' => if i' = period + 1 ∧ j' = j then min (g (period + 1) j) cost else g i' j' where
  others i j hi := by
    rw [if_neg fun h => hi h.1]
    exact h.others i j hi
  nonneg j' := by
    have := h.nonneg j
    have := h.nonneg j'
    split <;> omega
  least state x hx := by
    rcases hx with hx | ⟨rfl, rfl⟩
    · have := h.least state x hx
      split
      · rename_i heq
        rw [← heq.2]
        omega
      · exact this
    · rw [if_pos ⟨rfl, rfl⟩]
      exact Int.min_le_right _ _

theorem exists_improve {m i j : Nat} (ht : t.Shows n m g) (hi : i < n) (hj : j < m) (cost : Int) :
    ∃ t', improve? t i j cost = some t' ∧
      t'.Shows n m fun i' j' => if i' = i ∧ j' = j then min (g i j) cost else g i' j' := by
  refine ⟨t.set i j (min (g i j) cost), ?_, ht.set hi hj⟩
  unfold improve?
  rw [ht.get?_eq i j hi hj]
  rfl

variable (sound : c.Sound)
include sound

/-- A period is added with all of its values, for one state. -/
theorem Sound.exists_extend_state {state : Nat} (shows : t.Shows (n + 1) (c.initial + 1) g)
    (extended : Extended c period f added g) (drawn : Drawn c period f added g) (hp : period < n)
    (hs : state ≤ c.initial)
    (pos : 0 ≤ f period state) (hx : ∀ x ∈ values, c.Plannable x) :
    ∃ t', (values.foldlM (fun t value => do
        let step ← c.transition? state value
        improve? t (period + 1) step.1 (plus (f period state) step.2)) t) = some t' ∧
      ∃ g', t'.Shows (n + 1) (c.initial + 1) g' ∧
        Extended c period f (fun state' x => added state' x ∨ state' = state ∧ x ∈ values) g' ∧
        Drawn c period f (fun state' x => added state' x ∨ state' = state ∧ x ∈ values) g' := by
  refine foldlM_option (I := fun seen (t : Matrix Int) => ∃ g, t.Shows (n + 1) (c.initial + 1) g ∧
      Extended c period f (fun state' x => added state' x ∨ state' = state ∧ x ∈ seen) g ∧
      Drawn c period f (fun state' x => added state' x ∨ state' = state ∧ x ∈ seen) g)
    (fun seen x rest split t ht => ?_)
    ⟨g, shows, extended.congr fun _ _ h => h.resolve_right fun h => (by cases h.2),
      drawn.congr fun _ _ h => .inl h⟩
  obtain ⟨g, shows, extended, drawn⟩ := ht
  obtain ⟨transition, le⟩ := sound.transition hs (hx x (by rw [split]; simp))
  obtain ⟨t', ht', shows'⟩ := exists_improve shows (show period + 1 < n + 1 by omega)
    (Nat.lt_succ_of_le le) (plus (f period state) (c.move state x).2)
  refine ⟨t', by rw [transition]; exact ht', _, shows',
    (extended.add (plus_nonneg pos sound.move_nonneg)).congr fun state' y h => ?_,
    drawn.add.congr fun state' y h => ?_⟩
  · rcases h with h | ⟨rfl, hy⟩
    · exact .inl (.inl h)
    · rcases List.mem_append.mp hy with hy | hy
      · exact .inl (.inr ⟨rfl, hy⟩)
      · obtain rfl := List.mem_singleton.mp hy
        exact .inr ⟨rfl, rfl⟩
  · rcases h with (h | ⟨rfl, hy⟩) | ⟨rfl, rfl⟩
    · exact .inl h
    · exact .inr ⟨rfl, List.mem_append_left [x] hy⟩
    · exact .inr ⟨rfl, List.mem_append_right seen (List.mem_singleton_self _)⟩

/-- A period is added with all of its values, for every state that can be reached. -/
theorem Sound.exists_extend (ht : t.Shows (n + 1) (c.initial + 1) f) (hp : period < n)
    (pos : ∀ state, 0 ≤ f period state) (hx : ∀ x ∈ values, c.Plannable x) :
    ∃ t' g, c.extend? t period values = some t' ∧ t'.Shows (n + 1) (c.initial + 1) g ∧
      Extended c period f (fun state x => state ≤ c.initial ∧ f period state ≠ unreachable ∧ x ∈ values)
        g ∧
      Drawn c period f (fun state x => state ≤ c.initial ∧ f period state ≠ unreachable ∧ x ∈ values)
        g := by
  have cleared := shows_fill ht (show period + 1 < n + 1 by omega) unreachable
  have start : Extended c period f (fun _ _ => False) fun i j =>
      if i = period + 1 then unreachable else f i j := by
    refine ⟨fun i j hi => if_neg hi, fun j => ?_, fun _ _ h => h.elim⟩
    rw [if_pos rfl]
    decide
  have none : Drawn c period f (fun _ _ => False) fun i j =>
      if i = period + 1 then unreachable else f i j := fun j => .inl (if_pos rfl)
  have extended := foldlM_option (l := c.states)
    (f := fun t state => do
      let sofar ← t.get? period state
      if sofar = unreachable then return t
      else values.foldlM (fun t value => do
        let step ← c.transition? state value
        improve? t (period + 1) step.1 (plus sofar step.2)) t)
    (I := fun before t => ∃ g, t.Shows (n + 1) (c.initial + 1) g ∧
      Extended c period f (fun state x => state ∈ before ∧ f period state ≠ unreachable ∧ x ∈ values) g ∧
      Drawn c period f (fun state x => state ∈ before ∧ f period state ≠ unreachable ∧ x ∈ values) g)
    (fun before state rest split t ht => ?_)
    ⟨_, cleared, start.congr fun _ _ h => (by cases h.1), none.congr fun _ _ h => h.elim⟩
  · obtain ⟨t', ht', g, shows, extended, drawn⟩ := extended
    refine ⟨t', g, ht', shows, extended.congr fun state x hx => ?_, drawn.congr fun state x hx => ?_⟩
    · exact ⟨List.mem_range.mpr (Nat.lt_succ_of_le hx.1), hx.2⟩
    · exact ⟨Nat.le_of_lt_succ (List.mem_range.mp hx.1), hx.2⟩
  · obtain ⟨g, shows, extended, drawn⟩ := ht
    have hs : state < c.initial + 1 := List.mem_range.mp (show state ∈ c.states by rw [split]; simp)
    have sofar : t.get? period state = some (f period state) := by
      rw [shows.get?_eq period state (by omega) hs, extended.others period state (by omega)]
    rw [sofar]
    simp only [Option.bind_eq_bind, Option.bind_some]
    split
    · rename_i unreached
      refine ⟨t, rfl, g, shows, extended.congr fun state' x h => ?_, drawn.congr fun state' x h =>
        ⟨List.mem_append_left [state] h.1, h.2⟩⟩
      rcases List.mem_append.mp h.1 with hb | hb
      · exact ⟨hb, h.2⟩
      · obtain rfl := List.mem_singleton.mp hb
        exact absurd unreached h.2.1
    · rename_i reached
      obtain ⟨t', ht', g', shows', extended', drawn'⟩ :=
        sound.exists_extend_state shows extended drawn hp (Nat.le_of_lt_succ hs) (pos state) hx
      refine ⟨t', ht', g', shows', extended'.congr fun state' x h => ?_, drawn'.congr fun state' x h => ?_⟩
      · rcases List.mem_append.mp h.1 with hb | hb
        · exact .inl ⟨hb, h.2⟩
        · exact .inr ⟨List.mem_singleton.mp hb, h.2.2⟩
      · rcases h with h | ⟨rfl, hx⟩
        · exact ⟨List.mem_append_left [state] h.1, h.2⟩
        · exact ⟨List.mem_append_right before (List.mem_singleton_self _), reached, hx⟩

/-- What the table says of the first periods: no plan that is possible is cheaper, unless its cost is that
of no path. -/
structure Reaches (c : ChangeoverCost) (s : Var → List Int) (vs : List Var) (n : Nat)
    (f : Nat → Nat → Int) : Prop where
  nonneg : ∀ i j, 0 ≤ f i j
  least : ∀ k, k ≤ n → ∀ a : Var → Int, (∀ v ∈ vs.take k, a v ∈ s v) →
    c.pathCost c.initial ((vs.take k).map a) < unreachable →
    f k (c.pathEnd c.initial ((vs.take k).map a)) ≤ c.pathCost c.initial ((vs.take k).map a)

/-- How the rows of a table come from each other, for the periods before one. -/
structure Rows (c : ChangeoverCost) (s : Var → List Int) (vs : List Var) (n : Nat)
    (f : Nat → Nat → Int) : Prop where
  first : ∀ j, f 0 j = if j = c.initial then 0 else unreachable
  extended : ∀ k v, k < n → vs[k]? = some v →
    Extended c k f (fun state x => state ≤ c.initial ∧ f k state ≠ unreachable ∧ x ∈ s v) f
  drawn : ∀ k v, k < n → vs[k]? = some v →
    Drawn c k f (fun state x => state ≤ c.initial ∧ f k state ≠ unreachable ∧ x ∈ s v) f

variable {s : Var → List Int} {vs : List Var}

omit sound in
theorem Rows.extend {v : Var} (h : Rows c s vs k f) (hv : vs[k]? = some v)
    (extended : Extended c k f
      (fun state x => state ≤ c.initial ∧ f k state ≠ unreachable ∧ x ∈ s v) g)
    (drawn : Drawn c k f
      (fun state x => state ≤ c.initial ∧ f k state ≠ unreachable ∧ x ∈ s v) g) :
    Rows c s vs (k + 1) g := by
  have row (i : Nat) (hi : i ≤ k) (j : Nat) : g i j = f i j := extended.others i j (by omega)
  have here (i : Nat) (w : Var) (hi : i < k + 1) (hw : vs[i]? = some w) :
      (∀ state x, state ≤ c.initial ∧ g i state ≠ unreachable ∧ x ∈ s w →
        g (i + 1) (c.move state x).1 ≤ plus (g i state) (c.move state x).2) ∧
      (∀ j, 0 ≤ g (i + 1) j) ∧
      Drawn c i g (fun state x => state ≤ c.initial ∧ g i state ≠ unreachable ∧ x ∈ s w) g := by
    unfold Drawn
    simp only [row i (Nat.le_of_lt_succ hi)]
    rcases Nat.lt_succ_iff_lt_or_eq.mp hi with lt | rfl
    · simp only [row (i + 1) lt]
      exact ⟨(h.extended i w lt hw).least, (h.extended i w lt hw).nonneg, h.drawn i w lt hw⟩
    · obtain rfl := Option.some.inj (hv.symm.trans hw)
      exact ⟨extended.least, extended.nonneg, drawn⟩
  refine ⟨fun j => row 0 (Nat.zero_le k) j ▸ h.first j, fun i w hi hw => ?_, fun i w hi hw => (here i w hi hw).2.2⟩
  exact ⟨fun _ _ _ => rfl, (here i w hi hw).2.1, (here i w hi hw).1⟩

theorem Sound.reaches_extend {v : Var} (h : Reaches c s vs k f) (hv : vs[k]? = some v)
    (hx : ∀ w ∈ vs, ∀ x ∈ s w, c.Plannable x)
    (extended : Extended c k f
      (fun state x => state ≤ c.initial ∧ f k state ≠ unreachable ∧ x ∈ s v) g) :
    Reaches c s vs (k + 1) g := by
  refine ⟨fun i j => ?_, fun i hi a ha small => ?_⟩
  · by_cases hi : i = k + 1
    · exact hi ▸ extended.nonneg j
    · exact extended.others i j hi ▸ h.nonneg i j
  · rcases Nat.lt_or_eq_of_le hi with hi | rfl
    · rw [extended.others i _ (by omega)]
      exact h.least i (Nat.le_of_lt_succ hi) a ha small
    · have take : vs.take (k + 1) = vs.take k ++ [v] := by
        rw [List.take_add_one, hv]
        rfl
      rw [take] at ha small ⊢
      rw [List.map_append, pathCost_append] at small ⊢
      rw [pathEnd_append]
      simp only [List.map_cons, List.map_nil, pathCost, pathEnd, Int.add_zero] at small ⊢
      have move : 0 ≤ (c.move (c.pathEnd c.initial ((vs.take k).map a)) (a v)).2 := sound.move_nonneg
      have before := h.least k (Nat.le_refl k) a
        (fun w hw => ha w (List.mem_append_left [v] hw)) (by omega)
      have plannable : ∀ x ∈ (vs.take k).map a, c.Plannable x := fun x hx' => by
        obtain ⟨w, hw, rfl⟩ := List.mem_map.mp hx'
        exact hx w (List.take_subset k vs hw) _ (ha w (List.mem_append_left [v] hw))
      have := extended.least _ (a v) ⟨sound.pathEnd_le (Nat.le_refl _) plannable, by omega,
        ha v (List.mem_append_right _ (List.mem_singleton_self v))⟩
      have := plus_le (h.nonneg k (c.pathEnd c.initial ((vs.take k).map a))) move
      omega

/-- **No plan that is possible gets anywhere for less than the table shows.** -/
theorem Sound.exists_forward (hx : ∀ v ∈ vs, ∀ x ∈ s v, c.Plannable x) :
    ∃ t f, c.forward? (vs.map s) = some t ∧ t.Shows (vs.length + 1) (c.initial + 1) f ∧
      Reaches c s vs vs.length f ∧ Rows c s vs vs.length f := by
  have blank : (c.blank (vs.map s).length).Shows (vs.length + 1) (c.initial + 1)
      fun _ _ => unreachable := by
    rw [List.length_map]
    exact Matrix.shows_replicate
  have extended := foldlM_option (l := (vs.map s).zipIdx)
    (f := fun t (x : List Int × Nat) => c.extend? t x.2 x.1)
    (I := fun before t => ∃ f, t.Shows (vs.length + 1) (c.initial + 1) f ∧
      Reaches c s vs before.length f ∧ Rows c s vs before.length f)
    (fun before x rest split t ht => ?_)
    (b := (c.blank (vs.map s).length).set 0 c.initial 0)
    ⟨_, blank.set (Nat.zero_lt_succ _) (Nat.lt_succ_self _), ⟨fun i j => ?_, fun k hk a _ _ => ?_⟩,
      fun j => ?_, fun _ _ hk => absurd hk (Nat.not_lt_zero _), fun _ _ hk => absurd hk (Nat.not_lt_zero _)⟩
  · obtain ⟨t, ht, f, shows, reaches, rows⟩ := extended
    rw [List.length_zipIdx, List.length_map] at reaches rows
    exact ⟨t, f, ht, shows, reaches, rows⟩
  · obtain ⟨values, i⟩ := x
    obtain ⟨f, shows, reaches, rows⟩ := ht
    obtain ⟨hi, hlt, -⟩ := mem_take_zipIdx split
    have at_i := List.mem_zipIdx_iff_getElem?.mp
      (show (values, i) ∈ (vs.map s).zipIdx by rw [split]; simp)
    rw [List.getElem?_map] at at_i
    obtain ⟨v, hv, rfl⟩ := Option.map_eq_some_iff.mp at_i
    rw [List.length_map] at hlt
    obtain ⟨t', g, ht', shows', extended, drawn⟩ := sound.exists_extend shows hlt (reaches.nonneg i)
      (hx v (List.mem_of_getElem? hv))
    subst hi
    refine ⟨t', ht', g, shows', ?_⟩
    rw [List.length_append, List.length_singleton]
    exact ⟨sound.reaches_extend reaches hv hx extended, rows.extend hv extended drawn⟩
  · split <;> decide
  · obtain rfl : k = 0 := Nat.le_zero.mp hk
    rw [if_pos ⟨rfl, rfl⟩]
    exact Int.le_refl 0
  · simp only [true_and]

end
end ChangeoverCost
end BranchBound
