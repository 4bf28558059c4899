import BranchBound.Proofs.Search
import BranchBound.Solution

/-! # What a search has still to find

An assignment that no propagator takes away is never lost by a search: at any time an assignment at
least as good is known, or it is within the domains of the current node, or it is within the domains
that a choice point returns to, and has an untried value there (`Search.Covered`).  Together with
where the search stands this is the invariant of a search (`Search.Inv`).

**Every step keeps the invariant and lowers the potential** (`ends_step`).  So a run ends only where
the condition stops it or the search is exhausted (`ends_run`), and when it is exhausted everything
is beaten. -/
namespace BranchBound
namespace Search
variable {π κ : Type}

/-! ## Weights -/

/-- What the search of a node can take, below some choice points. -/
def nodeWeight (breadth numDecisions : Nat) (cs : List ChoicePoint) : Nat :=
  nodePotential breadth (numDecisions - cs.length)

/-- What is left to do at some choice points. -/
def pendingWeight (breadth numDecisions : Nat) (cs : List ChoicePoint) : Nat :=
  pendingPotential breadth (nodeWeight breadth numDecisions cs) cs

/-- What is left to do from a phase on. -/
def weight (breadth numDecisions : Nat) (cs : List ChoicePoint) (p : Phase) : Nat :=
  match p with
  | .propagating => nodeWeight breadth numDecisions cs + pendingWeight breadth numDecisions cs
  | .quiescent => nodeWeight breadth numDecisions cs - 1 + pendingWeight breadth numDecisions cs
  | .branching | .complete =>
    nodeWeight breadth numDecisions cs - 2 + pendingWeight breadth numDecisions cs
  | .failed => 1 + pendingWeight breadth numDecisions cs
  | .exhausted => 0

section
variable {b n : Nat} {c d : ChoicePoint} {above : List ChoicePoint}

theorem four_le_nodePotential (b k : Nat) : 4 ≤ nodePotential b k := by
  cases k with
  | zero => exact Nat.le_refl 4
  | succ k => exact Nat.le_add_left 4 _

theorem nodeWeight_above (h : (c :: above).length ≤ n) :
    nodeWeight b n above = b * nodeWeight b n (c :: above) + 4 := by
  have : n - above.length = (n - (c :: above).length) + 1 := by
    rw [List.length_cons] at h ⊢
    omega
  rw [nodeWeight, this]
  rfl

theorem pendingWeight_cons (h : (c :: above).length ≤ n) :
    pendingWeight b n (c :: above) =
      c.untried.length * nodeWeight b n (c :: above) + pendingWeight b n above := by
  rw [pendingWeight, pendingPotential, ← nodeWeight_above h]
  rfl

/-- Leaving a choice point is no more to do. -/
theorem pendingWeight_above_le (h : (c :: above).length ≤ n) :
    pendingWeight b n above ≤ pendingWeight b n (c :: above) := by
  rw [pendingWeight_cons h]
  exact Nat.le_add_left _ _

/-- Every phase of a node leaves less to do than the phase before it. -/
theorem weight_phase_lt (b n : Nat) (cs : List ChoicePoint) :
    weight b n cs .quiescent < weight b n cs .propagating ∧
      weight b n cs .branching < weight b n cs .quiescent ∧
      weight b n cs .complete < weight b n cs .quiescent ∧
      weight b n cs .failed < weight b n cs .complete := by
  have node : 4 ≤ nodeWeight b n cs := four_le_nodePotential b (n - cs.length)
  unfold weight
  dsimp only
  omega

/-- A node below a further value costs one of the values that were to be tried. -/
theorem weight_advance (h : (c :: above).length ≤ n)
    (less : d.untried.length + 1 ≤ c.untried.length) :
    nodeWeight b n (d :: above) + pendingWeight b n (d :: above) ≤ pendingWeight b n (c :: above) := by
  have same : nodeWeight b n (d :: above) = nodeWeight b n (c :: above) := rfl
  rw [pendingWeight_cons h, pendingWeight_cons (c := d) h, same]
  have := Nat.mul_le_mul_right (nodeWeight b n (c :: above)) less
  rw [Nat.succ_mul] at this
  omega

/-- A node is worth more than the nodes below all values of a choice point. -/
theorem weight_branch (h : (c :: above).length ≤ n) (fits : c.untried.length + 1 ≤ b) :
    nodeWeight b n (c :: above) + pendingWeight b n (c :: above) <
      nodeWeight b n above - 2 + pendingWeight b n above := by
  rw [pendingWeight_cons h, nodeWeight_above h]
  have := Nat.mul_le_mul_right (nodeWeight b n (c :: above)) fits
  rw [Nat.succ_mul] at this
  omega

end

/-- The greatest number of values that a decision was declared with. -/
def Root.breadth (R : Root π) : Nat :=
  R.decisions.foldl (fun n v => max n (R.engine.store.domain v).width) 1

theorem Root.width_le_breadth {R : Root π} {v : Var} (hv : v ∈ R.decisions) :
    (R.engine.store.domain v).width ≤ R.breadth := by
  have fold (vs : List Var) (n : Nat) :
      n ≤ vs.foldl (fun n v => max n (R.engine.store.domain v).width) n ∧
        ∀ v ∈ vs, (R.engine.store.domain v).width ≤
          vs.foldl (fun n v => max n (R.engine.store.domain v).width) n := by
    induction vs generalizing n with
    | nil => exact ⟨Nat.le_refl n, fun v hv => by cases hv⟩
    | cons w vs ih =>
      obtain ⟨le, all⟩ := ih (max n (R.engine.store.domain w).width)
      refine ⟨Nat.le_trans (Nat.le_max_left _ _) le, fun v hv => ?_⟩
      rcases List.mem_cons.mp hv with rfl | hv
      · exact Nat.le_trans (Nat.le_max_right _ _) le
      · exact all v hv
  exact (fold R.decisions 1).2 v hv

/-! ## The invariant -/

/-- Whether the search is at a node in a phase. -/
def Active : Phase → Prop
  | .failed | .exhausted => False
  | .propagating | .quiescent | .branching | .complete => True

/-- What a phase says of the engine and of the domains. -/
def Agrees (p : Phase) (m : Engine.Mode) (s : Search π) : Prop :=
  match p with
  | .propagating => m.Idle
  | .quiescent => m = .quiet ∧ s.Bounded
  | .branching => m = .quiet ∧ ∃ v ∈ s.decisions, v < s.store.numVars ∧ s.store.isFixed v = false
  | .complete => m = .quiet ∧ s.Bounded ∧ ∀ v ∈ s.decisions, s.store.isFixed v = true
  | .failed => True
  | .exhausted => s.choicePoints = []

/-- The run at other choice points. -/
def Run.withChoicePoints (r : Run π κ) (choicePoints : List ChoicePoint) : Run π κ :=
  { r with search := { r.search with choicePoints } }

@[simp] theorem ends_ask [Stopping κ] {r : Run π κ} {Q : Bool → Run π κ → Prop}
    {E : SearchError → Run π κ → Prop} :
    Ends (ask r) Q E ↔
      Q (Stopping.ask r.condition).1 { r with condition := (Stopping.ask r.condition).2 } := Iff.rfl

/-! ## What branching and going back can do -/

section
variable [Stopping κ] {r : Run π κ} {E : SearchError → Run π κ → Prop}

omit [Stopping κ] in
/-- The values are put in some order. -/
theorem ends_order {v : Var} {Q : List Int → Run π κ → Prop}
    (h : ∀ values source, values.Perm (r.search.store.values v) →
      Q values { r with search := { r.search with source } }) : Ends (order v r) Q E := by
  unfold order
  rw [ends_bind, ends_current]
  exact h _ _ (perm_shuffle _ _ _)

/-- The run when a choice point has been opened. -/
def Run.opened (r : Run π κ) (selector : Selector) (source : Random.Source) (c : ChoicePoint) : Run π κ :=
  { r with search := { r.search with
      selector
      source
      choicePoints := c :: r.search.choicePoints
      counts := { r.search.counts with
        peakDepth := max r.search.counts.peakDepth (r.search.choicePoints.length + 1) } } }

/-- **Branching opens one choice point**, with the values of the variable that is selected in some order, and
decides the first of them. -/
theorem ends_branch_of {Q : Unit → Run π κ → Prop}
    (fails : ∀ cause, r.search.selector.select r.search.store = .error cause → E (.fault cause) r)
    (stuck : ∀ selector, r.search.selector.select r.search.store = .ok (none, selector) →
      E (.breakdown .nothingToBranchOn) r)
    (empty : ∀ v selector source, r.search.selector.select r.search.store = .ok (some v, selector) →
      r.search.store.values v = [] → E (.fault .outOfRange) { r with search := { r.search with selector, source } })
    (opens : ∀ v selector source value rest, r.search.selector.select r.search.store = .ok (some v, selector) →
      (value :: rest).Perm (r.search.store.values v) →
      Ends (decide v value (r.opened selector source ⟨v, value, rest, r.search.engine.level⟩)) Q E) :
    Ends (branch r) Q E := by
  unfold branch
  rw [ends_bind, ends_current]
  cases selected : r.search.selector.select r.search.store with
  | error cause => exact fails cause selected
  | ok selection =>
    obtain ⟨v?, selector⟩ := selection
    cases v? with
    | none => exact stuck selector selected
    | some v =>
      dsimp only
      rw [ends_bind, ends_onSearch, ends_bind]
      refine ends_order fun values source perm => ?_
      cases values with
      | nil => exact empty v selector source selected perm.nil_eq.symm
      | cons value rest =>
        dsimp only
        rw [ends_bind, ends_onSearch, ends_bind, ends_current, ends_bind, ends_count]
        exact opens v selector source value rest selected perm

variable [Propagator π]

/-- **Going back refutes the value of the deepest choice point**, and goes on at its next value, or above it
if there is none. -/
theorem ends_backtrack_cons {c : ChoicePoint} {above : List ChoicePoint} {Q : Phase → Run π κ → Prop}
    (h : Ends (refute c r) (fun ok t =>
      ((ok = true → c.advance? (t.search.store.contains c.decision) = none) →
        Ends (backtrack above (t.withChoicePoints above)) Q E) ∧
      ∀ d, ok = true → c.advance? (t.search.store.contains c.decision) = some d →
        Ends (decide d.decision d.current (t.withChoicePoints (d :: above))) (fun _ => Q .propagating) E) E) :
    Ends (backtrack (c :: above) r) Q E := by
  unfold backtrack
  dsimp only
  rw [ends_bind]
  refine h.mono_ok fun ok t ⟨leaves, stays⟩ => ?_
  have leave (gone : ok = true → c.advance? (t.search.store.contains c.decision) = none) :
      Ends ((do onSearch ({ · with choicePoints := above }); backtrack above) t) Q E := by
    rw [ends_bind, ends_onSearch]
    exact leaves gone
  cases ok with
  | false => exact leave fun h => by cases h
  | true =>
    rw [Bool.not_true, if_neg Bool.false_ne_true, ends_bind, ends_current]
    cases next : c.advance? (t.search.store.contains c.decision) with
    | none => exact leave fun _ => next
    | some d =>
      dsimp only
      rw [ends_bind, ends_onSearch, ends_bind]
      exact stays d rfl next

end

variable [Propagator π]

/-- An assignment is beaten or still to be found. -/
def Covered (R : Root π) (s : Search π) (p : Phase) (a : Assignment) : Prop :=
  Beaten R.objective s.best a ∨ (Active p ∧ s.store.Admits a) ∨
    Pending s.engine.space s.choicePoints a

/-- The invariant of a search that goes on with phase `p`. -/
structure Inv (R : Root π) (s : Search π) (p : Phase) : Prop where
  stands : ∃ m, Stands R s m s.choicePoints ∧ Agrees p m s
  covered : ∀ a, R.engine.Spares a → R.engine.store.Admits a → Covered R s p a

/-- What comes of operations that find no solution, when the search goes on with phase `p`. -/
structure Moved (R : Root π) (r : Run π κ) (p : Phase) (r' : Run π κ) : Prop where
  best_eq : r'.search.best = r.search.best
  solutions_eq : r'.solutions = r.solutions
  inv : Inv R r'.search p

/-- A solution is what the engine came to when it was quiet and all variables were fixed. -/
def Leaf (R : Root π) (solution : Solution) : Prop :=
  ∃ e, R.engine.Run .quiet e ∧ (∀ v, v < e.store.numVars → e.store.isFixed v = true) ∧
    R.objective < e.store.numVars ∧ solution.values = e.store.domains.map Domain.lower ∧
    solution.objective = e.store.lower R.objective

variable {R : Root π} {r : Run π κ} {m : Engine.Mode} {cs : List ChoicePoint}
variable [LawfulPropagator π] (hR : R.engine.Valid)
include hR

omit [Propagator π] [LawfulPropagator π] hR in
/-- The level that a search stands on returns to the domains that it has. -/
theorem rewind_level {s : Search π} (h : s.engine.Valid) :
    s.engine.space.rewind s.engine.level = s.engine.space.bare :=
  Space.rewind_of_le h.space (Nat.le_refl _)

/-! ## Decisions -/

omit [LawfulPropagator π] hR in
/-- **A decision loses nothing**: what was at the node is at the node below, or is pending at the choice
point, and what was pending above still is. -/
theorem Decided.moved {c : ChoicePoint} {above : List ChoicePoint} {r' : Run π κ}
    (h : Decided R r c above r') (choicePoints : r.search.choicePoints = c :: above)
    (level : c.checkpoint = r.search.engine.level) (valid : r.search.engine.Valid)
    (covered : ∀ a, R.engine.Spares a → R.engine.store.Admits a →
      Beaten R.objective r.search.best a ∨
        (r.search.store.Admits a ∧ a c.decision ∈ c.current :: c.untried) ∨
          Pending r.search.engine.space above a) : Moved R r .propagating r' := by
  have choicePoints' : r'.search.choicePoints = c :: above :=
    h.steady.choicePoints_eq.trans choicePoints
  have returns : r'.search.engine.space.rewind c.checkpoint = r.search.engine.space.bare := by
    rw [h.rewind_eq _ (Nat.le_refl _), level]
    exact rewind_level valid
  obtain ⟨-, ladder, -⟩ := h.stands.ladder.of_cons
  refine ⟨h.steady.best_eq, h.steady.solutions_eq, ⟨.free, choicePoints' ▸ h.stands, .inl rfl⟩,
    fun a hs ha => ?_⟩
  unfold Covered
  rw [choicePoints', h.steady.best_eq]
  rcases covered a hs ha with beaten | ⟨had, hx⟩ | ⟨b, hb, hba, hbu⟩
  · exact .inl beaten
  · rcases List.mem_cons.mp hx with current | untried
    · exact .inr (.inl ⟨trivial, h.admits a had current⟩)
    · refine .inr (.inr ⟨c, List.mem_cons_self, ?_, untried⟩)
      rw [returns]
      exact had
  · refine .inr (.inr ⟨b, List.mem_cons_of_mem c hb, ?_, hbu⟩)
    rw [h.rewind_eq _ (Nat.le_of_lt (ladder.checkpoint_lt b hb))]
    exact hba

/-! ## Going back -/

section
variable {c d : ChoicePoint} {above : List ChoicePoint} {ok : Bool} {r' : Run π κ}

omit [LawfulPropagator π] hR in
/-- **A refutation loses nothing**: what was pending above still is, and what was pending at the choice point
is at the node now. -/
theorem Refuted.covered {a : Assignment} (h : Refuted R r c above ok r')
    (ladder : Ladder R.decisions R.engine.level r.search.engine.space above c.checkpoint)
    (rung : Rung R.decisions r.search.engine.space c above) (hs : R.engine.Spares a)
    (covered : Beaten R.objective r.search.best a ∨ Pending r.search.engine.space (c :: above) a) :
    Beaten R.objective r'.search.best a ∨
      (ok = true ∧ r'.search.store.Admits a ∧ a c.decision ∈ c.untried) ∨
        Pending r'.search.engine.space above a := by
  rw [h.steady.best_eq]
  rcases covered with beaten | ⟨b, hb, hba, hbu⟩
  · exact .inl beaten
  · rcases List.mem_cons.mp hb with rfl | hb
    · -- the value that was removed is not one of those to be tried
      have other : a b.decision ≠ b.current := fun heq =>
        (List.nodup_cons.mp rung.nodup).1 (heq ▸ hbu)
      exact (h.spared a hs hba other).imp_right fun ha => .inl ⟨ha.1, ha.2, hbu⟩
    · refine .inr (.inr ⟨b, hb, ?_, hbu⟩)
      rw [h.rewind_eq b.checkpoint (ladder.checkpoint_lt b hb)]
      exact hba

/-- The choice point is a rung again, at its next value. -/
theorem Refuted.rung (h : Refuted R r c above ok r')
    (rung : Rung R.decisions r.search.engine.space c above) (stands : Stands R r'.search m above)
    (next : c.advance? (r'.search.store.contains c.decision) = some d) :
    Rung R.decisions r'.search.engine.space d above := by
  obtain ⟨decision, checkpoint, -, suffix, -⟩ := ChoicePoint.advance?_eq_some next
  have less : d.untried.length + 1 ≤ c.untried.length := suffix.length_le
  have bare : r'.search.engine.space.rewind d.checkpoint = r'.search.engine.space.bare := by
    rw [checkpoint, ← h.level_eq]
    exact rewind_level (stands.valid hR)
  refine ⟨decision.symm ▸ rung.mem, ?_, decision.symm ▸ rung.fresh,
    suffix.sublist.nodup (List.nodup_cons.mp rung.nodup).2, ?_, fun b hb => ?_⟩
  · rw [decision]
    exact Nat.lt_of_lt_of_eq rung.known h.numVars_eq.symm
  · rw [decision]
    calc d.untried.length + 1 ≤ c.untried.length + 1 := Nat.le_succ_of_le less
      _ ≤ (r.search.store.domain c.decision).width := rung.length_le
      _ = (r'.search.store.domain c.decision).width := (h.width_eq c.decision).symm
  · rw [bare]
    exact stands.fixed b hb

/-- After a refutation the next value is decided. -/
theorem Refuted.ends_decide [Stopping κ] (h : Refuted R r c above true r')
    (ladder : Ladder R.decisions R.engine.level r.search.engine.space above c.checkpoint)
    (rung : Rung R.decisions r.search.engine.space c above) (stands : Stands R r'.search .quiet above)
    (next : c.advance? (r'.search.store.contains c.decision) = some d)
    (covered : ∀ a, R.engine.Spares a → R.engine.store.Admits a →
      Beaten R.objective r.search.best a ∨ Pending r.search.engine.space (c :: above) a) :
    Ends (decide d.decision d.current (r'.withChoicePoints (d :: above)))
      (fun _ r'' => Moved R r .propagating r'' ∧ r''.search.choicePoints = d :: above)
      (fun cause _ => Excuse R cause) := by
  obtain ⟨decision, checkpoint, allowed, -, rest⟩ := ChoicePoint.advance?_eq_some next
  have level : d.checkpoint = r'.search.engine.level := checkpoint.trans h.level_eq.symm
  have known : c.decision < r'.search.store.numVars := h.numVars_eq.symm ▸ rung.known
  refine (Search.ends_decide hR (r := r'.withChoicePoints (d :: above)) { stands with }
    (h.rung hR rung stands next) level (decision.symm ▸ allowed)).mono_ok ?_
  intro _ r'' decided
  have valid : r'.search.engine.Valid := stands.valid hR
  have moved := decided.moved rfl level valid fun a hs ha => by
    refine (h.covered ladder rung hs (covered a hs ha)).imp_right (Or.imp_left fun here => ?_)
    refine ⟨here.2.1, List.mem_cons.mpr ?_⟩
    rw [decision]
    exact rest _ here.2.2 (here.2.1 _ known)
  exact ⟨⟨moved.best_eq.trans h.steady.best_eq, moved.solutions_eq.trans h.steady.solutions_eq, moved.inv⟩,
    decided.steady.choicePoints_eq⟩

end

/-- **Going back loses nothing**, and comes to a node below a value that was to be tried, unless the search is
exhausted. -/
theorem ends_backtrack [Stopping κ] (h : Stands R r.search m cs) (hcs : r.search.choicePoints = cs)
    (covered : ∀ a, R.engine.Spares a → R.engine.store.Admits a →
      Beaten R.objective r.search.best a ∨ Pending r.search.engine.space cs a) :
    Ends (backtrack cs r)
      (fun p r' => Moved R r p r' ∧
        weight R.breadth R.decisions.length r'.search.choicePoints p ≤
          pendingWeight R.breadth R.decisions.length cs)
      (fun cause _ => Excuse R cause) := by
  induction cs generalizing r m with
  | nil =>
    refine ⟨⟨rfl, rfl, ⟨m, hcs.symm ▸ h, hcs⟩, fun a hs ha => ?_⟩, Nat.zero_le _⟩
    exact (covered a hs ha).imp_right fun hp => .inr (hcs.symm ▸ hp)
  | cons c above ih =>
    have length := h.ladder.length_le
    obtain ⟨-, ladder, rung⟩ := h.ladder.of_cons
    refine ends_backtrack_cons ((ends_refute hR h).mono_ok ?_)
    intro ok r' refuted
    obtain ⟨m', stands, quiet⟩ := refuted.stands
    constructor
    · -- the choice point is left when nothing is to be found below its other values
      intro leaves
      refine (ih (r := r'.withChoicePoints above) { stands with } rfl fun a hs ha => ?_).mono_ok ?_
      · refine (refuted.covered ladder rung hs (covered a hs ha)).imp_right fun h => ?_
        refine h.resolve_left fun ⟨hok, admits, untried⟩ => ?_
        have known : c.decision < r'.search.store.numVars := refuted.numVars_eq.symm ▸ rung.known
        have := ChoicePoint.advance?_eq_none (leaves hok) untried
        rw [admits _ known] at this
        cases this
      · rintro p r'' ⟨⟨best, solutions, inv⟩, less⟩
        exact ⟨⟨best.trans refuted.steady.best_eq, solutions.trans refuted.steady.solutions_eq, inv⟩,
          Nat.le_trans less (pendingWeight_above_le length)⟩
    · rintro d rfl next
      obtain rfl := quiet rfl
      refine (refuted.ends_decide hR ladder rung stands next covered).mono_ok ?_
      rintro - r'' ⟨moved, choicePoints⟩
      obtain ⟨-, -, -, suffix, -⟩ := ChoicePoint.advance?_eq_some next
      refine ⟨moved, ?_⟩
      rw [choicePoints]
      exact weight_advance length suffix.length_le

/-! ## Branching -/

/-- A choice point on an open decision is a rung. -/
theorem Stands.rung {v : Var} {value : Int} {rest : List Int} (h : Stands R r.search m cs)
    (hv : v ∈ R.decisions) (known : v < r.search.store.numVars)
    (hopen : r.search.store.isFixed v = false) (nodup : (value :: rest).Nodup)
    (length : (value :: rest).length ≤ (r.search.store.domain v).width) :
    Rung R.decisions r.search.engine.space ⟨v, value, rest, r.search.engine.level⟩ cs where
  mem := hv
  known := known
  fresh hmem := by
    obtain ⟨c, hc, rfl⟩ := List.mem_map.mp hmem
    rw [h.fixed c hc] at hopen
    cases hopen
  nodup := nodup
  length_le := length
  fixed b hb := by
    rw [rewind_level (h.valid hR)]
    exact h.fixed b hb

/-- **Branching loses nothing**, and a node is worth more than what is to be done below its values. -/
theorem ends_branch [Stopping κ] (h : Stands R r.search .quiet r.search.choicePoints)
    (hopen : ∃ v ∈ r.search.decisions, v < r.search.store.numVars ∧ r.search.store.isFixed v = false)
    (covered : ∀ a, R.engine.Spares a → R.engine.store.Admits a → Covered R r.search .branching a) :
    Ends (branch r)
      (fun _ r' => Moved R r .propagating r' ∧
        weight R.breadth R.decisions.length r'.search.choicePoints .propagating <
          weight R.breadth R.decisions.length r.search.choicePoints .branching)
      (fun cause _ => Excuse R cause) := by
  have inside := h.inside hR
  have valid := h.valid hR
  refine ends_branch_of (fun cause hsel => ?_) (fun selector hsel => ?_) (fun v _ _ _ none => ?_)
    fun v selector source value rest hsel perm => ?_
  · obtain ⟨v, hv, hlt⟩ := Selector.select_eq_error hsel
    exact .unknown (.inr (h.selector_eq ▸ hv)) (inside.numVars_eq ▸ hlt)
  · obtain ⟨v, hv, hlt, hf⟩ := hopen
    rw [h.decisions_eq] at hv
    exact absurd ⟨h.selector_eq.symm ▸ hv, hlt, hf⟩
      ((Selector.select_eq_ok hsel h.forgotten).none_open rfl v)
  · have least : r.search.store.lower v ∈ r.search.store.values v :=
      Store.mem_values.mpr (valid.space.store.contains_lower v)
    rw [none] at least
    cases least
  · have selected := Selector.select_eq_ok hsel h.forgotten
    obtain ⟨hv, known, hf⟩ := selected.some_open v rfl
    rw [h.selector_eq] at hv
    have nodup : (value :: rest).Nodup := perm.nodup_iff.mpr (Domain.nodup_values _)
    have length : (value :: rest).length ≤ (r.search.store.domain v).width := by
      rw [perm.length_eq]
      exact Domain.length_values_le (valid.space.store.domain v)
    have mem (x : Int) : x ∈ value :: rest ↔ r.search.store.contains v x = true :=
      perm.mem_iff.trans Store.mem_values
    refine Ends.mono_ok (ends_decide hR (c := ⟨v, value, rest, r.search.engine.level⟩)
      ⟨h.run, h.objective_eq, h.decisions_eq, selected.decisions_eq.trans h.selector_eq,
        selected.forgotten, h.ladder, h.fixed⟩
      (h.rung hR hv known hf nodup length) rfl ((mem value).mp List.mem_cons_self)) ?_
    intro _ r' decided
    have choicePoints : r'.search.choicePoints = _ :: r.search.choicePoints :=
      decided.steady.choicePoints_eq
    have moved := decided.moved rfl rfl valid fun a hs ha =>
      (covered a hs ha).imp_right (Or.imp_left fun here =>
        ⟨here.2, (mem _).mpr (here.2 v known)⟩)
    refine ⟨⟨moved.best_eq, moved.solutions_eq, moved.inv⟩, ?_⟩
    rw [choicePoints]
    exact weight_branch decided.stands.ladder.length_le (Nat.le_trans length
      (Nat.le_trans (Nat.le_of_eq (inside.width_eq v)) (Root.width_le_breadth hv)))

/-! ## Leaves -/

omit hR in
theorem ofStore_eq_ok {s : Store} {v : Var} {solution : Solution}
    (h : Solution.ofStore s v = .ok solution) :
    (∀ w, w < s.numVars → s.isFixed w = true) ∧ v < s.numVars ∧
      solution.values = s.domains.map Domain.lower ∧ solution.objective = s.lower v := by
  unfold Solution.ofStore at h
  cases hu : Solution.unfixed? s with
  | some w => rw [hu] at h; cases h
  | none =>
    cases hd : s.domain? v with
    | none => rw [hu, hd] at h; cases h
    | some d =>
      rw [hu, hd] at h
      cases h
      refine ⟨fun w hw => ?_, Store.lt_numVars_of hd, rfl, by rw [Store.lower, Store.domain_of hd]⟩
      have := List.find?_eq_none.mp hu w (List.mem_range.mpr hw)
      simpa using this

omit hR in
/-- A leaf without a solution has an objective that does not exist. -/
theorem domain?_eq_none_of_ofStore {s : Store} {v : Var} {cause : Fault} (closed : Solution.unfixed? s = none)
    (h : Solution.ofStore s v = .error cause) : s.domain? v = none := by
  unfold Solution.ofStore at h
  rw [closed] at h
  cases hd : s.domain? v with
  | none => rfl
  | some d => rw [hd] at h; cases h

/-- What a solution makes of the best known: it is better and takes its place, unless the best known was the
least integer already. -/
def Improves (x : Int) (before best : Option Int) : Prop :=
  (best = some x ∧ ∀ b, before = some b → x < b) ∨
    (best = before ∧ before = some Word.minInteger ∧ Word.minInteger ≤ x)

omit [Propagator π] [LawfulPropagator π] hR in
/-- A solution within the bound leaves a best known that is at least as good. -/
theorem improves_tighten {s : Search π} {x : Int} (bounded : ∀ b, s.best = some b → x ≤ Word.pred b) :
    Improves x s.best (s.tighten x).best := by
  by_cases better : ∀ b, s.best = some b → x < b
  · rw [tighten_of_better better]
    exact .inl ⟨rfl, better⟩
  · push Not at better
    obtain ⟨b, hb, worse⟩ := better
    have worse : b ≤ x := by omega
    have least : b = Word.minInteger := by
      by_contra least
      have le := bounded b hb
      rw [Word.pred_eq_sub_one least] at le
      omega
    rw [tighten_of_le hb worse]
    exact .inr ⟨rfl, least ▸ hb, least ▸ worse⟩

omit [LawfulPropagator π] hR in
/-- The node of a leaf is done with, whatever the best known is then. -/
theorem Stands.recorded {s : Search π} {counts : Statistics} {x : Int} (h : Stands R s m s.choicePoints)
    (covered : ∀ a, R.engine.Spares a → R.engine.store.Admits a →
      Beaten R.objective s.best a ∨ x ≤ a R.objective ∨ Pending s.engine.space s.choicePoints a) :
    Inv R ({ s with counts, engine := s.engine.note (.solved x) }.tighten x) .failed := by
  refine ⟨⟨m, ?_, trivial⟩, fun a hs ha => ?_⟩
  · rw [choicePoints_tighten]
    have noted : Stands R { s with counts, engine := s.engine.note (.solved x) } m s.choicePoints :=
      { h with run := h.run.note _ }
    exact noted.tighten x
  · rcases covered a hs ha with beaten | le | pending
    · exact .inl (beaten_tighten (.inl beaten))
    · exact .inl (beaten_tighten (.inr le))
    · refine .inr (.inr ?_)
      rw [engine_tighten, choicePoints_tighten]
      exact pending

/-- **A leaf is recorded**: its solution is better than the best known before, unless that was not a bound. -/
theorem ends_record (h : Stands R r.search m r.search.choicePoints)
    (agrees : Agrees .complete m r.search)
    (covered : ∀ a, R.engine.Spares a → R.engine.store.Admits a → Covered R r.search .complete a) :
    Ends (record r)
      (fun _ r' => r'.search.choicePoints = r.search.choicePoints ∧ Inv R r'.search .failed ∧
        ∃ solution, Leaf R solution ∧ r'.solutions = solution :: r.solutions ∧
          Improves solution.objective r.search.best r'.search.best)
      (fun cause _ => Excuse R cause) := by
  obtain ⟨rfl, bounded, fixed⟩ := agrees
  have inside := h.inside hR
  unfold record
  rw [ends_bind, ends_current]
  cases hu : Solution.unfixed? r.search.store with
  | some v =>
    have hv := List.mem_of_find?_eq_some hu
    have hopen : r.search.store.isFixed v = false := by simpa using List.find?_some hu
    dsimp only
    rw [ends_throw, h.objective_eq]
    exact .unfixed h.run (h.decisions_eq ▸ fixed) (List.mem_range.mp hv) hopen
  | none =>
    dsimp only
    cases hs : Solution.ofStore r.search.store r.search.objective with
    | error cause =>
      refine .unknown (.inl h.objective_eq) ?_
      rw [← inside.numVars_eq]
      exact Store.domain?_eq_none_iff.mp (domain?_eq_none_of_ofStore hu hs)
    | ok solution =>
      obtain ⟨all, known, values, objective⟩ := ofStore_eq_ok hs
      have within (b : Int) (hb : r.search.best = some b) : solution.objective ≤ Word.pred b := by
        rw [objective]
        exact Int.le_trans ((h.valid hR).space.store.lower_le_upper _) (bounded b hb)
      dsimp only
      rw [ends_bind, ends_count, ends_bind, ends_onSearch, ends_bind, ends_onSearch, ends_modify]
      refine ⟨choicePoints_tighten, h.recorded fun a hspares ha => ?_, solution,
        ⟨r.search.engine, h.run, all, h.objective_eq ▸ known, values, h.objective_eq ▸ objective⟩, rfl,
        improves_tighten within⟩
      refine (covered a hspares ha).imp_right (Or.imp_left fun here => ?_)
      rw [objective, ← h.objective_eq]
      exact (Store.bounds_of_contains (here.2 _ known)).1

/-! ## Steps -/

/-- The solutions that were found since the best known was `first`, latest first, with what each of them
made of the best known before it. -/
def Found (R : Root π) (first : Option Int) : List Solution → Option Int → Prop
  | [], best => best = first
  | solution :: earlier, best => Leaf R solution ∧
    ∃ before, Found R first earlier before ∧ Improves solution.objective before best

theorem Stands.potential_eq (h : Stands R r.search m cs) :
    r.search.potential =
      weight R.breadth R.decisions.length r.search.choicePoints r.search.phase := by
  have breadth : r.search.breadth = R.breadth := by
    unfold Search.breadth Root.breadth
    rw [h.decisions_eq]
    exact congrArg (fun f => R.decisions.foldl f 1)
      (funext fun n => funext fun v => congrArg (max n) ((h.inside hR).width_eq v))
  unfold potential weight
  rw [breadth, h.decisions_eq]
  rfl

/-- The invariant of a run that started when the best known was `first`. -/
structure Run.Inv (R : Root π) (first : Option Int) (r : Run π κ) : Prop where
  search : Search.Inv R r.search r.search.phase
  found : Found R first r.solutions r.search.best

omit [LawfulPropagator π] hR in
theorem Inv.enter {s : Search π} {p q : Phase} (h : Inv R s p) : Inv R { s with phase := q } p := by
  obtain ⟨⟨m, stands, agrees⟩, covered⟩ := h
  refine ⟨⟨m, { stands with }, ?_⟩, covered⟩
  cases p <;> exact agrees

/-- Entering a phase that the invariant holds for, with less left to do, is a step. -/
theorem Run.Inv.entered {first : Option Int} {r t : Run π κ} {p : Phase} (h : Run.Inv R first r)
    (h' : Search.Inv R t.search p) (found : Found R first t.solutions t.search.best)
    (less : weight R.breadth R.decisions.length t.search.choicePoints p <
      weight R.breadth R.decisions.length r.search.choicePoints r.search.phase) :
    let u : Run π κ := { t with search := { t.search with phase := p } }
    Run.Inv R first u ∧ u.search.potential < r.search.potential := by
  obtain ⟨⟨m, stands, -⟩, -⟩ := h.search
  obtain ⟨⟨m', stands', agrees'⟩, covered'⟩ := h'
  have after : Stands R { t.search with phase := p } m' t.search.choicePoints := { stands' with }
  refine ⟨⟨Inv.enter ⟨⟨m', stands', agrees'⟩, covered'⟩, found⟩, ?_⟩
  rw [stands.potential_eq hR,
    Stands.potential_eq hR (r := { t with search := { t.search with phase := p } }) after]
  exact less

/-- Whether a search can be resumed in a phase, or has come to its end. -/
def Rests (p : Phase) : Prop := p = .propagating ∨ p = .exhausted

/-- What a step comes to: less is left to do, or the search rests. -/
def Stepped (R : Root π) (first : Option Int) (r : Run π κ) (more : Bool) (r' : Run π κ) : Prop :=
  Run.Inv R first r' ∧
    if more then r'.search.potential < r.search.potential
    else Rests r'.search.phase

section
variable {first : Option Int}

/-- Going on without a solution is a step, if less is left to do. -/
theorem Run.Inv.moved {t : Run π κ} {p : Phase} (h : Run.Inv R first r) (moved : Moved R r p t)
    (less : weight R.breadth R.decisions.length t.search.choicePoints p <
      weight R.breadth R.decisions.length r.search.choicePoints r.search.phase) :
    Stepped R first r true { t with search := { t.search with phase := p } } := by
  refine h.entered hR moved.inv ?_ less
  rw [moved.solutions_eq, moved.best_eq]
  exact h.found

theorem ends_step_propagating [Stopping κ] (h : Run.Inv R first r) (phase : r.search.phase = .propagating) :
    Ends (step r) (Stepped R first r) (fun cause _ => Excuse R cause) := by
  obtain ⟨⟨m, stands, agrees⟩, covered⟩ := h.search
  rw [phase] at agrees covered
  rw [step_of_propagating phase, ends_bind]
  refine (ends_propagate hR stands agrees).mono_ok ?_
  rintro ok r' ⟨steady, below, ⟨m', stands', quiet⟩, bounded, spared⟩
  rw [← steady.choicePoints_eq] at stands'
  have covered' (p : Phase) (active : ok = true → Active p) (a : Assignment)
      (hs : R.engine.Spares a) (ha : R.engine.store.Admits a) : Covered R r'.search p a := by
    unfold Covered
    rw [steady.best_eq, steady.choicePoints_eq]
    rcases covered a hs ha with beaten | ⟨-, had⟩ | pending
    · exact .inl beaten
    · exact (spared a hs had).imp_right fun had => .inl ⟨active had.1, had.2⟩
    · exact .inr (.inr (pending.congr fun c hc =>
        below.rewind_eq _ (stands.ladder.checkpoint_lt c hc)))
  rw [ends_bind, ends_enter]
  cases ok with
  | true =>
    have inv : Inv R r'.search .quiescent :=
      ⟨⟨m', stands', quiet rfl, bounded rfl⟩, covered' _ fun _ => trivial⟩
    refine h.moved hR (p := .quiescent) ⟨steady.best_eq, steady.solutions_eq, inv⟩ ?_
    rw [steady.choicePoints_eq, phase]
    exact (weight_phase_lt _ _ _).1
  | false =>
    have inv : Inv R r'.search .failed := ⟨⟨m', stands', trivial⟩, covered' _ fun h => by cases h⟩
    refine h.moved hR (p := .failed) ⟨steady.best_eq, steady.solutions_eq, inv⟩ ?_
    rw [steady.choicePoints_eq, phase]
    obtain ⟨quiescent, -, complete, failed⟩ :=
      weight_phase_lt R.breadth R.decisions.length r.search.choicePoints
    omega

theorem ends_step_quiescent [Stopping κ] (h : Run.Inv R first r) (phase : r.search.phase = .quiescent) :
    Ends (step r) (Stepped R first r) (fun cause _ => Excuse R cause) := by
  obtain ⟨⟨m, stands, agrees⟩, covered⟩ := h.search
  rw [phase] at agrees covered
  obtain ⟨rfl, bounded⟩ := agrees
  cases hask : (Stopping.ask r.condition).1 with
  | true =>
    rw [step_of_asked phase hask]
    exact ⟨⟨⟨⟨.quiet, { stands with }, .inr rfl⟩, covered⟩, h.found⟩, .inl rfl⟩
  | false =>
    rw [step_of_quiescent phase hask]
    cases hfix : allFixed r.search.store r.search.decisions with
    | error cause =>
      obtain ⟨v, hv, hlt⟩ := allFixed_eq_error hfix
      exact .unknown (.inr (stands.decisions_eq ▸ hv)) ((stands.inside hR).numVars_eq ▸ hlt)
    | ok fixed =>
      have all := allFixed_eq_ok hfix
      cases fixed with
      | true =>
        refine h.moved hR (p := .complete) (t := { r with condition := (Stopping.ask r.condition).2 })
          ⟨rfl, rfl, ⟨⟨.quiet, stands, rfl, bounded, all⟩, covered⟩⟩ ?_
        rw [phase]
        exact (weight_phase_lt _ _ _).2.2.1
      | false =>
        refine h.moved hR (p := .branching) (t := { r with condition := (Stopping.ask r.condition).2 })
          ⟨rfl, rfl, ⟨⟨.quiet, stands, rfl, all⟩, covered⟩⟩ ?_
        rw [phase]
        exact (weight_phase_lt _ _ _).2.1

theorem ends_step_branching [Stopping κ] (h : Run.Inv R first r) (phase : r.search.phase = .branching) :
    Ends (step r) (Stepped R first r) (fun cause _ => Excuse R cause) := by
  obtain ⟨⟨m, stands, agrees⟩, covered⟩ := h.search
  rw [phase] at agrees covered
  obtain ⟨rfl, hopen⟩ := agrees
  rw [step_of_branching phase, ends_bind]
  refine (ends_branch hR stands hopen covered).mono_ok ?_
  rintro - r' ⟨moved, less⟩
  rw [ends_bind, ends_enter]
  refine h.moved hR moved ?_
  rw [phase]
  exact less

theorem ends_step_complete [Stopping κ] (h : Run.Inv R first r) (phase : r.search.phase = .complete) :
    Ends (step r) (Stepped R first r) (fun cause _ => Excuse R cause) := by
  obtain ⟨⟨m, stands, agrees⟩, covered⟩ := h.search
  rw [phase] at agrees covered
  rw [step_of_complete phase, ends_bind]
  refine (ends_record hR stands agrees covered).mono_ok ?_
  rintro - r' ⟨choicePoints, inv, solution, leaf, solutions, improves⟩
  rw [ends_bind, ends_enter]
  have found : Found R first r'.solutions r'.search.best := by
    rw [solutions]
    exact ⟨leaf, _, h.found, improves⟩
  refine h.entered hR inv found ?_
  rw [choicePoints, phase]
  exact (weight_phase_lt _ _ _).2.2.2

theorem ends_step_failed [Stopping κ] (h : Run.Inv R first r) (phase : r.search.phase = .failed) :
    Ends (step r) (Stepped R first r) (fun cause _ => Excuse R cause) := by
  obtain ⟨⟨m, stands, -⟩, covered⟩ := h.search
  rw [phase] at covered
  rw [step_of_failed phase, ends_bind]
  refine (ends_backtrack hR stands rfl fun a hs ha => ?_).mono_ok ?_
  · exact (covered a hs ha).imp_right fun h => h.resolve_left fun here => here.1
  · rintro p r' ⟨moved, less⟩
    rw [ends_bind, ends_enter]
    refine h.moved hR moved (Nat.lt_of_le_of_lt less ?_)
    rw [phase]
    exact Nat.lt_add_of_pos_left Nat.zero_lt_one

/-- **Every step keeps the invariant and lowers the potential**; a step that asks for no more has
stopped where the search can be resumed, or has exhausted it. -/
theorem ends_step [Stopping κ] (h : Run.Inv R first r) :
    Ends (step r) (Stepped R first r) (fun cause _ => Excuse R cause) := by
  cases phase : r.search.phase with
  | propagating => exact ends_step_propagating hR h phase
  | quiescent => exact ends_step_quiescent hR h phase
  | branching => exact ends_step_branching hR h phase
  | complete => exact ends_step_complete hR h phase
  | failed => exact ends_step_failed hR h phase
  | exhausted =>
    rw [step_of_exhausted phase]
    exact ⟨h, .inr phase⟩

end

/-! ## Runs -/

/-- The search at the root. -/
def Root.search (R : Root π) (seed : Nat) : Search π := .start R.engine R.objective R.decisions seed

omit [LawfulPropagator π] hR in
theorem inv_search (seed : Nat) : Inv R (R.search seed) .propagating where
  stands := ⟨.free, ⟨.start, rfl, rfl, rfl, rfl, .nil, fun _ hc => by cases hc⟩, .inl rfl⟩
  covered _ _ ha := .inr (.inl ⟨trivial, ha⟩)

omit [LawfulPropagator π] hR in
/-- The bound can be tightened whenever the search rests. -/
theorem Inv.tighten {s : Search π} {p : Phase} (h : Inv R s p) (hp : Rests p) (b : Int) :
    Inv R (s.tighten b) p := by
  obtain ⟨⟨m, stands, agrees⟩, covered⟩ := h
  refine ⟨⟨m, ?_, ?_⟩, fun a hs ha => ?_⟩
  · rw [choicePoints_tighten]
    exact stands.tighten b
  · rcases hp with rfl | rfl
    · exact agrees
    · exact choicePoints_tighten.trans agrees
  · unfold Covered
    rw [store, engine_tighten, choicePoints_tighten]
    exact (covered a hs ha).imp_left fun beaten => beaten_tighten (.inl beaten)

/-- **A run ends only where it was stopped or when the search is exhausted**, and then the invariant
holds. -/
theorem ends_run [Stopping κ] {s : Search π} (h : Inv R s s.phase) (condition : κ) :
    Ends (s.run condition) (fun _ r => Run.Inv R s.best r ∧ Rests r.search.phase)
      (fun cause _ => Excuse R cause) := by
  refine ends_descend_done (I := Run.Inv R s.best)
    (J := fun r => Run.Inv R s.best r ∧ Rests r.search.phase) (fun r hr => ?_) ⟨h, rfl⟩
  refine (ends_step hR hr).mono_ok fun more r' hr' => ?_
  cases more with
  | true => exact hr'
  | false => exact hr'

end Search
end BranchBound
