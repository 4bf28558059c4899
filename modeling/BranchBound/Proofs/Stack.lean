import BranchBound.Proofs.ChoicePoints

/-! # The stack of choice points

A search is called again and again: it is told of bounds, it runs, and it is stopped or breaks down.
`Search.Visits` are the states that it comes by on the way, between any two steps, with a record of its open
choice points.

Where propagators do not break down, **the stack is never broken** (`stack_unbroken`): the choice points
have distinct values and lie one level above another, a search on its way back can always return to the
level of the deepest one, and the only error that a run returns is a variable that is left open although
all decisions are fixed. -/
namespace BranchBound
namespace Search
variable {π κ : Type}

/-! ## Errors at a leaf -/

/-- An operation that breaks down does not blame a variable that is left open. -/
def BlamesNoLeaf {α : Type} (m : Step π κ α) : Prop :=
  ∀ r, Ends (m r) (fun _ _ => True) fun cause _ =>
    ∀ v objective, cause ≠ .breakdown (.unfixedLeaf v objective)

section
variable {α β : Type} {m : Step π κ α} {f : α → Step π κ β}

theorem BlamesNoLeaf.bind (h : BlamesNoLeaf m) (hf : ∀ a, BlamesNoLeaf (f a)) :
    BlamesNoLeaf (m >>= f) := fun r => (h r).bind fun a t _ => hf a t

theorem blamesNoLeaf_pure (a : α) : BlamesNoLeaf (pure a : Step π κ α) := fun _ => trivial

theorem blamesNoLeaf_fault (cause : Fault) : BlamesNoLeaf (throw (.fault cause) : Step π κ α) :=
  fun _ _ _ => SearchError.noConfusion

theorem blamesNoLeaf_current : BlamesNoLeaf (current : Step π κ (Search π)) := fun _ => trivial

theorem blamesNoLeaf_onSearch {g : Search π → Search π} : BlamesNoLeaf (onSearch g : Step π κ Unit) :=
  fun _ => trivial

theorem blamesNoLeaf_narrow (f : Store.Narrowing) : BlamesNoLeaf (narrow f : Step π κ _) := by
  refine blamesNoLeaf_current.bind fun s => ?_
  cases f s.store with
  | ok changed store => exact blamesNoLeaf_onSearch.bind fun _ => blamesNoLeaf_pure _
  | error halt store =>
    cases halt with
    | inconsistent cause => exact blamesNoLeaf_onSearch.bind fun _ => blamesNoLeaf_pure _
    | fault cause =>
      refine .bind (blamesNoLeaf_onSearch.bind fun _ => blamesNoLeaf_pure _) fun _ => ?_
      exact blamesNoLeaf_fault _

theorem blamesNoLeaf_refuted (source : Option Nat) : BlamesNoLeaf (refuted source : Step π κ Unit) :=
  .bind blamesNoLeaf_onSearch fun _ => blamesNoLeaf_current.bind fun _ => blamesNoLeaf_onSearch

theorem blamesNoLeaf_bound : BlamesNoLeaf (bound : Step π κ Bool) := by
  refine blamesNoLeaf_current.bind fun s => ?_
  cases s.best with
  | none => exact blamesNoLeaf_pure _
  | some best =>
    refine (blamesNoLeaf_narrow _).bind fun answer => ?_
    cases answer with
    | ok changed => exact blamesNoLeaf_pure _
    | error cause => exact (blamesNoLeaf_refuted none).bind fun _ => blamesNoLeaf_pure _

theorem blamesNoLeaf_order (v : Var) : BlamesNoLeaf (order v : Step π κ _) :=
  blamesNoLeaf_current.bind fun _ => blamesNoLeaf_onSearch.bind fun _ => blamesNoLeaf_pure _

theorem blamesNoLeaf_decide [Stopping κ] (v : Var) (value : Int) :
    BlamesNoLeaf (decide v value : Step π κ Unit) := by
  refine blamesNoLeaf_onSearch.bind fun _ => (blamesNoLeaf_narrow _).bind fun answer => ?_
  cases answer with
  | error cause => exact fun _ _ _ h => by cases h
  | ok changed => exact blamesNoLeaf_onSearch.bind fun _ _ => trivial

theorem blamesNoLeaf_branch [Stopping κ] : BlamesNoLeaf (branch : Step π κ Unit) := by
  refine blamesNoLeaf_current.bind fun s => ?_
  cases s.selector.select s.store with
  | error cause => exact blamesNoLeaf_fault cause
  | ok selection =>
    obtain ⟨v?, selector⟩ := selection
    cases v? with
    | none => exact fun _ _ _ h => by cases h
    | some v =>
      refine blamesNoLeaf_onSearch.bind fun _ => (blamesNoLeaf_order v).bind fun values => ?_
      cases values with
      | nil => exact blamesNoLeaf_fault _
      | cons value rest =>
        refine blamesNoLeaf_onSearch.bind fun _ => blamesNoLeaf_current.bind fun _ => ?_
        exact blamesNoLeaf_onSearch.bind fun _ => blamesNoLeaf_decide v value

variable [Propagator π]

theorem blamesNoLeaf_propagate : BlamesNoLeaf (propagate : Step π κ Bool) := by
  refine blamesNoLeaf_bound.bind fun bounded => ?_
  cases bounded with
  | false => exact blamesNoLeaf_pure _
  | true =>
    refine blamesNoLeaf_current.bind fun s => ?_
    cases s.engine.propagate with
    | ok _ e => exact blamesNoLeaf_onSearch.bind fun _ => blamesNoLeaf_pure _
    | error failure e =>
      cases failure with
      | refuted source cause =>
        refine blamesNoLeaf_onSearch.bind fun _ => (blamesNoLeaf_refuted source).bind fun _ => ?_
        exact blamesNoLeaf_pure _
      | fault cause => exact blamesNoLeaf_onSearch.bind fun _ => blamesNoLeaf_fault cause

theorem blamesNoLeaf_refute (c : ChoicePoint) : BlamesNoLeaf (refute c : Step π κ Bool) := by
  refine blamesNoLeaf_current.bind fun s => ?_
  cases s.engine.restore c.checkpoint with
  | error cause => exact blamesNoLeaf_fault cause
  | ok engine =>
    refine blamesNoLeaf_onSearch.bind fun _ => (blamesNoLeaf_narrow _).bind fun answer => ?_
    cases answer with
    | ok changed => exact blamesNoLeaf_propagate
    | error cause => exact (blamesNoLeaf_refuted none).bind fun _ => blamesNoLeaf_pure _

theorem blamesNoLeaf_backtrack [Stopping κ] (cs : List ChoicePoint) :
    BlamesNoLeaf (backtrack cs : Step π κ Phase) := by
  -- from the innermost choice point outwards, as long as there is nothing left to try
  induction cs with
  | nil => exact blamesNoLeaf_pure _
  | cons c above ih =>
    have leave : BlamesNoLeaf
        (do onSearch ({ · with choicePoints := above }); backtrack above : Step π κ Phase) :=
      blamesNoLeaf_onSearch.bind fun _ => ih
    refine (blamesNoLeaf_refute c).bind fun ok => ?_
    cases ok with
    | false => exact leave
    | true =>
      refine blamesNoLeaf_current.bind fun s => ?_
      dsimp only
      cases c.advance? (s.store.contains c.decision) with
      | none => exact leave
      | some d =>
        refine blamesNoLeaf_onSearch.bind fun _ => (blamesNoLeaf_decide _ _).bind fun _ => ?_
        exact blamesNoLeaf_pure _

/-- Only where a solution is to be recorded, a step can find that a variable is left open. -/
theorem step_blamesNoLeaf [Stopping κ] {r : Run π κ}
    (closed : r.search.phase = .complete → Solution.unfixed? r.search.store = none) :
    Ends (step r) (fun _ _ => True) fun cause _ =>
      ∀ v objective, cause ≠ .breakdown (.unfixedLeaf v objective) := by
  have entered (p : Phase) : BlamesNoLeaf (do enter p; return true : Step π κ Bool) :=
    blamesNoLeaf_onSearch.bind fun _ => blamesNoLeaf_pure _
  cases phase : r.search.phase with
  | propagating =>
    rw [step_of_propagating phase]
    exact (blamesNoLeaf_propagate.bind fun _ => entered _) r
  | quiescent =>
    cases stop : (Stopping.ask r.condition).1 with
    | true =>
      rw [step_of_asked phase stop]
      trivial
    | false =>
      rw [step_of_quiescent phase stop]
      cases allFixed r.search.store r.search.decisions with
      | error cause => exact blamesNoLeaf_fault (α := Bool) cause r
      | ok fixed => trivial
  | branching =>
    rw [step_of_branching phase]
    exact (blamesNoLeaf_branch.bind fun _ => entered _) r
  | complete =>
    rw [step_of_complete phase]
    unfold record
    rw [ends_bind, ends_bind, ends_current, closed phase]
    cases Solution.ofStore r.search.store r.search.objective with
    | error cause => exact blamesNoLeaf_fault (α := Unit) cause _
    | ok solution => trivial
  | failed =>
    rw [step_of_failed phase]
    exact ((blamesNoLeaf_backtrack _).bind fun _ => entered _) r
  | exhausted =>
    rw [step_of_exhausted phase]
    trivial

/-- Where a solution is to be recorded, **a step that finds a variable left open changes nothing**. -/
theorem step_of_open [Stopping κ] {r : Run π κ} {v : Var} (phase : r.search.phase = .complete)
    (opened : Solution.unfixed? r.search.store = some v) :
    step r = .error (.breakdown (.unfixedLeaf v r.search.objective)) r := by
  rw [step_of_complete phase]
  refine bind_of_error ?_
  unfold record
  rw [current_bind, opened]
  rfl

/-- A variable that is left open is found where a solution is to be recorded. -/
theorem open_of_step [Stopping κ] {r t : Run π κ} {v objective : Var}
    (h : step r = .error (.breakdown (.unfixedLeaf v objective)) t) :
    r.search.phase = .complete ∧ t = r ∧ Solution.unfixed? r.search.store = some v := by
  by_cases closed : r.search.phase = .complete → Solution.unfixed? r.search.store = none
  · exact absurd rfl ((step_blamesNoLeaf closed).of_error h v objective)
  · obtain ⟨phase, opened⟩ := Classical.not_imp.mp closed
    obtain ⟨w, opened⟩ := Option.ne_none_iff_exists'.mp opened
    rw [step_of_open phase opened] at h
    cases h
    exact ⟨phase, rfl, opened⟩

/-! ## What a search comes by -/

/-- What a search comes by when it is told of bounds between its runs, and is stopped or breaks down: whether
it is running, and a record of its choice points. -/
inductive Visits (start : Search π) : Bool → Search π → List Register → Prop
  | start : Visits start false start []
  | tighten {s : Search π} {rs : List Register} (h : Visits start false s rs) (b : Int) :
    Visits start false (s.tighten b) rs
  | resume {s : Search π} {rs : List Register} (h : Visits start false s rs) : Visits start true s rs
  | step {κ : Type} [Stopping κ] {r t : Run π κ} {more : Bool} {rs : List Register}
    (h : Visits start true r.search rs) (ht : step r = .ok more t) :
    Visits start more t.search (recorded r.search t.search rs)
  | broken {κ : Type} [Stopping κ] {r t : Run π κ} {cause : Breakdown} {rs : List Register}
    (h : Visits start true r.search rs) (ht : step r = .error (.breakdown cause) t) :
    Visits start false t.search rs

/-- A search that has broken down at a leaf with a variable that is open. -/
structure Stuck (R : Root π) (s : Search π) : Prop where
  phase : s.phase = .complete
  stands : ∃ m, Stands R s m s.choicePoints
  fixed : ∀ v ∈ R.decisions, s.store.isFixed v = true
  opened : ∃ v, Solution.unfixed? s.store = some v

/-- The invariant of what a search comes by. -/
structure Visited (R : Root π) (running : Bool) (s : Search π) (rs : List Register) : Prop where
  sound : (Inv R s s.phase ∧ (running = false → Rests s.phase)) ∨ Stuck R s
  fits : List.Forall₂ Register.Fits rs s.choicePoints

variable {R : Root π} {s : Search π} {rs : List Register} {running : Bool}

theorem Visited.exists_stands (h : Visited R running s rs) : ∃ m, Stands R s m s.choicePoints := by
  rcases h.sound with ⟨⟨⟨m, stands, -⟩, -⟩, -⟩ | stuck
  · exact ⟨m, stands⟩
  · exact stuck.stands

/-- Where a solution is to be recorded, all decisions are fixed. -/
theorem Visited.fixed (h : Visited R running s rs) (phase : s.phase = .complete) :
    ∀ v ∈ R.decisions, s.store.isFixed v = true := by
  rcases h.sound with ⟨⟨⟨m, stands, agrees⟩, -⟩, -⟩ | stuck
  · rw [phase] at agrees
    obtain ⟨-, -, fixed⟩ := agrees
    rwa [stands.decisions_eq] at fixed
  · exact stuck.fixed

theorem Stuck.tighten (h : Stuck R s) (b : Int) : Stuck R (s.tighten b) := by
  unfold Search.tighten
  split
  · obtain ⟨m, stands⟩ := h.stands
    exact ⟨h.phase, ⟨m, { stands with }⟩, h.fixed, h.opened⟩
  · exact h

omit [Propagator π] in
theorem Ladder.values_nodup {decisions : List Var} {base level : Nat} {s : Space} {cs : List ChoicePoint}
    (h : Ladder decisions base s cs level) : ∀ c ∈ cs, (c.current :: c.untried).Nodup := by
  induction h with
  | nil => exact fun c hc => by cases hc
  | cons _ rung ih => exact List.forall_mem_cons.mpr ⟨rung.nodup, ih⟩

section
variable [LawfulPropagator π] (hR : R.engine.Valid)
include hR

/-- A step keeps the invariant of a search, whatever the run found before. -/
theorem ends_step_inv [Stopping κ] {r : Run π κ} (h : Inv R r.search r.search.phase) :
    Ends (step r) (fun more t => Inv R t.search t.search.phase ∧
      if more then t.search.potential < r.search.potential else Rests t.search.phase)
      (fun cause _ => Excuse R cause) := by
  have start : Run.Inv R r.search.best { r with solutions := [] } := ⟨h, rfl⟩
  have same : step r = mapState (Run.seen id r.solutions) (step { r with solutions := [] }) :=
    step_seen (g := id) (fun _ => rfl) { r with solutions := [] } fun _ => rfl
  rw [same, ends_mapState]
  exact (ends_step hR start).mono_ok fun more t stepped => ⟨stepped.1.search, stepped.2⟩

theorem Visited.stepped [Stopping κ] {r t : Run π κ} {more : Bool} (h : Visited R true r.search rs)
    (ht : step r = .ok more t) : Visited R more t.search (recorded r.search t.search rs) := by
  rcases h.sound with ⟨inv, -⟩ | stuck
  · obtain ⟨inv', less⟩ := (ends_step_inv hR inv).of_ok ht
    obtain ⟨m, stands, -⟩ := inv'.stands
    refine ⟨.inl ⟨inv', fun stopped => ?_⟩, ((ends_step_moves r).of_ok ht).fits h.fits
      stands.ladder.values_nodup⟩
    rw [stopped, if_neg Bool.false_ne_true] at less
    exact less
  · obtain ⟨v, opened⟩ := stuck.opened
    rw [step_of_open stuck.phase opened] at ht
    cases ht

theorem Visited.broken [Stopping κ] {r t : Run π κ} {cause : Breakdown} (h : Visited R true r.search rs)
    (ht : step r = .error (.breakdown cause) t) : Visited R false t.search rs := by
  have stuck : ∃ v, Solution.unfixed? r.search.store = some v ∧ r.search.phase = .complete ∧ t = r := by
    rcases h.sound with ⟨inv, -⟩ | stuck
    · cases (ends_step_inv hR inv).of_error ht with
      | @unfixed e v run fixed hv hopen =>
        obtain ⟨phase, same, opened⟩ := open_of_step ht
        exact ⟨v, opened, phase, same⟩
    · obtain ⟨v, opened⟩ := stuck.opened
      rw [step_of_open stuck.phase opened] at ht
      cases ht
      exact ⟨v, opened, stuck.phase, rfl⟩
  obtain ⟨v, opened, phase, rfl⟩ := stuck
  exact ⟨.inr ⟨phase, h.exists_stands, h.fixed phase, v, opened⟩, h.fits⟩

/-- **Whatever a search comes by, it keeps its invariant.** -/
theorem Visits.visited {seed : Nat} (h : Visits (R.search seed) running s rs) : Visited R running s rs := by
  induction h with
  | start => exact ⟨.inl ⟨inv_search seed, fun _ => .inl rfl⟩, .nil⟩
  | tighten _ b ih =>
    refine ⟨?_, by rw [choicePoints_tighten]; exact ih.fits⟩
    rcases ih.sound with ⟨inv, rests⟩ | stuck
    · rw [phase_tighten]
      exact .inl ⟨inv.tighten (rests rfl) b, rests⟩
    · exact .inr (stuck.tighten b)
  | resume _ ih => exact ⟨ih.sound.imp_left fun inv => ⟨inv.1, Bool.noConfusion⟩, ih.fits⟩
  | step _ ht ih => exact ih.stepped hR ht
  | broken _ ht ih => exact ih.broken hR ht

end

/-! ## The stack -/

/-- The stack is in order: the choice points lie one level above another from the level of the root on, and
each is at one of its values, which are distinct, with the values from the next position on to be tried. -/
structure Orderly (R : Root π) (s : Search π) (rs : List Register) : Prop where
  level_eq : s.engine.level = R.engine.level + s.choicePoints.length
  checkpoint_eq : ∀ k c, s.choicePoints.reverse[k]? = some c → c.checkpoint = R.engine.level + k
  values : List.Forall₂ (fun r c => r.order.Nodup ∧ ∃ next, 0 < next ∧
    r.order[next - 1]? = some c.current ∧ r.order.drop next = c.untried) rs s.choicePoints

/-- A cause that blames a variable, not a decision, for being open at a leaf of a search. -/
def OpenLeaf (R : Root π) (s : Search π) (cause : SearchError) : Prop :=
  ∃ v, cause = .breakdown (.unfixedLeaf v R.objective) ∧ v ∉ R.decisions ∧
    v < s.store.numVars ∧ s.store.isFixed v = false ∧ ∀ d ∈ R.decisions, s.store.isFixed d = true

/-- Where a search that goes back from `r` comes to on its way: the choice points that are not left, and
what the run is there. -/
inductive Returning (r : Run π κ) : List ChoicePoint → Run π κ → Prop
  | start : Returning r r.search.choicePoints r
  | leave {c : ChoicePoint} {above : List ChoicePoint} {t t' : Run π κ} {ok : Bool}
    (h : Returning r (c :: above) t) (ht : refute c t = .ok ok t')
    (gone : ok = true → c.advance? (t'.search.store.contains c.decision) = none) :
    Returning r above (t'.withChoicePoints above)

omit [Propagator π] in
/-- The levels of a ladder are without gaps. -/
theorem Ladder.level_eq {decisions : List Var} {base level : Nat} {s : Space} {cs : List ChoicePoint}
    (h : Ladder decisions base s cs level) : level = base + cs.length ∧
      ∀ k c, cs.reverse[k]? = some c → c.checkpoint = base + k := by
  induction h with
  | nil => exact ⟨rfl, fun k c hc => by cases hc⟩
  | @cons c above _ _ ih =>
    obtain ⟨level, checkpoints⟩ := ih
    refine ⟨by rw [level]; rfl, fun k d hd => ?_⟩
    rw [List.reverse_cons] at hd
    rcases Nat.lt_trichotomy k above.length with lt | rfl | gt
    · rw [List.getElem?_append_left (by rwa [List.length_reverse])] at hd
      exact checkpoints k d hd
    · rw [List.getElem?_append_right (Nat.le_of_eq List.length_reverse), List.length_reverse,
        Nat.sub_self] at hd
      cases hd
      exact level
    · rw [List.getElem?_eq_none (by simpa using Nat.succ_le_of_lt gt)] at hd
      cases hd

theorem Stands.orderly {m : Engine.Mode} (h : Stands R s m s.choicePoints)
    (fits : List.Forall₂ Register.Fits rs s.choicePoints) : Orderly R s rs where
  level_eq := h.ladder.level_eq.1
  checkpoint_eq := h.ladder.level_eq.2
  values := fits.imp fun _ _ fit => ⟨fit.nodup, fit.exists_next⟩

/-- On the way back, a search does what is left to do from where it is. -/
theorem Returning.backtrack_eq [Stopping κ] {r t : Run π κ} {cs : List ChoicePoint}
    (h : Returning r cs t) : backtrack r.search.choicePoints r = backtrack cs t := by
  induction h with
  | start => rfl
  | @leave c above t t' ok _ ht gone ih =>
    rw [ih, backtrack, bind_of_ok ht]
    cases ok with
    | false => rfl
    | true =>
      rw [Bool.not_true, if_neg Bool.false_ne_true, current_bind, gone rfl]
      rfl

/-- On the way back, a search stands on the choice points that it has not left. -/
theorem Returning.exists_stands [LawfulPropagator π] (hR : R.engine.Valid) {m : Engine.Mode}
    {r t : Run π κ} {cs : List ChoicePoint} (h : Returning r cs t)
    (stands : Stands R r.search m r.search.choicePoints) : t.search.choicePoints = cs ∧
      (∃ m, Stands R t.search m cs) ∧ ∃ k, cs = r.search.choicePoints.drop k := by
  induction h with
  | start => exact ⟨rfl, ⟨m, stands⟩, 0, rfl⟩
  | @leave c above t t' ok _ ht _ ih =>
    obtain ⟨-, ⟨m', here⟩, k, left⟩ := ih
    obtain ⟨m'', there, -⟩ := ((ends_refute hR here).of_ok ht).stands
    refine ⟨rfl, ⟨m'', { there with }⟩, k + 1, ?_⟩
    rw [← List.tail_drop, ← left, List.tail_cons]

section
variable {seed : Nat} (made : R.engine.Made) (objective : R.objective < R.engine.store.numVars)
  (decisions : ∀ v ∈ R.decisions, v < R.engine.store.numVars)
  (unfaulty : ∀ e e' cause, R.engine.Run .busy e → e.turn ≠ .error (.fault cause) e')

include objective decisions unfaulty in
/-- The only excuse for breaking down is a leaf with a variable that is open. -/
theorem Excuse.exists_leaf {cause : SearchError} (h : Excuse R cause) :
    ∃ v, cause = .breakdown (.unfixedLeaf v R.objective) := by
  cases h with
  | unknown known hv =>
    rcases known with rfl | known
    · exact absurd objective (Nat.not_lt_of_le hv)
    · exact absurd (decisions _ known) (Nat.not_lt_of_le hv)
  | fault run turn => exact absurd turn (unfaulty _ _ _ run)
  | unfixed => exact ⟨_, rfl⟩

variable [LawfulPropagator π]
include made objective decisions unfaulty

/-- A step that breaks down has found a variable open at a leaf, and changes nothing. -/
theorem Visited.openLeaf [Stopping κ] {r t : Run π κ} {cause : SearchError}
    (h : Visited R running r.search rs) (ht : step r = .error cause t) :
    OpenLeaf R r.search cause ∧ t = r := by
  obtain ⟨m, stands⟩ := h.exists_stands
  have blamed : ∃ v, cause = .breakdown (.unfixedLeaf v R.objective) := by
    rcases h.sound with ⟨inv, -⟩ | stuck
    · exact ((ends_step_inv made.valid inv).of_error ht).exists_leaf objective decisions unfaulty
    · obtain ⟨v, opened⟩ := stuck.opened
      rw [step_of_open stuck.phase opened, stands.objective_eq] at ht
      cases ht
      exact ⟨v, rfl⟩
  obtain ⟨v, rfl⟩ := blamed
  obtain ⟨phase, same, opened⟩ := open_of_step ht
  have fixed := h.fixed phase
  have hopen : r.search.store.isFixed v = false := by simpa using List.find?_some opened
  refine ⟨⟨v, rfl, fun mem => ?_, List.mem_range.mp (List.mem_of_find?_eq_some opened), hopen, fixed⟩, same⟩
  rw [fixed v mem] at hopen
  cases hopen

/-- **A run leads from where a search comes by to where it comes by**, and breaks down only at a leaf with a
variable that is open. -/
theorem Visits.ends_run [Stopping κ] (h : Visits (R.search seed) running s rs) (condition : κ) :
    Ends (s.run condition) (fun _ t => ∃ rs, Visits (R.search seed) false t.search rs)
      (fun cause t => OpenLeaf R t.search cause) := by
  have running : ∃ rs, Visits (R.search seed) true s rs := by
    cases running with
    | true => exact ⟨rs, h⟩
    | false => exact ⟨rs, h.resume⟩
  refine ends_descend_done (I := fun r => ∃ rs, Visits (R.search seed) true r.search rs) ?_ running
  rintro r ⟨rs, visits⟩
  have visited := visits.visited made.valid
  cases hr : Search.step r with
  | error cause t =>
    obtain ⟨leaf, rfl⟩ := visited.openLeaf made objective decisions unfaulty hr
    exact leaf
  | ok more t =>
    rcases visited.sound with ⟨inv, -⟩ | stuck
    · have less := ((ends_step_inv made.valid inv).of_ok hr).2
      have visits' := visits.step hr
      cases more with
      | true => exact ⟨⟨_, visits'⟩, less⟩
      | false => exact ⟨_, visits'⟩
    · obtain ⟨v, opened⟩ := stuck.opened
      rw [step_of_open stuck.phase opened] at hr
      cases hr

/-- **The stack of a search is never broken.**  Let the objective and the decisions be variables and no
propagator break down.  Wherever a search comes by, its stack is in order.  So it is on the way back, where
what is left to do is what it does, and the level of the deepest choice point can always be returned to.
Neither a step nor a run ever fails, except at a leaf with a variable that is open and not a decision. -/
theorem stack_unbroken (h : Visits (R.search seed) running s rs) : Orderly R s rs ∧
    (∀ {κ : Type} [Stopping κ] (r : Run π κ), r.search = s →
      (∀ cause t, step r = .error cause t → OpenLeaf R s cause ∧ t = r) ∧
      (s.phase = .failed → ∀ cs t, Returning r cs t →
        backtrack s.choicePoints r = backtrack cs t ∧
        t.search.choicePoints = cs ∧ (∃ k, Orderly R t.search (rs.drop k)) ∧
        ∀ c above, cs = c :: above →
          c.checkpoint < t.search.engine.level ∧ ∃ e, t.search.engine.restore c.checkpoint = .ok e)) ∧
    ∀ {κ : Type} [Stopping κ] (condition : κ) cause t, s.run condition = .error cause t →
      OpenLeaf R t.search cause := by
  have visited := h.visited made.valid
  obtain ⟨m, stands⟩ := visited.exists_stands
  refine ⟨stands.orderly visited.fits, fun {κ} _ r hr => ?_, fun condition cause t ht => ?_⟩
  · subst hr
    refine ⟨fun cause t ht => ?_, fun _ cs t returning => ?_⟩
    · exact visited.openLeaf made objective decisions unfaulty ht
    · obtain ⟨choicePoints, ⟨m', here⟩, k, left⟩ := returning.exists_stands made.valid stands
      have fits : List.Forall₂ Register.Fits (rs.drop k) t.search.choicePoints := by
        rw [choicePoints, left]
        exact List.forall₂_drop k visited.fits
      refine ⟨returning.backtrack_eq, choicePoints, ⟨k, ?_⟩, fun c above deepest => ?_⟩
      · subst choicePoints
        exact here.orderly fits
      · subst deepest
        have lt : c.checkpoint < t.search.engine.level :=
          here.ladder.checkpoint_lt c List.mem_cons_self
        refine ⟨lt, ?_⟩
        cases back : t.search.engine.restore c.checkpoint with
        | ok e => exact ⟨e, rfl⟩
        | error cause => exact absurd back (Engine.restore_ne_error (here.valid made.valid) lt cause)
  · exact (h.ends_run made objective decisions unfaulty condition).of_error ht

end

end

end Search

/-! ## A sample -/

theorem lt_numVars_copyModel {e : Engine Constraint} (h : e.Faithful copyModel) :
    (copyModel.root e).objective < e.store.numVars ∧
      ∀ v ∈ (copyModel.root e).decisions, v < e.store.numVars := by
  rw [h.spans.numVars_eq]
  exact (show 1 < 2 ∧ ∀ v ∈ [0], v < 2 by decide)

/-- A search for two equal variables that was told of a bound and stopped after its first decision. -/
theorem exists_visits_copyModel : ∃ e s rs, copyModel.load = .ok e ∧ e.Faithful copyModel ∧
    Search.Visits ((copyModel.root e).search 42) false s rs ∧ s.choicePoints.length = 1 := by
  obtain ⟨e, load, faithful⟩ := exists_load_copyModel
  have outcome : (match copyModel.load with
      | .ok e =>
        match (((copyModel.root e).search 42).tighten 5).run (Condition.budget 1) with
        | .ok _ r => decide (r.search.choicePoints.length = 1)
        | .error _ _ => false
      | .error _ => false) = true := by decide +kernel
  rw [load] at outcome
  dsimp only at outcome
  split at outcome
  · rename_i r hr
    obtain ⟨objective, decisions⟩ := lt_numVars_copyModel faithful
    have told : Search.Visits ((copyModel.root e).search 42) false _ _ := .tighten .start 5
    obtain ⟨rs, visits⟩ :=
      (told.ends_run faithful.made objective decisions faithful.unfaulty (Condition.budget 1)).of_ok hr
    exact ⟨e, r.search, rs, load, faithful, visits, of_decide_eq_true outcome⟩
  · cases outcome

theorem stack_unbroken_copyModel : ∃ e s rs, copyModel.load = .ok e ∧
    Search.Visits ((copyModel.root e).search 42) false s rs ∧ s.choicePoints.length = 1 ∧
      Search.Orderly (copyModel.root e) s rs := by
  obtain ⟨e, s, rs, load, faithful, visits, opened⟩ := exists_visits_copyModel
  obtain ⟨objective, decisions⟩ := lt_numVars_copyModel faithful
  exact ⟨e, s, rs, load, visits, opened,
    (Search.stack_unbroken faithful.made objective decisions faithful.unfaulty visits).1⟩

end BranchBound
