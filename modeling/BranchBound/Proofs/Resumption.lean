import BranchBound.Proofs.Exactness
import BranchBound.Proofs.Persistence

/-! # Stopping and resuming

A search can be stopped between two decisions and resumed later.  What it does in between is to
bound the objective and to propagate once more, and that does nothing: propagation had come to rest
already, below the same bound (`propagate_of_quiet`).

The condition is asked at rest only, and a step looks at it nowhere else (`step_seen`).  **So a run
leads to where an uninterrupted run from the same search comes by** (`ends_run_freed`), and so
does a session of runs (`Session.finish_eq`). -/
namespace BranchBound

/-! ## Propagation that has come to rest -/

namespace Engine
variable {π : Type} [Propagator π] [LawfulPropagator π] {e₀ e : Engine π}

/-- **Where nobody has a reason to be called, propagation does nothing.** -/
theorem Run.propagate_of_quiet (h₀ : e₀.Valid) (h : Run e₀ .quiet e) : e.propagate = .ok () e := by
  have silent : e.store.events = [] := (h.inside h₀).silent (.inr rfl)
  have nobody : e.queue.pop = none := h.pop_eq_none h₀ rfl
  unfold Engine.propagate
  rw [deliverAll_of_silent silent]
  refine descend_of_done ?_
  unfold Engine.turn
  rw [nobody]

end Engine

namespace Search
variable {π κ κ' : Type}

/-- The run with another condition, after solutions that were found before it. -/
def Run.seen (g : κ → κ') (found : List Solution) (r : Run π κ) : Run π κ' where
  search := r.search
  condition := g r.condition
  solutions := r.solutions ++ found

/-! ## Steps do not depend on the condition -/

section
variable {g : κ → κ'} {found : List Solution}

theorem mirrors_current : Mirrors (Run.seen g found) (current : Step π κ (Search π)) current :=
  fun _ => rfl

theorem mirrors_onSearch {f : Search π → Search π} :
    Mirrors (Run.seen g found) (onSearch f : Step π κ Unit) (onSearch f) := fun _ => rfl

theorem mirrors_narrow {f : Store.Narrowing} :
    Mirrors (Run.seen g found) (narrow f : Step π κ _) (narrow f) := by
  refine mirrors_current.bind fun s => ?_
  cases f s.store with
  | ok changed store => exact mirrors_onSearch.bind fun _ => mirrors_pure
  | error halt store =>
    cases halt with
    | inconsistent cause => exact mirrors_onSearch.bind fun _ => mirrors_pure
    | fault cause => exact (mirrors_onSearch.bind fun _ => mirrors_pure).bind fun _ => mirrors_throw

theorem mirrors_refuted {source : Option Nat} :
    Mirrors (Run.seen g found) (refuted source : Step π κ Unit) (refuted source) :=
  mirrors_onSearch.bind fun _ => mirrors_current.bind fun _ => mirrors_onSearch

theorem mirrors_bound : Mirrors (Run.seen g found) (bound : Step π κ Bool) bound := by
  refine mirrors_current.bind fun s => ?_
  cases s.best with
  | none => exact mirrors_pure
  | some best =>
    refine mirrors_narrow.bind fun answer => ?_
    cases answer with
    | ok changed => exact mirrors_pure
    | error cause => exact mirrors_refuted.bind fun _ => mirrors_pure

theorem mirrors_order {v : Var} : Mirrors (Run.seen g found) (order v : Step π κ _) (order v) :=
  mirrors_current.bind fun _ => mirrors_onSearch.bind fun _ => mirrors_pure

theorem mirrors_record : Mirrors (Run.seen g found) (record : Step π κ Unit) record := by
  refine mirrors_current.bind fun s => ?_
  cases Solution.unfixed? s.store with
  | some v => exact mirrors_throw
  | none =>
    cases Solution.ofStore s.store s.objective with
    | error cause => exact mirrors_throw
    | ok solution =>
      refine mirrors_onSearch.bind fun _ => mirrors_onSearch.bind fun _ => ?_
      exact mirrors_onSearch.bind fun _ => mirrors_modify fun _ => rfl

section
variable [Stopping κ] [Stopping κ'] (hg : ∀ c, Stopping.decided (g c) = g (Stopping.decided c))
include hg

theorem mirrors_decide {v : Var} {x : Int} :
    Mirrors (Run.seen g found) (decide v x : Step π κ Unit) (decide v x) := by
  refine mirrors_onSearch.bind fun _ => mirrors_narrow.bind fun answer => ?_
  cases answer with
  | error cause => exact mirrors_throw
  | ok changed =>
    refine mirrors_onSearch.bind fun _ => mirrors_modify fun r => ?_
    unfold Run.seen
    rw [hg]

theorem mirrors_branch : Mirrors (Run.seen g found) (branch : Step π κ Unit) branch := by
  refine mirrors_current.bind fun s => ?_
  cases s.selector.select s.store with
  | error cause => exact mirrors_throw
  | ok selection =>
    obtain ⟨v?, selector⟩ := selection
    cases v? with
    | none => exact mirrors_throw
    | some v =>
      refine mirrors_onSearch.bind fun _ => mirrors_order.bind fun values => ?_
      cases values with
      | nil => exact mirrors_throw
      | cons value rest =>
        refine mirrors_onSearch.bind fun _ => mirrors_current.bind fun _ => ?_
        exact mirrors_onSearch.bind fun _ => mirrors_decide hg

end

variable [Propagator π]

theorem mirrors_propagate : Mirrors (Run.seen g found) (propagate : Step π κ Bool) propagate := by
  refine mirrors_bound.bind fun bounded => ?_
  cases bounded with
  | false => exact mirrors_pure
  | true =>
    refine mirrors_current.bind fun s => ?_
    cases s.engine.propagate with
    | ok _ engine => exact mirrors_onSearch.bind fun _ => mirrors_pure
    | error failure engine =>
      cases failure with
      | refuted source cause =>
        exact mirrors_onSearch.bind fun _ => mirrors_refuted.bind fun _ => mirrors_pure
      | fault cause => exact mirrors_onSearch.bind fun _ => mirrors_throw

theorem mirrors_refute {c : ChoicePoint} :
    Mirrors (Run.seen g found) (refute c : Step π κ Bool) (refute c) := by
  refine mirrors_current.bind fun s => ?_
  cases s.engine.restore c.checkpoint with
  | error cause => exact mirrors_throw
  | ok engine =>
    refine mirrors_onSearch.bind fun _ => mirrors_narrow.bind fun answer => ?_
    cases answer with
    | ok changed => exact mirrors_propagate
    | error cause => exact mirrors_refuted.bind fun _ => mirrors_pure

variable [Stopping κ] [Stopping κ'] (hg : ∀ c, Stopping.decided (g c) = g (Stopping.decided c))
include hg

theorem mirrors_backtrack (cs : List ChoicePoint) :
    Mirrors (Run.seen g found) (backtrack cs : Step π κ Phase) (backtrack cs) := by
  -- from the innermost choice point outwards, as long as there is nothing left to try
  induction cs with
  | nil => exact mirrors_pure
  | cons c above ih =>
    have leave : Mirrors (Run.seen g found)
        (do onSearch ({ · with choicePoints := above }); backtrack above : Step π κ Phase)
        (do onSearch ({ · with choicePoints := above }); backtrack above) :=
      mirrors_onSearch.bind fun _ => ih
    refine mirrors_refute.bind fun ok => ?_
    cases ok with
    | false => exact leave
    | true =>
      refine mirrors_current.bind fun s => ?_
      dsimp only
      cases c.advance? (s.store.contains c.decision) with
      | none => exact leave
      | some d =>
        exact mirrors_onSearch.bind fun _ => (mirrors_decide hg).bind fun _ => mirrors_pure

/-- **A step does the same under another condition**, if that answers the same when it is asked. -/
theorem step_seen (r : Run π κ) (hask : r.search.phase = .quiescent →
      Stopping.ask (g r.condition) = Prod.map id g (Stopping.ask r.condition)) :
    step (r.seen g found) = mapState (Run.seen g found) (step r) := by
  have entered (p : Phase) : Mirrors (Run.seen g found)
      (do enter p; return true : Step π κ Bool) (do enter p; return true) :=
    mirrors_onSearch.bind fun _ => mirrors_pure
  cases phase : r.search.phase with
  | propagating =>
    rw [step_of_propagating phase, step_of_propagating (r := r.seen g found) phase]
    exact (mirrors_propagate.bind fun _ => entered _) r
  | quiescent =>
    have asked : Stopping.ask (r.seen g found).condition = Prod.map id g (Stopping.ask r.condition) :=
      hask phase
    have answer : (Stopping.ask (r.seen g found).condition).1 = (Stopping.ask r.condition).1 := by
      rw [asked]
      rfl
    cases stop : (Stopping.ask r.condition).1 with
    | true =>
      rw [step_of_asked phase stop, step_of_asked (r := r.seen g found) phase (answer.trans stop), asked]
      rfl
    | false =>
      rw [step_of_quiescent phase stop, step_of_quiescent (r := r.seen g found) phase (answer.trans stop),
        asked, show (r.seen g found : Run π κ').search = r.search from rfl]
      cases allFixed r.search.store r.search.decisions <;> rfl
  | branching =>
    rw [step_of_branching phase, step_of_branching (r := r.seen g found) phase]
    exact ((mirrors_branch hg).bind fun _ => entered _) r
  | complete =>
    rw [step_of_complete phase, step_of_complete (r := r.seen g found) phase]
    exact (mirrors_record.bind fun _ => entered _) r
  | failed =>
    rw [step_of_failed phase, step_of_failed (r := r.seen g found) phase]
    exact ((mirrors_backtrack hg _).bind fun _ => entered _) r
  | exhausted =>
    rw [step_of_exhausted phase, step_of_exhausted (r := r.seen g found) phase]
    rfl

end

/-! ## Resuming -/

variable [Propagator π] [LawfulPropagator π] {R : Root π} (hR : R.engine.Valid)

/-- What it takes to resume a search: its invariant, and an objective that is a variable if it is
bounded. -/
structure Resumable (R : Root π) (s : Search π) : Prop where
  inv : Inv R s s.phase
  known : s.best ≠ none → R.objective < R.engine.store.numVars

include hR

theorem Found.known {first best : Option Int} {solutions : List Solution}
    (h : Found R first solutions best)
    (known : first ≠ none → R.objective < R.engine.store.numVars) (bounded : best ≠ none) :
    R.objective < R.engine.store.numVars := by
  cases solutions with
  | nil =>
    obtain rfl : best = first := h
    exact known bounded
  | cons solution earlier =>
    obtain ⟨⟨e, run, -, objective, -⟩, -⟩ := h
    rw [← (run.inside hR).numVars_eq]
    exact objective

/-- **Bounding the objective and propagating again does nothing** where propagation came to rest below
the bound. -/
theorem propagate_of_quiet {r : Run π κ} (run : R.engine.Run .quiet r.search.engine)
    (bounded : r.search.Bounded)
    (known : r.search.best ≠ none → r.search.objective < r.search.store.numVars) :
    propagate r = .ok true r := by
  have ready : bound r = .ok true r := by
    unfold bound
    rw [current_bind]
    cases hb : r.search.best with
    | none => rfl
    | some best =>
      have unchanged : Store.setUpper r.search.objective (Word.pred best) r.search.store =
          .ok false r.search.store :=
        Store.setUpper_eq_false_iff.mpr
          ⟨rfl, known (by rw [hb]; exact Option.some_ne_none best), bounded best hb⟩
      -- the upper bound is below the best already, so that cutting it changes nothing
      refine (bind_of_ok (a := .ok false) (t := r) ?_).trans rfl
      unfold narrow
      rw [current_bind, unchanged]
      rfl
  unfold propagate
  rw [bind_of_ok ready, Bool.not_true, if_neg Bool.false_ne_true, current_bind,
    run.propagate_of_quiet hR]
  rfl

/-- A search that was stopped gets back to where it was stopped by a step. -/
theorem step_of_stopped [Stopping κ] {r : Run π κ} (h : Resumable R r.search)
    (phase : r.search.phase = .quiescent) :
    step { r with search := { r.search with phase := .propagating } } = .ok true r := by
  obtain ⟨⟨m, stands, agrees⟩, -⟩ := h.inv
  rw [phase] at agrees
  obtain ⟨rfl, bounded⟩ := agrees
  have known : r.search.best ≠ none → r.search.objective < r.search.store.numVars := fun hb => by
    rw [stands.objective_eq, Search.store, (stands.inside hR).numVars_eq]
    exact h.known hb
  rw [step_of_propagating rfl, bind_of_ok (propagate_of_quiet hR (r := { r with
    search := { r.search with phase := .propagating } }) stands.run bounded known)]
  have back : ({ r.search with phase := .quiescent } : Search π) = r.search := by rw [← phase]
  change EStateM.Result.ok true ({ r with search := { r.search with phase := .quiescent } } : Run π κ) = _
  rw [back]

/-- A step of a search that can be resumed leads to another one. -/
theorem ends_step_resumable [Stopping κ] {r : Run π κ} (h : Resumable R r.search) :
    Ends (step r) (fun more t => Resumable R t.search ∧
      if more then t.search.potential < r.search.potential else Rests t.search.phase)
      (fun cause _ => Excuse R cause) := by
  have start : Run.Inv R r.search.best { r with solutions := [] } := ⟨h.inv, rfl⟩
  have ended := ends_step hR start
  have same : step r = mapState (Run.seen id r.solutions) (step { r with solutions := [] }) :=
    step_seen (g := id) (fun _ => rfl) { r with solutions := [] } fun _ => rfl
  rw [same, ends_mapState]
  exact ended.mono_ok fun more t ht => ⟨⟨ht.1.search, ht.1.found.known hR h.known⟩, ht.2⟩

theorem lowers_step [Stopping κ] : Lowers (fun r : Run π κ => r.search.potential) step
    fun r => Resumable R r.search := by
  intro r t h ht
  exact (ends_step_resumable hR h).of_ok ht

omit [LawfulPropagator π] hR in
/-- A step that asks for no more was asked to stop, or has nothing left to do. -/
theorem phase_of_done [Stopping κ] {r t : Run π κ} (h : step r = .ok false t) :
    r.search.phase = .quiescent ∧ (Stopping.ask r.condition).1 = true ∨
      r.search.phase = .exhausted := by
  have entered {β : Type} {m : Step π κ β} {p : β → Phase} (h : (do enter (p (← m)); return true :
      Step π κ Bool) r = .ok false t) : False := by
    obtain ⟨_, u, -, h⟩ := bind_eq_ok h
    cases h
  cases phase : r.search.phase with
  | propagating => exact (entered ((step_of_propagating phase).symm.trans h)).elim
  | quiescent =>
    cases stop : (Stopping.ask r.condition).1 with
    | true => exact .inl ⟨rfl, rfl⟩
    | false =>
      rw [step_of_quiescent phase stop] at h
      cases fixed : allFixed r.search.store r.search.decisions <;> rw [fixed] at h <;> cases h
  | branching => exact (entered ((step_of_branching phase).symm.trans h)).elim
  | complete => exact (entered ((step_of_complete phase).symm.trans h)).elim
  | failed => exact (entered ((step_of_failed phase).symm.trans h)).elim
  | exhausted => exact .inr rfl

/-! ## Runs that are not interrupted -/

/-- The run if nothing is to stop it any more, after solutions that were found before it. -/
def Run.freed (found : List Solution) (r : Run π κ) : Run π := r.seen (fun _ => .indefinite) found

/-- What a run comes to. -/
def Run.finish (r : Run π) : EStateM.Result SearchError (Run π) Unit :=
  descend (fun r => r.search.potential) step r

omit [LawfulPropagator π] hR in
theorem Run.finish_of_exhausted {r : Run π} (h : r.search.phase = .exhausted) :
    r.finish = .ok () r :=
  descend_of_done (step_of_exhausted h)

theorem Run.finish_of_stopped {r : Run π} (h : Resumable R r.search)
    (h' : Resumable R { r.search with phase := .propagating }) (phase : r.search.phase = .quiescent) :
    Run.finish { r with search := { r.search with phase := .propagating } } = r.finish :=
  descend_of_more (lowers_step hR) h' (step_of_stopped hR h phase)

/-- **A run leads to where an uninterrupted run from the same search comes by**, whether it ends well or
not. -/
theorem ends_run_freed [Stopping κ] {s : Search π} (h : Resumable R s) (condition : κ)
    (found : List Solution) :
    let first : Run π := { search := s, condition := .indefinite, solutions := found }
    Ends (s.run condition)
      (fun _ t => Resumable R t.search ∧ Rests t.search.phase ∧ first.finish = (t.freed found).finish)
      (fun cause t => first.finish = .error cause (t.freed found)) := by
  intro first
  refine ends_descend_done (I := fun t => Resumable R t.search ∧ first.finish = (t.freed found).finish)
    ?_ ⟨h, rfl⟩
  rintro r ⟨resumable, reaches⟩
  have ended := ends_step_resumable hR resumable
  have freed : Resumable R (r.freed found).search := resumable
  by_cases stop : r.search.phase = .quiescent ∧ (Stopping.ask r.condition).1 = true
  · -- the next step of the uninterrupted run gets back to where the other was stopped
    obtain ⟨phase, stop⟩ := stop
    rw [step_of_asked phase stop] at ended ⊢
    obtain ⟨resumable', rests⟩ := ended
    exact ⟨resumable', rests, reaches.trans (Run.finish_of_stopped hR freed resumable' phase).symm⟩
  · have same : step (r.freed found) = mapState (Run.freed found) (step r) :=
      step_seen (g := fun _ => Condition.indefinite) (fun _ => rfl) r fun phase => by
        have goes : (Stopping.ask r.condition).1 = false :=
          Bool.eq_false_iff.mpr fun asked => stop ⟨phase, asked⟩
        change (false, Condition.indefinite) = ((Stopping.ask r.condition).1, Condition.indefinite)
        rw [goes]
    cases hr : step r with
    | error cause t =>
      rw [hr] at same
      exact reaches.trans (descend_of_error same)
    | ok more t =>
      rw [hr] at same ended
      obtain ⟨resumable', less⟩ := ended
      cases more with
      | true => exact ⟨⟨resumable', reaches.trans (descend_of_more (lowers_step hR) freed same)⟩, less⟩
      | false =>
        have exhausted := (phase_of_done hr).resolve_left stop
        rw [step_of_exhausted exhausted] at hr
        cases hr
        exact ⟨resumable', less, reaches⟩

omit [LawfulPropagator π] hR in
theorem resumable_search (seed : Nat) : Resumable R (R.search seed) :=
  ⟨inv_search seed, fun bounded => absurd rfl bounded⟩

/-- **A session of runs leads to where an uninterrupted run comes by.** -/
theorem Session.finish_eq {s : Search π} {log : List Entry} {seed : Nat}
    (h : Session (R.search seed) s log) (free : ∀ b, .bound b ∉ log) :
    ∃ found : List Solution, log = found.map .solution ∧ Resumable R s ∧
      Run.finish { search := R.search seed, condition := .indefinite } =
        Run.finish { search := s, condition := .indefinite, solutions := found } := by
  induction h with
  | start => exact ⟨[], rfl, resumable_search seed, rfl⟩
  | tighten _ b _ => exact absurd List.mem_cons_self (free b)
  | @run s log κ _ condition t _ ht ih =>
    obtain ⟨found, rfl, resumable, reaches⟩ := ih fun b hb => free b (List.mem_append_right _ hb)
    obtain ⟨resumable', -, further⟩ := (ends_run_freed hR resumable condition found).of_ok ht
    exact ⟨t.solutions ++ found, List.map_append.symm, resumable', reaches.trans further⟩

end Search
end BranchBound
