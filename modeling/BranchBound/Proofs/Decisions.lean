import BranchBound.Proofs.LotSizing.Exactness
import BranchBound.Proofs.Routing.Exactness

/-! # The decisions decide everything

A search branches on the decisions of a model only, and takes what it comes to for a solution once they are
fixed.  So a model has to see to it that propagation then fixes everything else (`Model.Decides`): at every
rest of propagation that the engine can come to, and so wherever a search is between two of its steps
(`Search.Comes`).

This holds for every model whose propagators do what it says and whose decisions are decisive
(`Engine.Faithful.decides`), so **it holds for every instance of both problems, and no search of them breaks
down** (`decisions_decide`). -/
namespace BranchBound
namespace Search
variable {π κ : Type} [Propagator π] [Stopping κ]

/-- What a run can come to after some of its steps. -/
inductive Comes (start : Run π κ) : Run π κ → Prop
  | start : Comes start start
  | step {r r' : Run π κ} {more : Bool} (h : Comes start r) (hr : step r = .ok more r') :
    Comes start r'

/-- Every step keeps the invariant of a run. -/
theorem Comes.inv [LawfulPropagator π] {R : Root π} {first : Option Int} {start r : Run π κ}
    (hR : R.engine.Valid) (h : Comes start r) (inv : Run.Inv R first start) : Run.Inv R first r := by
  induction h with
  | start => exact inv
  | step _ hr ih => exact ((ends_step hR ih).of_ok hr).1

omit [Stopping κ] in
/-- The search of a run stands in a state that its engine can come to, as its phase says. -/
theorem Run.Inv.exists_stands {R : Root π} {first : Option Int} {r : Run π κ} (h : Run.Inv R first r) :
    ∃ mode, R.engine.Run mode r.search.engine ∧ Agrees r.search.phase mode r.search ∧
      r.search.decisions = R.decisions := by
  obtain ⟨mode, stands, agrees⟩ := h.search.stands
  exact ⟨mode, stands.run, agrees, stands.decisions_eq⟩

end Search

open Search

/-- The decisions of a model decide everything, in the engine that it is loaded into. -/
structure Model.Decides (m : Model Constraint) (e : Engine Constraint) : Prop where
  /-- Wherever propagation comes to rest with the decisions fixed, every variable is fixed. -/
  fixed : ∀ mode e' e'', e.Run mode e' → mode.Idle → e'.propagate = .ok () e'' →
    (∀ v ∈ m.decisions, e''.store.isFixed v = true) →
      ∀ v, v < e''.store.numVars → e''.store.isFixed v = true
  /-- The engine of a search is always in a state that it can come to. -/
  visits : ∀ seed s log, Session (Search.start e m.objective m.decisions seed) s log →
    ∀ (κ : Type) [Stopping κ] (condition : κ) r, Comes { search := s, condition } r →
      ∃ mode, e.Run mode r.search.engine ∧ (r.search.phase = .propagating → mode.Idle) ∧
        (r.search.phase = .quiescent → mode = .quiet)
  /-- So what a search takes for a solution leaves no variable open. -/
  closed : ∀ seed s log, Session (Search.start e m.objective m.decisions seed) s log →
    ∀ (κ : Type) [Stopping κ] (condition : κ) r, Comes { search := s, condition } r →
      (r.search.phase = .quiescent → (∀ v ∈ m.decisions, r.search.store.isFixed v = true) →
        ∀ v, v < r.search.store.numVars → r.search.store.isFixed v = true) ∧
      (r.search.phase = .complete → Solution.unfixed? r.search.store = none)
  /-- No step breaks down, and neither does a run. -/
  runs : ∀ seed s log, Session (Search.start e m.objective m.decisions seed) s log →
    ∀ (κ : Type) [Stopping κ] (condition : κ),
      (∀ r, Comes { search := s, condition } r → ∃ more r', Search.step r = .ok more r') ∧
      ∃ r, s.run condition = .ok () r

/-- No variable is found to be open if all are fixed. -/
theorem Solution.unfixed?_eq_none {s : Store} (h : ∀ v, v < s.numVars → s.isFixed v = true) :
    Solution.unfixed? s = none := by
  unfold unfixed?
  refine List.find?_eq_none.mpr fun v hv => ?_
  rw [h v (List.mem_range.mp hv)]
  exact Bool.false_ne_true

section
variable {m : Model Constraint} {e : Engine Constraint}

/-- The invariant of a session holds after every step of a further run. -/
theorem Search.Session.comes {seed : Nat} {s : Search Constraint} {log : List Entry} (hR : e.Valid)
    (session : Session ((m.root e).search seed) s log) {κ : Type} [Stopping κ] {condition : κ}
    {r : Run Constraint κ} (comes : Comes { search := s, condition } r) :
    Run.Inv (m.root e) s.best r :=
  comes.inv hR ⟨(session.inv hR).1, rfl⟩

/-- **The decisions of a model decide everything** if its propagators do what it says and its decisions are
decisive. -/
theorem Engine.Faithful.decides (h : e.Faithful m) (decisive : e.Decisive m) : m.Decides e where
  fixed mode e' e'' run idle rest := by
    have ended := (run.propagate h.made.valid idle).of_ok rest
    exact decisive.all_fixed e'' ended.1
  visits seed s log session κ _ condition r comes := by
    obtain ⟨mode, run, agrees, -⟩ := (session.comes h.made.valid comes).exists_stands
    refine ⟨mode, run, fun phase => ?_, fun phase => ?_⟩
    · rw [phase] at agrees
      exact agrees
    · rw [phase] at agrees
      exact agrees.1
  closed seed s log session κ _ condition r comes := by
    obtain ⟨mode, run, agrees, decisions⟩ := (session.comes h.made.valid comes).exists_stands
    constructor
    · intro phase fixed
      rw [phase] at agrees
      obtain rfl := agrees.1
      exact decisive.all_fixed _ run fixed
    · intro phase
      rw [phase] at agrees
      obtain ⟨rfl, -, fixed⟩ := agrees
      rw [decisions] at fixed
      exact Solution.unfixed?_eq_none (decisive.all_fixed _ run fixed)
  runs seed s log session κ _ condition := by
    have flawless := h.flawless decisive
    refine ⟨fun r comes => ?_,
      Session.exists_run (R := m.root e) h.made.valid session flawless condition⟩
    have ended := ends_step h.made.valid (session.comes h.made.valid comes)
    cases hstep : Search.step r with
    | ok more r' => exact ⟨more, r', rfl⟩
    | error cause r' => exact absurd (ended.of_error hstep) (flawless cause)

end

/-- **Fixing the decisions fixes everything.**  The models of all instances can be loaded, for both problems,
and their decisions decide everything there: wherever propagation comes to rest with all decisions fixed, all
variables are fixed, whatever was searched before, and no search of them breaks down. -/
theorem decisions_decide :
    (∀ p : Routing.Instance, ∃ e, p.model.load = .ok e ∧ p.model.Decides e) ∧
      ∀ p : LotSizing.Instance, ∃ e, p.model.load = .ok e ∧ p.model.Decides e := by
  constructor
  · intro p
    obtain ⟨e, load, faithful⟩ := p.exists_load
    exact ⟨e, load, faithful.decides (Routing.Instance.decisive faithful)⟩
  · intro p
    obtain ⟨e, load, faithful⟩ := p.exists_load
    exact ⟨e, load, faithful.decides (LotSizing.Instance.decisive faithful)⟩

end BranchBound
