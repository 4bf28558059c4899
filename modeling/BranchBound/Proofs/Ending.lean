import BranchBound.Proofs.Stack

/-! # A search comes to its end

What makes a search end is its potential: every step that asks for more lowers it, be it that a choice point
is opened, moved on, or left, or that a solution is recorded and the search goes on below a new bound.  Most
of it lies in the values that are left to be tried at the choice points; a value that was refuted is not
tried again, even where the domain cannot do without it.

So **a run that is never told to stop takes no more steps than its potential at the start**, and ends when
the search is exhausted or breaks down (`run_ends`). -/
namespace BranchBound
namespace Search
variable {π κ : Type} [Propagator π] [Stopping κ]

/-- What a run comes to after a number of steps that ask for more. -/
inductive Takes (start : Run π κ) : Nat → Run π κ → Prop
  | start : Takes start 0 start
  | step {n : Nat} {r t : Run π κ} (h : Takes start n r) (ht : step r = .ok true t) :
    Takes start (n + 1) t

/-- The condition does not stop the run, whenever it is asked. -/
def Run.NeverStops (start : Run π κ) : Prop :=
  ∀ n r, Takes start n r → r.search.phase = .quiescent → (Stopping.ask r.condition).1 = false

/-- A run is at its end: the search is exhausted or breaks down. -/
inductive Run.Final (r : Run π κ) : EStateM.Result SearchError (Run π κ) Unit → Prop
  | exhausted (phase : r.search.phase = .exhausted) : r.Final (.ok () r)
  | broken {cause : SearchError} {t : Run π κ} (ht : step r = .error cause t) : r.Final (.error cause t)

variable [LawfulPropagator π] {R : Root π} {s : Search π} {rs : List Register} {running : Bool} {seed : Nat}

/-- Every step that asks for more lowers the potential of a search, wherever it comes by. -/
theorem lowers_step_visits (hR : R.engine.Valid) :
    Lowers (fun r : Run π κ => r.search.potential) step
      fun r => ∃ rs, Visits (R.search seed) true r.search rs := by
  rintro r t ⟨rs, visits⟩ ht
  refine ⟨⟨_, visits.step ht⟩, ?_⟩
  rcases (visits.visited hR).sound with ⟨inv, -⟩ | stuck
  · exact ((ends_step_inv hR inv).of_ok ht).2
  · obtain ⟨v, opened⟩ := stuck.opened
    rw [step_of_open stuck.phase opened] at ht
    cases ht

/-- From wherever a run has come to, it comes to its end in as many steps as it has potential left. -/
theorem Takes.exists_final (hR : R.engine.Valid) {start r : Run π κ} {n : Nat} (never : start.NeverStops)
    (h : Takes start n r) (visits : ∃ rs, Visits (R.search seed) true r.search rs) :
    ∃ n' t, n' ≤ n + r.search.potential ∧ Takes start n' t ∧
      t.Final (descend (fun r : Run π κ => r.search.potential) Search.step r) := by
  have lowers : Lowers (fun r : Run π κ => r.search.potential) Search.step
    fun r => ∃ rs, Visits (R.search seed) true r.search rs := lowers_step_visits hR
  -- the induction is on the potential, which falls with every step
  induction hp : r.search.potential using Nat.strong_induction_on generalizing n r with
  | _ p ih =>
    subst hp
    cases ht : Search.step r with
    | error cause t =>
      rw [descend_of_error ht]
      exact ⟨n, r, Nat.le_add_right _ _, h, .broken ht⟩
    | ok more t =>
      cases more with
      | false =>
        have exhausted : r.search.phase = .exhausted := by
          refine (phase_of_done ht).resolve_left fun asked => ?_
          rw [never n r h asked.1] at asked
          cases asked.2
        have same : Search.step r = .ok false r := step_of_exhausted exhausted
        rw [descend_of_done same]
        exact ⟨n, r, Nat.le_add_right _ _, h, .exhausted exhausted⟩
      | true =>
        obtain ⟨visits', less⟩ := lowers visits ht
        obtain ⟨n', u, le, takes, final⟩ := ih _ less (h.step ht) visits' rfl
        refine ⟨n', u, ?_, takes, ?_⟩
        · calc n' ≤ n + 1 + t.search.potential := le
            _ = n + (t.search.potential + 1) := by rw [Nat.add_assoc, Nat.add_comm 1]
            _ ≤ n + r.search.potential := Nat.add_le_add_left less n
        · rwa [descend_of_more lowers visits ht]

omit [Stopping κ] [LawfulPropagator π] in
/-- A run that is never to stop does not stop. -/
theorem neverStops_indefinite (s : Search π) :
    ({ search := s, condition := Condition.indefinite } : Run π).NeverStops := by
  intro n r takes _
  have same : r.condition = .indefinite := by
    clear * - takes
    induction takes with
    | start => rfl
    | @step n r t _ ht ih =>
      obtain ⟨k, decides, -⟩ := ((ends_step_advances r).of_ok ht).decides
      rw [decides.condition_eq, ih]
      exact Function.iterate_fixed rfl k
  rw [same]
  rfl

/-- **A search comes to its end.**  Wherever a search comes by, whatever its runs were and whatever bounds it
was told of, a run that is never told to stop takes finitely many steps, no more than the potential of the
search, to where it is exhausted or breaks down; and nowhere has a value been tried twice at a choice point
that is open, or is one that was tried still to be tried. -/
theorem run_ends (made : R.engine.Made) (h : Visits (R.search seed) running s rs) :
    (∀ condition : κ, ({ search := s, condition } : Run π κ).NeverStops →
      ∃ n t, n ≤ s.potential ∧ Takes { search := s, condition } n t ∧ t.Final (s.run condition)) ∧
    List.Forall₂ (fun r c => r.tried.Nodup ∧ (∀ x ∈ r.tried, x ∈ r.order) ∧ ∀ x ∈ r.tried, x ∉ c.untried)
      rs s.choicePoints := by
  constructor
  · intro condition never
    have running : ∃ rs, Visits (R.search seed) true s rs := by
      cases running with
      | true => exact ⟨rs, h⟩
      | false => exact ⟨rs, h.resume⟩
    obtain ⟨n, t, le, takes, final⟩ := Takes.start.exists_final made.valid never running
    rw [Nat.zero_add] at le
    exact ⟨n, t, le, takes, final⟩
  · exact (h.visited made.valid).fits.imp fun _ _ fit => fit.tried_once

end Search

/-- A search for two equal variables that was stopped after its first decision comes to its end. -/
theorem run_ends_copyModel : ∃ e s rs, copyModel.load = .ok e ∧
    Search.Visits ((copyModel.root e).search 42) false s rs ∧ s.choicePoints.length = 1 ∧
      ∃ n t, n ≤ s.potential ∧ Search.Takes { search := s, condition := Condition.indefinite } n t ∧
        t.Final (s.run Condition.indefinite) := by
  obtain ⟨e, s, rs, load, faithful, visits, opened⟩ := exists_visits_copyModel
  exact ⟨e, s, rs, load, visits, opened,
    (Search.run_ends faithful.made visits).1 _ (Search.neverStops_indefinite s)⟩

end BranchBound
