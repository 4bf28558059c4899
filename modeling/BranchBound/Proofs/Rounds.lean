import BranchBound.Portfolio
import BranchBound.Proofs.Incumbent
import BranchBound.Proofs.Resumption
import BranchBound.Proofs.Worker

/-! # Rounds of a single worker

A worker that is alone is given nothing but its own best between two rounds, which it knows.  So its
rounds are runs that are resumed, and each that is stopped has done a part of what was left to do
(`stopped_lt`).  **However many decisions there are in a round, the worker finds what an uninterrupted
run finds** (`rounds_alone`), and the portfolio reports and answers the same (`resumption_transparent`). -/
namespace BranchBound

section
variable {ε σ τ : Type} {F : σ → τ} {p : σ → Nat} {p' : τ → Nat} {step : EStateM ε σ Bool}
  {step' : EStateM ε τ Bool}

/-- Repetitions of steps that do the same do the same. -/
theorem Mirrors.descend (h : Mirrors F step step') (hp : ∀ s, p' (F s) = p s) :
    Mirrors F (BranchBound.descend p step) (BranchBound.descend p' step') := by
  suffices ∀ n s, repeatAtMost step' n (F s) = mapState F (repeatAtMost step n s) by
    intro s
    unfold BranchBound.descend
    rw [hp]
    exact this _ s
  intro n
  induction n with
  | zero => exact fun _ => rfl
  | succ n ih =>
    intro s
    unfold repeatAtMost
    rw [h s]
    cases step s with
    | error e t => rfl
    | ok more t =>
      cases more with
      | true => exact ih t
      | false => rfl

end

namespace Search
variable {π : Type} [Propagator π]

/-- What a run comes to does not depend on what was found before it. -/
theorem finish_found (s : Search π) (found : List Solution) :
    Run.finish { search := s, condition := .indefinite, solutions := found } =
      mapState (Run.seen id found) (Run.finish { search := s, condition := .indefinite }) := by
  have steps : Mirrors (Run.seen id found) (step (π := π) (κ := Condition)) step :=
    fun r => step_seen (g := id) (fun _ => rfl) r fun _ => rfl
  have runs : Mirrors (Run.seen id found) (Run.finish (π := π)) Run.finish :=
    steps.descend fun _ => rfl
  exact runs { search := s, condition := Condition.indefinite }

/-! ## A run that is stopped has done something -/

/-- Bounding the objective and propagating leaves the condition alone. -/
theorem condition_of_propagating {κ : Type} [Stopping κ] {r t : Run π κ} {more : Bool}
    (h : step r = .ok more t) (phase : r.search.phase = .propagating) : t.condition = r.condition := by
  -- nothing is seen of a condition that is replaced by itself
  have here : (r.seen (fun _ => r.condition) [] : Run π κ) = r := by
    unfold Run.seen
    rw [List.append_nil]
  have same : propagate r = mapState (Run.seen (fun _ => r.condition) []) (propagate r) := by
    conv_lhs => rw [← here]
    exact mirrors_propagate r
  rw [step_of_propagating phase] at h
  obtain ⟨ok, u, hu, h⟩ := bind_eq_ok h
  rw [hu] at same
  obtain ⟨-, same⟩ := EStateM.Result.ok.inj same
  cases h
  have := congrArg Run.condition same
  exact this

omit [Propagator π] in
/-- Stopping takes back one step. -/
theorem potential_of_stopped {s : Search π} (h : s.phase = .quiescent) :
    Search.potential { s with phase := .propagating } ≤ s.potential + 1 := by
  have node : 4 ≤ nodePotential s.breadth (s.decisions.length - s.choicePoints.length) :=
    four_le_nodePotential _ _
  unfold potential
  dsimp only
  rw [h, show breadth { s with phase := .propagating } = s.breadth from rfl]
  dsimp only
  omega

/-- **A run that does not stop at once has done something when it stops.** -/
theorem stopped_lt [LawfulPropagator π] {κ : Type} [Stopping κ] {R : Root π} (hR : R.engine.Valid)
    {s : Search π} (h : Resumable R s) (phase : s.phase = .propagating) {condition : κ}
    (goes : (Stopping.ask condition).1 = false) :
    Ends (s.run condition)
      (fun _ t => t.search.phase = .propagating → t.search.potential < s.potential)
      (fun _ _ => True) := by
  -- the condition is asked only after a step, and to stop after a further one takes back one step
  refine ends_descend_done (I := fun r => Resumable R r.search ∧
    (r.search = s ∧ r.condition = condition ∨
      (r.condition = condition ∧ r.search.potential < s.potential) ∨
      r.search.potential + 1 < s.potential)) ?_ ⟨h, .inl ⟨rfl, rfl⟩⟩
  rintro r ⟨resumable, done⟩
  have ended := ends_step_resumable hR resumable
  refine ends_of (fun more t ht => ?_) fun _ _ _ => trivial
  obtain ⟨resumable', less⟩ := ended.of_ok ht
  cases more with
  | true =>
    replace less : t.search.potential < r.search.potential := less
    refine ⟨⟨resumable', ?_⟩, less⟩
    rcases done with ⟨start, same⟩ | ⟨-, lt⟩ | lt
    · refine .inr (.inl ⟨?_, start ▸ less⟩)
      exact (condition_of_propagating ht (start ▸ phase)).trans same
    · exact .inr (.inr (by omega))
    · exact .inr (.inr (by omega))
  | false =>
    change t.search.phase = .propagating → _
    intro resting
    rcases phase_of_done ht with ⟨quiescent, stop⟩ | exhausted
    · rw [step_of_asked quiescent stop] at ht
      cases ht
      have le := potential_of_stopped quiescent
      rcases done with ⟨start, -⟩ | ⟨same, -⟩ | lt
      · rw [start, phase] at quiescent
        cases quiescent
      · rw [same, goes] at stop
        cases stop
      · exact Nat.lt_of_le_of_lt le lt
    · rw [step_of_exhausted exhausted] at ht
      cases ht
      rw [exhausted] at resting
      cases resting

end Search

variable {π : Type} [Propagator π] {R : Search.Root π}

/-! ## What an uninterrupted worker comes to -/

namespace Worker
variable {worker : Nat} {s : Search π} {i : Incumbent Solution}

/-- What a worker reports if nothing stops it any more, and what becomes of it. -/
def finish (worker : Nat) (s : Search π) : List (Reported Solution) × Worker π :=
  after worker (Search.Run.finish { search := s, condition := .indefinite })

/-- What was found before is reported first. -/
theorem after_finish (found : List Solution) :
    after worker (Search.Run.finish { search := s, condition := .indefinite, solutions := found }) =
      (reported worker found ++ (finish worker s).1, (finish worker s).2) := by
  unfold finish
  rw [Search.finish_found]
  cases Search.Run.finish { search := s, condition := Condition.indefinite } with
  | ok _ r => exact Prod.ext (reported_append r.solutions found) rfl
  | error cause r =>
    cases cause with
    | breakdown cause => exact Prod.ext (reported_append r.solutions found) rfl
    | fault cause => exact Prod.ext (reported_append r.solutions found) rfl

omit [Propagator π] in
/-- A worker that knows the incumbent is told nothing. -/
theorem elim_bound (own : s.best = i.best.map Reported.objective) :
    i.bound.elim s s.tighten = s := by
  cases hb : i.bound with
  | none => rfl
  | some b =>
    rw [Incumbent.bound_eq] at hb
    obtain ⟨hmap, -⟩ := Option.filter_eq_some_iff.mp hb
    have known : s.best = some b := own.trans hmap
    refine if_neg ?_
    rw [known]
    exact fun lt => Int.lt_irrefl b (of_decide_eq_true lt)

/-- The solutions of a worker that is alone are accepted one after another. -/
theorem best_merge_reported {first best : Option Int} {solutions : List Solution}
    (h : Search.Found R first solutions best) (own : first = i.best.map Reported.objective) :
    best = (i.merge (reported worker solutions)).2.best.map Reported.objective := by
  induction solutions generalizing best with
  | nil =>
    obtain rfl : best = first := h
    exact own
  | cons solution earlier ih =>
    obtain ⟨-, before, found, improves⟩ := h
    have merged := ih found
    rw [show solution :: earlier = [solution] ++ earlier from rfl, reported_append,
      Incumbent.merge_append]
    change _ = Option.map _ ((i.merge (reported worker earlier)).2.consider
      ⟨solution.objective, solution, worker⟩).best
    unfold Incumbent.consider
    rcases improves with ⟨rfl, better⟩ | ⟨rfl, least, le⟩
    · have accepted : (i.merge (reported worker earlier)).2.accepts
          ⟨solution.objective, solution, worker⟩ = true := by
        refine Incumbent.accepts_iff.mpr fun best hbest => better _ ?_
        rw [merged, hbest]
        rfl
      rw [if_pos accepted]
      rfl
    · -- nothing is better than the least integer
      obtain ⟨best, hbest, objective⟩ := Option.map_eq_some_iff.mp (merged.symm.trans least)
      have refused : ¬ (i.merge (reported worker earlier)).2.accepts
          ⟨solution.objective, solution, worker⟩ = true := fun accepted => by
        have lt := Incumbent.accepts_iff.mp accepted best hbest
        rw [objective] at lt
        exact absurd le (Int.not_le.mpr lt)
      rw [if_neg refused]
      exact merged

/-- A search that was stopped after some solutions has less left to do, and the rest comes to what all
of it comes to. -/
structure Stopped (R : Search.Root π) (worker : Nat) (s : Search π) (t : Search.Run π) : Prop where
  phase : t.search.phase = .propagating
  resumable : Search.Resumable R t.search
  less : t.search.potential < s.potential
  found : Search.Found R s.best t.solutions t.search.best
  finish_eq : finish worker s =
    (reported worker t.solutions ++ (finish worker t.search).1, (finish worker t.search).2)

omit [Propagator π] in
/-- With nothing found before it, a run is what it was. -/
theorem after_freed {r : EStateM.Result SearchError (Search.Run π) Unit} :
    after worker (mapState (Search.Run.freed []) r) = after worker r := by
  have same (t : Search.Run π) : (t.freed []).solutions = t.solutions := List.append_nil _
  cases r with
  | ok _ t => exact Prod.ext (congrArg (reported worker) (same t)) rfl
  | error cause t =>
    cases cause with
    | breakdown cause => exact Prod.ext (congrArg (reported worker) (same t)) rfl
    | fault cause => exact Prod.ext (congrArg (reported worker) (same t)) rfl

/-- **A run of a worker comes to what an uninterrupted run comes to**, or it is stopped on the way. -/
theorem ends_run_finish [LawfulPropagator π] (hR : R.engine.Valid) (worker : Nat) (h : Search.Resumable R s)
    (phase : s.phase = .propagating) {condition : Condition} (goes : condition.shouldStop = false) :
    Ends (s.run condition)
      (fun _ t => Stopped R worker s t ∨
        t.search.phase = .exhausted ∧ finish worker s = after worker (.ok () t))
      (fun cause t => finish worker s = after worker (.error cause t)) := by
  have freed := Search.ends_run_freed hR h condition []
  have lower := Search.stopped_lt hR h phase (show (Stopping.ask condition).1 = false from goes)
  have inv := Search.ends_run hR h.inv condition
  cases hr : s.run condition with
  | ok _ t =>
    obtain ⟨resumable, rests, reaches⟩ := freed.of_ok hr
    have finished : finish worker s = after worker (t.freed []).finish := congrArg (after worker) reaches
    rcases rests with stopped | exhausted
    · refine .inl ⟨stopped, resumable, (lower.of_ok hr) stopped, (inv.of_ok hr).1.found, ?_⟩
      rw [finished, ← after_finish]
      unfold Search.Run.freed Search.Run.seen
      rw [List.append_nil]
    · refine .inr ⟨exhausted, ?_⟩
      rw [finished, Search.Run.finish_of_exhausted (r := t.freed []) exhausted]
      exact after_freed (π := π) (r := .ok () t)
  | error cause t =>
    have finished : finish worker s = after worker (mapState (Search.Run.freed []) (.error cause t)) :=
      congrArg (after worker) (freed.of_error hr)
    exact finished.trans after_freed

end Worker

/-! ## Rounds without limits -/

/-- There is one worker, and nothing limits it but that it reports now and then. -/
structure Options.Alone (o : Options) : Prop where
  numWorkers : o.numWorkers = 1
  timeLimit : o.timeLimit = none
  decisionLimit : o.decisionLimit = none
  syncInterval : o.syncInterval ≠ 0

/-- What is done about improvements, when nothing is done about anything else. -/
def Progress.onImprovement {m : Type → Type} [Monad m] (report : Reported Solution → m Unit) :
    Progress → m Unit
  | .improved best => report best
  | _ => pure ()

namespace Portfolio
variable {o : Options} {worker : Nat} {s : Search π} {i : Incumbent Solution}

/-- What a worker that is alone has come to. -/
def verdictOf : Status → Option Verdict
  | .failed cause => some (.failed cause)
  | .exhausted => some .exhausted
  | .searching | .outOfDecisions => none

/-- A round of a worker that is alone is a run. -/
theorem round_alone (ho : o.Alone) (own : s.best = i.best.map Reported.objective) (numRounds : Nat) :
    let result := s.run (Worker.roundCondition (limits o {}) o.syncInterval worker)
    let (found, w) := Worker.after worker result
    let verdict := verdict? (limits o {}) [w.status]
    round (limits o {}) ⟨[⟨worker, some s, .searching⟩], i, numRounds⟩ =
      (⟨[w], (i.merge found).2, numRounds + 1⟩,
        (exhaustedNote ⟨worker, some s, .searching⟩ w).toList ++ (i.merge found).1.map .improved ++
          verdict.toList.map (.stopped (numRounds + 1)), verdict) := by
  have budget : Worker.roundBudget (limits o {}) s.counts.numDecisions = o.syncInterval := by
    unfold Worker.roundBudget limits
    rw [ho.decisionLimit]
  have here : Worker.round (limits o {}) i.bound ⟨worker, some s, .searching⟩ =
      Worker.after worker (s.run (Worker.roundCondition (limits o {}) o.syncInterval worker)) := by
    unfold Worker.round
    dsimp only
    rw [Worker.elim_bound own, budget, if_neg ho.syncInterval]
    rfl
  unfold round
  simp only [List.map_cons, List.map_nil, List.flatMap_cons, List.flatMap_nil, List.append_nil, here,
    List.zip_cons_cons, List.zip_nil_left, List.filterMap_cons, List.filterMap_nil]
  cases exhaustedNote ⟨worker, some s, Status.searching⟩ (Worker.after worker
    (s.run (Worker.roundCondition (limits o {}) o.syncInterval worker))).2 with
  | none => rfl
  | some note => rfl

omit [Propagator π] in
theorem verdict?_alone (ho : o.Alone) {status : Status} (decides : status ≠ .outOfDecisions) :
    verdict? (limits o {}) [status] = verdictOf status := by
  have timeUp : (limits o {}).timeUp = none := by
    unfold limits
    rw [ho.timeLimit]
    rfl
  have stop : (limits o {}).stop = false := rfl
  unfold verdict?
  rw [timeUp, stop]
  cases status with
  | outOfDecisions => exact absurd rfl decides
  | searching => rfl
  | exhausted => rfl
  | failed cause => rfl

/-- There is a decision in every round. -/
theorem shouldStop_alone (ho : o.Alone) (worker : Nat) :
    (Worker.roundCondition (limits o {}) o.syncInterval worker).shouldStop = false := by
  have some : ¬ o.syncInterval ≤ 0 := fun le => ho.syncInterval (Nat.le_zero.mp le)
  unfold limits
  rw [ho.timeLimit]
  change (decide (o.syncInterval ≤ 0) || false || false) = false
  rw [decide_eq_false some]
  rfl

variable {m : Type → Type} [Monad m] [LawfulMonad m] {report : Reported Solution → m Unit}

omit [Propagator π] in
/-- Of the notes of a round the improvements count. -/
theorem forM_notes {before after : Worker π} {improvements : List (Reported Solution)}
    {verdict : Option Verdict} {numRounds : Nat} :
    ((exhaustedNote before after).toList ++ improvements.map Progress.improved ++
      verdict.toList.map (Progress.stopped numRounds)).forM (Progress.onImprovement report) =
        improvements.forM report := by
  have exhausted : forM (exhaustedNote before after).toList (Progress.onImprovement report) = pure () := by
    unfold exhaustedNote
    split
    · simp [Progress.onImprovement]
    · simp
  have stopped : forM (verdict.toList.map (Progress.stopped numRounds)) (Progress.onImprovement report) =
      pure () := by
    cases verdict with
    | none => simp
    | some verdict => simp [Progress.onImprovement]
  rw [List.forM_eq_forM, List.forM_append, List.forM_append, exhausted, stopped, List.forM_map, pure_bind]
  exact bind_pure_unit ..

/-- The answer of a portfolio whose worker has come to its end. -/
def answer (i : Incumbent Solution) (w : Worker π) : Except SolverError Outcome :=
  conclude ⟨[w], i, 0⟩ ((verdictOf w.status).getD .exhausted)

/-- **The rounds of a worker that is alone come to what an uninterrupted run comes to.** -/
theorem rounds_alone [LawfulPropagator π] (hR : R.engine.Valid) (ho : o.Alone) (h : Search.Resumable R s)
    (phase : s.phase = .propagating) (own : s.best = i.best.map Reported.objective) {n : Nat}
    (hn : s.potential < n) (numRounds : Nat) :
    (do
      let r ← rounds o (pure {}) (Progress.onImprovement report) n
        ⟨[⟨worker, some s, .searching⟩], i, numRounds⟩
      return r.1.conclude r.2 : m (Except SolverError Outcome)) = (do
      (i.merge (Worker.finish worker s).1).1.forM report
      return answer (i.merge (Worker.finish worker s).1).2 (Worker.finish worker s).2) := by
  -- on the number of rounds allowed, which is enough as a run that is stopped lowers the potential
  induction n generalizing s i numRounds with
  | zero => exact absurd hn (Nat.not_lt_zero _)
  | succ n ih =>
    have ended := Worker.ends_run_finish hR worker h phase (shouldStop_alone ho worker)
    unfold rounds
    simp only [pure_bind, round_alone ho own, bind_assoc, forM_notes]
    generalize s.run (Worker.roundCondition (limits o {}) o.syncInterval worker) = result at ended
    -- the round was the last one, or it was stopped on the way to the same end
    have came : (Worker.finish worker s = Worker.after worker result ∧
        ∃ verdict, verdictOf (Worker.after worker result).2.status = some verdict) ∨
        ∃ t, result = .ok () t ∧ Worker.Stopped R worker s t := by
      cases result with
      | ok _ t =>
        rcases ended with stopped | ⟨exhausted, finished⟩
        · exact .inr ⟨t, rfl, stopped⟩
        · have status : (Worker.after worker (.ok () t)).2.status = .exhausted := if_pos exhausted
          exact .inl ⟨finished, _, congrArg verdictOf status⟩
      | error cause t =>
        obtain ⟨failure, status⟩ : ∃ failure,
            (Worker.after worker (.error cause t)).2.status = .failed failure :=
          Worker.exists_statusOf_error worker cause t
        exact .inl ⟨ended, _, congrArg verdictOf status⟩
    rcases came with ⟨finished, verdict, decided⟩ | ⟨t, rfl, stopped⟩
    · have decides : (Worker.after worker result).2.status ≠ .outOfDecisions := fun h => by
        rw [h] at decided
        cases decided
      rw [finished, verdict?_alone ho decides, decided]
      dsimp only
      rw [pure_bind]
      unfold answer
      rw [decided]
      rfl
    · have here : Worker.after worker (.ok () t) =
          (Worker.reported worker t.solutions, ⟨worker, some t.search, .searching⟩) := by
        refine Prod.ext rfl ?_
        change Worker.mk worker (some t.search) (if t.search.phase = .exhausted then _ else _) = _
        rw [stopped.phase]
        rfl
      rw [here, verdict?_alone ho (fun h => by cases h), stopped.finish_eq, Incumbent.merge_append]
      have own' : t.search.best =
          (i.merge (Worker.reported worker t.solutions)).2.best.map Reported.objective :=
        Worker.best_merge_reported stopped.found own
      have rest := ih stopped.resumable stopped.phase own'
        (Nat.lt_of_lt_of_le stopped.less (Nat.le_of_lt_succ hn)) (numRounds + 1)
      dsimp only [verdictOf]
      rw [rest]
      simp only [List.forM_eq_forM, List.forM_append, bind_assoc]

/-- What a portfolio comes to whose worker is alone and is not interrupted. -/
def solveAlone (model : Model π) (seed : Nat) (report : Reported Solution → m Unit) :
    m (Except SolverError Outcome) :=
  match (Worker.start model 0 seed).search with
  | none => return .error (.breakdown (.faultOnLoading 0))
  | some s => do
    (({} : Incumbent Solution).merge (Worker.finish 0 s).1).1.forM report
    return answer (({} : Incumbent Solution).merge (Worker.finish 0 s).1).2 (Worker.finish 0 s).2

omit [Propagator π] in
/-- Nothing is done about how the workers start. -/
theorem forM_startNotes (p : Portfolio π) :
    (startNotes o p).forM (Progress.onImprovement report) = pure () := by
  unfold startNotes
  rw [List.forM_eq_forM]
  induction p.workers with
  | nil => exact List.forM_nil
  | cons w workers ih =>
    cases hs : w.search with
    | none => rwa [List.filterMap_cons_none (by rw [hs]; rfl)]
    | some s =>
      rw [List.filterMap_cons_some (by rw [hs]; rfl), List.forM_cons, ih]
      exact pure_bind _ _

theorem solve_alone [LawfulPropagator π] (ho : o.Alone) (model : Model π) :
    solve o model (pure {}) (Progress.onImprovement report) =
      solveAlone model (seedOf o 0) report := by
  unfold solve
  rw [if_neg (by rw [ho.numWorkers]; decide), if_neg ho.syncInterval]
  dsimp only
  rw [forM_startNotes, pure_bind]
  unfold start
  rw [ho.numWorkers]
  change rounds o (pure {}) _ (Portfolio.potential ⟨[Worker.start model 0 (seedOf o 0)], {}, 0⟩ + 1)
    ⟨[Worker.start model 0 (seedOf o 0)], {}, 0⟩ >>= (fun r => pure (r.1.conclude r.2)) = _
  unfold solveAlone Worker.start
  cases load : model.load with
  | error cause =>
    have round : round (limits o {}) ⟨[(⟨0, none, .failed (.faultOnLoading 0)⟩ : Worker π)], {}, 0⟩ =
      (⟨[⟨0, none, .failed (.faultOnLoading 0)⟩], {}, 1⟩, [.stopped 1 (.failed (.faultOnLoading 0))],
        some (.failed (.faultOnLoading 0))) := rfl
    change rounds o (pure {}) _ 1 _ >>= _ = _
    unfold rounds
    rw [pure_bind, round]
    dsimp only
    rw [List.forM_eq_forM, List.forM_cons, List.forM_nil]
    change ((pure () >>= fun _ => pure PUnit.unit) >>= fun _ => pure _) >>= _ = _
    rw [pure_bind, pure_bind, pure_bind]
    rfl
  | ok e =>
    exact rounds_alone (R := model.root e) (Engine.loaded_of_load load).made.valid ho
      (Search.resumable_search (R := model.root e) _) rfl rfl (Nat.lt_succ_of_le (Nat.le_succ _)) 0

end Portfolio

/-- **Stopping and resuming makes no difference.**  When the runs of a session come to their end,
whatever stopped them on the way, they found what one uninterrupted run from the start finds, and the
search is where that run leaves it, with its statistics.  So a portfolio of one worker without limits
reports the same improvements and gives the same answer, however many decisions there are in a round. -/
theorem resumption_transparent [LawfulPropagator π] :
    (∀ R : Search.Root π, R.engine.Made → ∀ seed s log, Search.Session (R.search seed) s log →
      (∀ b, .bound b ∉ log) → s.phase = .exhausted →
        ∃ r, (R.search seed).run Condition.indefinite = .ok () r ∧ log = r.solutions.map .solution ∧
          s = r.search ∧ s.best = r.search.best ∧ s.statistics = r.search.statistics) ∧
    ∀ (model : Model π) (o : Options), o.numWorkers = 1 → o.timeLimit = none → o.decisionLimit = none →
      ∀ k k', k ≠ 0 → k' ≠ 0 → ∀ (m : Type → Type) [Monad m] [LawfulMonad m]
        (report : Reported Solution → m Unit),
        Portfolio.solve { o with syncInterval := k } model (pure {}) (Progress.onImprovement report) =
          Portfolio.solve { o with syncInterval := k' } model (pure {}) (Progress.onImprovement report) := by
  refine ⟨fun R made seed s log session free exhausted => ?_, fun model o one time decisions k k' hk hk' m _ _
    report => ?_⟩
  · obtain ⟨found, rfl, -, reaches⟩ := session.finish_eq made.valid free
    rw [Search.Run.finish_of_exhausted
      (r := { search := s, condition := .indefinite, solutions := found }) exhausted] at reaches
    exact ⟨_, reaches, rfl, rfl, rfl, rfl⟩
  · exact (Portfolio.solve_alone (o := { o with syncInterval := k }) ⟨one, time, decisions, hk⟩ model).trans
      (Portfolio.solve_alone (o := { o with syncInterval := k' }) ⟨one, time, decisions, hk'⟩ model).symm

/-! ## A sample -/

/-- Runs of a search under one condition after another, with what they find, latest first. -/
def Search.resume (s : Search π) (found : List Solution) :
    List Condition → Except SearchError (Search π × List Solution)
  | [] => .ok (s, found)
  | condition :: conditions =>
    match s.run condition with
    | .ok _ r => r.search.resume (r.solutions ++ found) conditions
    | .error cause _ => .error cause

theorem Search.Session.resume {start s t : Search π} {found all : List Solution}
    {conditions : List Condition} (h : Session start s (found.map .solution))
    (hr : s.resume found conditions = .ok (t, all)) : Session start t (all.map .solution) := by
  induction conditions generalizing s found with
  | nil =>
    cases hr
    exact h
  | cons condition conditions ih =>
    unfold Search.resume at hr
    split at hr
    · rename_i r hrun
      have next := h.run hrun
      rw [← List.map_append] at next
      exact ih next hr
    · cases hr

/-- Collects what is reported. -/
def Reported.collect (best : Reported Solution) : StateM (List (Reported Solution)) Unit :=
  modify (· ++ [best])

/-- A search that is stopped before the first decision, after it, and by a flag, and then comes to its end;
and portfolios that exchange their solutions after every decision and never. -/
theorem resumption_transparent_copyModel :
    (∃ e s log r, copyModel.load = .ok e ∧
      Search.Session ((copyModel.root e).search 42) s log ∧ log ≠ [] ∧
      ((copyModel.root e).search 42).run Condition.indefinite = .ok () r ∧
      log = r.solutions.map .solution ∧ s = r.search ∧ s.statistics = r.search.statistics) ∧
    Portfolio.solve { syncInterval := 1 } copyModel (pure {}) (Progress.onImprovement Reported.collect) =
      Portfolio.solve { syncInterval := 1000 } copyModel (pure {})
        (Progress.onImprovement Reported.collect) := by
  constructor
  · obtain ⟨e, load, faithful⟩ := exists_load_copyModel
    have outcome : (match copyModel.load with
        | .ok e =>
          match ((copyModel.root e).search 42).resume []
            [.budget 0, .budget 1, .flag true, .indefinite] with
          | .ok (s, found) => decide (s.phase = .exhausted ∧ found ≠ [])
          | .error _ => false
        | .error _ => false) = true := by decide +kernel
    rw [load] at outcome
    dsimp only at outcome
    split at outcome
    · rename_i s found resumed
      obtain ⟨exhausted, solutions⟩ := of_decide_eq_true outcome
      have session : Search.Session ((copyModel.root e).search 42) s (found.map .solution) :=
        Search.Session.resume .start resumed
      have free (b : Int) : Search.Entry.bound b ∉ found.map Search.Entry.solution := fun hb => by
        obtain ⟨_, -, heq⟩ := List.mem_map.mp hb
        cases heq
      obtain ⟨r, hr, log, search, -, statistics⟩ :=
        resumption_transparent.1 (copyModel.root e) faithful.made 42 s _ session free exhausted
      exact ⟨e, s, _, r, load, session, by simpa using solutions, hr, log, search, statistics⟩
    · cases outcome
  · exact resumption_transparent.2 copyModel {} rfl rfl rfl 1 1000 (by decide) (by decide) _ _

end BranchBound
