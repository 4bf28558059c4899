import BranchBound.Portfolio.Worker
import BranchBound.Proofs.Exactness

/-! # Workers in a round

A round of a worker is one of three things (`Worker.Rounded`): it is idle, it has spent its decisions, or
it runs its search, below the bound that it is told of.  It reports all solutions that the search hands
over (`Worker.round_fst`).  A worker that has not failed is in a session with its search
(`Worker.InSession`), so **what it reports in a round is better than the bound of the round**
(`Rounded.lt`). -/
namespace BranchBound
variable {π : Type}

/-- The search, told of a bound if there is one. -/
def Search.told (s : Search π) (bound : Option Int) : Search π := bound.elim s s.tighten

/-- A solution is a leaf of the search, reported with its objective. -/
def Reported.Sound [Propagator π] (R : Search.Root π) (r : Reported Solution) : Prop :=
  Search.Leaf R r.solution ∧ r.objective = r.solution.objective

namespace Worker
variable {worker : Nat} {w : Worker π} {limits : Limits} {bound : Option Int}

/-- Solutions as a worker reports them, in the order in which they were found. -/
def reported (worker : Nat) (solutions : List Solution) : List (Reported Solution) :=
  solutions.reverse.map fun s => ⟨s.objective, s, worker⟩

theorem mem_reported {solutions : List Solution} {r : Reported Solution} :
    r ∈ reported worker solutions ↔ ∃ s ∈ solutions, ⟨s.objective, s, worker⟩ = r := by
  unfold reported
  rw [List.mem_map]
  simp only [List.mem_reverse]

theorem reported_append (later earlier : List Solution) :
    reported worker (later ++ earlier) = reported worker earlier ++ reported worker later := by
  unfold reported
  rw [List.reverse_append, List.map_append]

/-- What a worker reports of a run, and what becomes of it. -/
def after (worker : Nat) (result : EStateM.Result SearchError (Search.Run π) Unit) :
    List (Reported Solution) × Worker π :=
  (reported worker (runOf result).solutions,
    ⟨worker, some (runOf result).search, statusOf worker result⟩)

theorem statusOf_ok (worker : Nat) (r : Search.Run π) : statusOf worker (.ok () r) = .searching ∨
    statusOf worker (.ok () r) = .exhausted ∧ r.search.phase = .exhausted := by
  unfold statusOf
  dsimp only
  split
  · exact .inr ⟨rfl, by assumption⟩
  · exact .inl rfl

theorem exists_statusOf_error (worker : Nat) (cause : SearchError) (r : Search.Run π) :
    ∃ failure, statusOf worker (.error cause r) = .failed failure := by
  cases cause with
  | breakdown failure => exact ⟨failure, rfl⟩
  | fault cause => exact ⟨_, rfl⟩

variable [Propagator π]

/-- What a round of a worker comes to. -/
inductive Rounded (limits : Limits) (bound : Option Int) (w : Worker π) :
    List (Reported Solution) × Worker π → Prop
  /-- It does not search any more. -/
  | idle (h : w.status ≠ .searching ∨ w.search = none) : Rounded limits bound w ([], w)
  /-- It may not make another decision. -/
  | spent {s : Search π} (status : w.status = .searching) (search : w.search = some s)
    (h : roundBudget limits (s.told bound).counts.numDecisions = 0) :
    Rounded limits bound w ([], ⟨w.id, some (s.told bound), .outOfDecisions⟩)
  | ran {s : Search π} (status : w.status = .searching) (search : w.search = some s)
    (h : roundBudget limits (s.told bound).counts.numDecisions ≠ 0) :
    Rounded limits bound w (after w.id ((s.told bound).run
      (roundCondition limits (roundBudget limits (s.told bound).counts.numDecisions) w.id)))

theorem rounded (limits : Limits) (bound : Option Int) (w : Worker π) :
    Rounded limits bound w (w.round limits bound) := by
  unfold round
  split
  · rename_i s status search
    dsimp only
    split
    · exact .spent status search (by assumption)
    · exact .ran status search (by assumption)
  · rename_i other
    refine .idle ?_
    by_cases status : w.status = .searching
    · cases search : w.search with
      | none => exact .inr rfl
      | some s => exact absurd search (other s status)
    · exact .inl status

namespace Rounded
variable {r : List (Reported Solution) × Worker π}

theorem id_eq (h : Rounded limits bound w r) : r.2.id = w.id := by
  cases h with
  | idle => rfl
  | spent => rfl
  | ran => rfl

theorem worker_eq (h : Rounded limits bound w r) : ∀ found ∈ r.1, found.worker = w.id := by
  cases h with
  | idle => exact fun _ hfound => by cases hfound
  | spent => exact fun _ hfound => by cases hfound
  | ran =>
    intro found hfound
    obtain ⟨solution, -, rfl⟩ := mem_reported.mp hfound
    rfl

end Rounded

/-! ## What is handed over -/

/-- The solutions that the search of a worker hands over in a round, in the order in which it finds them: if
the worker still searches and may make decisions, its search is told of the bound and runs. -/
def handed (limits : Limits) (bound : Option Int) (w : Worker π) : List Solution :=
  match w.status, w.search with
  | .searching, some s =>
    let s := s.told bound
    let budget := roundBudget limits s.counts.numDecisions
    if budget = 0 then [] else (runOf (s.run (roundCondition limits budget w.id))).solutions.reverse
  | _, _ => []

/-- **A worker reports all solutions that its search hands over**, in their order and under its own number. -/
theorem round_fst (limits : Limits) (bound : Option Int) (w : Worker π) : (w.round limits bound).1 =
    (w.handed limits bound).map fun solution => ⟨solution.objective, solution, w.id⟩ := by
  obtain ⟨id, search, status⟩ := w
  cases status <;> cases search <;> try rfl
  -- only a worker that searches can report anything
  unfold round handed Search.told
  dsimp only
  split <;> rfl

/-! ## Sessions -/

/-- A worker is in a session with the search of a model, unless it failed, and was given no bounds but those
that are allowed. -/
def InSession (m : Model π) (Allowed : Int → Prop) (w : Worker π) : Prop :=
  (∀ cause, w.status ≠ .failed cause) → ∃ e s seed log, m.load = .ok e ∧ w.search = some s ∧
    Search.Session ((m.root e).search seed) s log ∧ ∀ b, .bound b ∈ log → Allowed b

variable {m : Model π} {Allowed : Int → Prop}

theorem inSession_start (m : Model π) (id seed : Nat) : (start m id seed).InSession m Allowed := by
  unfold start
  cases load : m.load with
  | error cause => exact fun unfailed => absurd rfl (unfailed _)
  | ok e => exact fun _ => ⟨e, _, seed, [], load, rfl, .start, fun _ h => by cases h⟩

theorem exists_session_told {start s : Search π} {log : List Search.Entry}
    (h : Search.Session start s log) (bound : Option Int) (given : ∀ b, .bound b ∈ log → Allowed b)
    (allowed : ∀ b, bound = some b → Allowed b) :
    ∃ log', Search.Session start (s.told bound) log' ∧ (∀ b, .bound b ∈ log' → Allowed b) ∧
      ∀ b, bound = some b → .bound b ∈ log' := by
  cases bound with
  | none => exact ⟨log, h, given, fun b hb => by cases hb⟩
  | some b =>
    refine ⟨_, h.tighten b, fun b' hb => ?_, fun b' hb => ?_⟩
    · rcases List.mem_cons.mp hb with heq | hb
      · cases heq
        exact allowed b rfl
      · exact given b' hb
    · cases hb
      exact List.mem_cons_self

/-- **A round of a worker that does not fail goes on with its session**, in which what it reports follows
the bound. -/
theorem Rounded.exists_session {r : List (Reported Solution) × Worker π} (hr : Rounded limits bound w r)
    (h : w.InSession m Allowed) (allowed : ∀ b, bound = some b → Allowed b)
    (unfailed : ∀ cause, r.2.status ≠ .failed cause) :
    ∃ e s seed log solutions, m.load = .ok e ∧ r.2.search = some s ∧ r.1 = reported w.id solutions ∧
      Search.Session ((m.root e).search seed) s (solutions.map .solution ++ log) ∧
      (∀ b, .bound b ∈ log → Allowed b) ∧ (solutions ≠ [] → ∀ b, bound = some b → .bound b ∈ log) := by
  cases hr with
  | idle =>
    obtain ⟨e, s, seed, log, load, search, session, given⟩ := h unfailed
    exact ⟨e, s, seed, log, [], load, search, rfl, session, given, fun some => absurd rfl some⟩
  | @spent s status search =>
    obtain ⟨e, s', seed, log, load, search', session, given⟩ := h (status ▸ fun _ h => by cases h)
    obtain rfl : s = s' := Option.some.inj (search.symm.trans search')
    obtain ⟨log', session', given', -⟩ := exists_session_told session bound given allowed
    exact ⟨e, _, seed, log', [], load, rfl, rfl, session', given', fun some => absurd rfl some⟩
  | @ran s status search =>
    obtain ⟨e, s', seed, log, load, search', session, given⟩ := h (status ▸ fun _ h => by cases h)
    obtain rfl : s = s' := Option.some.inj (search.symm.trans search')
    obtain ⟨log', session', given', told⟩ := exists_session_told session bound given allowed
    generalize roundCondition limits _ w.id = condition at unfailed ⊢
    cases hrun : (s.told bound).run condition with
    | error cause t =>
      rw [hrun] at unfailed
      obtain ⟨failure, failed⟩ := exists_statusOf_error w.id cause t
      exact absurd failed (unfailed failure)
    | ok _ t => exact ⟨e, _, seed, log', t.solutions, load, rfl, rfl, session'.run hrun, given', fun _ => told⟩

theorem Rounded.inSession {r : List (Reported Solution) × Worker π} (hr : Rounded limits bound w r)
    (h : w.InSession m Allowed) (allowed : ∀ b, bound = some b → Allowed b) : r.2.InSession m Allowed := by
  intro unfailed
  obtain ⟨e, s, seed, log, solutions, load, search, -, session, given, -⟩ := hr.exists_session h allowed unfailed
  refine ⟨e, s, seed, _, load, search, session, fun b hb => ?_⟩
  rcases List.mem_append.mp hb with hb | hb
  · obtain ⟨solution, -, heq⟩ := List.mem_map.mp hb
    cases heq
  · exact given b hb

variable [LawfulPropagator π]

/-- What a worker reports was found by its search. -/
theorem Rounded.found {r : List (Reported Solution) × Worker π} (hr : Rounded limits bound w r)
    (h : w.InSession m Allowed) (allowed : ∀ b, bound = some b → Allowed b)
    (unfailed : ∀ cause, r.2.status ≠ .failed cause) :
    ∀ found ∈ r.1, ∃ e, m.load = .ok e ∧ found.Sound (m.root e) := by
  obtain ⟨e, s, seed, log, solutions, load, -, reports, session, -⟩ := hr.exists_session h allowed unfailed
  intro found hfound
  rw [reports] at hfound
  obtain ⟨solution, hsolution, rfl⟩ := mem_reported.mp hfound
  obtain ⟨-, -, logged⟩ := session.inv (Engine.loaded_of_load load).made.valid
  exact ⟨e, load, logged.leaves solution
    (List.mem_append_left _ (List.mem_map_of_mem (f := Search.Entry.solution) hsolution)), rfl⟩

/-- **What a worker reports is better than the bound**, if the least integer was never given as a bound and is
not the objective value of any solution. -/
theorem Rounded.lt {r : List (Reported Solution) × Worker π} (hr : Rounded limits bound w r)
    (h : w.InSession m (· ≠ Word.minInteger)) (allowed : ∀ b, bound = some b → b ≠ Word.minInteger)
    (greater : ∀ e solution, m.load = .ok e → Search.Leaf (m.root e) solution →
      solution.objective ≠ Word.minInteger)
    (unfailed : ∀ cause, r.2.status ≠ .failed cause) :
    ∀ found ∈ r.1, ∀ b, bound = some b → found.objective < b := by
  obtain ⟨e, s, seed, log, solutions, load, -, reports, session, given, told⟩ :=
    hr.exists_session h allowed unfailed
  intro found hfound b hb
  rw [reports] at hfound
  obtain ⟨solution, hsolution, rfl⟩ := mem_reported.mp hfound
  have bounded : .bound Word.minInteger ∉ solutions.map .solution ++ log := fun hmem => by
    rcases List.mem_append.mp hmem with hmem | hmem
    · obtain ⟨solution, -, heq⟩ := List.mem_map.mp hmem
      cases heq
    · exact given _ hmem rfl
  have improving := session.improving (Engine.loaded_of_load load).made.valid bounded
    fun solution => greater e solution load
  exact (List.pairwise_append.mp improving).2.2 _ (List.mem_map_of_mem (f := Search.Entry.solution) hsolution) _
    (told (List.ne_nil_of_mem hsolution) b hb) solution rfl

end Worker
end BranchBound
