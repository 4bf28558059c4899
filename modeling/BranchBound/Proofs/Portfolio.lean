import BranchBound.Portfolio
import BranchBound.Proofs.Worker

/-! # Portfolios

Every worker is in a session with a search of its own, in which all bounds and all solutions are no better
than the incumbent (`Worker.Sound`).  Rounds keep this (`Portfolio.Sound.round`), so when one worker has
exhausted its search, no assignment that is spared is better than the incumbent
(`Portfolio.Sound.complete`).

Let every feasible answer to a problem have an assignment that is spared, and every leaf of the search be
an answer.  **Then a result that is proven optimal is the least value of a feasible answer, and a model is
infeasible only if there is none** (`Portfolio.ends_solve`), whatever the options and the signals are. -/
namespace BranchBound

namespace Incumbent
variable {α : Type} {i : Incumbent α} {candidate : Reported α} {candidates : List (Reported α)} {x : Int}

/-- The incumbent is no worse than `x`. -/
def Reaches (i : Incumbent α) (x : Int) : Prop := ∃ best, i.best = some best ∧ best.objective ≤ x

theorem Reaches.mono (h : i.Reaches x) {y : Int} (hxy : x ≤ y) : i.Reaches y := by
  obtain ⟨best, hbest, le⟩ := h
  exact ⟨best, hbest, Int.le_trans le hxy⟩

theorem reaches_consider : (i.consider candidate).Reaches candidate.objective := by
  unfold consider
  split
  · exact ⟨candidate, rfl, Int.le_refl _⟩
  · rename_i rejected
    cases hbest : i.best with
    | none => exact absurd (by rw [accepts, hbest]; rfl) rejected
    | some best =>
      refine ⟨best, hbest, Int.not_lt.mp fun lt => rejected ?_⟩
      rw [accepts, hbest]
      exact decide_eq_true lt

theorem Reaches.consider (h : i.Reaches x) : (i.consider candidate).Reaches x := by
  unfold Incumbent.consider
  split
  · rename_i accepted
    obtain ⟨best, hbest, le⟩ := h
    have lt := accepts_iff.mp accepted best hbest
    exact ⟨candidate, rfl, Int.le_trans (Int.le_of_lt lt) le⟩
  · exact h

theorem Reaches.merge (h : i.Reaches x) : (i.merge candidates).2.Reaches x := by
  induction candidates generalizing i with
  | nil => exact h
  | cons candidate candidates ih => exact ih h.consider

/-- **After the merge the incumbent is no worse than any candidate.** -/
theorem reaches_merge (h : candidate ∈ candidates) :
    (i.merge candidates).2.Reaches candidate.objective := by
  induction candidates generalizing i with
  | nil => cases h
  | cons first candidates ih =>
    rcases List.mem_cons.mp h with rfl | h
    · exact reaches_consider.merge
    · exact ih h

/-- The incumbent is one of the candidates or the one before. -/
theorem best_merge {best : Reported α} (h : (i.merge candidates).2.best = some best) :
    i.best = some best ∨ best ∈ candidates := by
  induction candidates generalizing i with
  | nil => exact .inl h
  | cons first candidates ih =>
    rcases ih h with hbest | hmem
    · unfold consider at hbest
      split at hbest
      · exact .inr (Option.some.inj hbest ▸ List.mem_cons_self)
      · exact .inl hbest
    · exact .inr (List.mem_cons_of_mem _ hmem)

/-- The bound is the objective of the incumbent. -/
theorem reaches_of_bound (h : i.bound = some x) : i.Reaches x := by
  rw [bound_eq] at h
  obtain ⟨hmap, -⟩ := Option.filter_eq_some_iff.mp h
  obtain ⟨best, hbest, rfl⟩ := Option.map_eq_some_iff.mp hmap
  exact ⟨best, hbest, Int.le_refl _⟩

end Incumbent

variable {π : Type} [Propagator π] {R : Search.Root π}

/-! ## Workers -/

namespace Worker

/-- A worker is in a session with its search, in which nothing is better than the incumbent. -/
structure Sound (R : Search.Root π) (i : Incumbent Solution) (w : Worker π) : Prop where
  unfailed : ∀ cause, w.status ≠ .failed cause
  session : ∃ s seed log, w.search = some s ∧ Search.Session (R.search seed) s log ∧
    (w.status = .exhausted → s.phase = .exhausted) ∧ ∀ entry ∈ log, i.Reaches entry.value

theorem sound_start {m : Model π} {e : Engine π} (load : m.load = .ok e) (i : Incumbent Solution)
    (id seed : Nat) : (start m id seed).Sound (m.root e) i := by
  unfold start
  rw [load]
  exact ⟨fun _ h => (by cases h), _, seed, [], rfl, .start, fun h => (by cases h), fun _ h => by cases h⟩

variable [LawfulPropagator π] {w : Worker π} {i : Incumbent Solution}

/-- **A round leaves a worker in a session**, in which nothing is better than an incumbent that is no worse
than the one before and than the solutions of the round. -/
theorem Rounded.sound {limits : Limits} {r : List (Reported Solution) × Worker π}
    (hr : Rounded limits i.bound w r) (h : w.Sound R i) (hR : R.engine.Valid)
    (flawless : ∀ cause, ¬ Search.Excuse R cause) : (∀ found ∈ r.1, found.Sound R) ∧
      ∀ i' : Incumbent Solution, (∀ x, i.Reaches x → i'.Reaches x) →
        (∀ found ∈ r.1, i'.Reaches found.objective) → r.2.Sound R i' := by
  obtain ⟨s, seed, log, hs, session, exhausted, reached⟩ := h.session
  obtain ⟨log', session', reached'⟩ : ∃ log', Search.Session (R.search seed) (s.told i.bound) log' ∧
      ∀ entry ∈ log', i.Reaches entry.value := by
    cases hb : i.bound with
    | none => exact ⟨log, session, reached⟩
    | some b =>
      refine ⟨_, session.tighten b, fun entry hentry => ?_⟩
      rcases List.mem_cons.mp hentry with rfl | hentry
      · exact Incumbent.reaches_of_bound hb
      · exact reached entry hentry
  cases hr with
  | idle => exact ⟨fun _ hfound => (by cases hfound), fun i' better _ => ⟨h.unfailed, s, seed, log, hs, session,
      exhausted, fun entry hentry => better _ (reached entry hentry)⟩⟩
  | @spent s' status search =>
    obtain rfl : s = s' := Option.some.inj (hs.symm.trans search)
    exact ⟨fun _ hfound => (by cases hfound), fun i' better _ => ⟨fun _ h => (by cases h), _, seed, log', rfl,
      session', fun h => (by cases h), fun entry hentry => better _ (reached' entry hentry)⟩⟩
  | @ran s' status search =>
    obtain rfl : s = s' := Option.some.inj (hs.symm.trans search)
    generalize roundCondition limits _ w.id = condition
    obtain ⟨t, ht⟩ := session'.exists_run hR flawless condition
    have after := session'.run ht
    rw [ht]
    refine ⟨fun found hfound => ?_, fun i' better found => ⟨fun cause failed => ?_, _, seed, _, rfl, after,
      fun hstatus => ?_, fun entry hentry => ?_⟩⟩
    · obtain ⟨solution, hsolution, rfl⟩ := mem_reported.mp hfound
      exact ⟨(after.inv hR).2.2.leaves solution
        (List.mem_append_left _ (List.mem_map_of_mem hsolution)), rfl⟩
    · change statusOf w.id (.ok () t) = _ at failed
      rcases statusOf_ok w.id t with searching | ⟨exhausted, -⟩
      · rw [searching] at failed
        cases failed
      · rw [exhausted] at failed
        cases failed
    · change statusOf w.id (.ok () t) = _ at hstatus
      rcases statusOf_ok w.id t with searching | ⟨-, phase⟩
      · rw [searching] at hstatus
        cases hstatus
      · exact phase
    · rcases List.mem_append.mp hentry with hentry | hentry
      · obtain ⟨solution, hsolution, rfl⟩ := List.mem_map.mp hentry
        exact found _ (mem_reported.mpr ⟨solution, hsolution, rfl⟩)
      · exact better _ (reached' entry hentry)

end Worker

/-! ## Rounds -/

namespace Portfolio

/-- All workers are in sessions with their searches, and the incumbent is a solution. -/
structure Sound (R : Search.Root π) (p : Portfolio π) : Prop where
  workers : ∀ w ∈ p.workers, w.Sound R p.incumbent
  best : ∀ best, p.incumbent.best = some best → best.Sound R

/-- No assignment that is spared is better than the incumbent. -/
def Complete (R : Search.Root π) (p : Portfolio π) : Prop :=
  ∀ a, R.engine.Spares a → R.engine.store.Admits a → p.incumbent.Reaches (a R.objective)

theorem sound_start {m : Model π} {e : Engine π} (load : m.load = .ok e) (o : Options) :
    (start o m).Sound (m.root e) where
  workers w hw := by
    obtain ⟨id, -, rfl⟩ := List.mem_map.mp hw
    exact Worker.sound_start load _ _ _
  best _ hbest := by cases hbest

theorem mem_of_verdict? {limits : Limits} {statuses : List Status}
    (h : verdict? limits statuses = some .exhausted) : .exhausted ∈ statuses := by
  unfold verdict? at h
  dsimp only at h
  split at h
  · rename_i failed hfailed
    obtain ⟨status, -, hstatus⟩ := List.exists_of_findSome?_eq_some hfailed
    cases h
    split at hstatus <;> cases hstatus
  · split at h
    · assumption
    · split at h
      · cases h
      · split at h
        · cases h
        · split at h <;> cases h

section
variable [LawfulPropagator π] {p : Portfolio π} (hR : R.engine.Valid)
include hR

/-- **When a worker has exhausted its search, the incumbent is the best.** -/
theorem Sound.complete (h : p.Sound R) (exhausted : .exhausted ∈ p.workers.map Worker.status) :
    p.Complete R := by
  intro a spared inside
  obtain ⟨w, hw, status⟩ := List.mem_map.mp exhausted
  obtain ⟨s, seed, log, -, session, phase, reached⟩ := (h.workers w hw).session
  obtain ⟨b, hb, le⟩ := session.beaten_of_exhausted hR (phase status) spared inside
  obtain ⟨⟨entry, hentry, rfl⟩, -⟩ := (session.inv hR).2.2.best.2 b hb
  exact (reached entry hentry).mono le

variable (flawless : ∀ cause, ¬ Search.Excuse R cause)
include flawless

/-- **A round keeps a portfolio sound**, and if it is the last because a search was exhausted, the incumbent is
the best. -/
theorem Sound.round (h : p.Sound R) (limits : Limits) : (p.round limits).1.Sound R ∧
    ((p.round limits).2.2 = some .exhausted → (p.round limits).1.Complete R) := by
  have rounds (w : Worker π) (hw : w ∈ p.workers) :=
    (w.rounded limits p.incumbent.bound).sound (h.workers w hw) hR flawless
  have sound : (p.round limits).1.Sound R := by
    refine ⟨fun w hw => ?_, fun best hbest => ?_⟩
    · obtain ⟨result, hresult, rfl⟩ := List.mem_map.mp hw
      obtain ⟨w, hold, rfl⟩ := List.mem_map.mp hresult
      refine (rounds w hold).2 _ (fun x hx => hx.merge) fun r hr => Incumbent.reaches_merge ?_
      exact List.mem_flatMap.mpr ⟨_, List.mem_map_of_mem hold, hr⟩
    · rcases Incumbent.best_merge hbest with hbest | hmem
      · exact h.best best hbest
      · obtain ⟨result, hresult, hbest⟩ := List.mem_flatMap.mp hmem
        obtain ⟨w, hw, rfl⟩ := List.mem_map.mp hresult
        exact (rounds w hw).1 best hbest
  exact ⟨sound, fun hverdict => sound.complete hR (mem_of_verdict? hverdict)⟩

variable {ε σ : Type} {o : Options} {ask : EStateM ε σ Signals} {tell : Progress → EStateM ε σ Unit}

/-- **However many rounds there are, they keep a portfolio sound.** -/
theorem Sound.rounds (h : p.Sound R) (n : Nat) (env : σ) :
    Ends (rounds o ask tell n p env)
      (fun r _ => r.1.Sound R ∧ (r.2 = .exhausted → r.1.Complete R)) (fun _ _ => True) := by
  induction n generalizing p env with
  | zero => exact ⟨h, fun hverdict => by cases hverdict⟩
  | succ n ih =>
    unfold Portfolio.rounds
    refine ends_trivial.bind fun signals env _ => ?_
    have rounded := h.round hR flawless (Portfolio.limits o signals)
    generalize p.round (Portfolio.limits o signals) = r at rounded ⊢
    obtain ⟨next, notes, verdict⟩ := r
    obtain ⟨sound, complete⟩ := rounded
    refine ends_trivial.bind fun _ env _ => ?_
    cases verdict with
    | none => exact ih sound env
    | some verdict => exact ⟨sound, fun hverdict => complete (congrArg some hverdict)⟩

end

/-! ## Answers -/

/-- An answer of a portfolio is right: what it reports is a solution, and if that is proven optimal, or the
model is infeasible, no assignment was overlooked. -/
structure Answers (R : Search.Root π) (result : Except SolverError Outcome) : Prop where
  best : ∀ outcome, result = .ok outcome → ∀ best, outcome.best = some best → best.Sound R
  proven : ∀ outcome, result = .ok outcome → outcome.provenOptimal = true →
    ∃ best, outcome.best = some best ∧
      ∀ a, R.engine.Spares a → R.engine.store.Admits a → best.objective ≤ a R.objective
  infeasible : result = .error .infeasible → ∀ a, R.engine.Spares a → ¬ R.engine.store.Admits a

theorem answers_of_invalid {cause : InvalidInput} : Answers R (.error (.invalidInput cause)) :=
  ⟨fun _ h => (by cases h), fun _ h => (by cases h), fun h => by cases h⟩

theorem Sound.answers {p : Portfolio π} {verdict : Verdict} (h : p.Sound R)
    (complete : verdict = .exhausted → p.Complete R) : Answers R (p.conclude verdict) := by
  cases verdict with
  | failed cause => exact ⟨fun _ h => (by cases h), fun _ h => (by cases h), fun h => by cases h⟩
  | stopped reason =>
    refine ⟨fun outcome houtcome => ?_, fun outcome houtcome proven => ?_, fun h => by cases h⟩
    · cases houtcome
      exact h.best
    · cases houtcome
      cases proven
  | exhausted =>
    unfold Portfolio.conclude
    cases hbest : p.incumbent.best with
    | none =>
      refine ⟨fun _ h => (by cases h), fun _ h => (by cases h), fun _ a spared inside => ?_⟩
      obtain ⟨best, hsome, -⟩ := complete rfl a spared inside
      rw [hbest] at hsome
      cases hsome
    | some best =>
      refine ⟨fun outcome houtcome => ?_, fun outcome houtcome _ => ?_, fun h => by cases h⟩
      · cases houtcome
        exact fun best' hbest' => h.best best' (hbest.trans hbest')
      · cases houtcome
        refine ⟨best, rfl, fun a spared inside => ?_⟩
        obtain ⟨best', hbest', le⟩ := complete rfl a spared inside
        obtain rfl := Option.some.inj (hbest.symm.trans hbest')
        exact le

/-- **The answer of a portfolio is right**, whatever the options and the signals are. -/
theorem ends_solve [LawfulPropagator π] {m : Model π} {e : Engine π} (load : m.load = .ok e) (he : e.Valid)
    (flawless : ∀ cause, ¬ Search.Excuse (m.root e) cause) {ε σ : Type} {o : Options}
    {ask : EStateM ε σ Signals} {tell : Progress → EStateM ε σ Unit} (env : σ) :
    Ends (solve o m ask tell env) (fun result _ => Answers (m.root e) result) (fun _ _ => True) := by
  unfold solve
  rw [ends_ite]
  split
  · exact answers_of_invalid
  · rw [ends_ite]
    split
    · exact answers_of_invalid
    · refine ends_trivial.bind fun _ env _ => ?_
      refine ((sound_start load o).rounds he flawless _ env).bind fun r env hr => ?_
      exact hr.1.answers hr.2

/-- If the feasible values are those of the assignments that are spared, and every leaf has one of them, **a
result that is proven optimal is the least of them, and a model is infeasible only if there is none**. -/
theorem Answers.isLeast {result : Except SolverError Outcome} (h : Answers R result) {values : Set Int}
    (encode : ∀ x ∈ values, ∃ a, R.engine.Spares a ∧ R.engine.store.Admits a ∧ a R.objective = x)
    (decode : ∀ solution, Search.Leaf R solution → solution.objective ∈ values) :
    (∀ outcome, result = .ok outcome → outcome.provenOptimal = true →
      ∃ best, outcome.best = some best ∧ IsLeast values best.objective) ∧
    (result = .error .infeasible → values = ∅) := by
  refine ⟨fun outcome houtcome proven => ?_, fun hresult => ?_⟩
  · obtain ⟨best, hbest, least⟩ := h.proven outcome houtcome proven
    obtain ⟨leaf, objective⟩ := h.best outcome houtcome best hbest
    refine ⟨best, hbest, objective ▸ decode _ leaf, fun x hx => ?_⟩
    obtain ⟨a, spared, inside, rfl⟩ := encode x hx
    exact least a spared inside
  · refine Set.eq_empty_iff_forall_notMem.mpr fun x hx => ?_
    obtain ⟨a, spared, inside, -⟩ := encode x hx
    exact h.infeasible hresult a spared inside

end Portfolio
end BranchBound
