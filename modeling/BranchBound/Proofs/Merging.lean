import BranchBound.Proofs.Incumbent
import BranchBound.Proofs.Portfolio

/-! # Rounds of many workers

A portfolio is watched while it is given some signals, one after another (`Portfolio.observe`).  In every
round the searches of the workers hand over solutions (`foundIn`).  After any number of rounds the incumbent
is what all of these are merged to, in the order of the rounds, of the workers, and of their discovery
(`incumbent_afterRounds`), and so are the improvements that were told (`watched_rounds`).  The workers are in
sessions with their searches, so in every round they find only what is better than the incumbent
(`lt_of_mem_foundIn`).  **So nothing that is found is lost** (`merging_lossless`). -/
namespace BranchBound

/-- The improvement that is reported, if it is one. -/
def Progress.improvement? : Progress → Option (Reported Solution)
  | .improved best => some best
  | _ => none

namespace Portfolio
variable {π : Type} [Propagator π]

/-! ## What there is after some rounds -/

section
variable (o : Options) (signals : Nat → Signals) (p : Portfolio π)

/-- The portfolio after some rounds. -/
def afterRounds : Nat → Portfolio π
  | 0 => p
  | k + 1 => ((afterRounds k).round (limits o (signals k))).1

/-- What the searches of the workers hand over in a round, in the order of the workers. -/
def foundIn (k : Nat) : List (Reported Solution) :=
  let now := p.afterRounds o signals k
  now.workers.flatMap fun w => (w.handed (limits o (signals k)) now.incumbent.bound).map fun solution =>
    ⟨solution.objective, solution, w.id⟩

/-- What was found in the rounds before one. -/
def foundBefore (k : Nat) : List (Reported Solution) :=
  (List.range k).flatMap (p.foundIn o signals)

theorem foundBefore_succ (k : Nat) :
    p.foundBefore o signals (k + 1) = p.foundBefore o signals k ++ p.foundIn o signals k := by
  unfold foundBefore
  rw [List.range_succ, List.flatMap_append, List.flatMap_singleton]

/-- The notes of a round, and the verdict if it is the last. -/
def notesIn (k : Nat) : List Progress × Option Verdict :=
  ((p.afterRounds o signals k).round (limits o (signals k))).2

end

variable {o : Options} {signals : Nat → Signals} {p : Portfolio π}

theorem workers_afterRounds_succ (k : Nat) : (p.afterRounds o signals (k + 1)).workers =
    (p.afterRounds o signals k).workers.map fun w =>
      (w.round (limits o (signals k)) (p.afterRounds o signals k).incumbent.bound).2 :=
  List.map_map

/-- The workers report what is found. -/
theorem foundIn_eq (k : Nat) : p.foundIn o signals k = (p.afterRounds o signals k).workers.flatMap fun w =>
    (w.round (limits o (signals k)) (p.afterRounds o signals k).incumbent.bound).1 :=
  List.flatMap_congr fun w _ => (w.round_fst _ _).symm

/-- A round merges what is found into the incumbent. -/
theorem incumbent_afterRounds_succ (k : Nat) : (p.afterRounds o signals (k + 1)).incumbent =
    ((p.afterRounds o signals k).incumbent.merge (p.foundIn o signals k)).2 := by
  rw [foundIn_eq]
  change ((p.afterRounds o signals k).incumbent.merge (List.flatMap Prod.fst (List.map _ _))).2 = _
  rw [List.flatMap_map]

/-- **The incumbent is what everything found so far is merged to.** -/
theorem incumbent_afterRounds (h : p.incumbent = {}) (k : Nat) : (p.afterRounds o signals k).incumbent =
    (({} : Incumbent Solution).merge (p.foundBefore o signals k)).2 := by
  induction k with
  | zero => exact h
  | succ k ih => rw [incumbent_afterRounds_succ, ih, foundBefore_succ, Incumbent.merge_append]

/-- The best solution was found in one of the rounds before. -/
theorem exists_mem_foundIn (h : p.incumbent = {}) {k : Nat} {best : Reported Solution}
    (hbest : (p.afterRounds o signals k).incumbent.best = some best) : ∃ j < k, best ∈ p.foundIn o signals j := by
  rw [incumbent_afterRounds h] at hbest
  obtain ⟨j, hj, found⟩ := List.mem_flatMap.mp ((Incumbent.merged_merge _).first best hbest).mem
  exact ⟨j, List.mem_range.mp hj, found⟩

omit [Propagator π] in
theorem improvement?_exhaustedNote {before after : Worker π} :
    (exhaustedNote before after).bind Progress.improvement? = none := by
  unfold exhaustedNote
  split
  · rfl
  · rfl

/-- The improvements of a round are those that are merged into the incumbent. -/
theorem improvements_notesIn (k : Nat) : (p.notesIn o signals k).1.filterMap Progress.improvement? =
    ((p.afterRounds o signals k).incumbent.merge (p.foundIn o signals k)).1 := by
  have exhausted (workers : List (Worker π × Worker π)) :
      (workers.filterMap fun w => exhaustedNote w.1 w.2).filterMap Progress.improvement? = [] := by
    rw [List.filterMap_filterMap]
    exact List.filterMap_eq_nil_iff.mpr fun _ _ => improvement?_exhaustedNote
  have improved (improvements : List (Reported Solution)) :
      (improvements.map Progress.improved).filterMap Progress.improvement? = improvements := by
    rw [List.filterMap_map]
    exact List.filterMap_some
  have stopped (numRounds : Nat) (verdict : Option Verdict) :
      (verdict.toList.map (Progress.stopped numRounds)).filterMap Progress.improvement? = [] := by
    cases verdict with
    | none => rfl
    | some verdict => rfl
  rw [foundIn_eq]
  unfold notesIn round
  dsimp only
  rw [List.filterMap_append, List.filterMap_append, exhausted, improved, stopped, List.nil_append,
    List.append_nil, List.flatMap_map]

/-! ## Workers keep their places -/

theorem ids_afterRounds (k : Nat) : (p.afterRounds o signals k).workers.map Worker.id =
    p.workers.map Worker.id := by
  induction k with
  | zero => rfl
  | succ k ih =>
    rw [workers_afterRounds_succ, List.map_map, ← ih]
    exact List.map_congr_left fun w _ => (w.rounded _ _).id_eq

/-- What is found in a round is in the order of the workers. -/
theorem pairwise_foundIn (h : (p.workers.map Worker.id).Pairwise (· < ·)) (k : Nat) :
    (p.foundIn o signals k).Pairwise fun a b => a.worker ≤ b.worker := by
  have ids : (p.afterRounds o signals k).workers.map Worker.id = p.workers.map Worker.id := ids_afterRounds k
  rw [← ids, List.pairwise_map] at h
  rw [foundIn_eq]
  refine List.pairwise_flatMap.mpr ⟨fun w _ => ?_, h.imp fun {w w'} lt a ha b hb => ?_⟩
  · refine List.pairwise_of_forall_mem_list fun a ha b hb => ?_
    rw [(w.rounded _ _).worker_eq a ha, (w.rounded _ _).worker_eq b hb]
  · rw [(w.rounded _ _).worker_eq a ha, (w'.rounded _ _).worker_eq b hb]
    exact Nat.le_of_lt lt

/-! ## Workers report what is better than the incumbent -/

/-- No worker has failed. -/
def Unfailed (p : Portfolio π) : Prop := ∀ w ∈ p.workers, ∀ cause, w.status ≠ .failed cause

omit [Propagator π] in
/-- A portfolio that goes on, or ends with another verdict, has no worker that failed. -/
theorem unfailed_of_verdict? {limits : Limits}
    (h : ∀ cause, verdict? limits (p.workers.map Worker.status) ≠ some (.failed cause)) : p.Unfailed := by
  intro w hw cause status
  have failed : .failed cause ∈ p.workers.map Worker.status := status ▸ List.mem_map_of_mem hw
  unfold verdict? at h
  dsimp only at h
  split at h
  · rename_i verdict found
    obtain ⟨status, -, hstatus⟩ := List.exists_of_findSome?_eq_some found
    split at hstatus
    · cases hstatus
      exact h _ rfl
    · cases hstatus
  · rename_i none
    have := List.findSome?_eq_none_iff.mp none _ failed
    cases this

variable {m : Model π}

theorem inSession_of_mem_start {Allowed : Int → Prop} : ∀ w ∈ (start o m).workers, w.InSession m Allowed := by
  intro w hw
  obtain ⟨id, -, rfl⟩ := List.mem_map.mp hw
  exact Worker.inSession_start m id _

theorem pairwise_ids_start : ((start o m).workers.map Worker.id).Pairwise (· < ·) := by
  have ids : (start o m).workers.map Worker.id = List.range o.numWorkers := by
    unfold start
    rw [List.map_map]
    refine (List.map_congr_left fun id _ => ?_).trans (List.map_id _)
    change (Worker.start m id (seedOf o id)).id = id
    unfold Worker.start
    cases m.load with
    | error cause => rfl
    | ok e => rfl
  rw [ids]
  exact List.pairwise_lt_range

variable {Allowed : Int → Prop}

/-- The workers stay in their sessions, if all bounds of the rounds are allowed. -/
theorem inSession_afterRounds (h : ∀ w ∈ p.workers, w.InSession m Allowed) {k : Nat}
    (allowed : ∀ j < k, ∀ b, (p.afterRounds o signals j).incumbent.bound = some b → Allowed b) :
    ∀ w ∈ (p.afterRounds o signals k).workers, w.InSession m Allowed := by
  induction k with
  | zero => exact h
  | succ k ih =>
    rw [workers_afterRounds_succ]
    intro w' hw'
    obtain ⟨w, hw, rfl⟩ := List.mem_map.mp hw'
    exact (w.rounded _ _).inSession (ih (fun j hj => allowed j (Nat.lt_succ_of_lt hj)) w hw)
      (allowed k (Nat.lt_succ_self k))

/-- What is found in a round is reported by a worker that does not fail. -/
theorem exists_worker_of_mem_foundIn {k : Nat} (unfailed : (p.afterRounds o signals (k + 1)).Unfailed)
    {found : Reported Solution} (h : found ∈ p.foundIn o signals k) :
    ∃ w ∈ (p.afterRounds o signals k).workers,
      let r := w.round (limits o (signals k)) (p.afterRounds o signals k).incumbent.bound
      found ∈ r.1 ∧ ∀ cause, r.2.status ≠ .failed cause := by
  rw [foundIn_eq] at h
  obtain ⟨w, hw, hfound⟩ := List.mem_flatMap.mp h
  refine ⟨w, hw, hfound, unfailed _ ?_⟩
  rw [workers_afterRounds_succ]
  exact List.mem_map_of_mem hw

end Portfolio

/-- The objective value of a solution is in one of the ranges of the model. -/
theorem Reported.Sound.mem_range {π : Type} [Propagator π] [LawfulPropagator π] {m : Model π} {e : Engine π}
    (load : m.load = .ok e) {found : Reported Solution} (h : found.Sound (m.root e)) :
    ∃ r ∈ m.ranges, r.1 ≤ found.objective ∧ found.objective ≤ r.2 := by
  obtain ⟨leaf, objective⟩ := h
  have loaded := Engine.loaded_of_load load
  have known : m.objective < e.store.numVars := by
    obtain ⟨e', run, -, known, -⟩ := leaf
    rw [(run.inside loaded.made.valid).numVars_eq] at known
    exact known
  obtain ⟨-, -, -, -, value⟩ := leaf.value_eq
  rw [objective, value]
  exact loaded.within _ _ known (leaf.admits loaded.made.valid _ known)

namespace Portfolio
variable {π : Type} [Propagator π] {o : Options} {signals : Nat → Signals} {p : Portfolio π}

/-! ## Watching a portfolio -/

/-- Gives signals one after another, and counts them. -/
def asking (signals : Nat → Signals) : StateM (Nat × List Progress) Signals :=
  modifyGet fun (k, told) => (signals k, (k + 1, told))

/-- Notes what is told. -/
def telling (note : Progress) : StateM (Nat × List Progress) Unit :=
  modify fun (k, told) => (k, told ++ [note])

/-- The answer of a portfolio that is given signals, with the number of its rounds and with what it told. -/
def observe (o : Options) (m : Model π) (signals : Nat → Signals) :
    Except SolverError Outcome × Nat × List Progress :=
  (solve o m (asking signals) telling).run (0, [])

theorem forM_telling (notes : List Progress) (k : Nat) (told : List Progress) :
    (notes.forM telling).run (k, told) = ((), k, told ++ notes) := by
  induction notes generalizing told with
  | nil => rw [List.append_nil]; rfl
  | cons note notes ih =>
    change (notes.forM telling).run (k, told ++ [note]) = _
    rw [ih, List.append_assoc]
    rfl

section
variable {q next : Portfolio π} {notes : List Progress} {verdict : Verdict} {k : Nat}

theorem run_rounds_of_some (h : q.round (limits o (signals k)) = (next, notes, some verdict)) (n : Nat)
    (told : List Progress) : (rounds o (asking signals) telling (n + 1) q).run (k, told) =
      ((next, verdict), k + 1, told ++ notes) := by
  have asked : ((asking signals).run (k, told)).1 = signals k := rfl
  unfold rounds
  rw [StateT.run_bind]
  change StateT.run _ (k + 1, told) = _
  rw [asked, h]
  change StateT.run (notes.forM telling >>= fun _ => pure (next, verdict)) (k + 1, told) = _
  rw [StateT.run_bind, forM_telling]
  rfl

theorem run_rounds_of_none (h : q.round (limits o (signals k)) = (next, notes, none)) (n : Nat)
    (told : List Progress) : (rounds o (asking signals) telling (n + 1) q).run (k, told) =
      (rounds o (asking signals) telling n next).run (k + 1, told ++ notes) := by
  have asked : ((asking signals).run (k, told)).1 = signals k := rfl
  conv => left; unfold rounds
  rw [StateT.run_bind]
  change StateT.run _ (k + 1, told) = _
  rw [asked, h]
  change StateT.run (notes.forM telling >>= fun _ => rounds o (asking signals) telling n next)
    (k + 1, told) = _
  rw [StateT.run_bind, forM_telling]
  rfl

end

/-- What is known of a portfolio after some rounds, without a verdict that a worker failed. -/
structure Watched (o : Options) (signals : Nat → Signals) (p : Portfolio π) (rounds : Nat)
    (told : List Progress) : Prop where
  improvements_eq : told.filterMap Progress.improvement? =
    (({} : Incumbent Solution).merge (p.foundBefore o signals rounds)).1
  unfailed : ∀ k, k < rounds → (p.afterRounds o signals (k + 1)).Unfailed

theorem watched_rounds (start : p.incumbent = {}) {n k : Nat} {told : List Progress}
    (h : Watched o signals p k told) :
    let r := (rounds o (asking signals) telling n (p.afterRounds o signals k)).run (k, told)
    r.1.1 = p.afterRounds o signals r.2.1 ∧
      ((∀ cause, r.1.2 ≠ .failed cause) → Watched o signals p r.2.1 r.2.2) := by
  -- on the rounds that are allowed; the portfolio after `k` rounds is the same function of the signals
  induction n generalizing k told with
  | zero => exact ⟨rfl, fun _ => h⟩
  | succ n ih =>
    have improvements : (told ++ (p.notesIn o signals k).1).filterMap Progress.improvement? =
        (({} : Incumbent Solution).merge (p.foundBefore o signals (k + 1))).1 := by
      rw [List.filterMap_append, h.improvements_eq, improvements_notesIn, incumbent_afterRounds start,
        foundBefore_succ, Incumbent.merge_append]
    have next (goes : ∀ cause, (p.notesIn o signals k).2 ≠ some (.failed cause)) :
        Watched o signals p (k + 1) (told ++ (p.notesIn o signals k).1) := by
      refine ⟨improvements, fun j hj => ?_⟩
      rcases Nat.lt_or_eq_of_le (Nat.le_of_lt_succ hj) with hj | rfl
      · exact h.unfailed j hj
      · exact unfailed_of_verdict? goes
    have ended {verdict : Option Verdict} (h : (p.notesIn o signals k).2 = verdict) :
        (p.afterRounds o signals k).round (limits o (signals k)) =
          (p.afterRounds o signals (k + 1), (p.notesIn o signals k).1, verdict) := h ▸ rfl
    cases hverdict : (p.notesIn o signals k).2 with
    | none =>
      rw [run_rounds_of_none (ended hverdict)]
      exact ih (next fun cause failed => by rw [hverdict] at failed; cases failed)
    | some verdict =>
      rw [run_rounds_of_some (ended hverdict)]
      refine ⟨rfl, fun unfailed => next fun cause failed => ?_⟩
      rw [hverdict] at failed
      exact unfailed cause (Option.some.inj failed)

omit [Propagator π] in
theorem improvements_startNotes : (startNotes o p).filterMap Progress.improvement? = [] := by
  unfold startNotes
  rw [List.filterMap_filterMap]
  refine List.filterMap_eq_nil_iff.mpr fun w _ => ?_
  cases hs : w.search with
  | none => rfl
  | some s => rfl

omit [Propagator π] in
theorem best_of_conclude {verdict : Verdict} {outcome : Outcome} (h : p.conclude verdict = .ok outcome) :
    (∀ cause, verdict ≠ .failed cause) ∧ outcome.best = p.incumbent.best := by
  unfold conclude at h
  split at h
  · cases h
  · refine ⟨fun _ h => (by cases h), ?_⟩
    split at h
    · cases h
    · rename_i best hbest
      cases h
      exact hbest.symm
  · cases h
    exact ⟨fun _ h => (by cases h), rfl⟩

/-- **A portfolio that answers was watched to its end**, and its best is the incumbent. -/
theorem watched_of_observe {m : Model π} {outcome : Outcome} {numRounds : Nat} {told : List Progress}
    (h : observe o m signals = (.ok outcome, numRounds, told)) :
    Watched o signals (start o m) numRounds told ∧
      outcome.best = ((start o m).afterRounds o signals numRounds).incumbent.best := by
  have first : Watched o signals (start o m) 0 (startNotes o (start o m)) :=
    ⟨improvements_startNotes, fun k hk => absurd hk (Nat.not_lt_zero k)⟩
  obtain ⟨r, hr⟩ : ∃ r, StateT.run (rounds o (asking signals) telling ((start o m).potential + 1) (start o m))
      (0, startNotes o (start o m)) = r := ⟨_, rfl⟩
  have ended : r.1.1 = (start o m).afterRounds o signals r.2.1 ∧
      ((∀ cause, r.1.2 ≠ .failed cause) → Watched o signals (start o m) r.2.1 r.2.2) := by
    rw [← hr]
    exact watched_rounds rfl first
  have answered : (r.1.1.conclude r.1.2, r.2) = (.ok outcome, numRounds, told) := by
    rw [← h]
    unfold observe solve
    have workers : o.numWorkers ≠ 0 := fun none => by
      unfold observe solve at h
      rw [if_pos none] at h
      cases h
    have interval : o.syncInterval ≠ 0 := fun none => by
      unfold observe solve at h
      rw [if_neg workers, if_pos none] at h
      cases h
    rw [if_neg workers, if_neg interval]
    change _ = StateT.run ((startNotes o (start o m)).forM telling >>= fun _ =>
      rounds o (asking signals) telling ((start o m).potential + 1) (start o m) >>= fun r =>
        pure (r.1.conclude r.2)) (0, [])
    rw [StateT.run_bind, forM_telling]
    change _ = StateT.run (rounds o (asking signals) telling ((start o m).potential + 1) (start o m) >>= fun r =>
        pure (r.1.conclude r.2)) (0, startNotes o (start o m))
    rw [StateT.run_bind, hr]
    rfl
  obtain ⟨concluded, state⟩ := Prod.mk.inj answered
  obtain ⟨unfailed, best⟩ := best_of_conclude concluded
  rw [state] at ended
  exact ⟨ended.2 unfailed, ended.1 ▸ best⟩

section
variable [LawfulPropagator π] {m : Model π} {k : Nat}

/-- **What is found in a round is a solution**, unless a worker failed then. -/
theorem sound_of_mem_foundIn (unfailed : ((start o m).afterRounds o signals (k + 1)).Unfailed) :
    ∀ found ∈ (start o m).foundIn o signals k, ∃ e, m.load = .ok e ∧ found.Sound (m.root e) := by
  intro found hfound
  obtain ⟨w, hw, hfound, unfailed⟩ := exists_worker_of_mem_foundIn unfailed hfound
  have session : w.InSession m fun _ => True :=
    inSession_afterRounds inSession_of_mem_start (fun _ _ _ _ => trivial) w hw
  exact (w.rounded _ _).found session (fun _ _ => trivial) unfailed found hfound

variable (small : ∀ r ∈ m.ranges, -Word.maxValue - 1 ≤ r.1 ∧ r.2 ≤ Word.maxValue)
  (unfailed : ∀ j < k, ((start o m).afterRounds o signals (j + 1)).Unfailed)
include small unfailed

/-- The objective value of the incumbent is that of a variable, as it was found in a round before. -/
theorem objective_bounds {best : Reported Solution}
    (hbest : ((start o m).afterRounds o signals k).incumbent.best = some best) :
    -Word.maxValue - 1 ≤ best.objective ∧ best.objective ≤ Word.maxValue := by
  obtain ⟨j, hj, found⟩ := exists_mem_foundIn rfl hbest
  obtain ⟨e, load, sound⟩ := sound_of_mem_foundIn (unfailed j hj) best found
  obtain ⟨r, hr, least, greatest⟩ := sound.mem_range load
  exact ⟨Int.le_trans (small r hr).1 least, Int.le_trans greatest (small r hr).2⟩

/-- **The bound of a round is the objective value of the incumbent.** -/
theorem bound_afterRounds : ((start o m).afterRounds o signals k).incumbent.bound =
    ((start o m).afterRounds o signals k).incumbent.best.map Reported.objective := by
  rw [Incumbent.bound_eq]
  cases hbest : ((start o m).afterRounds o signals k).incumbent.best with
  | none => rfl
  | some best =>
    suffices notGreatest : best.objective ≠ Word.maxInteger from if_pos (decide_eq_true notGreatest)
    intro greatest
    have le := (objective_bounds small unfailed hbest).2
    rw [greatest] at le
    exact absurd le (by decide)

/-- **What is found in a round is better than the incumbent.** -/
theorem lt_of_mem_foundIn (unfailed' : ((start o m).afterRounds o signals (k + 1)).Unfailed)
    {found best : Reported Solution} (hfound : found ∈ (start o m).foundIn o signals k)
    (hbest : ((start o m).afterRounds o signals k).incumbent.best = some best) :
    found.objective < best.objective := by
  have bounds (j : Nat) (hj : j ≤ k) (b : Int)
      (hb : ((start o m).afterRounds o signals j).incumbent.bound = some b) : b ≠ Word.minInteger := by
    have before : ∀ i < j, ((start o m).afterRounds o signals (i + 1)).Unfailed :=
      fun i hi => unfailed i (Nat.lt_of_lt_of_le hi hj)
    rw [bound_afterRounds small before] at hb
    obtain ⟨best, hbest, rfl⟩ := Option.map_eq_some_iff.mp hb
    have le := (objective_bounds small before hbest).1
    intro least
    rw [least] at le
    exact absurd le (by decide)
  obtain ⟨w, hw, hfound, unfailed'⟩ := exists_worker_of_mem_foundIn unfailed' hfound
  have session := inSession_afterRounds inSession_of_mem_start (fun j hj => bounds j (Nat.le_of_lt hj)) w hw
  refine (w.rounded _ _).lt session (bounds k (Nat.le_refl k)) (fun e solution load leaf least => ?_) unfailed'
    found hfound _ ?_
  · have sound : Reported.Sound (m.root e) ⟨solution.objective, solution, w.id⟩ := ⟨leaf, rfl⟩
    obtain ⟨r, hr, le, -⟩ := sound.mem_range load
    have le := Int.le_trans (small r hr).1 le
    dsimp only at le
    rw [least] at le
    exact absurd le (by decide)
  · rw [bound_afterRounds small unfailed, hbest]
    rfl

end

/-- **Merging loses nothing.**  Whatever signals a portfolio is given, if it answers, then the objective
values of the improvements that it told strictly decrease, the best solution is the last of them, and it is
the first of the least of all solutions that the search of any worker handed over in any round, in the order
of the rounds, of the workers, and in which they were handed over.  In every round the bound is the objective
value of the incumbent that was merged from all rounds before, and each solution of the round is strictly
better.  The values of a model have 32 bits, so that neither the least nor the greatest integer is a value. -/
theorem merging_lossless [LawfulPropagator π] (o : Options) (m : Model π)
    (small : ∀ r ∈ m.ranges, -Word.maxValue - 1 ≤ r.1 ∧ r.2 ≤ Word.maxValue) (signals : Nat → Signals)
    {outcome : Outcome} {numRounds : Nat} {told : List Progress}
    (h : observe o m signals = (.ok outcome, numRounds, told)) :
    let improvements := told.filterMap Progress.improvement?
    let all := (start o m).foundBefore o signals numRounds
    improvements.Pairwise (fun earlier later => later.objective < earlier.objective) ∧
      outcome.best = improvements.getLast? ∧
      (outcome.best = none → all = []) ∧
      (∀ best, outcome.best = some best → Incumbent.IsFirstLeast best all) ∧
      ∀ k, k < numRounds →
        let incumbent := ((start o m).afterRounds o signals k).incumbent
        incumbent = (({} : Incumbent Solution).merge ((start o m).foundBefore o signals k)).2 ∧
          incumbent.bound = incumbent.best.map Reported.objective ∧
          ((start o m).foundIn o signals k).Pairwise (fun a b => a.worker ≤ b.worker) ∧
          ∀ found ∈ (start o m).foundIn o signals k, ∀ best, incumbent.best = some best →
            found.objective < best.objective := by
  obtain ⟨watched, best_eq⟩ := watched_of_observe h
  have merged := Incumbent.merged_merge ((start o m).foundBefore o signals numRounds)
  rw [← watched.improvements_eq, ← incumbent_afterRounds rfl] at merged
  refine ⟨merged.improving, best_eq.trans merged.last_eq, fun none => merged.empty (best_eq ▸ none),
    fun best hbest => merged.first best (best_eq ▸ hbest), fun k hk => ?_⟩
  have unfailed : ∀ j < k, ((start o m).afterRounds o signals (j + 1)).Unfailed :=
    fun j hj => watched.unfailed j (Nat.lt_trans hj hk)
  exact ⟨incumbent_afterRounds rfl k, bound_afterRounds small unfailed, pairwise_foundIn pairwise_ids_start k,
    fun found hfound best hbest => lt_of_mem_foundIn small unfailed (watched.unfailed k hk) hfound hbest⟩

/-- Two workers that exchange their solutions after every decision. -/
theorem merging_lossless_copyModel :
    ∃ outcome numRounds told,
      observe { numWorkers := 2, syncInterval := 1 } copyModel (fun _ => {}) = (.ok outcome, numRounds, told) ∧
        1 < numRounds ∧ ∃ best, outcome.best = some best ∧
          (told.filterMap Progress.improvement?).getLast? = some best ∧
            Incumbent.IsFirstLeast best ((start { numWorkers := 2, syncInterval := 1 } copyModel).foundBefore
              { numWorkers := 2, syncInterval := 1 } (fun _ => {}) numRounds) := by
  have observed : (match observe { numWorkers := 2, syncInterval := 1 } copyModel (fun _ => {}) with
      | (.ok outcome, numRounds, _) => decide (1 < numRounds) && outcome.best.isSome
      | _ => false) = true := by decide +kernel
  split at observed
  · rename_i outcome numRounds told answer
    obtain ⟨rounds, some⟩ := Bool.and_eq_true_iff.mp observed
    obtain ⟨best, hbest⟩ := Option.isSome_iff_exists.mp some
    obtain ⟨-, last, -, first, -⟩ := merging_lossless _ copyModel (by decide) _ answer
    exact ⟨outcome, numRounds, told, answer, of_decide_eq_true rounds, best, hbest, hbest ▸ last.symm,
      first best hbest⟩
  · cases observed

end Portfolio
end BranchBound
