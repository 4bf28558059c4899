import BranchBound.Portfolio.Protocol
import BranchBound.Proofs.Barrier

/-! # Steps of a protocol

A party that is where it waits (`System.Halts`) comes to the barrier and goes on from there
(`System.goOn`).  Anywhere else it does something by itself (`Does`), unless it is at its end.
`step?_cases` takes the programs of the parties apart, once for all: what a step keeps is then shown for
the barrier, and for each thing that a party does. -/
namespace BranchBound

/-- Where a worker that waits goes on. -/
def Worker.Place.next? {α : Type} : Worker.Place α → Option (Worker.Place α)
  | .starting => some .reading
  | .reported => some .starting
  | _ => none

/-- Where a coordinator that waits goes on. -/
def Portfolio.Place.next? {numWorkers : Nat} {α : Type} :
    Portfolio.Place numWorkers α → Option (Portfolio.Place numWorkers α)
  | .published => some .idle
  | .idle => some .counting
  | .finished verdict => some (.done verdict)
  | _ => none

namespace Protocol
variable {numWorkers : Nat} {ω α : Type}

/-! ## Coming to the barrier -/

namespace System
variable {s s' : System numWorkers ω α} {p q : Party numWorkers}

def withBarrier (s : System numWorkers ω α) (barrier : Barrier (Party numWorkers)) :
    System numWorkers ω α := { s with barrier }

/-- Whether a party is where it waits. -/
def Halts (s : System numWorkers ω α) : Party numWorkers → Prop
  | none => s.coordinator.next? ≠ none
  | some i => (s.workers i).next? ≠ none

/-- A party goes on where it waits. -/
def goOn : Party numWorkers → System numWorkers ω α → System numWorkers ω α
  | none, s => { s with coordinator := s.coordinator.next?.getD s.coordinator }
  | some i, s => s.move i ((s.workers i).next?.getD (s.workers i))

theorem barrier_goOn : (s.goOn p).barrier = s.barrier := by
  cases p <;> rfl

theorem log_goOn : (s.goOn p).log = s.log := by
  cases p <;> rfl

theorem verdict_goOn : (s.goOn p).verdict = s.verdict := by
  cases p with
  | some i => rfl
  | none =>
    unfold verdict
    dsimp only [goOn]
    cases s.coordinator <;> rfl

/-- Where others wait does not change when a party goes on. -/
theorem halts_goOn (other : q ≠ p) (h : s.Halts q) : (s.goOn p).Halts q := by
  cases p with
  | none =>
    cases q with
    | none => exact absurd rfl other
    | some j => exact h
  | some i =>
    cases q with
    | none => exact h
    | some j =>
      have apart : j ≠ i := fun same => other (congrArg some same)
      unfold Halts goOn move
      dsimp only
      rw [Function.update_of_ne apart]
      exact h

theorem wait?_eq_some {go : System numWorkers ω α → System numWorkers ω α}
    (h : s.wait? p go = some s') : ∃ passes barrier,
      s.barrier.wait? (Fintype.card (Party numWorkers)) p = some (passes, barrier) ∧
        s' = if passes then go (s.withBarrier barrier) else s.withBarrier barrier := by
  have parties : Fintype.card (Party numWorkers) = numWorkers + 1 := by
    rw [Fintype.card_option, Fintype.card_fin]
  obtain ⟨⟨passes, barrier⟩, hw, rfl⟩ := Option.map_eq_some_iff.mp h
  exact ⟨passes, barrier, parties ▸ hw, rfl⟩

theorem waits_of_wait?_eq_none {go : System numWorkers ω α → System numWorkers ω α}
    (h : s.wait? p go = none) : s.barrier.Waits p :=
  Barrier.wait?_eq_none_iff.mp (Option.map_eq_none_iff.mp h)

theorem wait?_congr {go go' : System numWorkers ω α → System numWorkers ω α}
    (h : ∀ barrier, go (s.withBarrier barrier) = go' (s.withBarrier barrier)) :
    s.wait? p go = s.wait? p go' := by
  unfold wait?
  refine congrArg (Option.map · _) (funext fun ⟨passes, barrier⟩ => ?_)
  cases passes with
  | false => rfl
  | true => exact h barrier

/-- A worker that waits goes on to the next place. -/
theorem wait?_move {i : Fin numWorkers} {next : Worker.Place α} (h : (s.workers i).next? = some next) :
    s.wait? (some i) (System.move i next) = s.wait? (some i) (System.goOn (some i)) :=
  wait?_congr fun barrier => by
    change _ = System.move i ((s.workers i).next?.getD (s.workers i)) _
    rw [h]
    rfl

/-- So does the coordinator. -/
theorem wait?_coordinator {next : Portfolio.Place numWorkers α} (h : s.coordinator.next? = some next) :
    s.wait? none ({ · with coordinator := next }) = s.wait? none (System.goOn none) :=
  wait?_congr fun barrier => by
    change _ = ({ s with barrier, coordinator := s.coordinator.next?.getD s.coordinator } :
      System numWorkers ω α)
    rw [h]
    rfl

end System

/-! ## What a party does -/

section
variable (P : Protocol numWorkers ω α)

/-- What a party does by itself, away from the barrier. -/
inductive Does (s : System numWorkers ω α) : Party numWorkers → System numWorkers ω α → Prop
  /-- A worker reads what it is told, and searches or stops. -/
  | read {i : Fin numWorkers} (place : s.workers i = .reading) :
    Does s (some i)
      { s.move i (if s.control.finished then .stopped else .searching s.control.bound) with
        log := s.log ++ [.read i s.control] }
  | searched {i : Fin numWorkers} {bound : Option Int} (place : s.workers i = .searching bound) :
    Does s (some i)
      { s.move i (.reporting (P.search (s.states i) bound).1) with
        states := Function.update s.states i (P.search (s.states i) bound).2
        log := s.log ++ [.searched i bound] }
  /-- It leaves its report. -/
  | wrote {i : Fin numWorkers} {report : Report α} (place : s.workers i = .reporting report) :
    Does s (some i)
      { s.move i .reported with
        slots := Function.update s.slots i report
        log := s.log ++ [.wrote i report] }
  /-- The coordinator looks at the incumbent. -/
  | asked (place : s.coordinator = .asking) :
    Does s none { s with coordinator := .publishing s.incumbent.bound }
  | published {bound : Option Int} (place : s.coordinator = .publishing bound) :
    Does s none
      { s with
        coordinator := .published
        control := { s.control with bound }
        log := s.log ++ [.published bound] }
  | counted (place : s.coordinator = .counting) :
    Does s none
      { s with
        coordinator := .collecting (List.finRange numWorkers) []
        numRounds := s.numRounds + 1 }
  | took {i : Fin numWorkers} {left : List (Fin numWorkers)} {statuses : List Status}
      (place : s.coordinator = .collecting (i :: left) statuses) :
    Does s none
      { s with
        coordinator := .merging i (s.slots i) (s.slots i).solutions left statuses
        slots := Function.update s.slots i {}
        log := s.log ++ [.took i (s.slots i)] }
  | merged {i : Fin numWorkers} {report : Report α} {solution : Reported α} {rest : List (Reported α)}
      {left : List (Fin numWorkers)} {statuses : List Status}
      (place : s.coordinator = .merging i report (solution :: rest) left statuses) :
    Does s none
      { s with
        coordinator := .merging i report rest left statuses
        incumbent := s.incumbent.consider solution
        log := s.log ++ [.merged solution (s.incumbent.accepts solution)] }
  /-- It notes what else a report says. -/
  | noted {i : Fin numWorkers} {report : Report α} {left : List (Fin numWorkers)} {statuses : List Status}
      (place : s.coordinator = .merging i report [] left statuses) :
    Does s none
      { s with
        coordinator := .collecting left (statuses ++ [report.status])
        statistics := Function.update s.statistics i report.statistics }
  /-- It knows the statuses of all workers, and goes on or finishes. -/
  | judged {statuses : List Status} (place : s.coordinator = .collecting [] statuses) :
    Does s none
      { s with
        coordinator := match Portfolio.verdict? (P.limits s.numRounds) statuses with
          | some verdict => .finishing verdict
          | none => .asking }
  | finished {verdict : Verdict} (place : s.coordinator = .finishing verdict) :
    Does s none
      { s with
        coordinator := .finished verdict
        control := { s.control with finished := true } }

end

section
variable {P : Protocol numWorkers ω α} {s s' : System numWorkers ω α} {p : Party numWorkers}

theorem workerStep?_cases (P : Protocol numWorkers ω α) (s : System numWorkers ω α) (i : Fin numWorkers) :
    s.Halts (some i) ∧ P.workerStep? i s = s.wait? (some i) (System.goOn (some i)) ∨
      (∃ s', P.Does s (some i) s' ∧ P.workerStep? i s = some s') ∨
        s.ended (some i) = true ∧ P.workerStep? i s = none := by
  have waits {next : Worker.Place α} (h : (s.workers i).next? = some next) :
      s.Halts (some i) ∧ s.wait? (some i) (System.move i next) =
        s.wait? (some i) (System.goOn (some i)) :=
    ⟨fun away => Option.some_ne_none next (h.symm.trans away), System.wait?_move h⟩
  unfold workerStep?
  cases place : s.workers i with
  | starting => exact .inl (waits (congrArg Worker.Place.next? place))
  | reported => exact .inl (waits (congrArg Worker.Place.next? place))
  | reading => exact .inr (.inl ⟨_, .read place, rfl⟩)
  | searching bound => exact .inr (.inl ⟨_, .searched place, rfl⟩)
  | reporting report => exact .inr (.inl ⟨_, .wrote place, rfl⟩)
  | stopped =>
    refine .inr (.inr ⟨?_, rfl⟩)
    unfold System.ended
    dsimp only
    rw [place]

theorem coordinatorStep?_cases (P : Protocol numWorkers ω α) (s : System numWorkers ω α) :
    s.Halts none ∧ P.coordinatorStep? s = s.wait? none (System.goOn none) ∨
      (∃ s', P.Does s none s' ∧ P.coordinatorStep? s = some s') ∨
        s.ended none = true ∧ P.coordinatorStep? s = none := by
  have waits {next : Portfolio.Place numWorkers α} (h : s.coordinator.next? = some next) :
      s.Halts none ∧ s.wait? none ({ · with coordinator := next }) = s.wait? none (System.goOn none) :=
    ⟨fun away => Option.some_ne_none next (h.symm.trans away), System.wait?_coordinator h⟩
  unfold coordinatorStep?
  cases place : s.coordinator with
  | published => exact .inl (waits (congrArg Portfolio.Place.next? place))
  | idle => exact .inl (waits (congrArg Portfolio.Place.next? place))
  | finished verdict => exact .inl (waits (congrArg Portfolio.Place.next? place))
  | asking => exact .inr (.inl ⟨_, .asked place, rfl⟩)
  | publishing bound => exact .inr (.inl ⟨_, .published place, rfl⟩)
  | counting => exact .inr (.inl ⟨_, .counted place, rfl⟩)
  | collecting left statuses =>
    cases left with
    | nil =>
      refine .inr (.inl ⟨_, .judged place, ?_⟩)
      dsimp only
      cases Portfolio.verdict? (P.limits s.numRounds) statuses <;> rfl
    | cons i left => exact .inr (.inl ⟨_, .took place, rfl⟩)
  | merging i report rest left statuses =>
    cases rest with
    | nil => exact .inr (.inl ⟨_, .noted place, rfl⟩)
    | cons solution rest => exact .inr (.inl ⟨_, .merged place, rfl⟩)
  | finishing verdict => exact .inr (.inl ⟨_, .finished place, rfl⟩)
  | done verdict =>
    refine .inr (.inr ⟨?_, rfl⟩)
    unfold System.ended
    rw [place]

/-- **A party comes to the barrier, does something by itself, or is at its end.** -/
theorem step?_cases (P : Protocol numWorkers ω α) (s : System numWorkers ω α) (p : Party numWorkers) :
    s.Halts p ∧ P.step? p s = s.wait? p (System.goOn p) ∨
      (∃ s', P.Does s p s' ∧ P.step? p s = some s') ∨ s.ended p = true ∧ P.step? p s = none := by
  cases p with
  | none => exact coordinatorStep?_cases P s
  | some i => exact workerStep?_cases P s i

/-- A party that went on came from the barrier, or did something by itself. -/
theorem waited_or_did (hs : P.step? p s = some s') :
    s.Halts p ∧ s.wait? p (System.goOn p) = some s' ∨ P.Does s p s' := by
  obtain ⟨halts, step⟩ | ⟨t, does, step⟩ | ⟨-, step⟩ := step?_cases P s p
  · exact .inl ⟨halts, step.symm.trans hs⟩
  · exact .inr (Option.some.inj (step.symm.trans hs) ▸ does)
  · cases step.symm.trans hs

/-- A party that cannot go on waits for the others, or is at its end. -/
theorem waits_of_step?_eq_none (h : P.step? p s = none) : s.barrier.Waits p ∨ s.ended p = true := by
  obtain ⟨-, step⟩ | ⟨t, -, step⟩ | ⟨ended, -⟩ := step?_cases P s p
  · exact .inl (System.waits_of_wait?_eq_none (step.symm.trans h))
  · cases step.symm.trans h
  · exact .inr ended

end

end Protocol
end BranchBound
