import BranchBound.Proofs.Budget
import BranchBound.Proofs.Resumption

/-! # Choice points and their records

A step opens a choice point, goes on at one after the deeper ones were left, leaves all of them, or does
nothing to them (`Search.Moves`).  So a record of the open choice points is kept by a look at the search
before and after each step (`Search.recorded`): the values of each choice point in the order in which they
are tried, and those that were tried so far.

**The records fit the choice points** (`Moves.fits`): each has distinct values and is at one of them, with
those behind it still to be tried.  So none is tried twice (`Register.Fits.tried_once`). -/
namespace BranchBound
namespace Search
variable {π κ : Type}

/-! ## Registers -/

/-- A record of a choice point. -/
structure Register where
  /-- The values in the order in which they are tried. -/
  order : List Int
  /-- Those that were tried, latest first. -/
  tried : List Int
  deriving Repr, DecidableEq

namespace Register

/-- The record of a choice point at its first value. -/
def opened (c : ChoicePoint) : Register := ⟨c.current :: c.untried, [c.current]⟩

/-- The record when one more value is tried. -/
def add (r : Register) (value : Int) : Register := { r with tried := value :: r.tried }

/-- A choice point is where its record says: its values are distinct, it is at one of them with the rest
still to be tried, and what was tried comes before the rest. -/
structure Fits (r : Register) (c : ChoicePoint) : Prop where
  nodup : r.order.Nodup
  suffix : (c.current :: c.untried) <:+ r.order
  sublist : (r.tried.reverse ++ c.untried).Sublist r.order

variable {r : Register} {c d : ChoicePoint} {allowed : Int → Bool}

theorem fits_opened (h : (c.current :: c.untried).Nodup) : (opened c).Fits c :=
  ⟨h, List.suffix_rfl, List.Sublist.refl _⟩

/-- **Going on moves forward in the order**, to a value that was not tried. -/
theorem Fits.add (h : r.Fits c) (next : c.advance? allowed = some d) : (r.add d.current).Fits d := by
  obtain ⟨-, -, -, suffix, -⟩ := ChoicePoint.advance?_eq_some next
  refine ⟨h.nodup, suffix.trans ((List.suffix_cons _ _).trans h.suffix), ?_⟩
  have later : (r.tried.reverse ++ d.current :: d.untried).Sublist (r.tried.reverse ++ c.untried) :=
    suffix.sublist.append_left _
  show ((d.current :: r.tried).reverse ++ d.untried).Sublist r.order
  rw [List.reverse_cons, List.append_assoc]
  exact later.trans h.sublist

/-- The next value to be tried has a position in the order, behind that of the current one. -/
theorem Fits.exists_next (h : r.Fits c) : ∃ next, 0 < next ∧
    r.order[next - 1]? = some c.current ∧ r.order.drop next = c.untried := by
  obtain ⟨before, order⟩ := h.suffix
  refine ⟨before.length + 1, Nat.succ_pos _, ?_, ?_⟩
  · rw [← order, Nat.add_sub_cancel, List.getElem?_append_right (Nat.le_refl _), Nat.sub_self]
    rfl
  · rw [← order, List.drop_append]
    simp

/-- No value was tried twice, and none that was tried is to be tried again. -/
theorem Fits.tried_once (h : r.Fits c) : r.tried.Nodup ∧ (∀ x ∈ r.tried, x ∈ r.order) ∧
    ∀ x ∈ r.tried, x ∉ c.untried := by
  have apart := List.nodup_append.mp (h.sublist.nodup h.nodup)
  refine ⟨List.nodup_reverse.mp apart.1, fun x hx => ?_, fun x hx untried => ?_⟩
  · exact h.sublist.subset (List.mem_append_left _ (List.mem_reverse.mpr hx))
  · exact apart.2.2 x (List.mem_reverse.mpr hx) x untried rfl

end Register

/-- The records of the open choice points after a step: a new choice point gets a record, the records of
those that were left go, and a decision at a choice point that was there is added to its record. -/
def recorded (before after : Search π) (rs : List Register) : List Register :=
  match after.choicePoints with
  | [] => []
  | c :: above =>
    if before.choicePoints.length ≤ above.length then .opened c :: rs
    else
      let kept := rs.drop (before.choicePoints.length - (above.length + 1))
      if after.counts.numDecisions = before.counts.numDecisions then kept
      else kept.modify 0 (·.add c.current)

/-! ## What a step does to the choice points -/

/-- What a step does to the choice points. -/
inductive Moves (before after : Search π) : Prop
  | keeps (choicePoints : after.choicePoints = before.choicePoints)
    (made : after.counts.numDecisions = before.counts.numDecisions)
  /-- A choice point is opened below the others. -/
  | opens {c : ChoicePoint} (choicePoints : after.choicePoints = c :: before.choicePoints)
  /-- The deepest choice points are left, and the next value of another one is decided. -/
  | advances {left above : List ChoicePoint} {c d : ChoicePoint} {allowed : Int → Bool}
    (stood : before.choicePoints = left ++ c :: above) (next : c.advance? allowed = some d)
    (choicePoints : after.choicePoints = d :: above)
    (made : after.counts.numDecisions = before.counts.numDecisions + 1)
  | leaves (choicePoints : after.choicePoints = [])

/-- **The records are kept up to date**: whatever a step does, they fit the choice points after it. -/
theorem Moves.fits {before after : Search π} {rs : List Register} (h : Moves before after)
    (fits : List.Forall₂ Register.Fits rs before.choicePoints)
    (nodup : ∀ c ∈ after.choicePoints, (c.current :: c.untried).Nodup) :
    List.Forall₂ Register.Fits (recorded before after rs) after.choicePoints := by
  unfold recorded
  cases h with
  | keeps choicePoints made =>
    rw [choicePoints]
    cases stood : before.choicePoints with
    | nil => exact .nil
    | cons c above =>
      rw [stood] at fits
      simpa [made, if_neg (Nat.not_succ_le_self above.length)] using fits
  | @opens c choicePoints =>
    rw [choicePoints] at nodup ⊢
    simp only [Nat.le_refl, if_true]
    exact .cons (Register.fits_opened (nodup c List.mem_cons_self)) fits
  | @advances left above c d allowed stood next choicePoints made =>
    rw [choicePoints]
    have deeper : ¬ before.choicePoints.length ≤ above.length := by
      rw [stood, List.length_append, List.length_cons]
      omega
    have others : before.choicePoints.length - (above.length + 1) = left.length := by
      rw [stood, List.length_append, List.length_cons]
      omega
    have kept := List.forall₂_drop left.length fits
    rw [stood, List.drop_left] at kept
    simp only [if_neg deeper, others, made, Nat.succ_ne_self, if_false]
    obtain ⟨first, others, fits, rest, records⟩ := List.forall₂_cons_right_iff.mp kept
    rw [records]
    exact .cons (fits.add next) rest
  | leaves choicePoints =>
    rw [choicePoints]
    exact .nil

theorem Undecided.moves {r t : Run π κ} (h : Undecided r t) (p : Phase) :
    Moves r.search { t.search with phase := p } := .keeps h.choicePoints_eq h.made_eq

section
variable [Stopping κ] {r : Run π κ}

/-- Branching opens a choice point. -/
theorem ends_branch_opens : Ends (branch r)
    (fun _ t => ∃ c, t.search.choicePoints = c :: r.search.choicePoints) (fun _ _ => True) := by
  refine ends_branch_of (fun _ _ => trivial) (fun _ _ => trivial) (fun _ _ _ _ _ => trivial)
    fun v selector source value rest _ _ => ?_
  exact (ends_decide_decides v value).mono (fun _ _ h => ⟨_, h.2⟩) fun _ _ _ => trivial

variable [Propagator π]

/-- Going back leaves all choice points, or goes on at one of them. -/
theorem ends_backtrack_moves {cs : List ChoicePoint} (hcs : r.search.choicePoints = cs) :
    Ends (backtrack cs r)
      (fun _ t => t.search.choicePoints = [] ∨ ∃ left c above d allowed, cs = left ++ c :: above ∧
        c.advance? allowed = some d ∧ t.search.choicePoints = d :: above ∧ t.made = r.made + 1)
      (fun _ _ => True) := by
  induction cs generalizing r with
  | nil => exact .inl hcs
  | cons c above ih =>
    refine ends_backtrack_cons ((decidesNothing_refute c r).mono
      (fun _ t before => ⟨fun _ => ?_, fun d _ next => ?_⟩) fun _ _ _ => trivial)
    · refine (ih (r := t.withChoicePoints above) rfl).mono_ok fun p u moved => ?_
      rcases moved with gone | ⟨left, c', above', d, allowed, stood, next, choicePoints, made⟩
      · exact .inl gone
      · refine .inr ⟨c :: left, c', above', d, allowed, ?_, next, choicePoints, ?_⟩
        · rw [stood, List.cons_append]
        · exact made.trans (congrArg (· + 1) before.made_eq)
    · refine (ends_decide_decides (r := t.withChoicePoints (d :: above)) d.decision d.current).mono
        (fun _ u h => .inr ⟨[], c, above, d, _, rfl, next, h.2, ?_⟩) fun _ _ _ => trivial
      exact h.1.made_eq.trans (congrArg (· + 1) before.made_eq)

/-- **Every step moves at the choice points in one of four ways.** -/
theorem ends_step_moves (r : Run π κ) :
    Ends (step r) (fun _ t => Moves r.search t.search) (fun _ _ => True) := by
  cases phase : r.search.phase with
  | propagating =>
    rw [step_of_propagating phase]
    refine ((decidesNothing_propagate r).mono (fun _ _ => id) fun _ _ _ => trivial).bind ?_
    intro ok t before
    exact before.moves _
  | quiescent =>
    cases stop : (Stopping.ask r.condition).1 with
    | true =>
      rw [step_of_asked phase stop]
      exact .keeps rfl rfl
    | false =>
      rw [step_of_quiescent phase stop]
      cases allFixed r.search.store r.search.decisions with
      | error cause => trivial
      | ok fixed => exact .keeps rfl rfl
  | branching =>
    rw [step_of_branching phase]
    refine ends_branch_opens.bind fun _ t opened => ?_
    obtain ⟨c, choicePoints⟩ := opened
    exact .opens choicePoints
  | complete =>
    rw [step_of_complete phase]
    refine ((decidesNothing_record r).mono (fun _ _ => id) fun _ _ _ => trivial).bind ?_
    intro _ t before
    exact before.moves _
  | failed =>
    rw [step_of_failed phase]
    refine (ends_backtrack_moves rfl).bind fun p t moved => ?_
    rw [ends_bind, ends_enter]
    rcases moved with gone | ⟨left, c, above, d, allowed, stood, next, choicePoints, made⟩
    · exact .leaves gone
    · exact .advances stood next choicePoints made
  | exhausted =>
    rw [step_of_exhausted phase]
    exact .keeps rfl rfl

end

end Search
end BranchBound
