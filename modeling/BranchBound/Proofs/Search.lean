import BranchBound.Proofs.Branching
import BranchBound.Proofs.Engine

/-! # Where a search stands

The choice points of a search are the rungs of a ladder (`Search.Ladder`): each was opened one level
above the next, where the decisions of all others above it were fixed already.  A search *stands* on
a ladder (`Search.Stands`) if its engine is at the level of the ladder, in some state that it can
come to.

Every operation of a search is described here by where the search stands before and after it, by
what it does to the assignments that are still to be found, and by what can make it fail
(`Search.Excuse`): an objective or a decision that is no variable, a propagator that breaks down,
or a variable that is open although all decisions are fixed. -/
namespace BranchBound
namespace Search
variable {π κ : Type}

/-! ## Ladders -/

/-- A choice point above others, in a space in which it was opened. -/
structure Rung (decisions : List Var) (s : Space) (c : ChoicePoint) (above : List ChoicePoint) :
    Prop where
  mem : c.decision ∈ decisions
  known : c.decision < s.store.numVars
  fresh : c.decision ∉ above.map ChoicePoint.decision
  nodup : (c.current :: c.untried).Nodup
  length_le : c.untried.length + 1 ≤ (s.store.domain c.decision).width
  fixed : ∀ b ∈ above, (s.rewind c.checkpoint).store.isFixed b.decision = true

/-- Choice points, deepest first, each of which was opened one level above the next. -/
inductive Ladder (decisions : List Var) (base : Nat) (s : Space) : List ChoicePoint → Nat → Prop
  | nil : Ladder decisions base s [] base
  | cons {c : ChoicePoint} {above : List ChoicePoint} (h : Ladder decisions base s above c.checkpoint)
    (rung : Rung decisions s c above) : Ladder decisions base s (c :: above) (c.checkpoint + 1)

namespace Ladder
variable {decisions : List Var} {base level : Nat} {s t : Space} {cs : List ChoicePoint}

/-- What a ladder says of its deepest choice point. -/
theorem of_cons {c : ChoicePoint} {above : List ChoicePoint}
    (h : Ladder decisions base s (c :: above) level) :
    level = c.checkpoint + 1 ∧ Ladder decisions base s above c.checkpoint ∧ Rung decisions s c above := by
  cases h with
  | cons h rung => exact ⟨rfl, h, rung⟩

theorem base_le (h : Ladder decisions base s cs level) : base ≤ level := by
  induction h with
  | nil => exact Nat.le_refl _
  | cons _ _ ih => exact Nat.le_succ_of_le ih

theorem checkpoint_lt (h : Ladder decisions base s cs level) : ∀ c ∈ cs, c.checkpoint < level := by
  induction h with
  | nil => exact fun c hc => by cases hc
  | @cons c above _ _ ih =>
    intro b hb
    rcases List.mem_cons.mp hb with rfl | hb
    · exact Nat.lt_succ_self _
    · exact Nat.lt_succ_of_lt (ih b hb)

/-- A ladder holds in every space that returns to the same. -/
theorem congr (h : Ladder decisions base s cs level) (rewind : ∀ k, k < level → t.rewind k = s.rewind k)
    (numVars : t.store.numVars = s.store.numVars)
    (width : ∀ v, (t.store.domain v).width = (s.store.domain v).width) :
    Ladder decisions base t cs level := by
  induction h with
  | nil => exact .nil
  | @cons c above h rung ih =>
    refine .cons (ih fun k hk => rewind k (Nat.lt_succ_of_lt hk)) { rung with
      known := numVars.symm ▸ rung.known
      length_le := (width c.decision).symm ▸ rung.length_le
      fixed := ?_ }
    rw [rewind c.checkpoint (Nat.lt_succ_self _)]
    exact rung.fixed

theorem nodup (h : Ladder decisions base s cs level) : (cs.map ChoicePoint.decision).Nodup := by
  induction h with
  | nil => exact List.nodup_nil
  | cons _ rung ih => exact List.nodup_cons.mpr ⟨rung.fresh, ih⟩

theorem subset (h : Ladder decisions base s cs level) :
    cs.map ChoicePoint.decision ⊆ decisions := by
  induction h with
  | nil => exact List.nil_subset _
  | cons _ rung ih => exact List.cons_subset.mpr ⟨rung.mem, ih⟩

/-- There are no more choice points than decisions. -/
theorem length_le (h : Ladder decisions base s cs level) : cs.length ≤ decisions.length := by
  have := (List.subperm_of_subset h.nodup h.subset).length_le
  rwa [List.length_map] at this

end Ladder

/-! ## Assignments that are still to be found -/

/-- An assignment at least as good is known. -/
def Beaten (objective : Var) (best : Option Int) (a : Assignment) : Prop :=
  ∃ b, best = some b ∧ b ≤ a objective

/-- An assignment is still to be found at a choice point. -/
def Pending (s : Space) (cs : List ChoicePoint) (a : Assignment) : Prop :=
  ∃ c ∈ cs, (s.rewind c.checkpoint).store.Admits a ∧ a c.decision ∈ c.untried

theorem Pending.congr {s t : Space} {cs : List ChoicePoint} {a : Assignment} (h : Pending s cs a)
    (rewind : ∀ c ∈ cs, t.rewind c.checkpoint = s.rewind c.checkpoint) : Pending t cs a := by
  obtain ⟨c, hc, ha, hu⟩ := h
  exact ⟨c, hc, by rw [rewind c hc]; exact ha, hu⟩

/-- The objective is bounded by the integer before the best known. -/
def Bounded (s : Search π) : Prop := ∀ b, s.best = some b → s.store.upper s.objective ≤ Word.pred b

/-- What a search starts from. -/
structure Root (π : Type) where
  engine : Engine π
  objective : Var
  decisions : List Var

/-- What operations below a choice point leave alone. -/
structure Steady (r r' : Run π κ) : Prop where
  choicePoints_eq : r'.search.choicePoints = r.search.choicePoints
  best_eq : r'.search.best = r.search.best
  solutions_eq : r'.solutions = r.solutions

theorem Steady.refl {r : Run π κ} : Steady r r := ⟨rfl, rfl, rfl⟩

theorem Steady.trans {r r' r'' : Run π κ} (h : Steady r r') (h' : Steady r' r'') : Steady r r'' :=
  ⟨h'.choicePoints_eq.trans h.choicePoints_eq, h'.best_eq.trans h.best_eq,
    h'.solutions_eq.trans h.solutions_eq⟩

/-! ## Operations, one by one -/

section
variable {s : Search π} {b : Int}

/-! Tightening the bound leaves everything else alone. -/

/-- A solution that is better than the best known becomes the best known. -/
theorem tighten_of_better {objective : Int} (better : ∀ b, s.best = some b → objective < b) :
    s.tighten objective = { s with best := some objective } := by
  have all : s.best.all (objective < ·) = true := by
    cases h : s.best with
    | none => rfl
    | some b => simpa using better b h
  exact if_pos all

/-- A bound that is no better than the best known changes nothing. -/
theorem tighten_of_le {known : Int} (hb : s.best = some known) (le : known ≤ b) : s.tighten b = s := by
  refine if_neg ?_
  rw [hb]
  simpa using le

/-- What was beaten stays so, and what is no better than the new bound is beaten now. -/
theorem beaten_tighten {v : Var} {a : Assignment} (h : Beaten v s.best a ∨ b ≤ a v) :
    Beaten v (s.tighten b).best a := by
  by_cases better : ∀ known, s.best = some known → b < known
  · rw [tighten_of_better better]
    refine ⟨b, rfl, ?_⟩
    rcases h with ⟨known, hb, le⟩ | le
    · exact Int.le_trans (Int.le_of_lt (better known hb)) le
    · exact le
  · push Not at better
    obtain ⟨known, hb, worse⟩ := better
    have worse : known ≤ b := by omega
    rw [tighten_of_le hb worse]
    exact h.elim id fun le => ⟨known, hb, Int.le_trans worse le⟩

@[simp] theorem phase_tighten : (s.tighten b).phase = s.phase := by
  unfold tighten
  split <;> rfl

@[simp] theorem choicePoints_tighten : (s.tighten b).choicePoints = s.choicePoints := by
  unfold tighten
  split <;> rfl

@[simp] theorem engine_tighten : (s.tighten b).engine = s.engine := by
  unfold tighten
  split <;> rfl

@[simp] theorem counts_tighten : (s.tighten b).counts = s.counts := by
  unfold tighten
  split <;> rfl

end

section
variable {r : Run π κ}

/-- The run with another engine. -/
def Run.withEngine (r : Run π κ) (e : Engine π) : Run π κ :=
  { r with search := { r.search with engine := e } }

/-- The run with the domains of a store. -/
def Run.withStore (r : Run π κ) (store : Store) : Run π κ :=
  r.withEngine (r.search.engine.withStore store)

@[simp] theorem ends_current {Q : Search π → Run π κ → Prop} {E : SearchError → Run π κ → Prop} :
    Ends (current r) Q E ↔ Q r.search r := Iff.rfl

@[simp] theorem ends_onSearch {f : Search π → Search π} {Q : Unit → Run π κ → Prop}
    {E : SearchError → Run π κ → Prop} :
    Ends (onSearch f r) Q E ↔ Q () { r with search := f r.search } := Iff.rfl

@[simp] theorem ends_enter {p : Phase} {Q : Unit → Run π κ → Prop}
    {E : SearchError → Run π κ → Prop} :
    Ends (enter p r) Q E ↔ Q () { r with search := { r.search with phase := p } } := Iff.rfl

@[simp] theorem ends_count {f : Statistics → Statistics} {Q : Unit → Run π κ → Prop}
    {E : SearchError → Run π κ → Prop} :
    Ends (count f r) Q E ↔
      Q () { r with search := { r.search with counts := f r.search.counts } } := Iff.rfl

theorem ends_narrow {f : Store.Narrowing} {v : Var} {keep : Int → Prop}
    (h : r.search.store.Keeps v keep f) :
    Ends (narrow f r)
      (fun answer r' => ∃ store, r' = r.withStore store ∧
        match answer with
        | .ok changed => r.search.store.Narrowed v keep changed store
        | .error _ => store = r.search.store ∧ v < r.search.store.numVars ∧
          ∀ y, r.search.store.contains v y = true → ¬ keep y)
      (fun cause _ => cause = .fault .outOfRange ∧ r.search.store.numVars ≤ v) := by
  unfold narrow
  rw [ends_bind, ends_current]
  dsimp only
  cases hr : f r.search.store with
  | ok changed store =>
    rw [Store.Keeps, hr] at h
    exact ⟨store, rfl, h⟩
  | error halt store =>
    rw [Store.Keeps, hr] at h
    cases h with
    | empty hv h => exact ⟨_, rfl, rfl, hv, h⟩
    | unknown h => exact ⟨rfl, Store.domain?_eq_none_iff.mp h⟩

end

theorem current_bind {α : Type} {f : Search π → Step π κ α} {r : Run π κ} :
    (current >>= f) r = f r.search r := rfl

theorem ask_bind [Stopping κ] {α : Type} {f : Bool → Step π κ α} {r : Run π κ} :
    (ask >>= f) r = f (Stopping.ask r.condition).1
      { r with condition := (Stopping.ask r.condition).2 } := rfl

variable [Propagator π]

/-! ## Steps, phase by phase -/

section
variable [Stopping κ] {r : Run π κ}

theorem step_of_propagating (phase : r.search.phase = .propagating) : step r =
    (do enter (if ← propagate then .quiescent else .failed); return true : Step π κ Bool) r := by
  unfold step
  rw [current_bind, phase]

/-- A search that is asked to stop bounds the objective and propagates when it is resumed. -/
theorem step_of_asked (phase : r.search.phase = .quiescent) (stop : (Stopping.ask r.condition).1 = true) :
    step r = .ok false { r with
      search := { r.search with phase := .propagating }
      condition := (Stopping.ask r.condition).2 } := by
  unfold step
  rw [current_bind, phase]
  dsimp only
  rw [ask_bind, stop]
  rfl

theorem step_of_quiescent (phase : r.search.phase = .quiescent)
    (goes : (Stopping.ask r.condition).1 = false) : step r =
      match allFixed r.search.store r.search.decisions with
      | .error cause => .error (.fault cause) { r with condition := (Stopping.ask r.condition).2 }
      | .ok fixed => .ok true { r with
        search := { r.search with phase := if fixed then .complete else .branching }
        condition := (Stopping.ask r.condition).2 } := by
  unfold step
  rw [current_bind, phase]
  dsimp only
  rw [ask_bind, goes]
  cases allFixed r.search.store r.search.decisions <;> rfl

theorem step_of_branching (phase : r.search.phase = .branching) :
    step r = (do branch; enter .propagating; return true : Step π κ Bool) r := by
  unfold step
  rw [current_bind, phase]

theorem step_of_complete (phase : r.search.phase = .complete) :
    step r = (do record; enter .failed; return true : Step π κ Bool) r := by
  unfold step
  rw [current_bind, phase]

theorem step_of_failed (phase : r.search.phase = .failed) : step r =
    (do enter (← backtrack r.search.choicePoints); return true : Step π κ Bool) r := by
  unfold step
  rw [current_bind, phase]

theorem step_of_exhausted (phase : r.search.phase = .exhausted) : step r = .ok false r := by
  unfold step
  rw [current_bind, phase]
  rfl

end

/-! ## What can go wrong -/

/-- Why a search may break down. -/
inductive Excuse (R : Root π) : SearchError → Prop
  /-- The objective or a decision is not a variable. -/
  | unknown {v : Var} {cause : Fault} (h : v = R.objective ∨ v ∈ R.decisions)
    (hv : R.engine.store.numVars ≤ v) : Excuse R (.fault cause)
  /-- A propagator broke down. -/
  | fault {e e' : Engine π} {cause : Fault} (h : R.engine.Run .busy e)
    (ht : e.turn = .error (.fault cause) e') : Excuse R (.fault cause)
  /-- All decisions are fixed, but not all variables. -/
  | unfixed {e : Engine π} {v : Var} (h : R.engine.Run .quiet e)
    (fixed : ∀ d ∈ R.decisions, e.store.isFixed d = true) (hv : v < e.store.numVars)
    (hopen : e.store.isFixed v = false) : Excuse R (.breakdown (.unfixedLeaf v R.objective))

/-! ## Standing -/

/-- What a search runs on stays the same, its engine is in a mode, and its level is that of a
ladder. -/
structure Stands (R : Root π) (s : Search π) (m : Engine.Mode) (cs : List ChoicePoint) : Prop where
  run : R.engine.Run m s.engine
  objective_eq : s.objective = R.objective
  decisions_eq : s.decisions = R.decisions
  selector_eq : s.selector.decisions = R.decisions
  forgotten : s.selector.breaker.best = none
  ladder : Ladder R.decisions R.engine.level s.engine.space cs s.engine.level
  fixed : ∀ c ∈ cs, s.store.isFixed c.decision = true

variable {R : Root π} {s : Search π} {r : Run π κ} {m m' : Engine.Mode} {cs : List ChoicePoint}

namespace Stands

/-- A search stands where it stood as long as its engine does not return. -/
theorem keeps (h : Stands R s m cs) {e : Engine π} (hk : s.engine.Keeps e)
    (hr : R.engine.Run m' e) : Stands R { s with engine := e } m' cs :=
  { h with
    run := hr
    ladder := by
      rw [show Engine.level _ = s.engine.level from hk.below.level_eq]
      exact h.ladder.congr hk.below.rewind_eq hk.below.numVars_eq hk.below.width_eq
    fixed := fun c hc =>
      Store.isFixed_of_within hk.valid.space.store (hk.within _) (h.fixed c hc) }

/-- A search stands where it stood whatever bound it is given. -/
theorem tighten (h : Stands R s m cs) (b : Int) : Stands R (s.tighten b) m cs := by
  unfold Search.tighten
  split
  · exact { h with }
  · exact h

variable [LawfulPropagator π] (hR : R.engine.Valid)
include hR

theorem inside (h : Stands R s m cs) : Engine.Run.Inside R.engine m s.engine := h.run.inside hR

theorem valid (h : Stands R s m cs) : s.engine.Valid := (h.inside hR).valid

end Stands

/-! ## Operations on the engine -/

theorem ends_refuted {source : Option Nat} :
    Ends (refuted source r)
      (fun _ r' => Steady r r' ∧ r'.search.engine = r.search.engine ∧
        ∀ m cs, Stands R r.search m cs → Stands R r'.search .dead cs)
      (fun _ _ => False) := by
  unfold refuted
  rw [ends_bind, ends_count, ends_bind, ends_current]
  exact ⟨⟨rfl, rfl, rfl⟩, rfl, fun m cs h => { h with run := .refuted h.run }⟩

variable [LawfulPropagator π] (hR : R.engine.Valid)

/-- What bounding the objective and propagating come to: unless the domains were refuted, the engine
is in one of the modes `M`, and an assignment that is spared is gone only if it is beaten. -/
structure Lowered (R : Root π) (M : Engine.Mode → Prop) (r : Run π κ) (cs : List ChoicePoint)
    (ok : Bool) (r' : Run π κ) : Prop where
  steady : Steady r r'
  below : r.search.engine.space.SameBelow r'.search.engine.space
  stands : ∃ m, Stands R r'.search m cs ∧ (ok = true → M m)
  bounded : ok = true → r'.search.Bounded
  spared : ∀ a, R.engine.Spares a → r.search.store.Admits a →
    Beaten R.objective r.search.best a ∨ (ok = true ∧ r'.search.store.Admits a)

include hR

theorem ends_bound (h : Stands R r.search m cs) (hm : m.Idle) :
    Ends (bound r) (Lowered R Engine.Mode.Idle r cs) (fun cause _ => Excuse R cause) := by
  unfold bound
  rw [ends_bind, ends_current]
  cases hb : r.search.best with
  | none =>
    refine ⟨.refl, .refl, ⟨m, h, fun _ => hm⟩, fun _ b hb' => ?_, fun a _ ha => .inr ⟨rfl, ha⟩⟩
    rw [hb] at hb'
    cases hb'
  | some best =>
    have hs := (h.valid hR).space.store
    dsimp only
    rw [ends_bind]
    refine (ends_narrow (Store.keeps_setUpper hs)).mono ?_ ?_
    · rintro (cause | changed) r' ⟨store, rfl, narrowed⟩
      · obtain ⟨rfl, hv, none⟩ := narrowed
        dsimp only
        rw [ends_bind]
        refine (ends_refuted (R := R)).mono ?_ fun _ _ => False.elim
        rintro - r' ⟨steady, engine, stands⟩
        refine ⟨steady, engine.symm ▸ .refl, ⟨_, stands m cs h, fun h => by cases h⟩,
          fun h => (by cases h), fun a _ ha => .inl ⟨best, hb, ?_⟩⟩
        have beyond : ¬ a R.objective ≤ Word.pred best := h.objective_eq ▸ none _ (ha _ hv)
        have := Word.le_pred best
        omega
      · have keeps := Engine.keeps_withStore (h.valid hR) narrowed.narrows
        refine ⟨⟨rfl, rfl, rfl⟩, keeps.below,
          ⟨.free, h.keeps keeps (h.run.narrow hm narrowed.narrows), fun _ => .inl rfl⟩,
          fun _ b hb' => ?_, fun a _ ha => ?_⟩
        · obtain rfl : best = b := Option.some.inj (hb.symm.trans hb')
          have upper := (narrowed.contains_iff _).mp
            ((narrowed.narrows.valid hs).contains_upper r.search.objective)
          exact upper.2
        · rcases Int.lt_or_le (a R.objective) best with lt | le
          · have within : a R.objective ≤ Word.pred best :=
              Int.le_trans (Int.le_sub_one_of_lt lt) (Word.le_pred best)
            exact .inr ⟨rfl, narrowed.admits ha (by rw [h.objective_eq]; exact within)⟩
          · exact .inl ⟨best, hb, le⟩
    · rintro cause - ⟨rfl, hv⟩
      refine .unknown (.inl h.objective_eq) ?_
      rw [← (h.inside hR).numVars_eq]
      exact hv

theorem ends_propagate (h : Stands R r.search m cs) (hm : m.Idle) :
    Ends (propagate r) (Lowered R (· = .quiet) r cs) (fun cause _ => Excuse R cause) := by
  unfold propagate
  rw [ends_bind]
  refine (ends_bound hR h hm).mono_ok ?_
  rintro (_ | _) r₁ ⟨steady, below, ⟨m₁, stands, idle⟩, bounded, spared⟩
  · exact ⟨steady, below, ⟨m₁, stands, fun h => by cases h⟩, fun h => (by cases h),
      fun a hs ha => .inl ((spared a hs ha).resolve_right fun h => by cases h.1)⟩
  · replace bounded := bounded rfl
    have ended := stands.run.propagate hR (idle rfl)
    have kept (a : Assignment) (hs : R.engine.Spares a) (ha : r₁.search.store.Admits a) :=
      stands.run.propagate_admits hs (idle rfl) ha
    rw [Bool.not_true, if_neg Bool.false_ne_true, ends_bind, ends_current]
    cases hr : r₁.search.engine.propagate with
    | ok _ e =>
      obtain ⟨run, keeps⟩ := ended.of_ok hr
      refine ⟨steady.trans ⟨rfl, rfl, rfl⟩, below.trans keeps.below,
        ⟨.quiet, stands.keeps keeps run, fun _ => rfl⟩, fun _ b hb => ?_, fun a hs ha => ?_⟩
      · have := Store.bounds_of_contains
          (keeps.within _ _ (keeps.valid.space.store.contains_upper r₁.search.objective))
        exact Int.le_trans this.2 (bounded b hb)
      · exact (spared a hs ha).imp_right fun ha => ⟨rfl, (kept a hs ha.2).of_ok hr⟩
    | error f e =>
      obtain ⟨run, keeps, u, hu, hf⟩ := ended.of_error hr
      cases f with
      | refuted source cause =>
        dsimp only
        rw [ends_bind, ends_onSearch, ends_bind]
        refine (ends_refuted (R := R)).mono ?_ fun _ _ => False.elim
        rintro - r' ⟨steady', engine, stands'⟩
        refine ⟨steady.trans ⟨steady'.choicePoints_eq, steady'.best_eq, steady'.solutions_eq⟩,
          below.trans ?_,
          ⟨_, stands' _ cs (stands.keeps keeps run), fun h => by cases h⟩, fun h => (by cases h),
          fun a hs ha => .inl ((spared a hs ha).resolve_right fun ha => ?_)⟩
        · rw [engine]
          exact keeps.below
        · exact (kept a hs ha.2).of_error hr source cause rfl
      | fault cause => exact .fault hu hf

/-! ## Choice points -/

/-- What a decision at a choice point comes to: the search stands below it, what could be returned to
before can be returned to, and an assignment with the value that was decided is kept. -/
structure Decided (R : Root π) (r : Run π κ) (c : ChoicePoint) (above : List ChoicePoint)
    (r' : Run π κ) : Prop where
  steady : Steady r r'
  stands : Stands R r'.search .free (c :: above)
  rewind_eq : ∀ k, k ≤ c.checkpoint → r'.search.engine.space.rewind k = r.search.engine.space.rewind k
  admits : ∀ a, r.search.store.Admits a → a c.decision = c.current → r'.search.store.Admits a

theorem ends_decide [Stopping κ] {c : ChoicePoint} (h : Stands R r.search .quiet cs)
    (rung : Rung R.decisions r.search.engine.space c cs)
    (hlevel : c.checkpoint = r.search.engine.level)
    (hx : r.search.store.contains c.decision c.current = true) :
    Ends (decide c.decision c.current r) (fun _ => Decided R r c cs) (fun cause _ => Excuse R cause) := by
  have valid := h.valid hR
  have opened : R.engine.Run .free r.search.engine.checkpoint := h.run.checkpoint
  have known : c.decision < r.search.engine.checkpoint.store.numVars := rung.known
  have ready := (opened.inside hR).valid
  unfold decide
  rw [ends_bind, ends_onSearch, ends_bind]
  refine (ends_narrow (r := r.withEngine r.search.engine.checkpoint)
    (Store.keeps_assign ready.space.store)).mono ?_ ?_
  · rintro (cause | changed) r' ⟨store, rfl, narrowed⟩
    · exact absurd rfl (narrowed.2.2 c.current hx)
    · have keeps := Engine.keeps_withStore ready narrowed.narrows
      have rewind (k : Nat) (hk : k ≤ c.checkpoint) :
          (r.search.engine.checkpoint.withStore store).space.rewind k =
            r.search.engine.space.rewind k := by
        rw [keeps.below.rewind_eq k, Engine.checkpoint, Space.rewind_checkpoint]
        change k < r.search.engine.space.checkpoint.level
        rw [Space.level_checkpoint]
        change k < r.search.engine.level + 1
        omega
      have level : (r.search.engine.checkpoint.withStore store).level = c.checkpoint + 1 := by
        rw [hlevel]
        exact keeps.below.level_eq.trans Space.level_checkpoint
      have here (b : ChoicePoint) (hb : b ∈ c :: cs) :
          (r.search.engine.checkpoint.withStore store).store.isFixed b.decision = true := by
        rcases List.mem_cons.mp hb with rfl | hb
        · have lower := (narrowed.contains_iff _).mp
            (keeps.valid.space.store.contains_lower b.decision)
          have upper := (narrowed.contains_iff _).mp
            (keeps.valid.space.store.contains_upper b.decision)
          exact Store.isFixed_iff.mpr (lower.2.trans upper.2.symm)
        · exact Store.isFixed_of_within keeps.valid.space.store (keeps.within _) (h.fixed b hb)
      refine ⟨⟨rfl, rfl, rfl⟩, { h with
        run := opened.narrow (.inl rfl) narrowed.narrows
        ladder := ?_
        fixed := here }, rewind, fun a ha hac => narrowed.admits ha hac⟩
      change Ladder _ _ (r.search.engine.checkpoint.withStore store).space _
        (r.search.engine.checkpoint.withStore store).level
      rw [level]
      refine .cons (.congr (hlevel ▸ h.ladder) (fun k hk => rewind k (Nat.le_of_lt hk))
        keeps.below.numVars_eq keeps.below.width_eq) { rung with
          known := keeps.below.numVars_eq.symm ▸ rung.known
          length_le := (keeps.below.width_eq _).symm ▸ rung.length_le
          fixed := ?_ }
      rw [rewind c.checkpoint (Nat.le_refl _)]
      exact rung.fixed
  · rintro cause - ⟨-, hv⟩
    exact absurd known (Nat.not_lt_of_le hv)

/-- What returning to a choice point and removing its value comes to. -/
structure Refuted (R : Root π) (r : Run π κ) (c : ChoicePoint) (above : List ChoicePoint) (ok : Bool)
    (r' : Run π κ) : Prop where
  steady : Steady r r'
  level_eq : r'.search.engine.level = c.checkpoint
  stands : ∃ m, Stands R r'.search m above ∧ (ok = true → m = .quiet)
  rewind_eq : ∀ k, k < c.checkpoint →
    r'.search.engine.space.rewind k = r.search.engine.space.rewind k
  numVars_eq : r'.search.store.numVars = r.search.store.numVars
  width_eq : ∀ v, (r'.search.store.domain v).width = (r.search.store.domain v).width
  spared : ∀ a, R.engine.Spares a → (r.search.engine.space.rewind c.checkpoint).store.Admits a →
    a c.decision ≠ c.current →
    Beaten R.objective r.search.best a ∨ (ok = true ∧ r'.search.store.Admits a)

/-- **A search that returns to a choice point stands on the rungs above**, where it stood when the choice
point was opened. -/
theorem Stands.returned {c : ChoicePoint} {e : Engine π} (h : Stands R r.search m (c :: cs))
    (hr : r.search.engine.restore c.checkpoint = .ok e) :
    Stands R (r.withEngine e).search .free cs ∧
      ∀ a, (r.search.engine.space.rewind c.checkpoint).store.Admits a → e.store.Admits a := by
  obtain ⟨-, ladder, rung⟩ := h.ladder.of_cons
  have back := Engine.restored (h.valid hR) hr
  have domains : e.store.domains = (r.search.engine.space.rewind c.checkpoint).store.domains :=
    congrArg (·.store.domains) back.space.bare_eq
  have same (v : Var) : e.store.domain v =
      (r.search.engine.space.rewind c.checkpoint).store.domain v := by
    unfold Store.domain Store.domain?
    rw [domains]
  constructor
  · refine { h with run := h.run.restore ladder.base_le hr, ladder := ?_, fixed := fun b hb => ?_ }
    · change Ladder _ _ e.space _ e.level
      rw [show e.level = c.checkpoint from back.space.level_eq]
      exact ladder.congr (fun k hk => back.space.rewind_eq k (Nat.le_of_lt hk))
        back.space.numVars_eq back.space.width_eq
    · change (e.store.domain _).isFixed = true
      rw [same]
      exact rung.fixed b hb
  · intro a ha v hv
    change v < e.store.domains.size at hv
    rw [domains] at hv
    rw [Store.contains, same]
    exact ha v hv

theorem ends_refute {c : ChoicePoint} (h : Stands R r.search m (c :: cs)) :
    Ends (refute c r) (Refuted R r c cs) (fun cause _ => Excuse R cause) := by
  obtain ⟨level_eq, ladder, rung⟩ := h.ladder.of_cons
  have valid := h.valid hR
  unfold refute
  rw [ends_bind, ends_current]
  cases hr : r.search.engine.restore c.checkpoint with
  | error cause => exact absurd hr (Engine.restore_ne_error valid (by omega) cause)
  | ok e =>
    obtain ⟨stands, admitted⟩ := h.returned hR hr
    have back := Engine.restored valid hr
    have level : e.level = c.checkpoint := back.space.level_eq
    have ready := (stands.valid hR).space.store
    dsimp only
    rw [ends_bind, ends_onSearch, ends_bind]
    refine (ends_narrow (r := r.withEngine e) (Store.keeps_remove ready)).mono ?_ ?_
    · rintro (cause | changed) r' ⟨store, rfl, narrowed⟩
      -- the value was the only one left, or propagation has to show what is left
      · obtain ⟨rfl, hv, none⟩ := narrowed
        dsimp only
        rw [ends_bind]
        refine (ends_refuted (R := R)).mono ?_ fun _ _ => False.elim
        rintro - r' ⟨steady, engine, stands'⟩
        replace engine : r'.search.engine = e := engine
        refine ⟨⟨steady.choicePoints_eq, steady.best_eq, steady.solutions_eq⟩, ?_,
          ⟨_, stands' _ cs stands, fun h => by cases h⟩, fun k hk => ?_, ?_, fun v => ?_,
          fun a _ ha hac => ?_⟩
        · rw [engine, level]
        · rw [engine]
          exact back.space.rewind_eq k (Nat.le_of_lt hk)
        · rw [Search.store, engine]
          exact back.space.numVars_eq
        · rw [Search.store, engine]
          exact back.space.width_eq v
        · exact absurd (.inl hac) (none _ (admitted a ha _ hv))
      · have keeps := Engine.keeps_withStore (stands.valid hR) narrowed.narrows
        have narrowedStands := stands.keeps keeps (stands.run.narrow (.inl rfl) narrowed.narrows)
        refine (ends_propagate hR narrowedStands (.inl rfl)).mono_ok ?_
        rintro ok r' ⟨steady, below, stands', bounded, spared⟩
        have below' := keeps.below.trans below
        refine ⟨⟨steady.choicePoints_eq, steady.best_eq, steady.solutions_eq⟩, ?_, stands',
          fun k hk => ?_, ?_, fun v => ?_, fun a hs ha hac => ?_⟩
        · exact below'.level_eq.trans level
        · rw [below'.rewind_eq k (Nat.lt_of_lt_of_eq hk level.symm)]
          exact back.space.rewind_eq k (Nat.le_of_lt hk)
        · exact below'.numVars_eq.trans back.space.numVars_eq
        · exact (below'.width_eq v).trans (back.space.width_eq v)
        · exact spared a hs (narrowed.admits (admitted a ha) (.inl hac))
    · rintro cause - ⟨rfl, hv⟩
      refine .unknown (.inr rung.mem) ?_
      rw [← (stands.inside hR).numVars_eq]
      exact hv

end Search
end BranchBound
