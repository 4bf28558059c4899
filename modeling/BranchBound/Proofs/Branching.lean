import BranchBound.Proofs.Store
import BranchBound.Search
import Mathlib.Data.List.TakeWhile

/-! # Decisions

What a choice point is made of.  The variable that is selected is an unfixed decision, if there is
one (`Selected`); its values are shuffled, so none is lost and none is tried twice
(`perm_shuffle`); and going on to the next value drops only values that are not allowed
(`ChoicePoint.advance?_eq_some`). -/
namespace BranchBound

/-! ## Shuffling -/

section
variable {α σ : Type}

theorem perm_swapIfInBounds (values : Array α) (i j : Nat) :
    (values.swapIfInBounds i j).toList.Perm values.toList := by
  unfold Array.swapIfInBounds
  split
  · split
    · exact Array.perm_iff_toList_perm.mp (Array.swap_perm _ _)
    · exact .refl _
  · exact .refl _

theorem perm_settle (draw : Nat → StateM σ Nat) (last : Nat) (values : Array α) (source : σ) :
    (settle draw last values source).1.toList.Perm values.toList := by
  induction last generalizing values source with
  | zero => exact .refl _
  | succ last ih => exact (ih _ _).trans (perm_swapIfInBounds _ _ _)

/-- **Every value is tried once.** -/
theorem perm_shuffle (draw : Nat → StateM σ Nat) (values : List α) (source : σ) :
    ((shuffle draw values).run source).1.Perm values :=
  perm_settle draw _ values.toArray source

end

/-! ## Selection -/

namespace Selector
variable {c c' : Selector} {s : Store} {v : Var}

/-- Whether a variable is one of the decisions, and open. -/
def Open (s : Store) (decisions : List Var) (v : Var) : Prop :=
  v ∈ decisions ∧ v < s.numVars ∧ s.isFixed v = false

/-- What was selected: an open decision, or none if there is none. -/
structure Selected (c : Selector) (s : Store) (v? : Option Var) (c' : Selector) : Prop where
  decisions_eq : c'.decisions = c.decisions
  forgotten : c'.breaker.best = none
  some_open : ∀ v, v? = some v → Open s c.decisions v
  none_open : v? = none → ∀ v, ¬ Open s c.decisions v

theorem consider_eq_ok (h : c.consider s v = .ok c') :
    c'.decisions = c.decisions ∧ v < s.numVars ∧
      if s.isFixed v then c' = c
      else ∃ best, c'.breaker.best = some best ∧ (best.1 = v ∨ c.breaker.best = some best) := by
  unfold consider at h
  cases hd : s.domain? v with
  | none => rw [hd] at h; cases h
  | some d =>
    rw [hd] at h
    have fixed : s.isFixed v = d.isFixed := by rw [Store.isFixed, Store.domain_of hd]
    rw [fixed]
    dsimp only at h
    split at h
    · rename_i hf
      cases h
      exact ⟨rfl, Store.lt_numVars_of hd, by rw [if_pos hf]⟩
    · rename_i hf
      cases h
      refine ⟨rfl, Store.lt_numVars_of hd, ?_⟩
      rw [if_neg hf]
      unfold TieBreaker.consider
      split
      · exact ⟨_, rfl, .inl rfl⟩
      · rename_i best hb
        split
        · exact ⟨_, rfl, .inl rfl⟩
        · exact ⟨_, hb, .inr hb⟩

/-- Of the decisions that were considered, the best is open, and there is one if any is. -/
theorem foldlM_consider_eq_ok {vs : List Var} (h : vs.foldlM (fun c v => c.consider s v) c = .ok c') :
    c'.decisions = c.decisions ∧
      (∀ best, c'.breaker.best = some best → c.breaker.best = some best ∨ Open s vs best.1) ∧
      (c'.breaker.best = none → c.breaker.best = none ∧ ∀ v, ¬ Open s vs v) := by
  induction vs generalizing c with
  | nil =>
    cases h
    exact ⟨rfl, fun best hb => .inl hb, fun hb => ⟨hb, fun v hv => by cases hv.1⟩⟩
  | cons v vs ih =>
    rw [List.foldlM_cons] at h
    cases hc : c.consider s v with
    | error cause => rw [hc] at h; cases h
    | ok d =>
      rw [hc] at h
      obtain ⟨dec, known, first⟩ := consider_eq_ok hc
      obtain ⟨dec', some_best, none_best⟩ := ih h
      have later {w : Var} (hw : Open s vs w) : Open s (v :: vs) w :=
        ⟨List.mem_cons_of_mem v hw.1, hw.2⟩
      refine ⟨dec'.trans dec, fun best hb => ?_, fun hb => ?_⟩
      · rcases some_best best hb with hd | ho
        · cases hf : s.isFixed v with
          | true =>
            rw [hf, if_pos rfl] at first
            exact .inl (first ▸ hd)
          | false =>
            rw [hf, if_neg Bool.false_ne_true] at first
            obtain ⟨other, ho, hv⟩ := first
            obtain rfl : best = other := Option.some.inj (hd.symm.trans ho)
            rcases hv with rfl | hv
            · exact .inr ⟨List.mem_cons_self, known, hf⟩
            · exact .inl hv
        · exact .inr (later ho)
      · obtain ⟨hd, rest⟩ := none_best hb
        cases hf : s.isFixed v with
        | true =>
          rw [hf, if_pos rfl] at first
          subst d
          refine ⟨hd, fun w hw => ?_⟩
          rcases List.mem_cons.mp hw.1 with rfl | hmem
          · rw [hw.2.2] at hf; cases hf
          · exact rest w ⟨hmem, hw.2⟩
        | false =>
          rw [hf, if_neg Bool.false_ne_true] at first
          obtain ⟨other, ho, -⟩ := first
          rw [hd] at ho
          cases ho

/-- **The selection is an open decision, if there is one.** -/
theorem select_eq_ok {v? : Option Var} (h : c.select s = .ok (v?, c')) (hc : c.breaker.best = none) :
    Selected c s v? c' := by
  unfold select at h
  cases hf : c.decisions.foldlM (fun c v => c.consider s v) c with
  | error cause => rw [hf] at h; cases h
  | ok d =>
    rw [hf] at h
    cases h
    obtain ⟨dec, some_best, none_best⟩ := foldlM_consider_eq_ok hf
    refine ⟨dec, rfl, fun v hv => ?_, fun hn => ?_⟩
    · obtain ⟨best, hb, rfl⟩ := Option.map_eq_some_iff.mp hv
      rcases some_best best hb with hold | hopen
      · rw [hc] at hold; cases hold
      · exact hopen
    · exact (none_best (Option.map_eq_none_iff.mp hn)).2

/-- Only a decision that is no variable cannot be considered. -/
theorem select_eq_error {cause : Fault} (h : c.select s = .error cause) :
    ∃ v ∈ c.decisions, s.numVars ≤ v := by
  refine Classical.byContradiction fun known => ?_
  simp only [not_exists, not_and, Nat.not_le] at known
  have considered (vs : List Var) (hvs : ∀ v ∈ vs, v < s.numVars) (c : Selector) :
      ∃ c', vs.foldlM (fun c v => c.consider s v) c = .ok c' := by
    induction vs generalizing c with
    | nil => exact ⟨c, rfl⟩
    | cons v vs ih =>
      have first : ∃ d, c.consider s v = .ok d := by
        unfold consider
        rw [Store.domain?_eq_some (hvs v List.mem_cons_self)]
        dsimp only
        split
        · exact ⟨_, rfl⟩
        · exact ⟨_, rfl⟩
      obtain ⟨d, hd⟩ := first
      obtain ⟨c', hc'⟩ := ih (fun w hw => hvs w (List.mem_cons_of_mem v hw)) d
      exact ⟨c', by rw [List.foldlM_cons, hd]; exact hc'⟩
  obtain ⟨d, hd⟩ := considered c.decisions known c
  unfold select at h
  rw [hd] at h
  cases h

end Selector

namespace Search

theorem allFixed_eq_ok {s : Store} {vs : List Var} {fixed : Bool} (h : allFixed s vs = .ok fixed) :
    if fixed then ∀ v ∈ vs, s.isFixed v = true else ∃ v ∈ vs, v < s.numVars ∧ s.isFixed v = false := by
  induction vs with
  | nil =>
    cases h
    exact fun v hv => by cases hv
  | cons v vs ih =>
    unfold allFixed at h
    cases hd : s.domain? v with
    | none => rw [hd] at h; cases h
    | some d =>
      rw [hd] at h
      have here : s.isFixed v = d.isFixed := by rw [Store.isFixed, Store.domain_of hd]
      dsimp only at h
      split at h
      · rename_i hf
        have rest := ih h
        cases fixed with
        | true =>
          intro w hw
          rcases List.mem_cons.mp hw with rfl | hw
          · rw [here, hf]
          · exact rest w hw
        | false =>
          obtain ⟨w, hw, open_⟩ := rest
          exact ⟨w, List.mem_cons_of_mem v hw, open_⟩
      · rename_i hf
        cases h
        exact ⟨v, List.mem_cons_self, Store.lt_numVars_of hd, by rw [here]; simpa using hf⟩

theorem allFixed_eq_error {s : Store} {vs : List Var} {cause : Fault}
    (h : allFixed s vs = .error cause) : ∃ v ∈ vs, s.numVars ≤ v := by
  induction vs with
  | nil => cases h
  | cons v vs ih =>
    unfold allFixed at h
    cases hd : s.domain? v with
    | none => exact ⟨v, List.mem_cons_self, Store.domain?_eq_none_iff.mp hd⟩
    | some d =>
      rw [hd] at h
      dsimp only at h
      split at h
      · obtain ⟨w, hw, hlt⟩ := ih h
        exact ⟨w, List.mem_cons_of_mem v hw, hlt⟩
      · cases h

end Search

/-! ## The next value -/

namespace ChoicePoint
variable {c d : ChoicePoint} {allowed : Int → Bool} {x : Int}

/-- **Going on drops only values that are not allowed.** -/
theorem advance?_eq_some (h : c.advance? allowed = some d) :
    d.decision = c.decision ∧ d.checkpoint = c.checkpoint ∧ allowed d.current = true ∧
      (d.current :: d.untried) <:+ c.untried ∧
      ∀ x ∈ c.untried, allowed x = true → x = d.current ∨ x ∈ d.untried := by
  unfold advance? at h
  have dropped := List.dropWhile_suffix (!allowed ·) (l := c.untried)
  have split := List.takeWhile_append_dropWhile (p := (!allowed ·)) (l := c.untried)
  cases hr : c.untried.dropWhile (!allowed ·) with
  | nil => rw [hr] at h; cases h
  | cons value rest =>
    rw [hr] at h dropped split
    cases h
    have first := List.head_dropWhile_not (!allowed ·) (l := c.untried) (by simp [hr])
    refine ⟨rfl, rfl, ?_, dropped, fun x hx hax => ?_⟩
    · simpa [hr] using first
    · rw [← split, List.mem_append, List.mem_cons] at hx
      rcases hx with hx | hx
      · have := List.mem_takeWhile_imp hx
        simp [hax] at this
      · exact hx

theorem advance?_eq_none (h : c.advance? allowed = none) (hx : x ∈ c.untried) :
    allowed x = false := by
  unfold advance? at h
  cases hr : c.untried.dropWhile (!allowed ·) with
  | nil =>
    rw [List.dropWhile_eq_nil_iff] at hr
    simpa using hr x hx
  | cons value rest => rw [hr] at h; cases h

end ChoicePoint
end BranchBound
