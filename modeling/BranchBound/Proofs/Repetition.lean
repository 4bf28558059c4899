import BranchBound.Descent

/-! # Repetition without a bound

`descend` repeats a step no more often than the potential at the start provides for.  A repetition without such
a bound is put down step by step (`Repeats`): either it comes to a result after finitely many steps, and then to
no other (`Repeats.unique`), or it goes on for ever.

**A repetition in which every step that asks for more lowers a potential comes to a result**, and it is the one
that `descend` finds (`repeats_descend`). -/
namespace BranchBound

variable {ε σ : Type} {step : EStateM ε σ Bool} {potential : σ → Nat} {P : σ → Prop} {s t : σ}
  {r r' : EStateM.Result ε σ Unit}

/-- What a step comes to that is repeated as long as it answers `true`, however often that may be. -/
inductive Repeats (step : EStateM ε σ Bool) : σ → EStateM.Result ε σ Unit → Prop
  | done {s t : σ} (h : step s = .ok false t) : Repeats step s (.ok () t)
  | failed {s t : σ} {e : ε} (h : step s = .error e t) : Repeats step s (.error e t)
  | more {s t : σ} {r : EStateM.Result ε σ Unit} (h : step s = .ok true t) (rest : Repeats step t r) :
    Repeats step s r

theorem Repeats.unique (h : Repeats step s r) (h' : Repeats step s r') : r = r' := by
  induction h with
  | done hs =>
    cases h' with
    | done hs' => cases hs.symm.trans hs'; rfl
    | failed hs' => cases hs.symm.trans hs'
    | more hs' => cases hs.symm.trans hs'
  | failed hs =>
    cases h' with
    | done hs' => cases hs.symm.trans hs'
    | failed hs' => cases hs.symm.trans hs'; rfl
    | more hs' => cases hs.symm.trans hs'
  | more hs _ ih =>
    cases h' with
    | done hs' => cases hs.symm.trans hs'
    | failed hs' => cases hs.symm.trans hs'
    | more hs' rest =>
      cases hs.symm.trans hs'
      exact ih rest

/-- **A repetition under a falling potential comes to what `descend` finds.** -/
theorem repeats_descend (h : Lowers potential step P) (hs : P s) : Repeats step s (descend potential step s) := by
  -- on the potential, which falls with every step that asks for more
  induction hp : potential s using Nat.strongRecOn generalizing s with
  | _ n ih =>
    subst hp
    cases hst : step s with
    | error e t =>
      rw [descend_of_error hst]
      exact .failed hst
    | ok again t =>
      cases again with
      | false =>
        rw [descend_of_done hst]
        exact .done hst
      | true =>
        obtain ⟨ht, less⟩ := h hs hst
        rw [descend_of_more h hs hst]
        exact .more hst (ih _ less ht rfl)

end BranchBound
