/-! # Repetition under a falling potential

Everything that this library repeats until there is nothing left to do is repeated by
`descend`: a filtering pass while it narrows some domain, the calling of constraints while
some are queued, the steps of a search while it has somewhere to go.  The step answers whether
there is more to do.  What makes the repetition end is a natural number, the *potential* of the
state, which every step lowers that asks for more (`Lowers`).  So the potential at the start
bounds the number of repetitions, and `descend` makes at most one more than that.

**A step that is satisfied is the last** (`descend_of_done`), one that asks for more is
followed by the rest (`descend_of_more`), **the repetition never ends before a step is
satisfied** (`descend_ends`), and what every step keeps the repetition keeps
(`descend_preserves`). -/
namespace BranchBound

variable {ε σ : Type}

/-- Repeats `step` as long as it answers `true`, at most `n` times. -/
def repeatAtMost (step : EStateM ε σ Bool) : Nat → σ → EStateM.Result ε σ Unit
  | 0, s => .ok () s
  | n + 1, s =>
    match step s with
    | .error e t => .error e t
    | .ok true t => repeatAtMost step n t
    | .ok false t => .ok () t

/-- Repeats `step` as long as it answers `true`, and not more often than the potential allows. -/
def descend (potential : σ → Nat) (step : EStateM ε σ Bool) (s : σ) : EStateM.Result ε σ Unit :=
  repeatAtMost step (potential s + 1) s

variable {potential : σ → Nat} {step : EStateM ε σ Bool} {s t : σ}

theorem descend_of_error {e : ε} (h : step s = .error e t) :
    descend potential step s = .error e t := by
  rw [descend, repeatAtMost, h]

theorem descend_of_done (h : step s = .ok false t) : descend potential step s = .ok () t := by
  rw [descend, repeatAtMost, h]

/-- Whether every step that asks for more lowers the potential, as long as `P` holds. -/
def Lowers (potential : σ → Nat) (step : EStateM ε σ Bool) (P : σ → Prop) : Prop :=
  ∀ {s t}, P s → step s = .ok true t → P t ∧ potential t < potential s

variable {P : σ → Prop}

/-- More repetitions than the potential allows make no difference. -/
theorem repeatAtMost_eq (h : Lowers potential step P) (hs : P s) {m n : Nat}
    (hm : potential s < m) (hn : potential s < n) :
    repeatAtMost step m s = repeatAtMost step n s := by
  induction m generalizing n s with
  | zero => omega
  | succ m ih =>
    cases n with
    | zero => omega
    | succ n =>
      unfold repeatAtMost
      split
      · rfl
      · rename_i t hst
        obtain ⟨ht, hlt⟩ := h hs hst
        exact ih ht (by omega) (by omega)
      · rfl

/-- **A step that asks for more is followed by the rest.** -/
theorem descend_of_more (h : Lowers potential step P) (hs : P s) (hst : step s = .ok true t) :
    descend potential step s = descend potential step t := by
  obtain ⟨ht, hlt⟩ := h hs hst
  rw [descend, repeatAtMost, hst]
  exact repeatAtMost_eq h ht hlt (Nat.lt_succ_self _)

/-- **The repetition ends well only with a step that is satisfied.** -/
theorem descend_ends (h : Lowers potential step P) (hs : P s)
    (hst : descend potential step s = .ok () t) : ∃ u, P u ∧ step u = .ok false t := by
  suffices ∀ n, potential s < n → repeatAtMost step n s = .ok () t →
      ∃ u, P u ∧ step u = .ok false t from this _ (Nat.lt_succ_self _) hst
  intro n
  clear hst
  induction n generalizing s with
  | zero => omega
  | succ n ih =>
    intro hn hst
    unfold repeatAtMost at hst
    split at hst
    · simp at hst
    · rename_i u hu
      obtain ⟨hPu, hlt⟩ := h hs hu
      exact ih hPu (by omega) hst
    · rename_i u hu
      obtain rfl : u = t := by simpa using hst
      exact ⟨s, hs, hu⟩

/-- What a result says of the state that it hands back. -/
def EndsIn (P : σ → Prop) {α : Type} : EStateM.Result ε σ α → Prop
  | .ok _ s | .error _ s => P s

/-- **What every step keeps, the repetition keeps**, whether it ends early or not. -/
theorem descend_preserves (keeps : ∀ s, P s → EndsIn P (step s)) :
    ∀ s, P s → EndsIn P (descend potential step s) := by
  suffices ∀ n s, P s → EndsIn P (repeatAtMost step n s) from fun s => this _ s
  intro n
  induction n with
  | zero => exact fun s hs => hs
  | succ n ih =>
    intro s hs
    have kept := keeps s hs
    unfold repeatAtMost
    split <;> rename_i hst <;> rw [hst] at kept
    · exact kept
    · exact ih _ kept
    · exact kept

end BranchBound
