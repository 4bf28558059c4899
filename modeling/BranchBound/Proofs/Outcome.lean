import BranchBound.Descent
import BranchBound.Fault

/-! # What a computation ends in

A computation ends well with an answer, or early with a cause, and hands back a state either way.
`Ends r Q E` says that a result `r` satisfies `Q` if it is an answer and `E` if it is a cause.
There is one rule for every way in which computations are put together, so what a computation
ends in is read off its text: `ends_bind` for one after another, `ends_foldlM` and `ends_forM`
for all elements of a list, and `ends_descend` for repetition.

Two computations mirror each other if they end alike and their states are the same, seen through a
function (`Mirrors`); this too is read off their texts. -/
namespace BranchBound

variable {ε σ α β γ : Type}

/-- What a result says of its answer or of its cause, and of the state that it hands back. -/
def Ends (r : EStateM.Result ε σ α) (Q : α → σ → Prop) (E : ε → σ → Prop) : Prop :=
  match r with
  | .ok a s => Q a s
  | .error e s => E e s

section
variable {Q Q' : α → σ → Prop} {E E' : ε → σ → Prop} {r : EStateM.Result ε σ α} {s t : σ}

@[simp] theorem ends_ok {a : α} : Ends (.ok a s : EStateM.Result ε σ α) Q E ↔ Q a s := Iff.rfl

@[simp] theorem ends_error {e : ε} : Ends (.error e s : EStateM.Result ε σ α) Q E ↔ E e s :=
  Iff.rfl

theorem Ends.of_ok (h : Ends r Q E) {a : α} (hr : r = .ok a t) : Q a t := by
  subst r; exact h

theorem Ends.of_error (h : Ends r Q E) {e : ε} (hr : r = .error e t) : E e t := by
  subst r; exact h

/-- Whether a computation ends well can be decided by running it. -/
theorem exists_ok_of_run' {m : EStateM ε σ α} {s : σ} (h : (m.run' s).isSome = true) :
    ∃ a t, m s = .ok a t := by
  unfold EStateM.run' EStateM.run at h
  cases hm : m s with
  | ok a t => exact ⟨a, t, rfl⟩
  | error e t =>
    rw [hm] at h
    cases h

theorem ends_of (ok : ∀ a t, r = .ok a t → Q a t) (error : ∀ e t, r = .error e t → E e t) :
    Ends r Q E := by
  cases r with
  | ok a t => exact ok a t rfl
  | error e t => exact error e t rfl

theorem ends_trivial : Ends r (fun _ _ => True) (fun _ _ => True) :=
  ends_of (fun _ _ _ => trivial) fun _ _ _ => trivial

/-- Whatever a result says, it says less as well. -/
theorem Ends.mono (h : Ends r Q E) (hQ : ∀ a t, Q a t → Q' a t) (hE : ∀ e t, E e t → E' e t) :
    Ends r Q' E' := by
  cases r with
  | ok a t => exact hQ a t h
  | error e t => exact hE e t h

theorem Ends.mono_ok (h : Ends r Q E) (hQ : ∀ a t, Q a t → Q' a t) : Ends r Q' E :=
  h.mono hQ fun _ _ => id

theorem Ends.and (h : Ends r Q E) (h' : Ends r Q' E') :
    Ends r (fun a t => Q a t ∧ Q' a t) (fun e t => E e t ∧ E' e t) := by
  cases r with
  | ok a t => exact ⟨h, h'⟩
  | error e t => exact ⟨h, h'⟩

end

/-! ## Single operations -/

section
variable {Q : α → σ → Prop} {E : ε → σ → Prop} {s : σ}

@[simp] theorem ends_pure {a : α} : Ends ((pure a : EStateM ε σ α) s) Q E ↔ Q a s := Iff.rfl

@[simp] theorem ends_throw {e : ε} : Ends ((throw e : EStateM ε σ α) s) Q E ↔ E e s := Iff.rfl

@[simp] theorem ends_get {Q : σ → σ → Prop} : Ends ((get : EStateM ε σ σ) s) Q E ↔ Q s s :=
  Iff.rfl

@[simp] theorem ends_modify {f : σ → σ} {Q : PUnit → σ → Prop} :
    Ends ((modify f : EStateM ε σ PUnit) s) Q E ↔ Q ⟨⟩ (f s) := Iff.rfl

@[simp] theorem ends_modifyGet {f : σ → α × σ} :
    Ends ((modifyGet f : EStateM ε σ α) s) Q E ↔ Q (f s).1 (f s).2 := Iff.rfl

end

@[simp] theorem ends_fail {cause : Fault} {Q : α → σ → Prop} {E : Halt → σ → Prop} {s : σ} :
    Ends ((fail cause : EStateM Halt σ α) s) Q E ↔ E (.fault cause) s := Iff.rfl

@[simp] theorem ends_refute {cause : Inconsistency} {Q : α → σ → Prop} {E : Halt → σ → Prop}
    {s : σ} : Ends ((refute cause : EStateM Halt σ α) s) Q E ↔ E (.inconsistent cause) s := Iff.rfl

theorem ends_demand {o : Option α} {Q : α → σ → Prop} {E : Halt → σ → Prop} {s : σ}
    (some : ∀ a, o = some a → Q a s) (none : o = none → E (.fault .outOfRange) s) :
    Ends ((demand o : EStateM Halt σ α) s) Q E := by
  cases o with
  | some a => exact some a rfl
  | none => exact none rfl

/-! ## Computations put together -/

section
variable {m : EStateM ε σ α} {f : α → EStateM ε σ β} {Q : β → σ → Prop} {E : ε → σ → Prop} {s : σ}

theorem ends_bind :
    Ends ((m >>= f) s) Q E ↔ Ends (m s) (fun a t => Ends (f a t) Q E) E := by
  change Ends (EStateM.bind m f s) Q E ↔ _
  unfold EStateM.bind
  cases m s with
  | ok a t => exact Iff.rfl
  | error e t => exact Iff.rfl

/-- If two computations end well one after the other, each of them does. -/
theorem bind_eq_ok {b : β} {t : σ} (h : (m >>= f) s = .ok b t) :
    ∃ a u, m s = .ok a u ∧ f a u = .ok b t := by
  change EStateM.bind m f s = _ at h
  unfold EStateM.bind at h
  split at h
  · exact ⟨_, _, ‹_›, h⟩
  · cases h

/-- What ended well is followed by the rest. -/
theorem bind_of_ok {t : σ} {a : α} (h : m s = .ok a t) : (m >>= f) s = f a t := by
  change EStateM.bind m f s = _
  unfold EStateM.bind
  rw [h]

/-- What ended early is not followed by anything. -/
theorem bind_of_error {t : σ} {e : ε} (h : m s = .error e t) : (m >>= f) s = .error e t := by
  change EStateM.bind m f s = _
  unfold EStateM.bind
  rw [h]

/-- One computation after another. -/
theorem Ends.bind {P : α → σ → Prop} (h : Ends (m s) P E)
    (hf : ∀ a t, P a t → Ends (f a t) Q E) : Ends ((m >>= f) s) Q E :=
  ends_bind.mpr (h.mono_ok hf)

theorem ends_map {g : α → β} :
    Ends ((g <$> m) s) Q E ↔ Ends (m s) (fun a t => Q (g a) t) E := by
  change Ends (EStateM.map g m s) Q E ↔ _
  unfold EStateM.map
  cases m s with
  | ok a t => exact Iff.rfl
  | error e t => exact Iff.rfl

theorem ends_discard {Q : PUnit → σ → Prop} :
    Ends ((discard m : EStateM ε σ PUnit) s) Q E ↔ Ends (m s) (fun _ t => Q ⟨⟩ t) E := ends_map

/-- A computation is looked at on its own, for a case split on it. -/
theorem ends_of_eq {Q : α → σ → Prop} (h : ∀ m', m = m' → Ends (m' s) Q E) : Ends (m s) Q E :=
  h m rfl

theorem ends_ite {p : Prop} [Decidable p] {m m' : EStateM ε σ α} {Q : α → σ → Prop} :
    Ends ((if p then m else m') s) Q E ↔ if p then Ends (m s) Q E else Ends (m' s) Q E := by
  split <;> exact Iff.rfl

end

/-- **What every element keeps, a list of them keeps**, whatever was gathered from those before. -/
theorem ends_foldlM {I : β → σ → Prop} {E : ε → σ → Prop} {f : β → α → EStateM ε σ β}
    {l : List α} (step : ∀ x ∈ l, ∀ b s, I b s → Ends (f b x s) I E) {b : β} {s : σ}
    (hs : I b s) : Ends (l.foldlM f b s) I E := by
  induction l generalizing b s with
  | nil => exact hs
  | cons x l ih =>
    rw [List.foldlM_cons]
    refine (step x List.mem_cons_self b s hs).bind fun b t ht => ?_
    exact ih (fun y hy => step y (List.mem_cons_of_mem x hy)) ht

/-- What the elements up to one establish, given those before it, the whole list establishes. -/
theorem ends_foldlM_prefix {I : List α → β → σ → Prop} {E : ε → σ → Prop}
    {f : β → α → EStateM ε σ β} {l : List α}
    (step : ∀ before x rest, l = before ++ x :: rest → ∀ b s, I before b s →
      Ends (f b x s) (I (before ++ [x])) E) {b : β} {s : σ} (hs : I [] b s) :
    Ends (l.foldlM f b s) (I l) E := by
  suffices ∀ before rest, l = before ++ rest → ∀ b s, I before b s →
      Ends (rest.foldlM f b s) (I l) E from this [] l rfl b s hs
  intro before rest
  induction rest generalizing before with
  | nil =>
    intro h b s hI
    rw [List.append_nil] at h
    subst h
    exact hI
  | cons x rest ih =>
    intro h b s hI
    rw [List.foldlM_cons]
    refine (step before x rest h b s hI).bind fun b t ht => ?_
    exact ih (before ++ [x]) (by rw [h, List.append_assoc]; rfl) b t ht

theorem ends_forM {I : List α → σ → Prop} {E : ε → σ → Prop} {f : α → EStateM ε σ PUnit}
    {l : List α} (step : ∀ before x rest, l = before ++ x :: rest → ∀ s, I before s →
      Ends (f x s) (fun _ => I (before ++ [x])) E) {s : σ} (hs : I [] s) :
    Ends (l.forM f s) (fun _ => I l) E := by
  suffices ∀ before rest, l = before ++ rest → ∀ s, I before s →
      Ends (rest.forM f s) (fun _ => I l) E from this [] l rfl s hs
  intro before rest
  induction rest generalizing before with
  | nil =>
    intro h s hI
    rw [List.append_nil] at h
    subst h
    exact hI
  | cons x rest ih =>
    intro h s hI
    change Ends ((f x >>= fun _ => rest.forM f) s) _ E
    refine (step before x rest h s hI).bind fun _ t ht => ?_
    exact ih (before ++ [x]) (by rw [h, List.append_assoc]; rfl) t ht

/-! ## Repetition -/

section
variable {I : σ → Prop} {E : ε → σ → Prop} {potential : σ → Nat} {step : EStateM ε σ Bool} {s : σ}

/-- What every step keeps, the repetition keeps. -/
theorem ends_descend (keeps : ∀ s, I s → Ends (step s) (fun _ => I) E) (hs : I s) :
    Ends (descend potential step s) (fun _ => I) E := by
  suffices ∀ n s, I s → Ends (repeatAtMost step n s) (fun _ => I) E from this _ _ hs
  intro n
  induction n with
  | zero => exact fun s hs => hs
  | succ n ih =>
    intro s hs
    have kept := keeps s hs
    unfold repeatAtMost
    split <;> rename_i hst <;> rw [hst] at kept
    · exact kept
    · exact ih _ kept
    · exact kept

/-- **The repetition ends with a step that is satisfied**, if every step that asks for more
lowers the potential. -/
theorem ends_descend_done {J : σ → Prop}
    (keeps : ∀ s, I s → Ends (step s)
      (fun more t => if more then I t ∧ potential t < potential s else J t) E) (hs : I s) :
    Ends (descend potential step s) (fun _ => J) E := by
  suffices ∀ n s, potential s < n → I s → Ends (repeatAtMost step n s) (fun _ => J) E from
    this _ _ (Nat.lt_succ_self _) hs
  intro n
  induction n with
  | zero => exact fun s hn => absurd hn (Nat.not_lt_zero _)
  | succ n ih =>
    intro s hn hs
    have kept := keeps s hs
    unfold repeatAtMost
    split <;> rename_i hst <;> rw [hst] at kept
    · exact kept
    · exact ih _ (by have := kept.2; omega) kept.1
    · exact kept

end

/-! ## Computations seen through a function -/

section
variable {τ : Type}

/-- A result with its state seen through a function. -/
def mapState (F : σ → τ) : EStateM.Result ε σ α → EStateM.Result ε τ α
  | .ok a s => .ok a (F s)
  | .error e s => .error e (F s)

/-- A computation does the same whether its states are seen through a function or not. -/
def Mirrors (F : σ → τ) (m : EStateM ε σ α) (m' : EStateM ε τ α) : Prop :=
  ∀ s, m' (F s) = mapState F (m s)

variable {F : σ → τ} {m : EStateM ε σ α} {m' : EStateM ε τ α}

theorem mirrors_pure {a : α} : Mirrors F (pure a : EStateM ε σ α) (pure a) := fun _ => rfl

theorem mirrors_throw {e : ε} : Mirrors F (throw e : EStateM ε σ α) (throw e) := fun _ => rfl

theorem mirrors_modify {f : σ → σ} {g : τ → τ} (h : ∀ s, g (F s) = F (f s)) :
    Mirrors F (modify f : EStateM ε σ PUnit) (modify g) := by
  intro s
  change EStateM.Result.ok PUnit.unit (g (F s)) = _
  rw [h]
  rfl

theorem ends_mapState {r : EStateM.Result ε σ α} {Q : α → τ → Prop} {E : ε → τ → Prop} :
    Ends (mapState F r) Q E ↔ Ends r (fun a s => Q a (F s)) (fun e s => E e (F s)) := by
  cases r with
  | ok a s => exact Iff.rfl
  | error e s => exact Iff.rfl

/-- What comes after computations that do the same may depend on their answer. -/
theorem Mirrors.bind {f : α → EStateM ε σ β} {f' : α → EStateM ε τ β} (h : Mirrors F m m')
    (hf : ∀ a, Mirrors F (f a) (f' a)) : Mirrors F (m >>= f) (m' >>= f') := by
  intro s
  change EStateM.bind m' f' (F s) = mapState F (EStateM.bind m f s)
  unfold EStateM.bind
  rw [h s]
  cases m s with
  | ok a t => exact hf a t
  | error e t => rfl

theorem mirrors_ite {p : Prop} [Decidable p] {n : EStateM ε σ α} {n' : EStateM ε τ α}
    (h : Mirrors F m m') (h' : Mirrors F n n') :
    Mirrors F (if p then m else n) (if p then m' else n') := by
  split
  · exact h
  · exact h'

theorem mirrors_forM {f : α → EStateM ε σ PUnit} {f' : α → EStateM ε τ PUnit} {l : List α}
    (h : ∀ x, Mirrors F (f x) (f' x)) : Mirrors F (l.forM f) (l.forM f') := by
  induction l with
  | nil => exact mirrors_pure
  | cons x l ih => exact (h x).bind fun _ => ih

end

end BranchBound
