import BranchBound.Proofs.Confluence.Steps
import BranchBound.Proofs.Contract

/-! # Engines that converge

Of an engine something is true whenever it is quiet, and every turn shelters the stores of which it is true:
such an engine *converges* (`Engine.Convergent`).  Its propagation ends well if it starts from a store that
encloses one of these, and still encloses it in the end (`Engine.Convergent.propagate`).

So if two engines converge for the same reason and look alike, then what one of them comes to encloses what
the other one comes to: **they end alike, or both are refuted** (`Engine.Convergent.ends_alike`), and nobody
who follows them step by step can tell them apart (`Engine.Convergent.follow_eq`). -/
namespace BranchBound

namespace Engine
variable {π : Type} [Propagator π] [LawfulPropagator π] {C : Store → Prop} {F : Store} {m m' : Mode}
  {e₀ e e' a₀ a b₀ b : Engine π}

/-- Something is true of the domains whenever the engine is quiet, every turn shelters a store of which it is
true, and no turn breaks down. -/
structure Convergent (e₀ : Engine π) (C : Store → Prop) : Prop where
  valid : e₀.Valid
  closed : ∀ e, e₀.Run .quiet e → C e.store
  sheltered : ∀ e F, e₀.Run .busy e → F.Valid → C F → e.store.Encloses F →
    Ends (turn e) (fun _ e' => e'.store.Encloses F) fun f _ => ∀ source cause, f ≠ .refuted source cause
  unfaulty : ∀ e e' cause, e₀.Run .busy e → e.turn ≠ .error (.fault cause) e'

/-- An engine converges if its propagators shelter what they leave. -/
theorem Meets.convergent {ks : List (Contract π)} (h : Meets ks e₀) (sure : ∀ k ∈ ks, k.Sure)
    (shelters : ∀ k ∈ ks, ∀ p s F, k.Ready p s [] → s.Valid → F.Valid → C F → s.store.Encloses F →
      Ends (Propagator.propagate p s) (fun _ r => r.2.store.Encloses F) Filter.Unrefuted)
    (closed : ∀ e, e₀.Run .quiet e → C e.store) : e₀.Convergent C where
  valid := h.valid
  closed := closed
  sheltered _ F run hF hC encloses :=
    run.ends_turn_spared h (P := (·.Encloses F)) (fun _ hs => hs.congr rfl)
      (fun k hk p s ready hs => shelters k hk p s F ready hs hF hC) encloses
  unfaulty _ _ cause run := run.turn_ne_fault h sure cause

namespace Convergent

/-! ## Propagation -/

/-- A propagation that fails is refuted by a propagator. -/
theorem refuted_of_error {f : Failure} (h : e₀.Convergent C) (run : e₀.Run m e) (idle : m.Idle)
    (failed : e.propagate = .error f e') : ∃ source cause, f = .refuted source cause := by
  obtain ⟨-, -, u, busy, turned⟩ := (run.propagate h.valid idle).of_error failed
  cases f with
  | refuted source cause => exact ⟨source, cause, rfl⟩
  | fault cause => exact absurd turned (h.unfaulty u e' cause busy)

/-- **Propagation from a store that encloses a closed one ends well**, and still encloses it. -/
theorem propagate (h : e₀.Convergent C) (run : e₀.Run m e) (idle : m.Idle) (hF : F.Valid) (closed : C F)
    (encloses : e.store.Encloses F) : ∃ e', e.propagate = .ok () e' ∧ e'.store.Encloses F := by
  have spared := run.propagate_of_turns (P := (·.Encloses F)) (fun _ hs => hs.congr rfl)
    (fun t busy ht => h.sheltered t F busy hF closed ht) idle encloses
  cases hp : e.propagate with
  | ok _ e' => exact ⟨e', rfl, spared.of_ok hp⟩
  | error f e' =>
    obtain ⟨source, cause, rfl⟩ := h.refuted_of_error run idle hp
    exact absurd rfl (spared.of_error hp source cause)

/-- What one engine comes to is enclosed by what another one comes to, if that started alike. -/
theorem propagate_of_ok (ha : a₀.Convergent C) (hb : b₀.Convergent C) (run : a₀.Run m a) (idle : m.Idle)
    (run' : b₀.Run m' b) (idle' : m'.Idle) (alike : a.store.Alike b.store) (ok : a.propagate = .ok () e) :
    ∃ e', b.propagate = .ok () e' ∧ e'.store.Encloses e.store := by
  obtain ⟨quiet, keeps⟩ := (run.propagate ha.valid idle).of_ok ok
  have narrowed : a.store.Encloses e.store := ⟨keeps.below.numVars_eq.symm, keeps.within⟩
  exact hb.propagate run' idle' keeps.valid.space.store (ha.closed e quiet) (alike.enclosed.trans narrowed)

/-- **Two engines that look alike end alike, or both are refuted.** -/
theorem ends_alike (ha : a₀.Convergent C) (hb : b₀.Convergent C) (run : a₀.Run m a) (idle : m.Idle)
    (run' : b₀.Run m' b) (idle' : m'.Idle) (alike : a.store.Alike b.store) :
    (∃ e e', a.propagate = .ok () e ∧ b.propagate = .ok () e' ∧ e.store.Alike e'.store) ∨
      (∃ source cause e, a.propagate = .error (.refuted source cause) e) ∧
        ∃ source cause e, b.propagate = .error (.refuted source cause) e := by
  cases here : a.propagate with
  | ok _ e =>
    obtain ⟨e', there, enclosed⟩ := ha.propagate_of_ok hb run idle run' idle' alike here
    obtain ⟨e'', again, encloses⟩ := hb.propagate_of_ok ha run' idle' run idle alike.symm there
    obtain rfl : e'' = e := by
      rw [here] at again
      cases again
      rfl
    have keeps := ((run.propagate ha.valid idle).of_ok here).2
    have keeps' := ((run'.propagate hb.valid idle').of_ok there).2
    refine .inl ⟨_, e', rfl, there, encloses, enclosed, fun v => ?_⟩
    exact (keeps.below.width_eq v).trans ((alike.width_eq v).trans (keeps'.below.width_eq v).symm)
  | error f e =>
    obtain ⟨source, cause, rfl⟩ := ha.refuted_of_error run idle here
    refine .inr ⟨⟨source, cause, e, rfl⟩, ?_⟩
    cases there : b.propagate with
    | ok _ e' =>
      obtain ⟨e'', again, -⟩ := hb.propagate_of_ok ha run' idle' run idle alike.symm there
      rw [here] at again
      cases again
    | error f' e' =>
      obtain ⟨source', cause', rfl⟩ := hb.refuted_of_error run' idle' there
      exact ⟨source', cause', e', rfl⟩

end Convergent

/-! ## Steps -/

/-- Restrictions are answered alike by engines that look alike, and leave them alike. -/
theorem answers_eq (ha : a₀.Valid) (hb : b₀.Valid) (rs : List Restriction) (run : a₀.Run m a) (idle : m.Idle)
    (run' : b₀.Run m' b) (idle' : m'.Idle) (alike : a.store.Alike b.store) :
    a.answers rs = b.answers rs ∧ (a.restricted rs).store.Alike (b.restricted rs).store ∧
      (∃ m, m.Idle ∧ a₀.Run m (a.restricted rs)) ∧ ∃ m, m.Idle ∧ b₀.Run m (b.restricted rs) := by
  induction rs generalizing m m' a b with
  | nil => exact ⟨rfl, alike, ⟨m, idle, run⟩, m', idle', run'⟩
  | cons r rs ih =>
    have store (e : Engine π) : (e.narrowed r.narrowing).store = r.after e.store := by
      unfold narrowed Restriction.after
      cases r.narrowing e.store <;> rfl
    obtain ⟨answer, alike'⟩ := alike.restrict (run.inside ha).valid.space.store
      (run'.inside hb).valid.space.store r
    rw [← store, ← store] at alike'
    obtain ⟨answers, rest⟩ := ih (run.narrowed ha idle r.lawful) (.inl rfl)
      (run'.narrowed hb idle' r.lawful) (.inl rfl) alike'
    refine ⟨?_, rest⟩
    unfold Engine.answers
    rw [answer, answers]

/-- No step was broken off by a fault. -/
def Unbroken (reports : List Report) : Prop := ∀ report ∈ reports, ∀ cause, report.outcome ≠ .fault cause

/-- **Nobody who follows two engines that look alike can tell them apart**, if they converge for the same
reason. -/
theorem Convergent.follow_eq (ha : a₀.Convergent C) (hb : b₀.Convergent C) (steps : List (List Restriction))
    (run : a₀.Run m a) (idle : m.Idle) (run' : b₀.Run m' b) (idle' : m'.Idle)
    (alike : a.store.Alike b.store) : a.follow steps = b.follow steps ∧ Unbroken (a.follow steps) := by
  induction steps generalizing m m' a b with
  | nil => exact ⟨rfl, fun _ h => by cases h⟩
  | cons rs steps ih =>
    obtain ⟨answers, alike', ⟨n, idle₁, run₁⟩, n', idle₂, run₂⟩ :=
      answers_eq ha.valid hb.valid rs run idle run' idle' alike
    unfold follow
    rw [answers]
    rcases ha.ends_alike hb run₁ idle₁ run₂ idle₂ alike' with ⟨e, e', here, there, same⟩ | ⟨here, there⟩
    · have quiet := run₁.quiet_of_propagate ha.valid idle₁ here
      have quiet' := run₂.quiet_of_propagate hb.valid idle₂ there
      obtain ⟨rest, unbroken⟩ := ih quiet (.inr rfl) quiet' (.inr rfl) same
      have view := same.view_eq (quiet.inside ha.valid).valid.space.store
        (quiet'.inside hb.valid).valid.space.store
      rw [here, there]
      dsimp only
      rw [view, rest]
      refine ⟨rfl, fun report h cause => ?_⟩
      rcases List.mem_cons.mp h with rfl | h
      · simp
      · exact unbroken report (rest ▸ h) cause
    · obtain ⟨source, cause, e, here⟩ := here
      obtain ⟨source', cause', e', there⟩ := there
      rw [here, there]
      refine ⟨rfl, fun report h cause => ?_⟩
      obtain rfl := List.mem_singleton.mp h
      simp

end Engine
end BranchBound
