import BranchBound.Proofs.Contract

/-! # Rules

Most constraints need no memory: a filter, and what it watches.  A rule is such a constraint together
with what is said of it (`Rule`): what it takes for granted of the domains (`Base`), what holds when
its filter has nothing more to say (`Spec`), and the assignments for which the constraint holds.

One walk through the filter shows all of it (`Rule.filtered`), and whoever carries out a rule keeps the
contract that comes with it (`Rule.contract`). -/
namespace BranchBound

/-- The assignments that a filter is meant to spare, where it takes something for granted. -/
def Granted (B : Prop) (Holds : Assignment → Prop) (a : Assignment) : Prop := B ∧ Holds a

/-- Nothing is told of what is watched. -/
def Unwatched (watches : List (Var × List Event)) (new : List (Var × Event)) : Prop :=
  ∀ v events event, (v, events) ∈ watches → event ∈ events → (v, event) ∉ new

theorem unwatched_of {watches : List (Var × List Event)} {new : List (Var × Event)}
    (h : ∀ i v event, (v, event) ∈ new → ¬ WatchedAt watches i v event) : Unwatched watches new := by
  intro v events event hw he hv
  obtain ⟨i, hi⟩ := List.mem_iff_getElem?.mp hw
  exact h i v event hv ⟨events, hi, he⟩

namespace Unwatched
variable {watches : List (Var × List Event)} {new : List (Var × Event)} {s t : Store} {v : Var}

theorem domain_eq (h : Unwatched watches new) (told : Told new s t) (hv : (v, Event.any) ∈ watches) :
    t.domain v = s.domain v := by
  have same := told.silent v fun event => h v _ event hv (Event.mem_any event)
  rw [Store.domain, Store.domain, same]

theorem bounds_eq (h : Unwatched watches new) (told : Told new s t)
    (hv : (v, Event.bounds) ∈ watches) : t.lower v = s.lower v ∧ t.upper v = s.upper v :=
  ⟨told.lower v (h v _ _ hv (by decide)), told.upper v (h v _ _ hv (by decide))⟩

theorem fixed?_eq (h : Unwatched watches new) (told : Told new s t) (hn : s.Narrows t) (hs : s.Valid)
    (hv : (v, [Event.assign]) ∈ watches) : t.fixed? v = s.fixed? v :=
  told.fixed?_eq hn hs (h v _ _ hv (by decide))

/-- What is fixed was fixed before, if nothing was told of it. -/
theorem of_isFixed (h : Unwatched watches new) (told : Told new s t) (hn : s.Narrows t) (hs : s.Valid)
    (hv : (v, [Event.assign]) ∈ watches) (hf : t.isFixed v = true) :
    s.isFixed v = true ∧ t.lower v = s.lower v := by
  have before := (h.fixed?_eq told hn hs hv).symm.trans (Store.isFixed_iff_fixed?.mp hf)
  exact ⟨Store.isFixed_of_fixed? before, (Store.fixed?_eq_some_iff.mp before).1.symm⟩

end Unwatched

/-- A constraint without a memory, with what is said of it. -/
structure Rule where
  watches : List (Var × List Event)
  filter : Filter Unit
  /-- What it takes for granted. -/
  Base : Store → Prop
  /-- What holds when it has nothing more to say. -/
  Spec : Store → Prop
  Holds : Assignment → Prop
  base_congr {s : Store} : Base { domains := s.domains } ↔ Base s
  spec_congr {s : Store} : Spec { domains := s.domains } ↔ Spec s
  base_narrows {s t : Store} : Base s → s.Valid → s.Narrows t → Base t
  spec_told {s t : Store} {new : List (Var × Event)} : Base s → Spec s → s.Valid → s.Narrows t →
    Told new s t → Unwatched watches new → Spec t
  filtered {s : Space} : s.Valid →
    Ends (filter s)
      (fun _ t => s.Narrows Filter.noCells t ∧
        (∀ a, Granted (Base s.store) Holds a → s.store.Admits a → t.store.Admits a) ∧
        (Base s.store → Spec t.store))
      (Filter.Halted Filter.noCells (Granted (Base s.store) Holds) (Base s.store) s)

namespace Rule
variable {π : Type} [Propagator π]

/-- A propagator that does what a rule says. -/
structure Follows (p : π) (r : Rule) : Prop where
  watches : Propagator.watches p = r.watches
  cells : Propagator.cells p = []
  attach : ∀ i s, Propagator.attach p i s = p
  notify : ∀ s i event, Propagator.notify p s i event = (p, true)
  synchronise : ∀ s, Propagator.synchronise p s = p
  propagate : ∀ s, Propagator.propagate p s = r.filter.run p s

omit [Propagator π] in
theorem ends_run {p : π} {f : Filter Unit} {s : Space} {Q : Unit → π × Space → Prop}
    {E : Halt → π × Space → Prop} :
    Ends (f.run p s) Q E ↔ Ends (f s) (fun u t => Q u (p, t)) (fun halt t => E halt (p, t)) :=
  Filter.ends_beside

omit [Propagator π] in
theorem run_of_ok {p : π} {f : Filter Unit} {s t : Space} {u : Unit} (h : f s = .ok u t) :
    f.run p s = .ok u (p, t) := by
  unfold Filter.run Filter.beside
  simp only [h]

omit [Propagator π] in
theorem run_of_error {p : π} {f : Filter Unit} {s t : Space} {halt : Halt} (h : f s = .error halt t) :
    f.run p s = .error halt (p, t) := by
  unfold Filter.run Filter.beside
  simp only [h]

omit [Propagator π] in
/-- A filter that refutes exactly what is hopeless is one that ends well exactly where there is hope. -/
theorem run_exact {p : π} {f : Filter Unit} {s : Space} {hopeless : Prop} {Q : Space → Prop}
    (h : Ends (f s) (fun _ t => ¬ hopeless ∧ Q t)
      (fun halt _ => (∃ cause, halt = .inconsistent cause) ∧ hopeless)) :
    ((∃ cause r, f.run p s = .error (.inconsistent cause) r) ↔ hopeless) ∧
      (¬ hopeless → ∃ t, f.run p s = .ok () (p, t) ∧ Q t) := by
  cases run : f s with
  | ok u t =>
    obtain ⟨hope, done⟩ := h.of_ok run
    rw [run_of_ok run]
    exact ⟨⟨fun ⟨_, _, failed⟩ => (by cases failed), fun none => absurd none hope⟩, fun _ => ⟨t, rfl, done⟩⟩
  | error halt t =>
    obtain ⟨⟨cause, rfl⟩, none⟩ := h.of_error run
    rw [run_of_error run]
    exact ⟨⟨fun _ => none, fun _ => ⟨cause, _, rfl⟩⟩, fun hope => absurd none hope⟩

/-- **A rule is sound**: it takes away no value of what is possible, and refutes only what is not.  What is
possible may be said of some variables only, as long as it is part of an assignment within all domains for which
the constraint holds. -/
theorem ends_sound {r : Rule} {scope : List Var} {P : Assignment → Prop} {s : Space} (hs : s.Valid)
    (base : r.Base s.store) (known : ∀ v ∈ scope, v < s.store.numVars)
    (part : ∀ a, P a → ∃ b, r.Holds b ∧ s.store.Admits b ∧ ∀ v ∈ scope, b v = a v) :
    Ends (r.filter s)
      (fun _ t => s.Narrows Filter.noCells t ∧ ∀ a, P a → ∀ v ∈ scope, t.store.contains v (a v) = true)
      (fun halt _ => (∃ cause, halt = .inconsistent cause) ∧ ∀ a, ¬ P a) := by
  refine (r.filtered hs).mono (fun _ t done => ⟨done.1, fun a possible v hv => ?_⟩) fun halt t halted => ?_
  · obtain ⟨narrows, spares, -⟩ := done
    obtain ⟨b, holds, admitted, same⟩ := part a possible
    have inside := spares b ⟨base, holds⟩ admitted v (narrows.store.numVars_eq ▸ known v hv)
    rwa [same v hv] at inside
  · obtain ⟨cause, rfl⟩ := halted.exists_cause base
    refine ⟨⟨cause, rfl⟩, fun a possible => ?_⟩
    obtain ⟨b, holds, admitted, -⟩ := part a possible
    exact halted.refuted cause rfl b ⟨base, holds⟩ admitted

/-- What keeps to a rule narrows. -/
theorem Follows.narrows {p : π} {r : Rule} (h : Follows p r) {s : Space} (hs : s.Valid) :
    Ends (Propagator.propagate p s) (fun _ t => s.Narrows (fun _ => True) t.2)
      (fun _ t => s.Narrows (fun _ => True) t.2) := by
  rw [h.propagate, ends_run]
  exact (r.filtered hs).mono (fun _ _ ht => ht.1.mono fun _ _ => trivial)
    fun _ _ ht => ht.narrows.mono fun _ _ => trivial

/-- What is relied on of a propagator that follows a rule. -/
def contract {p : π} {r : Rule} (h : Follows p r) : Contract π where
  watches := r.watches
  own := Filter.noCells
  Is q := q = p
  Ready q s _ := q = p ∧ r.Base s.bare.store
  Settled s := r.Base s.bare.store ∧ r.Spec s.bare.store
  Holds := r.Holds
  Sure := True
  is_of_ready ready := ready.1
  ready_mono ready _ := ready
  ready_congr ready hb := ⟨ready.1, hb ▸ ready.2⟩
  settled_congr settled hb := hb ▸ settled
  ready_narrows ready hs hn _ _ _ _ :=
    ⟨ready.1, r.base_congr.mpr (r.base_narrows (r.base_congr.mp ready.2) hs.store hn.store)⟩
  settled_narrows settled hs hn _ told away :=
    have base := r.base_congr.mp settled.1
    ⟨r.base_congr.mpr (r.base_narrows base hs.store hn.store),
      r.spec_congr.mpr (r.spec_told base (r.spec_congr.mp settled.2) hs.store hn.store told
        (unwatched_of away))⟩
  notified _ ready := by
    obtain ⟨rfl, base⟩ := ready
    rw [h.notify]
    exact ⟨⟨rfl, base⟩, rfl⟩
  synchronised is _ settled := by
    subst is
    exact ⟨h.synchronise _, settled.1⟩
  propagated {q s} ready hs := by
    obtain ⟨rfl, base⟩ := ready
    have base' := r.base_congr.mp base
    rw [h.propagate, ends_run]
    refine (r.filtered hs).mono (fun _ t ht => ?_) fun halt t ht =>
      ⟨ht.narrows, rfl, fun _ => ht.unfaulty base'⟩
    obtain ⟨narrows, -, spec⟩ := ht
    have kept := r.base_congr.mpr (r.base_narrows base' hs.store narrows.store)
    exact ⟨narrows, ⟨rfl, kept⟩, kept, r.spec_congr.mpr (spec base')⟩
  spares {q s a} ready hs ha holds := by
    obtain ⟨rfl, base⟩ := ready
    have granted : Granted (r.Base s.store) r.Holds a := ⟨r.base_congr.mp base, holds⟩
    rw [h.propagate, ends_run]
    exact (r.filtered hs).mono (fun _ t ht => ht.2.1 a granted ha)
      fun halt t ht cause hc => ht.refuted cause hc a granted ha

/-- Whoever follows a rule keeps its contract from the start, where it can take for granted what it does. -/
theorem attaches_contract {p : π} {r : Rule} (h : Follows p r) {s : Space} (base : r.Base s.store) :
    (contract h).Attaches p s where
  watches := h.watches.symm
  own _ hi := hi.elim
  ready := ⟨h.attach _ _, r.base_congr.mpr base⟩
  keptPrivate := by
    rintro q s t due ⟨hq, base⟩ same - -
    refine ⟨hq, ?_⟩
    change r.Base { domains := t.store.domains }
    rw [same]
    exact base

end Rule
end BranchBound
