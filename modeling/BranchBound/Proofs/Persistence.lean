import BranchBound.Proofs.Rule

/-! # Filters that have nothing more to do

A filter that has nothing more to do answers and leaves the space as it is.  What it answers depends only
on what it reads.  So it has nothing to do in another space either, if what it reads there is the same, or
has moved only towards where the filter wants it (`Filter.Persists`).  There is one rule for every way in
which filters are put together, as there is for what they keep.

A propagator is not called for its own changes, and it is not told of all changes that others make.  A
rule can bear both if it is *idempotent* (`Rule.Idempotent`): what its filter has come to it would leave as
it is, and so it would after every narrowing of which the rule is told nothing (`Unnoticed`).  Whoever
carries out such a rule keeps a contract by which it has nothing more to do as long as it has settled
(`Rule.Idempotent.contract`). -/
namespace BranchBound

/-! ## Operations that change nothing -/

namespace Store
variable {s t : Store} {v : Var} {x first last : Int}

theorem withDomain_eq_ok {f : Domain → Narrowing} {a : Bool} :
    withDomain v f s = .ok a t ↔ ∃ d, s.domain? v = some d ∧ f d s = .ok a t := by
  unfold withDomain
  cases s.domain? v with
  | none =>
    refine ⟨fun h => (by cases h), fun h => ?_⟩
    obtain ⟨d, hd, -⟩ := h
    cases hd
  | some d =>
    constructor
    · exact fun h => ⟨d, rfl, h⟩
    · rintro ⟨d', hd, h⟩
      cases hd
      exact h

theorem setLower_eq_false_iff :
    setLower v x s = .ok false t ↔ t = s ∧ v < s.numVars ∧ x ≤ s.lower v := by
  unfold setLower
  rw [withDomain_eq_ok]
  constructor
  · rintro ⟨d, hd, h⟩
    have lower : s.lower v = d.lower := congrArg Domain.lower (domain_of hd)
    split at h
    · rename_i le
      cases h
      exact ⟨rfl, lt_numVars_of hd, lower ▸ le⟩
    · cases hc : d.ceil x with
      | none => rw [hc] at h; cases h
      | some b => rw [hc] at h; cases h
  · rintro ⟨rfl, hv, le⟩
    exact ⟨_, domain?_eq_some hv, by rw [if_pos (show x ≤ (t.domain v).lower from le)]; rfl⟩

theorem setUpper_eq_false_iff :
    setUpper v x s = .ok false t ↔ t = s ∧ v < s.numVars ∧ s.upper v ≤ x := by
  unfold setUpper
  rw [withDomain_eq_ok]
  constructor
  · rintro ⟨d, hd, h⟩
    have upper : s.upper v = d.upper := congrArg Domain.upper (domain_of hd)
    split at h
    · rename_i le
      cases h
      exact ⟨rfl, lt_numVars_of hd, upper ▸ le⟩
    · cases hc : d.floor x with
      | none => rw [hc] at h; cases h
      | some b => rw [hc] at h; cases h
  · rintro ⟨rfl, hv, le⟩
    exact ⟨_, domain?_eq_some hv, by rw [if_pos (show (t.domain v).upper ≤ x from le)]; rfl⟩

/-- Whether there is nothing to do to remove `x`, or nothing that can be done. -/
def Gone (s : Store) (v : Var) (x : Int) : Prop :=
  s.contains v x = false ∨ ((s.domain v).hasHoles = false ∧ x ≠ s.lower v ∧ x ≠ s.upper v)

theorem Gone.congr (h : s.Gone v x) (domain : t.domain v = s.domain v) : t.Gone v x := by
  unfold Gone contains lower upper at h ⊢
  rwa [domain]

theorem remove_eq_false_iff (hs : s.Valid) :
    remove v x s = .ok false t ↔ t = s ∧ v < s.numVars ∧ s.Gone v x := by
  unfold remove
  rw [withDomain_eq_ok]
  constructor
  · rintro ⟨d, hd, h⟩
    have domain : s.domain v = d := domain_of hd
    have hv := lt_numVars_of hd
    unfold Gone contains lower upper
    rw [domain]
    split at h
    · rename_i out
      cases h
      exact ⟨rfl, hv, .inl (by simpa using out)⟩
    · split at h
      · cases h
      · split at h
        · rename_i heq
          obtain ⟨-, -, le⟩ := setLower_eq_false_iff.mp h
          unfold lower at le
          rw [domain] at le
          omega
        · rename_i hne
          split at h
          · rename_i heq
            obtain ⟨-, -, le⟩ := setUpper_eq_false_iff.mp h
            unfold upper at le
            rw [domain] at le
            omega
          · rename_i hne'
            split at h
            · cases h
            · rename_i plain
              cases h
              exact ⟨rfl, hv, .inr ⟨by simpa using plain, hne, hne'⟩⟩
  · rintro ⟨rfl, hv, gone⟩
    refine ⟨_, domain?_eq_some hv, ?_⟩
    by_cases hin : (t.domain v).contains x = true
    · obtain ⟨plain, hne, hne'⟩ := gone.resolve_left fun out => absurd (hin.symm.trans out) (by simp)
      have bounds := bounds_of_contains (s := t) (v := v) hin
      have opened : t.lower v ≠ t.upper v := by omega
      rw [if_neg (by simp [hin]), if_neg (show (t.domain v).lower ≠ (t.domain v).upper from opened),
        if_neg (show x ≠ (t.domain v).lower from hne), if_neg (show x ≠ (t.domain v).upper from hne'),
        plain]
      rfl
    · rw [if_pos (by simpa using hin)]
      rfl

theorem both_eq_false {f g : Narrowing} (hf : f s = .ok false s) (hg : g s = .ok false s) :
    both f g s = .ok false s := by
  unfold both
  rw [bind_of_ok hf, bind_of_ok hg]
  rfl

theorem assign_eq_false (hs : s.Valid) (hv : v < s.numVars) (fixed : s.fixed? v = some x) :
    assign v x s = .ok false s := by
  obtain ⟨lower, upper⟩ := fixed?_eq_some_iff.mp fixed
  have hin : s.contains v x = true := lower ▸ hs.contains_lower v
  refine withDomain_eq_ok.mpr ⟨_, domain?_eq_some hv, ?_⟩
  rw [if_pos (show (s.domain v).contains x = true from hin)]
  exact both_eq_false (setLower_eq_false_iff.mpr ⟨rfl, hv, Int.le_of_eq lower.symm⟩)
    (setUpper_eq_false_iff.mpr ⟨rfl, hv, Int.le_of_eq upper⟩)

theorem narrow_eq_false (hs : s.Valid) (hv : v < s.numVars) (hl : first ≤ s.lower v)
    (hu : s.upper v ≤ last) : narrow v first last s = .ok false s := by
  have lower : max first (s.domain v).lower = s.lower v := by
    unfold Store.lower at hl ⊢
    omega
  have upper : min last (s.domain v).upper = s.upper v := by
    unfold Store.upper at hu ⊢
    omega
  have ceil : (s.domain v).ceil (s.lower v) = some (s.lower v) := by
    have within := hs.lower_le_upper v
    obtain ⟨n, hn⟩ : ∃ n, ((s.domain v).upper - s.lower v + 1).toNat = n + 1 :=
      ⟨((s.domain v).upper - s.lower v).toNat, by unfold Store.lower Store.upper at *; omega⟩
    unfold Domain.ceil
    rw [hn]
    unfold Domain.firstPresent
    exact if_pos (hs.domain v).lower_present
  refine withDomain_eq_ok.mpr ⟨_, domain?_eq_some hv, ?_⟩
  rw [lower, upper, ceil]
  dsimp only
  rw [if_pos (hs.lower_le_upper v)]
  exact both_eq_false (setLower_eq_false_iff.mpr ⟨rfl, hv, Int.le_refl _⟩)
    (setUpper_eq_false_iff.mpr ⟨rfl, hv, Int.le_refl _⟩)

end Store

/-! ## What a filter answers in two spaces -/

/-- A result that is known. -/
theorem eq_ok_of_ends {ε σ α : Type} {r : EStateM.Result ε σ α} {a : α} {s : σ}
    (h : Ends r (fun b t => b = a ∧ t = s) fun _ _ => False) : r = .ok a s := by
  cases r with
  | ok b t =>
    obtain ⟨rfl, rfl⟩ := h
    rfl
  | error e t => exact h.elim

namespace Filter
variable {α β γ : Type} {s t u : Space} {P : α → Prop} {Q : β → Prop}

/-- Where `f` gives an answer of a kind in `s`, it leaves `s` as it is, and it gives the answer in `t` as
well, and leaves `t` as it is. -/
def Persists (P : α → Prop) (f : Filter α) (s t : Space) : Prop :=
  ∀ a u, P a → f s = .ok a u → u = s ∧ f t = .ok a t

/-- The answer of a filter that changed nothing. -/
def Unchanged (changed : Bool) : Prop := changed = false

theorem onStore_eq_ok {f : EStateM Halt Store α} {a : α} :
    onStore f s = .ok a u ↔ f s.store = .ok a u.store ∧ u.cells = s.cells := by
  obtain ⟨store, cells⟩ := s
  obtain ⟨store', cells'⟩ := u
  unfold onStore
  dsimp only
  cases f store with
  | error e store'' => exact ⟨fun h => (by cases h), fun h => by cases h.1⟩
  | ok b store'' =>
    constructor
    · intro h
      cases h
      exact ⟨rfl, rfl⟩
    · rintro ⟨h, rfl⟩
      cases h
      rfl

theorem persists_pure {a : α} : Persists P (pure a) s t := by
  intro b u _ h
  cases h
  exact ⟨rfl, rfl⟩

theorem persists_refute {cause : Inconsistency} : Persists P (refute cause) s t :=
  fun _ _ _ h => by cases h

theorem persists_bind {f : Filter α} {g : α → Filter β} (hf : Persists P f s t)
    (hg : ∀ a, P a → Persists Q (g a) s t)
    (back : ∀ a u b w, Q b → g a u = .ok b w → P a) : Persists Q (f >>= g) s t := by
  intro b w hb h
  obtain ⟨a, u, hfs, hgu⟩ := bind_eq_ok h
  have ha := back a u b w hb hgu
  obtain ⟨rfl, hft⟩ := hf a u ha hfs
  obtain ⟨rfl, hgt⟩ := hg a ha b w hb hgu
  exact ⟨rfl, (bind_of_ok hft).trans hgt⟩

theorem persists_read {f : Store → α} {g : α → Filter β} (same : f t.store = f s.store)
    (hg : Persists Q (g (f s.store)) s t) : Persists Q (read f >>= g) s t := by
  intro b u hb h
  obtain ⟨rfl, hgt⟩ := hg b u hb h
  exact ⟨rfl, show g (f t.store) t = _ from same ▸ hgt⟩

theorem persists_demand {o : Option α} {g : α → Filter β} (hg : ∀ a, o = some a → Persists Q (g a) s t) :
    Persists Q (demand o >>= g) s t := by
  cases o with
  | none => exact fun _ _ _ h => by cases h
  | some a => exact hg a rfl

/-- What is gathered from a list, if every element adds to it. -/
theorem persists_foldlM {f : β → γ → Filter β} {xs : List γ}
    (step : ∀ x ∈ xs, ∀ b, Q b → Persists Q (f b x) s t)
    (back : ∀ x ∈ xs, ∀ b u b' w, Q b' → f b x u = .ok b' w → Q b) (b : β) (hb : Q b) :
    Persists Q (xs.foldlM f b) s t := by
  have back_all (ys : List γ) (hys : ys ⊆ xs) (b : β) (u : Space) (b' : β) (w : Space) (hb' : Q b')
      (h : (ys.foldlM f b : Filter β) u = .ok b' w) : Q b := by
    induction ys generalizing b u with
    | nil =>
      cases h
      exact hb'
    | cons y ys ih =>
      rw [List.foldlM_cons] at h
      obtain ⟨c, u', hfirst, hrest⟩ := bind_eq_ok h
      exact back y (hys List.mem_cons_self) b u c u'
        (ih (fun z hz => hys (List.mem_cons_of_mem y hz)) c u' hrest) hfirst
  suffices ∀ ys, ys ⊆ xs → ∀ b, Q b → Persists Q (ys.foldlM f b) s t from
    this xs (List.Subset.refl xs) b hb
  intro ys hys
  induction ys with
  | nil => exact fun b _ => persists_pure
  | cons y ys ih =>
    intro b hb
    have rest : ys ⊆ xs := fun z hz => hys (List.mem_cons_of_mem y hz)
    rw [List.foldlM_cons]
    exact persists_bind (step y (hys List.mem_cons_self) b hb) (fun c hc => ih rest c hc)
      fun c u b' w hb' h => back_all ys rest c u b' w hb' h

/-- An answer that is added to another. -/
theorem unchanged_of_or {f : Filter Bool} {a b : Bool} {w : Space} (hb : Unchanged b)
    (h : (do let c ← f; return c || a) u = .ok b w) : Unchanged a := by
  obtain ⟨c, u', -, heq⟩ := bind_eq_ok h
  cases heq
  exact (Bool.or_eq_false_iff.mp hb).2

theorem persists_or {f : Filter Bool} {a : Bool} (hf : Persists Unchanged f s t) :
    Persists Unchanged (do let c ← f; return c || a) s t := by
  refine persists_bind hf (fun c _ => persists_pure) fun c u b w hb heq => ?_
  cases heq
  exact (Bool.or_eq_false_iff.mp hb).1

theorem persists_each {xs : List γ} {f : γ → Filter Bool}
    (step : ∀ x ∈ xs, Persists Unchanged (f x) s t) : Persists Unchanged (each xs f) s t :=
  persists_foldlM (fun x hx _ _ => persists_or (step x hx))
    (fun _ _ _ _ _ _ hb h => unchanged_of_or hb h) false rfl

theorem persists_inTurn {fs : List (Filter Bool)} (h : ∀ f ∈ fs, Persists Unchanged f s t) :
    Persists Unchanged (inTurn fs) s t :=
  persists_each h

theorem persists_pair {f g : Filter Bool} (hf : Persists Unchanged f s t) (hg : Persists Unchanged g s t) :
    Persists Unchanged (inTurn [f, g]) s t :=
  persists_inTurn (List.forall_mem_cons.mpr ⟨hf, List.forall_mem_singleton.mpr hg⟩)

/-- All of them have nothing to do. -/
theorem each_eq_false {xs : List γ} {f : γ → Filter Bool} (h : ∀ x ∈ xs, f x s = .ok false s) :
    each xs f s = .ok false s := by
  unfold each
  induction xs with
  | nil => rfl
  | cons x xs ih =>
    have first : (do return (← f x) || false : Filter Bool) s = .ok false s :=
      (bind_of_ok (h x List.mem_cons_self)).trans rfl
    rw [List.foldlM_cons, bind_of_ok first]
    exact ih fun y hy => h y (List.mem_cons_of_mem x hy)

/-- A filter whose answer is not looked at. -/
theorem discard_eq {f : Filter α} {a : α} (h : f s = .ok a u) : (discard f : Filter Unit) s = .ok () u := by
  change EStateM.map _ f s = _
  unfold EStateM.map
  rw [h]

theorem discard_bind_eq {f : Filter α} {g : Filter β} {a : α} (h : f s = .ok a u) :
    (do discard f; g) s = g u :=
  bind_of_ok (discard_eq h)

/-- A narrowing that has nothing to do in either store. -/
theorem persists_onStore {f : Store.Narrowing} (h : ∀ store, f s.store = .ok false store →
    store = s.store ∧ f t.store = .ok false t.store) : Persists Unchanged (onStore f) s t := by
  rintro _ u rfl hs
  obtain ⟨hs, cells⟩ := onStore_eq_ok.mp hs
  obtain ⟨store, ht⟩ := h u.store hs
  refine ⟨?_, onStore_eq_ok.mpr ⟨ht, rfl⟩⟩
  cases u
  cases s
  cases store
  cases cells
  rfl

section
variable {v : Var} {x first last : Int} (numVars : t.store.numVars = s.store.numVars)
include numVars

theorem persists_setLower (h : x ≤ s.store.lower v → x ≤ t.store.lower v) :
    Persists Unchanged (setLower v x) s t := by
  refine persists_onStore fun store hs => ?_
  obtain ⟨rfl, hv, le⟩ := Store.setLower_eq_false_iff.mp hs
  exact ⟨rfl, Store.setLower_eq_false_iff.mpr ⟨rfl, numVars ▸ hv, h le⟩⟩

theorem persists_setUpper (h : s.store.upper v ≤ x → t.store.upper v ≤ x) :
    Persists Unchanged (setUpper v x) s t := by
  refine persists_onStore fun store hs => ?_
  obtain ⟨rfl, hv, le⟩ := Store.setUpper_eq_false_iff.mp hs
  exact ⟨rfl, Store.setUpper_eq_false_iff.mpr ⟨rfl, numVars ▸ hv, h le⟩⟩

theorem persists_remove (hs : s.store.Valid) (ht : t.store.Valid)
    (h : s.store.Gone v x → t.store.Gone v x) : Persists Unchanged (remove v x) s t := by
  refine persists_onStore fun store hsu => ?_
  obtain ⟨rfl, hv, gone⟩ := (Store.remove_eq_false_iff hs).mp hsu
  exact ⟨rfl, (Store.remove_eq_false_iff ht).mpr ⟨rfl, numVars ▸ hv, h gone⟩⟩

theorem persists_narrow (hs : s.store.Valid) (ht : t.store.Valid)
    (h : first ≤ s.store.lower v ∧ s.store.upper v ≤ last →
      first ≤ t.store.lower v ∧ t.store.upper v ≤ last) : Persists Unchanged (narrow v first last) s t := by
  refine persists_onStore fun store hsu => ?_
  have narrowed := (Store.keeps_narrow hs).of_ok hsu
  obtain rfl := narrowed.unchanged rfl
  have bounds := h ⟨((narrowed.contains_iff _).mp (hs.contains_lower v)).2.1,
    ((narrowed.contains_iff _).mp (hs.contains_upper v)).2.2⟩
  obtain ⟨d, hd, -⟩ := Store.withDomain_eq_ok.mp hsu
  exact ⟨rfl, Store.narrow_eq_false ht (numVars ▸ Store.lt_numVars_of hd) bounds.1 bounds.2⟩

end

/-! ## Repetition -/

/-- What a filter does, whatever it is meant to spare. -/
theorem Filters.forget {own : Nat → Prop} {H : Assignment → Prop} {B R : Prop} {f : Filter Bool}
    (h : Filters own H B f s R) : Filters own (fun _ => False) False f s R :=
  Ends.mono h (fun _ _ hu => ⟨⟨hu.1.narrows, hu.1.unchanged, hu.1.changed_lt, fun _ h => h.elim⟩, hu.2⟩)
    fun _ _ hu => ⟨hu.narrows, fun h => h.elim, fun _ _ _ h => h.elim⟩

/-- **A pass that was repeated until it changed nothing would change nothing.** -/
theorem pass_of_untilStable {own : Nat → Prop} {pass : Filter Bool}
    (work : ∀ u, s.Narrows own u → ∃ H B R, Filters own H B pass u R)
    (h : untilStable pass s = .ok () t) : pass t = .ok false t := by
  have rests (u : Space) (hu : s.Narrows own u) :
      Filters own (fun _ => False) False pass u (pass u = .ok false u) := by
    obtain ⟨H, B, R, hR⟩ := work u hu
    refine ends_of (fun changed w hw => ?_) fun halt w hw => hR.forget.of_error hw
    have advance := (hR.forget.of_ok hw).1
    refine ⟨advance, fun unchanged => ?_⟩
    obtain rfl := advance.unchanged unchanged
    rw [hw, unchanged]
  exact ((ends_untilStable rests).of_ok h).2.2

theorem untilStable_of_pass {pass : Filter Bool} (h : pass s = .ok false s) :
    untilStable pass s = .ok () s :=
  descend_of_done h

end Filter

/-! ## Narrowings that are not noticed -/

/-- One store came from the other by narrowings of which somebody who watches this is told nothing. -/
structure Unnoticed (watches : List (Var × List Event)) (s t : Store) : Prop where
  numVars_eq : t.numVars = s.numVars
  contains : ∀ v x, t.contains v x = true → s.contains v x = true
  domain_eq : ∀ v, (v, Event.any) ∈ watches → t.domain v = s.domain v
  bounds_eq : ∀ v, (v, Event.bounds) ∈ watches → t.lower v = s.lower v ∧ t.upper v = s.upper v
  upper_eq : ∀ v, (v, [Event.upperBound]) ∈ watches → t.upper v = s.upper v
  fixed?_eq : ∀ v, (v, [Event.assign]) ∈ watches → t.fixed? v = s.fixed? v

namespace Unnoticed
variable {watches : List (Var × List Event)} {s t u : Store} {v : Var}

theorem of_told {new : List (Var × Event)} (hs : s.Valid) (hn : s.Narrows t) (told : Told new s t)
    (away : Unwatched watches new) : Unnoticed watches s t where
  numVars_eq := hn.numVars_eq
  contains _ _ hx := hn.contains hs hx
  domain_eq _ hv := away.domain_eq told hv
  bounds_eq _ hv := away.bounds_eq told hv
  upper_eq v hv := told.upper v (away v _ _ hv (List.mem_singleton_self _))
  fixed?_eq _ hv := away.fixed?_eq told hn hs hv

/-- What is noticed is noticed of the domains alone. -/
theorem congr (h : Unnoticed watches s t) (domains : u.domains = t.domains) :
    Unnoticed watches s u := by
  have domain (v : Var) : u.domain v = t.domain v := by
    unfold Store.domain Store.domain?
    rw [domains]
  refine ⟨(congrArg Arena.size domains).trans h.numVars_eq, fun v x hx => h.contains v x ?_,
    fun v hv => (domain v).trans (h.domain_eq v hv), fun v hv => ?_, fun v hv => ?_, fun v hv => ?_⟩
  · rwa [Store.contains, domain] at hx
  · rw [Store.lower, Store.upper, domain]
    exact h.bounds_eq v hv
  · rw [Store.upper, domain]
    exact h.upper_eq v hv
  · rw [Store.fixed?, domain]
    exact h.fixed?_eq v hv

theorem of_domains (domains : t.domains = s.domains) : Unnoticed watches s t :=
  congr ⟨rfl, fun _ _ => id, fun _ _ => rfl, fun _ _ => ⟨rfl, rfl⟩, fun _ _ => rfl, fun _ _ => rfl⟩ domains

theorem lower_le (h : Unnoticed watches s t) (ht : t.Valid) (v : Var) : s.lower v ≤ t.lower v :=
  (Store.bounds_of_contains (h.contains v _ (ht.contains_lower v))).1

theorem upper_le (h : Unnoticed watches s t) (ht : t.Valid) (v : Var) : t.upper v ≤ s.upper v :=
  (Store.bounds_of_contains (h.contains v _ (ht.contains_upper v))).2

theorem isFixed_eq (h : Unnoticed watches s t) (hv : (v, [Event.assign]) ∈ watches) :
    t.isFixed v = s.isFixed v := by
  have same := h.fixed?_eq v hv
  cases hf : s.isFixed v with
  | false => exact Store.fixed?_eq_none_iff.mp (same.trans (Store.fixed?_eq_none_iff.mpr hf))
  | true =>
    by_contra hne
    rw [Bool.not_eq_true] at hne
    have := Store.fixed?_eq_none_iff.mp (same.symm.trans (Store.fixed?_eq_none_iff.mpr hne))
    rw [hf] at this
    cases this

end Unnoticed

/-! ## Idempotent rules -/

namespace Rule

/-- A rule whose filter has nothing more to do where it has come to, nor after narrowings that it is not
told of, as long as the domains are fit for it. -/
structure Idempotent (r : Rule) (Fit : Store → Prop) : Prop where
  narrows : ∀ {s t : Store}, Fit s → s.Valid → s.Narrows t → Fit t
  grows : ∀ {s t : Store}, Fit s → s.Grows t → Fit t
  again : ∀ {s t : Space}, s.Valid → Fit s.store → r.filter s = .ok () t → r.filter t = .ok () t
  unnoticed : ∀ {s t : Space}, s.Valid → t.Valid → Fit s.store → Fit t.store →
    Unnoticed r.watches s.store t.store → r.filter s = .ok () s → r.filter t = .ok () t

variable {r : Rule} {Fit : Store → Prop}

/-- **A rule that repeats a pass is idempotent** if the pass persists in what the rule does not notice. -/
theorem idempotent_of_pass (pass : Filter Bool) (filter : r.filter = Filter.untilStable pass)
    (narrows : ∀ {s t : Store}, Fit s → s.Valid → s.Narrows t → Fit t)
    (grows : ∀ {s t : Store}, Fit s → s.Grows t → Fit t)
    (work : ∀ s : Space, s.Valid → ∃ H B R, Filter.Filters Filter.noCells H B pass s R)
    (persists : ∀ s t : Space, s.Valid → t.Valid → Fit s.store → Fit t.store →
      Unnoticed r.watches s.store t.store → Filter.Persists Filter.Unchanged pass s t) :
    r.Idempotent Fit := by
  have rests {s t : Space} (hs : s.Valid) (h : r.filter s = .ok () t) : pass t = .ok false t :=
    Filter.pass_of_untilStable (fun u hu => work u (hu.valid hs)) (filter ▸ h)
  refine ⟨narrows, grows, fun hs _ h => ?_, fun {s t} hs ht fit fit' unnoticed h => ?_⟩
  · rw [filter]
    exact Filter.untilStable_of_pass (rests hs h)
  · rw [filter]
    exact Filter.untilStable_of_pass (persists s t hs ht fit fit' unnoticed false s rfl (rests hs h)).2

/-- The domains are fit for a rule, and its filter has nothing more to do with them. -/
def Quiescent (r : Rule) (Fit : Store → Prop) (s : Space) : Prop :=
  Fit s.store ∧ ∀ t : Space, t.Valid → t.store.domains = s.store.domains → r.filter t = .ok () t

namespace Idempotent
variable {s t : Space} (i : r.Idempotent Fit)
include i

theorem fit_congr (fit : Fit s.store) (domains : t.store.domains = s.store.domains) : Fit t.store :=
  i.grows fit (Store.grows_of_domains domains)

/-- **A filter that ended well has nothing more to do.** -/
theorem quiescent_of_ok (hs : s.Valid) (ht : t.Valid) (fit : Fit t.store) (fit' : Fit s.store)
    (h : r.filter s = .ok () t) : r.Quiescent Fit t :=
  ⟨fit, fun _ hu domains => i.unnoticed ht hu fit (i.fit_congr fit domains) (.of_domains domains)
    (i.again hs fit' h)⟩

/-- **A filter that has nothing to do has nothing to do after narrowings that are not noticed.** -/
theorem quiescent_of_unnoticed (hs : s.Valid) (h : r.Quiescent Fit s) (fit : Fit t.store)
    (unnoticed : Unnoticed r.watches s.store t.store) : r.Quiescent Fit t :=
  ⟨fit, fun _ hu domains => i.unnoticed hs hu h.1 (i.fit_congr fit domains) (unnoticed.congr domains)
    (h.2 s hs rfl)⟩

variable {π : Type} [Propagator π] {p : π}

/-- What is relied on of a propagator that follows an idempotent rule. -/
def contract (h : Follows p r) : Contract π where
  watches := r.watches
  own := Filter.noCells
  Is q := q = p
  Ready q s _ := q = p ∧ Fit s.store
  Settled := r.Quiescent Fit
  Holds _ := False
  Sure := False
  is_of_ready ready := ready.1
  ready_mono ready _ := ready
  ready_congr ready hb := ⟨ready.1, i.fit_congr ready.2 (congrArg (·.store.domains) hb)⟩
  settled_congr settled hb :=
    have domains := congrArg (·.store.domains) hb
    ⟨i.fit_congr settled.1 domains, fun u hu heq => settled.2 u hu (heq.trans domains)⟩
  ready_narrows ready hs hn _ _ _ _ := ⟨ready.1, i.narrows ready.2 hs.store hn.store⟩
  settled_narrows settled hs hn _ told away :=
    i.quiescent_of_unnoticed hs settled (i.narrows settled.1 hs.store hn.store)
      (.of_told hs.store hn.store told (unwatched_of away))
  notified _ ready := by
    obtain ⟨rfl, fit⟩ := ready
    rw [h.notify]
    exact ⟨⟨rfl, fit⟩, rfl⟩
  synchronised is _ settled := by
    subst is
    exact ⟨h.synchronise _, settled.1⟩
  propagated {q s} ready hs := by
    obtain ⟨rfl, fit⟩ := ready
    rw [h.propagate, ends_run]
    refine ends_of (fun _ t ht => ?_) fun halt t ht =>
      ⟨((r.filtered hs).of_error ht).narrows, rfl, fun h => h.elim⟩
    have narrows := ((r.filtered hs).of_ok ht).1
    have fit' := i.narrows fit hs.store narrows.store
    exact ⟨narrows, ⟨rfl, fit'⟩, i.quiescent_of_ok hs (narrows.valid hs) fit' fit ht⟩
  spares _ _ _ holds := holds.elim

theorem attaches_contract (h : Follows p r) {s : Space} (fit : Fit s.store) :
    (i.contract h).Attaches p s where
  watches := h.watches.symm
  own _ hi := hi.elim
  ready := ⟨h.attach _ _, fit⟩
  keptPrivate := fun _ _ _ _ ready same _ _ => ⟨ready.1, i.fit_congr ready.2 (congrArg Store.domains same)⟩

end Idempotent

/-- **As long as a rule has settled, a call changes nothing.** -/
theorem Quiescent.propagate_eq {π : Type} [Propagator π] {p : π} {s : Space} (h : r.Quiescent Fit s)
    (follows : Follows p r) (hs : s.Valid) : Propagator.propagate p s = .ok () (p, s) := by
  rw [follows.propagate]
  unfold Filter.run Filter.beside
  dsimp only
  rw [h.2 s hs rfl]

end Rule
end BranchBound
