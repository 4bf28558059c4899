import BranchBound.Proofs.Space

/-! # What filters keep

A filter is meant to spare a set of assignments.  What it is to do its work in a space is put down in
one judgement, `Filters`: it narrows the space and answers whether it did, where `false` means that
the space is what it was; it neither removes an assignment that it is meant to spare nor refutes
domains that contain one; it does not break down; and when it answers `false` it has nothing more to
say, which is what a constraint is known by.

There is one rule for every way in which filters are put together.  So **a pass that is repeated until
it narrows nothing comes to a space of which it has nothing more to say** (`ends_untilStable`). -/
namespace BranchBound

/-- A value for every variable. -/
abbrev Assignment := Var → Int

namespace Store
variable {s t : Store} {a : Assignment} {v : Var} {keep : Int → Prop}

/-- The assignment is within the domains. -/
def Admits (s : Store) (a : Assignment) : Prop := ∀ v, v < s.numVars → s.contains v (a v) = true

theorem Narrowed.admits {changed : Bool} (h : Narrowed s v keep changed t) (ha : s.Admits a)
    (hk : keep (a v)) : t.Admits a := by
  intro w hw
  rw [h.narrows.numVars_eq] at hw
  by_cases hwv : w = v
  · subst w
    exact (h.contains_iff _).mpr ⟨ha v hw, hk⟩
  · have := ha w hw
    rwa [contains, domain, ← h.others w hwv] at this

/-- What is within the domains of some variables is part of an assignment within all domains. -/
theorem Valid.exists_admits {P : Var → Prop} (hs : s.Valid)
    (h : ∀ v, P v → s.contains v (a v) = true) : ∃ b, s.Admits b ∧ ∀ v, P v → b v = a v := by
  classical
  refine ⟨fun v => if P v then a v else s.lower v, fun v _ => ?_, fun v hv => if_pos hv⟩
  dsimp only
  split
  · exact h v ‹_›
  · exact hs.contains_lower v

theorem Narrows.admits (h : s.Narrows t) (hs : s.Valid) (ht : t.Admits a) : s.Admits a :=
  fun v hv => h.contains hs (ht v (h.numVars_eq ▸ hv))

end Store

namespace Filter
variable {own : Nat → Prop} {α β : Type} {s t : Space} {a : Assignment}

/-- No cell at all. -/
def noCells : Nat → Prop := fun _ => False

@[simp] theorem ends_read {f : Store → α} {Q : α → Space → Prop} {E : Halt → Space → Prop} :
    Ends (read f s) Q E ↔ Q (f s.store) s := Iff.rfl

theorem ends_onStore {f : EStateM Halt Store α} {Q : α → Space → Prop} {E : Halt → Space → Prop} :
    Ends (onStore f s) Q E ↔
      Ends (f s.store) (fun a store => Q a ⟨store, s.cells⟩) (fun e store => E e ⟨store, s.cells⟩) := by
  obtain ⟨store, cells⟩ := s
  unfold onStore
  dsimp only
  cases f store with
  | ok a store => exact Iff.rfl
  | error e store => exact Iff.rfl

/-- A narrowing of a known variable, with exactly what is left and when there is nothing. -/
theorem ends_onStore_of_keeps {f : Store.Narrowing} {v : Var} {keep : Int → Prop}
    (h : s.store.Keeps v keep f) (known : v < s.store.numVars) :
    Ends (onStore f s) (fun changed t => s.store.Narrowed v keep changed t.store)
      (fun halt _ => (∃ cause, halt = .inconsistent cause) ∧
        ∀ x, s.store.contains v x = true → ¬ keep x) := by
  rw [ends_onStore]
  refine h.mono (fun _ _ narrowed => narrowed) fun halt t refused => ?_
  cases refused with
  | empty _ none => exact ⟨⟨_, rfl⟩, none⟩
  | unknown missing => exact absurd (Store.domain?_eq_none_iff.mp missing) (Nat.not_le_of_lt known)

theorem ends_beside {μ : Type} {m : μ} {f : Filter α} {Q : α → μ × Space → Prop}
    {E : Halt → μ × Space → Prop} :
    Ends (f.beside (m, s)) Q E ↔
      Ends (f s) (fun a t => Q a (m, t)) (fun e t => E e (m, t)) := by
  unfold beside
  dsimp only
  cases f s with
  | ok a t => exact Iff.rfl
  | error e t => exact Iff.rfl

/-! ## The judgement -/

/-- What a filter has done to a space, with its answer. -/
structure Advance (own : Nat → Prop) (H : Assignment → Prop) (s : Space) (changed : Bool)
    (t : Space) : Prop where
  narrows : s.Narrows own t
  unchanged : changed = false → t = s
  changed_lt : changed = true → t.numValues < s.numValues
  admits : ∀ a, H a → s.store.Admits a → t.store.Admits a

/-- What is left by a filter that ended early: it breaks down only if `B` does not hold, and refutes
only domains without an assignment that it is meant to spare. -/
structure Halted (own : Nat → Prop) (H : Assignment → Prop) (B : Prop) (s : Space) (halt : Halt)
    (t : Space) : Prop where
  narrows : s.Narrows own t
  unfaulty : B → ∀ cause, halt ≠ .fault cause
  refuted : ∀ cause, halt = .inconsistent cause → ∀ a, H a → ¬ s.store.Admits a

theorem Halted.exists_cause {H : Assignment → Prop} {B : Prop} {halt : Halt} (h : Halted own H B s halt t)
    (hB : B) : ∃ cause, halt = .inconsistent cause := by
  cases halt with
  | inconsistent cause => exact ⟨cause, rfl⟩
  | fault cause => exact absurd rfl (h.unfaulty hB cause)

/-- A filter does its work, and if it answers that it changed nothing, `P` holds. -/
def Filters (own : Nat → Prop) (H : Assignment → Prop) (B : Prop) (f : Filter Bool) (s : Space)
    (P : Prop) : Prop :=
  Ends (f s) (fun changed t => Advance own H s changed t ∧ (changed = false → P))
    (Halted own H B s)

section
variable {H : Assignment → Prop} {B P Q : Prop} {u : Space}

theorem Advance.refl : Advance own H s false s := ⟨.refl, fun _ => rfl, fun h => (by cases h), fun _ _ => id⟩

theorem Advance.numValues_le {changed : Bool} (h : Advance own H s changed t) :
    t.numValues ≤ s.numValues := by
  cases changed with
  | false => exact Nat.le_of_eq (congrArg Space.numValues (h.unchanged rfl))
  | true => exact Nat.le_of_lt (h.changed_lt rfl)

theorem Advance.trans {a b : Bool} (h : Advance own H s a t) (h' : Advance own H t b u) :
    Advance own H s (b || a) u where
  narrows := h.narrows.trans h'.narrows
  unchanged hab := by
    simp only [Bool.or_eq_false_iff] at hab
    rw [h'.unchanged hab.1, h.unchanged hab.2]
  changed_lt hab := by
    cases b with
    | false => exact Nat.lt_of_le_of_lt h'.numValues_le (h.changed_lt (by simpa using hab))
    | true => exact Nat.lt_of_lt_of_le (h'.changed_lt rfl) h.numValues_le
  admits a ha hs := h'.admits a ha (h.admits a ha hs)

theorem Halted.after {changed : Bool} {halt : Halt} (h : Advance own H s changed t)
    (h' : Halted own H B t halt u) : Halted own H B s halt u where
  narrows := h.narrows.trans h'.narrows
  unfaulty := h'.unfaulty
  refuted cause hc a ha hs := h'.refuted cause hc a ha (h.admits a ha hs)

theorem Filters.mono {f : Filter Bool} (h : Filters own H B f s P) (hPQ : P → Q) :
    Filters own H B f s Q :=
  Ends.mono_ok h fun _ _ hc => ⟨hc.1, fun hf => hPQ (hc.2 hf)⟩

/-! ## Single filters -/

theorem filters_pure (h : P) : Filters own H B (pure false) s P := ⟨.refl, fun _ => h⟩

theorem filters_refute {cause : Inconsistency} (h : ∀ a, H a → ¬ s.store.Admits a) :
    Filters own H B (refute cause) s P :=
  ⟨.refl, fun _ _ h => (by cases h), fun _ _ => h⟩

theorem ends_demand_of {o : Option α} {Q : α → Space → Prop} (known : B → ∃ x, o = some x)
    (h : ∀ x, o = some x → Q x s) : Ends ((demand o : Filter α) s) Q (Halted own H B s) := by
  refine ends_demand h fun hnone => ⟨.refl, fun hB => ?_, fun _ h => by cases h⟩
  obtain ⟨x, hx⟩ := known hB
  rw [hnone] at hx
  cases hx

theorem filters_demand {o : Option α} {g : α → Filter Bool} (known : B → ∃ x, o = some x)
    (h : ∀ x, o = some x → Filters own H B (g x) s P) : Filters own H B (demand o >>= g) s P := by
  unfold Filters
  rw [ends_bind]
  exact ends_demand_of known h

theorem filters_read {f : Store → α} {g : α → Filter Bool} :
    Filters own H B (read f >>= g) s P ↔ Filters own H B (g (f s.store)) s P := by
  unfold Filters
  rw [ends_bind, ends_read]

theorem ends_of_keeps {f : Store.Narrowing} {v : Var} {keep : Int → Prop}
    (h : s.store.Keeps v keep f) (known : B → v < s.store.numVars)
    (spare : ∀ a, H a → s.store.Admits a → keep (a v)) :
    Ends (onStore f s)
      (fun changed t => Advance own H s changed t ∧ s.store.Narrowed v keep changed t.store)
      (Halted own H B s) := by
  rw [ends_onStore]
  refine Ends.mono h (fun changed store hn => ⟨⟨.of_store hn.narrows, fun hc => ?_, hn.changed_lt,
    fun a ha hs => hn.admits hs (spare a ha hs)⟩, hn⟩) fun halt store hr => ?_
  · rw [hn.unchanged hc]
  · cases hr with
    | empty hv none =>
      exact ⟨.refl, fun _ _ h => (by cases h), fun _ _ a ha hs =>
        none _ (hs v hv) (spare a ha hs)⟩
    | unknown hv =>
      refine ⟨.refl, fun hB _ _ => ?_, fun _ h => by cases h⟩
      exact absurd (known hB) (Nat.not_lt_of_le (Store.domain?_eq_none_iff.mp hv))

theorem filters_of_keeps {f : Store.Narrowing} {v : Var} {keep : Int → Prop}
    (h : s.store.Keeps v keep f) (known : B → v < s.store.numVars)
    (spare : ∀ a, H a → s.store.Admits a → keep (a v)) :
    Filters own H B (onStore f) s (∀ y, s.store.contains v y = true → keep y) := by
  refine (ends_of_keeps h known spare).mono_ok fun changed t ht => ⟨ht.1, fun hc y hy => ?_⟩
  rw [← ht.2.unchanged hc] at hy
  exact ((ht.2.contains_iff y).mp hy).2

variable {v : Var} {x first last : Int} (hs : s.Valid) (known : B → v < s.store.numVars)
include hs known

theorem filters_setLower (spare : ∀ a, H a → s.store.Admits a → x ≤ a v) :
    Filters own H B (setLower v x) s (x ≤ s.store.lower v) :=
  (filters_of_keeps (Store.keeps_setLower hs.store) known spare).mono
    fun h => h _ (hs.store.contains_lower v)

theorem filters_setUpper (spare : ∀ a, H a → s.store.Admits a → a v ≤ x) :
    Filters own H B (setUpper v x) s (s.store.upper v ≤ x) :=
  (filters_of_keeps (Store.keeps_setUpper hs.store) known spare).mono
    fun h => h _ (hs.store.contains_upper v)

theorem filters_remove (spare : ∀ a, H a → s.store.Admits a → a v ≠ x) :
    Filters own H B (remove v x) s (∀ y, s.store.contains v y = true → s.store.Remaining v x y) :=
  filters_of_keeps (Store.keeps_remove hs.store) known fun a ha h => .inl (spare a ha h)

theorem filters_assign (spare : ∀ a, H a → s.store.Admits a → a v = x) :
    Filters own H B (assign v x) s (∀ y, s.store.contains v y = true → y = x) :=
  filters_of_keeps (Store.keeps_assign hs.store) known spare

theorem filters_narrow (spare : ∀ a, H a → s.store.Admits a → first ≤ a v ∧ a v ≤ last) :
    Filters own H B (narrow v first last) s
      (first ≤ s.store.lower v ∧ s.store.upper v ≤ last) :=
  (filters_of_keeps (Store.keeps_narrow hs.store) known spare).mono
    fun h => ⟨(h _ (hs.store.contains_lower v)).1, (h _ (hs.store.contains_upper v)).2⟩

end

/-! ## Filters put together -/

section
variable {H : Assignment → Prop} {B P : Prop}

/-- What is left to do after a filter, given its answer. -/
theorem Filters.bind {f : Filter Bool} {g : Bool → Filter Bool} {Q : Prop}
    (hf : Filters own H B f s P)
    (hg : ∀ a t, Advance own H s a t → (a = false → P) →
      Ends (g a t) (fun b u => Advance own H s b u ∧ (b = false → Q)) (Halted own H B s)) :
    Filters own H B (f >>= g) s Q :=
  Ends.bind hf fun a t ht => hg a t ht.1 ht.2

/-- One filter after another; it is enough to know what they do to the spaces that can be met. -/
theorem filters_andThen {f g : Filter Bool} {Q : Space → Prop} (hf : Filters own H B f s P)
    (hg : ∀ t, s.Narrows own t → Filters own H B g t (Q t)) :
    Filters own H B (do let a ← f; let b ← g; return b || a) s (P ∧ Q s) := by
  refine hf.bind fun a t advance said => ?_
  rw [ends_bind]
  refine Ends.mono (hg t advance.narrows) (fun b u hu => ⟨advance.trans hu.1, fun hab => ?_⟩)
    fun halt u hu => hu.after advance
  obtain ⟨hb, ha⟩ := Bool.or_eq_false_iff.mp hab
  exact ⟨said ha, advance.unchanged ha ▸ hu.2 hb⟩

/-- The fold that `each` is, from any answer on. -/
theorem ends_foldlM_each {xs : List β} {f : β → Filter Bool} {Q : β → Space → Prop} {changed : Bool}
    {t : Space} (ht : Advance own H s changed t)
    (step : ∀ x ∈ xs, ∀ t, s.Narrows own t → Filters own H B (f x) t (Q x t)) :
    Ends ((xs.foldlM (fun changed x => return (← f x) || changed) changed : Filter Bool) t)
      (fun b u => Advance own H s b u ∧ (b = false → changed = false ∧ ∀ x ∈ xs, Q x s))
      (Halted own H B s) := by
  induction xs generalizing changed t with
  | nil => exact ⟨ht, fun h => ⟨h, fun x hx => by cases hx⟩⟩
  | cons x xs ih =>
    rw [List.foldlM_cons, ends_bind, ends_bind]
    refine Ends.mono (step x List.mem_cons_self t ht.narrows) (fun b u hu => ?_)
      fun halt u hu => hu.after ht
    refine (ih (ht.trans hu.1) fun y hy => step y (List.mem_cons_of_mem x hy)).mono_ok
      fun b' w hw => ⟨hw.1, fun hb' => ?_⟩
    obtain ⟨hbc, rest⟩ := hw.2 hb'
    obtain ⟨hb, hc⟩ := Bool.or_eq_false_iff.mp hbc
    refine ⟨hc, fun y hy => ?_⟩
    rcases List.mem_cons.mp hy with rfl | hy
    · exact ht.unchanged hc ▸ hu.2 hb
    · exact rest y hy

theorem filters_each {xs : List β} {f : β → Filter Bool} {Q : β → Space → Prop}
    (step : ∀ x ∈ xs, ∀ t, s.Narrows own t → Filters own H B (f x) t (Q x t)) :
    Filters own H B (each xs f) s (∀ x ∈ xs, Q x s) :=
  (ends_foldlM_each .refl step).mono_ok fun _ _ h => ⟨h.1, fun hb => (h.2 hb).2⟩

theorem inTurn_pair {f g : Filter Bool} :
    inTurn [f, g] = do let a ← f; let b ← g; return b || a := by
  simp [inTurn, each]

theorem inTurn_map {xs : List β} {f : β → Filter Bool} : inTurn (xs.map f) = each xs f := by
  unfold inTurn each
  rw [List.foldlM_map]
  rfl

/-- It does not matter whether the answers before are taken along or added in the end. -/
theorem foldlM_each {xs : List β} {f : β → Filter Bool} (changed : Bool) :
    (xs.foldlM (fun changed x => return (← f x) || changed) changed : Filter Bool) =
      (fun b => b || changed) <$> each xs f := by
  induction xs generalizing changed with
  | nil => simp [each]
  | cons x xs ih =>
    unfold each
    simp only [List.foldlM_cons, ih, map_bind, bind_assoc, pure_bind, Functor.map_map]
    simp [Bool.or_assoc]

theorem filters_inTurn_append {fs gs : List (Filter Bool)} {P : Prop} {Q : Space → Prop}
    (hf : Filters own H B (inTurn fs) s P)
    (hg : ∀ t, s.Narrows own t → Filters own H B (inTurn gs) t (Q t)) :
    Filters own H B (inTurn (fs ++ gs)) s (P ∧ Q s) := by
  have split : inTurn (fs ++ gs) = do let a ← inTurn fs; let b ← inTurn gs; return b || a := by
    unfold inTurn
    conv => lhs; unfold each
    rw [List.foldlM_append]
    simp only [foldlM_each (f := id), map_eq_pure_bind, Bool.or_false, bind_pure]
  rw [split]
  exact filters_andThen hf hg

/-- **A pass that is repeated comes to a space of which it has nothing more to say.** -/
theorem ends_untilStable {pass : Filter Bool} {Q : Space → Prop}
    (h : ∀ t, s.Narrows own t → Filters own H B pass t (Q t)) :
    Ends (untilStable pass s)
      (fun _ t => s.Narrows own t ∧ (∀ a, H a → s.store.Admits a → t.store.Admits a) ∧ Q t)
      (Halted own H B s) := by
  let I (t : Space) : Prop := s.Narrows own t ∧ ∀ a, H a → s.store.Admits a → t.store.Admits a
  have ended : Ends (untilStable pass s) (fun _ t => I t ∧ Q t) (Halted own H B s) := by
    refine ends_descend_done (I := I) (J := fun t => I t ∧ Q t) (fun t ht => ?_) ⟨.refl, fun _ _ => id⟩
    refine Ends.mono (h t ht.1) (fun more u hu => ?_) fun halt u hu =>
      ⟨ht.1.trans hu.narrows, hu.unfaulty, fun c hc a ha hs => hu.refuted c hc a ha (ht.2 a ha hs)⟩
    have next : I u := ⟨ht.1.trans hu.1.narrows, fun a ha hs => hu.1.admits a ha (ht.2 a ha hs)⟩
    cases more with
    | true => exact ⟨next, hu.1.changed_lt rfl⟩
    | false => exact ⟨next, hu.1.unchanged rfl ▸ hu.2 rfl⟩
  exact ended.mono_ok fun _ t ht => ⟨ht.1.1, ht.1.2, ht.2⟩

end

end Filter
end BranchBound
