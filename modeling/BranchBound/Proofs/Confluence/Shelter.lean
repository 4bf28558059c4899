import BranchBound.Proofs.Persistence

/-! # Filters that shelter a store

A filter *shelters* a store in a space that encloses it (`Store.Encloses`) if it refutes nothing and the
space encloses it afterwards (`Filter.Shelters`).  A narrowing does so if it keeps the values of the store
that is sheltered.  There is one rule for every way in which filters are put together.

What is known of a store to be sheltered is that the filter *rests* there, that is, has nothing to do.  So
have its parts (`Filter.rests_of_each`, `Filter.rests_of_inTurn`). -/
namespace BranchBound

namespace Filter
variable {α β γ : Type} {F : Store} {s t u : Space} {v : Var} {x first last : Int}

/-- What was not refuted. -/
def Unrefuted {σ : Type} (halt : Halt) (_ : σ) : Prop := ∀ cause, halt ≠ .inconsistent cause

/-- A space was narrowed, and still encloses the store. -/
structure Spared (F : Store) (s t : Space) : Prop where
  narrows : s.Narrows noCells t
  encloses : t.store.Encloses F

theorem Spared.refl (h : s.store.Encloses F) : Spared F s s := ⟨.refl, h⟩

theorem Spared.trans (h : Spared F s t) (h' : Spared F t u) : Spared F s u :=
  ⟨h.narrows.trans h'.narrows, h'.encloses⟩

/-- A filter refutes nothing, and takes no value of the store away. -/
def Shelters (F : Store) (f : Filter α) (s : Space) : Prop := Ends (f s) (fun _ => Spared F s) Unrefuted

/-! ## Single filters -/

theorem shelters_pure {a : α} (h : s.store.Encloses F) : Shelters F (pure a) s := Spared.refl h

theorem shelters_onStore {f : Store.Narrowing} {keep : Int → Prop} (hF : F.Valid) (h : s.store.Encloses F)
    (kept : s.store.Keeps v keep f) (spare : ∀ x, F.contains v x = true → keep x) :
    Shelters F (onStore f) s := by
  unfold Shelters
  rw [ends_onStore]
  refine Ends.mono kept (fun changed t ht => ⟨.of_store ht.narrows, ?_⟩) fun halt t ht cause hc => ?_
  · refine ⟨ht.narrows.numVars_eq.trans h.numVars_eq, fun w y hy => ?_⟩
    by_cases same : w = v
    · subst same
      exact (ht.contains_iff y).mpr ⟨h.contains w y hy, spare y hy⟩
    · have other := h.contains w y hy
      rwa [Store.contains, Store.domain, ← ht.others w same] at other
  · cases ht with
    | empty hv none => exact none _ (h.contains v _ (hF.contains_lower v)) (spare _ (hF.contains_lower v))
    | unknown hv => cases hc

section
variable (hF : F.Valid) (hs : s.Valid) (h : s.store.Encloses F)
include hF hs h

theorem shelters_setLower (spare : x ≤ F.lower v) : Shelters F (setLower v x) s :=
  shelters_onStore hF h (Store.keeps_setLower hs.store) fun _ hy =>
    Int.le_trans spare (Store.bounds_of_contains hy).1

theorem shelters_setUpper (spare : F.upper v ≤ x) : Shelters F (setUpper v x) s :=
  shelters_onStore hF h (Store.keeps_setUpper hs.store) fun _ hy =>
    Int.le_trans (Store.bounds_of_contains hy).2 spare

theorem shelters_remove (spare : F.contains v x = false) : Shelters F (remove v x) s := by
  refine shelters_onStore hF h (Store.keeps_remove hs.store) fun y hy => .inl fun same => ?_
  rw [same, spare] at hy
  cases hy

theorem shelters_assign (spare : F.fixed? v = some x) : Shelters F (assign v x) s :=
  shelters_onStore hF h (Store.keeps_assign hs.store) fun _ hy => Store.eq_of_fixed? spare hy

theorem shelters_narrow (lower : first ≤ F.lower v) (upper : F.upper v ≤ last) :
    Shelters F (narrow v first last) s :=
  shelters_onStore hF h (Store.keeps_narrow hs.store) fun _ hy =>
    ⟨Int.le_trans lower (Store.bounds_of_contains hy).1, Int.le_trans (Store.bounds_of_contains hy).2 upper⟩

end

/-! ## Filters put together -/

theorem shelters_read {f : Store → α} {g : α → Filter β} :
    Shelters F (read f >>= g) s ↔ Shelters F (g (f s.store)) s := by
  unfold Shelters
  rw [ends_bind, ends_read]

theorem shelters_demand {o : Option α} {g : α → Filter β} (h : ∀ a, o = some a → Shelters F (g a) s) :
    Shelters F (demand o >>= g) s := by
  unfold Shelters
  rw [ends_bind]
  exact ends_demand h fun _ cause hc => by cases hc

theorem shelters_bind {f : Filter α} {g : α → Filter β} (hf : Shelters F f s)
    (hg : ∀ a t, Spared F s t → Shelters F (g a) t) : Shelters F (f >>= g) s :=
  Ends.bind hf fun a t ht => (hg a t ht).mono_ok fun _ _ hu => ht.trans hu

theorem shelters_discard {f : Filter α} (h : Shelters F f s) : Shelters F (discard f) s :=
  ends_discard.mpr h

/-- What is gathered from a list. -/
theorem shelters_foldlM {f : β → γ → Filter β} {xs : List γ} {b : β} (h : s.store.Encloses F)
    (step : ∀ x ∈ xs, ∀ b t, Spared F s t → Shelters F (f b x) t) : Shelters F (xs.foldlM f b) s :=
  ends_foldlM (I := fun _ => Spared F s)
    (fun x hx b t ht => (step x hx b t ht).mono_ok fun _ _ hu => ht.trans hu) (.refl h)

theorem shelters_each {xs : List γ} {f : γ → Filter Bool} (h : s.store.Encloses F)
    (step : ∀ x ∈ xs, ∀ t, Spared F s t → Shelters F (f x) t) : Shelters F (each xs f) s :=
  shelters_foldlM h fun x hx _ t ht => shelters_bind (step x hx t ht) fun _ _ hu => shelters_pure hu.encloses

theorem shelters_inTurn {fs : List (Filter Bool)} (h : s.store.Encloses F)
    (step : ∀ f ∈ fs, ∀ t, Spared F s t → Shelters F f t) : Shelters F (inTurn fs) s :=
  shelters_each h step

theorem shelters_pair {f g : Filter Bool} (h : s.store.Encloses F) (hf : ∀ t, Spared F s t → Shelters F f t)
    (hg : ∀ t, Spared F s t → Shelters F g t) : Shelters F (inTurn [f, g]) s :=
  shelters_inTurn h (List.forall_mem_cons.mpr ⟨hf, List.forall_mem_singleton.mpr hg⟩)

/-- **What a pass shelters, its repetition shelters.** -/
theorem shelters_untilStable {pass : Filter Bool} (h : s.store.Encloses F)
    (step : ∀ t, Spared F s t → Shelters F pass t) : Shelters F (untilStable pass) s :=
  ends_descend (I := Spared F s) (fun t ht => (step t ht).mono_ok fun _ _ hu => ht.trans hu) (.refl h)

/-! ## Filters that rest -/

/-- A filter has nothing to do. -/
def Rests (f : Filter Bool) (s : Space) : Prop := f s = .ok false s

section
variable {H : Assignment → Prop} {B R : Prop}

/-- A filter that does its work rests where it answers that it changed nothing. -/
theorem Filters.rests {f : Filter Bool} (h : Filters noCells H B f s R) :
    Filters noCells (fun _ => False) False f s (Rests f s) := by
  refine ends_of (fun changed t ht => ?_) fun halt t ht => h.forget.of_error ht
  have advance := (h.forget.of_ok ht).1
  refine ⟨advance, fun unchanged => ?_⟩
  obtain rfl := advance.unchanged unchanged
  unfold Rests
  rw [ht, unchanged]

/-- **If filters rest together, each of them rests.** -/
theorem rests_of_each {xs : List γ} {f : γ → Filter Bool}
    (work : ∀ x ∈ xs, ∀ t, s.Narrows noCells t → ∃ H B R, Filters noCells H B (f x) t R)
    (h : Rests (each xs f) s) : ∀ x ∈ xs, Rests (f x) s := by
  have all : Filters noCells (fun _ => False) False (each xs f) s (∀ x ∈ xs, Rests (f x) s) :=
    filters_each (Q := fun x t => Rests (f x) t) fun x hx t ht => by
      obtain ⟨H, B, R, works⟩ := work x hx t ht
      exact works.rests
  exact (all.of_ok h).2 rfl

theorem rests_of_inTurn {fs : List (Filter Bool)}
    (work : ∀ f ∈ fs, ∀ t, s.Narrows noCells t → ∃ H B R, Filters noCells H B f t R)
    (h : Rests (inTurn fs) s) : ∀ f ∈ fs, Rests f s :=
  rests_of_each work h

theorem rests_of_pair {f g : Filter Bool}
    (hf : ∀ t, s.Narrows noCells t → ∃ H B R, Filters noCells H B f t R)
    (hg : ∀ t, s.Narrows noCells t → ∃ H B R, Filters noCells H B g t R)
    (h : Rests (inTurn [f, g]) s) : Rests f s ∧ Rests g s := by
  obtain ⟨first, rest⟩ := List.forall_mem_cons.mp
    (rests_of_inTurn (List.forall_mem_cons.mpr ⟨hf, List.forall_mem_singleton.mpr hg⟩) h)
  exact ⟨first, rest g List.mem_cons_self⟩

/-- If a filter that repeats a pass has nothing to do, the pass rests. -/
theorem rests_of_untilStable {pass : Filter Bool}
    (work : ∀ t, s.Narrows noCells t → ∃ H B R, Filters noCells H B pass t R)
    (h : untilStable pass s = .ok () s) : Rests pass s :=
  pass_of_untilStable work h

end

theorem rests_setLower_iff : Rests (setLower v x) s ↔ v < s.store.numVars ∧ x ≤ s.store.lower v := by
  unfold Rests setLower
  rw [onStore_eq_ok, Store.setLower_eq_false_iff]
  simp

theorem rests_setUpper_iff : Rests (setUpper v x) s ↔ v < s.store.numVars ∧ s.store.upper v ≤ x := by
  unfold Rests setUpper
  rw [onStore_eq_ok, Store.setUpper_eq_false_iff]
  simp

theorem rests_remove_iff (hs : s.Valid) : Rests (remove v x) s ↔ v < s.store.numVars ∧ s.store.Gone v x := by
  unfold Rests remove
  rw [onStore_eq_ok, Store.remove_eq_false_iff hs.store]
  simp

/-- Where a filter reads first, it rests if what comes then rests. -/
theorem rests_read_iff {f : Store → α} {g : α → Filter Bool} :
    Rests (read f >>= g) s ↔ Rests (g (f s.store)) s := Iff.rfl

theorem rests_demand_iff {a : α} {g : α → Filter Bool} :
    Rests (demand (some a) >>= g) s ↔ Rests (g a) s := Iff.rfl

end Filter
end BranchBound
