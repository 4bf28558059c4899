import BranchBound.Constraint.ProductionLink
import BranchBound.Proofs.Persistence

/-! # Production links

An assignment keeps a production link if the indicator of an item is 1 exactly if the plan is that item,
and else 0.  One pass each way is enough: afterwards the indicator of an item that is planned is at least
1, and that of an item that cannot be planned any more is at most 0. -/
namespace BranchBound
namespace ProductionLink
variable (c : ProductionLink)

/-- All variables exist, and the plan is not an indicator. -/
structure Base (s : Store) : Prop where
  plan : c.plan < s.numVars
  indicators : ∀ v ∈ c.indicators, v < s.numVars
  apart : c.plan ∉ c.indicators

/-- The indicator of the planned item is 1, and the others are 0. -/
def Holds (a : Assignment) : Prop :=
  ∀ (k : Nat) (v : Var), c.indicators[k]? = some v → a v = if a c.plan = (k : Int) then 1 else 0

/-- What the plan says of the indicator of an item. -/
def Linked (s : Store) (k : Nat) (v : Var) : Prop :=
  (s.fixed? c.plan = some (k : Int) → 1 ≤ s.lower v) ∧
    (s.contains c.plan k = false → s.upper v ≤ 0)

variable {c} {B : Prop} {s t : Space} {k : Nat} {v : Var}

theorem Base.narrows {s t : Store} (h : c.Base s) (hn : s.Narrows t) : c.Base t :=
  ⟨hn.numVars_eq ▸ h.plan, fun v hv => hn.numVars_eq ▸ h.indicators v hv, h.apart⟩

/-- What the plan says stays true as long as the plan stays what it is. -/
theorem Linked.narrows {s t : Store} (h : c.Linked s k v) (hs : s.Valid) (hn : s.Narrows t)
    (same : t.domain c.plan = s.domain c.plan) : c.Linked t k v := by
  constructor
  · intro hp
    rw [Store.fixed?, same] at hp
    exact Int.le_trans (h.1 hp) (hn.lower_le hs v)
  · intro hp
    rw [Store.contains, same] at hp
    exact Int.le_trans (hn.upper_le hs v) (h.2 hp)

section
variable (hs : s.Valid) (base : B → c.Base s.store) (hk : c.indicators[k]? = some v)
include hs base hk

theorem filters_narrowPlan :
    Filter.Filters Filter.noCells (Granted B c.Holds) B (c.narrowPlan v k) s True := by
  have known (hB : B) : c.plan < s.store.numVars := (base hB).plan
  have fixed {x : Int} (hf : s.store.fixed? v = some x) (a : Assignment) (ha : Granted B c.Holds a)
      (hadm : s.store.Admits a) : (if a c.plan = (k : Int) then 1 else 0) = x := by
    rw [← ha.2 k v hk]
    exact Store.eq_of_fixed? hf (hadm v ((base ha.1).indicators v (List.mem_of_getElem? hk)))
  unfold narrowPlan
  rw [Filter.filters_read]
  split
  · exact Filter.filters_pure trivial
  · rename_i hf
    refine (Filter.filters_assign hs known fun a ha hadm => ?_).mono fun _ => trivial
    have := fixed hf a ha hadm
    by_cases heq : a c.plan = (k : Int)
    · exact heq
    · rw [if_neg heq] at this
      omega
  · rename_i x hx hf
    refine (Filter.filters_remove hs known fun a ha hadm heq => ?_).mono fun _ => trivial
    have := fixed hf a ha hadm
    rw [if_pos heq] at this
    exact hx this.symm

theorem ends_narrowIndicator {planned? : Option Int} (hplanned : B → planned? = s.store.fixed? c.plan) :
    Ends (c.narrowIndicator planned? v k s)
      (fun changed t => Filter.Advance Filter.noCells (Granted B c.Holds) s changed t ∧
        (B → t.store.domain c.plan = s.store.domain c.plan ∧ c.Linked t.store k v))
      (Filter.Halted Filter.noCells (Granted B c.Holds) B s) := by
  have known (hB : B) : v < s.store.numVars := (base hB).indicators v (List.mem_of_getElem? hk)
  have possible (a : Assignment) (ha : Granted B c.Holds a) (hadm : s.store.Admits a) :
      s.store.contains c.plan (a c.plan) = true := hadm _ (base ha.1).plan
  have same {keep : Int → Prop} {changed : Bool} {t : Store} (hB : B)
      (h : s.store.Narrowed v keep changed t) : t.domain c.plan = s.store.domain c.plan := by
    have hne : c.plan ≠ v := fun heq => (base hB).apart (heq ▸ List.mem_of_getElem? hk)
    rw [Store.domain, Store.domain, h.others _ hne]
  unfold narrowIndicator
  rw [ends_bind, Filter.ends_read, ends_ite]
  split
  · rename_i hp
    have hf (hB : B) := (hplanned hB).symm.trans hp
    refine (Filter.ends_of_keeps (Store.keeps_setLower hs.store) known fun a ha hadm => ?_).mono_ok
      fun changed t ht => ⟨ht.1, fun hB => ⟨same hB ht.2, fun _ => ?_, fun hout => ?_⟩⟩
    · exact Int.le_of_eq ((ha.2 k v hk).trans
        (if_pos (Store.eq_of_fixed? (hf ha.1) (possible a ha hadm)))).symm
    · exact ((ht.2.contains_iff _).mp ((ht.2.narrows.valid hs.store).contains_lower v)).2
    · -- what is planned is still possible
      rw [Store.contains, same hB ht.2] at hout
      exact absurd ((hs.store.contains_of_fixed? (hf hB)).symm.trans hout) (by simp)
  · rename_i hp
    rw [ends_ite]
    split
    · rename_i hin
      refine ⟨.refl, fun hB => ⟨rfl, fun hf => absurd ((hplanned hB).trans hf) hp, fun hout => ?_⟩⟩
      exact absurd (hin.symm.trans hout) (by simp)
    · rename_i hout
      refine (Filter.ends_of_keeps (Store.keeps_setUpper hs.store) known fun a ha hadm => ?_).mono_ok
        fun changed t ht => ⟨ht.1, fun hB => ⟨same hB ht.2, fun hf => ?_, fun _ => ?_⟩⟩
      · have : a c.plan ≠ (k : Int) := fun heq => hout (heq ▸ possible a ha hadm)
        exact Int.le_of_eq ((ha.2 k v hk).trans (if_neg this))
      · rw [Store.fixed?, same hB ht.2] at hf
        exact absurd ((hplanned hB).trans hf) hp
      · exact ((ht.2.contains_iff _).mp ((ht.2.narrows.valid hs.store).contains_upper v)).2

end

theorem item_of_mem {x : Var × Nat} (hx : x ∈ c.indicators.zipIdx) :
    c.indicators[x.2]? = some x.1 := List.mem_zipIdx_iff_getElem?.mp hx

/-- **One pass each way is enough.** -/
theorem ends_filter (hs : s.Valid) :
    Ends (c.filter s)
      (fun _ t => s.Narrows Filter.noCells t ∧
        (∀ a, Granted (c.Base s.store) c.Holds a → s.store.Admits a → t.store.Admits a) ∧
        (c.Base s.store → ∀ (k : Nat) (v : Var), c.indicators[k]? = some v → c.Linked t.store k v))
      (Filter.Halted Filter.noCells (Granted (c.Base s.store) c.Holds) (c.Base s.store) s) := by
  have base {t : Space} (ht : s.Narrows Filter.noCells t) (hB : c.Base s.store) : c.Base t.store :=
    hB.narrows ht.store
  unfold filter
  rw [ends_bind]
  rw [ends_discard]
  refine Ends.mono_ok (Filter.filters_each (Q := fun _ _ => True) fun x hx t ht =>
    filters_narrowPlan (ht.valid hs) (base ht) (item_of_mem hx)) fun _ u hu => ?_
  obtain ⟨first, -⟩ := hu
  have valid := first.narrows.valid hs
  rw [ends_bind, Filter.ends_read, ends_discard]
  have second := ends_foldlM_prefix (l := c.indicators.zipIdx)
    (f := fun changed x => return (← c.narrowIndicator (u.store.fixed? c.plan) x.1 x.2) || changed)
    (I := fun before changed t =>
      Filter.Advance Filter.noCells (Granted (c.Base s.store) c.Holds) u changed t ∧
        (c.Base s.store → t.store.domain c.plan = u.store.domain c.plan ∧
          ∀ x ∈ before, c.Linked t.store x.2 x.1))
    (E := Filter.Halted Filter.noCells (Granted (c.Base s.store) c.Holds) (c.Base s.store) u)
    (b := false) (s := u) (fun before x rest split changed t ht => ?_)
    ⟨.refl, fun _ => ⟨rfl, fun _ h => by cases h⟩⟩
  · refine Ends.mono second (fun _ t ht => ?_) fun halt t ht => ht.after first
    exact ⟨first.narrows.trans ht.1.narrows, fun a ha hadm => ht.1.admits a ha (first.admits a ha hadm),
      fun hB k v hk => (ht.2 hB).2 (v, k) (List.mem_zipIdx_iff_getElem?.mpr hk)⟩
  · obtain ⟨advance, linked⟩ := ht
    have hx := item_of_mem (show x ∈ c.indicators.zipIdx by rw [split]; simp)
    have base' := base (first.narrows.trans advance.narrows)
    -- as long as only indicators change, the plan is what it was when it was looked at
    rw [ends_bind]
    refine Ends.mono (ends_narrowIndicator (advance.narrows.valid valid) base' hx fun hB => ?_)
      (fun b w hw => ⟨advance.trans hw.1, fun hB => ⟨(hw.2 hB).1.trans (linked hB).1,
        fun y hy => ?_⟩⟩) fun halt w hw => hw.after advance
    · rw [Store.fixed?, Store.fixed?, (linked hB).1]
    · rcases List.mem_append.mp hy with hy | hy
      · exact ((linked hB).2 y hy).narrows (advance.narrows.valid valid).store hw.1.narrows.store
          (hw.2 hB).1
      · obtain rfl := List.mem_singleton.mp hy
        exact (hw.2 hB).2

/-- **A production link as a rule.** -/
def rule (c : ProductionLink) : Rule where
  watches := c.watches
  filter := c.filter
  Base := c.Base
  Spec s := ∀ (k : Nat) (v : Var), c.indicators[k]? = some v → c.Linked s k v
  Holds := c.Holds
  base_congr := ⟨fun h => ⟨h.1, h.2, h.3⟩, fun h => ⟨h.1, h.2, h.3⟩⟩
  spec_congr := Iff.rfl
  base_narrows h _ hn := h.narrows hn
  spec_told _ h hs hn told away k v hk := (h k v hk).narrows hs hn
    (away.domain_eq told (List.mem_append_right _ (List.mem_singleton_self _)))
  filtered hs := ends_filter hs

/-! ## One pass is enough to come to rest -/

/-- All variables exist and are distinct, the indicators are 0 or 1, and values can be removed from the
plan. -/
structure Fit (c : ProductionLink) (s : Store) : Prop where
  plan : c.plan < s.numVars
  indicators : ∀ v ∈ c.indicators, v < s.numVars
  distinct : (c.plan :: c.indicators).Nodup
  binary : ∀ v ∈ c.indicators, 0 ≤ s.lower v ∧ s.upper v ≤ 1
  width_le : (s.domain c.plan).width ≤ Domain.holeLimit

/-- What the indicator of an item says of the plan. -/
structure Heeded (c : ProductionLink) (s : Store) (k : Nat) (v : Var) : Prop where
  planned : s.fixed? v = some 1 → s.fixed? c.plan = some (k : Int)
  excluded : ∀ x, s.fixed? v = some x → x ≠ 1 → s.contains c.plan k = false

/-- The plan and the indicators have nothing more to say of each other. -/
def Agreed (c : ProductionLink) (s : Store) : Prop :=
  ∀ (k : Nat) (v : Var), c.indicators[k]? = some v → c.Heeded s k v ∧ c.Linked s k v

section
variable {s t : Store}

theorem Fit.narrows (h : c.Fit s) (hs : s.Valid) (hn : s.Narrows t) : c.Fit t where
  plan := hn.numVars_eq ▸ h.plan
  indicators v hv := hn.numVars_eq ▸ h.indicators v hv
  distinct := h.distinct
  binary v hv := ⟨Int.le_trans (h.binary v hv).1 (hn.lower_le hs v),
    Int.le_trans (hn.upper_le hs v) (h.binary v hv).2⟩
  width_le := (hn.width_eq c.plan).symm ▸ h.width_le

theorem Fit.grows (h : c.Fit s) (grown : s.Grows t) : c.Fit t := by
  refine ⟨(grown.known h.plan).1, fun v hv => (grown.known (h.indicators v hv)).1, h.distinct, fun v hv => ?_,
    (grown.known h.plan).2.symm ▸ h.width_le⟩
  rw [Store.lower, Store.upper, (grown.known (h.indicators v hv)).2]
  exact h.binary v hv

theorem Fit.apart (h : c.Fit s) (hk : c.indicators[k]? = some v) : v ≠ c.plan := fun heq =>
  (List.nodup_cons.mp h.distinct).1 (heq ▸ List.mem_of_getElem? hk)

/-- Items with the same indicator are the same. -/
theorem Fit.unique (h : c.Fit s) {j : Nat} (hk : c.indicators[k]? = some v)
    (hj : c.indicators[j]? = some v) : j = k := by
  obtain ⟨hjlt, hj⟩ := List.getElem?_eq_some_iff.mp hj
  obtain ⟨hklt, hk⟩ := List.getElem?_eq_some_iff.mp hk
  exact ((List.nodup_cons.mp h.distinct).2.getElem_inj_iff).mp (hj.trans hk.symm)

/-- What an indicator says stays heeded as long as nothing new is known of it. -/
theorem Heeded.narrows (h : c.Heeded s k v) (fixed : t.fixed? v = s.fixed? v)
    (plan : ∀ x, s.fixed? c.plan = some x → t.fixed? c.plan = some x)
    (within : ∀ x, t.contains c.plan x = true → s.contains c.plan x = true) : c.Heeded t k v where
  planned hf := plan _ (h.planned (fixed.symm.trans hf))
  excluded x hf hx := Bool.eq_false_iff.mpr
    (mt (within k) (Bool.eq_false_iff.mp (h.excluded x (fixed.symm.trans hf) hx)))

end

section
variable (hs : s.Valid) (fit : c.Fit s.store) (hk : c.indicators[k]? = some v)
include hs fit hk

/-- **After the way to the plan, the indicator is heeded**, and only the plan has changed. -/
theorem ends_heed :
    Ends (c.narrowPlan v k s)
      (fun _ t => s.Narrows Filter.noCells t ∧
        (∀ w, w ≠ c.plan → t.store.domain w = s.store.domain w) ∧ c.Heeded t.store k v)
      (fun _ _ => True) := by
  have hne := fit.apart hk
  have others {keep : Int → Prop} {changed : Bool} {store : Store}
      (h : s.store.Narrowed c.plan keep changed store) (w : Var) (hw : w ≠ c.plan) :
      store.domain w = s.store.domain w := by
    rw [Store.domain, Store.domain, h.others w hw]
  unfold narrowPlan
  rw [ends_bind, Filter.ends_read]
  refine ends_of_eq fun m hm => ?_
  split at hm <;> subst hm
  · rename_i opened
    exact ⟨.refl, fun _ _ => rfl, fun hf => (by rw [opened] at hf; cases hf),
      fun x hf => by rw [opened] at hf; cases hf⟩
  · rename_i one
    rw [Filter.assign, Filter.ends_onStore]
    refine Ends.mono (Store.keeps_assign hs.store) (fun changed store hn => ?_) fun _ _ _ => trivial
    have valid := hn.narrows.valid hs.store
    have only (x : Int) (hx : store.contains c.plan x = true) : x = k := ((hn.contains_iff x).mp hx).2
    refine ⟨.of_store hn.narrows, others hn, fun _ => ?_, fun x hf hx => ?_⟩
    · exact Store.fixed?_eq_some_iff.mpr ⟨only _ (valid.contains_lower _), only _ (valid.contains_upper _)⟩
    · rw [Store.fixed?, others hn v hne] at hf
      exact absurd (Option.some.inj (hf.symm.trans one)) hx
  · rename_i x hx fixed
    rw [Filter.remove, Filter.ends_onStore]
    refine Ends.mono (Store.keeps_remove hs.store) (fun changed store hn => ?_) fun _ _ _ => trivial
    refine ⟨.of_store hn.narrows, others hn, fun hf => ?_, fun y _ _ => ?_⟩
    · rw [Store.fixed?, others hn v hne] at hf
      exact absurd (Option.some.inj (fixed.symm.trans hf)) hx
    · exact hn.removed hs.store fit.width_le

/-- **After the way back, the indicator says what the plan says**, and only the indicator has changed. -/
theorem ends_link (heeded : c.Heeded s.store k v) :
    Ends (c.narrowIndicator (s.store.fixed? c.plan) v k s)
      (fun _ t => s.Narrows Filter.noCells t ∧ (∀ w, w ≠ v → t.store.domain w = s.store.domain w) ∧
        c.Heeded t.store k v ∧ c.Linked t.store k v)
      (fun _ _ => True) := by
  have binary := fit.binary v (List.mem_of_getElem? hk)
  have hne := fit.apart hk
  have others {keep : Int → Prop} {changed : Bool} {store : Store}
      (h : s.store.Narrowed v keep changed store) (w : Var) (hw : w ≠ v) :
      store.domain w = s.store.domain w := by
    rw [Store.domain, Store.domain, h.others w hw]
  unfold narrowIndicator
  rw [ends_bind, Filter.ends_read, ends_ite]
  split
  · rename_i planned
    rw [Filter.setLower, Filter.ends_onStore]
    refine Ends.mono (Store.keeps_setLower hs.store) (fun changed store hn => ?_) fun _ _ _ => trivial
    have valid := hn.narrows.valid hs.store
    have plan : store.domain c.plan = s.store.domain c.plan := others hn _ (Ne.symm hne)
    have possible : store.contains c.plan k = true := by
      rw [Store.contains, plan]
      exact hs.store.contains_of_fixed? planned
    have least := ((hn.contains_iff _).mp (valid.contains_lower v)).2
    refine ⟨.of_store hn.narrows, others hn, ⟨fun _ => ?_, fun x hf hx => ?_⟩, fun _ => least,
      fun out => absurd (possible.symm.trans out) (by simp)⟩
    · rw [Store.fixed?, plan]
      exact planned
    · have : store.lower v = x ∧ store.upper v = x := Store.fixed?_eq_some_iff.mp hf
      have := hn.narrows.upper_le hs.store v
      omega
  · rename_i unplanned
    rw [ends_ite]
    split
    · rename_i possible
      exact ⟨.refl, fun _ _ => rfl, heeded, fun planned => absurd planned unplanned,
        fun out => absurd (possible.symm.trans out) (by simp)⟩
    · rename_i impossible
      rw [Filter.setUpper, Filter.ends_onStore]
      refine Ends.mono (Store.keeps_setUpper hs.store) (fun changed store hn => ?_) fun _ _ _ => trivial
      have valid := hn.narrows.valid hs.store
      have plan : store.domain c.plan = s.store.domain c.plan := others hn _ (Ne.symm hne)
      have most := ((hn.contains_iff _).mp (valid.contains_upper v)).2
      refine ⟨.of_store hn.narrows, others hn, ⟨fun hf => ?_, fun x _ _ => ?_⟩, fun planned => ?_,
        fun _ => most⟩
      · have : store.lower v = 1 ∧ store.upper v = 1 := Store.fixed?_eq_some_iff.mp hf
        omega
      · rw [Store.contains, plan]
        exact Bool.not_eq_true _ ▸ impossible
      · rw [Store.fixed?, plan] at planned
        exact absurd planned unplanned

end

/-- On the way there, more and more of the indicators are heeded. -/
theorem ends_heedAll (hs : s.Valid) (fit : c.Fit s.store) :
    Ends ((c.indicators.zipIdx.foldlM
        (fun changed x => return (← c.narrowPlan x.1 x.2) || changed) false : Filter Bool) s)
      (fun _ t => s.Narrows Filter.noCells t ∧ ∀ x ∈ c.indicators.zipIdx, c.Heeded t.store x.2 x.1)
      (fun _ _ => True) := by
  refine ends_foldlM_prefix (I := fun (before : List (Var × Nat)) _ u =>
    s.Narrows Filter.noCells u ∧ ∀ x ∈ before, c.Heeded u.store x.2 x.1) (fun before x rest split changed u hu => ?_)
    ⟨.refl, fun _ hx => by cases hx⟩
  obtain ⟨narrows, heeded⟩ := hu
  have valid := narrows.valid hs
  have hk := item_of_mem (show x ∈ c.indicators.zipIdx by rw [split]; simp)
  rw [ends_bind]
  refine (ends_heed valid (fit.narrows hs.store narrows.store) hk).mono_ok fun b w hw => ?_
  obtain ⟨narrows', others, here⟩ := hw
  refine ⟨narrows.trans narrows', fun y hy => ?_⟩
  rcases List.mem_append.mp hy with hy | hy
  · have hmem : y ∈ c.indicators.zipIdx := by
      rw [split]
      exact List.mem_append_left _ hy
    have hne := fit.apart (item_of_mem hmem)
    exact (heeded y hy).narrows (by rw [Store.fixed?, Store.fixed?, others _ hne])
      (fun z hz => narrows'.store.fixed? valid.store hz) fun z hz => narrows'.store.contains valid.store hz
  · obtain rfl := List.mem_singleton.mp hy
    exact here

/-- On the way back, all indicators stay heeded, and more and more of them are linked. -/
theorem ends_linkAll (hs : s.Valid) (fit : c.Fit s.store)
    (heeded : ∀ x ∈ c.indicators.zipIdx, c.Heeded s.store x.2 x.1) :
    Ends ((c.indicators.zipIdx.foldlM (fun changed x =>
        return (← c.narrowIndicator (s.store.fixed? c.plan) x.1 x.2) || changed) false : Filter Bool) s)
      (fun _ t => s.Narrows Filter.noCells t ∧ c.Agreed t.store) (fun _ _ => True) := by
  have linked := ends_foldlM_prefix (l := c.indicators.zipIdx)
    (f := fun changed x => return (← c.narrowIndicator (s.store.fixed? c.plan) x.1 x.2) || changed)
    (I := fun before _ t => s.Narrows Filter.noCells t ∧
      t.store.domain c.plan = s.store.domain c.plan ∧
      (∀ x ∈ c.indicators.zipIdx, c.Heeded t.store x.2 x.1) ∧ ∀ x ∈ before, c.Linked t.store x.2 x.1)
    (E := fun _ _ => True) (b := false) (s := s) (fun before x rest split changed t ht => ?_)
    ⟨.refl, rfl, heeded, fun _ hx => by cases hx⟩
  · refine linked.mono_ok fun _ t ht => ⟨ht.1, fun k v hk => ?_⟩
    have hmem : (v, k) ∈ c.indicators.zipIdx := List.mem_zipIdx_iff_getElem?.mpr hk
    exact ⟨ht.2.2.1 (v, k) hmem, ht.2.2.2 (v, k) hmem⟩
  · obtain ⟨narrows, plan, heeded', linked⟩ := ht
    have valid := narrows.valid hs
    have fit' := fit.narrows hs.store narrows.store
    have hmem : x ∈ c.indicators.zipIdx := by rw [split]; simp
    have hk := item_of_mem hmem
    rw [ends_bind, show s.store.fixed? c.plan = t.store.fixed? c.plan by
      rw [Store.fixed?, Store.fixed?, plan]]
    refine (ends_link valid fit' hk (heeded' x hmem)).mono_ok fun b w hw => ?_
    obtain ⟨narrows', others, here, link⟩ := hw
    have same : w.store.domain c.plan = t.store.domain c.plan := others _ (Ne.symm (fit'.apart hk))
    refine ⟨narrows.trans narrows', same.trans plan, fun y hy => ?_, fun y hy => ?_⟩
    · by_cases hxy : y.1 = x.1
      · have hj := item_of_mem hy
        rw [hxy] at hj
        rw [fit'.unique hk hj, hxy]
        exact here
      · refine (heeded' y hy).narrows (by rw [Store.fixed?, Store.fixed?, others _ hxy])
          (fun z hz => by rwa [Store.fixed?, same]) fun z hz => ?_
        rwa [Store.contains, same] at hz
    · rcases List.mem_append.mp hy with hy | hy
      · exact (linked y hy).narrows valid.store narrows'.store same
      · obtain rfl := List.mem_singleton.mp hy
        exact link

/-- **One pass each way is enough to agree.** -/
theorem ends_agreed (hs : s.Valid) (fit : c.Fit s.store) :
    Ends (c.filter s) (fun _ t => s.Narrows Filter.noCells t ∧ c.Agreed t.store) (fun _ _ => True) := by
  unfold filter
  rw [ends_bind, ends_discard]
  refine (ends_heedAll hs fit).mono_ok fun _ u hu => ?_
  obtain ⟨narrows, heeded⟩ := hu
  rw [ends_bind, Filter.ends_read, ends_discard]
  exact (ends_linkAll (narrows.valid hs) (fit.narrows hs.store narrows.store) heeded).mono_ok
    fun _ t ht => ⟨narrows.trans ht.1, ht.2⟩

/-- **Where they agree there is nothing to do.** -/
theorem filter_eq_of_agreed (hs : s.Valid) (fit : c.Fit s.store) (h : c.Agreed s.store) :
    c.filter s = .ok () s := by
  have way : Filter.each c.indicators.zipIdx (fun x => c.narrowPlan x.1 x.2) s = .ok false s := by
    refine Filter.each_eq_false fun x hx => eq_ok_of_ends ?_
    obtain ⟨heeded, -⟩ := h x.2 x.1 (item_of_mem hx)
    unfold narrowPlan
    rw [ends_bind, Filter.ends_read]
    refine ends_of_eq fun m hm => ?_
    split at hm <;> subst hm
    · exact ⟨rfl, rfl⟩
    · rename_i one
      have := Store.assign_eq_false hs.store fit.plan (heeded.planned one)
      rw [show Filter.assign c.plan x.2 s = .ok false s from Filter.onStore_eq_ok.mpr ⟨this, rfl⟩]
      exact ⟨rfl, rfl⟩
    · rename_i y hy fixed
      have gone : s.store.Gone c.plan x.2 := .inl (heeded.excluded y fixed hy)
      have := (Store.remove_eq_false_iff hs.store).mpr ⟨rfl, fit.plan, gone⟩
      rw [show Filter.remove c.plan x.2 s = .ok false s from Filter.onStore_eq_ok.mpr ⟨this, rfl⟩]
      exact ⟨rfl, rfl⟩
  have back : Filter.each c.indicators.zipIdx
      (fun x => c.narrowIndicator (s.store.fixed? c.plan) x.1 x.2) s = .ok false s := by
    refine Filter.each_eq_false fun x hx => eq_ok_of_ends ?_
    have hk := item_of_mem hx
    have hv := fit.indicators x.1 (List.mem_of_getElem? hk)
    obtain ⟨-, linked⟩ := h x.2 x.1 hk
    unfold narrowIndicator
    rw [ends_bind, Filter.ends_read, ends_ite]
    split
    · rename_i planned
      have := Store.setLower_eq_false_iff.mpr ⟨rfl, hv, linked.1 planned⟩
      rw [show Filter.setLower x.1 1 s = .ok false s from Filter.onStore_eq_ok.mpr ⟨this, rfl⟩]
      exact ⟨rfl, rfl⟩
    · rw [ends_ite]
      split
      · exact ⟨rfl, rfl⟩
      · rename_i impossible
        have := Store.setUpper_eq_false_iff.mpr ⟨rfl, hv, linked.2 (Bool.not_eq_true _ ▸ impossible)⟩
        rw [show Filter.setUpper x.1 0 s = .ok false s from Filter.onStore_eq_ok.mpr ⟨this, rfl⟩]
        exact ⟨rfl, rfl⟩
  unfold filter
  rw [Filter.discard_bind_eq way]
  exact Filter.discard_eq back

/-- **Production links are idempotent**: only which indicators are fixed matters, and that is watched. -/
theorem idempotent (c : ProductionLink) : c.rule.Idempotent c.Fit where
  narrows fit hs hn := fit.narrows hs hn
  grows fit grown := fit.grows grown
  again {s t} hs fit h := by
    obtain ⟨narrows, agreed⟩ := (ends_agreed hs fit).of_ok h
    exact filter_eq_of_agreed (narrows.valid hs) (fit.narrows hs.store narrows.store) agreed
  unnoticed {s t} hs ht fit fit' unnoticed h := by
    refine filter_eq_of_agreed ht fit' fun k v hk => ?_
    obtain ⟨heeded, linked⟩ := ((ends_agreed hs fit).of_ok h).2 k v hk
    have plan : t.store.domain c.plan = s.store.domain c.plan :=
      unnoticed.domain_eq _ (List.mem_append_right _ (List.mem_singleton_self _))
    have fixed := unnoticed.fixed?_eq v (List.mem_append_left _
      (List.mem_map_of_mem (f := fun v => (v, [Event.assign])) (List.mem_of_getElem? hk)))
    refine ⟨heeded.narrows fixed (fun x hx => ?_) (unnoticed.contains c.plan), fun planned => ?_,
      fun out => ?_⟩
    · rw [Store.fixed?, plan]
      exact hx
    · rw [Store.fixed?, plan] at planned
      exact Int.le_trans (linked.1 planned) (unnoticed.lower_le ht.store v)
    · rw [Store.contains, plan] at out
      exact Int.le_trans (unnoticed.upper_le ht.store v) (linked.2 out)

end ProductionLink
end BranchBound
