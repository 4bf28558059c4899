import BranchBound.Proofs.Store
import BranchBound.Space

/-! # Spaces that narrow and return

A space narrows when domains shrink and cells are assigned (`Space.Narrows`); `own` says which cells
may be assigned.  Whatever a narrowing changes, three things are known of it.

* **It is undone exactly.**  `Space.rewind k` is the space as it was when level `k` was last left.  A
  narrowing above level `k` does not change it (`Narrows.rewind_eq`), neither does opening a level
  (`rewind_checkpoint`), and returning to level `k` gives it back (`restored`).
* **It is told.**  Every change of a domain has left an event for its variable (`Told`).
* **It makes the domains smaller**, as narrowings of stores do. -/
namespace BranchBound

variable {α : Type}

/-! ## Trails -/

namespace Trail
variable (t : Trail α)

/-- The changes since level `k` was left, latest first. -/
def undone (k : Nat) : List α := (unwind (t.level - k) t.recent t.below).1

/-- The trail as it was when level `k` was left. -/
def back (k : Nat) : Trail α := (unwind (t.level - k) t.recent t.below).2

variable {t} {k : Nat}

/-- What is handed back and what is kept make up all changes. -/
theorem undone_append_back (t : Trail α) (k : Nat) : t.undone k ++ (t.back k).changes = t.changes :=
  changes_unwind _ _ _

theorem restore_eq (h : k < t.level) : t.restore k = .ok (t.undone k, t.back k) := by
  simp [restore, h, undone, back]

@[simp] theorem undone_of_le (h : t.level ≤ k) : t.undone k = [] := by
  simp [undone, Nat.sub_eq_zero_of_le h, unwind]

theorem unwind_push (n : Nat) (a : α) (recent : List α) (below : List (List α))
    (hn : 0 < n) (hb : n ≤ below.length) :
    (unwind n (a :: recent) below).1 = a :: (unwind n recent below).1 := by
  cases n with
  | zero => exact absurd hn (Nat.lt_irrefl 0)
  | succ n =>
    cases below with
    | nil => exact absurd hb (Nat.not_succ_le_zero n)
    | cons segment below => rfl

theorem undone_push (h : k < t.level) (a : α) : (t.push a).undone k = a :: t.undone k := by
  unfold undone
  exact unwind_push _ a t.recent t.below (by rw [level_push]; omega)
    (by rw [level_push, level]; omega)

@[simp] theorem undone_checkpoint (k : Nat) : t.checkpoint.undone k = t.undone k := by
  unfold undone
  rw [level_checkpoint]
  rcases Nat.lt_or_ge t.level k with h | h
  · rw [Nat.sub_eq_zero_of_le h, Nat.sub_eq_zero_of_le (Nat.le_of_lt h)]
    rfl
  · rw [Nat.succ_sub h]
    rfl

theorem level_back (h : k ≤ t.level) : (t.back k).level = k := by
  rw [back, level_unwind, ← level]
  omega

theorem unwind_add (m n : Nat) (recent : List α) (below : List (List α)) (h : m ≤ below.length) :
    (unwind (m + n) recent below).1 = (unwind m recent below).1 ++
      (unwind n (unwind m recent below).2.recent (unwind m recent below).2.below).1 := by
  induction m generalizing recent below with
  | zero => simp [unwind]
  | succ m ih =>
    cases below with
    | nil => exact absurd h (Nat.not_succ_le_zero m)
    | cons segment below =>
      rw [Nat.succ_add]
      simp only [unwind, List.append_assoc]
      rw [ih segment below (Nat.le_of_succ_le_succ h)]

/-- Going back to level `k` is going back to a level above it and from there to `k`. -/
theorem undone_back {j : Nat} (hkj : k ≤ j) (hj : j ≤ t.level) :
    t.undone k = t.undone j ++ (t.back j).undone k := by
  have split : t.level - k = (t.level - j) + (j - k) := by omega
  have added := unwind_add (t.level - j) (j - k) t.recent t.below (by
    change _ ≤ t.level
    omega)
  rw [← split] at added
  unfold undone
  rw [added, level_back hj]
  rfl

end Trail

/-! ## Stores and cells at earlier levels -/

theorem Arena.ext_get? {a b : Arena α} (h : ∀ k, a.get? k = b.get? k) : a = b := by
  cases a
  cases b
  exact congrArg Arena.mk (Array.ext_getElem? h)

/-- The variable that changed. -/
def Change.var : Change → Var
  | .lower v .. | .upper v .. | .hole v _ => v

theorem Shrinks.var_eq {v : Var} {d d' : Domain} {c : Change} {e : Event} (h : Shrinks v d d' c e) :
    c.var = v := by
  cases h <;> rfl

namespace Store
variable {s t : Store} {v : Var} {d d' : Domain} {c : Change} {e : Event} {k : Nat}

/-- The domains as they were when level `k` was left. -/
def domainsAt (s : Store) (k : Nat) : Arena Domain := (s.trail.undone k).foldl undo s.domains

theorem domainsAt_of_le (h : s.level ≤ k) : s.domainsAt k = s.domains := by
  rw [domainsAt, Trail.undone_of_le h]
  rfl

theorem size_undo (domains : Arena Domain) (c : Change) : (undo domains c).size = domains.size := by
  cases c <;> exact Arena.size_modify _ _ _

theorem size_domainsAt (s : Store) (k : Nat) : (s.domainsAt k).size = s.numVars := by
  have undone (cs : List Change) (domains : Arena Domain) :
      (cs.foldl undo domains).size = domains.size := by
    induction cs generalizing domains with
    | nil => rfl
    | cons c cs ih => rw [List.foldl_cons, ih, size_undo]
  exact undone _ _

theorem width_undo (domains : Arena Domain) (c : Change) (v : Var) :
    ((undo domains c).get? v).map Domain.width = (domains.get? v).map Domain.width := by
  cases c <;>
  · simp only [undo, Arena.get?_modify]
    split
    · simp [Function.comp_def, Domain.putBack]
    · rfl

theorem width_domainsAt (s : Store) (k : Nat) (v : Var) :
    ((s.domainsAt k).get? v).map Domain.width = (s.domains.get? v).map Domain.width := by
  have undone (cs : List Change) (domains : Arena Domain) :
      ((cs.foldl undo domains).get? v).map Domain.width = (domains.get? v).map Domain.width := by
    induction cs generalizing domains with
    | nil => rfl
    | cons c cs ih => rw [List.foldl_cons, ih, width_undo]
  exact undone _ _

/-- **A change is undone exactly.** -/
theorem undo_record (hs : s.Valid) (hd : s.domain? v = some d) (h : Shrinks v d d' c e) :
    undo (s.record v d' c e).domains c = s.domains := by
  refine Arena.ext_get? fun w => ?_
  have set : (s.record v d' c e).domains.get? w =
      if v = w then (s.domains.get? w).map fun _ => d' else s.domains.get? w :=
    Arena.get?_set _ _ _ _
  have here : s.domains.get? v = some d := hd
  cases h with
  | raise lt mem =>
    simp only [undo, Arena.get?_modify, set]
    split
    · subst w; simp [here, Domain.raise]
    · rfl
  | cut lt mem =>
    simp only [undo, Arena.get?_modify, set]
    split
    · subst w; simp [here, Domain.cut]
    · rfl
  | drop hx =>
    simp only [undo, Arena.get?_modify, set]
    split
    · subst w; simp [here, Domain.putBack_drop (hs _ _ hd) hx]
    · rfl

theorem domainsAt_record (hs : s.Valid) (hd : s.domain? v = some d) (h : Shrinks v d d' c e)
    (hk : k < s.level) : (s.record v d' c e).domainsAt k = s.domainsAt k := by
  have undone : (s.record v d' c e).trail.undone k = c :: s.trail.undone k := Trail.undone_push hk c
  rw [domainsAt, undone, List.foldl_cons, undo_record hs hd h]
  rfl

end Store

namespace Cells
variable {c : Cells} {i k : Nat} {x : Int}

/-- The values as they were when level `k` was left. -/
def valuesAt (c : Cells) (k : Nat) : Arena Int := (c.trail.undone k).foldl undo c.values

theorem valuesAt_of_le (h : c.trail.level ≤ k) : c.valuesAt k = c.values := by
  rw [valuesAt, Trail.undone_of_le h]
  rfl

theorem undo_assign : undo (c.values.set i x) ⟨i, c.value i⟩ = c.values := by
  refine Arena.ext_get? fun j => ?_
  simp only [undo, Arena.get?_set]
  split
  · subst j
    cases h : c.values.get? i with
    | none => simp
    | some y => simp [value, get?, h]
  · rfl

theorem level_assign : (c.assign i x).trail.level = c.trail.level := by
  unfold assign
  split <;> rfl

theorem below_assign : (c.assign i x).trail.below = c.trail.below := by
  unfold assign
  split <;> rfl

theorem valuesAt_assign (hk : k < c.trail.level) : (c.assign i x).valuesAt k = c.valuesAt k := by
  unfold assign
  split
  · rfl
  · rw [valuesAt, Trail.undone_push hk, List.foldl_cons, undo_assign]
    rfl

theorem value_assign_self (h : i < c.values.size) : (c.assign i x).value i = x := by
  have : c.get? i ≠ none := by simp [get?, Arena.get?, Arena.size] at h ⊢; exact h
  obtain ⟨y, hy⟩ := Option.ne_none_iff_exists'.mp this
  rw [value, get?_assign, if_pos rfl, hy]
  rfl

theorem value_assign_ne {j : Nat} (h : i ≠ j) : (c.assign i x).value j = c.value j := by
  rw [value, get?_assign, if_neg h]
  rfl

theorem value_assign {j : Nat} (h : i < c.values.size) :
    (c.assign i x).value j = if i = j then x else c.value j := by
  split
  · rename_i hij
    exact hij ▸ value_assign_self h
  · rename_i hij
    exact value_assign_ne hij

theorem size_assign : (c.assign i x).values.size = c.values.size := by
  unfold assign
  split
  · rfl
  · exact Arena.size_set _ _ _

end Cells

/-! ## What was told -/

/-- Which changes of a store `new` tells of, in that what it does not tell of is as before. -/
structure Told (new : List (Var × Event)) (s t : Store) : Prop where
  silent : ∀ v, (∀ e, (v, e) ∉ new) → t.domain? v = s.domain? v
  lower : ∀ v, (v, .lowerBound) ∉ new → t.lower v = s.lower v
  upper : ∀ v, (v, .upperBound) ∉ new → t.upper v = s.upper v
  fixed : ∀ v, (v, .assign) ∉ new → t.isFixed v = s.isFixed v

namespace Told
variable {new new' : List (Var × Event)} {s t u : Store}

theorem refl : Told [] s s := ⟨fun _ _ => rfl, fun _ _ => rfl, fun _ _ => rfl, fun _ _ => rfl⟩

theorem trans (h : Told new s t) (h' : Told new' t u) : Told (new' ++ new) s u where
  silent v hv := by
    simp only [List.mem_append, not_or] at hv
    rw [h'.silent v fun e => (hv e).1, h.silent v fun e => (hv e).2]
  lower v hv := by
    simp only [List.mem_append, not_or] at hv
    rw [h'.lower v hv.1, h.lower v hv.2]
  upper v hv := by
    simp only [List.mem_append, not_or] at hv
    rw [h'.upper v hv.1, h.upper v hv.2]
  fixed v hv := by
    simp only [List.mem_append, not_or] at hv
    rw [h'.fixed v hv.1, h.fixed v hv.2]

/-- The only value of a variable is known as long as nothing tells of its assignment. -/
theorem fixed?_eq (h : Told new s t) (hn : s.Narrows t) (hs : s.Valid) {v : Var}
    (hv : (v, .assign) ∉ new) : t.fixed? v = s.fixed? v := by
  cases hf : s.fixed? v with
  | some x => exact hn.fixed? hs hf
  | none =>
    rw [Store.fixed?_eq_none_iff] at hf ⊢
    rw [h.fixed v hv, hf]

end Told

namespace Store
variable {s : Store} {v : Var} {d d' : Domain} {c : Change} {e : Event}

/-- The events of a single change. -/
def eventsOf (v : Var) (d : Domain) (e : Event) : List (Var × Event) :=
  if d.isFixed then [(v, .assign), (v, e)] else [(v, e)]

theorem events_record : (s.record v d' c e).events = eventsOf v d' e ++ s.events := by
  unfold record eventsOf
  split <;> simp [*]

theorem told_record (hd : s.domain? v = some d) (h : Shrinks v d d' c e) :
    Told (eventsOf v d' e) s (s.record v d' c e) := by
  have mem : (v, e) ∈ eventsOf v d' e := by unfold eventsOf; split <;> simp
  have new : (s.record v d' c e).domain? v = some d' := domain?_record_self hd
  have away {w : Var} (hw : v ≠ w) : (s.record v d' c e).domain w = s.domain w := by
    rw [domain, domain?_record_ne hw, ← domain]
  refine ⟨fun w hw => ?_, fun w hw => ?_, fun w hw => ?_, fun w hw => ?_⟩
  · by_cases hvw : v = w
    · subst w; exact absurd mem (hw e)
    · exact domain?_record_ne hvw
  · by_cases hvw : v = w
    · subst w
      rw [lower, lower, domain_of hd, domain_of new]
      exact h.lower_eq fun he => hw (he ▸ mem)
    · rw [lower, away hvw, lower]
  · by_cases hvw : v = w
    · subst w
      rw [upper, upper, domain_of hd, domain_of new]
      exact h.upper_eq fun he => hw (he ▸ mem)
    · rw [upper, away hvw, upper]
  · by_cases hvw : v = w
    · subst w
      rw [isFixed, isFixed, domain_of hd, domain_of new, h.not_isFixed]
      cases hf : d'.isFixed with
      | false => rfl
      | true => exact absurd (by simp [eventsOf, hf]) hw
    · rw [isFixed, away hvw, isFixed]

end Store

/-! ## Spaces -/

namespace Space
variable {own own' : Nat → Prop} {s t u : Space} {k : Nat}

/-- The space as it was when level `k` was last left, without trails and events. -/
def rewind (s : Space) (k : Nat) : Space :=
  ⟨{ domains := s.store.domainsAt k }, { values := s.cells.valuesAt k }⟩

/-- The domains are valid and were so at every level, both trails are at the same level, and only
variables have changed. -/
structure Valid (s : Space) : Prop where
  store : s.store.Valid
  earlier : ∀ k, k < s.level → (s.rewind k).store.Valid
  level_cells : s.cells.trail.level = s.level
  changed_lt : ∀ c ∈ s.store.trail.changes, c.var < s.store.numVars

/-- The space as it is, without trails and events. -/
def bare (s : Space) : Space := ⟨{ domains := s.store.domains }, { values := s.cells.values }⟩

theorem domains_eq_of_bare {s t : Space} (h : t.bare = s.bare) : t.store.domains = s.store.domains :=
  congrArg (·.store.domains) h

theorem values_eq_of_bare {s t : Space} (h : t.bare = s.bare) : t.cells.values = s.cells.values :=
  congrArg (·.cells.values) h

theorem value_eq_of_bare {s t : Space} (h : t.bare = s.bare) (i : Nat) :
    t.cells.value i = s.cells.value i := by
  unfold Cells.value Cells.get?
  rw [values_eq_of_bare h]

/-- What a space comes to when domains shrink and own cells are assigned. -/
inductive Narrows (own : Nat → Prop) (s : Space) : Space → Prop
  | refl : Narrows own s s
  | shrink {t : Space} {v : Var} {d d' : Domain} {c : Change} {e : Event} (h : Narrows own s t)
    (hd : t.store.domain? v = some d) (hs : Shrinks v d d' c e) :
    Narrows own s ⟨t.store.record v d' c e, t.cells⟩
  | assign {t : Space} {i : Nat} {x : Int} (h : Narrows own s t) (hi : own i) :
    Narrows own s ⟨t.store, t.cells.assign i x⟩

theorem rewind_of_le (hs : s.Valid) (h : s.level ≤ k) : s.rewind k = s.bare := by
  unfold rewind bare
  rw [Store.domainsAt_of_le h, Cells.valuesAt_of_le (hs.level_cells ▸ h)]

theorem rewind_checkpoint (k : Nat) : s.checkpoint.rewind k = s.rewind k := by
  simp [rewind, checkpoint, Store.checkpoint, Cells.checkpoint, Store.domainsAt, Cells.valuesAt]

@[simp] theorem level_checkpoint : s.checkpoint.level = s.level + 1 := Trail.level_checkpoint _

@[simp] theorem bare_checkpoint : s.checkpoint.bare = s.bare := rfl

theorem Valid.rewind (hs : s.Valid) (k : Nat) : (s.rewind k).store.Valid := by
  rcases Nat.lt_or_ge k s.level with hk | hk
  · exact hs.earlier k hk
  · rw [rewind_of_le hs hk]
    exact hs.store

theorem Valid.checkpoint (hs : s.Valid) : s.checkpoint.Valid where
  store := hs.store
  earlier k _ := by
    rw [rewind_checkpoint]
    exact hs.rewind k
  level_cells := by
    change (s.cells.trail.checkpoint).level = _
    rw [Trail.level_checkpoint, hs.level_cells, level_checkpoint]
  changed_lt c hc := hs.changed_lt c (Trail.changes_checkpoint s.store.trail ▸ hc)

/-- A space with a variable for every range of values. -/
def ofRanges (ranges : List (Int × Int)) : Space :=
  ⟨{ domains := .ofList (ranges.map fun range => .ofRange range.1 range.2) }, {}⟩

theorem valid_ofRanges {ranges : List (Int × Int)} (h : ∀ range ∈ ranges, range.1 ≤ range.2) :
    (ofRanges ranges).Valid where
  store v d hd := by
    change (ranges.map fun range => Domain.ofRange range.1 range.2).toArray[v]? = some d at hd
    rw [List.getElem?_toArray] at hd
    obtain ⟨range, hr, rfl⟩ := List.mem_map.mp (List.mem_of_getElem? hd)
    exact Domain.valid_ofRange (h range hr)
  earlier k hk := absurd hk (Nat.not_lt_zero k)
  level_cells := rfl
  changed_lt c hc := absurd hc List.not_mem_nil

namespace Narrows

theorem trans (h : Narrows own s t) (h' : Narrows own t u) : Narrows own s u := by
  induction h' with
  | refl => exact h
  | shrink _ hd hs ih => exact .shrink ih hd hs
  | assign _ hi ih => exact .assign ih hi

theorem mono (h : Narrows own s t) (ho : ∀ i, own i → own' i) : Narrows own' s t := by
  induction h with
  | refl => exact .refl
  | shrink _ hd hs ih => exact .shrink ih hd hs
  | assign _ hi ih => exact .assign ih (ho _ hi)

/-- A narrowing of the store is one of the space. -/
theorem of_store {store : Store} (h : s.store.Narrows store) : Narrows own s ⟨store, s.cells⟩ := by
  induction h with
  | refl => exact .refl
  | shrink _ hd hs ih => exact .shrink ih hd hs

theorem store (h : Narrows own s t) : s.store.Narrows t.store := by
  induction h with
  | refl => exact .refl
  | shrink _ hd hs ih => exact .shrink ih hd hs
  | assign _ _ ih => exact ih

theorem level_eq (h : Narrows own s t) : t.level = s.level := h.store.level_eq

theorem level_cells_eq (h : Narrows own s t) : t.cells.trail.level = s.cells.trail.level := by
  induction h with
  | refl => rfl
  | shrink _ _ _ ih => exact ih
  | assign _ _ ih => exact Cells.level_assign.trans ih

/-- A change is put down at the current level. -/
theorem below_eq (h : Narrows own s t) : t.store.trail.below = s.store.trail.below ∧
    t.cells.trail.below = s.cells.trail.below := by
  induction h with
  | refl => exact ⟨rfl, rfl⟩
  | shrink _ _ _ ih => exact ih
  | assign _ _ ih => exact ⟨ih.1, Cells.below_assign.trans ih.2⟩

/-- **A narrowing is undone exactly**: it does not change what lower levels return to. -/
theorem rewind_eq (h : Narrows own s t) (hs : s.Valid) (hk : k < s.level) :
    t.rewind k = s.rewind k := by
  induction h with
  | refl => rfl
  | @shrink t v d d' c e h hd hsh ih =>
    have below : k < t.store.level := Nat.lt_of_lt_of_eq hk h.level_eq.symm
    rw [← ih]
    unfold rewind
    rw [Store.domainsAt_record (h.store.valid hs.store) hd hsh below]
  | @assign t i x h hi ih =>
    have below : k < t.cells.trail.level := by
      rw [h.level_cells_eq, hs.level_cells]
      exact hk
    rw [← ih]
    unfold rewind
    rw [Cells.valuesAt_assign below]

theorem valid (h : Narrows own s t) (hs : s.Valid) : t.Valid where
  store := h.store.valid hs.store
  earlier k hk := by
    rw [h.level_eq] at hk
    rw [h.rewind_eq hs hk]
    exact hs.earlier k hk
  level_cells := by rw [h.level_cells_eq, hs.level_cells, h.level_eq]
  changed_lt := by
    induction h with
    | refl => exact hs.changed_lt
    | shrink _ hd hsh ih =>
      intro c hc
      rw [Store.numVars_record]
      rcases List.mem_cons.mp hc with rfl | hc
      · rw [hsh.var_eq]
        exact Store.lt_numVars_of hd
      · exact ih c hc
    | assign _ _ ih => exact ih

/-- Cells that are not its own are not changed by a narrowing. -/
theorem cell_eq (h : Narrows own s t) {i : Nat} (hi : ¬ own i) :
    t.cells.value i = s.cells.value i := by
  induction h with
  | refl => rfl
  | shrink _ _ _ ih => exact ih
  | @assign t j x _ hj ih =>
    have hne : j ≠ i := by rintro rfl; exact hi hj
    exact (Cells.value_assign_ne hne).trans ih

theorem numCells_eq (h : Narrows own s t) : t.cells.values.size = s.cells.values.size := by
  induction h with
  | refl => rfl
  | shrink _ _ _ ih => exact ih
  | assign _ _ ih => exact Cells.size_assign.trans ih

/-- **What a narrowing changes is told**, and nothing is told unless some domain shrank. -/
theorem told (h : Narrows own s t) (hs : s.store.Valid) :
    ∃ new, t.store.events = new ++ s.store.events ∧ Told new s.store t.store ∧
      (new = [] → t.store = s.store) ∧ (new ≠ [] → t.numValues < s.numValues) := by
  induction h with
  | refl => exact ⟨[], rfl, .refl, fun _ => rfl, fun h => absurd rfl h⟩
  | @shrink t v d d' c e h hd hsh ih =>
    obtain ⟨new, hnew, told, same, less⟩ := ih
    refine ⟨Store.eventsOf v d' e ++ new, ?_, told.trans (Store.told_record hd hsh), ?_, ?_⟩
    · rw [List.append_assoc, ← hnew]
      exact Store.events_record
    · intro hempty
      have : (v, e) ∈ Store.eventsOf v d' e := by unfold Store.eventsOf; split <;> simp
      rw [(List.append_eq_nil_iff.mp hempty).1] at this
      cases this
    · intro _
      have step : (t.store.record v d' c e).numValues < t.store.numValues :=
        Store.numValues_record_lt hd (hsh.size_lt (h.store.valid hs v d hd))
      change (t.store.record v d' c e).numValues < s.store.numValues
      by_cases hn : new = []
      · rw [← same hn]
        exact step
      · exact Nat.lt_trans step (less hn)
  | assign _ _ ih => exact ih

end Narrows

/-! ## Returning -/

theorem restore_eq (hs : s.Valid) (hk : k < s.level) :
    s.restore k = .ok ⟨⟨s.store.domainsAt k, s.store.trail.back k, []⟩,
      ⟨s.cells.valuesAt k, s.cells.trail.back k⟩⟩ := by
  have store : s.store.restore k = .ok ⟨s.store.domainsAt k, s.store.trail.back k, []⟩ := by
    unfold Store.restore
    rw [Trail.restore_eq hk]
    rfl
  have cells : s.cells.restore k = .ok ⟨s.cells.valuesAt k, s.cells.trail.back k⟩ := by
    unfold Cells.restore
    rw [Trail.restore_eq (by rw [hs.level_cells]; exact hk)]
    rfl
  unfold restore
  rw [store, cells]
  rfl

/-- A space that returned to level `k`. -/
structure Restored (s : Space) (k : Nat) (t : Space) : Prop where
  lt_level : k < s.level
  level_eq : t.level = k
  events_eq : t.store.events = []
  numVars_eq : t.store.numVars = s.store.numVars
  width_eq : ∀ v, (t.store.domain v).width = (s.store.domain v).width
  valid : t.Valid
  bare_eq : t.bare = s.rewind k
  rewind_eq : ∀ j, j ≤ k → t.rewind j = s.rewind j

theorem restored (hs : s.Valid) (h : s.restore k = .ok t) : s.Restored k t := by
  by_cases hk : k < s.level
  · rw [restore_eq hs hk] at h
    obtain rfl := Except.ok.inj h
    have cells : k ≤ s.cells.trail.level := by rw [hs.level_cells]; exact Nat.le_of_lt hk
    have level : (s.store.trail.back k).level = k := Trail.level_back (Nat.le_of_lt hk)
    have same (j : Nat) (hj : j ≤ k) :
        rewind ⟨⟨s.store.domainsAt k, s.store.trail.back k, []⟩,
          ⟨s.cells.valuesAt k, s.cells.trail.back k⟩⟩ j = s.rewind j := by
      unfold rewind Store.domainsAt Cells.valuesAt
      rw [Trail.undone_back hj (Nat.le_of_lt hk), Trail.undone_back hj cells, List.foldl_append,
        List.foldl_append]
    have width (v : Var) :
        (((s.store.domainsAt k).get? v).getD default).width = (s.store.domain v).width := by
      have := Store.width_domainsAt s.store k v
      unfold Store.domain Store.domain?
      cases h : (s.store.domainsAt k).get? v <;> cases h' : s.store.domains.get? v <;>
        simp [h, h'] at this ⊢
      exact this
    refine ⟨hk, level, rfl, Store.size_domainsAt _ k, width,
      ⟨hs.rewind k, fun j hj => ?_, ?_, fun c hc => ?_⟩, rfl, same⟩
    · have hjk : j < k := Nat.lt_of_lt_of_eq hj level
      rw [same j (Nat.le_of_lt hjk)]
      exact hs.rewind j
    · exact (Trail.level_back cells).trans level.symm
    · have before := hs.changed_lt c
        (Trail.undone_append_back s.store.trail k ▸ List.mem_append_right _ hc)
      rwa [Store.numVars, Store.size_domainsAt]
  · have failed : s.store.restore k = .error (.levelNotOpen k s.store.trail.level) := by
      unfold Store.restore
      rw [Trail.restore_eq_error_iff.mpr (Nat.le_of_not_lt hk)]
      rfl
    unfold restore at h
    rw [failed] at h
    cases h

/-! ## What is below -/

/-- What lower levels return to is the same, and so is how they return to it. -/
structure SameBelow (s t : Space) : Prop where
  level_eq : t.level = s.level
  rewind_eq : ∀ k, k < s.level → t.rewind k = s.rewind k
  below_store : t.store.trail.below = s.store.trail.below
  below_cells : t.cells.trail.below = s.cells.trail.below
  numVars_eq : t.store.numVars = s.store.numVars
  width_eq : ∀ v, (t.store.domain v).width = (s.store.domain v).width

namespace SameBelow

theorem refl : s.SameBelow s := ⟨rfl, fun _ _ => rfl, rfl, rfl, rfl, fun _ => rfl⟩

theorem trans (h : s.SameBelow t) (h' : t.SameBelow u) : s.SameBelow u where
  level_eq := h'.level_eq.trans h.level_eq
  rewind_eq k hk := (h'.rewind_eq k (h.level_eq.symm ▸ hk)).trans (h.rewind_eq k hk)
  below_store := h'.below_store.trans h.below_store
  below_cells := h'.below_cells.trans h.below_cells
  numVars_eq := h'.numVars_eq.trans h.numVars_eq
  width_eq v := (h'.width_eq v).trans (h.width_eq v)

end SameBelow

theorem Narrows.sameBelow (h : Narrows own s t) (hs : s.Valid) : s.SameBelow t :=
  ⟨h.level_eq, fun _ hk => h.rewind_eq hs hk, h.below_eq.1, h.below_eq.2, h.store.numVars_eq,
    h.store.width_eq⟩

/-- The space when its events are delivered. -/
def drain (s : Space) : Space := ⟨s.store.drain, s.cells⟩

theorem sameBelow_drain : s.SameBelow s.drain := ⟨rfl, fun _ _ => rfl, rfl, rfl, rfl, fun _ => rfl⟩

theorem Valid.drain (hs : s.Valid) : s.drain.Valid := ⟨hs.store, hs.earlier, hs.level_cells, hs.changed_lt⟩

theorem drain_of_silent (h : s.store.events = []) : s.drain = s := by
  obtain ⟨⟨domains, trail, events⟩, cells⟩ := s
  cases h
  rfl

end Space
end BranchBound
