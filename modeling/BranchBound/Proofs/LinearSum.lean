import BranchBound.Constraint.LinearSum
import BranchBound.Proofs.Persistence
import BranchBound.Proofs.Sum

/-! # Linear sums

An assignment keeps a linear sum if the total is the sum of the terms.  The filter spares these
assignments, and when it has nothing more to say, the bounds of the total are within the sums of the
bounds. -/
namespace BranchBound

namespace LinearSum
variable (c : LinearSum)

/-- All variables exist. -/
structure Base (s : Store) : Prop where
  terms : ∀ v ∈ c.terms, v < s.numVars
  total : c.total < s.numVars

/-- The total is the sum of the terms. -/
def Holds (a : Assignment) : Prop := a c.total = sumInt (c.terms.map a)

/-- The bounds of the total are within the sums of the bounds. -/
def Spec (s : Store) : Prop := (c.range s).1 ≤ s.lower c.total ∧ s.upper c.total ≤ (c.range s).2

variable {c} {B : Prop} {s t : Space}

theorem Base.narrows {s t : Store} (h : c.Base s) (hn : s.Narrows t) : c.Base t :=
  ⟨fun v hv => hn.numVars_eq ▸ h.terms v hv, hn.numVars_eq ▸ h.total⟩

theorem Holds.total_mem_range {a : Assignment} {s : Store} (base : c.Base s) (h : c.Holds a)
    (ha : s.Admits a) : (c.range s).1 ≤ a c.total ∧ a c.total ≤ (c.range s).2 := by
  have bounds (v : Var) (hv : v ∈ c.terms) := Store.bounds_of_contains (ha v (base.terms v hv))
  rw [h]
  exact ⟨sumInt_le fun v hv => (bounds v hv).1, sumInt_le fun v hv => (bounds v hv).2⟩

variable (hs : s.Valid) (base : B → c.Base s.store)
include hs base

/-- A term is what the total leaves of the others, whose bounds may have become narrower since. -/
theorem filters_boundTerm {total : Int × Int} {v : Var} (hv : v ∈ c.terms) (ht : s.Narrows Filter.noCells t)
    (htotal : ∀ a, Granted B c.Holds a → t.store.Admits a → total.1 ≤ a c.total ∧ a c.total ≤ total.2) :
    Filter.Filters Filter.noCells (Granted B c.Holds) B (boundTerm (c.range s.store) total v) t
      True := by
  unfold boundTerm
  rw [Filter.filters_read, Filter.filters_read]
  refine (Filter.filters_narrow (ht.valid hs)
    (fun hB => ((base hB).narrows ht.store).terms v hv) fun a ha hadm => ?_).mono fun _ => trivial
  have before := ht.store.admits hs.store hadm
  have bounds (w : Var) (hw : w ∈ c.terms) :=
    Store.bounds_of_contains (before w ((base ha.1).terms w hw))
  have above := sumInt_sub_le (fun w hw => (bounds w hw).1) hv
  have below := sumInt_sub_le (fun w hw => (bounds w hw).2) hv
  have := htotal a ha hadm
  have := ht.store.lower_le hs.store v
  have := ht.store.upper_le hs.store v
  have eq := ha.2
  unfold Holds at eq
  unfold range
  dsimp only
  omega

theorem filters_pass :
    Filter.Filters Filter.noCells (Granted B c.Holds) B c.pass s (c.Spec s.store) := by
  unfold pass
  rw [Filter.filters_read]
  refine (Filter.filters_narrow hs (fun hB => (base hB).total) fun a ha hadm =>
    ha.2.total_mem_range (base ha.1) hadm).bind fun changed u hu said => ?_
  rw [ends_bind, Filter.ends_read, ends_bind]
  have total (a : Assignment) (ha : Granted B c.Holds a) {t : Space} (ht : u.Narrows Filter.noCells t)
      (hadm : t.store.Admits a) :=
    Store.bounds_of_contains (ht.store.admits (hu.narrows.valid hs).store hadm _
      ((base ha.1).narrows hu.narrows.store).total)
  refine Ends.mono (Filter.filters_each fun v hv t ht => filters_boundTerm hs base hv
    (hu.narrows.trans ht) fun a ha hadm => total a ha ht hadm)
    (fun b t ht => ⟨hu.trans ht.1, fun hb => ?_⟩) fun halt t ht => ht.after hu
  exact said (Bool.or_eq_false_iff.mp hb).2

omit hs base

/-- The sums of the bounds depend on the bounds of the terms. -/
theorem range_congr {s t : Store} (h : ∀ v ∈ c.terms, t.lower v = s.lower v ∧ t.upper v = s.upper v) :
    c.range t = c.range s := by
  have lower : c.terms.map t.lower = c.terms.map s.lower := List.map_congr_left fun v hv => (h v hv).1
  have upper : c.terms.map t.upper = c.terms.map s.upper := List.map_congr_left fun v hv => (h v hv).2
  unfold range
  rw [lower, upper]

/-- **A linear sum as a rule.** -/
def rule (c : LinearSum) : Rule where
  watches := c.watches
  filter := c.filter
  Base := c.Base
  Spec := c.Spec
  Holds := c.Holds
  base_congr := ⟨fun h => ⟨h.1, h.2⟩, fun h => ⟨h.1, h.2⟩⟩
  spec_congr := Iff.rfl
  base_narrows h _ hn := h.narrows hn
  spec_told {s t new} _ h _ _ told away := by
    have bounds {v : Var} (hv : v ∈ c.terms ++ [c.total]) :=
      away.bounds_eq told (List.mem_map_of_mem (f := fun v => (v, Event.bounds)) hv)
    obtain ⟨hl, hu⟩ := bounds (List.mem_append_right c.terms (List.mem_singleton_self c.total))
    unfold Spec
    rw [range_congr fun v hv => bounds (List.mem_append_left _ hv), hl, hu]
    exact h
  filtered {s} hs := Filter.ends_untilStable fun _ ht =>
    (filters_pass (ht.valid hs) fun hB => Base.narrows hB ht.store).mono fun h _ => h

/-- **Linear sums are idempotent**: all bounds that they read are watched. -/
theorem idempotent (c : LinearSum) : c.rule.Idempotent fun _ => True := by
  refine Rule.idempotent_of_pass c.pass rfl (fun _ _ _ => trivial) (fun _ _ => trivial)
    (fun s hs => ⟨_, False, _, filters_pass hs fun h => h.elim⟩) fun s t hs ht _ _ unnoticed => ?_
  have bounds {v : Var} (hv : v ∈ c.terms ++ [c.total]) :=
    unnoticed.bounds_eq v (List.mem_map_of_mem (f := fun v => (v, Event.bounds)) hv)
  have total := bounds (List.mem_append_right c.terms (List.mem_singleton_self c.total))
  have term {v : Var} (hv : v ∈ c.terms) := bounds (List.mem_append_left [c.total] hv)
  -- a narrowing has nothing to do as long as the bounds that it narrows to are the same
  have narrow (v : Var) (first last : Int)
      (same : t.store.lower v = s.store.lower v ∧ t.store.upper v = s.store.upper v) :
      Filter.Persists Filter.Unchanged (Filter.narrow v first last) s t := by
    refine Filter.persists_narrow unnoticed.numVars_eq hs.store ht.store fun within => ?_
    rw [same.1, same.2]
    exact within
  unfold pass
  refine Filter.persists_read (range_congr fun v hv => term hv) ?_
  refine Filter.persists_bind (narrow _ _ _ total) (fun changed _ => ?_) fun changed u b w hb h => ?_
  · refine Filter.persists_read (by rw [total.1, total.2]) (Filter.persists_or ?_)
    refine Filter.persists_each fun v hv => ?_
    unfold boundTerm
    exact Filter.persists_read (term hv).1 (Filter.persists_read (term hv).2 (narrow _ _ _ (term hv)))
  · obtain ⟨bounds, u', -, h'⟩ := bind_eq_ok h
    exact Filter.unchanged_of_or hb h'

end LinearSum
end BranchBound
