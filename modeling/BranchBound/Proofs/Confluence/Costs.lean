import BranchBound.Proofs.Confluence.Shelter
import BranchBound.Proofs.LinearSum
import BranchBound.Proofs.StockingCost

/-! # Sums and stocking costs shelter what they have come to

A store is closed under a linear sum if its bounds say nothing new of each other (`LinearSum.Closed`), and
closed under stocking costs if the cost is within its bounds.  In a space that has more values all bounds
are looser, so a call takes none of the values of the store away. -/
namespace BranchBound

namespace LinearSum
variable {c : LinearSum} {s t f : Space} {F : Store} {v : Var}

/-- The total and the terms have nothing more to say of each other. -/
structure Closed (c : LinearSum) (F : Store) : Prop where
  total : (c.range F).1 ≤ F.lower c.total ∧ F.upper c.total ≤ (c.range F).2
  term : ∀ v ∈ c.terms, F.lower c.total - ((c.range F).2 - F.upper v) ≤ F.lower v ∧
    F.upper v ≤ F.upper c.total - ((c.range F).1 - F.lower v)

theorem filters_pass_closed (hf : f.Valid) :
    Filter.Filters Filter.noCells (fun _ => False) False c.pass f (c.Closed f.store) := by
  unfold pass
  rw [Filter.filters_read]
  refine (Filter.filters_narrow hf (fun h => h.elim) fun _ h => h.elim).bind fun changed u hu total => ?_
  rw [ends_bind, Filter.ends_read, ends_bind]
  refine Ends.mono (Filter.filters_each
    (Q := fun v w => u.store.lower c.total - ((c.range f.store).2 - w.store.upper v) ≤ w.store.lower v ∧
      w.store.upper v ≤ u.store.upper c.total - ((c.range f.store).1 - w.store.lower v)) fun v _ w hw => ?_)
    (fun b w hw => ⟨hu.trans hw.1, fun unchanged => ?_⟩) fun halt w hw => hw.after hu
  · unfold boundTerm
    rw [Filter.filters_read, Filter.filters_read]
    exact Filter.filters_narrow (hw.valid (hu.narrows.valid hf)) (fun h => h.elim) fun _ h => h.elim
  · obtain ⟨hb, hchanged⟩ := Bool.or_eq_false_iff.mp unchanged
    obtain rfl := hu.unchanged hchanged
    exact ⟨total hchanged, hw.2 hb⟩

/-- **What the filter of a sum has come to is closed.** -/
theorem closed_of_rests (hf : f.Valid) (rests : c.filter f = .ok () f) : c.Closed f.store := by
  have passed := Filter.rests_of_untilStable
    (fun u hu => ⟨_, _, _, filters_pass_closed (hu.valid hf)⟩) rests
  exact ((filters_pass_closed hf).of_ok passed).2 rfl

section
variable (hF : F.Valid) (hs : s.Valid) (h : s.store.Encloses F) (closed : c.Closed F)
include hF hs h closed

/-- The bounds that are left for a term were looser when the sums were read. -/
theorem shelters_boundTerm {total : Int × Int} (hv : v ∈ c.terms) (ht : Filter.Spared F s t)
    (htotal : total.1 ≤ F.lower c.total ∧ F.upper c.total ≤ total.2) :
    Filter.Shelters F (boundTerm (c.range s.store) total v) t := by
  unfold boundTerm
  rw [Filter.shelters_read, Filter.shelters_read]
  obtain ⟨least, most⟩ := closed.term v hv
  have above := sumInt_sub_le (fun w _ => h.upper_le hF w) hv
  have below := sumInt_sub_le (fun w _ => h.lower_le hF w) hv
  have := ht.narrows.store.lower_le hs.store v
  have := ht.narrows.store.upper_le hs.store v
  unfold range at least most ⊢
  dsimp only at least most ⊢
  apply Filter.shelters_narrow hF (ht.narrows.valid hs) ht.encloses
  · omega
  · omega

theorem shelters_pass : Filter.Shelters F c.pass s := by
  have least : (c.range s.store).1 ≤ (c.range F).1 := sumInt_le fun w _ => h.lower_le hF w
  have most : (c.range F).2 ≤ (c.range s.store).2 := sumInt_le fun w _ => h.upper_le hF w
  unfold pass
  rw [Filter.shelters_read]
  refine Filter.shelters_bind (Filter.shelters_narrow hF hs h (Int.le_trans least closed.total.1)
    (Int.le_trans closed.total.2 most)) fun changed u hu => ?_
  rw [Filter.shelters_read]
  refine Filter.shelters_bind (Filter.shelters_each hu.encloses fun v hv w hw => ?_) fun _ _ hw =>
    Filter.shelters_pure hw.encloses
  exact shelters_boundTerm hF hs h closed hv (hu.trans hw)
    ⟨hu.encloses.lower_le hF _, hu.encloses.upper_le hF _⟩

/-- **A sum shelters what it is closed under.** -/
theorem shelters_filter : Filter.Shelters F c.filter s :=
  Filter.shelters_untilStable h fun _ ht => shelters_pass hF (ht.narrows.valid hs) ht.encloses closed

end

end LinearSum

namespace StockingCost
variable {c : StockingCost} {s f : Space} {F : Store} {vs : List Var} {required : List Int}

/-- **What the filter of stocking costs has come to is within the bounds.** -/
theorem spec_of_rests (hf : f.Valid) (base : c.Base f.store) (rests : c.filter f = .ok () f) :
    c.Spec f.store :=
  ((ends_filter hf).of_ok rests).2.2 base.apart

/-- The indicators of the store say more than those of the space. -/
structure Looser (s F : Store) (vs : List Var) : Prop where
  certain : ∀ v ∈ vs, (Indicator.ofVar s v).certain ≤ (Indicator.ofVar F v).certain
  most : ∀ v ∈ vs, (Indicator.ofVar F v).certain + (Indicator.ofVar F v).possible ≤
    (Indicator.ofVar s v).certain + (Indicator.ofVar s v).possible

theorem Looser.mono {ws : List Var} {s : Store} (h : Looser s F vs) (sub : ws ⊆ vs) : Looser s F ws :=
  ⟨fun v hv => h.certain v (sub hv), fun v hv => h.most v (sub hv)⟩

theorem Base.looser {s : Store} (base : c.Base s) (hs : s.Valid) (hF : F.Valid) (h : s.Encloses F)
    (sub : ∀ v ∈ vs, v ∈ c.produced.toList) : Looser s F vs := by
  refine ⟨fun v _ => h.lower_le hF v, fun v hv => ?_⟩
  have lower := base.indicators v (sub v hv) _ (hs.contains_lower v)
  have upper := base.indicators v (sub v hv) _ (hs.contains_upper v)
  have := h.lower_le hF v
  have := h.upper_le hF v
  have := hF.lower_le_upper v
  unfold Indicator.ofVar
  dsimp only
  by_cases fixed : s.isFixed v = true
  · rw [if_pos fixed, if_pos (h.isFixed hF fixed)]
    have := Store.isFixed_iff.mp fixed
    omega
  · rw [if_neg fixed]
    have : s.lower v ≠ s.upper v := fun same => fixed (Store.isFixed_iff.mpr same)
    split
    · omega
    · rename_i opened
      have : F.lower v ≠ F.upper v := fun same => opened (Store.isFixed_iff.mpr same)
      omega

theorem Looser.sums {s : Store} (h : Looser s F vs) :
    sumInt ((vs.map (Indicator.ofVar s)).map (·.certain)) ≤
        sumInt ((vs.map (Indicator.ofVar F)).map (·.certain)) ∧
      sumInt ((vs.map (Indicator.ofVar F)).map (·.certain)) +
          sumInt ((vs.map (Indicator.ofVar F)).map (·.possible)) ≤
        sumInt ((vs.map (Indicator.ofVar s)).map (·.certain)) +
          sumInt ((vs.map (Indicator.ofVar s)).map (·.possible)) := by
  simp only [List.map_map, ← sumInt_add, Function.comp_def]
  exact ⟨sumInt_le h.certain, sumInt_le h.most⟩

theorem Looser.stocks {s : Store} (h : Looser s F vs) (required : List Int) :
    (stocks (vs.map (Indicator.ofVar s)) required).least ≤
        (stocks (vs.map (Indicator.ofVar F)) required).least ∧
      (stocks (vs.map (Indicator.ofVar F)) required).most ≤
        (stocks (vs.map (Indicator.ofVar s)) required).most := by
  have each (x : Int × Nat) := And.intro (h.mono (List.take_subset (x.2 + 1) vs)).sums
    (h.mono (List.drop_subset (x.2 + 1) vs)).sums
  rw [stocks_eq, stocks_eq]
  simp only [← List.map_take, ← List.map_drop]
  unfold stock
  dsimp only
  constructor
  · refine sumInt_le fun x _ => ?_
    have := each x
    omega
  · refine sumInt_le fun x _ => ?_
    have := each x
    omega

/-- **With fewer values the bounds of the cost are closer.** -/
theorem Base.bounds_mono {s : Store} (base : c.Base s) (hs : s.Valid) (hF : F.Valid) (h : s.Encloses F) :
    (c.bounds s).least ≤ (c.bounds F).least ∧ (c.bounds F).most ≤ (c.bounds s).most := by
  have each (x : (List Var × List Int) × Int) (hx : x ∈ c.rows) :=
    (base.looser hs hF h (indicator_of_mem_rows hx).1).stocks x.1.2
  have cost (x : (List Var × List Int) × Int) (hx : x ∈ c.rows) : 0 ≤ x.2 :=
    base.nonneg _ (indicator_of_mem_rows hx).2
  rw [bounds_eq fun _ _ => rfl, bounds_eq fun _ _ => rfl]
  exact ⟨sumInt_le fun x hx => Int.mul_le_mul_of_nonneg_right (each x hx).1 (cost x hx),
    sumInt_le fun x hx => Int.mul_le_mul_of_nonneg_right (each x hx).2 (cost x hx)⟩

/-- **Stocking costs shelter what is within their bounds.** -/
theorem shelters_filter (hF : F.Valid) (hs : s.Valid) (h : s.store.Encloses F) (base : c.Base s.store)
    (spec : c.Spec F) : Filter.Shelters F c.filter s := by
  obtain ⟨least, most⟩ := base.bounds_mono hs.store hF h
  unfold filter
  rw [Filter.shelters_read]
  refine Filter.shelters_discard (Filter.shelters_pair h (fun t ht => ?_) fun t ht => ?_)
  · exact Filter.shelters_setLower hF (ht.narrows.valid hs) ht.encloses (Int.le_trans least spec.1)
  · exact Filter.shelters_setUpper hF (ht.narrows.valid hs) ht.encloses (Int.le_trans spec.2 most)

end StockingCost
end BranchBound
