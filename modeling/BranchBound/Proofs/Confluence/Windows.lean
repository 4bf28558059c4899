import BranchBound.Proofs.Confluence.Shelter
import BranchBound.Proofs.TimeWindow

/-! # Time windows shelter what they have come to

What a pass reads of the times it reads one after another, and some of it before the times have moved.  But
whatever is read in a space that encloses the store is looser than what is read there.  So a predecessor that
is in the store is not removed, and what its arrivals bound is bounded there already.

Only where a node can be left no more is nothing bounded.  That has to be known of the store otherwise. -/
namespace BranchBound

namespace NodeTime
variable {s : Space} {F : Store} {x : NodeTime} {bound : Int}

section
variable (hF : F.Valid) (hs : s.Valid) (h : s.store.Encloses F) (known : x.Known F) (takes : x.Takes bound)
include hF hs h known takes

theorem shelters_setLower (spare : bound ≤ x.lower F) : Filter.Shelters F (x.setLower bound) s := by
  rw [known.lower_eq] at spare
  cases x with
  | constant time =>
    simp only [value] at spare
    rw [setLower, if_neg (by omega)]
    exact Filter.shelters_pure h
  | shifted v offset =>
    simp only [value] at spare
    refine Filter.shelters_setLower hF hs h ?_
    rw [Word.integer_eq_self takes]
    omega

theorem shelters_setUpper (spare : x.upper F ≤ bound) : Filter.Shelters F (x.setUpper bound) s := by
  rw [known.upper_eq] at spare
  cases x with
  | constant time =>
    simp only [value] at spare
    rw [setUpper, if_neg (by omega)]
    exact Filter.shelters_pure h
  | shifted v offset =>
    simp only [value] at spare
    refine Filter.shelters_setUpper hF hs h ?_
    rw [Word.integer_eq_self takes]
    omega

end

section
variable (known : x.Known s.store) (takes : x.Takes bound)
include known takes

theorem rests_setLower (h : Filter.Rests (x.setLower bound) s) : bound ≤ x.lower s.store := by
  rw [known.lower_eq]
  cases x with
  | constant time =>
    refine Int.not_lt.mp fun (early : time < bound) => ?_
    rw [setLower, if_pos early] at h
    cases h
  | shifted v offset =>
    have := (Filter.rests_setLower_iff.mp h).2
    rw [Word.integer_eq_self takes] at this
    simp only [value]
    omega

theorem rests_setUpper (h : Filter.Rests (x.setUpper bound) s) : x.upper s.store ≤ bound := by
  rw [known.upper_eq]
  cases x with
  | constant time =>
    refine Int.not_lt.mp fun (late : bound < time) => ?_
    rw [setUpper, if_pos late] at h
    cases h
  | shifted v offset =>
    have := (Filter.rests_setUpper_iff.mp h).2
    rw [Word.integer_eq_self takes] at this
    simp only [value]
    omega

end
end NodeTime

namespace TimeWindow
variable {c : TimeWindow} {s u f : Space} {F : Store} {node i j : Nat}

/-! ## What the filter has come to -/

/-- An arc fits the times at its ends. -/
def Fits (c : TimeWindow) (F : Store) (source target : Nat) : Prop :=
  (c.departure source).lower F + c.distance source target ≤ (c.arrival target).upper F ∧
    (c.arrival target).lower F ≤ c.reached source target ((c.departure source).upper F)

/-- All arcs into a node fit.  The arrival is within what they determine, and a fixed predecessor is left at
the time that the arrival determines. -/
structure Reached (c : TimeWindow) (F : Store) (node : Nat) : Prop where
  fits : ∀ j : Nat, F.contains (c.predecessor node) j = true → c.Fits F j node
  first : ∃ j : Nat, F.contains (c.predecessor node) j = true ∧
    c.reached j node ((c.departure j).lower F) ≤ (c.arrival node).lower F
  last : ∃ j : Nat, F.contains (c.predecessor node) j = true ∧
    (c.arrival node).upper F ≤ c.reached j node ((c.departure j).upper F)
  left : ∀ j : Nat, F.fixed? (c.predecessor node) = some (j : Int) →
    (c.departure j).upper F ≤ (c.arrival node).upper F - c.distance j node ∧
    (c.opening node < (c.arrival node).lower F →
      (c.arrival node).lower F - c.distance j node ≤ (c.departure j).lower F)

/-- A node is left in time towards another one. -/
def Left (c : TimeWindow) (F : Store) (node : Nat) : Prop :=
  (∃ v, (c.departure node).var? = some v) → ∃ i < c.numNodes, i ≠ node ∧
    F.contains (c.predecessor i) node = true ∧
    (c.departure node).upper F ≤ (c.arrival i).upper F - c.distance node i

/-- The times have nothing more to say of each other. -/
structure Closed (c : TimeWindow) (F : Store) : Prop where
  reached : ∀ i < c.numNodes, c.Reached F i
  left : ∀ i < c.numNodes, c.Left F i

/-- What was seen of the predecessors when none was removed: they fit, and the first and the last of their
arrivals are those that were found. -/
structure Looked (c : TimeWindow) (F : Store) (node : Nat) (before : List Int) (span? : Option Span) : Prop where
  fits : ∀ j : Nat, (j : Int) ∈ before → c.Fits F j node
  settable : ∀ span, span? = some span → span.Settable (c.arrival node)
  found : before ≠ [] → ∃ span, span? = some span
  span : ∀ span, span? = some span →
    (∃ j : Nat, (j : Int) ∈ before ∧ span.first = c.reached j node ((c.departure j).lower F)) ∧
    ∃ j : Nat, (j : Int) ∈ before ∧ span.last = c.reached j node ((c.departure j).upper F)

theorem Looked.joined {before : List Int} {span? : Option Span} (h : c.Looked F node before span?)
    (fits : c.Fits F j node) (settable : Span.Settable (c.arrival node)
      ⟨c.reached j node ((c.departure j).lower F), c.reached j node ((c.departure j).upper F)⟩) :
    c.Looked F node (before ++ [(j : Int)]) (some (Span.join ⟨c.reached j node ((c.departure j).lower F),
      c.reached j node ((c.departure j).upper F)⟩ span?)) := by
  have here : (j : Int) ∈ before ++ [(j : Int)] := List.mem_append_right before List.mem_cons_self
  refine ⟨fun i hi => ?_, fun span hspan => Option.some.inj hspan ▸ settable.join h.settable,
    fun _ => ⟨_, rfl⟩, fun span hspan => ?_⟩
  · rcases List.mem_append.mp hi with hi | hi
    · exact h.fits i hi
    · obtain rfl := Int.ofNat.inj (List.mem_singleton.mp hi)
      exact fits
  · obtain rfl := Option.some.inj hspan
    cases hother : span? with
    | none => exact ⟨⟨j, here, rfl⟩, j, here, rfl⟩
    | some other =>
      obtain ⟨⟨a, ha, first⟩, b, hb, last⟩ := h.span other hother
      simp only [Span.join]
      constructor
      · rcases Int.le_total other.first (c.reached j node ((c.departure j).lower F)) with le | le
        · exact ⟨a, List.mem_append_left _ ha, by rw [Int.min_eq_left le, first]⟩
        · exact ⟨j, here, Int.min_eq_right le⟩
      · rcases Int.le_total other.last (c.reached j node ((c.departure j).upper F)) with le | le
        · exact ⟨j, here, Int.max_eq_right le⟩
        · exact ⟨b, List.mem_append_left _ hb, by rw [Int.max_eq_left le, last]⟩

/-! ## What is done where no time is cut -/

/-- The look at a predecessor, in a space from which some values may be gone. -/
theorem ends_reachFrom_of {s : Store} (base : c.Base s) (hnode : node < c.numNodes) (hj : j < c.numNodes)
    (hin : s.contains (c.predecessor node) j = true) {seen : Bool × Option Span}
    {Q : Bool × Option Span → Space → Prop} {E : Halt → Space → Prop} (hu : u.Valid) (encloses : s.Encloses u.store)
    (gone : (c.arrival node).upper s < (c.departure j).lower u.store + c.distance j node ∨
        c.reached j node ((c.departure j).upper u.store) < (c.arrival node).lower s →
      Ends (Filter.remove (c.predecessor node) j u) (fun b w => Q (b || seen.1, seen.2) w) E)
    (stays : (c.departure j).lower u.store + c.distance j node ≤ (c.arrival node).upper s ∧
        (c.arrival node).lower s ≤ c.reached j node ((c.departure j).upper u.store) →
      Span.Settable (c.arrival node) ⟨c.reached j node ((c.departure j).lower u.store),
        c.reached j node ((c.departure j).upper u.store)⟩ →
      Q (seen.1, some (Span.join ⟨c.reached j node ((c.departure j).lower u.store),
        c.reached j node ((c.departure j).upper u.store)⟩ seen.2)) u) :
    Ends (c.reachFrom (c.target node s) seen j u) Q E := by
  have base' := base.enclosed encloses hu.store
  have clear := (base.clear node j hnode hj hin).enclosed (base.departures j) (base.arrivals node) encloses hu.store
  have ordered := (base'.departures j).lower_le_upper hu.store
  unfold reachFrom
  rw [base'.arc_eq hj hnode, pure_bind, ends_bind, Filter.ends_read, ends_bind, Filter.ends_read,
    Word.integer_eq_self (clear.forth _ (Int.le_refl _) ordered).1,
    Word.integer_eq_self (clear.forth _ ordered (Int.le_refl _)).1, ends_ite]
  simp only [Bool.or_eq_true, decide_eq_true_eq]
  split
  · rename_i unfit
    rw [ends_bind]
    exact gone unfit
  · rename_i fit
    simp only [not_or, Int.not_lt] at fit
    exact stays fit (clear.settable ordered)

section
variable (hf : f.Valid) (base : c.Base f.store) (hnode : node < c.numNodes)
  (holes : ∀ i < c.numNodes, (f.store.domain (c.predecessor i)).width ≤ Domain.holeLimit)
include hf base hnode holes

/-- Where no predecessor is removed, all are looked at. -/
theorem ends_reachAll_looked :
    Ends ((f.store.values (c.predecessor node)).foldlM (c.reachFrom (c.target node f.store)) (false, none) f)
      (fun seen u => Filter.Advance Filter.noCells (fun _ => False) f seen.1 u ∧
        (seen.1 = false → c.Looked f.store node (f.store.values (c.predecessor node)) seen.2))
      (fun _ _ => True) := by
  refine ends_foldlM_prefix (I := fun before (seen : Bool × Option Span) u =>
      Filter.Advance Filter.noCells (fun _ => False) f seen.1 u ∧
        (seen.1 = false → c.Looked f.store node before seen.2))
    (fun before x rest split seen u ht => ?_)
    ⟨.refl, fun _ => ⟨fun _ h => (by cases h), fun _ h => (by cases h), fun h => absurd rfl h,
      fun _ h => (by cases h)⟩⟩
  obtain ⟨advance, looked⟩ := ht
  have hx : f.store.contains (c.predecessor node) x = true :=
    Store.mem_values.mp (by rw [split]; exact List.mem_append_right before List.mem_cons_self)
  obtain ⟨j, hj, rfl⟩ := base.sources node hnode x hx
  have valid := advance.narrows.valid hf
  refine ends_reachFrom_of base hnode hj hx valid (.of_narrows advance.narrows.store hf.store)
    (fun _ => ?_) fun fit settable => ⟨advance, fun unchanged => ?_⟩
  · refine Ends.mono (Filter.filters_remove (H := fun _ => False) (B := False) valid (fun h => h.elim)
      fun _ h => h.elim) (fun b w hw => ⟨advance.trans hw.1, fun unchanged => ?_⟩) fun _ _ _ => trivial
    -- what was removed is gone, and that is a change
    obtain ⟨hb, hseen⟩ := Bool.or_eq_false_iff.mp unchanged
    obtain rfl := advance.unchanged hseen
    rcases hw.2 hb _ hx with hne | ⟨plain, -⟩
    · exact absurd rfl hne
    · rw [(valid.store.domain _).hasHoles_iff.mpr (holes node hnode)] at plain
      cases plain
  · obtain rfl := advance.unchanged unchanged
    exact (looked unchanged).joined fit settable

omit holes in
/-- Where a fixed predecessor is not bounded, it is left at the time that the arrival determines. -/
theorem left_of_rests {t : Target} (ht : t.node = node) (ha : t.arrival = c.arrival node)
    (he : t.earliest = c.opening node) (rests : Filter.Rests (c.boundDeparture t) f)
    (fixed : f.store.fixed? (c.predecessor node) = some (j : Int)) :
    (c.departure j).upper f.store ≤ (c.arrival node).upper f.store - c.distance j node ∧
    (c.opening node < (c.arrival node).lower f.store →
      (c.arrival node).lower f.store - c.distance j node ≤ (c.departure j).lower f.store) := by
  obtain ⟨j', hj, eq⟩ := base.sources node hnode j (hf.store.contains_of_fixed? fixed)
  obtain rfl := Int.ofNat.inj eq
  unfold boundDeparture at rests
  rw [ht, ha, he, Filter.rests_read_iff, fixed] at rests
  dsimp only at rests
  rw [base.arc_eq hj hnode, pure_bind] at rests
  obtain ⟨_, _, hread, rests⟩ := bind_eq_ok rests
  cases hread
  obtain ⟨cut, w, hcut, rests⟩ := bind_eq_ok rests
  obtain ⟨_, _, hread, rests⟩ := bind_eq_ok rests
  cases hread
  have clear := base.clear node j hnode hj (hf.store.contains_of_fixed? fixed)
  have ordered := (base.arrivals node).lower_le_upper hf.store
  have latest := clear.back _ ordered (Int.le_refl _)
  rw [Word.integer_eq_self latest.1] at hcut
  have upper := (NodeTime.filters_setUpper hf (fun _ : True => base.departures j) (fun _ => latest.2)
    fun _ h => h.2.elim : Filter.Filters Filter.noCells (Granted True fun _ => False) True _ _ _).of_ok hcut
  split at rests
  · obtain ⟨raised, v, hraised, rests⟩ := bind_eq_ok rests
    injection rests with unchanged
    obtain ⟨unraised, uncut⟩ := Bool.or_eq_false_iff.mp unchanged
    obtain rfl := upper.1.unchanged uncut
    have earliest := clear.back _ (Int.le_refl _) ordered
    rw [Word.integer_eq_self earliest.1] at hraised
    have lower := (NodeTime.filters_setLower hf (fun _ : True => base.departures j) (fun _ => earliest.2)
      fun _ h => h.2.elim : Filter.Filters Filter.noCells (Granted True fun _ => False) True _ _ _).of_ok hraised
    exact ⟨upper.2 uncut trivial, fun _ => lower.2 unraised trivial⟩
  · rename_i waits
    injection rests with unchanged
    obtain rfl := upper.1.unchanged unchanged
    exact ⟨upper.2 unchanged trivial, fun early => absurd early waits⟩

theorem reached_of_rests (rests : Filter.Rests (c.filterTarget node) f) : c.Reached f.store node := by
  unfold filterTarget at rests
  rw [base.getElem?_arrivals hnode, base.getElem?_earliest hnode, Filter.rests_demand_iff,
    Filter.rests_demand_iff, Filter.rests_read_iff, Filter.rests_read_iff, Filter.rests_read_iff] at rests
  obtain ⟨seen, u, hseen, rests⟩ := bind_eq_ok rests
  obtain ⟨bounded, w, hbounded, rests⟩ := bind_eq_ok rests
  obtain ⟨advance, looked⟩ := (ends_reachAll_looked hf base hnode holes).of_ok hseen
  injection rests with unchanged same
  obtain ⟨hremoved, rfl⟩ := Bool.or_eq_false_iff.mp unchanged
  subst same
  obtain rfl := advance.unchanged hremoved
  have looked := looked hremoved
  obtain ⟨arrival, departure⟩ := Filter.rests_of_pair
    (fun t ht => ⟨_, _, _, filters_boundArrival (c := c) (B := False) (ht.valid hf) (fun h => h.elim)
      (fun _ h => h.1.elim) (fun h => h.elim) _ rfl⟩)
    (fun t ht => ⟨_, _, _, filters_boundDeparture (B := False) (ht.valid hf) (fun h => h.elim) hnode _
      rfl rfl rfl⟩) hbounded
  -- a domain is never empty, so some arrival was found
  obtain ⟨span, hspan⟩ := looked.found fun none => by
    have := Store.mem_values.mpr (hf.store.contains_lower (c.predecessor node))
    rw [none] at this
    cases this
  have settable := looked.settable span hspan
  rw [hspan, boundArrival, if_pos settable.le] at arrival
  obtain ⟨⟨a, hwithin, first⟩, b, hwithin', last⟩ := looked.span span hspan
  obtain ⟨lower, upper⟩ := Filter.rests_of_pair
    (fun t ht => ⟨_, _, _, NodeTime.filters_setLower (G := fun _ => False) (B := False) (ht.valid hf)
      (fun h => h.elim) (fun h => h.elim) fun _ h => h.1.elim⟩)
    (fun t ht => ⟨_, _, _, NodeTime.filters_setUpper (G := fun _ => False) (B := False) (ht.valid hf)
      (fun h => h.elim) (fun h => h.elim) fun _ h => h.1.elim⟩) arrival
  have lower := NodeTime.rests_setLower (base.arrivals node) settable.first lower
  have upper := NodeTime.rests_setUpper (base.arrivals node) settable.last upper
  exact ⟨fun j hj => looked.fits j (Store.mem_values.mpr hj), ⟨a, Store.mem_values.mp hwithin, first ▸ lower⟩,
    ⟨b, Store.mem_values.mp hwithin', last ▸ upper⟩, fun j hj => left_of_rests hf base hnode rfl rfl rfl departure hj⟩

end

theorem leaves_of_rests (hf : f.Valid) (base : c.Base f.store) (hnode : node < c.numNodes)
    (rests : Filter.Rests (c.filterSource node) f)
    (leaves : ∃ i < c.numNodes, i ≠ node ∧ f.store.contains (c.predecessor i) node = true) :
    c.Left f.store node := by
  intro ⟨v, hv⟩
  unfold filterSource at rests
  rw [base.getElem?_departures hnode, Filter.rests_demand_iff, hv, Filter.rests_read_iff] at rests
  obtain ⟨latest, hlatest⟩ : ∃ latest, c.nodes.mapM (c.latestTowards f.store node) = some latest :=
    exists_mapM_eq_some fun i hi => ⟨_, base.latestTowards_eq hnode hf.store (List.mem_range.mp hi)⟩
  rw [hlatest, Filter.rests_demand_iff] at rests
  cases hmax : (latest.filterMap id).max? with
  | none =>
    obtain ⟨i, hi, hne, hin⟩ := leaves
    have mem := (base.mem_latest hnode hf.store hlatest).mpr ⟨i, hi, hne, hin, rfl⟩
    rw [List.max?_eq_none_iff.mp hmax] at mem
    cases mem
  | some bound =>
    rw [hmax] at rests
    obtain ⟨i, hi, hne, hin, rfl⟩ := (base.mem_latest hnode hf.store hlatest).mp (List.max?_eq_some_iff.mp hmax).1
    have ordered := (base.arrivals i).lower_le_upper hf.store
    have latest := (base.clear i node hi hnode hin).back _ ordered (Int.le_refl _)
    exact ⟨i, hi, hne, hin, NodeTime.rests_setUpper (base.departures node) latest.2 rests⟩

/-- **What the filter of time windows has come to is closed**, if every node can be left. -/
theorem closed_of_rests (hf : f.Valid) (base : c.Base f.store)
    (holes : ∀ i < c.numNodes, (f.store.domain (c.predecessor i)).width ≤ Domain.holeLimit)
    (leaves : ∀ j < c.numNodes, ∃ i < c.numNodes, i ≠ j ∧ f.store.contains (c.predecessor i) j = true)
    (rests : c.filter f = .ok () f) : c.Closed f.store := by
  have passed : Filter.Rests c.pass f := Filter.rests_of_untilStable
    (fun u hu => ⟨_, False, _, filters_pass (hu.valid hf) fun h => h.elim⟩) rests
  have all := Filter.rests_of_inTurn (fun g hg t ht => by
    rcases List.mem_append.mp hg with hg | hg
    · obtain ⟨i, hi, rfl⟩ := List.mem_map.mp hg
      exact ⟨_, _, _, filters_filterTarget (B := False) (ht.valid hf) (fun h => h.elim) (List.mem_range.mp hi)⟩
    · obtain ⟨i, hi, rfl⟩ := List.mem_map.mp hg
      exact ⟨_, _, _, filters_filterSource (B := False) (ht.valid hf) (fun h => h.elim) (List.mem_range.mp hi)⟩)
    passed
  constructor
  · intro i hi
    exact reached_of_rests hf base hi holes
      (all _ (List.mem_append_left _ (List.mem_map_of_mem (List.mem_range.mpr hi))))
  · intro i hi
    exact leaves_of_rests hf base hi
      (all _ (List.mem_append_right _ (List.mem_map_of_mem (List.mem_range.mpr hi)))) (leaves i hi)

/-! ## What is sheltered -/

/-- What has been seen of the predecessors of a node: the arrivals over those that the store has. -/
structure Spanned (c : TimeWindow) (F : Store) (node : Nat) (before : List Int) (span? : Option Span) : Prop where
  settable : ∀ span, span? = some span → span.Settable (c.arrival node)
  spans : ∀ j : Nat, (j : Int) ∈ before → F.contains (c.predecessor node) j = true →
    ∃ span, span? = some span ∧ span.first ≤ c.reached j node ((c.departure j).lower F) ∧
      c.reached j node ((c.departure j).upper F) ≤ span.last

section
variable (hF : F.Valid) (hs : s.Valid) (h : s.store.Encloses F) (base : c.Base s.store) (closed : c.Closed F)
  (hnode : node < c.numNodes)
include hF hs h base closed hnode

theorem shelters_reachFrom {before : List Int} {seen : Bool × Option Span} {x : Int} (hu : Filter.Spared F s u)
    (spanned : c.Spanned F node before seen.2) (hx : s.store.contains (c.predecessor node) x = true) :
    Ends (c.reachFrom (c.target node s.store) seen x u)
      (fun seen' w => Filter.Spared F s w ∧ c.Spanned F node (before ++ [x]) seen'.2) Filter.Unrefuted := by
  obtain ⟨j, hj, rfl⟩ := base.sources node hnode x hx
  have arrival := And.intro ((base.arrivals node).lower_le h hF) ((base.arrivals node).upper_le h hF)
  have valid := hu.narrows.valid hs
  have base' := base.narrows hs.store hu.narrows.store
  have departure := And.intro ((base'.departures j).lower_le hu.encloses hF)
    ((base'.departures j).upper_le hu.encloses hF)
  have enclosed := Store.Encloses.of_narrows hu.narrows.store hs.store
  refine ends_reachFrom_of base hnode hj hx valid enclosed (fun unfit => ?_) fun _ settable =>
    ⟨hu, fun span hspan => Option.some.inj hspan ▸ settable.join spanned.settable, fun i hi hin => ⟨_, rfl, ?_⟩⟩
  · have gone : F.contains (c.predecessor node) j = false := by
      refine Bool.eq_false_iff.mpr fun hin => ?_
      have fits := (closed.reached node hnode).fits j hin
      unfold Fits at fits
      unfold reached at fits unfit
      omega
    refine Ends.mono_ok (Filter.shelters_remove hF valid hu.encloses gone)
      fun _ w hw => ⟨hu.trans hw, spanned.settable, fun i hi hin => ?_⟩
    rcases List.mem_append.mp hi with hi | hi
    · exact spanned.spans i hi hin
    · obtain rfl := Int.ofNat.inj (List.mem_singleton.mp hi)
      rw [gone] at hin
      cases hin
  · rcases List.mem_append.mp hi with hi | hi
    · obtain ⟨span, hspan, first, last⟩ := spanned.spans i hi hin
      rw [hspan]
      simp only [Span.join]
      omega
    · obtain rfl := Int.ofNat.inj (List.mem_singleton.mp hi)
      have here : c.reached i node ((c.departure i).lower u.store) ≤ c.reached i node ((c.departure i).lower F) ∧
          c.reached i node ((c.departure i).upper F) ≤ c.reached i node ((c.departure i).upper u.store) := by
        unfold reached
        omega
      cases seen.2 with
      | none => exact here
      | some span => simp only [Span.join]; omega

theorem shelters_boundArrival {span : Option Span} (t : Target) (ht : t.arrival = c.arrival node)
    (settable : ∀ found, span = some found → found.Settable (c.arrival node))
    (spanned : ∀ j : Nat, F.contains (c.predecessor node) j = true → ∃ found, span = some found ∧
      found.first ≤ c.reached j node ((c.departure j).lower F) ∧
      c.reached j node ((c.departure j).upper F) ≤ found.last) :
    Filter.Shelters F (boundArrival t span) s := by
  cases span with
  | none => exact Filter.shelters_pure h
  | some found =>
    obtain ⟨a, ha, first⟩ := (closed.reached node hnode).first
    obtain ⟨b, hb, last⟩ := (closed.reached node hnode).last
    obtain ⟨_, same, least, -⟩ := spanned a ha
    obtain rfl := Option.some.inj same
    obtain ⟨_, same, -, most⟩ := spanned b hb
    obtain rfl := Option.some.inj same
    have known := (base.arrivals node).enclosed h hF
    have settable := settable _ rfl
    rw [boundArrival, if_pos settable.le, ht]
    refine Filter.shelters_pair h (fun u hu => ?_) fun u hu => ?_
    · exact NodeTime.shelters_setLower hF (hu.narrows.valid hs) hu.encloses known settable.first
        (Int.le_trans least first)
    · exact NodeTime.shelters_setUpper hF (hu.narrows.valid hs) hu.encloses known settable.last
        (Int.le_trans last most)

theorem shelters_boundDeparture (t : Target) (ht : t.node = node) (ha : t.arrival = c.arrival node)
    (he : t.earliest = c.opening node) : Filter.Shelters F (c.boundDeparture t) s := by
  unfold boundDeparture
  rw [ht, ha, he, Filter.shelters_read]
  cases hf : s.store.fixed? (c.predecessor node) with
  | none => exact Filter.shelters_pure h
  | some x =>
    obtain ⟨j, hj, rfl⟩ := base.sources node hnode x (hs.store.contains_of_fixed? hf)
    obtain ⟨latest, earliest⟩ := (closed.reached node hnode).left j (h.fixed? hF hf)
    have clear := base.clear node j hnode hj (hs.store.contains_of_fixed? hf)
    have ordered := (base.arrivals node).lower_le_upper hs.store
    have upper := (base.arrivals node).upper_le h hF
    have known := (base.departures j).enclosed h hF
    have last := clear.back _ ordered (Int.le_refl _)
    dsimp only
    rw [base.arc_eq hj hnode, pure_bind, Filter.shelters_read, Word.integer_eq_self last.1]
    refine Filter.shelters_bind (NodeTime.shelters_setUpper hF hs h known last.2 (Int.le_trans latest
      (Int.sub_le_sub_right upper _))) fun cut u hu => ?_
    rw [Filter.shelters_read]
    have base' := base.narrows hs.store hu.narrows.store
    have valid := hu.narrows.valid hs
    have lower := (base'.arrivals node).lower_le hu.encloses hF
    split
    · rename_i waitless
      have ordered := (base'.arrivals node).lower_le_upper valid.store
      have first := (base'.clear node j hnode hj
        (valid.store.contains_of_fixed? (hu.narrows.store.fixed? hs.store hf))).back _ (Int.le_refl _) ordered
      rw [Word.integer_eq_self first.1]
      exact Filter.shelters_bind (NodeTime.shelters_setLower hF valid hu.encloses known first.2
        (Int.le_trans (Int.sub_le_sub_right lower _) (earliest (Int.lt_of_lt_of_le waitless lower))))
        fun _ _ hw => Filter.shelters_pure hw.encloses
    · exact Filter.shelters_pure hu.encloses

theorem shelters_filterTarget : Filter.Shelters F (c.filterTarget node) s := by
  unfold filterTarget
  refine Filter.shelters_demand fun _ harrival => Filter.shelters_demand fun _ hearliest => ?_
  obtain rfl := arrival_eq harrival
  obtain rfl := opening_eq hearliest
  rw [Filter.shelters_read, Filter.shelters_read, Filter.shelters_read]
  have looked : Ends ((s.store.values (c.predecessor node)).foldlM (c.reachFrom (c.target node s.store))
      (false, none) s) (fun seen u => Filter.Spared F s u ∧
        c.Spanned F node (s.store.values (c.predecessor node)) seen.2) Filter.Unrefuted :=
    ends_foldlM_prefix (I := fun before (seen : Bool × Option Span) u =>
      Filter.Spared F s u ∧ c.Spanned F node before seen.2)
      (fun before x rest split seen u hu => shelters_reachFrom hF hs h base closed hnode hu.1 hu.2
        (Store.mem_values.mp (by rw [split]; exact List.mem_append_right before List.mem_cons_self)))
      ⟨.refl h, fun _ h => (by cases h), fun _ hj => by cases hj⟩
  unfold Filter.Shelters
  rw [ends_bind]
  refine Ends.mono_ok looked fun seen u hu => ?_
  obtain ⟨spared, spanned⟩ := hu
  have valid := spared.narrows.valid hs
  have base' (w : Space) (hw : Filter.Spared F u w) : c.Base w.store :=
    (base.narrows hs.store spared.narrows.store).narrows valid.store hw.narrows.store
  have bounded : Filter.Shelters F (Filter.inTurn [boundArrival (c.target node s.store) seen.2,
      c.boundDeparture (c.target node s.store)]) u :=
    Filter.shelters_pair spared.encloses
      (fun w hw => shelters_boundArrival hF (hw.narrows.valid valid) hw.encloses (base' w hw) closed hnode _ rfl
        spanned.settable fun j hj => spanned.spans j (Store.mem_values.mpr (h.contains _ _ hj)) hj)
      fun w hw => shelters_boundDeparture hF (hw.narrows.valid valid) hw.encloses (base' w hw) closed hnode _
        rfl rfl rfl
  refine Ends.mono_ok (Q := fun _ => Filter.Spared F u) ?_ fun _ _ hw => spared.trans hw
  exact Filter.shelters_bind bounded fun _ _ hw => Filter.shelters_pure hw.encloses

theorem shelters_filterSource : Filter.Shelters F (c.filterSource node) s := by
  unfold filterSource
  refine Filter.shelters_demand fun _ hdeparture => ?_
  obtain rfl := departure_eq hdeparture
  split
  · exact Filter.shelters_pure h
  · rename_i v hv
    rw [Filter.shelters_read]
    refine Filter.shelters_demand fun latest hlatest => ?_
    split
    · exact Filter.shelters_pure h
    · rename_i bound hbound
      -- the node to which the store leaves in time is one to which the space does, and no later
      obtain ⟨i, hi, hne, hin, least⟩ := closed.left node hnode ⟨v, hv⟩
      have mem := (base.mem_latest hnode hs.store hlatest).mpr ⟨i, hi, hne, h.contains _ _ hin, rfl⟩
      obtain ⟨found, most⟩ := List.max?_eq_some_iff.mp hbound
      obtain ⟨target, htarget, -, inside, eq⟩ := (base.mem_latest hnode hs.store hlatest).mp found
      have ordered := (base.arrivals target).lower_le_upper hs.store
      have takes := ((base.clear target node htarget hnode inside).back _ ordered (Int.le_refl _)).2
      have := most _ mem
      have := (base.arrivals i).upper_le h hF
      exact NodeTime.shelters_setUpper hF hs h ((base.departures node).enclosed h hF) (eq ▸ takes) (by omega)

end

section
variable (hF : F.Valid) (hs : s.Valid) (h : s.store.Encloses F) (base : c.Base s.store) (closed : c.Closed F)
include hF hs h base closed

theorem shelters_pass : Filter.Shelters F c.pass s := by
  refine Filter.shelters_inTurn h fun g hg u hu => ?_
  have valid := hu.narrows.valid hs
  have base' := base.narrows hs.store hu.narrows.store
  rcases List.mem_append.mp hg with hg | hg
  · obtain ⟨i, hi, rfl⟩ := List.mem_map.mp hg
    exact shelters_filterTarget hF valid hu.encloses base' closed (List.mem_range.mp hi)
  · obtain ⟨i, hi, rfl⟩ := List.mem_map.mp hg
    exact shelters_filterSource hF valid hu.encloses base' closed (List.mem_range.mp hi)

/-- **Time windows shelter what they are closed under.** -/
theorem shelters_filter : Filter.Shelters F c.filter s :=
  Filter.shelters_untilStable h fun _ ht => shelters_pass hF (ht.narrows.valid hs) ht.encloses
    (base.narrows hs.store ht.narrows.store) closed

end

end TimeWindow
end BranchBound
