import BranchBound.Domain

/-! # Valid domains

A domain is **valid** if its bounds are values and its size is the number of its values; this is
what every domain is that a variable can have.  A valid domain can shrink in three ways, and each
of them leaves a valid domain: its lower bound is raised to a value (`raise`), its upper bound is
cut to a value (`cut`), or a value between them is dropped (`drop`).  Each way leaves exactly the
values that it is meant to leave (`contains_raise`, `contains_cut`, `contains_drop`), fewer than
before (`size_raise_lt`, `size_cut_lt`, `size_drop_lt`), and putting back what it took away gives
the domain as it was. -/
namespace BranchBound.Domain

variable {d : Domain} {b x y : Int}

/-- The bounds are values, and the size is the number of values. -/
structure Valid (d : Domain) : Prop where
  origin_le_lower : d.origin ≤ d.lower
  upper_lt : d.upper < d.origin + d.width
  lower_le_upper : d.lower ≤ d.upper
  lower_present : d.isPresent d.lower = true
  upper_present : d.isPresent d.upper = true
  size_eq : d.size = d.countBetween d.lower d.upper
  /-- The flags are those of the values at creation, unless there were too many. -/
  hasHoles_iff : d.hasHoles = true ↔ d.width ≤ holeLimit
  size_present : d.hasHoles = true → d.present.size = d.width

theorem contains_iff :
    d.contains x = true ↔ d.lower ≤ x ∧ x ≤ d.upper ∧ d.isPresent x = true := by
  simp [contains, and_assoc]

theorem isPresent_of_not_hasHoles (h : d.hasHoles = false) (x : Int) : d.isPresent x = true := by
  have empty : d.present = #[] := by simpa [hasHoles] using h
  simp [isPresent, empty]

namespace Valid

theorem contains_lower (h : d.Valid) : d.contains d.lower = true :=
  contains_iff.mpr ⟨Int.le_refl _, h.lower_le_upper, h.lower_present⟩

theorem contains_upper (h : d.Valid) : d.contains d.upper = true :=
  contains_iff.mpr ⟨h.lower_le_upper, Int.le_refl _, h.upper_present⟩

end Valid

theorem isFixed_iff : d.isFixed = true ↔ d.lower = d.upper := by
  simp [isFixed]

theorem fixed?_eq_none_iff : d.fixed? = none ↔ d.lower ≠ d.upper := by
  simp [fixed?]

theorem contains_of_isFixed (h : d.isFixed = true) (hx : d.contains x = true) : x = d.lower := by
  have bounds := contains_iff.mp hx
  have := isFixed_iff.mp h
  omega

theorem nodup_values (d : Domain) : d.values.Nodup := by
  refine List.Pairwise.filter _ (List.pairwise_map.mpr ?_)
  refine List.nodup_range.imp fun hne heq => hne ?_
  omega

theorem values_of_isFixed (h : d.Valid) (hf : d.isFixed = true) : d.values = [d.lower] := by
  have bounds := isFixed_iff.mp hf
  have present := (contains_iff.mp h.contains_lower).2.2
  unfold values
  rw [← bounds, show (d.lower - d.lower + 1).toNat = 1 by omega]
  simp [present]

/-- What is counted are the values that are present. -/
theorem countBetween_eq_length {first last : Int} (h : d.origin ≤ first) : d.countBetween first last =
    (((List.range (last - first + 1).toNat).map fun i : Nat => first + i).filter d.isPresent).length := by
  rw [← List.countP_eq_length_filter, List.countP_map]
  cases holes : d.hasHoles with
  | true => exact countBetween_eq holes h
  | false =>
    have all : ∀ i ∈ List.range (last - first + 1).toNat, (d.isPresent ∘ fun i : Nat => first + i) i = true :=
      fun i _ => isPresent_of_not_hasHoles holes _
    rw [List.countP_eq_length.mpr all, List.length_range]
    simp [countBetween, holes]

/-- The size is the number of values. -/
theorem Valid.size_eq_length (h : d.Valid) : d.size = d.values.length := by
  rw [h.size_eq, countBetween_eq_length h.origin_le_lower]
  rfl

theorem length_values_le (h : d.Valid) : d.values.length ≤ d.width := by
  have filtered := List.length_filter_le d.isPresent
    ((List.range (d.upper - d.lower + 1).toNat).map fun i : Nat => d.lower + i)
  rw [List.length_map, List.length_range] at filtered
  have := h.origin_le_lower
  have := h.upper_lt
  unfold values
  omega

/-! ## Creation -/

theorem valid_ofRange {lower upper : Int} (h : lower ≤ upper) : (ofRange lower upper).Valid := by
  have width : 0 < (upper - lower + 1).toNat := by omega
  have present (i : Nat) : (ofRange lower upper).present.getD i true = true := by
    unfold ofRange
    dsimp only
    split
    · simp [Array.getD_eq_getD_getElem?, Array.getElem?_replicate]
      split <;> rfl
    · rfl
  have holes : (ofRange lower upper).hasHoles = true ↔ (ofRange lower upper).width ≤ holeLimit := by
    unfold hasHoles ofRange
    dsimp only
    split
    · rename_i narrow
      have : (Array.replicate (upper - lower + 1).toNat true).isEmpty = false := by
        rw [Array.isEmpty_eq_false_iff_exists_mem]
        exact ⟨true, Array.mem_replicate.mpr ⟨by omega, rfl⟩⟩
      rw [this]
      exact ⟨fun _ => narrow, fun _ => rfl⟩
    · rename_i wide
      exact ⟨fun h => (by cases h), fun narrow => absurd narrow wide⟩
  refine ⟨Int.le_refl _, ?_, h, present _, present _, ?_, holes, ?_⟩
  · simp only [ofRange]; omega
  · simp only [countBetween, countSet_eq, Nat.zero_add]
    have all (n i : Nat) : (List.range' i n).countP
        ((ofRange lower upper).present.getD · true) = n := by
      rw [List.countP_eq_length.mpr fun j _ => present j, List.length_range']
    rw [all]
    split <;> rfl
  · intro hh
    have := holes.mp hh
    simp only [ofRange] at this ⊢
    simp [this]

theorem contains_ofRange {lower upper : Int} :
    (ofRange lower upper).contains x = true ↔ lower ≤ x ∧ x ≤ upper := by
  have present (x : Int) : (ofRange lower upper).isPresent x = true := by
    unfold isPresent ofRange
    dsimp only
    split
    · simp [Array.getD_eq_getD_getElem?, Array.getElem?_replicate]
      split <;> rfl
    · rfl
  rw [contains_iff]
  exact ⟨fun h => ⟨h.1, h.2.1⟩, fun h => ⟨h.1, h.2, present x⟩⟩

/-! ## Bounds -/

theorem contains_raise (h : d.lower ≤ b) :
    (d.raise b).contains y = true ↔ d.contains y = true ∧ b ≤ y := by
  simp only [contains_iff, raise, isPresent]
  constructor
  · rintro ⟨hl, hu, hp⟩
    exact ⟨⟨by omega, hu, hp⟩, hl⟩
  · rintro ⟨⟨-, hu, hp⟩, hb⟩
    exact ⟨hb, hu, hp⟩

theorem contains_cut (h : b ≤ d.upper) :
    (d.cut b).contains y = true ↔ d.contains y = true ∧ y ≤ b := by
  simp only [contains_iff, cut, isPresent]
  constructor
  · rintro ⟨hl, hu, hp⟩
    exact ⟨⟨hl, by omega, hp⟩, hu⟩
  · rintro ⟨⟨hl, -, hp⟩, hb⟩
    exact ⟨hl, hb, hp⟩

theorem Valid.raise (h : d.Valid) (hb : d.contains b = true) : (d.raise b).Valid := by
  obtain ⟨hl, hu, hp⟩ := contains_iff.mp hb
  exact {
    origin_le_lower := Int.le_trans h.origin_le_lower hl
    upper_lt := h.upper_lt
    lower_le_upper := hu
    lower_present := hp
    upper_present := h.upper_present
    size_eq := size_raise h.size_eq h.origin_le_lower hl hu
    hasHoles_iff := h.hasHoles_iff
    size_present := h.size_present }

theorem Valid.cut (h : d.Valid) (hb : d.contains b = true) : (d.cut b).Valid := by
  obtain ⟨hl, hu, hp⟩ := contains_iff.mp hb
  exact {
    origin_le_lower := h.origin_le_lower
    upper_lt := Int.lt_of_le_of_lt hu h.upper_lt
    lower_le_upper := hl
    lower_present := h.lower_present
    upper_present := hp
    size_eq := size_cut h.size_eq h.origin_le_lower hl hu
    hasHoles_iff := h.hasHoles_iff
    size_present := h.size_present }

/-- A single value is counted if it is present. -/
theorem countBetween_self (h : d.origin ≤ x) :
    d.countBetween x x = if d.isPresent x then 1 else 0 := by
  cases hd : d.hasHoles with
  | false =>
    rw [isPresent_of_not_hasHoles hd, countBetween, hd]
    simp only [Bool.false_eq_true, if_false, if_true]
    omega
  | true =>
    rw [countBetween_eq hd h, show (x - x + 1).toNat = 1 by omega]
    simp

theorem size_raise_lt (h : d.Valid) (hl : d.lower < b) (hu : b ≤ d.upper) :
    (d.raise b).size < d.size := by
  have kept := size_raise h.size_eq h.origin_le_lower (Int.le_of_lt hl) hu
  have all := countBetween_add (b - 1) h.origin_le_lower (by omega) (show b - 1 ≤ d.upper by omega)
  have first := countBetween_add d.lower h.origin_le_lower (by omega)
    (show d.lower ≤ b - 1 by omega)
  rw [countBetween_self h.origin_le_lower, h.lower_present, if_pos rfl] at first
  rw [Int.sub_add_cancel] at all
  have := h.size_eq
  omega

theorem size_cut_lt (h : d.Valid) (hl : d.lower ≤ b) (hu : b < d.upper) :
    (d.cut b).size < d.size := by
  have kept := size_cut h.size_eq h.origin_le_lower hl (Int.le_of_lt hu)
  have all := countBetween_add b h.origin_le_lower (by omega) (Int.le_of_lt hu)
  have last := countBetween_add (d.upper - 1) (show d.origin ≤ b + 1 by
    have := h.origin_le_lower; omega) (by omega) (show d.upper - 1 ≤ d.upper by omega)
  rw [Int.sub_add_cancel, countBetween_self (by have := h.origin_le_lower; omega),
    h.upper_present, if_pos rfl] at last
  have := h.size_eq
  omega

/-! ## Values between the bounds -/

/-- A value that can be dropped. -/
structure Droppable (d : Domain) (x : Int) : Prop where
  lower_lt : d.lower < x
  lt_upper : x < d.upper
  present : d.isPresent x = true
  holes : d.hasHoles = true

section
variable (h : d.Valid) (hx : d.Droppable x)
include h hx

theorem index_lt : (x - d.origin).toNat < d.present.size := by
  have := h.size_present hx.holes
  have := h.origin_le_lower
  have := h.upper_lt
  have := hx.lower_lt
  have := hx.lt_upper
  omega

theorem isPresent_drop (hy : d.origin ≤ y) :
    (d.drop x).isPresent y = (d.isPresent y && decide (y ≠ x)) := by
  have bound := index_lt h hx
  have := h.origin_le_lower
  have := hx.lower_lt
  simp only [isPresent, drop, Array.getD_eq_getD_getElem?, Array.getElem?_setIfInBounds]
  by_cases hxy : y = x
  · subst hxy
    simp [bound]
  · have : (x - d.origin).toNat ≠ (y - d.origin).toNat := by omega
    simp [this, hxy]

theorem contains_drop : (d.drop x).contains y = true ↔ d.contains y = true ∧ y ≠ x := by
  rw [contains_iff, contains_iff]
  change d.lower ≤ y ∧ y ≤ d.upper ∧ (d.drop x).isPresent y = true ↔ _
  constructor
  · rintro ⟨hl, hu, hp⟩
    rw [isPresent_drop h hx (Int.le_trans h.origin_le_lower hl)] at hp
    simp only [Bool.and_eq_true, decide_eq_true_eq] at hp
    exact ⟨⟨hl, hu, hp.1⟩, hp.2⟩
  · rintro ⟨⟨hl, hu, hp⟩, hne⟩
    refine ⟨hl, hu, ?_⟩
    rw [isPresent_drop h hx (Int.le_trans h.origin_le_lower hl)]
    simp [hp, hne]

theorem hasHoles_drop : (d.drop x).hasHoles = true := by
  have := index_lt h hx
  simp only [hasHoles, drop, Bool.not_eq_true', Array.isEmpty_eq_false_iff]
  intro hempty
  have : (d.present.setIfInBounds (x - d.origin).toNat false).size = 0 := by rw [hempty]; rfl
  rw [Array.size_setIfInBounds] at this
  omega

/-- Away from the value that was dropped, nothing changed. -/
theorem countBetween_drop {first : Int} (last : Int) (hf : d.origin ≤ first)
    (away : ∀ y, first ≤ y → y ≤ last → y ≠ x) :
    (d.drop x).countBetween first last = d.countBetween first last := by
  rw [countBetween_eq hx.holes hf, countBetween_eq (hasHoles_drop h hx) hf]
  refine List.countP_congr fun i hi => ?_
  rw [List.mem_range] at hi
  rw [isPresent_drop h hx (by omega)]
  simp [away (first + i) (by omega) (by omega)]

theorem countBetween_drop_all :
    (d.drop x).countBetween d.lower d.upper + 1 = d.countBetween d.lower d.upper := by
  have ho := h.origin_le_lower
  have hl := hx.lower_lt
  have hu := hx.lt_upper
  have ho' : (d.drop x).origin ≤ d.lower := ho
  have split (e : Domain) (he : e.origin = d.origin) :
      e.countBetween d.lower (x - 1) + (e.countBetween x x + e.countBetween (x + 1) d.upper) =
        e.countBetween d.lower d.upper := by
    have before := countBetween_add (d := e) (x - 1) (he ▸ ho) (by omega)
      (show x - 1 ≤ d.upper by omega)
    have behind := countBetween_add (d := e) x (show e.origin ≤ x by omega) (by omega)
      (show x ≤ d.upper by omega)
    rw [Int.sub_add_cancel] at before
    omega
  have before := countBetween_drop h hx (x - 1) ho (by omega)
  have behind := countBetween_drop h hx d.upper (show d.origin ≤ x + 1 by omega)
    (by omega)
  have dropped : (d.drop x).countBetween x x = 0 := by
    rw [countBetween_self (show (d.drop x).origin ≤ x by omega), isPresent_drop h hx (by omega)]
    simp
  have there : d.countBetween x x = 1 := by
    rw [countBetween_self (by omega), hx.present, if_pos rfl]
  have old := split d rfl
  have new := split (d.drop x) rfl
  omega

theorem size_drop_lt : (d.drop x).size < d.size := by
  have := countBetween_drop_all h hx
  have := h.size_eq
  change d.size - 1 < d.size
  omega

theorem Valid.drop : (d.drop x).Valid := by
  have ho := h.origin_le_lower
  have hl := hx.lower_lt
  have hu := hx.lt_upper
  have keep (y : Int) (hy : d.origin ≤ y) (hne : y ≠ x) (hp : d.isPresent y = true) :
      (d.drop x).isPresent y = true := by
    rw [isPresent_drop h hx hy]
    simp [hp, hne]
  exact {
    origin_le_lower := ho
    upper_lt := h.upper_lt
    lower_le_upper := h.lower_le_upper
    lower_present := keep d.lower ho (by omega) h.lower_present
    upper_present := keep d.upper (by omega) (by omega) h.upper_present
    size_eq := by
      have := countBetween_drop_all h hx
      have := h.size_eq
      change d.size - 1 = (d.drop x).countBetween d.lower d.upper
      omega
    hasHoles_iff := by
      rw [hasHoles_drop h hx]
      exact ⟨fun _ => h.hasHoles_iff.mp hx.holes, fun _ => rfl⟩
    size_present := fun _ => by
      have := h.size_present hx.holes
      simpa [Domain.drop] using this }

/-- **A value that was dropped can be put back.** -/
theorem putBack_drop : (d.drop x).putBack x = d := by
  have bound := index_lt h hx
  have flag : d.present[(x - d.origin).toNat] = true := by
    have := hx.present
    simpa [isPresent, Array.getD_eq_getD_getElem?, bound] using this
  have size : 0 < d.size := Nat.lt_of_le_of_lt (Nat.zero_le _) (size_drop_lt h hx)
  have present : (d.present.setIfInBounds (x - d.origin).toNat false).setIfInBounds
      (x - d.origin).toNat true = d.present := by
    apply Array.ext_getElem?
    intro i
    simp only [Array.getElem?_setIfInBounds, Array.size_setIfInBounds]
    split
    · rename_i he
      subst he
      simp [bound, flag]
    · rfl
  unfold putBack drop
  dsimp only
  rw [present, Nat.sub_add_cancel size]

end
end BranchBound.Domain
