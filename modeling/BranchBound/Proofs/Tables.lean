import BranchBound.Matrix

/-! # Lists and tables

Looking up something for every element of a list. -/
namespace BranchBound

variable {α β : Type}

/-- **A look-up for every element succeeds with just what is found for each.** -/
theorem mapM_eq_some_iff {f : α → Option β} {xs : List α} {ys : List β} :
    xs.mapM f = some ys ↔ xs.map f = ys.map some := by
  induction xs generalizing ys with
  | nil => cases ys <;> simp
  | cons x xs ih =>
    rw [List.mapM_cons, List.map_cons]
    cases hx : f x with
    | none => cases ys <;> simp
    | some y =>
      cases hxs : xs.mapM f with
      | none =>
        have none (ys : List β) : xs.map f ≠ ys.map some := by
          rw [Ne, ← ih, hxs]
          exact fun h => by cases h
        cases ys with
        | nil => simp
        | cons z zs => simp [none zs]
      | some zs =>
        have some' := ih.mp hxs
        cases ys with
        | nil => simp
        | cons z' zs' => simp [some', List.map_inj_right]

theorem mapM_congr {f g : α → Option β} {xs : List α} (h : ∀ x ∈ xs, f x = g x) : xs.mapM f = xs.mapM g :=
  Option.ext fun ys => by
    rw [mapM_eq_some_iff, mapM_eq_some_iff, List.map_congr_left h]

theorem exists_mapM_eq_some {f : α → Option β} {xs : List α} (h : ∀ x ∈ xs, ∃ y, f x = some y) :
    ∃ ys, xs.mapM f = some ys := by
  refine ⟨xs.filterMap f, mapM_eq_some_iff.mpr ?_⟩
  induction xs with
  | nil => rfl
  | cons x xs ih =>
    obtain ⟨y, hy⟩ := h x List.mem_cons_self
    rw [List.filterMap_cons_some hy, List.map_cons, List.map_cons, hy,
      ih fun z hz => h z (List.mem_cons_of_mem x hz)]

theorem filterMap_eq_of_some {f : α → Option β} {g : α → β} {xs : List α}
    (h : ∀ x ∈ xs, f x = some (g x)) : xs.filterMap f = xs.map g := by
  induction xs with
  | nil => rfl
  | cons x xs ih =>
    rw [List.filterMap_cons_some (h x List.mem_cons_self),
      ih fun y hy => h y (List.mem_cons_of_mem x hy), List.map_cons]

/-- What the elements up to one establish, given those before it, the whole list establishes. -/
theorem foldlM_except {ε : Type} {I : List α → β → Prop} {E : ε → Prop} {f : β → α → Except ε β}
    {l : List α} (ok : ∀ before x rest, l = before ++ x :: rest → ∀ b b', I before b →
      f b x = .ok b' → I (before ++ [x]) b')
    (error : ∀ before x rest, l = before ++ x :: rest → ∀ b e, I before b → f b x = .error e → E e)
    {b : β} (hb : I [] b) :
    (∀ b', l.foldlM f b = .ok b' → I l b') ∧ ∀ e, l.foldlM f b = .error e → E e := by
  suffices ∀ before rest, l = before ++ rest → ∀ b, I before b →
      (∀ b', rest.foldlM f b = .ok b' → I l b') ∧ ∀ e, rest.foldlM f b = .error e → E e from
    this [] l rfl b hb
  intro before rest
  induction rest generalizing before with
  | nil =>
    intro h b hI
    rw [List.append_nil] at h
    subst h
    refine ⟨fun b' hb' => ?_, fun e he => by cases he⟩
    cases hb'
    exact hI
  | cons x rest ih =>
    intro h b hI
    rw [List.foldlM_cons]
    cases hf : f b x with
    | error e =>
      refine ⟨fun b' hb' => (by cases hb'), fun e' he' => ?_⟩
      cases he'
      exact error before x rest h b e hI hf
    | ok b' =>
      exact ih (before ++ [x]) (by rw [h, List.append_assoc]; rfl) b' (ok before x rest h b b' hI hf)

/-- What the elements up to one establish, none of them failing, the whole list establishes. -/
theorem foldlM_option {I : List α → β → Prop} {f : β → α → Option β} {l : List α}
    (step : ∀ before x rest, l = before ++ x :: rest → ∀ b, I before b →
      ∃ b', f b x = some b' ∧ I (before ++ [x]) b') {b : β} (hb : I [] b) :
    ∃ b', l.foldlM f b = some b' ∧ I l b' := by
  suffices ∀ before rest, l = before ++ rest → ∀ b, I before b →
      ∃ b', rest.foldlM f b = some b' ∧ I l b' from this [] l rfl b hb
  intro before rest
  induction rest generalizing before with
  | nil =>
    intro h b hI
    rw [List.append_nil] at h
    subst h
    exact ⟨b, rfl, hI⟩
  | cons x rest ih =>
    intro h b hI
    obtain ⟨b', hf, hI'⟩ := step before x rest h b hI
    rw [List.foldlM_cons, hf]
    exact ih (before ++ [x]) (by rw [h, List.append_assoc]; rfl) b' hI'

theorem option_rel_mono {R R' : α → β → Prop} {x : Option α} {y : Option β} (h : Option.Rel R x y)
    (imp : ∀ a b, R a b → R' a b) : Option.Rel R' x y := by
  cases h with
  | none => exact .none
  | some h => exact .some (imp _ _ h)

theorem eq_of_option_rel {R : α → α → Prop} {x y : Option α} (h : Option.Rel R x y)
    (eq : ∀ a b, R a b → b = a) : y = x := by
  cases h with
  | none => rfl
  | some h => rw [eq _ _ h]

/-- Two results that the elements up to one keep alike, given those before it, the whole list keeps alike. -/
theorem foldlM_option_rel {I : List α → β → β → Prop} {f : β → α → Option β} {l : List α}
    (step : ∀ before x rest, l = before ++ x :: rest → ∀ b b', I before b b' →
      Option.Rel (I (before ++ [x])) (f b x) (f b' x)) {b b' : β} (hb : I [] b b') :
    Option.Rel (I l) (l.foldlM f b) (l.foldlM f b') := by
  suffices ∀ before rest, l = before ++ rest → ∀ b b', I before b b' →
      Option.Rel (I l) (rest.foldlM f b) (rest.foldlM f b') from this [] l rfl b b' hb
  intro before rest
  induction rest generalizing before with
  | nil =>
    intro h b b' hI
    rw [List.append_nil] at h
    subst h
    exact .some hI
  | cons x rest ih =>
    intro h b b' hI
    have alike := step before x rest h b b' hI
    rw [List.foldlM_cons, List.foldlM_cons]
    generalize f b x = y, f b' x = y' at alike
    cases alike with
    | none => exact .none
    | some hI' => exact ih (before ++ [x]) (by rw [h, List.append_assoc]; rfl) _ _ hI'

/-- The least of some numbers is at least what all of them are at least. -/
theorem le_foldl_min {f : α → Int} {xs : List α} {x b : Int} :
    x ≤ xs.foldl (fun b y => min b (f y)) b ↔ x ≤ b ∧ ∀ y ∈ xs, x ≤ f y := by
  induction xs generalizing b with
  | nil => simp
  | cons y xs ih =>
    rw [List.foldl_cons, ih, Int.le_min, and_assoc]
    simp only [List.mem_cons, forall_eq_or_imp]

/-- The least of some numbers is one of them. -/
theorem foldl_min_eq {f : α → Int} {xs : List α} {b : Int} :
    xs.foldl (fun b y => min b (f y)) b = b ∨ ∃ y ∈ xs, xs.foldl (fun b y => min b (f y)) b = f y := by
  induction xs generalizing b with
  | nil => exact .inl rfl
  | cons y xs ih =>
    rw [List.foldl_cons]
    rcases ih (b := min b (f y)) with same | ⟨z, hz, eq⟩
    · rcases Int.le_total b (f y) with le | le
      · exact .inl (same.trans (Int.min_eq_left le))
      · exact .inr ⟨y, List.mem_cons_self, same.trans (Int.min_eq_right le)⟩
    · exact .inr ⟨z, List.mem_cons_of_mem y hz, eq⟩

/-- The numbers before a position and the one at it, in a list of numbered elements. -/
theorem mem_take_zipIdx {xs : List α} {before rest : List (α × Nat)} {x : α} {i : Nat}
    (h : xs.zipIdx = before ++ (x, i) :: rest) :
    i = before.length ∧ i < xs.length ∧ xs.take (i + 1) = before.map Prod.fst ++ [x] := by
  have at_i : xs.zipIdx[before.length]? = some (x, i) := by
    rw [h, List.getElem?_append_right (Nat.le_refl _), Nat.sub_self]
    rfl
  have eq : i = before.length := by
    rw [List.getElem?_zipIdx] at at_i
    obtain ⟨y, -, hy⟩ := Option.map_eq_some_iff.mp at_i
    simp only [Prod.mk.injEq] at hy
    omega
  have whole : xs = before.map Prod.fst ++ x :: rest.map Prod.fst := by
    have := congrArg (List.map Prod.fst) h
    rwa [List.zipIdx_map_fst, List.map_append, List.map_cons] at this
  refine ⟨eq, ?_, ?_⟩
  · rw [whole, List.length_append, List.length_map, List.length_cons]
    omega
  · rw [whole, eq, show before.length + 1 = (before.map Prod.fst).length + 1 by simp,
      List.take_length_add_append]
    rfl

/-! ## Matrices -/

namespace Matrix
variable {m : Matrix α} {row : List α} {x : α} {i j numRows numColumns : Nat} {f : Nat → Nat → α}

theorem row?_eq_some (h : m.row? i = some row) :
    row = (m.toList.drop (i * m.numColumns)).take m.numColumns := by
  unfold row? at h
  split at h
  · obtain rfl := Option.some.inj h
    rw [Array.toList_extract, List.extract_eq_take_drop, toList, Nat.succ_mul, Nat.add_sub_cancel_left]
  · cases h

theorem mem_toList_of_mem_rows (h : row ∈ m.rows) (hx : x ∈ row) : x ∈ m.toList := by
  obtain ⟨i, -, hi⟩ := List.mem_filterMap.mp h
  rw [row?_eq_some hi] at hx
  exact List.mem_of_mem_drop (List.mem_of_mem_take hx)

theorem exists_row? (hi : i < m.numRows) : ∃ row, m.row? i = some row ∧ row.length = m.numColumns := by
  have inside : (i + 1) * m.numColumns ≤ m.entries.size := by
    rw [m.size_entries]
    exact Nat.mul_le_mul_right _ hi
  obtain ⟨row, hrow⟩ : ∃ row, m.row? i = some row := by
    unfold row?
    rw [if_pos inside]
    exact ⟨_, rfl⟩
  refine ⟨row, hrow, ?_⟩
  rw [row?_eq_some hrow, List.length_take, List.length_drop, toList, Array.length_toList]
  rw [Nat.succ_mul] at inside
  omega

theorem getElem?_rows (hi : i < m.numRows) : m.rows[i]? = m.row? i := by
  have found : ∀ i ∈ List.range m.numRows, m.row? i = some ((m.row? i).getD []) := fun i hi => by
    obtain ⟨row, hrow, -⟩ := exists_row? (List.mem_range.mp hi)
    rw [hrow]
    rfl
  rw [rows, filterMap_eq_of_some found, List.getElem?_map, List.getElem?_range hi]
  exact (found i (List.mem_range.mpr hi)).symm

theorem position_lt (hi : i < numRows) (hj : j < numColumns) :
    i * numColumns + j < numRows * numColumns :=
  Nat.lt_of_lt_of_le (Nat.add_lt_add_left hj _) (Nat.succ_mul i numColumns ▸ Nat.mul_le_mul_right _ hi)

theorem get?_ofFn (hi : i < numRows) (hj : j < numColumns) :
    (ofFn numRows numColumns f).get? i j = some (f i j) := by
  have pos : 0 < numColumns := Nat.zero_lt_of_lt hj
  have inside := position_lt hi hj
  have row : (i * numColumns + j) / numColumns = i := by
    rw [Nat.mul_comm, Nat.mul_add_div pos, Nat.div_eq_of_lt hj, Nat.add_zero]
  have column : (i * numColumns + j) % numColumns = j := by
    rw [Nat.mul_comm, Nat.mul_add_mod, Nat.mod_eq_of_lt hj]
  simp only [get?, ofFn, Array.getElem?_ofFn, dif_pos inside, row, column]

theorem mem_toList_ofFn (h : x ∈ (ofFn numRows numColumns f).toList) :
    ∃ i j, i < numRows ∧ j < numColumns ∧ x = f i j := by
  rw [toList, ofFn, Array.toList_ofFn] at h
  obtain ⟨k, rfl⟩ := List.mem_ofFn.mp h
  have pos : 0 < numColumns := Nat.pos_of_mul_pos_left (Nat.zero_lt_of_lt k.isLt)
  exact ⟨k / numColumns, k % numColumns, (Nat.div_lt_iff_lt_mul pos).mpr k.isLt, Nat.mod_lt _ pos, rfl⟩

theorem row?_ofFn (hi : i < numRows) :
    (ofFn numRows numColumns f).row? i = some ((List.range numColumns).map (f i)) := by
  obtain ⟨row, hrow, -⟩ := exists_row? (m := ofFn numRows numColumns f) hi
  rw [hrow, row?_eq_some hrow]
  refine congrArg some (List.ext_getElem? fun j => ?_)
  have entry (hj : j < numColumns) : (ofFn numRows numColumns f).get? i j = some (f i j) :=
    get?_ofFn hi hj
  rw [List.getElem?_take, List.getElem?_drop, List.getElem?_map]
  change (if j < numColumns then _ else _) = _
  split
  · rename_i hj
    rw [List.getElem?_range hj, toList, Array.getElem?_toList]
    exact entry hj
  · rw [List.getElem?_eq_none (by rw [List.length_range]; omega)]
    rfl

theorem rows_ofFn : (ofFn numRows numColumns f).rows =
    (List.range numRows).map fun i => (List.range numColumns).map (f i) := by
  have found : ∀ i ∈ List.range numRows, (ofFn numRows numColumns f).row? i =
      some ((List.range numColumns).map (f i)) := fun i hi => row?_ofFn (List.mem_range.mp hi)
  exact filterMap_eq_of_some found

/-- The entries of a matrix of the given size. -/
structure Shows (m : Matrix α) (numRows numColumns : Nat) (f : Nat → Nat → α) : Prop where
  numColumns_eq : m.numColumns = numColumns
  get?_eq : ∀ i j, i < numRows → j < numColumns → m.get? i j = some (f i j)

theorem Shows.congr {g : Nat → Nat → α} (h : m.Shows numRows numColumns f)
    (same : ∀ i j, i < numRows → j < numColumns → g i j = f i j) : m.Shows numRows numColumns g :=
  ⟨h.numColumns_eq, fun i j hi hj => same i j hi hj ▸ h.get?_eq i j hi hj⟩

theorem shows_replicate : (replicate numRows numColumns x).Shows numRows numColumns fun _ _ => x := by
  refine ⟨rfl, fun i j hi hj => ?_⟩
  rw [get?_replicate, if_pos (position_lt hi hj)]

theorem position_inj {i' j' : Nat} (hj : j < numColumns) (hj' : j' < numColumns)
    (h : i * numColumns + j = i' * numColumns + j') : i = i' ∧ j = j' := by
  have div := congrArg (· / numColumns) h
  have mod := congrArg (· % numColumns) h
  have pos : 0 < numColumns := Nat.zero_lt_of_lt hj
  simp only [Nat.mul_comm _ numColumns, Nat.mul_add_div pos, Nat.mul_add_mod, Nat.div_eq_of_lt hj,
    Nat.div_eq_of_lt hj', Nat.mod_eq_of_lt hj, Nat.mod_eq_of_lt hj', Nat.add_zero] at div mod
  exact ⟨div, mod⟩

theorem Shows.set (h : m.Shows numRows numColumns f) (hi : i < numRows) (hj : j < numColumns) :
    (m.set i j x).Shows numRows numColumns fun i' j' => if i' = i ∧ j' = j then x else f i' j' := by
  refine ⟨h.numColumns_eq, fun i' j' hi' hj' => ?_⟩
  have here := h.get?_eq i j hi hj
  split
  · rename_i heq
    rw [heq.1, heq.2, get?_set_self, here]
    rfl
  · rename_i hne
    have there := h.get?_eq i' j' hi' hj'
    unfold get? at here there ⊢
    have apart : i * m.numColumns + j ≠ i' * m.numColumns + j' := fun heq => by
      rw [h.numColumns_eq] at heq
      obtain ⟨hi, hj⟩ := position_inj hj hj' heq
      exact hne ⟨hi.symm, hj.symm⟩
    rw [← there]
    exact Array.getElem?_setIfInBounds_ne apart

theorem exists_get? (hi : i < m.numRows) (hj : j < m.numColumns) :
    ∃ x ∈ m.toList, m.get? i j = some x := by
  have inside : i * m.numColumns + j < m.entries.size := by
    rw [m.size_entries]
    exact position_lt hi hj
  exact ⟨m.entries[i * m.numColumns + j], Array.getElem_mem_toList inside,
    Array.getElem?_eq_getElem inside⟩

end Matrix

end BranchBound
