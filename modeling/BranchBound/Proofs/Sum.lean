import BranchBound.Sum

/-! # Sums

Sums of integers that are given by a function on a list: bounds of them, which leave out no number in between
(`exists_sumInt_eq`), and sums of sums, which can be taken in either order (`sumInt_comm`). -/
namespace BranchBound

variable {α β : Type} {xs : List α} {ys : List β} {f g : α → Int}

theorem sumInt_le (h : ∀ x ∈ xs, f x ≤ g x) :
    sumInt (xs.map f) ≤ sumInt (xs.map g) := by
  induction xs with
  | nil => exact Int.le_refl _
  | cons x xs ih =>
    have := h x List.mem_cons_self
    have := ih fun y hy => h y (List.mem_cons_of_mem x hy)
    simp only [List.map_cons, sumInt]
    omega

/-- A sum without one of its terms is the less, the less the others are. -/
theorem sumInt_sub_le (h : ∀ x ∈ xs, f x ≤ g x) {x : α}
    (hx : x ∈ xs) : sumInt (xs.map f) - f x ≤ sumInt (xs.map g) - g x := by
  induction xs with
  | nil => cases hx
  | cons y xs ih =>
    have rest : ∀ z ∈ xs, f z ≤ g z := fun z hz => h z (List.mem_cons_of_mem y hz)
    have head := h y List.mem_cons_self
    simp only [List.map_cons, sumInt]
    rcases List.mem_cons.mp hx with rfl | hx
    · have := sumInt_le rest
      omega
    · have := ih rest hx
      omega

/-- Sums whose terms agree but for one differ as that one does. -/
theorem sumInt_sub_eq (distinct : xs.Nodup) {x : α} (hx : x ∈ xs) (h : ∀ y ∈ xs, y ≠ x → f y = g y) :
    sumInt (xs.map f) - f x = sumInt (xs.map g) - g x := by
  obtain ⟨before, after, rfl⟩ := List.append_of_mem hx
  have apart : x ∉ before ∧ x ∉ after := by
    simp only [List.nodup_append, List.nodup_cons] at distinct
    exact ⟨fun h => distinct.2.2 x h x List.mem_cons_self rfl, distinct.2.1.1⟩
  have left : before.map f = before.map g := by
    refine List.map_congr_left fun y hy => h y (List.mem_append_left _ hy) ?_
    rintro rfl
    exact apart.1 hy
  have right : after.map f = after.map g := by
    refine List.map_congr_left fun y hy => h y (List.mem_append_right _ (List.mem_cons_of_mem x hy)) ?_
    rintro rfl
    exact apart.2 hy
  simp only [List.map_append, List.map_cons, sumInt_append, sumInt, left, right]
  omega

theorem sumInt_nonneg (h : ∀ x ∈ xs, 0 ≤ f x) : 0 ≤ sumInt (xs.map f) := by
  induction xs with
  | nil => exact Int.le_refl _
  | cons x xs ih =>
    have := h x List.mem_cons_self
    have := ih fun y hy => h y (List.mem_cons_of_mem x hy)
    simp only [List.map_cons, sumInt]
    omega

theorem sumInt_add : sumInt (xs.map fun x => f x + g x) = sumInt (xs.map f) + sumInt (xs.map g) := by
  induction xs with
  | nil => rfl
  | cons x xs ih =>
    simp only [List.map_cons, sumInt, ih]
    omega

theorem sumInt_zero : sumInt (xs.map fun _ => 0) = 0 := by
  induction xs with
  | nil => rfl
  | cons x xs ih => rw [List.map_cons, sumInt, ih, Int.add_zero]

theorem sumInt_mul_right (k : Int) : sumInt (xs.map fun x => f x * k) = sumInt (xs.map f) * k := by
  induction xs with
  | nil => exact (Int.zero_mul k).symm
  | cons x xs ih => simp only [List.map_cons, sumInt, ih, Int.add_mul]

/-- **A sum of sums can be taken in the other order.** -/
theorem sumInt_comm {f : α → β → Int} : sumInt (xs.map fun x => sumInt (ys.map (f x))) =
    sumInt (ys.map fun y => sumInt (xs.map fun x => f x y)) := by
  induction xs with
  | nil => exact sumInt_zero.symm
  | cons x xs ih => simp only [List.map_cons, sumInt, ih, sumInt_add]

/-- **Every number from the least to the most that a sum can be is one**, of terms that are in between as
well. -/
theorem exists_sumInt_eq [DecidableEq α] (distinct : xs.Nodup) (h : ∀ x ∈ xs, f x ≤ g x) {n : Int}
    (least : sumInt (xs.map f) ≤ n) (most : n ≤ sumInt (xs.map g)) :
    ∃ a : α → Int, (∀ x ∈ xs, f x ≤ a x ∧ a x ≤ g x) ∧ sumInt (xs.map a) = n := by
  induction xs generalizing n with
  | nil => exact ⟨f, fun x hx => (by cases hx), Int.le_antisymm least most⟩
  | cons x xs ih =>
    have first := h x List.mem_cons_self
    have rest := sumInt_le fun y hy => h y (List.mem_cons_of_mem x hy)
    simp only [List.map_cons, sumInt] at least most
    -- the first term leaves to the others as much as they can be
    obtain ⟨a, inside, sum⟩ := ih (List.nodup_cons.mp distinct).2 (fun y hy => h y (List.mem_cons_of_mem x hy))
      (n := n - max (f x) (n - sumInt (xs.map g))) (by omega) (by omega)
    have apart (y : α) (hy : y ∈ xs) : y ≠ x := fun heq => (List.nodup_cons.mp distinct).1 (heq ▸ hy)
    refine ⟨fun y => if y = x then max (f x) (n - sumInt (xs.map g)) else a y, fun y hy => ?_, ?_⟩
    · dsimp only
      rcases List.mem_cons.mp hy with rfl | hy
      · rw [if_pos rfl]
        omega
      · rw [if_neg (apart y hy)]
        exact inside y hy
    · rw [List.map_cons, sumInt, if_pos rfl, List.map_congr_left fun y hy => if_neg (apart y hy), sum]
      omega

/-- What is summed up is at most as often the greatest as there are summands. -/
theorem sumInt_le_mul {most : Int} (h : ∀ x ∈ xs, f x ≤ most) :
    sumInt (xs.map f) ≤ most * xs.length := by
  induction xs with
  | nil => exact Int.le_of_eq (Int.mul_zero most).symm
  | cons x xs ih =>
    have := h x List.mem_cons_self
    have := ih fun y hy => h y (List.mem_cons_of_mem x hy)
    rw [List.length_cons, Int.natCast_succ, Int.mul_add, Int.mul_one]
    simp only [List.map_cons, sumInt]
    omega

end BranchBound
