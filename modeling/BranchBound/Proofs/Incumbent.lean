import BranchBound.Portfolio.Incumbent
import Mathlib.Data.List.Induction

/-! # Merging

Candidates are merged into an incumbent one after another, so it makes no difference how they are split
up (`merge_append`).  **The candidates that are accepted get strictly better and end with the incumbent**
(`Merged`), which is the first of the least of all candidates (`IsFirstLeast`). -/
namespace BranchBound
namespace Incumbent
variable {α : Type} {i last : Incumbent α} {best x : Reported α} {xs ys accepted : List (Reported α)}

theorem merge_cons : i.merge (x :: xs) =
    (if i.accepts x then x :: ((i.consider x).merge xs).1 else ((i.consider x).merge xs).1,
      ((i.consider x).merge xs).2) := rfl

/-- **Candidates can be merged in parts.** -/
theorem merge_append : i.merge (xs ++ ys) =
    ((i.merge xs).1 ++ ((i.merge xs).2.merge ys).1, ((i.merge xs).2.merge ys).2) := by
  induction xs generalizing i with
  | nil => rfl
  | cons x xs ih =>
    rw [List.cons_append, merge_cons, merge_cons, ih]
    by_cases better : i.accepts x = true
    · rw [if_pos better, if_pos better]
      rfl
    · rw [if_neg better, if_neg better]

theorem accepts_iff_of_some (h : i.best = some best) :
    i.accepts x = true ↔ x.objective < best.objective := by
  rw [accepts_iff]
  refine ⟨fun better => better best h, fun lt best' hbest => ?_⟩
  obtain rfl : best = best' := Option.some.inj (h.symm.trans hbest)
  exact lt

/-- A candidate is the first of the least. -/
def IsFirstLeast (best : Reported α) (xs : List (Reported α)) : Prop :=
  ∃ before after, xs = before ++ best :: after ∧
    (∀ x ∈ before, best.objective < x.objective) ∧ ∀ x ∈ after, best.objective ≤ x.objective

theorem IsFirstLeast.mem (h : IsFirstLeast best xs) : best ∈ xs := by
  obtain ⟨before, after, rfl, -, -⟩ := h
  exact List.mem_append_right _ List.mem_cons_self

theorem IsFirstLeast.le (h : IsFirstLeast best xs) : ∀ x ∈ xs, best.objective ≤ x.objective := by
  obtain ⟨before, after, rfl, first, least⟩ := h
  intro x hx
  rcases List.mem_append.mp hx with hx | hx
  · exact Int.le_of_lt (first x hx)
  · rcases List.mem_cons.mp hx with rfl | hx
    · exact Int.le_refl _
    · exact least x hx

/-- One more candidate that is no better changes nothing. -/
theorem IsFirstLeast.append (h : IsFirstLeast best xs) (le : best.objective ≤ x.objective) :
    IsFirstLeast best (xs ++ [x]) := by
  obtain ⟨before, after, rfl, first, least⟩ := h
  refine ⟨before, after ++ [x], by rw [List.append_assoc]; rfl, first, fun y hy => ?_⟩
  rcases List.mem_append.mp hy with hy | hy
  · exact least y hy
  · rw [List.mem_singleton.mp hy]
    exact le

/-- What comes of candidates when there was no incumbent before them. -/
structure Merged (xs accepted : List (Reported α)) (last : Incumbent α) : Prop where
  /-- Each that is accepted is strictly better than all that were accepted before. -/
  improving : accepted.Pairwise fun earlier later => later.objective < earlier.objective
  subset : accepted ⊆ xs
  last_eq : last.best = accepted.getLast?
  empty : last.best = none → xs = []
  first : ∀ best, last.best = some best → IsFirstLeast best xs

theorem merged_nil : Merged ([] : List (Reported α)) [] {} where
  improving := .nil
  subset := List.nil_subset _
  last_eq := rfl
  empty _ := rfl
  first _ h := by cases h

/-- What is better than the incumbent is better than every candidate. -/
theorem Merged.lt (h : Merged xs accepted last) (better : last.accepts x = true) :
    ∀ y ∈ xs, x.objective < y.objective := by
  intro y hy
  cases hlast : last.best with
  | none =>
    rw [h.empty hlast] at hy
    cases hy
  | some best =>
    exact Int.lt_of_lt_of_le (accepts_iff.mp better best hlast) ((h.first best hlast).le y hy)

/-- One more candidate is accepted if it is better than the incumbent. -/
theorem Merged.consider (h : Merged xs accepted last) :
    Merged (xs ++ [x]) (accepted ++ if last.accepts x then [x] else []) (last.consider x) := by
  unfold Incumbent.consider
  by_cases better : last.accepts x = true
  · rw [if_pos better, if_pos better]
    refine ⟨List.pairwise_append.mpr ⟨h.improving, List.pairwise_singleton _ _, fun y hy z hz => ?_⟩,
      List.append_subset.mpr
        ⟨List.Subset.trans h.subset (List.subset_append_left _ _), List.subset_append_right _ _⟩,
      List.getLast?_concat.symm, fun none => (by cases none), fun best hbest => ?_⟩
    · rw [List.mem_singleton.mp hz]
      exact h.lt better y (h.subset hy)
    · cases hbest
      exact ⟨xs, [], rfl, h.lt better, fun y hy => by cases hy⟩
  · rw [if_neg better, if_neg better, List.append_nil]
    refine ⟨h.improving, List.Subset.trans h.subset (List.subset_append_left _ _), h.last_eq, fun none => ?_,
      fun best hbest => (h.first best hbest).append ?_⟩
    · exact absurd (accepts_iff.mpr fun best hbest => by rw [none] at hbest; cases hbest) better
    · exact Int.not_lt.mp fun lt => better ((accepts_iff_of_some hbest).mpr lt)

/-- **What comes of any candidates.** -/
theorem merged_merge (xs : List (Reported α)) :
    Merged xs (({} : Incumbent α).merge xs).1 (({} : Incumbent α).merge xs).2 := by
  -- by induction from the end, as the candidates come one after another
  induction xs using List.reverseRecOn with
  | nil => exact merged_nil
  | append_singleton xs x ih =>
    rw [merge_append]
    exact ih.consider

end Incumbent
end BranchBound
