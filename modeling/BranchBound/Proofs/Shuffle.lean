import BranchBound.Proofs.Branching
import BranchBound.Proofs.Store.Reachable
import Mathlib.Data.List.Forall2
import Mathlib.Data.Set.Function

/-! # Shuffling without bias

A shuffle asks for its numbers and for nothing else: whatever answers it, it asks for a number below `k`, below
`k - 1` and so on down to below two, and the answers decide in which order the `k` values are tried
(`shuffle_eq`, `arrange`).  The first answer settles the last position, and what is left is a shuffle of one value
less (`arrange_concat`).  So, for distinct values, **every order comes from exactly one sequence of answers**
(`bijOn_arrange`): answers that are all equally likely make all orders equally likely. -/
namespace BranchBound
namespace Shuffle

variable {α : Type}

/-- What the answers of a shuffle of `k` values are below: `k`, `k - 1` and so on down to two. -/
def limits (k : Nat) : List Nat := (List.range' 2 (k - 1)).reverse

/-- The answers that a shuffle of `k` values can be given. -/
def answers (k : Nat) : Set (List Nat) := {given | List.Forall₂ (· < ·) given (limits k)}

/-- Takes the next of the answers that are left. -/
def takeNext : StateM (List Nat) Nat := fun
  | [] => (0, [])
  | answer :: later => (answer, later)

/-- What is settled by answers that are known beforehand. -/
def settled (last : Nat) (given : List Nat) (values : Array α) : Array α :=
  ((settle (fun _ => takeNext) last values).run given).1

/-- The order that answers put values in. -/
def arrange (values : List α) (given : List Nat) : List α :=
  ((shuffle (fun _ => takeNext) values).run given).1

example : limits 4 = [4, 3, 2] ∧ arrange [0, 1, 2, 3] [0, 2, 1] = [3, 1, 2, 0] := by decide

theorem length_limits (k : Nat) : (limits k).length = k - 1 := by
  rw [limits, List.length_reverse, List.length_range']

theorem limits_add_two (n : Nat) : limits (n + 2) = (n + 2) :: limits (n + 1) := by
  show (List.range' 2 (n + 1)).reverse = _
  rw [List.range'_1_concat, List.reverse_append, List.reverse_singleton, Nat.add_comm 2 n]
  rfl

theorem getElem?_limits {k j : Nat} (h : j < k - 1) : (limits k)[j]? = some (k - j) := by
  rw [limits, List.getElem?_reverse (by rwa [List.length_range']), List.length_range', List.getElem?_range' (by omega)]
  congr 1
  omega

theorem settled_cons (last answer : Nat) (later : List Nat) (values : Array α) :
    settled (last + 1) (answer :: later) values =
      settled last later (values.swapIfInBounds (last + 1) answer) := rfl

section
variable {m : Type → Type} [Monad m] [LawfulMonad m]

theorem settle_eq (draw : Nat → m Nat) (last : Nat) (values : Array α) :
    settle draw last values = (settled last · values) <$> (limits (last + 1)).mapM draw := by
  induction last generalizing values with
  | zero =>
    show pure values = _ <$> ([] : List Nat).mapM draw
    rw [List.mapM_nil, map_pure]
    rfl
  | succ last ih =>
    rw [limits_add_two, List.mapM_cons, settle]
    simp only [ih, map_bind, bind_pure_comp, Functor.map_map, settled_cons]

/-- **A shuffle asks for a number below every limit, in their order, and the answers decide.** -/
theorem shuffle_eq (draw : Nat → m Nat) (values : List α) :
    shuffle draw values = arrange values <$> (limits values.length).mapM draw := by
  have same : limits (values.length - 1 + 1) = limits values.length := by
    cases values with
    | nil => rfl
    | cons => rfl
  rw [shuffle, settle_eq, same, bind_pure_comp, Functor.map_map]
  rfl

end

/-! ## The first answer -/

section
variable {init values : List α} {A : Array α} {x y : α} {i j last other : Nat} {given later : List Nat}

theorem getElem?_exchanged (hi : i < A.size) (hj : j < A.size) (k : Nat) :
    (A.swapIfInBounds i j)[k]? = if j = k then A[i]? else if i = k then A[j]? else A[k]? := by
  rw [Array.swapIfInBounds_def, dif_pos hi, dif_pos hj, Array.getElem?_swap, Array.getElem?_eq_getElem hi,
    Array.getElem?_eq_getElem hj]

/-- What lies behind both positions does not take part. -/
theorem exchanged_push (hi : i < A.size) (hj : j < A.size) (y : α) :
    (A.push y).swapIfInBounds i j = (A.swapIfInBounds i j).push y := by
  have inside {n : Nat} (hn : n < A.size) : n < (A.push y).size := by
    rw [Array.size_push]
    omega
  apply Array.ext_getElem?
  intro k
  rw [getElem?_exchanged (inside hi) (inside hj)]
  simp only [Array.getElem?_push, Array.size_swapIfInBounds, getElem?_exchanged hi hj]
  by_cases hk : k = A.size
  · simp [hk, hi.ne, hj.ne]
  · simp [hk, hi.ne, hj.ne]

/-- The last value is exchanged with the one that is drawn. -/
theorem exchanged_last (h : (init ++ [x])[other]? = some y) :
    (init ++ [x]).toArray.swapIfInBounds init.length other = (init.set other x).toArray.push y := by
  have inside : other < (init ++ [x]).length := (List.getElem?_eq_some_iff.mp h).1
  apply Array.ext_getElem?
  intro k
  rw [getElem?_exchanged (by simp) (by simpa using inside)]
  simp only [List.getElem?_toArray, Array.getElem?_push, List.size_toArray, List.length_set, h, List.getElem?_set,
    List.getElem?_concat_length]
  grind

theorem perm_set_concat (h : (init ++ [x])[other]? = some y) : (init.set other x ++ [y]).Perm (init ++ [x]) := by
  have exchanged := perm_swapIfInBounds (init ++ [x]).toArray init.length other
  rwa [exchanged_last h, Array.toList_push] at exchanged

/-- What lies behind the positions that are still to be settled stays where it is. -/
theorem settled_push (h : List.Forall₂ (· < ·) given (limits (last + 1))) (hA : last < A.size) (y : α) :
    settled last given (A.push y) = (settled last given A).push y := by
  induction last generalizing A given with
  | zero => rfl
  | succ last ih =>
    rw [limits_add_two] at h
    obtain ⟨other, later, below, rest, rfl⟩ := List.forall₂_cons_right_iff.mp h
    have inside : other < A.size := by omega
    rw [settled_cons, settled_cons, exchanged_push hA inside, ih rest]
    rw [Array.size_swapIfInBounds]
    omega

/-- Fewer than two values need no answer. -/
theorem answers_of_length_lt (h : values.length < 2) : answers values.length = {[]} := by
  have none : limits values.length = [] := List.eq_nil_of_length_eq_zero (by rw [length_limits]; omega)
  apply Set.ext
  intro given
  show List.Forall₂ _ given _ ↔ given = []
  rw [none, List.forall₂_nil_right_iff]

/-- The first of more values names one of them. -/
theorem mem_answers_concat (ne : init ≠ []) : given ∈ answers (init ++ [x]).length ↔ ∃ other y later,
    given = other :: later ∧ (init ++ [x])[other]? = some y ∧ later ∈ answers init.length := by
  obtain ⟨n, hn⟩ : ∃ n, init.length = n + 1 := Nat.exists_eq_succ_of_ne_zero (by simpa using ne)
  have length : (init ++ [x]).length = n + 2 := by rw [List.length_append, hn]; rfl
  show List.Forall₂ _ given _ ↔ _
  rw [length, limits_add_two, List.forall₂_cons_right_iff, hn]
  constructor
  · rintro ⟨other, later, below, rest, rfl⟩
    exact ⟨other, _, later, rfl, List.getElem?_eq_getElem (length.symm ▸ below), rest⟩
  · rintro ⟨other, y, later, rfl, named, rest⟩
    exact ⟨other, later, length ▸ (List.getElem?_eq_some_iff.mp named).1, rest, rfl⟩

/-- **The value that the first answer names comes last**, and the others are shuffled with the last value in its
place. -/
theorem arrange_concat (ne : init ≠ []) (h : (init ++ [x])[other]? = some y) (rest : later ∈ answers init.length) :
    arrange (init ++ [x]) (other :: later) = arrange (init.set other x) later ++ [y] := by
  obtain ⟨n, hn⟩ : ∃ n, init.length = n + 1 := Nat.exists_eq_succ_of_ne_zero (by simpa using ne)
  have length : (init ++ [x]).length - 1 = n + 1 := by rw [List.length_append, hn]; rfl
  have behind : n < (init.set other x).toArray.size := by simp [hn]
  show (settled _ _ _).toList = (settled _ _ _).toList ++ [y]
  rw [length, settled_cons, ← hn, exchanged_last h, List.length_set, hn, Nat.add_sub_cancel, ← Array.toList_push,
    settled_push (hn ▸ rest) behind]

/-! ## All answers -/

/-- What holds of fewer than two values, and of more if it holds of lists with one value less, holds of all. -/
theorem induction_on_length {motive : List α → Prop} (short : ∀ values, values.length < 2 → motive values)
    (concat : ∀ init x, init ≠ [] → (∀ values, values.length = init.length → motive values) → motive (init ++ [x]))
    (values : List α) : motive values := by
  induction hn : values.length generalizing values with
  | zero => exact short values (by omega)
  | succ n ih =>
    obtain ⟨init, x, rfl⟩ : ∃ init x, values = init ++ [x] :=
      (List.eq_nil_or_concat' values).resolve_left (by rintro rfl; cases hn)
    by_cases ne : init = []
    · exact short _ (by simp [ne])
    · have length : init.length = n := by simpa using hn
      exact concat init x ne fun values h => ih values (h.trans length)

theorem injOn_arrange (nodup : values.Nodup) : Set.InjOn (arrange values) (answers values.length) := by
  induction values using induction_on_length with
  | short values h =>
    rw [answers_of_length_lt h]
    exact Set.injOn_singleton _ _
  | concat init x ne ih =>
    intro given hgiven given' hgiven' same
    obtain ⟨other, y, later, rfl, named, rest⟩ := (mem_answers_concat ne).mp hgiven
    obtain ⟨other', y', later', rfl, named', rest'⟩ := (mem_answers_concat ne).mp hgiven'
    rw [arrange_concat ne named rest, arrange_concat ne named' rest'] at same
    obtain ⟨front, last⟩ := List.append_inj' same rfl
    -- the value that comes last tells the first answer
    obtain rfl : y = y' := List.singleton_inj.mp last
    obtain rfl : other = other' :=
      (List.getElem?_inj (List.getElem?_eq_some_iff.mp named).1 nodup).mp (named.trans named'.symm)
    have length : (init.set other x).length = init.length := List.length_set
    have left : (init.set other x).Nodup := ((perm_set_concat named).nodup_iff.mpr nodup).of_append_left
    rw [ih _ length left (length.symm ▸ rest) (length.symm ▸ rest') front]

theorem surjOn_arrange (values : List α) :
    Set.SurjOn (arrange values) (answers values.length) {order | order.Perm values} := by
  induction values using induction_on_length with
  | short values h =>
    intro order perm
    rw [answers_of_length_lt h, Set.image_singleton]
    have arranged : (arrange values []).Perm values := perm_shuffle _ values []
    have short : values = [] ∨ ∃ x, values = [x] := by
      rcases values with _ | ⟨x, _ | ⟨y, values⟩⟩
      · exact .inl rfl
      · exact .inr ⟨x, rfl⟩
      · exact absurd h (by simp)
    rcases short with rfl | ⟨x, rfl⟩
    · exact (List.Perm.eq_nil perm).trans (List.Perm.eq_nil arranged).symm
    · exact (List.perm_singleton.mp perm).trans (List.perm_singleton.mp arranged).symm
  | concat init x ne ih =>
    intro order perm
    have length : order.length = (init ++ [x]).length := List.Perm.length_eq perm
    obtain ⟨front, y, rfl⟩ : ∃ front y, order = front ++ [y] :=
      (List.eq_nil_or_concat' order).resolve_left (by rintro rfl; simp at length)
    -- the first answer is where the value stands that comes last
    have known : y ∈ init ++ [x] := (List.Perm.mem_iff perm).mp (by simp)
    obtain ⟨other, named⟩ := List.mem_iff_getElem?.mp known
    have left : front.Perm (init.set other x) :=
      (List.perm_append_right_iff [y]).mp (List.Perm.trans perm (perm_set_concat named).symm)
    obtain ⟨later, rest, rfl⟩ := ih (init.set other x) List.length_set left
    rw [List.length_set] at rest
    exact ⟨other :: later, (mem_answers_concat ne).mpr ⟨other, y, later, rfl, named, rest⟩,
      arrange_concat ne named rest⟩

/-- **Every order of distinct values comes from exactly one sequence of answers.** -/
theorem bijOn_arrange (nodup : values.Nodup) :
    Set.BijOn (arrange values) (answers values.length) {order | order.Perm values} :=
  ⟨fun given _ => perm_shuffle _ values given, injOn_arrange nodup, surjOn_arrange values⟩

end

/-! ## The values of a variable -/

/-- The next number of the source of a search. -/
def draw (n : Nat) : StateM Random.Source Nat := fun source => source.below n

/-- The sources of a search answer below the limits. -/
theorem drawn_mem_answers (source : Random.Source) (k : Nat) :
    (((limits k).mapM draw).run source).1 ∈ answers k := by
  have positive : ∀ n ∈ limits k, 0 < n := by
    intro n hn
    have := List.mem_range'_1.mp (List.mem_reverse.mp hn)
    omega
  show List.Forall₂ (· < ·) _ (limits k)
  generalize limits k = bounds at positive ⊢
  induction bounds generalizing source with
  | nil => exact .nil
  | cons n bounds ih =>
    rw [List.mapM_cons]
    exact .cons (source.below_lt (positive n List.mem_cons_self))
      (ih _ fun n hn => positive n (List.mem_cons_of_mem _ hn))

end Shuffle

namespace Store
open Shuffle

/-- **The values of a variable are tried in an order without bias.**  The shuffle asks for `k - 1` numbers, below
`k`, `k - 1` and so on down to two, and depends on nothing else; every order of the `k` values comes from exactly one
sequence of answers.  The sources of a search give such answers. -/
theorem Reachable.shuffled {s : Store} (h : s.Reachable) (v : Var) :
    (∀ x, x ∈ s.values v ↔ s.contains v x = true) ∧ (s.values v).Nodup ∧ 1 ≤ (s.values v).length ∧
    (limits (s.values v).length).length = (s.values v).length - 1 ∧
    (∀ j, j < (s.values v).length - 1 →
      (limits (s.values v).length)[j]? = some ((s.values v).length - j)) ∧
    (∀ (m : Type → Type) [Monad m] [LawfulMonad m] (draw : Nat → m Nat),
      shuffle draw (s.values v) = arrange (s.values v) <$> (limits (s.values v).length).mapM draw) ∧
    Set.BijOn (arrange (s.values v)) (answers (s.values v).length) {order | order.Perm (s.values v)} ∧
    ∀ source : Random.Source,
      (((limits (s.values v).length).mapM draw).run source).1 ∈ answers (s.values v).length := by
  have member (x : Int) : x ∈ s.values v ↔ s.contains v x = true := Store.mem_values
  have nodup : (s.values v).Nodup := Domain.nodup_values _
  have first : s.lower v ∈ s.values v := (member _).mpr (h.sound.valid.contains_lower v)
  exact ⟨member, nodup, List.length_pos_of_mem first, length_limits _, fun j => getElem?_limits,
    fun m _ _ draw => shuffle_eq draw _, bijOn_arrange nodup, fun source => drawn_mem_answers source _⟩

/-- A variable that has lost a value between its bounds. -/
def gapped : Store := (Restriction.remove 0 2).after { domains := .ofList [.ofRange 0 4] }

theorem reachable_gapped : gapped.Reachable := by
  have declared : declare {} 0 4 = .ok { domains := .ofList [.ofRange 0 4] } := rfl
  exact .restrict (.declare .empty (by decide) (by decide) declared) (.remove 0 2)

theorem shuffled_gapped : gapped.Reachable ∧ gapped.values 0 = [0, 1, 3, 4] ∧ 0 < (gapped.values 0).length - 1 ∧
    (limits 4)[0]? = some 4 ∧
    shuffle (fun _ => takeNext) (gapped.values 0) = arrange (gapped.values 0) <$> [4, 3, 2].mapM (fun _ => takeNext) ∧
    ∃! given, given ∈ answers 4 ∧ arrange (gapped.values 0) given = [4, 1, 0, 3] := by
  obtain ⟨-, -, -, -, limits_eq, asked, bijective, -⟩ := Reachable.shuffled reachable_gapped 0
  obtain ⟨given, answer, order⟩ := bijective.surjOn (show [4, 1, 0, 3] ∈ _ by decide)
  refine ⟨reachable_gapped, rfl, by decide, limits_eq 0 (by decide), asked _ _, given, ⟨answer, order⟩, ?_⟩
  rintro other ⟨answer', order'⟩
  exact bijective.injOn answer' answer (order'.trans order.symm)

end Store
end BranchBound
