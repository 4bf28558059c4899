/-! # Domains

The values that a variable can still take.  A domain is an interval with holes: its two
bounds, both of which are among its values, and a flag for every value that it was created
with.  Domains of more than `Domain.holeLimit` values are plain intervals: they have no
flags, and values strictly between their bounds cannot be removed.

The view of a domain is its set of values, `contains`.  The least value that is at least
`x` (`ceil`) and the greatest that is at most `x` (`floor`) are where a bound moves to, and
**they find a value exactly if there is one** (`ceil_eq_none_iff`, `floor_eq_none_iff`). -/
namespace BranchBound

structure Domain where
  /-- The least value. -/
  lower : Int
  /-- The greatest value. -/
  upper : Int
  /-- The number of values. -/
  size : Nat
  /-- The least value at creation. -/
  origin : Int
  /-- The number of values at creation. -/
  width : Nat
  /-- For every value at creation whether it is still present; empty for a plain interval. -/
  present : Array Bool
  deriving Repr, DecidableEq

namespace Domain

/-- Wider domains are plain intervals. -/
def holeLimit : Nat := 65536

/-- The domain of all values from `lower` to `upper`. -/
def ofRange (lower upper : Int) : Domain :=
  let width := (upper - lower + 1).toNat
  { lower, upper, size := width, origin := lower, width
    present := if width ≤ holeLimit then Array.replicate width true else #[] }

instance : Inhabited Domain := ⟨ofRange 0 0⟩

variable (d : Domain)

/-- Whether values strictly between the bounds can be removed. -/
def hasHoles : Bool := !d.present.isEmpty

/-- Whether the value has not been removed; only of interest between the bounds. -/
def isPresent (x : Int) : Bool := d.present.getD (x - d.origin).toNat true

def contains (x : Int) : Bool := d.lower ≤ x && x ≤ d.upper && d.isPresent x

def isFixed : Bool := d.lower = d.upper

/-- The only value. -/
def fixed? : Option Int := if d.lower = d.upper then some d.lower else none

/-- The values in increasing order. -/
def values : List Int :=
  ((List.range (d.upper - d.lower + 1).toNat).map fun i : Nat => d.lower + i).filter d.isPresent

/-- The first present one of the `n` values from `x` on. -/
def firstPresent (x : Int) : Nat → Option Int
  | 0 => none
  | n + 1 => if d.isPresent x then some x else firstPresent (x + 1) n

/-- The first present one of the `n` values from `x` down. -/
def lastPresent (x : Int) : Nat → Option Int
  | 0 => none
  | n + 1 => if d.isPresent x then some x else lastPresent (x - 1) n

/-- The least value that is at least `x`, for `x` not below the lower bound. -/
def ceil (x : Int) : Option Int := d.firstPresent x (d.upper - x + 1).toNat

/-- The greatest value that is at most `x`, for `x` not above the upper bound. -/
def floor (x : Int) : Option Int := d.lastPresent x (x - d.lower + 1).toNat

/-- How many of the `n` flags from the `i`th on are set, and `count` more; a flag that is missing
counts as set. -/
def countSet (flags : Array Bool) (count i : Nat) : Nat → Nat
  | 0 => count
  | n + 1 => countSet flags (if flags.getD i true then count + 1 else count) (i + 1) n

/-- The number of values present in `[first, last]`, for `first` not below the origin. -/
def countBetween (first last : Int) : Nat :=
  let n := (last - first + 1).toNat
  if d.hasHoles then countSet d.present 0 (first - d.origin).toNat n else n

/-- The first values in increasing order, at most `limit` of them. -/
def firstValues (limit : Nat) : List Int := go limit d.lower (d.upper - d.lower + 1).toNat
where
  go : Nat → Int → Nat → List Int
    | _, _, 0 => []
    | limit, x, n + 1 =>
      if limit = 0 then []
      else if d.isPresent x then x :: go (limit - 1) (x + 1) n
      else go limit (x + 1) n

/-- The domain with a higher lower bound; what is lost is counted, or what is kept if that is
less. -/
def raise (bound : Int) : Domain :=
  { d with
    lower := bound
    size :=
      if bound - d.lower ≤ d.upper - bound then d.size - d.countBetween d.lower (bound - 1)
      else d.countBetween bound d.upper }

/-- The domain with a smaller upper bound, counted likewise. -/
def cut (bound : Int) : Domain :=
  { d with
    upper := bound
    size :=
      if d.upper - bound ≤ bound - d.lower then d.size - d.countBetween (bound + 1) d.upper
      else d.countBetween d.lower bound }

/-- The domain without a value strictly between its bounds. -/
def drop (x : Int) : Domain :=
  { d with
    present := d.present.setIfInBounds (x - d.origin).toNat false
    size := d.size - 1 }

/-- The domain with a value that was dropped. -/
def putBack (x : Int) : Domain :=
  { d with
    present := d.present.setIfInBounds (x - d.origin).toNat true
    size := d.size + 1 }

variable {d}

theorem fixed?_eq_some_iff {x : Int} : d.fixed? = some x ↔ d.lower = x ∧ d.upper = x := by
  unfold fixed?
  split
  · simp; omega
  · simp; omega

theorem mem_values {x : Int} : x ∈ d.values ↔ d.contains x = true := by
  simp only [values, List.mem_filter, List.mem_map, List.mem_range, contains, Bool.and_eq_true,
    decide_eq_true_eq]
  constructor
  · rintro ⟨⟨i, hi, rfl⟩, hp⟩
    exact ⟨⟨by omega, by omega⟩, hp⟩
  · rintro ⟨⟨hl, hu⟩, hp⟩
    exact ⟨⟨(x - d.lower).toNat, by omega, by omega⟩, hp⟩

theorem countSet_eq (flags : Array Bool) (count i n : Nat) :
    countSet flags count i n = count + (List.range' i n).countP (flags.getD · true) := by
  induction n generalizing count i with
  | zero => simp [countSet]
  | succ n ih =>
    simp only [countSet, ih, List.range'_succ, List.countP_cons]
    split <;> omega

/-- **The values present are counted one by one.** -/
theorem countBetween_eq {first last : Int} (hd : d.hasHoles = true) (hf : d.origin ≤ first) :
    d.countBetween first last =
      (List.range (last - first + 1).toNat).countP fun i : Nat => d.isPresent (first + i) := by
  simp only [countBetween, hd, if_true, countSet_eq, Nat.zero_add, List.range'_eq_map_range,
    List.countP_map]
  congr 1
  funext i
  simp only [Function.comp, isPresent]
  congr 1
  omega

theorem countBetween_add {first last : Int} (middle : Int) (hf : d.origin ≤ first)
    (hm : first ≤ middle + 1) (hl : middle ≤ last) :
    d.countBetween first middle + d.countBetween (middle + 1) last = d.countBetween first last := by
  have split : (last - first + 1).toNat =
      (middle - first + 1).toNat + (last - (middle + 1) + 1).toNat := by omega
  have next : (middle + 1 - d.origin).toNat =
      (first - d.origin).toNat + (middle - first + 1).toNat := by omega
  unfold countBetween
  by_cases hd : d.hasHoles = true
  · simp only [hd, if_true, countSet_eq, Nat.zero_add, split, next, ← List.countP_append]
    rw [List.range'_append_1]
  · simp [hd, split]

/-- **Either way of counting finds the number of values that are kept.** -/
theorem size_raise {bound : Int} (hs : d.size = d.countBetween d.lower d.upper)
    (ho : d.origin ≤ d.lower) (hl : d.lower ≤ bound) (hu : bound ≤ d.upper) :
    (d.raise bound).size = d.countBetween bound d.upper := by
  have sum := countBetween_add (bound - 1) ho (by omega)
    (show bound - 1 ≤ d.upper by omega)
  rw [Int.sub_add_cancel] at sum
  unfold raise
  dsimp only
  split <;> omega

/-- **Either way of counting finds the number of values that are kept.** -/
theorem size_cut {bound : Int} (hs : d.size = d.countBetween d.lower d.upper)
    (ho : d.origin ≤ d.lower) (hl : d.lower ≤ bound) (hu : bound ≤ d.upper) :
    (d.cut bound).size = d.countBetween d.lower bound := by
  have sum := countBetween_add bound ho (by omega) hu
  unfold cut
  dsimp only
  split <;> omega

theorem firstPresent_eq_none_iff {x : Int} {n : Nat} :
    d.firstPresent x n = none ↔ ∀ y, x ≤ y → y < x + n → d.isPresent y = false := by
  induction n generalizing x with
  | zero => simp only [firstPresent, true_iff]; intro y h1 h2; omega
  | succ n ih =>
    unfold firstPresent
    split
    · rename_i hp
      simp only [reduceCtorEq, false_iff]
      intro h
      have := h x (by omega) (by omega)
      simp_all
    · rename_i hp
      rw [ih]
      constructor
      · intro h y h1 h2
        by_cases hxy : y = x
        · subst hxy; simpa using hp
        · exact h y (by omega) (by omega)
      · intro h y h1 h2
        exact h y (by omega) (by omega)

theorem lastPresent_eq_none_iff {x : Int} {n : Nat} :
    d.lastPresent x n = none ↔ ∀ y, y ≤ x → x < y + n → d.isPresent y = false := by
  induction n generalizing x with
  | zero => simp only [lastPresent, true_iff]; intro y h1 h2; omega
  | succ n ih =>
    unfold lastPresent
    split
    · rename_i hp
      simp only [reduceCtorEq, false_iff]
      intro h
      have := h x (by omega) (by omega)
      simp_all
    · rename_i hp
      rw [ih]
      constructor
      · intro h y h1 h2
        by_cases hxy : y = x
        · subst hxy; simpa using hp
        · exact h y (by omega) (by omega)
      · intro h y h1 h2
        exact h y (by omega) (by omega)

/-- **Nothing is found exactly if no value is left above.** -/
theorem ceil_eq_none_iff {x : Int} (hx : d.lower ≤ x) :
    d.ceil x = none ↔ ∀ y, x ≤ y → d.contains y = false := by
  rw [ceil, firstPresent_eq_none_iff]
  constructor
  · intro h y hy
    by_cases hu : y ≤ d.upper
    · simp [contains, h y hy (by omega)]
    · simp [contains, hu]
  · intro h y h1 h2
    have := h y h1
    simpa [contains, show d.lower ≤ y by omega, show y ≤ d.upper by omega] using this

/-- **Nothing is found exactly if no value is left below.** -/
theorem floor_eq_none_iff {x : Int} (hx : x ≤ d.upper) :
    d.floor x = none ↔ ∀ y, y ≤ x → d.contains y = false := by
  rw [floor, lastPresent_eq_none_iff]
  constructor
  · intro h y hy
    by_cases hl : d.lower ≤ y
    · simp [contains, h y hy (by omega)]
    · simp [contains, hl]
  · intro h y h1 h2
    have := h y h1
    simpa [contains, show d.lower ≤ y by omega, show y ≤ d.upper by omega] using this

end Domain
end BranchBound
