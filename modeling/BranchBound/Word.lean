/-! # Words

How large numbers may be.  Integers have 64 bits where they are read from a file, counted, added
up as costs or compared as times and demands; the values of variables and the numbers that
identify variables, propagators, watches and cells have 32 bits.  A number that does not fit is
cut: `integer`, `identifier` and `value` give the word that has the same lowest bits.  Sums and
differences of integers are cut in this way, without any notice. -/
namespace BranchBound.Word

/-- How many words of 64 bits there are. -/
def size : Nat := 18446744073709551616

/-- The greatest integer of 64 bits. -/
def maxInteger : Int := 9223372036854775807

/-- The least integer of 64 bits. -/
def minInteger : Int := -9223372036854775808

/-- The greatest value of a variable. -/
def maxValue : Int := 2147483647

/-- How many words of 32 bits there are. -/
def numIdentifiers : Nat := 4294967296

/-- The identifier that an index stands for. -/
def identifier (index : Nat) : Nat := index % numIdentifiers

/-- The value of a variable that an integer stands for. -/
def value (x : Int) : Int := x.bmod numIdentifiers

/-- The integer of 64 bits that a number stands for. -/
def integer (x : Int) : Int := x.bmod size

/-- The number has 64 bits. -/
def Fits (x : Int) : Prop := minInteger ≤ x ∧ x ≤ maxInteger

instance (x : Int) : Decidable (Fits x) := inferInstanceAs (Decidable (_ ∧ _))

/-- A few numbers like this add up to one of 64 bits. -/
def Small (x : Int) : Prop := -1152921504606846976 ≤ x ∧ x ≤ 1152921504606846976

instance (x : Int) : Decidable (Small x) := inferInstanceAs (Decidable (_ ∧ _))

/-- The integer before; the one before the least is the greatest. -/
def pred (x : Int) : Int := if x = minInteger then maxInteger else x - 1

theorem size_eq : (size : Int) = maxInteger - minInteger + 1 := rfl

theorem integer_eq_self {x : Int} (h : Fits x) : integer x = x := by
  simp only [Fits, minInteger, maxInteger] at h
  simp only [integer, size, Int.bmod_def]
  split <;> omega

/-- Cutting a summand beforehand changes nothing. -/
theorem integer_add_integer (x y : Int) : integer (x + integer y) = integer (x + y) :=
  Int.add_bmod_bmod

theorem le_pred (x : Int) : x - 1 ≤ pred x := by
  unfold pred minInteger maxInteger
  split <;> omega

theorem pred_eq_sub_one {x : Int} (h : x ≠ minInteger) : pred x = x - 1 := if_neg h

theorem value_eq_self {x : Int} (h : -maxValue - 1 ≤ x ∧ x ≤ maxValue) : value x = x := by
  simp only [value, maxValue, numIdentifiers, Int.bmod_def] at h ⊢
  split <;> omega

end BranchBound.Word
