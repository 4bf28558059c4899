import BranchBound.Proofs.Text.Spacing
import BranchBound.Text.Number
import Mathlib.Algebra.Order.Floor.Ring
import Mathlib.Data.Nat.Digits.Defs
import Mathlib.Data.Rat.Floor
import Mathlib.Data.Sign.Basic
import Mathlib.Tactic.FieldSimp
import Mathlib.Tactic.Linarith

/-! # Numbers as they are written

Digits stand for a number by their places (`numeral`).  An integer is written with digits and with a sign, if any
(`Integer`); a decimal number is written with digits on both sides of a point, on one of them, or without a point
(`Decimal`), and it stands for a rational number (`Decimal.value`).

An integer that fits into a word is read as what it stands for (`Integer.read`).  **A text is read as a scaled number
exactly if it is a decimal number whose ten thousandfold, cut off behind the point, fits into a word; it is read as
that, with the sign of the number** (`scaled?_eq_some_iff`). -/
namespace BranchBound.Text

variable {c : Char} {digits text : List Char} {n : Int}

/-! ## Digits -/

/-- The number that digits stand for: each counts ten times as much as the one behind it. -/
def numeral (digits : List Char) : Nat := Nat.ofDigits 10 (digits.reverse.map digitValue)

theorem ofDigits_eq (digits : List Char) : ofDigits digits = numeral digits := by
  induction digits using List.reverseRecOn with
  | nil => rfl
  | append_singleton digits c ih =>
    rw [numeral, List.reverse_append, List.reverse_singleton, List.singleton_append, List.map_cons, Nat.ofDigits_cons,
      ← numeral, ← ih, ofDigits, List.foldl_append, Nat.add_comm]
    rfl

theorem numeral_cons (c : Char) (digits : List Char) :
    numeral (c :: digits) = digitValue c * 10 ^ digits.length + numeral digits := by
  rw [numeral, List.reverse_cons, List.map_append, Nat.ofDigits_append, List.length_map, List.length_reverse,
    List.map_singleton, Nat.ofDigits_singleton, Nat.mul_comm, Nat.add_comm]
  rfl

theorem isDigits_cons : isDigits (c :: digits) = true ↔ c.isDigit = true ∧ isDigits digits = true := by
  rw [isDigits, List.all_cons, Bool.and_eq_true]
  rfl

theorem isDigit_of_mem (h : isDigits digits = true) (hc : c ∈ digits) : c.isDigit = true :=
  List.all_eq_true.mp h c hc

theorem digitValue_lt (h : c.isDigit = true) : digitValue c < 10 := by
  obtain ⟨least, most⟩ := Char.isDigit_iff_toNat.mp h
  have zero : '0'.toNat = 48 := rfl
  have nine : '9'.toNat = 57 := rfl
  rw [digitValue]
  omega

theorem isBlank_of_isDigit (h : c.isDigit = true) : isBlank c = false := by
  obtain ⟨least, most⟩ := Char.isDigit_iff_toNat.mp h
  have zero : '0'.toNat = 48 := rfl
  have nine : '9'.toNat = 57 := rfl
  simp only [isBlank, Bool.or_eq_false_iff, Bool.and_eq_false_iff, decide_eq_false_iff_not, beq_eq_false_iff_ne]
  omega

theorem ne_of_isDigits {other : Char} (h : isDigits digits = true) (hother : other.isDigit = false) :
    ∀ c ∈ digits, c ≠ other := by
  rintro c hc rfl
  rw [isDigit_of_mem h hc] at hother
  cases hother

theorem head?_ne_of_isDigits (other : Char) (h : isDigits digits = true) (hother : other.isDigit = false) :
    digits.head? ≠ some other :=
  fun first => ne_of_isDigits h hother other (List.mem_of_head? first) rfl

/-! ## Integers -/

/-- An integer as it is written: digits, and a sign in front of them, if any. -/
inductive Integer : List Char → Int → Prop
  | plain {digits : List Char} (ne : digits ≠ []) (h : isDigits digits = true) : Integer digits (numeral digits)
  | plus {digits : List Char} (ne : digits ≠ []) (h : isDigits digits = true) : Integer ('+' :: digits) (numeral digits)
  | minus {digits : List Char} (ne : digits ≠ []) (h : isDigits digits = true) :
    Integer ('-' :: digits) (-(numeral digits : Int))

theorem isInteger_digit (h : c.isDigit = true) : Integer [c] (numeral [c]) :=
  .plain (by simp) (isDigits_cons.mpr ⟨h, rfl⟩)

theorem natural?_eq (ne : digits ≠ []) (h : isDigits digits = true) : natural? digits = some (numeral digits) := by
  have inhabited : digits.isEmpty = false := by simpa using ne
  rw [natural?, h, inhabited, ofDigits_eq]
  rfl

theorem Integer.head?_ne {token : List Char} (h : Integer token n) : token.head? ≠ some '#' := by
  cases h with
  | plain _ h => exact head?_ne_of_isDigits '#' h rfl
  | plus => simp
  | minus => simp

theorem isWord_of_isDigits (ne : digits ≠ []) (h : isDigits digits = true) : IsWord digits :=
  ⟨ne, fun _ hc => isBlank_of_isDigit (isDigit_of_mem h hc)⟩

theorem Integer.isWord {token : List Char} (h : Integer token n) : IsWord token := by
  cases h with
  | plain ne h => exact isWord_of_isDigits ne h
  | plus ne h => exact (isWord_of_isDigits ne h).cons rfl
  | minus ne h => exact (isWord_of_isDigits ne h).cons rfl

/-- **An integer that fits into a word is read as what it stands for.** -/
theorem Integer.read {token : List Char} (h : Integer token n) (fits : Word.minInteger ≤ n ∧ n ≤ Word.maxInteger) :
    integer? token = some n := by
  cases h with
  | plain ne h =>
    rw [integer?.eq_def]
    split
    · exact absurd rfl (head?_ne_of_isDigits '-' h rfl)
    · exact absurd rfl (head?_ne_of_isDigits '+' h rfl)
    · rw [natural?_eq ne h]
      exact if_pos fits
  | plus ne h =>
    rw [integer?, natural?_eq ne h]
    exact if_pos fits
  | minus ne h =>
    rw [integer?, natural?_eq ne h]
    exact if_pos fits

/-! ## Fractions -/

/-- The number that digits behind a point stand for: each counts a tenth of the one in front of it. -/
def fractional (digits : List Char) : ℚ := Nat.ofDigits 10⁻¹ (0 :: digits.map digitValue)

theorem fractional_nil : fractional [] = 0 := by
  simp [fractional, Nat.ofDigits]

theorem fractional_cons (c : Char) (digits : List Char) :
    10 * fractional (c :: digits) = digitValue c + fractional digits := by
  simp [fractional, Nat.ofDigits]

theorem fractional_bounds (h : isDigits digits = true) : 0 ≤ fractional digits ∧ fractional digits < 1 := by
  induction digits with
  | nil => simp [fractional_nil]
  | cons c digits ih =>
    obtain ⟨first, rest⟩ := isDigits_cons.mp h
    obtain ⟨least, most⟩ := ih rest
    have shifted := fractional_cons c digits
    have digit : (digitValue c : ℚ) ≤ 9 := by exact_mod_cast Nat.le_of_lt_succ (digitValue_lt first)
    have nonneg : (0 : ℚ) ≤ digitValue c := Nat.cast_nonneg _
    constructor <;> linarith

/-- Digits behind a point are as many places further down as there are of them. -/
theorem fractional_mul_pow (digits : List Char) : fractional digits * 10 ^ digits.length = numeral digits := by
  induction digits with
  | nil => rw [fractional_nil, zero_mul]; rfl
  | cons c digits ih =>
    rw [List.length_cons, pow_succ', ← mul_assoc, mul_comm _ (10 : ℚ), fractional_cons, add_mul, ih, numeral_cons]
    push_cast
    rfl

/-- The first `n` places behind a point. -/
def firstDigits (n : Nat) (digits : List Char) : List Char := (digits ++ List.replicate n '0').take n

theorem length_firstDigits (n : Nat) (digits : List Char) : (firstDigits n digits).length = n := by
  simp [firstDigits]

theorem firstDigits_cons (n : Nat) (c : Char) (digits : List Char) :
    firstDigits (n + 1) (c :: digits) = c :: firstDigits n digits := by
  rw [firstDigits, List.cons_append, List.take_succ_cons, List.replicate_succ', ← List.append_assoc, firstDigits,
    List.take_append_of_le_length (by simp)]

theorem numeral_firstDigits_nil (n : Nat) : numeral (firstDigits n []) = 0 := by
  induction n with
  | zero => rfl
  | succ n ih =>
    have zeros : firstDigits (n + 1) [] = '0' :: firstDigits n [] := by simp [firstDigits, List.replicate_succ]
    rw [zeros, numeral_cons, ih, show digitValue '0' = 0 from rfl, Nat.zero_mul]

/-- **To cut digits off is to round down.** -/
theorem floor_fractional (h : isDigits digits = true) (n : Nat) :
    ⌊fractional digits * 10 ^ n⌋ = numeral (firstDigits n digits) := by
  induction digits generalizing n with
  | nil => rw [fractional_nil, zero_mul, Int.floor_zero, numeral_firstDigits_nil, Nat.cast_zero]
  | cons c digits ih =>
    cases n with
    | zero =>
      rw [pow_zero, mul_one, Int.floor_eq_zero_iff.mpr (fractional_bounds h)]
      rfl
    | succ n =>
      have shifted : fractional (c :: digits) * 10 ^ (n + 1) =
          (digitValue c * 10 ^ n : ℕ) + fractional digits * 10 ^ n := by
        rw [pow_succ', ← mul_assoc, mul_comm _ (10 : ℚ), fractional_cons, add_mul]
        push_cast
        rfl
      rw [shifted, Int.floor_natCast_add, ih (isDigits_cons.mp h).2, firstDigits_cons, numeral_cons, length_firstDigits]
      push_cast
      rfl

/-! ## Decimal numbers -/

/-- A decimal number as it is written: a minus sign if it is negative, digits, and a point with digits behind it if
there is one.  There is at least one digit. -/
structure Decimal where
  negative : Bool
  /-- The digits in front of the point. -/
  integral : List Char
  /-- The digits behind the point, if there is one. -/
  fraction? : Option (List Char)
  integral_digits : isDigits integral = true
  fraction_digits : isDigits (fraction?.getD []) = true
  inhabited : integral ≠ [] ∨ fraction?.getD [] ≠ []

namespace Decimal
variable (d : Decimal)

def fraction : List Char := d.fraction?.getD []

/-- What is written behind the sign. -/
def unsigned : List Char := d.integral ++ d.fraction?.elim [] ('.' :: ·)

def token : List Char := if d.negative then '-' :: d.unsigned else d.unsigned

def magnitude : ℚ := numeral d.integral + fractional d.fraction

/-- The number that is written. -/
def value : ℚ := if d.negative then -d.magnitude else d.magnitude

/-- Its ten thousandfold, cut off behind the point. -/
def scaled : Nat := numeral d.integral * 10000 + numeral (firstDigits 4 d.fraction)

theorem magnitude_nonneg : 0 ≤ d.magnitude :=
  add_nonneg (Nat.cast_nonneg _) (fractional_bounds d.fraction_digits).1

theorem floor_abs_value : ⌊|d.value| * 10000⌋ = d.scaled := by
  have abs_value : |d.value| = d.magnitude := by
    rw [value]
    split_ifs
    · rw [abs_neg, abs_of_nonneg d.magnitude_nonneg]
    · rw [abs_of_nonneg d.magnitude_nonneg]
  have places : ⌊fractional d.fraction * 10000⌋ = numeral (firstDigits 4 d.fraction) := by
    have cut := floor_fractional d.fraction_digits 4
    norm_num at cut
    exact cut
  have apart : |d.value| * 10000 = (numeral d.integral * 10000 : ℕ) + fractional d.fraction * 10000 := by
    rw [abs_value, magnitude, add_mul]
    push_cast
    rfl
  rw [apart, Int.floor_natCast_add, places, scaled]
  push_cast
  rfl

/-- A number that is cut off to zero has no sign, and every other one keeps its own. -/
theorem sign_mul_floor : SignType.sign d.value * ⌊|d.value| * 10000⌋ =
    if d.negative then -(d.scaled : ℤ) else d.scaled := by
  rcases d.magnitude_nonneg.eq_or_lt with zero | pos
  · have none : d.value = 0 := by
      rw [value, ← zero, neg_zero, ite_self]
    have cut := d.floor_abs_value
    rw [none, abs_zero, zero_mul, Int.floor_zero] at cut
    simp [none, ← cut]
  · rw [floor_abs_value, value]
    split_ifs
    · simp [sign_neg (neg_neg_of_pos pos)]
    · simp [sign_pos pos]

/-! ### Reading -/

theorem integralPart_unsigned : integralPart d.unsigned = d.integral := by
  have before : ∀ c ∈ d.integral, decide (c ≠ '.') = true := fun c hc =>
    decide_eq_true (ne_of_isDigits d.integral_digits rfl c hc)
  rw [unsigned, integralPart, List.takeWhile_append_of_pos before]
  cases d.fraction? with
  | none => exact List.append_nil _
  | some fraction => exact List.append_nil _

theorem fractionalPart_unsigned : fractionalPart d.unsigned = d.fraction := by
  have before : ∀ c ∈ d.integral, decide (c ≠ '.') = true := fun c hc =>
    decide_eq_true (ne_of_isDigits d.integral_digits rfl c hc)
  rw [unsigned, fractionalPart, List.dropWhile_append_of_pos before, fraction]
  cases d.fraction? with
  | none => rfl
  | some fraction => rfl

theorem unsignedScaled?_unsigned :
    unsignedScaled? d.unsigned = if (d.scaled : Int) ≤ Word.maxInteger then some d.scaled else none := by
  have fraction_digits : isDigits d.fraction = true := d.fraction_digits
  have inhabited : (d.integral.isEmpty && d.fraction.isEmpty) = false := by
    simpa [Decimal.fraction, or_iff_not_imp_left] using d.inhabited
  rw [unsignedScaled?, integralPart_unsigned, fractionalPart_unsigned, d.integral_digits, fraction_digits, inhabited,
    ofDigits_eq, ofDigits_eq]
  rfl

/-- Behind the sign there is a digit or the point. -/
theorem head?_unsigned_ne {other : Char} (hother : other.isDigit = false) (point : other ≠ '.') :
    d.unsigned.head? ≠ some other := by
  rw [unsigned]
  by_cases none : d.integral = []
  · rw [none]
    cases d.fraction? with
    | none => simp
    | some fraction => simpa using point.symm
  · rw [List.head?_append_of_ne_nil _ none]
    exact head?_ne_of_isDigits other d.integral_digits hother

end Decimal

theorem scaled?_minus (text : List Char) :
    scaled? ('-' :: text) = (unsignedScaled? text).map fun n : Nat => -(n : Int) := by
  rw [scaled?]
  cases unsignedScaled? text with
  | none => rfl
  | some n => rfl

theorem scaled?_of_head?_ne (h : text.head? ≠ some '-') : scaled? text = (unsignedScaled? text).map Int.ofNat := by
  rw [scaled?.eq_def]
  split
  · exact absurd rfl h
  · rfl

theorem Decimal.scaled?_token (d : Decimal) : scaled? d.token = if (d.scaled : Int) ≤ Word.maxInteger then
    some (if d.negative then -(d.scaled : Int) else d.scaled) else none := by
  have read := d.unsignedScaled?_unsigned
  rw [token]
  by_cases negative : d.negative = true
  · rw [if_pos negative, if_pos negative, scaled?_minus, read]
    split_ifs <;> rfl
  · rw [if_neg negative, if_neg negative, scaled?_of_head?_ne (d.head?_unsigned_ne rfl (by decide)), read]
    split_ifs <;> rfl

/-- What is read as a number without a sign is written like one. -/
theorem exists_unsigned_eq {n : Nat} (negative : Bool) (h : unsignedScaled? text = some n) :
    ∃ d : Decimal, d.negative = negative ∧ d.unsigned = text := by
  rw [unsignedScaled?] at h
  dsimp only at h
  split at h
  · cases h
  · rename_i written
    simp only [Bool.or_eq_true, Bool.and_eq_true, List.isEmpty_iff, Bool.not_eq_true', not_or, not_and,
      Bool.not_eq_false] at written
    obtain ⟨⟨inhabited, integral_digits⟩, fraction_digits⟩ := written
    have whole : integralPart text ++ text.dropWhile (· ≠ '.') = text := List.takeWhile_append_dropWhile
    rw [fractionalPart] at inhabited fraction_digits
    rcases hrest : text.dropWhile (· ≠ '.') with _ | ⟨point, fraction⟩
    · rw [hrest] at whole inhabited
      exact ⟨⟨negative, integralPart text, none, integral_digits, rfl, .inl fun none => inhabited none rfl⟩, rfl, whole⟩
    · obtain rfl : point = '.' := by
        have stop := List.head?_dropWhile_not (· ≠ '.') text
        rw [hrest] at stop
        simpa using stop
      rw [hrest] at whole inhabited fraction_digits
      exact ⟨⟨negative, integralPart text, some fraction, integral_digits, fraction_digits,
        or_iff_not_imp_left.mpr fun none => inhabited (not_not.mp none)⟩, rfl, whole⟩

theorem exists_token_eq {token : List Char} (h : scaled? token = some n) : ∃ d : Decimal, d.token = token := by
  by_cases minus : token.head? = some '-'
  · obtain ⟨text, rfl⟩ := List.head?_eq_some_iff.mp minus
    rw [scaled?_minus] at h
    obtain ⟨m, hm, -⟩ := Option.map_eq_some_iff.mp h
    obtain ⟨d, negative, rfl⟩ := exists_unsigned_eq true hm
    exact ⟨d, if_pos negative⟩
  · rw [scaled?_of_head?_ne minus] at h
    obtain ⟨m, hm, -⟩ := Option.map_eq_some_iff.mp h
    obtain ⟨d, negative, rfl⟩ := exists_unsigned_eq false hm
    exact ⟨d, if_neg (ne_true_of_eq_false negative)⟩

/-- **Scaling is exact truncation.**  A text is read as a number exactly if it is a decimal number whose ten
thousandfold, cut off behind the point, fits into a word. -/
theorem scaled?_eq_some_iff (token : List Char) (n : Int) : scaled? token = some n ↔
    ∃ d : Decimal, d.token = token ∧ ⌊|d.value| * 10000⌋ ≤ Word.maxInteger ∧
      n = SignType.sign d.value * ⌊|d.value| * 10000⌋ := by
  constructor
  · intro h
    obtain ⟨d, rfl⟩ := exists_token_eq h
    rw [d.scaled?_token] at h
    split at h
    · rename_i fits
      refine ⟨d, rfl, ?_, ?_⟩
      · rwa [d.floor_abs_value]
      · rw [d.sign_mul_floor, Option.some.inj h]
    · cases h
  · rintro ⟨d, rfl, fits, rfl⟩
    rw [d.floor_abs_value] at fits
    rw [d.scaled?_token, if_pos fits, d.sign_mul_floor]

example : scaled? ['-', '.', '1', '2', '3', '4', '5', '6'] = some (-1234) := by decide

/-! ## Scaled numbers -/

/-- A scaled number as it is written: its ten thousandth, with four places behind the point. -/
def Scaled (token : List Char) (n : Int) : Prop :=
  ∃ d : Decimal, d.token = token ∧ d.fraction.length = 4 ∧ d.value = n / 10000

/-- Any digits in front of a point and four behind it are a scaled number. -/
theorem Scaled.of_digits (integral fraction : List Char) (h : isDigits integral = true)
    (places : isDigits fraction = true ∧ fraction.length = 4) :
    Scaled (integral ++ '.' :: fraction) (numeral integral * 10000 + numeral fraction : ℕ) := by
  obtain ⟨digits, length⟩ := places
  have inhabited : fraction ≠ [] := List.ne_nil_of_length_pos (length ▸ Nat.zero_lt_succ 3)
  refine ⟨⟨false, integral, some fraction, h, digits, .inr inhabited⟩, rfl, length, ?_⟩
  have shifted := fractional_mul_pow fraction
  rw [length] at shifted
  change (numeral integral : ℚ) + fractional fraction = _
  push_cast
  rw [← shifted]
  ring

theorem Decimal.isWord_token (d : Decimal) : IsWord d.token := by
  have digits {part : List Char} (h : isDigits part = true) : ∀ c ∈ part, isBlank c = false :=
    fun c hc => isBlank_of_isDigit (isDigit_of_mem h hc)
  have unsigned : IsWord d.unsigned := by
    have inhabited := d.inhabited
    have fraction_digits := d.fraction_digits
    rw [Decimal.unsigned]
    cases hfraction : d.fraction? with
    | none =>
      rw [hfraction] at inhabited
      exact ⟨by simpa using inhabited, by simpa using digits d.integral_digits⟩
    | some fraction =>
      rw [hfraction] at fraction_digits
      exact ⟨by simp, List.forall_mem_append.mpr ⟨digits d.integral_digits,
        List.forall_mem_cons.mpr ⟨rfl, digits fraction_digits⟩⟩⟩
  rw [token]
  split_ifs
  · exact unsigned.cons rfl
  · exact unsigned

theorem Decimal.head?_token_ne (d : Decimal) : d.token.head? ≠ some '#' := by
  rw [token]
  split_ifs
  · simp
  · exact d.head?_unsigned_ne rfl (by decide)

/-- **A scaled number that fits into a word is read as what it stands for.** -/
theorem Scaled.read {token : List Char} (h : Scaled token n) (fits : |n| ≤ Word.maxInteger) :
    scaled? token = some n := by
  obtain ⟨d, rfl, -, value⟩ := h
  have whole : |d.value| * 10000 = (|n| : ℤ) := by
    rw [value, abs_div, abs_of_pos (by norm_num : (0 : ℚ) < 10000), div_mul_cancel₀ _ (by norm_num)]
    push_cast
    rfl
  have scaled : (d.scaled : ℤ) = |n| := by
    rw [← d.floor_abs_value, whole, Int.floor_intCast]
  have sign : SignType.sign d.value = SignType.sign n := by
    rw [value, div_eq_mul_inv, sign_mul, sign_pos (by norm_num : (0 : ℚ) < 10000⁻¹), mul_one, sign_intCast]
  have signed := d.sign_mul_floor
  rw [whole, Int.floor_intCast, sign, sign_mul_abs] at signed
  rw [d.scaled?_token, if_pos (scaled ▸ fits), ← signed]

end BranchBound.Text
