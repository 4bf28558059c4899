import BranchBound.Proofs.Format.Lines
import BranchBound.Proofs.Text.Numerals

/-! # Lines that are written

A line holds numbers if they are written on it one behind the other, with white space between them, and any around
them (`Writes`).  **What is written is read** (`Reader.numbers?_of_writes`, `Reader.count_left`), and a line that is not
read is blamed for the first token that is no number, or for how many numbers it holds (`Reader.of_exactly_error`).
Neither depends on where the line stands (`Reader.values_cases`). -/
namespace BranchBound

namespace Lines

/-- The lines of a text as they stand there. -/
def cut (text : List Char) : List (List Char) := text.foldr addToText []

/-- Lines that are still to be read, when others were read before them. -/
def left (numRead : Nat) (lines : List (List Char)) : Lines :=
  ⟨numRead, lines.map fun line => some (Text.trim line)⟩

theorem ofBytes_toUTF8_eq_left (text : String) : ofBytes text.toUTF8 = left 0 (cut text.toList) := by
  rw [ofBytes_toUTF8, ofText, List.map_map]
  rfl

end Lines

open Text

/-- The values are written on the line, each as `number` has it. -/
def Writes {α : Type} (number : List Char → α → Prop) (values : List α) (line : List Char) : Prop :=
  ∃ words, Spaced words line ∧ List.Forall₂ number words values

namespace Writes
variable {α : Type} {number : List Char → α → Prop} {values : List α} {x : α} {before token gap text : List Char}

theorem single (hbefore : Blank before) (h : number token x) : Writes number [x] (before ++ token) :=
  ⟨[token], .last hbefore, .cons h .nil⟩

theorem cons (hbefore : Blank before) (h : number token x) (hgap : Blank gap) (ne : gap ≠ [])
    (rest : Writes number values text) : Writes number (x :: values) (before ++ token ++ gap ++ text) := by
  obtain ⟨words, spaced, written⟩ := rest
  exact ⟨token :: words, .cons hbefore hgap ne spaced, .cons h written⟩

theorem exists_word (h : Writes number [x] text) : ∃ token, Spaced [token] text ∧ number token x := by
  obtain ⟨words, spaced, written⟩ := h
  obtain ⟨token, others, isNumber, last, rfl⟩ := List.forall₂_cons_right_iff.mp written
  obtain rfl := List.forall₂_nil_right_iff.mp last
  exact ⟨token, spaced, isNumber⟩

end Writes

namespace Reader
variable {number : List Char → Int → Prop} {number? : List Char → Option Int} {values row : List Int}
  {line : List Char} {rest : List (List Char)} {part : String} {n numRead : Nat} {e : FormatError}

/-- Each of these rows is on its line, and all are of the same length. -/
abbrev Table (number? : List Char → Option Int) (numColumns : Nat) : List (List Int) → List (List Char) → Prop :=
  List.Forall₂ fun row line => numbers? number? line = some row ∧ row.length = numColumns

/-- A line holds the same numbers whether it is trimmed or not. -/
theorem numbers?_trim (line : List Char) : numbers? number? (trim line) = numbers? number? line := by
  rw [numbers?, tokens_trim, numbers?]

/-- **What is written is read**, if every number is. -/
theorem numbers?_of_writes (h : Writes number values line)
    (read : ∀ token, ∀ x ∈ values, number token x → IsWord token ∧ number? token = some x) :
    numbers? number? line = some values := by
  obtain ⟨words, spaced, written⟩ := h
  suffices (∀ word ∈ words, IsWord word) ∧ words.mapM number? = some values by
    rw [numbers?, spaced.tokens_eq this.1, this.2]
  clear spaced
  induction written with
  | nil => exact ⟨by simp, rfl⟩
  | @cons word x words values first _ ih =>
    obtain ⟨isWord, found⟩ := read word x List.mem_cons_self first
    obtain ⟨each, others⟩ := ih fun token y hy => read token y (List.mem_cons_of_mem x hy)
    refine ⟨List.forall_mem_cons.mpr ⟨isWord, each⟩, ?_⟩
    rw [List.mapM_cons, found, others]
    rfl

/-- **All tokens of a line are numbers, or the first is blamed that is none.**  Where the line stands does not
matter. -/
theorem values_cases (number? : List Char → Option Int) (text : List Char) :
    (∃ row, numbers? number? text = some row ∧ ∀ n, Reader.values number? ⟨n, text⟩ = .ok row) ∨
      numbers? number? text = none ∧ ∃ before token after, tokens text = before ++ token :: after ∧
        (∀ word ∈ before, (number? word).isSome = true) ∧ number? token = none ∧
          ∀ n, Reader.values number? ⟨n, text⟩ = .error (.notANumber n token) := by
  simp only [numbers?, Reader.values]
  induction tokens text with
  | nil => exact .inl ⟨[], rfl, fun _ => rfl⟩
  | cons word words ih =>
    simp only [List.mapM_cons]
    cases here : number? word with
    | none => exact .inr ⟨rfl, [], word, words, rfl, by simp, here, fun _ => rfl⟩
    | some x =>
      rcases ih with ⟨row, numbers, read⟩ | ⟨numbers, before, token, after, cut, inFront, none, failed⟩
      · refine .inl ⟨x :: row, by rw [numbers]; rfl, fun n => ?_⟩
        rw [read]
        rfl
      · refine .inr ⟨by rw [numbers]; rfl, word :: before, token, after, by rw [cut]; rfl,
          List.forall_mem_cons.mpr ⟨by rw [here]; rfl, inFront⟩, none, fun n => ?_⟩
        rw [failed]
        rfl

theorem values_eq (h : numbers? number? line = some row) : Reader.values number? ⟨n, line⟩ = .ok row := by
  rcases values_cases number? line with ⟨row', numbers, read⟩ | ⟨none, -⟩
  · obtain rfl : row = row' := Option.some.inj (h.symm.trans numbers)
    exact read n
  · rw [none] at h
    cases h

theorem exactly_of_values (h : Reader.values number? ⟨numRead, line⟩ = .ok row) (n : Nat) :
    exactly number? n ⟨numRead, line⟩ =
      if row.length = n then .ok row else .error (.wrongNumValues numRead n row.length) := by
  rw [exactly, h]
  rfl

/-- A line with as many numbers as expected. -/
theorem exactly_eq (h : numbers? number? line = some row) :
    exactly number? row.length ⟨n, trim line⟩ = .ok row := by
  rw [exactly_of_values (values_eq (numbers?_trim line ▸ h)), if_pos rfl]

/-- A line is blamed for the first token that is no number, or for the number of its numbers. -/
theorem of_exactly_error (h : exactly number? n ⟨numRead, trim line⟩ = .error e) :
    (∃ before token after, tokens line = before ++ token :: after ∧
      (∀ word ∈ before, (number? word).isSome = true) ∧ number? token = none ∧ e = .notANumber numRead token) ∨
    ∃ row, numbers? number? line = some row ∧ row.length ≠ n ∧ e = .wrongNumValues numRead n row.length := by
  rcases values_cases number? (trim line) with
    ⟨row, numbers, read⟩ | ⟨-, before, token, after, cut, inFront, none, failed⟩
  · rw [exactly_of_values (read numRead)] at h
    refine .inr ⟨row, numbers?_trim line ▸ numbers, ?_⟩
    by_cases length : row.length = n
    · rw [if_pos length] at h
      cases h
    · rw [if_neg length] at h
      exact ⟨length, (Except.error.inj h).symm⟩
  · rw [exactly, failed] at h
    exact .inl ⟨before, token, after, tokens_trim line ▸ cut, inFront, none, (Except.error.inj h).symm⟩

/-- There is something on a line with numbers. -/
theorem trim_ne_nil (h : numbers? number? line = some row) (ne : row ≠ []) : trim line ≠ [] := by
  intro blank
  rw [← numbers?_trim, blank] at h
  exact ne (Option.some.inj h).symm

theorem expect_left (part : String) (numRead : Nat) (line : List Char) (rest : List (List Char)) :
    expect part (Lines.left numRead (line :: rest)) = .ok ⟨numRead + 1, trim line⟩ (Lines.left (numRead + 1) rest) :=
  rfl

/-- A count is read off its line. -/
theorem count_left (h : Writes Integer [(n : Int)] line) (fits : (n : Int) ≤ Word.maxInteger) :
    count part (Lines.left numRead (line :: rest)) = .ok n (Lines.left (numRead + 1) rest) := by
  obtain ⟨word, spaced, isInteger⟩ := h.exists_word
  have read : integer? word = some (n : Int) := isInteger.read ⟨by unfold Word.minInteger; omega, fits⟩
  rw [count, bind_of_ok (expect_left ..), spaced.trim_eq isInteger.isWord, read]
  rfl

end Reader
end BranchBound
