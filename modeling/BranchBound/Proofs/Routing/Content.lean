import BranchBound.Proofs.Format.Layout
import BranchBound.Routing.Format

/-! # Lines that say something

In a file with a tour to find, blank lines and comments say nothing (`speaks_eq_false_iff`), and texts say the same
that differ in such lines only (`SameContent`).  A reader passes over them: **it takes the next line that says
something**, and the number of that line counts the others as well (`content_left`). -/
namespace BranchBound.Routing
open Text

variable {gap rest later lines : List (List Char)} {line : List Char}

/-! ## Lines that say something -/

/-- A line that says nothing is blank or a comment. -/
def Silent (line : List Char) : Prop :=
  Blank line ∨ ∃ before comment, Blank before ∧ line = before ++ '#' :: comment

/-- Whether a line says something. -/
def speaks (line : List Char) : Bool := isContent (trim line)

/-- One text comes of the other when lines are put in and taken out that say nothing. -/
inductive SameContent : List (List Char) → List (List Char) → Prop
  | nil : SameContent [] []
  | cons (line : List Char) {text text' : List (List Char)} (rest : SameContent text text') :
    SameContent (line :: text) (line :: text')
  | left {line : List Char} {text text' : List (List Char)} (h : Silent line) (rest : SameContent text text') :
    SameContent (line :: text) text'
  | right {line : List Char} {text text' : List (List Char)} (h : Silent line) (rest : SameContent text text') :
    SameContent text (line :: text')

/-- The lines stand in a text in this order, between lines that say nothing, and anything may come behind them. -/
inductive Amid : List (List Char) → List (List Char) → Prop
  | done (rest : List (List Char)) : Amid [] rest
  | silent {line : List Char} {lines text : List (List Char)} (h : Silent line) (rest : Amid lines text) :
    Amid lines (line :: text)
  | line {line : List Char} {lines text : List (List Char)} (rest : Amid lines text) :
    Amid (line :: lines) (line :: text)

theorem speaks_iff : speaks line = true ↔ ∃ c, (trim line).head? = some c ∧ c ≠ '#' := by
  rw [speaks, isContent]
  cases trim line with
  | nil => simp
  | cons c rest => simp

/-- **The lines that say nothing are the blank ones and the comments.** -/
theorem speaks_eq_false_iff : speaks line = false ↔ Silent line := by
  constructor
  · intro h
    obtain ⟨before, behind, hbefore, hbehind, same, -⟩ := exists_trim line
    rcases left : trim line with _ | ⟨c, rest⟩
    · rw [left, List.append_nil] at same
      exact .inl fun c hc => (List.mem_append.mp (same ▸ hc)).elim (hbefore c) (hbehind c)
    · obtain rfl : c = '#' := by
        by_contra other
        rw [speaks_iff.mpr ⟨c, by rw [left]; rfl, other⟩] at h
        cases h
      rw [left, List.append_assoc] at same
      exact .inr ⟨before, rest ++ behind, hbefore, same⟩
  · intro h
    rw [← Bool.not_eq_true, speaks_iff]
    rintro ⟨c, first, other⟩
    rcases h with blank | ⟨before, comment, blank, rfl⟩
    · rw [trim_blank blank] at first
      cases first
    · obtain ⟨word, words, tokens_eq⟩ := tokens_cons (c := '#') rfl comment
      rw [head?_trim, tokens_blank_append blank, tokens_eq] at first
      exact other (Option.some.inj first).symm

/-- A line with values on it says something, if they do not begin a comment. -/
theorem speaks_of_writes {α : Type} {number : List Char → α → Prop} {values : List α} (h : Writes number values line)
    (ne : values ≠ []) (word : ∀ token x, number token x → IsWord token ∧ token.head? ≠ some '#') :
    speaks line = true := by
  obtain ⟨words, spaced, written⟩ := h
  have each : ∀ word ∈ words, IsWord word := by
    clear spaced ne
    induction written with
    | nil => simp
    | cons first _ ih => exact List.forall_mem_cons.mpr ⟨(word _ _ first).1, ih⟩
  obtain ⟨x, values, rfl⟩ := List.exists_cons_of_ne_nil ne
  obtain ⟨token, words, first, -, rfl⟩ := List.forall₂_cons_right_iff.mp written
  obtain ⟨⟨inhabited, -⟩, other⟩ := word token x first
  obtain ⟨c, token, rfl⟩ := List.exists_cons_of_ne_nil inhabited
  refine speaks_iff.mpr ⟨c, ?_, by simpa using other⟩
  rw [head?_trim, spaced.tokens_eq each]
  rfl

theorem filter_cons_of_silent (h : Silent line) (text : List (List Char)) :
    (line :: text).filter speaks = text.filter speaks :=
  List.filter_cons_of_neg (ne_true_of_eq_false (speaks_eq_false_iff.mpr h))

theorem Amid.exists_filter_eq {text : List (List Char)} (h : Amid lines text)
    (told : ∀ line ∈ lines, speaks line = true) : ∃ more, text.filter speaks = lines ++ more := by
  induction h with
  | done rest => exact ⟨_, rfl⟩
  | silent h _ ih =>
    rw [filter_cons_of_silent h]
    exact ih told
  | line _ ih =>
    obtain ⟨here, later⟩ := List.forall_mem_cons.mp told
    obtain ⟨more, same⟩ := ih later
    exact ⟨more, by rw [List.filter_cons_of_pos here, same]; rfl⟩

/-- **Texts that differ in what says nothing say the same.** -/
theorem SameContent.filter_eq {text text' : List (List Char)} (h : SameContent text text') :
    text.filter speaks = text'.filter speaks := by
  induction h with
  | nil => rfl
  | cons line _ ih => rw [List.filter_cons, List.filter_cons, ih]
  | left silent _ ih => rw [filter_cons_of_silent silent, ih]
  | right silent _ ih => rw [filter_cons_of_silent silent, ih]

theorem SameContent.refl (text : List (List Char)) : SameContent text text := by
  induction text with
  | nil => exact .nil
  | cons line _ ih => exact .cons line ih

/-! ## Reading on -/

/-- What says nothing is passed over. -/
theorem content_left (part : String) (numRead : Nat) (silent : ∀ text ∈ gap, ¬ speaks text = true)
    (hl : speaks line = true) : content part (Lines.left numRead (gap ++ line :: rest)) =
      .ok ⟨numRead + gap.length + 1, trim line⟩ (Lines.left (numRead + gap.length + 1) rest) := by
  induction gap generalizing numRead with
  | nil => exact if_pos hl
  | cons text gap ih =>
    obtain ⟨here, later⟩ := List.forall_mem_cons.mp silent
    have skip : content part (Lines.left numRead ((text :: gap) ++ line :: rest)) =
        content part (Lines.left (numRead + 1) (gap ++ line :: rest)) := if_neg here
    rw [skip, ih _ later, List.length_cons, Nat.add_assoc numRead, Nat.add_comm 1]

theorem content_end (part : String) (numRead : Nat) (h : rest.filter speaks = []) :
    ∃ lines, content part (Lines.left numRead rest) = .error (.endsBefore part) lines := by
  rw [List.filter_eq_nil_iff] at h
  induction rest generalizing numRead with
  | nil => exact ⟨_, rfl⟩
  | cons text rest ih =>
    obtain ⟨here, later⟩ := List.forall_mem_cons.mp h
    have skip : content part (Lines.left numRead (text :: rest)) =
        content part (Lines.left (numRead + 1) rest) := if_neg here
    rw [skip]
    exact ih _ later

/-- Reading on takes the first line that says something. -/
theorem content_eq (part : String) (numRead : Nat) (h : rest.filter speaks = line :: later) : ∃ number rest',
    content part (Lines.left numRead rest) = .ok ⟨number, trim line⟩ (Lines.left number rest') ∧
      rest'.filter speaks = later := by
  obtain ⟨gap, rest', rfl, silent, hl, same⟩ := List.filter_eq_cons_iff.mp h
  exact ⟨_, rest', content_left part numRead silent hl, same⟩

end BranchBound.Routing
