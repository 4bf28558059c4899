import BranchBound.Proofs.Matrix
import BranchBound.Proofs.Routing.Content
import BranchBound.Proofs.Routing.Model

/-! # Files with tours to find

**What is written in the layout of such a file is read as the instance it stands for** (`parse_of_describes`), however
its values are spaced and whatever says nothing stands between its lines.  Of every text it holds that lines which say
nothing change at most the line number of an error (`parse_sameContent`), and that this is the number of the first line
that does not fit (`parse_placed`).  `parse_text` puts this together. -/
namespace BranchBound

/-- An error, wherever it stands. -/
def FormatError.unplaced : FormatError → FormatError
  | .notANumber _ token => .notANumber 0 token
  | .wrongNumValues _ expected found => .wrongNumValues 0 expected found
  | .goesOn _ part => .goesOn 0 part
  | .unreadable => .unreadable
  | .endsBefore part => .endsBefore part
  | .invalid cause => .invalid cause

/-- The number of the line that an error names. -/
def FormatError.line? : FormatError → Option Nat
  | .notANumber line _ | .wrongNumValues line _ _ | .goesOn line _ => some line
  | .unreadable | .endsBefore _ | .invalid _ => none

namespace Routing
open Text
open Reader (numbers?)

variable {rest later lines : List (List Char)} {line : List Char} {n k : Nat} {part : String}
  {rows : List (List Int)} {windows : List Window} {p : Instance}

/-! ## What is written is read -/

/-- The number of nodes, as far as a line gives one. -/
def numNodes? (line : List Char) : Option Nat := ((tokens line).head?.bind integer?).bind Int.toNat?

theorem readNumNodes_eq (numRead : Nat) (h : rest.filter speaks = line :: later) (count : numNodes? line = some n) :
    ∃ number rest', readNumNodes (Lines.left numRead rest) = .ok n (Lines.left number rest') ∧
      rest'.filter speaks = later := by
  obtain ⟨number, rest', read, same⟩ := content_eq "the number of nodes" numRead h
  refine ⟨number, rest', ?_, same⟩
  obtain ⟨x, hx, hn⟩ := Option.bind_eq_some_iff.mp count
  obtain rfl : x = n := Int.mem_toNat?.mp hn
  rw [readNumNodes, bind_of_ok read, tokens_trim, hx]
  rfl

theorem readTable_eq (part : String) (numRead : Nat) {numColumns : Nat} (h : rest.filter speaks = lines ++ later)
    (written : Reader.Table scaled? numColumns rows lines) :
    ∃ number rest', readTable part numColumns rows.length (Lines.left numRead rest) =
      .ok rows (Lines.left number rest') ∧ rest'.filter speaks = later := by
  induction written generalizing numRead rest with
  | nil => exact ⟨numRead, rest, rfl, h⟩
  | @cons row line rows lines first _ ih =>
    obtain ⟨numbers, rfl⟩ := first
    obtain ⟨number, rest', read, same⟩ := content_eq part numRead h
    obtain ⟨number', rest'', table, same'⟩ := ih number same
    refine ⟨number', rest'', ?_, same'⟩
    rw [List.length_cons, readTable, bind_of_ok read, Reader.exactly_eq numbers]
    exact bind_of_ok table

theorem of_ofRows (h : Instance.ofRows rows windows = .ok p) :
    Matrix.ofRows? rows = some p.distances ∧ p.windows = windows := by
  rw [Instance.ofRows] at h
  split at h
  · cases h
  · rename_i hrows
    split at h
    · cases h
    · cases h
      exact ⟨hrows, rfl⟩

/-- **Distances and times are values of variables**, and none is negative. -/
theorem Instance.bounds (p : Instance) : (∀ x ∈ p.distances.toList, 0 ≤ x ∧ x ≤ Word.maxValue) ∧
    ∀ w ∈ p.windows, 0 ≤ w.earliest ∧ w.earliest ≤ w.latest ∧ w.latest ≤ Word.maxValue := by
  refine ⟨distances_sound.2.2, fun w hw => ?_⟩
  obtain ⟨i, hi, rfl⟩ := List.mem_iff_getElem.mp hw
  have sound := window_sound (p := p) hi
  rwa [window, window?, List.getElem?_eq_getElem hi] at sound

/-- An instance is written in a text: on a line the number of nodes, then the distances of every node on a line, then
the earliest and the latest time of every node.  More lines may follow. -/
def Describes (text : List (List Char)) (rows : List (List Int)) (windows : List Window) : Prop :=
  ∃ first table times, Amid (first :: (table ++ times)) text ∧ Writes Integer [(windows.length : Int)] first ∧
    List.Forall₂ (Writes Scaled) rows table ∧
    List.Forall₂ (fun w : Window => Writes Scaled [w.earliest, w.latest]) windows times

/-- A line with scaled numbers on it. -/
theorem Scaled.of_writes {row : List Int} (h : Writes Scaled row line) (ne : row ≠ [])
    (fits : ∀ x ∈ row, 0 ≤ x ∧ x ≤ Word.maxValue) : speaks line = true ∧ numbers? scaled? line = some row := by
  constructor
  · refine speaks_of_writes h ne ?_
    rintro token x ⟨d, rfl, -⟩
    exact ⟨d.isWord_token, d.head?_token_ne⟩
  · refine Reader.numbers?_of_writes h fun token x hx scaled => ⟨?_, ?_⟩
    · obtain ⟨d, rfl, -⟩ := scaled
      exact d.isWord_token
    · obtain ⟨least, most⟩ := fits x hx
      refine scaled.read ?_
      rw [abs_of_nonneg least]
      exact most.trans (by decide)

/-- A table of scaled numbers. -/
theorem Scaled.of_table {numColumns : Nat} (written : List.Forall₂ (Writes Scaled) rows lines) (pos : 0 < numColumns)
    (sound : ∀ row ∈ rows, row.length = numColumns ∧ ∀ x ∈ row, 0 ≤ x ∧ x ≤ Word.maxValue) :
    (∀ line ∈ lines, speaks line = true) ∧
      Reader.Table scaled? numColumns rows lines := by
  induction written with
  | nil => exact ⟨by simp, .nil⟩
  | cons first _ ih =>
    obtain ⟨⟨length, fits⟩, sound⟩ := List.forall_mem_cons.mp sound
    obtain ⟨told, numbers⟩ := of_writes first (List.ne_nil_of_length_pos (length ▸ pos)) fits
    obtain ⟨others, read⟩ := ih sound
    exact ⟨List.forall_mem_cons.mpr ⟨told, others⟩, .cons ⟨numbers, length⟩ read⟩

theorem numNodes?_of_writes (h : Writes Integer [(n : Int)] line) (fits : (n : Int) ≤ Word.maxInteger) :
    speaks line = true ∧ numNodes? line = some n := by
  refine ⟨speaks_of_writes h (by simp) fun token x isInteger => ⟨isInteger.isWord, isInteger.head?_ne⟩, ?_⟩
  obtain ⟨word, spaced, isInteger⟩ := h.exists_word
  have read : integer? word = some (n : Int) := isInteger.read ⟨by unfold Word.minInteger; omega, fits⟩
  rw [numNodes?, spaced.tokens_eq (by simpa using isInteger.isWord)]
  exact congrArg (Option.bind · Int.toNat?) read

/-- **What is written is read as the instance it stands for.** -/
theorem parse_of_describes {text : String} (made : Instance.ofRows rows windows = .ok p)
    (fits : (p.numNodes : Int) ≤ Word.maxInteger) (h : Describes (Lines.cut text.toList) rows windows) :
    parse text.toUTF8 = .ok p := by
  obtain ⟨first, table, times, amid, hfirst, htable, htimes⟩ := h
  obtain ⟨hrows, rfl⟩ := of_ofRows made
  obtain ⟨numRows, length, entries⟩ := Matrix.of_ofRows? hrows
  obtain ⟨numRows', numColumns, -⟩ := Instance.distances_sound (p := p)
  obtain ⟨distances, windows⟩ := p.bounds
  have pos : 0 < p.numNodes := Nat.lt_of_lt_of_le Nat.two_pos Instance.two_le_numNodes
  -- what is on the lines
  obtain ⟨told, count⟩ := numNodes?_of_writes hfirst fits
  obtain ⟨toldTable, table_eq⟩ := Scaled.of_table htable pos fun row hrow =>
    ⟨(length row hrow).trans numColumns, fun x hx => distances x (entries ▸ List.mem_flatten.mpr ⟨row, hrow, hx⟩)⟩
  have sound : ∀ row ∈ p.windows.map fun w => [w.earliest, w.latest],
      row.length = 2 ∧ ∀ x ∈ row, 0 ≤ x ∧ x ≤ Word.maxValue := by
    simp only [List.forall_mem_map, List.mem_cons, List.not_mem_nil, or_false, forall_eq_or_imp, forall_eq]
    intro w hw
    obtain ⟨least, order, most⟩ := windows w hw
    exact ⟨rfl, ⟨least, order.trans most⟩, least.trans order, most⟩
  obtain ⟨toldTimes, times_eq⟩ := Scaled.of_table (List.forall₂_map_left_iff.mpr htimes) Nat.two_pos sound
  obtain ⟨more, same⟩ := amid.exists_filter_eq
    (List.forall_mem_cons.mpr ⟨told, List.forall_mem_append.mpr ⟨toldTable, toldTimes⟩⟩)
  rw [List.cons_append, List.append_assoc] at same
  -- how they are read
  obtain ⟨numRead₁, rest₁, read₁, same₁⟩ := readNumNodes_eq 0 same count
  obtain ⟨numRead₂, rest₂, read₂, same₂⟩ :=
    readTable_eq "the distance matrix" numRead₁ same₁ table_eq
  obtain ⟨numRead₃, rest₃, read₃, -⟩ :=
    readTable_eq "the time windows" numRead₂ same₂ times_eq
  rw [← numRows, numRows'] at read₂
  rw [List.length_map] at read₃
  have back : (p.windows.map fun w => [w.earliest, w.latest]).map
      (fun row => ⟨row.head?.getD 0, row.getLast?.getD 0⟩) = p.windows := by
    rw [List.map_map]
    exact List.map_id _
  have read : readInstance (Lines.left 0 (Lines.cut text.toList)) = .ok p (Lines.left numRead₃ rest₃) := by
    rw [readInstance, bind_of_ok read₁]
    refine (bind_of_ok read₂).trans ((bind_of_ok read₃).trans ?_)
    rw [back, made]
    rfl
  rw [parse, Lines.ofBytes_toUTF8_eq_left, read]

/-! ## What says nothing does not matter -/

/-- Lines from which the same is left to be read. -/
def Level (lines lines' : Lines) : Prop := ∃ numRead numRead' rest rest',
  lines = .left numRead rest ∧ lines' = .left numRead' rest' ∧ rest.filter speaks = rest'.filter speaks

/-- Two readers end alike: with answers that are related and the same left to be read, or with errors that differ at
most in the number of their line. -/
inductive Alike {α : Type} (R : α → α → Prop) :
    EStateM.Result FormatError Lines α → EStateM.Result FormatError Lines α → Prop
  | ok {a a' : α} {lines lines' : Lines} (related : R a a') (level : Level lines lines') :
    Alike R (.ok a lines) (.ok a' lines')
  | error {e e' : FormatError} (lines lines' : Lines) (same : e.unplaced = e'.unplaced) :
    Alike R (.error e lines) (.error e' lines')

section
variable {α β : Type} {R : α → α → Prop} {S : β → β → Prop} {lines lines' : Lines} {a : α}

theorem Alike.bind {m m' : Reader α} {f f' : α → Reader β} (h : Alike R (m lines) (m' lines'))
    (next : ∀ a a' lines lines', R a a' → Level lines lines' → Alike S (f a lines) (f' a' lines')) :
    Alike S ((m >>= f) lines) ((m' >>= f') lines') := by
  change Alike S (EStateM.bind m f lines) (EStateM.bind m' f' lines')
  rw [EStateM.bind, EStateM.bind]
  generalize m lines = r at h
  generalize m' lines' = r' at h
  cases h with
  | ok related level => exact next _ _ _ _ related level
  | error _ _ same => exact .error _ _ same

theorem alike_content (level : Level lines lines') :
    Alike (fun line line' => line.text = line'.text) (content part lines) (content part lines') := by
  obtain ⟨numRead, numRead', rest, rest', rfl, rfl, same⟩ := level
  rcases told : rest.filter speaks with _ | ⟨line, later⟩
  · obtain ⟨_, ends⟩ := content_end part numRead told
    obtain ⟨_, ends'⟩ := content_end part numRead' (same ▸ told)
    rw [ends, ends']
    exact .error _ _ rfl
  · obtain ⟨number, left, read, h⟩ := content_eq part numRead told
    obtain ⟨number', left', read', h'⟩ := content_eq part numRead' (same ▸ told)
    rw [read, read']
    exact .ok rfl ⟨number, number', left, left', rfl, rfl, h.trans h'.symm⟩

theorem alike_readNumNodes (level : Level lines lines') :
    Alike Eq (readNumNodes lines) (readNumNodes lines') := by
  refine (alike_content level).bind ?_
  rintro ⟨number, text⟩ ⟨number', text'⟩ lines lines' same level
  obtain rfl : text = text' := same
  dsimp only
  rcases (tokens text).head?.bind integer? with _ | n | n
  · exact .error _ _ rfl
  · exact .ok rfl level
  · exact .error _ _ rfl

theorem alike_exactly (level : Level lines lines') (number number' : Nat) (text : List Char) :
    Alike Eq (Reader.ofExcept (Reader.exactly scaled? n ⟨number, text⟩) lines)
      (Reader.ofExcept (Reader.exactly scaled? n ⟨number', text⟩) lines') := by
  rcases Reader.values_cases scaled? text with ⟨row, -, read⟩ | ⟨-, _, token, _, -, -, -, failed⟩
  · rw [Reader.exactly_of_values (read number), Reader.exactly_of_values (read number')]
    by_cases length : row.length = n
    · rw [if_pos length, if_pos length]
      exact .ok rfl level
    · rw [if_neg length, if_neg length]
      exact .error _ _ rfl
  · rw [Reader.exactly, Reader.exactly, failed, failed]
    exact .error _ _ rfl

theorem alike_readTable {numColumns numRows : Nat} (level : Level lines lines') :
    Alike Eq (readTable part numColumns numRows lines) (readTable part numColumns numRows lines') := by
  induction numRows generalizing lines lines' with
  | zero => exact .ok rfl level
  | succ numRows ih =>
    refine (alike_content level).bind ?_
    rintro ⟨number, text⟩ ⟨number', text'⟩ lines lines' same level
    obtain rfl : text = text' := same
    refine (alike_exactly level number number' text).bind ?_
    rintro row _ lines lines' rfl level
    refine (ih level).bind ?_
    rintro table _ lines lines' rfl level
    exact .ok rfl level

theorem alike_readInstance (level : Level lines lines') :
    Alike Eq (readInstance lines) (readInstance lines') := by
  refine (alike_readNumNodes level).bind ?_
  rintro numNodes _ lines lines' rfl level
  refine (alike_readTable level).bind ?_
  rintro rows _ lines lines' rfl level
  refine (alike_readTable level).bind ?_
  rintro windows _ lines lines' rfl level
  dsimp only
  cases Instance.ofRows rows (windows.map fun row => ⟨row.head?.getD 0, row.getLast?.getD 0⟩) with
  | ok p => exact .ok rfl level
  | error cause => exact .error _ _ rfl

end

/-- **Lines that say nothing change at most the line number of an error.** -/
theorem parse_sameContent {text text' : String} (h : SameContent (Lines.cut text.toList) (Lines.cut text'.toList)) :
    (parse text.toUTF8).mapError FormatError.unplaced = (parse text'.toUTF8).mapError FormatError.unplaced := by
  have alike := alike_readInstance ⟨0, 0, _, _, rfl, rfl, h.filter_eq⟩
  rw [parse, parse, Lines.ofBytes_toUTF8_eq_left, Lines.ofBytes_toUTF8_eq_left]
  generalize readInstance (Lines.left 0 (Lines.cut text.toList)) = r at alike
  generalize readInstance (Lines.left 0 (Lines.cut text'.toList)) = r' at alike
  cases alike with
  | ok related _ => exact congrArg _ (congrArg Except.ok related)
  | error _ _ same => exact congrArg Except.error same

/-! ## Where an error stands -/

/-- How many numbers belong on the `k`-th line behind the number of nodes. -/
def width (n k : Nat) : Nat := if k < n then n else 2

/-- The lines that say something begin like an instance with `n` nodes: there is the number of nodes, and there are
`k` lines behind it, each with as many numbers as belong on it. -/
inductive Begun (n : Nat) : Nat → List (List Char) → Prop
  | first {line : List Char} (h : numNodes? line = some n) : Begun n 0 [line]
  | row {k : Nat} {lines : List (List Char)} {line : List Char} {row : List Int} (begun : Begun n k lines)
      (h : numbers? scaled? line = some row) (length : row.length = width n k) : Begun n (k + 1) (lines ++ [line])

/-- The line says something and has this number in the text, and these are the lines in front of it that say
something. -/
def Stands (text earlier : List (List Char)) (number : Nat) (line : List Char) : Prop := ∃ before after,
  text = before ++ line :: after ∧ number = before.length + 1 ∧ before.filter speaks = earlier ∧ speaks line = true

/-- The error says what is wrong with the line behind these lines, which are in order: it does not give a number of
nodes, it has a token that is no number, or there are too few or too many numbers on it. -/
inductive Offends (number : Nat) (line : List Char) : List (List Char) → FormatError → Prop
  | numNodes (h : numNodes? line = none) : Offends number line [] (.notANumber number (trim line))
  | token {n k : Nat} {earlier before after : List (List Char)} {token : List Char} (begun : Begun n k earlier)
      (more : k < 2 * n) (h : tokens line = before ++ token :: after)
      (numbers : ∀ word ∈ before, (scaled? word).isSome = true) (none : scaled? token = none) :
    Offends number line earlier (.notANumber number token)
  | length {n k : Nat} {earlier : List (List Char)} {row : List Int} (begun : Begun n k earlier) (more : k < 2 * n)
      (h : numbers? scaled? line = some row) (length : row.length ≠ width n k) :
    Offends number line earlier (.wrongNumValues number (width n k) row.length)

/-- If an error names a line, it is one that offends. -/
def Placed (text : List (List Char)) (e : FormatError) : Prop := ∀ number, e.line? = some number →
  ∃ earlier line, Stands text earlier number line ∧ Offends number line earlier e

/-- What was read of the text says this. -/
def Reading (text earlier : List (List Char)) (lines : Lines) : Prop := ∃ before rest,
  text = before ++ rest ∧ lines = .left before.length rest ∧ before.filter speaks = earlier

section
variable {text earlier : List (List Char)} {lines : Lines}

theorem placed_of_line?_eq_none {e : FormatError} (h : e.line? = none) : Placed text e := by
  intro number named
  rw [h] at named
  cases named

theorem Stands.placed {number : Nat} {e : FormatError} (h : Stands text earlier number line)
    (named : e.line? = some number) (offends : Offends number line earlier e) : Placed text e := by
  intro number' named'
  obtain rfl : number = number' := Option.some.inj (named.symm.trans named')
  exact ⟨earlier, line, h, offends⟩

/-- **The number of the next line that says something is its number in the text.** -/
theorem content_ends (h : Reading text earlier lines) : Ends (content part lines)
    (fun line lines' => ∃ raw, line.text = trim raw ∧ Stands text earlier line.number raw ∧
      Reading text (earlier ++ [raw]) lines') (fun e _ => Placed text e) := by
  obtain ⟨before, rest, rfl, rfl, rfl⟩ := h
  rcases told : rest.filter speaks with _ | ⟨line, later⟩
  · obtain ⟨_, ends⟩ := content_end part before.length told
    rw [ends]
    exact placed_of_line?_eq_none rfl
  · obtain ⟨gap, after, rfl, silent, hl, -⟩ := List.filter_eq_cons_iff.mp told
    have none : gap.filter speaks = [] := List.filter_eq_nil_iff.mpr silent
    have through : (before ++ gap).filter speaks = before.filter speaks := by
      rw [List.filter_append, none, List.append_nil]
    rw [content_left part before.length silent hl]
    refine ⟨line, rfl, ⟨before ++ gap, after, by simp, by simp, through, hl⟩, before ++ gap ++ [line], after, by simp,
      ?_, ?_⟩
    · rw [List.length_append, List.length_append]
      rfl
    · rw [List.filter_append, through, List.filter_cons_of_pos hl]
      rfl

theorem readNumNodes_ends (h : Reading text [] lines) : Ends (readNumNodes lines)
    (fun n lines' => ∃ earlier, Begun n 0 earlier ∧ Reading text earlier lines') (fun e _ => Placed text e) := by
  refine (content_ends h).bind ?_
  rintro ⟨number, _⟩ lines ⟨line, rfl, stands, reading⟩
  have offends (h : numNodes? line = none) : Placed text (.notANumber number (trim line)) :=
    stands.placed rfl (.numNodes h)
  dsimp only
  rw [tokens_trim]
  rcases count : (tokens line).head?.bind integer? with _ | n | n
  · exact offends (by rw [numNodes?, count]; rfl)
  · exact ⟨[line], .first (by rw [numNodes?, count]; rfl), reading⟩
  · exact offends (by rw [numNodes?, count]; rfl)

/-- **A line of a table is read if it has as many numbers as belong on it**, and is to blame if it has not. -/
theorem readTable_ends {numColumns numRows : Nat} (begun : Begun n k earlier) (h : Reading text earlier lines)
    (more : k + numRows ≤ 2 * n) (columns : ∀ i, i < numRows → width n (k + i) = numColumns) :
    Ends (readTable part numColumns numRows lines)
      (fun _ lines' => ∃ earlier', Begun n (k + numRows) earlier' ∧ Reading text earlier' lines')
      (fun e _ => Placed text e) := by
  induction numRows generalizing k earlier lines with
  | zero => exact ⟨earlier, begun, h⟩
  | succ numRows ih =>
    refine (content_ends h).bind ?_
    rintro ⟨number, _⟩ lines ⟨line, rfl, stands, reading⟩
    obtain rfl : width n k = numColumns := columns 0 (Nat.succ_pos _)
    cases read : Reader.exactly scaled? (width n k) ⟨number, trim line⟩ with
    | error e =>
      rcases Reader.of_exactly_error read with
        ⟨before, token, after, cut, numbers, none, rfl⟩ | ⟨row, hrow, length, rfl⟩
      · exact stands.placed rfl (.token begun (by omega) cut numbers none)
      · exact stands.placed rfl (.length begun (by omega) hrow length)
    | ok row =>
      obtain ⟨numbers, length⟩ := Reader.of_exactly read
      rw [Reader.numbers?_trim] at numbers
      have step := ih (begun.row numbers length) reading (by omega) fun i hi => by
        rw [Nat.add_assoc, Nat.add_comm 1]
        exact columns (i + 1) (Nat.succ_lt_succ hi)
      refine step.bind ?_
      rintro table lines ⟨earlier, begun, reading⟩
      rw [Nat.add_assoc, Nat.add_comm 1] at begun
      exact ⟨earlier, begun, reading⟩

theorem readInstance_ends (h : Reading text [] lines) :
    Ends (readInstance lines) (fun _ _ => True) (fun e _ => Placed text e) := by
  refine (readNumNodes_ends h).bind ?_
  rintro n lines ⟨earlier, begun, reading⟩
  refine (readTable_ends begun reading (by omega) fun i hi => ?_).bind ?_
  · rw [Nat.zero_add, width, if_pos hi]
  rintro rows lines ⟨earlier, begun, reading⟩
  refine (readTable_ends begun reading (by omega) fun i hi => ?_).bind ?_
  · rw [width, if_neg (by omega)]
  rintro windows lines -
  cases Instance.ofRows rows (windows.map fun row => ⟨row.head?.getD 0, row.getLast?.getD 0⟩) with
  | ok p => trivial
  | error cause => exact placed_of_line?_eq_none rfl

end

theorem parse_placed {text : String} {e : FormatError} (h : parse text.toUTF8 = .error e) :
    Placed (Lines.cut text.toList) e := by
  have fresh : Reading (Lines.cut text.toList) [] (.left 0 (Lines.cut text.toList)) := ⟨[], _, rfl, rfl, rfl⟩
  have ends := readInstance_ends fresh
  rw [parse, Lines.ofBytes_toUTF8_eq_left] at h
  split at h
  · cases h
  · rename_i read
    cases h
    exact ends.of_error read

/-- **Files with tours to find are read as they are written.**  A text in the layout of an instance is read as this
instance; like everything that is kept in memory, its nodes can be counted by a word.  Putting in or taking out what
says nothing changes at most the line number of an error.  A line number in an error is the one of the first line that
does not fit, counted among all lines of the text. -/
theorem parse_text (text : String) :
    (∀ rows windows p, Instance.ofRows rows windows = .ok p → (p.numNodes : Int) ≤ Word.maxInteger →
      Describes (Lines.cut text.toList) rows windows → parse text.toUTF8 = .ok p) ∧
    (∀ text' : String, SameContent (Lines.cut text.toList) (Lines.cut text'.toList) →
      (parse text.toUTF8).mapError FormatError.unplaced = (parse text'.toUTF8).mapError FormatError.unplaced) ∧
    ∀ e number, parse text.toUTF8 = .error e → e.line? = some number →
      ∃ earlier line, Stands (Lines.cut text.toList) earlier number line ∧ Offends number line earlier e :=
  ⟨fun _ _ _ made fits written => parse_of_describes made fits written, fun _ same => parse_sameContent same,
    fun _ number failed named => parse_placed failed number named⟩

/-- Two nodes, with a comment and a blank line. -/
def pair : String := "2\n# there\n0.0000 1.5000\n\n1.5000\t0.0000\n0.0000 9.0000\n 0.0000 9.0000\n"

theorem cut_pair : Lines.cut pair.toList = [['2'], ['#', ' ', 't', 'h', 'e', 'r', 'e'],
    ['0', '.', '0', '0', '0', '0', ' ', '1', '.', '5', '0', '0', '0'], [],
    ['1', '.', '5', '0', '0', '0', '\t', '0', '.', '0', '0', '0', '0'],
    ['0', '.', '0', '0', '0', '0', ' ', '9', '.', '0', '0', '0', '0'],
    [' ', '0', '.', '0', '0', '0', '0', ' ', '9', '.', '0', '0', '0', '0']] := by decide +kernel

theorem describes_pair : Describes (Lines.cut pair.toList) [[0, 15000], [15000, 0]] [⟨0, 90000⟩, ⟨0, 90000⟩] := by
  have zero : Scaled ['0', '.', '0', '0', '0', '0'] 0 :=
    Scaled.of_digits ['0'] ['0', '0', '0', '0'] rfl ⟨rfl, rfl⟩
  have way : Scaled ['1', '.', '5', '0', '0', '0'] 15000 :=
    Scaled.of_digits ['1'] ['5', '0', '0', '0'] rfl ⟨rfl, rfl⟩
  have late : Scaled ['9', '.', '0', '0', '0', '0'] 90000 :=
    Scaled.of_digits ['9'] ['0', '0', '0', '0'] rfl ⟨rfl, rfl⟩
  have two {x y : Int} {front back before : List Char} (c : Char) (hbefore : Blank before) (hx : Scaled front x)
      (hy : Scaled back y) (hc : isBlank c = true) : Writes Scaled [x, y] (before ++ front ++ [c] ++ back) :=
    .cons hbefore hx (blank_singleton.mpr hc) (by simp) (.single blank_nil hy)
  rw [cut_pair]
  refine ⟨_, [_, _], [_, _], .line (.silent (.inr ⟨[], _, blank_nil, rfl⟩) (.line (.silent (.inl blank_nil)
    (.line (.line (.line (.done []))))))), .single blank_nil (isInteger_digit (c := '2') rfl), ?_, ?_⟩
  · exact .cons (two ' ' blank_nil zero way rfl) (.cons (two '\t' blank_nil way zero rfl) .nil)
  · exact .cons (two ' ' blank_nil zero late rfl) (.cons (two ' ' (blank_singleton.mpr rfl) zero late rfl) .nil)

/-- A row of distances that holds a word, on the fourth line. -/
def garbled : String := "2\n# there\n0 1.5\n1.5 back\n"

theorem parse_text_pair : ∃ p : Instance, p.numNodes = 2 ∧ parse pair.toUTF8 = .ok p ∧
    (parse pair.toUTF8).mapError FormatError.unplaced =
      (parse (String.ofList ('\n' :: pair.toList)).toUTF8).mapError FormatError.unplaced ∧
    parse garbled.toUTF8 = .error (.notANumber 4 ['b', 'a', 'c', 'k']) ∧ ∃ earlier line,
      Stands (Lines.cut garbled.toList) earlier 4 line ∧
        Offends 4 line earlier (.notANumber 4 ['b', 'a', 'c', 'k']) := by
  obtain ⟨p, made, size⟩ : ∃ p, Instance.ofRows [[0, 15000], [15000, 0]] [⟨0, 90000⟩, ⟨0, 90000⟩] = .ok p ∧
      p.numNodes = 2 := ⟨_, rfl, rfl⟩
  have failed : parse garbled.toUTF8 = .error (.notANumber 4 ['b', 'a', 'c', 'k']) := by
    rw [parse, Lines.ofBytes_toUTF8_eq_left]
    decide +kernel
  refine ⟨p, size, (parse_text pair).1 _ _ p made (by rw [size]; decide) describes_pair, ?_, failed,
    (parse_text garbled).2.2 _ 4 failed rfl⟩
  refine (parse_text pair).2.1 _ ?_
  rw [String.toList_ofList]
  exact .right (.inl blank_nil) (.refl _)

end Routing
end BranchBound
