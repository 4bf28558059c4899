import BranchBound.Proofs.Format.Layout
import BranchBound.Proofs.LotSizing.Format

/-! # Files that are written

Data are written in a text as the format has it (`Describes`): three counts, the changeover costs, the stocking costs
and the demands, with blank lines where they have to be and where they may be.  **What is written is read as the
instance that is made of the data** (`parse_layout`).  The number of orders is read as well: it may be any, as long as
it is a word (`refuses_crowded`). -/
namespace BranchBound.LotSizing
open Text
open Reader (numbers?)

variable {numItems horizon : Nat} {rows : List (List Int)} {line separator first : List Char}
  {lines before behind after others : List (List Char)}

/-! ## The parts of a file -/

/-- The rows go on to the separator. -/
theorem rowsFrom_eq (numRead : Nat) (written : Reader.Table integer? numItems rows lines) (pos : 0 < numItems)
    (hseparator : Blank separator) (cut : lines ++ separator :: after = first :: others) :
    ∃ number, rowsFrom numItems ⟨numRead + 1, trim first⟩ (Lines.left (numRead + 1) others).rest =
      .ok (rows, ⟨number, []⟩) (Lines.left number after) := by
  induction written generalizing numRead first others with
  | nil =>
    obtain ⟨rfl, rfl⟩ := List.cons.inj cut
    refine ⟨numRead + 1, ?_⟩
    rw [rowsFrom.eq_def, trim_blank hseparator]
    rfl
  | @cons row line rows lines here _ ih =>
    rw [List.cons_append] at cut
    obtain ⟨rfl, rfl⟩ := List.cons.inj cut
    obtain ⟨numbers, rfl⟩ := here
    obtain ⟨next, others, same⟩ : ∃ next others, lines ++ separator :: after = next :: others :=
      List.exists_cons_of_ne_nil (by simp)
    obtain ⟨number, read⟩ := ih (numRead + 1) same
    refine ⟨number, ?_⟩
    have ne : trim line ≠ [] := Reader.trim_ne_nil numbers (List.ne_nil_of_length_pos pos)
    rw [same, rowsFrom.eq_def, if_neg (by simpa using ne), Reader.exactly_eq numbers]
    simp only [Lines.left, List.map_cons] at read ⊢
    rw [read]

/-- A blank line in front of the changeover costs is passed over, and the one behind them is used up. -/
theorem readChangeovers_eq (numRead : Nat) {gap : List (List Char)}
    (written : Reader.Table integer? rows.length rows lines) (pos : 0 < rows.length)
    (hgap : gap = [] ∨ ∃ line, Blank line ∧ gap = [line]) (hseparator : Blank separator) : ∃ number,
    readChangeovers rows.length (Lines.left numRead (gap ++ (lines ++ separator :: after))) =
      .ok rows (Lines.left number after) := by
  obtain ⟨first, others, cut⟩ : ∃ first others, lines ++ separator :: after = first :: others :=
    List.exists_cons_of_ne_nil (by simp)
  have told : trim first ≠ [] := by
    cases written with
    | nil => cases pos
    | cons here _ =>
      rw [List.cons_append] at cut
      obtain ⟨rfl, -⟩ := List.cons.inj cut
      exact Reader.trim_ne_nil here.1 (List.ne_nil_of_length_pos (here.2 ▸ pos))
  rw [cut]
  rcases hgap with rfl | ⟨line, blank, rfl⟩
  · obtain ⟨number, read⟩ := rowsFrom_eq numRead written pos hseparator cut
    refine ⟨number, ?_⟩
    rw [readChangeovers, List.nil_append, bind_of_ok (Reader.expect_left ..), if_neg (by simpa using told)]
    refine (bind_of_ok (s := Lines.left (numRead + 1) others) rfl).trans ((bind_of_ok read).trans ?_)
    exact congrFun (if_pos rfl) _
  · obtain ⟨number, read⟩ := rowsFrom_eq (numRead + 1) written pos hseparator cut
    refine ⟨number, ?_⟩
    rw [readChangeovers, List.singleton_append, bind_of_ok (Reader.expect_left ..), trim_blank blank]
    refine (bind_of_ok (Reader.expect_left ..)).trans ((bind_of_ok read).trans ?_)
    exact congrFun (if_pos rfl) _

/-- Nothing is demanded behind blank lines. -/
theorem demandRows_blank (numRead : Nat) (begun : Bool) (h : ∀ line ∈ behind, Blank line) :
    demandRows horizon numRead begun numItems (Lines.left numRead behind).rest = .ok [] := by
  induction behind generalizing begun numRead with
  | nil => rw [Lines.left, List.map_nil, demandRows]
  | cons line behind ih =>
    obtain ⟨blank, later⟩ := List.forall_mem_cons.mp h
    rw [Lines.left, List.map_cons, trim_blank blank, demandRows.eq_def]
    cases begun with
    | true => rfl
    | false => exact ih (numRead + 1) false later

theorem demandRows_eq (numRead : Nat) (begun : Bool) (written : List.Forall₂ (fun row line =>
      numbers? integer? line = some row ∧ 0 < row.length ∧ row.length ≤ horizon) rows lines)
    (fits : rows.length ≤ numItems) (hbehind : ∀ line ∈ behind, Blank line) :
    demandRows horizon numRead begun numItems (Lines.left numRead (lines ++ behind)).rest = .ok rows := by
  induction written generalizing begun numRead numItems with
  | nil => exact demandRows_blank numRead begun hbehind
  | @cons row line rows lines here _ ih =>
    obtain ⟨numbers, pos, short⟩ := here
    obtain ⟨numItems, rfl⟩ : ∃ n, numItems = n + 1 :=
      Nat.exists_eq_add_one.mpr (Nat.lt_of_lt_of_le (Nat.zero_lt_succ _) fits)
    have ne : trim line ≠ [] := Reader.trim_ne_nil numbers (List.ne_nil_of_length_pos pos)
    have given : demandRow horizon ⟨numRead + 1, trim line⟩ = .ok row := by
      rw [demandRow, Reader.values_eq (Reader.numbers?_trim line ▸ numbers)]
      exact if_pos short
    have later := ih (numRead + 1) true (Nat.le_of_succ_le_succ fits)
    rw [Lines.left, List.cons_append, List.map_cons, demandRows.eq_def]
    dsimp only
    rw [if_neg (by simpa using ne), given]
    dsimp only [Lines.left] at later
    change (do return row :: (← demandRows _ _ _ _ _)) = _
    rw [later]
    rfl

theorem demandRows_begin (numRead : Nat) (h : ∀ line ∈ before, Blank line) :
    ∃ numRead', demandRows horizon numRead false numItems (Lines.left numRead (before ++ after)).rest =
      demandRows horizon numRead' false numItems (Lines.left numRead' after).rest := by
  induction before generalizing numRead with
  | nil => exact ⟨numRead, rfl⟩
  | cons line before ih =>
    obtain ⟨blank, later⟩ := List.forall_mem_cons.mp h
    obtain ⟨numRead', same⟩ := ih (numRead + 1) later
    refine ⟨numRead', ?_⟩
    rw [← same, Lines.left, List.cons_append, List.map_cons, trim_blank blank, demandRows.eq_def]
    rfl

/-! ## Whole files -/

/-- The demands of an item as they are written: zeros at the end may be left out, as long as a number remains. -/
def Due (row : List Int) (line : List Char) : Prop :=
  ∃ given zeros, row = given ++ List.replicate zeros 0 ∧ given ≠ [] ∧ Writes Integer given line

/-- Data are written in a text: the numbers of periods, of items and of orders, each on a line, and perhaps a blank
line; the changeover costs of every item on a line, and a blank line; the stocking costs on a line; and between blank
lines the demands of every item on a line. -/
inductive Describes (changeovers : List (List Int)) (stockingCosts : List Int) (demands : List (List Int))
    (numOrders : Nat) : List (List Char) → Prop
  | intro {horizon : Nat} {periods items orders separator costs : List Char}
      {gap table before due behind : List (List Char)}
      (rectangular : ∀ row ∈ demands, row.length = horizon)
      (hperiods : Writes Integer [(horizon : Int)] periods)
      (hitems : Writes Integer [(stockingCosts.length : Int)] items)
      (horders : Writes Integer [(numOrders : Int)] orders)
      (hgap : gap = [] ∨ ∃ line, Blank line ∧ gap = [line])
      (htable : List.Forall₂ (Writes Integer) changeovers table)
      (hseparator : Blank separator)
      (hcosts : Writes Integer stockingCosts costs)
      (hbefore : ∀ line ∈ before, Blank line)
      (hdue : List.Forall₂ Due demands due)
      (hbehind : ∀ line ∈ behind, Blank line) :
    Describes changeovers stockingCosts demands numOrders
      (periods :: items :: orders :: (gap ++ (table ++ separator :: costs :: (before ++ (due ++ behind)))))

/-- The data are of words, and there are not more of them than a word can count. -/
structure Fits (changeovers : List (List Int)) (stockingCosts : List Int) (demands : List (List Int)) : Prop where
  numbers : ∀ x ∈ changeovers.flatten ++ stockingCosts ++ demands.flatten, x ≤ Word.maxInteger
  items : (stockingCosts.length : Int) ≤ Word.maxInteger
  periods : ∀ row ∈ demands, (row.length : Int) ≤ Word.maxInteger

theorem numbers?_of_writes {row : List Int} (h : Writes Integer row line)
    (fits : ∀ x ∈ row, 0 ≤ x ∧ x ≤ Word.maxInteger) : numbers? integer? line = some row :=
  Reader.numbers?_of_writes h fun _ x hx isInteger =>
    ⟨isInteger.isWord, isInteger.read ⟨le_trans (by decide) (fits x hx).1, (fits x hx).2⟩⟩

theorem numbers?_table (numItems : Nat) (written : List.Forall₂ (Writes Integer) rows lines)
    (sound : ∀ row ∈ rows, row.length = numItems ∧ ∀ x ∈ row, 0 ≤ x ∧ x ≤ Word.maxInteger) :
    Reader.Table integer? numItems rows lines :=
  ((List.forall₂_and_left _ _).mpr ⟨sound, written⟩).imp fun _ _ h => ⟨numbers?_of_writes h.2 h.1.2, h.1.1⟩

/-- What is left out is filled in again. -/
theorem exists_given {demands : List (List Int)} (h : List.Forall₂ Due demands lines)
    (sound : ∀ row ∈ demands, row.length = horizon ∧ ∀ x ∈ row, 0 ≤ x ∧ x ≤ Word.maxInteger) :
    ∃ given, given.map (fill horizon) = demands ∧ List.Forall₂ (fun row line =>
      numbers? integer? line = some row ∧ 0 < row.length ∧ row.length ≤ horizon) given lines := by
  induction h with
  | nil => exact ⟨[], rfl, .nil⟩
  | @cons row line rows lines here _ ih =>
    obtain ⟨⟨length, fits⟩, sound⟩ := List.forall_mem_cons.mp sound
    obtain ⟨given, filled, written⟩ := ih sound
    obtain ⟨first, zeros, rfl, ne, hfirst⟩ := here
    rw [List.length_append, List.length_replicate] at length
    refine ⟨first :: given, ?_, .cons ⟨numbers?_of_writes hfirst fun x hx => fits x (List.mem_append_left _ hx),
      List.length_pos_iff.mpr ne, by omega⟩ written⟩
    rw [List.map_cons, filled, fill, ← length, Nat.add_sub_cancel_left]

/-- **What is written is read as the instance that is made of it.** -/
theorem parse_layout {text : String} {changeovers demands : List (List Int)} {stockingCosts : List Int}
    {p : Instance} {numOrders : Nat} (made : Instance.ofRows changeovers stockingCosts demands = .ok p)
    (fits : Fits changeovers stockingCosts demands) (orders : (numOrders : Int) ≤ Word.maxInteger)
    (h : Describes changeovers stockingCosts demands numOrders (Lines.cut text.toList)) :
    parse text.toUTF8 = .ok p := by
  obtain ⟨hchangeovers, rfl, hdemands⟩ := of_ofRows made
  obtain ⟨numChangeovers, changeoverColumns, changeoverEntries⟩ := Matrix.of_ofRows? hchangeovers
  obtain ⟨numDemands, demandColumns, demandEntries⟩ := Matrix.of_ofRows? hdemands
  have data := p.data
  have items : changeovers.length = p.stockingCosts.length := numChangeovers.symm.trans data.changeoverRows
  have due : demands.length = p.stockingCosts.length := numDemands.symm.trans data.demandRows
  have pos : 0 < p.stockingCosts.length := Nat.pos_of_ne_zero data.items
  have words : ∀ x ∈ changeovers.flatten ++ p.stockingCosts ++ demands.flatten, 0 ≤ x ∧ x ≤ Word.maxInteger :=
    fun x hx => ⟨data.nonneg x (by rwa [changeoverEntries, demandEntries]), fits.numbers x hx⟩
  generalize hcut : Lines.cut text.toList = lines at h
  cases h with
  | @intro horizon _ _ _ _ _ gap _ before lines behind rectangular hperiods hitems horders hgap htable hseparator hcosts
      hbefore hdue hbehind =>
    obtain ⟨row, hrow⟩ := List.exists_mem_of_length_pos (due ▸ pos)
    have periods : (horizon : Int) ≤ Word.maxInteger := rectangular row hrow ▸ fits.periods row hrow
    -- what is on the lines
    have table := numbers?_table p.stockingCosts.length htable fun row hrow =>
      ⟨(changeoverColumns row hrow).trans data.changeoverColumns, fun x hx =>
        words x (List.mem_append_left _ (List.mem_append_left _ (List.mem_flatten.mpr ⟨row, hrow, hx⟩)))⟩
    have costs := numbers?_of_writes hcosts fun x hx =>
      words x (List.mem_append_left _ (List.mem_append_right _ hx))
    obtain ⟨given, filled, written⟩ := exists_given hdue fun row hrow =>
      ⟨rectangular row hrow, fun x hx => words x (List.mem_append_right _ (List.mem_flatten.mpr ⟨row, hrow, hx⟩))⟩
    have numGiven : given.length = p.stockingCosts.length := by rw [← due, ← filled, List.length_map]
    -- how they are read
    rw [← items] at table
    obtain ⟨number, changeoversRead⟩ := readChangeovers_eq 3 table (items ▸ pos) hgap hseparator
    rw [items] at changeoversRead
    obtain ⟨number', skipped⟩ := demandRows_begin (number + 1) hbefore
    have demandsRead := skipped.trans (demandRows_eq number' false written numGiven.le hbehind)
    have read : readInstance (Lines.left 0 (Lines.cut text.toList)) =
        .ok p (Lines.left (number + 1) (before ++ (lines ++ behind))) := by
      rw [hcut, readInstance, bind_of_ok (Reader.count_left hperiods periods), bind_of_ok (Reader.count_left hitems
        fits.items), bind_of_ok (Reader.count_left horders orders), bind_of_ok changeoversRead,
        bind_of_ok (Reader.expect_left ..), Reader.exactly_eq costs]
      refine (bind_of_ok rfl).trans ((bind_of_ok rfl).trans ?_)
      refine (bind_of_ok (congrFun (congrArg Reader.ofExcept demandsRead) _)).trans ?_
      rw [numGiven, Nat.sub_self, List.replicate_zero, List.append_nil, filled, made]
      rfl
    rw [parse, Lines.ofBytes_toUTF8_eq_left, read]

theorem writes_digit (c : Char) (h : c.isDigit = true) : Writes Integer [(numeral [c] : Int)] [c] :=
  .single blank_nil (isInteger_digit h)

/-- Two items in two periods.  The first item is not demanded in the second period, which is left out. -/
def couple : String := "2\n2\n3\n0 5\n5\t0\n \n1 2\n\n1\n0 1\n\n"

theorem cut_couple : Lines.cut couple.toList = [['2'], ['2'], ['3'], ['0', ' ', '5'], ['5', '\t', '0'], [' '],
    ['1', ' ', '2'], [], ['1'], ['0', ' ', '1'], []] := by decide +kernel

theorem describes_couple : Describes [[0, 5], [5, 0]] [1, 2] [[1, 0], [0, 1]] 3 (Lines.cut couple.toList) := by
  have two (c gap d : Char) (h : c.isDigit = true ∧ d.isDigit = true ∧ isBlank gap = true) :
      Writes Integer [(numeral [c] : Int), (numeral [d] : Int)] [c, gap, d] :=
    .cons blank_nil (isInteger_digit h.1) (blank_singleton.mpr h.2.2) (by simp) (writes_digit d h.2.1)
  have table : List.Forall₂ (Writes Integer) [[0, 5], [5, 0]] [['0', ' ', '5'], ['5', '\t', '0']] :=
    .cons (two '0' ' ' '5' ⟨rfl, rfl, rfl⟩) (.cons (two '5' '\t' '0' ⟨rfl, rfl, rfl⟩) .nil)
  have due : List.Forall₂ Due [[1, 0], [0, 1]] [['1'], ['0', ' ', '1']] :=
    .cons ⟨[1], 1, rfl, by simp, writes_digit '1' rfl⟩
      (.cons ⟨[0, 1], 0, rfl, by simp, two '0' ' ' '1' ⟨rfl, rfl, rfl⟩⟩ .nil)
  have empty : ∀ line ∈ ([[]] : List (List Char)), Blank line := by simp [Blank]
  have periods : ∀ row ∈ ([[1, 0], [0, 1]] : List (List Int)), row.length = 2 := by simp
  have items : Writes Integer [(([1, 2] : List Int).length : Int)] ['2'] := writes_digit '2' rfl
  have separator : Blank [' '] := blank_singleton.mpr rfl
  rw [cut_couple]
  exact .intro periods (writes_digit '2' rfl) items (writes_digit '3' rfl) (.inl rfl) table separator
    (two '1' ' ' '2' ⟨rfl, rfl, rfl⟩) empty due empty

theorem parse_layout_couple : ∃ p : Instance, p.numItems = 2 ∧ p.horizon = 2 ∧ parse couple.toUTF8 = .ok p := by
  obtain ⟨p, made, items, periods⟩ : ∃ p : Instance, Instance.ofRows [[0, 5], [5, 0]] [1, 2] [[1, 0], [0, 1]] = .ok p ∧
      p.numItems = 2 ∧ p.horizon = 2 := ⟨_, rfl, rfl, rfl⟩
  have fits : Fits [[0, 5], [5, 0]] [1, 2] [[1, 0], [0, 1]] := ⟨by decide, by decide, by decide⟩
  exact ⟨p, items, periods, parse_layout made fits (by decide) describes_couple⟩

/-- One item, and one order more than a word can count. -/
def crowded : String := "1\n1\n9223372036854775808\n0\n\n0\n1\n"

theorem cut_crowded : Lines.cut crowded.toList = [['1'], ['1'], "9223372036854775808".toList, ['0'], [], ['0'],
    ['1']] := by decide +kernel

/-- **The number of orders is not used, but it has to be a word.** -/
theorem refuses_crowded : (∃ p, Instance.ofRows [[0]] [0] [[1]] = .ok p) ∧ Fits [[0]] [0] [[1]] ∧
    Describes [[0]] [0] [[1]] 9223372036854775808 (Lines.cut crowded.toList) ∧
    parse crowded.toUTF8 = .error (.notANumber 3 "9223372036854775808".toList) := by
  refine ⟨⟨_, rfl⟩, ⟨by decide, by decide, by decide⟩, ?_, ?_⟩
  · have orders : Integer "9223372036854775808".toList 9223372036854775808 := .plain (by decide) rfl
    have due : List.Forall₂ Due [[1]] [['1']] := .cons ⟨[1], 0, rfl, by simp, writes_digit '1' rfl⟩ .nil
    have none : ∀ line ∈ ([] : List (List Char)), Blank line := by simp
    have periods : ∀ row ∈ ([[1]] : List (List Int)), row.length = 1 := by simp
    have items : Writes Integer [(([0] : List Int).length : Int)] ['1'] := writes_digit '1' rfl
    rw [cut_crowded]
    exact .intro periods (writes_digit '1' rfl) items (.single blank_nil orders) (.inl rfl)
      (.cons (writes_digit '0' rfl) .nil) blank_nil (writes_digit '0' rfl) none due none
  · rw [parse, Lines.ofBytes_toUTF8_eq_left]
    decide +kernel

end BranchBound.LotSizing
