import BranchBound.LotSizing.Format
import BranchBound.Proofs.Format.Lines
import BranchBound.Proofs.LotSizing.Plan
import BranchBound.Proofs.Matrix

/-! # Files that were read

A text that is accepted begins with three counts, the changeover costs and the stocking costs (`Header`), each where
the format has it (`of_readInstance`).  **Behind them it has at most one line of demands for every item, and whatever
is not on these lines is not demanded** (`parse_demands`): nobody asks whether there is a line for every item, and
what comes behind a blank line is not looked at.  So a text that ends too early is accepted for an instance that
demands less than it was meant to (`accepts_truncated`). -/
namespace BranchBound.LotSizing
open Reader (numbers?)

variable {horizon numItems numRead : Nat} {begun : Bool} {lines lines' : Lines} {line last : Line}
  {rows : List (List Int)} {rest : List (Option (List Char))} {texts : List (List Char)}

/-- What is on lines that hold nothing but numbers, of which each has one. -/
structure Lists (texts : List (List Char)) (rows : List (List Int)) : Prop where
  ne_nil : ∀ text ∈ texts, text ≠ []
  numbers_eq : texts.map (numbers? Text.integer?) = rows.map some

theorem lists_nil : Lists [] [] := ⟨fun _ h => (by cases h), rfl⟩

theorem Lists.cons {text : List Char} {row : List Int} (h : Lists texts rows) (ne : text ≠ [])
    (numbers : numbers? Text.integer? text = some row) : Lists (text :: texts) (row :: rows) where
  ne_nil := List.forall_mem_cons.mpr ⟨ne, h.ne_nil⟩
  numbers_eq := by rw [List.map_cons, List.map_cons, numbers, h.numbers_eq]

theorem Lists.length_eq (h : Lists texts rows) : texts.length = rows.length := by
  have := congrArg List.length h.numbers_eq
  rwa [List.length_map, List.length_map] at this

theorem Lists.getElem?_eq (h : Lists texts rows) (i : Nat) :
    (texts[i]?).bind (numbers? Text.integer?) = rows[i]? := by
  have entry := congrArg (·[i]?) h.numbers_eq
  simp only [List.getElem?_map] at entry
  cases hi : texts[i]? with
  | none =>
    rw [hi] at entry
    exact (Option.map_eq_none_iff.mp entry.symm).symm
  | some text =>
    rw [hi] at entry
    cases hrow : rows[i]? with
    | none =>
      rw [hrow] at entry
      cases entry
    | some row =>
      rw [hrow] at entry
      exact Option.some.inj entry

/-- The rows go on until a blank line. -/
theorem of_rowsFrom (h : rowsFrom numItems line rest = .ok (rows, last) lines') : ∃ texts, Lists texts rows ∧
    some line.text :: rest = texts.map some ++ some [] :: lines'.rest := by
  induction rest generalizing line rows with
  | nil =>
    unfold rowsFrom at h
    split at h
    · rename_i blank
      cases h
      exact ⟨[], lists_nil, by rw [List.isEmpty_iff.mp blank]; rfl⟩
    · split at h <;> cases h
  | cons next rest ih =>
    unfold rowsFrom at h
    split at h
    · rename_i blank
      cases h
      exact ⟨[], lists_nil, by rw [List.isEmpty_iff.mp blank]; rfl⟩
    · rename_i ne
      split at h
      · cases h
      · rename_i row hrow
        cases next with
        | none => cases h
        | some text =>
          dsimp only at h
          split at h
          · cases h
          · rename_i rows' last' lines'' later
            cases h
            obtain ⟨texts, lists, same⟩ := ih later
            refine ⟨line.text :: texts, lists.cons (mt List.isEmpty_iff.mpr ne) (Reader.of_exactly hrow).1, ?_⟩
            rw [same]
            rfl

theorem of_changeoverRows {start : Line} (h : (do
      let (rows, last) ← fun lines => rowsFrom numItems start lines.rest
      if rows.length = numItems then return rows
      else throw (.wrongNumValues last.number numItems rows.length) : Reader _) lines = .ok rows lines') :
    ∃ texts, Lists texts rows ∧ rows.length = numItems ∧
      some start.text :: lines.rest = texts.map some ++ some [] :: lines'.rest := by
  obtain ⟨⟨rows', last⟩, read, hrows, h⟩ := bind_eq_ok h
  obtain ⟨texts, lists, same⟩ := of_rowsFrom hrows
  dsimp only at h
  split at h
  · rename_i length
    cases h
    exact ⟨texts, lists, length, same⟩
  · cases h

/-- There may be a blank line in front of the changeover costs, and there is one behind them. -/
theorem of_readChangeovers (h : readChangeovers numItems lines = .ok rows lines') : ∃ blank texts,
    (blank = [] ∨ blank = [[]]) ∧ Lists texts rows ∧ rows.length = numItems ∧
      lines.rest = (blank ++ texts).map some ++ some [] :: lines'.rest := by
  obtain ⟨first, read, hfirst, h⟩ := bind_eq_ok h
  have used := Reader.of_expect hfirst
  dsimp only at h
  split at h
  · rename_i blank
    obtain ⟨start, read', hstart, h⟩ := bind_eq_ok h
    obtain ⟨texts, lists, length, same⟩ := of_changeoverRows h
    refine ⟨[[]], texts, .inr rfl, lists, length, ?_⟩
    rw [used, Reader.of_expect hstart, same, List.isEmpty_iff.mp blank]
    rfl
  · obtain ⟨start, read', hstart, h⟩ := bind_eq_ok h
    cases hstart
    obtain ⟨texts, lists, length, same⟩ := of_changeoverRows h
    exact ⟨[], texts, .inl rfl, lists, length, used.trans same⟩

theorem of_demandRow {row : List Int} (h : demandRow horizon line = .ok row) :
    numbers? Text.integer? line.text = some row ∧ row.length ≤ horizon := by
  obtain ⟨row', hrow, h⟩ := Reader.of_bind h
  split at h
  · rename_i length
    cases h
    exact ⟨Reader.of_values hrow, length⟩
  · cases h

/-- **The demands are on the first lines that are not blank**, until the lines end or one is blank. -/
theorem of_demandRows (h : demandRows horizon numRead begun numItems (texts.map some) = .ok rows) :
    ∃ blanks given ignored, texts = List.replicate blanks [] ++ given ++ ignored ∧ Lists given rows ∧
      rows.length ≤ numItems ∧ (∀ row ∈ rows, row.length ≤ horizon) ∧ (begun = true → blanks = 0) ∧
      (ignored = [] ∨ (begun = true ∨ given ≠ []) ∧ ∃ more, ignored = [] :: more) := by
  induction texts generalizing begun numItems numRead rows with
  | nil =>
    cases h
    exact ⟨0, [], [], rfl, lists_nil, Nat.zero_le _, fun _ h => (by cases h), fun _ => rfl, .inl rfl⟩
  | cons text texts ih =>
    rw [List.map_cons, demandRows.eq_def] at h
    dsimp only at h
    split at h
    · rename_i blank
      obtain rfl := List.isEmpty_iff.mp blank
      cases begun with
      | true =>
        cases h
        exact ⟨0, [], [] :: texts, rfl, lists_nil, Nat.zero_le _, fun _ h => (by cases h), fun _ => rfl,
          .inr ⟨.inl rfl, texts, rfl⟩⟩
      | false =>
        obtain ⟨blanks, given, ignored, rfl, lists, length, short, -, stop⟩ := ih h
        exact ⟨blanks + 1, given, ignored, rfl, lists, length, short, nofun, stop⟩
    · rename_i ne
      cases numItems with
      | zero => cases h
      | succ numItems =>
        obtain ⟨row, hrow, h⟩ := Reader.of_bind h
        obtain ⟨later, hlater, h⟩ := Reader.of_bind h
        cases h
        obtain ⟨blanks, given, ignored, rfl, lists, length, short, none, stop⟩ := ih hlater
        obtain rfl := none rfl
        obtain ⟨numbers, fits⟩ := of_demandRow hrow
        refine ⟨0, text :: given, ignored, rfl, lists.cons (mt List.isEmpty_iff.mpr ne) numbers,
          Nat.succ_le_succ length, List.forall_mem_cons.mpr ⟨fits, short⟩, fun _ => rfl, ?_⟩
        exact stop.imp_right fun stopped => ⟨.inr nofun, stopped.2⟩

/-! ## Instances that are read -/

theorem of_ofRows {changeovers demands : List (List Int)} {stockingCosts : List Int} {p : Instance}
    (h : Instance.ofRows changeovers stockingCosts demands = .ok p) :
    Matrix.ofRows? changeovers = some p.changeovers ∧ p.stockingCosts = stockingCosts ∧
      Matrix.ofRows? demands = some p.demands := by
  unfold Instance.ofRows at h
  dsimp only at h
  split at h
  · rename_i hchangeovers hdemands
    split at h
    · cases h
    · cases h
      exact ⟨hchangeovers, rfl, hdemands⟩
  · split at h
    · cases h
    · split at h <;> cases h
  · cases h

theorem length_fill {row : List Int} (h : row.length ≤ horizon) : (fill horizon row).length = horizon := by
  rw [fill, List.length_append, List.length_replicate]
  omega

theorem getElem?_fill (row : List Int) {period : Nat} (h : period < horizon) :
    (fill horizon row)[period]? = some (row[period]?.getD 0) := by
  rw [fill, List.getElem?_append]
  split
  · rename_i inside
    rw [List.getElem?_eq_getElem inside]
    rfl
  · rename_i outside
    rw [List.getElem?_eq_none (Nat.le_of_not_lt outside), List.getElem?_replicate, if_pos (by omega)]
    rfl

/-- The demands of all items, when some are given. -/
def completed (horizon numItems : Nat) (rows : List (List Int)) : List (List Int) :=
  (rows ++ List.replicate (numItems - rows.length) []).map (fill horizon)

theorem length_completed (h : rows.length ≤ numItems) : (completed horizon numItems rows).length = numItems := by
  rw [completed, List.length_map, List.length_append, List.length_replicate]
  omega

theorem length_of_mem_completed {row : List Int} (short : ∀ row ∈ rows, row.length ≤ horizon)
    (h : row ∈ completed horizon numItems rows) : row.length = horizon := by
  obtain ⟨given, hgiven, rfl⟩ := List.mem_map.mp h
  refine length_fill ?_
  rcases List.mem_append.mp hgiven with hgiven | hgiven
  · exact short given hgiven
  · rw [List.eq_of_mem_replicate hgiven]
    exact Nat.zero_le _

/-- What is not given is not demanded. -/
theorem getElem?_completed (rows : List (List Int)) {item period : Nat} (hi : item < numItems)
    (ht : period < horizon) :
    ((completed horizon numItems rows)[item]?).bind (·[period]?) =
      some (((rows[item]?).bind (·[period]?)).getD 0) := by
  rw [completed, List.getElem?_map, List.getElem?_append]
  split
  · rename_i given
    rw [List.getElem?_eq_getElem given]
    exact getElem?_fill _ ht
  · rename_i missing
    rw [List.getElem?_eq_none (Nat.le_of_not_lt missing), List.getElem?_replicate, if_pos (by omega)]
    exact getElem?_fill [] ht

/-- **An instance is made of what is read**, and of the demands that are completed. -/
theorem of_ofRows_completed {changeovers : List (List Int)} {stockingCosts : List Int} {p : Instance}
    (h : Instance.ofRows changeovers stockingCosts (completed horizon numItems rows) = .ok p)
    (items : stockingCosts.length = numItems) (length : rows.length ≤ numItems)
    (short : ∀ row ∈ rows, row.length ≤ horizon) :
    p.horizon = horizon ∧ p.numItems = numItems ∧ p.changeovers.rows = changeovers ∧
      p.stockingCosts = stockingCosts ∧ p.demands.rows = completed horizon numItems rows := by
  obtain ⟨hchangeovers, stocking, hdemands⟩ := of_ofRows h
  have sameItems : p.numItems = numItems := by
    rw [Instance.numItems, stocking, items]
  have pos : 0 < (completed horizon numItems rows).length := by
    rw [length_completed length, ← sameItems]
    exact Nat.pos_of_ne_zero p.data.items
  obtain ⟨row, hrow⟩ := List.exists_mem_of_length_pos pos
  have periods : p.horizon = horizon := by
    rw [Instance.horizon, ← (Matrix.of_ofRows? hdemands).2.1 row hrow, length_of_mem_completed short hrow]
  exact ⟨periods, sameItems, Matrix.rows_of_ofRows? hchangeovers, stocking, Matrix.rows_of_ofRows? hdemands⟩

/-- What stands in front of the demands: three counts, the changeover costs, in front of which there may be a blank
line, a blank line, and the stocking costs. -/
def Header (p : Instance) (texts : List (List Char)) : Prop :=
  ∃ horizon items orders blank changeovers stocking,
    texts = [horizon, items, orders] ++ (blank ++ changeovers) ++ [[], stocking] ∧
    Text.integer? horizon = some (p.horizon : Int) ∧ Text.integer? items = some (p.numItems : Int) ∧
    (∃ n : Nat, Text.integer? orders = some (n : Int)) ∧ (blank = [] ∨ blank = [[]]) ∧
    Lists changeovers p.changeovers.rows ∧ numbers? Text.integer? stocking = some p.stockingCosts

theorem of_readInstance {p : Instance} (h : readInstance { rest := texts.map some } = .ok p lines') :
    ∃ header left numRead rows, texts = header ++ left ∧ Header p header ∧
      demandRows p.horizon numRead false p.numItems (left.map some) = .ok rows ∧
      p.demands.rows = completed p.horizon p.numItems rows := by
  obtain ⟨horizon, lines₁, h₁, next₁⟩ := bind_eq_ok h
  obtain ⟨numItems, lines₂, h₂, next₂⟩ := bind_eq_ok next₁
  obtain ⟨numOrders, lines₃, h₃, next₃⟩ := bind_eq_ok next₂
  obtain ⟨changeovers, lines₄, h₄, next₄⟩ := bind_eq_ok next₃
  obtain ⟨line, lines₅, h₅, next₅⟩ := bind_eq_ok next₄
  obtain ⟨stockingCosts, lines₆, h₆, next₆⟩ := bind_eq_ok next₅
  obtain ⟨lines₇, lines₈, h₇, next₇⟩ := bind_eq_ok next₆
  cases h₇
  obtain ⟨rows, lines₉, h₉, next₉⟩ := bind_eq_ok next₇
  -- what is on the lines
  obtain ⟨text₁, used₁, isHorizon⟩ := Reader.of_count h₁
  obtain ⟨text₂, used₂, isNumItems⟩ := Reader.of_count h₂
  obtain ⟨text₃, used₃, isNumOrders⟩ := Reader.of_count h₃
  obtain ⟨blank, changeoverTexts, hblank, lists, -, used₄⟩ := of_readChangeovers h₄
  obtain ⟨hexactly, same⟩ := Reader.of_ofExcept h₆
  obtain ⟨isStocking, numStocking⟩ := Reader.of_exactly hexactly
  have used : texts.map some =
      ([text₁, text₂, text₃] ++ (blank ++ changeoverTexts) ++ [[], line.text]).map some ++ lines₆.rest := by
    change texts.map some = _ at used₁
    rw [used₁, used₂, used₃, used₄, Reader.of_expect h₅, same]
    simp
  obtain ⟨left, htexts, hleft⟩ := Lines.exists_left used
  obtain ⟨hdemands, -⟩ := Reader.of_ofExcept h₉
  rw [hleft] at hdemands
  obtain ⟨-, -, -, -, -, length, short, -⟩ := of_demandRows hdemands
  -- what is made of them
  dsimp only at next₉
  rw [← completed] at next₉
  cases made : Instance.ofRows changeovers stockingCosts (completed horizon numItems rows) with
  | error cause =>
    rw [made] at next₉
    cases next₉
  | ok q =>
    rw [made] at next₉
    cases next₉
    obtain ⟨rfl, rfl, hchangeovers, stocking, demands⟩ := of_ofRows_completed made numStocking length short
    refine ⟨_, left, _, rows, htexts, ⟨text₁, text₂, text₃, blank, changeoverTexts, line.text, rfl, isHorizon,
      isNumItems, ⟨numOrders, isNumOrders⟩, hblank, ?_, ?_⟩, hdemands, demands⟩
    · rw [hchangeovers]
      exact lists
    · rw [stocking]
      exact isStocking

/-- What lines demand of an item in a period: nothing behind the end of its line or without one. -/
def demanded (given : List (List Char)) (item period : Nat) : Int :=
  ((given[item]?.bind (numbers? Text.integer?)).bind fun row => row[period]?).getD 0

/-- **What is read of a text that is accepted.**  Behind the stocking costs there are any number of blank lines and at
most one line for every item, in their order, and what these lines do not say is not demanded.  Nothing else is read
of the text, which ends there or goes on with a blank line. -/
theorem parse_demands {text : String} {p : Instance} (h : parse text.toUTF8 = .ok p) :
    ∃ header blanks given ignored, Lines.ofText text = header ++ List.replicate blanks [] ++ given ++ ignored ∧
      Header p header ∧
      (∀ line ∈ given, line ≠ [] ∧ ∃ row, numbers? Text.integer? line = some row ∧ row.length ≤ p.horizon) ∧
      given.length ≤ p.numItems ∧ (ignored = [] ∨ given ≠ [] ∧ ∃ more, ignored = [] :: more) ∧
      ∀ item period, item < p.numItems → period < p.horizon →
        p.demands.get? item period = some (demanded given item period) := by
  unfold parse at h
  rw [Lines.ofBytes_toUTF8] at h
  split at h
  · rename_i hread
    cases h
    obtain ⟨header, left, numRead, rows, htexts, isHeader, hdemands, hrows⟩ := of_readInstance hread
    obtain ⟨blanks, given, ignored, rfl, lists, length, short, -, stop⟩ := of_demandRows hdemands
    refine ⟨header, blanks, given, ignored, by rw [htexts]; simp, isHeader, fun line hline => ?_,
      lists.length_eq ▸ length, stop.imp_right fun stopped => ⟨stopped.1.resolve_left nofun, stopped.2⟩,
      fun item period hi ht => ?_⟩
    · obtain ⟨i, hi⟩ := List.mem_iff_getElem?.mp hline
      have row := lists.getElem?_eq i
      rw [hi, Option.bind_some] at row
      obtain ⟨numbers, hnumbers⟩ : ∃ numbers, rows[i]? = some numbers :=
        ⟨_, List.getElem?_eq_getElem (lists.length_eq ▸ (List.getElem?_eq_some_iff.mp hi).1)⟩
      exact ⟨lists.ne_nil line hline, numbers, row.trans hnumbers, short numbers (List.mem_of_getElem? hnumbers)⟩
    · have known : item < p.demands.numRows := p.data.demandRows.symm ▸ hi
      obtain ⟨row, hrow, -⟩ := Matrix.exists_row? known
      rw [← Matrix.getElem?_rows known] at hrow
      have entry := getElem?_completed rows hi ht
      rw [← hrows, hrow, Option.bind_some] at entry
      rw [Matrix.get?_of_rows known ht hrow, entry, demanded, lists.getElem?_eq]
  · cases h

/-- Two items, and demands of the first. -/
def truncated : String := "2\n2\n1\n\n0 1\n1 0\n\n1 1\n\n0 1\n"

theorem truncated_accepted : ∃ p, parse truncated.toUTF8 = .ok p ∧ p.numItems = 2 := by
  have read : (match parse truncated.toUTF8 with
      | .ok p => p.numItems == 2
      | .error _ => false) = true := by decide +kernel
  cases made : parse truncated.toUTF8 with
  | error cause =>
    rw [made] at read
    cases read
  | ok p =>
    rw [made] at read
    exact ⟨p, rfl, eq_of_beq read⟩

theorem parse_demands_truncated : ∃ p, parse truncated.toUTF8 = .ok p ∧ ∃ header blanks given ignored,
    Lines.ofText truncated = header ++ List.replicate blanks [] ++ given ++ ignored ∧ Header p header ∧
      given.length ≤ p.numItems := by
  obtain ⟨p, read, -⟩ := truncated_accepted
  obtain ⟨header, blanks, given, ignored, texts, isHeader, -, length, -⟩ := parse_demands read
  exact ⟨p, read, header, blanks, given, ignored, texts, isHeader, length⟩

/-! ## Texts that are not complete -/

/-- The lines that are not blank. -/
def inked (texts : List (List Char)) : List (List Char) := texts.filter (!·.isEmpty)

/-- Behind the header there is, apart from blank lines, a line for every item, and it holds the demands. -/
def Complete (p : Instance) (texts : List (List Char)) : Prop := ∃ header further,
  texts = header ++ further ∧ Header p header ∧ (inked further).length = p.numItems ∧
    ∀ item period, item < p.numItems → period < p.horizon →
      p.demands.get? item period = some (demanded (inked further) item period)

theorem inked_append {texts' : List (List Char)} : inked (texts ++ texts') = inked texts ++ inked texts' :=
  List.filter_append _ _

theorem inked_singleton {text : List Char} (h : text ≠ []) : inked [text] = [text] :=
  List.filter_cons_of_pos (by simpa using h)

theorem Lists.inked_eq (h : Lists texts rows) : inked texts = texts :=
  List.filter_eq_self.mpr fun text htext => by simpa using h.ne_nil text htext

/-- A header has a line that is not blank for every count and for the stocking costs, and one for every item. -/
theorem Header.length_inked {p : Instance} (h : Header p texts) : (inked texts).length = p.numItems + 4 := by
  obtain ⟨horizon, items, orders, blank, changeovers, stocking, rfl, isHorizon, isItems, ⟨n, isOrders⟩, hblank,
    lists, isStocking⟩ := h
  have count {text : List Char} {n : Int} (h : Text.integer? text = some n) : text ≠ [] := by
    rintro rfl
    cases h
  have costs : stocking ≠ [] := by
    rintro rfl
    exact p.data.items (congrArg List.length (Option.some.inj isStocking)).symm
  have rows : changeovers.length = p.numItems := by
    rw [lists.length_eq, Matrix.length_rows, p.data.changeoverRows]
  have noInk : inked blank = [] := by
    rcases hblank with rfl | rfl <;> rfl
  have counts : inked [horizon, items, orders] = [horizon, items, orders] :=
    List.filter_eq_self.mpr (by simpa using ⟨count isHorizon, count isItems, count isOrders⟩)
  have last : inked [[], stocking] = [stocking] := inked_singleton costs
  rw [inked_append, inked_append, inked_append, counts, noInk, lists.inked_eq, last]
  simp only [List.length_append, List.length_cons, List.length_nil, rows]
  omega

/-- **A text without a line of demands for every item is accepted.** -/
theorem accepts_truncated : ∃ p, parse truncated.toUTF8 = .ok p ∧ ¬ Complete p (Lines.ofText truncated) := by
  obtain ⟨p, read, items⟩ := truncated_accepted
  refine ⟨p, read, ?_⟩
  rintro ⟨header, further, texts, isHeader, length, -⟩
  have seven : (inked (Lines.ofText truncated)).length = 7 := by decide +kernel
  rw [texts, inked_append, List.length_append, isHeader.length_inked, length, items] at seven
  cases seven

end BranchBound.LotSizing
