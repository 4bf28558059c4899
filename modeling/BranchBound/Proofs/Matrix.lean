import BranchBound.Proofs.Tables

/-! # Matrices of rows

**The rows of a matrix that is made of rows are these rows** (`Matrix.rows_of_ofRows?`), and its entries are theirs
(`Matrix.get?_of_rows`). -/
namespace BranchBound
namespace Matrix
variable {α : Type} {m : Matrix α} {rows : List (List α)} {row : List α} {i j n : Nat}

theorem of_ofRows? (h : ofRows? rows = some m) :
    m.numRows = rows.length ∧ (∀ row ∈ rows, row.length = m.numColumns) ∧ m.toList = rows.flatten := by
  unfold ofRows? at h
  dsimp only at h
  split at h
  · rename_i same
    split at h
    · cases h
      exact ⟨rfl, fun row hrow => of_decide_eq_true (List.all_eq_true.mp same row hrow), rfl⟩
    · cases h
  · cases h

/-- A row is found where the rows before it end. -/
theorem take_drop_flatten (same : ∀ row ∈ rows, row.length = n) (h : rows[i]? = some row) :
    (rows.flatten.drop (i * n)).take n = row := by
  induction rows generalizing i with
  | nil => cases h
  | cons first rows ih =>
    have length := same first List.mem_cons_self
    cases i with
    | zero =>
      obtain rfl : first = row := Option.some.inj h
      rw [Nat.zero_mul, List.drop_zero, List.flatten_cons, ← length, List.take_left]
    | succ i =>
      rw [List.flatten_cons, Nat.succ_mul, Nat.add_comm, ← List.drop_drop, ← length, List.drop_left, length]
      exact ih (fun row hrow => same row (List.mem_cons_of_mem _ hrow)) h

theorem length_rows (m : Matrix α) : m.rows.length = m.numRows := by
  have found : ∀ i ∈ List.range m.numRows, m.row? i = some ((m.row? i).getD []) := fun i hi => by
    obtain ⟨row, hrow, -⟩ := exists_row? (List.mem_range.mp hi)
    rw [hrow]
    rfl
  rw [Matrix.rows, filterMap_eq_of_some found, List.length_map, List.length_range]

/-- **The rows of a matrix that is made of rows are these rows.** -/
theorem rows_of_ofRows? (h : ofRows? rows = some m) : m.rows = rows := by
  obtain ⟨numRows, same, entries⟩ := of_ofRows? h
  refine List.ext_getElem? fun i => ?_
  by_cases hi : i < m.numRows
  · obtain ⟨row, hrow⟩ : ∃ row, rows[i]? = some row := ⟨_, List.getElem?_eq_getElem (numRows ▸ hi)⟩
    obtain ⟨row', hrow', -⟩ := exists_row? hi
    rw [getElem?_rows hi, hrow', row?_eq_some hrow', entries, take_drop_flatten same hrow, hrow]
  · rw [List.getElem?_eq_none (m.length_rows.symm ▸ Nat.le_of_not_lt hi),
      List.getElem?_eq_none (numRows ▸ Nat.le_of_not_lt hi)]

/-- The entries of a matrix are those of its rows. -/
theorem get?_of_rows (hi : i < m.numRows) (hj : j < m.numColumns) (h : m.rows[i]? = some row) :
    m.get? i j = row[j]? := by
  rw [getElem?_rows hi] at h
  rw [row?_eq_some h, List.getElem?_take_of_lt hj, List.getElem?_drop, toList, Array.getElem?_toList]
  rfl

end Matrix
end BranchBound
