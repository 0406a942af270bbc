import ExactCover.Proofs.Matrix.Ring
import ExactCover.Proofs.Sudoku.House
import ExactCover.Proofs.Sudoku.Text
import ExactCover.Sudoku.Board.Rows

/-!
# Grids of numbers

The faults of rows of numbers are given here apart from the two readers of boards, each fault with
its place in reading order. One reader takes rows of any shape and looks at their number, at the
length of each row and then at its values; the other one takes nine rows of nine bytes and looks for
a byte above nine. Both report the first of all faults, and rows without a fault are those of a
board.

## Key results

- `isFirst_of_ofRows`, `isFirst_of_firstOutOfRange`: what a reader reports is the first fault
- `exists_toRows_eq`: rows that fit are those of a board
- `ofBytes_eq`: the readers agree
- `grids_read`: what the readers accept, and what they report otherwise
-/

namespace ExactCover.Sudoku

/-! ## Faults -/

namespace ShapeError

/-- The faults of rows of numbers: their number, the length of each of them, and each number above
    nine. -/
inductive Occurs (rows : List (List Nat)) : ShapeError → Prop where
  | rowCount (h : rows.length ≠ 9) : Occurs rows (.wrongRowCount rows.length)
  | rowLength {row : Nat} {values : List Nat} (hrow : rows[row]? = some values)
      (h : values.length ≠ 9) : Occurs rows (.wrongRowLength row values.length)
  | value {row col value : Nat} {values : List Nat} (hrow : rows[row]? = some values)
      (hcol : values[col]? = some value) (h : 9 < value) :
      Occurs rows (.valueOutOfRange row col value)

/-- The place of a fault. Places are compared as words in a dictionary are: the number of rows comes
    before all rows, and the length of a row before its values. -/
def place : ShapeError → List Nat
  | wrongRowCount _ => []
  | wrongRowLength row _ => [row]
  | valueOutOfRange row col _ => [row, col]

/-- The fault occurs, and all others have a later place. -/
structure IsFirst (rows : List (List Nat)) (e : ShapeError) : Prop where
  occurs : e.Occurs rows
  eq_or_later : ∀ e', e'.Occurs rows → e' = e ∨ List.Lex (· < ·) e.place e'.place

end ShapeError

/-- The row has nine values, and none above nine. -/
structure FitsRow (values : List Nat) : Prop where
  length : values.length = 9
  le : ∀ v ∈ values, v ≤ 9

/-- There are nine rows, and all of them fit. -/
structure FitsGrid (rows : List (List Nat)) : Prop where
  length : rows.length = 9
  row : ∀ values ∈ rows, FitsRow values

variable {rows : List (List Nat)} {values : List Nat} {row col v : Nat} {e e' : ShapeError}

namespace ShapeError

/-- There is one first fault at most. -/
theorem IsFirst.unique (h : e.IsFirst rows) (h' : e'.IsFirst rows) : e = e' := by
  rcases h'.eq_or_later e h.occurs with heq | hlex
  · exact heq
  · rcases h.eq_or_later e' h'.occurs with heq | hlex'
    · exact heq.symm
    · exact absurd hlex (List.lex_asymm Nat.lt_asymm hlex')

/-- A value above nine keeps its row from fitting. -/
private theorem not_fitsRow_of_value (hcol : values[col]? = some v) (hv : 9 < v) :
    ¬ FitsRow values :=
  fun h => Nat.not_le.mpr hv (h.le v (List.mem_of_getElem? hcol))

/-- Rows that fit have no fault. -/
private theorem not_occurs_of_fitsGrid (h : FitsGrid rows) : ¬ e.Occurs rows := by
  intro he
  cases he with
  | rowCount hcount => exact hcount h.length
  | rowLength hrow hlength => exact hlength (h.row _ (List.mem_of_getElem? hrow)).length
  | value hrow hcol hv => exact not_fitsRow_of_value hcol hv (h.row _ (List.mem_of_getElem? hrow))

/-- The number of rows is looked at before all else. -/
private theorem isFirst_rowCount (h : rows.length ≠ 9) :
    (wrongRowCount rows.length).IsFirst rows := by
  refine ⟨.rowCount h, fun e' he' => ?_⟩
  cases he' with
  | rowCount => exact .inl rfl
  | rowLength => exact .inr .nil
  | value => exact .inr .nil

section

variable (hcount : rows.length = 9)
  (hbefore : ∀ i < row, ∀ values, rows[i]? = some values → FitsRow values)

include hbefore

/-- No row before the first one at fault has a fault. -/
private theorem eq_or_lt_of_not_fitsRow {i : Nat} {here : List Nat} (hi : rows[i]? = some here)
    (h : ¬ FitsRow here) : i = row ∨ row < i := by
  have hle : row ≤ i := Nat.le_of_not_lt fun hlt => h (hbefore i hlt here hi)
  omega

include hcount

/-- The length of a row is looked at before its values. -/
private theorem isFirst_rowLength (hrow : rows[row]? = some values) (hlength : values.length ≠ 9) :
    (wrongRowLength row values.length).IsFirst rows := by
  refine ⟨.rowLength hrow hlength, fun e' he' => ?_⟩
  -- faults of a later row have a later place, so only this row and the rows before it matter
  cases he' with
  | rowCount h => exact absurd hcount h
  | rowLength hrow' h =>
    rcases eq_or_lt_of_not_fitsRow hbefore hrow' fun hfits => h hfits.length with rfl | hlt
    · cases hrow.symm.trans hrow'
      exact .inl rfl
    · exact .inr (.rel hlt)
  | value hrow' hcol h =>
    rcases eq_or_lt_of_not_fitsRow hbefore hrow' (not_fitsRow_of_value hcol h) with rfl | hlt
    · -- a value of the same row, whose place comes after that of the row
      exact .inr (.cons .nil)
    · exact .inr (.rel hlt)

/-- In a row of nine values the first one above nine counts. -/
private theorem isFirst_value (hrow : rows[row]? = some values) (hlength : values.length = 9)
    (hcol : values[col]? = some v) (hv : 9 < v)
    (hleft : ∀ j < col, ∀ w, values[j]? = some w → w ≤ 9) :
    (valueOutOfRange row col v).IsFirst rows := by
  refine ⟨.value hrow hcol hv, fun e' he' => ?_⟩
  -- again only this row matters, and in it only what stands to the left
  cases he' with
  | rowCount h => exact absurd hcount h
  | rowLength hrow' h =>
    rcases eq_or_lt_of_not_fitsRow hbefore hrow' fun hfits => h hfits.length with rfl | hlt
    · cases hrow.symm.trans hrow'
      exact absurd hlength h
    · exact .inr (.rel hlt)
  | @value _ j w _ hrow' hcol' h =>
    rcases eq_or_lt_of_not_fitsRow hbefore hrow' (not_fitsRow_of_value hcol' h) with rfl | hlt
    · -- a value of the same row, which does not stand to the left
      cases hrow.symm.trans hrow'
      have hle : col ≤ j := Nat.le_of_not_lt fun hlt => Nat.not_le.mpr h (hleft j hlt w hcol')
      rcases Nat.eq_or_lt_of_le hle with rfl | hlt
      · cases hcol.symm.trans hcol'
        exact .inl rfl
      · exact .inr (.cons (.rel hlt))
    · exact .inr (.rel hlt)

end

end ShapeError

/-! ## Numbered lists -/

section

variable {ε α β : Type} {f : α × Nat → Except ε β} {l : List α}

/-- The elements before one of a numbered list are those of smaller numbers. -/
private theorem of_zipIdx_eq_append {before after : List (α × Nat)} {a : α} {i : Nat}
    (h : l.zipIdx = before ++ (a, i) :: after) :
    l[i]? = some a ∧ ∀ j < i, ∀ b, l[j]? = some b → (b, j) ∈ before := by
  -- the element at a place has the number of the place
  have hget : ∀ j : Nat, (before ++ (a, i) :: after)[j]? = l[j]?.map fun b => (b, j) := by
    intro j
    rw [← h, List.getElem?_zipIdx, Nat.zero_add]
  -- the element behind `before` has the number of the elements in it
  have hhere := hget before.length
  rw [List.getElem?_append_right (Nat.le_refl _), Nat.sub_self, List.getElem?_cons_zero, eq_comm,
    Option.map_eq_some_iff] at hhere
  obtain ⟨b, hb, heq⟩ := hhere
  cases heq
  refine ⟨hb, fun j hj b hb => ?_⟩
  have hthere := hget j
  rw [List.getElem?_append_left hj, hb] at hthere
  exact List.mem_of_getElem? hthere

/-- The first element that fails is at some place, and those before it do not fail. -/
private theorem of_mapM_zipIdx_eq_error {e : ε} (h : l.zipIdx.mapM f = .error e) :
    ∃ i a, l[i]? = some a ∧ f (a, i) = .error e ∧
      ∀ j < i, ∀ b, l[j]? = some b → ∃ y, f (b, j) = .ok y := by
  obtain ⟨before, ⟨a, i⟩, after, hl, hbefore, ha⟩ := of_mapM_eq_error h
  obtain ⟨hi, hmem⟩ := of_zipIdx_eq_append hl
  exact ⟨i, a, hi, ha, fun j hj b hb => hbefore (b, j) (hmem j hj b hb)⟩

/-- If none fails, each element has an answer at its place. -/
private theorem of_mapM_zipIdx_eq_ok {ys : List β} (h : l.zipIdx.mapM f = .ok ys) {a : α}
    (ha : a ∈ l) :
    ∃ i y, f (a, i) = .ok y := by
  obtain ⟨i, hi⟩ := List.mem_iff_getElem?.mp ha
  exact ⟨i, of_mapM_eq_ok h (a, i) (List.mem_zipIdx_iff_getElem?.mpr hi)⟩

/-- A numbered list is read as the list if the numbers do not matter. -/
private theorem mapM_zipIdx_eq_ok {g : α → β} (h : ∀ i, ∀ a ∈ l, f (a, i) = .ok (g a)) :
    l.zipIdx.mapM f = .ok (l.map g) := by
  have hread : ∀ p ∈ l.zipIdx, f p = .ok ((g ∘ Prod.fst) p) := fun p hp =>
    h p.2 p.1 (List.mem_of_getElem? (List.mem_zipIdx_iff_getElem?.mp hp))
  rw [mapM_eq_ok hread, ← List.map_map, List.zipIdx_map_fst]

end

namespace Board

/-! ## Reading any rows -/

private theorem readValue_eq_ok (h : v ≤ 9) : readValue row col v = .ok
    (Digit.ofValue? v) := if_pos h

private theorem readValue_eq_error (h : 9 < v) :
    readValue row col v = .error (.valueOutOfRange row col v) := if_neg (Nat.not_le.mpr h)

private theorem le_of_readValue {cell : Option Digit} (h : readValue row col v = .ok cell) :
    v ≤ 9 := by
  by_contra hlt
  rw [readValue_eq_error (Nat.lt_of_not_le hlt)] at h
  exact nomatch h

/-- A row that fits is read. -/
private theorem readRow_eq_ok (h : FitsRow values) :
    readRow row values = .ok (values.map Digit.ofValue?) := by
  rw [readRow, if_pos h.length]
  exact mapM_zipIdx_eq_ok fun col v hv => readValue_eq_ok (h.le v hv)

/-- A row that is read fits. -/
private theorem fitsRow_of_readRow {cells : List (Option Digit)}
    (h : readRow row values = .ok cells) :
    FitsRow values := by
  rw [readRow] at h
  split at h
  next hlength =>
    refine ⟨hlength, fun v hv => ?_⟩
    obtain ⟨col, cell, hcell⟩ := of_mapM_zipIdx_eq_ok h hv
    exact le_of_readValue hcell
  next => exact nomatch h

/-- Rows that fit are read. -/
private theorem ofRows_eq_ok (h : FitsGrid rows) :
    ofRows rows = .ok (ofList (rows.map (·.map Digit.ofValue?)).flatten) := by
  rw [ofRows, if_pos h.length,
    mapM_zipIdx_eq_ok fun row values hvalues => readRow_eq_ok (h.row values hvalues)]
  rfl

/-- Rows that are read fit. -/
private theorem fitsGrid_of_ofRows {b : Board} (h : ofRows rows = .ok b) : FitsGrid rows := by
  rw [ofRows] at h
  split at h
  next hcount =>
    obtain ⟨cells, hcells, -⟩ := bind_eq_ok.mp h
    refine ⟨hcount, fun values hvalues => ?_⟩
    obtain ⟨row, here, hhere⟩ := of_mapM_zipIdx_eq_ok hcells hvalues
    exact fitsRow_of_readRow hhere
  next => exact nomatch h

/-- What is reported of a row behind rows that fit is the first fault. -/
private theorem isFirst_of_readRow (hcount : rows.length = 9)
    (hbefore : ∀ i < row, ∀ here, rows[i]? = some here → FitsRow here)
    (hrow : rows[row]? = some values) (h : readRow row values = .error e) : e.IsFirst rows := by
  rw [readRow] at h
  split at h
  -- the row has nine values, so one of them is above nine
  next hlength =>
    obtain ⟨col, v, hcol, hv, hleft⟩ := of_mapM_zipIdx_eq_error h
    have hlt : 9 < v := by
      by_contra hle
      exact nomatch (readValue_eq_ok (Nat.le_of_not_lt hle)).symm.trans hv
    cases (readValue_eq_error hlt).symm.trans hv
    refine ShapeError.isFirst_value hcount hbefore hrow hlength hcol hlt fun j hj w hw => ?_
    obtain ⟨cell, hcell⟩ := hleft j hj w hw
    exact le_of_readValue hcell
  next hlength =>
    cases h
    exact ShapeError.isFirst_rowLength hcount hbefore hrow hlength

/-- What is reported of any rows is the first fault. -/
theorem isFirst_of_ofRows (h : ofRows rows = .error e) : e.IsFirst rows := by
  rw [ofRows] at h
  split at h
  next hcount =>
    -- the rows before the one reported have been read
    rcases bind_eq_error.mp h with hcells | ⟨cells, -, hcells⟩
    · obtain ⟨row, values, hrow, hfault, hbefore⟩ := of_mapM_zipIdx_eq_error hcells
      refine isFirst_of_readRow hcount (fun i hi here hhere => ?_) hrow hfault
      obtain ⟨cells, hread⟩ := hbefore i hi here hhere
      exact fitsRow_of_readRow hread
    · exact nomatch hcells
  next hcount =>
    cases h
    exact ShapeError.isFirst_rowCount hcount

/-! ## The rows of a board -/

private theorem value_ofValue? (h : v ≤ 9) : value (Digit.ofValue? v) = v := by
  rw [Digit.ofValue?]
  split <;> simp only [value, Digit.value] <;> omega

private theorem ofValue?_value (cell : Option Digit) : Digit.ofValue? (value cell) = cell := by
  cases cell with
  | none => rfl
  | some d => exact dif_pos ⟨Nat.succ_pos d, d.isLt⟩

private theorem value_le (cell : Option Digit) : value cell ≤ 9 := by
  cases cell with
  | none => exact Nat.zero_le 9
  | some d => exact d.isLt

/-- The rows of a board fit. -/
private theorem fitsGrid_toRows (b : Board) : FitsGrid b.toRows := by
  refine ⟨by simp [toRows], fun values hvalues => ?_⟩
  obtain ⟨row, -, rfl⟩ := List.mem_map.mp hvalues
  refine ⟨by simp [rowValues], fun v hv => ?_⟩
  obtain ⟨col, -, rfl⟩ := List.mem_map.mp hv
  exact value_le _

/-- The rows of a board are read as that board. -/
private theorem ofRows_toRows (b : Board) : ofRows b.toRows = .ok b := by
  -- the cells of a board, row by row, are those of its rows
  have hall : Cell.all = (List.finRange 9).flatMap fun row : Fin 9 =>
      (List.finRange 9).map fun col : Fin 9 => (⟨row, col⟩ : Cell) := by decide
  have hcells : (b.toRows.map (·.map Digit.ofValue?)).flatten = b.toList := by
    rw [toList_eq, hall, List.map_flatMap, List.flatMap_def, toRows, List.map_map]
    congr 1
    refine List.map_congr_left fun row _ => ?_
    simp only [Function.comp_apply, rowValues, List.map_map]
    exact List.map_congr_left fun col _ => ofValue?_value _
  rw [ofRows_eq_ok b.fitsGrid_toRows, hcells, ofList_eq]
  intro i
  simp [toList, get]

/-- There is a board with any given contents of its cells. -/
private theorem exists_get_eq (f : Cell → Option Digit) : ∃ b : Board, ∀ c, b.get c = f c :=
  ⟨⟨Vector.ofFn (f ∘ Cell.ofIndex)⟩, fun c => by simp [get]⟩

/-- The rows of a board are known by the values of its cells. -/
private theorem toRows_eq {b : Board} (h : FitsGrid rows) (hget : ∀ (c : Cell) (values : List Nat),
    rows[c.row.val]? = some values → values[c.col.val]? = some (value (b.get c))) :
    b.toRows = rows := by
  refine List.ext_getElem (by simp [toRows, h.length]) fun row hrow hrow' => ?_
  have hlength : rows[row].length = 9 := (h.row _ (List.getElem_mem hrow')).length
  refine List.ext_getElem (by simp [toRows, rowValues, hlength]) fun col hcol hcol' => ?_
  have hrow₉ : row < 9 := Nat.lt_of_lt_of_eq hrow' h.length
  have hcol₉ : col < 9 := Nat.lt_of_lt_of_eq hcol' hlength
  have hcell := hget ⟨⟨row, hrow₉⟩, ⟨col, hcol₉⟩⟩ _ (List.getElem?_eq_getElem hrow')
  rw [List.getElem?_eq_getElem hcol', Option.some.injEq] at hcell
  rw [hcell]
  simp [toRows, rowValues]

/-- Rows that fit are the rows of a board. -/
theorem exists_toRows_eq (h : FitsGrid rows) : ∃ b : Board, b.toRows = rows := by
  -- the board with these values
  obtain ⟨b, hb⟩ := exists_get_eq fun c =>
    Digit.ofValue? ((rows[c.row.val]?.getD [])[c.col.val]?.getD 0)
  refine ⟨b, toRows_eq h fun c values hvalues => ?_⟩
  obtain ⟨hlength, hle⟩ := h.row values (List.mem_of_getElem? hvalues)
  have hcol : c.col.val < values.length := Nat.lt_of_lt_of_eq c.col.isLt hlength.symm
  rw [hb, hvalues, Option.getD_some, List.getElem?_eq_getElem hcol, Option.getD_some,
    value_ofValue? (hle _ (List.getElem_mem hcol))]

/-- What any rows are read as is the board with these rows. -/
private theorem ofRows_eq_ok_iff {b : Board} : ofRows rows = .ok b ↔ b.toRows = rows := by
  constructor
  · intro h
    -- the rows are those of some board, and they are read as that one
    obtain ⟨b', rfl⟩ := exists_toRows_eq (fitsGrid_of_ofRows h)
    rw [Except.ok.inj (h.symm.trans b'.ofRows_toRows)]
  · rintro rfl
    exact b.ofRows_toRows

/-- The first fault of any rows is reported. -/
private theorem ofRows_eq_error_iff : ofRows rows = .error e ↔ e.IsFirst rows := by
  refine ⟨isFirst_of_ofRows, fun h => ?_⟩
  cases hread : ofRows rows with
  | ok b => exact absurd h.occurs (ShapeError.not_occurs_of_fitsGrid (fitsGrid_of_ofRows hread))
  | error e' => rw [(isFirst_of_ofRows hread).unique h]

/-! ## Reading nine rows of nine bytes -/

variable {bytes : Vector (Vector UInt8 9) 9}

/-- Nine rows of nine bytes as rows of numbers. -/
def numbers (bytes : Vector (Vector UInt8 9) 9) : List (List Nat) :=
  bytes.toList.map fun values => values.toList.map UInt8.toNat

/-- A row of bytes fits if no byte above nine is found. -/
private theorem fitsRow_of_find? {values : Vector UInt8 9}
    (h : values.toList.zipIdx.find? (fun (v, _) => 9 < v) = none) :
    FitsRow (values.toList.map UInt8.toNat) := by
  refine ⟨by simp, fun v hv => ?_⟩
  obtain ⟨byte, hbyte, rfl⟩ := List.mem_map.mp hv
  obtain ⟨col, hcol⟩ := List.mem_iff_getElem?.mp hbyte
  have hnot := List.find?_eq_none.mp h (byte, col) (List.mem_zipIdx_iff_getElem?.mpr hcol)
  simp only [decide_eq_true_eq, UInt8.lt_iff_toNat_lt] at hnot
  exact Nat.le_of_not_lt hnot

/-- What is reported of bytes is the first fault. -/
theorem isFirst_of_firstOutOfRange (h : firstOutOfRange bytes = some e) :
    e.IsFirst (numbers bytes) := by
  -- the first row with a byte above nine, and the first such byte in it
  obtain ⟨before, ⟨values, row⟩, after, hrows, hfault, hbefore⟩ := List.findSome?_eq_some_iff.mp h
  obtain ⟨⟨byte, col⟩, hfind, rfl⟩ := Option.map_eq_some_iff.mp hfault
  obtain ⟨hbyte, left, right, hvalues, hleft⟩ := List.find?_eq_some_iff_append.mp hfind
  obtain ⟨hrow, hrowsBefore⟩ := of_zipIdx_eq_append hrows
  obtain ⟨hcol, hleftBefore⟩ := of_zipIdx_eq_append hvalues
  have hrow' : (numbers bytes)[row]? = some (values.toList.map UInt8.toNat) := by
    rw [numbers, List.getElem?_map, hrow, Option.map_some]
  have hcol' : (values.toList.map UInt8.toNat)[col]? = some byte.toNat := by
    rw [List.getElem?_map, hcol, Option.map_some]
  refine ShapeError.isFirst_value (by simp [numbers]) ?_ hrow' (by simp) hcol' ?_ ?_
  -- in the rows before it no such byte has been found
  · intro i hi here hhere
    rw [numbers, List.getElem?_map, Option.map_eq_some_iff] at hhere
    obtain ⟨values', hvalues', rfl⟩ := hhere
    exact fitsRow_of_find? (Option.map_eq_none_iff.mp (hbefore _ (hrowsBefore i hi _ hvalues')))
  · simpa [UInt8.lt_iff_toNat_lt] using hbyte
  -- nor to its left in the row
  · intro j hj w hw
    rw [List.getElem?_map, Option.map_eq_some_iff] at hw
    obtain ⟨byte', hbyte', rfl⟩ := hw
    have hnot := hleft _ (hleftBefore j hj _ hbyte')
    simpa [UInt8.lt_iff_toNat_lt] using hnot

/-- Bytes fit if none above nine is found. -/
private theorem fitsGrid_numbers (h : firstOutOfRange bytes = none) : FitsGrid (numbers bytes) := by
  refine ⟨by simp [numbers], fun here hhere => ?_⟩
  obtain ⟨values, hvalues, rfl⟩ := List.mem_map.mp hhere
  obtain ⟨row, hrow⟩ := List.mem_iff_getElem?.mp hvalues
  have hnone := List.findSome?_eq_none_iff.mp h (values, row)
    (List.mem_zipIdx_iff_getElem?.mpr hrow)
  exact fitsRow_of_find? (Option.map_eq_none_iff.mp hnone)

/-- A cell of a board that is made from rows of cells. -/
private theorem get_flatten (cells : Vector (Vector (Option Digit) 9) 9) (c : Cell) :
    get ⟨cells.flatten⟩ c = cells[c.row][c.col] := by
  -- a cell is found in the row and the column of its index
  have hrow : c.index.val / 9 = c.row.val := by
    simp only [Cell.index]
    omega
  have hcol : c.index.val % 9 = c.col.val := by
    simp only [Cell.index]
    omega
  rw [get, Fin.getElem_fin, Vector.getElem_flatten]
  simp only [hrow, hcol, Fin.getElem_fin]

/-- Nine rows of nine bytes are read as any rows are. -/
theorem ofBytes_eq (bytes : Vector (Vector UInt8 9) 9) :
    ofBytes bytes = ofRows (numbers bytes) := by
  cases hfirst : firstOutOfRange bytes with
  | some e =>
    rw [ofBytes, hfirst, ofRows_eq_error_iff.mpr (isFirst_of_firstOutOfRange hfirst)]
  | none =>
    rw [ofBytes, hfirst, eq_comm, ofRows_eq_ok_iff]
    have hfits := fitsGrid_numbers hfirst
    -- each byte is the value of its cell
    refine toRows_eq hfits fun c values hvalues => ?_
    have hrow : (numbers bytes)[c.row.val]? = some (bytes[c.row].toList.map UInt8.toNat) := by
      simp [numbers]
    cases hrow.symm.trans hvalues
    have hcol : (bytes[c.row].toList.map UInt8.toNat)[c.col.val]? =
        some bytes[c.row][c.col].toNat := by
      simp
    have hle := (hfits.row _ (List.mem_of_getElem? hrow)).le _ (List.mem_of_getElem? hcol)
    rw [hcol, get_flatten]
    simp only [Fin.getElem_fin, Vector.getElem_map] at hle ⊢
    rw [value_ofValue? hle]

/-- Rows of numbers are accepted if they have no fault, and then they are the rows of the board they
    are read as. Otherwise the first fault is reported. Nine rows of nine bytes are read alike. -/
theorem grids_read :
    (∀ rows : List (List Nat), ((∃ b, ofRows rows = .ok b) ↔ ∀ e : ShapeError, ¬ e.Occurs rows) ∧
      (∀ b : Board, ofRows rows = .ok b ↔ b.toRows = rows) ∧
      ∀ e, ofRows rows = .error e ↔ e.IsFirst rows) ∧
    ∀ bytes, ofBytes bytes = ofRows (numbers bytes) := by
  refine ⟨fun rows => ⟨⟨?_, fun hnone => ?_⟩, fun b => ofRows_eq_ok_iff, fun e =>
    ofRows_eq_error_iff⟩, ofBytes_eq⟩
  · rintro ⟨b, hb⟩ e
    exact ShapeError.not_occurs_of_fitsGrid (fitsGrid_of_ofRows hb)
  · cases hread : ofRows rows with
    | ok b => exact ⟨b, rfl⟩
    | error e => exact absurd (isFirst_of_ofRows hread).occurs (hnone e)

/-- The second row is too short, and a number in it is too large. -/
example : ofRows (List.replicate 9 9 :: [300] :: List.replicate 7 (List.replicate 9 0)) =
    .error (.wrongRowLength 1 1) := rfl

end Board
end ExactCover.Sudoku
