import ExactCover.Proofs.Matrix.AddRow
import ExactCover.Proofs.Matrix.Ring
import ExactCover.Proofs.Sudoku.House
import ExactCover.Sudoku.Reduction

/-!
# The rows of a puzzle

The matrix of a puzzle has a row for each digit that a cell may hold. Its identifier says which
digit in which cell, and its four columns say which houses have the digit and which cell is
filled.

## Key results

- `mem_columnsOf_house`, `mem_columnsOf_cell`: what a column says of the rows it meets
- `mapM_matrixRow_eq`, `exists_matrix`: the rows and the matrix of a puzzle
-/

namespace ExactCover.Sudoku

/-- The identifier of the row for a digit in a cell. -/
def rowIdOf (p : Cell × Digit) : Nat := (p.1.row * 9 + p.1.col) * 9 + p.2

/-- The matrix column that says that a house has a digit. -/
def houseColumn : House → Digit → Nat
  | .row i, d => i * 9 + d
  | .col i, d => 81 + i * 9 + d
  | .box i, d => 162 + i * 9 + d

/-- The matrix column that says that a cell is filled. -/
def cellColumn (c : Cell) : Nat := 243 + c.row * 9 + c.col

/-- The columns of the row for a digit in a cell. -/
def columnsOf (p : Cell × Digit) : List Nat :=
  [houseColumn (.row p.1.row) p.2, houseColumn (.col p.1.col) p.2, houseColumn (.box p.1.box) p.2,
    cellColumn p.1]

/-! ## What a column says -/

/-- The column of a house and a digit is met by the rows of the digit in the cells of the house. -/
theorem mem_columnsOf_house {h : House} {d : Digit} {p : Cell × Digit} :
    houseColumn h d ∈ columnsOf p ↔ h.Has p.1 ∧ p.2 = d := by
  cases h <;>
    simp only [columnsOf, houseColumn, cellColumn, House.Has, List.mem_cons, List.not_mem_nil,
      or_false, Fin.ext_iff] <;>
    omega

/-- The column of a cell is met by the rows of the digits in it. -/
theorem mem_columnsOf_cell {c : Cell} {p : Cell × Digit} :
    cellColumn c ∈ columnsOf p ↔ p.1 = c := by
  obtain ⟨⟨r, k⟩, d⟩ := p
  obtain ⟨r', k'⟩ := c
  simp only [columnsOf, houseColumn, cellColumn, List.mem_cons, List.not_mem_nil, or_false,
    Cell.mk.injEq, Fin.ext_iff]
  omega

/-- Every column speaks of a house and a digit or of a cell. -/
theorem exists_column {n : Nat} (hn : n < constraintCount) :
    (∃ h d, houseColumn h d = n) ∨ ∃ c, cellColumn c = n := by
  have hn : n < 324 := hn
  -- the four kinds of columns, 81 of each
  by_cases h₁ : n < 81
  · exact .inl ⟨.row ⟨n / 9, by omega⟩, ⟨n % 9, by omega⟩, by simp only [houseColumn]; omega⟩
  by_cases h₂ : n < 162
  · exact .inl ⟨.col ⟨(n - 81) / 9, by omega⟩, ⟨n % 9, by omega⟩, by simp only [houseColumn]; omega⟩
  by_cases h₃ : n < 243
  · exact .inl ⟨.box ⟨(n - 162) / 9, by omega⟩, ⟨n % 9, by omega⟩,
      by simp only [houseColumn]; omega⟩
  · exact .inr ⟨⟨⟨(n - 243) / 9, by omega⟩, ⟨n % 9, by omega⟩⟩, by simp only [cellColumn]; omega⟩

theorem houseColumn_lt (h : House) (d : Digit) : houseColumn h d < constraintCount := by
  cases h <;> simp only [houseColumn, constraintCount] <;> omega

theorem cellColumn_lt (c : Cell) : cellColumn c < constraintCount := by
  simp only [cellColumn, constraintCount]
  omega

/-- A row has columns of the matrix only. -/
theorem columnsOf_lt {p : Cell × Digit} : ∀ n ∈ columnsOf p, n < constraintCount := by
  simp only [columnsOf, List.forall_mem_cons]
  exact ⟨houseColumn_lt .., houseColumn_lt .., houseColumn_lt .., cellColumn_lt _, by simp⟩

/-- The columns of a row are different. -/
theorem columnsOf_nodup (p : Cell × Digit) : (columnsOf p).Nodup := by
  simp only [columnsOf, houseColumn, cellColumn, List.nodup_cons, List.mem_cons, List.not_mem_nil,
    or_false, not_or, not_false_eq_true, List.nodup_nil, and_true]
  omega

/-! ## Numbers in words -/

theorem add_eq {a b : Nat} (h : a + b < 1000) : Word.add a b = .ok (a + b) :=
  if_pos (Nat.lt_trans h (by decide))

theorem mul_eq {a b : Nat} (h : a * b < 1000) : Word.mul a b = .ok (a * b) :=
  if_pos (Nat.lt_trans h (by decide))

theorem sub_eq {a b : Nat} (h : b ≤ a) : Word.sub a b = .ok (a - b) := if_pos h

/-- The column for a digit, counted from the first one of its kind. -/
private theorem digitColumn_eq {first unit : Nat} (d : Digit) (hfirst : first ≤ 162)
    (hunit : unit < 9) :
    Constraint.digitColumn first unit (Digit.value d) = .ok (first + unit * 9 + d) := by
  simp (disch := omega) only [Constraint.digitColumn, Digit.value, add_eq, mul_eq, sub_eq, ok_bind]
  rw [← Nat.add_assoc, Nat.add_sub_cancel]

/-- The identifier of a row is a number below 729. -/
private theorem rowId_ofCell (c : Cell) (d : Digit) :
    (Candidate.ofCell c d).rowId = .ok (rowIdOf (c, d)) := by
  simp (disch := omega) only [Candidate.rowId, Candidate.ofCell, Digit.value, add_eq, mul_eq,
    sub_eq, ok_bind]
  rw [← Nat.add_assoc, Nat.add_sub_cancel, rowIdOf]

/-- The box of a cell is found from its row and its column. -/
theorem boxIndex_eq (c : Cell) : boxIndex c.row c.col = .ok c.box := by
  simp (disch := omega) only [boxIndex, add_eq, mul_eq, ok_bind, Cell.box]

/-- A candidate has the columns of its cell and its digit. -/
private theorem columns_ofCell (c : Cell) (d : Digit) :
    (Candidate.ofCell c d).columns = .ok (columnsOf (c, d)) := by
  -- one constraint of each kind
  have hconstraints : (Candidate.ofCell c d).constraints = .ok [.row c.row (Digit.value d),
      .column c.col (Digit.value d), .box c.box (Digit.value d), .cell c.row c.col] := by
    simp only [Candidate.constraints, Candidate.ofCell, boxIndex_eq, ok_bind]
    rfl
  have hrow : (Constraint.row c.row (Digit.value d)).matrixColumn =
      .ok (houseColumn (.row c.row) d) := by
    rw [Constraint.matrixColumn, digitColumn_eq d (by decide) (by omega), Nat.zero_add, houseColumn]
  have hcol : (Constraint.column c.col (Digit.value d)).matrixColumn =
      .ok (houseColumn (.col c.col) d) := digitColumn_eq d (by decide) (by omega)
  have hblock : (Constraint.box c.box (Digit.value d)).matrixColumn =
      .ok (houseColumn (.box c.box) d) := digitColumn_eq d (by decide) (by omega)
  have hcell : (Constraint.cell c.row c.col).matrixColumn = .ok (cellColumn c) := by
    simp (disch := omega) only [Constraint.matrixColumn, add_eq, mul_eq, ok_bind, cellColumn]
  rw [Candidate.columns, hconstraints, ok_bind]
  simp only [List.mapM_cons, List.mapM_nil, hrow, hcol, hblock, hcell, ok_bind]
  rfl

/-- The matrix row of a candidate has its identifier and its columns. -/
private theorem matrixRow_ofCell (c : Cell) (d : Digit) :
    (Candidate.ofCell c d).matrixRow = .ok (rowIdOf (c, d), columnsOf (c, d)) := by
  rw [Candidate.matrixRow, rowId_ofCell, columns_ofCell]

/-- The identifier of a row tells its cell and its digit. -/
theorem placement?_ofRowId (p : Cell × Digit) :
    (Candidate.ofRowId (rowIdOf p)).placement? = some p := by
  have hall : ∀ r k d : Fin 9, (Candidate.ofRowId (rowIdOf (⟨r, k⟩, d))).placement? =
      some (⟨r, k⟩, d) := by decide +kernel
  exact hall p.1.row p.1.col p.2

/-- Different rows have different identifiers. -/
private theorem rowIdOf_injective : Function.Injective rowIdOf := by
  intro p q h
  have hp := placement?_ofRowId p
  rw [h, placement?_ofRowId] at hp
  exact (Option.some.inj hp).symm

/-! ## Puzzles -/

namespace Board

/-- The digits that the cells of a puzzle may hold. -/
def placements (b : Board) : List (Cell × Digit) :=
  Cell.all.flatMap fun c => (b.options c).map (c, ·)

/-- The rows of the matrix of a puzzle. -/
def matrixRows (b : Board) : List (Nat × List Nat) :=
  b.placements.map fun p => (rowIdOf p, columnsOf p)

/-- An empty cell may hold any digit, another one only its own. -/
theorem mem_placements {b : Board} {p : Cell × Digit} :
    p ∈ b.placements ↔ b.get p.1 = none ∨ b.get p.1 = some p.2 := by
  obtain ⟨c, d⟩ := p
  have hoptions : d ∈ b.options c ↔ b.get c = none ∨ b.get c = some d := by
    rw [options]
    cases b.get c with
    | none => simp [Digit.all]
    | some e => simp [eq_comm]
  simp only [placements, List.mem_flatMap, List.mem_map, Prod.mk.injEq]
  constructor
  · rintro ⟨c, -, d, hd, rfl, rfl⟩
    exact hoptions.mp hd
  · exact fun h => ⟨c, mem_all c, d, hoptions.mpr h, rfl, rfl⟩

/-- No digit is listed twice for a cell. -/
theorem placements_nodup (b : Board) : b.placements.Nodup := by
  have hoptions : ∀ c, (b.options c).Nodup := by
    intro c
    rw [options]
    split
    · exact List.nodup_finRange 9
    · exact List.nodup_singleton _
  rw [placements, List.nodup_flatMap]
  refine ⟨fun c _ => (hoptions c).map fun d d' h => (Prod.mk.inj h).2, ?_⟩
  refine all_nodup.imp fun {c c'} hne p hp hp' => ?_
  -- the digits of different cells are different placements
  obtain ⟨d, -, rfl⟩ := List.mem_map.mp hp
  obtain ⟨d', -, heq⟩ := List.mem_map.mp hp'
  exact hne (congrArg Prod.fst heq).symm

/-- The candidates are the digits that the cells may hold. -/
private theorem candidates_eq (b : Board) :
    b.candidates = b.placements.map fun p => Candidate.ofCell p.1 p.2 := by
  simp only [candidates, placements, List.map_flatMap, List.map_map]
  rfl

/-- Each candidate has its row. -/
theorem mapM_matrixRow_eq (b : Board) :
    b.candidates.mapM Candidate.matrixRow = .ok b.matrixRows := by
  rw [candidates_eq, List.mapM_map]
  exact mapM_eq_ok fun p _ => matrixRow_ofCell p.1 p.2

/-- The rows of a puzzle are accepted. -/
theorem exists_matrix (b : Board) :
    ∃ m, b.matrix = .ok m ∧
      b.matrixRows.foldlM (fun m r => m.addRow r.1 r.2) (Matrix.empty constraintCount) = .ok m := by
  -- there are only 729 identifiers
  have hfew : b.matrixRows.length < wordBound := by
    have hsub : b.placements.map rowIdOf ⊆ List.range 729 := by
      intro id hid
      obtain ⟨p, -, rfl⟩ := List.mem_map.mp hid
      rw [List.mem_range, rowIdOf]
      omega
    have hle := ((b.placements_nodup.map rowIdOf_injective).subperm hsub).length_le
    rw [List.length_map, List.length_range] at hle
    rw [matrixRows, List.length_map]
    exact Nat.lt_of_le_of_lt hle (by decide)
  -- each row has different columns of the matrix
  have hlt : ∀ r ∈ b.matrixRows, ∀ n ∈ r.2, n < constraintCount := by
    intro r hr
    obtain ⟨p, -, rfl⟩ := List.mem_map.mp hr
    exact columnsOf_lt
  have hnodup : ∀ r ∈ b.matrixRows, r.2.Nodup := by
    intro r hr
    obtain ⟨p, -, rfl⟩ := List.mem_map.mp hr
    exact columnsOf_nodup p
  obtain ⟨m, hm⟩ := (Matrix.covered_empty (n := constraintCount) (by decide)).addRows_isOk hlt
    hnodup (by simpa using hfew)
  refine ⟨m, ?_, hm⟩
  rw [matrix, mapM_matrixRow_eq, ok_bind]
  exact hm

end Board
end ExactCover.Sudoku
