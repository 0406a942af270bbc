import ExactCover.Proofs.Sudoku.Rows

/-!
# What the checks of a board say

The checks of a board go over its cells with three sets of flags. They say what the rules of the
puzzle say: no digit stands in two cells of one row, column or box; each digit stands once in each
of them; and a solution keeps what is given. The flags of a unit stand nine by nine, and the index
of a flag is counted in words from the value of a digit, which starts at one. None of these indices
leaves the flags, in whatever order the cells are gone over.

## Key results

- `Cell.exists_house_iff`: two cells of one house
- `Board.isSolved_iff_unique`: a board is solved if each digit stands once in each house
- `Occupancy.scan_eq`: the cells are gone over without an index out of range
- `Board.checks_sound`: what the checks say
-/

namespace ExactCover.Sudoku

/-! ## Houses -/

/-- Two cells stand in one row, in one column or in one box. -/
def Cell.Meets (c c' : Cell) : Prop :=
  c.row = c'.row ∨ c.col = c'.col ∨
    (c.row.val / 3 = c'.row.val / 3 ∧ c.col.val / 3 = c'.col.val / 3)

/-- Boxes have three rows and three columns. -/
private theorem Cell.box_eq_iff {c c' : Cell} : c.box = c'.box ↔
    c.row.val / 3 = c'.row.val / 3 ∧ c.col.val / 3 = c'.col.val / 3 := by
  simp only [Cell.box, Fin.mk.injEq]
  omega

/-- Cells that meet have a house in common. -/
theorem Cell.exists_house_iff {c c' : Cell} : (∃ h : House, h.Has c ∧ h.Has c') ↔ c.Meets c' := by
  constructor
  · rintro ⟨h, hc, hc'⟩
    cases h with
    | row i => exact .inl (hc.trans hc'.symm)
    | col i => exact .inr (.inl (hc.trans hc'.symm))
    | box i => exact .inr (.inr (box_eq_iff.mp (hc.trans hc'.symm)))
  · rintro (hrow | hcol | hbox)
    · exact ⟨.row c.row, rfl, hrow.symm⟩
    · exact ⟨.col c.col, rfl, hcol.symm⟩
    · exact ⟨.box c.box, rfl, (box_eq_iff.mpr hbox).symm⟩

namespace Board

/-- No two different cells that meet hold the same digit. -/
private theorem isConsistent_iff_meets (b : Board) :
    b.isConsistent = true ↔ ∀ c c' : Cell, c ≠ c' → c.Meets c' → ∀ d,
      ¬ (b.get c = some d ∧ b.get c' = some d) := by
  rw [isConsistent_iff]
  constructor
  · intro h c c' hne hmeets d ⟨hd, hd'⟩
    obtain ⟨k, hk, hk'⟩ := Cell.exists_house_iff.mpr hmeets
    exact hne (h k c c' hk hk' d hd hd')
  · intro h k c c' hk hk' d hd hd'
    by_contra hne
    exact h c c' hne (Cell.exists_house_iff.mp ⟨k, hk, hk'⟩) d ⟨hd, hd'⟩

/-- Each digit stands once in each house. The cells are filled then. -/
theorem isSolved_iff_unique (b : Board) :
    b.isSolved = true ↔ ∀ (h : House) (d : Digit), ∃! c, h.Has c ∧ b.get c = some d := by
  rw [isSolved_iff, and_iff_right_of_imp]
  intro huniq c
  -- the nine digits stand in nine different cells of the row, and one of these is `c`
  choose cellOf hcell using fun d => (huniq (.row c.row) d).exists
  have hinj : Function.Injective fun d => (cellOf d).col := by
    intro d e heq
    have hrow : (cellOf d).row = (cellOf e).row := (hcell d).1.trans (hcell e).1.symm
    have hsame : cellOf d = cellOf e := congrArg₂ Cell.mk hrow heq
    exact Option.some.inj ((hcell d).2.symm.trans (hsame ▸ (hcell e).2))
  obtain ⟨d, hd⟩ := Finite.surjective_of_injective hinj c.col
  have hsame : cellOf d = c := congrArg₂ Cell.mk (hcell d).1 hd
  exact ⟨d, hsame ▸ (hcell d).2⟩

end Board

/-! ## Indices in words -/

namespace Occupancy

/-- The index of the flag of a value in a unit. -/
def bitAt (unit value : Nat) : Except Fault Nat := do
  Word.sub (← Word.add (← Word.mul unit 9) value) 1

/-- Reads the flag of a value in a unit. -/
def flagAt (flags : Vector Bool 81) (unit value : Nat) : Except Fault Bool := do
  let i ← bitAt unit value
  if h : i < 81 then return flags[i] else throw .outOfBounds

/-- Writes the flag of a value in a unit. -/
def setAt (flags : Vector Bool 81) (unit value : Nat) (used : Bool) :
    Except Fault (Vector Bool 81) := do
  let i ← bitAt unit value
  if h : i < 81 then return flags.set i used else throw .outOfBounds

/-- Reads the flags of the row, of the column and of the box, up to the first one that is set. -/
def allowsAt (o : Occupancy) (row col value : Nat) : Except Fault Bool := do
  if ← flagAt o.rows row value then return false
  if ← flagAt o.cols col value then return false
  return !(← flagAt o.boxes (← boxIndex row col) value)

/-- Writes the three flags. -/
def markAt (o : Occupancy) (row col value : Nat) (used : Bool) : Except Fault Occupancy := do
  let rows ← setAt o.rows row value used
  let cols ← setAt o.cols col value used
  let boxes ← setAt o.boxes (← boxIndex row col) value used
  return { rows, cols, boxes }

/-- Goes over cells given by their rows, columns and values, up to the first one whose value does
    not fit. Zero stands for an empty cell. -/
def scan : List (Nat × Nat × Nat) → Occupancy → Except Fault (Option Occupancy)
  | [], o => return some o
  | (row, col, value) :: cells, o =>
    if value = 0 then scan cells o
    else do
      if ← o.allowsAt row col value then
        scan cells (← o.markAt row col value true)
      else
        return none

/-- The index of a flag is not below zero, and it is one of those that there are. -/
private theorem bitAt_eq (unit : Fin 9) (d : Digit) : bitAt unit (Digit.value d) = .ok
    (bit unit d) := by
  simp (disch := omega) only [bitAt, Digit.value, add_eq, mul_eq, sub_eq, ok_bind]
  rw [← Nat.add_assoc, Nat.add_sub_cancel, Nat.mul_comm, bit]

/-- A flag is read at its bit. -/
private theorem flagAt_eq (flags : Vector Bool 81) (unit : Fin 9) (d : Digit) :
    flagAt flags unit (Digit.value d) = .ok (flags.get (bit unit d)) := by
  simp only [flagAt, bitAt_eq, ok_bind, dif_pos (bit unit d).isLt]
  rfl

/-- A flag is written at its bit. -/
private theorem setAt_eq (flags : Vector Bool 81) (unit : Fin 9) (d : Digit) (used : Bool) :
    setAt flags unit (Digit.value d) used = .ok (flags.set (bit unit d) used (bit unit d).isLt) := by
  simp only [setAt, bitAt_eq, ok_bind, dif_pos (bit unit d).isLt]
  rfl

/-- Whether a digit fits is read from the three flags. -/
private theorem allowsAt_eq (o : Occupancy) (c : Cell) (d : Digit) :
    o.allowsAt c.row c.col (Digit.value d) = .ok (o.allows c d) := by
  simp only [allowsAt, flagAt_eq, boxIndex_eq, ok_bind, allows]
  change _ = Except.ok (!o.rows.get (bit c.row d) && !o.cols.get (bit c.col d) &&
    !o.boxes.get (bit c.box d))
  cases o.rows.get (bit c.row d) <;> cases o.cols.get (bit c.col d) <;> rfl

/-- A digit is marked in the three flags. -/
private theorem markAt_eq (o : Occupancy) (c : Cell) (d : Digit) (used : Bool) :
    o.markAt c.row c.col (Digit.value d) used = .ok (o.mark c d used) := by
  simp only [markAt, setAt_eq, boxIndex_eq, ok_bind]
  rfl

/-- The cells of a board are gone over without an index out of range, and what comes out are the
    digits in use on it. -/
theorem scan_eq (b : Board) (cells : List Cell) (o : Occupancy) :
    scan (cells.map fun c => (c.row.val, c.col.val, Board.value (b.get c))) o =
      .ok ((cells.filterMap fun c => (b.get c).map (c, ·)).foldlM
        (fun o p => o.place? p.1 p.2) o) := by
  -- induction on the cells: the empty ones are passed over, and a digit that does not fit ends it
  induction cells generalizing o with
  | nil => rfl
  | cons c cells ih =>
    rw [List.map_cons, scan]
    cases hc : b.get c with
    | none =>
      have hzero : Board.value none = 0 := rfl
      rw [List.filterMap_cons_none (by rw [hc]; rfl), if_pos hzero]
      exact ih o
    | some d =>
      have hvalue : Board.value (some d) = Digit.value d := rfl
      have hpos : Digit.value d ≠ 0 := Nat.succ_ne_zero d
      rw [List.filterMap_cons_some (by rw [hc]; rfl), List.foldlM_cons, hvalue, if_neg hpos]
      simp only [allowsAt_eq, markAt_eq, ok_bind, place?]
      by_cases hd : o.allows c d = true
      · simp only [hd, if_true]
        exact ih _
      · simp only [hd]
        rfl

end Occupancy

namespace Board

/-- The rows, the columns and the values of all cells, row by row. -/
def triples (b : Board) : List (Nat × Nat × Nat) :=
  Cell.all.map fun c => (c.row.val, c.col.val, value (b.get c))

/-- The checks of a board say what the rules of the puzzle say, and none of the indices that they
    count leaves the flags. -/
theorem checks_sound (b : Board) :
    (b.isConsistent = true ↔ ∀ c c' : Cell, c ≠ c' → c.Meets c' → ∀ d,
      ¬ (b.get c = some d ∧ b.get c' = some d)) ∧
    (b.isSolved = true ↔ ∀ (h : House) (d : Digit), ∃! c, h.Has c ∧ b.get c = some d) ∧
    (∀ p : Board, b.isSolutionOf p = true ↔
      (∀ (h : House) (d : Digit), ∃! c, h.Has c ∧ b.get c = some d) ∧
        ∀ c d, p.get c = some d → b.get c = some d) ∧
    Occupancy.scan b.triples .empty = .ok (Occupancy.ofBoard? b) := by
  refine ⟨b.isConsistent_iff_meets, b.isSolved_iff_unique, fun p => ?_, ?_⟩
  · rw [isSolutionOf_iff, isSolved_iff_unique]
  · exact Occupancy.scan_eq b Cell.all .empty

end Board
end ExactCover.Sudoku
