import ExactCover.Matrix.Basic

/-!
# Adding rows

A row is added as a whole or not at all: its columns are looked at before anything is linked.
Its entries go to the bottom of their columns, so a column lists its rows in the order in which
they were added.
-/

namespace ExactCover

/-- Why a row is refused. -/
inductive RowError where
  /-- Row `row` names a column of a matrix that has only `columns` columns. -/
  | columnOutOfRange (row columns : Nat)
  /-- Row `row` names a column twice. -/
  | duplicateColumn (row : Nat)
  /-- The row could not be linked. -/
  | fault (cause : Fault)
  deriving DecidableEq, Repr

/-- The text shown for a refused row; a fault has none. -/
def RowError.message : RowError → Option String
  | columnOutOfRange row columns => s!"row {row} refers to a column outside 0..{columns}"
  | duplicateColumn row => s!"row {row} lists a column more than once"
  | fault _ => none

namespace Matrix

/-- Adds an entry with the given row neighbours at the bottom of a column. -/
def appendEntry (m : Matrix) (row left right column : Nat) : Except Fault Matrix := do
  let id := m.nodes.size
  let up := (← m.node (header column)).up
  let entry : Node := { left, right, up, down := header column, role := .entry column row }
  let m := { m with nodes := m.nodes.push entry }
  let m ← m.modifyNode up fun n => { n with down := id }
  let m ← m.modifyNode (header column) fun n => { n with up := id }
  m.grow column

/-- Adds the entries of a row that starts at index `first` and ends at index `last`. -/
def appendEntries (row first last : Nat) : Nat → List Nat → Matrix → Except Fault Matrix
  | _, [], m => .ok m
  | id, column :: columns, m => do
    let left := if id = first then last else id - 1
    let right := if id = last then first else id + 1
    let m ← m.appendEntry row left right column
    appendEntries row first last (id + 1) columns m

/-- Adds a row with a one in each of `columns`, at the bottom of each of them. The nodes of the
    row are linked in the order given. A row without columns can never be chosen and is left
    out. -/
def addRow (m : Matrix) (row : Nat) (columns : List Nat) : Except RowError Matrix :=
  if ¬ ∀ c ∈ columns, c < m.sizes.size then
    .error (.columnOutOfRange row m.sizes.size)
  else if ¬ columns.Nodup then
    .error (.duplicateColumn row)
  else if columns.isEmpty then
    .ok m
  else
    let first := m.nodes.size
    match appendEntries row first (first + columns.length - 1) first columns m with
    | .error cause => .error (.fault cause)
    | .ok m => .ok { m with rowCount := m.rowCount + 1 }

/-- The matrix of `n` columns with the given rows, each an identifier with its columns. -/
def ofRows (n : Nat) (rows : List (Nat × List Nat)) : Except RowError Matrix :=
  rows.foldlM (fun m (row, columns) => m.addRow row columns) (empty n)

end Matrix

end ExactCover
