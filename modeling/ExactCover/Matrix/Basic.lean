import ExactCover.Word

/-!
# The sparse matrix and its links

A 0/1 matrix is stored by its ones alone. Every one is a node, and the nodes of a row and of a
column form rings linked in both directions, so that a node leaves its ring, and comes back,
by writing two links. All nodes live in one array and name their neighbours by index:

* index `0` is the *root*, which holds the ring of the active column headers together;
* indices `1` to `n` are the column headers, column `c` at index `c + 1`;
* after them come the entries, the nodes of a row next to each other.

No node is ever removed from the array. A node that has left its ring keeps its own four
links, and they say where it goes when it comes back.

Every access to a node or a size is checked, so each operation that follows links lives in
`Except Fault`.
-/

namespace ExactCover

/-- What a node stands for. -/
inductive Role where
  /-- The anchor of the ring of active headers. -/
  | root
  /-- The head of a column. -/
  | header (column : Nat)
  /-- A one of the matrix. Several rows may bear the same identifier. -/
  | entry (column row : Nat)
  deriving DecidableEq, Repr

namespace Role

/-- The column a header or an entry belongs to. -/
def column? : Role → Option Nat
  | root => none
  | header c => some c
  | entry c _ => some c

/-- The row an entry belongs to. -/
def row? : Role → Option Nat
  | entry _ r => some r
  | _ => none

end Role

/-- A node with its four neighbours, each given by its index. -/
structure Node where
  left : Nat
  right : Nat
  up : Nat
  down : Nat
  role : Role
  deriving DecidableEq, Repr

/-- A sparse 0/1 matrix. -/
structure Matrix where
  /-- The root, the headers and the entries. -/
  nodes : Array Node
  /-- The number of entries linked into each column. -/
  sizes : Array Nat
  /-- The number of rows added. -/
  rowCount : Nat
  deriving DecidableEq, Repr

/-- The numbers of columns, rows and ones of a matrix. Covering does not change them. -/
structure Shape where
  columns : Nat
  rows : Nat
  nodes : Nat
  deriving DecidableEq, Repr

namespace Matrix

/-- The index of the root. -/
def root : Nat := 0

/-- The index of the header of a column. -/
def header (column : Nat) : Nat := column + 1

/-- The index of the header of a column given as any word. -/
@[inline] def headerOf (column : Nat) : Except Fault Nat := Word.add column 1

/-! ## Reading and writing nodes -/

/-- The node at an index. -/
@[inline] def node (m : Matrix) (id : Nat) : Except Fault Node :=
  if h : id < m.nodes.size then .ok m.nodes[id] else .error .outOfBounds

/-- Changes the node at an index. -/
@[inline] def modifyNode (m : Matrix) (id : Nat) (f : Node → Node) : Except Fault Matrix :=
  if id < m.nodes.size then .ok { m with nodes := m.nodes.modify id f }
  else .error .outOfBounds

/-- The number of entries linked into a column. -/
@[inline] def columnSize (m : Matrix) (column : Nat) : Except Fault Nat :=
  if h : column < m.sizes.size then .ok m.sizes[column] else .error .outOfBounds

/-- Counts one more entry in a column. -/
@[inline] def grow (m : Matrix) (column : Nat) : Except Fault Matrix := do
  let size ← m.columnSize column
  let size ← Word.add size 1
  return { m with sizes := m.sizes.setIfInBounds column size }

/-- Counts one entry less in a column. -/
@[inline] def shrink (m : Matrix) (column : Nat) : Except Fault Matrix := do
  let size ← m.columnSize column
  let size ← Word.sub size 1
  return { m with sizes := m.sizes.setIfInBounds column size }

/-- The column of a node whose size is kept; the root has none. -/
@[inline] def ownerOf (n : Node) : Except Fault Nat :=
  match n.role.column? with
  | some c => .ok c
  | none => .error .outOfBounds

/-! ## Matrices without rows -/

/-- The root of a matrix of `n` columns. -/
def freshRoot (n : Nat) : Node where
  left := n
  right := if n = 0 then root else 1
  up := root
  down := root
  role := .root

/-- The header of column `c` in a matrix of `n` columns without rows. -/
def freshHeader (n c : Nat) : Node where
  left := c
  right := if c + 1 = n then root else c + 2
  up := header c
  down := header c
  role := .header c

/-- The matrix of `n` columns and no rows. All columns are active, in the order of their
    indices. -/
def empty (n : Nat) : Matrix where
  nodes := #[freshRoot n] ++ (Array.range n).map (freshHeader n)
  sizes := Array.replicate n 0
  rowCount := 0

instance : Inhabited Matrix := ⟨empty 0⟩

/-- The matrix of `n` columns and no rows, if words can number its nodes. -/
def create (n : Nat) : Except Fault Matrix := do
  let _ ← Word.add n 1
  return empty n

/-! ## Shape -/

/-- The number of columns, active or not. -/
def columnCount (m : Matrix) : Nat := m.sizes.size

/-- The numbers of columns, rows and ones. -/
def shape (m : Matrix) : Shape where
  columns := m.columnCount
  rows := m.rowCount
  nodes := m.nodes.size - m.columnCount - 1

end Matrix

end ExactCover
