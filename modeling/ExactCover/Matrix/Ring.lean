import ExactCover.Matrix.Basic

/-!
# Rings as lists

What can be seen of a matrix by going around its rings: the active columns, the rows of a column
and the columns of a row.
-/

namespace ExactCover.Matrix

/-- No column is active. -/
def isSolved (m : Matrix) : Bool :=
  match m.nodes[root]? with
  | some n => n.right = root
  | none => true

/-- The nodes of a ring from `id` on and until the ring leads back to `start`. The first
    argument bounds the number of steps. -/
def ringFrom (m : Matrix) (next : Node → Nat) (start : Nat) : Nat → Nat → Except Fault (List Nat)
  | 0, _ => .error .endless
  | steps + 1, id =>
    if id = start then .ok []
    else do
      let n ← m.node id
      let rest ← ringFrom m next start steps (next n)
      return id :: rest

/-- The nodes but `start` of the ring through `start`, in the order in which `next` meets
    them. -/
def ring (m : Matrix) (next : Node → Nat) (start : Nat) : Except Fault (List Nat) := do
  let n ← m.node start
  m.ringFrom next start m.nodes.size (next n)

/-- The column a node belongs to. -/
def columnOf (m : Matrix) (id : Nat) : Except Fault Nat := do
  ownerOf (← m.node id)

/-- The row a node belongs to. -/
def rowOf (m : Matrix) (id : Nat) : Except Fault Nat := do
  match (← m.node id).role.row? with
  | some row => return row
  | none => throw .noRow

/-- The active columns in the order of their ring. -/
def activeColumns (m : Matrix) : Except Fault (List Nat) := do
  (← m.ring (·.right) root).mapM m.columnOf

/-- The rows met going down from node `id` until node `start` or a node without row is
    reached. The first argument bounds the number of steps. -/
def rowsFrom (m : Matrix) (start : Nat) : Nat → Nat → Except Fault (List Nat)
  | 0, _ => .error .endless
  | steps + 1, id =>
    if id = start then .ok []
    else do
      let n ← m.node id
      match n.role.row? with
      | none => return []
      | some row =>
        let rest ← rowsFrom m start steps n.down
        return row :: rest

/-- The identifiers of the rows linked into a column, from top to bottom. For a number that is
    no column the walk starts at the node of that index, if there is one. -/
def rowsInColumn (m : Matrix) (column : Nat) : Except Fault (List Nat) := do
  let h ← headerOf column
  let n ← m.node h
  m.rowsFrom h m.nodes.size n.down

/-- The columns of the other entries of a row, to the right of the entry `id` and around. -/
def otherColumns (m : Matrix) (id : Nat) : Except Fault (List Nat) := do
  (← m.ring (·.right) id).mapM m.columnOf

end ExactCover.Matrix
