import ExactCover.Matrix.Basic

/-!
# Covering and uncovering columns

Covering a column takes it out of the ring of active headers, and its rows out of all other
columns. Uncovering it links everything back, in the opposite order. The links come back as they
were if covers and uncovers are nested; in any other order they are written just the same.
-/

namespace ExactCover.Matrix

/-- Visits the nodes of a ring, from `id` on and until the ring leads back to `start`. The link
    out of a node is read after its visit. The first argument bounds the number of steps. -/
def walk (next : Node → Nat) (visit : Matrix → Nat → Except Fault Matrix) (start : Nat) :
    Nat → Nat → Matrix → Except Fault Matrix
  | 0, _, _ => .error .endless
  | steps + 1, id, m =>
    if id = start then .ok m
    else do
      let m ← visit m id
      let n ← m.node id
      walk next visit start steps (next n) m

/-- Visits every node but `start` of the ring through `start`. Such a ring has fewer nodes than
    the matrix, so that many steps are enough. -/
@[inline] def around (m : Matrix) (next : Node → Nat) (start : Nat)
    (visit : Matrix → Nat → Except Fault Matrix) : Except Fault Matrix := do
  let n ← m.node start
  walk next visit start m.nodes.size (next n) m

/-- Takes an entry out of its column. Its own links stay. -/
def detach (m : Matrix) (id : Nat) : Except Fault Matrix := do
  let n ← m.node id
  let m ← m.modifyNode n.up fun above => { above with down := n.down }
  let m ← m.modifyNode n.down fun below => { below with up := n.up }
  m.shrink (← ownerOf n)

/-- Puts an entry back into its column, at the place its own links name. -/
def reattach (m : Matrix) (id : Nat) : Except Fault Matrix := do
  let n ← m.node id
  let m ← m.grow (← ownerOf n)
  let m ← m.modifyNode n.up fun above => { above with down := id }
  m.modifyNode n.down fun below => { below with up := id }

/-- Takes a header out of the ring of active headers. Its own links stay. -/
def deactivate (m : Matrix) (id : Nat) : Except Fault Matrix := do
  let n ← m.node id
  let m ← m.modifyNode n.left fun before => { before with right := n.right }
  m.modifyNode n.right fun after => { after with left := n.left }

/-- Puts a header back into the ring of active headers, at the place its own links name. -/
def activate (m : Matrix) (id : Nat) : Except Fault Matrix := do
  let n ← m.node id
  let m ← m.modifyNode n.left fun before => { before with right := id }
  m.modifyNode n.right fun after => { after with left := id }

/-- Takes a column out of the active columns, and each row with a one in it out of all the
    other columns. These rows stay linked into the column itself, which is how `uncover` finds
    them again. -/
def cover (m : Matrix) (column : Nat) : Except Fault Matrix := do
  let h ← headerOf column
  let m ← m.deactivate h
  m.around (·.down) h fun m row => m.around (·.right) row detach

/-- Undoes `cover`. The rows come back from the bottom up and the nodes of a row from right to
    left, the opposite of the order in which they left, and the header comes last. -/
def uncover (m : Matrix) (column : Nat) : Except Fault Matrix := do
  let h ← headerOf column
  let m ← m.around (·.up) h fun m row => m.around (·.left) row reattach
  m.activate h

end ExactCover.Matrix
