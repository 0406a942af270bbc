import ExactCover.Matrix.AddRow
import ExactCover.Proofs.Matrix.Walk

/-!
# The operations as writes of links and sizes

Taking a node out of a ring and putting it back are each a `splice`, and for an entry the size of
its column changes by one. The equations here say so, for nodes whose links are known.
-/

namespace ExactCover.Matrix

variable {m : Matrix} {x p q c k r : Nat}

/-- Records the size of a column. -/
def resize (m : Matrix) (c k : Nat) : Matrix := { m with sizes := m.sizes.setIfInBounds c k }

/-- Changing the size of a column and then recording the old one changes nothing. -/
theorem resize_resize (h : m.sizes[c]? = some k) (j : Nat) :
    (m.resize c j).resize c k = m := by
  obtain ⟨hc, rfl⟩ := Array.getElem?_eq_some_iff.mp h
  simp only [resize, Array.setIfInBounds_setIfInBounds]
  rw [Array.setIfInBounds, dif_pos hc, Array.set_getElem_self]

/-- The size that has been written is read. -/
theorem sizes_resize_self (h : c < m.sizes.size) (k : Nat) :
    (m.resize c k).sizes[c]? = some k := by
  rw [resize, Array.getElem?_setIfInBounds_self_of_lt h]

/-- Writing a size leaves the other sizes alone. -/
theorem sizes_resize_of_ne {c' : Nat} (h : c' ≠ c) (k : Nat) :
    (m.resize c k).sizes[c']? = m.sizes[c']? := by
  rw [resize, Array.getElem?_setIfInBounds_ne (Ne.symm h)]

/-- Writing a size changes no link. -/
@[simp] theorem link_resize (m : Matrix) (c k : Nat) (d : Dir) (i : Nat) :
    (m.resize c k).link d i = m.link d i := rfl

/-- Writing a size changes no role. -/
@[simp] theorem role_resize (m : Matrix) (c k i : Nat) :
    (m.resize c k).role i = m.role i := rfl

/-- The size kept for a column is read. -/
theorem columnSize_eq (h : m.sizes[c]? = some k) : m.columnSize c = .ok k := by
  obtain ⟨hc, rfl⟩ := Array.getElem?_eq_some_iff.mp h
  rw [columnSize, dif_pos hc]

/-- A size that is read is kept for the column. -/
theorem of_columnSize_eq_ok (h : m.columnSize c = .ok k) : m.sizes[c]? = some k := by
  rw [columnSize] at h
  split at h
  next hc =>
    cases h
    exact Array.getElem?_eq_getElem hc
  next => exact nomatch h

/-- A column with a row can lose it. -/
theorem shrink_eq (h : m.sizes[c]? = some k) (hk : 1 ≤ k) :
    m.shrink c = .ok (m.resize c (k - 1)) := by
  simp only [shrink, columnSize_eq h, ok_bind, Word.sub, if_pos hk]
  rfl

/-- A column gains a row if a word can hold its size. -/
theorem grow_eq (h : m.sizes[c]? = some k) (hk : k + 1 < wordBound) :
    m.grow c = .ok (m.resize c (k + 1)) := by
  simp only [grow, columnSize_eq h, ok_bind, Word.add, if_pos hk]
  rfl

/-- A column without rows has none to lose. -/
theorem shrink_eq_overflow (h : m.sizes[c]? = some k) (hk : ¬ 1 ≤ k) :
    m.shrink c = .error .overflow := by
  simp only [shrink, columnSize_eq h, ok_bind, Word.sub, if_neg hk]
  rfl

/-- A column gains no row if no word can hold its size. -/
theorem grow_eq_overflow (h : m.sizes[c]? = some k) (hk : ¬ k + 1 < wordBound) :
    m.grow c = .error .overflow := by
  simp only [grow, columnSize_eq h, ok_bind, Word.add, if_neg hk]
  rfl

/-- A column that has grown has a new size, and nothing else has changed. -/
theorem of_grow_eq_ok {m' : Matrix} (h : m.grow c = .ok m') : ∃ k, m' = m.resize c k := by
  obtain ⟨k, -, h⟩ := bind_eq_ok.mp h
  obtain ⟨j, -, h⟩ := bind_eq_ok.mp h
  exact ⟨j, (Except.ok.inj h).symm⟩

/-! ## Links -/

/-- A link of a node that exists is written. -/
private theorem modifyNode_eq {i : Nat} (h : i < m.nodes.size) (d : Dir) (v : Nat) :
    m.modifyNode i (d.set v) = .ok (m.write d i v) := by
  rw [modifyNode, if_pos h]
  rfl

/-- A node that has been changed is changed in the arena, and nothing else is. -/
theorem of_modifyNode_eq_ok {i : Nat} {f : Node → Node} {m' : Matrix}
    (h : m.modifyNode i f = .ok m') : m' = { m with nodes := m.nodes.modify i f } := by
  rw [modifyNode] at h
  split at h
  · exact (Except.ok.inj h).symm
  · exact nomatch h

/-- Two links written one after the other. -/
theorem modifyNode_modifyNode (hp : p < m.nodes.size) (hq : q < m.nodes.size) (d : Dir)
    (v w : Nat) :
    (m.modifyNode p (d.set v) >>= fun m => m.modifyNode q (d.back.set w)) =
      .ok (m.splice d p v q w) := by
  -- the first write adds no node and takes none away
  have hq' : q < (m.write d p v).nodes.size := by simpa using hq
  rw [modifyNode_eq hp, ok_bind, modifyNode_eq hq']
  rfl

/-- The size of a column is no link. -/
theorem IsRing.resize {d : Dir} {s : Nat} {l : List Nat} (h : m.IsRing d s l) (c k : Nat) :
    (m.resize c k).IsRing d s l :=
  ⟨h.nodup, h.chain⟩

/-- A node is read with two opposite links and its role. -/
private theorem exists_node {d : Dir} (hp : m.link d.back x = some p) (hq : m.link d x = some q) :
    ∃ n, m.node x = .ok n ∧ d.back.link n = p ∧ d.link n = q ∧ m.role x = some n.role := by
  have hx := lt_of_link hq
  rw [link_of_lt hx, Option.some.injEq] at hp hq
  refine ⟨_, node_of_lt hx, hp, hq, ?_⟩
  rw [role, Array.getElem?_eq_getElem hx, Option.map_some]

/-- `detach` joins the two nodes that the entry's own links name, whatever these are joined to. -/
theorem detach_eq (hp : m.link .up x = some p) (hq : m.link .down x = some q)
    (hpl : p < m.nodes.size) (hql : q < m.nodes.size) (hrole : m.role x = some (.entry c r)) :
    m.detach x = (m.splice .down p q q p).shrink c := by
  -- the entry is read once; its links and its column are what is known of it
  obtain ⟨n, hn, rfl, rfl, hr⟩ := exists_node (d := .down) hp hq
  rw [hr, Option.some.injEq] at hrole
  have hwrite := modifyNode_modifyNode hpl hql .down n.down n.up
  -- the two writes come first, and the size of the column shrinks behind them
  have hbind := congrArg (· >>= fun m => ownerOf n >>= m.shrink) hwrite
  simp only [bind_assoc, ok_bind, ownerOf, hrole, Role.column?] at hbind
  simp only [detach, hn, ok_bind, ownerOf, hrole, Role.column?]
  exact hbind

/-- `reattach` writes where the entry's own links say, whatever its neighbours are joined to. -/
theorem reattach_eq (hp : m.link .up x = some p) (hq : m.link .down x = some q)
    (hpl : p < m.nodes.size) (hql : q < m.nodes.size) (hrole : m.role x = some (.entry c r))
    (hsize : m.sizes[c]? = some k) (hk : k + 1 < wordBound) :
    m.reattach x = .ok ((m.resize c (k + 1)).splice .down p x q x) := by
  obtain ⟨n, hn, rfl, rfl, hr⟩ := exists_node (d := .down) hp hq
  rw [hr, Option.some.injEq] at hrole
  -- the size grows before the links are written
  have hwrite := modifyNode_modifyNode (m := m.resize c (k + 1)) hpl hql .down x x
  simp only [reattach, hn, ok_bind, ownerOf, hrole, Role.column?, grow_eq hsize hk]
  exact hwrite

/-- A column that is full cannot take an entry back. -/
theorem reattach_eq_overflow (hrole : m.role x = some (.entry c r)) (hsize : m.sizes[c]? = some k)
    (hk : ¬ k + 1 < wordBound) : m.reattach x = .error .overflow := by
  obtain ⟨n, hn, hr⟩ := exists_node_of_role hrole
  simp only [reattach, hn, ok_bind, ownerOf, hr, Role.column?, grow_eq_overflow hsize hk]
  rfl

/-- `deactivate` joins the two headers that the header's own links name. -/
theorem deactivate_eq (hp : m.link .left x = some p) (hq : m.link .right x = some q)
    (hpl : p < m.nodes.size) (hql : q < m.nodes.size) :
    m.deactivate x = .ok (m.splice .right p q q p) := by
  obtain ⟨n, hn, rfl, rfl, -⟩ := exists_node (d := .right) hp hq
  have hwrite := modifyNode_modifyNode hpl hql .right n.right n.left
  simp only [deactivate, hn, ok_bind]
  exact hwrite

/-- `activate` writes where the header's own links say. -/
theorem activate_eq (hp : m.link .left x = some p) (hq : m.link .right x = some q)
    (hpl : p < m.nodes.size) (hql : q < m.nodes.size) :
    m.activate x = .ok (m.splice .right p x q x) := by
  obtain ⟨n, hn, rfl, rfl, -⟩ := exists_node (d := .right) hp hq
  have hwrite := modifyNode_modifyNode hpl hql .right x x
  simp only [activate, hn, ok_bind]
  exact hwrite

end ExactCover.Matrix
