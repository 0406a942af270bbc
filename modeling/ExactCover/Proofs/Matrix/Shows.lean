import ExactCover.Proofs.Matrix.Splice
import ExactCover.Proofs.Matrix.Table
import Mathlib.Data.List.Range
import Mathlib.Logic.Function.Basic

/-!
# What a linked matrix shows

`Shows m t active linked` says that the links of `m` present the table `t` with the columns
`active` in the ring of headers and the rows `linked c` in the ring of each column `c`, be it
active or not. It says nothing of the links of an entry that has left its column.

## Key results

- `Shows.detach`: an entry leaves its column, and comes back exactly
- `Shows.deactivate`: a header leaves the ring of active headers, and comes back exactly
-/

namespace ExactCover.Matrix

/-- The nodes of `m` are those of the table `t`, and those of a row are linked in a ring. -/
structure Laid (m : Matrix) (t : Table) : Prop where
  nodeCount : m.nodes.size = t.nodeCount
  sizeCount : m.sizes.size = t.columnCount
  rowCount : m.rowCount = t.rows.countP fun r => !r.2.isEmpty
  headerRole : ∀ c < t.columnCount, m.role (header c) = some (.header c)
  entryRole : ∀ i, ∀ c ∈ t.columns i, m.role (t.entry i c) = some (.entry c (t.id i))
  rowLinks : ∀ i, ∀ j < (t.columns i).length,
    m.Joined .right (t.first i + j) (t.first i + (j + 1) % (t.columns i).length)

/-- The links of `m` present the table `t`. -/
structure Shows (m : Matrix) (t : Table) (active : List Nat) (linked : Nat → List Nat) : Prop
    extends Laid m t where
  headers : m.IsRing .right root (active.map header)
  active_lt : ∀ c ∈ active, c < t.columnCount
  column : ∀ c < t.columnCount, m.IsRing .down (header c) ((linked c).map (t.entry · c))
  member : ∀ c, ∀ i ∈ linked c, c ∈ t.columns i
  size : ∀ c < t.columnCount, m.sizes[c]? = some (linked c).length
  small : ∀ c, (linked c).length < wordBound

/-- The ring of a row, from any of its entries to the right. -/
theorem Laid.row {m : Matrix} {t : Table} {i c : Nat} (h : m.Laid t) (hc : c ∈ t.columns i) :
    m.IsRing .right (t.entry i c) ((t.others i c).map (t.entry i)) where
  nodup := by
    -- different columns have different entries
    rw [← List.map_cons]
    refine ((t.others_perm hc).nodup_iff.mpr (t.columns_nodup i)).map_on ?_
    intro d hd e he heq
    rw [(Table.others_perm hc).mem_iff] at hd he
    exact (Table.entry_inj hd he heq).2
  chain := by
    -- the links of the row count its entries and start anew at its end
    rw [Table.map_entry_others hc, List.isChain_map, List.isChain_range_succ]
    intro k _
    have hlt := List.idxOf_lt_length_of_mem hc
    have hmod := Nat.mod_lt ((t.columns i).idxOf c + k) (Nat.zero_lt_of_lt hlt)
    have hlink := h.rowLinks i _ hmod
    rwa [Nat.mod_add_mod, Nat.add_assoc] at hlink

/-- Links up and down, and the size of a column, are no part of the nodes of a table. -/
theorem Laid.spliceDown {m : Matrix} {t : Table} (h : m.Laid t) (p v q w c k : Nat) :
    ((m.splice .down p v q w).resize c k).Laid t where
  nodeCount := by simpa [resize] using h.nodeCount
  sizeCount := by simpa [resize] using h.sizeCount
  rowCount := h.rowCount
  headerRole c' hc' := (splice_role ..).trans (h.headerRole c' hc')
  entryRole i c' hc' := (splice_role ..).trans (h.entryRole i c' hc')
  rowLinks i j hj := (h.rowLinks i j hj).splice_of_dir_ne (by decide) (by decide) ..

/-- Links among the root and the headers are no part of the rows of a table. -/
theorem Laid.spliceRight {m : Matrix} {t : Table} {p q : Nat} (h : m.Laid t)
    (hp : p ≤ t.columnCount) (hq : q ≤ t.columnCount) (v w : Nat) :
    (m.splice .right p v q w).Laid t where
  nodeCount := by simpa using h.nodeCount
  sizeCount := h.sizeCount
  rowCount := h.rowCount
  headerRole d hd := (splice_role ..).trans (h.headerRole d hd)
  entryRole i d hd := (splice_role ..).trans (h.entryRole i d hd)
  rowLinks i j hj := by
    -- the root and the headers stand before all entries
    have hrow : ∀ j, t.first i + j ≠ p ∧ t.first i + j ≠ q := by
      intro j
      have := t.columnCount_lt_first i
      omega
    refine ⟨?_, ?_⟩
    · rw [link_splice, link_write_of_ne (hrow j).1]
      exact (h.rowLinks i j hj).1
    · rw [link_splice_back (hrow _).2]
      exact (h.rowLinks i j hj).2

namespace Shows

variable {m : Matrix} {t : Table} {active : List Nat} {linked : Nat → List Nat} {i c : Nat}

/-- The ring of a row, from any of its entries to the right. -/
theorem row (h : m.Shows t active linked) (hc : c ∈ t.columns i) :
    m.IsRing .right (t.entry i c) ((t.others i c).map (t.entry i)) :=
  h.toLaid.row hc

/-- No row is linked into a column twice. -/
theorem linked_nodup (h : m.Shows t active linked) (hc : c < t.columnCount) :
    (linked c).Nodup :=
  (List.nodup_cons.mp (h.column c hc).nodup).2.of_map

/-- The header and the entries of a column. -/
theorem columnNodes_disjoint (h : m.Shows t active linked) {c' x : Nat} (hc : c < t.columnCount)
    (hc' : c' < t.columnCount) (hne : c ≠ c')
    (hx : x ∈ header c :: (linked c).map (t.entry · c)) :
    x ∉ header c' :: (linked c').map (t.entry · c') := by
  intro hx'
  simp only [List.mem_cons, List.mem_map] at hx hx'
  -- two headers, a header and an entry either way, or two entries
  rcases hx with rfl | ⟨i, hi, rfl⟩ <;> rcases hx' with heq | ⟨j, hj, heq⟩
  · exact hne (Nat.succ.inj heq)
  · exact t.entry_ne_header j hc heq
  · exact t.entry_ne_header i hc' heq
  · exact hne (Table.entry_inj (h.member c i hi) (h.member c' j hj) heq.symm).2

/-- New links in one column, with the rows `l` in its ring afterwards. -/
theorem spliceColumn (h : m.Shows t active linked) (hc : c < t.columnCount) {p q v w : Nat}
    {l : List Nat} (hp : p ∈ header c :: (linked c).map (t.entry · c))
    (hq : q ∈ header c :: (linked c).map (t.entry · c))
    (hring : (m.splice .down p v q w).IsRing .down (header c) (l.map (t.entry · c)))
    (hmem : ∀ i ∈ l, c ∈ t.columns i) (hsmall : l.length < wordBound) :
    ((m.splice .down p v q w).resize c l.length).Shows t active (Function.update linked c l) where
  toLaid := h.toLaid.spliceDown ..
  headers := (h.headers.splice_of_dir_ne (by decide) (by decide) ..).resize ..
  active_lt := h.active_lt
  column c' hc' := by
    by_cases heq : c' = c
    · subst heq
      rw [Function.update_self]
      exact hring.resize ..
    -- the ring of another column meets neither of the nodes written
    · rw [Function.update_of_ne heq]
      have hp' := h.columnNodes_disjoint hc hc' (Ne.symm heq) hp
      have hq' := h.columnNodes_disjoint hc hc' (Ne.symm heq) hq
      exact ((h.column c' hc').splice hp' hq' ..).resize ..
  member c' i hi := by
    by_cases heq : c' = c
    · subst heq
      rw [Function.update_self] at hi
      exact hmem i hi
    · rw [Function.update_of_ne heq] at hi
      exact h.member c' i hi
  size c' hc' := by
    by_cases heq : c' = c
    · subst heq
      rw [Function.update_self]
      exact sizes_resize_self (by simpa using h.sizeCount ▸ hc') _
    · rw [Function.update_of_ne heq, sizes_resize_of_ne heq]
      exact h.size c' hc'
  small c' := by
    by_cases heq : c' = c
    · subst heq
      rwa [Function.update_self]
    · rw [Function.update_of_ne heq]
      exact h.small c'

/-- An entry of a linked row leaves its column, and `reattach` restores the matrix exactly. -/
theorem detach (h : m.Shows t active linked) (hc : c < t.columnCount) (hi : i ∈ linked c) :
    ∃ m', m.detach (t.entry i c) = .ok m' ∧
      m'.Shows t active (Function.update linked c ((linked c).erase i)) ∧
      m'.reattach (t.entry i c) = .ok m := by
  obtain ⟨p, q, hpx, hxq, hp, hq, hxr, hring⟩ := (h.column c hc).erase hi
  -- what is left of the ring is part of it
  have hsub : ∀ y ∈ header c :: ((linked c).erase i).map (t.entry · c),
      y ∈ header c :: (linked c).map (t.entry · c) := by
    intro y hy
    rw [List.mem_cons] at hy ⊢
    exact hy.imp_right fun hy => List.map_subset _ List.erase_subset hy
  have hrole := h.entryRole i c (h.member c i hi)
  have hsize := h.size c hc
  have hpos : 1 ≤ (linked c).length := List.length_pos_of_mem hi
  have hlen : ((linked c).erase i).length = (linked c).length - 1 := List.length_erase_of_mem hi
  have hsmall := h.small c
  -- in turn: the entry can be detached, the matrix shows one row less, and the way back restores it
  refine ⟨(m.splice .down p q q p).resize c ((linked c).length - 1), ?_, ?_, ?_⟩
  · rw [detach_eq hpx.2 hxq.1 (lt_of_link hpx.1) (lt_of_link hxq.2) hrole]
    exact shrink_eq hsize hpos
  · rw [← hlen]
    exact h.spliceColumn hc (hsub p hp) (hsub q hq) hring
      (fun j hj => h.member c j (List.erase_subset hj)) (by omega)
  · -- the entry kept its own links, since its neighbours are other nodes
    obtain ⟨hup, hdown⟩ := hpx.link_splice hxq (fun he => hxr (he ▸ hp)) (fun he => hxr (he ▸ hq))
    have hc' : c < (m.splice .down p q q p).sizes.size := by simpa [h.sizeCount] using hc
    have hreattach := reattach_eq (m := (m.splice .down p q q p).resize c ((linked c).length - 1))
      hup hdown (by simpa [resize] using lt_of_link hpx.1)
      (by simpa [resize] using lt_of_link hxq.2) ((splice_role ..).trans hrole)
      (sizes_resize_self hc' _) (by omega)
    rw [hreattach, Nat.sub_add_cancel hpos, resize_resize (m := m.splice .down p q q p) hsize,
      splice_splice hpx hxq]

/-- The header of an active column leaves the ring of active headers, and `activate` restores the
    matrix exactly. -/
theorem deactivate (h : m.Shows t active linked) (hc : c ∈ active) :
    ∃ m', m.deactivate (header c) = .ok m' ∧ m'.Shows t (active.erase c) linked ∧
      m'.activate (header c) = .ok m := by
  obtain ⟨p, q, hpx, hxq, hp, hq, hxr, hring⟩ := h.headers.erase hc
  -- the neighbours of the header are headers or the root
  have hlow : ∀ y ∈ root :: (active.erase c).map header, y ≤ t.columnCount := by
    intro y hy
    rw [List.mem_cons, List.mem_map] at hy
    rcases hy with rfl | ⟨d, hd, rfl⟩
    · exact Nat.zero_le _
    · exact h.active_lt d (List.erase_subset hd)
  refine ⟨m.splice .right p q q p,
    deactivate_eq hpx.2 hxq.1 (lt_of_link hpx.1) (lt_of_link hxq.2), ?_, ?_⟩
  · exact {
      toLaid := h.toLaid.spliceRight (hlow p hp) (hlow q hq) ..
      headers := hring
      active_lt := fun d hd => h.active_lt d (List.erase_subset hd)
      column := fun d hd => (h.column d hd).splice_of_dir_ne (by decide) (by decide) ..
      member := h.member
      size := h.size
      small := h.small }
  -- the header kept its own links, since its neighbours are other nodes
  · obtain ⟨hleft, hright⟩ :=
      hpx.link_splice hxq (fun he => hxr (he ▸ hp)) (fun he => hxr (he ▸ hq))
    have hactivate := activate_eq hleft hright (by simpa using lt_of_link hpx.1)
      (by simpa using lt_of_link hxq.2)
    rw [hactivate, splice_splice hpx hxq]

end Shows
end ExactCover.Matrix
