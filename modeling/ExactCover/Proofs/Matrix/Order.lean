import ExactCover.Proofs.Matrix.AddRow
import ExactCover.Proofs.Matrix.Climb

/-!
# Columns in order

Covers and uncovers that are not nested write links that do not belong together, and a row may be
added while its columns are covered. The rings of the headers and of the columns are no rings any
more then. But their links still climb: to the right they lead from a column to a later one, and
down a column from a row to one added later. The links within a row are never written again. No
operation leaves this order, so each of them comes to its end, unless a size leaves the range of a
word.

## Key results

- `Ordered.cover`, `Ordered.uncover`, `Ordered.addRow`: what each operation preserves
- `Ordered.exists_active`, `Ordered.exists_rows`: the ways around the headers and down a column
- `Covered.ordered`: where the operations may start
-/

namespace ExactCover

/-- The nodes of a column: its header and the entries of its rows, linked into it or not. -/
def Table.line (t : Table) (c : Nat) : Set Nat :=
  {x | x = Matrix.header c ∨ ∃ i, c ∈ t.columns i ∧ t.entry i c = x}

namespace Table

variable {t : Table} {c c' i x : Nat}

private theorem header_mem_line (t : Table) (c : Nat) : Matrix.header c ∈ t.line c := .inl rfl

private theorem entry_mem_line (h : c ∈ t.columns i) : t.entry i c ∈ t.line c := .inr ⟨i, h, rfl⟩

/-- The nodes met on the way down a column are nodes of the column. -/
theorem mem_line_of_mem_nodes {rows : List Nat} (hmem : ∀ i ∈ rows, c ∈ t.columns i)
    (hx : x ∈ Matrix.header c :: rows.map (t.entry · c)) : x ∈ t.line c := by
  rcases List.mem_cons.mp hx with rfl | hx
  · exact t.header_mem_line c
  · obtain ⟨i, hi, rfl⟩ := List.mem_map.mp hx
    exact entry_mem_line (hmem i hi)

/-- No node belongs to two columns. -/
private theorem eq_of_mem_line (hc : c < t.columnCount) (hc' : c' < t.columnCount)
    (hx : x ∈ t.line c) (hx' : x ∈ t.line c') :
    c = c' := by
  -- two headers, a header and an entry, or two entries
  rcases hx with rfl | ⟨i, hi, rfl⟩ <;> rcases hx' with heq | ⟨j, hj, heq⟩
  · exact Nat.succ.inj heq
  · exact absurd heq (t.entry_ne_header j hc)
  · exact absurd heq (t.entry_ne_header i hc')
  · exact (entry_inj hi hj heq.symm).2

/-- A new row has one entry in each of its columns. -/
private theorem line_snoc {r : Nat × List Nat} (hlt : ∀ c ∈ r.2, c < t.columnCount)
    (hnodup : r.2.Nodup) (c : Nat) :
    (t.snoc r hlt hnodup).line c =
      if c ∈ r.2 then insert (t.nodeCount + r.2.idxOf c) (t.line c) else t.line c := by
  have hold : t.line c ⊆ (t.snoc r hlt hnodup).line c := by
    rintro x (rfl | ⟨i, hi, rfl⟩)
    · exact .inl rfl
    · have hlt := lt_of_mem_columns hi
      exact .inr ⟨i, by rwa [snoc_columns hlt], snoc_entry hlt c⟩
  refine Set.Subset.antisymm ?_ ?_
  -- a node of the column then is the header, an entry of an old row, or the entry of the new one
  · rintro x (rfl | ⟨i, hi, rfl⟩)
    · split
      · exact .inr (t.header_mem_line c)
      · exact t.header_mem_line c
    · rcases snoc_cases hi with hlt | rfl
      · rw [snoc_columns hlt] at hi
        rw [snoc_entry hlt]
        split
        · exact .inr (entry_mem_line hi)
        · exact entry_mem_line hi
      · rw [snoc_columns_self] at hi
        rw [if_pos hi, snoc_entry_self]
        exact .inl rfl
  · split
    next hc =>
      rintro x (rfl | hx)
      · exact .inr ⟨t.rows.length, by rwa [snoc_columns_self], snoc_entry_self c⟩
      · exact hold hx
    next => exact hold

end Table

namespace Matrix

/-- The matrix `m` has the nodes and the rows of the table `t`, and its links among the headers
    and down the columns climb. -/
structure Ordered (m : Matrix) (t : Table) : Prop extends Laid m t where
  headers : m.Climbs .right root {x | x ≤ t.columnCount}
  columns : ∀ c < t.columnCount, m.Climbs .down (header c) (t.line c)

variable {m m' : Matrix} {t : Table} {c i n row first last : Nat}

namespace Ordered

/-! ## Covering and uncovering -/

/-- New links down a column that climb. -/
private theorem spliceColumn (h : m.Ordered t) (hc : c < t.columnCount) {p q v w : Nat}
    (hp : p ∈ t.line c) (hq : q ∈ t.line c)
    (hclimbs : (m.splice .down p v q w).Climbs .down (header c) (t.line c)) (k : Nat) :
    ((m.splice .down p v q w).resize c k).Ordered t where
  toLaid := h.toLaid.spliceDown ..
  headers := (h.headers.splice_of_dir_ne (by decide) (by decide) ..).resize ..
  columns d hd := by
    -- the nodes of the other columns are out of reach
    by_cases heq : d = c
    · subst heq
      exact hclimbs.resize ..
    · have hnot : ∀ x ∈ t.line c, x ∉ t.line d := fun x hx hx' =>
        heq (Table.eq_of_mem_line hd hc hx' hx)
      exact ((h.columns d hd).splice_of_not_mem (hnot p hp) (hnot q hq) v w).resize ..

/-- New links among the headers that climb. -/
private theorem spliceHeaders (h : m.Ordered t) {p q v w : Nat} (hp : p ≤ t.columnCount)
    (hq : q ≤ t.columnCount)
    (hclimbs : (m.splice .right p v q w).Climbs .right root {x | x ≤ t.columnCount}) :
    (m.splice .right p v q w).Ordered t where
  toLaid := h.toLaid.spliceRight hp hq ..
  headers := hclimbs
  columns d hd := (h.columns d hd).splice_of_dir_ne (by decide) (by decide) ..

/-- An entry joins the two nodes that it names, whether it stands between them or not. -/
theorem detach (h : m.Ordered t) (hc : c ∈ t.columns i) :
    Leads (·.Ordered t) (m.detach (t.entry i c)) := by
  have hlt := Table.column_lt hc
  have hline := h.columns c hlt
  obtain ⟨p, hp, q, hq, hup, hdown, hclimbs, -⟩ :=
    hline.exists_neighbours (Table.entry_mem_line hc) (t.entry_ne_header i hlt)
  have hsize : c < (m.splice .down p q q p).sizes.size := by simpa [h.sizeCount] using hlt
  have hk := Array.getElem?_eq_getElem hsize
  rw [detach_eq hup hdown (hline.lt hp) (hline.lt hq) (h.entryRole i c hc)]
  -- the size may leave the range of a word, and nothing else can fail
  by_cases hpos : 1 ≤ (m.splice .down p q q p).sizes[c]
  · rw [shrink_eq hk hpos]
    exact h.spliceColumn hlt hp hq hclimbs _
  · rw [shrink_eq_overflow hk hpos]
    rfl

/-- An entry is written between the two nodes that it names, whatever stands there. -/
theorem reattach (h : m.Ordered t) (hc : c ∈ t.columns i) :
    Leads (·.Ordered t) (m.reattach (t.entry i c)) := by
  have hlt := Table.column_lt hc
  have hline := h.columns c hlt
  obtain ⟨p, hp, q, hq, hup, hdown, -, hclimbs⟩ :=
    hline.exists_neighbours (Table.entry_mem_line hc) (t.entry_ne_header i hlt)
  have hrole := h.entryRole i c hc
  have hsize : c < m.sizes.size := h.sizeCount ▸ hlt
  have hk := Array.getElem?_eq_getElem hsize
  -- the size is written first, so it decides whether anything is written
  by_cases hsmall : m.sizes[c] + 1 < wordBound
  · rw [reattach_eq hup hdown (hline.lt hp) (hline.lt hq) hrole hk hsmall]
    exact h.spliceColumn hlt hp hq hclimbs _
  · rw [reattach_eq_overflow hrole hk hsmall]
    rfl

/-- A header joins the two headers that it names, be it active or not. -/
theorem deactivate (h : m.Ordered t) (hc : c < t.columnCount) :
    Leads (·.Ordered t) (m.deactivate (header c)) := by
  obtain ⟨p, hp, q, hq, hleft, hright, hclimbs, -⟩ :=
    h.headers.exists_neighbours (show header c ≤ t.columnCount from hc) (Nat.succ_ne_zero c)
  rw [deactivate_eq hleft hright (h.headers.lt hp) (h.headers.lt hq)]
  exact h.spliceHeaders hp hq hclimbs

/-- A header is written between the two headers that it names, be it active or not. -/
theorem activate (h : m.Ordered t) (hc : c < t.columnCount) :
    Leads (·.Ordered t) (m.activate (header c)) := by
  obtain ⟨p, hp, q, hq, hleft, hright, -, hclimbs⟩ :=
    h.headers.exists_neighbours (show header c ≤ t.columnCount from hc) (Nat.succ_ne_zero c)
  rw [activate_eq hleft hright (h.headers.lt hp) (h.headers.lt hq)]
  exact h.spliceHeaders hp hq hclimbs

/-- A column can be covered at any time. -/
theorem cover (h : m.Ordered t) (hc : c < t.columnCount) :
    Leads (·.Ordered t) (m.cover c) := by
  simp only [Matrix.cover, Table.headerOf_eq hc, ok_bind]
  refine (h.deactivate hc).bind fun m₁ h₁ => ?_
  -- the walk down the column stays in its line, and each row met is a ring
  refine Climbs.around_leads (d := .down) (fun m hm x hx hne => ?_) (fun m hm => hm.columns c hc) h₁
  obtain ⟨i, hi, rfl⟩ := hx.resolve_left hne
  refine IsRing.around_leads (d := .right) (fun m hm x hx => ?_) (fun m hm => hm.row hi) hm
  obtain ⟨d, hd, rfl⟩ := List.mem_map.mp hx
  exact hm.detach ((Table.mem_others hi).mp hd).1

/-- A column can be uncovered at any time. -/
theorem uncover (h : m.Ordered t) (hc : c < t.columnCount) :
    Leads (·.Ordered t) (m.uncover c) := by
  simp only [Matrix.uncover, Table.headerOf_eq hc, ok_bind]
  -- the walk up the column stays in its line, and each row met is a ring
  refine Leads.bind (P := (·.Ordered t)) ?_ fun m hm => hm.activate hc
  refine Climbs.around_back_leads (d := .down) (fun m hm x hx hne => ?_)
    (fun m hm => hm.columns c hc) h
  obtain ⟨i, hi, rfl⟩ := hx.resolve_left hne
  refine IsRing.around_leads (d := .left) (fun m hm x hx => ?_)
    (fun m hm => (hm.row hi).reverse) hm
  obtain ⟨d, hd, rfl⟩ := List.mem_map.mp (List.mem_reverse.mp hx)
  exact hm.reattach ((Table.mem_others hi).mp hd).1

end Ordered

/-! ## Adding rows -/

namespace Ordered

/-- Each column has its line of nodes to itself. -/
theorem lanes (h : m.Ordered t) : m.Lanes t.columnCount t.line where
  header_mem c _ := t.header_mem_line c
  lt c hc _ hx := (h.columns c hc).lt hx
  up c hc := by
    obtain ⟨p, hp, hlink, -⟩ := (h.columns c hc).prev _ (t.header_mem_line c)
    exact ⟨p, hp, hlink⟩
  disjoint _ hc _ hc' _ hx hx' := Table.eq_of_mem_line hc hc' hx hx'
  sizeCount := h.sizeCount

/-- A row can be added at any time. -/
theorem addRow {r : Nat × List Nat} (h : m.Ordered t) (hadd : m.addRow r.1 r.2 = .ok m') :
    ∃ (hlt : ∀ c ∈ r.2, c < t.columnCount) (hnodup : r.2.Nodup),
      m'.Ordered (t.snoc r hlt hnodup) := by
  obtain ⟨hlt, hnodup, hlaid⟩ := h.toLaid.addRow hadd
  have hgrown := h.lanes.grown_of_addRow hadd
  -- the headers are old nodes, and of the columns only those of the row have grown
  refine ⟨hlt, hnodup, hlaid, ?_, fun c hc => ?_⟩
  · exact h.headers.congr
      (fun x hx => link_of_addRow hadd (h.headers.lt hx) (by decide) (by decide))
      fun x hx => link_of_addRow hadd (h.headers.lt hx) (by decide) (by decide)
  · rw [Table.line_snoc hlt hnodup, ← h.nodeCount]
    by_cases hmem : c ∈ r.2
    · rw [if_pos hmem]
      exact (hgrown.bottom c hmem).climbs (h.columns c hc)
    · have hkept := hgrown.kept c hc hmem
      rw [if_neg hmem]
      exact (h.columns c hc).congr (hkept · · .down) (hkept · · .up)

/-- A row is refused for its columns, unless one of these is full. -/
theorem eq_overflow_of_addRow {columns : List Nat} {cause : Fault} (h : m.Ordered t)
    (hadd : m.addRow row columns = .error (.fault cause)) : cause = .overflow := by
  obtain ⟨hlt, hnodup, hadd⟩ := of_addRow_eq_fault hadd
  have hgrows := h.lanes.appendEntries (h.sizeCount ▸ hlt) hnodup row m.nodes.size
    (m.nodes.size + columns.length - 1)
  rw [hadd] at hgrows
  exact hgrows.1

end Ordered

/-! ## The ways around -/

/-- A list of images is the image of a list. -/
theorem exists_map_eq {f : Nat → Nat} {P : Nat → Prop} {l : List Nat}
    (h : ∀ x ∈ l, ∃ a, P a ∧ f a = x) : ∃ as : List Nat, as.map f = l ∧ ∀ a ∈ as, P a := by
  induction l with
  | nil => exact ⟨[], rfl, by simp⟩
  | cons x l ih =>
    obtain ⟨a, ha, rfl⟩ := h x (List.mem_cons_self ..)
    obtain ⟨as, rfl, has⟩ := ih fun y hy => h y (List.mem_cons_of_mem _ hy)
    exact ⟨a :: as, rfl, List.forall_mem_cons.mpr ⟨ha, has⟩⟩

namespace Ordered

/-- The way around the headers. -/
theorem exists_active (h : m.Ordered t) : ∃ active : List Nat,
    m.Round .right root (active.map header) ∧ active.Pairwise (· < ·) ∧
      ∀ c ∈ active, c < t.columnCount := by
  obtain ⟨l, hround, hl⟩ := h.headers.exists_round
  have hsorted := List.pairwise_cons.mp hround.sorted
  -- the nodes met behind the root are headers
  obtain ⟨active, rfl, hactive⟩ : ∃ active : List Nat, active.map header = l ∧
      ∀ c ∈ active, c < t.columnCount := by
    refine exists_map_eq fun x hx => ?_
    obtain ⟨c, rfl⟩ := Nat.exists_eq_add_one_of_ne_zero (Nat.ne_zero_of_lt (hsorted.1 x hx))
    exact ⟨c, hl _ hx, rfl⟩
  exact ⟨active, hround, (List.pairwise_map.mp hsorted.2).imp Nat.lt_of_succ_lt_succ, hactive⟩

/-- The way down a column. -/
theorem exists_rows (h : m.Ordered t) (hc : c < t.columnCount) : ∃ rows : List Nat,
    m.Round .down (header c) (rows.map (t.entry · c)) ∧ rows.Pairwise (· < ·) ∧
      ∀ i ∈ rows, c ∈ t.columns i := by
  obtain ⟨l, hround, hl⟩ := (h.columns c hc).exists_round
  have hsorted := List.pairwise_cons.mp hround.sorted
  -- the nodes met below the header are entries of the column
  obtain ⟨rows, rfl, hrows⟩ : ∃ rows : List Nat, rows.map (t.entry · c) = l ∧
      ∀ i ∈ rows, c ∈ t.columns i := by
    refine exists_map_eq fun x hx => ?_
    exact (hl x hx).resolve_left (Nat.ne_of_gt (hsorted.1 x hx))
  -- later entries are those of later rows
  refine ⟨rows, hround, (List.pairwise_map.mp hsorted.2).imp_of_mem ?_, hrows⟩
  intro i j _ hj hij
  by_contra hji
  rcases Nat.lt_or_eq_of_le (Nat.le_of_not_lt hji) with hlt | rfl
  · exact Nat.lt_asymm hij (Table.entry_lt_entry (hrows j hj) hlt c)
  · exact Nat.lt_irrefl _ hij

/-- Each column has a size. -/
theorem exists_columnSize (h : m.Ordered t) (hc : c < t.columnCount) :
    ∃ size, m.columnSize c = .ok size :=
  ⟨_, Matrix.columnSize_eq (Array.getElem?_eq_getElem (h.sizeCount ▸ hc))⟩

end Ordered

/-! ## Where the operations start -/

/-- As long as no column is covered, all links climb. -/
theorem Covered.ordered (h : m.Covered t []) : m.Ordered t where
  toLaid := h.shows.toLaid
  headers := by
    have hring := h.shows.headers
    -- the headers stand in their own order
    have hnodes : root :: (t.active []).map header = List.range (t.columnCount + 1) := by
      rw [Table.active_nil]
      exact List.range_succ_eq_map.symm
    have hclimbs := hring.climbs (hnodes ▸ List.pairwise_lt_range)
    convert hclimbs using 1
    ext x
    rw [Set.mem_ofPred_eq, Set.mem_ofPred_eq, hnodes, List.mem_range, Nat.lt_succ_iff]
  columns c hc := by
    have hring := h.shows.column c hc
    -- and all rows of a column are linked into it, in theirs
    have hmem : ∀ i, i ∈ t.linked [] c ↔ c ∈ t.columns i := by
      intro i
      rw [Table.mem_linked, Table.before_of_not_mem List.not_mem_nil]
      simp
    have hsorted : (t.linked [] c).Pairwise (· < ·) := by
      rw [Table.linked_nil]
      exact List.pairwise_lt_range.filter _
    have hclimbs := hring.climbs (List.pairwise_cons.mpr ⟨?_, List.pairwise_map.mpr ?_⟩)
    · convert hclimbs using 1
      ext x
      simp only [Table.line, Set.mem_ofPred_eq, List.mem_cons, List.mem_map, hmem]
    · intro x hx
      obtain ⟨i, -, rfl⟩ := List.mem_map.mp hx
      have := t.columnCount_lt_first i
      rw [header, Table.entry]
      omega
    · exact hsorted.imp_of_mem fun {i j} hi _ hij => Table.entry_lt_entry ((hmem i).mp hi) hij c

end Matrix
end ExactCover
