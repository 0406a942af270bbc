import ExactCover.Matrix.AddRow
import Mathlib.Data.List.Rotate

/-!
# Tables

The 0/1 matrix itself, apart from how it is linked: the number of its columns and its rows in the
order in which they were added. A row is known by its position in this order, since several rows
may bear the same identifier.

The position of a row also says where its entries stand among the nodes of the matrix, so every
entry is given by its row and its column.
-/

namespace ExactCover

/-- The columns of the row at a position. -/
def columnsAt (rows : List (Nat × List Nat)) (i : Nat) : List Nat := (rows[i]?.getD (0, [])).2

/-- The identifier of the row at a position. -/
def idAt (rows : List (Nat × List Nat)) (i : Nat) : Nat := (rows[i]?.getD (0, [])).1

/-- A 0/1 matrix, each row an identifier with its columns. -/
structure Table where
  columnCount : Nat
  rows : List (Nat × List Nat)
  inRange : ∀ r ∈ rows, ∀ c ∈ r.2, c < columnCount
  nodup : ∀ r ∈ rows, r.2.Nodup
  /-- Words can number the root and the headers. -/
  fits : columnCount + 1 < wordBound

namespace Table

variable (t : Table)

/-- The columns of a row. -/
def columns (i : Nat) : List Nat := columnsAt t.rows i

/-- The identifier of a row. -/
def id (i : Nat) : Nat := idAt t.rows i

/-- The index of the first entry of a row. -/
def first (i : Nat) : Nat := t.columnCount + 1 + ((t.rows.take i).flatMap Prod.snd).length

/-- The number of nodes: the root, the headers and the entries. -/
def nodeCount : Nat := t.first t.rows.length

/-- The index of the entry of a row in a column. -/
def entry (i c : Nat) : Nat := t.first i + (t.columns i).idxOf c

/-- The columns of a row other than `c`, from `c` to the right and around. -/
def others (i c : Nat) : List Nat := ((t.columns i).rotate ((t.columns i).idxOf c)).tail

variable {t} {i j c d : Nat}

/-- The header of a column has an index that fits in a word. -/
theorem headerOf_eq (h : c < t.columnCount) : Matrix.headerOf c = .ok (Matrix.header c) := by
  have hfits := t.fits
  rw [Matrix.headerOf, Word.add, if_pos (by omega)]
  rfl

/-- A position in the table has the columns of its row. -/
private theorem columns_of_lt (h : i < t.rows.length) : t.columns i = t.rows[i].2 := by
  rw [columns, columnsAt, List.getElem?_eq_getElem h, Option.getD_some]

/-- A position behind the table has no columns. -/
private theorem columns_of_le (h : t.rows.length ≤ i) : t.columns i = [] := by
  rw [columns, columnsAt, List.getElem?_eq_none h, Option.getD_none]

/-- What has a column is a row of the table. -/
theorem lt_of_mem_columns (h : c ∈ t.columns i) : i < t.rows.length := by
  by_contra hi
  rw [columns_of_le (Nat.le_of_not_lt hi)] at h
  exact absurd h List.not_mem_nil

/-- The columns of the rows are columns of the table. -/
theorem column_lt (h : c ∈ t.columns i) : c < t.columnCount := by
  have hi := lt_of_mem_columns h
  rw [columns_of_lt hi] at h
  exact t.inRange _ (List.getElem_mem hi) c h

/-- No row names a column twice. -/
theorem columns_nodup (t : Table) (i : Nat) : (t.columns i).Nodup := by
  by_cases hi : i < t.rows.length
  · rw [columns_of_lt hi]
    exact t.nodup _ (List.getElem_mem hi)
  · rw [columns_of_le (Nat.le_of_not_lt hi)]
    exact List.nodup_nil

/-! ## The places of the entries -/

/-- The entries of a row stand next to each other, and those of the next row follow. -/
private theorem first_succ (t : Table) (i : Nat) : t.first (i + 1) = t.first i +
    (t.columns i).length := by
  -- a row of the table takes a place for each of its columns
  by_cases hi : i < t.rows.length
  · simp only [first, columns_of_lt hi, List.take_add_one, List.getElem?_eq_getElem hi,
      Option.toList_some, List.flatMap_append, List.flatMap_singleton, List.length_append]
    omega
  -- behind the table nothing is added
  · have hle := Nat.le_of_not_lt hi
    rw [first, first, columns_of_le hle, List.take_of_length_le hle,
      List.take_of_length_le (Nat.le_succ_of_le hle)]
    rfl

/-- Rows stand in the order of their positions. -/
private theorem first_mono (t : Table) (h : i ≤ j) : t.first i ≤ t.first j := by
  induction h with
  | refl => exact Nat.le_refl _
  | step _ ih =>
    rw [Nat.succ_eq_add_one, first_succ]
    omega

/-- Every entry stands behind the headers. -/
theorem columnCount_lt_first (t : Table) (i : Nat) : t.columnCount < t.first i := by
  rw [first]
  omega

/-- The entries of a row end before the next row begins. -/
private theorem entry_lt (h : c ∈ t.columns i) : t.entry i c < t.first (i + 1) := by
  have := List.idxOf_lt_length_of_mem h
  rw [entry, first_succ]
  omega

/-- Entries stand in the order of their rows. -/
theorem entry_lt_entry (hc : c ∈ t.columns i) (h : i < j) (d : Nat) :
    t.entry i c < t.entry j d := by
  have hi := entry_lt hc
  have hj := t.first_mono (show i + 1 ≤ j from h)
  rw [entry] at hi ⊢
  rw [entry]
  omega

/-- An entry determines its row and its column. -/
theorem entry_inj (hc : c ∈ t.columns i) (hd : d ∈ t.columns j)
    (h : t.entry i c = t.entry j d) : i = j ∧ c = d := by
  -- in different rows the earlier entry is the smaller one
  rcases Nat.lt_trichotomy i j with hlt | rfl | hlt
  · exact absurd h (Nat.ne_of_lt (entry_lt_entry hc hlt d))
  · rw [entry, entry, Nat.add_left_cancel_iff, List.idxOf_inj hc] at h
    exact ⟨rfl, h⟩
  · exact absurd h.symm (Nat.ne_of_lt (entry_lt_entry hd hlt c))

/-- No entry stands where a header or the root stands. -/
theorem entry_ne_header (t : Table) (i : Nat) (h : d < t.columnCount) :
    t.entry i c ≠ Matrix.header d := by
  have := t.columnCount_lt_first i
  rw [entry, Matrix.header]
  omega

/-- Every node behind the headers is an entry. -/
theorem exists_entry {x : Nat} (hx : t.columnCount < x) (hlt : x < t.nodeCount) :
    ∃ i, ∃ c ∈ t.columns i, t.entry i c = x := by
  -- the first row that ends behind the node
  have hrow : ∀ k, x < t.first k → ∃ i, t.first i ≤ x ∧ x < t.first (i + 1) := by
    intro k hk
    induction k with
    | zero =>
      have hzero : t.first 0 = t.columnCount + 1 := rfl
      omega
    | succ k ih =>
      by_cases h : x < t.first k
      · exact ih h
      · exact ⟨k, Nat.le_of_not_lt h, hk⟩
  obtain ⟨i, hle, hi⟩ := hrow _ hlt
  rw [first_succ] at hi
  have hj : x - t.first i < (t.columns i).length := by omega
  -- its place in the row tells the column
  refine ⟨i, (t.columns i)[x - t.first i], List.getElem_mem hj, ?_⟩
  rw [entry, (t.columns_nodup i).idxOf_getElem _ hj]
  omega

/-! ## Around a row -/

/-- Turning a row so that it starts at `c`. -/
private theorem rotate_columns (h : c ∈ t.columns i) :
    (t.columns i).rotate ((t.columns i).idxOf c) = c :: t.others i c := by
  have hlt := List.idxOf_lt_length_of_mem h
  have hrot : (t.columns i).rotate ((t.columns i).idxOf c) ≠ [] := by
    rw [Ne, List.rotate_eq_nil_iff]
    exact List.ne_nil_of_mem h
  rw [others, ← List.cons_head_tail hrot]
  congr 1
  rw [List.head_eq_getElem, List.getElem_rotate]
  simp only [Nat.zero_add, Nat.mod_eq_of_lt hlt, List.getElem_idxOf]

/-- The other columns of a row, all of them and each once. -/
theorem others_perm (h : c ∈ t.columns i) : (c :: t.others i c).Perm (t.columns i) := by
  rw [← rotate_columns h]
  exact List.rotate_perm ..

/-- The other columns of a row are its columns but one. -/
theorem mem_others (h : c ∈ t.columns i) : d ∈ t.others i c ↔ d ∈ t.columns i ∧ d ≠ c := by
  have hnodup := (others_perm h).nodup_iff.mpr (t.columns_nodup i)
  rw [List.nodup_cons] at hnodup
  rw [← (others_perm h).mem_iff, List.mem_cons]
  constructor
  · intro hd
    exact ⟨.inr hd, fun hdc => hnodup.1 (hdc ▸ hd)⟩
  · rintro ⟨rfl | hd, hne⟩
    · exact absurd rfl hne
    · exact hd

/-- No other column is named twice. -/
theorem others_nodup (h : c ∈ t.columns i) : (t.others i c).Nodup :=
  (List.nodup_cons.mp ((others_perm h).nodup_iff.mpr (t.columns_nodup i))).2

/-- There is one column more than there are others. -/
theorem others_length (h : c ∈ t.columns i) :
    (t.others i c).length + 1 = (t.columns i).length := by
  rw [← (others_perm h).length_eq, List.length_cons]

/-- The entries of a row from `c` to the right, around and back at `c`. -/
theorem map_entry_others (h : c ∈ t.columns i) :
    t.entry i c :: ((t.others i c).map (t.entry i) ++ [t.entry i c]) =
      (List.range ((t.columns i).length + 1)).map fun k =>
        t.first i + ((t.columns i).idxOf c + k) % (t.columns i).length := by
  have hlt := List.idxOf_lt_length_of_mem h
  -- the row is turned so that it starts at `c`
  rw [List.range_succ, List.map_append, ← List.cons_append, ← List.map_cons,
    ← rotate_columns h]
  congr 1
  -- entry by entry: the place in the turned row, counted from the beginning of the row
  · refine List.ext_getElem (by simp) fun k hk hk' => ?_
    simp only [List.length_map, List.length_rotate] at hk
    have hmod := Nat.mod_lt (k + (t.columns i).idxOf c) (Nat.zero_lt_of_lt hlt)
    rw [List.getElem_map, List.getElem_rotate, entry,
      (t.columns_nodup i).idxOf_getElem _ hmod, List.getElem_map, List.getElem_range,
      Nat.add_comm k]
  -- the last step leads back to the first entry
  · rw [List.map_singleton, Nat.add_mod_right, Nat.mod_eq_of_lt hlt]
    rfl

/-! ## One more row -/

/-- The table with one more row. -/
def snoc (t : Table) (r : Nat × List Nat) (hlt : ∀ c ∈ r.2, c < t.columnCount)
    (hnodup : r.2.Nodup) : Table where
  columnCount := t.columnCount
  rows := t.rows ++ [r]
  inRange r' hr' c hc := by
    rcases List.mem_append.mp hr' with hr' | hr'
    · exact t.inRange r' hr' c hc
    · rw [List.mem_singleton.mp hr'] at hc
      exact hlt c hc
  nodup r' hr' := by
    rcases List.mem_append.mp hr' with hr' | hr'
    · exact t.nodup r' hr'
    · rw [List.mem_singleton.mp hr']
      exact hnodup
  fits := t.fits

variable {r : Nat × List Nat} {hlt : ∀ c ∈ r.2, c < t.columnCount} {hnodup : r.2.Nodup}

/-- An old row stays where it is. -/
private theorem snoc_row (h : i < t.rows.length) :
    (t.snoc r hlt hnodup).rows[i]? = t.rows[i]? :=
  List.getElem?_append_left h

/-- The new row comes last. -/
private theorem snoc_row_self : (t.snoc r hlt hnodup).rows[t.rows.length]? = some r :=
  List.getElem?_concat_length

/-- An old row keeps its columns. -/
theorem snoc_columns (h : i < t.rows.length) : (t.snoc r hlt hnodup).columns i = t.columns i := by
  rw [columns, columnsAt, snoc_row h]
  rfl

/-- The new row has its own columns. -/
theorem snoc_columns_self : (t.snoc r hlt hnodup).columns t.rows.length = r.2 := by
  rw [columns, columnsAt, snoc_row_self]
  rfl

/-- An old row keeps its identifier. -/
theorem snoc_id (h : i < t.rows.length) : (t.snoc r hlt hnodup).id i = t.id i := by
  rw [id, idAt, snoc_row h]
  rfl

/-- The new row has its own identifier. -/
theorem snoc_id_self : (t.snoc r hlt hnodup).id t.rows.length = r.1 := by
  rw [id, idAt, snoc_row_self]
  rfl

/-- The entries of an old row stay where they are, and those of the new one come next. -/
theorem snoc_first (h : i ≤ t.rows.length) : (t.snoc r hlt hnodup).first i = t.first i := by
  simp only [first, snoc, List.take_append_of_le_length h]

/-- An old entry stays where it is. -/
theorem snoc_entry (h : i < t.rows.length) (c : Nat) :
    (t.snoc r hlt hnodup).entry i c = t.entry i c := by
  rw [entry, snoc_first h.le, snoc_columns h]
  rfl

/-- The entries of the new row stand behind all nodes. -/
theorem snoc_entry_self (c : Nat) :
    (t.snoc r hlt hnodup).entry t.rows.length c = t.nodeCount + r.2.idxOf c := by
  rw [entry, snoc_first le_rfl, snoc_columns_self]
  rfl

/-- There is a new node for each column of the new row. -/
theorem snoc_nodeCount : (t.snoc r hlt hnodup).nodeCount = t.nodeCount + r.2.length := by
  have hlen : (t.snoc r hlt hnodup).rows.length = t.rows.length + 1 := by simp [snoc]
  rw [nodeCount, hlen, first_succ, snoc_first le_rfl, snoc_columns_self]
  rfl

/-- A row of the table with one more row is an old one or the new one. -/
theorem snoc_cases (hc : c ∈ (t.snoc r hlt hnodup).columns i) :
    i < t.rows.length ∨ i = t.rows.length := by
  have := lt_of_mem_columns hc
  have hlen : (t.snoc r hlt hnodup).rows.length = t.rows.length + 1 := by simp [snoc]
  omega

/-- A column of an old row is one of its columns still. -/
theorem mem_snoc_columns (h : c ∈ t.columns i) : c ∈ (t.snoc r hlt hnodup).columns i := by
  rwa [snoc_columns (lt_of_mem_columns h)]

/-! ### The rows of a column

The old rows of a column are what they were. A new row comes in below them. -/

variable {rows : List Nat}

/-- The old entries of a column stay where they are. -/
theorem map_snoc_entry (h : ∀ i ∈ rows, c ∈ t.columns i) :
    rows.map ((t.snoc r hlt hnodup).entry · c) = rows.map (t.entry · c) :=
  List.map_congr_left fun i hi => snoc_entry (lt_of_mem_columns (h i hi)) c

/-- The old rows of a column keep their identifiers. -/
theorem map_snoc_id (h : ∀ i ∈ rows, c ∈ t.columns i) :
    rows.map (t.snoc r hlt hnodup).id = rows.map t.id :=
  List.map_congr_left fun i hi => snoc_id (lt_of_mem_columns (h i hi))

/-- The rows of a column have the column, the new one included. -/
theorem snoc_member (h : ∀ i ∈ rows, c ∈ t.columns i) :
    ∀ i ∈ if c ∈ r.2 then rows ++ [t.rows.length] else rows,
      c ∈ (t.snoc r hlt hnodup).columns i := by
  intro i hi
  split at hi
  next hc =>
    rcases List.mem_append.mp hi with hi | hi
    · exact mem_snoc_columns (h i hi)
    · rwa [List.mem_singleton.mp hi, snoc_columns_self]
  next => exact mem_snoc_columns (h i hi)

/-- The entries of a column, with that of the new row below them. -/
theorem snoc_map_entry (h : ∀ i ∈ rows, c ∈ t.columns i) :
    (if c ∈ r.2 then rows ++ [t.rows.length] else rows).map ((t.snoc r hlt hnodup).entry · c) =
      if c ∈ r.2 then rows.map (t.entry · c) ++ [t.nodeCount + r.2.idxOf c]
      else rows.map (t.entry · c) := by
  split
  · rw [List.map_append, map_snoc_entry h, List.map_singleton, snoc_entry_self]
  · exact map_snoc_entry h

/-- The identifiers of the rows of a column, with that of the new row behind them. -/
theorem snoc_map_id (h : ∀ i ∈ rows, c ∈ t.columns i) :
    (if c ∈ r.2 then rows ++ [t.rows.length] else rows).map (t.snoc r hlt hnodup).id =
      if c ∈ r.2 then rows.map t.id ++ [r.1] else rows.map t.id := by
  split
  · rw [List.map_append, map_snoc_id h, List.map_singleton, snoc_id_self]
  · exact map_snoc_id h

/-! ## More rows -/

/-- A row stays where it is when rows follow. -/
theorem of_isPrefix {t' : Table} (hcount : t'.columnCount = t.columnCount)
    (hrows : t.rows <+: t'.rows) (hi : i < t.rows.length) :
    t'.columns i = t.columns i ∧ t'.first i = t.first i := by
  obtain ⟨rs, hrs⟩ := hrows
  refine ⟨?_, ?_⟩
  · rw [columns, columns, columnsAt, columnsAt, ← hrs, List.getElem?_append_left hi]
  · rw [first, first, hcount, ← hrs, List.take_append_of_le_length hi.le]

end Table
end ExactCover
