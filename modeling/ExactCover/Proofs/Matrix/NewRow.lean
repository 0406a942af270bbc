import ExactCover.Proofs.Matrix.Operations

/-!
# A new row, or none

A row is linked into the matrix write by write. Its columns are looked at before the first of these
writes, so a row that is refused for them leaves the matrix as it was. A row that is accepted comes
in at the bottom of its columns, also in a matrix in which columns have been covered and uncovered
in any order, and leaves the others alone. Links that were in order stay in order.

## Key results

- `outcome_addRowInPlace`: a row that is linked write by write is the row added
- `Ordered.gains`: what an accepted row adds to a matrix whose links climb
- `operations_addRow`: a new row after any sequence of operations
-/

namespace ExactCover.Matrix

/-! ## Write by write -/

/-- Reads from a matrix that is changed in place. -/
def read {α : Type} (f : Matrix → Except Fault α) : EStateM RowError Matrix α := fun m =>
  match f m with
  | .ok a => .ok a m
  | .error cause => .error (.fault cause) m

/-- One write to a matrix that is changed in place. A write that fails writes nothing. -/
def inPlace (f : Matrix → Except Fault Matrix) : EStateM RowError Matrix Unit := fun m =>
  match f m with
  | .ok m' => .ok () m'
  | .error cause => .error (.fault cause) m

/-- Adds an entry: a new node, the links of its two neighbours, and the size of its column. -/
def appendEntryInPlace (row left right column : Nat) : EStateM RowError Matrix Unit := do
  let id := (← get).nodes.size
  let up := (← read (·.node (header column))).up
  modify (·.push { left, right, up, down := header column, role := .entry column row })
  inPlace (·.modifyNode up fun n => { n with down := id })
  inPlace (·.modifyNode (header column) fun n => { n with up := id })
  inPlace (·.grow column)

/-- Adds the entries of a row one after the other. -/
def appendEntriesInPlace (row first last : Nat) : Nat → List Nat → EStateM RowError Matrix Unit
  | _, [] => return
  | id, column :: columns => do
    let left := if id = first then last else id - 1
    let right := if id = last then first else id + 1
    appendEntryInPlace row left right column
    appendEntriesInPlace row first last (id + 1) columns

/-- Adds a row. Nothing is written before its columns have been looked at. -/
def addRowInPlace (row : Nat) (columns : List Nat) : EStateM RowError Matrix Unit := do
  let m ← get
  if ¬ ∀ c ∈ columns, c < m.sizes.size then
    throw (.columnOutOfRange row m.sizes.size)
  else if ¬ columns.Nodup then
    throw (.duplicateColumn row)
  else if columns.isEmpty then
    return
  else
    let first := m.nodes.size
    appendEntriesInPlace row first (first + columns.length - 1) first columns
    modify fun m => { m with rowCount := m.rowCount + 1 }

/-- The matrix that has been written, unless a write has failed. -/
def outcome : EStateM.Result RowError Matrix Unit → Except RowError Matrix
  | .ok _ m => .ok m
  | .error e _ => .error e

variable {m m' k : Matrix} {t : Table} {row n c : Nat} {columns : List Nat} {e : RowError}

/-- One computation after the other, of which only the matrix written counts. -/
private theorem outcome_bind (x : EStateM RowError Matrix Unit)
    (f : Unit → EStateM RowError Matrix Unit) (m : Matrix) :
    outcome ((x >>= f) m) = outcome (x m) >>= fun m' => outcome (f () m') := by
  show outcome (EStateM.bind x f m) = _
  unfold EStateM.bind
  cases x m <;> rfl

/-- A write in place is the write. -/
private theorem outcome_inPlace (f : Matrix → Except Fault Matrix) (m : Matrix) :
    outcome (inPlace f m) = (f m).mapError .fault := by
  rw [inPlace]
  cases f m <;> rfl

/-- A reading leaves the matrix as it is. -/
private theorem outcome_read_bind {α : Type} (f : Matrix → Except Fault α)
    (g : α → EStateM RowError Matrix Unit) (m : Matrix) :
    outcome ((read f >>= g) m) = (f m).mapError .fault >>= fun a => outcome (g a m) := by
  show outcome (EStateM.bind (read f) g m) = _
  unfold EStateM.bind read
  cases f m <;> rfl

private theorem mapError_bind {α β : Type} (x : Except Fault α) (f : α → Except Fault β) :
    (x >>= f).mapError RowError.fault = x.mapError .fault >>= fun a => (f a).mapError .fault := by
  cases x <;> rfl

/-- An entry that is linked write by write is the entry appended. -/
private theorem outcome_appendEntryInPlace (row left right column : Nat) (m : Matrix) :
    outcome (appendEntryInPlace row left right column m) =
      (m.appendEntry row left right column).mapError .fault := by
  rw [appendEntry, mapError_bind]
  refine (outcome_read_bind (fun m => m.node (header column)) _ m).trans
    (congrArg (_ >>= ·) (funext fun n => ?_))
  -- the new node is written, and then the two links and the size
  show outcome ((inPlace _ >>= fun _ => inPlace _ >>= fun _ => inPlace _) (m.push _)) = _
  simp only [outcome_bind, outcome_inPlace, mapError_bind]
  rfl

/-- The entries of a row that are linked write by write are the entries appended. -/
private theorem outcome_appendEntriesInPlace (row first last id : Nat) (columns : List Nat)
    (m : Matrix) :
    outcome (appendEntriesInPlace row first last id columns m) =
      (appendEntries row first last id columns m).mapError .fault := by
  -- induction on the columns, as both go through them
  induction columns generalizing id m with
  | nil => rfl
  | cons c columns ih =>
    rw [appendEntriesInPlace, appendEntries, outcome_bind, outcome_appendEntryInPlace,
      mapError_bind]
    simp only [ih]

/-- A row that is linked write by write is the row added. -/
theorem outcome_addRowInPlace (row : Nat) (columns : List Nat) (m : Matrix) :
    outcome (addRowInPlace row columns m) = m.addRow row columns := by
  have hentries := outcome_appendEntriesInPlace row m.nodes.size
    (m.nodes.size + columns.length - 1) m.nodes.size columns m
  show outcome ((if _ then _ else if _ then _ else if _ then _ else
    (appendEntriesInPlace row _ _ _ columns >>= fun _ => modify _) : EStateM _ _ _) m) = _
  rw [addRow]
  -- the three checks are the same, and what is written behind them is the entries and the count
  by_cases hlt : ∀ c ∈ columns, c < m.sizes.size
  · rw [if_neg (not_not.mpr hlt), if_neg (not_not.mpr hlt)]
    by_cases hnodup : columns.Nodup
    · rw [if_neg (not_not.mpr hnodup), if_neg (not_not.mpr hnodup)]
      split
      · rfl
      · rw [outcome_bind, hentries]
        dsimp only
        generalize appendEntries row _ _ _ columns m = x
        cases x <;> rfl
    · rw [if_pos hnodup, if_pos hnodup]
      rfl
  · rw [if_pos hlt, if_pos hlt]
    rfl

/-- A row that names a column out of range is refused before anything is written. -/
private theorem addRowInPlace_of_outOfRange (h : ¬ ∀ c ∈ columns, c < m.sizes.size) :
    addRowInPlace row columns m = .error (.columnOutOfRange row m.sizes.size) m := by
  show (if _ then _ else _ : EStateM _ _ _) m = _
  rw [if_pos h]
  rfl

/-- So is a row that names a column twice. -/
private theorem addRowInPlace_of_duplicate (h : ∀ c ∈ columns, c < m.sizes.size)
    (hnodup : ¬ columns.Nodup) :
    addRowInPlace row columns m = .error (.duplicateColumn row) m := by
  show (if _ then _ else if _ then _ else _ : EStateM _ _ _) m = _
  rw [if_neg (not_not.mpr h), if_pos hnodup]
  rfl

/-- A row that is added is added in place. -/
private theorem addRowInPlace_of_addRow (h : m.addRow row columns = .ok m') :
    addRowInPlace row columns m = .ok () m' := by
  -- the outcome tells the matrix, and only a computation that succeeds has one
  rw [← outcome_addRowInPlace] at h
  cases hrun : addRowInPlace row columns m with
  | ok _ k =>
    rw [hrun] at h
    cases h
    rfl
  | error e k => exact nomatch hrun ▸ h

/-! ## What a row adds -/

/-- The matrix `m'` is the matrix `m` with a row more, which has come in at the bottom of `columns`,
    and has left the others alone. -/
structure Gains (m m' : Matrix) (row : Nat) (columns : List Nat) : Prop where
  shape : m'.shape = { m.shape with
    rows := m.shape.rows + 1, nodes := m.shape.nodes + columns.length }
  size : ∀ c < m.columnCount, ∃ k, m.columnSize c = .ok k ∧
    m'.columnSize c = .ok (if c ∈ columns then k + 1 else k)
  activeColumns : ∃ active, m.activeColumns = .ok active ∧ m'.activeColumns = .ok active
  rest : ∀ c < m.columnCount, c ∉ columns →
    ∃ rows, m.rowsInColumn c = .ok rows ∧ m'.rowsInColumn c = .ok rows
  check : m.check = .ok () → m'.check = .ok ()
  bottom : m.check = .ok () → ∀ active, m.activeColumns = .ok active → ∀ c ∈ active, c ∈ columns →
    ∃ rows, m.rowsInColumn c = .ok rows ∧ m'.rowsInColumn c = .ok (rows ++ [row])

/-- A column that the row does not name has the rows that it had. -/
private theorem Ordered.exists_rowsInColumn (h : m.Ordered t) (hadd : m.addRow row columns = .ok m')
    (hc : c < t.columnCount) (hnot : c ∉ columns) :
    ∃ rows, m.rowsInColumn c = .ok rows ∧ m'.rowsInColumn c = .ok rows := by
  obtain ⟨hlt, hnodup, h'⟩ := h.addRow (r := (row, columns)) hadd
  obtain ⟨rows, hround, -, hrows⟩ := h.exists_rows hc
  -- nothing has been written on the way down, and its entries are those of the same rows
  have hround' := hround.congr fun x hx =>
    (h.lanes.grown_of_addRow hadd).kept c hc hnot x (Table.mem_line_of_mem_nodes hrows hx) .down
  have hids := h'.rowsInColumn_eq_of_round hc (by rwa [Table.map_snoc_entry hrows])
    fun i hi => Table.mem_snoc_columns (hrows i hi)
  rw [Table.map_snoc_id hrows] at hids
  exact ⟨_, h.rowsInColumn_eq_of_round hc hround hrows, hids⟩

namespace Ringed

variable {active : List Nat} {r : Nat × List Nat}

/-- The rings of a matrix take in a new row. -/
theorem addRow (h : m.Ringed t active) (hadd : m.addRow r.1 r.2 = .ok m')
    (hgrown : Grown m m' t.columnCount t.line r.2) :
    ∃ (hlt : ∀ c ∈ r.2, c < t.columnCount) (hnodup : r.2.Nodup),
      m'.Ringed (t.snoc r hlt hnodup) active := by
  obtain ⟨hlt, hnodup, hlaid⟩ := h.toLaid.addRow hadd
  refine ⟨hlt, hnodup, hlaid, h.headers.addRow hadd, h.active_lt, fun c hc => ?_⟩
  obtain ⟨rows, hmem, hring, hsize⟩ := h.column c hc
  exact ⟨_, Table.snoc_member hmem,
    hgrown.isRing_snoc hlt hnodup h.nodeCount (h.active_lt c hc) hmem
      (fun _ => Table.mem_line_of_mem_nodes hmem) hring,
    columnSize_eq (hgrown.size_snoc (of_columnSize_eq_ok hsize) _)⟩

/-- The new row is the last one of each active column that it names. -/
private theorem exists_rowsInColumn (h : m.Ringed t active) (hadd : m.addRow r.1 r.2 = .ok m')
    (hgrown : Grown m m' t.columnCount t.line r.2) (hc : c ∈ active) (hcr : c ∈ r.2) :
    ∃ rows, m.rowsInColumn c = .ok rows ∧ m'.rowsInColumn c = .ok (rows ++ [r.1]) := by
  -- the ring of the column takes in the new entry, whose row is the new one
  obtain ⟨hlt, hnodup, hlaid⟩ := h.toLaid.addRow hadd
  obtain ⟨rows, hmem, hring, -⟩ := h.column c hc
  have hcn := h.active_lt c hc
  have hring' := hgrown.isRing_snoc hlt hnodup h.nodeCount hcn hmem
    (fun _ => Table.mem_line_of_mem_nodes hmem) hring
  have hids := hlaid.rowsInColumn_eq_of_isRing hcn (Table.snoc_member hmem) hring'
  rw [Table.snoc_map_id hmem, if_pos hcr] at hids
  exact ⟨_, h.rowsInColumn_eq_of_isRing hcn hmem hring, hids⟩

end Ringed

/-- An accepted row that has columns comes in at the bottom of them. -/
theorem Ordered.gains (h : m.Ordered t) (hadd : m.addRow row columns = .ok m')
    (hne : columns ≠ []) : m.Gains m' row columns := by
  -- what is known of `m'`: its order, how its columns have grown, and the ring of its headers
  obtain ⟨hlt, hnodup, h'⟩ := h.addRow (r := (row, columns)) hadd
  have hgrown := h.lanes.grown_of_addRow hadd
  obtain ⟨active, hround, -, hactive⟩ := h.exists_active
  have hcolumns := h.activeColumns_eq_of_round hround hactive
  have hringed : m.check = .ok () → m.Ringed t active := fun hcheck =>
    h.ringed_of_mirrored hcolumns ((h.check_eq_ok_iff hcolumns).mp hcheck)
  exact {
    shape := by
      have hfirst := t.columnCount_lt_first t.rows.length
      have hempty : columns.isEmpty = false := by simpa using hne
      rw [h'.shape_eq, h.shape_eq, Table.snoc_nodeCount]
      simp only [Table.snoc, List.countP_append, List.countP_singleton, hempty, Bool.not_false,
        if_true, Shape.mk.injEq, true_and]
      rw [Table.nodeCount]
      omega
    size := fun c hc => by
      have hk := Array.getElem?_eq_getElem hc
      exact ⟨_, columnSize_eq hk, columnSize_eq (hgrown.size c _ hk)⟩
    activeColumns := by
      have hround' := hround.congr fun x hx =>
        link_of_addRow hadd (hround.lt x hx) (by decide) (by decide)
      exact ⟨active, hcolumns, h'.activeColumns_eq_of_round hround' hactive⟩
    rest := fun c hc => h.exists_rowsInColumn hadd (h.sizeCount ▸ hc)
    check := fun hcheck => by
      obtain ⟨_, _, h'⟩ := (hringed hcheck).addRow (r := (row, columns)) hadd hgrown
      exact h'.check_eq
    bottom := fun hcheck active' hactive' c hc hcr => by
      cases hcolumns.symm.trans hactive'
      exact (hringed hcheck).exists_rowsInColumn (r := (row, columns)) hadd hgrown hc hcr }

/-! ## After any operations -/

/-- The row is refused with a text, and nothing has been written. -/
structure Refuses (m : Matrix) (row : Nat) (columns : List Nat) (e : RowError) (text : String) :
    Prop where
  refused : m.addRow row columns = .error e
  unwritten : addRowInPlace row columns m = .error e m
  message : e.message = some text

/-- A row refused in place is refused. -/
private theorem Refuses.of_addRowInPlace {text : String}
    (h : addRowInPlace row columns m = .error e m) (hmessage : e.message = some text) :
    m.Refuses row columns e text :=
  ⟨(outcome_addRowInPlace row columns m).symm.trans (congrArg outcome h), h, hmessage⟩

/-- Rows are added and columns are covered and uncovered in any order. A further row is refused for
    its columns and leaves the matrix as it was, or has no columns and does so, or comes in at the
    bottom of its columns, as long as these are not full. -/
theorem operations_addRow {n : Nat} {m₀ : Matrix} {ops : List Operation} (hcreate : create n = .ok m₀)
    (hops : ∀ op ∈ ops, op.InRange n) (hm : ops.foldlM operate m₀ = .ok m) (row : Nat)
    (columns : List Nat) :
    m.columnCount = n ∧
    ((∃ c ∈ columns, n ≤ c) → m.Refuses row columns (.columnOutOfRange row n)
      s!"row {row} refers to a column outside 0..{n}") ∧
    ((∀ c ∈ columns, c < n) → ¬ columns.Nodup → m.Refuses row columns (.duplicateColumn row)
      s!"row {row} lists a column more than once") ∧
    (m.addRow row [] = .ok m ∧ addRowInPlace row [] m = .ok () m) ∧
    ((∀ c ∈ columns, c < n) → columns.Nodup → columns ≠ [] → (∀ c ∈ columns, ¬ m.Full c) →
      ∃ m', m.addRow row columns = .ok m' ∧ addRowInPlace row columns m = .ok () m' ∧
        m.Gains m' row columns) := by
  obtain ⟨t, rfl, -, h⟩ := ordered_of_operations hcreate hops hm
  have hsize := h.sizeCount
  -- the two refusals, the row without columns, and the row that is accepted
  refine ⟨hsize, fun hout => ?_, fun hlt hnodup => ?_, ⟨?_, ?_⟩, fun hlt hnodup hne hroom => ?_⟩
  · obtain ⟨c, hc, hle⟩ := hout
    have hnot : ¬ ∀ c ∈ columns, c < m.sizes.size := fun hlt =>
      Nat.not_lt.mpr (hsize ▸ hle) (hlt c hc)
    exact .of_addRowInPlace (hsize ▸ addRowInPlace_of_outOfRange hnot) rfl
  · exact .of_addRowInPlace (addRowInPlace_of_duplicate (hsize ▸ hlt) hnodup) rfl
  · simp [addRow]
  · exact addRowInPlace_of_addRow (by simp [addRow])
  · obtain ⟨m', hadd⟩ := h.lanes.addRow_isOk hlt hnodup row hroom
    exact ⟨m', hadd, addRowInPlace_of_addRow hadd, h.gains hadd hne⟩

/-- A row is added while one of its columns is covered, and comes in below the row of the other. -/
theorem operations_addRow_covered :
    let ops : List Operation := [.add 7 [0, 1], .add 8 [1, 2], .move (.cover 0)]
    ∃ m₀ m : Matrix, create 3 = .ok m₀ ∧ (∀ op ∈ ops, op.InRange 3) ∧
      ops.foldlM operate m₀ = .ok m ∧
      m.Refuses 9 [2, 2, 3] (.columnOutOfRange 9 3) "row 9 refers to a column outside 0..3" ∧
      m.Refuses 9 [2, 2] (.duplicateColumn 9) "row 9 lists a column more than once" ∧
      ∃ m', addRowInPlace 9 [2, 0] m = .ok () m' ∧ m'.rowsInColumn 2 = .ok [8, 9] := by
  intro ops
  have hops : ∀ op ∈ ops, op.InRange 3 := by decide
  have hrun : (ops.foldlM operate (empty 3)).map
      (fun m => (m.sizes, m.check, m.activeColumns, m.rowsInColumn 2)) =
        .ok (#[1, 1, 1], .ok (), .ok [1, 2], .ok [8]) := by decide +kernel
  obtain ⟨m, hm, hread⟩ := exists_of_map_eq_ok hrun
  simp only [Prod.mk.injEq] at hread
  obtain ⟨hsizes, hcheck, hactive, hrows⟩ := hread
  have hadd := operations_addRow (m := m) (n := 3) rfl hops hm 9
  -- each column has one row, so there is room in it
  have hroom : ∀ c ∈ [2, 0], ¬ m.Full c := by
    have hone : ∀ c ∈ [2, 0], m.sizes[c]? = some 1 := hsizes ▸ by decide
    exact fun c hc => (Full.iff_of_size (hone c hc)).not.mpr (by decide)
  obtain ⟨m', -, hm', hgains⟩ := (hadd [2, 0]).2.2.2.2 (by decide) (by decide) (by decide) hroom
  obtain ⟨rows, hold, hnew⟩ := hgains.bottom hcheck _ hactive 2 (by decide) (by decide)
  cases hrows.symm.trans hold
  exact ⟨_, m, rfl, hops, hm, (hadd [2, 2, 3]).2.1 (by decide),
    (hadd [2, 2]).2.2.1 (by decide) (by decide), m', hm', hnew⟩

end ExactCover.Matrix
