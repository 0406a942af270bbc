import ExactCover.Proofs.Matrix.Nesting
import ExactCover.Proofs.Matrix.Mirror
import ExactCover.Proofs.Selection

/-!
# Operations in any order

Rows are added and columns are covered and uncovered in any order: a row may come in while its
columns are covered, a column may be covered twice, or uncovered without having been covered. As
long as no size leaves the range of a word, each operation comes to its end, and so does each
question to the matrix.

## Key results

- `Ordered.walkable`: what can be seen of a matrix whose links climb
- `Ordered.operate`, `Ordered.operations`: one operation, and a sequence of them
- `operations_walkable`: what can be seen after any sequence of operations
- `operations_check`: what the check says after any sequence of operations
- `operations_select`: which column each rule chooses after any sequence of operations
-/

namespace ExactCover

/-- The column that a move names. -/
def Move.column : Move → Nat
  | cover c => c
  | uncover c => c

/-- A row is added, or a column is covered or uncovered. -/
inductive Operation where
  | add (row : Nat) (columns : List Nat)
  | move (x : Move)
  deriving DecidableEq, Repr

namespace Operation

/-- The rows that an operation adds. -/
def rows : Operation → List (Nat × List Nat)
  | add row columns => [(row, columns)]
  | move _ => []

/-- A move names one of `n` columns. The columns of a row are looked at when it is added. -/
def InRange (n : Nat) : Operation → Prop
  | add _ _ => True
  | move x => x.column < n

instance (n : Nat) : (op : Operation) → Decidable (op.InRange n)
  | add _ _ => .isTrue trivial
  | move x => inferInstanceAs (Decidable (x.column < n))

end Operation

namespace Matrix

/-- Does one operation. -/
def operate (m : Matrix) : Operation → Except RowError Matrix
  | .add row columns => m.addRow row columns
  | .move x => (m.move x).mapError .fault

/-- All operations and questions come to their end on the matrix `m`, to which the rows of the
    table `t` have been added. -/
structure Walkable (m : Matrix) (t : Table) : Prop where
  cover : ∀ c < t.columnCount, (∃ m', m.cover c = .ok m') ∨ m.cover c = .error .overflow
  uncover : ∀ c < t.columnCount, (∃ m', m.uncover c = .ok m') ∨ m.uncover c = .error .overflow
  activeColumns : ∃ active, m.activeColumns = .ok active ∧ active.Pairwise (· < ·) ∧
    ∀ c ∈ active, c < t.columnCount
  /-- The entries met in a column are different entries of it, in the order in which their rows
      were added. -/
  column : ∀ c < t.columnCount, ∃ rows : List Nat, rows.Pairwise (· < ·) ∧
    (∀ i ∈ rows, c ∈ t.columns i ∧ m.role (t.entry i c) = some (.entry c (t.id i))) ∧
    (rows.map (t.entry · c)).Nodup ∧ m.ring (·.down) (header c) = .ok (rows.map (t.entry · c)) ∧
    m.rowsInColumn c = .ok (rows.map t.id)
  /-- The entries of a row are linked in a ring in both directions. -/
  row : ∀ i, ∀ c ∈ t.columns i,
    m.ring (·.right) (t.entry i c) = .ok ((t.others i c).map (t.entry i)) ∧
    m.ring (·.left) (t.entry i c) = .ok ((t.others i c).map (t.entry i)).reverse
  select : ∀ rule : Selection, ∃ column, rule.select m = .ok column
  check : ∀ e, m.check = .error e → e.Reachable t.columnCount

variable {m m' : Matrix} {t : Table} {c : Nat} {op : Operation} {ops : List Operation}

/-! ## What can be seen -/

namespace Ordered

/-- Each rule chooses among the active columns by the sizes kept for them. -/
private theorem exists_choice (h : m.Ordered t) : ∃ (active : List Nat) (size : Nat → Nat),
    m.activeColumns = .ok active ∧ active.Pairwise (· < ·) ∧
      (∀ c ∈ active, m.columnSize c = .ok (size c)) ∧
      ∀ rule : Selection, rule.select m = .ok (rule.choose active size) := by
  obtain ⟨active, hround, hsorted, hlt⟩ := h.exists_active
  have hcolumns := h.activeColumns_eq_of_round hround hlt
  -- active columns are columns, so each of them has a size
  have hsize : ∀ c ∈ active, m.columnSize c = .ok (m.sizes[c]?.getD 0) := by
    intro c hc
    have hlt' : c < m.sizes.size := h.sizeCount ▸ hlt c hc
    rw [Matrix.columnSize_eq (Array.getElem?_eq_getElem hlt'), Array.getElem?_eq_getElem hlt',
      Option.getD_some]
  exact ⟨active, _, hcolumns, hsorted, hsize, fun rule => rule.select_eq hcolumns hsize⟩

/-- A matrix whose links climb can be walked all over. -/
theorem walkable (h : m.Ordered t) : m.Walkable t where
  cover c hc := (h.cover hc).exists_ok
  uncover c hc := (h.uncover hc).exists_ok
  -- the links to the right and down climb, so the ways along them end
  activeColumns := by
    obtain ⟨active, hround, hsorted, hlt⟩ := h.exists_active
    exact ⟨active, h.activeColumns_eq_of_round hround hlt, hsorted, hlt⟩
  column c hc := by
    obtain ⟨rows, hround, hsorted, hrows⟩ := h.exists_rows hc
    refine ⟨rows, hsorted, fun i hi => ⟨hrows i hi, h.entryRole i c (hrows i hi)⟩, ?_, ?_, ?_⟩
    · exact (List.pairwise_cons.mp hround.sorted).2.imp Nat.ne_of_lt
    · exact hround.ring_eq
    · exact h.rowsInColumn_eq_of_round hc hround hrows
  row i c hc := ⟨(h.row hc).ring_eq, (h.row hc).reverse.ring_eq⟩
  select rule := by
    obtain ⟨_, _, -, -, -, hchoice⟩ := h.exists_choice
    exact ⟨_, hchoice rule⟩
  check _ he := by
    obtain ⟨active, hround, -, hlt⟩ := h.exists_active
    have hcolumns := h.activeColumns_eq_of_round hround hlt
    exact ((h.check_finds hcolumns).of_error he).1

end Ordered

/-! ## One operation after the other -/

/-- The links within a row stay as they are when rows follow. -/
private theorem Laid.links_of_isPrefix {t' : Table} {x : Nat} (h : m.Laid t) (h' : m'.Laid t')
    (hcount : t'.columnCount = t.columnCount) (hrows : t.rows <+: t'.rows) (hx : t.columnCount < x)
    (hlt : x < m.nodes.size) :
    m'.link .left x = m.link .left x ∧ m'.link .right x = m.link .right x := by
  obtain ⟨i, c, hc, rfl⟩ := Table.exists_entry hx (h.nodeCount ▸ hlt)
  obtain ⟨hcolumns, hfirst⟩ := Table.of_isPrefix hcount hrows (Table.lt_of_mem_columns hc)
  have hentry : t'.entry i = t.entry i := by
    funext d
    rw [Table.entry, Table.entry, hfirst, hcolumns]
  -- both matrices link the same nodes in a ring
  have hring := h.row hc
  have hring' := h'.row (hcolumns ▸ hc)
  rw [hentry, Table.others, hcolumns, ← Table.others] at hring'
  refine ⟨?_, ?_⟩
  · obtain ⟨y, hy⟩ := exists_head?_concat ((t.others i c).map (t.entry i)).reverse (t.entry i c)
    exact (hring'.reverse.link_start hy).trans (hring.reverse.link_start hy).symm
  · obtain ⟨y, hy⟩ := exists_head?_concat ((t.others i c).map (t.entry i)) (t.entry i c)
    exact (hring'.link_start hy).trans (hring.link_start hy).symm

/-- The only fault of a move is a size that leaves the range of a word. -/
private theorem Leads.mapError {P : Matrix → Prop} {x : Except Fault Matrix} (hx : Leads P x) :
    (∀ m, x.mapError RowError.fault = .ok m → P m) ∧
      ∀ cause, x.mapError RowError.fault = .error (.fault cause) → cause = .overflow := by
  cases x with
  | ok k =>
    refine ⟨fun m hm => ?_, nofun⟩
    cases hm
    exact hx
  | error fault =>
    refine ⟨nofun, fun cause hcause => ?_⟩
    cases hcause
    exact hx

namespace Ordered

/-- A column can be covered or uncovered at any time. -/
private theorem move {x : Move} (h : m.Ordered t) (hx : x.column < t.columnCount) :
    Leads (·.Ordered t) (m.move x) := by
  cases x with
  | cover c => exact h.cover hx
  | uncover c => exact h.uncover hx

/-- An operation keeps the columns in order. -/
theorem operate (h : m.Ordered t) (hop : op.InRange t.columnCount) (hm' : m.operate op = .ok m') :
    ∃ t' : Table, t'.columnCount = t.columnCount ∧ t'.rows = t.rows ++ op.rows ∧ m'.Ordered t' := by
  cases op with
  | add row columns =>
    obtain ⟨hlt, hnodup, h'⟩ := h.addRow (r := (row, columns)) hm'
    exact ⟨t.snoc (row, columns) hlt hnodup, rfl, rfl, h'⟩
  | move x => exact ⟨t, rfl, (List.append_nil _).symm, (h.move hop).mapError.1 m' hm'⟩

/-- An operation fails on a size that leaves the range of a word, or because a row is refused. -/
private theorem eq_overflow_of_operate {cause : Fault} (h : m.Ordered t)
    (hop : op.InRange t.columnCount) (hm : m.operate op = .error (.fault cause)) :
    cause = .overflow := by
  cases op with
  | add row columns => exact h.eq_overflow_of_addRow hm
  | move x => exact (h.move hop).mapError.2 cause hm

/-- So does a sequence of operations. -/
theorem operations (h : m.Ordered t) (hops : ∀ op ∈ ops, op.InRange t.columnCount) :
    (∀ cause, ops.foldlM Matrix.operate m = .error (.fault cause) → cause = .overflow) ∧
    ∀ m', ops.foldlM Matrix.operate m = .ok m' → ∃ t' : Table, t'.columnCount = t.columnCount ∧
      t'.rows = t.rows ++ ops.flatMap Operation.rows ∧ m'.Ordered t' := by
  -- induction on the operations: the table grows by the rows of each
  induction ops generalizing m t with
  | nil =>
    refine ⟨nofun, fun m' hm' => ?_⟩
    cases hm'
    exact ⟨t, rfl, (List.append_nil _).symm, h⟩
  | cons op ops ih =>
    have hop := hops op (List.mem_cons_self ..)
    rw [List.foldlM_cons]
    -- the first operation fails
    cases hm₁ : m.operate op with
    | error e =>
      refine ⟨fun cause hcause => ?_, nofun⟩
      cases hcause
      exact h.eq_overflow_of_operate hop hm₁
    -- the first operation succeeds, and the others follow in the matrix it leaves
    | ok m₁ =>
      obtain ⟨t₁, hcount₁, hrows₁, h₁⟩ := h.operate hop hm₁
      have hops₁ : ∀ op' ∈ ops, op'.InRange t₁.columnCount := fun op' hop' =>
        hcount₁ ▸ hops op' (List.mem_cons_of_mem op hop')
      obtain ⟨herror, hok⟩ := ih h₁ hops₁
      rw [ok_bind]
      refine ⟨herror, fun m' hm' => ?_⟩
      obtain ⟨t', hcount, hrows, h'⟩ := hok m' hm'
      refine ⟨t', hcount.trans hcount₁, ?_, h'⟩
      rw [hrows, hrows₁, List.flatMap_cons, List.append_assoc]

end Ordered

/-- A matrix without rows may go through any operations. -/
private theorem ordered_of_create {n : Nat} (hcreate : create n = .ok m) :
    ∃ t : Table, t.columnCount = n ∧ t.rows = [] ∧ m.Ordered t := by
  obtain ⟨hn, rfl⟩ := create_eq_ok_iff.mp hcreate
  exact ⟨_, rfl, rfl, (covered_empty hn).ordered⟩

/-- The links climb after any sequence of operations. -/
theorem ordered_of_operations {n : Nat} {m₀ : Matrix} (hcreate : create n = .ok m₀)
    (hops : ∀ op ∈ ops, op.InRange n) (hm : ops.foldlM operate m₀ = .ok m) :
    ∃ t : Table, t.columnCount = n ∧ t.rows = ops.flatMap Operation.rows ∧ m.Ordered t := by
  obtain ⟨t₀, rfl, hrows₀, h₀⟩ := ordered_of_create hcreate
  obtain ⟨t, hcount, hrows, h⟩ := (h₀.operations hops).2 m hm
  rw [hrows₀, List.nil_append] at hrows
  exact ⟨t, hcount, hrows, h⟩

/-- Rows are added and columns are covered and uncovered in any order. As long as no size leaves
    the range of a word, all operations and questions come to their end, and the links within a
    row are those with which the row was added. -/
theorem operations_walkable {n : Nat} {m₀ : Matrix} (hcreate : create n = .ok m₀)
    (hops : ∀ op ∈ ops, op.InRange n) :
    (∀ cause, ops.foldlM operate m₀ = .error (.fault cause) → cause = .overflow) ∧
    ∀ m, ops.foldlM operate m₀ = .ok m → ∃ t : Table, t.columnCount = n ∧
      t.rows = ops.flatMap Operation.rows ∧ m.Walkable t ∧
      ∀ before after k, ops = before ++ after → before.foldlM operate m₀ = .ok k →
        ∀ x, n < x → x < k.nodes.size →
          m.link .left x = k.link .left x ∧ m.link .right x = k.link .right x := by
  obtain ⟨t₀, rfl, hrows₀, h₀⟩ := ordered_of_create hcreate
  refine ⟨(h₀.operations hops).1, fun m hm => ?_⟩
  obtain ⟨t, hcount, hrows, h⟩ := (h₀.operations hops).2 m hm
  rw [hrows₀, List.nil_append] at hrows
  refine ⟨t, hcount, hrows, h.walkable, ?_⟩
  rintro before after k rfl hk x hx hlt
  -- the rows added before are the first of all
  obtain ⟨t', hcount', hrows', h'⟩ :=
    (h₀.operations fun op hop => hops op (List.mem_append_left _ hop)).2 k hk
  rw [hrows₀, List.nil_append] at hrows'
  refine h'.links_of_isPrefix h.toLaid (hcount.trans hcount'.symm) ?_ (hcount' ▸ hx) hlt
  rw [hrows, hrows', List.flatMap_append]
  exact List.prefix_append ..

/-- Two rows are added while columns of theirs are covered, and a column that was covered first is
    uncovered first, and then once more. -/
theorem operations_walkable_not_nested :
    let ops : List Operation := [.add 7 [0, 1], .move (.cover 0), .add 8 [1, 2], .move (.cover 1),
      .move (.uncover 0), .add 7 [2, 0], .move (.uncover 0)]
    ∃ m₀ m : Matrix, create 3 = .ok m₀ ∧ (∀ op ∈ ops, op.InRange 3) ∧
      ops.foldlM operate m₀ = .ok m ∧ ∃ t : Table, t.columnCount = 3 ∧
      t.rows = [(7, [0, 1]), (8, [1, 2]), (7, [2, 0])] ∧ m.Walkable t ∧
      ∀ before after k, ops = before ++ after → before.foldlM operate m₀ = .ok k →
        ∀ x, 3 < x → x < k.nodes.size →
          m.link .left x = k.link .left x ∧ m.link .right x = k.link .right x := by
  intro ops
  have hrun : (ops.foldlM operate (empty 3)).isOk = true := by decide +kernel
  have hops : ∀ op ∈ ops, op.InRange 3 := by decide
  obtain ⟨m, hm⟩ := exists_of_isOk hrun
  exact ⟨_, m, rfl, hops, hm, (operations_walkable rfl hops).2 m hm⟩

/-- Rows are added and columns are covered and uncovered in any order. The check is passed exactly if
    the active columns are met to the left in the opposite order, the nodes of each of them are met
    upwards in the opposite order, and the size kept for it is the number of its rows. What the check
    finds otherwise is so. -/
theorem operations_check {n : Nat} {m₀ : Matrix} (hcreate : create n = .ok m₀)
    (hops : ∀ op ∈ ops, op.InRange n) (hm : ops.foldlM operate m₀ = .ok m) :
    ∃ active, m.activeColumns = .ok active ∧ (m.check = .ok () ↔ m.Mirrored active) ∧
      ∀ e, m.check = .error e → e.Holds m := by
  obtain ⟨t, -, -, h⟩ := ordered_of_operations hcreate hops hm
  obtain ⟨active, hround, -, hlt⟩ := h.exists_active
  -- what goes right and down is in order in any case, so the check is about the ways back
  have hcolumns := h.activeColumns_eq_of_round hround hlt
  exact ⟨active, hcolumns, h.check_eq_ok_iff hcolumns, fun _ he =>
    ((h.check_finds hcolumns).of_error he).2⟩

/-- A column that was covered first is uncovered first. The root is linked back to itself then, and
    the last header, whose right neighbour it is, finds no way back. -/
theorem operations_check_not_nested :
    let ops : List Operation :=
      [.add 7 [0, 1], .move (.cover 0), .move (.cover 1), .move (.uncover 0)]
    ∃ m₀ m : Matrix, create 2 = .ok m₀ ∧ (∀ op ∈ ops, op.InRange 2) ∧
      ops.foldlM operate m₀ = .ok m ∧ ∃ active, m.activeColumns = .ok active ∧
        ¬ m.Mirrored active ∧ m.Unreturned .right (header 1) := by
  intro ops
  have hops : ∀ op ∈ ops, op.InRange 2 := by decide
  have hrun : (ops.foldlM operate (empty 2)).map check = .ok (.error (.brokenHorizontal 2)) := by
    decide +kernel
  obtain ⟨m, hm, hcheck⟩ := exists_of_map_eq_ok hrun
  obtain ⟨active, hactive, hiff, hholds⟩ := operations_check rfl hops hm
  refine ⟨_, m, rfl, hops, hm, active, hactive, fun hmirrored => ?_, hholds _ hcheck⟩
  exact nomatch (hiff.mpr hmirrored).symm.trans hcheck

/-- Rows are added and columns are covered and uncovered in any order. Each rule chooses the column
    it asks for, by the order of the active columns in their ring and by the sizes kept for them, and
    no column only if none is active. -/
theorem operations_select {n : Nat} {m₀ : Matrix} (hcreate : create n = .ok m₀)
    (hops : ∀ op ∈ ops, op.InRange n) (hm : ops.foldlM operate m₀ = .ok m) :
    ∃ (active : List Nat) (size : Nat → Nat), m.activeColumns = .ok active ∧
      active.Pairwise (· < ·) ∧ (∀ c ∈ active, m.columnSize c = .ok (size c)) ∧
      ∀ rule : Selection, ∃ choice, rule.select m = .ok choice ∧
        (choice = none ↔ active = []) ∧
        ∀ c, (choice = some c ↔ rule.Chooses active size c) ∧ (choice = some c → c ∈ active) := by
  obtain ⟨t, -, -, h⟩ := ordered_of_operations hcreate hops hm
  obtain ⟨active, size, hcolumns, hsorted, hsize, hchoice⟩ := h.exists_choice
  refine ⟨active, size, hcolumns, hsorted, hsize, fun rule => ⟨_, hchoice rule, ?_, fun c => ?_⟩⟩
  · exact Selection.choose_eq_none
  · exact ⟨Selection.choose_eq_some_iff, Selection.mem_of_choose_eq_some⟩

/-- Column 2 is covered, and comes back into the ring behind column 1, which was covered first and
    is uncovered first. Three columns are the smallest, and none has a single row. -/
theorem operations_select_not_nested :
    let ops : List Operation := [.add 7 [0, 1, 2], .add 8 [0, 1, 3], .add 9 [0, 2], .add 6 [3],
      .add 5 [0], .move (.cover 1), .move (.cover 2), .move (.uncover 1)]
    ∃ m₀ m : Matrix, create 4 = .ok m₀ ∧ (∀ op ∈ ops, op.InRange 4) ∧
      ops.foldlM operate m₀ = .ok m ∧ m.activeColumns = .ok [0, 1, 2, 3] ∧
      m.sizes = #[3, 2, 2, 2] ∧ Selection.minimumSize.select m = .ok (some 1) ∧
      Selection.firstSingleton.select m = .ok (some 0) := by
  intro ops
  have hops : ∀ op ∈ ops, op.InRange 4 := by decide
  have hrun : (ops.foldlM operate (empty 4)).map (fun m => (m.activeColumns, m.sizes)) =
      .ok (.ok [0, 1, 2, 3], #[3, 2, 2, 2]) := by
    decide +kernel
  obtain ⟨m, hm, hread⟩ := exists_of_map_eq_ok hrun
  obtain ⟨hcolumns, hsizes⟩ := Prod.mk.inj hread
  obtain ⟨active, size, hactive, -, hsize, hrule⟩ := operations_select rfl hops hm
  cases hcolumns.symm.trans hactive
  have hsize : size 0 = 3 ∧ size 1 = 2 ∧ size 2 = 2 ∧ size 3 = 2 := by
    simp only [columnSize, hsizes, List.forall_mem_cons] at hsize
    simpa [eq_comm] using hsize
  obtain ⟨h₀, h₁, h₂, h₃⟩ := hsize
  have hleast : Selection.minimumSize.Chooses [0, 1, 2, 3] size 1 :=
    ⟨[0], [2, 3], rfl, by simp [h₀, h₁], by simp [h₀, h₁, h₂, h₃]⟩
  have hfirst : Selection.firstSingleton.Chooses [0, 1, 2, 3] size 0 :=
    .inr ⟨by simp [h₀, h₁, h₂, h₃], rfl⟩
  obtain ⟨choice, hchoice, -, hchooses⟩ := hrule .minimumSize
  cases (hchooses 1).1.mpr hleast
  obtain ⟨choice', hchoice', -, hchooses'⟩ := hrule .firstSingleton
  cases (hchooses' 0).1.mpr hfirst
  exact ⟨_, m, rfl, hops, hm, hcolumns, hsizes, hchoice, hchoice'⟩

end Matrix
end ExactCover
