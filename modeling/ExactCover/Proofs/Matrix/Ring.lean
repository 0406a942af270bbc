import ExactCover.Proofs.Matrix.Cover

/-!
# Reading a matrix that shows a table

Each question to a matrix that shows a table is answered, and the answer is that of the table.
-/

namespace ExactCover

/-- Asking a list of questions that are all answered. -/
theorem mapM_eq_ok {ε α β : Type} {f : α → Except ε β} {g : α → β} {l : List α}
    (h : ∀ x ∈ l, f x = .ok (g x)) : l.mapM f = .ok (l.map g) := by
  induction l with
  | nil => rfl
  | cons x l ih =>
    rw [List.mapM_cons, h x (List.mem_cons_self ..), ok_bind,
      ih fun y hy => h y (List.mem_cons_of_mem x hy)]
    rfl

/-- Questions that are all answered have a list of answers. -/
theorem exists_mapM_eq_ok {ε α β : Type} {f : α → Except ε β} {l : List α}
    (h : ∀ x ∈ l, ∃ y, f x = .ok y) : ∃ ys, l.mapM f = .ok ys := by
  -- induction on the questions; the first answer comes before the rest
  induction l with
  | nil => exact ⟨[], rfl⟩
  | cons x l ih =>
    obtain ⟨y, hy⟩ := h x (List.mem_cons_self ..)
    obtain ⟨ys, hys⟩ := ih fun x hx => h x (List.mem_cons_of_mem _ hx)
    exact ⟨y :: ys, by rw [List.mapM_cons, hy, ok_bind, hys]; rfl⟩

/-- There is one answer to each question. -/
theorem length_of_mapM_eq_ok {ε α β : Type} {f : α → Except ε β} {l : List α} {ys : List β}
    (h : l.mapM f = .ok ys) : ys.length = l.length := by
  induction l generalizing ys with
  | nil =>
    cases h
    rfl
  | cons x l ih =>
    rw [List.mapM_cons] at h
    obtain ⟨y, -, h⟩ := bind_eq_ok.mp h
    obtain ⟨rest, hrest, h⟩ := bind_eq_ok.mp h
    cases h
    rw [List.length_cons, ih hrest, List.length_cons]

/-- The first question that is not answered decides. -/
theorem of_mapM_eq_error {ε α β : Type} {f : α → Except ε β} {l : List α} {e : ε}
    (h : l.mapM f = .error e) : ∃ before a after, l = before ++ a :: after ∧
      (∀ x ∈ before, ∃ y, f x = .ok y) ∧ f a = .error e := by
  -- induction on the list: the first element decides, or all before the refused one are answered
  induction l with
  | nil => exact nomatch h
  | cons a l ih =>
    rw [List.mapM_cons] at h
    rcases bind_eq_error.mp h with ha | ⟨y, ha, h⟩
    · exact ⟨[], a, l, rfl, by simp, ha⟩
    rcases bind_eq_error.mp h with hl | ⟨ys, -, h⟩
    · obtain ⟨before, x, after, rfl, hbefore, hx⟩ := ih hl
      exact ⟨a :: before, x, after, rfl, List.forall_mem_cons.mpr ⟨⟨y, ha⟩, hbefore⟩, hx⟩
    · exact nomatch h

/-- If there are answers, each question has one. -/
theorem of_mapM_eq_ok {ε α β : Type} {f : α → Except ε β} {l : List α} {ys : List β}
    (h : l.mapM f = .ok ys) : ∀ x ∈ l, ∃ y, f x = .ok y := by
  induction l generalizing ys with
  | nil => simp
  | cons a l ih =>
    rw [List.mapM_cons] at h
    obtain ⟨y, hy, h⟩ := bind_eq_ok.mp h
    obtain ⟨rest, hrest, -⟩ := bind_eq_ok.mp h
    exact List.forall_mem_cons.mpr ⟨⟨y, hy⟩, ih hrest⟩

/-- Functions that are equal on a list give the same results. -/
theorem mapM_congr {ε α β : Type} {f g : α → Except ε β} {l : List α}
    (h : ∀ x ∈ l, f x = g x) : l.mapM f = l.mapM g := by
  induction l with
  | nil => rfl
  | cons x l ih =>
    rw [List.mapM_cons, List.mapM_cons, h x (List.mem_cons_self ..),
      ih fun y hy => h y (List.mem_cons_of_mem x hy)]

/-- Going down a column, the rows are those of its entries. -/
private theorem Matrix.rowsFrom_eq {m : Matrix} {s steps id : Nat} {l : List Nat}
    {entry row : Nat → Nat}
    (hchain : (l.map entry ++ [s]).IsChain fun a b => m.link .down a = some b)
    (hs : s ∉ l.map entry) (hrole : ∀ i ∈ l, ∃ c, m.role (entry i) = some (.entry c (row i)))
    (hsteps : l.length < steps) (hid : (l.map entry ++ [s]).head? = some id) :
    m.rowsFrom s steps id = .ok (l.map row) := by
  -- induction on the entries to come; there are more steps than entries
  induction l generalizing steps id with
  | nil =>
    obtain ⟨k, rfl⟩ := Nat.exists_eq_add_one_of_ne_zero (Nat.ne_zero_of_lt hsteps)
    rw [List.map_nil, List.nil_append, List.head?_cons, Option.some.injEq] at hid
    rw [rowsFrom, if_pos hid.symm]
    rfl
  -- an entry is not the header, so its row is read and the way leads on
  | cons i l ih =>
    obtain ⟨k, rfl⟩ := Nat.exists_eq_add_one_of_ne_zero (Nat.ne_zero_of_lt hsteps)
    rw [List.map_cons, List.cons_append, List.head?_cons, Option.some.injEq] at hid
    subst hid
    rw [List.map_cons, List.mem_cons, not_or] at hs
    rw [List.map_cons, List.cons_append, List.isChain_cons] at hchain
    obtain ⟨y, hy⟩ := exists_head?_concat (l.map entry) s
    obtain ⟨n, hn, rfl⟩ := exists_node_of_link (hchain.1 y hy)
    obtain ⟨c, hc⟩ := hrole i (List.mem_cons_self ..)
    obtain ⟨n', hn', hr⟩ := exists_node_of_role hc
    cases hn.symm.trans hn'
    have hrest := ih hchain.2 hs.2 (fun j hj => hrole j (List.mem_cons_of_mem i hj))
      (by simpa using hsteps) hy
    simp only [rowsFrom, if_neg (Ne.symm hs.1), hn, ok_bind, hr, Role.row?]
    rw [show n.down = Dir.down.link n from rfl, hrest]
    rfl

namespace Matrix.Laid

variable {m : Matrix} {t : Table} {c : Nat}

/-- Going to the right from the root, the columns are those of the headers met. -/
theorem activeColumns_eq {active : List Nat} (h : m.Laid t)
    (hchain : (root :: (active.map header ++ [root])).IsChain fun a b => m.link .right a = some b)
    (hlt : ∀ c ∈ active, c < t.columnCount) (hroot : root ∉ active.map header)
    (hlength : (active.map header).length < m.nodes.size) : m.activeColumns = .ok active := by
  -- the headers are met in a ring
  have hring := ring_eq_of_chain hchain hroot hlength
  -- and the column of a header is the number before its own
  have hcolumns : (active.map header).mapM m.columnOf = .ok ((active.map header).map (· - 1)) := by
    refine mapM_eq_ok fun x hx => ?_
    obtain ⟨c, hc, rfl⟩ := List.mem_map.mp hx
    exact columnOf_of_role (h.headerRole c (hlt c hc)) rfl
  rw [List.map_map, show (· - 1) ∘ header = id from rfl, List.map_id] at hcolumns
  exact (congrArg (· >>= (List.mapM m.columnOf)) hring).trans hcolumns

/-- Going down from the header of a column, the rows are those of the entries met. -/
theorem rowsInColumn_eq {rows : List Nat} (h : m.Laid t) (hc : c < t.columnCount)
    (hmem : ∀ i ∈ rows, c ∈ t.columns i)
    (hchain : (header c :: (rows.map (t.entry · c) ++ [header c])).IsChain
      fun a b => m.link .down a = some b)
    (hheader : header c ∉ rows.map (t.entry · c))
    (hlength : (rows.map (t.entry · c)).length < m.nodes.size) :
    m.rowsInColumn c = .ok (rows.map t.id) := by
  rw [List.isChain_cons] at hchain
  obtain ⟨y, hy⟩ := exists_head?_concat (rows.map (t.entry · c)) (header c)
  obtain ⟨n, hn, rfl⟩ := exists_node_of_link (hchain.1 y hy)
  rw [List.length_map] at hlength
  simp only [rowsInColumn, Table.headerOf_eq hc, ok_bind, hn]
  exact rowsFrom_eq hchain.2 hheader (fun i hi => ⟨c, h.entryRole i c (hmem i hi)⟩) hlength hy

/-- The active columns of a ring of headers. -/
theorem activeColumns_eq_of_isRing {active : List Nat} (h : m.Laid t)
    (hring : m.IsRing .right root (active.map header)) (hlt : ∀ c ∈ active, c < t.columnCount) :
    m.activeColumns = .ok active :=
  h.activeColumns_eq (hring.chain.imp fun _ _ hab => hab.1) hlt (List.nodup_cons.mp hring.nodup).1
    hring.length_lt

/-- The rows of a column whose entries form a ring. -/
theorem rowsInColumn_eq_of_isRing {rows : List Nat} (h : m.Laid t) (hc : c < t.columnCount)
    (hmem : ∀ i ∈ rows, c ∈ t.columns i)
    (hring : m.IsRing .down (header c) (rows.map (t.entry · c))) :
    m.rowsInColumn c = .ok (rows.map t.id) :=
  h.rowsInColumn_eq hc hmem (hring.chain.imp fun _ _ hab => hab.1) (List.nodup_cons.mp hring.nodup).1
    hring.length_lt

/-- The shape is that of the table. -/
theorem shape_eq (h : m.Laid t) :
    m.shape = ⟨t.columnCount, t.rows.countP fun r => !r.2.isEmpty,
      t.nodeCount - t.columnCount - 1⟩ := by
  rw [shape, columnCount, h.sizeCount, h.rowCount, h.nodeCount]

end Matrix.Laid

namespace Matrix.Shows

variable {m : Matrix} {t : Table} {active : List Nat} {linked : Nat → List Nat} {i c : Nat}

/-- The active columns are read. -/
theorem activeColumns_eq (h : m.Shows t active linked) : m.activeColumns = .ok active :=
  h.activeColumns_eq_of_isRing h.headers h.active_lt

/-- Nothing remains to be covered if no column is active. -/
theorem isSolved_eq (h : m.Shows t active linked) : m.isSolved = active.isEmpty := by
  obtain ⟨y, hy⟩ := exists_head?_concat (active.map header) root
  obtain ⟨n, hn, hright⟩ := exists_node_of_link (h.headers.link_start hy)
  have hnode : m.nodes[root]? = some n := by
    rw [node] at hn
    split at hn
    next hlt => rw [Array.getElem?_eq_getElem hlt, Except.ok.inj hn]
    next => cases hn
  -- the root leads back to itself exactly if no header stands in its ring
  rw [isSolved, hnode]
  cases active with
  | nil =>
    rw [List.map_nil, List.nil_append, List.head?_cons, Option.some.injEq] at hy
    simp only [show n.right = y from hright, ← hy, decide_true, List.isEmpty_nil]
  | cons c active =>
    rw [List.map_cons, List.cons_append, List.head?_cons, Option.some.injEq] at hy
    simp only [show n.right = y from hright, ← hy, List.isEmpty_cons, decide_eq_false_iff_not]
    exact Nat.succ_ne_zero c

/-- The size of a column is the number of rows linked into it. -/
theorem columnSize_eq (h : m.Shows t active linked) (hc : c < t.columnCount) :
    m.columnSize c = .ok (linked c).length :=
  Matrix.columnSize_eq (h.size c hc)

/-- The rows of a column are read. -/
theorem rowsInColumn_eq (h : m.Shows t active linked) (hc : c < t.columnCount) :
    m.rowsInColumn c = .ok ((linked c).map t.id) :=
  h.rowsInColumn_eq_of_isRing hc (h.member c) (h.column c hc)

/-- The other columns of a row are read from its ring. -/
theorem otherColumns_eq (h : m.Shows t active linked) (hc : c ∈ t.columns i) :
    m.otherColumns (t.entry i c) = .ok (t.others i c) := by
  have hring := (h.row hc).ring_eq
  have hcolumns : ((t.others i c).map (t.entry i)).mapM m.columnOf = .ok (t.others i c) := by
    rw [List.mapM_map]
    refine (mapM_eq_ok fun d hd => ?_).trans (by rw [List.map_id])
    exact columnOf_of_role (h.entryRole i d ((Table.mem_others hc).mp hd).1) rfl
  exact (congrArg (· >>= (List.mapM m.columnOf)) hring).trans hcolumns

/-- The row of an entry is read. -/
theorem rowOf_eq (h : m.Shows t active linked) (hc : c ∈ t.columns i) :
    m.rowOf (t.entry i c) = .ok (t.id i) :=
  rowOf_of_role (h.entryRole i c hc)

/-- The way down from the header of a column leads to its first row. -/
theorem header_down (h : m.Shows t active linked) (hc : c < t.columnCount) {y : Nat}
    (hy : ((linked c).map (t.entry · c) ++ [header c]).head? = some y) :
    ∃ n, m.node (header c) = .ok n ∧ n.down = y :=
  exists_node_of_link ((h.column c hc).link_start hy)

/-- The way down from a row of a column leads to the next row. -/
theorem entry_down (h : m.Shows t active linked) (hc : c < t.columnCount) {done rest : List Nat}
    (hl : linked c = done ++ i :: rest) {y : Nat}
    (hy : (rest.map (t.entry · c) ++ [header c]).head? = some y) :
    ∃ n, m.node (t.entry i c) = .ok n ∧ n.down = y := by
  have hring := h.column c hc
  rw [hl, List.append_cons, List.map_append] at hring
  refine exists_node_of_link (d := .down) (hring.joined ?_ hy).1
  rw [List.map_append, List.map_singleton, ← List.cons_append, List.getLast?_concat]

/-- The way to the right from an entry of a row leads to its first other entry. -/
theorem row_right (h : m.Shows t active linked) (hc : c ∈ t.columns i) {y : Nat}
    (hy : ((t.others i c).map (t.entry i) ++ [t.entry i c]).head? = some y) :
    ∃ n, m.node (t.entry i c) = .ok n ∧ n.right = y :=
  exists_node_of_link ((h.row hc).link_start hy)

/-- The way to the right from another entry of a row leads to the next one. -/
theorem other_right (h : m.Shows t active linked) (hc : c ∈ t.columns i) {d : Nat}
    {done rest : List Nat} (hl : t.others i c = done ++ d :: rest) {y : Nat}
    (hy : (rest.map (t.entry i) ++ [t.entry i c]).head? = some y) :
    ∃ n, m.node (t.entry i d) = .ok n ∧ n.right = y := by
  have hring := h.row hc
  rw [hl, List.append_cons, List.map_append] at hring
  refine exists_node_of_link (d := .right) (hring.joined ?_ hy).1
  rw [List.map_append, List.map_singleton, ← List.cons_append, List.getLast?_concat]

end Matrix.Shows
end ExactCover
