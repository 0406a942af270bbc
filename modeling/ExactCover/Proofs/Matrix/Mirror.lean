import ExactCover.Proofs.Matrix.Check
import ExactCover.Proofs.Matrix.Order

/-!
# What the check says

The check follows the links to the right and down only, and tests of each step that the step back
undoes it. That is as much as to follow the links to the left and up as well and to compare: the
check is passed exactly if the way back around the headers and around each active column meets the
same nodes in the opposite order, and each active column has as many rows as its size says. What
the check finds otherwise is so.

## Key results

- `Round.isRing_iff`: a way around is a ring if the way back meets its nodes in the opposite order
- `Ordered.check_eq_ok_iff`: when the check is passed
- `Ordered.check_finds`: what it finds otherwise
-/

namespace ExactCover

/-- The link errors that can be seen in a matrix of `n` columns after operations in any order. All
    links can be followed, and the links within a row are in order. -/
def LinkError.Reachable (n : Nat) : LinkError → Prop
  | brokenHorizontal node => node = Matrix.root ∨ ∃ c < n, node = Matrix.header c
  | brokenVertical _ => True
  | unterminated _ => False
  | foreign _ _ => False
  | sizeMismatch _ _ _ => True
  | fault _ => False

/-- What a link error says of a matrix is so: the right or the lower neighbour of the node does not
    point back to it, or the column is active, its recorded size is the one kept for it, and its
    actual size is the number of rows met in it, which is another one. -/
def LinkError.Holds (m : Matrix) : LinkError → Prop
  | brokenHorizontal node => m.Unreturned .right node
  | brokenVertical node => m.Unreturned .down node
  | unterminated _ => False
  | foreign _ _ => False
  | sizeMismatch column recorded actual =>
    (∃ active, m.activeColumns = .ok active ∧ column ∈ active) ∧
      m.columnSize column = .ok recorded ∧
      (∃ rows, m.rowsInColumn column = .ok rows ∧ rows.length = actual) ∧ recorded ≠ actual
  | fault _ => False

namespace Matrix

/-- The columns of the headers met going to the left from the root. -/
def activeColumnsBack (m : Matrix) : Except Fault (List Nat) := do
  (← m.ring (·.left) root).mapM m.columnOf

/-- The nodes of the column are met upwards in the opposite order as downwards, and the size kept
    for it is the number of its rows. -/
structure ColumnMirrored (m : Matrix) (c : Nat) : Prop where
  up : ∃ nodes, m.ring (·.down) (header c) = .ok nodes ∧
    m.ring (·.up) (header c) = .ok nodes.reverse
  size : ∃ rows, m.rowsInColumn c = .ok rows ∧ m.columnSize c = .ok rows.length

/-- The active columns are met to the left in the opposite order, and each of them is mirrored. -/
structure Mirrored (m : Matrix) (active : List Nat) : Prop where
  left : m.activeColumnsBack = .ok active.reverse
  columns : ∀ c ∈ active, m.ColumnMirrored c

variable {m : Matrix} {t : Table} {d : Dir} {c id s steps x : Nat} {active l rows : List Nat}
  {line : Set Nat}

/-! ## The way around -/

/-- A way around is what is read from the ring. -/
theorem Round.ring_eq (h : m.Round d s l) : m.ring d.link s = .ok l :=
  ring_eq_of_chain h.chain h.not_mem h.length_lt

/-- The active columns are those of the headers met on the way around. -/
theorem Laid.activeColumns_eq_of_round (h : m.Laid t)
    (hround : m.Round .right root (active.map header)) (hlt : ∀ c ∈ active, c < t.columnCount) :
    m.activeColumns = .ok active :=
  h.activeColumns_eq hround.chain hlt hround.not_mem hround.length_lt

/-- The rows of a column are those of the entries met on the way around. -/
theorem Laid.rowsInColumn_eq_of_round (h : m.Laid t) (hc : c < t.columnCount)
    (hround : m.Round .down (header c) (rows.map (t.entry · c)))
    (hmem : ∀ i ∈ rows, c ∈ t.columns i) :
    m.rowsInColumn c = .ok (rows.map t.id) :=
  h.rowsInColumn_eq hc hmem hround.chain hround.not_mem hround.length_lt

/-! ## There and back -/

/-- The nodes read on the way to `s` are linked, begin where the reading began and do not contain
    `s`. -/
private theorem isChain_of_ringFrom_eq (h : m.ringFrom d.link s steps id = .ok l) :
    (l ++ [s]).IsChain (fun a b => m.link d a = some b) ∧ (l ++ [s]).head? = some id ∧ s ∉ l := by
  -- induction on the steps allowed
  induction steps generalizing id l with
  | zero => exact nomatch h
  | succ steps ih =>
    rw [ringFrom] at h
    split at h
    -- back at the start: nothing more is read
    next heq =>
      cases h
      exact ⟨.singleton s, congrArg some heq.symm, List.not_mem_nil⟩
    -- one node is read, and its link leads to the first of the rest
    next hne =>
      obtain ⟨n, hn, h⟩ := bind_eq_ok.mp h
      obtain ⟨rest, hrest, h⟩ := bind_eq_ok.mp h
      cases h
      obtain ⟨hchain, hhead, hs⟩ := ih hrest
      refine ⟨?_, rfl, ?_⟩
      · rw [List.cons_append, List.isChain_cons]
        refine ⟨fun y hy => ?_, hchain⟩
        cases hhead.symm.trans hy
        exact link_of_node hn d
      · rw [List.mem_cons, not_or]
        exact ⟨Ne.symm hne, hs⟩

/-- The nodes read from a ring are those to which its links lead, until they are back at the
    start. -/
private theorem isChain_of_ring_eq (h : m.ring d.link s = .ok l) :
    (s :: (l ++ [s])).IsChain (fun a b => m.link d a = some b) ∧ s ∉ l := by
  obtain ⟨n, hn, h⟩ := bind_eq_ok.mp h
  obtain ⟨hchain, hhead, hs⟩ := isChain_of_ringFrom_eq h
  refine ⟨List.isChain_cons.mpr ⟨fun y hy => ?_, hchain⟩, hs⟩
  cases hhead.symm.trans hy
  exact link_of_node hn d

/-- A way around is a ring exactly if the way back meets its nodes in the opposite order. -/
theorem Round.isRing_iff (h : m.Round d s l) :
    m.IsRing d s l ↔ m.ring d.back.link s = .ok l.reverse := by
  refine ⟨fun hring => hring.reverse.ring_eq, fun hback => ?_⟩
  obtain ⟨hchain, -⟩ := isChain_of_ring_eq hback
  -- the way back, read backwards, is the way around
  have hlist : s :: (l.reverse ++ [s]) = (s :: (l ++ [s])).reverse := by simp
  rw [hlist, List.isChain_reverse] at hchain
  refine ⟨h.sorted.imp Nat.ne_of_lt, List.isChain_iff_getElem.mpr fun i hi => ?_⟩
  exact ⟨h.chain.getElem i hi, hchain.getElem i hi⟩

/-- A way back along a line that climbs stays in the line. -/
private theorem Climbs.mem_of_ring_back_eq (h : m.Climbs d s line)
    (hback : m.ring d.back.link s = .ok l) (hx : x ∈ l) :
    x ∈ line := by
  obtain ⟨hchain, -⟩ := isChain_of_ring_eq hback
  rw [← List.cons_append] at hchain
  -- whoever goes back from a node of the line meets the node before it
  have hmem : ∀ y ∈ s :: l, y ∈ line := by
    refine List.IsChain.induction (· ∈ line) _ hchain.left_of_append ?_ ?_
    · intro a b hab ha
      obtain ⟨y, hy, hlink, -⟩ := h.prev a ha
      cases hlink.symm.trans hab
      exact hy
    · exact fun _ => h.start
  exact hmem x (List.mem_cons_of_mem s hx)

/-! ## The check -/

namespace Ordered

/-- What is met to the right and down is known, and so is what the way back must be. -/
private theorem columnMirrored_iff (h : m.Ordered t) (hc : c < t.columnCount)
    (hround : m.Round .down (header c) (rows.map (t.entry · c)))
    (hrows : ∀ i ∈ rows, c ∈ t.columns i) :
    m.ColumnMirrored c ↔ m.IsRing .down (header c) (rows.map (t.entry · c)) ∧
      m.columnSize c = .ok rows.length := by
  -- what is read going down does not depend on the check
  have hdown : m.ring (·.down) (header c) = .ok (rows.map (t.entry · c)) := hround.ring_eq
  have hids := h.rowsInColumn_eq_of_round hc hround hrows
  constructor
  · rintro ⟨⟨nodes, hnodes, hup⟩, ids, hids', hsize⟩
    cases hdown.symm.trans hnodes
    cases hids.symm.trans hids'
    exact ⟨hround.isRing_iff.mpr hup, by rwa [List.length_map] at hsize⟩
  · rintro ⟨hring, hsize⟩
    exact ⟨⟨_, hdown, hround.isRing_iff.mp hring⟩, _, hids, by rwa [List.length_map]⟩

/-- The headers are linked both ways exactly if the way to the left meets the active columns in the
    opposite order. -/
private theorem headers_isRing_iff (h : m.Ordered t)
    (hround : m.Round .right root (active.map header)) (hactive : ∀ c ∈ active, c < t.columnCount) :
    m.IsRing .right root (active.map header) ↔ m.activeColumnsBack = .ok active.reverse := by
  -- the headers stand for their columns
  have hcolumns : ∀ l : List Nat, (∀ c ∈ l, c < t.columnCount) →
      (l.map header).mapM m.columnOf = .ok l := by
    intro l hl
    rw [List.mapM_map]
    refine (mapM_eq_ok (g := fun c => c) fun c hc => ?_).trans (by rw [List.map_id'])
    exact columnOf_of_role (h.headerRole c (hl c hc)) rfl
  rw [hround.isRing_iff, ← List.map_reverse]
  constructor
  · intro hleft
    have hback : ∀ c ∈ active.reverse, c < t.columnCount := fun c hc =>
      hactive c (List.mem_reverse.mp hc)
    exact (congrArg (· >>= (List.mapM m.columnOf)) hleft).trans (hcolumns _ hback)
  · intro hback
    obtain ⟨nodes, hleft, hnodes⟩ := bind_eq_ok.mp hback
    -- the way to the left meets headers only
    obtain ⟨cs, rfl, hcs⟩ : ∃ cs : List Nat, cs.map header = nodes ∧ ∀ c ∈ cs, c < t.columnCount := by
      refine exists_map_eq fun x hx => ?_
      have hx' : x ≤ t.columnCount := h.headers.mem_of_ring_back_eq hleft hx
      have hne : x ≠ root := fun heq => (isChain_of_ring_eq (d := .left) hleft).2 (heq ▸ hx)
      obtain ⟨c, rfl⟩ := Nat.exists_eq_add_one_of_ne_zero hne
      exact ⟨c, hx', rfl⟩
    cases (hcolumns cs hcs).symm.trans hnodes
    exact hleft

/-- The active columns are those of the headers met going to the right from the root. -/
private theorem round_of_activeColumns_eq (h : m.Ordered t)
    (hcolumns : m.activeColumns = .ok active) :
    m.Round .right root (active.map header) ∧ ∀ c ∈ active, c < t.columnCount := by
  obtain ⟨active', hround, -, hactive⟩ := h.exists_active
  cases (h.activeColumns_eq_of_round hround hactive).symm.trans hcolumns
  exact ⟨hround, hactive⟩

/-- What is found in an active column. -/
private theorem checkActive_finds (h : m.Ordered t) (hcolumns : m.activeColumns = .ok active)
    (hc : c ∈ active) (hlt : c < t.columnCount) :
    Finds (fun _ => m.ColumnMirrored c) (fun e => e.Reachable t.columnCount ∧ e.Holds m)
      (m.checkActive c) := by
  obtain ⟨rows, hround, -, hrows⟩ := h.exists_rows hlt
  obtain ⟨size, hsize⟩ := h.exists_columnSize hlt
  have hids := h.rowsInColumn_eq_of_round hlt hround hrows
  refine (h.toLaid.checkActive_finds hlt hrows hround.chain hround.not_mem hround.lt
    hround.length_lt hsize).imp ?_ ?_
  · rintro _ ⟨hchain, rfl⟩
    exact (h.columnMirrored_iff hlt hround hrows).mpr
      ⟨⟨hround.sorted.imp Nat.ne_of_lt, hchain⟩, hsize⟩
  · rintro _ (⟨x, -, rfl, hback⟩ | ⟨rfl, hne⟩)
    · exact ⟨trivial, hback⟩
    · exact ⟨trivial, ⟨active, hcolumns, hc⟩, hsize, ⟨_, hids, List.length_map ..⟩, hne⟩

/-- The check is passed and the matrix is mirrored, or what it finds can be seen in such a matrix and
    is so. -/
theorem check_finds (h : m.Ordered t) (hcolumns : m.activeColumns = .ok active) :
    Finds (fun _ => m.Mirrored active) (fun e => e.Reachable t.columnCount ∧ e.Holds m) m.check := by
  -- the headers are checked first, the way to the left being the question
  obtain ⟨hround, hactive⟩ := h.round_of_activeColumns_eq hcolumns
  have hheaders := checkRightFrom_finds hround.chain hround.not_mem hround.lt hround.length_lt
  refine Finds.bind (P := fun _ => m.IsRing .right root (active.map header)) (hheaders.imp ?_ ?_) ?_
  · exact fun _ hchain => ⟨hround.sorted.imp Nat.ne_of_lt, hchain⟩
  · rintro _ ⟨x, hx, rfl, hback⟩
    -- a node that fails is the root or the header of an active column
    refine ⟨?_, hback⟩
    rcases List.mem_cons.mp hx with rfl | hx
    · exact .inl rfl
    · obtain ⟨c, hc, rfl⟩ := List.mem_map.mp hx
      exact .inr ⟨c, hactive c hc, rfl⟩
  -- and then the active columns, one by one
  · intro _ hring
    simp only [hcolumns, checked, ok_bind]
    refine (finds_forM fun c hc => h.checkActive_finds hcolumns hc (hactive c hc)).imp
      (fun _ hmirrored => ⟨?_, hmirrored⟩) fun _ he => he
    exact (h.headers_isRing_iff hround hactive).mp hring

/-- A mirrored matrix has rings. -/
theorem ringed_of_mirrored (h : m.Ordered t) (hcolumns : m.activeColumns = .ok active)
    (hmirrored : m.Mirrored active) : m.Ringed t active := by
  obtain ⟨hround, hactive⟩ := h.round_of_activeColumns_eq hcolumns
  refine ⟨h.toLaid, (h.headers_isRing_iff hround hactive).mpr hmirrored.left, hactive, ?_⟩
  intro c hc
  obtain ⟨rows, hcolumn, -, hrows⟩ := h.exists_rows (hactive c hc)
  exact ⟨rows, hrows, (h.columnMirrored_iff (hactive c hc) hcolumn hrows).mp
    (hmirrored.columns c hc)⟩

/-- The check is passed exactly if the matrix is mirrored. -/
theorem check_eq_ok_iff (h : m.Ordered t) (hcolumns : m.activeColumns = .ok active) :
    m.check = .ok () ↔ m.Mirrored active := by
  refine ⟨fun hcheck => ?_, fun hmirrored => (h.ringed_of_mirrored hcolumns hmirrored).check_eq⟩
  have hfinds := h.check_finds hcolumns
  rwa [hcheck] at hfinds

end Ordered
end Matrix
end ExactCover
