import ExactCover.Proofs.Search.Enumeration
import ExactCover.Proofs.Sudoku.Rows

/-!
# Exact covers are solutions

An exact cover of the matrix of a puzzle puts one digit in every cell and each digit once in every
house, and so does a solution. Writing the digits of the rows of an exact cover into an empty
board is a bijection from the exact covers to the solutions.

## Key results

- `coversRest_iff`: what an exact cover says of the digits it chooses
- `exactCovers_bijOn_solutions`: the reduction
-/

namespace ExactCover.Sudoku

/-! ## Boards by their cells -/

namespace Board

variable {b s s' : Board} {S S' : Finset Nat}

/-- A board is known by the digits in its cells. -/
theorem ext_get (h : ∀ c d, s.get c = some d ↔ s'.get c = some d) : s = s' := by
  have hget : ∀ c, s.get c = s'.get c := fun c => Option.ext fun d => h c d
  obtain ⟨cells⟩ := s
  obtain ⟨cells'⟩ := s'
  rw [Board.mk.injEq]
  refine Vector.ext fun i hi => ?_
  have hi := hget (Cell.ofIndex ⟨i, hi⟩)
  simp only [get, Cell.index_ofIndex] at hi
  exact hi

/-- Digits written into different cells are read back. -/
private theorem get_foldl_set {l : List (Cell × Digit)} (hl : (l.map Prod.fst).Nodup) (c : Cell)
    (d : Digit) :
    (l.foldl (fun s p => s.set p.1 (some p.2)) b).get c = some d ↔
      (c, d) ∈ l ∨ (c ∉ l.map Prod.fst ∧ b.get c = some d) := by
  -- induction on the digits; a later one never writes into the cell of an earlier one
  induction l generalizing b with
  | nil => simp
  | cons p l ih =>
    rw [List.map_cons, List.nodup_cons] at hl
    rw [List.foldl_cons, ih hl.2, List.mem_cons, List.map_cons, List.mem_cons]
    by_cases hc : c = p.1
    · subst hc
      have hnot : (p.1, d) ∉ l := fun h => hl.1 (List.mem_map.mpr ⟨_, h, rfl⟩)
      rw [get_set_self]
      simp [hl.1, hnot, Prod.ext_iff, eq_comm]
    · rw [get_set_ne _ _ (Ne.symm hc)]
      have hne : (c, d) ≠ p := fun h => hc (congrArg Prod.fst h)
      simp [hc, hne]

/-- Writing rows is writing their digits. -/
private theorem foldlM_write {l : List (Cell × Digit)} :
    (l.map rowIdOf).foldlM write b = .ok (l.foldl (fun s p => s.set p.1 (some p.2)) b) := by
  induction l generalizing b with
  | nil => rfl
  | cons p l ih =>
    have hwrite : b.write (rowIdOf p) = .ok (b.set p.1 (some p.2)) := by
      rw [write, placement?_ofRowId]
    rw [List.map_cons, List.foldlM_cons, hwrite, ok_bind, ih, List.foldl_cons]

/-! ## The digits chosen by an exact cover -/

/-- The rows at the positions `S` put the digit into the cell. -/
def Chosen (b : Board) (S : Finset Nat) (p : Cell × Digit) : Prop :=
  ∃ i ∈ S, b.placements[i]? = some p

theorem columnsAt_matrixRows {i : Nat} {p : Cell × Digit} (h : b.placements[i]? = some p) :
    columnsAt b.matrixRows i = columnsOf p := by
  rw [columnsAt, matrixRows, List.getElem?_map, h]
  rfl

private theorem idAt_matrixRows {i : Nat} {p : Cell × Digit} (h : b.placements[i]? = some p) :
    idAt b.matrixRows i = rowIdOf p := by
  rw [idAt, matrixRows, List.getElem?_map, h]
  rfl

/-- One position in `S` meets a column exactly if one digit chosen does. -/
private theorem existsUnique_position_iff (hS : ∀ i ∈ S, i < b.placements.length) (n : Nat) :
    (∃! i, i ∈ S ∧ n ∈ columnsAt b.matrixRows i) ↔ ∃! p, b.Chosen S p ∧ n ∈ columnsOf p := by
  constructor
  · rintro ⟨i, ⟨hi, hn⟩, huniq⟩
    have hp := List.getElem?_eq_getElem (hS i hi)
    rw [columnsAt_matrixRows hp] at hn
    refine ⟨_, ⟨⟨i, hi, hp⟩, hn⟩, ?_⟩
    rintro q ⟨⟨j, hj, hq⟩, hnq⟩
    obtain rfl := huniq j ⟨hj, by rwa [columnsAt_matrixRows hq]⟩
    exact Option.some.inj (hq.symm.trans hp)
  · rintro ⟨p, ⟨⟨i, hi, hp⟩, hn⟩, huniq⟩
    refine ⟨i, ⟨hi, by rwa [columnsAt_matrixRows hp]⟩, ?_⟩
    rintro j ⟨hj, hnj⟩
    have hq := List.getElem?_eq_getElem (hS j hj)
    rw [columnsAt_matrixRows hq] at hnj
    -- two positions with the same digit are the same, since no digit is listed twice
    have heq := huniq _ ⟨⟨j, hj, hq⟩, hnj⟩
    rw [heq, ← hp] at hq
    exact (List.getElem?_inj (hS j hj) b.placements_nodup).mp hq

/-- An exact cover chooses one digit for every cell, and for every house each digit once. -/
theorem coversRest_iff :
    CoversRest constraintCount b.matrixRows [] S ↔
      (∀ i ∈ S, i < b.placements.length) ∧ (∀ c, ∃! d, b.Chosen S (c, d)) ∧
        ∀ (h : House) (d : Digit), ∃! c, h.Has c ∧ b.Chosen S (c, d) := by
  -- the column of a cell asks for its digit, and that of a house and a digit for its cell
  have hcell : ∀ c, (∃! p, b.Chosen S p ∧ cellColumn c ∈ columnsOf p) ↔
      ∃! d, b.Chosen S (c, d) := by
    intro c
    simp only [mem_columnsOf_cell]
    constructor
    · rintro ⟨⟨_, d⟩, ⟨hp, rfl⟩, huniq⟩
      exact ⟨d, hp, fun e he => congrArg Prod.snd (huniq _ ⟨he, rfl⟩)⟩
    · rintro ⟨d, hd, huniq⟩
      refine ⟨(c, d), ⟨hd, rfl⟩, ?_⟩
      rintro ⟨_, e⟩ ⟨he, rfl⟩
      exact congrArg (Prod.mk _) (huniq e he)
  have hhouse : ∀ h d, (∃! p, b.Chosen S p ∧ houseColumn h d ∈ columnsOf p) ↔
      ∃! c, h.Has c ∧ b.Chosen S (c, d) := by
    intro h d
    simp only [mem_columnsOf_house]
    constructor
    · rintro ⟨⟨c, _⟩, ⟨hp, hc, rfl⟩, huniq⟩
      exact ⟨c, ⟨hc, hp⟩, fun c' hc' => congrArg Prod.fst (huniq _ ⟨hc'.2, hc'.1, rfl⟩)⟩
    · rintro ⟨c, ⟨hc, hp⟩, huniq⟩
      refine ⟨(c, d), ⟨hp, hc, rfl⟩, ?_⟩
      rintro ⟨c', _⟩ ⟨hp', hc', rfl⟩
      exact congrArg (Prod.mk · _) (huniq c' ⟨hc', hp'⟩)
  have hlength : b.matrixRows.length = b.placements.length := List.length_map _
  constructor
  · intro hS
    have hlt := fun i hi => hlength ▸ hS.lt i hi
    exact ⟨hlt,
      fun c => (hcell c).mp ((existsUnique_position_iff hlt _).mp
        (hS.existsUnique _ (cellColumn_lt c) List.not_mem_nil)),
      fun h d => (hhouse h d).mp ((existsUnique_position_iff hlt _).mp
        (hS.existsUnique _ (houseColumn_lt h d) List.not_mem_nil))⟩
  · rintro ⟨hlt, hcells, hhouses⟩
    refine ⟨fun i hi => hlength ▸ hlt i hi, fun i hi => ?_, fun i _ n _ => List.not_mem_nil,
      fun n hn _ => (existsUnique_position_iff hlt n).mpr ?_⟩
    · rw [columnsAt_matrixRows (List.getElem?_eq_getElem (hlt i hi))]
      exact List.cons_ne_nil _ _
    · -- there are no other columns
      rcases exists_column hn with ⟨h, d, rfl⟩ | ⟨c, rfl⟩
      · exact (hhouse h d).mpr (hhouses h d)
      · exact (hcell c).mpr (hcells c)

/-- The digits at the positions `l`. -/
def placementsAt (b : Board) (l : List Nat) (hl : ∀ i ∈ l, i < b.placements.length) :
    List (Cell × Digit) :=
  l.pmap (fun i hi => b.placements[i]) hl

/-- The identifiers of the rows at some positions are those of their digits. -/
private theorem map_rowIdOf_placementsAt {l : List Nat} (hl : ∀ i ∈ l, i < b.placements.length) :
    (b.placementsAt l hl).map rowIdOf = l.map (idAt b.matrixRows) := by
  rw [placementsAt, List.map_pmap, ← List.pmap_eq_map (f := idAt b.matrixRows) hl]
  exact List.pmap_congr_left l fun i _ hi _ =>
    (idAt_matrixRows (List.getElem?_eq_getElem hi)).symm

/-- The digits at some positions are those chosen by the set of them. -/
private theorem mem_placementsAt {l : List Nat} (hl : ∀ i ∈ l, i < b.placements.length)
    {p : Cell × Digit} : p ∈ b.placementsAt l hl ↔ b.Chosen l.toFinset p := by
  rw [placementsAt, List.mem_pmap]
  constructor
  · rintro ⟨i, hi, rfl⟩
    exact ⟨i, List.mem_toFinset.mpr hi, List.getElem?_eq_getElem (hl i hi)⟩
  · rintro ⟨i, hi, hp⟩
    rw [List.mem_toFinset] at hi
    rw [List.getElem?_eq_getElem (hl i hi), Option.some.injEq] at hp
    exact ⟨i, hi, hp⟩

/-- An exact cover has a row for each cell, and so 81 rows. -/
private theorem perm_all {l : List Nat} (hS : CoversRest constraintCount b.matrixRows [] l.toFinset)
    (hnodup : l.Nodup) (hl : ∀ i ∈ l, i < b.placements.length) :
    ((b.placementsAt l hl).map Prod.fst).Perm Cell.all := by
  obtain ⟨-, hcell, -⟩ := coversRest_iff.mp hS
  -- the cells are listed once, since one digit is chosen for each
  have hplacements : (b.placementsAt l hl).Nodup :=
    hnodup.pmap fun i hi j hj heq => (b.placements_nodup.getElem_inj_iff).mp heq
  have hcells : ((b.placementsAt l hl).map Prod.fst).Nodup := by
    refine hplacements.map_on fun p hp q hq heq => ?_
    rw [mem_placementsAt] at hp hq
    obtain ⟨c, d⟩ := p
    obtain ⟨c', d'⟩ := q
    obtain rfl : c = c' := heq
    rw [(hcell c).unique hp hq]
  -- each cell is among them, since a digit is chosen for it
  refine (List.perm_ext_iff_of_nodup hcells all_nodup).mpr fun c => iff_of_true ?_ (mem_all c)
  obtain ⟨d, hd, -⟩ := hcell c
  exact List.mem_map.mpr ⟨(c, d), (mem_placementsAt hl).mpr hd, rfl⟩

/-- An exact cover has 81 rows. -/
theorem length_eq_of_coversRest {l : List Nat}
    (hS : CoversRest constraintCount b.matrixRows [] l.toFinset) (hnodup : l.Nodup) :
    l.length = 81 := by
  have hl : ∀ i ∈ l, i < b.placements.length := fun i hi =>
    (coversRest_iff.mp hS).1 i (List.mem_toFinset.mpr hi)
  have hlength := (perm_all hS hnodup hl).length_eq
  rw [List.length_map, placementsAt, List.length_pmap] at hlength
  rw [hlength]
  simp [Cell.all]

/-- The rows of an exact cover describe a board, whatever their order. -/
theorem exists_board (hS : CoversRest constraintCount b.matrixRows [] S) :
    ∃ s : Board, (∀ c d, s.get c = some d ↔ b.Chosen S (c, d)) ∧
      ∀ l : List Nat, l.Nodup → l.toFinset = S → ofRowIds (l.map (idAt b.matrixRows)) = .ok s := by
  -- every order of the rows gives a board, and all these boards have the same digits
  have hany : ∀ l : List Nat, l.Nodup → l.toFinset = S →
      ∃ s : Board, ofRowIds (l.map (idAt b.matrixRows)) = .ok s ∧
        ∀ c d, s.get c = some d ↔ b.Chosen S (c, d) := by
    rintro l hnodup rfl
    have hl : ∀ i ∈ l, i < b.placements.length := fun i hi =>
      (coversRest_iff.mp hS).1 i (List.mem_toFinset.mpr hi)
    have hcells := ((perm_all hS hnodup hl).nodup_iff).mpr all_nodup
    refine ⟨_, ?_, fun c d => (get_foldl_set (b := empty) hcells c d).trans ?_⟩
    · rw [ofRowIds, if_pos (by rw [List.length_map, length_eq_of_coversRest hS hnodup]),
        ← map_rowIdOf_placementsAt hl, foldlM_write]
    · have hempty : empty.get c ≠ some d := by simp [get, empty]
      rw [mem_placementsAt]
      simp [hempty]
  obtain ⟨s, -, hs⟩ := hany S.toList S.nodup_toList S.toList_toFinset
  refine ⟨s, hs, fun l hnodup hl => ?_⟩
  obtain ⟨s', hs', hget⟩ := hany l hnodup hl
  rw [hs', ext_get fun c d => (hget c d).trans (hs c d).symm]

/-! ## Solutions -/

/-- Only digits that a cell may hold are chosen. -/
private theorem mem_placements_of_chosen {p : Cell × Digit} (h : b.Chosen S p) :
    p ∈ b.placements := by
  obtain ⟨i, -, hp⟩ := h
  exact List.mem_of_getElem? hp

/-- The board of an exact cover is a solution. -/
theorem isSolutionOf_of_coversRest (hS : CoversRest constraintCount b.matrixRows [] S)
    (hs : ∀ c d, s.get c = some d ↔ b.Chosen S (c, d)) : s.isSolutionOf b = true := by
  obtain ⟨-, hcell, hhouse⟩ := coversRest_iff.mp hS
  rw [isSolutionOf_iff, isSolved_iff]
  simp only [hs]
  -- each cell has a digit, each house each digit once, and the givens are kept
  refine ⟨⟨fun c => (hcell c).exists, hhouse⟩, fun c d hd => ?_⟩
  -- the cell of a given has no row for any other digit
  obtain ⟨e, he, -⟩ := hcell c
  rcases mem_placements.mp (mem_placements_of_chosen he) with hnone | hsome
  · exact nomatch hd.symm.trans hnone
  · rwa [Option.some.inj (hd.symm.trans hsome)]

/-- The positions of the rows for the digits of a board. -/
def positions (b s : Board) : Finset Nat :=
  (Finset.range b.placements.length).filter fun i =>
    (b.placements[i]?).any fun p => s.get p.1 = some p.2

/-- The digits chosen by these positions are those of the solution. -/
private theorem chosen_positions (hs : s.isSolutionOf b = true) {p : Cell × Digit} :
    b.Chosen (b.positions s) p ↔ s.get p.1 = some p.2 := by
  simp only [Chosen, positions, Finset.mem_filter, Finset.mem_range, Option.any_eq_true,
    decide_eq_true_eq]
  constructor
  · rintro ⟨i, ⟨-, q, hq, hget⟩, hp⟩
    rwa [Option.some.inj (hp.symm.trans hq)]
  · intro hget
    -- a solution puts into a cell only what the puzzle allows there
    have hmem : p ∈ b.placements := by
      rw [mem_placements]
      cases hb : b.get p.1 with
      | none => exact .inl rfl
      | some d =>
        have hd := ((isSolutionOf_iff s b).mp hs).2 p.1 d hb
        exact .inr (hd.symm.trans hget)
    obtain ⟨i, hi, rfl⟩ := List.getElem_of_mem hmem
    exact ⟨i, ⟨hi, _, List.getElem?_eq_getElem hi, hget⟩, List.getElem?_eq_getElem hi⟩

/-- The rows for the digits of a solution form an exact cover. -/
theorem coversRest_positions (hs : s.isSolutionOf b = true) :
    CoversRest constraintCount b.matrixRows [] (b.positions s) := by
  have hsolved := (isSolved_iff s).mp ((isSolutionOf_iff s b).mp hs).1
  rw [coversRest_iff]
  simp only [chosen_positions hs]
  refine ⟨fun i hi => ?_, fun c => ?_, hsolved.2⟩
  · exact Finset.mem_range.mp (Finset.mem_filter.mp hi).1
  · obtain ⟨d, hd⟩ := hsolved.1 c
    exact ⟨d, hd, fun e he => Option.some.inj (he.symm.trans hd)⟩

/-- An exact cover is known by the digits that it chooses. -/
private theorem subset_of_chosen (hS : ∀ i ∈ S, i < b.placements.length)
    (h : ∀ p, b.Chosen S p → b.Chosen S' p) : S ⊆ S' := by
  intro i hi
  have hp := List.getElem?_eq_getElem (hS i hi)
  obtain ⟨j, hj, hq⟩ := h _ ⟨i, hi, hp⟩
  rwa [(List.getElem?_inj (hS i hi) b.placements_nodup).mp (hp.trans hq.symm)]

/-- Reading the digits off the exact covers is a bijection onto the solutions. -/
theorem bijOn_solutions {board : Finset Nat → Board}
    (hboard : ∀ S, CoversRest constraintCount b.matrixRows [] S →
      ∀ c d, (board S).get c = some d ↔ b.Chosen S (c, d)) :
    Set.BijOn board {S | CoversRest constraintCount b.matrixRows [] S}
      {s | s.isSolutionOf b = true} := by
  -- covers give solutions, different covers different ones, and every solution is given
  refine ⟨fun S hS => isSolutionOf_of_coversRest hS (hboard S hS), ?_, ?_⟩
  · intro S hS S' hS' heq
    have hchosen : ∀ p, b.Chosen S p ↔ b.Chosen S' p := by
      intro p
      rw [← hboard S hS, ← hboard S' hS', heq]
    exact Finset.Subset.antisymm
      (subset_of_chosen (coversRest_iff.mp hS).1 fun p => (hchosen p).mp)
      (subset_of_chosen (coversRest_iff.mp hS').1 fun p => (hchosen p).mpr)
  · intro s hs
    have hS := coversRest_positions hs
    exact ⟨b.positions s, hS,
      ext_get fun c d => (hboard _ hS c d).trans (chosen_positions hs (p := (c, d)))⟩

/-- Clashing givens have no solution. -/
theorem not_isSolutionOf_of_clash (hb : b.isConsistent = false) : s.isSolutionOf b = false := by
  rw [← Bool.not_eq_true]
  intro hs
  obtain ⟨hsolved, hgivens⟩ := (isSolutionOf_iff s b).mp hs
  have hcons := (isConsistent_iff s).mp (Bool.and_eq_true_iff.mp hsolved).2
  -- digits that clash among the givens clash in the solution
  refine Bool.false_ne_true (hb.symm.trans ((isConsistent_iff b).mpr ?_))
  intro h c c' hc hc' d hd hd'
  exact hcons h c c' hc hc' d (hgivens c d hd) (hgivens c' d hd')

end Board
end ExactCover.Sudoku
