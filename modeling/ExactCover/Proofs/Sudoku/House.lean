import ExactCover.Sudoku.Occupancy
import Mathlib.Data.Fintype.EquivFin
import Mathlib.Data.List.Pairwise

/-!
# Houses

A house is a row, a column or a box of the board. This file says what the flags of an `Occupancy`
mean for the houses, and from that what it means that a board is consistent or solved.

## Key results

- `isConsistent_iff`: no digit stands twice in a house
- `isSolved_iff`: every cell is filled and every house has each digit once
- `isSolutionOf_iff`: a solution of a puzzle is solved and keeps its givens
-/

namespace ExactCover.Sudoku

/-- A row, a column or a box of the board. -/
inductive House where
  | row (i : Fin 9)
  | col (i : Fin 9)
  | box (i : Fin 9)
  deriving DecidableEq, Repr

namespace House

/-- The cell lies in the house. -/
def Has : House → Cell → Prop
  | row i, c => c.row = i
  | col i, c => c.col = i
  | box i, c => c.box = i

/-- The cells of a house, counted from zero. -/
def cell : House → Fin 9 → Cell
  | row i, k => ⟨i, k⟩
  | col i, k => ⟨k, i⟩
  | box i, k => ⟨⟨i / 3 * 3 + k / 3, by omega⟩, ⟨i % 3 * 3 + k % 3, by omega⟩⟩

/-- The cells counted in a house lie in it. -/
private theorem has_cell (h : House) (k : Fin 9) : h.Has (h.cell k) := by
  cases h with
  | row i => rfl
  | col i => rfl
  | box i =>
    show Cell.box _ = i
    simp only [cell, Cell.box, Fin.ext_iff]
    omega

/-- They are nine different cells. -/
private theorem cell_injective (h : House) : Function.Injective h.cell := by
  intro k k' heq
  cases h with
  | row i => exact (Cell.mk.inj heq).2
  | col i => exact (Cell.mk.inj heq).1
  | box i =>
    simp only [cell, Cell.mk.injEq, Fin.mk.injEq] at heq
    omega

end House

/-! ## Digits in use -/

/-- The flag of a digit in a house. -/
def Occupancy.flag (o : Occupancy) : House → Digit → Bool
  | .row i, d => o.rows[bit i d]
  | .col i, d => o.cols[bit i d]
  | .box i, d => o.boxes[bit i d]

/-- The same digit in two cells of one house. -/
def Clash (p q : Cell × Digit) : Prop := p.2 = q.2 ∧ ∃ h : House, h.Has p.1 ∧ h.Has q.1

namespace Occupancy

/-- Each digit of a unit has a flag of its own. -/
private theorem bit_inj {i j : Fin 9} {d e : Digit} : bit i d = bit j e ↔ i = j ∧ d = e := by
  simp only [bit, Fin.ext_iff]
  omega

/-- At first no digit is in use. -/
theorem flag_empty (h : House) (d : Digit) : empty.flag h d = false := by
  cases h <;> simp [flag, empty]

/-- Placing a digit in a cell sets its flags in the houses of the cell and no others. -/
theorem flag_place (o : Occupancy) (c : Cell) (d : Digit) (h : House) (e : Digit) :
    (o.place c d).flag h e = true ↔ (h.Has c ∧ e = d) ∨ o.flag h e = true := by
  have hset : ∀ (v : Vector Bool 81) (i j : Fin 9),
      (v.set (bit j d) true)[bit i e] = true ↔ (j = i ∧ e = d) ∨ v[bit i e] = true := by
    intro v i j
    rw [Fin.getElem_fin, Vector.getElem_set]
    -- the flags of different houses or digits have different bits
    by_cases hbit : bit j d = bit i e
    · have heq := bit_inj.mp hbit
      simp [heq.1, heq.2]
    · have hne : (bit j d).val ≠ (bit i e).val := fun h => hbit (Fin.ext h)
      rw [if_neg hne]
      refine ⟨.inr, fun h => h.resolve_left ?_⟩
      rintro ⟨rfl, rfl⟩
      exact hbit rfl
  cases h with
  | row i => exact hset o.rows i c.row
  | col i => exact hset o.cols i c.col
  | box i => exact hset o.boxes i c.box

/-- A digit fits if its flags in the houses of the cell are not set. -/
theorem allows_iff (o : Occupancy) (c : Cell) (d : Digit) :
    o.allows c d = true ↔ ∀ h : House, h.Has c → o.flag h d = false := by
  simp only [allows, Bool.and_eq_true, Bool.not_eq_true']
  constructor
  · rintro ⟨⟨hrow, hcol⟩, hbox⟩ h hc
    cases h with
    | row i => cases hc; exact hrow
    | col i => cases hc; exact hcol
    | box i => cases hc; exact hbox
  · intro h
    exact ⟨⟨h (.row c.row) rfl, h (.col c.col) rfl⟩, h (.box c.box) rfl⟩

/-- A placed digit forbids the digits that clash with it and no others. -/
private theorem allows_place (o : Occupancy) (p q : Cell × Digit) :
    (o.place p.1 p.2).allows q.1 q.2 = true ↔ o.allows q.1 q.2 = true ∧ ¬ Clash p q := by
  -- the flags that the first digit sets are those that the second one asks for, if they clash
  simp only [allows_iff, ← Bool.not_eq_true, flag_place, not_or, not_and]
  constructor
  · intro h
    exact ⟨fun k hk => (h k hk).2, fun ⟨heq, k, hp, hq⟩ => (h k hq).1 hp heq.symm⟩
  · rintro ⟨ho, hclash⟩ k hk
    exact ⟨fun hp heq => hclash ⟨heq.symm, k, hp, hk⟩, ho k hk⟩

/-- Digits can be placed one after the other if each fits at the start and no two clash. -/
private theorem foldlM_place_isSome {l : List (Cell × Digit)} {o : Occupancy} :
    (l.foldlM (fun (o : Occupancy) p => o.place? p.1 p.2) o).isSome = true ↔
      (∀ p ∈ l, o.allows p.1 p.2 = true) ∧ l.Pairwise fun p q => ¬ Clash p q := by
  -- induction on the digits: the first one placed forbids those that clash with it
  induction l generalizing o with
  | nil => simp
  | cons p l ih =>
    rw [List.foldlM_cons, place?]
    by_cases hp : o.allows p.1 p.2 = true
    · rw [if_pos hp, Option.bind_eq_bind, Option.bind_some, ih]
      simp only [allows_place, List.forall_mem_cons, List.pairwise_cons, hp]
      constructor
      · rintro ⟨h, hl⟩
        exact ⟨⟨trivial, fun q hq => (h q hq).1⟩, fun q hq => (h q hq).2, hl⟩
      · rintro ⟨⟨-, h⟩, hclash, hl⟩
        exact ⟨fun q hq => ⟨h q hq, hclash q hq⟩, hl⟩
    · rw [if_neg hp]
      simp [hp]

end Occupancy

/-! ## Boards -/

namespace Board

theorem mem_all (c : Cell) : c ∈ Cell.all :=
  List.mem_map.mpr ⟨c.index, List.mem_finRange _, Cell.ofIndex_index c⟩

theorem all_nodup : Cell.all.Nodup :=
  (List.nodup_finRange 81).map fun i j h => by
    rw [← Cell.index_ofIndex i, h, Cell.index_ofIndex]

/-- The givens are the digits on the board, each with its cell. -/
theorem mem_givens {b : Board} {p : Cell × Digit} : p ∈ b.givens ↔ b.get p.1 = some p.2 := by
  rw [givens, List.mem_filterMap]
  constructor
  · rintro ⟨c, -, hp⟩
    obtain ⟨d, hd, rfl⟩ := Option.map_eq_some_iff.mp hp
    exact hd
  · intro hp
    exact ⟨p.1, mem_all p.1, by rw [hp]; rfl⟩

/-- No cell has two digits. -/
private theorem givens_nodup (b : Board) : b.givens.Nodup := by
  refine all_nodup.filterMap fun c c' p hp hp' => ?_
  obtain ⟨d, -, rfl⟩ := Option.map_eq_some_iff.mp hp
  obtain ⟨d', -, heq⟩ := Option.map_eq_some_iff.mp hp'
  exact (congrArg Prod.fst heq).symm

/-- No digit stands twice in a house. -/
theorem isConsistent_iff (b : Board) :
    b.isConsistent = true ↔ ∀ h : House, ∀ c c', h.Has c → h.Has c' → ∀ d,
      b.get c = some d → b.get c' = some d → c = c' := by
  -- the digits are placed one after the other, and at the start all of them fit
  have hplace : b.isConsistent = true ↔ b.givens.Pairwise fun p q => ¬ Clash p q := by
    refine Occupancy.foldlM_place_isSome.trans (and_iff_right fun p _ => ?_)
    exact (Occupancy.allows_iff ..).mpr fun h _ => Occupancy.flag_empty h p.2
  rw [hplace]
  constructor
  · intro hpair h c c' hc hc' d hd hd'
    by_contra hne
    -- the two cells stand in one order or the other in the list of givens
    have : Std.Symm fun p q : Cell × Digit => ¬ Clash p q :=
      ⟨fun p q hpq ⟨heq, k, hq, hp⟩ => hpq ⟨heq.symm, k, hp, hq⟩⟩
    refine hpair.forall (mem_givens (p := (c, d)).mpr hd) (mem_givens (p := (c', d)).mpr hd') ?_
      ⟨rfl, h, hc, hc'⟩
    exact fun heq => hne (congrArg Prod.fst heq)
  · intro h
    refine b.givens_nodup.pairwise_of_forall_ne fun p hp q hq hne ⟨heq, k, hkp, hkq⟩ => hne ?_
    rw [mem_givens] at hp hq
    exact Prod.ext (h k p.1 q.1 hkp hkq p.2 hp (heq ▸ hq)) heq

/-- The contents of a board, cell by cell. -/
theorem toList_eq (b : Board) : b.toList = Cell.all.map b.get := by
  refine List.ext_getElem ?_ fun i hi hi' => ?_
  · simp [toList, Cell.all]
  · simp [toList, Cell.all, get, Cell.index_ofIndex]

/-- A board is complete if every cell has a digit. -/
theorem isComplete_iff (b : Board) : b.isComplete = true ↔ ∀ c, ∃ d, b.get c = some d := by
  rw [isComplete, List.all_eq_true]
  constructor
  · intro h c
    exact Option.isSome_iff_exists.mp (h _ (Vector.mem_toList_iff.mpr (Vector.getElem_mem _)))
  · intro h x hx
    obtain ⟨i, hi, rfl⟩ := Vector.getElem_of_mem (Vector.mem_toList_iff.mp hx)
    obtain ⟨d, hd⟩ := h (Cell.ofIndex ⟨i, hi⟩)
    simp only [get, Cell.index_ofIndex] at hd
    exact Option.isSome_iff_exists.mpr ⟨d, hd⟩

/-- Every cell is filled and every house has each digit once. -/
theorem isSolved_iff (b : Board) :
    b.isSolved = true ↔ (∀ c, ∃ d, b.get c = some d) ∧
      ∀ (h : House) (d : Digit), ∃! c, h.Has c ∧ b.get c = some d := by
  rw [isSolved, Bool.and_eq_true, isComplete_iff, isConsistent_iff]
  refine and_congr_right fun hcomplete => ⟨fun hcons h d => ?_, fun huniq h c c' hc hc' d hd hd' =>
    (huniq h d).unique ⟨hc, hd⟩ ⟨hc', hd'⟩⟩
  -- nine cells with nine different digits
  choose digit hdigit using hcomplete
  have hinj : Function.Injective fun k => digit (h.cell k) := by
    intro k k' heq
    refine h.cell_injective (hcons h _ _ (h.has_cell k) (h.has_cell k') _ (hdigit _) ?_)
    rw [show digit (h.cell k) = digit (h.cell k') from heq]
    exact hdigit _
  obtain ⟨k, hk⟩ := Finite.surjective_of_injective hinj d
  refine ⟨h.cell k, ⟨h.has_cell k, hk ▸ hdigit _⟩, fun c hc => ?_⟩
  exact hcons h _ _ hc.1 (h.has_cell k) d hc.2 (hk ▸ hdigit _)

/-- A solution of a puzzle is solved and keeps its givens. -/
theorem isSolutionOf_iff (b puzzle : Board) :
    b.isSolutionOf puzzle = true ↔
      b.isSolved = true ∧ ∀ c d, puzzle.get c = some d → b.get c = some d := by
  rw [isSolutionOf, Bool.and_eq_true, List.all_eq_true]
  refine and_congr_right fun _ => ⟨fun h c d hd => ?_, fun h p hp => ?_⟩
  · simpa using h (c, d) (mem_givens.mpr hd)
  · simpa using h p.1 p.2 (mem_givens.mp hp)

end Board
end ExactCover.Sudoku
