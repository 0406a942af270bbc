import ExactCover.Proofs.Matrix.AddRow
import ExactCover.Proofs.Matrix.Check

/-!
# Strictly nested covers

Columns are covered and uncovered in strict nesting if each cover names an active column and each
uncover the column that was covered last of those still covered. What the matrix is like then
hangs on the columns still covered alone, in the order in which they were covered, and on nothing
that has been undone in between. So an uncover brings back the very matrix from before the cover
that it undoes.

## Key results

- `Standing.move`: one cover or uncover
- `Standing.moves`: a strictly nested sequence of them
- `nested_restores`: each uncover restores the matrix as it was before the matching cover
- `nested_seenAfter`: what can be seen of the matrix in between
-/

namespace ExactCover

/-- A column is covered, or it is uncovered. -/
inductive Move where
  | cover (column : Nat)
  | uncover (column : Nat)
  deriving DecidableEq, Repr

namespace Move

variable {before after : List Nat} {c : Nat} {xs : List Move}

/-- The columns still covered after a move, the latest last. -/
def next (cs : List Nat) : Move → List Nat
  | cover c => cs ++ [c]
  | uncover _ => cs.dropLast

/-- The columns still covered after a sequence of moves, the latest last. -/
def outstanding (xs : List Move) : List Nat := xs.foldl next []

/-- The number of covers not undone after one more move. There is none if the move undoes a cover
    from before the count began. -/
def level : Nat → Move → Option Nat
  | k, cover _ => some (k + 1)
  | 0, uncover _ => none
  | k + 1, uncover _ => some k

/-- The moves undo no cover but their own. -/
def UndoOwn (xs : List Move) : Prop := (xs.foldlM level 0).isSome

/-- The moves undo no cover but their own, and all of these. -/
def Balanced (xs : List Move) : Prop := xs.foldlM level 0 = some 0

/-- A column that is still covered has been covered at some time, and its cover has not been
    undone since. -/
private theorem exists_cover_of_outstanding (h : outstanding xs = before ++ c :: after) :
    ∃ earlier later, xs = earlier ++ .cover c :: later ∧ outstanding earlier = before ∧
      later.foldlM level 0 = some after.length := by
  -- induction on the moves from the last one back
  induction xs using List.reverseRecOn generalizing after with
  | nil => exact absurd h.symm (by simp [outstanding])
  | append_singleton xs x ih =>
    have hsnoc : outstanding (xs ++ [x]) = x.next (outstanding xs) := by
      rw [outstanding, List.foldl_append]
      rfl
    rw [hsnoc] at h
    cases x with
    | cover d =>
      rw [next] at h
      rcases List.eq_nil_or_concat' after with rfl | ⟨after, e, rfl⟩
      · -- the last move itself is the cover
        obtain ⟨hbefore, hd⟩ := List.append_inj' h rfl
        exact ⟨xs, [], by rw [List.singleton_inj.mp hd], hbefore, rfl⟩
      · rw [← List.cons_append, ← List.append_assoc] at h
        obtain ⟨hrest, -⟩ := List.append_inj' h rfl
        obtain ⟨earlier, later, rfl, hearlier, hlater⟩ := ih hrest
        refine ⟨earlier, later ++ [.cover d], by simp, hearlier, ?_⟩
        rw [List.foldlM_append, hlater, List.length_append]
        rfl
    | uncover d =>
      -- one more column was covered before the last move
      obtain ⟨e, he⟩ : ∃ e, outstanding xs = before ++ c :: (after ++ [e]) := by
        rcases List.eq_nil_or_concat' (outstanding xs) with hnil | ⟨ds, e, hds⟩
        · simp [next, hnil] at h
        · refine ⟨e, ?_⟩
          rw [next, hds, List.dropLast_concat] at h
          rw [hds, h, List.append_assoc, List.cons_append]
      obtain ⟨earlier, later, rfl, hearlier, hlater⟩ := ih he
      refine ⟨earlier, later ++ [.uncover d], by simp, hearlier, ?_⟩
      rw [List.foldlM_append, hlater, List.length_append]
      rfl

end Move

namespace Matrix

/-- Covers or uncovers a column. -/
def move (m : Matrix) : Move → Except Fault Matrix
  | .cover c => m.cover c
  | .uncover c => m.uncover c

/-- The column is active. -/
def IsActive (m : Matrix) (c : Nat) : Prop := ∃ active, m.activeColumns = .ok active ∧ c ∈ active

/-- Where the columns `cs` are covered, a move may cover an active column and may uncover the last
    of `cs`. -/
def Allows (m : Matrix) (cs : List Nat) : Move → Prop
  | .cover c => m.IsActive c
  | .uncover c => cs.getLast? = some c

/-- The moves are strictly nested, where the columns `cs` have been covered before. -/
def Nested (m : Matrix) (cs : List Nat) : List Move → Prop
  | [] => True
  | x :: xs => m.Allows cs x ∧ ∀ m', m.move x = .ok m' → m'.Nested (x.next cs) xs

instance (m : Matrix) (c : Nat) : Decidable (m.IsActive c) :=
  match h : m.activeColumns with
  | .ok active => decidable_of_iff (c ∈ active) (by simp [IsActive, h])
  | .error _ => .isFalse (by simp [IsActive, h])

instance (m : Matrix) (cs : List Nat) : (x : Move) → Decidable (m.Allows cs x)
  | .cover c => inferInstanceAs (Decidable (m.IsActive c))
  | .uncover c => inferInstanceAs (Decidable (cs.getLast? = some c))

instance instDecidableNested (m : Matrix) (cs : List Nat) :
    (xs : List Move) → Decidable (m.Nested cs xs)
  | [] => .isTrue trivial
  | x :: xs =>
    match h : m.move x with
    | .ok m' =>
      have := instDecidableNested m' (x.next cs) xs
      decidable_of_iff (m.Allows cs x ∧ m'.Nested (x.next cs) xs) (by simp [Nested, h])
    | .error _ => decidable_of_iff (m.Allows cs x) (by simp [Nested, h])

/-- The rest of a nested sequence of moves is nested, after what has been done before. -/
theorem Nested.split {m : Matrix} {cs : List Nat} {xs ys : List Move}
    (h : m.Nested cs (xs ++ ys)) : m.Nested cs xs ∧
      ∀ k, xs.foldlM move m = .ok k → k.Nested (xs.foldl Move.next cs) ys := by
  -- induction on the first moves, each of which leads to one matrix only
  induction xs generalizing m cs with
  | nil =>
    refine ⟨trivial, fun k hk => ?_⟩
    cases hk
    exact h
  | cons x xs ih =>
    obtain ⟨hallows, hrest⟩ := h
    refine ⟨⟨hallows, fun m' hm' => (ih (hrest m' hm')).1⟩, fun k hk => ?_⟩
    rw [List.foldlM_cons] at hk
    obtain ⟨m', hm', hk⟩ := bind_eq_ok.mp hk
    exact (ih (hrest m' hm')).2 k hk

/-! ## Moves one after the other -/

/-- The matrix `m` is `m₀` with the columns `cs` covered in this order. -/
structure Standing (m₀ : Matrix) (t : Table) (cs : List Nat) (m : Matrix) : Prop where
  start : m₀.Covered t []
  reached : cs.foldlM Matrix.cover m₀ = .ok m
  covered : m.Covered t cs

variable {m₀ m : Matrix} {t : Table} {cs : List Nat} {c : Nat} {x : Move} {xs : List Move}

/-- The matrix is determined by the columns covered. -/
theorem Standing.unique {m' : Matrix} (h : Standing m₀ t cs m) (h' : Standing m₀ t cs m') :
    m = m' :=
  Except.ok.inj (h.reached.symm.trans h'.reached)

/-- One more column is covered. -/
theorem Standing.push (h : Standing m₀ t cs m) (hlt : c < t.columnCount) (hc : c ∉ cs) :
    ∃ m', m.cover c = .ok m' ∧ Standing m₀ t (cs ++ [c]) m' := by
  obtain ⟨m', hcover, hcovered, -⟩ := h.covered.cover hlt hc
  refine ⟨m', hcover, h.start, ?_, hcovered⟩
  rw [List.foldlM_append, h.reached, ok_bind, List.foldlM_cons, hcover]
  rfl

/-- The column covered last is uncovered. -/
private theorem Standing.pop (h : Standing m₀ t (cs ++ [c]) m) :
    ∃ k, m.uncover c = .ok k ∧ Standing m₀ t cs k := by
  have hnodup := h.covered.nodup
  have hlt : ∀ d ∈ cs ++ [c], d < t.columnCount := h.covered.lt
  -- the matrix before the cover is reached again from `m₀`
  obtain ⟨k, hk, hcovered, -⟩ := h.start.coverAll cs
    (fun d hd => hlt d (List.mem_append_left _ hd)) (List.nodup_append.mp hnodup).1
  obtain ⟨m', hcover, -, huncover⟩ := hcovered.cover (hlt c (by simp))
    (not_mem_of_nodup_append hnodup)
  have hreached := h.reached
  rw [List.foldlM_append, hk, ok_bind, List.foldlM_cons, hcover] at hreached
  cases hreached
  exact ⟨k, huncover, h.start, hk, hcovered⟩

/-- A move that is allowed succeeds, and the matrix is determined by the columns that are covered
    then. -/
theorem Standing.move (h : Standing m₀ t cs m) (hx : m.Allows cs x) :
    ∃ m', m.move x = .ok m' ∧ Standing m₀ t (x.next cs) m' := by
  -- a cover is of an active column, an uncover of the one covered last
  cases x with
  | cover c =>
    obtain ⟨active, hactive, hc⟩ := hx
    rw [h.covered.shows.activeColumns_eq, Except.ok.injEq] at hactive
    obtain ⟨hlt, hnot⟩ := Table.mem_active.mp (hactive ▸ hc)
    exact h.push hlt hnot
  | uncover c =>
    obtain ⟨ds, rfl⟩ := List.getLast?_eq_some_iff.mp hx
    rw [Move.next, List.dropLast_concat]
    exact h.pop

/-- Strictly nested moves succeed, and the matrix is determined by the columns that are covered in
    the end. -/
theorem Standing.moves (h : Standing m₀ t cs m) (hxs : m.Nested cs xs) :
    ∃ m', xs.foldlM Matrix.move m = .ok m' ∧ Standing m₀ t (xs.foldl Move.next cs) m' := by
  -- induction on the moves: each is allowed where the ones before have led
  induction xs generalizing m cs with
  | nil => exact ⟨m, rfl, h⟩
  | cons x xs ih =>
    obtain ⟨hallows, hrest⟩ := hxs
    obtain ⟨m₁, hm₁, h₁⟩ := h.move hallows
    obtain ⟨m', hm', h'⟩ := ih h₁ (hrest m₁ hm₁)
    exact ⟨m', by rw [List.foldlM_cons, hm₁, ok_bind, hm'], h'⟩

/-! ## Undoing -/

/-- Strictly nested covers and uncovers of a matrix built by adding rows all succeed, and each
    uncover restores the matrix exactly as it was before the cover that it undoes. -/
theorem nested_restores {n : Nat} {rows : List (Nat × List Nat)}
    (hcreate : create n = .ok m₀) (hadd : rows.foldlM (fun m r => m.addRow r.1 r.2) m₀ = .ok m)
    (hnested : m.Nested [] xs) :
    (∃ m', xs.foldlM move m = .ok m') ∧
      ∀ earlier c later, xs = earlier ++ .uncover c :: later →
        ∃ before inner k, earlier = before ++ .cover c :: inner ∧ Move.Balanced inner ∧
          before.foldlM move m = .ok k ∧ (earlier ++ [Move.uncover c]).foldlM move m = .ok k := by
  obtain ⟨t, -, -, hcovered⟩ := covered_of_create hcreate hadd
  have hstart : Standing m t [] m := ⟨hcovered, rfl, hcovered⟩
  obtain ⟨m', hm', -⟩ := hstart.moves hnested
  refine ⟨⟨m', hm'⟩, ?_⟩
  rintro earlier c later rfl
  -- the column uncovered is the last of those covered at that time
  obtain ⟨hearlier, hlast⟩ := hnested.split
  obtain ⟨k₁, hk₁, -⟩ := hstart.moves hearlier
  obtain ⟨cs, hcs⟩ := List.getLast?_eq_some_iff.mp (hlast k₁ hk₁).1
  obtain ⟨before, inner, rfl, hbefore, hinner⟩ := Move.exists_cover_of_outstanding hcs
  -- before its cover and after its uncover the same columns are covered
  obtain ⟨k, hk, hstanding⟩ := hstart.moves hearlier.split.1
  rw [List.append_cons] at hnested
  obtain ⟨k', hk', hstanding'⟩ := hstart.moves hnested.split.1
  rw [List.foldl_append, hcs, List.foldl_cons, Move.next, List.dropLast_concat, ← hbefore]
    at hstanding'
  cases hstanding.unique hstanding'
  exact ⟨before, inner, k, rfl, hinner, hk, hk'⟩

/-- Three rows share columns with each other, and a column is covered and uncovered below
    another. -/
theorem nested_restores_shared_columns :
    ∃ m₀ m : Matrix, create 3 = .ok m₀ ∧
      [(7, [0, 1]), (8, [2, 0]), (7, [1, 2]), (5, [])].foldlM
        (fun (m : Matrix) r => m.addRow r.1 r.2) m₀ = .ok m ∧
      m.Nested [] [.cover 1, .cover 2, .uncover 2, .uncover 1, .cover 0] ∧
      (∃ m', [Move.cover 1, .cover 2, .uncover 2, .uncover 1, .cover 0].foldlM move m = .ok m') ∧
      ∀ earlier c later, [.cover 1, .cover 2, .uncover 2, .uncover 1, .cover 0] =
          earlier ++ .uncover c :: later →
        ∃ before inner k, earlier = before ++ .cover c :: inner ∧ Move.Balanced inner ∧
          before.foldlM move m = .ok k ∧ (earlier ++ [Move.uncover c]).foldlM move m = .ok k := by
  have hrun : ([(7, [0, 1]), (8, [2, 0]), (7, [1, 2]), (5, [])].foldlM
      (fun (m : Matrix) r => m.addRow r.1 r.2) (empty 3)).map (fun m =>
        decide (m.Nested [] [.cover 1, .cover 2, .uncover 2, .uncover 1, .cover 0])) =
      .ok true := by
    decide +kernel
  obtain ⟨m, hadd, hnested⟩ := exists_of_map_eq_ok hrun
  have hnested := of_decide_eq_true hnested
  exact ⟨_, m, rfl, hadd, hnested, nested_restores (n := 3) rfl hadd hnested⟩

/-! ## What can be seen -/

/-- The identifiers of the rows that contain the column `c` and none of `cs`, in order. -/
def rowIds (rows : List (Nat × List Nat)) (c : Nat) (cs : List Nat) : List Nat :=
  (rows.filter fun r => c ∈ r.2 ∧ ∀ d ∈ cs, d ∉ r.2).map Prod.fst

/-- The rows linked into a column are those that contain it and no column covered before. -/
private theorem map_id_linked (t : Table) (cs : List Nat) (c : Nat) :
    (t.linked cs c).map t.id = rowIds t.rows c (Table.before cs c) := by
  -- the rows themselves, each found by its position
  let row (i : Nat) : Nat × List Nat := t.rows[i]?.getD (0, [])
  have hrows : (List.range t.rows.length).map row = t.rows := by
    refine List.ext_getElem (by simp) fun i hi hi' => ?_
    rw [List.getElem_map, List.getElem_range]
    show t.rows[i]?.getD (0, []) = _
    rw [List.getElem?_eq_getElem hi', Option.getD_some]
  have hlinked : t.linked cs c = (List.range t.rows.length).filter
      ((fun r => decide (c ∈ r.2 ∧ ∀ d ∈ Table.before cs c, d ∉ r.2)) ∘ row) := by
    rw [Table.linked, Table.free, List.filter_filter]
    refine List.filter_congr fun i _ => ?_
    rw [Bool.eq_iff_iff]
    simp only [Bool.and_eq_true, decide_eq_true_eq, Function.comp_apply]
    exact and_congr_right fun _ => ⟨fun h d hd hmem => h d hmem hd, fun h d hd hmem => h d hmem hd⟩
  rw [hlinked, show t.id = Prod.fst ∘ row from rfl, ← List.map_map, ← List.filter_map, hrows]
  rfl

namespace Covered

theorem rowsInColumn_eq (h : m.Covered t cs) (hc : c < t.columnCount) :
    m.rowsInColumn c = .ok (rowIds t.rows c (Table.before cs c)) := by
  rw [h.shows.rowsInColumn_eq hc, map_id_linked]

theorem columnSize_eq (h : m.Covered t cs) (hc : c < t.columnCount) :
    m.columnSize c = .ok (rowIds t.rows c (Table.before cs c)).length := by
  rw [h.shows.columnSize_eq hc, ← map_id_linked, List.length_map]

end Covered

/-- What can be seen of the matrix `m'` when a matrix `m` of `n` columns, to which `rows` have been
    added, has gone through the moves `xs`. -/
structure SeenAfter (n : Nat) (rows : List (Nat × List Nat)) (m : Matrix) (xs : List Move)
    (m' : Matrix) : Prop where
  activeColumns : m'.activeColumns = .ok ((List.range n).filter (· ∉ Move.outstanding xs))
  /-- An active column lists the rows that meet no covered column. -/
  active : ∀ c < n, c ∉ Move.outstanding xs →
    m'.rowsInColumn c = .ok (rowIds rows c (Move.outstanding xs)) ∧
    m'.columnSize c = .ok (rowIds rows c (Move.outstanding xs)).length
  /-- A covered column lists the rows that meet no column covered before. -/
  covered : ∀ before c after, Move.outstanding xs = before ++ c :: after →
    m'.rowsInColumn c = .ok (rowIds rows c before) ∧
    m'.columnSize c = .ok (rowIds rows c before).length
  /-- A covered column lists what it has listed just before its cover, which has not been undone
      since. -/
  kept : ∀ before c after, Move.outstanding xs = before ++ c :: after →
    ∃ earlier later k, xs = earlier ++ .cover c :: later ∧ Move.UndoOwn later ∧
      Move.outstanding earlier = before ∧ earlier.foldlM move m = .ok k ∧
      m'.rowsInColumn c = k.rowsInColumn c ∧ m'.columnSize c = k.columnSize c
  shape : m'.shape = m.shape
  check : m'.check = .ok ()

/-- A matrix built by adding rows lists, after strictly nested covers and uncovers, the rows that
    meet no covered column, and its links are in order. -/
theorem nested_seenAfter {n : Nat} {rows : List (Nat × List Nat)}
    (hcreate : create n = .ok m₀) (hadd : rows.foldlM (fun m r => m.addRow r.1 r.2) m₀ = .ok m)
    (hnested : m.Nested [] xs) :
    ∃ m', xs.foldlM move m = .ok m' ∧ SeenAfter n rows m xs m' := by
  obtain ⟨t, rfl, rfl, hcovered⟩ := covered_of_create hcreate hadd
  have hstart : Standing m t [] m := ⟨hcovered, rfl, hcovered⟩
  obtain ⟨m', hm', hstanding⟩ := hstart.moves hnested
  have h : m'.Covered t (Move.outstanding xs) := hstanding.covered
  -- the rows of a covered column hang on the columns covered before
  have hbefore : ∀ before c after, Move.outstanding xs = before ++ c :: after →
      c < t.columnCount ∧ c ∉ before ∧ Table.before (Move.outstanding xs) c = before := by
    intro before c after hcs
    have hnot : c ∉ before := not_mem_of_nodup_append (hcs ▸ h.nodup)
    exact ⟨h.lt c (by rw [hcs]; simp), hnot, by rw [hcs, Table.before_append_self hnot]⟩
  exact ⟨m', hm', {
    activeColumns := h.shows.activeColumns_eq
    active := fun c hlt hc => by
      rw [h.rowsInColumn_eq hlt, h.columnSize_eq hlt, Table.before_of_not_mem hc]
      exact ⟨rfl, rfl⟩
    covered := fun before c after hcs => by
      obtain ⟨hlt, -, heq⟩ := hbefore before c after hcs
      rw [h.rowsInColumn_eq hlt, h.columnSize_eq hlt, heq]
      exact ⟨rfl, rfl⟩
    kept := fun before c after hcs => by
      obtain ⟨hlt, hnot, heq⟩ := hbefore before c after hcs
      rw [h.rowsInColumn_eq hlt, h.columnSize_eq hlt, heq]
      -- the column was active just before its cover
      obtain ⟨earlier, later, rfl, hearlier, hlater⟩ := Move.exists_cover_of_outstanding hcs
      obtain ⟨k, hk, hstandingk⟩ := hstart.moves hnested.split.1
      have hk' : k.Covered t before := hearlier ▸ hstandingk.covered
      refine ⟨earlier, later, k, rfl, by rw [Move.UndoOwn, hlater]; rfl, hearlier, hk, ?_, ?_⟩
      · rw [hk'.rowsInColumn_eq hlt, Table.before_of_not_mem hnot]
      · rw [hk'.columnSize_eq hlt, Table.before_of_not_mem hnot]
    shape := h.shows.shape_eq.trans hcovered.shows.shape_eq.symm
    check := h.shows.check_eq }⟩

/-- Two columns stay covered, and the second of them has lost a row to the first. -/
theorem nested_seenAfter_two_covered :
    ∃ m₀ m : Matrix, create 4 = .ok m₀ ∧
      [(7, [0, 1]), (8, [2, 0]), (7, [1, 2]), (6, [3, 2]), (5, [])].foldlM
        (fun (m : Matrix) r => m.addRow r.1 r.2) m₀ = .ok m ∧
      m.Nested [] [.cover 1, .cover 2, .uncover 2, .cover 0] ∧
      ∃ m', [Move.cover 1, .cover 2, .uncover 2, .cover 0].foldlM move m = .ok m' ∧
        SeenAfter 4 [(7, [0, 1]), (8, [2, 0]), (7, [1, 2]), (6, [3, 2]), (5, [])] m
          [.cover 1, .cover 2, .uncover 2, .cover 0] m' := by
  have hrun : ([(7, [0, 1]), (8, [2, 0]), (7, [1, 2]), (6, [3, 2]), (5, [])].foldlM
      (fun (m : Matrix) r => m.addRow r.1 r.2) (empty 4)).map (fun m =>
        decide (m.Nested [] [.cover 1, .cover 2, .uncover 2, .cover 0])) = .ok true := by
    decide +kernel
  obtain ⟨m, hadd, hnested⟩ := exists_of_map_eq_ok hrun
  have hnested := of_decide_eq_true hnested
  exact ⟨_, m, rfl, hadd, hnested, nested_seenAfter rfl hadd hnested⟩

end Matrix
end ExactCover
