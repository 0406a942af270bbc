import ExactCover.Proofs.Matrix.Shows
import Mathlib.Data.List.TakeWhile

/-!
# Covering columns

A matrix in which the columns `cs` have been covered one after the other shows a table in a way
that hangs on `cs` alone: the other columns are active, and a row is linked into a column if it
meets none of the columns that were covered before that one. Covering one more column leads from
`cs` to `cs ++ [c]`, and uncovering it restores the matrix exactly.

## Key results

- `Covered.cover`: covering an active column, and uncovering it again
- `Covered.coverAll`: covering several columns, and uncovering them in the opposite order
-/

namespace ExactCover

namespace Matrix.Shows

variable {m : Matrix} {t : Table} {active : List Nat} {linked : Nat → List Nat} {i c : Nat}

/-- A row leaves all columns but `c`, and the walk to the left restores the matrix exactly. -/
private theorem detachRow (h : m.Shows t active linked) (hc : c ∈ t.columns i)
    (hlinked : ∀ d ∈ t.others i c, i ∈ linked d) :
    ∃ m', m.around (·.right) (t.entry i c) Matrix.detach = .ok m' ∧
      m'.Shows t active (fun d => if d ∈ t.others i c then (linked d).erase i else linked d) ∧
      m'.around (·.left) (t.entry i c) Matrix.reattach = .ok m := by
  -- the row has left the columns of `done`
  refine around_and_back (d := .right) (f := t.entry i)
    (P := fun done m => m.Shows t active fun d => if d ∈ done then (linked d).erase i else linked d)
    (fun done rest m _ hP => hP.row hc) (fun done x rest m hl hP => ?_) (by simpa using h)
  -- the next column to leave is one the row has not left yet
  have hx : x ∈ t.others i c := by rw [hl]; simp
  have hnot : x ∉ done := by
    have hnodup := Table.others_nodup hc
    rw [hl] at hnodup
    exact not_mem_of_nodup_append hnodup
  have hxi : i ∈ (if x ∈ done then (linked x).erase i else linked x) := by
    rw [if_neg hnot]
    exact hlinked x hx
  have hlt := Table.column_lt ((Table.mem_others hc).mp hx).1
  obtain ⟨m', hdetach, hshows, hreattach⟩ := hP.detach hlt hxi
  -- the rows of that column are the only ones to change
  refine ⟨m', hdetach, ?_, hreattach⟩
  convert hshows using 1
  funext d
  by_cases hd : d = x
  · subst hd
    simp [hnot]
  · simp [hd]

/-- When the rows of `done` have left a column, row `i` follows them if it stands in it. -/
private theorem erase_if_other (h : m.Shows t active linked) {d : Nat} {done : List Nat}
    (hc : c ∈ t.columns i) :
    (if d ∈ t.others i c then
        (if d = c then linked c else (linked d).filter (· ∉ done)).erase i
      else if d = c then linked c else (linked d).filter (· ∉ done)) =
      if d = c then linked c else (linked d).filter (· ∉ done ++ [i]) := by
  -- in `c` nothing changes, as it is none of the others
  by_cases hd : d = c
  · have hnot : d ∉ t.others i c := fun hmem => ((Table.mem_others hc).mp hmem).2 hd
    simp only [if_neg hnot, if_pos hd]
  -- a column of the row loses it as well
  · by_cases hmem : d ∈ t.others i c
    · have hlt := Table.column_lt ((Table.mem_others hc).mp hmem).1
      simp only [if_pos hmem, if_neg hd]
      rw [((h.linked_nodup hlt).filter _).erase_eq_filter, List.filter_filter]
      refine List.filter_congr fun j _ => ?_
      by_cases hj : j = i <;> simp [hj]
    -- a column without the row has nothing to lose
    · have hnot : i ∉ linked d := fun hi =>
        hmem ((Table.mem_others hc).mpr ⟨h.member d i hi, hd⟩)
      simp only [if_neg hmem, if_neg hd]
      refine List.filter_congr fun j hj => ?_
      have hne : j ≠ i := fun heq => hnot (heq ▸ hj)
      simp [hne]

/-- The rows of a column leave all their other columns, and the walk upwards restores the matrix
    exactly. -/
private theorem detachRows (h : m.Shows t active linked) (hlt : c < t.columnCount)
    (hlinked : ∀ i ∈ linked c, ∀ d ∈ t.columns i, i ∈ linked d) :
    ∃ m', m.around (·.down) (header c) (fun m row => m.around (·.right) row Matrix.detach) =
        .ok m' ∧
      m'.Shows t active
        (fun d => if d = c then linked c else (linked d).filter (· ∉ linked c)) ∧
      m'.around (·.up) (header c) (fun m row => m.around (·.left) row Matrix.reattach) = .ok m := by
  -- the rows of `done` have left all columns but `c`
  refine around_and_back (d := .down) (f := (t.entry · c))
    (P := fun done m => m.Shows t active fun d =>
      if d = c then linked c else (linked d).filter (· ∉ done))
    (fun done rest m _ hP => by simpa using hP.column c hlt) (fun done i rest m hl hP => ?_) ?_
  -- the next row stands in `c`, and in all its other columns still
  · have hi : i ∈ linked c := by rw [hl]; simp
    have hic := h.member c i hi
    have hnot : i ∉ done := by
      have hnodup := h.linked_nodup hlt
      rw [hl] at hnodup
      exact not_mem_of_nodup_append hnodup
    obtain ⟨m', hdetach, hshows, hreattach⟩ := hP.detachRow hic fun d hd => by
      obtain ⟨hdi, hdc⟩ := (Table.mem_others hic).mp hd
      rw [if_neg hdc, List.mem_filter]
      exact ⟨hlinked i hi d hdi, by simpa using hnot⟩
    refine ⟨m', hdetach, ?_, hreattach⟩
    convert hshows using 2 with d
    exact (erase_if_other h hic).symm
  -- at the beginning no row has left
  · convert h using 2 with d
    by_cases hd : d = c
    · rw [if_pos hd, hd]
    · simp [hd]

/-- An active column leaves the matrix with the rows linked into it, if these are linked into all
    their columns, and `uncover` restores the matrix exactly. -/
theorem cover (h : m.Shows t active linked) (hc : c ∈ active)
    (hlinked : ∀ i ∈ linked c, ∀ d ∈ t.columns i, i ∈ linked d) :
    ∃ m', m.cover c = .ok m' ∧
      m'.Shows t (active.erase c)
        (fun d => if d = c then linked c else (linked d).filter (· ∉ linked c)) ∧
      m'.uncover c = .ok m := by
  have hlt := h.active_lt c hc
  have hheader := Table.headerOf_eq hlt
  -- first the header leaves its ring, then the rows leave their columns
  obtain ⟨m₁, hdeactivate, h₁, hactivate⟩ := h.deactivate hc
  obtain ⟨m', haround, h', hback⟩ := h₁.detachRows hlt hlinked
  refine ⟨m', ?_, h', ?_⟩
  · simp only [Matrix.cover, hheader, ok_bind, hdeactivate]
    -- the way back is the same in the opposite order
    exact haround
  · simp only [Matrix.uncover, hheader, ok_bind]
    exact (congrArg (· >>= (Matrix.activate · (header c))) hback).trans hactivate

end Matrix.Shows

/-! ## Columns that have been covered -/

namespace Table

variable {t : Table} {cs : List Nat} {c d i : Nat}

/-- The active columns when `cs` are covered. -/
def active (t : Table) (cs : List Nat) : List Nat := (List.range t.columnCount).filter (· ∉ cs)

/-- The columns that were covered before `c`; all of them if `c` is active. -/
def before (cs : List Nat) (c : Nat) : List Nat := cs.takeWhile (· ≠ c)

/-- The rows that meet none of the columns `cs`. -/
def free (t : Table) (cs : List Nat) : List Nat :=
  (List.range t.rows.length).filter fun i => ∀ d ∈ t.columns i, d ∉ cs

/-- The rows linked into column `c` when `cs` were covered in this order. -/
def linked (t : Table) (cs : List Nat) (c : Nat) : List Nat :=
  (t.free (before cs c)).filter (c ∈ t.columns ·)

/-- A column is active until it is covered. -/
theorem mem_active : c ∈ t.active cs ↔ c < t.columnCount ∧ c ∉ cs := by
  simp [active]

/-- A row is free as long as none of its columns is covered. -/
theorem mem_free : i ∈ t.free cs ↔ i < t.rows.length ∧ ∀ d ∈ t.columns i, d ∉ cs := by
  simp [free]

/-- A row is linked into a column if none of its columns was covered before that one. -/
theorem mem_linked : i ∈ t.linked cs c ↔ c ∈ t.columns i ∧ ∀ d ∈ t.columns i, d ∉ before cs c := by
  rw [linked, List.mem_filter, mem_free, decide_eq_true_eq]
  exact ⟨fun h => ⟨h.2, h.1.2⟩, fun h => ⟨⟨lt_of_mem_columns h.1, h.2⟩, h.1⟩⟩

/-- Before an active column all covered columns have been covered. -/
theorem before_of_not_mem (h : c ∉ cs) : before cs c = cs := by
  rw [before, List.takeWhile_eq_self_iff]
  intro d hd
  have hne : d ≠ c := fun heq => h (heq ▸ hd)
  simpa using hne

/-- What is covered after a column is not covered before it. -/
theorem before_append_self (h : c ∉ cs) (ds : List Nat) : before (cs ++ c :: ds) c = cs := by
  rw [before, List.takeWhile_append_of_pos, List.takeWhile_cons_of_neg (by simp), List.append_nil]
  intro d hd
  have hne : d ≠ c := fun heq => h (heq ▸ hd)
  simpa using hne

/-- What comes before a covered column stays when further columns are covered. -/
private theorem before_append_of_mem (h : d ∈ cs) (ds : List Nat) :
    before (cs ++ ds) d = before cs d := by
  induction cs with
  | nil => exact absurd h List.not_mem_nil
  | cons e cs ih =>
    by_cases he : e = d
    · simp [before, he]
    · have hmem : d ∈ cs := by
        rcases List.mem_cons.mp h with rfl | hmem
        · exact absurd rfl he
        · exact hmem
      simpa [before, he] using ih hmem

/-- Covering one more column takes it from the active ones. -/
private theorem active_append (t : Table) (cs : List Nat) (c : Nat) :
    t.active (cs ++ [c]) = (t.active cs).erase c := by
  have hnodup : (t.active cs).Nodup := List.nodup_range.filter _
  rw [hnodup.erase_eq_filter, active, active, List.filter_filter]
  refine List.filter_congr fun d _ => ?_
  by_cases hd : d = c <;> simp [hd]

/-- The rows linked into a column stay when it is covered. -/
theorem linked_append_self (hc : c ∉ cs) : t.linked (cs ++ [c]) c = t.linked cs c := by
  rw [linked, linked, before_append_self hc, before_of_not_mem hc]

/-- Covering one more column takes its rows from the other columns. -/
private theorem linked_append (hc : c ∉ cs) :
    t.linked (cs ++ [c]) =
      fun d => if d = c then t.linked cs c else (t.linked cs d).filter (· ∉ t.linked cs c) := by
  funext d
  by_cases hdc : d = c
  · rw [if_pos hdc, hdc, linked_append_self hc]
  · rw [if_neg hdc]
    by_cases hd : d ∈ cs
    · -- a row of a covered column is not linked into `c` any more
      rw [linked, before_append_of_mem hd, ← linked]
      refine (List.filter_eq_self.mpr fun i hi => ?_).symm
      rw [mem_linked] at hi
      have hnot : i ∉ t.linked cs c := by
        rw [mem_linked, before_of_not_mem hc]
        exact fun hmem => hmem.2 d hi.1 hd
      simpa using hnot
    · -- an active column keeps the rows that do not meet `c`
      have hd' : d ∉ cs ++ [c] := by simp [hd, hdc]
      simp only [linked, free, before_of_not_mem hd, before_of_not_mem hd', List.filter_filter]
      refine List.filter_congr fun i hi => ?_
      rw [List.mem_range] at hi
      rw [before_of_not_mem hc, Bool.eq_iff_iff]
      simp only [List.mem_append, List.mem_filter, List.mem_range, Bool.and_eq_true,
        decide_eq_true_eq, hi]
      grind

/-- At the beginning all rows are free. -/
theorem free_nil (t : Table) : t.free [] = List.range t.rows.length := by
  simp [free]

/-- At the beginning all columns are active. -/
theorem active_nil (t : Table) : t.active [] = List.range t.columnCount := by
  simp [active]

/-- At the beginning a column links all its rows. -/
theorem linked_nil (t : Table) (c : Nat) :
    t.linked [] c = (List.range t.rows.length).filter (c ∈ t.columns ·) := by
  rw [linked, before_of_not_mem List.not_mem_nil, free_nil]

/-- A new row comes last in each of its columns. -/
theorem linked_snoc {r : Nat × List Nat} (hlt : ∀ c ∈ r.2, c < t.columnCount)
    (hnodup : r.2.Nodup) : (t.snoc r hlt hnodup).linked [] =
      fun c => if c ∈ r.2 then t.linked [] c ++ [t.rows.length] else t.linked [] c := by
  funext c
  have hlen : (t.snoc r hlt hnodup).rows.length = t.rows.length + 1 := by simp [snoc]
  -- the old rows have the columns they had
  have hold : (List.range t.rows.length).filter (c ∈ (t.snoc r hlt hnodup).columns ·) =
      t.linked [] c := by
    rw [linked_nil]
    refine List.filter_congr fun i hi => ?_
    rw [snoc_columns (List.mem_range.mp hi)]
  rw [linked_nil, hlen, List.range_succ, List.filter_append, hold, List.filter_singleton,
    snoc_columns_self]
  by_cases hc : c ∈ r.2 <;> simp [hc]

end Table

namespace Matrix

/-- The columns `cs` of the table have been covered in this order, and nothing else. -/
structure Covered (m : Matrix) (t : Table) (cs : List Nat) : Prop where
  shows : m.Shows t (t.active cs) (t.linked cs)
  nodup : cs.Nodup
  lt : ∀ c ∈ cs, c < t.columnCount

namespace Covered

variable {m : Matrix} {t : Table} {cs ds : List Nat} {c : Nat}

/-- An active column can be covered, and `uncover` restores the matrix exactly. -/
theorem cover (h : m.Covered t cs) (hlt : c < t.columnCount) (hc : c ∉ cs) :
    ∃ m', m.cover c = .ok m' ∧ m'.Covered t (cs ++ [c]) ∧ m'.uncover c = .ok m := by
  -- no column of a row linked into an active column has been covered
  have hlinked : ∀ i ∈ t.linked cs c, ∀ d ∈ t.columns i, i ∈ t.linked cs d := by
    intro i hi d hd
    rw [Table.mem_linked, Table.before_of_not_mem hc] at hi
    rw [Table.mem_linked, Table.before_of_not_mem (hi.2 d hd)]
    exact ⟨hd, hi.2⟩
  -- the lists are those that belong to one more covered column
  obtain ⟨m', hcover, hshows, huncover⟩ :=
    h.shows.cover (Table.mem_active.mpr ⟨hlt, hc⟩) hlinked
  rw [← Table.linked_append hc, ← Table.active_append] at hshows
  refine ⟨m', hcover, ⟨hshows, ?_, ?_⟩, huncover⟩
  · rw [List.nodup_append]
    exact ⟨h.nodup, List.nodup_singleton c, by grind⟩
  · intro d hd
    rw [List.mem_append, List.mem_singleton] at hd
    rcases hd with hd | rfl
    · exact h.lt d hd
    · exact hlt

/-- Active columns can be covered one after the other, and uncovering them in the opposite order
    restores the matrix exactly. -/
theorem coverAll (h : m.Covered t cs) (ds : List Nat) (hlt : ∀ d ∈ ds, d < t.columnCount)
    (hnodup : (cs ++ ds).Nodup) :
    ∃ m', ds.foldlM Matrix.cover m = .ok m' ∧ m'.Covered t (cs ++ ds) ∧
      ds.reverse.foldlM Matrix.uncover m' = .ok m := by
  -- induction on the columns to cover, each of which is active when its turn comes
  induction ds generalizing m cs with
  | nil =>
    rw [List.append_nil]
    exact ⟨m, rfl, h, rfl⟩
  | cons d ds ih =>
    have hd : d ∉ cs := not_mem_of_nodup_append hnodup
    obtain ⟨m₁, hcover, h₁, huncover⟩ := h.cover (hlt d (List.mem_cons_self ..)) hd
    have hassoc : cs ++ d :: ds = (cs ++ [d]) ++ ds := by rw [List.append_assoc]; rfl
    rw [hassoc] at hnodup ⊢
    obtain ⟨m', hall, h', hback⟩ :=
      ih h₁ (fun e he => hlt e (List.mem_cons_of_mem d he)) hnodup
    refine ⟨m', ?_, h', ?_⟩
    · rw [List.foldlM_cons, hcover, ok_bind, hall]
    · -- the first column covered is the last one uncovered
      rw [List.reverse_cons, List.foldlM_append, hback, ok_bind]
      exact (bind_pure _).trans huncover

end Covered
end Matrix
end ExactCover
