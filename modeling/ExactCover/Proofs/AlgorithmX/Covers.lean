import ExactCover.Proofs.AlgorithmX.Basic
import Mathlib.Data.Finset.Dedup

/-!
# All exact covers

The exact covers at the leaves of the whole search tree, each a list of rows in the order chosen.
As sets of rows these are all exact covers there are, each once, whichever rule chooses the
columns.

## Key results

- `mem_covers_iff`: the leaves are the exact covers
- `covers_nodup`: no exact cover stands at two leaves
-/

namespace ExactCover.AlgorithmX.Problem

variable {α : Type} {prob : Problem α} {cols : List Nat} {rows : List α} {c : Nat} {r : α}

/-- The exact covers at the leaves below a node, from left to right. -/
def covers (prob : Problem α) (cols : List Nat) (rows : List α) : List (List α) :=
  if cols = [] then [[]]
  else
    match _hc : prob.branch cols rows with
    | none => []
    | some c =>
      (prob.containing rows c).attach.flatMap fun ⟨r, _hr⟩ =>
        (covers prob (prob.colsWithout cols r) (prob.rowsWithout rows r)).map (r :: ·)
termination_by cols.length
decreasing_by exact length_colsWithout_lt _hc _hr

/-- The exact covers below a choice. -/
def coversBelow (prob : Problem α) (cols : List Nat) (rows : List α) (r : α) : List (List α) :=
  (prob.covers (prob.colsWithout cols r) (prob.rowsWithout rows r)).map (r :: ·)

/-- Where no column remains there is one leaf. -/
theorem covers_nil (prob : Problem α) (rows : List α) : prob.covers [] rows = [[]] := by
  rw [covers, if_pos rfl]

/-- The leaves below a node are those below its choices. -/
theorem covers_of_branch (hc : prob.branch cols rows = some c) :
    prob.covers cols rows = (prob.containing rows c).flatMap (prob.coversBelow cols rows) := by
  have hne : cols ≠ [] := List.ne_nil_of_mem (Selection.mem_of_choose_eq_some hc)
  rw [covers, if_neg hne]
  -- the match on the column chosen, which is `c`
  split
  next h => exact nomatch h.symm.trans hc
  next c' h =>
    obtain rfl : c' = c := Option.some.inj (h.symm.trans hc)
    rw [List.flatMap_subtype (g := prob.coversBelow cols rows) fun _ _ => rfl,
      List.unattach_attach]

/-- The rows to try are the remaining ones with the column chosen. -/
theorem mem_containing : r ∈ prob.containing rows c ↔ r ∈ rows ∧ c ∈ prob.columns r := by
  rw [containing, List.mem_filter, decide_eq_true_eq]

private theorem mem_colsWithout : c ∈ prob.colsWithout cols r ↔ c ∈ cols ∧ c ∉ prob.columns r := by
  rw [colsWithout, List.mem_filter, decide_eq_true_eq]

theorem mem_rowsWithout {r' : α} :
    r' ∈ prob.rowsWithout rows r ↔ r' ∈ rows ∧ Disjoint (prob.columns r) (prob.columns r') := by
  rw [rowsWithout, List.mem_filter, decide_eq_true_eq]

/-! ## Exact covers as sets of rows -/

/-- Every column lies in exactly one row of `s`, and no row of `s` is empty. -/
structure IsExactCover (prob : Problem α) (cols : List Nat) (rows : List α) (s : Finset α) :
    Prop where
  mem : ∀ r ∈ s, r ∈ rows
  nonempty : ∀ r ∈ s, (prob.columns r).Nonempty
  existsUnique : ∀ c ∈ cols, ∃! r, r ∈ s ∧ c ∈ prob.columns r

/-- No row meets a column that does not remain. -/
def Within (prob : Problem α) (cols : List Nat) (rows : List α) : Prop :=
  ∀ r ∈ rows, ∀ c ∈ prob.columns r, c ∈ cols

/-- What a choice leaves meets no column that it takes away. -/
theorem Within.without (h : prob.Within cols rows) (r : α) :
    prob.Within (prob.colsWithout cols r) (prob.rowsWithout rows r) := by
  intro r' hr' c hc
  rw [mem_rowsWithout] at hr'
  rw [mem_colsWithout]
  exact ⟨h r' hr'.1 c hc, fun hcr => Finset.disjoint_left.mp hr'.2 hcr hc⟩

variable {s : Finset α}

/-- Without columns only the empty set of rows is an exact cover. -/
private theorem isExactCover_nil (h : prob.Within [] rows) :
    prob.IsExactCover [] rows s ↔ s = ∅ := by
  constructor
  -- a row of the cover would have a column, and none remains
  · intro hs
    refine Finset.eq_empty_of_forall_notMem fun r hr => ?_
    obtain ⟨c, hc⟩ := hs.nonempty r hr
    exact List.not_mem_nil (h r (hs.mem r hr) c hc)
  · rintro rfl
    exact ⟨by simp, by simp, by simp⟩

/-- A row that has been chosen is not chosen again. -/
theorem IsExactCover.not_mem (hr : r ∈ prob.containing rows c)
    (hs : prob.IsExactCover (prob.colsWithout cols r) (prob.rowsWithout rows r) s) : r ∉ s := by
  intro hrs
  have hcr := (mem_containing.mp hr).2
  exact Finset.disjoint_left.mp (mem_rowsWithout.mp (hs.mem r hrs)).2 hcr hcr

variable [DecidableEq α]

/-- A row and an exact cover of the columns that it leaves make an exact cover. -/
theorem IsExactCover.insert (hr : r ∈ prob.containing rows c)
    (hs : prob.IsExactCover (prob.colsWithout cols r) (prob.rowsWithout rows r) s) :
    prob.IsExactCover cols rows (insert r s) := by
  rw [mem_containing] at hr
  -- what has been kept beside `r` meets none of its columns
  have hdisj : ∀ r' ∈ s, Disjoint (prob.columns r) (prob.columns r') :=
    fun r' hr' => (mem_rowsWithout.mp (hs.mem r' hr')).2
  -- in turn: the rows are there, none is empty, every column is covered once
  refine ⟨fun r' hr' => ?_, fun r' hr' => ?_, fun d hd => ?_⟩
  -- the new row contains the column chosen
  · rcases Finset.mem_insert.mp hr' with rfl | hr'
    · exact hr.1
    · exact (mem_rowsWithout.mp (hs.mem r' hr')).1
  · rcases Finset.mem_insert.mp hr' with rfl | hr'
    · exact ⟨c, hr.2⟩
    · exact hs.nonempty r' hr'
  · -- `r` alone covers its own columns, and `s` covers the others
    by_cases hdr : d ∈ prob.columns r
    · refine ⟨r, ⟨Finset.mem_insert_self r s, hdr⟩, ?_⟩
      rintro r' ⟨hr', hdr'⟩
      rcases Finset.mem_insert.mp hr' with rfl | hr'
      · rfl
      · exact absurd hdr' (Finset.disjoint_left.mp (hdisj r' hr') hdr)
    · obtain ⟨r', ⟨hr', hdr'⟩, huniq⟩ := hs.existsUnique d (mem_colsWithout.mpr ⟨hd, hdr⟩)
      refine ⟨r', ⟨Finset.mem_insert_of_mem hr', hdr'⟩, ?_⟩
      rintro r'' ⟨hr'', hdr''⟩
      rcases Finset.mem_insert.mp hr'' with rfl | hr''
      · exact absurd hdr'' hdr
      · exact huniq r'' ⟨hr'', hdr''⟩

/-- Without one of its rows an exact cover covers the columns that the row leaves. -/
theorem IsExactCover.erase (hin : prob.Within cols rows) (hs : prob.IsExactCover cols rows s)
    (hr : r ∈ s) :
    prob.IsExactCover (prob.colsWithout cols r) (prob.rowsWithout rows r) (s.erase r) := by
  refine ⟨fun r' hr' => ?_, fun r' hr' => hs.nonempty r' (Finset.mem_of_mem_erase hr'),
    fun d hd => ?_⟩
  -- the rows that remain
  · obtain ⟨hne, hr'⟩ := Finset.mem_erase.mp hr'
    -- a column in both rows would be covered twice
    refine mem_rowsWithout.mpr ⟨hs.mem r' hr', Finset.disjoint_left.mpr fun d hd hd' => hne ?_⟩
    exact (hs.existsUnique d (hin r (hs.mem r hr) d hd)).unique ⟨hr', hd'⟩ ⟨hr, hd⟩
  -- a column that `r` leaves is covered by the same row as before
  · obtain ⟨hd, hdr⟩ := mem_colsWithout.mp hd
    obtain ⟨r', ⟨hr', hdr'⟩, huniq⟩ := hs.existsUnique d hd
    have hne : r' ≠ r := fun heq => hdr (heq ▸ hdr')
    exact ⟨r', ⟨Finset.mem_erase.mpr ⟨hne, hr'⟩, hdr'⟩,
      fun r'' h => huniq r'' ⟨Finset.mem_of_mem_erase h.1, h.2⟩⟩

/-- The sets of rows at the leaves below a choice are the exact covers with this row. -/
private theorem mem_coversBelow_iff (hr : r ∈ prob.containing rows c)
    (ih : ∀ s, s ∈ (prob.covers (prob.colsWithout cols r) (prob.rowsWithout rows r)).map
      List.toFinset ↔ prob.IsExactCover (prob.colsWithout cols r) (prob.rowsWithout rows r) s)
    (hin : prob.Within cols rows) :
    s ∈ (prob.coversBelow cols rows r).map List.toFinset ↔
      r ∈ s ∧ prob.IsExactCover cols rows s := by
  rw [coversBelow, List.map_map]
  constructor
  -- from a leaf to an exact cover: put `r` back
  · intro hs
    obtain ⟨l, hl, rfl⟩ := List.mem_map.mp hs
    have hcover := (ih l.toFinset).mp (List.mem_map_of_mem hl)
    rw [Function.comp_apply, List.toFinset_cons]
    exact ⟨Finset.mem_insert_self .., hcover.insert hr⟩
  -- from an exact cover to a leaf: take `r` out
  · rintro ⟨hrs, hs⟩
    obtain ⟨l, hl, hls⟩ := List.mem_map.mp ((ih _).mpr (hs.erase hin hrs))
    refine List.mem_map.mpr ⟨l, hl, ?_⟩
    rw [Function.comp_apply, List.toFinset_cons, hls, Finset.insert_erase hrs]

/-- The sets of rows at the leaves below a node are its exact covers. -/
theorem mem_covers_iff (hin : prob.Within cols rows) :
    s ∈ (prob.covers cols rows).map List.toFinset ↔ prob.IsExactCover cols rows s := by
  induction cols, rows using prob.tree_induction generalizing s with
  | leaf rows =>
    rw [covers_nil, isExactCover_nil hin]
    simp
  | branch cols rows c hc ih =>
    have hmem := Selection.mem_of_choose_eq_some hc
    rw [covers_of_branch hc, List.map_flatMap, List.mem_flatMap]
    constructor
    -- a leaf below a choice
    · rintro ⟨r, hr, hs⟩
      exact ((mem_coversBelow_iff hr (fun s => ih r hr (hin.without r)) hin).mp hs).2
    -- an exact cover has a row for the column chosen, and its leaf stands below this row
    · intro hs
      -- the row that covers the column chosen
      obtain ⟨r, ⟨hrs, hcr⟩, -⟩ := hs.existsUnique c hmem
      have hr := mem_containing.mpr ⟨hs.mem r hrs, hcr⟩
      exact ⟨r, hr, (mem_coversBelow_iff hr (fun s => ih r hr (hin.without r)) hin).mpr ⟨hrs, hs⟩⟩

/-- No leaf names a row twice. -/
theorem nodup_of_mem_covers {l : List α} (hin : prob.Within cols rows)
    (hl : l ∈ prob.covers cols rows) : l.Nodup := by
  -- induction on the tree: the row chosen is not among those chosen below it
  induction cols, rows using prob.tree_induction generalizing l with
  | leaf rows =>
    rw [covers_nil, List.mem_singleton] at hl
    rw [hl]
    exact List.nodup_nil
  | branch cols rows c hc ih =>
    rw [covers_of_branch hc, List.mem_flatMap] at hl
    obtain ⟨r, hr, hl⟩ := hl
    obtain ⟨l', hl', rfl⟩ := List.mem_map.mp hl
    have hcover := (mem_covers_iff (hin.without r)).mp (List.mem_map_of_mem hl')
    refine List.nodup_cons.mpr ⟨fun hrl => ?_, ih r hr (hin.without r) hl'⟩
    exact hcover.not_mem hr (List.mem_toFinset.mpr hrl)

/-- No set of rows stands at two leaves. -/
theorem covers_nodup (hin : prob.Within cols rows) (hrows : rows.Nodup) :
    ((prob.covers cols rows).map List.toFinset).Nodup := by
  -- induction on the tree: nothing twice below one choice, and nothing below two choices
  induction cols, rows using prob.tree_induction with
  | leaf rows =>
    rw [covers_nil]
    exact List.nodup_singleton _
  | branch cols rows c hc ih =>
    have hmem := Selection.mem_of_choose_eq_some hc
    -- the sets below a choice are those with its row
    have hbelow : ∀ r ∈ prob.containing rows c, ∀ s,
        s ∈ (prob.coversBelow cols rows r).map List.toFinset ↔
          r ∈ s ∧ prob.IsExactCover cols rows s :=
      fun r hr s => mem_coversBelow_iff hr (fun s => mem_covers_iff (hin.without r)) hin
    rw [covers_of_branch hc, List.map_flatMap, List.nodup_flatMap]
    refine ⟨fun r hr => ?_, (hrows.filter _).imp_of_mem ?_⟩
    · -- the sets below a choice get one more row, which none of them had
      have hmap : (prob.coversBelow cols rows r).map List.toFinset =
          ((prob.covers (prob.colsWithout cols r) (prob.rowsWithout rows r)).map
            List.toFinset).map (insert r) := by
        rw [coversBelow, List.map_map, List.map_map]
        exact List.map_congr_left fun l _ => List.toFinset_cons
      rw [hmap]
      refine (ih r hr (hin.without r) (hrows.filter _)).map_on fun s hs s' hs' heq => ?_
      have hrs := ((mem_covers_iff (hin.without r)).mp hs).not_mem hr
      have hrs' := ((mem_covers_iff (hin.without r)).mp hs').not_mem hr
      rw [← Finset.erase_insert hrs, heq, Finset.erase_insert hrs']
    · -- both rows would cover the column chosen
      intro r r' hr hr' hne s hs hs'
      rw [hbelow r hr] at hs
      rw [hbelow r' hr'] at hs'
      exact hne ((hs.2.existsUnique c hmem).unique ⟨hs.1, (mem_containing.mp hr).2⟩
        ⟨hs'.1, (mem_containing.mp hr').2⟩)

end ExactCover.AlgorithmX.Problem
