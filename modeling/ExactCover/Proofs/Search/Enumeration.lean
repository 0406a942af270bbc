import ExactCover.Proofs.AlgorithmX.Outcome
import ExactCover.Proofs.Search.Refinement
import Mathlib.Data.Set.Card

/-!
# The search enumerates the exact covers

A run of a new search gives the first exact covers there are, as many as it was asked for, and if
these are more than there are, then it gives all exact covers, each once. Since several rows may
bear the same identifier, an exact cover is a set of positions in the list of rows.

## Key results

- `solveUpTo_eq_take`: a run gives the first exact covers, or a limit was met
- `solveUpTo_enumerates`: a run that is asked for more exact covers than there are gives them all
-/

namespace ExactCover

/-- The rows at the positions `s` cover what remains when the columns `covered` have been taken
    away: they meet none of these, and each other column lies in exactly one of them. -/
structure CoversRest (n : Nat) (rows : List (Nat × List Nat)) (covered : List Nat)
    (s : Finset Nat) : Prop where
  lt : ∀ i ∈ s, i < rows.length
  nonempty : ∀ i ∈ s, columnsAt rows i ≠ []
  untouched : ∀ i ∈ s, ∀ c ∈ columnsAt rows i, c ∉ covered
  existsUnique : ∀ c < n, c ∉ covered → ∃! i, i ∈ s ∧ c ∈ columnsAt rows i

/-- Each of the columns is active when it is about to be covered. -/
def Matrix.NamesActive (m : Matrix) : List Nat → Prop
  | [] => True
  | c :: cs => (∃ active, m.activeColumns = .ok active ∧ c ∈ active) ∧
      ∀ m', m.cover c = .ok m' → m'.NamesActive cs

namespace Table

variable {t : Table} {cs : List Nat} {selection : Selection} {maxNodes : Option Nat}
  {wanted : Nat} {s : Finset Nat}

/-- What Algorithm X is asked for the rows of a table, each known by its position. -/
def problem (t : Table) (selection : Selection) (maxNodes : Option Nat) (wanted : Nat) :
    AlgorithmX.Problem Nat where
  columns i := (t.columns i).toFinset
  selection
  maxNodes
  wanted

/-- Algorithm X is asked for the rows of the table, each known by its position. -/
theorem poses_problem : t.Poses (fun i => i) t.id (t.problem selection maxNodes wanted) :=
  ⟨fun _ => rfl, fun _ => rfl⟩

/-- A row that meets no covered column has only active ones. -/
theorem within_problem :
    (t.problem selection maxNodes wanted).Within (t.active cs) (t.free cs) := by
  intro i hi c hc
  have hmem := List.mem_toFinset.mp hc
  exact mem_active.mpr ⟨column_lt hmem, (mem_free.mp hi).2 c hmem⟩

/-- The exact covers of Algorithm X are the sets of rows that cover what remains. -/
theorem isExactCover_problem :
    (t.problem selection maxNodes wanted).IsExactCover (t.active cs) (t.free cs) s ↔
      CoversRest t.columnCount t.rows cs s := by
  -- the columns of a row are a set there and a list here
  have hiff : ∀ i c, c ∈ (t.problem selection maxNodes wanted).columns i ↔
      c ∈ columnsAt t.rows i := fun _ _ => List.mem_toFinset
  have huniq : ∀ c, (∃! i, i ∈ s ∧ c ∈ (t.problem selection maxNodes wanted).columns i) ↔
      ∃! i, i ∈ s ∧ c ∈ columnsAt t.rows i := by
    intro c
    simp only [hiff]
  constructor
  · intro h
    refine ⟨fun i hi => (mem_free.mp (h.mem i hi)).1, fun i hi => ?_,
      fun i hi => (mem_free.mp (h.mem i hi)).2,
      fun c hc hnot => (huniq c).mp (h.existsUnique c (mem_active.mpr ⟨hc, hnot⟩))⟩
    obtain ⟨c, hc⟩ := h.nonempty i hi
    exact List.ne_nil_of_mem ((hiff i c).mp hc)
  · intro h
    refine ⟨fun i hi => mem_free.mpr ⟨h.lt i hi, h.untouched i hi⟩, fun i hi => ?_,
      fun c hc => ?_⟩
    · obtain ⟨c, hc⟩ := List.exists_mem_of_ne_nil _ (h.nonempty i hi)
      exact ⟨c, (hiff i c).mpr hc⟩
    · obtain ⟨hlt, hnot⟩ := mem_active.mp hc
      exact (huniq c).mpr (h.existsUnique c hlt hnot)

end Table

namespace Search

open AlgorithmX (Problem Progress)

variable {α : Type} {t : Table} {m : Matrix} {cs : List Nat} {max : Nat}

/-- A run has failed because a counter could not count further. -/
def Overflowed (x : Except Halt α × Search) : Prop :=
  x.1 = .error (.fault .overflow) ∧ x.2.stats.Full

/-- A run of a new search gives the first exact covers, unless the limit of nodes or a full counter
    ends it. -/
theorem solveUpTo_eq_take (selection : Selection) (maxNodes : Option Nat) (h : m.Covered t cs)
    (hmax : 1 ≤ max) :
    let x := run { matrix := m, selection, maxNodes } (solveUpTo max)
    (x.1 = .ok (((t.problem selection maxNodes max).covers (t.active cs) (t.free cs)).take max
      |>.map (·.map t.id))) ∨
    (∃ limit, maxNodes = some limit ∧ x.1 = .error (.nodeLimit limit)) ∨ Overflowed x := by
  let start : Search := { matrix := m, selection, maxNodes }
  have hreached : Reached t (fun i => i) t.id (t.problem selection maxNodes max)
      { start with wanted := max } {} cs [] :=
    ⟨Table.poses_problem, ⟨rfl, rfl⟩, h, .nil, rfl, rfl, rfl⟩
  -- the run and Algorithm X end in the same way, and of Algorithm X it is known how it ends
  have hagree := solveUpTo_agree hreached rfl hmax
  have hends := Problem.explore_ends (t.problem selection maxNodes max) (t.active cs) (t.free cs)
    [] 0 (p := {}) hmax
  rw [List.map_id'] at hagree
  simp only [List.nil_append, List.map_id'] at hends
  simp only [run, EStateM.run, Overflowed]
  generalize solveUpTo max _ = x at hagree ⊢
  generalize Problem.explore _ _ _ _ _ _ = y at hagree hends
  cases x with
  | error e s =>
    cases y with
    | ok o p => exact False.elim hagree
    | error e' p =>
      obtain ⟨rfl, hp⟩ := hagree
      rcases hends with ⟨limit, hlimit, rfl⟩ | ⟨rfl, hfull⟩
      · exact .inr (.inl ⟨limit, hlimit, rfl⟩)
      · exact .inr (.inr ⟨rfl, hp.stats ▸ hfull⟩)
  | ok found s =>
    cases y with
    | error e p => exact False.elim hagree
    | ok o p =>
      refine .inl (congrArg Except.ok ?_)
      rw [hagree.1]
      cases o with
      | exhausted =>
        -- all have been found, and these are fewer than asked for
        have hle : p.found.length ≤ max := hends.2.le
        rw [← hends.1.trans (List.nil_append _), List.take_of_length_le hle]
      | stopped =>
        rw [hends.1]
        rfl

/-- Covers that each name an active column succeed one after the other. -/
theorem covered_of_namesActive {ds : List Nat} (h : m.Covered t cs) (hds : m.NamesActive ds) :
    ∃ m', ds.foldlM Matrix.cover m = .ok m' ∧ m'.Covered t (cs ++ ds) := by
  -- induction on the columns, each of which is active when it is covered
  induction ds generalizing m cs with
  | nil =>
    rw [List.append_nil]
    exact ⟨m, rfl, h⟩
  | cons d ds ih =>
    obtain ⟨⟨active, hactive, hd⟩, hrest⟩ := hds
    rw [h.shows.activeColumns_eq, Except.ok.injEq] at hactive
    rw [← hactive] at hd
    obtain ⟨hlt, hnot⟩ := Table.mem_active.mp hd
    obtain ⟨m₁, hcover, h₁, -⟩ := h.cover hlt hnot
    obtain ⟨m', hall, h'⟩ := ih h₁ (hrest m₁ hcover)
    rw [List.append_assoc, List.singleton_append] at h'
    exact ⟨m', by rw [List.foldlM_cons, hcover, ok_bind, hall], h'⟩

/-- A run that is asked for more exact covers than there are gives all of them, each once and each
    as the identifiers of its rows in the order chosen. -/
theorem solveUpTo_enumerates (selection : Selection) {n : Nat} {rows : List (Nat × List Nat)}
    {covered : List Nat} {m₀ m : Matrix} (hcreate : Matrix.create n = .ok m₀)
    (hadd : rows.foldlM (fun m r => m.addRow r.1 r.2) m₀ = .ok m)
    (hcovered : m.NamesActive covered) (hmax : {s | CoversRest n rows covered s}.ncard < max) :
    ∃ m', covered.foldlM Matrix.cover m = .ok m' ∧
      (¬ Overflowed (run { matrix := m', selection, maxNodes := none } (solveUpTo max)) →
        ∃ sols : List (List Nat),
          (run { matrix := m', selection, maxNodes := none } (solveUpTo max)).1 =
            .ok (sols.map (·.map (idAt rows))) ∧
          (∀ l ∈ sols, l.Nodup) ∧ (sols.map List.toFinset).Nodup ∧
          ∀ s, s ∈ sols.map List.toFinset ↔ CoversRest n rows covered s) := by
  obtain ⟨t, rfl, rfl, ht⟩ := Matrix.covered_of_create hcreate hadd
  obtain ⟨m', hm', hcov⟩ := covered_of_namesActive ht hcovered
  refine ⟨m', hm', fun hover => ?_⟩
  rw [List.nil_append] at hcov
  -- the leaves of the tree are the exact covers, and no two of them are the same
  let prob := t.problem selection none max
  have hrows : (t.free covered).Nodup := List.nodup_range.filter _
  have hmem : ∀ s, s ∈ (prob.covers (t.active covered) (t.free covered)).map List.toFinset ↔
      CoversRest t.columnCount t.rows covered s :=
    fun s => (Problem.mem_covers_iff Table.within_problem).trans Table.isExactCover_problem
  have hnodup : ((prob.covers (t.active covered) (t.free covered)).map List.toFinset).Nodup :=
    Problem.covers_nodup Table.within_problem hrows
  -- the leaves of the tree are as many as there are exact covers
  have hlength : (prob.covers (t.active covered) (t.free covered)).length < max := by
    have hset : {s | CoversRest t.columnCount t.rows covered s} =
        ((prob.covers (t.active covered) (t.free covered)).map List.toFinset).toFinset := by
      ext s
      rw [Finset.mem_coe, List.mem_toFinset, hmem]
      rfl
    rwa [hset, Set.ncard_coe_finset, List.toFinset_card_of_nodup hnodup, List.length_map] at hmax
  -- a run that is asked for more gives them all
  rcases solveUpTo_eq_take selection none hcov
    (Nat.one_le_of_lt hmax) with hok | ⟨limit, hlimit, -⟩ | hfull
  · rw [List.take_of_length_le hlength.le] at hok
    exact ⟨_, hok, fun l hl => Problem.nodup_of_mem_covers Table.within_problem hl, hnodup, hmem⟩
  · exact nomatch hlimit
  · exact absurd hfull hover

/-- Five rows, three with the same identifier and one empty, of which one column has been
    covered. -/
theorem solveUpTo_enumerates_shared_id :
    ∃ m₀ m : Matrix, Matrix.create 3 = .ok m₀ ∧
      [(7, [0, 1]), (8, [2]), (7, [0]), (7, [0, 2]), (5, [])].foldlM
        (fun (m : Matrix) r => m.addRow r.1 r.2) m₀ = .ok m ∧
      m.NamesActive [1] ∧
      {s | CoversRest 3 [(7, [0, 1]), (8, [2]), (7, [0]), (7, [0, 2]), (5, [])] [1] s}.ncard < 33 ∧
      ∃ m', [1].foldlM Matrix.cover m = .ok m' ∧
        ∃ sols : List (List Nat),
          (run { matrix := m', selection := .minimumSize, maxNodes := none } (solveUpTo 33)).1 =
            .ok (sols.map
              (·.map (idAt [(7, [0, 1]), (8, [2]), (7, [0]), (7, [0, 2]), (5, [])]))) ∧
          (∀ l ∈ sols, l.Nodup) ∧ (sols.map List.toFinset).Nodup ∧
          ∀ s, s ∈ sols.map List.toFinset ↔
            CoversRest 3 [(7, [0, 1]), (8, [2]), (7, [0]), (7, [0, 2]), (5, [])] [1] s := by
  -- the whole run is evaluated, which shows that no counter is full
  have hrun : (([(7, [0, 1]), (8, [2]), (7, [0]), (7, [0, 2]), (5, [])].foldlM
      (fun (m : Matrix) r => m.addRow r.1 r.2) (Matrix.empty 3)).map fun m =>
        (m.activeColumns, ([1].foldlM Matrix.cover m).map fun m' =>
          (run { matrix := m', selection := .minimumSize, maxNodes := none } (solveUpTo 33)).1)) =
      .ok (.ok [0, 1, 2], .ok (.ok [[7, 8], [7]])) := by
    decide +kernel
  obtain ⟨m, hadd⟩ := exists_of_isOk (x := [(7, [0, 1]), (8, [2]), (7, [0]), (7, [0, 2]),
    (5, [])].foldlM (fun (m : Matrix) r => m.addRow r.1 r.2) (Matrix.empty 3)) (by decide +kernel)
  rw [hadd] at hrun
  obtain ⟨hactive, hrun⟩ := Prod.mk.inj (Except.ok.inj hrun)
  have hnames : m.NamesActive [1] :=
    ⟨⟨_, hactive, by decide⟩, fun _ _ => trivial⟩
  have hcount : {s | CoversRest 3 [(7, [0, 1]), (8, [2]), (7, [0]), (7, [0, 2]), (5, [])] [1]
      s}.ncard < 33 := by
    -- there are no more exact covers than sets of positions
    have hsub : {s | CoversRest 3 [(7, [0, 1]), (8, [2]), (7, [0]), (7, [0, 2]), (5, [])] [1] s} ⊆
        ((Finset.range 5).powerset : Finset (Finset Nat)) := by
      intro s hs
      rw [Finset.mem_coe, Finset.mem_powerset]
      exact fun i hi => Finset.mem_range.mpr (hs.lt i hi)
    have hle := Set.ncard_le_ncard hsub (Finset.finite_toSet _)
    rw [Set.ncard_coe_finset] at hle
    exact Nat.lt_of_le_of_lt hle (by decide)
  obtain ⟨m', hm', hsols⟩ := solveUpTo_enumerates .minimumSize rfl hadd hnames hcount
  refine ⟨_, m, rfl, hadd, hnames, hcount, m', hm', hsols fun hover => ?_⟩
  rw [hm'] at hrun
  exact nomatch (Except.ok.inj hrun).symm.trans hover.1

end Search
end ExactCover
