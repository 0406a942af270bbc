import ExactCover.Proofs.AlgorithmX.Tally
import ExactCover.Proofs.Search.Enumeration

/-!
# Several runs of one search

A search may be asked for exact covers again and again. Each run that has found fewer exact covers
than it was asked for has gone through the whole tree and has undone all it has covered, so it
leaves the matrix as it was before, and the next run begins where this one began. The first run
that finds as many as it was asked for is the last one that gives an answer.

## Key results

- `Ready.solveUpTo_ends`: one run
- `Ready.answers`: any number of runs
- `exhausted_restores`: a run that finds fewer exact covers than asked for restores the matrix
-/

namespace ExactCover

open AlgorithmX (Problem Progress)

namespace Table

/-- All exact covers of what remains when the columns `cs` have been covered, in the order of the
    search. -/
def allCovers (t : Table) (selection : Selection) (cs : List Nat) : List (List Nat) :=
  ((t.problem selection none 0).covers (t.active cs) (t.free cs)).map (·.map t.id)

/-- What a search through the whole tree counts. -/
def tally (t : Table) (selection : Selection) (cs : List Nat) : Stats :=
  (t.problem selection none 0).tally (t.active cs) (t.free cs) 0

end Table

namespace Search

/-- What a search is asked for. -/
inductive Request where
  /-- The first exact cover. -/
  | one
  /-- So many exact covers. -/
  | upTo (max : Nat)
  deriving DecidableEq, Repr

/-- The exact covers given in answer to a request. -/
def Request.answer : Request → Run (List (List Nat))
  | one => return (← solveOne).toList
  | upTo max => solveUpTo max

/-- The search can be asked for exact covers of the matrix `m`. -/
structure Ready (m : Matrix) (selection : Selection) (maxNodes : Option Nat) (s : Search) :
    Prop where
  matrix : s.matrix = m
  selection : s.selection = selection
  maxNodes : s.maxNodes = maxNodes
  chosen : s.chosen = []
  found : s.found = #[]
  spent : s.spent = false

variable {m : Matrix} {t : Table} {selection : Selection} {maxNodes : Option Nat}
  {s s' : Search} {cs : List Nat} {max : Nat} {found : List (List Nat)}

/-! ## One run -/

/-- A run goes through the tree from its root, and bars all later runs unless it has seen the whole
    tree. -/
theorem solveUpTo_eq (hspent : s.spent = false) (hmax : 1 ≤ max) :
    solveUpTo max s = match visitRoot { s with wanted := max } with
      | .ok .exhausted s' => .ok s'.found.toList { s' with found := #[] }
      | .ok .stopped s' => .ok s'.found.toList { s' with found := #[], spent := true }
      | .error halt s' => .error halt { s' with spent := true } := by
  have hwanted : (modify fun s => { s with wanted := max } : Run Unit) s =
    .ok () { s with wanted := max } := rfl
  rw [solveUpTo, bind_of_ok (x := get) rfl, if_neg (by rw [hspent]; decide), if_neg (by omega)]
  refine (bind_of_ok hwanted).trans ?_
  -- a failure is passed on once the search is spent, and an answer empties what has been found
  cases hvisit : visitRoot { s with wanted := max } with
  | error halt s' =>
    have hcatch : tryCatch visitRoot (fun halt => do spend; throw halt) { s with wanted := max } =
        .error halt { s' with spent := true } := by
      show EStateM.tryCatch visitRoot _ _ = _
      rw [EStateM.tryCatch, hvisit]
      rfl
    exact bind_of_error hcatch
  | ok o s' =>
    have hcatch : tryCatch visitRoot (fun halt => do spend; throw halt) { s with wanted := max } =
        .ok o s' := by
      show EStateM.tryCatch visitRoot _ _ = _
      rw [EStateM.tryCatch, hvisit]
    rw [bind_of_ok hcatch]
    cases o <;> rfl

/-- A run that has restored all can be followed by another one. -/
theorem Ready.restored (h : Ready m selection maxNodes s)
    (hs : Restored { s with wanted := max } s') (hfound : s'.found = #[]) :
    Ready m selection maxNodes s' where
  matrix := hs.matrix.trans h.matrix
  selection := hs.selection.trans h.selection
  maxNodes := hs.maxNodes.trans h.maxNodes
  chosen := hs.chosen.trans h.chosen
  found := hfound
  spent := hs.spent.trans h.spent

/-- A run that gives an answer keeps none of the exact covers it has found. -/
theorem found_of_solveUpTo (hspent : s.spent = false) (hmax : 1 ≤ max)
    (hrun : solveUpTo max s = .ok found s') : s'.found = #[] := by
  rw [solveUpTo_eq hspent hmax] at hrun
  cases hvisit : visitRoot { s with wanted := max } with
  | error halt s₁ =>
    rw [hvisit] at hrun
    exact nomatch hrun
  | ok o s₁ =>
    rw [hvisit] at hrun
    cases o <;> cases hrun <;> rfl

/-- Nothing is done for a request of none. -/
theorem solveUpTo_zero (hspent : s.spent = false) : solveUpTo 0 s = .ok [] s := by
  rw [solveUpTo, bind_of_ok (x := get) rfl, if_neg (by rw [hspent]; decide), if_pos rfl]
  rfl

/-- A search that can be asked begins where Algorithm X begins, with the counters it has. -/
theorem Ready.reached (h : Ready m selection maxNodes s) (hm : m.Covered t cs) (max : Nat) :
    Reached t (fun i => i) t.id (t.problem selection maxNodes max) { s with wanted := max }
      { stats := s.stats } cs [] := by
  obtain ⟨rfl, rfl, rfl, hchosen, hfound, -⟩ := h
  refine ⟨Table.poses_problem, ⟨rfl, ?_⟩, hm, ?_, rfl, rfl, rfl⟩
  · simp [hfound]
  · simp [hchosen]

/-- A run gives the first exact covers. If these are all, the search can be asked again and has
    counted all there is to be counted, and otherwise it is spent. The run fails at the limit of
    nodes, or if a counter is full. -/
theorem Ready.solveUpTo_ends (h : Ready m selection maxNodes s) (hm : m.Covered t cs)
    (hmax : 1 ≤ max) :
    match Search.solveUpTo max s with
    | .ok found s' => found = (t.allCovers selection cs).take max ∧
        ((t.allCovers selection cs).length < max →
          Ready m selection maxNodes s' ∧ s'.stats = s.stats + t.tally selection cs) ∧
        (max ≤ (t.allCovers selection cs).length → s'.spent = true)
    | .error e s' => (∃ limit, maxNodes = some limit ∧ e = .nodeLimit limit) ∨
        (e = .fault .overflow ∧ s'.stats.Full) := by
  let prob := t.problem selection maxNodes max
  -- the run ends as Algorithm X does, of which it is known how it ends and what it counts
  have hagree := solveUpTo_agree (h.reached hm max) h.spent hmax
  have hends := prob.explore_ends (t.active cs) (t.free cs) [] 0 (p := { stats := s.stats }) hmax
  have hadds := prob.explore_adds (t.active cs) (t.free cs) [] 0 { stats := s.stats }
  have hcleared : ∀ found s', Search.solveUpTo max s = .ok found s' → s'.found = #[] :=
    fun _ _ => found_of_solveUpTo h.spent hmax
  -- the tree does not depend on the limit or on what is asked for
  have hall : t.allCovers selection cs =
      (prob.covers (t.active cs) (t.free cs)).map (·.map t.id) :=
    congrArg (List.map _) (Problem.covers_congr (t.problem selection none 0) prob rfl rfl _ _)
  have htally : t.tally selection cs = prob.tally (t.active cs) (t.free cs) 0 :=
    Problem.tally_congr (t.problem selection none 0) prob rfl rfl _ _ _
  rw [List.map_id'] at hagree
  rw [hall, htally, List.length_map, ← List.map_take]
  generalize Search.solveUpTo max s = x at hagree hcleared ⊢
  generalize prob.explore _ _ _ _ _ = y at hagree hends hadds
  simp only [List.map_id', List.nil_append] at hends
  match x, y, hagree with
  | .error e s', .error _ p, ⟨rfl, hp⟩ => exact hends.imp_right fun h => ⟨h.1, hp.stats ▸ h.2⟩
  | .ok _ s', .ok .exhausted p, ⟨rfl, hstats, hrestored, _⟩ =>
    -- all have been found, and these are fewer than asked for
    obtain ⟨hfound, hlt⟩ :
      p.found = prob.covers (t.active cs) (t.free cs) ∧ p.found.length < max := hends
    rw [← hfound, List.take_of_length_le hlt.le]
    exact ⟨rfl, fun _ => ⟨h.restored (hrestored rfl) (hcleared _ s' rfl), hstats.trans hadds⟩,
      fun hle => absurd hlt (Nat.not_lt_of_le hle)⟩
  | .ok _ s', .ok .stopped p, ⟨rfl, hstats, _, hspent⟩ =>
    obtain ⟨hfound, hle⟩ : p.found = (prob.covers (t.active cs) (t.free cs)).take max ∧
      max ≤ (prob.covers (t.active cs) (t.free cs)).length := hends
    rw [← hfound]
    exact ⟨rfl, fun hlt => absurd hlt (Nat.not_lt_of_le hle), fun _ => hspent rfl⟩

/-- A run of a search that can be asked finds fewer exact covers than asked for and can be asked
    again, or it finds as many and is the last. -/
theorem Ready.solveUpTo (h : Ready m selection maxNodes s) (hm : m.Covered t cs)
    (hrun : solveUpTo max s = .ok found s') :
    Ready m selection maxNodes s' ∧ (1 ≤ max → found.length < max) ∨
      s'.spent = true ∧ 1 ≤ max ∧ found.length = max := by
  -- nothing is done for a request of none; otherwise it depends on how many exact covers there are
  rcases Nat.eq_zero_or_pos max with rfl | hmax
  · cases (solveUpTo_zero h.spent).symm.trans hrun
    exact .inl ⟨h, fun hmax => absurd hmax (by decide)⟩
  · have hends := h.solveUpTo_ends hm hmax
    rw [hrun] at hends
    obtain ⟨rfl, hexhausted, hstopped⟩ := hends
    rw [List.length_take]
    rcases Nat.lt_or_ge (t.allCovers selection cs).length max with hlt | hle
    · exact .inl ⟨(hexhausted hlt).1, fun _ => by omega⟩
    · exact .inr ⟨hstopped hle, hmax, Nat.min_eq_left hle⟩

/-- A search that is spent gives no answer. -/
theorem solveUpTo_of_spent (hspent : s.spent = true) (max : Nat) :
    solveUpTo max s = .error .spent s := by
  rw [solveUpTo, bind_of_ok (x := get) rfl, if_pos hspent]
  rfl

/-! ## Several runs -/

/-- An answer to a request is an answer to some number of exact covers asked for. -/
theorem Request.of_answer_eq_ok {r : Request} (h : r.answer s = .ok found s') :
    ∃ max found', Search.solveUpTo max s = .ok found' s' := by
  cases r with
  | upTo max => exact ⟨max, found, h⟩
  | one =>
    obtain ⟨rows, s₁, hone, h⟩ := exists_of_bind_eq_ok h
    obtain ⟨found', s₂, hrun, hone⟩ := exists_of_bind_eq_ok hone
    cases hone
    cases h
    exact ⟨1, found', hrun⟩

/-- After runs that have all given an answer the search can be asked again or is spent. -/
theorem Ready.answers (h : Ready m selection maxNodes s ∨ s.spent = true) (hm : m.Covered t cs)
    {requests : List Request} {answers : List (List (List Nat))}
    (hanswers : requests.mapM Request.answer s = .ok answers s') :
    Ready m selection maxNodes s' ∨ s'.spent = true := by
  -- induction on the requests; the search is ready or spent after each
  induction requests generalizing s answers with
  | nil =>
    cases hanswers
    exact h
  | cons r requests ih =>
    rw [List.mapM_cons] at hanswers
    obtain ⟨found, s₁, hanswer, hrest⟩ := exists_of_bind_eq_ok hanswers
    obtain ⟨rest, s₂, hrest, hpure⟩ := exists_of_bind_eq_ok hrest
    cases hpure
    obtain ⟨max, found', hrun⟩ := Request.of_answer_eq_ok hanswer
    rcases h with h | hspent
    · exact ih ((h.solveUpTo hm hrun).imp And.left And.left) hrest
    · -- a search that is spent gives no answer
      rw [solveUpTo_of_spent hspent] at hrun
      exact nomatch hrun

theorem run_eq_ok_iff {α : Type} {x : Run α} {a : α} : run s x = (.ok a, s') ↔ x s = .ok a s' := by
  rw [run, EStateM.run]
  cases x s <;> simp

theorem run_eq_error_iff {α : Type} {x : Run α} {halt : Halt} :
    run s x = (.error halt, s') ↔ x s = .error halt s' := by
  rw [run, EStateM.run]
  cases x s <;> simp

/-- A new search can be asked. -/
theorem ready_new (m : Matrix) (selection : Selection) (maxNodes : Option Nat) :
    Ready m selection maxNodes { matrix := m, selection, maxNodes } :=
  ⟨rfl, rfl, rfl, rfl, rfl, rfl⟩

/-- A run that finds fewer exact covers than asked for leaves the matrix exactly as it was before
    the run, whatever the search has been asked before. -/
theorem exhausted_restores (selection : Selection) (maxNodes : Option Nat) {n : Nat}
    {rows : List (Nat × List Nat)} {covered : List Nat} {m₀ m : Matrix}
    (hcreate : Matrix.create n = .ok m₀)
    (hadd : rows.foldlM (fun m r => m.addRow r.1 r.2) m₀ = .ok m)
    (hcovered : m.NamesActive covered) :
    ∃ m', covered.foldlM Matrix.cover m = .ok m' ∧
      ∀ (requests : List Request) answers s, run { matrix := m', selection, maxNodes }
          (requests.mapM Request.answer) = (.ok answers, s) →
        (∀ max found s', run s (solveUpTo max) = (.ok found, s') → found.length < max →
          s'.matrix = s.matrix) ∧
        ∀ s', run s solveOne = (.ok none, s') → s'.matrix = s.matrix := by
  obtain ⟨t, -, -, ht⟩ := Matrix.covered_of_create hcreate hadd
  obtain ⟨m', hm', hcov⟩ := covered_of_namesActive ht hcovered
  refine ⟨m', hm', fun requests answers s hrequests => ?_⟩
  have hready := Ready.answers (.inl (ready_new m' selection maxNodes)) hcov
    (run_eq_ok_iff.mp hrequests)
  -- a search that is ready has the matrix it began with, before the run and after it
  have hupTo : ∀ max found s', solveUpTo max s = .ok found s' → found.length < max →
      s'.matrix = s.matrix := by
    intro max found s' hrun hlt
    rcases hready with h | hspent
    · rcases h.solveUpTo hcov hrun with ⟨h', -⟩ | ⟨-, -, hlength⟩
      · exact h'.matrix.trans h.matrix.symm
      · exact absurd hlength (Nat.ne_of_lt hlt)
    · rw [solveUpTo_of_spent hspent] at hrun
      exact nomatch hrun
  refine ⟨fun max found s' hrun => hupTo max found s' (run_eq_ok_iff.mp hrun), fun s' hrun => ?_⟩
  -- the first of up to one exact cover is missing if there is none
  obtain ⟨found, s₁, hone, hlast⟩ := exists_of_bind_eq_ok (run_eq_ok_iff.mp hrun)
  obtain ⟨hnone, rfl⟩ := EStateM.Result.ok.inj hlast
  rw [List.getLast?_eq_none_iff] at hnone
  exact hupTo 1 found s₁ hone (by rw [hnone]; decide)

/-- A run that finds two exact covers of three asked for, on a search that has been asked twice
    before, and a run that finds none. -/
theorem exhausted_restores_two_and_none :
    (∃ (m₀ m m' : Matrix) (s s' : Search) (answers : List (List (List Nat)))
        (found : List (List Nat)), Matrix.create 3 = .ok m₀ ∧
      [(7, [0, 1]), (8, [2]), (7, [0]), (7, [0, 2]), (5, [])].foldlM
        (fun (m : Matrix) r => m.addRow r.1 r.2) m₀ = .ok m ∧
      m.NamesActive [1] ∧ [1].foldlM Matrix.cover m = .ok m' ∧
      run { matrix := m', selection := .minimumSize, maxNodes := some 50 }
        ([.upTo 0, .upTo 9].mapM Request.answer) = (.ok answers, s) ∧
      run s (solveUpTo 3) = (.ok found, s') ∧ found.length < 3 ∧ s'.matrix = s.matrix) ∧
    ∃ (m₀ m m' : Matrix) (s s' : Search) (answers : List (List (List Nat))),
      Matrix.create 3 = .ok m₀ ∧
      [(7, [0, 1]), (8, [1, 2])].foldlM
        (fun (m : Matrix) r => m.addRow r.1 r.2) m₀ = .ok m ∧
      m.NamesActive [] ∧ [].foldlM Matrix.cover m = .ok m' ∧
      run { matrix := m', selection := .firstSingleton, maxNodes := none }
        ([.one].mapM Request.answer) = (.ok answers, s) ∧
      run s solveOne = (.ok none, s') ∧ s'.matrix = s.matrix := by
  constructor
  · have hrun : (([(7, [0, 1]), (8, [2]), (7, [0]), (7, [0, 2]), (5, [])].foldlM
        (fun (m : Matrix) r => m.addRow r.1 r.2) (Matrix.empty 3)).map fun m =>
          (m.activeColumns, ([1].foldlM Matrix.cover m).map fun m' =>
            let x := run { matrix := m', selection := .minimumSize, maxNodes := some 50 }
              ([.upTo 0, .upTo 9].mapM Request.answer)
            x.1 >>= fun _ => (run x.2 (solveUpTo 3)).1)) =
        .ok (.ok [0, 1, 2], .ok (.ok [[7, 8], [7]])) := by
      decide +kernel
    obtain ⟨m, hadd, hm⟩ := exists_of_map_eq_ok hrun
    obtain ⟨hactive, hcover⟩ := Prod.mk.inj hm
    obtain ⟨m₁, hm₁, hx⟩ := exists_of_map_eq_ok hcover
    obtain ⟨answers, hanswers, hfound⟩ := bind_eq_ok.mp hx
    have hnames : m.NamesActive [1] := ⟨⟨_, hactive, by decide⟩, fun _ _ => trivial⟩
    obtain ⟨m', hm', hrestores⟩ :=
      exhausted_restores .minimumSize (some 50) (n := 3) rfl hadd hnames
    cases hm₁.symm.trans hm'
    have hanswers := Prod.fst_eq_iff.mp hanswers
    have hfound := Prod.fst_eq_iff.mp hfound
    exact ⟨_, m, _, _, _, answers, _, rfl, hadd, hnames, hm', hanswers, hfound, by decide,
      (hrestores _ answers _ hanswers).1 3 _ _ hfound (by decide)⟩
  · have hrun : (([(7, [0, 1]), (8, [1, 2])].foldlM
        (fun (m : Matrix) r => m.addRow r.1 r.2) (Matrix.empty 3)).map fun m =>
          let x := run { matrix := m, selection := .firstSingleton, maxNodes := none }
            ([.one].mapM Request.answer)
          x.1 >>= fun _ => (run x.2 solveOne).1) = .ok (.ok none) := by
      decide +kernel
    obtain ⟨m, hadd, hx⟩ := exists_of_map_eq_ok hrun
    obtain ⟨answers, hanswers, hnone⟩ := bind_eq_ok.mp hx
    have hnames : m.NamesActive [] := trivial
    obtain ⟨m', hm', hrestores⟩ :=
      exhausted_restores .firstSingleton none (n := 3) rfl hadd hnames
    cases hm'
    have hanswers := Prod.fst_eq_iff.mp hanswers
    have hnone := Prod.fst_eq_iff.mp hnone
    exact ⟨_, m, _, _, _, answers, rfl, hadd, hnames, rfl, hanswers, hnone,
      (hrestores _ answers _ hanswers).2 _ hnone⟩

end Search
end ExactCover
