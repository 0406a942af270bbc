import ExactCover.Proofs.Search.Calls

/-!
# Sequences of calls

A search that is asked for more exact covers than there are gives all of them, is as it was before
and has counted what there is to be counted in its tree. So such calls can be repeated, and each
gives and counts the same. The first call that asks for no more than there are gives the first of
them and is the last that is answered.

## Key results

- `Ready.run_eq`: one run that no counter ends
- `Ready.after_exhausted`: calls for more exact covers than there are
- `calls_repeat`: any sequence of calls
-/

namespace ExactCover

namespace Search

variable {α : Type} {m : Matrix} {t : Table} {selection : Selection} {s s' : Search}
  {cs : List Nat} {max : Nat} {found : List (List Nat)} {calls : List Request} {r : Request}

/-- No call is ended by a counter that could not count further. -/
def NeverOverflows : Search → List Request → Prop
  | _, [] => True
  | s, r :: calls => ¬ Overflowed (s.run r.answer) ∧ (s.run r.answer).2.NeverOverflows calls

/-- Calls may be taken in two parts. -/
private theorem neverOverflows_append {later : List Request} :
    s.NeverOverflows (calls ++ later) ↔
      s.NeverOverflows calls ∧ (s.after calls).NeverOverflows later := by
  induction calls generalizing s with
  | nil => simp [NeverOverflows]
  | cons r calls ih => rw [List.cons_append, NeverOverflows, NeverOverflows, ih, after_cons, and_assoc]

/-- A run that gives an answer has met no full counter. -/
private theorem not_overflowed {x : Except Halt α × Search} {a : α} (h : x.1 = .ok a) :
    ¬ Overflowed x := by
  rintro ⟨herror, -⟩
  cases h.symm.trans herror

/-- The first exact covers that were asked for are the answer. -/
private theorem Request.read_take (r : Request) (all : List (List Nat)) :
    r.read (all.take r.count) = all.take r.count := by
  cases r with
  | one => cases all <;> rfl
  | upTo max => rfl

/-- Nothing is done for a request of none. -/
private theorem run_answer_zero (hspent : s.spent = false) (hzero : r.count = 0) :
    s.run r.answer = (.ok [], s) := by
  cases r with
  | one => cases hzero
  | upTo max =>
    obtain rfl : max = 0 := hzero
    exact run_eq_ok_iff.mpr (solveUpTo_zero hspent)

/-- A call has as many steps as the run it is answered by. -/
private theorem overflowed_answer_iff : Overflowed (s.run r.answer) ↔ Overflowed
    (s.run (solveUpTo r.count)) := by
  rw [run_answer]
  simp only [Overflowed]
  cases (s.run (solveUpTo r.count)).1 <;> simp [Except.map]

/-- A run that no counter ends gives the first exact covers. If these are all, the search can be
    asked again and has counted all there is to be counted, and otherwise it is spent. -/
theorem Ready.run_eq (h : Ready m selection none s) (hm : m.Covered t cs) (hmax : 1 ≤ max)
    (hover : ¬ Overflowed (s.run (Search.solveUpTo max))) :
    ∃ s', s.run (Search.solveUpTo max) = (.ok ((t.allCovers selection cs).take max), s') ∧
      ((t.allCovers selection cs).length < max →
        Ready m selection none s' ∧ s'.stats = s.stats + t.tally selection cs) ∧
      (max ≤ (t.allCovers selection cs).length → s'.spent = true) := by
  -- of the ways in which a run ends, the two failures are excluded
  have hends := h.solveUpTo_ends hm hmax
  simp only [Overflowed, run, EStateM.run] at hover ⊢
  cases hx : Search.solveUpTo max s with
  | ok found s' =>
    rw [hx] at hends
    obtain ⟨rfl, hexhausted, hstopped⟩ := hends
    exact ⟨s', rfl, hexhausted, hstopped⟩
  | error e s' =>
    rw [hx] at hends hover
    rcases hends with ⟨limit, hlimit, -⟩ | ⟨rfl, hfull⟩
    · -- there is no limit of nodes
      cases hlimit
    · exact absurd ⟨rfl, hfull⟩ hover

/-- Calls for more exact covers than there are, or for none, can be followed by other calls, and
    the tree has no more depth than it has. -/
theorem Ready.after_exhausted (h : Ready m selection none s) (hm : m.Covered t cs)
    (hdepth : s.stats.maxDepth ≤ (t.tally selection cs).maxDepth)
    (hcalls : ∀ r ∈ calls, r.count = 0 ∨ (t.allCovers selection cs).length < r.count)
    (hover : s.NeverOverflows calls) :
    Ready m selection none (s.after calls) ∧
      (s.after calls).stats.maxDepth ≤ (t.tally selection cs).maxDepth := by
  -- induction on the calls: each leaves the search ready for the next
  induction calls generalizing s with
  | nil => exact ⟨h, hdepth⟩
  | cons r calls ih =>
    obtain ⟨hr, hcalls⟩ := List.forall_mem_cons.mp hcalls
    obtain ⟨hover, hlater⟩ := hover
    rw [after_cons]
    rcases hr with hzero | hlt
    · rw [run_answer_zero h.spent hzero] at hlater ⊢
      exact ih h hdepth hcalls hlater
    · obtain ⟨s', hrun, hexhausted, -⟩ :=
        h.run_eq hm (Nat.one_le_of_lt hlt) (overflowed_answer_iff.not.mp hover)
      obtain ⟨h', hstats⟩ := hexhausted hlt
      rw [run_answer, hrun] at hlater ⊢
      refine ih h' ?_ hcalls hlater
      rw [hstats]
      exact Nat.max_le.mpr ⟨hdepth, le_rfl⟩

/-- Let `all` be what a new search gives that is asked for more exact covers than there are, and
    `full` this search afterwards. As long as each call asks for none or for more than there are,
    a call for none gives none and changes nothing, and any other call gives `all`, leaves the
    matrix as it was and counts what `full` has counted. The first call that asks for one or more
    but no more than there are gives the first of them, and all later calls are refused and change
    nothing. -/
theorem calls_repeat (selection : Selection) {n most : Nat} {rows : List (Nat × List Nat)}
    {m₀ m : Matrix} {all : List (List Nat)} {full : Search} (hcreate : Matrix.create n = .ok m₀)
    (hadd : rows.foldlM (fun m r => m.addRow r.1 r.2) m₀ = .ok m)
    (hfull : run { matrix := m, selection, maxNodes := none } (solveUpTo most) = (.ok all, full))
    (hmost : all.length < most) {calls : List Request} {r : Request}
    (hcalls : ∀ r ∈ calls, r.count = 0 ∨ all.length < r.count)
    (hover : NeverOverflows { matrix := m, selection, maxNodes := none } (calls ++ [r])) :
    let s := after { matrix := m, selection, maxNodes := none } calls
    s.matrix = m ∧
    (r.count = 0 → s.run r.answer = (.ok [], s)) ∧
    (all.length < r.count → ∃ s', s.run r.answer = (.ok all, s') ∧ s'.matrix = m ∧
      s'.stats.nodes = s.stats.nodes + full.stats.nodes ∧
      s'.stats.covers = s.stats.covers + full.stats.covers ∧
      s'.stats.backtracks = s.stats.backtracks + full.stats.backtracks ∧
      s'.stats.solutions = s.stats.solutions + full.stats.solutions ∧
      s'.stats.maxDepth = full.stats.maxDepth) ∧
    (1 ≤ r.count → r.count ≤ all.length → ∃ s', s.run r.answer = (.ok (all.take r.count), s') ∧
      ∃ halt, halt.message =
          some "search already ran to a solution; rebuild the matrix to search again" ∧
        ∀ later r', (s'.after later).run (Request.answer r') = (.error halt, s')) := by
  obtain ⟨t, -, -, ht⟩ := Matrix.covered_of_create hcreate hadd
  have hnew := ready_new m selection none
  -- the run of the new search tells what there is to be found and counted
  obtain ⟨s₁, hrun₁, hexhausted, -⟩ := hnew.run_eq ht (Nat.one_le_of_lt hmost)
    (not_overflowed (congrArg Prod.fst hfull))
  obtain ⟨hfound, rfl⟩ := Prod.mk.inj (hrun₁.symm.trans hfull)
  obtain rfl : (t.allCovers selection []).take most = all := Except.ok.inj hfound
  have hlength : (t.allCovers selection []).length < most := by
    rw [List.length_take] at hmost
    omega
  rw [List.take_of_length_le hlength.le] at hcalls ⊢
  have hstats₁ : s₁.stats = t.tally selection [] := (hexhausted hlength).2.trans (zero_add _)
  -- the calls before leave the search ready
  obtain ⟨hearlier, hover, -⟩ := neverOverflows_append.mp hover
  obtain ⟨h, hdepth⟩ := hnew.after_exhausted ht (Nat.zero_le _) hcalls hearlier
  intro s
  rw [overflowed_answer_iff] at hover
  refine ⟨h.matrix, run_answer_zero h.spent, fun hlt => ?_, fun hpos hle => ?_⟩
  -- a call for more than there are
  · obtain ⟨s', hrun, hsame, -⟩ := h.run_eq ht (Nat.one_le_of_lt hlt) hover
    obtain ⟨h', hstats⟩ := hsame hlt
    have hread := r.read_take (t.allCovers selection [])
    rw [List.take_of_length_le hlt.le] at hrun hread
    rw [run_answer, hrun, hstats₁]
    refine ⟨s', by simp only [Except.map, hread], h'.matrix, ?_⟩
    rw [hstats]
    exact ⟨rfl, rfl, rfl, rfl, Nat.max_eq_right hdepth⟩
  -- a call for no more than there are
  · obtain ⟨s', hrun, -, hspent⟩ := h.run_eq ht hpos hover
    rw [run_answer, hrun]
    exact ⟨s', by simp only [Except.map, Request.read_take], .spent, rfl,
      fun later r' => run_after_of_spent (hspent hle) later r'⟩

/-- After a call for none and one for more than the two exact covers there are, a call for the
    first one, and instead another call for more than there are. -/
theorem calls_repeat_two_covers :
    ∃ (m₀ m : Matrix) (full : Search), Matrix.create 3 = .ok m₀ ∧
      [(7, [0, 1]), (8, [2]), (7, [0]), (9, [1, 2]), (5, [])].foldlM
        (fun (m : Matrix) r => m.addRow r.1 r.2) m₀ = .ok m ∧
      run { matrix := m, selection := .minimumSize, maxNodes := none } (solveUpTo 9) =
        (.ok [[7, 8], [7, 9]], full) ∧
      [[7, 8], [7, 9]].length < 9 ∧
      (∀ r ∈ [Request.upTo 0, .upTo 3], r.count = 0 ∨ [[7, 8], [7, 9]].length < r.count) ∧
      NeverOverflows { matrix := m, selection := .minimumSize, maxNodes := none }
        ([.upTo 0, .upTo 3] ++ [.one]) ∧
      NeverOverflows { matrix := m, selection := .minimumSize, maxNodes := none }
        ([.upTo 0, .upTo 3] ++ [.upTo 5]) ∧
      let s := after { matrix := m, selection := .minimumSize, maxNodes := none }
        [.upTo 0, .upTo 3]
      (∃ s', s.run Request.one.answer = (.ok [[7, 8]], s') ∧
        ∃ halt, halt.message =
            some "search already ran to a solution; rebuild the matrix to search again" ∧
          ∀ later r', (s'.after later).run (Request.answer r') = (.error halt, s')) ∧
      ∃ s', s.run (Request.upTo 5).answer = (.ok [[7, 8], [7, 9]], s') ∧ s'.matrix = m ∧
        s'.stats.nodes = s.stats.nodes + full.stats.nodes ∧
        s'.stats.covers = s.stats.covers + full.stats.covers ∧
        s'.stats.backtracks = s.stats.backtracks + full.stats.backtracks ∧
        s'.stats.solutions = s.stats.solutions + full.stats.solutions ∧
        s'.stats.maxDepth = full.stats.maxDepth := by
  -- the calls are evaluated, which shows that no counter is full
  have hruns : ([(7, [0, 1]), (8, [2]), (7, [0]), (9, [1, 2]), (5, [])].foldlM
      (fun (m : Matrix) r => m.addRow r.1 r.2) (Matrix.empty 3)).map (fun m =>
        let start : Search := { matrix := m, selection := .minimumSize, maxNodes := none }
        [(run start (solveUpTo 9)).1, (run start (Request.upTo 0).answer).1,
          ((start.after [.upTo 0]).run (Request.upTo 3).answer).1,
          ((start.after [.upTo 0, .upTo 3]).run Request.one.answer).1,
          ((start.after [.upTo 0, .upTo 3]).run (Request.upTo 5).answer).1]) =
      .ok [.ok [[7, 8], [7, 9]], .ok [], .ok [[7, 8], [7, 9]], .ok [[7, 8]],
        .ok [[7, 8], [7, 9]]] := by
    decide +kernel
  obtain ⟨m, hadd, hm⟩ := exists_of_map_eq_ok hruns
  simp only [List.cons.injEq, and_true] at hm
  obtain ⟨hfull, hzero, hall, hone, hmore⟩ := hm
  have hfull := Prod.fst_eq_iff.mp hfull
  have hcalls : ∀ r ∈ [Request.upTo 0, .upTo 3],
      r.count = 0 ∨ [[7, 8], [7, 9]].length < r.count := by
    decide
  have hstop : NeverOverflows { matrix := m, selection := .minimumSize, maxNodes := none }
      ([.upTo 0, .upTo 3] ++ [.one]) :=
    ⟨not_overflowed hzero, not_overflowed hall, not_overflowed hone, trivial⟩
  have hagain : NeverOverflows { matrix := m, selection := .minimumSize, maxNodes := none }
      ([.upTo 0, .upTo 3] ++ [.upTo 5]) :=
    ⟨not_overflowed hzero, not_overflowed hall, not_overflowed hmore, trivial⟩
  exact ⟨_, m, _, rfl, hadd, hfull, by decide, hcalls, hstop, hagain,
    (calls_repeat .minimumSize (n := 3) rfl hadd hfull (by decide) hcalls hstop).2.2.2 (by decide)
      (by decide),
    (calls_repeat .minimumSize (n := 3) rfl hadd hfull (by decide) hcalls hagain).2.2.1 (by decide)⟩

end Search
end ExactCover
