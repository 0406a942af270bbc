import ExactCover.Proofs.AlgorithmX.Covers

/-!
# How a search ends

A search that sees the whole tree has found all exact covers. One that stops has found the first
of them, as many as it was asked for. It can fail for two reasons only: the limit of nodes, or a
counter that cannot count further.

## Key results

- `explore_ends`: the search below a node
-/

namespace ExactCover

/-- A counter cannot count any further. -/
def Stats.Full (s : Stats) : Prop :=
  wordBound ≤ s.nodes + 1 ∨ wordBound ≤ s.covers + 1 ∨ wordBound ≤ s.backtracks + 1 ∨
    wordBound ≤ s.solutions + 1

namespace AlgorithmX

open Search (Outcome)

variable {α β : Type} {prob : Problem α} {p p' : Progress α} {sols : List (List α)}

/-- A count that fails only because a counter is full. -/
def Counts (f : Stats → Except Fault Stats) : Prop :=
  ∀ s e, f s = .error e → e = .overflow ∧ s.Full

/-- The search has ended after it has met the exact covers `sols`. -/
def Problem.Ends (prob : Problem α) (p : Progress α) (sols : List (List α)) :
    EStateM.Result Halt (Progress α) Outcome → Prop
  | .ok .exhausted p' => p'.found = p.found ++ sols ∧ p'.found.length < prob.wanted
  | .ok .stopped p' => p'.found = (p.found ++ sols).take prob.wanted ∧
      prob.wanted ≤ (p.found ++ sols).length
  | .error e p' => (∃ limit, prob.maxNodes = some limit ∧ e = .nodeLimit limit) ∨
      (e = .fault .overflow ∧ p'.stats.Full)

/-! ## Counting -/

/-- A counter counts one more unless it is full. -/
private theorem counts_of (counter : Stats → Nat) {set : Stats → Nat → Stats}
    (hfull : ∀ s, wordBound ≤ counter s + 1 → s.Full) :
    Counts fun s => do return set s (← Word.add (counter s) 1) := by
  intro s e h
  -- the addition is the only step that can fail
  by_cases hlt : counter s + 1 < wordBound
  · simp only [Word.add, if_pos hlt] at h
    cases h
  · simp only [Word.add, if_neg hlt] at h
    cases h
    exact ⟨rfl, hfull s (Nat.le_of_not_lt hlt)⟩

/-- A node is counted unless its counter is full. -/
theorem Counts.enter (depth : Nat) : Counts (·.enter depth) :=
  counts_of Stats.nodes fun _ => .inl

/-- A covered column is counted unless its counter is full. -/
theorem Counts.cover : Counts (·.cover) :=
  counts_of Stats.covers fun _ h => .inr (.inl h)

/-- A row given up is counted unless its counter is full. -/
theorem Counts.backtrack : Counts (·.backtrack) :=
  counts_of Stats.backtracks fun _ h => .inr (.inr (.inl h))

/-- An exact cover is counted unless its counter is full. -/
theorem Counts.solve : Counts (·.solve) :=
  counts_of Stats.solutions fun _ h => .inr (.inr (.inr h))

/-- Counting finds nothing, and goes on unless a counter is full. -/
theorem Problem.Ends.count_bind {f : Stats → Except Fault Stats} (hf : Counts f)
    {g : Unit → Trial α Outcome}
    (h : ∀ p', p'.found = p.found → prob.Ends p' sols (g () p')) :
    prob.Ends p sols ((count f >>= g) p) := by
  -- the counter is raised, or it is full and the search ends here
  cases hst : f p.stats with
  | ok stats =>
    rw [bind_of_ok (count_of_ok hst)]
    exact h _ rfl
  | error cause =>
    obtain ⟨rfl, hfull⟩ := hf _ _ hst
    rw [bind_of_error (count_of_error hst)]
    exact .inr ⟨rfl, hfull⟩

/-- Counting covered columns finds nothing, and goes on unless a counter is full. -/
theorem Problem.Ends.countCovers_bind {k : Nat} {g : Unit → Trial α Outcome}
    (h : ∀ p', p'.found = p.found → prob.Ends p' sols (g () p')) :
    prob.Ends p sols ((countCovers k >>= g) p) := by
  -- induction on the number of counts, each of which may be the one that fails
  induction k generalizing p with
  | zero => exact h p rfl
  | succ k ih =>
    rw [countCovers_succ, bind_assoc]
    exact .count_bind .cover fun p' hp' => ih fun p'' hp'' => h p'' (hp''.trans hp')

/-- Entering a node finds nothing, and goes on within the limit of nodes. -/
theorem Problem.Ends.enter_bind {depth : Nat} {g : Unit → Trial α Outcome}
    (h : ∀ p', p'.found = p.found → prob.Ends p' sols (g () p')) :
    prob.Ends p sols ((prob.enter depth >>= g) p) := by
  rw [Problem.enter_eq, bind_assoc]
  refine .count_bind (.enter depth) fun p' hp' => ?_
  rw [bind_assoc, bind_of_ok (x := get) rfl]
  -- only a limit that is set can be exceeded
  cases hlimit : p'.stats.exceeds prob.maxNodes with
  | none => exact h p' hp'
  | some limit =>
    rw [Stats.exceeds, Option.filter_eq_some_iff] at hlimit
    exact .inl ⟨limit, hlimit.1, rfl⟩

/-! ## The tree -/

/-- What has been met before counts as met. -/
theorem Problem.Ends.append {sols' : List (List α)} {r : EStateM.Result Halt (Progress α) Outcome}
    (hp : p'.found = p.found ++ sols) (h : prob.Ends p' sols' r) :
    prob.Ends p (sols ++ sols') r := by
  match r, h with
  | .ok .exhausted _, h => exact ⟨by rw [h.1, hp, List.append_assoc], h.2⟩
  | .ok .stopped _, h => exact ⟨by rw [h.1, hp, List.append_assoc],
      by rw [← List.append_assoc, ← hp]; exact h.2⟩
  | .error _ _, h => exact h

/-- The rows chosen are found, and the search stops if these are as many as wanted. -/
private theorem Problem.Ends.emit {chosen : List α} (hwanted : p.found.length < prob.wanted) :
    prob.Ends p [chosen] (prob.emit chosen p) := by
  let p₁ : Progress α := { p with found := p.found ++ [chosen] }
  have hlength : p₁.found.length ≤ prob.wanted := by
    simp only [p₁, List.length_append, List.length_singleton]
    exact hwanted
  have hfound : p₁.found = p.found ++ [chosen] := rfl
  have hpush : (modify fun p => { p with found := p.found ++ [chosen] } : Trial α Unit) p =
    .ok () p₁ := rfl
  rw [Problem.emit_eq, bind_of_ok hpush, ← List.append_nil [chosen]]
  refine .append hfound (.count_bind .solve fun p₂ hp₂ => ?_)
  rw [← hp₂] at hlength
  rw [bind_of_ok (x := get) rfl]
  by_cases hle : prob.wanted ≤ p₂.found.length
  · rw [if_pos hle]
    exact ⟨by rw [List.append_nil, List.take_of_length_le hlength], by rwa [List.append_nil]⟩
  · rw [if_neg hle]
    exact ⟨(List.append_nil _).symm, Nat.lt_of_not_le hle⟩

/-- Rows are tried in turn. -/
theorem Problem.Ends.tryEach {below : β → Trial α Outcome} {solsBelow : β → List (List α)}
    {rs : List β} (hwanted : p.found.length < prob.wanted)
    (hbelow : ∀ r ∈ rs, ∀ p, p.found.length < prob.wanted →
      prob.Ends p (solsBelow r) (below r p)) :
    prob.Ends p (rs.flatMap solsBelow) (tryEach below rs p) := by
  induction rs generalizing p with
  | nil => exact ⟨(List.append_nil _).symm, hwanted⟩
  | cons r rs ih =>
    have hr := hbelow r (List.mem_cons_self ..) p hwanted
    rw [AlgorithmX.tryEach_cons, List.flatMap_cons]
    cases hx : below r p with
    | error e p₁ =>
      rw [hx] at hr
      rw [bind_of_error hx]
      exact hr
    | ok o p₁ =>
      rw [hx] at hr
      rw [bind_of_ok hx]
      cases o with
      | stopped =>
        -- what the rows behind `r` would add is cut off
        refine ⟨?_, ?_⟩
        · rw [hr.1, ← List.append_assoc, List.take_append_of_le_length hr.2]
        · have hle := hr.2
          rw [List.length_append] at hle
          simp only [List.length_append]
          omega
      | exhausted =>
        -- the rows behind `r` add to what has been found below it
        refine .append hr.1 ?_
        show prob.Ends p₁ _ ((count (·.backtrack) >>= fun _ => AlgorithmX.tryEach below rs) p₁)
        refine .count_bind .backtrack fun p₂ hp₂ => ih (by rw [hp₂]; exact hr.2) fun r' hr' => ?_
        exact hbelow r' (List.mem_cons_of_mem r hr')

/-- The search below a node ends after the exact covers below this node. -/
theorem Problem.explore_ends (prob : Problem α) (cols : List Nat) (rows chosen : List α)
    (depth : Nat) (hwanted : p.found.length < prob.wanted) :
    prob.Ends p ((prob.covers cols rows).map (chosen ++ ·))
      (prob.explore cols rows chosen depth p) := by
  induction cols, rows using prob.tree_induction generalizing chosen depth p with
  | leaf rows =>
    rw [explore_eq, covers_nil, List.map_singleton, List.append_nil]
    refine .enter_bind fun p₁ hp₁ => ?_
    rw [if_pos rfl]
    exact .emit (hp₁ ▸ hwanted)
  | branch cols rows c hc ih =>
    have hne : cols ≠ [] := List.ne_nil_of_mem (Selection.mem_of_choose_eq_some hc)
    rw [explore_eq, covers_of_branch hc, List.map_flatMap]
    refine .enter_bind fun p₁ hp₁ => ?_
    rw [if_neg hne, hc]
    dsimp only
    split
    next hempty =>
      -- no row contains the column, so there is no leaf below
      rw [hempty]
      exact ⟨(List.append_nil _).symm, hp₁ ▸ hwanted⟩
    next =>
      refine .count_bind .cover fun p₂ hp₂ => ?_
      refine .tryEach (by rwa [hp₂, hp₁]) fun r hr p hp => .countCovers_bind fun p' hp' => ?_
      have hrow := ih r hr (chosen ++ [r]) (depth + 1) (p := p') (by rwa [hp'])
      rw [coversBelow, List.map_map]
      convert hrow using 2
      exact funext fun l => (List.append_assoc chosen [r] l).symm

end AlgorithmX
end ExactCover
