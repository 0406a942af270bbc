import ExactCover.Proofs.AlgorithmX.Outcome
import ExactCover.Proofs.Sudoku.Reduction
import ExactCover.Sudoku.Backtracking

/-!
# Filling a board

Backtracking keeps a board and the digits in use on it side by side. A digit may be written into an
empty cell exactly if it clashes with no digit on the board, and taking it out again restores both
as they were. So filling some empty cells either fills them all without a clash, and then in the
least way, or it leaves everything as it was, and then there is no way.

## Key results

- `Occupancy.Tracks.write`, `Occupancy.remove_place`: a digit is written, and taken out again
- `Filling.tryDigits_ends`: the digits of one cell
- `Filling.fill_ends`: any number of cells
-/

namespace ExactCover.Sudoku

/-! ## The board and the digits in use -/

/-- The digits in use are those on the board. -/
def Occupancy.Tracks (o : Occupancy) (b : Board) : Prop :=
  ∀ h d, o.flag h d = true ↔ ∃ c, House.Has h c ∧ b.get c = some d

namespace Occupancy

variable {o o' : Occupancy} {b : Board} {c : Cell} {d : Digit}

/-- Digits that have been placed one after the other are in use. -/
private theorem flag_of_foldlM_place {l : List (Cell × Digit)}
    (h : l.foldlM (fun (o : Occupancy) p => o.place? p.1 p.2) o = some o') (k : House) (e : Digit) :
    o'.flag k e = true ↔ o.flag k e = true ∨ ∃ p ∈ l, k.Has p.1 ∧ p.2 = e := by
  -- induction on the digits placed, each of which must have fitted
  induction l generalizing o with
  | nil =>
    cases h
    simp
  | cons p l ih =>
    rw [List.foldlM_cons, place?] at h
    by_cases hp : o.allows p.1 p.2 = true
    · rw [if_pos hp, Option.bind_eq_bind, Option.bind_some] at h
      rw [ih h, flag_place]
      simp only [List.exists_mem_cons_iff, eq_comm (a := e)]
      grind
    · rw [if_neg hp] at h
      cases h

/-- What is in use after a board has been gone over are its digits. -/
theorem tracks_of_ofBoard? (h : ofBoard? b = some o) : o.Tracks b := by
  intro k d
  rw [flag_of_foldlM_place h, flag_empty]
  simp only [Bool.false_eq_true, false_or]
  constructor
  · rintro ⟨p, hp, hk, rfl⟩
    exact ⟨p.1, hk, Board.mem_givens.mp hp⟩
  · rintro ⟨c, hk, hc⟩
    exact ⟨(c, d), Board.mem_givens.mpr hc, hk, rfl⟩

/-- A digit fits into a cell if no house of the cell has it. -/
theorem Tracks.allows_iff (h : o.Tracks b) :
    o.allows c d = true ↔ ∀ k : House, k.Has c → ∀ c', k.Has c' → b.get c' ≠ some d := by
  rw [Occupancy.allows_iff]
  refine forall₂_congr fun k _ => ?_
  rw [← Bool.not_eq_true, h k d]
  grind

/-- A digit is written into an empty cell. -/
theorem Tracks.write (h : o.Tracks b) (hc : b.get c = none) :
    (o.place c d).Tracks (b.set c (some d)) := by
  intro k e
  rw [flag_place, h k e]
  constructor
  · rintro (⟨hk, rfl⟩ | ⟨c', hk, hc'⟩)
    · exact ⟨c, hk, Board.get_set_self ..⟩
    · -- the cell was empty, so another one has the digit
      have hne : c ≠ c' := fun heq => by simp [← heq, hc] at hc'
      exact ⟨c', hk, by rwa [Board.get_set_ne _ _ hne]⟩
  · rintro ⟨c', hk, hc'⟩
    by_cases hne : c = c'
    · subst hne
      rw [Board.get_set_self, Option.some.injEq] at hc'
      exact .inl ⟨hk, hc'.symm⟩
    · rw [Board.get_set_ne _ _ hne] at hc'
      exact .inr ⟨c', hk, hc'⟩

/-- A flag that was not set is cleared again. -/
private theorem set_set_false {v : Vector Bool 81} {i : Fin 81} (h : v[i] = false) :
    (v.set i true).set i false = v := by
  refine Vector.ext fun j hj => ?_
  rw [Vector.getElem_set, Vector.getElem_set]
  by_cases hij : i.val = j
  · subst hij
    simpa using h.symm
  · simp [hij]

/-- A digit that fitted is given free again. -/
theorem remove_place (h : o.allows c d = true) : (o.place c d).remove c d = o := by
  simp only [allows, Bool.and_eq_true, Bool.not_eq_true'] at h
  obtain ⟨⟨hrow, hcol⟩, hbox⟩ := h
  simp only [place, remove, mark, set_set_false hrow, set_set_false hcol, set_set_false hbox]

end Occupancy

namespace Board

variable {b t : Board} {c : Cell} {d : Digit} {cells : List Cell}

/-- A digit that fits into an empty cell clashes with none. -/
private theorem isConsistent_set {o : Occupancy} (hb : b.isConsistent = true) (ho : o.Tracks b)
    (hd : o.allows c d = true) : (b.set c (some d)).isConsistent = true := by
  rw [isConsistent_iff] at hb ⊢
  have hfits := ho.allows_iff.mp hd
  intro k c₁ c₂ h₁ h₂ e he₁ he₂
  -- the digit written stands in the one cell, in the other, or in neither
  by_cases hc₁ : c = c₁
  · by_cases hc₂ : c = c₂
    · rw [← hc₁, ← hc₂]
    · -- the digit written would stand in its house already
      subst hc₁
      rw [get_set_self] at he₁
      rw [get_set_ne _ _ hc₂, ← he₁] at he₂
      exact absurd he₂ (hfits k h₁ c₂ h₂)
  · by_cases hc₂ : c = c₂
    · subst hc₂
      rw [get_set_self] at he₂
      rw [get_set_ne _ _ hc₁, ← he₂] at he₁
      exact absurd he₁ (hfits k h₂ c₁ h₁)
    · rw [get_set_ne _ _ hc₁] at he₁
      rw [get_set_ne _ _ hc₂] at he₂
      exact hb k c₁ c₂ h₁ h₂ e he₁ he₂

/-- A digit is taken out of a cell that was empty. -/
private theorem set_set_none (hc : b.get c = none) : (b.set c (some d)).set c none = b := by
  refine ext_get fun c' e => ?_
  by_cases hne : c = c'
  · subst hne
    rw [get_set_self, hc]
  · rw [get_set_ne _ _ hne, get_set_ne _ _ hne]

/-- The board `t` keeps the digits of `b`, has digits in `cells` and no clash. -/
structure Completes (b : Board) (cells : List Cell) (t : Board) : Prop where
  consistent : t.isConsistent = true
  keeps : ∀ c d, b.get c = some d → t.get c = some d
  filled : ∀ c ∈ cells, ∃ d, t.get c = some d

/-- Lists of numbers are compared at the first place where they differ. -/
theorem cons_le_cons_iff {v w : Nat} {vs ws : List Nat} :
    v :: vs ≤ w :: ws ↔ v < w ∨ v = w ∧ vs ≤ ws := by
  rw [le_iff_lt_or_eq, le_iff_lt_or_eq, List.cons_lt_cons_iff, List.cons.injEq]
  tauto

/-- The values in some cells. -/
def valuesAt (b : Board) (cells : List Cell) : List Nat := cells.map fun c => value (b.get c)

/-- Only digits that fit can stand in a completed board. -/
theorem Completes.allows {o : Occupancy} (h : b.Completes (c :: cells) t) (ho : o.Tracks b)
    (hc : b.get c = none) (hd : t.get c = some d) : o.allows c d = true := by
  rw [ho.allows_iff]
  -- another digit in its house would clash with it
  intro k hk c' hk' hc'
  have heq := (isConsistent_iff t).mp h.consistent k c c' hk hk' d hd (h.keeps c' d hc')
  rw [← heq, hc] at hc'
  cases hc'

/-- A completed board completes the board with one of its digits. -/
theorem Completes.tail (h : b.Completes (c :: cells) t) (hd : t.get c = some d) :
    (b.set c (some d)).Completes cells t where
  consistent := h.consistent
  keeps c' e he := by
    by_cases hne : c = c'
    · subst hne
      rw [get_set_self] at he
      rw [hd, he]
    · rw [get_set_ne _ _ hne] at he
      exact h.keeps c' e he
  filled c' hc' := h.filled c' (List.mem_cons_of_mem c hc')

end Board

namespace Filling

/-! ## Counting -/

/-- Counting changes the counters or fails. -/
theorem count_eq (f : Stats → Except Fault Stats) (s : Filling) :
    count f s = match f s.stats with
      | .ok stats => .ok () { s with stats }
      | .error cause => .error (.fault cause) s := by
  rw [count, bind_of_ok (x := get) rfl]
  cases f s.stats <;> rfl

/-- A node is counted, and then the limit is looked at. -/
theorem enter_eq (maxNodes : Option Nat) (depth : Nat) (s : Filling) :
    enter maxNodes depth s = match s.stats.enter depth with
      | .error cause => .error (.fault cause) s
      | .ok stats => match stats.exceeds maxNodes with
        | some limit => .error (.nodeLimit limit) { s with stats }
        | none => .ok () { s with stats } := by
  rw [enter]
  cases hst : s.stats.enter depth with
  | error cause =>
    have hcount : count (·.enter depth) s = .error (.fault cause) s := by rw [count_eq, hst]
    exact bind_of_error hcount
  | ok stats =>
    have hcount : count (·.enter depth) s = .ok () { s with stats } := by rw [count_eq, hst]
    rw [bind_of_ok hcount, bind_of_ok (x := get) rfl]
    dsimp only
    cases stats.exceeds maxNodes <;> rfl

/-! ## How filling ends -/

/-- The cells are empty, and the digits in use are those on the board, of which none clash. -/
structure Open (s : Filling) (cells : List Cell) : Prop where
  tracks : s.occupancy.Tracks s.board
  consistent : s.board.isConsistent = true
  nodup : cells.Nodup
  empty : ∀ c ∈ cells, s.board.get c = none

/-- The limit of nodes has been met, or a counter cannot count further. -/
def Limited (maxNodes : Option Nat) (e : Halt) (stats : Stats) : Prop :=
  (∃ limit, maxNodes = some limit ∧ e = .nodeLimit limit) ∨ (e = .fault .overflow ∧ stats.Full)

/-- How the cells of a board are filled: in the least way there is, or not at all if there is
    none. -/
def Ends (maxNodes : Option Nat) (b : Board) (o : Occupancy) (cells : List Cell) :
    EStateM.Result Halt Filling Bool → Prop
  | .ok true s => s.occupancy.Tracks s.board ∧ b.Completes cells s.board ∧
      (∀ c ∉ cells, s.board.get c = b.get c) ∧
      ∀ t, b.Completes cells t → s.board.valuesAt cells ≤ t.valuesAt cells
  | .ok false s => s.board = b ∧ s.occupancy = o ∧ ∀ t, ¬ b.Completes cells t
  | .error e s => Limited maxNodes e s.stats

variable {maxNodes : Option Nat} {b : Board} {o : Occupancy} {c : Cell} {d : Digit}
  {cells : List Cell} {digits : List Digit} {s s' : Filling} {depth : Nat}

/-- Only the board and the digits in use count. -/
theorem Open.of_eq (h : s.Open cells) (hboard : s'.board = s.board)
    (hoccupancy : s'.occupancy = s.occupancy) : s'.Open cells where
  tracks := by rw [hboard, hoccupancy]; exact h.tracks
  consistent := by rw [hboard]; exact h.consistent
  nodup := h.nodup
  empty := by rw [hboard]; exact h.empty

/-- A digit that fits is written into the first cell. -/
theorem Open.write (h : s.Open (c :: cells)) (hd : s.occupancy.allows c d = true) :
    Open { s with board := s.board.set c (some d), occupancy := s.occupancy.place c d }
      cells where
  tracks := h.tracks.write (h.empty c (List.mem_cons_self ..))
  consistent := Board.isConsistent_set h.consistent h.tracks hd
  nodup := (List.nodup_cons.mp h.nodup).2
  empty c' hc' := by
    have hne : c ≠ c' := fun heq => (List.nodup_cons.mp h.nodup).1 (heq ▸ hc')
    rw [Board.get_set_ne _ _ hne]
    exact h.empty c' (List.mem_cons_of_mem c hc')

/-- A digit that was written into an empty cell is taken out again. -/
theorem erase_eq (hc : b.get c = none) (hd : o.allows c d = true)
    (hboard : s.board = b.set c (some d)) (hoccupancy : s.occupancy = o.place c d) :
    erase c d s = .ok () { s with board := b, occupancy := o } := by
  have hboard' : s.board.set c none = b := by rw [hboard, Board.set_set_none hc]
  have hoccupancy' : s.occupancy.remove c d = o := by
    rw [hoccupancy, Occupancy.remove_place hd]
  rw [← hboard', ← hoccupancy']
  rfl

/-- Counting leaves the board alone, and goes on unless a counter is full. -/
theorem Ends.count_bind {f : Stats → Except Fault Stats} (hf : AlgorithmX.Counts f)
    {g : Unit → Run Bool}
    (h : ∀ s', s'.board = s.board → s'.occupancy = s.occupancy →
      Ends maxNodes b o cells (g () s')) :
    Ends maxNodes b o cells ((count f >>= g) s) := by
  cases hst : f s.stats with
  | ok stats =>
    have hcount : count f s = .ok () { s with stats } := by rw [count_eq, hst]
    rw [bind_of_ok hcount]
    exact h _ rfl rfl
  | error cause =>
    have hcount : count f s = .error (.fault cause) s := by rw [count_eq, hst]
    rw [bind_of_error hcount]
    obtain ⟨rfl, hfull⟩ := hf _ _ hst
    exact .inr ⟨rfl, hfull⟩

/-- Entering a node leaves the board alone, and goes on within the limit of nodes. -/
theorem Ends.enter_bind {g : Unit → Run Bool}
    (h : ∀ s', s'.board = s.board → s'.occupancy = s.occupancy →
      Ends maxNodes b o cells (g () s')) :
    Ends maxNodes b o cells ((enter maxNodes depth >>= g) s) := by
  rw [enter, bind_assoc]
  refine .count_bind (.enter depth) fun s' hboard hoccupancy => ?_
  rw [bind_assoc, bind_of_ok (x := get) rfl]
  cases hlimit : s'.stats.exceeds maxNodes with
  | none => exact h s' hboard hoccupancy
  | some limit =>
    rw [Stats.exceeds, Option.filter_eq_some_iff] at hlimit
    exact .inl ⟨limit, hlimit.1, rfl⟩

/-- Filling the cells behind the first one with a digit in it fills all of them. -/
private theorem Ends.cons_of_true (h : s.Open (c :: cells)) (hd : s.occupancy.allows c d = true)
    (hbelow : Ends maxNodes (s.board.set c (some d)) (s.occupancy.place c d) cells (.ok true s'))
    (hleast : ∀ t, s.board.Completes (c :: cells) t → ∃ e, t.get c = some e ∧ d ≤ e) :
    Ends maxNodes s.board s.occupancy (c :: cells) (.ok true s') := by
  -- the first digit is on the board below already, and stays there
  obtain ⟨htracks, hcomplete, hsame, hmin⟩ := hbelow
  have hc : s.board.get c = none := h.empty c (List.mem_cons_self ..)
  have hget : s'.board.get c = some d := hcomplete.keeps c d (Board.get_set_self ..)
  refine ⟨htracks, ⟨hcomplete.consistent, fun c' e he => ?_, fun c' hc' => ?_⟩, fun c' hc' => ?_,
    fun t ht => ?_⟩
  · have hne : c ≠ c' := fun heq => by simp [← heq, hc] at he
    exact hcomplete.keeps c' e (by rwa [Board.get_set_ne _ _ hne])
  · rcases List.mem_cons.mp hc' with rfl | hc'
    · exact ⟨d, hget⟩
    · exact hcomplete.filled c' hc'
  · rw [List.mem_cons, not_or] at hc'
    rw [hsame c' hc'.2, Board.get_set_ne _ _ (Ne.symm hc'.1)]
  · -- the first digit is the least one, and behind it the others are
    obtain ⟨e, he, hle⟩ := hleast t ht
    simp only [Board.valuesAt, List.map_cons, hget, he, Board.cons_le_cons_iff]
    rcases lt_or_eq_of_le hle with hlt | rfl
    · exact .inl (Nat.succ_lt_succ hlt)
    · exact .inr ⟨rfl, hmin t (ht.tail he)⟩

/-- The digits of a cell are tried in ascending order. -/
theorem tryDigits_ends {below : Run Bool} (h : s.Open (c :: cells))
    (hsorted : digits.Pairwise (· < ·))
    (hrest : ∀ t, s.board.Completes (c :: cells) t → ∃ d ∈ digits, t.get c = some d)
    (hbelow : ∀ s, s.Open cells → Ends maxNodes s.board s.occupancy cells (below s)) :
    Ends maxNodes s.board s.occupancy (c :: cells) (tryDigits below c digits s) := by
  -- induction on the digits not tried yet, of which any completed board has one
  induction digits generalizing s with
  | nil =>
    refine ⟨rfl, rfl, fun t ht => ?_⟩
    obtain ⟨d, hd, -⟩ := hrest t ht
    exact List.not_mem_nil hd
  | cons d digits ih =>
    rw [List.pairwise_cons] at hsorted
    rw [tryDigits, bind_of_ok (x := get) rfl]
    -- without `d` one of the digits behind it is left
    have hskip : (∀ t, s.board.Completes (c :: cells) t → t.get c ≠ some d) →
        ∀ t, s.board.Completes (c :: cells) t → ∃ e ∈ digits, t.get c = some e := by
      intro hnot t ht
      obtain ⟨e, he, hte⟩ := hrest t ht
      rcases List.mem_cons.mp he with rfl | he
      · exact absurd hte (hnot t ht)
      · exact ⟨e, he, hte⟩
    have hc : s.board.get c = none := h.empty c (List.mem_cons_self ..)
    -- the digit fits: it is written, and the cells behind are filled
    by_cases hd : s.occupancy.allows c d = true
    · rw [if_pos hd]
      let s₁ : Filling :=
        { s with board := s.board.set c (some d), occupancy := s.occupancy.place c d }
      have hwrite : write c d s = .ok () s₁ := rfl
      rw [bind_of_ok hwrite]
      have hends := hbelow s₁ (h.write hd)
      cases hx : below s₁ with
      | error e s₂ =>
        rw [hx] at hends
        rw [bind_of_error hx]
        exact hends
      | ok full s₂ =>
        rw [hx] at hends
        rw [bind_of_ok hx]
        cases full with
        | true =>
          -- a completed board has this digit or a later one
          refine .cons_of_true h hd hends fun t ht => ?_
          obtain ⟨e, he, hte⟩ := hrest t ht
          rcases List.mem_cons.mp he with rfl | he
          · exact ⟨e, hte, le_rfl⟩
          · exact ⟨e, hte, (hsorted.1 e he).le⟩
        | false =>
          -- the digit is taken out, and all is as before
          obtain ⟨hboard, hoccupancy, hnone⟩ := hends
          rw [if_neg Bool.false_ne_true, bind_of_ok (erase_eq hc hd hboard hoccupancy)]
          refine .count_bind .backtrack fun s₃ hboard₃ hoccupancy₃ => ?_
          have hopen := h.of_eq hboard₃ hoccupancy₃
          have hends₃ := ih hopen hsorted.2 (by
            rw [hboard₃]
            exact hskip fun t ht htd => hnone t (ht.tail htd))
          rwa [hboard₃, hoccupancy₃] at hends₃
    -- the digit does not fit, so no completed board has it
    · rw [if_neg hd]
      exact ih h hsorted.2 (hskip fun t ht htd => hd (ht.allows h.tracks hc htd))

/-- The cells are filled in the least way there is, or there is none and nothing has changed. -/
theorem fill_ends (maxNodes : Option Nat) (depth : Nat) (h : s.Open cells) :
    Ends maxNodes s.board s.occupancy cells (fill maxNodes cells depth s) := by
  -- induction on the empty cells
  induction cells generalizing depth s with
  -- no cell is left: the board is completed as it is
  | nil =>
    rw [fill]
    refine .enter_bind fun s₁ hboard₁ hoccupancy₁ => ?_
    refine .count_bind .solve fun s₂ hboard₂ hoccupancy₂ => ?_
    have hboard : s₂.board = s.board := hboard₂.trans hboard₁
    have hopen := h.of_eq hboard (hoccupancy₂.trans hoccupancy₁)
    refine ⟨hopen.tracks, ⟨hopen.consistent, fun c d hd => by rwa [hboard], by simp⟩,
      fun c _ => by rw [hboard], fun t _ => le_rfl⟩
  | cons c cells ih =>
    -- the digits of the first cell are all digits that there are
    rw [fill]
    refine .enter_bind fun s₁ hboard hoccupancy => ?_
    have hopen := h.of_eq hboard hoccupancy
    have hall : ∀ t, s₁.board.Completes (c :: cells) t → ∃ d ∈ Digit.all, t.get c = some d := by
      intro t ht
      obtain ⟨d, hd⟩ := ht.filled c (List.mem_cons_self ..)
      exact ⟨d, List.mem_finRange d, hd⟩
    have hends := tryDigits_ends hopen (List.pairwise_lt_finRange 9) hall fun s hs =>
      ih (depth + 1) hs
    rwa [hboard, hoccupancy] at hends

end Filling
end ExactCover.Sudoku
