import ExactCover.Proofs.Sudoku.Filling

/-!
# Filling takes back what it has tried

The flags of a digit are cleared when it is taken out of a cell, whoever has set them. This is right
because no other cell has set them: at every call the digits in use are those on the board, none of
them clash, and the cells still to be filled are empty. So a call that does not fill its cells
leaves the board and the digits in use as they were.

## Key results

- `Occupancy.ofBoard?_eq_some_iff`: the digits in use that match a board
- `Filling.tryDigits_congr`: what the calls for the next cell are relied on for
- `Filling.fillTested_eq`: no call finds the digits in use out of step with the board
- `Filling.fill_restores`: what a call leaves behind
-/

namespace ExactCover.Sudoku

/-! ## One occupancy for each board -/

namespace Occupancy

variable {o o' : Occupancy} {b : Board}

/-- Digits in use are known by the flags of the houses. -/
private theorem ext_flag (h : ∀ k d, o.flag k d = o'.flag k d) : o = o' := by
  -- each flag is that of some unit and some digit
  have hvector : ∀ v w : Vector Bool 81, (∀ i d, v[bit i d] = w[bit i d]) → v = w := by
    intro v w hvw
    refine Vector.ext fun j hj => ?_
    have hbit : (bit ⟨j / 9, by omega⟩ ⟨j % 9, by omega⟩).val = j := by
      simp only [bit]
      omega
    simpa only [Fin.getElem_fin, hbit] using hvw ⟨j / 9, by omega⟩ ⟨j % 9, by omega⟩
  obtain ⟨rows, cols, boxes⟩ := o
  obtain ⟨rows', cols', boxes'⟩ := o'
  rw [mk.injEq]
  exact ⟨hvector _ _ fun i d => h (.row i) d, hvector _ _ fun i d => h (.col i) d,
    hvector _ _ fun i d => h (.box i) d⟩

/-- The digits in use on a board without a clash are those on it. -/
theorem ofBoard?_eq_some_iff : ofBoard? b = some o ↔ b.isConsistent = true ∧ o.Tracks b := by
  constructor
  · intro h
    refine ⟨?_, tracks_of_ofBoard? h⟩
    rw [Board.isConsistent, h]
    rfl
  · rintro ⟨hb, ho⟩
    -- without a clash there is one occupancy, and it has the same flags
    obtain ⟨o', ho'⟩ := Option.isSome_iff_exists.mp hb
    rw [ho', Option.some.injEq]
    exact ext_flag fun k d => Bool.eq_iff_iff.mpr
      ((tracks_of_ofBoard? ho' k d).trans (ho k d).symm)

end Occupancy

namespace Filling

variable {maxNodes : Option Nat} {c : Cell} {d : Digit} {cells : List Cell} {digits : List Digit}
  {s s' : Filling} {depth : Nat} {other : Run Bool}

/-- Open cells can be tested. -/
private theorem open_iff :
    s.Open cells ↔ Occupancy.ofBoard? s.board = some s.occupancy ∧ cells.Nodup ∧
    ∀ c ∈ cells, s.board.get c = none := by
  rw [Occupancy.ofBoard?_eq_some_iff]
  exact ⟨fun h => ⟨⟨h.consistent, h.tracks⟩, h.nodup, h.empty⟩, fun h => ⟨h.1.2, h.1.1, h.2.1, h.2.2⟩⟩

instance : Decidable (s.Open cells) := decidable_of_iff _ open_iff.symm

/-! ## Filling with a test at each call -/

/-- Fills cells as `fill` does. But each call begins with a test whether the digits in use are those
    on the board, none of them clash, and its cells are empty, and does `other` if this fails. -/
def fillTested (maxNodes : Option Nat) (other : Run Bool) : List Cell → Nat → Run Bool
  | [], depth => do
    if (← get).Open [] then
      enter maxNodes depth
      count (·.solve)
      return true
    else
      other
  | c :: blanks, depth => do
    if (← get).Open (c :: blanks) then
      enter maxNodes depth
      tryDigits (fillTested maxNodes other blanks (depth + 1)) c Digit.all
    else
      other

/-- Counting changes the counters only. -/
private theorem of_count_eq_ok {f : Stats → Except Fault Stats} (h : count f s = .ok () s') :
    s'.board = s.board ∧ s'.occupancy = s.occupancy := by
  rw [count_eq] at h
  split at h
  · cases h
    exact ⟨rfl, rfl⟩
  · exact nomatch h

/-- Entering a node changes the counters only. -/
private theorem of_enter_eq_ok (h : enter maxNodes depth s = .ok () s') :
    s'.board = s.board ∧ s'.occupancy = s.occupancy := by
  rw [enter_eq] at h
  split at h
  · exact nomatch h
  · split at h
    · exact nomatch h
    · cases h
      exact ⟨rfl, rfl⟩

/-- The calls for the cells behind the first one are made with these cells open, so they need agree
    there only. -/
theorem tryDigits_congr {below below' : Run Bool} (h : s.Open (c :: cells))
    (hends : ∀ s, s.Open cells → Ends maxNodes s.board s.occupancy cells (below s))
    (hbelow : ∀ s, s.Open cells → below' s = below s) :
    tryDigits below' c digits s = tryDigits below c digits s := by
  -- induction on the digits: after each of them the board is as it was
  induction digits generalizing s with
  | nil => rfl
  | cons d digits ih =>
    rw [tryDigits, tryDigits, bind_of_ok (x := get) rfl, bind_of_ok (x := get) rfl]
    -- a digit that fits is written on both sides, and the cells behind are open
    by_cases hd : s.occupancy.allows c d = true
    · rw [if_pos hd, if_pos hd]
      refine bind_congr_of_ok rfl fun _ s₁ hs₁ => ?_
      cases hs₁
      have hopen := h.write hd
      refine bind_congr_of_ok (hbelow _ hopen) fun full s₂ hs₂ => ?_
      cases full with
      | true => rfl
      | false =>
        -- the digit is taken out, and the cells are open again
        have hends₂ := hends _ hopen
        rw [hs₂] at hends₂
        obtain ⟨hboard, hoccupancy, -⟩ := hends₂
        have herase := erase_eq (h.empty c (List.mem_cons_self ..)) hd hboard hoccupancy
        rw [if_neg Bool.false_ne_true, if_neg Bool.false_ne_true, bind_of_ok herase,
          bind_of_ok herase]
        refine bind_congr_of_ok rfl fun _ s₃ hs₃ => ?_
        obtain ⟨hboard₃, hoccupancy₃⟩ := of_count_eq_ok hs₃
        exact ih (h.of_eq hboard₃ hoccupancy₃)
    · rw [if_neg hd, if_neg hd]
      exact ih h

/-- No test fails, if that of the first call does not. -/
theorem fillTested_eq (h : s.Open cells) :
    fillTested maxNodes other cells depth s = fill maxNodes cells depth s := by
  -- induction on the cells: the cells behind the first one are open when it has been filled
  induction cells generalizing depth s with
  | nil => rw [fillTested, bind_of_ok (x := get) rfl, if_pos h, fill]
  | cons c cells ih =>
    rw [fillTested, bind_of_ok (x := get) rfl, if_pos h, fill]
    refine bind_congr_of_ok rfl fun _ s₁ hs₁ => ?_
    obtain ⟨hboard, hoccupancy⟩ := of_enter_eq_ok hs₁
    exact tryDigits_congr (h.of_eq hboard hoccupancy) (fun s => fill_ends maxNodes (depth + 1))
      fun s hs => ih hs

/-! ## What a call leaves behind -/

/-- A call that does not fill its cells leaves the board and the digits in use as they were. A call
    that does changes these cells only, to digits that do not clash, and the digits in use are those
    on the board again. The digits in use are those on the board at every further call: if such a
    call did anything else where they are not, it would make no difference. -/
theorem fill_restores (maxNodes : Option Nat) (blanks : List Cell) (depth : Nat)
    (h : s.Open (blanks.drop depth)) :
    (match fill maxNodes (blanks.drop depth) depth s with
      | .ok false s' => s'.board = s.board ∧ s'.occupancy = s.occupancy
      | .ok true s' => (∀ c ∈ blanks.drop depth, ∃ d, s'.board.get c = some d) ∧
          (∀ c ∉ blanks.drop depth, s'.board.get c = s.board.get c) ∧
          s'.board.isConsistent = true ∧ s'.occupancy.Tracks s'.board
      | .error e s' => Limited maxNodes e s'.stats) ∧
    ∀ other : Run Bool, fillTested maxNodes other (blanks.drop depth) depth s =
      fill maxNodes (blanks.drop depth) depth s := by
  refine ⟨?_, fun _ => fillTested_eq h⟩
  have hends := fill_ends maxNodes depth h
  match fill maxNodes (blanks.drop depth) depth s, hends with
  | .ok false s', ⟨hboard, hoccupancy, _⟩ => exact ⟨hboard, hoccupancy⟩
  | .ok true s', ⟨htracks, hcomplete, hsame, _⟩ =>
    exact ⟨hcomplete.filled, hsame, hcomplete.consistent, htracks⟩
  | .error e s', hlimited => exact hlimited

/-- Eight digits stand in the row of the second cell and the ninth in its column, so it cannot be
    filled. The first cell has been filled before. -/
theorem fill_restores_dead_end :
    let b := (Board.ofList [some 7, none, some 0, some 1, some 2, some 3, some 4, some 5,
      some 6]).set ⟨5, 1⟩ (some 8)
    let blanks : List Cell := [⟨0, 0⟩, ⟨0, 1⟩]
    ∃ o s', Occupancy.ofBoard? b = some o ∧
      fill (some 5) (blanks.drop 1) 1 { board := b, occupancy := o } = .ok false s' ∧
      s'.board = b ∧ s'.occupancy = o ∧
      ∀ other : Run Bool, fillTested (some 5) other (blanks.drop 1) 1
        { board := b, occupancy := o } = .ok false s' := by
  intro b blanks
  have hcons : b.isConsistent = true := by decide +kernel
  obtain ⟨o, ho⟩ := Option.isSome_iff_exists.mp hcons
  let s : Filling := { board := b, occupancy := o }
  have hempty : ∀ c ∈ blanks.drop 1, b.get c = none := by decide +kernel
  have hopen : s.Open (blanks.drop 1) := open_iff.mpr ⟨ho, by decide, hempty⟩
  have hrun : (Occupancy.ofBoard? b).map (fun o =>
      (fill (some 5) (blanks.drop 1) 1).run' { board := b, occupancy := o }) =
        some (some false) := by decide +kernel
  rw [ho, Option.map_some, Option.some.injEq] at hrun
  obtain ⟨hends, htested⟩ := fill_restores (some 5) blanks 1 hopen
  obtain ⟨s', hs'⟩ := exists_of_run'_eq_some hrun
  rw [hs'] at hends htested
  exact ⟨o, s', ho, hs', hends.1, hends.2, htested⟩

end Filling
end ExactCover.Sudoku
