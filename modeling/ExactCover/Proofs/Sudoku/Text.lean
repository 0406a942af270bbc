import ExactCover.Proofs.Matrix.Walk
import ExactCover.Sudoku.Text.Puzzle

/-!
# The text format

The format of puzzles is given here as a grammar, apart from the parser: what a character says,
what cells a line holds, and what is at fault with a line. Faults are looked for line by line, and
the parser gives exactly the answer of the grammar, for every sequence of bytes.

## Key results

- `lineCells_append`, `cells_append`: what has been read without a fault only counts its cells
- `parseBytes_eq_iff`: the parser gives the answer of the grammar
-/

namespace ExactCover.Sudoku

/-- The cells that a glyph stands for. -/
def Glyph.contents : Glyph → List (Option Digit)
  | cell content => [content]
  | filler => []

/-- The cells of a board are those of the list it is made from. -/
theorem Board.ofList_eq {b : Board} {l : List (Option Digit)}
    (h : ∀ i : Fin 81, l[i.val]? = some (b.get (Cell.ofIndex i))) : Board.ofList l = b := by
  obtain ⟨cells⟩ := b
  rw [Board.ofList, Board.mk.injEq]
  refine Vector.ext fun i hi => ?_
  have hcell := h ⟨i, hi⟩
  simp only [Board.get, Cell.index_ofIndex] at hcell
  rw [Vector.getElem_ofFn, hcell]
  rfl

namespace Puzzle

/-! ## The grammar -/

/-- A character that has a place in a puzzle, and the cells it stands for. -/
inductive Says : Char → List (Option Digit) → Prop where
  | given (d : Digit) : Says (Digit.toChar d) [some d]
  | empty {c : Char} (h : c ∈ ['0', '.', '_']) : Says c [none]
  | separator {c : Char} (h : c ∈ ['|', '-', '+']) : Says c []
  | blank {c : Char} (h : isBlank c = true) : Says c []

/-- Each character has a place in a puzzle, and together they stand for the cells. -/
inductive Spells : List Char → List (Option Digit) → Prop where
  | nil : Spells [] []
  | cons {c : Char} {text : List Char} {here rest : List (Option Digit)} (h : Says c here)
      (htext : Spells text rest) : Spells (c :: text) (here ++ rest)

/-- Nothing but blanks stands before a `c` or a `#`. -/
def IsComment (text : List Char) : Prop :=
  ∃ blanks c rest, text = blanks ++ c :: rest ∧ (∀ b ∈ blanks, isBlank b = true) ∧
    (c = 'c' ∨ c = '#')

/-- The bytes of a text in UTF-8. -/
def Encodes (text : List Char) (line : List UInt8) : Prop :=
  text.flatMap String.utf8EncodeChar = line

/-- A line without fault, and the cells it holds. -/
inductive ReadsLine : List UInt8 → List (Option Digit) → Prop where
  | comment {text : List Char} {line : List UInt8} (h : Encodes text line)
      (hcomment : IsComment text) : ReadsLine line []
  | cells {text : List Char} {line : List UInt8} {contents : List (Option Digit)}
      (h : Encodes text line) (hcomment : ¬ IsComment text) (hspells : Spells text contents) :
      ReadsLine line contents

/-- The fault of a line that follows after `position` cells: it is no valid UTF-8, or it is no
    comment and has a character without a place in a puzzle, of which the first counts. -/
inductive FaultyLine (position : Nat) : List UInt8 → ParseError → Prop where
  | notUtf8 {line : List UInt8} (h : ∀ text, ¬ Encodes text line) :
      FaultyLine position line invalidUtf8
  | character {before after : List Char} {c : Char} {line : List UInt8}
      {contents : List (Option Digit)} (h : Encodes (before ++ c :: after) line)
      (hcomment : ¬ IsComment (before ++ c :: after)) (hspells : Spells before contents)
      (hc : ∀ here, ¬ Says c here) :
      FaultyLine position line (.invalidCharacter (position + contents.length) c)

/-- The lines of some bytes end at line feeds. A last piece that is empty is no line. -/
def linesOf (bytes : List UInt8) : List (List UInt8) :=
  let pieces := bytes.splitOn 10
  if pieces.getLast? = some [] then pieces.dropLast else pieces

/-- The answer to some bytes: the first line at fault decides, then the number of cells. -/
inductive Answers (bytes : ByteArray) : Except ParseError Board → Prop where
  | fault {before after : List (List UInt8)} {line : List UInt8}
      {contents : List (List (Option Digit))} {e : ParseError}
      (h : linesOf bytes.data.toList = before ++ line :: after)
      (hbefore : List.Forall₂ ReadsLine before contents)
      (hline : FaultyLine contents.flatten.length line e) : Answers bytes (.error e)
  | count {contents : List (List (Option Digit))}
      (h : List.Forall₂ ReadsLine (linesOf bytes.data.toList) contents)
      (hcount : contents.flatten.length ≠ 81) :
      Answers bytes (.error (.wrongCellCount contents.flatten.length))
  | board {contents : List (List (Option Digit))} {b : Board}
      (h : List.Forall₂ ReadsLine (linesOf bytes.data.toList) contents)
      (hcount : contents.flatten.length = 81)
      (hb : ∀ i : Fin 81, contents.flatten[i.val]? = some (b.get (Cell.ofIndex i))) :
      Answers bytes (.ok b)

/-! ## Characters -/

variable {c : Char} {position : Nat} {text before after : List Char} {line : List UInt8}
  {here contents : List (Option Digit)} {e : ParseError}

/-- A blank is no other character of a puzzle. -/
private theorem ofChar?_of_isBlank (h : isBlank c = true) : Glyph.ofChar? c = some .filler := by
  -- blanks are none of the other characters
  have hnat : ∀ k : Char, isBlank k = false → c ≠ k := by
    rintro _ hk rfl
    exact Bool.false_ne_true (hk.symm.trans h)
  have hdigit : ¬ ('1' ≤ c ∧ c ≤ '9') := by
    rintro ⟨hlow, hhigh⟩
    have hlow : 0x31 ≤ c.toNat := hlow
    have hhigh : c.toNat ≤ 0x39 := hhigh
    simp only [isBlank, blankRanges, List.any_cons, List.any_nil, Bool.or_false, Bool.or_eq_true,
      Bool.and_eq_true, decide_eq_true_eq] at h
    omega
  rw [Glyph.ofChar?, if_neg hdigit, if_neg, h, if_pos rfl, ite_self]
  rintro (hc | hc | hc) <;> exact hnat _ (by decide) hc

/-- The grammar of characters is that of their glyphs. -/
theorem says_iff : Says c here ↔ ∃ g, Glyph.ofChar? c = some g ∧ g.contents = here := by
  constructor
  · rintro (d | h | h | h)
    · refine ⟨.cell (some d), ?_, rfl⟩
      revert d
      decide
    · simp only [List.mem_cons, List.not_mem_nil, or_false] at h
      rcases h with rfl | rfl | rfl <;> exact ⟨.cell none, rfl, rfl⟩
    · simp only [List.mem_cons, List.not_mem_nil, or_false] at h
      rcases h with rfl | rfl | rfl <;> exact ⟨.filler, rfl, rfl⟩
    · exact ⟨.filler, ofChar?_of_isBlank h, rfl⟩
  · rintro ⟨g, hg, rfl⟩
    -- the reader asks for a digit, an empty cell, a separator and a blank, in this order
    rw [Glyph.ofChar?] at hg
    split at hg
    next h =>
      -- one of the nine digits
      cases hg
      have hlow : 0x31 ≤ c.toNat := h.1
      have hhigh : c.toNat ≤ 0x39 := h.2
      have hsub : c.toNat - '0'.toNat = c.toNat - 48 := rfl
      have hvalue : Digit.ofValue? (c.toNat - '0'.toNat) = some ⟨c.toNat - 49, by omega⟩ := by
        rw [hsub, Digit.ofValue?, dif_pos (by omega)]
        rfl
      have hchar : Digit.toChar ⟨c.toNat - 49, by omega⟩ = c := by
        have hsum : '0'.toNat + Digit.value ⟨c.toNat - 49, by omega⟩ = c.toNat := by
          show 48 + (c.toNat - 49 + 1) = c.toNat
          omega
        rw [Digit.toChar, hsum, Char.ofNat_toNat]
      have hsays := Says.given ⟨c.toNat - 49, by omega⟩
      rwa [hchar, ← hvalue] at hsays
    next =>
    split at hg
    next h =>
      cases hg
      exact .empty (by simpa using h)
    next =>
    split at hg
    next h =>
      cases hg
      exact .separator (by simpa using h)
    next =>
    split at hg
    next h =>
      cases hg
      exact .blank h
    next => exact nomatch hg

/-! ## Lines of characters -/

/-- A comment is found behind its blanks. -/
private theorem isComment_iff : isComment text = true ↔ IsComment text := by
  rw [isComment]
  constructor
  · intro h
    split at h
    next c rest hdrop =>
      refine ⟨text.takeWhile isBlank, c, rest, ?_, List.all_eq_true.mp List.all_takeWhile, ?_⟩
      · rw [← hdrop, List.takeWhile_append_dropWhile]
      · simpa using h
    next => exact nomatch h
  · rintro ⟨blanks, c, rest, rfl, hblanks, hc⟩
    have hnot : isBlank c = false := by
      rcases hc with rfl | rfl <;> decide
    rw [List.dropWhile_append_of_pos hblanks, List.dropWhile_cons_of_neg (by simp [hnot])]
    simpa using hc

/-- A character of a puzzle is read. -/
private theorem lineCells_cons (h : Says c here) (position : Nat) (text : List Char) :
    lineCells position (c :: text) =
      (lineCells (position + here.length) text).map (here ++ ·) := by
  obtain ⟨g, hg, rfl⟩ := says_iff.mp h
  cases g with
  | filler =>
    simp only [lineCells, hg, Glyph.contents, List.length_nil, Nat.add_zero, List.nil_append]
    cases lineCells position text <;> rfl
  | cell content =>
    simp only [lineCells, hg, Glyph.contents, List.length_singleton, List.singleton_append]
    cases lineCells (position + 1) text <;> rfl

/-- What has been read without a fault only counts its cells. -/
theorem lineCells_append (h : Spells before contents) (position : Nat) (rest : List Char) :
    lineCells position (before ++ rest) =
      (lineCells (position + contents.length) rest).map (contents ++ ·) := by
  -- induction on the characters read, each of which stands for its cells
  induction h generalizing position with
  | nil =>
    simp only [List.nil_append, List.length_nil, Nat.add_zero]
    cases lineCells position rest <;> rfl
  | cons hc _ ih =>
    rw [List.cons_append, lineCells_cons hc, ih, List.length_append, Nat.add_assoc]
    cases lineCells _ rest <;> simp [Except.map]

/-- A text that spells cells is read to its end. -/
private theorem lineCells_of_spells (h : Spells text contents) (position : Nat) :
    lineCells position text = .ok contents := by
  have happend := lineCells_append h position []
  rw [List.append_nil] at happend
  rw [happend, lineCells, Except.map, List.append_nil]

/-- The first character without a place is reported. -/
private theorem lineCells_of_not_says (h : Spells before contents) (hc : ∀ here, ¬ Says c here)
    (position : Nat) (after : List Char) : lineCells position (before ++ c :: after) =
      .error (.invalidCharacter (position + contents.length) c) := by
  -- the reader knows no cells for the character
  have hnone : Glyph.ofChar? c = none := by
    cases hg : Glyph.ofChar? c with
    | none => rfl
    | some g => exact absurd (says_iff.mpr ⟨g, hg, rfl⟩) (hc _)
  rw [lineCells_append h, lineCells, hnone]
  rfl

/-- A text spells cells up to its end, or up to the first character without a place. -/
private theorem spells_or_not_says (text : List Char) : (∃ contents, Spells text contents) ∨
    ∃ before c after contents, text = before ++ c :: after ∧ Spells before contents ∧
      ∀ here, ¬ Says c here := by
  -- induction on the characters, up to the first one without a place
  induction text with
  | nil => exact .inl ⟨[], .nil⟩
  | cons c text ih =>
    by_cases hc : ∃ here, Says c here
    · obtain ⟨here, hc⟩ := hc
      rcases ih with ⟨contents, h⟩ | ⟨before, c', after, contents, rfl, h, hc'⟩
      · exact .inl ⟨_, .cons hc h⟩
      · exact .inr ⟨c :: before, c', after, _, rfl, .cons hc h, hc'⟩
    · exact .inr ⟨[], c, text, [], rfl, .nil, not_exists.mp hc⟩

/-! ## Lines of bytes -/

/-- A text has these bytes if its encoding has. -/
private theorem encodes_iff : Encodes text line ↔ text.utf8Encode = ⟨line.toArray⟩ := by
  simp [Encodes, ByteArray.ext_iff, List.utf8Encode]

/-- Bytes are read as the text that they encode. -/
theorem decode_eq_some_iff : decode line = some text ↔ Encodes text line := by
  rw [decode, String.fromUTF8?, Option.map_eq_some_iff, encodes_iff]
  constructor
  · rintro ⟨s, hs, rfl⟩
    split at hs
    next h =>
      cases hs
      exact String.utf8Encode_toList
    next => exact nomatch hs
  · intro h
    -- the bytes determine the string
    have hvalid : ByteArray.IsValidUTF8 ⟨line.toArray⟩ := .intro text h.symm
    have hs : String.fromUTF8 ⟨line.toArray⟩ hvalid = String.ofList text := by
      rw [← String.toByteArray_inj, String.toByteArray_ofList, h]
      rfl
    refine ⟨_, dif_pos hvalid, ?_⟩
    rw [hs, String.toList_ofList]

/-- Bytes that encode no text are not read. -/
private theorem decode_eq_none (h : ∀ text, ¬ Encodes text line) : decode line = none := by
  cases hdecode : decode line with
  | none => rfl
  | some text => exact absurd (decode_eq_some_iff.mp hdecode) (h text)

/-- A line without fault is read. -/
private theorem cells_cons (h : ReadsLine line here) (position : Nat)
    (lines : List (Option (List Char))) : cells position (decode line :: lines) =
      (cells (position + here.length) lines).map (here ++ ·) := by
  cases h with
  | comment henc hcomment =>
    simp only [decode_eq_some_iff.mpr henc, cells, isComment_iff.mpr hcomment, if_true,
      List.length_nil, Nat.add_zero, List.nil_append]
    cases cells position lines <;> rfl
  | cells henc hcomment hspells =>
    rw [← isComment_iff] at hcomment
    simp only [decode_eq_some_iff.mpr henc, cells, hcomment, lineCells_of_spells hspells, ok_bind]
    cases cells (position + here.length) lines <;> rfl

/-- A line at fault is reported. -/
private theorem cells_of_faulty (h : FaultyLine position line e)
    (lines : List (Option (List Char))) :
    cells position (decode line :: lines) = .error e := by
  cases h with
  | notUtf8 h => rw [decode_eq_none h, cells]
  | character henc hcomment hspells hc =>
    rw [← isComment_iff] at hcomment
    simp only [decode_eq_some_iff.mpr henc, cells, hcomment, lineCells_of_not_says hspells hc]
    rfl

/-- A line is at fault or not. -/
private theorem readsLine_or_faultyLine (position : Nat) (line : List UInt8) :
    (∃ contents, ReadsLine line contents) ∨ ∃ e, FaultyLine position line e := by
  -- no text, a comment, cells, or a character without a place
  by_cases henc : ∃ text, Encodes text line
  · obtain ⟨text, henc⟩ := henc
    by_cases hcomment : IsComment text
    · exact .inl ⟨[], .comment henc hcomment⟩
    · rcases spells_or_not_says text with ⟨contents, h⟩ | ⟨before, c, after, contents, rfl, h, hc⟩
      · exact .inl ⟨contents, .cells henc hcomment h⟩
      · exact .inr ⟨_, .character henc hcomment h hc⟩
  · exact .inr ⟨_, .notUtf8 (not_exists.mp henc)⟩

variable {lines earlier : List (List UInt8)} {found : List (List (Option Digit))}

/-- Lines that have been read without a fault only count their cells. -/
theorem cells_append (h : List.Forall₂ ReadsLine earlier found) (position : Nat)
    (rest : List (Option (List Char))) : cells position (earlier.map decode ++ rest) =
      (cells (position + found.flatten.length) rest).map (found.flatten ++ ·) := by
  -- induction on the lines read, each of which has its cells
  induction h generalizing position with
  | nil =>
    simp only [List.map_nil, List.nil_append, List.flatten_nil, List.length_nil, Nat.add_zero]
    cases cells position rest <;> rfl
  | cons hline _ ih =>
    rw [List.map_cons, List.cons_append, cells_cons hline, ih, List.flatten_cons,
      List.length_append, Nat.add_assoc]
    cases cells _ rest <;> simp [Except.map]

/-- Lines without a fault are read to the end. -/
theorem cells_of_forall₂ (h : List.Forall₂ ReadsLine lines found) (position : Nat) :
    cells position (lines.map decode) = .ok found.flatten := by
  have happend := cells_append h position []
  rw [List.append_nil] at happend
  rw [happend, cells, Except.map, List.append_nil]

/-- All lines are without fault, or there is a first one at fault. -/
private theorem forall₂_or_faultyLine (lines : List (List UInt8)) :
    (∃ found, List.Forall₂ ReadsLine lines found) ∨
    ∃ earlier line later found e, lines = earlier ++ line :: later ∧
      List.Forall₂ ReadsLine earlier found ∧ FaultyLine found.flatten.length line e := by
  -- the last line is looked at last, when all cells before it are known
  induction lines using List.reverseRecOn with
  | nil => exact .inl ⟨[], .nil⟩
  | append_singleton lines line ih =>
    rcases ih with ⟨found, h⟩ | ⟨earlier, line', later, found, e, rfl, h, hline⟩
    · rcases readsLine_or_faultyLine found.flatten.length line with ⟨contents, hline⟩ | ⟨e, hline⟩
      · exact .inl ⟨found ++ [contents], List.rel_append h (.cons hline .nil)⟩
      · exact .inr ⟨lines, line, [], found, e, rfl, h, hline⟩
    · exact .inr ⟨earlier, line', later ++ [line], found, e, by simp, h, hline⟩

/-! ## Bytes -/

/-- The parser takes the pieces between line feeds, without a last one that is empty. -/
private theorem splitAfter_eq (bytes : List UInt8) : splitAfter 10 bytes = linesOf bytes := by
  -- induction on the bytes: a byte goes to the first piece, or it ends an empty one
  induction bytes with
  | nil => rfl
  | cons b bytes ih =>
    have hne : bytes.splitOn 10 ≠ [] := List.splitOn_ne_nil 10 bytes
    have hsplit : (b :: bytes).splitOn 10 = if b = 10 then [] :: bytes.splitOn 10
        else (bytes.splitOn 10).modifyHead (b :: ·) := by
      simp only [List.splitOn, List.splitOnP_cons_eq_if_modifyHead, beq_iff_eq]
    simp only [splitAfter, ih, linesOf, hsplit]
    obtain ⟨piece, pieces, hpieces⟩ := List.exists_cons_of_ne_nil hne
    rw [hpieces]
    by_cases hb : b = 10
    · -- the line feed ends an empty piece in front of the others
      simp only [if_pos hb, List.getLast?_cons_cons, List.dropLast_cons_cons]
      split <;> rfl
    · simp only [if_neg hb, List.modifyHead_cons]
      cases pieces with
      | nil => cases piece <;> simp
      | cons next pieces =>
        simp only [List.getLast?_cons_cons, List.dropLast_cons_cons]
        by_cases hlast : (next :: pieces).getLast? = some []
        · simp only [if_pos hlast]
        · simp only [if_neg hlast]

/-- The parser reads the lines one after the other. -/
private theorem parseBytes_eq (bytes : ByteArray) :
    parseBytes bytes = ofLines ((linesOf bytes.data.toList).map decode) := by
  rw [parseBytes, splitAfter_eq]

/-- The answer of the grammar is the answer of the parser. -/
private theorem Answers.eq {bytes : ByteArray} {r : Except ParseError Board} (h : Answers bytes r) :
    parseBytes bytes = r := by
  rw [parseBytes_eq, ofLines]
  cases h with
  | fault h hbefore hline =>
    rw [h, List.map_append, List.map_cons, cells_append hbefore, Nat.zero_add,
      cells_of_faulty hline]
    rfl
  | count h hcount =>
    rw [cells_of_forall₂ h, ok_bind, if_neg hcount]
    rfl
  | board h hcount hb =>
    rw [cells_of_forall₂ h, ok_bind, if_pos hcount, Board.ofList_eq hb]
    rfl

/-- The grammar has an answer to all bytes. -/
private theorem exists_answers (bytes : ByteArray) : ∃ r, Answers bytes r := by
  rcases forall₂_or_faultyLine (linesOf bytes.data.toList) with
    ⟨found, h⟩ | ⟨earlier, line, later, found, e, hlines, h, hline⟩
  · by_cases hcount : found.flatten.length = 81
    · refine ⟨.ok (Board.ofList found.flatten), .board h hcount fun i => ?_⟩
      have hi : i.val < found.flatten.length := by omega
      simp only [Board.get, Board.ofList, Cell.index_ofIndex, Fin.getElem_fin, Vector.getElem_ofFn,
        List.getElem?_eq_getElem hi]
      rfl
    · exact ⟨_, .count h hcount⟩
  · exact ⟨_, .fault hlines h hline⟩

/-- The parser gives the answer of the grammar to every sequence of bytes: the fault of the first
    line at fault, and without such a line the number of cells, if it is not 81, or else the board
    with these cells. -/
theorem parseBytes_eq_iff (bytes : ByteArray) (r : Except ParseError Board) :
    parseBytes bytes = r ↔ Answers bytes r := by
  refine ⟨fun h => ?_, Answers.eq⟩
  obtain ⟨r', hr'⟩ := exists_answers bytes
  rw [← h, hr'.eq]
  exact hr'

end Puzzle
end ExactCover.Sudoku
