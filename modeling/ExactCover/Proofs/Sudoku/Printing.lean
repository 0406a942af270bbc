import ExactCover.Proofs.Sudoku.House
import ExactCover.Proofs.Sudoku.Text
import ExactCover.Proofs.Utf8
import ExactCover.Sudoku.Board.Text

/-!
# Printed boards are read back

The line of a board may be decorated before it is read: empty cells may be written in another way,
blanks, line ends and separators may be put in anywhere, and then whole lines of comment between
the lines. The drawing of a board is such a decoration of its line. All of this is read back as the
same board.

## Key results

- `parseBytes_toUTF8`: a text and its bytes are read alike
- `Decorated.parse_eq`: a decorated line is read back
- `printed_parses`: the printed forms of a board
-/

namespace ExactCover.Sudoku

namespace Puzzle

variable {α : Type} {c : Char} {line line' text text' before after : List Char}
  {contents here : List (Option Digit)} {pieces lines : List (List Char)}

/-! ## Texts and bytes -/

/-- What stands before the first `sep` goes to the first piece. -/
private theorem splitAfter_append [DecidableEq α] {sep : α} {l : List α} (h : sep ∉ l) (hl : l ≠ [])
    (rest : List α) : splitAfter sep (l ++ rest) = match splitAfter sep rest with
      | [] => [l]
      | piece :: pieces => (l ++ piece) :: pieces := by
  induction l with
  | nil => exact absurd rfl hl
  | cons a l ih =>
    rw [List.mem_cons, not_or] at h
    rw [List.cons_append, splitAfter, if_neg (Ne.symm h.1)]
    cases l with
    | nil =>
      rw [List.nil_append]
      cases splitAfter sep rest <;> rfl
    | cons b l =>
      rw [ih h.2 (List.cons_ne_nil _ _)]
      cases splitAfter sep rest <;> rfl

/-- Lines are the same before and after they are encoded. -/
private theorem splitAfter_utf8 (text : List Char) :
    splitAfter 10 (utf8 text) = (splitAfter '\n' text).map utf8 := by
  -- induction on the characters: only a line feed has the byte at which lines end
  induction text with
  | nil => rfl
  | cons c text ih =>
    rw [utf8_cons, splitAfter]
    by_cases hc : c = '\n'
    · have henc : String.utf8EncodeChar '\n' = [10] := rfl
      rw [if_pos hc, hc, henc, List.singleton_append, splitAfter, if_pos rfl, ih, List.map_cons,
        utf8_nil]
    · rw [if_neg hc, splitAfter_append (fun h => hc (eq_of_ten_mem h))
        String.utf8EncodeChar_ne_nil, ih]
      cases splitAfter '\n' text <;> simp

/-- The bytes of a text are read as the text. -/
private theorem decode_utf8 (text : List Char) : decode (utf8 text) = some text :=
  decode_eq_some_iff.mpr rfl

/-- A text is read as its bytes are. -/
theorem parseBytes_toUTF8 (text : String) : parseBytes text.toUTF8 = parse text := by
  rw [parseBytes, parse, toUTF8_toList, splitAfter_utf8, List.map_map]
  congr 2
  exact funext decode_utf8

/-! ## Decorations -/

/-- A character that may be put in anywhere. A line feed is one of the blanks. -/
def IsFiller (c : Char) : Prop := isBlank c = true ∨ c ∈ ['|', '-', '+']

instance : DecidablePred IsFiller := fun c =>
  inferInstanceAs (Decidable (isBlank c = true ∨ c ∈ ['|', '-', '+']))

/-- The second text is the first one, but a `.` may be written as `0` or `_`, and fillers have been
    put in. -/
inductive Decorates : List Char → List Char → Prop where
  | nil : Decorates [] []
  | same {c : Char} {line text : List Char} (h : Decorates line text) :
      Decorates (c :: line) (c :: text)
  | empty {c : Char} {line text : List Char} (hc : c ∈ ['0', '_']) (h : Decorates line text) :
      Decorates ('.' :: line) (c :: text)
  | filler {c : Char} {line text : List Char} (hc : IsFiller c) (h : Decorates line text) :
      Decorates line (c :: text)

/-- The second list of lines is the first one, but lines of comment have been put in. -/
inductive Annotates : List (List Char) → List (List Char) → Prop where
  | nil : Annotates [] []
  | line {l : List Char} {lines lines' : List (List Char)} (h : Annotates lines lines') :
      Annotates (l :: lines) (l :: lines')
  | comment {l : List Char} {lines lines' : List (List Char)} (hl : IsComment l)
      (hend : '\n' ∉ l) (h : Annotates lines lines') : Annotates lines (l :: lines')

/-- The line has been decorated, cut into lines, and lines of comment have been put in. -/
def Decorated (line : List Char) (text : String) : Prop :=
  ∃ decorated lines, Decorates line decorated ∧ Annotates (decorated.splitOn '\n') lines ∧
    text = String.ofList (['\n'].intercalate lines)

/-- Texts may be decorated one by one. -/
theorem Decorates.append (h : Decorates line text) (h' : Decorates line' text') :
    Decorates (line ++ line') (text ++ text') := by
  induction h with
  | nil => exact h'
  | same _ ih => exact .same ih
  | empty hc _ ih => exact .empty hc ih
  | filler hc _ ih => exact .filler hc ih

/-- A text without fillers is a decoration, too. -/
theorem Decorates.refl (line : List Char) : Decorates line line := by
  induction line with
  | nil => exact .nil
  | cons c line ih => exact .same ih

/-- Fillers alone decorate nothing. -/
theorem decorates_nil (h : (text.all fun c => IsFiller c) = true) : Decorates [] text := by
  induction text with
  | nil => exact .nil
  | cons c text ih =>
    rw [List.all_cons, Bool.and_eq_true, decide_eq_true_iff] at h
    exact .filler h.1 (ih h.2)

/-- The parts of a text may be decorated one by one. -/
theorem Decorates.flatMap {f g : α → List Char} {l : List α}
    (h : ∀ a ∈ l, Decorates (f a) (g a)) : Decorates (l.flatMap f) (l.flatMap g) := by
  induction l with
  | nil => exact .nil
  | cons a l ih =>
    rw [List.forall_mem_cons] at h
    exact h.1.append (ih h.2)

/-- Between the parts of a text there may be fillers. -/
theorem Decorates.intercalate {sep : List Char} {texts : List (List Char)}
    (hsep : (sep.all fun c => IsFiller c) = true) (h : List.Forall₂ Decorates lines texts) :
    Decorates lines.flatten (sep.intercalate texts) := by
  -- induction on the parts, with fillers before each but the first
  induction h with
  | nil => exact .nil
  | @cons line text lines texts h hrest ih =>
    cases hrest with
    | nil =>
      rw [List.flatten_singleton, List.intercalate_singleton]
      exact h
    | cons _ _ =>
      rw [List.intercalate_cons_cons, List.append_assoc, List.flatten_cons]
      exact h.append ((decorates_nil hsep).append ih)

/-- Lines without comments among them are annotated, too. -/
private theorem annotates_refl (lines : List (List Char)) : Annotates lines lines := by
  induction lines with
  | nil => exact .nil
  | cons l lines ih => exact .line ih

/-- A decoration without comments. -/
theorem Decorates.decorated (h : Decorates line text) : Decorated line (String.ofList text) :=
  ⟨text, _, h, annotates_refl _, by rw [List.intercalate_splitOn]⟩

/-! ## Reading decorations -/

/-- A filler stands for no cells. -/
private theorem IsFiller.says (h : IsFiller c) : Says c [] :=
  h.elim .blank .separator

/-- A character stands for some cells only. -/
private theorem says_unique (h : Says c here) (h' : Says c contents) : here = contents := by
  obtain ⟨g, hg, rfl⟩ := says_iff.mp h
  obtain ⟨g', hg', rfl⟩ := says_iff.mp h'
  rw [Option.some.inj (hg.symm.trans hg')]

/-- A decoration spells the same cells. -/
theorem Decorates.spells (h : Decorates line text) (hline : Spells line contents) :
    Spells text contents := by
  -- induction on the decoration: each character put in stands for what it decorates, or nothing
  induction h generalizing contents with
  | nil => exact hline
  | same _ ih =>
    obtain _ | ⟨hc, hrest⟩ := hline
    exact .cons hc (ih hrest)
  | @empty c _ _ hc _ ih =>
    obtain _ | ⟨hpoint, hrest⟩ := hline
    obtain rfl := says_unique hpoint (.empty (by decide))
    have hempty : c ∈ ['0', '.', '_'] := by
      rcases List.mem_pair.mp hc with rfl | rfl <;> decide
    exact .cons (.empty hempty) (ih hrest)
  | filler hc _ ih =>
    have hrest := Spells.cons hc.says (ih hline)
    exact hrest

/-- Where a text is cut in two, so are the cells. -/
private theorem spells_append (h : Spells (before ++ after) contents) :
    ∃ contents₁ contents₂, Spells before contents₁ ∧ Spells after contents₂ ∧
      contents = contents₁ ++ contents₂ := by
  induction before generalizing contents with
  | nil => exact ⟨[], contents, .nil, h, rfl⟩
  | cons c before ih =>
    obtain _ | ⟨hc, hrest⟩ := h
    obtain ⟨contents₁, contents₂, h₁, h₂, rfl⟩ := ih hrest
    exact ⟨_, contents₂, .cons hc h₁, h₂, (List.append_assoc ..).symm⟩

/-- The cells of a text are those of its lines. -/
private theorem Spells.exists_lines (h : Spells (['\n'].intercalate pieces) contents) :
    ∃ found, List.Forall₂ Spells pieces found ∧ found.flatten = contents := by
  -- induction on the lines; the line feed between two of them stands for no cell
  induction pieces generalizing contents with
  | nil =>
    cases h
    exact ⟨[], .nil, rfl⟩
  | cons piece pieces ih =>
    cases pieces with
    | nil =>
      rw [List.intercalate_singleton] at h
      exact ⟨[contents], .cons h .nil, List.flatten_singleton⟩
    | cons next pieces =>
      rw [List.intercalate_cons_cons, List.append_assoc] at h
      obtain ⟨first, _, hfirst, hrest, rfl⟩ := spells_append h
      obtain _ | ⟨hend, hrest⟩ := hrest
      obtain rfl := says_unique hend (.blank (by decide))
      obtain ⟨found, hfound, rfl⟩ := ih hrest
      exact ⟨first :: found, .cons hfirst hfound, rfl⟩

/-- A text that spells cells is no comment. -/
private theorem Spells.not_isComment (h : Spells text contents) : ¬ IsComment text := by
  rintro ⟨blanks, c, rest, rfl, -, hc⟩
  obtain ⟨_, _, -, h, -⟩ := spells_append h
  obtain _ | ⟨hfirst, -⟩ := h
  obtain ⟨g, hg, -⟩ := says_iff.mp hfirst
  rcases hc with rfl | rfl <;> exact nomatch hg

/-- Lines of comment hold no cells. -/
private theorem Annotates.reads {found : List (List (Option Digit))} (h : Annotates pieces lines)
    (hpieces : List.Forall₂ Spells pieces found) :
    ∃ found', List.Forall₂ ReadsLine (lines.map utf8) found' ∧ found'.flatten = found.flatten := by
  -- induction on the lines, of which the comments are passed over
  induction h generalizing found with
  | nil =>
    cases hpieces
    exact ⟨[], .nil, rfl⟩
  | line _ ih =>
    obtain _ | ⟨hl, hrest⟩ := hpieces
    obtain ⟨found', hfound', heq⟩ := ih hrest
    refine ⟨_ :: found', .cons (.cells rfl hl.not_isComment hl) hfound', ?_⟩
    rw [List.flatten_cons, heq, List.flatten_cons]
  | comment hl _ _ ih =>
    obtain ⟨found', hfound', heq⟩ := ih hpieces
    exact ⟨[] :: found', .cons (.comment rfl hl) hfound', heq⟩

/-- No line of a decoration has a line feed in it. -/
theorem Annotates.not_mem (h : Annotates pieces lines) (hpieces : ∀ l ∈ pieces, '\n' ∉ l) :
    ∀ l ∈ lines, '\n' ∉ l := by
  induction h with
  | nil => exact hpieces
  | line _ ih =>
    rw [List.forall_mem_cons] at hpieces ⊢
    exact ⟨hpieces.1, ih hpieces.2⟩
  | comment _ hend _ ih => exact List.forall_mem_cons.mpr ⟨hend, ih hpieces⟩

/-- No piece between line feeds has a line feed in it. -/
private theorem not_mem_of_mem_splitOn {l : List Char} (h : l ∈ text.splitOn '\n') : '\n' ∉ l := by
  induction text generalizing l with
  | nil =>
    obtain rfl : l = [] := List.mem_singleton.mp h
    exact List.not_mem_nil
  | cons c text ih =>
    obtain ⟨first, rest, hsplit⟩ := List.exists_cons_of_ne_nil (List.splitOn_ne_nil '\n' text)
    rw [List.splitOn_cons_eq_if_modifyHead] at h
    split at h
    next =>
      rcases List.mem_cons.mp h with rfl | h
      · exact List.not_mem_nil
      · exact ih h
    next hc =>
      rw [hsplit, List.modifyHead_cons] at h
      rw [hsplit] at ih
      rcases List.mem_cons.mp h with rfl | h
      · rw [List.mem_cons, not_or]
        exact ⟨fun heq => hc (by simp [← heq]), ih List.mem_cons_self⟩
      · exact ih (List.mem_cons_of_mem _ h)

/-- A line feed ends a line. -/
private theorem splitAfter_append_cons {l : List Char} (h : '\n' ∉ l) (rest : List Char) :
    splitAfter '\n' (l ++ '\n' :: rest) = l :: splitAfter '\n' rest := by
  by_cases hl : l = []
  · rw [hl, List.nil_append, splitAfter, if_pos rfl]
  · rw [splitAfter_append h hl, splitAfter, if_pos rfl]
    dsimp only
    rw [List.append_nil]

/-- It does not matter whether a line feed ends the last line or not. -/
private theorem cells_splitAfter (hend : ∀ l ∈ lines, '\n' ∉ l) (position : Nat) :
    cells position ((splitAfter '\n' (['\n'].intercalate lines)).map some) =
      cells position (lines.map some) := by
  -- induction on the lines; only the last one may lack its line feed
  induction lines generalizing position with
  | nil => rfl
  | cons l lines ih =>
    rw [List.forall_mem_cons] at hend
    cases lines with
    | nil =>
      rw [List.intercalate_singleton]
      by_cases hl : l = []
      · rw [hl]
        rfl
      · have hsplit := splitAfter_append hend.1 hl []
        rw [List.append_nil] at hsplit
        rw [hsplit]
        rfl
    | cons next lines =>
      rw [List.intercalate_cons_cons, List.append_assoc, List.singleton_append,
        splitAfter_append_cons hend.1, List.map_cons, List.map_cons, cells, cells]
      simp only [ih hend.2]

/-- A decorated line is read back. -/
theorem Decorated.parse_eq {b : Board} {text : String} (h : Decorated line text)
    (hline : Spells line contents) (hcount : contents.length = 81)
    (hb : ∀ i : Fin 81, contents[i.val]? = some (b.get (Cell.ofIndex i))) :
    parse text = .ok b := by
  obtain ⟨decorated, lines, hdecorates, hannotates, rfl⟩ := h
  -- the decoration spells the cells, line by line
  have hjoin : ['\n'].intercalate (decorated.splitOn '\n') = decorated :=
    List.intercalate_splitOn _
  have hspells := hdecorates.spells hline
  rw [← hjoin] at hspells
  obtain ⟨found, hfound, rfl⟩ := hspells.exists_lines
  -- the comments add no cells, and no line feed
  obtain ⟨found', hread, hflat⟩ := hannotates.reads hfound
  have hend := hannotates.not_mem fun l => not_mem_of_mem_splitOn
  have hdecode : (lines.map utf8).map decode = lines.map some := by
    rw [List.map_map]
    exact List.map_congr_left fun l _ => decode_utf8 l
  rw [parse, String.toList_ofList, ofLines, cells_splitAfter hend, ← hdecode,
    cells_of_forall₂ hread, hflat, ok_bind, if_pos hcount, Board.ofList_eq hb]
  rfl

end Puzzle

namespace Board

open Puzzle

/-- The line of a board spells its cells. -/
theorem spells_lineChars (b : Board) : Spells b.lineChars b.toList := by
  rw [lineChars]
  induction b.toList with
  | nil => exact .nil
  | cons d l ih =>
    have hglyph : Says (glyph d) [d] := by
      cases d with
      | none => exact .empty (by decide)
      | some d => exact .given d
    exact .cons hglyph ih

/-- Every decoration of the line of a board is read as that board. -/
theorem parse_of_decorated {b : Board} {text : String} (h : Decorated b.lineChars text) :
    parse text = .ok b := by
  refine h.parse_eq b.spells_lineChars (by simp [toList]) fun i => ?_
  simp [toList, get]

/-! ## Drawings -/

/-- Three boxes of three columns lie side by side. -/
theorem column_lt (block i : Fin 3) : 3 * block.val + i.val < 9 := by
  omega

/-- The characters of three cells of a row that lie in one box. -/
def boxGlyphs (b : Board) (row : Fin 9) (block : Fin 3) : List Char :=
  (List.finRange 3).map fun i : Fin 3 => glyph (b.get ⟨row, ⟨3 * block + i, column_lt block i⟩⟩)

/-- The line of a board, box by box within each row. -/
private theorem lineChars_eq (b : Board) : b.lineChars =
    (List.finRange 9).flatMap fun row => ((List.finRange 3).map (b.boxGlyphs row)).flatten := by
  have hall : Cell.all = (List.finRange 9).flatMap fun row : Fin 9 =>
      (List.finRange 3).flatMap fun block : Fin 3 =>
      (List.finRange 3).map fun i : Fin 3 =>
        (⟨row, ⟨3 * block + i, column_lt block i⟩⟩ : Cell) := by
    decide
  rw [lineChars, toList_eq, hall, List.map_map, List.map_flatMap]
  refine List.flatMap_congr fun row _ => ?_
  rw [List.map_flatMap, List.flatMap_def]
  rfl

/-- Blanks stand between three cells of a box. -/
private theorem decorates_boxChars (b : Board) (row : Fin 9) (block : Fin 3) :
    Decorates (b.boxGlyphs row block) (b.boxChars row block) := by
  have hcells : List.Forall₂ Decorates ((b.boxGlyphs row block).map ([·]))
      ((List.finRange 3).map fun i : Fin 3 =>
        [glyph (b.get ⟨row, ⟨3 * block + i, column_lt block i⟩⟩)]) := by
    rw [boxGlyphs, List.map_map]
    exact List.forall₂_same.mpr fun l _ => .refl l
  exact .intercalate (by decide) hcells

/-- Bars stand between the boxes. -/
private theorem decorates_rowChars (b : Board) (row : Fin 9) :
    Decorates ((List.finRange 3).map (b.boxGlyphs row)).flatten (b.rowChars row) := by
  refine .intercalate (by decide) ?_
  rw [List.forall₂_map_left_iff, List.forall₂_map_right_iff]
  exact List.forall₂_same.mpr fun block _ => b.decorates_boxChars row block

/-- The drawing of a board is a decoration of its line. -/
theorem decorates_drawingChars (b : Board) : Decorates b.lineChars b.drawingChars := by
  rw [lineChars_eq, drawingChars, drawingLines, List.flatMap_assoc]
  refine .flatMap fun row _ => ?_
  -- a row ends in a line feed, and before some rows there is a rule
  have hend : Decorates [] ['\n'] := decorates_nil (by decide)
  have hrule : Decorates [] (rule ++ ['\n']) := decorates_nil (by decide)
  have hrow := (b.decorates_rowChars row).append hend
  rw [List.append_nil] at hrow
  split
  · have hboth := hrule.append hrow
    rw [← List.append_nil (b.rowChars row ++ ['\n'])] at hboth
    exact hboth
  · exact hrow

/-! ## Printed boards -/

/-- The line and the drawing of a board are read as that board, and so is the line in every
    decoration. So they belong to one board alone, and an accepted text and the line of its board
    are read alike. -/
theorem printed_parses (b : Board) :
    parse b.line = .ok b ∧ parse b.drawing = .ok b ∧
      (∀ text, Decorated b.lineChars text →
        parse text = .ok b ∧ parseBytes text.toUTF8 = .ok b) ∧
      (∀ b' : Board, b'.line = b.line ∨ b'.drawing = b.drawing → b' = b) ∧
      (∀ text, parse text = .ok b → parse b.line = parse text) ∧
      ∀ bytes, parseBytes bytes = .ok b → parse b.line = parseBytes bytes := by
  have hline (b : Board) : parse b.line = .ok b :=
    parse_of_decorated (Decorates.refl _).decorated
  have hdrawing (b : Board) : parse b.drawing = .ok b :=
    parse_of_decorated b.decorates_drawingChars.decorated
  -- the two printed forms, their decorations, and what follows for other boards and other texts
  refine ⟨hline b, hdrawing b, fun text h => ?_, ?_, fun text h => ?_, fun bytes h => ?_⟩
  · exact ⟨parse_of_decorated h, (parseBytes_toUTF8 text).trans (parse_of_decorated h)⟩
  · rintro b' (h | h)
    · exact Except.ok.inj ((hline b').symm.trans ((congrArg parse h).trans (hline b)))
    · exact Except.ok.inj ((hdrawing b').symm.trans ((congrArg parse h).trans (hdrawing b)))
  · exact (hline b).trans h.symm
  · exact (hline b).trans h.symm

/-- A single given, with a line of comment before it and other signs for the empty cells. -/
theorem printed_parses_commented :
    let b := empty.set ⟨0, 0⟩ (some 4)
    let decorated := " 5\n|".toList ++ List.replicate 80 '_'
    let text := String.ofList ("# one given".toList ++ '\n' :: decorated)
    Decorated b.lineChars text ∧ parse text = .ok b ∧ parseBytes text.toUTF8 = .ok b ∧
      parse b.line = parse text := by
  intro b decorated text
  have hline : b.lineChars = '5' :: List.replicate 80 '.' := by decide
  have hempty (n : Nat) : Decorates (List.replicate n '.') (List.replicate n '_') := by
    induction n with
    | zero => exact .nil
    | succ n ih => exact .empty (by decide) ih
  have hdecorates : Decorates b.lineChars decorated := by
    rw [hline]
    exact .filler (by decide) (.same (.filler (by decide) (.filler (by decide) (hempty 80))))
  have h : Decorated b.lineChars text := by
    refine ⟨decorated, _, hdecorates,
      .comment (l := "# one given".toList) ⟨[], '#', _, rfl, nofun, .inr rfl⟩ (by decide)
        (annotates_refl _), ?_⟩
    rw [List.intercalate_cons_of_ne_nil (List.splitOn_ne_nil _ _), List.intercalate_splitOn,
      List.append_assoc]
    rfl
  obtain ⟨-, -, hread, -, haccepted, -⟩ := printed_parses b
  exact ⟨h, (hread text h).1, (hread text h).2, haccepted text (hread text h).1⟩

end Board
end ExactCover.Sudoku
