import ExactCover.CommandLine.Files
import ExactCover.Proofs.Utf8
import Mathlib.Data.List.Sort
import Mathlib.Data.String.Basic

/-!
# The files of a tree, in order

A file stands in a tree at the end of a list of names. The walk over the sorted tree meets the
puzzle files in the order of these lists, whose names are compared one by one as bytes. So a
directory comes with all of its files before a file whose name continues the directory's name. The
order in which the tree holds its entries is lost.

What a tree holds and what a walk sees of it are two things. A directory may hide its entries, and
the walk goes on without a word. A file that cannot be read is seen, and it is a puzzle like any
other, with a report that fails.

## Key results

- `isPuzzleName_iff`: which names end in the extension of puzzles
- `shows_iff_holds`: in an open tree the walk sees all files
- `pairwise_files_sort`, `mem_files_sort`: the sorted tree has the same files, in order
- `exists_puzzlesIn`: the puzzle files below a directory
-/

namespace ExactCover.CommandLine

/-- A regular file below some entry: the names that lead to it, and what stands in it, or why it
    cannot be read. -/
structure FileBelow where
  names : List String
  content : Except PathError ByteArray

namespace FileBelow

/-- The file as it is seen from the directory that holds the entry under a name. -/
def under (name : String) (f : FileBelow) : FileBelow := { f with names := name :: f.names }

/-- The path of the file if the entry is at the path `root`. -/
def path (root : String) (f : FileBelow) : String := f.names.foldl Entry.join root

/-- The last name has the extension of puzzles, and something before it. -/
def IsPuzzle (f : FileBelow) : Prop :=
  ∃ stem, stem ≠ "" ∧ f.names.getLast? = some (stem ++ ".sudoku")

/-- The path is not too long to be opened. -/
def Opens (root : String) (f : FileBelow) : Prop := (f.path root).utf8ByteSize ≤ Entry.maxPathBytes

/-- Names are compared one by one, each of them as bytes. -/
def Before (f g : FileBelow) : Prop :=
  f.names.map (fun name => name.toUTF8.data.toList) <
    g.names.map (fun name => name.toUTF8.data.toList)

instance : Std.Asymm Before := ⟨fun _ _ => List.lt_asymm⟩

private theorem before_under_iff (name : String) {f g : FileBelow} :
    (f.under name).Before (g.under name) ↔ f.Before g := by
  simp [Before, under]

private theorem before_under_of_lt {name name' : String} (h : name < name') (f g : FileBelow) :
    (f.under name).Before (g.under name') := by
  refine List.cons_lt_cons_iff.mpr (.inl ?_)
  simp only [toUTF8_toList]
  exact utf8_lt_utf8 (String.lt_iff_toList_lt.mp h)

end FileBelow

namespace Entry

/-! ## Names of puzzles -/

/-- The extension begins after the last point. -/
private theorem extension?_ofList {stem ext : List Char} (h : '.' ∉ ext) :
    extension? (String.ofList (stem ++ '.' :: ext)) =
      if stem = [] then none else some (String.ofList ext) := by
  have hsplit : (stem ++ '.' :: ext).splitOn '.' = stem.splitOn '.' ++ [ext] := by
    rw [List.splitOn_append_cons_self, List.splitOn_eq_singleton h]
  have hstem : ['.'].intercalate (stem.splitOn '.') = stem := List.intercalate_splitOn '.'
  rw [extension?, String.toList_ofList, hsplit]
  match hpieces : stem.splitOn '.' with
  | [] => exact absurd hpieces (List.splitOn_ne_nil _ _)
  | [first] =>
    rw [hpieces, List.intercalate_singleton] at hstem
    simp [hstem]
  | first :: second :: rest =>
    have hne : stem ≠ [] := by
      rintro rfl
      rw [List.splitOn_nil] at hpieces
      exact nomatch hpieces
    have hlast : (second :: (rest ++ [ext])).getLast? = some ext := by
      rw [← List.cons_append, List.getLast?_concat]
    simp [hne, hlast]

/-- The names of puzzles end in `.sudoku` and have something before it. -/
theorem isPuzzleName_iff {name : String} :
    isPuzzleName name = true ↔ ∃ stem, stem ≠ "" ∧ name = stem ++ ".sudoku" := by
  rw [isPuzzleName, decide_eq_true_iff]
  constructor
  · intro h
    by_cases hpoint : '.' ∈ name.toList
    · -- read backwards, the extension ends at the first point
      obtain ⟨ext, stem, hname, hext⟩ := List.eq_append_cons_of_mem (List.mem_reverse.mpr hpoint)
      replace hname : name = String.ofList (stem.reverse ++ '.' :: ext.reverse) := by
        rw [← String.toList_inj, String.toList_ofList, ← List.reverse_reverse name.toList, hname]
        simp
      rw [hname, extension?_ofList (by simpa using hext)] at h
      split at h
      · exact nomatch h
      next hstem =>
        rw [Option.some_inj, ← String.toList_inj, String.toList_ofList] at h
        refine ⟨String.ofList stem.reverse, ?_, ?_⟩
        · rw [Ne, ← String.toList_inj, String.toList_ofList]
          exact hstem
        · rw [hname, h, ← String.toList_inj]
          simp
    · rw [extension?, List.splitOn_eq_singleton hpoint] at h
      exact nomatch h
  · rintro ⟨stem, hstem, rfl⟩
    have hname : stem ++ ".sudoku" = String.ofList (stem.toList ++ '.' :: "sudoku".toList) := by
      rw [← String.toList_inj]
      simp
    rw [hname, extension?_ofList (by decide), if_neg fun h => hstem (String.toList_eq_nil_iff.mp h),
      String.ofList_toList]

/-! ## Files in a tree -/

/-- An entry holds a file: the one that it is or leads to, or a file that one of its entries
    holds. -/
inductive Holds : Entry → FileBelow → Prop
  | here {e : Entry} {content : Except PathError ByteArray} (h : e.regular? = some content) :
      Holds e { names := [], content }
  | inside {entries : List (String × Entry)} {access : Access} {name : String} {e : Entry}
      {f : FileBelow} (hentry : (name, e) ∈ entries) (hf : e.Holds f) :
      Holds (directory entries access) (f.under name)

/-- A walk sees a file that an entry holds: every directory on the way shows its entries. -/
inductive Shows : Entry → FileBelow → Prop
  | here {e : Entry} {content : Except PathError ByteArray} (h : e.regular? = some content) :
      Shows e { names := [], content }
  | inside {entries : List (String × Entry)} {access : Access} {name : String} {e : Entry}
      {f : FileBelow} (haccess : access.shows = true) (hentry : (name, e) ∈ entries)
      (hf : e.Shows f) : Shows (directory entries access) (f.under name)

/-- Every directory shows its entries, at every depth. -/
inductive Open : Entry → Prop
  | other {e : Entry} (h : e.isDirectory = false) : Open e
  | directory {entries : List (String × Entry)} {access : Access} (haccess : access.shows = true)
      (hentries : ∀ x ∈ entries, Open x.2) : Open (directory entries access)

/-- The entries of a directory have different names, at every depth. -/
inductive Distinct : Entry → Prop
  | other {e : Entry} (h : e.isDirectory = false) : Distinct e
  | directory {entries : List (String × Entry)} {access : Access}
      (hnames : (entries.map Prod.fst).Nodup) (hentries : ∀ x ∈ entries, Distinct x.2) :
      Distinct (directory entries access)

/-- The walk sees files of the tree only. -/
theorem Shows.holds {e : Entry} {f : FileBelow} (h : e.Shows f) : e.Holds f := by
  induction h with
  | here h => exact .here h
  | inside _ hentry _ ih => exact .inside hentry ih

/-- In an open tree the walk sees all files. -/
theorem shows_iff_holds {e : Entry} (hopen : e.Open) {f : FileBelow} : e.Shows f ↔ e.Holds f := by
  refine ⟨Shows.holds, fun h => ?_⟩
  -- induction on the way to the file, on which no directory hides its entries
  induction h with
  | here h => exact .here h
  | inside hentry _ ih =>
    cases hopen with
    | other h => exact nomatch h
    | directory haccess hentries => exact .inside haccess hentry (ih (hentries _ hentry))

/-- Induction over a tree. The walk goes down into directories only, so all other entries are one
    case. -/
@[elab_as_elim]
theorem induction {P : Entry → Prop} (other : ∀ e, e.isDirectory = false → P e)
    (directory : ∀ entries access, (∀ name e, (name, e) ∈ entries → P e) →
      P (directory entries access)) : ∀ e, P e
  | .directory entries access =>
    directory entries access fun _ e _ => induction other directory e
  | .file content => other (.file content) rfl
  | .unreadable why => other (.unreadable why) rfl
  | .special content => other (.special content) rfl
  | .link target => other (.link target) rfl
decreasing_by
  -- an entry of a directory is smaller than the directory
  have hlt := List.sizeOf_lt_of_mem ‹_ ∈ entries›
  simp only [Prod.mk.sizeOf_spec, Entry.directory.sizeOf_spec] at hlt ⊢
  omega

/-! ## The files as a list -/

mutual

/-- The files of an entry that a walk sees, in the order in which they stand in the tree. -/
def files : Entry → List FileBelow
  | directory entries access => if access.shows then filesIn entries else []
  | e => e.regular?.toList.map fun content => { names := [], content }

/-- The files of some entries that a walk sees. -/
def filesIn : List (String × Entry) → List FileBelow
  | [] => []
  | (name, e) :: entries => (files e).map (.under name) ++ filesIn entries

end

/-! What the walk does with an entry that is no directory. -/

section

variable {e : Entry} (h : e.isDirectory = false)
include h

/-- The file that the entry is or leads to, if there is one. -/
private theorem files_other :
    files e = e.regular?.toList.map fun content => { names := [], content } := by
  cases e with
  | directory => exact nomatch h
  | _ => rw [files]; exact nofun

/-- There is nothing to sort. -/
private theorem sort_other : sort e = e := by
  cases e with
  | directory => exact nomatch h
  | _ => rw [sort]; exact nofun

/-- The walk goes no further. -/
private theorem puzzlesAt_other (path name : String) :
    puzzlesAt path name e = puzzle path name e := by
  cases e with
  | directory => exact nomatch h
  | _ => rw [puzzlesAt]; exact nofun

end

/-- The files of some entries, as one expression. -/
private theorem filesIn_eq_flatMap (entries : List (String × Entry)) :
    filesIn entries = entries.flatMap fun (name, e) => (files e).map (.under name) := by
  induction entries with
  | nil => simp only [filesIn, List.flatMap_nil]
  | cons entry entries ih => simp only [filesIn, List.flatMap_cons, ih]

/-- The puzzle files of some entries, as one expression. -/
private theorem puzzlesIn_eq_flatMap (root : String) (entries : List (String × Entry)) :
    puzzlesIn root entries =
      entries.flatMap fun (name, e) => puzzlesAt (join root name) name e := by
  induction entries with
  | nil => simp only [puzzlesIn, List.flatMap_nil]
  | cons entry entries ih => simp only [puzzlesIn, List.flatMap_cons, ih]

/-- The files in the list are those that the walk sees. -/
theorem mem_files_iff {e : Entry} {f : FileBelow} : f ∈ files e ↔ e.Shows f := by
  induction e using induction generalizing f with
  | other e hother =>
    rw [files_other hother, List.mem_map]
    constructor
    -- the entry is the file
    · rintro ⟨content, hcontent, rfl⟩
      exact .here (Option.mem_toList.mp hcontent)
    · intro hshows
      cases hshows with
      | here h => exact ⟨_, Option.mem_toList.mpr h, rfl⟩
      | inside => exact nomatch hother
  | directory entries access ih =>
    rw [files, List.mem_ite_nil_right, filesIn_eq_flatMap, List.mem_flatMap]
    constructor
    -- below an entry
    · rintro ⟨haccess, ⟨name, e⟩, hentry, hf⟩
      obtain ⟨g, hg, rfl⟩ := List.mem_map.mp hf
      exact .inside haccess hentry ((ih name e hentry).mp hg)
    · intro hshows
      cases hshows with
      | here h => exact nomatch h
      | inside haccess hentry hf =>
        exact ⟨haccess, _, hentry, List.mem_map_of_mem ((ih _ _ hentry).mpr hf)⟩

/-! ## The sorted tree -/

/-- Inserting keeps what is there. -/
private theorem insertSorted_perm (name : String) (e : Entry) (entries : List (String × Entry)) :
    (insertSorted name e entries).Perm ((name, e) :: entries) := by
  induction entries with
  | nil => exact .rfl
  | cons entry entries ih =>
    rw [insertSorted]
    split
    · exact (ih.cons entry).trans (.swap ..)
    · exact .rfl

/-- Sorting keeps the entries, each of them sorted. -/
private theorem sortAll_perm (entries : List (String × Entry)) :
    (sortAll entries).Perm (entries.map fun (name, e) => (name, sort e)) := by
  induction entries with
  | nil => simp [sortAll]
  | cons entry entries ih =>
    rw [sortAll, List.map_cons]
    exact (insertSorted_perm ..).trans (ih.cons _)

/-- A new name is put in its place. -/
private theorem pairwise_insertSorted {name : String} (e : Entry) {entries : List (String × Entry)}
    (hsorted : entries.Pairwise fun x y => x.1 < y.1) (hnew : name ∉ entries.map Prod.fst) :
    (insertSorted name e entries).Pairwise fun x y => x.1 < y.1 := by
  induction entries with
  | nil => exact List.pairwise_singleton ..
  | cons entry entries ih =>
    rw [List.pairwise_cons] at hsorted
    rw [List.map_cons, List.mem_cons, not_or] at hnew
    rw [insertSorted]
    split
    -- the entry at the front has a smaller name, and the new one goes behind it
    next hlt =>
      refine List.pairwise_cons.mpr ⟨fun x hx => ?_, ih hsorted.2 hnew.2⟩
      rcases List.mem_cons.mp ((insertSorted_perm ..).mem_iff.mp hx) with rfl | hx
      · exact hlt
      · exact hsorted.1 x hx
    -- the names differ, so the new one is smaller than all
    next hle =>
      have hlt : name < entry.1 := lt_of_le_of_ne (not_lt.mp hle) hnew.1
      refine List.pairwise_cons.mpr ⟨fun x hx => ?_, List.pairwise_cons.mpr hsorted⟩
      rcases List.mem_cons.mp hx with rfl | hx
      · exact hlt
      · exact hlt.trans (hsorted.1 x hx)

/-- Different names are put in order. -/
private theorem pairwise_sortAll {entries : List (String × Entry)}
    (h : (entries.map Prod.fst).Nodup) :
    (sortAll entries).Pairwise fun x y => x.1 < y.1 := by
  induction entries with
  | nil => simp [sortAll]
  | cons entry entries ih =>
    rw [List.map_cons, List.nodup_cons] at h
    rw [sortAll]
    refine pairwise_insertSorted _ (ih h.2) fun hmem => h.1 ?_
    -- sorting has changed neither the names nor how often each one stands there
    rw [((sortAll_perm entries).map Prod.fst).mem_iff, List.map_map] at hmem
    exact hmem

/-- Sorting a tree keeps its files. -/
theorem mem_files_sort {e : Entry} {f : FileBelow} : f ∈ files (sort e) ↔ f ∈ files e := by
  induction e using induction generalizing f with
  | other e hother => rw [sort_other hother]
  | directory entries access ih =>
    rw [sort, files, files, List.mem_ite_nil_right, List.mem_ite_nil_right, filesIn_eq_flatMap,
      filesIn_eq_flatMap, ((sortAll_perm entries).flatMap_right _).mem_iff, List.flatMap_map]
    simp only [List.mem_flatMap, List.mem_map, Prod.exists]
    -- for each entry by what is known of its own sorted tree
    refine and_congr_right' <| exists_congr fun name => exists_congr fun e =>
      and_congr_right fun hentry => ?_
    exact exists_congr fun g => and_congr_left' (ih name e hentry)

/-- The files of a sorted tree stand in order. -/
theorem pairwise_files_sort {e : Entry} (h : Distinct e) :
    (files (sort e)).Pairwise FileBelow.Before := by
  induction e using induction with
  | other e hother =>
    rw [sort_other hother, files_other hother]
    cases e.regular? with
    | none => exact .nil
    | some content => exact List.pairwise_singleton ..
  | directory entries access ih =>
    cases h with
    | other h => exact nomatch h
    | directory hnames hentries => ?_
    rw [sort, files]
    split
    case isFalse => exact .nil
    rw [filesIn_eq_flatMap, List.pairwise_flatMap]
    constructor
    · -- below one entry
      intro x hx
      obtain ⟨⟨name, e⟩, hentry, rfl⟩ := List.mem_map.mp ((sortAll_perm entries).mem_iff.mp hx)
      rw [List.pairwise_map]
      exact (ih name e hentry (hentries (name, e) hentry)).imp
        (FileBelow.before_under_iff name).mpr
    · -- below two entries, the first of which has the smaller name
      refine (pairwise_sortAll hnames).imp fun hlt f hf g hg => ?_
      obtain ⟨f, -, rfl⟩ := List.mem_map.mp hf
      obtain ⟨g, -, rfl⟩ := List.mem_map.mp hg
      exact FileBelow.before_under_of_lt hlt f g

/-! ## The walk -/

theorem isPuzzleName_getLast_iff {f : FileBelow} :
    f.names.getLast?.any isPuzzleName = true ↔ f.IsPuzzle := by
  simp only [FileBelow.IsPuzzle, Option.any_eq_true, isPuzzleName_iff]
  constructor
  · rintro ⟨_, hname, stem, hstem, rfl⟩
    exact ⟨stem, hstem, hname⟩
  · rintro ⟨stem, hstem, hname⟩
    exact ⟨_, hname, stem, hstem, rfl⟩

/-- The file is a puzzle that the walk meets below the path `root`. -/
def visits (root : String) (f : FileBelow) : Bool :=
  f.names.getLast?.any isPuzzleName && decide ((f.path root).utf8ByteSize ≤ maxPathBytes)

private theorem visits_iff {root : String} {f : FileBelow} :
    visits root f = true ↔ f.IsPuzzle ∧ f.Opens root := by
  rw [visits, Bool.and_eq_true, isPuzzleName_getLast_iff, decide_eq_true_iff]
  rfl

/-- From the directory above, a file below a directory is visited under the same path. -/
private theorem visits_under (root name last : String) (f : FileBelow) :
    visits root ((f.under last).under name) = visits (join root name) (f.under last) := by
  rw [visits, visits]
  rfl

/-- The walk visits the files that the tree shows. -/
private theorem puzzlesAt_join (root name : String) (e : Entry) :
    puzzlesAt (join root name) name e =
      (((files e).map (FileBelow.under name)).filter (visits root)).map
        fun f => (f.path root, f.content) := by
  -- for every path, as the walk goes on with a longer one below a directory
  induction e using induction generalizing root name with
  | other e hother =>
    rw [puzzlesAt_other hother, files_other hother, puzzle]
    cases e.regular? with
    | none => rfl
    | some content =>
      rw [Option.toList_some, List.map_singleton, List.map_singleton, List.filter_singleton]
      have hvisits : visits root (.under name { names := [], content }) =
          (isPuzzleName name && decide ((join root name).utf8ByteSize ≤ maxPathBytes)) := rfl
      rw [hvisits]
      dsimp only
      split
      next h =>
        rw [h.1, decide_eq_true h.2]
        rfl
      next h =>
        rw [← decide_eq_true_iff (p := (_ ≤ maxPathBytes)), ← Bool.and_eq_true] at h
        rw [Bool.eq_false_iff.mpr h]
        rfl
  | directory entries access ih =>
    rw [puzzlesAt, files]
    split
    case isFalse => rfl
    rw [puzzlesIn_eq_flatMap, filesIn_eq_flatMap, List.map_flatMap, List.filter_flatMap,
      List.map_flatMap]
    refine List.flatMap_congr fun ⟨last, e⟩ hentry => ?_
    dsimp only
    rw [ih last e hentry, List.map_map, List.filter_map, List.filter_map, List.map_map,
      List.map_map]
    have hvisits : visits (join root name) ∘ FileBelow.under last =
        visits root ∘ FileBelow.under name ∘ FileBelow.under last :=
      funext fun f => (visits_under root name last f).symm
    rw [hvisits]
    rfl

/-- The puzzle files below a directory stand in order. Those that the walk sees and that can be
    opened are all there. -/
theorem exists_puzzlesIn {entries : List (String × Entry)} {access : Access}
    (h : Distinct (directory entries access)) (root : String) :
    ∃ found : List FileBelow, found.Pairwise FileBelow.Before ∧
      (∀ f, f ∈ found ↔ (directory entries access).Shows f ∧ f.IsPuzzle ∧ f.Opens root) ∧
      (if access.shows then puzzlesIn root (sortAll entries) else []) =
        found.map fun f => (f.path root, f.content) := by
  refine ⟨(files (sort (directory entries access))).filter (visits root),
    (pairwise_files_sort h).filter _, fun f => ?_, ?_⟩
  · rw [List.mem_filter, mem_files_sort, mem_files_iff, visits_iff]
  · rw [sort, files]
    split
    case isFalse => rfl
    rw [puzzlesIn_eq_flatMap, filesIn_eq_flatMap, List.filter_flatMap, List.map_flatMap]
    exact List.flatMap_congr fun x _ => puzzlesAt_join root x.1 x.2

end Entry

end ExactCover.CommandLine
