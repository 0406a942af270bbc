import ExactCover.Selection
import ExactCover.Proofs.Matrix.Walk
import Mathlib.Data.List.MinMax

/-!
# The chosen column

Each rule chooses by the order of the active columns and by their sizes alone. The scan over the
matrix finds the column that the rule names.

## Key results

- `choose_eq_some_iff`: what a rule chooses is what it asks for
- `select_eq`: the scan over a matrix chooses by its active columns and their sizes
-/

namespace ExactCover

/-- The column that a rule chooses among columns of the given sizes. -/
def Selection.choose (rule : Selection) (columns : List Nat) (size : Nat → Nat) : Option Nat :=
  match rule with
  | minimumSize => columns.argmin size
  | firstSingleton => (columns.find? (size · = 1)).or columns.head?

/-- What a rule asks of the column it chooses. Either no column is smaller, and those before it are
    larger; or it is the first of size one, or the first of all if no column has size one. -/
def Selection.Chooses (rule : Selection) (columns : List Nat) (size : Nat → Nat) (c : Nat) : Prop :=
  match rule with
  | minimumSize => ∃ before after, columns = before ++ c :: after ∧
      (∀ d ∈ before, size c < size d) ∧ ∀ d ∈ columns, size c ≤ size d
  | firstSingleton =>
      (∃ before after, columns = before ++ c :: after ∧ (∀ d ∈ before, size d ≠ 1) ∧ size c = 1) ∨
      ((∀ d ∈ columns, size d ≠ 1) ∧ columns.head? = some c)

namespace Selection

variable {m : Matrix} {size : Nat → Nat} {columns done rest : List Nat} {c : Nat}

/-- A rule chooses among the columns it is shown. -/
theorem mem_of_choose_eq_some {rule : Selection} (h : rule.choose columns size = some c) :
    c ∈ columns := by
  cases rule with
  | minimumSize => exact List.argmin_mem h
  | firstSingleton =>
    rw [choose, Option.or_eq_some_iff] at h
    rcases h with h | ⟨-, h⟩
    · exact List.mem_of_find?_eq_some h
    · exact List.mem_of_head? h

/-- A rule chooses a column if there is one. -/
theorem choose_eq_none {rule : Selection} : rule.choose columns size = none ↔ columns = [] := by
  cases rule with
  | minimumSize => exact List.argmin_eq_none
  | firstSingleton =>
    rw [choose, Option.or_eq_none_iff, List.head?_eq_none_iff]
    exact ⟨And.right, fun h => ⟨by rw [h]; rfl, h⟩⟩

/-- The first of the columns of least size is the one that the minimum rule asks for. -/
private theorem argmin_eq_some_iff_chooses :
    columns.argmin size = some c ↔ minimumSize.Chooses columns size c := by
  rw [List.argmin_eq_some_iff]
  constructor
  -- from `argmin` to the rule: split the columns at the one chosen
  · rintro ⟨hc, hleast, hfirst⟩
    obtain ⟨before, after, rfl, hnot⟩ := List.eq_append_cons_of_mem hc
    refine ⟨before, after, rfl, fun d hd => ?_, hleast⟩
    by_contra hlt
    -- a column before it that is as small would have a smaller index
    have hle := hfirst d (List.mem_append_left _ hd) (Nat.le_of_not_lt hlt)
    rw [List.idxOf_append_of_notMem hnot, List.idxOf_append_of_mem hd] at hle
    have hidx := List.idxOf_lt_length_of_mem hd
    omega
  -- back: what stands before it is larger, so nothing as small has a smaller index
  · rintro ⟨before, after, rfl, hbefore, hleast⟩
    have hnot : ∀ d, size d ≤ size c → d ∉ before := fun d hle hd =>
      Nat.not_lt.mpr hle (hbefore d hd)
    refine ⟨by simp, hleast, fun d _ hle => ?_⟩
    rw [List.idxOf_append_of_notMem (hnot c (Nat.le_refl _)),
      List.idxOf_append_of_notMem (hnot d hle), List.idxOf_cons_self]
    omega

/-- The first singleton, or the first column, is the one that the other rule asks for. -/
private theorem find?_or_head?_eq_some_iff_chooses :
    (columns.find? (size · = 1)).or columns.head? = some c ↔
      firstSingleton.Chooses columns size c := by
  rw [Option.or_eq_some_iff, List.find?_eq_some_iff_append, List.find?_eq_none]
  simp only [Chooses, decide_eq_true_eq, Bool.not_eq_true', decide_eq_false_iff_not]
  refine or_congr_left ⟨?_, ?_⟩
  · rintro ⟨hc, before, after, hcolumns, hbefore⟩
    exact ⟨before, after, hcolumns, hbefore, hc⟩
  · rintro ⟨before, after, hcolumns, hbefore, hc⟩
    exact ⟨hc, before, after, hcolumns, hbefore⟩

/-- A rule chooses the column it asks for. -/
theorem choose_eq_some_iff {rule : Selection} :
    rule.choose columns size = some c ↔ rule.Chooses columns size c := by
  cases rule with
  | minimumSize => exact argmin_eq_some_iff_chooses
  | firstSingleton => exact find?_or_head?_eq_some_iff_chooses

/-- An empty column behind columns that are not empty is the first of least size. -/
private theorem argmin_of_size_eq_zero (hdone : ∀ d ∈ done, size d ≠ 0) (hc : size c = 0) :
    (done ++ c :: rest).argmin size = some c := by
  rw [List.argmin_eq_some_iff]
  refine ⟨by simp, fun d _ => ?_, fun d hd hle => ?_⟩
  · rw [hc]
    exact Nat.zero_le _
  -- columns in front have a size other than zero, so the empty one is the first
  · have hnot : ∀ e, size e = 0 → e ∉ done := fun e he hmem => hdone e hmem he
    rw [List.idxOf_append_of_notMem (hnot c hc), List.idxOf_append_of_notMem (hnot d (by omega)),
      List.idxOf_cons_self]
    omega

/-- The scan goes on with the first of the least columns it has met. -/
private theorem scanMinimum_eq (done : List Nat) (hsize : ∀ d ∈ rest, m.columnSize d = .ok (size d))
    (hdone : ∀ d ∈ done, size d ≠ 0) :
    scanMinimum m ((done.argmin size).map fun d => (d, size d)) rest =
      .ok ((done ++ rest).argmin size) := by
  -- induction on the rest; an empty column ends the scan, since no other can be smaller
  induction rest generalizing done with
  | nil =>
    rw [scanMinimum, List.append_nil, Option.map_map]
    congr 1
    exact Option.map_id'
  | cons c rest ih =>
    simp only [scanMinimum, hsize c (List.mem_cons_self ..), ok_bind]
    by_cases hc : size c = 0
    · rw [if_pos hc, argmin_of_size_eq_zero hdone hc]
      rfl
    -- the column joins those met so far
    · rw [if_neg hc]
      have hrest := ih (done ++ [c]) (fun d hd => hsize d (List.mem_cons_of_mem c hd))
        (by
          intro d hd
          rcases List.mem_append.mp hd with hd | hd
          · exact hdone d hd
          · rwa [List.mem_singleton.mp hd])
      rw [List.append_assoc, List.singleton_append, List.argmin_concat] at hrest
      rw [← hrest]
      -- the best so far is kept or replaced by the same comparison
      cases done.argmin size with
      | none => rfl
      | some b =>
        by_cases hlt : size c < size b <;> simp [hlt]

/-- The scan for a singleton finds the first of them. -/
private theorem findSingleton_eq (hsize : ∀ d ∈ columns, m.columnSize d = .ok (size d)) :
    findSingleton m columns = .ok (columns.find? (size · = 1)) := by
  induction columns with
  | nil => rfl
  | cons c columns ih =>
    -- induction on the columns; the first of size one ends the scan
    simp only [findSingleton, hsize c (List.mem_cons_self ..), ok_bind, List.find?_cons]
    by_cases hc : size c = 1
    · simp only [if_pos, hc, decide_true]
      rfl
    · simp only [hc, if_false, decide_false]
      exact ih fun d hd => hsize d (List.mem_cons_of_mem c hd)

/-- The scan over a matrix chooses by its active columns and their sizes. -/
theorem select_eq (rule : Selection) (hcolumns : m.activeColumns = .ok columns)
    (hsize : ∀ d ∈ columns, m.columnSize d = .ok (size d)) :
    rule.select m = .ok (rule.choose columns size) := by
  simp only [select, hcolumns, ok_bind]
  cases rule with
  | minimumSize => exact scanMinimum_eq [] hsize (by simp)
  | firstSingleton =>
    cases columns with
    | nil => rfl
    | cons c columns =>
      simp only [findSingleton_eq hsize, ok_bind, choose]
      cases (c :: columns).find? _ <;> rfl

end Selection
end ExactCover
