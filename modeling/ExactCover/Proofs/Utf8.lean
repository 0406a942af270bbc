import Mathlib.Data.List.Basic

/-!
# Texts and their bytes

The bytes of a text in UTF-8, character by character. The byte of a line feed stands for a line
feed only, so a text can be cut into lines before or after it is encoded. And bytes are ordered as
characters are, so two texts can be compared before or after they are encoded.

## Key results

- `eq_of_ten_mem`: where the byte of a line feed comes from
- `utf8_lt_utf8`: the order of texts is that of their bytes
-/

namespace ExactCover

/-- The bytes of a text. -/
def utf8 (text : List Char) : List UInt8 := text.flatMap String.utf8EncodeChar

@[simp] theorem utf8_nil : utf8 [] = [] := rfl

@[simp] theorem utf8_cons (c : Char) (text : List Char) :
    utf8 (c :: text) = String.utf8EncodeChar c ++ utf8 text := List.flatMap_cons

/-- The bytes of a string are those of its characters. -/
theorem toUTF8_toList (s : String) : s.toUTF8.data.toList = utf8 s.toList := by
  have h : s.toUTF8 = s.toList.utf8Encode := String.utf8Encode_toList.symm
  rw [h, List.utf8Encode, utf8]
  simp

/-! ## The bytes of a character as numbers -/

/-- The bytes of the character with the code point `v`. -/
def codeUnits (v : Nat) : List Nat :=
  if v ≤ 0x7F then [v]
  else if v ≤ 0x7FF then [v / 64 + 0xC0, v % 64 + 0x80]
  else if v ≤ 0xFFFF then [v / 4096 + 0xE0, v / 64 % 64 + 0x80, v % 64 + 0x80]
  else [v / 262144 + 0xF0, v / 4096 % 64 + 0x80, v / 64 % 64 + 0x80, v % 64 + 0x80]

/-- Every character has a first byte. -/
private theorem codeUnits_ne_nil (v : Nat) : codeUnits v ≠ [] := by
  rw [codeUnits]
  split_ifs <;> exact List.cons_ne_nil _ _

/-- A character is one of the code points that four bytes can hold. -/
private theorem codePoint_lt (c : Char) : c.toNat < 0x110000 := by
  have h := c.valid
  simp only [UInt32.isValidChar, Nat.isValidChar] at h
  show c.val.toNat < _
  omega

/-- The bytes of a character are given by its code point. -/
private theorem map_toNat_utf8EncodeChar (c : Char) :
    (String.utf8EncodeChar c).map UInt8.toNat = codeUnits c.toNat := by
  have hlt := codePoint_lt c
  have hval : c.val.toNat = c.toNat := rfl
  simp only [String.utf8EncodeChar, codeUnits, hval]
  split_ifs <;> simp <;> omega

/-- The byte of a line feed stands for a line feed. -/
theorem eq_of_ten_mem {c : Char} (h : 10 ∈ String.utf8EncodeChar c) : c = '\n' := by
  have hmem : 10 ∈ codeUnits c.toNat := by
    rw [← map_toNat_utf8EncodeChar]
    exact List.mem_map_of_mem (f := UInt8.toNat) h
  -- all bytes of a longer character are larger
  have hnat : c.toNat = 10 := by
    rw [codeUnits] at hmem
    split_ifs at hmem <;> simp only [List.mem_cons, List.not_mem_nil, or_false] at hmem <;> omega
  exact Char.ext (UInt32.toNat_inj.mp hnat)

/-! ## The order of bytes -/

/-- The bytes of two characters differ first where the greater character has the greater byte. -/
private theorem codeUnits_lt {v w : Nat} (h : v < w) (hw : w < 0x110000) (s t : List Nat) :
    codeUnits v ++ s < codeUnits w ++ t := by
  simp only [codeUnits]
  split_ifs <;> simp only [List.cons_append, List.nil_append, List.cons_lt_cons_iff] <;> omega

/-- Bytes are compared as numbers. -/
private theorem lt_of_map_toNat_lt {l l' : List UInt8}
    (h : l.map UInt8.toNat < l'.map UInt8.toNat) :
    l < l' := by
  -- induction up to the first byte in which the two differ
  induction l generalizing l' with
  | nil =>
    cases l' with
    | nil => exact absurd h (List.lt_irrefl _)
    | cons b l' => exact List.nil_lt_cons ..
  | cons a l ih =>
    cases l' with
    | nil => exact absurd h (List.not_lt_nil _)
    | cons b l' =>
      rw [List.map_cons, List.map_cons, List.cons_lt_cons_iff] at h
      rw [List.cons_lt_cons_iff]
      exact h.imp UInt8.lt_iff_toNat_lt.mpr fun h => ⟨UInt8.toNat_inj.mp h.1, ih h.2⟩

/-- The bytes of a text are given by its code points. -/
private theorem map_toNat_utf8 (text : List Char) :
    (utf8 text).map UInt8.toNat = text.flatMap fun c => codeUnits c.toNat := by
  simp only [utf8, List.map_flatMap, map_toNat_utf8EncodeChar]

/-- A text that comes before another one has bytes that come before those of the other. -/
theorem utf8_lt_utf8 {text text' : List Char} (h : text < text') : utf8 text < utf8 text' := by
  refine lt_of_map_toNat_lt ?_
  rw [map_toNat_utf8, map_toNat_utf8]
  -- induction up to the first character in which the texts differ
  induction text generalizing text' with
  | nil =>
    cases text' with
    | nil => exact absurd h (List.lt_irrefl _)
    | cons d text' =>
      obtain ⟨b, bytes, hd⟩ := List.exists_cons_of_ne_nil (codeUnits_ne_nil d.toNat)
      rw [List.flatMap_cons, hd]
      exact List.nil_lt_cons ..
  | cons c text ih =>
    cases text' with
    | nil => exact absurd h (List.not_lt_nil _)
    | cons d text' =>
      rw [List.flatMap_cons, List.flatMap_cons]
      rcases List.cons_lt_cons_iff.mp h with hlt | ⟨rfl, hlt⟩
      · exact codeUnits_lt hlt (codePoint_lt d) _ _
      · exact List.append_left_lt (ih hlt)

end ExactCover
