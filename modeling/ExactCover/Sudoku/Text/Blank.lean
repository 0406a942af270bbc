/-!
# Blank characters

The characters with the Unicode property `White_Space`. There are 25 of them, and core's
`Char.isWhitespace` knows four.
-/

namespace ExactCover.Sudoku

/-- The first and the last code point of each range of blank characters. -/
def blankRanges : List (Nat × Nat) :=
  [(0x9, 0xD), (0x20, 0x20), (0x85, 0x85), (0xA0, 0xA0), (0x1680, 0x1680), (0x2000, 0x200A),
    (0x2028, 0x2029), (0x202F, 0x202F), (0x205F, 0x205F), (0x3000, 0x3000)]

/-- The character has the property `White_Space`. -/
def isBlank (c : Char) : Bool :=
  blankRanges.any fun (first, last) => first ≤ c.toNat && c.toNat ≤ last

end ExactCover.Sudoku
