/-
  Blank characters: the 25 characters with the Unicode property White_Space, as ranges of code
  points, and texts without the blanks around them.
-/

namespace MountRegistry.Text

/-- The first and the last character of each range. -/
def blankRanges : List (Nat × Nat) :=
  [(0x9, 0xd), (0x20, 0x20), (0x85, 0x85), (0xa0, 0xa0), (0x1680, 0x1680), (0x2000, 0x200a),
    (0x2028, 0x2029), (0x202f, 0x202f), (0x205f, 0x205f), (0x3000, 0x3000)]

/-- Whether a character is in one of the ranges. -/
def isBlank (c : Char) : Bool :=
  blankRanges.any fun (lo, hi) => lo ≤ c.toNat && c.toNat ≤ hi

/-- The text without the blanks at its start. -/
def trimLeft (s : List Char) : List Char := s.dropWhile isBlank

/-- The text without the blanks at its start and end. -/
def trim (s : List Char) : List Char := (trimLeft (trimLeft s).reverse).reverse

end MountRegistry.Text
