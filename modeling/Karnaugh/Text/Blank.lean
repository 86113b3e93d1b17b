/-!
# Blank characters

The characters that separate words and carry no meaning of their own: the
members of Unicode's `White_Space` property, listed as ranges of code points.
-/

namespace Karnaugh.Text

/-- The ranges of code points, both ends included, that `White_Space` holds. -/
def blankRanges : List (Nat × Nat) :=
  [(0x09, 0x0D), (0x20, 0x20), (0x85, 0x85), (0xA0, 0xA0), (0x1680, 0x1680),
    (0x2000, 0x200A), (0x2028, 0x2029), (0x202F, 0x202F), (0x205F, 0x205F),
    (0x3000, 0x3000)]

/-- Whether a character lies in one of the blank ranges. -/
def isBlank (c : Char) : Bool :=
  blankRanges.any fun r => r.1 ≤ c.toNat && c.toNat ≤ r.2

/-- A character that ASCII prints is not blank. -/
theorem isBlank_of_graphic {c : Char} (h : 0x20 < c.toNat) (h' : c.toNat < 0x7F) :
    isBlank c = false := by
  simp only [isBlank, blankRanges, List.any_cons, List.any_nil, Bool.or_false]
  simp
  omega

end Karnaugh.Text
