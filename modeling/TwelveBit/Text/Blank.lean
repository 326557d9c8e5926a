/-!
# Blank characters

A character is blank when it has the property White_Space: twenty-five code points in ten ranges.
The byte order mark U+FEFF and the zero-width spaces do not have it.
-/

namespace TwelveBit

/-- The code points with the property White_Space, as closed ranges in increasing order. -/
def blankRanges : List (Nat × Nat) :=
  [(0x09, 0x0d), (0x20, 0x20), (0x85, 0x85), (0xa0, 0xa0), (0x1680, 0x1680),
   (0x2000, 0x200a), (0x2028, 0x2029), (0x202f, 0x202f), (0x205f, 0x205f), (0x3000, 0x3000)]

/-- Whether a character has the property White_Space. -/
def isBlank (c : Char) : Bool :=
  blankRanges.any fun (first, last) => first ≤ c.toNat && c.toNat ≤ last

/-- The ranges name twenty-five code points. -/
example : (blankRanges.map fun (first, last) => last + 1 - first).sum = 25 := by decide

end TwelveBit
