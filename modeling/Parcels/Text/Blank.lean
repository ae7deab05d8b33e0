/-!
# Blank characters

The characters with the Unicode property White_Space.
-/

namespace Parcels.Text

/-- The property as inclusive ranges of code points. -/
def blankRanges : List (Nat × Nat) :=
  [(0x09, 0x0d), (0x20, 0x20), (0x85, 0x85), (0xa0, 0xa0), (0x1680, 0x1680),
    (0x2000, 0x200a), (0x2028, 0x2029), (0x202f, 0x202f), (0x205f, 0x205f),
    (0x3000, 0x3000)]

def isBlank (char : Char) : Bool :=
  blankRanges.any fun range =>
    range.1 ≤ char.toNat && char.toNat ≤ range.2

end Parcels.Text
