-- SUMMARY: The blanks that separate words: the characters with the Unicode property `White_Space`.

namespace Predictive.Text

/-- The characters with the property `White_Space`, as ranges of code points with both ends
    included. -/
def blankRanges : List (Nat × Nat) :=
  [(0x09, 0x0d), (0x20, 0x20), (0x85, 0x85), (0xa0, 0xa0), (0x1680, 0x1680), (0x2000, 0x200a),
    (0x2028, 0x2029), (0x202f, 0x202f), (0x205f, 0x205f), (0x3000, 0x3000)]

def isBlank (c : Char) : Bool :=
  blankRanges.any fun (low, high) => low ≤ c.toNat && c.toNat ≤ high

/-- The property has twenty-five characters. -/
example : (blankRanges.map fun (low, high) => high + 1 - low).sum = 25 := by decide

end Predictive.Text
