/-! # White space

The characters with the Unicode property `White_Space`: the ASCII blanks and controls, next
line, the no-break space, and the spaces and separators of the higher blocks. -/

namespace TreeControl

/-- The ranges of code points with the property `White_Space`, ends included. -/
def whitespaceRanges : List (Nat × Nat) :=
  [(0x09, 0x0D), (0x20, 0x20), (0x85, 0x85), (0xA0, 0xA0), (0x1680, 0x1680), (0x2000, 0x200A),
    (0x2028, 0x2029), (0x202F, 0x202F), (0x205F, 0x205F), (0x3000, 0x3000)]

/-- Whether a character separates words. -/
def isWhitespace (c : Char) : Bool :=
  whitespaceRanges.any fun r => r.1 ≤ c.toNat && c.toNat ≤ r.2

example : (whitespaceRanges.map fun r => r.2 + 1 - r.1).sum = 25 := by decide

end TreeControl
