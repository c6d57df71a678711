/-!
# Blank text

Names made of white space alone are refused. White space means the Unicode
property `White_Space`, whose twenty-five code points form ten intervals.
-/

namespace LiveIsolation.Text

/-- The intervals of the property `White_Space`, first and last code point. -/
def blankIntervals : List (Nat × Nat) :=
  [(0x9, 0xD), (0x20, 0x20), (0x85, 0x85), (0xA0, 0xA0), (0x1680, 0x1680),
    (0x2000, 0x200A), (0x2028, 0x2029), (0x202F, 0x202F), (0x205F, 0x205F), (0x3000, 0x3000)]

def isBlankChar (c : Char) : Bool :=
  blankIntervals.any fun r => decide (r.1 ≤ c.toNat) && decide (c.toNat ≤ r.2)

/-- A text is blank when it holds nothing but white space; the empty text is blank. -/
def isBlank (s : String) : Bool := s.toList.all isBlankChar

/-- The table has the twenty-five code points of the property. -/
example : (blankIntervals.map fun r => r.2 + 1 - r.1).sum = 25 := by decide

theorem isBlank_empty : isBlank "" = true := by simp [isBlank]

/-- Letters A to Z become a to z; every other character stays, inside and outside ASCII. -/
def lowerAscii (s : String) : String := String.ofList (s.toList.map Char.toLower)

end LiveIsolation.Text
