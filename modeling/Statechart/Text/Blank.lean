/-!
# Blank text

A room id or a message that consists of blanks only counts as missing, and a
display mode is read with the blanks around it removed. "Blank" is a property of
characters that a standard fixes: the 25 code points with the property
`White_Space`. The zero-width characters (U+200B, U+2060, U+FEFF), the Mongolian
vowel separator and the information separators U+001C to U+001F are not in it.
-/

namespace Statechart.Text

/-- The ranges of code points with the property `White_Space`. -/
def blankRanges : List (Nat × Nat) :=
  [(0x09, 0x0D), (0x20, 0x20), (0x85, 0x85), (0xA0, 0xA0), (0x1680, 0x1680), (0x2000, 0x200A),
   (0x2028, 0x2029), (0x202F, 0x202F), (0x205F, 0x205F), (0x3000, 0x3000)]

/-- Whether a character is a blank. -/
def isBlank (c : Char) : Bool :=
  blankRanges.any fun r => r.1 ≤ c.toNat && c.toNat ≤ r.2

/-- The characters without their leading blanks. -/
def dropBlanks (cs : List Char) : List Char := cs.dropWhile isBlank

/-- The text without the blanks at either end. -/
def trimBlanks (s : String) : String :=
  String.ofList (dropBlanks (dropBlanks s.toList).reverse).reverse

/-- Whether a text has nothing but blanks in it. -/
def allBlank (s : String) : Bool := s.toList.all isBlank

example : (blankRanges.map fun r => r.2 - r.1 + 1).sum = 25 := by decide

end Statechart.Text
