/-!
# Blank characters

The White_Space property of the Unicode standard, and trimming by it. The zero-width space is not
in the property.
-/

namespace Marshal.Text

/-- Whether a character has the White_Space property. -/
def isBlank (c : Char) : Bool :=
  let n := c.toNat
  (9 ≤ n && n ≤ 13) || n == 0x20 || n == 0x85 || n == 0xA0 || n == 0x1680 ||
    (0x2000 ≤ n && n ≤ 0x200A) || n == 0x2028 || n == 0x2029 || n == 0x202F || n == 0x205F ||
    n == 0x3000

/-- The characters without the blank ones in front. -/
def dropBlank (cs : List Char) : List Char := cs.dropWhile isBlank

/-- The characters without the blank ones at either end. -/
def trimChars (cs : List Char) : List Char := (dropBlank (dropBlank cs).reverse).reverse

/-- The text without blank characters at either end. -/
def trim (s : String) : String := String.ofList (trimChars s.toList)

/-- A text with its ASCII capitals made small. -/
def lowerAscii (s : String) : String := s.map Char.toLower

/-- Whether two texts agree when the case of ASCII letters is ignored. -/
def sameIgnoringCase (s t : String) : Bool := lowerAscii s == lowerAscii t

end Marshal.Text
