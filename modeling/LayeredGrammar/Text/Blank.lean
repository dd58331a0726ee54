import LayeredGrammar.Text.CharRange

/-!
# Blank characters

The white space of every script, together with the control characters that separate files,
groups, records and units. The zero-width space and the byte order mark are not blank.
-/

namespace LayeredGrammar.Text

/-- Code points of the blank characters. -/
def blankRanges : CharRanges :=
  [(0x9, 0xD), (0x1C, 0x20), (0x85, 0x85), (0xA0, 0xA0), (0x1680, 0x1680), (0x2000, 0x200A),
   (0x2028, 0x2029), (0x202F, 0x202F), (0x205F, 0x205F), (0x3000, 0x3000)]

/-- White space of every script. -/
def isBlank (c : Char) : Bool := blankRanges.has c.toNat

/-- A text without the blanks at either end. -/
def trimBlank (cs : List Char) : List Char :=
  ((cs.dropWhile isBlank).reverse.dropWhile isBlank).reverse

end LayeredGrammar.Text
