/-!
# Blank characters

The one notion of white space that every grammar, every trimming and every escaping of this library
uses: the twenty-five code points with the `White_Space` property.

* `isBlank` — membership;
* `dropBlanks`, `trim` — cutting blanks at the front, or at both ends;
* `replaceChar` — one character for another throughout a text.
-/

namespace BlockMachine.Text

/-- The code points with the `White_Space` property, in order. -/
def blankPoints : List Nat :=
  [0x09, 0x0a, 0x0b, 0x0c, 0x0d, 0x20, 0x85, 0xa0, 0x1680, 0x2000, 0x2001, 0x2002, 0x2003, 0x2004,
    0x2005, 0x2006, 0x2007, 0x2008, 0x2009, 0x200a, 0x2028, 0x2029, 0x202f, 0x205f, 0x3000]

/-- Whether `c` is white space. -/
def isBlank (c : Char) : Bool :=
  blankPoints.contains c.toNat

/-- The text without the blanks in front. -/
def dropBlanks (s : List Char) : List Char :=
  s.dropWhile isBlank

/-- The text without the blanks at its two ends. -/
def trim (s : List Char) : List Char :=
  (dropBlanks (dropBlanks s).reverse).reverse

/-- Whether the text consists of blanks only. -/
def isBlankText (s : String) : Bool :=
  s.toList.all isBlank

/-- Writes `new` for every `old`. -/
def replaceChar (old new : Char) (s : String) : String :=
  String.ofList (s.toList.map fun c => if c = old then new else c)

end BlockMachine.Text
