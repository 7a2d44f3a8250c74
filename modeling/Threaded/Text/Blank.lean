import Threaded.Text.Cut

/-!
# Blanks

The characters with the Unicode property `White_Space`, twenty-five of them, and the cutting
of a text's blank ends.
-/

namespace Threaded.Text

/-- The code points of the property `White_Space`. -/
def blanks : List Nat :=
  [0x09, 0x0A, 0x0B, 0x0C, 0x0D, 0x20, 0x85, 0xA0, 0x1680, 0x2000, 0x2001, 0x2002, 0x2003,
    0x2004, 0x2005, 0x2006, 0x2007, 0x2008, 0x2009, 0x200A, 0x2028, 0x2029, 0x202F, 0x205F,
    0x3000]

/-- Whether a character is blank. -/
def isBlank (c : Char) : Bool :=
  blanks.contains c.toNat

/-- A text without the blanks at its two ends. -/
def trimmed (s : String) : String :=
  String.ofList (dropEnd isBlank (s.toList.dropWhile isBlank))

end Threaded.Text
