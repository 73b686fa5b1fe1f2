import Monkey.Text.Alphabetic
import Monkey.Text.Numeric

/-!
# The character classes of the lexer

Blank space, letters and word characters, over all of Unicode. The ASCII part
of each class is spelled out, so the tables are consulted beyond it only.
-/

namespace Monkey.Text

/-- The Unicode property `White_Space`. -/
def isBlank (c : Char) : Bool :=
  c == ' ' || (0x09 ≤ c.toNat && c.toNat ≤ 0x0D) || c.toNat == 0x85 || c.toNat == 0xA0 ||
  c.toNat == 0x1680 || (0x2000 ≤ c.toNat && c.toNat ≤ 0x200A) || c.toNat == 0x2028 ||
  c.toNat == 0x2029 || c.toNat == 0x202F || c.toNat == 0x205F || c.toNat == 0x3000

/-- A character that may stand in a word as a letter. -/
def isLetter (c : Char) : Bool :=
  if c.toNat < 0x80 then c.isAlpha else alphabetic.contains c

/-- A number character of any script. -/
def isNumeral (c : Char) : Bool :=
  if c.toNat < 0x80 then c.isDigit else numeric.contains c

/-- A word starts with a letter or an underscore. -/
def isWordStart (c : Char) : Bool :=
  c == '_' || isLetter c

/-- A word goes on with letters, numerals and underscores. -/
def isWordChar (c : Char) : Bool :=
  isWordStart c || isNumeral c

end Monkey.Text
