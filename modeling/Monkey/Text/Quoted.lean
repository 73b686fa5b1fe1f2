import Monkey.Text.GraphemeExtend
import Monkey.Text.Unprintable

/-!
# Quoted text

The one-line written form of a string: in double quotes, with an escape for
everything that would not show as itself.
-/

namespace Monkey.Text

/-- A character stands for itself when it shows something and does not attach
to its neighbour. -/
def showsAsItself (c : Char) : Bool :=
  if c.toNat < 0x80 then 0x20 ≤ c.toNat && c.toNat < 0x7F
  else !graphemeExtend.contains c && !unprintable.contains c

/-- The lower-case hexadecimal digits of a number. -/
def hex (n : Nat) : String :=
  String.ofList (Nat.toDigits 16 n)

/-- How a character is written between double quotes. A single quote needs no
escape there. -/
def escaped (c : Char) : String :=
  if c == '"' then "\\\""
  else if c == '\\' then "\\\\"
  else if c == '\n' then "\\n"
  else if c == '\r' then "\\r"
  else if c == '\t' then "\\t"
  else if c.toNat == 0 then "\\0"
  else if showsAsItself c then c.toString
  else "\\u\x7b" ++ hex c.toNat ++ "\x7d"

/-- A text in double quotes, each character written as `escaped` says. -/
def quoted (s : String) : String :=
  (s.foldl (fun out c => out ++ escaped c) "\"").push '"'

end Monkey.Text
