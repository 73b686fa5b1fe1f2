import Monkey.Text.CharClass

/-!
# Lines

Input is read line by line. A line carries its ending, a newline with or without a carriage return;
only the last line of a text may lack one.
-/

namespace Monkey.Text

/-- The lines of a text, given the start of the first. -/
def linesFrom (line : String) : List Char → List String
  | [] => if line.isEmpty then [] else [line]
  | c :: cs =>
      if c = '\n' then line.push c :: linesFrom "" cs else linesFrom (line.push c) cs

/-- The lines of a text with their endings. -/
def lines (text : String) : List String :=
  linesFrom "" text.toList

/-- Characters in reverse without the line ending they start with. -/
def dropEnding : List Char → List Char
  | '\n' :: '\r' :: cs => cs
  | '\n' :: cs => cs
  | cs => cs

/-- A text without the ending of its last line. -/
def withoutEnding (text : String) : String :=
  String.ofList (dropEnding text.toList.reverse).reverse

/-- A text without the blanks at its two ends. -/
def trim (text : String) : String :=
  String.ofList ((text.toList.dropWhile isBlank).reverse.dropWhile isBlank).reverse

end Monkey.Text
