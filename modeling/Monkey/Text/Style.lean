/-!
# Terminal styles

Colours and weights as escape sequences around a text.
-/

namespace Monkey.Text

/-- The character that opens a terminal control sequence. -/
def escapeChar : Char := Char.ofNat 0x1B

/-- The control sequence that switches the terminal to a style. -/
def select (style : Nat) : String :=
  escapeChar.toString ++ "[" ++ toString style ++ "m"

/-- A style: the code that starts it and the code that ends it. -/
structure Style where
  start : Nat
  stop : Nat

namespace Style

def red : Style := ⟨31, 39⟩
def cyan : Style := ⟨36, 39⟩
def brightWhite : Style := ⟨97, 39⟩
def bold : Style := ⟨1, 0⟩
def dimmed : Style := ⟨2, 0⟩

/-- The text between the codes of a style. -/
def paint (style : Style) (text : String) : String :=
  select style.start ++ text ++ select style.stop

end Style

/-- A text painted only where colours are wanted. -/
def paintIf (color : Bool) (style : Style) (text : String) : String :=
  if color then style.paint text else text

/-- A text filled up with blanks on the right to a least width. -/
def padRight (width : Nat) (text : String) : String :=
  text ++ String.ofList (List.replicate (width - text.length) ' ')

/-- A number filled up with zeros on the left to a least number of digits. -/
def padZeros (width : Nat) (n : Nat) : String :=
  let digits := toString n
  String.ofList (List.replicate (width - digits.length) '0') ++ digits

end Monkey.Text
