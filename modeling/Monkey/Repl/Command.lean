import Monkey.Text.Style

/-!
# Commands of the prompt

An entry that is a dot and a known word is a command; case does not matter.
-/

namespace Monkey.Repl

/-- What can be asked of the prompt itself. -/
inductive Command where
  | help
  | exit
  | clear
  deriving DecidableEq

namespace Command

/-- The command that a word names. The words are ASCII, and no other letter has a
lower case among theirs. -/
def ofWord? (word : String) : Option Command :=
  match word.toLower with
  | "help" | "h" | "?" => some .help
  | "exit" | "quit" | "q" => some .exit
  | "clear" | "cls" => some .clear
  | _ => none

/-- The command that an entry is. -/
def ofEntry? (entry : String) : Option Command :=
  match entry.toList with
  | '.' :: word => ofWord? (String.ofList word)
  | _ => none

/-- The commands with their descriptions. -/
def descriptions : List (String × String) :=
  [(".help", "Show this help message"),
   (".exit", "Exit the REPL"),
   (".clear", "Clear the screen")]

/-- The help text, a line for each command. -/
def helpText (color : Bool) : String :=
  String.join (descriptions.map fun (name, description) =>
    "  " ++ Text.paintIf color .cyan (Text.padRight 16 name) ++ " " ++
      Text.paintIf color .dimmed description ++ "\n")

/-- The control sequences that empty the screen. -/
def clearScreen : String :=
  let esc := Text.escapeChar.toString
  esc ++ "[2J" ++ esc ++ "[H"

end Command

end Monkey.Repl
