import Monkey.Machine.State
import Monkey.Toml.Reader

/-!
# Settings

What a TOML file can set: the limits of runs under `vm`, and the prompt under `repl`. Every key may
be missing, and keys of other names are ignored.
-/

namespace Monkey

/-- The settings of the command line. -/
structure Settings where
  limits : Limits := {}
  prompt : String := ">> "
  historyFile : String := ".monkey_history"

namespace Toml

/-- The fields of a record: a table by name, an array by position. A date or time is
a record too, of fields with other names. -/
def fields? : Toml → Option (String → Nat → Option Toml)
  | .table _ entries => some fun name _ => entries.lookup name
  | .array items => some fun _ position => items[position]?
  | .tables items => some fun _ position => items[position]?.map (.table .header)
  | .time _ => some fun _ _ => none
  | _ => none

/-- A number that is not negative. -/
def nat? : Toml → Option Nat
  | .int n => if 0 ≤ n then some n.toNat else none
  | _ => none

/-- A text. -/
def text? : Toml → Option String
  | .str text => some text
  | _ => none

/-- The value of a field that may be missing, in which case the default stands. A
field of the wrong type is refused. -/
def fieldOr (read : Toml → Option α) (field : Option Toml) (default : α) : Option α :=
  match field with
  | none => some default
  | some value => read value

end Toml

namespace Settings

/-- The limits that a value sets. -/
def limits? (value : Toml) : Option Limits := do
  let field ← value.fields?
  let standard : Limits := {}
  let stackSize ← Toml.fieldOr Toml.nat? (field "stack_size" 0) standard.stackSize
  let maxFrames ← Toml.fieldOr Toml.nat? (field "max_frames" 1) standard.maxFrames
  let globalsSize ← Toml.fieldOr Toml.nat? (field "globals_size" 2) standard.globalsSize
  let maxSteps ← Toml.fieldOr (fun v => v.nat?.map some) (field "max_steps" 3) standard.maxSteps
  return { stackSize, maxFrames, globalsSize, maxSteps }

/-- The prompt and the history file that a value sets. -/
def prompt? (value : Toml) : Option (String × String) := do
  let field ← value.fields?
  let standard : Settings := {}
  let prompt ← Toml.fieldOr Toml.text? (field "prompt" 0) standard.prompt
  let historyFile ← Toml.fieldOr Toml.text? (field "history_file" 1) standard.historyFile
  return (prompt, historyFile)

/-- The settings in a text, if it is a document with values of the right types. -/
def ofToml? (text : String) : Option Settings := do
  let entries ← Toml.read? text
  let standard : Settings := {}
  let limits ← Toml.fieldOr limits? (entries.lookup "vm") standard.limits
  let (prompt, historyFile) ←
    Toml.fieldOr prompt? (entries.lookup "repl") (standard.prompt, standard.historyFile)
  return { limits, prompt, historyFile }

end Settings

end Monkey
