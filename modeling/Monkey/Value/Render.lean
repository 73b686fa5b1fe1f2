import Monkey.Value.Basic
import Monkey.Text.Quoted

/-!
# Values as text

What `puts` prints and a session shows. Functions are shown by their address, and which one an
object has is a parameter of the text: `addressText` numbers the objects as they were made.

Each function appends to `out`, which keeps the work linear in the text.
-/

namespace Monkey

/-- The text of a truth value. -/
def boolText (value : Bool) : String :=
  if value then "true" else "false"

/-- Appends the text of a key. -/
def Key.write (out : String) : Key → String
  | .int value => out ++ toString value.toInt
  | .bool value => out ++ boolText value
  | .str text => out ++ text

/-- The constructor form of a key. -/
def Key.label : Key → String
  | .int value => "Integer(" ++ toString value.toInt ++ ")"
  | .bool value => "Boolean(" ++ boolText value ++ ")"
  | .str text => "String(" ++ Text.quoted text ++ ")"

/-- The address that an object has unless another one is given: its identity, in
hexadecimal. -/
def addressText (id : Identity) : String :=
  "0x" ++ Text.hex id

section

variable (address : Identity → String)

mutual

/-- Appends the text of a value. -/
def ValueOf.write (out : String) : ValueOf F → String
  | .int value => out ++ toString value.toInt
  | .bool value => out ++ boolText value
  | .str text => out ++ text
  | .null => out ++ "null"
  | .array _ elements => (writeElements (out.push '[') true elements).push ']'
  | .hash _ entries => (writeEntries (out.push '\x7b') true entries).push '\x7d'
  | .template id _ => out ++ "CompiledFunction[" ++ address id ++ "]"
  | .closure id _ _ => out ++ "Closure[" ++ address id ++ "]"
  | .builtin function => out ++ "builtin function " ++ function.name
  | .error _ message => out ++ "ERROR: " ++ message

/-- Appends values, with a comma before each but the first. -/
def writeElements (out : String) (first : Bool) : List (ValueOf F) → String
  | [] => out
  | value :: rest => writeElements (value.write (if first then out else out ++ ", ")) false rest

/-- Appends entries, with a comma before each but the first. -/
def writeEntries (out : String) (first : Bool) : List (Key × ValueOf F) → String
  | [] => out
  | entry :: rest => writeEntries (writeEntry (if first then out else out ++ ", ") entry) false rest

/-- Appends one entry of a hash. -/
def writeEntry (out : String) : Key × ValueOf F → String
  | (key, value) => value.write (key.write out ++ ": ")

end

end

/-- The text of a value. -/
def ValueOf.render (v : ValueOf F) : String :=
  v.write addressText ""

end Monkey
