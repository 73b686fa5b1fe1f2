import Monkey.Value.Basic

/-!
# Structural equality

Two values have the same structure when they are built alike, whatever objects they are made of.
The entries of hashes may come in any order.
-/

namespace Monkey

mutual

/-- Whether two values have the same structure. -/
def Value.alike : Value → Value → Bool
  | .int a, .int b => a == b
  | .bool a, .bool b => a == b
  | .str a, .str b => a == b
  | .null, .null => true
  | .array _ xs, .array _ ys => allAlike xs ys
  | .hash _ xs, .hash _ ys => xs.length == ys.length && entriesFound xs ys
  | .template _ a, .template _ b => a == b
  | .closure _ a xs, .closure _ b ys => a == b && allAlike xs ys
  | .builtin a, .builtin b => a == b
  | .error _ a, .error _ b => a == b
  | _, _ => false

/-- Whether two lists of values agree element by element. -/
def allAlike : List Value → List Value → Bool
  | [], [] => true
  | x :: xs, y :: ys => x.alike y && allAlike xs ys
  | _, _ => false

/-- Whether every entry of the first list has its like in the second. -/
def entriesFound : List (Key × Value) → List (Key × Value) → Bool
  | [], _ => true
  | entry :: rest, ys => entryFound entry ys && entriesFound rest ys

/-- Whether an entry has its like among others. -/
def entryFound : Key × Value → List (Key × Value) → Bool
  | (key, value), ys =>
      match lookup? key ys with
      | some other => value.alike other
      | none => false

end

end Monkey
