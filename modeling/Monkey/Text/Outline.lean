/-!
# Outlines of structured data

A syntax tree is shown to its developer as an outline: constructors with their
fields by name. The same outline is written on one line or spread over indented
lines.
-/

namespace Monkey.Text

/-- The shape of a written structure. -/
inductive Outline where
  /-- A text that is written as it stands. -/
  | leaf (text : String)
  /-- A constructor with positional arguments; a bare tuple has no name. -/
  | tuple (name : String) (arguments : List Outline)
  /-- A constructor with named fields. -/
  | record (name : String) (fields : List (String × Outline))
  /-- A sequence in square brackets. -/
  | list (items : List Outline)

namespace Outline

mutual

/-- Appends the one-line form. -/
def writeLine (out : String) : Outline → String
  | .leaf text => out ++ text
  | .tuple name arguments => (lineItems (out ++ name ++ "(") true arguments).push ')'
  | .record name fields => lineFields (out ++ name ++ " \x7b ") true fields ++ " \x7d"
  | .list items => (lineItems (out.push '[') true items).push ']'

/-- Appends items, with a comma before each but the first. -/
def lineItems (out : String) (first : Bool) : List Outline → String
  | [] => out
  | item :: rest => lineItems (item.writeLine (if first then out else out ++ ", ")) false rest

/-- Appends named fields, with a comma before each but the first. -/
def lineFields (out : String) (first : Bool) : List (String × Outline) → String
  | [] => out
  | field :: rest => lineFields (lineField (if first then out else out ++ ", ") field) false rest

/-- Appends one named field. -/
def lineField (out : String) : String × Outline → String
  | (name, value) => value.writeLine (out ++ name ++ ": ")

end

/-- Appends the indentation of a nesting depth. -/
def indent (out : String) : Nat → String
  | 0 => out
  | depth + 1 => indent (out ++ "    ") depth

mutual

/-- Appends the indented form; its first line stands where `out` ends. -/
def writeBlock (depth : Nat) (out : String) : Outline → String
  | .leaf text => out ++ text
  | .tuple name arguments =>
      (indent (blockItems (depth + 1) (out ++ name ++ "(\n") arguments) depth).push ')'
  | .record name fields =>
      indent (blockFields (depth + 1) (out ++ name ++ " \x7b\n") fields) depth ++ "\x7d"
  | .list [] => out ++ "[]"
  | .list (item :: rest) =>
      (indent (blockItems (depth + 1) (out ++ "[\n") (item :: rest)) depth).push ']'

/-- Appends items, each on lines of its own that end in a comma. -/
def blockItems (depth : Nat) (out : String) : List Outline → String
  | [] => out
  | item :: rest => blockItems depth (item.writeBlock depth (indent out depth) ++ ",\n") rest

/-- Appends named fields, each on lines of its own that end in a comma. -/
def blockFields (depth : Nat) (out : String) : List (String × Outline) → String
  | [] => out
  | field :: rest => blockFields depth (blockField depth (indent out depth) field ++ ",\n") rest

/-- Appends one named field. -/
def blockField (depth : Nat) (out : String) : String × Outline → String
  | (name, value) => value.writeBlock depth (out ++ name ++ ": ")

end

/-- The one-line form of an outline. -/
def toLine (o : Outline) : String :=
  o.writeLine ""

/-- The indented form of an outline. -/
def toBlock (o : Outline) : String :=
  o.writeBlock 0 ""

end Outline

end Monkey.Text
