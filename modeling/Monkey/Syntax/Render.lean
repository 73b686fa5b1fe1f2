import Monkey.Syntax.Basic

/-!
# Syntax trees as text

The canonical text of a tree: every operator application in parentheses, strings
without quotes, blocks without braces. Hash literals are compiled in the order of
this text, so it is part of what a program means.

Each function appends to `out`, which keeps the work linear in the text.
-/

namespace Monkey

/-- Appends names with a comma and a blank between them. -/
def writeNames (out : String) : List String → String
  | [] => out
  | [name] => out ++ name
  | name :: rest => writeNames (out ++ name ++ ", ") rest

mutual

/-- Appends the text of an expression. -/
def Expr.write (out : String) : Expr → String
  | .ident name => out ++ name
  | .int value => out ++ toString value.toInt
  | .str text => out ++ text
  | .bool value => out ++ (if value then "true" else "false")
  | .prefixOp op operand => (operand.write (out ++ "(" ++ op)).push ')'
  | .infixOp op left right => (right.write (left.write (out.push '(') ++ " " ++ op ++ " ")).push ')'
  | .cond condition consequence alternative =>
      let head := (condition.write (out ++ "if")).push ' '
      writeAlternative (writeBlock head consequence) alternative
  | .function parameters body name =>
      let head := match name with
        | some name => out ++ "fn<" ++ name ++ ">("
        | none => out ++ "fn("
      writeBlock (writeNames head parameters ++ ") ") body
  | .call callee arguments => (writeItems ((callee.write out).push '(') true arguments).push ')'
  | .index container position =>
      position.write ((container.write (out.push '(')).push '[') ++ "])"
  | .array elements => (writeItems (out.push '[') true elements).push ']'
  | .hash pairs => (writePairs (out.push '\x7b') true pairs).push '\x7d'

/-- Appends the text of a statement. -/
def Stmt.write (out : String) : Stmt → String
  | .bind name value => (value.write (out ++ "let " ++ name ++ " = ")).push ';'
  | .ret value => (value.write (out ++ "return ")).push ';'
  | .expr value => value.write out

/-- Appends statements with nothing between them. -/
def writeBlock (out : String) : List Stmt → String
  | [] => out
  | stmt :: rest => writeBlock (stmt.write out) rest

/-- Appends the block after `else`, if there is one. -/
def writeAlternative (out : String) : Option (List Stmt) → String
  | none => out
  | some block => writeBlock (out ++ "else ") block

/-- Appends expressions, with a comma before each but the first. -/
def writeItems (out : String) (first : Bool) : List Expr → String
  | [] => out
  | item :: rest => writeItems (item.write (if first then out else out ++ ", ")) false rest

/-- Appends pairs, with a comma before each but the first. -/
def writePairs (out : String) (first : Bool) : List (Expr × Expr) → String
  | [] => out
  | pair :: rest => writePairs (writePair (if first then out else out ++ ", ") pair) false rest

/-- Appends one pair of a hash literal. -/
def writePair (out : String) : Expr × Expr → String
  | (key, value) => value.write ((key.write out).push ':')

end

/-- The canonical text of an expression. -/
def Expr.render (e : Expr) : String :=
  e.write ""

/-- The canonical text of a program. -/
def Program.render (p : Program) : String :=
  writeBlock "" p

end Monkey
