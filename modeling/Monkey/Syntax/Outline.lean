import Monkey.Syntax.Basic
import Monkey.Text.Outline
import Monkey.Text.Quoted

/-!
# Syntax trees as outlines

The constructors of a tree with their fields by name, for inspection.
-/

namespace Monkey

open Text (Outline quoted)

/-- A quoted text as a leaf. -/
def quotedLeaf (text : String) : Outline :=
  .leaf (quoted text)

/-- An optional part: present under `Some`, or `None`. -/
def optionOutline : Option Outline → Outline
  | some part => .tuple "Some" [part]
  | none => .leaf "None"

mutual

/-- The outline of an expression. -/
def Expr.outline : Expr → Outline
  | .ident name => .tuple "Identifier" [quotedLeaf name]
  | .int value => .tuple "Integer" [.leaf (toString value.toInt)]
  | .str text => .tuple "String" [quotedLeaf text]
  | .bool value => .tuple "Boolean" [.leaf (if value then "true" else "false")]
  | .prefixOp op operand =>
      .record "Prefix" [("operator", quotedLeaf op), ("right", operand.outline)]
  | .infixOp op left right =>
      .record "Infix"
        [("operator", quotedLeaf op), ("left", left.outline), ("right", right.outline)]
  | .cond condition consequence alternative =>
      .record "If"
        [("condition", condition.outline), ("consequence", blockOutline consequence),
         ("alternative", alternativeOutline alternative)]
  | .function parameters body name =>
      .record "Function"
        [("parameters", .list (parameters.map quotedLeaf)), ("body", blockOutline body),
         ("name", optionOutline (name.map quotedLeaf))]
  | .call callee arguments =>
      .record "Call" [("function", callee.outline), ("arguments", .list (outlines arguments))]
  | .index container position =>
      .record "Index" [("left", container.outline), ("index", position.outline)]
  | .array elements => .tuple "Array" [.list (outlines elements)]
  | .hash pairs => .tuple "Hash" [.list (pairOutlines pairs)]

/-- The outline of a statement. -/
def Stmt.outline : Stmt → Outline
  | .bind name value => .record "Let" [("name", quotedLeaf name), ("value", value.outline)]
  | .ret value => .tuple "Return" [value.outline]
  | .expr value => .tuple "Expression" [value.outline]

/-- The outlines of statements. -/
def stmtOutlines : List Stmt → List Outline
  | [] => []
  | stmt :: rest => stmt.outline :: stmtOutlines rest

/-- The outline of a block. -/
def blockOutline : List Stmt → Outline
  | [] => .record "BlockStatement" [("statements", .list [])]
  | stmt :: rest =>
      .record "BlockStatement" [("statements", .list (stmt.outline :: stmtOutlines rest))]

/-- The outline of the block after `else`, which may be missing. -/
def alternativeOutline : Option (List Stmt) → Outline
  | some block => .tuple "Some" [blockOutline block]
  | none => .leaf "None"

/-- The outlines of expressions. -/
def outlines : List Expr → List Outline
  | [] => []
  | e :: rest => e.outline :: outlines rest

/-- The outlines of the pairs of a hash literal. -/
def pairOutlines : List (Expr × Expr) → List Outline
  | [] => []
  | pair :: rest => pairOutline pair :: pairOutlines rest

/-- The outline of one pair. -/
def pairOutline : Expr × Expr → Outline
  | (key, value) => .tuple "" [key.outline, value.outline]

end

/-- The outline of a program. -/
def Program.outline (p : Program) : Outline :=
  .record "Program" [("statements", .list (stmtOutlines p))]

end Monkey
