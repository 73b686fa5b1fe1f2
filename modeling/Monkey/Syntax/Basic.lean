/-!
# Syntax trees

A program is a list of statements. Operators are kept as they were written, so
a tree may hold one that the language does not have.
-/

namespace Monkey

mutual

/-- An expression. -/
inductive Expr where
  | ident (name : String)
  | int (value : Int64)
  | str (text : String)
  | bool (value : Bool)
  | prefixOp (op : String) (operand : Expr)
  | infixOp (op : String) (left right : Expr)
  /-- A conditional; the second block is the one after `else`. -/
  | cond (condition : Expr) (consequence : List Stmt) (alternative : Option (List Stmt))
  /-- A function literal. It has a name when it is the value of a `let`, so
  that its body can refer to it. -/
  | function (parameters : List String) (body : List Stmt) (name : Option String)
  | call (callee : Expr) (arguments : List Expr)
  | index (container position : Expr)
  | array (elements : List Expr)
  /-- A hash literal, its pairs in the order they were written. -/
  | hash (pairs : List (Expr × Expr))

/-- A statement. -/
inductive Stmt where
  | bind (name : String) (value : Expr)
  | ret (value : Expr)
  | expr (value : Expr)

end

/-- The statements between braces. -/
abbrev Block := List Stmt

/-- A whole source text. -/
abbrev Program := List Stmt

/-- A function literal takes the name it is bound to; other expressions have
none to take. -/
def Expr.named (name : String) : Expr → Expr
  | .function parameters body _ => .function parameters body (some name)
  | e => e

end Monkey
