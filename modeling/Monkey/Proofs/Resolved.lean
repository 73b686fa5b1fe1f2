import Mathlib
import Monkey.Codegen.Basic
import Monkey.Machine.Fault

/-!
# Programs with resolved names

A resolved tree is a syntax tree in which every name has given way to its symbol and every operator
to what it does. Resolution walks a program in the order in which it is compiled, because that is
the order in which names come to be known: the right operand of `<` before the left one, the
pairs of a hash literal by the text of their keys, the name of a `let` before its value.

Resolution knows nothing of instructions. It is the half of compilation that decides what a
program means; what is left is to lay the resolved tree out in a stream.
-/

namespace Monkey

namespace Resolved

/-- The prefix operators. -/
inductive UnaryOp where
  | negate
  | not
  deriving DecidableEq

/-- The infix operators, `<` apart. -/
inductive BinaryOp where
  | arithmetic (op : BinaryOperator)
  /-- `==`, or `!=` if the operands are not to be identical. -/
  | equality (wanted : Bool)
  deriving DecidableEq

mutual

/-- A resolved expression. -/
inductive Expr where
  | symbol (s : Symbol)
  | int (value : Int64)
  | str (text : String)
  | bool (value : Bool)
  | unary (op : UnaryOp) (operand : Expr)
  | binary (op : BinaryOp) (left right : Expr)
  | less (left right : Expr)
  /-- A conditional. A missing second block is an empty one. -/
  | cond (condition : Expr) (consequence alternative : List Stmt)
  /-- A function literal. The captures are symbols of the enclosing body. -/
  | function (parameters locals : Nat) (captures : List Symbol) (body : List Stmt)
  | call (callee : Expr) (arguments : List Expr)
  | index (container position : Expr)
  | array (elements : List Expr)
  /-- A hash literal, its pairs in the order of the text of their keys. -/
  | hash (pairs : List (Expr × Expr))

/-- A resolved statement. -/
inductive Stmt where
  | bind (s : Symbol) (value : Expr)
  | ret (value : Expr)
  | expr (value : Expr)

end

/-- A function without its captured values. -/
structure Lambda where
  parameters : Nat
  locals : Nat
  body : List Stmt

/-- The prefix operator that is written so. -/
def UnaryOp.ofText? : String → Option UnaryOp
  | "-" => some .negate
  | "!" => some .not
  | _ => none

/-- The infix operator that is written so. -/
def BinaryOp.ofText? : String → Option BinaryOp
  | "+" => some (.arithmetic .add)
  | "-" => some (.arithmetic .subtract)
  | "*" => some (.arithmetic .multiply)
  | "/" => some (.arithmetic .divide)
  | ">" => some (.arithmetic .greater)
  | "==" => some (.equality true)
  | "!=" => some (.equality false)
  | _ => none

/-- Resolves parts one after the other. -/
def inTurn {α : Type} : List (SymbolTable → Option (α × SymbolTable)) → SymbolTable →
    Option (List α × SymbolTable)
  | [], table => some ([], table)
  | first :: rest, table => do
      let (a, table) ← first table
      let (as, table) ← inTurn rest table
      return (a :: as, table)

mutual

/-- Resolves an expression. -/
def expr : Monkey.Expr → SymbolTable → Option (Expr × SymbolTable)
  | .ident name, table => do
      let (symbol, table) ← table.resolve name
      return (.symbol symbol, table)
  | .int value, table => some (.int value, table)
  | .str text, table => some (.str text, table)
  | .bool value, table => some (.bool value, table)
  | .prefixOp op operand, table => do
      let (operand, table) ← expr operand table
      let op ← UnaryOp.ofText? op
      return (.unary op operand, table)
  | .infixOp op left right, table =>
      if op = "<" then do
        let (right, table) ← expr right table
        let (left, table) ← expr left table
        return (.less left right, table)
      else do
        let (left, table) ← expr left table
        let (right, table) ← expr right table
        let op ← BinaryOp.ofText? op
        return (.binary op left right, table)
  | .cond condition consequence alternative, table => do
      let (condition, table) ← expr condition table
      let (consequence, table) ← block consequence table
      let (alternative, table) ← otherwise alternative table
      return (.cond condition consequence alternative, table)
  | .function parameters body name, table => do
      let (body, table) ← block body (Codegen.openBody table name parameters)
      let (closed, table) := table.leave
      return (.function parameters.length closed.definitions closed.captures.toList body, table)
  | .call callee arguments, table => do
      let (callee, table) ← expr callee table
      let (arguments, table) ← exprs arguments table
      return (.call callee arguments, table)
  | .index container position, table => do
      let (container, table) ← expr container table
      let (position, table) ← expr position table
      return (.index container position, table)
  | .array elements, table => do
      let (elements, table) ← exprs elements table
      return (.array elements, table)
  | .hash pairs, table => do
      let ordered := (pairParts pairs).mergeSort fun a b => a.1 ≤ b.1
      let (pairs, table) ← inTurn (ordered.map Prod.snd) table
      return (.hash pairs, table)

/-- Resolves a statement. -/
def stmt : Monkey.Stmt → SymbolTable → Option (Stmt × SymbolTable)
  | .bind name value, table => do
      let (symbol, table) := table.define name
      let (value, table) ← expr value table
      return (.bind symbol value, table)
  | .ret value, table => do
      let (value, table) ← expr value table
      return (.ret value, table)
  | .expr value, table => do
      let (value, table) ← expr value table
      return (.expr value, table)

/-- Resolves statements in order. -/
def block : List Monkey.Stmt → SymbolTable → Option (List Stmt × SymbolTable)
  | [], table => some ([], table)
  | first :: rest, table => do
      let (first, table) ← stmt first table
      let (rest, table) ← block rest table
      return (first :: rest, table)

/-- Resolves the block of a failed condition. -/
def otherwise : Option (List Monkey.Stmt) → SymbolTable → Option (List Stmt × SymbolTable)
  | none, table => some ([], table)
  | some body, table => block body table

/-- Resolves expressions in order. -/
def exprs : List Monkey.Expr → SymbolTable → Option (List Expr × SymbolTable)
  | [], table => some ([], table)
  | first :: rest, table => do
      let (first, table) ← expr first table
      let (rest, table) ← exprs rest table
      return (first :: rest, table)

/-- The resolution of each pair of a hash literal, under the text of its key. -/
def pairParts : List (Monkey.Expr × Monkey.Expr) →
    List (String × (SymbolTable → Option ((Expr × Expr) × SymbolTable)))
  | [] => []
  | pair :: rest => pairPart pair :: pairParts rest

/-- The resolution of one pair, under the text of its key. -/
def pairPart : Monkey.Expr × Monkey.Expr →
    String × (SymbolTable → Option ((Expr × Expr) × SymbolTable))
  | (key, value) => (key.render, fun table => do
      let (key, table) ← expr key table
      let (value, table) ← expr value table
      return ((key, value), table))

end

theorem block_cons {s : Monkey.Stmt} {rest : List Monkey.Stmt} {rs : List Stmt}
    {table table' : SymbolTable} (h : block (s :: rest) table = some (rs, table')) :
    ∃ r rs', rs = r :: rs' := by
  rw [block] at h
  obtain ⟨⟨r, t⟩, -, h⟩ := Option.bind_eq_some_iff.1 h
  obtain ⟨⟨rs', t'⟩, -, h⟩ := Option.bind_eq_some_iff.1 h
  exact ⟨r, rs', (Prod.mk.inj (Option.some.inj h)).1.symm⟩

/-- A program with the symbols that a new compiler gives its names. -/
def program (p : Program) : Option (List Stmt) :=
  (block p Compiler.builtinSymbols).map Prod.fst

end Resolved

end Monkey
