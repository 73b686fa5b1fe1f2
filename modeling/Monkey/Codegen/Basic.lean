import Monkey.Codegen.Buffer
import Monkey.Codegen.Error
import Monkey.Scope
import Monkey.Syntax.Render
import Monkey.Value.Basic

/-!
# From syntax trees to code

Each tree compiles to code that leaves its value on the stack. Names resolve in the order in which
the code is written, so a function body sees what was defined before it, and a `let` defines its
name before its value is compiled.

`a < b` is compiled as `b > a`, right operand first, and the pairs of a hash literal in the order of
their keys' text, so that one literal always compiles to one stream.

A program can be refused at any depth. The refusal hands out the state as it is then, with the
scopes and streams of all open bodies, and the compiler takes back what the program has done. The
state also keeps a log of what was done to the streams.
-/

namespace Monkey

/-- A program ready to run: the code of the top level and the constants of the
whole session. -/
structure Bytecode where
  code : Code
  constants : Array Value

/-- What a compilation does to its streams: it changes that of the innermost body, or a body starts
or ends. -/
inductive Codegen.Action where
  | edit (change : Edit)
  | openBody
  | closeBody
  deriving DecidableEq

/-- The state of a compilation. -/
structure Codegen where
  constants : Array Value
  symbols : SymbolTable
  /-- The stream of the body being compiled. -/
  buffer : Buffer := {}
  /-- What was done since this body started. -/
  log : Array Codegen.Action := #[]

namespace Codegen

/-- A program that is refused: why, and how far its compilation has come. -/
structure Refusal where
  error : CompileError
  state : Codegen
  /-- The streams of the bodies around the one being compiled, from the inside out. -/
  around : List Buffer := []

/-- The outcome of compiling a part of a program. -/
abbrev Result := Except Refusal Codegen

/-- Refuses the program. -/
def refuse {α : Type} (g : Codegen) (error : CompileError) : Except Refusal α :=
  .error { error, state := g }

/-- An operand, if it is within the limit of its resource. -/
def operand (g : Codegen) (what : Resource) (count : Nat) : Except Refusal Nat :=
  if count ≤ what.limit then .ok count else g.refuse (.tooMany what count)

/-- Makes a change to the current stream. -/
def edit (g : Codegen) (change : Edit) : Codegen :=
  { g with buffer := g.buffer.edit change, log := g.log.push (.edit change) }

/-- Appends an instruction to the current body. -/
def emit (g : Codegen) (i : Instruction) : Codegen :=
  g.edit (.emit i)

/-- Puts a value into the constants, with the index it gets. -/
def addConstant (g : Codegen) (value : Value) : Except Refusal (Nat × Codegen) := do
  let index ← g.operand .constants g.constants.size
  return (index, { g with constants := g.constants.push value })

/-- Pushes a constant. -/
def pushConstant (g : Codegen) (value : Value) : Result := do
  let (index, g) ← g.addConstant value
  return g.emit (.constant index)

/-- Pushes what a symbol stands for. -/
def pushSymbol (g : Codegen) (symbol : Symbol) : Result :=
  match symbol.storage with
  | .global => do return g.emit (.getGlobal (← g.operand .globals symbol.index))
  | .slot => do return g.emit (.getLocal (← g.operand .locals symbol.index))
  | .builtin => do return g.emit (.getBuiltin (← g.operand .builtins symbol.index))
  | .captured => do return g.emit (.getCaptured (← g.operand .captures symbol.index))
  | .self => .ok (g.emit .currentClosure)

/-- Pushes what symbols stand for, in order. -/
def pushSymbols (g : Codegen) : List Symbol → Result
  | [] => .ok g
  | symbol :: rest => do
      let g ← g.pushSymbol symbol
      g.pushSymbols rest

/-- Pushes what a name stands for. -/
def pushName (g : Codegen) (name : String) : Result :=
  match g.symbols.resolve name with
  | some (symbol, symbols) => { g with symbols }.pushSymbol symbol
  | none => g.refuse (.undefinedVariable name)

/-- Stores the value on the stack under a symbol that a `let` defined. -/
def store (g : Codegen) (symbol : Symbol) : Result :=
  match symbol.storage with
  | .global => do return g.emit (.setGlobal (← g.operand .globals symbol.index))
  | _ => do return g.emit (.setLocal (← g.operand .locals symbol.index))

/-- Gives the jump at an offset the current end of the stream as its target. -/
def landHere (g : Codegen) (jump : Nat) : Result := do
  let target ← g.operand .codeBytes g.buffer.offset
  return g.edit (.patch jump target)

/-- The operand of a jump whose target is not known yet. -/
def unknownTarget : Nat := 9999

/-- Leaves exactly one value from a branch: that of a closing expression, or
null. A branch that ends in a return leaves none. -/
def closeBranch (g : Codegen) : Codegen :=
  if g.buffer.endsWith .pop then g.edit .dropLast
  else if g.buffer.endsWith .returnValue then g
  else g.emit .pushNull

/-- Ends a function body: with the value of a closing expression, or null. -/
def closeBody (g : Codegen) : Codegen :=
  let g := if g.buffer.endsWith .pop then g.edit .returnLast else g
  if g.buffer.endsWith .returnValue then g else g.emit .returnNull

/-- The symbols of a function body at its start: its own name, if it has one,
then its parameters. -/
def openBody (symbols : SymbolTable) (name : Option String) (parameters : List String) :
    SymbolTable :=
  let symbols := symbols.enter
  let symbols := match name with
    | some name => (symbols.defineSelf name).2
    | none => symbols
  parameters.foldl (fun symbols name => (symbols.define name).2) symbols

/-- The state at the start of a function body. -/
def enter (outer : Codegen) (name : Option String) (parameters : List String) : Codegen where
  constants := outer.constants
  symbols := openBody outer.symbols name parameters

/-- The state around a function body once the body has ended. -/
def leave (outer inner : Codegen) : Codegen where
  constants := inner.constants
  symbols := inner.symbols.leave.2
  buffer := outer.buffer
  log := (outer.log.push .openBody ++ inner.log).push .closeBody

/-- What compiling a function body comes to, seen from around the body. -/
def within (outer : Codegen) : Result → Result
  | .ok inner => .ok inner
  | .error refusal => .error { refusal with
      state.log := outer.log.push .openBody ++ refusal.state.log
      around := refusal.around ++ [outer.buffer] }

/-- Makes a closure of a compiled body: `inner` is the state at the end of the
body, `outer` the state around it. -/
def makeClosure (inner outer : Codegen) (parameters : Nat) : Result := do
  let inner := inner.closeBody
  let closed := inner.symbols.leave.1
  let g := outer.leave inner
  let captured ← g.operand .captures closed.captures.size
  let g ← g.pushSymbols closed.captures.toList
  let template : Template := ⟨inner.buffer.code, closed.definitions, parameters⟩
  let (index, g) ← g.addConstant (.template g.constants.size template)
  return g.emit (.closure index captured)

/-- The instruction of a prefix operator. -/
def prefixInstruction? : String → Option Instruction
  | "-" => some .negate
  | "!" => some .not
  | _ => none

/-- The instruction of an infix operator, applied to its operands in the order
they were written. -/
def infixInstruction? : String → Option Instruction
  | "+" => some .add
  | "-" => some .subtract
  | "*" => some .multiply
  | "/" => some .divide
  | ">" => some .greater
  | "==" => some .equal
  | "!=" => some .notEqual
  | _ => none

/-- Applies an operator whose operands are on the stack. -/
def applyOperator (g : Codegen) (op : String) (instruction : Option Instruction) : Result :=
  match instruction with
  | some i => .ok (g.emit i)
  | none => g.refuse (.unknownOperator op)

/-- Runs compilations one after the other. -/
def inTurn (g : Codegen) : List (Codegen → Result) → Result
  | [] => .ok g
  | first :: rest => do
      let g ← first g
      g.inTurn rest

mutual

/-- Compiles an expression. -/
def expr : Expr → Codegen → Result
  | .ident name, g => g.pushName name
  | .int value, g => g.pushConstant (.int value)
  | .str text, g => g.pushConstant (.str text)
  | .bool value, g => .ok (g.emit (if value then .pushTrue else .pushFalse))
  | .prefixOp op operand, g => do
      let g ← expr operand g
      g.applyOperator op (prefixInstruction? op)
  | .infixOp op left right, g =>
      if op = "<" then do
        let g ← expr right g
        let g ← expr left g
        return g.emit .greater
      else do
        let g ← expr left g
        let g ← expr right g
        g.applyOperator op (infixInstruction? op)
  | .cond condition consequence alternative, g => do
      let g ← expr condition g
      let test := g.buffer.offset
      let g ← block consequence (g.emit (.jumpUnless unknownTarget))
      let g := g.closeBranch
      let exit := g.buffer.offset
      let g ← (g.emit (.jump unknownTarget)).landHere test
      let g ← otherwise alternative g
      g.landHere exit
  | .function parameters body name, g => do
      let count ← g.operand .parameters parameters.length
      let inner ← g.within (block body (g.enter name parameters))
      inner.makeClosure g count
  | .call callee arguments, g => do
      let g ← expr callee g
      let g ← exprs arguments g
      return g.emit (.call (← g.operand .arguments arguments.length))
  | .index container position, g => do
      let g ← expr container g
      let g ← expr position g
      return g.emit .index
  | .array elements, g => do
      let g ← exprs elements g
      return g.emit (.array (← g.operand .elements elements.length))
  | .hash pairs, g => do
      let ordered := (pairCodes pairs).mergeSort fun a b => a.1 ≤ b.1
      let g ← g.inTurn (ordered.map Prod.snd)
      return g.emit (.hash (← g.operand .hashEntries (2 * pairs.length)))

/-- Compiles a statement. -/
def stmt : Stmt → Codegen → Result
  | .bind name value, g => do
      let (symbol, symbols) := g.symbols.define name
      let g ← expr value { g with symbols }
      g.store symbol
  | .ret value, g => do
      let g ← expr value g
      return g.emit .returnValue
  | .expr value, g => do
      let g ← expr value g
      return g.emit .pop

/-- Compiles statements in order. -/
def block : List Stmt → Codegen → Result
  | [], g => .ok g
  | first :: rest, g => do
      let g ← stmt first g
      block rest g

/-- Compiles the branch of a failed condition, which may be missing. -/
def otherwise : Option (List Stmt) → Codegen → Result
  | none, g => .ok (g.emit .pushNull)
  | some body, g => do
      let g ← block body g
      return g.closeBranch

/-- Compiles expressions in order. -/
def exprs : List Expr → Codegen → Result
  | [], g => .ok g
  | first :: rest, g => do
      let g ← expr first g
      exprs rest g

/-- The code of each pair of a hash literal, under the text of its key. -/
def pairCodes : List (Expr × Expr) → List (String × (Codegen → Result))
  | [] => []
  | pair :: rest => pairCode pair :: pairCodes rest

/-- The code of one pair, under the text of its key. -/
def pairCode : Expr × Expr → String × (Codegen → Result)
  | (key, value) => (key.render, fun g => do
      let g ← expr key g
      expr value g)

end

end Codegen

/-- A compiler between programs: what the next program can refer to, and the
code of the last one. -/
structure Compiler where
  constants : Array Value := #[]
  symbols : SymbolTable := {}
  code : Code := #[]

namespace Compiler

/-- The symbols every program starts with. -/
def builtinSymbols : SymbolTable :=
  Builtin.all.zipIdx.foldl (fun table b => (table.defineBuiltin b.2 b.1.name).2) {}

/-- A compiler that has seen no program. -/
def new : Compiler where
  symbols := builtinSymbols

/-- The last program, with all constants so far. -/
def bytecode (c : Compiler) : Bytecode :=
  ⟨c.code, c.constants⟩

/-- The state in which the next program starts to be compiled. -/
def start (c : Compiler) : Codegen :=
  { constants := c.constants, symbols := c.symbols }

/-- Gives up a program that was refused: the top level is the one that was set
aside, the constants are cut back to their old number, and all streams are
dropped. -/
def rollBack (globals : SymbolTable) (size : Nat) (g : Codegen) : Compiler where
  constants := g.constants.take size
  symbols := globals

/-- Compiles a program after those before it. A program that is refused leaves
no symbol and no constant behind. -/
def compile (c : Compiler) (p : Program) : Except CompileError Bytecode × Compiler :=
  let globals := c.symbols.globals
  let size := c.constants.size
  match Codegen.block p c.start with
  | .ok g =>
      let next : Compiler := ⟨g.constants, g.symbols, g.buffer.code⟩
      (.ok next.bytecode, next)
  | .error refusal => (.error refusal.error, rollBack globals size refusal.state)

end Compiler

end Monkey
