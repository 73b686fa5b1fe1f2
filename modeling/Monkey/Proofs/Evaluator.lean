import Monkey.Proofs.Effects
import Monkey.Proofs.Resolved

/-!
# What a program means

An evaluator of resolved programs, by recursion on the tree. It has no stack of values and no code:
a call has its slots, the values that its closure captured and that closure itself, and what
outlives the call is the world. A `return` abandons the evaluation of the call that it stands
in, however deep in an expression.

The tree does not bound how deep calls nest, so the evaluator takes the meaning of a call as a
parameter, and `callWithin` ties the knot for calls that nest no deeper than a given depth. Beyond
it the evaluation is exhausted, which is not a fault of the program.
-/

namespace Monkey

namespace Resolved

/-- A value whose functions are trees. -/
abbrev Datum := ValueOf Lambda

/-- Why the evaluation of a call stops early. -/
inductive Stop where
  | returned (v : Datum)
  | fault (f : Fault)
  /-- The calls nest deeper than they are followed. -/
  | exhausted

/-- The slots of a call and what outlives it. -/
structure Store where
  slots : List Datum
  world : WorldOf Lambda

/-- An evaluation within a call. -/
abbrev Eval := EStateM Stop Store

/-- What does not change during a call. -/
structure Context where
  captured : List Datum
  /-- The closure that is called. -/
  self : Datum
  /-- The number of globals that there may be. -/
  globalsSize : Nat

/-- The value that a symbol has at the moment. -/
def Context.lookup (ctx : Context) (σ : Store) (s : Symbol) : Datum :=
  match s.storage with
  | .global => σ.world.globals[s.index]?.getD .null
  | .slot => σ.slots[s.index]?.getD .null
  | .builtin => (Builtin.all[s.index]?.map .builtin).getD .null
  | .captured => ctx.captured[s.index]?.getD .null
  | .self => ctx.self

/-- Stores a value under a symbol of the top level or of the call. -/
def Context.assign (ctx : Context) (s : Symbol) (v : Datum) : Eval Unit := fun σ =>
  match s.storage with
  | .global =>
      if ctx.globalsSize ≤ s.index then
        .error (.fault (.globalsOverflow s.index ctx.globalsSize)) σ
      else
        .ok () { σ with
          world := { σ.world with globals := Machine.storeAt σ.world.globals s.index v } }
  | _ => .ok () { σ with slots := σ.slots.set s.index v }

/-- The answer of an operator. -/
def answer : Except Fault Datum → Eval Datum
  | .ok v => pure v
  | .error f => throw (.fault f)

/-- A new object. -/
def create (make : Identity → Datum) : Eval Datum := fun σ =>
  .ok (make (σ.world.issued + 1))
    { σ with world := { σ.world with issued := σ.world.issued + 1 } }

/-- What a prefix operator makes of its operand. -/
def UnaryOp.apply : UnaryOp → Datum → Except Fault Datum
  | .negate, v => v.negate
  | .not, v => .ok (.bool !v.isTruthy)

/-- What an infix operator makes of its operands. -/
def BinaryOp.apply : BinaryOp → Datum → Datum → Except Fault Datum
  | .arithmetic op, l, r => ValueOf.binary op l r
  | .equality wanted, l, r => .ok (.bool (l.identical r == wanted))

/-- What a block makes of the value of its last statement. -/
def Stmt.yields : Stmt → Datum → Datum
  | .bind _ _, _ => .null
  | _, v => v

section

variable (call : Datum → List Datum → Eval Datum) (ctx : Context)

mutual

/-- The value of an expression. -/
def Expr.eval : Expr → Eval Datum
  | .symbol s => do return ctx.lookup (← get) s
  | .int value => pure (.int value)
  | .str text => pure (.str text)
  | .bool value => pure (.bool value)
  | .unary op operand => do answer (op.apply (← operand.eval))
  | .binary op left right => do
      let l ← left.eval
      let r ← right.eval
      answer (op.apply l r)
  | .less left right => do
      let r ← right.eval
      let l ← left.eval
      answer (ValueOf.binary .greater r l)
  | .cond condition consequence alternative => do
      if (← condition.eval).isTruthy then evalBlock consequence else evalBlock alternative
  | .function parameters locals captures body => do
      let σ ← get
      create fun id => .closure id ⟨parameters, locals, body⟩ (captures.map (ctx.lookup σ))
  | .call callee arguments => do
      let f ← callee.eval
      let vs ← evalAll arguments
      call f vs
  | .index container position => do
      let c ← container.eval
      let p ← position.eval
      answer (c.atIndex p)
  | .array elements => do
      let vs ← evalAll elements
      create fun id => .array id vs
  | .hash pairs => do
      let vs ← evalPairs pairs
      match ValueOf.collectEntries [] vs with
      | .ok entries => create fun id => .hash id entries
      | .error f => throw (.fault f)

/-- The value of a statement, which for a `let` is the value it stores. -/
def Stmt.eval : Stmt → Eval Datum
  | .bind s e => do
      let v ← e.eval
      ctx.assign s v
      return v
  | .ret e => do throw (.returned (← e.eval))
  | .expr e => e.eval

/-- The value of a block: that of its last statement, but null after a `let`. -/
def evalBlock : List Stmt → Eval Datum
  | [] => pure .null
  | [s] => do return s.yields (← s.eval)
  | s :: s' :: rest => do
      let _ ← s.eval
      evalBlock (s' :: rest)

/-- The values of expressions, in order. -/
def evalAll : List Expr → Eval (List Datum)
  | [] => pure []
  | e :: rest => do
      let v ← e.eval
      let vs ← evalAll rest
      return v :: vs

/-- Keys and values in turn, in order. -/
def evalPairs : List (Expr × Expr) → Eval (List Datum)
  | [] => pure []
  | (key, value) :: rest => do
      let k ← key.eval
      let v ← value.eval
      let vs ← evalPairs rest
      return k :: v :: vs

end

/-- Evaluates the statements of a program. Its value is that of the last one. -/
def evalProgram (last : Datum) : List Stmt → Eval Datum
  | [] => pure last
  | s :: rest => do evalProgram (← s.eval call ctx) rest

end

/-- Evaluates a body as a call, in slots of its own. A `return` gives its value to the call. -/
def inCall (slots : List Datum) (body : Eval Datum) : Eval Datum := fun σ =>
  match body { σ with slots } with
  | .ok v σ' | .error (.returned v) σ' => .ok v { σ with world := σ'.world }
  | .error stop σ' => .error stop { σ with world := σ'.world }

/-- Calls a value, with a meaning for the bodies of functions. -/
def callWith (globalsSize : Nat) (body : Context → List Stmt → Eval Datum) :
    Datum → List Datum → Eval Datum
  | .closure id f captured, arguments =>
      if arguments.length ≠ f.parameters then
        throw (.fault (.argumentCount f.parameters arguments.length))
      else
        inCall (Machine.slotsOf f.locals arguments)
          (body ⟨captured, .closure id f captured, globalsSize⟩ f.body)
  | callee, arguments => fun σ =>
      match callAnswer σ.world callee arguments with
      | .ok (v, w) => .ok v { σ with world := w }
      | .error f => .error (.fault f) σ

/-- Calls a value, following calls to some depth. -/
def callWithin (globalsSize : Nat) : Nat → Datum → List Datum → Eval Datum
  | 0 => callWith globalsSize fun _ _ => throw .exhausted
  | depth + 1 => callWith globalsSize (evalBlock (callWithin globalsSize depth))

/-- Evaluates a program, following calls to some depth. A `return` outside of all calls gives the
program its value. -/
def evaluate (depth globalsSize : Nat) (p : List Stmt) (w : WorldOf Lambda) :
    Except Stop Datum × WorldOf Lambda :=
  match inCall [] (evalProgram (callWithin globalsSize depth) ⟨[], .null, globalsSize⟩ .null p)
      ⟨[], w⟩ with
  | .ok v σ => (.ok v, σ.world)
  | .error stop σ => (.error stop, σ.world)

theorem callWith_closure {globalsSize : Nat} {body : Context → List Stmt → Eval Datum}
    {id : Identity} {f : Lambda} {captured arguments : List Datum} :
    callWith globalsSize body (.closure id f captured) arguments =
      if arguments.length ≠ f.parameters then
        throw (.fault (.argumentCount f.parameters arguments.length))
      else
        inCall (Machine.slotsOf f.locals arguments)
          (body ⟨captured, .closure id f captured, globalsSize⟩ f.body) :=
  rfl

theorem callWith_of_not_closure {globalsSize : Nat} {body : Context → List Stmt → Eval Datum}
    {callee : Datum} {arguments : List Datum} {σ : Store}
    (hc : ∀ id f captured, callee ≠ .closure id f captured) :
    callWith globalsSize body callee arguments σ =
      match callAnswer σ.world callee arguments with
      | .ok (v, w) => .ok v { σ with world := w }
      | .error f => .error (.fault f) σ := by
  cases callee with
  | closure id f captured => exact absurd rfl (hc id f captured)
  | _ => rfl

/-- At any depth, a call is one with a meaning for bodies. -/
theorem callWithin_eq (globalsSize depth : Nat) :
    ∃ body, callWithin globalsSize depth = callWith globalsSize body := by
  cases depth with
  | zero => exact ⟨_, rfl⟩
  | succ depth => exact ⟨_, rfl⟩

end Resolved

end Monkey
