import Monkey.Instruction.Basic

/-!
# Code under construction

The stream of one function body while it is compiled. The buffer remembers the last two
instructions it was given, because the end of a block decides how the block's value is left: an
expression statement's `pop` is taken back in a branch and turned into a return at the end of a
function.
-/

namespace Monkey

/-- An instruction that was emitted, and its offset. -/
structure Emitted where
  opcode : Opcode
  offset : Nat
  deriving DecidableEq

/-- A stream under construction. -/
structure Buffer where
  code : Code := #[]
  last : Option Emitted := none
  previous : Option Emitted := none

namespace Buffer

/-- The offset at which the next instruction goes. -/
def offset (b : Buffer) : Nat :=
  b.code.size

/-- Appends an instruction. -/
def emit (b : Buffer) (i : Instruction) : Buffer :=
  let offset := b.code.size
  { code := b.code ++ i.encode, last := some ⟨i.opcode, offset⟩, previous := b.last }

/-- Whether the last instruction has an opcode. -/
def endsWith (b : Buffer) (op : Opcode) : Bool :=
  match b.last with
  | some last => last.opcode == op
  | none => false

/-- Takes the last instruction back. -/
def dropLast (b : Buffer) : Buffer :=
  match b.last with
  | some last => { b with code := Code.truncate b.code last.offset, last := b.previous }
  | none => b

/-- Turns the last instruction into a return of the value on the stack. -/
def returnLast (b : Buffer) : Buffer :=
  match b.last with
  | some last =>
      { b with
        code := Code.overwrite b.code last.offset Instruction.returnValue.encode
        last := some { last with opcode := .returnValue } }
  | none => b

/-- Gives the instruction at an offset a new operand. -/
def patch (b : Buffer) (offset : Nat) (operand : Nat) : Buffer :=
  match (b.code[offset]?).bind Opcode.ofByte? with
  | some op => { b with code := Code.overwrite b.code offset (op.encode [operand]) }
  | none => b

end Buffer

/-- A change to a stream. -/
inductive Edit where
  | emit (i : Instruction)
  | dropLast
  | returnLast
  | patch (offset operand : Nat)
  deriving DecidableEq

/-- Makes a change. -/
def Buffer.edit (b : Buffer) : Edit → Buffer
  | .emit i => b.emit i
  | .dropLast => b.dropLast
  | .returnLast => b.returnLast
  | .patch offset operand => b.patch offset operand

end Monkey
