/-!
# Opcodes

An instruction starts with one byte that says what it does; operands of fixed
width follow. This table gives each opcode its byte, its mnemonic and the widths
of its operands.
-/

namespace Monkey

/-- What an instruction does. -/
inductive Opcode where
  /-- Push a constant. -/
  | constant
  | add
  | subtract
  | multiply
  | divide
  /-- Discard the top of the stack. -/
  | pop
  | pushTrue
  | pushFalse
  | equal
  | notEqual
  | greater
  | negate
  | not
  /-- Jump unless the popped value is truthy. -/
  | jumpUnless
  | jump
  | pushNull
  | getGlobal
  | setGlobal
  /-- Collect the top values into an array. -/
  | array
  /-- Collect the top values, keys and values in turn, into a hash. -/
  | hash
  | index
  | call
  /-- Leave the running function with the popped value. -/
  | returnValue
  /-- Leave the running function with null. -/
  | returnNull
  | setLocal
  | getLocal
  | getBuiltin
  /-- Make a closure from a template and captured values. -/
  | closure
  | getCaptured
  /-- Push the running closure. -/
  | currentClosure
  deriving DecidableEq

namespace Opcode

/-- The byte of an opcode. -/
def toByte : Opcode → UInt8
  | .constant => 0
  | .add => 1
  | .subtract => 2
  | .multiply => 3
  | .divide => 4
  | .pop => 5
  | .pushTrue => 6
  | .pushFalse => 7
  | .equal => 8
  | .notEqual => 9
  | .greater => 10
  | .negate => 11
  | .not => 12
  | .jumpUnless => 13
  | .jump => 14
  | .pushNull => 15
  | .getGlobal => 16
  | .setGlobal => 17
  | .array => 18
  | .hash => 19
  | .index => 20
  | .call => 21
  | .returnValue => 22
  | .returnNull => 23
  | .setLocal => 24
  | .getLocal => 25
  | .getBuiltin => 26
  | .closure => 27
  | .getCaptured => 28
  | .currentClosure => 29

/-- Every opcode, in the order of their bytes. -/
def all : Array Opcode := #[
  .constant, .add, .subtract, .multiply, .divide, .pop, .pushTrue, .pushFalse, .equal, .notEqual,
  .greater, .negate, .not, .jumpUnless, .jump, .pushNull, .getGlobal, .setGlobal, .array, .hash,
  .index, .call, .returnValue, .returnNull, .setLocal, .getLocal, .getBuiltin, .closure,
  .getCaptured, .currentClosure]

/-- The opcode of a byte, if it has one. -/
def ofByte? (b : UInt8) : Option Opcode :=
  all[b.toNat]?

@[simp] theorem ofByte?_toByte (op : Opcode) : ofByte? op.toByte = some op := by
  cases op <;> rfl

/-- The name an opcode is listed under. -/
def mnemonic : Opcode → String
  | .constant => "OpConstant"
  | .add => "OpAdd"
  | .subtract => "OpSub"
  | .multiply => "OpMul"
  | .divide => "OpDiv"
  | .pop => "OpPop"
  | .pushTrue => "OpTrue"
  | .pushFalse => "OpFalse"
  | .equal => "OpEqual"
  | .notEqual => "OpNotEqual"
  | .greater => "OpGreaterThan"
  | .negate => "OpMinus"
  | .not => "OpBang"
  | .jumpUnless => "OpJumpNotTruthy"
  | .jump => "OpJump"
  | .pushNull => "OpNull"
  | .getGlobal => "OpGetGlobal"
  | .setGlobal => "OpSetGlobal"
  | .array => "OpArray"
  | .hash => "OpHash"
  | .index => "OpIndex"
  | .call => "OpCall"
  | .returnValue => "OpReturnValue"
  | .returnNull => "OpReturn"
  | .setLocal => "OpSetLocal"
  | .getLocal => "OpGetLocal"
  | .getBuiltin => "OpGetBuiltin"
  | .closure => "OpClosure"
  | .getCaptured => "OpGetFree"
  | .currentClosure => "OpCurrentClosure"

/-- The opcode with a mnemonic, if there is one. -/
def ofMnemonic? (name : String) : Option Opcode :=
  all.find? fun op => op.mnemonic == name

/-- The widths of the operands in bytes, in order. -/
def widths : Opcode → List Nat
  | .constant | .jumpUnless | .jump | .getGlobal | .setGlobal | .array | .hash => [2]
  | .call | .setLocal | .getLocal | .getBuiltin | .getCaptured => [1]
  | .closure => [2, 1]
  | _ => []

/-- The number of operand bytes. -/
def operandSize (op : Opcode) : Nat :=
  op.widths.foldl (· + ·) 0

/-- The length of an instruction, its opcode byte included. -/
def size (op : Opcode) : Nat :=
  1 + op.operandSize

end Opcode

end Monkey
