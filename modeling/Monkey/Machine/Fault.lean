import Monkey.Value.Basic

/-!
# Faults of a running program

What ends a run before its code does.
-/

namespace Monkey

/-- The operators that ask for operands of certain kinds. -/
inductive BinaryOperator where
  | add
  | subtract
  | multiply
  | divide
  | greater
  deriving DecidableEq

/-- How an operator is written. -/
def BinaryOperator.symbol : BinaryOperator → String
  | .add => "+"
  | .subtract => "-"
  | .multiply => "*"
  | .divide => "/"
  | .greater => ">"

/-- Why a run ended early. -/
inductive Fault where
  | stackOverflow (slots : Nat)
  | frameOverflow (frames : Nat)
  | stackUnderflow
  | operandKinds (op : BinaryOperator) (left right : Kind)
  | negatedKind (kind : Kind)
  | indexKinds (container position : Kind)
  | unusableKey (kind : Kind)
  | notAFunction (kind : Kind)
  | argumentCount (want got : Nat)
  | divisionByZero
  | globalsOverflow (index limit : Nat)
  | invalidConstant (index : Nat)
  | invalidBuiltin (index : Nat)
  | invalidCapture (index : Nat)
  | badInstruction (offset : Nat) (cause : DecodeError)
  | stepLimit (steps : Nat)
  /-- A builtin could not do its work, for a reason outside the program. -/
  | builtinFailed (function : Builtin) (reason : String)
  deriving DecidableEq

/-- The wording of a fault. -/
def Fault.message : Fault → String
  | .stackOverflow slots =>
      "stack overflow: value stack exceeded " ++ toString slots ++ " slots"
  | .frameOverflow frames =>
      "stack overflow: more than " ++ toString frames ++ " nested calls"
  | .stackUnderflow => "stack underflow"
  | .operandKinds op left right =>
      "unsupported types for binary operation: " ++ left.name ++ " " ++ op.symbol ++ " " ++
        right.name
  | .negatedKind kind => "unsupported type for negation: " ++ kind.name
  | .indexKinds container position =>
      "index operator not supported: " ++ container.name ++ "[" ++ position.name ++ "]"
  | .unusableKey kind => "unusable as hash key: " ++ kind.name
  | .notAFunction kind => "calling non-function: " ++ kind.name
  | .argumentCount want got =>
      "wrong number of arguments: want=" ++ toString want ++ ", got=" ++ toString got
  | .divisionByZero => "division by zero"
  | .globalsOverflow index limit =>
      "global index " ++ toString index ++ " exceeds the configured limit of " ++ toString limit
  | .invalidConstant index => "constant " ++ toString index ++ " is missing or not a function"
  | .invalidBuiltin index => "builtin index " ++ toString index ++ " out of range"
  | .invalidCapture index => "captured variable " ++ toString index ++ " out of range"
  | .badInstruction offset cause =>
      "bad instruction at " ++ toString offset ++ ": " ++ cause.message
  | .stepLimit steps => "execution step limit exceeded (" ++ toString steps ++ ")"
  | .builtinFailed function reason => "builtin " ++ function.name ++ " failed: " ++ reason

end Monkey
