/-!
# What a program can be refused for

A program is refused when a name or an operator is unknown, or when one of its parts is too large
for the operand that counts it.
-/

namespace Monkey

/-- The things that operands count or number. -/
inductive Resource where
  | constants
  | globals
  | locals
  | builtins
  | captures
  | parameters
  | arguments
  | elements
  | hashEntries
  | codeBytes
  deriving DecidableEq

namespace Resource

/-- The name of a resource in messages. -/
def name : Resource → String
  | .constants => "constants"
  | .globals => "globals"
  | .locals => "locals"
  | .builtins => "builtins"
  | .captures => "captured variables"
  | .parameters => "parameters"
  | .arguments => "arguments"
  | .elements => "array elements"
  | .hashEntries => "hash entries"
  | .codeBytes => "instruction bytes"

/-- The largest operand: two bytes for what a program has many of, else one. -/
def limit : Resource → Nat
  | .constants | .globals | .elements | .hashEntries | .codeBytes => 65535
  | .locals | .builtins | .captures | .parameters | .arguments => 255

end Resource

/-- Why a program is refused. -/
inductive CompileError where
  | undefinedVariable (name : String)
  | unknownOperator (op : String)
  | tooMany (what : Resource) (count : Nat)
  deriving DecidableEq

/-- The wording of an error. -/
def CompileError.message : CompileError → String
  | .undefinedVariable name => "undefined variable " ++ name
  | .unknownOperator op => "unknown operator " ++ op
  | .tooMany what count =>
      "too many " ++ what.name ++ ": " ++ toString count ++ " (limit " ++ toString what.limit ++ ")"

end Monkey
