import Monkey.Codegen.Error
import Monkey.Machine.Fault
import Monkey.Syntax.Parser

/-!
# Errors from source text to finished run

One type for whatever keeps a source text from having a value, by the stage that found it.
-/

namespace Monkey

/-- Why a source text has no value. -/
inductive Error where
  | lexer (e : LexError)
  | parser (e : ParseError)
  | compiler (e : CompileError)
  | runtime (fault : Fault)
  /-- The run was still going when its fuel was used up. -/
  | unfinished
  deriving DecidableEq

/-- An error as it is shown: the stage, then the wording of its cause. -/
def Error.message : Error → String
  | .lexer e => "lexer error: " ++ e.message
  | .parser e => "parse error: " ++ e.message
  | .compiler e => "compile error: " ++ e.message
  | .runtime fault => "runtime error: " ++ fault.message
  | .unfinished => "runtime error: execution unfinished"

/-- The program that a source text spells. -/
def Program.parse (source : String) : Except Error Program :=
  match tokenize source with
  | .error e => .error (.lexer e)
  | .ok tokens =>
      match Program.ofTokens tokens with
      | .error e => .error (.parser e)
      | .ok program => .ok program

end Monkey
