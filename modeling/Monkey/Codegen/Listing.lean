import Monkey.Codegen.Basic
import Monkey.Instruction.Listing
import Monkey.Value.Render

/-!
# Listings of compiled programs

The code of the top level, the constants, then the body of each function among them.
-/

namespace Monkey

/-- The rule above and below a heading. -/
def headingRule : String :=
  String.ofList (List.replicate 40 '═')

/-- A heading, with the size of the stream below it. -/
def heading (title : String) (size : Nat) : String :=
  headingRule ++ "\n " ++ title ++ "\n " ++ toString size ++ " bytes\n" ++ headingRule ++ "\n"

/-- A stream under its heading. -/
def codeSection (title : String) (code : Code) : String :=
  heading title code.size ++ Code.listing code ++ "\n"

/-- How a constant is listed: strings in quotes, functions by their number. -/
def constantText (index : Nat) : Value → String
  | .str text => Text.quoted text
  | .template _ _ => "<fn#" ++ toString index ++ ">"
  | v => v.render

/-- The line of a constant. -/
def constantLine (index : Nat) (v : Value) : String :=
  "  [" ++ toString index ++ "] " ++ constantText index v ++ "\n"

/-- The listing of a function's body, if a constant is a function. -/
def templateSection (index : Nat) : Value → String
  | .template _ body =>
      codeSection
        ("fn#" ++ toString index ++ " (params " ++ toString body.parameters ++ ", locals " ++
          toString body.locals ++ ")")
        body.code
  | _ => ""

/-- The texts of all constants, one after the other. -/
def constantTexts (text : Nat → Value → String) (constants : Array Value) : String :=
  (constants.foldl (fun (out, i) v => (out ++ text i v, i + 1)) ("", 0)).1

/-- The listing of a program. -/
def Bytecode.listing (b : Bytecode) : String :=
  let pool :=
    if b.constants.isEmpty then ""
    else "constants:\n" ++ constantTexts constantLine b.constants ++ "\n"
  "=== BYTECODE PROGRAM ===\n\n" ++ codeSection "main" b.code ++ pool ++
    constantTexts templateSection b.constants

end Monkey
