import Monkey.CommandLine.Basic

/-!
# The program

Reads the files that the options name, and connects the prompt to standard input and output.
-/

namespace Monkey

/-- Why the system did not read a file. -/
def readFailure : IO.Error → String
  | .noFileOrDirectory .. => "No such file or directory (os error 2)"
  | .permissionDenied _ code details => details ++ " (os error " ++ toString code ++ ")"
  | .inappropriateType _ code details => details ++ " (os error " ++ toString code ++ ")"
  | e => toString e

/-- Reads files by their names. -/
def readFiles (names : List String) : IO Files := do
  let contents ← names.mapM fun (name : String) => do
    try
      return (name, Except.ok (← IO.FS.readFile name))
    catch e =>
      return (name, Except.error (readFailure e))
  return fun name => (contents.lookup name).getD (.error "not read")

/-- Writes to both outputs. -/
def writeOutput (output : Output) : IO Unit := do
  IO.print output.stdout
  (← IO.getStdout).flush
  IO.eprint output.stderr

/-- Feeds lines to the prompt until the input ends or the dialogue is over. -/
partial def converse (repl : Repl) : IO Unit := do
  let line ← (← IO.getStdin).getLine
  if !line.isEmpty then
    let (output, next) := repl.feed line
    writeOutput output
    match next with
    | some repl => converse repl
    | none => return

/-- Carries out a command. -/
def perform (o : Options) : IO Nat := do
  let files ← readFiles (o.config.toList ++ o.file.toList)
  match CommandLine.start o files {} with
  | .finished outcome =>
      writeOutput outcome.output
      return outcome.exit
  | .dialogue repl =>
      writeOutput ⟨repl.greeting, ""⟩
      converse repl
      return 0

end Monkey

def main (arguments : List String) : IO UInt32 := do
  match Monkey.Options.ofArguments arguments with
  | .ok o => return (← Monkey.perform o).toUInt32
  | .error e =>
      let outcome := Monkey.CommandLine.usage e
      Monkey.writeOutput outcome.output
      return outcome.exit.toUInt32
