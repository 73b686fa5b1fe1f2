import Monkey.CommandLine.Options
import Monkey.Repl.Basic
import Monkey.Settings
import Monkey.Syntax.Outline
import Monkey.Token.Listing

/-!
# The command line

Runs a program file, or shows one of the forms it goes through, or starts the prompt. Files are
given as a function from names to contents, so that all of it is a function of its input.
-/

namespace Monkey

/-- The contents of a file by its name, or why it cannot be read. -/
abbrev Files := String → Except String String

/-- Why a command fails. -/
inductive CommandError where
  | unreadableConfig (name reason : String)
  | invalidConfig (name : String)
  | unreadableFile (name reason : String)
  | program (e : Error)

/-- The wording of a failure. -/
def CommandError.message : CommandError → String
  | .unreadableConfig name reason => "cannot read config " ++ name ++ ": " ++ reason
  | .invalidConfig name => "invalid config " ++ name
  | .unreadableFile name reason => name ++ ": " ++ reason
  | .program e => e.message

/-- What a finished command leaves: its exit code and what it wrote. -/
structure Outcome where
  exit : Nat
  output : Output

/-- How a command goes on once it has its options and files. -/
inductive Launch where
  | finished (outcome : Outcome)
  | dialogue (repl : Repl)

namespace CommandLine

/-- The settings: those of the file that is named, with the limits that the options
set. -/
def settings (o : Options) (files : Files) : Except CommandError Settings := do
  let base ← match o.config with
    | none => pure {}
    | some name =>
        match files name with
        | .error reason => .error (.unreadableConfig name reason)
        | .ok text =>
            match Settings.ofToml? text with
            | some settings => pure settings
            | none => .error (.invalidConfig name)
  let limits := base.limits
  return { base with
    limits := { limits with
      stackSize := o.stackSize.getD limits.stackSize
      maxFrames := o.maxFrames.getD limits.maxFrames
      maxSteps := o.maxSteps.or limits.maxSteps } }

/-- Runs a program in a session: what it printed, the listing of its code before
that if it is wanted, and whether it failed. -/
def runProgram (listed : Bool) (session : Session) (p : Program) : String × Except Error Unit :=
  match session.compile p with
  | (.error e, _) => ("", .error e)
  | (.ok code, session) =>
      let listing := if listed then code.listing else ""
      let (result, session) := session.run code
      (listing ++ session.console.written, result.map fun _ => ())

/-- What is done with a source text. -/
def runSource (o : Options) (session : Session) (source : String) : String × Except Error Unit :=
  if o.tokens then
    match tokenize source with
    | .error e => ("", .error (.lexer e))
    | .ok tokens => (TokenListing.render { color := !o.noColor } tokens, .ok ())
  else
    match Program.parse source with
    | .error e => ("", .error e)
    | .ok p => if o.tree then (p.outline.toBlock ++ "\n", .ok ()) else runProgram o.code session p

/-- The outcome of a command that wrote something and then succeeded or failed. -/
def outcome (color : Bool) (written : String) : Except CommandError Unit → Outcome
  | .ok () => ⟨0, written, ""⟩
  | .error e => ⟨1, written, errorLine color e.message⟩

/-- Follows the options up to where input is needed. -/
def start (o : Options) (files : Files) (console : Console) : Launch :=
  let color := !o.noColor
  match settings o files with
  | .error e => .finished (outcome color "" (.error e))
  | .ok settings =>
      let session : Session := { limits := settings.limits, console }
      match o.file with
      | none => .dialogue { session, prompt := settings.prompt, color, showCode := o.code }
      | some name =>
          match files name with
          | .error reason => .finished (outcome color "" (.error (.unreadableFile name reason)))
          | .ok source =>
              let (written, result) := runSource o session source
              .finished (outcome color written (result.mapError .program))

/-- Runs a command over a whole input. -/
def run (o : Options) (files : Files) (console : Console) (input : String) : Outcome :=
  match start o files console with
  | .finished outcome => outcome
  | .dialogue repl => ⟨0, repl.transcript input⟩

/-- The outcome of arguments that are refused. -/
def usage (e : UsageError) : Outcome :=
  ⟨2, "", "error: " ++ e.message ++ "\n"⟩

end CommandLine

end Monkey
