import Monkey.Codegen.Listing
import Monkey.Repl.Balance
import Monkey.Repl.Command
import Monkey.Session
import Monkey.Text.Line

/-!
# The prompt

Lines go in one by one; entries made of them are evaluated in one session. What is written in answer
to a line is a value, so a whole dialogue is a function of its input.
-/

namespace Monkey

/-- What a program writes to its two outputs. -/
structure Output where
  stdout : String := ""
  stderr : String := ""

/-- One output after another. -/
def Output.append (first second : Output) : Output :=
  ⟨first.stdout ++ second.stdout, first.stderr ++ second.stderr⟩

/-- An error message as a line. -/
def errorLine (color : Bool) (message : String) : String :=
  Text.paintIf color .bold (Text.paintIf color .red "error:") ++ " " ++ message ++ "\n"

/-- A dialogue: its session, how it writes, and the lines of an entry that is not
complete yet. -/
structure Repl where
  session : Session := {}
  prompt : String := ">> "
  color : Bool := true
  /-- Whether the code of an entry is listed before it runs. -/
  showCode : Bool := false
  pending : String := ""

namespace Repl

/-- What is written before the first line. -/
def greeting (r : Repl) : String :=
  "Monkey 0.1.0 (type .help for commands)\n" ++ r.prompt

/-- Whether a program ends in an expression, whose value is then shown. -/
def showsValue (p : Program) : Bool :=
  match p.getLast? with
  | some (.expr _) => true
  | _ => false

/-- An error message, and the dialogue goes on. -/
def fail (r : Repl) (stdout : String) (e : Error) : Output × Repl :=
  (⟨stdout, errorLine r.color e.message⟩, r)

/-- Evaluates an entry. -/
def evaluate (r : Repl) (source : String) : Output × Repl :=
  match Program.parse source with
  | .error e => r.fail "" e
  | .ok program =>
      match r.session.compile program with
      | (.error e, session) => { r with session }.fail "" e
      | (.ok code, session) =>
          let listing := if r.showCode then code.listing else ""
          let (result, session) := session.run code
          let (printed, session) := session.takeOutput
          let r := { r with session }
          match result with
          | .error e => r.fail (listing ++ printed) e
          | .ok value =>
              let shown :=
                if showsValue program then Text.paintIf r.color .brightWhite value.render ++ "\n"
                else ""
              (⟨listing ++ printed ++ shown, ""⟩, r)

/-- The answer to a complete entry; no dialogue is left once it is over. -/
def answer (r : Repl) (entry : String) : Output × Option Repl :=
  if entry.isEmpty then ({}, some r)
  else
    match Command.ofEntry? entry with
    | some .help => (⟨Command.helpText r.color, ""⟩, some r)
    | some .exit => ({}, none)
    | some .clear => (⟨Command.clearScreen, ""⟩, some r)
    | none =>
        let (output, r) := r.evaluate entry
        (output, some r)

/-- Takes a line with its ending. An entry that is complete with it is answered,
and the prompt is written for the next. -/
def feed (r : Repl) (line : String) : Output × Option Repl :=
  let text := r.pending ++ line
  let entry := Text.withoutEnding text
  if isBalanced entry then
    match { r with pending := "" }.answer (Text.trim entry) with
    | (output, some r) => (output.append ⟨r.prompt, ""⟩, some r)
    | (output, none) => (output, none)
  else ({}, some { r with pending := text })

/-- Takes lines until there are no more or the dialogue is over. -/
def feedAll (output : Output) (r : Repl) : List String → Output
  | [] => output
  | line :: lines =>
      match r.feed line with
      | (more, some r) => feedAll (output.append more) r lines
      | (more, none) => output.append more

/-- What a dialogue over an input writes. An entry that the input leaves
incomplete is dropped. -/
def transcript (r : Repl) (input : String) : Output :=
  feedAll ⟨r.greeting, ""⟩ r (Text.lines input)

end Repl

end Monkey
