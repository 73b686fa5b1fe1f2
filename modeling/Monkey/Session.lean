import Monkey.Error
import Monkey.Machine.Step

/-!
# Sessions

Programs that run one after the other and share their definitions. Each sees the globals and names
of those before it. A program that is refused leaves nothing behind; one that faults keeps the
globals it had stored.

The programs of a session have one identity, which no object has that they make.
-/

namespace Monkey

/-- What is kept between the programs of a session. -/
structure Session where
  compiler : Compiler := .new
  globals : Array Value := #[]
  limits : Limits := {}
  /-- The last identity that was given out. The first one is that of the programs. -/
  issued : Identity := 0
  console : Console := {}
  /-- How many instructions a run is followed for. -/
  fuel : Nat := 0x4000000000000000

namespace Session

/-- Compiles a program against the definitions so far, without running it. -/
def compile (s : Session) (p : Program) : Except Error Bytecode × Session :=
  let (result, compiler) := s.compiler.compile p
  (result.mapError .compiler, { s with compiler })

/-- The result of a run that has come to some state. -/
def resultOf : Progress → Except Error Value
  | .halted m => .ok m.lastPopped
  | .faulted fault _ => .error (.runtime fault)
  | .running _ => .error .unfinished

/-- Runs a program that the session compiled. Its value is the last one it
popped. -/
def run (s : Session) (program : Bytecode) : Except Error Value × Session :=
  let reached :=
    (Machine.start s.limits program s.globals s.issued s.console 0).run s.fuel
  let m := reached.machine
  (resultOf reached, { s with globals := m.globals, issued := m.issued, console := m.console })

/-- Compiles a program and runs it. -/
def evalProgram (s : Session) (p : Program) : Except Error Value × Session :=
  match s.compile p with
  | (.ok program, s) => s.run program
  | (.error e, s) => (.error e, s)

/-- Evaluates a source text. -/
def eval (s : Session) (source : String) : Except Error Value × Session :=
  match Program.parse source with
  | .ok p => s.evalProgram p
  | .error e => (.error e, s)

/-- What was printed since the last time, and the session without it. -/
def takeOutput (s : Session) : String × Session :=
  (s.console.written, { s with console := { s.console with written := "" } })

end Session

end Monkey
