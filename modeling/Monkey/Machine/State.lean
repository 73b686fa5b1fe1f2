import Monkey.Machine.Fault
import Monkey.Codegen.Basic
import Monkey.Value.Render

/-!
# The machine

A stack machine. The value stack has a fixed number of slots; `top` is the first free one, and a
popped slot keeps its value until it is written again, which is how a run's last value is read. A
call puts a frame on the stack of frames; its slots start at `base`, right above the called closure.
-/

namespace Monkey

/-- The limits of a run. -/
structure Limits where
  /-- Slots of the value stack. -/
  stackSize : Nat := 2048
  /-- Frames that may be live at once, that of the top level included. -/
  maxFrames : Nat := 1024
  /-- The number of globals. -/
  globalsSize : Nat := 65536
  /-- Instructions to execute, if they are limited. -/
  maxSteps : Option Nat := none
  deriving DecidableEq

/-- Where printed text goes. -/
structure Console where
  written : String := ""
  /-- The addresses of objects, as they are shown. -/
  address : Identity → String := addressText
  /-- Why no text is accepted, if none is. -/
  refusal : Option String := none

/-- Writes a text, unless the console refuses. Nothing to write is never
refused. -/
def Console.write (c : Console) (text : String) : Except String Console :=
  if text.isEmpty then .ok c
  else
    match c.refusal with
    | some reason => .error reason
    | none => .ok { c with written := c.written ++ text }

/-- A running call: a closure, the offset of its next instruction, and the slot
of its first argument. -/
structure Frame where
  id : Identity
  body : Template
  captured : List Value
  ip : Nat := 0
  base : Nat := 0

/-- The closure that a frame runs. -/
def Frame.closure (f : Frame) : Value :=
  .closure f.id f.body f.captured

/-- A machine in the middle of a run. -/
structure Machine where
  limits : Limits
  constants : Array Value
  stack : Array Value
  /-- The first free slot of the stack. -/
  top : Nat := 0
  globals : Array Value
  frame : Frame
  /-- The frames that wait for the current one, the outermost first. -/
  callers : Array Frame := #[]
  /-- The number of instructions begun. -/
  steps : Nat := 0
  /-- The last identity that was given out. -/
  issued : Identity
  console : Console := {}

namespace Machine

/-- A machine at the start of a program. The program itself has an identity that was given out
before, by default the last one. -/
def start (limits : Limits) (program : Bytecode) (globals : Array Value) (issued : Identity)
    (console : Console) (self : Identity := issued) : Machine where
  limits
  constants := program.constants
  stack := Array.replicate limits.stackSize .null
  globals
  frame := { id := self, body := ⟨program.code, 0, 0⟩, captured := [] }
  issued
  console

/-- The value of a slot; null beyond the stack. -/
def slot (m : Machine) (i : Nat) : Value :=
  m.stack[i]?.getD .null

/-- The value that was popped last, which is the value of a finished program. -/
def lastPopped (m : Machine) : Value :=
  m.slot m.top

end Machine

end Monkey
