import Monkey.Machine.Operators
import Monkey.Machine.State
import Monkey.Value.Builtins

/-!
# One instruction at a time

`execute` is the effect of an instruction on the machine. A fault ends the run where it arises: what
the instruction did before stays visible in the machine. `step` fetches, counts and executes.
-/

namespace Monkey

/-- An action on a machine, which may end in a fault. The machine survives it. -/
abbrev Exec := EStateM Fault Machine

namespace Machine

/-- The fault of a stack that is full. -/
def overflow (m : Machine) : Fault :=
  .stackOverflow m.limits.stackSize

/-- Ends the run. -/
def fail (fault : Fault) : Exec α :=
  throw fault

/-- Goes on with a result, or ends the run with its fault. -/
def check : Except Fault α → Exec α
  | .ok a => pure a
  | .error fault => fail fault

/-- Pushes a value. -/
def push (v : Value) : Exec Unit := fun m =>
  if h : m.top < m.stack.size then
    .ok () { m with stack := m.stack.set m.top v h, top := m.top + 1 }
  else .error m.overflow m

/-- Pops a value. Its slot keeps it. -/
def pop : Exec Value := fun m =>
  if m.top = 0 then .error .stackUnderflow m
  else .ok (m.slot (m.top - 1)) { m with top := m.top - 1 }

/-- Pops values, the lowest first. -/
def take (count : Nat) : Exec (List Value) := fun m =>
  if count ≤ m.top then
    .ok (m.stack.extract (m.top - count) m.top).toList { m with top := m.top - count }
  else .error .stackUnderflow m

/-- Writes a slot of the stack. -/
def setSlot (i : Nat) (v : Value) : Exec Unit := fun m =>
  if h : i < m.stack.size then .ok () { m with stack := m.stack.set i v h }
  else .error m.overflow m

/-- The identity of a new object. -/
def newIdentity : Exec Identity := fun m =>
  .ok (m.issued + 1) { m with issued := m.issued + 1 }

/-- Goes on at an offset of the current stream. -/
def jumpTo (offset : Nat) : Exec Unit :=
  modify fun m => { m with frame := { m.frame with ip := offset } }

/-- Pushes a constant. -/
def pushConstant (index : Nat) : Exec Unit := do
  match (← get).constants[index]? with
  | some v => push v
  | none => fail (.invalidConstant index)

/-- Pushes a global. One that was never stored is null. -/
def pushGlobal (index : Nat) : Exec Unit := do
  push ((← get).globals[index]?.getD .null)

/-- Globals with room for an index, new ones null. -/
def growGlobals (globals : Array (ValueOf F)) (index : Nat) : Array (ValueOf F) :=
  globals ++ Array.replicate (index + 1 - globals.size) .null

/-- Pops a value into a global. -/
def storeGlobal (index : Nat) : Exec Unit := do
  let v ← pop
  let m ← get
  if m.limits.globalsSize ≤ index then fail (.globalsOverflow index m.limits.globalsSize)
  else modify fun m => { m with globals := (growGlobals m.globals index).setIfInBounds index v }

/-- Pushes a slot of the current call. -/
def pushLocal (slot : Nat) : Exec Unit := do
  let m ← get
  match m.stack[m.frame.base + slot]? with
  | some v => push v
  | none => fail m.overflow

/-- Pops a value into a slot of the current call. -/
def storeLocal (slot : Nat) : Exec Unit := do
  let i := (← get).frame.base + slot
  let v ← pop
  setSlot i v

/-- Pushes a builtin. -/
def pushBuiltin (index : Nat) : Exec Unit :=
  match Builtin.all[index]? with
  | some function => push (.builtin function)
  | none => fail (.invalidBuiltin index)

/-- Pushes a captured value of the running closure. -/
def pushCaptured (index : Nat) : Exec Unit := do
  match (← get).frame.captured[index]? with
  | some v => push v
  | none => fail (.invalidCapture index)

/-- Makes a closure from a template and the values on the stack. -/
def makeClosure (index count : Nat) : Exec Unit := do
  match (← get).constants[index]? with
  | some (.template _ body) => do
      let captured ← take count
      let id ← newIdentity
      push (.closure id body captured)
  | _ => fail (.invalidConstant index)

/-- Applies an operator to the two values on the stack. -/
def applyBinary (op : BinaryOperator) : Exec Unit := do
  let right ← pop
  let left ← pop
  push (← check (ValueOf.binary op left right))

/-- Compares the two values on the stack. -/
def compare (wanted : Bool) : Exec Unit := do
  let right ← pop
  let left ← pop
  push (.bool (left.identical right == wanted))

/-- A stack with null in `count` slots from `start` on. -/
def clearSlots (stack : Array Value) (start : Nat) : Nat → Array Value
  | 0 => stack
  | count + 1 => clearSlots (stack.setIfInBounds start .null) (start + 1) count

/-- Calls a closure: its arguments become its first slots, the others are null. -/
def enter (id : Identity) (body : Template) (captured : List Value) (arguments : Nat) :
    Exec Unit := fun m =>
  let base := m.top - arguments
  let top := base + body.locals
  if arguments ≠ body.parameters then
    .error (.argumentCount body.parameters arguments) m
  else if m.limits.maxFrames ≤ m.callers.size + 1 then
    .error (.frameOverflow m.limits.maxFrames) m
  else if m.stack.size < top then .error m.overflow m
  else
    .ok () { m with
      stack := clearSlots m.stack m.top (top - m.top)
      top
      frame := { id, body, captured, base }
      callers := m.callers.push m.frame }

/-- Prints a text. -/
def print (function : Builtin) (text : String) : Exec Unit := fun m =>
  match m.console.write text with
  | .ok console => .ok () { m with console }
  | .error reason => .error (.builtinFailed function reason) m

/-- Calls a builtin: its answer replaces the arguments and the callee. -/
def callBuiltin (function : Builtin) (count : Nat) : Exec Unit := do
  let m ← get
  let arguments := (m.stack.extract (m.top - count) m.top).toList
  print function (function.printed arguments m.console.address)
  let id ← newIdentity
  modify fun m => { m with top := m.top - count - 1 }
  push (function.apply id arguments)

/-- Calls what lies below the arguments. -/
def call (count : Nat) : Exec Unit := do
  let m ← get
  if m.top < count + 1 then fail .stackUnderflow
  else
    match m.slot (m.top - (count + 1)) with
    | .closure id body captured => enter id body captured count
    | .builtin function => callBuiltin function count
    | v => fail (.notAFunction v.kind)

/-- Leaves the current call; its value replaces the arguments and the callee. At
the top level this ends the program, with the value as the last one popped. -/
def leave (v : Value) : Exec Unit := do
  let m ← get
  match m.callers.back? with
  | none => do
      jumpTo m.frame.body.code.size
      setSlot m.top v
  | some caller =>
      if m.frame.base = 0 then fail .stackUnderflow
      else do
        modify fun m => { m with
          frame := caller
          callers := m.callers.pop
          top := m.frame.base - 1 }
        push v

/-- The effect of an instruction. -/
def execute : Instruction → Exec Unit
  | .constant index => pushConstant index
  | .add => applyBinary .add
  | .subtract => applyBinary .subtract
  | .multiply => applyBinary .multiply
  | .divide => applyBinary .divide
  | .pop => do let _ ← pop
  | .pushTrue => push (.bool true)
  | .pushFalse => push (.bool false)
  | .equal => compare true
  | .notEqual => compare false
  | .greater => applyBinary .greater
  | .negate => do push (← check (← pop).negate)
  | .not => do push (.bool !(← pop).isTruthy)
  | .jumpUnless target => do
      let condition ← pop
      if condition.isTruthy then pure () else jumpTo target
  | .jump target => jumpTo target
  | .pushNull => push .null
  | .getGlobal index => pushGlobal index
  | .setGlobal index => storeGlobal index
  | .array count => do
      let elements ← take count
      push (.array (← newIdentity) elements)
  | .hash count => do
      let entries ← check (ValueOf.collectEntries [] (← take count))
      push (.hash (← newIdentity) entries)
  | .index => do
      let position ← pop
      let container ← pop
      push (← check (container.atIndex position))
  | .call arguments => call arguments
  | .returnValue => do leave (← pop)
  | .returnNull => leave .null
  | .setLocal slot => storeLocal slot
  | .getLocal slot => pushLocal slot
  | .getBuiltin index => pushBuiltin index
  | .closure template captured => makeClosure template captured
  | .getCaptured index => pushCaptured index
  | .currentClosure => do push (← get).frame.closure

end Machine

/-- How a run stands. -/
inductive Progress where
  | running (m : Machine)
  /-- The stream of the current frame is at its end. -/
  | halted (m : Machine)
  | faulted (fault : Fault) (m : Machine)

/-- The machine, however the run stands. -/
def Progress.machine : Progress → Machine
  | .running m => m
  | .halted m => m
  | .faulted _ m => m

namespace Machine

/-- Counts an instruction and moves past it. -/
def advance (m : Machine) (next : Nat) : Machine :=
  { m with frame := { m.frame with ip := next }, steps := m.steps + 1 }

/-- Whether a machine has begun more instructions than it may. -/
def exceedsLimit (m : Machine) : Option Nat :=
  m.limits.maxSteps.filter (· < m.steps)

/-- Fetches an instruction and executes it. A malformed instruction is reported
before the limit on instructions. -/
def step (m : Machine) : Progress :=
  match Code.fetch? m.frame.body.code m.frame.ip with
  | .error cause => .faulted (.badInstruction m.frame.ip cause) m
  | .ok none => .halted m
  | .ok (some (instruction, next)) =>
      let m := m.advance next
      match m.exceedsLimit with
      | some limit => .faulted (.stepLimit limit) m
      | none =>
          match execute instruction m with
          | .ok _ m => .running m
          | .error fault m => .faulted fault m

/-- Runs for at most `fuel` instructions. -/
def run : Nat → Machine → Progress
  | 0, m => .running m
  | fuel + 1, m =>
      match m.step with
      | .running m => run fuel m
      | ended => ended

end Machine

end Monkey
