/-!
# Command-line options

The arguments of the command line, read from left to right. An option that takes a value has it as
the next argument or after an equals sign.
-/

namespace Monkey

/-- What the arguments ask for. -/
structure Options where
  /-- The program to run; without one the prompt is started. -/
  file : Option String := none
  /-- List the tokens and stop. -/
  tokens : Bool := false
  /-- Show the syntax tree and stop. -/
  tree : Bool := false
  /-- List the code before it runs. -/
  code : Bool := false
  noColor : Bool := false
  config : Option String := none
  stackSize : Option Nat := none
  maxFrames : Option Nat := none
  maxSteps : Option Nat := none
  verbosity : Nat := 0
  deriving DecidableEq

/-- Why arguments are refused. -/
inductive UsageError where
  | unexpected (argument : String)
  | missingValue (option : String)
  | invalidValue (option : String) (value : String)
  | twice (option : String)
  deriving DecidableEq

/-- The wording of a usage error. -/
def UsageError.message : UsageError → String
  | .unexpected argument => "unexpected argument '" ++ argument ++ "' found"
  | .missingValue option => "a value is required for '" ++ option ++ "' but none was supplied"
  | .invalidValue option value => "invalid value '" ++ value ++ "' for '" ++ option ++ "'"
  | .twice option => "the argument '" ++ option ++ "' cannot be used multiple times"

namespace Options

/-- The number that digits spell, if it fits an unsigned 64-bit word. A plus sign
may stand before them. -/
def number? (text : String) : Option Nat :=
  let digits := match text.toList with
    | '+' :: rest => rest
    | cs => cs
  if digits.isEmpty || !digits.all Char.isDigit then none
  else
    let n := digits.foldl (fun n c => 10 * n + (c.toNat - '0'.toNat)) 0
    if n < 0x10000000000000000 then some n else none

/-- A flag that may be given once. -/
def setOnce (option : String) (given : Bool) : Except UsageError Bool :=
  if given then .error (.twice option) else .ok true

/-- Sets an option that takes a value, if there is one of that name. -/
def setValue (o : Options) (option value : String) : Except UsageError Options :=
  let number (given : Option Nat) : Except UsageError (Option Nat) :=
    match given, number? value with
    | some _, _ => .error (.twice option)
    | none, some n => .ok (some n)
    | none, none => .error (.invalidValue option value)
  match option with
  | "--config" =>
      if o.config.isSome then .error (.twice option) else .ok { o with config := some value }
  | "--stack-size" => return { o with stackSize := ← number o.stackSize }
  | "--max-frames" => return { o with maxFrames := ← number o.maxFrames }
  | "--max-steps" => return { o with maxSteps := ← number o.maxSteps }
  | _ => .error (.unexpected option)

/-- Whether an option takes a value. -/
def takesValue (option : String) : Bool :=
  option == "--config" || option == "--stack-size" || option == "--max-frames" ||
    option == "--max-steps"

/-- Sets a flag, if there is one of that name. -/
def setFlag (o : Options) (option : String) : Except UsageError Options :=
  match option with
  | "--tokens" => return { o with tokens := ← setOnce option o.tokens }
  | "--ast" => return { o with tree := ← setOnce option o.tree }
  | "--bc" | "--bytecode" => return { o with code := ← setOnce "--bc" o.code }
  | "--no-color" => return { o with noColor := ← setOnce option o.noColor }
  | "--verbose" => return { o with verbosity := o.verbosity + 1 }
  | _ => .error (.unexpected option)

/-- Sets the program to run. -/
def setFile (o : Options) (name : String) : Except UsageError Options :=
  if o.file.isSome then .error (.unexpected name) else .ok { o with file := some name }

/-- Reads an argument that stands alone: a flag, repeated `v`s, an option with its
value after an equals sign, or the program. -/
def setArgument (o : Options) (argument : String) : Except UsageError Options :=
  match argument.toList with
  | '-' :: '-' :: word =>
      let name := word.takeWhile (· != '=')
      match word.drop name.length with
      | [] => o.setFlag argument
      | _ :: value => o.setValue (String.ofList ('-' :: '-' :: name)) (String.ofList value)
  | '-' :: c :: cs =>
      if (c :: cs).all (· == 'v') then
        .ok { o with verbosity := o.verbosity + (c :: cs).length }
      else .error (.unexpected argument)
  | _ => o.setFile argument

/-- Reads arguments into options. Two dashes alone end the options. -/
def addAll (o : Options) : List String → Except UsageError Options
  | [] => .ok o
  | argument :: rest =>
      if argument == "--" then rest.foldlM setFile o
      else if takesValue argument then
        match rest with
        | [] => .error (.missingValue argument)
        | value :: rest =>
            match o.setValue argument value with
            | .ok o => addAll o rest
            | .error e => .error e
      else
        match o.setArgument argument with
        | .ok o => addAll o rest
        | .error e => .error e

/-- The options that arguments spell. -/
def ofArguments (arguments : List String) : Except UsageError Options :=
  addAll {} arguments

end Options

end Monkey
