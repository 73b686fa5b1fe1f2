import Monkey.Value.Render

/-!
# The builtin functions

A builtin never fails on its arguments: what it cannot take, it answers with an error value.
Printing is described apart from the answer, by the text that `puts` hands to the console.
-/

namespace Monkey

/-- What is wrong with the arguments of a builtin. -/
inductive ArgumentError where
  | count (got want : Nat)
  | noLength (got : Kind)
  | noArray (function : Builtin) (got : Kind)
  deriving DecidableEq

/-- The wording of an error. -/
def ArgumentError.message : ArgumentError → String
  | .count got want =>
      "wrong number of arguments. got=" ++ toString got ++ ", want=" ++ toString want
  | .noLength got => "argument to `len` not supported, got " ++ got.name
  | .noArray function got =>
      "argument to `" ++ function.name ++ "` must be ARRAY, got " ++ got.name

/-- An error as a value, made with a new identity. -/
def ArgumentError.toValue (id : Identity) (e : ArgumentError) : ValueOf F :=
  .error id e.message

namespace Builtin

/-- The elements of the one array that an accessor was given. -/
def elements (function : Builtin) : List (ValueOf F) → Except ArgumentError (List (ValueOf F))
  | [.array _ elements] => .ok elements
  | [other] => .error (.noArray function other.kind)
  | arguments => .error (.count arguments.length 1)

/-- What the builtin answers, apart from what it prints. The identity is for an
object that the call makes; the length of a string counts bytes. -/
def answer (id : Identity) (arguments : List (ValueOf F)) :
    Builtin → Except ArgumentError (ValueOf F)
  | .len =>
      match arguments with
      | [.str text] => .ok (.int (Int64.ofNat text.utf8ByteSize))
      | [.array _ elements] => .ok (.int (Int64.ofNat elements.length))
      | [other] => .error (.noLength other.kind)
      | _ => .error (.count arguments.length 1)
  | .puts => .ok .null
  | .first => (Builtin.first.elements arguments).map fun elements => elements.head?.getD .null
  | .last => (Builtin.last.elements arguments).map fun elements => elements.getLast?.getD .null
  | .rest =>
      (Builtin.rest.elements arguments).map fun
        | [] => .null
        | _ :: tail => .array id tail
  | .push =>
      match arguments with
      | [.array _ elements, value] => .ok (.array id (elements ++ [value]))
      | [other, _] => .error (.noArray .push other.kind)
      | _ => .error (.count arguments.length 2)

/-- The value of a call. -/
def apply (id : Identity) (function : Builtin) (arguments : List (ValueOf F)) : ValueOf F :=
  match function.answer id arguments with
  | .ok value => value
  | .error e => e.toValue id

/-- The text that a call prints: a line per argument of `puts`. -/
def printed (arguments : List (ValueOf F)) (function : Builtin)
    (address : Identity → String := addressText) : String :=
  match function with
  | .puts => arguments.foldl (fun out v => (v.write address out).push '\n') ""
  | _ => ""

end Builtin

end Monkey
