import Monkey.Instruction.Basic

/-!
# Values

The values a program computes with. Numbers, truth values, strings and null are plain data.
Arrays, hashes, functions and error values are objects: each carries the identity it got when it
was made, and the language's `==` compares that identity.
-/

namespace Monkey

/-- The identity of an object. No two objects made in one session share it. -/
abbrev Identity := Nat

/-- The functions that every program has. -/
inductive Builtin where
  | len
  | puts
  | first
  | last
  | rest
  | push
  deriving DecidableEq

namespace Builtin

/-- The name programs use. -/
def name : Builtin → String
  | .len => "len"
  | .puts => "puts"
  | .first => "first"
  | .last => "last"
  | .rest => "rest"
  | .push => "push"

/-- Every builtin. Its position is the operand that pushes it. -/
def all : List Builtin :=
  [.len, .puts, .first, .last, .rest, .push]

/-- The builtin with a name, if there is one. -/
def ofName? (name : String) : Option Builtin :=
  all.find? fun b => b.name == name

end Builtin

/-- The compiled body of a function literal. -/
structure Template where
  code : Code
  /-- The stack slots that a call reserves, parameters included. -/
  locals : Nat
  parameters : Nat
  deriving DecidableEq

/-- A value that a hash can have as a key. -/
inductive Key where
  | int (value : Int64)
  | bool (value : Bool)
  | str (text : String)
  deriving DecidableEq

/-- A value whose functions have bodies of type `F`. -/
inductive ValueOf (F : Type) where
  | int (value : Int64)
  | bool (value : Bool)
  | str (text : String)
  | null
  | array (id : Identity) (elements : List (ValueOf F))
  /-- A hash, its entries in the order their keys were first inserted. -/
  | hash (id : Identity) (entries : List (Key × ValueOf F))
  /-- A function before its captured values are known. -/
  | template (id : Identity) (body : F)
  | closure (id : Identity) (body : F) (captured : List (ValueOf F))
  | builtin (function : Builtin)
  /-- An error that a builtin returned; it is a value like any other. -/
  | error (id : Identity) (message : String)

/-- A value of a running program, whose functions are compiled. -/
abbrev Value := ValueOf Template

/-- The kinds of values. -/
inductive Kind where
  | int
  | bool
  | str
  | null
  | array
  | hash
  | template
  | closure
  | builtin
  | error
  deriving DecidableEq

/-- The name of a kind in messages. -/
def Kind.name : Kind → String
  | .int => "INTEGER"
  | .bool => "BOOLEAN"
  | .str => "STRING"
  | .null => "NULL"
  | .array => "ARRAY"
  | .hash => "HASH"
  | .template => "COMPILED_FUNCTION"
  | .closure => "CLOSURE"
  | .builtin => "BUILTIN"
  | .error => "ERROR"

/-- The value of a key. -/
def Key.value : Key → ValueOf F
  | .int value => .int value
  | .bool value => .bool value
  | .str text => .str text

namespace ValueOf

/-- The kind of a value. -/
def kind : ValueOf F → Kind
  | .int _ => .int
  | .bool _ => .bool
  | .str _ => .str
  | .null => .null
  | .array _ _ => .array
  | .hash _ _ => .hash
  | .template _ _ => .template
  | .closure _ _ _ => .closure
  | .builtin _ => .builtin
  | .error _ _ => .error

/-- Only `false` and null count as untrue. -/
def isTruthy : ValueOf F → Bool
  | .bool value => value
  | .null => false
  | _ => true

/-- The key that a value is under, if hashes can have it as one. -/
def key? : ValueOf F → Option Key
  | .int value => some (.int value)
  | .bool value => some (.bool value)
  | .str text => some (.str text)
  | _ => none

/-- The language's `==`: plain data by content, objects by identity, and values
of different kinds never. -/
def identical : ValueOf F → ValueOf F → Bool
  | .int a, .int b => a == b
  | .bool a, .bool b => a == b
  | .str a, .str b => a == b
  | .null, .null => true
  | .array a _, .array b _ => a == b
  | .hash a _, .hash b _ => a == b
  | .template a _, .template b _ => a == b
  | .closure a _ _, .closure b _ _ => a == b
  | .builtin a, .builtin b => a == b
  | .error a _, .error b _ => a == b
  | _, _ => false

end ValueOf

/-- Entries of a hash after one more insertion. A key that is there keeps its
place and takes the new value. -/
def insertEntry (key : Key) (value : ValueOf F) : List (Key × ValueOf F) → List (Key × ValueOf F)
  | [] => [(key, value)]
  | entry :: rest =>
      if entry.1 = key then (key, value) :: rest else entry :: insertEntry key value rest

/-- The value under a key. -/
def lookup? (key : Key) : List (Key × ValueOf F) → Option (ValueOf F)
  | [] => none
  | entry :: rest => if entry.1 = key then some entry.2 else lookup? key rest

end Monkey
