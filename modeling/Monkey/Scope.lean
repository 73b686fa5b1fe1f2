import Std.Data.TreeMap

/-!
# Scopes and symbols

Names are resolved while a program is compiled. Each function body has a scope; a name found in
the scope of an enclosing body is captured by every body in between, so that at run time each
closure hands the value on to the next.
-/

namespace Monkey

/-- Where the value of a name is at run time. -/
inductive Storage where
  /-- A slot of the program's globals. -/
  | global
  /-- A slot of the running call. -/
  | slot
  /-- An entry of the table of builtins. -/
  | builtin
  /-- A captured value of the running closure. -/
  | captured
  /-- The running closure itself. -/
  | self
  deriving DecidableEq

/-- What a name stands for. -/
structure Symbol where
  name : String
  storage : Storage
  index : Nat
  deriving DecidableEq

/-- The names of one function body, or of the top level. -/
structure Scope where
  names : Std.TreeMap String Symbol := {}
  /-- The captured symbols, as the enclosing scope knows them. -/
  captures : Array Symbol := #[]
  /-- The number of slots given out. -/
  definitions : Nat := 0

namespace Scope

/-- Gives a name the next slot. A name that was defined before gets a new one. -/
def define (scope : Scope) (storage : Storage) (name : String) : Symbol × Scope :=
  let symbol : Symbol := ⟨name, storage, scope.definitions⟩
  (symbol, { scope with
    names := scope.names.insert name symbol
    definitions := scope.definitions + 1 })

/-- Makes a name stand for a symbol that takes no slot. -/
def declare (scope : Scope) (symbol : Symbol) : Scope :=
  { scope with names := scope.names.insert symbol.name symbol }

/-- Captures a symbol of the enclosing scope. -/
def capture (scope : Scope) (outer : Symbol) : Symbol × Scope :=
  let symbol : Symbol := ⟨outer.name, .captured, scope.captures.size⟩
  (symbol, { scope with
    names := scope.names.insert outer.name symbol
    captures := scope.captures.push outer })

end Scope

/-- The open scopes: the innermost, and those around it from the inside out. The
last of them is the top level. -/
structure SymbolTable where
  current : Scope := {}
  outer : List Scope := []

/-- What a function body leaves behind when its scope is closed. -/
structure ClosedScope where
  definitions : Nat := 0
  captures : Array Symbol := #[]

namespace SymbolTable

/-- The number of function bodies around the current place. -/
def depth (table : SymbolTable) : Nat :=
  table.outer.length

/-- Opens the scope of a function body. -/
def enter (table : SymbolTable) : SymbolTable :=
  ⟨{}, table.current :: table.outer⟩

/-- Closes the innermost scope. The top level stays open. -/
def leave (table : SymbolTable) : ClosedScope × SymbolTable :=
  match table.outer with
  | [] => ({}, table)
  | scope :: rest => (⟨table.current.definitions, table.current.captures⟩, ⟨scope, rest⟩)

/-- Defines a name in the innermost scope: a global at the top level, else a
slot of the call. -/
def define (table : SymbolTable) (name : String) : Symbol × SymbolTable :=
  let storage := match table.outer with
    | [] => Storage.global
    | _ :: _ => Storage.slot
  let (symbol, scope) := table.current.define storage name
  (symbol, { table with current := scope })

/-- Makes a name stand for the function whose body is being compiled. -/
def defineSelf (table : SymbolTable) (name : String) : Symbol × SymbolTable :=
  let symbol : Symbol := ⟨name, .self, 0⟩
  (symbol, { table with current := table.current.declare symbol })

/-- Declares a symbol in the last of some scopes. -/
def declareLast (symbol : Symbol) : Scope → List Scope → SymbolTable
  | scope, [] => ⟨scope.declare symbol, []⟩
  | scope, next :: rest =>
      let ⟨next, rest⟩ := declareLast symbol next rest
      ⟨scope, next :: rest⟩

/-- Makes a name stand for a builtin. Builtins belong to the top level, where
every body sees them. -/
def defineBuiltin (table : SymbolTable) (index : Nat) (name : String) : Symbol × SymbolTable :=
  let symbol : Symbol := ⟨name, .builtin, index⟩
  (symbol, declareLast symbol table.current table.outer)

/-- Looks a name up from a scope outwards. A hit in an enclosing body is captured
by each scope on the way in; globals and builtins need no capture. -/
def resolveFrom (name : String) : Scope → List Scope → Option (Symbol × SymbolTable)
  | scope, [] => scope.names[name]?.map fun symbol => (symbol, ⟨scope, []⟩)
  | scope, next :: rest =>
      match scope.names[name]? with
      | some symbol => some (symbol, ⟨scope, next :: rest⟩)
      | none =>
          match resolveFrom name next rest with
          | none => none
          | some (symbol, ⟨next, rest⟩) =>
              match symbol.storage with
              | .global | .builtin => some (symbol, ⟨scope, next :: rest⟩)
              | .slot | .captured | .self =>
                  let (captured, scope) := scope.capture symbol
                  some (captured, ⟨scope, next :: rest⟩)

/-- What a name stands for, if any open scope knows it. -/
def resolve (table : SymbolTable) (name : String) : Option (Symbol × SymbolTable) :=
  resolveFrom name table.current table.outer

/-- The top level alone, without the bodies that are open in it. -/
def globals (table : SymbolTable) : SymbolTable :=
  ⟨table.outer.getLastD table.current, []⟩

end SymbolTable

end Monkey
