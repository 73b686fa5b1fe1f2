/-!
# TOML documents

A document is a table of values. Tables come about in four ways, and the way decides what may still
be added: a table under a header of its own is closed to dotted keys, a table that a longer header
implied may get its header later, one made by dotted keys grows by dotted keys only, and an inline
table is complete.
-/

namespace Monkey

/-- How a table came about. -/
inductive TableOrigin where
  | header
  | implied
  | dotted
  | inline
  deriving DecidableEq

/-- A value of a document. -/
inductive Toml where
  | int (value : Int)
  | str (text : String)
  | bool (value : Bool)
  | float (text : String)
  | time (text : String)
  | array (items : List Toml)
  | table (origin : TableOrigin) (entries : List (String × Toml))
  /-- Tables that share one header in double brackets. -/
  | tables (items : List (List (String × Toml)))

namespace Toml

/-- The entries of a table, in the order they were written. -/
abbrev Entries := List (String × Toml)

/-- Sets the value of a key. -/
def put (key : String) (value : Toml) : Entries → Entries
  | [] => [(key, value)]
  | entry :: rest =>
      if entry.1 = key then (key, value) :: rest else entry :: put key value rest

/-- Adds a value under a dotted key, given as its path and its last part. A key is
set once, and the path may not pass through what is closed to it. -/
def insert : List String → String → Toml → Entries → Option Entries
  | [], key, value, entries =>
      match entries.lookup key with
      | some _ => none
      | none => some (entries ++ [(key, value)])
  | part :: path, key, value, entries =>
      match entries.lookup part with
      | none => do
          let inner ← insert path key value []
          return put part (.table .dotted inner) entries
      | some (.table .dotted inner) => do
          let inner ← insert path key value inner
          return put part (.table .dotted inner) entries
      | some (.table .implied inner) =>
          if path.isEmpty then none
          else do
            let inner ← insert path key value inner
            return put part (.table .implied inner) entries
      | some (.tables items) =>
          match items.getLast? with
          | some inner =>
              if path.isEmpty then none
              else do
                let inner ← insert path key value inner
                return put part (.tables (items.dropLast ++ [inner])) entries
          | none => none
      | some _ => none

/-- Changes the table at a path of headers. Tables that are missing on the way are
implied, and of tables under one header the last is meant. -/
def within : List String → (Entries → Option Entries) → Entries → Option Entries
  | [], change, entries => change entries
  | part :: path, change, entries =>
      match entries.lookup part with
      | none => do
          let inner ← within path change []
          return put part (.table .implied inner) entries
      | some (.table .inline _) => none
      | some (.table origin inner) => do
          let inner ← within path change inner
          return put part (.table origin inner) entries
      | some (.tables items) =>
          match items.getLast? with
          | some inner => do
              let inner ← within path change inner
              return put part (.tables (items.dropLast ++ [inner])) entries
          | none => none
      | some _ => none

/-- A key with its value: the path, the last part of the key, the value. -/
abbrev Pair := List String × String × Toml

/-- Adds pairs to a table. -/
def insertAll (entries : Entries) (pairs : List Pair) : Option Entries :=
  pairs.foldlM (fun entries (path, key, value) => insert path key value entries) entries

/-- A header and the pairs below it. -/
structure Section where
  path : List String
  name : String
  /-- Whether the header is in double brackets. -/
  repeated : Bool
  pairs : List Pair

/-- Adds a section to a document. -/
def addSection (document : Entries) (s : Section) : Option Entries :=
  within s.path
    (fun entries =>
      if s.repeated then do
        let before ← match entries.lookup s.name with
          | none => some []
          | some (.tables items) => some items
          | some _ => none
        let table ← insertAll [] s.pairs
        return put s.name (.tables (before ++ [table])) entries
      else do
        let before ← match entries.lookup s.name with
          | none => some []
          | some (.table .implied inner) => some inner
          | some _ => none
        let table ← insertAll before s.pairs
        return put s.name (.table .header table) entries)
    document

/-- The document that starts with some pairs and goes on with sections. -/
def assemble (pairs : List Pair) (sections : List Section) : Option Entries := do
  let top ← insertAll [] pairs
  sections.foldlM addSection top

end Toml

end Monkey
