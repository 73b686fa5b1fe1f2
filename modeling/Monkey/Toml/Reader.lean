import Monkey.Toml.Scalar

/-!
# Reading TOML

Each reader takes the characters still to come and returns, with its value, those it left over; it
returns nothing where the text is not TOML. Loops are bounded by the length of the text they start
on, since every round takes a character.
-/

namespace Monkey.Toml

/-- Blanks within a line. -/
def isSpace (c : Char) : Bool :=
  c == ' ' || c == '\t'

/-- Passes over blanks. -/
def skipSpaces (cs : List Char) : List Char :=
  cs.dropWhile isSpace

/-- Whether a character may stand in a comment or, quotes and backslashes aside, in
a string. -/
def isPlain (c : Char) : Bool :=
  c == '\t' || (0x20 ≤ c.toNat && c.toNat != 0x7F)

/-- Takes the end of a line. -/
def newline? : List Char → Option (List Char)
  | '\n' :: rest => some rest
  | '\r' :: '\n' :: rest => some rest
  | _ => none

/-- Passes over a comment, if there is one. -/
def skipComment : List Char → List Char
  | '#' :: rest => rest.dropWhile isPlain
  | cs => cs

/-- Takes what may follow on a line: blanks and a comment. -/
def lineEnd? (cs : List Char) : Option (List Char) :=
  match skipComment (skipSpaces cs) with
  | [] => some []
  | rest => newline? rest

/-- Passes over blanks, comments and line ends. -/
def skipLines : Nat → List Char → List Char
  | 0, cs => cs
  | fuel + 1, cs =>
      let cs := skipSpaces cs
      match newline? (skipComment cs) with
      | some rest => skipLines fuel rest
      | none => cs

/-- The character with a code point in hexadecimal digits. -/
def codePoint? (digits : List Char) : Option Char :=
  if digits.all (isDigitOf 16) then
    let n := runValue 16 digits
    if n.isValidChar then some (Char.ofNat n) else none
  else none

/-- The character that a one-letter escape stands for. -/
def escape? : Char → Option Char
  | 'b' => some '\x08'
  | 't' => some '\t'
  | 'n' => some '\n'
  | 'f' => some '\x0C'
  | 'r' => some '\r'
  | '"' => some '"'
  | '\\' => some '\\'
  | _ => none

/-- Takes the escape after a backslash. -/
def escaped? : List Char → Option (Char × List Char)
  | 'u' :: rest => (codePoint? (rest.take 4)).bind fun c =>
      if rest.length < 4 then none else some (c, rest.drop 4)
  | 'U' :: rest => (codePoint? (rest.take 8)).bind fun c =>
      if rest.length < 8 then none else some (c, rest.drop 8)
  | c :: rest => (escape? c).map fun d => (d, rest)
  | [] => none

/-- Takes a basic string after its opening quote. -/
def basicString : Nat → String → List Char → Option (String × List Char)
  | 0, _, _ => none
  | fuel + 1, text, cs =>
      match cs with
      | '"' :: rest => some (text, rest)
      | '\\' :: rest => do
          let (c, rest) ← escaped? rest
          basicString fuel (text.push c) rest
      | c :: rest => if isPlain c then basicString fuel (text.push c) rest else none
      | [] => none

/-- Takes a literal string after its opening quote. -/
def literalString : String → List Char → Option (String × List Char)
  | text, '\'' :: rest => some (text, rest)
  | text, c :: rest => if isPlain c then literalString (text.push c) rest else none
  | _, [] => none

/-- Takes the quotes that end a string of several lines; up to two belong to the
string. -/
def closingQuotes? (quote : Char) (text : String) (cs : List Char) : Option (String × List Char) :=
  let quotes := cs.takeWhile (· == quote)
  let count := min quotes.length 5
  if 3 ≤ count then
    some (text ++ String.ofList (List.replicate (count - 3) quote), cs.drop count)
  else none

/-- Whether a line ends after blanks. -/
def endsLine (cs : List Char) : Bool :=
  (newline? (skipSpaces cs)).isSome

/-- Passes over blanks and line ends. -/
def skipBlankLines : Nat → List Char → List Char
  | 0, cs => cs
  | fuel + 1, cs =>
      match newline? (skipSpaces cs) with
      | some rest => skipBlankLines fuel rest
      | none => skipSpaces cs

/-- Takes a string of several lines after its opening quotes; `quote` says which. A
backslash at the end of a line joins it to the next text. -/
def longString (quote : Char) : Nat → String → List Char → Option (String × List Char)
  | 0, _, _ => none
  | fuel + 1, text, cs =>
      match closingQuotes? quote text cs with
      | some result => some result
      | none =>
          match newline? cs with
          | some rest => longString quote fuel (text.push '\n') rest
          | none =>
              match cs with
              | [] => none
              | c :: rest =>
                  if c == '\\' && quote == '"' then
                    if endsLine rest then
                      longString quote fuel text (skipBlankLines rest.length rest)
                    else do
                      let (d, rest) ← escaped? rest
                      longString quote fuel (text.push d) rest
                  else if isPlain c then longString quote fuel (text.push c) rest
                  else none

/-- Takes a string of any form. -/
def string? : List Char → Option (String × List Char)
  | '"' :: '"' :: '"' :: rest =>
      longString '"' (rest.length + 1) "" ((newline? rest).getD rest)
  | '\'' :: '\'' :: '\'' :: rest =>
      longString '\'' (rest.length + 1) "" ((newline? rest).getD rest)
  | '"' :: rest => basicString (rest.length + 1) "" rest
  | '\'' :: rest => literalString "" rest
  | _ => none

/-- Whether a character may stand in a bare key. -/
def isBareKey (c : Char) : Bool :=
  c.isAlphanum || c == '_' || c == '-'

/-- Takes one part of a key. -/
def keyPart? : List Char → Option (String × List Char)
  | '"' :: rest => basicString (rest.length + 1) "" rest
  | '\'' :: rest => literalString "" rest
  | cs =>
      let word := cs.takeWhile isBareKey
      if word.isEmpty then none else some (String.ofList word, cs.drop word.length)

/-- Takes a dotted key with the blanks around it: its parts but the last, in
reverse, and the last. -/
def key? : Nat → List String → List Char → Option ((List String × String) × List Char)
  | 0, _, _ => none
  | fuel + 1, done, cs => do
      let (part, rest) ← keyPart? (skipSpaces cs)
      match skipSpaces rest with
      | '.' :: rest => key? fuel (part :: done) rest
      | rest => return ((done.reverse, part), rest)

/-- The deepest nesting, of values in one another and of the tables of one key. -/
def maxDepth : Nat := 79

/-- Takes a dotted key with at most `maxDepth` parts. -/
def wholeKey? (cs : List Char) : Option ((List String × String) × List Char) := do
  let (key, rest) ← key? (cs.length + 1) [] cs
  if key.1.length < maxDepth then some (key, rest) else none

/-- Whether a character may stand in a number, a date or a time. -/
def isScalarChar (c : Char) : Bool :=
  c.isAlphanum || c == '+' || c == '-' || c == '_' || c == '.' || c == ':'

/-- Takes a number, a date or a time, which may have a blank between date and time. -/
def scalarRead? (cs : List Char) : Option (Toml × List Char) := do
  let run := cs.takeWhile isScalarChar
  let rest := cs.drop run.length
  match isDate run, rest with
  | true, ' ' :: after =>
      let clock := after.takeWhile isScalarChar
      if (clock.head?.map Char.isDigit).getD false then
        let value ← scalar? (run ++ ' ' :: clock)
        return (value, after.drop clock.length)
      else
        return (← scalar? run, rest)
  | _, _ => return (← scalar? run, rest)

/-- A reader of one value. -/
abbrev ItemReader := List Char → Option (Toml × List Char)

/-- Takes comma-separated items up to the closing bracket; a comma may follow the
last. `item` takes one of them. -/
def arrayItems (item : ItemReader) :
    Nat → List Toml → List Char → Option (List Toml × List Char)
  | 0, _, _ => none
  | fuel + 1, done, cs =>
      match skipLines cs.length cs with
      | ']' :: rest => some (done.reverse, rest)
      | cs => do
          let (value, rest) ← item cs
          match skipLines rest.length rest with
          | ',' :: rest => arrayItems item fuel (value :: done) rest
          | ']' :: rest => return ((value :: done).reverse, rest)
          | _ => none

/-- Takes a key, the equals sign and a value. -/
def pairWith? (item : ItemReader) (cs : List Char) : Option (Pair × List Char) := do
  let ((path, key), rest) ← wholeKey? cs
  match rest with
  | '=' :: rest => do
      let (value, rest) ← item (skipSpaces rest)
      return ((path, key, value), rest)
  | _ => none

/-- Takes the pairs of an inline table, at least one, up to the closing brace. -/
def inlinePairs (item : ItemReader) :
    Nat → List Pair → List Char → Option (List Pair × List Char)
  | 0, _, _ => none
  | fuel + 1, done, cs => do
      let (pair, rest) ← pairWith? item cs
      match skipSpaces rest with
      | ',' :: rest => inlinePairs item fuel (pair :: done) rest
      | '\x7d' :: rest => return ((pair :: done).reverse, rest)
      | _ => none

/-- Takes an inline table after its opening brace. -/
def inlineTable? (item : ItemReader) (cs : List Char) : Option (Toml × List Char) :=
  match skipSpaces cs with
  | '\x7d' :: rest => some (.table .inline [], rest)
  | cs => do
      let (pairs, rest) ← inlinePairs item (cs.length + 1) [] cs
      let entries ← insertAll [] pairs
      return (.table .inline entries, rest)

/-- Takes a value that holds no others. -/
def plainValue? (cs : List Char) : Option (Toml × List Char) :=
  match cs with
  | '"' :: _ | '\'' :: _ => (string? cs).map fun (text, rest) => (.str text, rest)
  | 't' :: 'r' :: 'u' :: 'e' :: rest => some (.bool true, rest)
  | 'f' :: 'a' :: 'l' :: 's' :: 'e' :: rest => some (.bool false, rest)
  | _ => scalarRead? cs

/-- Takes a value with at most `depth` arrays and inline tables in one another. -/
def value? : Nat → List Char → Option (Toml × List Char)
  | 0, cs => plainValue? cs
  | depth + 1, cs =>
      match cs with
      | '[' :: rest => do
          let (items, rest) ← arrayItems (value? depth) (rest.length + 1) [] rest
          return (.array items, rest)
      | '\x7b' :: rest => inlineTable? (value? depth) rest
      | _ => plainValue? cs

/-- Takes a header after its opening bracket or brackets. -/
def header? (repeated : Bool) (cs : List Char) : Option (Section × List Char) := do
  let ((path, name), rest) ← wholeKey? cs
  match repeated, rest with
  | false, ']' :: rest => return (⟨path, name, false, []⟩, rest)
  | true, ']' :: ']' :: rest => return (⟨path, name, true, []⟩, rest)
  | _, _ => none

/-- A document under construction: the pairs before the first header in reverse,
and the sections in reverse, each with its pairs in reverse. -/
structure Draft where
  pairs : List Pair := []
  sections : List Section := []

/-- Adds a pair below the last header. -/
def Draft.addPair (d : Draft) (pair : Pair) : Draft :=
  match d.sections with
  | [] => { d with pairs := pair :: d.pairs }
  | s :: rest => { d with sections := { s with pairs := pair :: s.pairs } :: rest }

/-- The finished document. -/
def Draft.finish (d : Draft) : Option Entries :=
  assemble d.pairs.reverse
    (d.sections.reverse.map fun s => { s with pairs := s.pairs.reverse })

/-- Reads the lines of a document. -/
def lines : Nat → Draft → List Char → Option Draft
  | 0, _, _ => none
  | fuel + 1, draft, cs =>
      match skipLines cs.length cs with
      | [] => some draft
      | '#' :: rest => if (skipComment ('#' :: rest)).isEmpty then some draft else none
      | '[' :: '[' :: rest => do
          let (s, rest) ← header? true rest
          lines fuel { draft with sections := s :: draft.sections } (← lineEnd? rest)
      | '[' :: rest => do
          let (s, rest) ← header? false rest
          lines fuel { draft with sections := s :: draft.sections } (← lineEnd? rest)
      | cs => do
          let (pair, rest) ← pairWith? (value? maxDepth) cs
          lines fuel (draft.addPair pair) (← lineEnd? rest)

/-- The table of a whole document, if the text is one. -/
def read? (text : String) : Option Entries := do
  let cs := text.toList
  let cs := if cs.head? == some '\uFEFF' then cs.drop 1 else cs
  (← lines (cs.length + 1) {} cs).finish

end Monkey.Toml
