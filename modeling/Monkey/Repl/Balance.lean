/-!
# Balanced entries

An entry at the prompt goes on over several lines while it has open brackets or an open string. A
closing bracket that closes nothing ends it at once: the entry is complete, and wrong.
-/

namespace Monkey.Repl

/-- The bracket that closes an opening one. -/
def closer? : Char → Option Char
  | '(' => some ')'
  | '[' => some ']'
  | '\x7b' => some '\x7d'
  | _ => none

/-- Whether a character closes a bracket. -/
def isCloser (c : Char) : Bool :=
  c == ')' || c == ']' || c == '\x7d'

/-- Whether a text balances, given the closing brackets it owes, the innermost
first, and whether it starts inside a string. -/
def balances : List Char → Bool → List Char → Bool
  | owed, quoted, [] => owed.isEmpty && !quoted
  | owed, true, '\\' :: _ :: cs => balances owed true cs
  | owed, true, c :: cs => balances owed (c != '"') cs
  | owed, false, c :: cs =>
      if c == '"' then balances owed true cs
      else
        match closer? c with
        | some d => balances (d :: owed) false cs
        | none =>
            if isCloser c then
              match owed with
              | [] => true
              | d :: owed => if d == c then balances owed false cs else true
            else balances owed false cs

/-- Whether an entry is complete. -/
def isBalanced (entry : String) : Bool :=
  balances [] false entry.toList

end Monkey.Repl
