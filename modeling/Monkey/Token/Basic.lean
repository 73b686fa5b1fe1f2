/-!
# Tokens

The words of the language, and where in the source text each of them starts.
-/

namespace Monkey

/-- A word of the language. -/
inductive Token where
  | int (value : Int64)
  | str (text : String)
  | ident (name : String)
  | letWord
  | fnWord
  | trueWord
  | falseWord
  | ifWord
  | elseWord
  | returnWord
  | assign
  | plus
  | minus
  | asterisk
  | slash
  | bang
  | less
  | greater
  | equal
  | notEqual
  | comma
  | semicolon
  | colon
  | leftParen
  | rightParen
  | leftBrace
  | rightBrace
  | leftBracket
  | rightBracket
  /-- The end of the source. -/
  | finish
  deriving DecidableEq

namespace Token

/-- The text of a token. A string is shown between quotes as it is, without
escapes. -/
def text : Token → String
  | .int value => toString value.toInt
  | .str text => "\"" ++ text ++ "\""
  | .ident name => name
  | .letWord => "let"
  | .fnWord => "fn"
  | .trueWord => "true"
  | .falseWord => "false"
  | .ifWord => "if"
  | .elseWord => "else"
  | .returnWord => "return"
  | .assign => "="
  | .plus => "+"
  | .minus => "-"
  | .asterisk => "*"
  | .slash => "/"
  | .bang => "!"
  | .less => "<"
  | .greater => ">"
  | .equal => "=="
  | .notEqual => "!="
  | .comma => ","
  | .semicolon => ";"
  | .colon => ":"
  | .leftParen => "("
  | .rightParen => ")"
  | .leftBrace => "\x7b"
  | .rightBrace => "\x7d"
  | .leftBracket => "["
  | .rightBracket => "]"
  | .finish => "end of input"

/-- The token of a keyword, if the word is one. -/
def keyword? (word : String) : Option Token :=
  if word = "let" then some .letWord
  else if word = "fn" then some .fnWord
  else if word = "true" then some .trueWord
  else if word = "false" then some .falseWord
  else if word = "if" then some .ifWord
  else if word = "else" then some .elseWord
  else if word = "return" then some .returnWord
  else none

/-- The operator or delimiter at the head of a text, with the number of
characters it takes after its first. Of two candidates the longer wins. -/
def operator? : Char → List Char → Option (Token × Nat)
  | '=', '=' :: _ => some (.equal, 1)
  | '!', '=' :: _ => some (.notEqual, 1)
  | '=', _ => some (.assign, 0)
  | '!', _ => some (.bang, 0)
  | '+', _ => some (.plus, 0)
  | '-', _ => some (.minus, 0)
  | '*', _ => some (.asterisk, 0)
  | '/', _ => some (.slash, 0)
  | '<', _ => some (.less, 0)
  | '>', _ => some (.greater, 0)
  | ',', _ => some (.comma, 0)
  | ';', _ => some (.semicolon, 0)
  | ':', _ => some (.colon, 0)
  | '(', _ => some (.leftParen, 0)
  | ')', _ => some (.rightParen, 0)
  | '{', _ => some (.leftBrace, 0)
  | '}', _ => some (.rightBrace, 0)
  | '[', _ => some (.leftBracket, 0)
  | ']', _ => some (.rightBracket, 0)
  | _, _ => none

end Token

/-- A place in a source text: line and column, both counted in characters
from 1. -/
structure Position where
  line : Nat := 1
  column : Nat := 1
  deriving DecidableEq

namespace Position

/-- The place after one more character. A newline ends its line. -/
def next (p : Position) (c : Char) : Position :=
  if c = '\n' then ⟨p.line + 1, 1⟩ else ⟨p.line, p.column + 1⟩

/-- The place after a run of characters. -/
def past (p : Position) (cs : List Char) : Position :=
  cs.foldl next p

/-- A place as it is shown in front of an error. -/
def render (p : Position) : String :=
  toString p.line ++ ":" ++ toString p.column

end Position

/-- A token and the place of its first character. -/
structure Located where
  token : Token
  position : Position
  deriving DecidableEq

end Monkey
