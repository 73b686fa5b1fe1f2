import Monkey.Token.Basic
import Monkey.Text.Quoted
import Monkey.Text.Style

/-!
# Listings of tokens

One line per token: its place, its kind and the token itself, coloured by kind
where colours are wanted.
-/

namespace Monkey.Token

/-- The constructor form of a token. -/
def label : Token → String
  | .int value => "Int(" ++ toString value.toInt ++ ")"
  | .str text => "Str(" ++ Text.quoted text ++ ")"
  | .ident name => "Ident(" ++ Text.quoted name ++ ")"
  | .letWord => "Let"
  | .fnWord => "Function"
  | .trueWord => "True"
  | .falseWord => "False"
  | .ifWord => "If"
  | .elseWord => "Else"
  | .returnWord => "Return"
  | .assign => "Assign"
  | .plus => "Plus"
  | .minus => "Minus"
  | .asterisk => "Asterisk"
  | .slash => "Slash"
  | .bang => "Bang"
  | .less => "Lt"
  | .greater => "Gt"
  | .equal => "Eq"
  | .notEqual => "NotEq"
  | .comma => "Comma"
  | .semicolon => "Semicolon"
  | .colon => "Colon"
  | .leftParen => "LParen"
  | .rightParen => "RParen"
  | .leftBrace => "LBrace"
  | .rightBrace => "RBrace"
  | .leftBracket => "LBracket"
  | .rightBracket => "RBracket"
  | .finish => "Eof"

/-- The column that groups tokens of one use. -/
def kind : Token → String
  | .finish => "EOF"
  | .int _ => "INT"
  | .str _ => "STRING"
  | .trueWord | .falseWord => "BOOL"
  | .ident _ => "IDENT"
  | .leftParen | .rightParen => "PAREN"
  | .leftBracket | .rightBracket => "BRACKET"
  | .leftBrace | .rightBrace => "BRACE"
  | .comma | .semicolon | .colon => "PUNCT"
  | .assign | .plus | .minus | .asterisk | .slash | .bang => "OP"
  | .equal | .notEqual | .less | .greater => "CMP"
  | .letWord | .fnWord | .ifWord | .elseWord | .returnWord => "KEYWORD"

/-- The terminal style of a token's line, if it has one. -/
def style? : Token → Option Nat
  | .finish => some 2
  | .str _ => some 32
  | .int _ | .trueWord | .falseWord => some 36
  | .ident _ => some 33
  | .assign | .plus | .minus | .asterisk | .slash | .bang => some 35
  | .equal | .notEqual | .less | .greater => some 35
  | .letWord | .fnWord | .ifWord | .elseWord | .returnWord => some 1
  | _ => none

end Monkey.Token

namespace Monkey

/-- How tokens are listed: with colours or without, and by their constructor
form or by their text. -/
structure TokenListing where
  color : Bool := true
  plainText : Bool := false

namespace TokenListing

/-- The line of one token. -/
def line (format : TokenListing) (t : Located) : String :=
  let shown := if format.plainText then t.token.text else t.token.label
  let body := Text.padRight 8 t.token.kind ++ " " ++ shown
  let styled :=
    match format.color, t.token.style? with
    | true, some code => (Text.Style.mk code 0).paint body
    | _, _ => body
  "[" ++ Text.padZeros 2 t.position.line ++ ":" ++ Text.padZeros 2 t.position.column ++ "] " ++
    styled

/-- The lines of all tokens, each ended by a newline. -/
def render (format : TokenListing) (tokens : List Located) : String :=
  tokens.foldl (fun out t => (out ++ format.line t).push '\n') ""

end TokenListing

end Monkey
