import Monkey.Syntax.Basic
import Monkey.Token.Lexer

/-!
# From tokens to syntax trees

A precedence-climbing parser. Each parser takes the tokens still to come and
returns, with its value, the tokens it left over; `Parsed` carries the proof that
it took at least one, so the recursion is well founded on the number of tokens. A
loop returns a rest shorter than the tokens `start` that its caller began with,
which keeps its own recursion a plain loop.

The list of tokens holds no `finish`: its end is the end of the input, and `stop`
is the place at which faults there are reported.
-/

namespace Monkey

/-- What can be wrong with a sequence of tokens. -/
inductive ParseFault where
  | expected (wanted found : Token)
  | expectedIdentifier (found : Token)
  | expectedExpression (found : Token)
  | unclosedBlock
  deriving DecidableEq

/-- The wording of a fault. -/
def ParseFault.message : ParseFault → String
  | .expected wanted found => "expected `" ++ wanted.text ++ "`, found `" ++ found.text ++ "`"
  | .expectedIdentifier found => "expected identifier, found `" ++ found.text ++ "`"
  | .expectedExpression found => "expected expression, found `" ++ found.text ++ "`"
  | .unclosedBlock => "expected `\x7d` before end of input"

/-- A fault and the place of the token it is about. -/
structure ParseError where
  fault : ParseFault
  position : Position
  deriving DecidableEq

/-- An error as it is shown: the place, then the wording. -/
def ParseError.message (e : ParseError) : String :=
  e.position.render ++ ": " ++ e.fault.message

/-- How tightly an operator holds its operands, the loosest first. -/
inductive Precedence where
  | lowest
  | equality
  | comparison
  | sum
  | product
  | prefixed
  | call
  | index
  deriving DecidableEq

namespace Precedence

/-- The rank of a precedence. -/
def rank : Precedence → Nat
  | .lowest => 0
  | .equality => 1
  | .comparison => 2
  | .sum => 3
  | .product => 4
  | .prefixed => 5
  | .call => 6
  | .index => 7

/-- The precedence with which a token goes on from the operand before it. A
token that does not has the lowest. -/
def ofToken : Token → Precedence
  | .equal | .notEqual => .equality
  | .less | .greater => .comparison
  | .plus | .minus => .sum
  | .asterisk | .slash => .product
  | .leftParen => .call
  | .leftBracket => .index
  | _ => .lowest

end Precedence

/-- The outcome of a parser on `ts`: a value, and the tokens left over. -/
structure Parsed (α : Type) (ts : List Located) where
  value : α
  rest : List Located
  shorter : rest.length < ts.length

namespace Parser

/-- A parser's result on the tokens `ts`. -/
abbrev Result (α : Type) (ts : List Located) := Except ParseError (Parsed α ts)

/-- The token to come, or `finish`. -/
def peek : List Located → Token
  | t :: _ => t.token
  | [] => .finish

/-- The place of the token to come. -/
def place (stop : Position) : List Located → Position
  | t :: _ => t.position
  | [] => stop

/-- Takes the wanted token. -/
def expect (stop : Position) (wanted : Token) (ts : List Located) : Result Unit ts :=
  match ts with
  | t :: rest =>
      if t.token = wanted then .ok ⟨(), rest, Nat.lt_succ_self _⟩
      else .error ⟨.expected wanted t.token, t.position⟩
  | [] => .error ⟨.expected wanted .finish, stop⟩

/-- Takes an identifier. -/
def identifier (stop : Position) (ts : List Located) : Result String ts :=
  match ts with
  | ⟨.ident name, _⟩ :: rest => .ok ⟨name, rest, Nat.lt_succ_self _⟩
  | t :: _ => .error ⟨.expectedIdentifier t.token, t.position⟩
  | [] => .error ⟨.expectedIdentifier .finish, stop⟩

/-- Passes over a semicolon, if one comes next. -/
def skipSemicolon : List Located → List Located
  | t :: rest => if t.token = .semicolon then rest else t :: rest
  | [] => []

theorem length_skipSemicolon_le (ts : List Located) :
    (skipSemicolon ts).length ≤ ts.length := by
  cases ts with
  | nil => exact Nat.le_refl _
  | cons t rest =>
      rw [skipSemicolon]
      split
      · exact Nat.le_succ _
      · exact Nat.le_refl _

/-- Takes the parameter names after an opening parenthesis, up to and with the
closing one. At least one name has to come. -/
def parameters (stop : Position) (start : List Located) (done : List String)
    (ts : List Located) (within : ts.length ≤ start.length) : Result (List String) start := do
  let ⟨name, ts1, h1⟩ ← identifier stop ts
  match ts1, h1 with
  | ⟨.comma, _⟩ :: ts2, h1 =>
      have h2 : ts2.length < ts.length := Nat.lt_of_succ_lt h1
      parameters stop start (name :: done) ts2 (by omega)
  | ts1, h1 =>
      let ⟨_, ts2, h2⟩ ← expect stop .rightParen ts1
      return ⟨(name :: done).reverse, ts2, by omega⟩
termination_by ts.length

/-- Takes a parameter list with its parentheses. -/
def parameterList (stop : Position) (ts : List Located) : Result (List String) ts := do
  let ⟨_, ts1, h1⟩ ← expect stop .leftParen ts
  match ts1, h1 with
  | ⟨.rightParen, _⟩ :: ts2, h1 =>
      return ⟨[], ts2, by simp only [List.length_cons] at h1; omega⟩
  | ts1, h1 => parameters stop ts [] ts1 (by omega)

mutual

/-- Takes a statement, with the semicolon after it if there is one. -/
def statement (stop : Position) (ts : List Located) : Result Stmt ts :=
  match ts with
  | ⟨.letWord, _⟩ :: ts1 => do
      let ⟨name, ts2, h2⟩ ← identifier stop ts1
      let ⟨_, ts3, h3⟩ ← expect stop .assign ts2
      let ⟨value, ts4, h4⟩ ← expression stop .lowest ts3
      have h5 := length_skipSemicolon_le ts4
      return ⟨.bind name (value.named name), skipSemicolon ts4,
        by simp only [List.length_cons]; omega⟩
  | ⟨.returnWord, _⟩ :: ts1 => do
      let ⟨value, ts2, h2⟩ ← expression stop .lowest ts1
      have h3 := length_skipSemicolon_le ts2
      return ⟨.ret value, skipSemicolon ts2, by simp only [List.length_cons]; omega⟩
  | ts => do
      let ⟨value, ts1, h1⟩ ← expression stop .lowest ts
      have h2 := length_skipSemicolon_le ts1
      return ⟨.expr value, skipSemicolon ts1, by omega⟩
termination_by 4 * ts.length + 2
decreasing_by
  · simp only [List.length_cons]
    omega
  · simp only [List.length_cons]
    omega
  · omega

/-- Takes the statements of a block up to and with its closing brace. -/
def statements (stop : Position) (start : List Located) (done : List Stmt)
    (ts : List Located) (within : ts.length ≤ start.length) : Result Block start :=
  match ts with
  | [] => .error ⟨.unclosedBlock, stop⟩
  | t :: rest =>
      if t.token = .rightBrace then
        .ok ⟨done.reverse, rest, by simp only [List.length_cons] at within; omega⟩
      else if t.token = .semicolon then
        statements stop start done rest (by simp only [List.length_cons] at within; omega)
      else do
        let ⟨stmt, ts1, h1⟩ ← statement stop (t :: rest)
        have h2 : ts1.length ≤ rest.length := Nat.le_of_lt_succ h1
        statements stop start (stmt :: done) ts1 (by omega)
termination_by 4 * ts.length + 3
decreasing_by
  · simp only [List.length_cons]
    omega
  · omega
  · simp only [List.length_cons]
    omega

/-- Takes a block with its braces. -/
def block (stop : Position) (ts : List Located) : Result Block ts := do
  let ⟨_, ts1, h1⟩ ← expect stop .leftBrace ts
  statements stop ts [] ts1 (by omega)
termination_by 4 * ts.length
decreasing_by all_goals omega

/-- Takes the longest expression whose outer operators hold tighter than
`least`. -/
def expression (stop : Position) (least : Precedence) (ts : List Located) : Result Expr ts := do
  let ⟨left, ts1, h1⟩ ← operand stop ts
  operators stop ts least left ts1 h1
termination_by 4 * ts.length + 1
decreasing_by all_goals omega

/-- Goes on from an operand for as long as operators come that hold tighter
than `least`. -/
def operators (stop : Position) (start : List Located) (least : Precedence) (left : Expr)
    (ts : List Located) (within : ts.length < start.length) : Result Expr start :=
  if least.rank < (Precedence.ofToken (peek ts)).rank then do
    let ⟨left, ts1, h1⟩ ← application stop left ts
    operators stop start least left ts1 (by omega)
  else .ok ⟨left, ts, within⟩
termination_by 4 * ts.length + 1
decreasing_by all_goals omega

/-- Takes an expression up to its first infix operator. -/
def operand (stop : Position) (ts : List Located) : Result Expr ts :=
  match ts with
  | ⟨.ident name, _⟩ :: ts1 => .ok ⟨.ident name, ts1, Nat.lt_succ_self _⟩
  | ⟨.int value, _⟩ :: ts1 => .ok ⟨.int value, ts1, Nat.lt_succ_self _⟩
  | ⟨.str text, _⟩ :: ts1 => .ok ⟨.str text, ts1, Nat.lt_succ_self _⟩
  | ⟨.trueWord, _⟩ :: ts1 => .ok ⟨.bool true, ts1, Nat.lt_succ_self _⟩
  | ⟨.falseWord, _⟩ :: ts1 => .ok ⟨.bool false, ts1, Nat.lt_succ_self _⟩
  | ⟨.bang, _⟩ :: ts1 => do
      let ⟨e, ts2, h2⟩ ← expression stop .prefixed ts1
      return ⟨.prefixOp "!" e, ts2, Nat.lt_succ_of_lt h2⟩
  | ⟨.minus, _⟩ :: ts1 => do
      let ⟨e, ts2, h2⟩ ← expression stop .prefixed ts1
      return ⟨.prefixOp "-" e, ts2, Nat.lt_succ_of_lt h2⟩
  | ⟨.leftParen, _⟩ :: ts1 => do
      let ⟨e, ts2, h2⟩ ← expression stop .lowest ts1
      let ⟨_, ts3, h3⟩ ← expect stop .rightParen ts2
      return ⟨e, ts3, by simp only [List.length_cons]; omega⟩
  | ⟨.ifWord, _⟩ :: ts1 => do
      let ⟨_, ts2, h2⟩ ← expect stop .leftParen ts1
      let ⟨condition, ts3, h3⟩ ← expression stop .lowest ts2
      let ⟨_, ts4, h4⟩ ← expect stop .rightParen ts3
      let ⟨consequence, ts5, h5⟩ ← block stop ts4
      match ts5, h5 with
      | ⟨.elseWord, _⟩ :: ts6, h5 =>
          have h6 : ts6.length < ts4.length := Nat.lt_of_succ_lt h5
          let ⟨alternative, ts7, h7⟩ ← block stop ts6
          return ⟨.cond condition consequence (some alternative), ts7,
            by simp only [List.length_cons]; omega⟩
      | ts5, h5 =>
          return ⟨.cond condition consequence none, ts5, by simp only [List.length_cons]; omega⟩
  | ⟨.fnWord, _⟩ :: ts1 => do
      let ⟨names, ts2, h2⟩ ← parameterList stop ts1
      let ⟨body, ts3, h3⟩ ← block stop ts2
      return ⟨.function names body none, ts3, by simp only [List.length_cons]; omega⟩
  | ⟨.leftBracket, _⟩ :: ts1 => do
      let ⟨elements, ts2, h2⟩ ← items stop .rightBracket ts1
      return ⟨.array elements, ts2, Nat.lt_succ_of_lt h2⟩
  | ⟨.leftBrace, _⟩ :: ts1 => do
      let ⟨entries, ts2, h2⟩ ← pairs stop ts1 [] ts1 (Nat.le_refl _)
      return ⟨.hash entries, ts2, Nat.lt_succ_of_lt h2⟩
  | t :: _ => .error ⟨.expectedExpression t.token, t.position⟩
  | [] => .error ⟨.expectedExpression .finish, stop⟩
termination_by 4 * ts.length
decreasing_by
  all_goals
    simp only [List.length_cons]
    omega

/-- Applies the operator that comes next to the operand on its left: a call, an
index or an infix operator. -/
def application (stop : Position) (left : Expr) (ts : List Located) : Result Expr ts :=
  match ts with
  | ⟨.leftParen, _⟩ :: ts1 => do
      let ⟨arguments, ts2, h2⟩ ← items stop .rightParen ts1
      return ⟨.call left arguments, ts2, Nat.lt_succ_of_lt h2⟩
  | ⟨.leftBracket, _⟩ :: ts1 => do
      let ⟨position, ts2, h2⟩ ← expression stop .lowest ts1
      let ⟨_, ts3, h3⟩ ← expect stop .rightBracket ts2
      return ⟨.index left position, ts3, by simp only [List.length_cons]; omega⟩
  | t :: ts1 => do
      let ⟨right, ts2, h2⟩ ← expression stop (Precedence.ofToken t.token) ts1
      return ⟨.infixOp t.token.text left right, ts2, Nat.lt_succ_of_lt h2⟩
  | [] => .error ⟨.expectedExpression .finish, stop⟩
termination_by 4 * ts.length
decreasing_by
  all_goals
    simp only [List.length_cons]
    omega

/-- Takes comma-separated expressions up to and with the closing token. -/
def items (stop : Position) (close : Token) (ts : List Located) : Result (List Expr) ts :=
  match ts with
  | t :: rest =>
      if t.token = close then .ok ⟨[], rest, Nat.lt_succ_self _⟩
      else moreItems stop close (t :: rest) [] (t :: rest) (Nat.le_refl _)
  | [] => moreItems stop close [] [] [] (Nat.le_refl _)
termination_by 4 * ts.length + 3
decreasing_by all_goals omega

/-- Takes at least one expression, and all that follow after commas. -/
def moreItems (stop : Position) (close : Token) (start : List Located) (done : List Expr)
    (ts : List Located) (within : ts.length ≤ start.length) : Result (List Expr) start := do
  let ⟨item, ts1, h1⟩ ← expression stop .lowest ts
  match ts1, h1 with
  | ⟨.comma, _⟩ :: ts2, h1 =>
      have h2 : ts2.length < ts.length := Nat.lt_of_succ_lt h1
      moreItems stop close start (item :: done) ts2 (by omega)
  | ts1, h1 =>
      let ⟨_, ts2, h2⟩ ← expect stop close ts1
      return ⟨(item :: done).reverse, ts2, by omega⟩
termination_by 4 * ts.length + 2
decreasing_by all_goals omega

/-- Takes the pairs of a hash literal up to and with its closing brace. A comma
after the last pair is allowed. -/
def pairs (stop : Position) (start : List Located) (done : List (Expr × Expr))
    (ts : List Located) (within : ts.length ≤ start.length) :
    Result (List (Expr × Expr)) start := do
  match ts, within with
  | ⟨.rightBrace, _⟩ :: rest, within => return ⟨done.reverse, rest, within⟩
  | ts, within =>
      let ⟨key, ts1, h1⟩ ← expression stop .lowest ts
      let ⟨_, ts2, h2⟩ ← expect stop .colon ts1
      let ⟨value, ts3, h3⟩ ← expression stop .lowest ts2
      match ts3, h3 with
      | ⟨.rightBrace, _⟩ :: rest, h3 =>
          return ⟨((key, value) :: done).reverse, rest,
            by simp only [List.length_cons] at h3; omega⟩
      | ts3, h3 =>
          let ⟨_, ts4, h4⟩ ← expect stop .comma ts3
          pairs stop start ((key, value) :: done) ts4 (by omega)
termination_by 4 * ts.length + 2
decreasing_by all_goals omega

end

/-- Takes statements up to the end of the input. -/
def programFrom (stop : Position) (done : List Stmt) (ts : List Located) :
    Except ParseError Program :=
  match ts with
  | [] => .ok done.reverse
  | t :: rest =>
      if t.token = .semicolon then programFrom stop done rest
      else do
        let first ← statement stop (t :: rest)
        have : first.rest.length ≤ rest.length := Nat.le_of_lt_succ first.shorter
        programFrom stop (first.value :: done) first.rest
termination_by ts.length

/-- The place of the end of the input: that of the first `finish`, else of the
last token, else the start of the text. -/
def endOfInput : Position → List Located → Position
  | last, [] => last
  | _, t :: rest => if t.token = .finish then t.position else endOfInput t.position rest

end Parser

/-- The program that a list of tokens spells. Nothing after the first `finish`
counts. -/
def Program.ofTokens (tokens : List Located) : Except ParseError Program :=
  Parser.programFrom (Parser.endOfInput {} tokens) []
    (tokens.takeWhile fun t => t.token ≠ .finish)

end Monkey
