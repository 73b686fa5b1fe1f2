import Monkey.Syntax.Parser

/-!
# Parsing with a cursor

The parser takes its tokens off the front of a list. Another way to read them is to keep the list as
it is and to move a cursor along it. The list then has to end with a `finish`, so that there is
always a token to look at, and it may have more of them, with tokens in between.

Nothing stops such a reader at the first `finish`: to move on there is to stand behind it, and at
the last token the cursor does not move at all, so that a loop which counts on it would not come to
an end. The readers here have no such guard, and run on fuel because nothing in their definitions
shows that they stop. They do: each of them agrees with the parser of its name on the tokens in
front of the next `finish`, in its value or fault and in where it comes to a stand. With that
measure fuel never runs out, what succeeds moves the cursor, and no cursor passes the first
`finish`.
-/

namespace Monkey

/-- Tokens of which the last is a `finish`. -/
structure Tape where
  tokens : List Located
  ended : tokens.getLast?.map Located.token = some .finish

namespace Tape

/-- The place of the last token, or the start of the text. -/
def lastPlace (tokens : List Located) : Position :=
  (tokens.getLast?.map Located.position).getD {}

/-- The tokens as they are, if they end with a `finish`, and else with one at the place of the last
token. -/
def of (tokens : List Located) : Tape :=
  if h : tokens.getLast?.map Located.token = some .finish then ⟨tokens, h⟩
  else ⟨tokens ++ [⟨.finish, lastPlace tokens⟩], by rw [List.getLast?_concat, Option.map_some]⟩

theorem length_pos (tape : Tape) : 0 < tape.tokens.length := by
  rw [List.length_pos_iff]
  intro h
  have hended := tape.ended
  rw [h] at hended
  cases hended

/-- The index of a token. -/
abbrev Cursor (tape : Tape) := Fin tape.tokens.length

variable (tape : Tape)

def first : tape.Cursor :=
  ⟨0, tape.length_pos⟩

/-- The token under the cursor. -/
def current (c : tape.Cursor) : Located :=
  tape.tokens.get c

/-- The cursor one token further on. At the last token it stays. -/
def next (c : tape.Cursor) : tape.Cursor :=
  if h : c.val + 1 < tape.tokens.length then ⟨c.val + 1, h⟩ else c

/-! ## Readers -/

/-- How a reader ends, and where it leaves the cursor. -/
inductive Outcome (α : Type) where
  | value (a : α) (c : tape.Cursor)
  | fault (e : ParseError) (c : tape.Cursor)
  /-- There was too little fuel. -/
  | unfinished

/-- A parser that moves the cursor. -/
def Reader (α : Type) := tape.Cursor → tape.Outcome α

variable {tape} {α β : Type}

/-- Goes on with the value of an outcome. -/
def Outcome.andThen (o : tape.Outcome α) (f : α → tape.Reader β) : tape.Outcome β :=
  match o with
  | .value a c => f a c
  | .fault e c => .fault e c
  | .unfinished => .unfinished

instance : Monad tape.Reader where
  pure a := fun c => .value a c
  bind r f := fun c => (r c).andThen f

/-- Where an outcome leaves the cursor. -/
def Outcome.cursor? : tape.Outcome α → Option tape.Cursor
  | .value _ c | .fault _ c => some c
  | .unfinished => none

/-- The outcome of a result. -/
def Outcome.ofResult (c : tape.Cursor) : Except ParseError α → tape.Outcome α
  | .ok a => .value a c
  | .error e => .fault e c

namespace Reader

def unfinished : tape.Reader α :=
  fun _ => .unfinished

/-- The kind of the token under the cursor. -/
def token : tape.Reader Token :=
  fun c => .value (tape.current c).token c

/-- Moves the cursor. -/
def advance : tape.Reader Unit :=
  fun c => .value () (tape.next c)

/-- A fault at the token under the cursor. -/
def fail (fault : ParseFault) : tape.Reader α :=
  fun c => .fault ⟨fault, (tape.current c).position⟩ c

def expect (wanted : Token) : tape.Reader Unit := do
  let found ← token
  if found = wanted then advance else fail (.expected wanted found)

def identifier : tape.Reader String := do
  match ← token with
  | .ident name =>
      advance
      return name
  | found => fail (.expectedIdentifier found)

def skipSemicolon : tape.Reader Unit := do
  if (← token) = .semicolon then advance else return

/-- What comes after a pair: the end of the literal, which is left, or a comma. -/
def separator : tape.Reader Unit := do
  if (← token) = .rightBrace then return else expect .comma

def parameters : Nat → List String → tape.Reader (List String)
  | 0, _ => unfinished
  | n + 1, done => do
      let name ← identifier
      if (← token) = .comma then do
        advance
        parameters n (name :: done)
      else do
        expect .rightParen
        return (name :: done).reverse

def parameterList (n : Nat) : tape.Reader (List String) := do
  expect .leftParen
  if (← token) = .rightParen then do
    advance
    return []
  else parameters n []

mutual

def statement : Nat → tape.Reader Stmt
  | 0 => unfinished
  | n + 1 => do
      let found ← token
      if found = .letWord then do
        advance
        let name ← identifier
        expect .assign
        let value ← expression n .lowest
        skipSemicolon
        return .bind name (value.named name)
      else if found = .returnWord then do
        advance
        let value ← expression n .lowest
        skipSemicolon
        return .ret value
      else do
        let value ← expression n .lowest
        skipSemicolon
        return .expr value

def statements : Nat → List Stmt → tape.Reader Block
  | 0, _ => unfinished
  | n + 1, done => do
      let found ← token
      if found = .rightBrace then do
        advance
        return done.reverse
      else if found = .finish then fail .unclosedBlock
      else if found = .semicolon then do
        advance
        statements n done
      else do
        let stmt ← statement n
        statements n (stmt :: done)

def block : Nat → tape.Reader Block
  | 0 => unfinished
  | n + 1 => do
      expect .leftBrace
      statements n []

def expression : Nat → Precedence → tape.Reader Expr
  | 0, _ => unfinished
  | n + 1, least => do
      let left ← operand n
      operators n least left

def operators : Nat → Precedence → Expr → tape.Reader Expr
  | 0, _, _ => unfinished
  | n + 1, least, left => do
      let found ← token
      if found ≠ .semicolon ∧ least.rank < (Precedence.ofToken found).rank then do
        let left ← application n left
        operators n least left
      else return left

def operand : Nat → tape.Reader Expr
  | 0 => unfinished
  | n + 1 => do
      match ← token with
      | .ident name =>
          advance
          return .ident name
      | .int value =>
          advance
          return .int value
      | .str text =>
          advance
          return .str text
      | .trueWord =>
          advance
          return .bool true
      | .falseWord =>
          advance
          return .bool false
      | .bang =>
          advance
          let e ← expression n .prefixed
          return .prefixOp "!" e
      | .minus =>
          advance
          let e ← expression n .prefixed
          return .prefixOp "-" e
      | .leftParen =>
          advance
          let e ← expression n .lowest
          expect .rightParen
          return e
      | .ifWord =>
          advance
          expect .leftParen
          let condition ← expression n .lowest
          expect .rightParen
          let consequence ← block n
          if (← token) = .elseWord then do
            advance
            let alternative ← block n
            return .cond condition consequence (some alternative)
          else return .cond condition consequence none
      | .fnWord =>
          advance
          let names ← parameterList n
          let body ← block n
          return .function names body none
      | .leftBracket =>
          advance
          let elements ← items n .rightBracket
          return .array elements
      | .leftBrace =>
          advance
          let entries ← pairs n []
          return .hash entries
      | found => fail (.expectedExpression found)

/-- Whatever the token under the cursor is, it is taken for an operator. -/
def application : Nat → Expr → tape.Reader Expr
  | 0, _ => unfinished
  | n + 1, left => do
      let op ← token
      advance
      if op = .leftParen then do
        let arguments ← items n .rightParen
        return .call left arguments
      else if op = .leftBracket then do
        let position ← expression n .lowest
        expect .rightBracket
        return .index left position
      else do
        let right ← expression n (Precedence.ofToken op)
        return .infixOp op.text left right

def items : Nat → Token → tape.Reader (List Expr)
  | 0, _ => unfinished
  | n + 1, close => do
      if (← token) = close then do
        advance
        return []
      else moreItems n close []

def moreItems : Nat → Token → List Expr → tape.Reader (List Expr)
  | 0, _, _ => unfinished
  | n + 1, close, done => do
      let item ← expression n .lowest
      if (← token) = .comma then do
        advance
        moreItems n close (item :: done)
      else do
        expect close
        return (item :: done).reverse

def pairs : Nat → List (Expr × Expr) → tape.Reader (List (Expr × Expr))
  | 0, _ => unfinished
  | n + 1, done => do
      if (← token) = .rightBrace then do
        advance
        return done.reverse
      else do
        let key ← expression n .lowest
        expect .colon
        let value ← expression n .lowest
        separator
        pairs n ((key, value) :: done)

end

def program : Nat → List Stmt → tape.Reader Program
  | 0, _ => unfinished
  | n + 1, done => do
      let found ← token
      if found = .finish then return done.reverse
      else if found = .semicolon then do
        advance
        program n done
      else do
        let stmt ← statement n
        program n (stmt :: done)

end Reader

/-! ## The tokens up to the next `finish` -/

theorem next_val {c : tape.Cursor} (h : (tape.current c).token ≠ .finish) :
    (tape.next c).val = c.val + 1 := by
  rw [next]
  split
  · rfl
  · next hlast =>
      refine absurd ?_ h
      have hc : c.val = tape.tokens.length - 1 := by omega
      have hended := tape.ended
      rw [List.getLast?_eq_getElem?, ← hc, List.getElem?_eq_getElem c.isLt, Option.map_some]
        at hended
      exact Option.some.inj hended

theorem le_next (c : tape.Cursor) : c ≤ tape.next c := by
  rw [next]
  split
  · exact Nat.le_succ _
  · exact Nat.le_refl _

/-- From the cursor `c` on, the tokens up to the next `finish` are `ts`, and that one is at `e`. -/
inductive Upcoming (e : tape.Cursor) : tape.Cursor → List Located → Prop
  | nil (hend : (tape.current e).token = .finish) : Upcoming e e []
  | cons {c t ts} (hcur : tape.current c = t) (hmore : t.token ≠ .finish)
      (hnext : Upcoming e (tape.next c) ts) : Upcoming e c (t :: ts)

variable {e c : tape.Cursor} {ts : List Located}

theorem Upcoming.val_add_length (h : Upcoming e c ts) : c.val + ts.length = e.val := by
  induction h with
  | nil _ => rfl
  | cons hcur hmore _ ih =>
      rw [next_val (hcur ▸ hmore)] at ih
      rw [List.length_cons]
      omega

theorem Upcoming.le (h : Upcoming e c ts) : c ≤ e := by
  have hlen := h.val_add_length
  exact Fin.le_def.2 (by omega)

theorem Upcoming.tail {t : Located} (h : Upcoming e c (t :: ts)) : Upcoming e (tape.next c) ts := by
  cases h with
  | cons _ _ hnext => exact hnext

theorem Upcoming.token_ne {t : Located} (h : Upcoming e c (t :: ts)) : t.token ≠ .finish := by
  cases h with
  | cons _ hmore _ => exact hmore

theorem Upcoming.token_eq (h : Upcoming e c ts) : (tape.current c).token = Parser.peek ts := by
  cases h with
  | nil hend => exact hend
  | cons hcur _ _ => exact congrArg Located.token hcur

/-- The way to the next `finish` leads over all cursors in between. -/
theorem Upcoming.of_le {c' : tape.Cursor} (h : Upcoming e c ts) (hle : c ≤ c') (hend : c' ≤ e) :
    ∃ ts', Upcoming e c' ts' := by
  induction h with
  | nil hfinish =>
      obtain rfl := Fin.le_antisymm hle hend
      exact ⟨[], .nil hfinish⟩
  | @cons c t ts hcur hmore hnext ih =>
      rcases Nat.lt_or_eq_of_le hle with hlt | heq
      · refine ih ?_
        rw [Fin.le_def, next_val (hcur ▸ hmore)]
        exact hlt
      · obtain rfl := Fin.ext heq
        exact ⟨_, .cons hcur hmore hnext⟩

variable (tape) in
/-- The place of the token at `e`, at which faults at the end of the input are reported. -/
def stop (e : tape.Cursor) : Position :=
  (tape.current e).position

/-- A `finish` comes after every cursor, because the last token is one. -/
theorem upcoming_takeWhile {us : List Located} (c : tape.Cursor)
    (hus : tape.tokens.drop c.val = us) :
    ∃ e, Upcoming e c (us.takeWhile fun t => t.token ≠ .finish) ∧
      ∀ last, tape.stop e = Parser.endOfInput last us := by
  induction us generalizing c with
  | nil => exact absurd c.isLt (Nat.not_lt.2 (List.drop_eq_nil_iff.1 hus))
  | cons t us ih =>
      rw [List.drop_eq_getElem_cons c.isLt] at hus
      obtain ⟨hcur, hrest⟩ : tape.current c = t ∧ _ := List.cons.inj hus
      by_cases ht : t.token = .finish
      · refine ⟨c, ?_, fun last => ?_⟩
        · rw [List.takeWhile_cons_of_neg (by simpa using ht)]
          exact .nil (hcur ▸ ht)
        · rw [Parser.endOfInput, if_pos ht, stop, hcur]
      · rw [← next_val (hcur ▸ ht)] at hrest
        obtain ⟨e, hup, hstop⟩ := ih (tape.next c) hrest
        refine ⟨e, ?_, fun last => ?_⟩
        · rw [List.takeWhile_cons_of_pos (by simpa using ht)]
          exact .cons hcur ht hup
        · rw [Parser.endOfInput, if_neg ht]
          exact hstop _

variable (tape) in
theorem exists_upcoming (c : tape.Cursor) : ∃ e ts, Upcoming e c ts := by
  obtain ⟨e, hup, -⟩ := upcoming_takeWhile c rfl
  exact ⟨e, _, hup⟩

theorem Upcoming.position_eq (h : Upcoming e c ts) :
    (tape.current c).position = Parser.place (tape.stop e) ts := by
  cases h with
  | nil hend => rfl
  | cons hcur _ _ => exact congrArg Located.position hcur

/-! ## Agreement with the parser

`Follows e short c` relates a result of the parser and an outcome of a reader that began at `c`. The
tokens that the parser leaves over are those from the new cursor on. Fuel may only be gone if it was
`short`. -/

inductive Follows (e : tape.Cursor) (short : Prop) (c : tape.Cursor) {start : List Located} :
    Parser.Result α start → tape.Outcome α → Prop
  | value {v rest hlt c'} (hup : Upcoming e c' rest) (hle : c ≤ c') :
      Follows e short c (.ok ⟨v, rest, hlt⟩) (.value v c')
  | fault {cause c'} (hle : c ≤ c') (hend : c' ≤ e) :
      Follows e short c (.error cause) (.fault cause c')
  | unfinished {r} (hshort : short) : Follows e short c r .unfinished

namespace Follows

variable {start start' : List Located} {short short' : Prop} {x : Parser.Result α start}
  {o : tape.Outcome α}

theorem weaken {c₀ : tape.Cursor} (h : Follows e short c x o) (hle : c₀ ≤ c)
    (hshort : short → short') : Follows e short' c₀ x o := by
  cases h with
  | value hup hle' => exact .value hup (Fin.le_trans hle hle')
  | fault hle' hend => exact .fault (Fin.le_trans hle hle') hend
  | unfinished h => exact .unfinished (hshort h)

theorem bind {r : tape.Reader α} {f : Parsed α start → Parser.Result β start'}
    {g : α → tape.Reader β} (h : Follows e short c x (r c)) (hshort : short → short')
    (hnext : ∀ v rest hlt c', Upcoming e c' rest →
      Follows e short' c' (f ⟨v, rest, hlt⟩) (g v c')) :
    Follows e short' c (x >>= f) ((r >>= g) c) := by
  show Follows e short' c (x >>= f) ((r c).andThen g)
  generalize r c = o at h ⊢
  cases h with
  | value hup hle => exact (hnext _ _ _ _ hup).weaken hle id
  | fault hle hend => exact .fault hle hend
  | unfinished h => exact .unfinished (hshort h)

theorem step {r : tape.Reader α} (h : Follows e short (tape.next c) x (r (tape.next c))) :
    Follows e short c x ((Reader.advance >>= fun _ => r) c) :=
  h.weaken (le_next c) id

/-- A value comes with a cursor further on, because the parser took a token. -/
theorem lt_of_value {v : α} {c' : tape.Cursor} (hup : Upcoming e c start)
    (h : Follows e short c x (.value v c')) : c < c' := by
  cases h with
  | @value _ rest hlt _ hup' _ =>
      have hlen := hup.val_add_length
      have hlen' := hup'.val_add_length
      exact Fin.lt_def.2 (by omega)

theorem within {c' : tape.Cursor} (h : Follows e short c x o) (hc' : o.cursor? = some c') :
    c ≤ c' ∧ c' ≤ e := by
  cases h with
  | value hup hle =>
      cases hc'
      exact ⟨hle, hup.le⟩
  | fault hle hend =>
      cases hc'
      exact ⟨hle, hend⟩
  | unfinished _ => cases hc'

end Follows

namespace Reader

variable {short : Prop}

theorem token_bind (f : Token → tape.Reader β) (c : tape.Cursor) :
    (token >>= f) c = f (tape.current c).token c :=
  rfl

theorem bind_eq_value {r : tape.Reader α} {g : α → tape.Reader β} {v : β} {c' : tape.Cursor}
    (h : (r >>= g) c = .value v c') : ∃ a c₁, r c = .value a c₁ ∧ g a c₁ = .value v c' := by
  have h : (r c).andThen g = .value v c' := h
  cases hr : r c with
  | value a c₁ =>
      rw [hr] at h
      exact ⟨a, c₁, rfl, h⟩
  | fault cause c₁ =>
      rw [hr] at h
      cases h
  | unfinished =>
      rw [hr] at h
      cases h

theorem follows_fail {start : List Located} {place : Position} (hup : Upcoming e c ts)
    (hplace : Parser.place (tape.stop e) ts = place) (fault : ParseFault) :
    Follows e short c (.error ⟨fault, place⟩ : Parser.Result α start) (fail fault c) := by
  rw [fail, hup.position_eq, hplace]
  exact .fault Fin.le_rfl hup.le

theorem follows_expect {wanted : Token} (hwanted : wanted ≠ .finish) (hup : Upcoming e c ts) :
    Follows e short c (Parser.expect (tape.stop e) wanted ts) (expect wanted c) := by
  rw [expect, token_bind, hup.token_eq]
  cases ts with
  | nil =>
      rw [Parser.peek, if_neg hwanted.symm]
      exact follows_fail hup rfl _
  | cons t ts =>
      rw [Parser.peek, Parser.expect]
      by_cases ht : t.token = wanted
      · rw [if_pos ht, if_pos ht]
        exact .value hup.tail (le_next c)
      · rw [if_neg ht, if_neg ht]
        exact follows_fail hup rfl _

theorem follows_identifier (hup : Upcoming e c ts) :
    Follows e short c (Parser.identifier (tape.stop e) ts) (identifier c) := by
  rw [identifier, token_bind, hup.token_eq]
  unfold Parser.identifier
  split
  · exact .value hup.tail (le_next c)
  · next t rest hname =>
      obtain ⟨token, p⟩ := t
      cases token with
      | ident name => exact absurd rfl (hname name p)
      | _ => exact follows_fail hup rfl _
  · exact follows_fail hup rfl _

theorem skipSemicolon_eq (hup : Upcoming e c ts) :
    ∃ c', skipSemicolon c = .value () c' ∧ c ≤ c' ∧ Upcoming e c' (Parser.skipSemicolon ts) := by
  rw [skipSemicolon, token_bind, hup.token_eq]
  cases ts with
  | nil => exact ⟨c, rfl, Fin.le_rfl, hup⟩
  | cons t ts =>
      rw [Parser.peek, Parser.skipSemicolon]
      by_cases ht : t.token = .semicolon
      · rw [if_pos ht, if_pos ht]
        exact ⟨_, rfl, le_next c, hup.tail⟩
      · rw [if_neg ht, if_neg ht]
        exact ⟨c, rfl, Fin.le_rfl, hup⟩

/-- A semicolon is taken, if there is one, before the value is returned. -/
theorem follows_skipSemicolon {start : List Located} {v : α} (hup : Upcoming e c ts)
    (hlt : (Parser.skipSemicolon ts).length < start.length) :
    Follows e short c (.ok ⟨v, Parser.skipSemicolon ts, hlt⟩ : Parser.Result α start)
      ((skipSemicolon >>= fun _ => pure v) c) := by
  obtain ⟨c', heq, hle, hup'⟩ := skipSemicolon_eq hup
  show Follows e short c _ ((skipSemicolon c).andThen fun _ => pure v)
  rw [heq]
  exact .value hup' hle

theorem separator_bind (hup : Upcoming e c ts) (g : Unit → tape.Reader β) :
    (separator >>= g) c =
      if Parser.peek ts = .rightBrace then g () c else (expect .comma >>= g) c := by
  show (separator c).andThen g = _
  rw [separator, token_bind, hup.token_eq]
  by_cases hbrace : Parser.peek ts = .rightBrace
  · rw [if_pos hbrace, if_pos hbrace]
    rfl
  · rw [if_neg hbrace, if_neg hbrace]
    rfl

theorem peek_ne {t : Token} (ht : t ≠ .finish) (h : ∀ p ts', ts = ⟨t, p⟩ :: ts' → False) :
    Parser.peek ts ≠ t := by
  rintro rfl
  cases ts with
  | nil => exact ht rfl
  | cons u us => exact h u.position us rfl

theorem follows_parameters {n : Nat} {start : List Located} {done : List String}
    (within : ts.length ≤ start.length) (hup : Upcoming e c ts) :
    Follows e (n ≤ ts.length) c (Parser.parameters (tape.stop e) start done ts within)
      (parameters n done c) := by
  induction n generalizing c ts done with
  | zero => exact .unfinished (Nat.zero_le _)
  | succ n ih =>
      rw [Parser.parameters, parameters]
      refine (follows_identifier hup).bind False.elim fun name ts1 h1 c1 hup1 => ?_
      rw [token_bind, hup1.token_eq]
      dsimp only
      split
      · next p ts2 h1 =>
          rw [Parser.peek, if_pos rfl]
          have hlen : (⟨.comma, p⟩ :: ts2 : List Located).length < ts.length := h1
          rw [List.length_cons] at hlen
          exact ((ih _ hup1.tail).weaken Fin.le_rfl (by omega)).step
      · next hcomma =>
          rw [if_neg (peek_ne (by simp) fun p ts' heq =>
            hcomma p ts' (heq ▸ h1) heq (proof_irrel_heq _ _))]
          refine (follows_expect (by simp) hup1).bind False.elim fun _ ts2 h2 c2 hup2 => ?_
          exact .value hup2 Fin.le_rfl

theorem follows_parameterList {n : Nat} (hup : Upcoming e c ts) :
    Follows e (n ≤ ts.length) c (Parser.parameterList (tape.stop e) ts) (parameterList n c) := by
  rw [Parser.parameterList, parameterList]
  refine (follows_expect (by simp) hup).bind False.elim fun _ ts1 h1 c1 hup1 => ?_
  rw [token_bind, hup1.token_eq]
  dsimp only
  split
  · rw [Parser.peek, if_pos rfl]
    exact .value hup1.tail (le_next c1)
  · next hclose =>
      rw [if_neg (peek_ne (by simp) fun p ts' heq =>
        hclose p ts' (heq ▸ h1) heq (proof_irrel_heq _ _))]
      exact (follows_parameters _ hup1).weaken Fin.le_rfl (by omega)

/-! ## One level of the recursion -/

/-- With so much fuel, every reader agrees with the parser of its name, on the tokens up to `e`. The
measure of each is that by which the parsers recur. -/
structure Agrees (e : tape.Cursor) (n : Nat) : Prop where
  statement : ∀ {c ts}, Upcoming e c ts →
    Follows e (n ≤ 4 * ts.length + 2) c (Parser.statement (tape.stop e) ts) (statement n c)
  statements : ∀ {c ts} {start : List Located} (done within), Upcoming e c ts →
    Follows e (n ≤ 4 * ts.length + 3) c (Parser.statements (tape.stop e) start done ts within)
      (statements n done c)
  block : ∀ {c ts}, Upcoming e c ts →
    Follows e (n ≤ 4 * ts.length) c (Parser.block (tape.stop e) ts) (block n c)
  expression : ∀ {c ts} (least), Upcoming e c ts →
    Follows e (n ≤ 4 * ts.length + 1) c (Parser.expression (tape.stop e) least ts)
      (expression n least c)
  operators : ∀ {c ts} {start : List Located} (least left within), Upcoming e c ts →
    Follows e (n ≤ 4 * ts.length + 1) c
      (Parser.operators (tape.stop e) start least left ts within) (operators n least left c)
  operand : ∀ {c ts}, Upcoming e c ts →
    Follows e (n ≤ 4 * ts.length) c (Parser.operand (tape.stop e) ts) (operand n c)
  application : ∀ {c ts} (left), ts ≠ [] → Upcoming e c ts →
    Follows e (n ≤ 4 * ts.length) c (Parser.application (tape.stop e) left ts)
      (application n left c)
  items : ∀ {c ts close}, close ≠ .finish → Upcoming e c ts →
    Follows e (n ≤ 4 * ts.length + 3) c (Parser.items (tape.stop e) close ts) (items n close c)
  moreItems : ∀ {c ts close} {start : List Located} (done within), close ≠ .finish →
    Upcoming e c ts →
    Follows e (n ≤ 4 * ts.length + 2) c
      (Parser.moreItems (tape.stop e) close start done ts within) (moreItems n close done c)
  pairs : ∀ {c ts} {start : List Located} (done within), Upcoming e c ts →
    Follows e (n ≤ 4 * ts.length + 2) c (Parser.pairs (tape.stop e) start done ts within)
      (pairs n done c)

section

variable {n : Nat} {start : List Located}

theorem follows_statement (h : Agrees e n) (hup : Upcoming e c ts) :
    Follows e (n + 1 ≤ 4 * ts.length + 2) c (Parser.statement (tape.stop e) ts)
      (statement (n + 1) c) := by
  rw [statement, token_bind, hup.token_eq]
  unfold Parser.statement
  split
  · next p ts1 =>
      rw [Parser.peek, if_pos rfl]
      refine .step <| .bind (follows_identifier hup.tail) False.elim fun name ts2 h2 c2 hup2 => ?_
      refine (follows_expect (by simp) hup2).bind False.elim fun _ ts3 h3 c3 hup3 => ?_
      refine (h.expression _ hup3).bind ?_ fun value ts4 h4 c4 hup4 => follows_skipSemicolon hup4 _
      rw [List.length_cons]
      omega
  · next p ts1 =>
      rw [Parser.peek, if_neg (by simp), if_pos rfl]
      rw [List.length_cons]
      exact .step <| .bind (h.expression _ hup.tail) (by omega) fun value ts2 h2 c2 hup2 =>
        follows_skipSemicolon hup2 _
  · next hlet hreturn =>
      rw [if_neg (peek_ne (by simp) hlet), if_neg (peek_ne (by simp) hreturn)]
      exact (h.expression _ hup).bind (by omega) fun value ts1 h1 c1 hup1 =>
        follows_skipSemicolon hup1 _

theorem follows_statements (h : Agrees e n) (done : List Stmt) (within : ts.length ≤ start.length)
    (hup : Upcoming e c ts) :
    Follows e (n + 1 ≤ 4 * ts.length + 3) c
      (Parser.statements (tape.stop e) start done ts within) (statements (n + 1) done c) := by
  rw [statements, token_bind, hup.token_eq]
  cases hup with
  | nil hend =>
      rw [Parser.statements, Parser.peek, if_neg (by simp), if_pos rfl]
      exact follows_fail (.nil hend) rfl _
  | @cons _ t ts hcur hmore hnext =>
      have hup : Upcoming e c (t :: ts) := .cons hcur hmore hnext
      rw [Parser.statements, Parser.peek]
      by_cases hbrace : t.token = .rightBrace
      · rw [if_pos hbrace, if_pos hbrace]
        exact .value hnext (le_next c)
      · rw [if_neg hbrace, if_neg hbrace, if_neg hmore]
        by_cases hsemicolon : t.token = .semicolon
        · rw [if_pos hsemicolon, if_pos hsemicolon]
          refine ((h.statements _ _ hnext).weaken Fin.le_rfl ?_).step
          rw [List.length_cons]
          omega
        · rw [if_neg hsemicolon, if_neg hsemicolon]
          refine (h.statement hup).bind (by omega) fun stmt ts1 h1 c1 hup1 => ?_
          exact (h.statements _ _ hup1).weaken Fin.le_rfl (by omega)

theorem follows_block (h : Agrees e n) (hup : Upcoming e c ts) :
    Follows e (n + 1 ≤ 4 * ts.length) c (Parser.block (tape.stop e) ts) (block (n + 1) c) := by
  rw [Parser.block, block]
  refine (follows_expect (by simp) hup).bind False.elim fun _ ts1 h1 c1 hup1 => ?_
  exact (h.statements _ _ hup1).weaken Fin.le_rfl (by omega)

theorem follows_expression (h : Agrees e n) (least : Precedence) (hup : Upcoming e c ts) :
    Follows e (n + 1 ≤ 4 * ts.length + 1) c (Parser.expression (tape.stop e) least ts)
      (expression (n + 1) least c) := by
  rw [Parser.expression, expression]
  refine (h.operand hup).bind (by omega) fun left ts1 h1 c1 hup1 => ?_
  exact (h.operators _ _ _ hup1).weaken Fin.le_rfl (by omega)

theorem follows_operators (h : Agrees e n) (least : Precedence) (left : Expr)
    (within : ts.length < start.length) (hup : Upcoming e c ts) :
    Follows e (n + 1 ≤ 4 * ts.length + 1) c
      (Parser.operators (tape.stop e) start least left ts within)
      (operators (n + 1) least left c) := by
  rw [Parser.operators, operators, token_bind, hup.token_eq]
  by_cases hlt : least.rank < (Precedence.ofToken (Parser.peek ts)).rank
  · have hsemicolon : Parser.peek ts ≠ .semicolon := by
      intro heq
      rw [heq] at hlt
      exact absurd hlt (Nat.not_lt_zero _)
    have hne : ts ≠ [] := by
      rintro rfl
      exact absurd hlt (Nat.not_lt_zero _)
    rw [if_pos hlt, if_pos ⟨hsemicolon, hlt⟩]
    refine (h.application left hne hup).bind (by omega) fun left ts1 h1 c1 hup1 => ?_
    exact (h.operators _ _ _ hup1).weaken Fin.le_rfl (by omega)
  · rw [if_neg hlt, if_neg fun hboth => hlt hboth.2]
    exact .value hup Fin.le_rfl

theorem follows_operand (h : Agrees e n) (hup : Upcoming e c ts) :
    Follows e (n + 1 ≤ 4 * ts.length) c (Parser.operand (tape.stop e) ts) (operand (n + 1) c) := by
  -- opened by reduction, as the equation of so wide a match is too much for `rw`
  change Follows e _ c _ ((token >>= _) c)
  rw [token_bind, hup.token_eq, Parser.operand.eq_def]
  cases ts with
  | nil => exact follows_fail hup rfl _
  | cons t ts =>
      have hnext := hup.tail
      rw [List.length_cons]
      obtain ⟨token, p⟩ := t
      cases token with
      | ident name => exact .value hnext (le_next c)
      | int value => exact .value hnext (le_next c)
      | str text => exact .value hnext (le_next c)
      | trueWord => exact .value hnext (le_next c)
      | falseWord => exact .value hnext (le_next c)
      | bang =>
          exact .step <| .bind (h.expression _ hnext) (by omega) fun e' ts2 h2 c2 hup2 =>
            .value hup2 Fin.le_rfl
      | minus =>
          exact .step <| .bind (h.expression _ hnext) (by omega) fun e' ts2 h2 c2 hup2 =>
            .value hup2 Fin.le_rfl
      | leftParen =>
          refine .step <| .bind (h.expression _ hnext) (by omega) fun e' ts2 h2 c2 hup2 => ?_
          exact (follows_expect (by simp) hup2).bind False.elim fun _ ts3 h3 c3 hup3 =>
            .value hup3 Fin.le_rfl
      | ifWord =>
          refine .step <| .bind (follows_expect (by simp) hnext) False.elim
            fun _ ts2 h2 c2 hup2 => ?_
          refine (h.expression _ hup2).bind (by omega) fun condition ts3 h3 c3 hup3 => ?_
          refine (follows_expect (by simp) hup3).bind False.elim fun _ ts4 h4 c4 hup4 => ?_
          refine (h.block hup4).bind (by omega) fun consequence ts5 h5 c5 hup5 => ?_
          rw [token_bind, hup5.token_eq]
          dsimp only
          split
          · next p ts6 h5 =>
              rw [Parser.peek, if_pos rfl]
              have hlen : (⟨.elseWord, p⟩ :: ts6 : List Located).length < ts4.length := h5
              rw [List.length_cons] at hlen
              exact .step <| .bind (h.block hup5.tail) (by omega) fun alternative ts7 h7 c7 hup7 =>
                .value hup7 Fin.le_rfl
          · next helse =>
              rw [if_neg (peek_ne (by simp) fun p ts' heq =>
                helse p ts' (heq ▸ h5) heq (proof_irrel_heq _ _))]
              exact .value hup5 Fin.le_rfl
      | fnWord =>
          refine .step <| .bind (follows_parameterList hnext) (by omega)
            fun names ts2 h2 c2 hup2 => ?_
          exact (h.block hup2).bind (by omega) fun body ts3 h3 c3 hup3 => .value hup3 Fin.le_rfl
      | leftBracket =>
          exact .step <| .bind (h.items (by simp) hnext) (by omega) fun elements ts2 h2 c2 hup2 =>
            .value hup2 Fin.le_rfl
      | leftBrace =>
          exact .step <| .bind (h.pairs _ _ hnext) (by omega) fun entries ts2 h2 c2 hup2 =>
            .value hup2 Fin.le_rfl
      | _ => exact follows_fail hup rfl _

theorem follows_application (h : Agrees e n) (left : Expr) (hne : ts ≠ [])
    (hup : Upcoming e c ts) :
    Follows e (n + 1 ≤ 4 * ts.length) c (Parser.application (tape.stop e) left ts)
      (application (n + 1) left c) := by
  rw [application, token_bind, hup.token_eq]
  unfold Parser.application
  split
  · next p ts1 =>
      rw [Parser.peek, if_pos rfl, List.length_cons]
      exact .step <| .bind (h.items (by simp) hup.tail) (by omega) fun arguments ts2 h2 c2 hup2 =>
        .value hup2 Fin.le_rfl
  · next p ts1 =>
      rw [Parser.peek, if_neg (by simp), if_pos rfl, List.length_cons]
      refine .step <| .bind (h.expression _ hup.tail) (by omega) fun position ts2 h2 c2 hup2 => ?_
      exact (follows_expect (by simp) hup2).bind False.elim fun _ ts3 h3 c3 hup3 =>
        .value hup3 Fin.le_rfl
  · next t ts1 hparen hbracket =>
      obtain ⟨op, p⟩ := t
      have hop : op ≠ .leftParen := by
        rintro rfl
        exact hparen p rfl
      have hop' : op ≠ .leftBracket := by
        rintro rfl
        exact hbracket p rfl
      rw [Parser.peek, if_neg hop, if_neg hop', List.length_cons]
      exact .step <| .bind (h.expression _ hup.tail) (by omega) fun right ts2 h2 c2 hup2 =>
        .value hup2 Fin.le_rfl
  · exact absurd rfl hne

theorem follows_items {close : Token} (h : Agrees e n) (hclose : close ≠ .finish)
    (hup : Upcoming e c ts) :
    Follows e (n + 1 ≤ 4 * ts.length + 3) c (Parser.items (tape.stop e) close ts)
      (items (n + 1) close c) := by
  rw [items, token_bind, hup.token_eq]
  cases ts with
  | nil =>
      rw [Parser.items, Parser.peek, if_neg hclose.symm]
      exact (h.moreItems _ _ hclose hup).weaken Fin.le_rfl (by omega)
  | cons t ts =>
      rw [Parser.items, Parser.peek]
      by_cases ht : t.token = close
      · rw [if_pos ht, if_pos ht]
        exact .value hup.tail (le_next c)
      · rw [if_neg ht, if_neg ht]
        exact (h.moreItems _ _ hclose hup).weaken Fin.le_rfl (by omega)

theorem follows_moreItems {close : Token} (h : Agrees e n) (done : List Expr)
    (within : ts.length ≤ start.length) (hclose : close ≠ .finish) (hup : Upcoming e c ts) :
    Follows e (n + 1 ≤ 4 * ts.length + 2) c
      (Parser.moreItems (tape.stop e) close start done ts within)
      (moreItems (n + 1) close done c) := by
  rw [Parser.moreItems, moreItems]
  refine (h.expression _ hup).bind (by omega) fun item ts1 h1 c1 hup1 => ?_
  rw [token_bind, hup1.token_eq]
  dsimp only
  split
  · next p ts2 h1 =>
      rw [Parser.peek, if_pos rfl]
      have hlen : (⟨.comma, p⟩ :: ts2 : List Located).length < ts.length := h1
      rw [List.length_cons] at hlen
      exact ((h.moreItems _ _ hclose hup1.tail).weaken Fin.le_rfl (by omega)).step
  · next hcomma =>
      rw [if_neg (peek_ne (by simp) fun p ts' heq =>
        hcomma p ts' (heq ▸ h1) heq (proof_irrel_heq _ _))]
      exact (follows_expect hclose hup1).bind False.elim fun _ ts2 h2 c2 hup2 =>
        .value hup2 Fin.le_rfl

theorem follows_pairs (h : Agrees e n) (done : List (Expr × Expr))
    (within : ts.length ≤ start.length) (hup : Upcoming e c ts) :
    Follows e (n + 1 ≤ 4 * ts.length + 2) c
      (Parser.pairs (tape.stop e) start done ts within) (pairs (n + 1) done c) := by
  rw [pairs, token_bind, hup.token_eq]
  unfold Parser.pairs
  split
  · rw [Parser.peek, if_pos rfl]
    exact .value hup.tail (le_next c)
  · next hbrace =>
      rw [if_neg (peek_ne (by simp) fun p ts' heq =>
        hbrace p ts' (heq ▸ within) heq (proof_irrel_heq _ _))]
      refine (h.expression _ hup).bind (by omega) fun key ts1 h1 c1 hup1 => ?_
      refine (follows_expect (by simp) hup1).bind False.elim fun _ ts2 h2 c2 hup2 => ?_
      refine (h.expression _ hup2).bind (by omega) fun value ts3 h3 c3 hup3 => ?_
      dsimp only
      split
      · next p rest h3 =>
          -- the separator leaves the closing brace, and the loop takes it
          have hle : (⟨.rightBrace, p⟩ :: rest : List Located).length ≤ start.length := by omega
          have hloop := h.pairs ((key, value) :: done) hle hup3
          rw [Parser.pairs] at hloop
          rw [separator_bind hup3, Parser.peek, if_pos rfl]
          have hlen : (⟨.rightBrace, p⟩ :: rest : List Located).length < ts2.length := h3
          exact hloop.weaken Fin.le_rfl (by omega)
      · next hbrace =>
          rw [separator_bind hup3, if_neg (peek_ne (by simp) fun p ts' heq =>
            hbrace p ts' (heq ▸ h3) heq (proof_irrel_heq _ _))]
          refine (follows_expect (by simp) hup3).bind False.elim fun _ ts4 h4 c4 hup4 => ?_
          exact (h.pairs _ _ hup4).weaken Fin.le_rfl (by omega)

/-- Fuel is used up by one for each call, and the measure of the parsers goes down with each. -/
theorem agrees (e : tape.Cursor) (n : Nat) : Agrees e n := by
  induction n with
  | zero => constructor <;> intros <;> exact .unfinished (Nat.zero_le _)
  | succ n ih =>
      exact {
        statement := follows_statement ih
        statements := follows_statements ih
        block := follows_block ih
        expression := follows_expression ih
        operators := follows_operators ih
        operand := follows_operand ih
        application := follows_application ih
        items := follows_items ih
        moreItems := follows_moreItems ih
        pairs := follows_pairs ih }

end

/-- The loop over the statements of a program agrees with that of the parser. -/
theorem program_eq {n : Nat} (done : List Stmt) (hup : Upcoming e c ts)
    (hfuel : 4 * ts.length + 3 < n) :
    ∃ c', c ≤ c' ∧ c' ≤ e ∧
      program n done c = .ofResult c' (Parser.programFrom (tape.stop e) done ts) := by
  induction n generalizing c ts done with
  | zero => exact absurd hfuel (Nat.not_lt_zero _)
  | succ n ih =>
      rw [program, token_bind, hup.token_eq]
      cases ts with
      | nil =>
          rw [Parser.programFrom]
          exact ⟨c, Fin.le_rfl, hup.le, rfl⟩
      | cons t ts =>
          rw [List.length_cons] at hfuel
          rw [Parser.programFrom, Parser.peek, if_neg hup.token_ne]
          by_cases hsemicolon : t.token = .semicolon
          · rw [if_pos hsemicolon, if_pos hsemicolon]
            obtain ⟨c', hle, hend, heq⟩ := ih done hup.tail (by omega)
            exact ⟨c', Fin.le_trans (le_next c) hle, hend, heq⟩
          · rw [if_neg hsemicolon, if_neg hsemicolon]
            have hstmt := (agrees e n).statement hup
            show ∃ c', c ≤ c' ∧ c' ≤ e ∧
              (statement n c).andThen (fun stmt => program n (stmt :: done)) = _
            generalize statement n c = o at hstmt ⊢
            generalize Parser.statement (tape.stop e) (t :: ts) = x at hstmt ⊢
            cases hstmt with
            | @value stmt rest hlt c1 hup1 hle1 =>
                rw [List.length_cons] at hlt
                obtain ⟨c', hle, hend, heq⟩ := ih (stmt :: done) hup1 (by omega)
                exact ⟨c', Fin.le_trans hle1 hle, hend, heq⟩
            | fault hle hend => exact ⟨_, hle, hend, rfl⟩
            | unfinished hshort =>
                rw [List.length_cons] at hshort
                omega

/-! ## Progress -/

/-- What succeeds leaves the cursor further on. -/
def Advances (r : tape.Reader α) : Prop :=
  ∀ c v c', r c = .value v c' → c < c'

/-- From a cursor up to a limit, neither a value nor a fault is found beyond it, nor further
back. -/
def StaysWithin (limit : Nat) (r : tape.Reader α) : Prop :=
  ∀ c : tape.Cursor, c.val ≤ limit → ∀ c', (r c).cursor? = some c' → c ≤ c' ∧ c'.val ≤ limit

/-- A reader that agrees with a parser on the tokens up to any `finish`. -/
def Agreeing (r : tape.Reader α) : Prop :=
  ∀ e c ts, Upcoming e c ts → ∃ short, ∃ x : Parser.Result α ts, Follows e short c x (r c)

theorem Agreeing.advances {r : tape.Reader α} (h : r.Agreeing) : r.Advances := by
  intro c v c' hv
  obtain ⟨e, ts, hup⟩ := tape.exists_upcoming c
  obtain ⟨short, x, hfollows⟩ := h _ _ _ hup
  rw [hv] at hfollows
  exact hfollows.lt_of_value hup

theorem Agreeing.staysWithin {r : tape.Reader α} (h : r.Agreeing)
    (hup : Upcoming e tape.first ts) : r.StaysWithin e.val := by
  intro c hc c' hc'
  obtain ⟨ts', hup'⟩ := hup.of_le (Nat.zero_le _) hc
  obtain ⟨short, x, hfollows⟩ := h _ _ _ hup'
  exact hfollows.within hc'

variable {n : Nat}

theorem statement_agreeing : (statement n : tape.Reader Stmt).Agreeing :=
  fun _ _ _ hup => ⟨_, _, (agrees _ n).statement hup⟩

theorem block_agreeing : (block n : tape.Reader Block).Agreeing :=
  fun _ _ _ hup => ⟨_, _, (agrees _ n).block hup⟩

theorem expression_agreeing (least : Precedence) :
    (expression n least : tape.Reader Expr).Agreeing :=
  fun _ _ _ hup => ⟨_, _, (agrees _ n).expression least hup⟩

theorem operand_agreeing : (operand n : tape.Reader Expr).Agreeing :=
  fun _ _ _ hup => ⟨_, _, (agrees _ n).operand hup⟩

/-- An operator is taken whatever it is, even a `finish`, and then an operand has to follow. -/
theorem application_advances (left : Expr) :
    (application n left : tape.Reader Expr).Advances := by
  intro c v c' hv
  obtain ⟨e, ts, hup⟩ := tape.exists_upcoming c
  cases hup with
  | cons hcur hmore hnext =>
      have hup := Upcoming.cons hcur hmore hnext
      have hfollows := (agrees e n).application left (List.cons_ne_nil _ _) hup
      rw [hv] at hfollows
      exact hfollows.lt_of_value hup
  | nil hend =>
      cases n with
      | zero => cases hv
      | succ n =>
          rw [application, token_bind, hend, if_neg (by simp), if_neg (by simp)] at hv
          obtain ⟨_, c1, h1, hv⟩ := bind_eq_value hv
          cases h1
          obtain ⟨right, c2, hright, hv⟩ := bind_eq_value hv
          cases hv
          exact Nat.lt_of_le_of_lt (le_next _)
            ((expression_agreeing _).advances _ _ _ hright)

theorem application_staysWithin (left : Expr) (hup : Upcoming e tape.first ts) {c' : tape.Cursor}
    (hc : c < e) (hc' : (application n left c).cursor? = some c') : c ≤ c' ∧ c' ≤ e := by
  obtain ⟨ts', hup'⟩ := hup.of_le (Nat.zero_le _) (Nat.le_of_lt hc)
  have hne : ts' ≠ [] := by
    rintro rfl
    exact absurd hup'.val_add_length (Nat.ne_of_lt hc)
  exact ((agrees e n).application left hne hup').within hc'

end Reader

/-! ## The tokens that count -/

theorem takeWhile_append_finish (front back : List Located) (place : Position) :
    (front ++ ⟨.finish, place⟩ :: back).takeWhile (fun t : Located => t.token ≠ .finish) =
      front.takeWhile fun t => t.token ≠ .finish := by
  induction front with
  | nil => rfl
  | cons t ts ih => rw [List.cons_append, List.takeWhile_cons, List.takeWhile_cons, ih]

theorem endOfInput_append_finish (front back : List Located) (place last : Position) :
    Parser.endOfInput last (front ++ ⟨.finish, place⟩ :: back) =
      Parser.endOfInput last (front ++ [⟨.finish, place⟩]) := by
  induction front generalizing last with
  | nil => rfl
  | cons t ts ih =>
      rw [List.cons_append, List.cons_append, Parser.endOfInput, Parser.endOfInput, ih]

theorem endOfInput_concat_finish (tokens : List Located) (last : Position) :
    Parser.endOfInput last
      (tokens ++ [⟨.finish, (tokens.getLast?.map Located.position).getD last⟩]) =
        Parser.endOfInput last tokens := by
  induction tokens generalizing last with
  | nil => rfl
  | cons t ts ih =>
      rw [List.cons_append, Parser.endOfInput, Parser.endOfInput, List.getLast?_cons,
        Option.map_some, Option.getD_some, ← Option.getD_map Located.position, ih]

/-- What stands behind a `finish` does not count. -/
theorem ofTokens_append_finish (front back : List Located) (place : Position) :
    Program.ofTokens (front ++ [⟨.finish, place⟩]) =
      Program.ofTokens (front ++ ⟨.finish, place⟩ :: back) := by
  rw [Program.ofTokens, Program.ofTokens, takeWhile_append_finish, takeWhile_append_finish,
    endOfInput_append_finish front back]

/-- A `finish` at the place of the last token changes nothing. -/
theorem ofTokens_concat_finish (tokens : List Located) :
    Program.ofTokens (tokens ++ [⟨.finish, lastPlace tokens⟩]) = Program.ofTokens tokens := by
  rw [Program.ofTokens, Program.ofTokens, takeWhile_append_finish, lastPlace,
    endOfInput_concat_finish]

theorem ofTokens_of (tokens : List Located) :
    Program.ofTokens (of tokens).tokens = Program.ofTokens tokens := by
  rw [of]
  split
  · rfl
  · exact ofTokens_concat_finish tokens

/-- The number of tokens in front of the first `finish`. -/
def untilFinish (tokens : List Located) : Nat :=
  (tokens.takeWhile fun t => t.token ≠ .finish).length

theorem untilFinish_of (tokens : List Located) :
    untilFinish (of tokens).tokens = untilFinish tokens := by
  rw [of]
  split
  · rfl
  · rw [untilFinish, takeWhile_append_finish, untilFinish]

theorem untilFinish_le (tokens : List Located) : untilFinish tokens ≤ tokens.length :=
  (List.takeWhile_prefix _).length_le

open Reader in
/-- The reader comes to an end on every list of tokens, with the program that they spell or with
the fault of the parser at its place. Each of its parts moves the cursor on when it succeeds, and
none leads over the first `finish`. So what comes behind that one does not count, and where there is
none the input ends as if there were one at the place of the last token. -/
theorem program_of_advances_within (tokens : List Located) :
    (∀ n, 4 * tokens.length + 3 < n →
      ∃ c, program n [] (of tokens).first = .ofResult c (Program.ofTokens tokens) ∧
        c.val ≤ untilFinish tokens) ∧
    (∀ n, (statement n : (of tokens).Reader Stmt).Advances ∧
      (block n : (of tokens).Reader Block).Advances ∧
      (operand n : (of tokens).Reader Expr).Advances ∧
      (∀ least, (expression n least : (of tokens).Reader Expr).Advances) ∧
      ∀ left, (application n left : (of tokens).Reader Expr).Advances) ∧
    (∀ n, (statement n : (of tokens).Reader Stmt).StaysWithin (untilFinish tokens) ∧
      (block n : (of tokens).Reader Block).StaysWithin (untilFinish tokens) ∧
      (operand n : (of tokens).Reader Expr).StaysWithin (untilFinish tokens) ∧
      (∀ least, (expression n least : (of tokens).Reader Expr).StaysWithin (untilFinish tokens)) ∧
      ∀ left (c c' : (of tokens).Cursor), c.val < untilFinish tokens →
        (application n left c).cursor? = some c' → c ≤ c' ∧ c'.val ≤ untilFinish tokens) ∧
    (∀ front place back, tokens = front ++ ⟨.finish, place⟩ :: back →
      Program.ofTokens (front ++ [⟨.finish, place⟩]) = Program.ofTokens tokens) ∧
    Program.ofTokens (tokens ++ [⟨.finish, (tokens.getLast?.map Located.position).getD ⟨1, 1⟩⟩]) =
      Program.ofTokens tokens := by
  obtain ⟨e, hup, hstop⟩ := upcoming_takeWhile (of tokens).first rfl
  have hlimit : e.val = untilFinish tokens := by
    have hlen := hup.val_add_length
    rw [← untilFinish_of tokens, ← hlen]
    exact Nat.zero_add _
  rw [← hlimit]
  refine ⟨fun n hn => ?_, fun n => ?_, fun n => ?_, ?_, ofTokens_concat_finish tokens⟩
  · have hle : untilFinish (of tokens).tokens ≤ tokens.length :=
      untilFinish_of tokens ▸ untilFinish_le tokens
    have hfuel : 4 * untilFinish (of tokens).tokens + 3 < n := by omega
    obtain ⟨c, -, hend, heq⟩ := program_eq [] hup hfuel
    refine ⟨c, ?_, hend⟩
    rw [heq, hstop {}, ← ofTokens_of tokens]
    rfl
  · exact ⟨statement_agreeing.advances, block_agreeing.advances, operand_agreeing.advances,
      fun least => (expression_agreeing least).advances, application_advances⟩
  · exact ⟨statement_agreeing.staysWithin hup, block_agreeing.staysWithin hup,
      operand_agreeing.staysWithin hup, fun least => (expression_agreeing least).staysWithin hup,
      fun left c c' hc hc' => application_staysWithin left hup hc hc'⟩
  · rintro front place back rfl
    exact ofTokens_append_finish front back place

/-- `x (`, with the end of the input in between. -/
def endedEarly : List Located :=
  [⟨.ident "x", ⟨1, 1⟩⟩, ⟨.finish, ⟨1, 3⟩⟩, ⟨.leftParen, ⟨1, 5⟩⟩]

theorem program_of_advances_within_endedEarly :
    4 * endedEarly.length + 3 < 16 ∧
      ∃ c, Reader.program 16 [] (of endedEarly).first = .value [.expr (.ident "x")] c ∧
        c.val ≤ 1 := by
  have hprogram : Program.ofTokens endedEarly = .ok [.expr (.ident "x")] := by cbv
  obtain ⟨c, heq, hc⟩ := (program_of_advances_within endedEarly).1 16 (by decide)
  rw [hprogram] at heq
  exact ⟨by decide, c, heq, hc⟩

end Tape

end Monkey
