import Monkey.Token.Basic
import Monkey.Text.CharClass

/-!
# From text to tokens

`Token.scan` reads the one token at the head of a text and says how many
characters it took; it knows nothing about places. `tokenize` alternates it with
`skipTrivia` and keeps the place, so lines and columns are decided in one spot.
-/

namespace Monkey

/-- What can be wrong with a source text before it has a grammar. -/
inductive LexFault where
  | unknownEscape (c : Char)
  | unfinishedEscape
  | unterminatedString
  | integerTooLarge (digits : String)
  | unexpectedCharacter (c : Char)
  deriving DecidableEq

/-- The wording of a fault. -/
def LexFault.message : LexFault → String
  | .unknownEscape c => "unknown escape sequence: \\" ++ c.toString
  | .unfinishedEscape => "unexpected EOF in escape sequence"
  | .unterminatedString => "unterminated string literal"
  | .integerTooLarge digits => "integer literal out of range: " ++ digits
  | .unexpectedCharacter c => "unexpected character: '" ++ c.toString ++ "'"

/-- A fault and the place it is reported at. -/
structure LexError where
  fault : LexFault
  position : Position
  deriving DecidableEq

/-- An error as it is shown: the place, then the wording. -/
def LexError.message (e : LexError) : String :=
  e.position.render ++ ": " ++ e.fault.message

/-- Whether the text goes on with the second slash of a comment. -/
def startsWithSlash : List Char → Bool
  | '/' :: _ => true
  | _ => false

/-- Passes over blanks and comments. A comment starts with two slashes and
ends before the newline; `inComment` says whether one is open. -/
def skipTrivia (inComment : Bool) (p : Position) : List Char → Position × List Char
  | [] => (p, [])
  | c :: cs =>
      if inComment then skipTrivia (c != '\n') (p.next c) cs
      else if Text.isBlank c then skipTrivia false (p.next c) cs
      else if c == '/' && startsWithSlash cs then skipTrivia true (p.next c) cs
      else (p, c :: cs)

theorem length_skipTrivia_le (inComment : Bool) (p : Position) (cs : List Char) :
    (skipTrivia inComment p cs).2.length ≤ cs.length := by
  induction cs generalizing inComment p with
  | nil => simp [skipTrivia]
  | cons c cs ih =>
      rw [skipTrivia]
      split
      · exact Nat.le_succ_of_le (ih _ _)
      · split
        · exact Nat.le_succ_of_le (ih _ _)
        · split
          · exact Nat.le_succ_of_le (ih _ _)
          · exact Nat.le_refl _

namespace Token

/-- The character that stands for an escape, by the letter after the
backslash. -/
def unescape? : Char → Option Char
  | 'n' => some '\n'
  | 't' => some '\t'
  | 'r' => some '\r'
  | '\\' => some '\\'
  | '"' => some '"'
  | '0' => some '\x00'
  | _ => none

/-- Reads a string after its opening quote: the text, and the number of
characters up to and with the closing quote. `taken` characters of it have been
read into `text`. A fault comes with its distance from the opening quote. -/
def scanString (taken : Nat) (text : String) :
    List Char → Except (LexFault × Nat) (Token × Nat)
  | [] => .error (.unterminatedString, 0)
  | '"' :: _ => .ok (.str text, taken + 1)
  | '\\' :: [] => .error (.unfinishedEscape, taken + 2)
  | '\\' :: c :: cs =>
      match unescape? c with
      | some d => scanString (taken + 2) (text.push d) cs
      | none => .error (.unknownEscape c, taken + 2)
  | c :: cs => scanString (taken + 1) (text.push c) cs

/-- The value of a run of decimal digits. -/
def decimalValue (digits : List Char) : Nat :=
  digits.foldl (fun n d => 10 * n + (d.toNat - '0'.toNat)) 0

/-- An integer literal, which must fit a signed 64-bit word. -/
def ofDigits (digits : List Char) : Except LexFault Token :=
  if decimalValue digits < 0x8000000000000000 then .ok (.int (Int64.ofNat (decimalValue digits)))
  else .error (.integerTooLarge (String.ofList digits))

/-- A word is a keyword or else an identifier. -/
def ofWord (word : String) : Token :=
  (keyword? word).getD (.ident word)

/-- Reads the token that starts with the character `c` and goes on in `cs`,
with the number of characters it takes from `cs`. A fault comes with its
distance from `c`. -/
def scan (c : Char) (cs : List Char) : Except (LexFault × Nat) (Token × Nat) :=
  if c = '"' then scanString 0 "" cs
  else if c.isDigit then
    let more := cs.takeWhile Char.isDigit
    match ofDigits (c :: more) with
    | .ok token => .ok (token, more.length)
    | .error fault => .error (fault, 0)
  else if Text.isWordStart c then
    let more := cs.takeWhile Text.isWordChar
    .ok (ofWord (String.ofList (c :: more)), more.length)
  else
    match operator? c cs with
    | some result => .ok result
    | none => .error (.unexpectedCharacter c, 0)

end Token

/-- Reads the rest of a text from a place on; `done` holds the tokens so far,
the last first. -/
def tokenizeFrom (p : Position) (text : List Char) (done : List Located) :
    Except LexError (List Located) :=
  match h : skipTrivia false p text with
  | (start, []) => .ok (⟨.finish, start⟩ :: done).reverse
  | (start, c :: cs) =>
      have shorter : cs.length < text.length := by
        have bound := length_skipTrivia_le false p text
        rw [h] at bound
        exact bound
      match Token.scan c cs with
      | .ok (token, width) =>
          tokenizeFrom (start.past (c :: cs.take width)) (cs.drop width)
            (⟨token, start⟩ :: done)
      | .error (fault, distance) => .error ⟨fault, start.past ((c :: cs).take distance)⟩
termination_by text.length
decreasing_by
  simp only [List.length_drop]
  omega

/-- All tokens of a source text, closed by one `finish` at its end. -/
def tokenize (source : String) : Except LexError (List Located) :=
  tokenizeFrom {} source.toList []

end Monkey
