import Monkey.Toml.Basic

/-!
# Numbers and times of TOML

A number, a date or a time is an unbroken run of characters. These functions decide which of them a
run is.
-/

namespace Monkey.Toml

/-- Digits of some base with single underscores between them. -/
def isDigitRun (isDigit : Char → Bool) : List Char → Bool
  | [] => false
  | [c] => isDigit c
  | c :: '_' :: rest => isDigit c && isDigitRun isDigit rest
  | c :: rest => isDigit c && isDigitRun isDigit rest

/-- The value of a hexadecimal digit. -/
def digitValue (c : Char) : Nat :=
  if c.isDigit then c.toNat - '0'.toNat else c.toLower.toNat - 'a'.toNat + 10

/-- Whether a character is a digit of a base up to sixteen. -/
def isDigitOf (base : Nat) (c : Char) : Bool :=
  (c.isDigit || ('a' ≤ c.toLower && c.toLower ≤ 'f')) && digitValue c < base

/-- The value of a run of digits, underscores aside. -/
def runValue (base : Nat) (run : List Char) : Nat :=
  run.foldl (fun n c => if c == '_' then n else base * n + digitValue c) 0

/-- An integer that fits a signed 64-bit word. -/
def boundedInt? (n : Int) : Option Toml :=
  if -0x8000000000000000 ≤ n ∧ n < 0x8000000000000000 then some (.int n) else none

/-- A sign, if there is one, and the rest: whether the number is negative. -/
def splitSign : List Char → Bool × List Char
  | '-' :: rest => (true, rest)
  | '+' :: rest => (false, rest)
  | run => (false, run)

/-- Decimal digits that do not start with a needless zero. -/
def isDecimal (run : List Char) : Bool :=
  isDigitRun Char.isDigit run && (run.length == 1 || run.head? != some '0')

/-- A non-negative integer in a base other than ten. -/
def basedInt? (base : Nat) (run : List Char) : Option Toml :=
  if isDigitRun (isDigitOf base) run then boundedInt? (runValue base run) else none

/-- The integer that a run spells. -/
def int? (run : List Char) : Option Toml :=
  match run with
  | '0' :: 'x' :: digits => basedInt? 16 digits
  | '0' :: 'o' :: digits => basedInt? 8 digits
  | '0' :: 'b' :: digits => basedInt? 2 digits
  | _ =>
      let (negative, digits) := splitSign run
      if isDecimal digits then
        boundedInt? (if negative then -(runValue 10 digits : Int) else runValue 10 digits)
      else none

/-- A decimal number taken apart: the digits before and after the point, and the
power of ten. -/
structure Decimal where
  whole : List Char
  fraction : List Char
  exponent : Int

namespace Decimal

/-- All digits, without underscores and leading zeros. -/
def digits (d : Decimal) : List Char :=
  ((d.whole ++ d.fraction).filter (· != '_')).dropWhile (· == '0')

/-- The power of ten that the digits, read as one integer, are multiplied by. -/
def scale (d : Decimal) : Int :=
  d.exponent - (d.fraction.filter (· != '_')).length

/-- The least integer that rounds to infinity as a 64-bit float: halfway between
the largest float and the next power of two. -/
def floatLimit : Nat :=
  (Nat.pow 2 54 - 1) * Nat.pow 2 970

/-- Whether a decimal is too large for a 64-bit float. The number of digits
decides, save near the limit, which has 309 of them. -/
def overflows (d : Decimal) : Bool :=
  let magnitude : Int := d.digits.length + d.scale
  if d.digits.isEmpty || magnitude < 309 then false
  else if 309 < magnitude then true
  else
    floatLimit * Nat.pow 10 (-d.scale).toNat ≤ runValue 10 d.digits * Nat.pow 10 d.scale.toNat

end Decimal

/-- The power of ten after the mark of an exponent. -/
def exponent? (run : List Char) : Option Int :=
  let (negative, digits) := splitSign run
  if isDigitRun Char.isDigit digits then
    some (if negative then -(runValue 10 digits : Int) else runValue 10 digits)
  else none

/-- The digits after a decimal point. -/
def fraction? (run : List Char) : Option (List Char) :=
  if isDigitRun Char.isDigit run then some run else none

/-- The decimal that a run without a sign spells. It has a fraction, an exponent or
both. -/
def decimal? (run : List Char) : Option Decimal := do
  let mantissa := run.takeWhile fun c => c != 'e' && c != 'E'
  let whole := mantissa.takeWhile (· != '.')
  if !isDecimal whole then none
  else
    match mantissa.drop whole.length, run.drop mantissa.length with
    | [], [] => none
    | [], _ :: power => return ⟨whole, [], ← exponent? power⟩
    | _ :: fraction, [] => return ⟨whole, ← fraction? fraction, 0⟩
    | _ :: fraction, _ :: power => return ⟨whole, ← fraction? fraction, ← exponent? power⟩

/-- The float that a run spells: a decimal or one of the special values. A decimal
may be too small for a float, or negative and too large, but not positive and too large. -/
def float? (run : List Char) : Option Toml :=
  let (negative, unsigned) := splitSign run
  if unsigned == ['i', 'n', 'f'] || unsigned == ['n', 'a', 'n'] then
    some (.float (String.ofList run))
  else
    match decimal? unsigned with
    | some d => if d.overflows && !negative then none else some (.float (String.ofList run))
    | none => none

/-- The number that a list of plain digits spells, if there are exactly `count`. -/
def digits? (count : Nat) (run : List Char) : Option Nat :=
  if run.length = count ∧ run.all Char.isDigit then some (runValue 10 run) else none

/-- The days of a month. -/
def daysIn (year month : Nat) : Nat :=
  if month = 2 then
    (if year % 4 = 0 ∧ (year % 100 ≠ 0 ∨ year % 400 = 0) then 29 else 28)
  else if month = 4 ∨ month = 6 ∨ month = 9 ∨ month = 11 then 30
  else 31

/-- Whether ten characters are a calendar date. -/
def isDate (run : List Char) : Bool :=
  match digits? 4 (run.take 4), digits? 2 ((run.drop 5).take 2), digits? 2 (run.drop 8) with
  | some year, some month, some day =>
      run[4]? == some '-' && run[7]? == some '-' && 1 ≤ month && month ≤ 12 && 1 ≤ day &&
        day ≤ daysIn year month
  | _, _, _ => false

/-- Whether a run is a time of day, with a fraction of a second or without. -/
def isTimeOfDay (run : List Char) : Bool :=
  let fractionFits := match run.drop 8 with
    | [] => true
    | '.' :: rest => !rest.isEmpty && rest.all Char.isDigit
    | _ => false
  let pair (start : Nat) : Option Nat := digits? 2 ((run.drop start).take 2)
  match pair 0, pair 3, pair 6 with
  | some hour, some minute, some second =>
      run[2]? == some ':' && run[5]? == some ':' && hour ≤ 23 && minute ≤ 59 && second ≤ 60 &&
        fractionFits
  | _, _, _ => false

/-- Whether a run is an offset from universal time. -/
def isOffset (run : List Char) : Bool :=
  match run with
  | [] => true
  | ['Z'] | ['z'] => true
  | [sign, a, b, ':', c, d] =>
      match digits? 2 [a, b], digits? 2 [c, d] with
      | some hour, some minute => (sign == '+' || sign == '-') && hour ≤ 23 && minute ≤ 59
      | _, _ => false
  | _ => false

/-- Whether a run is a date, a time, or both with an offset or without. -/
def isTime (run : List Char) : Bool :=
  if isTimeOfDay run || isDate run then true
  else
    match run.drop 10 with
    | mark :: rest =>
        let clock := rest.takeWhile fun c => c.isDigit || c == ':' || c == '.'
        (mark == 'T' || mark == 't' || mark == ' ') && isDate (run.take 10) &&
          isTimeOfDay clock && isOffset (rest.drop clock.length)
    | [] => false

/-- The number, date or time that a run spells. -/
def scalar? (run : List Char) : Option Toml :=
  if isTime run then some (.time (String.ofList run))
  else (float? run).or (int? run)

end Monkey.Toml
