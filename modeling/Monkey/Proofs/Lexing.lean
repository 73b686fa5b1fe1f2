import Mathlib
import Monkey.Token.Lexer

/-!
# Reading back what is written

A token can be written in several ways: a number may have leading zeros, and some characters of a
string stand for themselves or are escaped. Between the tokens there may be blanks and comments.
`Token.Writes`, `Trivia` and `Written` say which texts these are, without a look at the reader.

The lexer reads all of them back. A blank stands behind each token, and since no blank goes on with
a number, a word or an operator, `Token.scan` takes the token as it was written; this is
`Token.Scans`, with a lemma for each way in which a token starts. That blanks do not go on with a
word is a fact about the tables of letters and numerals. The main statement is then an induction
over the tokens.
-/

namespace Monkey

/-! ## Writing -/

/-- A word: a letter or an underscore, then letters, numerals and underscores. -/
def Text.IsWord : List Char → Prop
  | [] => False
  | first :: more => isWordStart first ∧ ∀ c ∈ more, isWordChar c

instance : (cs : List Char) → Decidable (Text.IsWord cs)
  | [] => .isFalse id
  | _ :: more => @instDecidableAnd _ _ _ (List.decidableBAll _ more)

namespace Token

/-- The tokens that can stand in a source. A negative number is no token of its own, and an
identifier is a word that is no keyword. -/
def Writable : Token → Prop
  | .int value => 0 ≤ value
  | .ident name => Text.IsWord name.toList ∧ keyword? name = none
  | .finish => False
  | _ => True

/-- The characters that have an escape, each after its letter. -/
def escapes : List (Char × Char) :=
  [('n', '\n'), ('t', '\t'), ('r', '\r'), ('0', '\x00'), ('\\', '\\'), ('"', '"')]

/-- The text of a string between its quotes. A quote and a backslash must be escaped. -/
inductive WritesText : List Char → List Char → Prop where
  | nil : WritesText [] []
  | raw {c : Char} {text body : List Char} (hquote : c ≠ '"') (hbackslash : c ≠ '\\')
      (h : WritesText text body) : WritesText (c :: text) (c :: body)
  | escaped {letter c : Char} {text body : List Char} (hescape : (letter, c) ∈ escapes)
      (h : WritesText text body) : WritesText (c :: text) ('\\' :: letter :: body)

/-- A text is one that stands for the token. -/
def Writes : Token → List Char → Prop
  | .int value, cs => ∃ zeros, cs = List.replicate zeros '0' ++ (Token.int value).text.toList
  | .str text, cs => ∃ body, WritesText text.toList body ∧ cs = '"' :: (body ++ ['"'])
  | token, cs => cs = token.text.toList

end Token

/-- Blanks and comments, each comment with the newline that ends it. -/
inductive Trivia : List Char → Prop where
  | nil : Trivia []
  | blank {c : Char} {cs : List Char} (hc : Text.isBlank c) (h : Trivia cs) : Trivia (c :: cs)
  | comment {body cs : List Char} (hbody : '\n' ∉ body) (h : Trivia cs) :
      Trivia ('/' :: '/' :: (body ++ '\n' :: cs))

/-- Tokens one after the other, with trivia behind each of them that start with a blank. -/
inductive Written : List Token → List Char → Prop where
  | nil : Written [] []
  | cons {token : Token} {tokens : List Token} {cs gap rest : List Char} {b : Char}
      (htoken : token.Writes cs) (hb : Text.isBlank b) (hgap : Trivia gap)
      (h : Written tokens rest) : Written (token :: tokens) (cs ++ b :: (gap ++ rest))

/-! ## Characters -/

namespace Text

/-- Membership as a count over a list, which can be evaluated. -/
theorem CharSet.contains_eq (s : CharSet) (c : Char) :
    s.contains c = (s.bounds.toList.countP (· ≤ c.toNat) % 2 == 1) := by
  rw [contains, Array.countP_toList]

/-- The blanks. -/
def blanks : List Nat :=
  [0x09, 0x0A, 0x0B, 0x0C, 0x0D, 0x20, 0x85, 0xA0, 0x1680, 0x2000, 0x2001, 0x2002, 0x2003, 0x2004,
    0x2005, 0x2006, 0x2007, 0x2008, 0x2009, 0x200A, 0x2028, 0x2029, 0x202F, 0x205F, 0x3000]

variable {c : Char}

theorem mem_blanks (h : isBlank c) : c.toNat ∈ blanks := by
  simp only [isBlank, ← Char.toNat_inj, Bool.or_eq_true, Bool.and_eq_true, beq_iff_eq,
    decide_eq_true_eq, Char.reduceToNat] at h
  simp only [blanks, List.mem_cons, List.not_mem_nil, or_false]
  omega

theorem toNat_of_isBlank (h : isBlank c) : c.toNat ≤ 0x20 ∨ 0x80 ≤ c.toNat := by
  have hmem := mem_blanks h
  simp only [blanks, List.mem_cons, List.not_mem_nil, or_false] at hmem
  omega

/-- No blank beyond ASCII is a letter or a numeral. -/
theorem blanks_apart : ∀ n ∈ blanks, 0x80 ≤ n →
    (alphabetic.bounds.toList.countP (· ≤ n) % 2 == 1) = false ∧
      (numeric.bounds.toList.countP (· ≤ n) % 2 == 1) = false := by
  decide +kernel

theorem isAlpha_iff_toNat :
    c.isAlpha ↔ 65 ≤ c.toNat ∧ c.toNat ≤ 90 ∨ 97 ≤ c.toNat ∧ c.toNat ≤ 122 := by
  simp only [Char.isAlpha, Char.isUpper, Char.isLower, Bool.or_eq_true, Bool.and_eq_true,
    decide_eq_true_eq, UInt32.le_iff_toNat_le, ge_iff_le]
  exact Iff.rfl

theorem not_isDigit_of_isBlank (h : isBlank c) : ¬c.isDigit := by
  intro hdigit
  have hcode : 48 ≤ c.toNat ∧ c.toNat ≤ 57 := Char.isDigit_iff_toNat.1 hdigit
  have hrange := toNat_of_isBlank h
  omega

theorem not_isLetter_of_isBlank (h : isBlank c) : ¬isLetter c := by
  have hrange := toNat_of_isBlank h
  rw [isLetter]
  split
  · rw [isAlpha_iff_toNat]
    omega
  · next hbeyond =>
      rw [CharSet.contains_eq, (blanks_apart _ (mem_blanks h) (Nat.le_of_not_lt hbeyond)).1]
      exact Bool.false_ne_true

theorem not_isNumeral_of_isBlank (h : isBlank c) : ¬isNumeral c := by
  rw [isNumeral]
  split
  · exact not_isDigit_of_isBlank h
  · next hbeyond =>
      rw [CharSet.contains_eq, (blanks_apart _ (mem_blanks h) (Nat.le_of_not_lt hbeyond)).2]
      exact Bool.false_ne_true

theorem not_isWordChar_of_isBlank (h : isBlank c) : ¬isWordChar c := by
  have hunderscore : c ≠ '_' := by
    rintro rfl
    exact absurd h (by decide)
  simp [isWordChar, isWordStart, hunderscore, not_isLetter_of_isBlank h, not_isNumeral_of_isBlank h]

theorem ne_of_isBlank (h : isBlank c) : c ≠ '=' ∧ c ≠ '/' := by
  constructor <;> rintro rfl <;> exact absurd h (by decide)

/-- What a word starts with starts nothing else. -/
theorem apart_of_isWordStart (h : isWordStart c) :
    ¬isBlank c ∧ c ≠ '/' ∧ c ≠ '"' ∧ ¬c.isDigit := by
  refine ⟨fun hblank => ?_, ?_, ?_, fun hdigit => ?_⟩
  · exact not_isWordChar_of_isBlank hblank (by simp [isWordChar, h])
  · rintro rfl
    exact absurd h (by decide)
  · rintro rfl
    exact absurd h (by decide)
  · have hunderscore : c ≠ '_' := by
      rintro rfl
      exact absurd hdigit (by decide)
    have hcode : 48 ≤ c.toNat ∧ c.toNat ≤ 57 := Char.isDigit_iff_toNat.1 hdigit
    simp only [isWordStart, isLetter, Bool.or_eq_true, beq_iff_eq, hunderscore, false_or] at h
    rw [if_pos (by omega), isAlpha_iff_toNat] at h
    omega

theorem apart_of_isDigit (h : c.isDigit) : ¬isBlank c ∧ c ≠ '/' ∧ c ≠ '"' := by
  refine ⟨fun hblank => not_isDigit_of_isBlank hblank h, ?_, ?_⟩
  · rintro rfl
    exact absurd h (by decide)
  · rintro rfl
    exact absurd h (by decide)

end Text

/-! ## Trivia are skipped -/

section

variable {c : Char} {cs body gap rest : List Char} {p : Position}

theorem skipTrivia_comment (hbody : '\n' ∉ body) :
    skipTrivia true p (body ++ '\n' :: rest) =
      skipTrivia false (p.past (body ++ ['\n'])) rest := by
  induction body generalizing p with
  | nil => rfl
  | cons c body ih =>
      obtain ⟨hc, hbody⟩ := not_or.1 (List.mem_cons.not.1 hbody)
      have hopen : (c != '\n') = true := bne_iff_ne.2 (Ne.symm hc)
      rw [List.cons_append, skipTrivia, if_pos rfl, hopen, ih hbody]
      rfl

theorem Trivia.skip (h : Trivia gap) :
    skipTrivia false p (gap ++ rest) = skipTrivia false (p.past gap) rest := by
  induction h generalizing p with
  | nil => rfl
  | blank hc _ ih =>
      rw [List.cons_append, skipTrivia, if_neg Bool.false_ne_true, if_pos hc, ih]
      rfl
  | @comment body cs hbody _ ih =>
      have hopen : ∀ cs, skipTrivia false p ('/' :: '/' :: cs) =
          skipTrivia true ((p.next '/').next '/') cs := fun _ => rfl
      rw [List.cons_append, List.cons_append, hopen, List.append_assoc, List.cons_append,
        skipTrivia_comment hbody, ih]
      simp [Position.past]

/-- What is neither blank nor a comment is not skipped. -/
theorem skipTrivia_stop (hblank : ¬Text.isBlank c) (hslash : c ≠ '/' ∨ ¬startsWithSlash cs) :
    skipTrivia false p (c :: cs) = (p, c :: cs) := by
  rw [skipTrivia, if_neg Bool.false_ne_true, if_neg hblank, if_neg]
  simp only [Bool.and_eq_true, beq_iff_eq, not_and_or]
  exact hslash

end

/-! ## Tokens are read as they were written -/

namespace Token

/-- However the text goes on behind a blank, what is written is not skipped, and it is read as the
token. -/
def Scans (token : Token) (cs : List Char) : Prop :=
  ∃ first more, cs = first :: more ∧ ∀ b rest, Text.isBlank b →
    (∀ p, skipTrivia false p (cs ++ b :: rest) = (p, cs ++ b :: rest)) ∧
    scan first (more ++ b :: rest) = .ok (token, more.length)

section

variable {first letter b c : Char} {more text body rest cs : List Char} {token : Token}

theorem takeWhile_until {p : Char → Bool} (hcs : ∀ c ∈ cs, p c) (hb : ¬p b) :
    (cs ++ b :: rest).takeWhile p = cs := by
  rw [List.takeWhile_append_of_pos hcs, List.takeWhile_cons_of_neg hb, List.append_nil]

theorem scans_digits (hdigits : ∀ c ∈ first :: more, c.isDigit)
    (htoken : ofDigits (first :: more) = .ok token) : Scans token (first :: more) := by
  refine ⟨first, more, rfl, fun b rest hb => ?_⟩
  obtain ⟨hfirst, hmore⟩ := List.forall_mem_cons.1 hdigits
  obtain ⟨hblank, hslash, hquote⟩ := Text.apart_of_isDigit hfirst
  refine ⟨fun p => skipTrivia_stop hblank (.inl hslash), ?_⟩
  rw [scan, if_neg hquote, if_pos hfirst, takeWhile_until hmore (Text.not_isDigit_of_isBlank hb)]
  dsimp only
  rw [htoken]

theorem scans_word (hword : Text.IsWord token.text.toList) (htoken : ofWord token.text = token) :
    Scans token token.text.toList := by
  cases htext : token.text.toList with
  | nil =>
      rw [htext] at hword
      exact hword.elim
  | cons first more =>
      rw [htext] at hword
      refine ⟨first, more, rfl, fun b rest hb => ?_⟩
      obtain ⟨hfirst, hmore⟩ := hword
      obtain ⟨hblank, hslash, hquote, hdigit⟩ := Text.apart_of_isWordStart hfirst
      refine ⟨fun p => skipTrivia_stop hblank (.inl hslash), ?_⟩
      rw [scan, if_neg hquote, if_neg hdigit, if_pos hfirst,
        takeWhile_until hmore (Text.not_isWordChar_of_isBlank hb)]
      dsimp only
      rw [← htext, String.ofList_toList, htoken]

theorem operator?_of_ne (hb : b ≠ '=') :
    operator? '=' (b :: rest) = some (.assign, 0) ∧
      operator? '!' (b :: rest) = some (.bang, 0) := by
  simp [operator?, hb]

/-- The one operator that could start a comment is the slash, and a blank is no second slash. -/
theorem scans_operator (hblank : ¬Text.isBlank first) (hquote : first ≠ '"')
    (hdigit : ¬first.isDigit) (hword : ¬Text.isWordStart first) (hslash : first = '/' → more = [])
    (hoperator : ∀ b rest, Text.isBlank b →
      operator? first (more ++ b :: rest) = some (token, more.length)) :
    Scans token (first :: more) := by
  refine ⟨first, more, rfl, fun b rest hb => ?_⟩
  have hcomment : first ≠ '/' ∨ ¬startsWithSlash (more ++ b :: rest) := by
    rw [← imp_iff_not_or]
    intro hfirst
    rw [hslash hfirst, List.nil_append, startsWithSlash]
    · exact Bool.false_ne_true
    · exact fun _ heq => (Text.ne_of_isBlank hb).2 (List.cons.inj heq).1
  refine ⟨fun p => skipTrivia_stop hblank hcomment, ?_⟩
  rw [scan, if_neg hquote, if_neg hdigit, if_neg hword, hoperator b rest hb]

theorem push_append (done : String) (c : Char) (text : List Char) :
    done.push c ++ String.ofList text = done ++ String.ofList (c :: text) := by
  simp [← String.toList_inj]

theorem scanString_raw {taken : Nat} {text : String} (hquote : c ≠ '"') (hbackslash : c ≠ '\\') :
    scanString taken text (c :: cs) = scanString (taken + 1) (text.push c) cs := by
  rw [scanString] <;> simp_all

theorem scanString_escape {taken : Nat} {text : String} (h : (letter, c) ∈ escapes) :
    scanString taken text ('\\' :: letter :: cs) = scanString (taken + 2) (text.push c) cs := by
  have hletter : unescape? letter = some c := by
    simp only [escapes, List.mem_cons, Prod.mk.injEq, List.not_mem_nil, or_false] at h
    rcases h with ⟨rfl, rfl⟩ | ⟨rfl, rfl⟩ | ⟨rfl, rfl⟩ | ⟨rfl, rfl⟩ | ⟨rfl, rfl⟩ | ⟨rfl, rfl⟩ <;>
      rfl
  rw [scanString, hletter]

theorem scanString_written (h : WritesText text body) (taken : Nat) (done : String) :
    scanString taken done (body ++ '"' :: rest) =
      .ok (.str (done ++ String.ofList text), taken + body.length + 1) := by
  induction h generalizing taken done with
  | nil => simp [scanString]
  | raw hquote hbackslash _ ih =>
      rw [List.cons_append, scanString_raw hquote hbackslash, ih, push_append]
      simp only [List.length_cons]
      congr 2
      omega
  | escaped hescape _ ih =>
      rw [List.cons_append, List.cons_append, scanString_escape hescape, ih, push_append]
      simp only [List.length_cons]
      congr 2
      omega

/-- Leading zeros do not change the value. -/
theorem decimalValue_padded (zeros n : Nat) :
    decimalValue (List.replicate zeros '0' ++ Nat.toDigits 10 n) = n := by
  show Nat.ofDigitChars 10 _ 0 = n
  rw [Nat.ofDigitChars_append, Nat.ofDigitChars_replicate_zero, Nat.mul_zero,
    Nat.ofDigitChars_ten_toDigits]

theorem text_int {value : Int64} (h : 0 ≤ value) :
    ∃ n : Nat, n < 0x8000000000000000 ∧ Int64.ofNat n = value ∧
      (Token.int value).text.toList = Nat.toDigits 10 n := by
  have hnonneg : 0 ≤ value.toInt := Int64.le_iff_toInt_le.1 h
  obtain ⟨n, hn⟩ := Int.eq_ofNat_of_zero_le hnonneg
  have hlt := value.toInt_lt
  refine ⟨n, by omega, ?_, ?_⟩
  · rw [← Int64.ofInt_toInt value, hn]
    exact (Int64.ofInt_eq_ofNat).symm
  · rw [text, hn]
    exact Nat.toList_repr

theorem scans_int {value : Int64} (h : 0 ≤ value) (zeros : Nat) :
    Scans (.int value) (List.replicate zeros '0' ++ (Token.int value).text.toList) := by
  obtain ⟨n, hn, rfl, htext⟩ := text_int h
  rw [htext]
  have hdigits : ∀ c ∈ List.replicate zeros '0' ++ Nat.toDigits 10 n, c.isDigit := by
    intro c hc
    obtain hzero | hdigit := List.mem_append.1 hc
    · rw [List.eq_of_mem_replicate hzero]
      rfl
    · exact Nat.isDigit_of_mem_toDigits (by decide) (by decide) hdigit
  have htoken : ofDigits (List.replicate zeros '0' ++ Nat.toDigits 10 n) =
      .ok (.int (Int64.ofNat n)) := by
    rw [ofDigits, decimalValue_padded, if_pos hn]
  have hne : List.replicate zeros '0' ++ Nat.toDigits 10 n ≠ [] :=
    List.append_ne_nil_of_right_ne_nil _ Nat.toDigits_ne_nil
  obtain ⟨first, more, heq⟩ := List.exists_cons_of_ne_nil hne
  rw [heq] at hdigits htoken ⊢
  exact scans_digits hdigits htoken

theorem scans_str {text : String} (h : WritesText text.toList body) :
    Scans (.str text) ('"' :: (body ++ ['"'])) := by
  refine ⟨'"', body ++ ['"'], rfl, fun b rest _ => ⟨fun p => skipTrivia_stop (by decide) ?_, ?_⟩⟩
  · exact .inl (by decide)
  · rw [scan, if_pos rfl, List.append_assoc, List.singleton_append, scanString_written h]
    simp

/-- What is written for a token is read as the token. -/
theorem Writes.scans (htoken : token.Writable) (h : token.Writes cs) : Scans token cs := by
  cases token with
  | int value =>
      obtain ⟨zeros, rfl⟩ := h
      exact scans_int htoken zeros
  | str text =>
      obtain ⟨body, hbody, rfl⟩ := h
      exact scans_str hbody
  | ident name =>
      obtain ⟨hword, hkeyword⟩ := htoken
      subst h
      refine scans_word hword ?_
      rw [text, ofWord, hkeyword]
      rfl
  | finish => exact htoken.elim
  | letWord | fnWord | trueWord | falseWord | ifWord | elseWord | returnWord =>
      subst h
      exact scans_word (by decide) (by decide)
  | assign =>
      subst h
      exact scans_operator (by decide) (by decide) (by decide) (by decide) (by decide)
        fun _ _ hb => (operator?_of_ne (Text.ne_of_isBlank hb).1).1
  | bang =>
      subst h
      exact scans_operator (by decide) (by decide) (by decide) (by decide) (by decide)
        fun _ _ hb => (operator?_of_ne (Text.ne_of_isBlank hb).1).2
  | plus | minus | asterisk | slash | less | greater | equal | notEqual | comma | semicolon | colon
  | leftParen | rightParen | leftBrace | rightBrace | leftBracket | rightBracket =>
      subst h
      exact scans_operator (by decide) (by decide) (by decide) (by decide) (by decide)
        fun _ _ _ => rfl

end

end Token

/-! ## Whole texts -/

section

variable {p start : Position} {c : Char} {cs front body source : List Char} {token : Token}
  {tokens : List Token} {width : Nat} {done : List Located}

theorem tokenizeFrom_finish (h : skipTrivia false p source = (start, [])) :
    tokenizeFrom p source done = .ok (⟨.finish, start⟩ :: done).reverse := by
  rw [tokenizeFrom]
  split
  · next hskip =>
      rw [h] at hskip
      cases hskip
      rfl
  · next hskip =>
      rw [h] at hskip
      cases hskip

theorem tokenizeFrom_token (h : skipTrivia false p source = (start, c :: cs))
    (hscan : Token.scan c cs = .ok (token, width)) :
    tokenizeFrom p source done =
      tokenizeFrom (start.past (c :: cs.take width)) (cs.drop width) (⟨token, start⟩ :: done) := by
  rw [tokenizeFrom]
  split
  · next hskip =>
      rw [h] at hskip
      cases hskip
  · next hskip =>
      rw [h] at hskip
      cases hskip
      rw [hscan]

theorem tokenizeFrom_written (h : Written tokens body) (htokens : ∀ t ∈ tokens, t.Writable)
    (hfront : Trivia front) (p : Position) (done : List Located) :
    ∃ located, tokenizeFrom p (front ++ body) done = .ok (done.reverse ++ located) ∧
      located.map Located.token = tokens ++ [.finish] := by
  induction h generalizing front p done with
  | nil =>
      refine ⟨[⟨.finish, p.past front⟩], ?_, rfl⟩
      have hskip : skipTrivia false p (front ++ []) = (p.past front, []) := hfront.skip
      rw [tokenizeFrom_finish hskip, List.reverse_cons]
  | @cons token tokens cs gap rest b htoken hb hgap hrest ih =>
      obtain ⟨hwritable, htokens⟩ := List.forall_mem_cons.1 htokens
      obtain ⟨first, more, rfl, hscans⟩ := htoken.scans hwritable
      obtain ⟨hstop, hscan⟩ := hscans b (gap ++ rest) hb
      have hskip : skipTrivia false p (front ++ (first :: more ++ b :: (gap ++ rest))) =
          (p.past front, first :: (more ++ b :: (gap ++ rest))) :=
        hfront.skip.trans (hstop (p.past front))
      obtain ⟨located, hlocated, hmap⟩ := ih htokens (.blank hb hgap)
        ((p.past front).past (first :: more)) (⟨token, p.past front⟩ :: done)
      refine ⟨⟨token, p.past front⟩ :: located, ?_, by rw [List.map_cons, hmap]; rfl⟩
      rw [tokenizeFrom_token hskip hscan, List.take_left, List.drop_left]
      rw [List.reverse_cons, List.append_assoc] at hlocated
      exact hlocated

end

/-- A text is read as the tokens that were written, whatever trivia are between and in front of
them. -/
theorem tokenize_written {tokens : List Token} {front body : List Char}
    (htokens : ∀ t ∈ tokens, t.Writable) (hfront : Trivia front) (hbody : Written tokens body) :
    ∃ located, tokenize (String.ofList (front ++ body)) = .ok located ∧
      located.map Located.token = tokens ++ [.finish] := by
  rw [tokenize, String.toList_ofList]
  exact tokenizeFrom_written hbody htokens hfront {} []

/-- A string that contains the marks of strings and comments, and a slash behind a comment. -/
def Written.marks : List Token :=
  [.letWord, .ident "lets", .assign, .str "\"//\n", .slash, .int 7]

theorem tokenize_written_marks :
    (∀ t ∈ Written.marks, t.Writable) ∧ Trivia "// (\"\n".toList ∧
      Written Written.marks "let lets =\n\"\\\"//\n\" //\n/\t007 ".toList ∧
      ∃ located, tokenize (String.ofList ("// (\"\n".toList ++
          "let lets =\n\"\\\"//\n\" //\n/\t007 ".toList)) = .ok located ∧
        located.map Located.token = Written.marks ++ [.finish] := by
  have hmarks : ∀ t ∈ Written.marks, t.Writable := by
    have hlets : Text.IsWord "lets".toList ∧ Token.keyword? "lets" = none := by decide
    have hseven : (0 : Int64) ≤ 7 := by decide
    simp only [Written.marks, List.forall_mem_cons]
    exact ⟨trivial, hlets, trivial, trivial, trivial, hseven, nofun⟩
  have hfront : Trivia "// (\"\n".toList := @Trivia.comment [' ', '(', '"'] [] (by decide) .nil
  have hstring : Token.WritesText "\"//\n".toList ['\\', '"', '/', '/', '\n'] :=
    .escaped (by decide) (.raw (by decide) (by decide) (.raw (by decide) (by decide)
      (.raw (by decide) (by decide) .nil)))
  have hgap : Trivia "//\n".toList := @Trivia.comment [] [] (by decide) .nil
  have hbody : Written Written.marks "let lets =\n\"\\\"//\n\" //\n/\t007 ".toList :=
    @Written.cons .letWord _ "let".toList [] _ ' ' rfl rfl .nil <|
    @Written.cons (.ident "lets") _ "lets".toList [] _ ' ' rfl rfl .nil <|
    @Written.cons .assign _ ['='] [] _ '\n' rfl rfl .nil <|
    @Written.cons (.str "\"//\n") _ "\"\\\"//\n\"".toList "//\n".toList _ ' '
      ⟨_, hstring, rfl⟩ rfl hgap <|
    @Written.cons .slash _ ['/'] [] _ '\t' rfl rfl .nil <|
    @Written.cons (.int 7) _ "007".toList [] _ ' ' ⟨2, rfl⟩ rfl .nil .nil
  exact ⟨hmarks, hfront, hbody, tokenize_written hmarks hfront hbody⟩

end Monkey
