import Monkey.Error
import Monkey.Proofs.Lexemes
import Monkey.Proofs.Reading
import Monkey.Repl.Basic

/-!
# Complete entries are balanced

The prompt decides with a scanner of its own whether an entry is complete. That scanner knows
strings and brackets, but not comments: a bracket or a quote in a comment counts like any other, and
an entry that can be parsed may be held back for more lines.

This is the only way in which that happens. `Source.parts` takes the comments out of a text. What is
left of a source that can be parsed is balanced, because its brackets are those of its tokens, and
the grammar nests these. So is the source itself, if in each comment the brackets match and there
are no quotes.
-/

namespace Monkey

/-! ## Texts without their comments -/

namespace Source

/-- A character of the code, or a whole comment without its slashes and its newline. -/
inductive Part where
  | code (c : Char)
  | comment (body : List Char)
  deriving DecidableEq

/-- The character of a part of the code. -/
def Part.char? : Part → Option Char
  | .code c => some c
  | .comment _ => none

/-- The parts of a text that starts inside a string or outside. -/
def parts : Bool → List Char → List Part
  | _, [] => []
  | true, '\\' :: c :: cs => .code '\\' :: .code c :: parts true cs
  | true, c :: cs => .code c :: parts (c != '"') cs
  | false, '/' :: '/' :: cs =>
      .comment (cs.takeWhile (· != '\n')) :: parts false (cs.dropWhile (· != '\n'))
  | false, c :: cs => .code c :: parts (c == '"') cs
termination_by _ cs => cs.length
decreasing_by
  · simp only [List.length_cons]
    omega
  · exact Nat.lt_succ_self _
  · have hle := (List.dropWhile_suffix (l := cs) (· != '\n')).length_le
    simp only [List.length_cons]
    omega
  · exact Nat.lt_succ_self _

/-- The text without its comments. -/
def code (quoted : Bool) (cs : List Char) : List Char :=
  (parts quoted cs).filterMap Part.char?

/-- The bodies of the comments of a source. -/
def comments (source : String) : List (List Char) :=
  (parts false source.toList).filterMap fun
    | .code _ => none
    | .comment body => some body

section

variable {c : Char} {cs body rest : List Char}

theorem code_nil (quoted : Bool) : code quoted [] = [] := by
  rw [code, parts, List.filterMap_nil]

theorem code_escape : code true ('\\' :: c :: cs) = '\\' :: c :: code true cs := by
  rw [code, parts]
  rfl

theorem code_string (hc : c ≠ '\\') : code true (c :: cs) = c :: code (c != '"') cs := by
  rw [code, parts]
  · rfl
  · rintro _ _ rfl
    exact absurd rfl hc

theorem code_comment (hbody : '\n' ∉ body) (rest : List Char)
    (hrest : ∀ c more, rest = c :: more → c = '\n') :
    code false ('/' :: '/' :: (body ++ rest)) = code false rest := by
  have hdrop : (body ++ rest).dropWhile (· != '\n') = rest := by
    have hall : ∀ c ∈ body, (c != '\n') = true := by
      intro c hc
      rw [bne_iff_ne]
      rintro rfl
      exact hbody hc
    rw [List.dropWhile_append_of_pos hall]
    cases rest with
    | nil => rfl
    | cons c more => rw [hrest c more rfl, List.dropWhile_cons_of_neg (by simp)]
  rw [code, parts, hdrop]
  rfl

theorem code_cons (h : c ≠ '/' ∨ ¬startsWithSlash cs) :
    code false (c :: cs) = c :: code (c == '"') cs := by
  rw [code, parts]
  · rfl
  · rintro cs' rfl rfl
    rcases h with h | h
    · exact h rfl
    · exact h rfl

end

end Source

/-! ## Characters that count -/

namespace Repl

/-- Quotes and brackets. -/
def marks : List Char :=
  ['"', '(', ')', '[', ']', '\x7b', '\x7d']

section

variable {c d : Char} {cs cs' owed rest gap : List Char}

theorem balances_plain (h : c ∉ marks) :
    balances owed false (c :: cs) = balances owed false cs := by
  simp only [marks, List.mem_cons, List.not_mem_nil, or_false, not_or] at h
  obtain ⟨hquote, hparen, hparen', hbracket, hbracket', hbrace, hbrace'⟩ := h
  have hopen : closer? c = none := by
    unfold closer?
    split
    · exact absurd rfl hparen
    · exact absurd rfl hbracket
    · exact absurd rfl hbrace
    · rfl
  have hclose : isCloser c = false := by simp [isCloser, hparen', hbracket', hbrace']
  cases owed <;> simp [balances, hquote, hopen, hclose]

theorem balances_open (h : closer? c = some d) :
    balances owed false (c :: cs) = balances (d :: owed) false cs := by
  have hquote : c ≠ '"' := by
    rintro rfl
    cases h
  cases owed <;> simp [balances, hquote, h]

theorem balances_close (h : isCloser c) :
    balances (c :: owed) false (c :: cs) = balances owed false cs := by
  have hmem : c = ')' ∨ c = ']' ∨ c = '\x7d' := by simpa [isCloser, or_assoc] using h
  rcases hmem with rfl | rfl | rfl <;> rfl

theorem balances_quote : balances owed false ('"' :: cs) = balances owed true cs := by
  cases owed <;> simp [balances]

theorem balances_escape : balances owed true ('\\' :: c :: cs) = balances owed true cs := by
  rw [balances]

theorem balances_string (hc : c ≠ '\\') :
    balances owed true (c :: cs) = balances owed (c != '"') cs := by
  rw [balances]
  rintro _ _ rfl
  exact absurd rfl hc

/-- The texts behind a bracket matter only for what they balance. -/
theorem balances_congr (hc : c ≠ '"')
    (h : ∀ owed, balances owed false cs = balances owed false cs') (owed : List Char) :
    balances owed false (c :: cs) = balances owed false (c :: cs') := by
  cases owed <;> simp [balances, hc, h]

/-- The brackets of a text match, and it has no quotes. -/
inductive Matched : List Char → Prop
  | nil : Matched []
  | plain {c : Char} {cs : List Char} (hc : c ∉ marks) (h : Matched cs) : Matched (c :: cs)
  | bracket {c d : Char} {inner cs : List Char} (hc : closer? c = some d)
      (hinner : Matched inner) (h : Matched cs) : Matched (c :: (inner ++ d :: cs))

theorem isCloser_of_closer? (h : closer? c = some d) : isCloser d := by
  unfold closer? at h
  split at h <;> cases h <;> rfl

theorem Matched.balances (h : Matched cs) (owed rest : List Char) :
    balances owed false (cs ++ rest) = balances owed false rest := by
  induction h generalizing owed rest with
  | nil => rfl
  | plain hc _ ih => rw [List.cons_append, balances_plain hc, ih]
  | bracket hc _ _ ihinner ih =>
      rw [List.cons_append, balances_open hc, List.append_assoc, ihinner, List.cons_append,
        balances_close (isCloser_of_closer? hc), ih]

open Source in
/-- Comments that match do not count. -/
theorem balances_code {quoted : Bool} (h : ∀ body, .comment body ∈ parts quoted cs → Matched body)
    (owed : List Char) : balances owed quoted (code quoted cs) = balances owed quoted cs := by
  rw [code]
  fun_induction parts quoted cs generalizing owed with
  | case1 quoted => rfl
  | case2 c cs ih =>
      have hrest := ih (fun body hbody => h body (by simp [hbody])) owed
      simp only [List.filterMap_cons, Part.char?]
      rw [balances_escape, balances_escape, hrest]
  | case3 c cs hescape ih =>
      have hrest := ih (fun body hbody => h body (by simp [hbody])) owed
      simp only [List.filterMap_cons, Part.char?]
      by_cases hc : c = '\\'
      · cases cs with
        | nil =>
            rw [parts]
            rfl
        | cons c' cs => exact absurd rfl (hescape c' cs hc)
      · rw [balances_string hc, balances_string hc, hrest]
  | case4 cs ih =>
      have hbody := h _ List.mem_cons_self
      have hrest := ih (fun body hbody => h body (List.mem_cons_of_mem _ hbody)) owed
      simp only [List.filterMap_cons, Part.char?]
      rw [hrest, balances_plain (by decide), balances_plain (by decide)]
      conv => rhs; rw [← List.takeWhile_append_dropWhile (p := (· != '\n')) (l := cs)]
      rw [hbody.balances]
  | case5 c cs hcomment ih =>
      have hrest := ih fun body hbody => h body (by simp [hbody])
      simp only [List.filterMap_cons, Part.char?]
      by_cases hc : c = '"'
      · subst hc
        rw [balances_quote, balances_quote]
        exact hrest owed
      · rw [beq_eq_false_iff_ne.2 hc] at hrest ⊢
        exact balances_congr hc hrest owed

/-! ## Tokens and their brackets -/

end

end Repl

/-- The bracket that a token is. -/
def Token.bracket? : Token → Option Char
  | .leftParen => some '('
  | .rightParen => some ')'
  | .leftBracket => some '['
  | .rightBracket => some ']'
  | .leftBrace => some '\x7b'
  | .rightBrace => some '\x7d'
  | _ => none

theorem Token.bracket?_ne_quote {token : Token} {c : Char} (h : token.bracket? = some c) :
    c ≠ '"' := by
  unfold bracket? at h
  split at h <;> cases h <;> decide

/-- The brackets among some tokens. -/
def Token.brackets (ts : List Token) : List Char :=
  ts.filterMap bracket?

namespace Repl

open Source

section

variable {c d : Char} {cs owed rest gap : List Char} {token : Token} {width : Nat}

/-- A character that does not count and starts no comment. -/
def Plain (c : Char) : Prop :=
  c ∉ '/' :: marks

instance (c : Char) : Decidable (Plain c) :=
  inferInstanceAs (Decidable (c ∉ '/' :: marks))

/-- A class of characters without marks and slashes. -/
theorem plain_of_class {p : Char → Bool} (hp : ('/' :: marks).all fun m => !p m) (h : p c) :
    Plain c := by
  intro hc
  have hnot := List.all_eq_true.1 hp c hc
  rw [h] at hnot
  exact Bool.false_ne_true hnot

theorem balances_code_plain (hc : Plain c) (owed : List Char) :
    balances owed false (code false (c :: cs)) = balances owed false (code false cs) := by
  obtain ⟨hslash, hmark⟩ := not_or.1 (List.mem_cons.not.1 hc)
  have hquote : (c == '"') = false := by
    rw [beq_eq_false_iff_ne]
    rintro rfl
    exact hmark List.mem_cons_self
  rw [code_cons (.inl hslash), balances_plain hmark, hquote]

theorem balances_code_append (h : ∀ c ∈ cs, Plain c) (owed rest : List Char) :
    balances owed false (code false (cs ++ rest)) = balances owed false (code false rest) := by
  induction cs with
  | nil => rfl
  | cons c cs ih =>
      obtain ⟨hc, hcs⟩ := List.forall_mem_cons.1 h
      rw [List.cons_append, balances_code_plain hc, ih hcs]

/-- A number or a word is passed over. -/
theorem balances_code_run {p : Char → Bool} (hp : ∀ c, p c → Plain c) (hc : Plain c)
    (owed : List Char) :
    balances owed false (code false (c :: cs)) =
      balances owed false (code false (cs.drop (cs.takeWhile p).length)) := by
  have hall : ∀ c ∈ cs.takeWhile p, Plain c := fun c hc => hp c (List.mem_takeWhile_imp hc)
  have hdrop : cs.drop (cs.takeWhile p).length = cs.dropWhile p := by
    conv => lhs; arg 2; rw [← List.takeWhile_append_dropWhile (p := p) (l := cs)]
    exact List.drop_left
  rw [balances_code_plain hc, hdrop, ← balances_code_append hall owed (cs.dropWhile p),
    List.takeWhile_append_dropWhile]

theorem balances_code_trivia (h : Trivia gap) (owed rest : List Char) :
    balances owed false (code false (gap ++ rest)) = balances owed false (code false rest) := by
  induction h with
  | nil => rfl
  | blank hc _ ih =>
      rw [List.cons_append, balances_code_plain (plain_of_class (by decide) hc), ih]
  | @comment body cs hbody _ ih =>
      rw [List.cons_append, List.cons_append, List.append_assoc, List.cons_append,
        code_comment hbody _ (by rintro c more ⟨⟩; rfl), balances_code_plain (by decide), ih]

theorem balances_code_endTrivia (h : EndTrivia gap) (owed : List Char) :
    balances owed false (code false gap) = balances owed false [] := by
  rcases h with h | ⟨gap, body, hgap, hbody, rfl⟩
  · have heq := balances_code_trivia h owed []
    rwa [List.append_nil, code_nil] at heq
  · have hcomment := code_comment hbody [] (by rintro c more ⟨⟩)
    rw [List.append_nil, code_nil] at hcomment
    rw [balances_code_trivia hgap, hcomment]

/-- A string is closed where the lexer closes it. -/
theorem balances_code_string {taken : Nat} {text : String}
    (h : Token.scanString taken text cs = .ok (token, width)) :
    token.bracket? = none ∧ ∃ k, width = taken + k ∧
      ∀ owed, balances owed true (code true cs) =
        balances owed false (code false (cs.drop k)) := by
  fun_induction Token.scanString taken text cs with
  | case1 => cases h
  | case2 taken text cs =>
      cases h
      refine ⟨rfl, 1, rfl, fun owed => ?_⟩
      rw [code_string (by decide), balances_string (by decide)]
      rfl
  | case3 => cases h
  | case4 taken text c cs d hd ih =>
      obtain ⟨htoken, k, rfl, hbalances⟩ := ih h
      refine ⟨htoken, k + 2, by omega, fun owed => ?_⟩
      rw [code_escape, balances_escape, hbalances]
      rfl
  | case5 => cases h
  | case6 taken text c cs hquote hlone hescape ih =>
      obtain ⟨htoken, k, rfl, hbalances⟩ := ih h
      have hc : c ≠ '\\' := by
        rintro rfl
        cases hcs : cs with
        | nil => exact hlone rfl hcs
        | cons c' cs' => exact hescape c' cs' rfl hcs
      refine ⟨htoken, k + 1, by omega, fun owed => ?_⟩
      rw [code_string hc, balances_string hc, bne_iff_ne.2 hquote, hbalances]
      rfl

theorem bracket?_ofWord (word : String) : (Token.ofWord word).bracket? = none := by
  rw [Token.ofWord, Token.keyword?]
  repeat' split
  all_goals rfl

theorem balances_code_operator (h : Token.operator? c cs = some (token, width))
    (hslash : c ≠ '/' ∨ ¬startsWithSlash cs) (owed : List Char) :
    balances owed false (code false (c :: cs)) =
      balances owed false (token.bracket?.toList ++ code false (cs.drop width)) := by
  unfold Token.operator? at h
  split at h
  · cases h
    rw [balances_code_plain (by decide), balances_code_plain (by decide)]
    rfl
  · cases h
    rw [balances_code_plain (by decide), balances_code_plain (by decide)]
    rfl
  all_goals cases h
  case h_14 | h_15 | h_16 | h_17 | h_18 | h_19 =>
    rw [code_cons hslash]
    rfl
  all_goals
    rw [code_cons hslash]
    exact balances_plain (by decide)

/-- A lexeme counts as the bracket that it is, if it is one. -/
theorem balances_code_scan (h : Token.scan c cs = .ok (token, width))
    (hslash : c ≠ '/' ∨ ¬startsWithSlash cs) (owed : List Char) :
    balances owed false (code false (c :: cs)) =
      balances owed false (token.bracket?.toList ++ code false (cs.drop width)) := by
  rw [Token.scan] at h
  split at h
  · next hquote =>
      subst hquote
      obtain ⟨htoken, k, rfl, hbalances⟩ := balances_code_string h
      rw [htoken, code_cons (.inl (by decide)), balances_quote, Nat.zero_add]
      exact hbalances owed
  · split at h
    · next hdigit =>
        dsimp only at h
        split at h <;> cases h
        next htoken =>
          have hplain : ∀ c, Char.isDigit c → Plain c := fun c => plain_of_class (by decide)
          have hbracket : token.bracket? = none := by
            rw [Token.ofDigits] at htoken
            split at htoken <;> cases htoken
            rfl
          rw [balances_code_run hplain (hplain c hdigit), hbracket]
          rfl
    · split at h
      · next hword =>
          cases h
          have hplain : ∀ c, Text.isWordChar c → Plain c := fun c => plain_of_class (by decide)
          have hfirst : Text.isWordChar c := by rw [Text.isWordChar, hword, Bool.true_or]
          rw [balances_code_run hplain (hplain c hfirst), bracket?_ofWord]
          rfl
      · split at h <;> cases h
        next hoperator => exact balances_code_operator hoperator hslash owed

/-- What is left when trivia are skipped does not start a comment. -/
theorem skipTrivia_stops {inComment : Bool} {p start : Position}
    (h : skipTrivia inComment p rest = (start, c :: cs)) : c ≠ '/' ∨ ¬startsWithSlash cs := by
  induction rest generalizing inComment p with
  | nil => cases h
  | cons d rest ih =>
      rw [skipTrivia] at h
      split at h
      · exact ih h
      · split at h
        · exact ih h
        · split at h
          · exact ih h
          · next hcomment =>
              cases h
              exact imp_iff_not_or.1 (by simpa using hcomment)

/-- The code of a source has the brackets of its tokens, in their order. -/
theorem balances_code_tokenizeFrom {p : Position} {source : List Char}
    {done located : List Located} (h : tokenizeFrom p source done = .ok located) :
    ∃ front place, located = done.reverse ++ (front ++ [⟨.finish, place⟩]) ∧
      (∀ t ∈ front, t.token ≠ .finish) ∧
      ∀ owed, balances owed false (code false source) =
        balances owed false (Token.brackets (Parser.words front)) := by
  induction hlength : source.length using Nat.strongRecOn generalizing p source done with
  | _ n ih =>
  obtain ⟨gap, tail, rfl, hskip, hend, hgap⟩ := skipTrivia_split p source
  cases tail with
  | nil =>
      rw [tokenizeFrom_finish hskip, List.reverse_cons] at h
      cases h
      refine ⟨[], _, rfl, List.forall_mem_nil _, fun owed => ?_⟩
      rw [List.append_nil, balances_code_endTrivia hend]
      rfl
  | cons c cs =>
      cases hscan : Token.scan c cs with
      | error cause =>
          rw [tokenizeFrom_fault hskip hscan] at h
          cases h
      | ok found =>
          obtain ⟨token, width⟩ := found
          obtain ⟨-, -, -, -, hfinish, -⟩ := Token.lexeme_of_scan hscan
          rw [tokenizeFrom_token hskip hscan] at h
          simp only [List.length_append, List.length_cons] at hlength
          have hshorter : (cs.drop width).length < n := by
            rw [List.length_drop]
            omega
          obtain ⟨front, place, rfl, hfront, hbalances⟩ := ih _ hshorter h rfl
          refine ⟨⟨token, p.past gap⟩ :: front, place, by simp,
            List.forall_mem_cons.2 ⟨hfinish, hfront⟩, fun owed => ?_⟩
          rw [balances_code_trivia (hgap (List.cons_ne_nil _ _)),
            balances_code_scan hscan (skipTrivia_stops hskip), Parser.words_cons, Token.brackets]
          cases hbracket : token.bracket? with
          | none =>
              rw [List.filterMap_cons_none hbracket]
              exact hbalances owed
          | some bracket =>
              rw [List.filterMap_cons_some hbracket]
              exact balances_congr (Token.bracket?_ne_quote hbracket) hbalances owed

end

end Repl

/-! ## The grammar nests brackets -/

namespace Parser

open Repl (balances balances_open balances_close)

/-- The brackets that a phrase closes without having opened them. -/
def Phrase.owes : Phrase → List Char
  | .statements | .pairs => ['\x7d']
  | .items close | .moreItems close => close.bracket?.toList
  | _ => []

/-- Items end with a closing bracket, or with no bracket at all. -/
def Phrase.ClosesOnly : Phrase → Prop
  | .items close | .moreItems close => ∀ c, close.bracket? = some c → Repl.isCloser c
  | _ => True

theorem brackets_skipSemicolon (ts : List Token) :
    Token.brackets (Token.skipSemicolon ts) = Token.brackets ts := by
  unfold Token.skipSemicolon
  split <;> rfl

theorem brackets_operator {op : Token} {ts : List Token}
    (hop : op ∈ Token.unary ++ Token.binary) : Token.brackets (op :: ts) = Token.brackets ts := by
  have hall : (Token.unary ++ Token.binary).all fun op => op.bracket? = none := by decide
  exact List.filterMap_cons_none (of_decide_eq_true (List.all_eq_true.1 hall op hop))

theorem balances_closing {close : Token} {ts : List Token}
    (h : ∀ c, close.bracket? = some c → Repl.isCloser c) (owed : List Char) :
    balances (close.bracket?.toList ++ owed) false (Token.brackets (close :: ts)) =
      balances owed false (Token.brackets ts) := by
  cases hclose : close.bracket? with
  | none => rw [Token.brackets, List.filterMap_cons_none hclose]; rfl
  | some c =>
      rw [Token.brackets, List.filterMap_cons_some hclose]
      exact balances_close (h c hclose)

theorem brackets_names (xs : List String) (ts : List Token) :
    Token.brackets (Token.names xs ++ ts) = Token.brackets ts := by
  induction xs with
  | nil => rfl
  | cons x xs ih =>
      cases xs with
      | nil => rfl
      | cons y ys => exact ih

/-- A phrase gives back the brackets that it opens, and those that it owes. -/
theorem Reads.balances {phrase : Phrase} {ts rest : List Token} {tree : Tree}
    (h : Reads phrase ts tree rest) (hphrase : phrase.ClosesOnly) (owed : List Char) :
    balances (phrase.owes ++ owed) false (Token.brackets ts) =
      balances owed false (Token.brackets rest) := by
  have hparen : (Phrase.items .rightParen).ClosesOnly := by rintro c ⟨⟩; rfl
  have hbracket : (Phrase.items .rightBracket).ClosesOnly := by rintro c ⟨⟩; rfl
  induction h generalizing owed with
  | bind _ ih | ret _ ih | value _ ih =>
      rw [brackets_skipSemicolon]
      exact ih trivial owed
  | close | noPairs => exact balances_close rfl
  | stray _ ih => exact ih trivial owed
  | next _ _ ih₁ ih₂ | expression _ _ ih₁ ih₂ => exact (ih₁ trivial _).trans (ih₂ trivial owed)
  | block _ ih | hash _ ih => exact (balances_open rfl).trans (ih trivial owed)
  | done _ | ident | int | str | yes | no => rfl
  | infixOp hop _ _ _ ih₁ ih₂ =>
      rw [brackets_operator (List.mem_append_right _ hop)]
      exact (ih₁ trivial _).trans (ih₂ trivial owed)
  | call _ _ _ ih₁ ih₂ =>
      exact (balances_open rfl).trans ((ih₁ hparen owed).trans (ih₂ trivial owed))
  | index _ _ _ ih₁ ih₂ =>
      exact (balances_open rfl).trans ((ih₁ trivial _).trans
        ((balances_close rfl).trans (ih₂ trivial owed)))
  | prefixOp hop _ ih =>
      rw [brackets_operator (List.mem_append_left _ hop)]
      exact ih trivial owed
  | group _ ih =>
      exact (balances_open rfl).trans ((ih trivial _).trans (balances_close rfl))
  | cond _ _ _ ih₁ ih₂ =>
      exact (balances_open rfl).trans ((ih₁ trivial _).trans
        ((balances_close rfl).trans (ih₂ trivial owed)))
  | condElse _ _ _ ih₁ ih₂ ih₃ =>
      exact (balances_open rfl).trans ((ih₁ trivial _).trans
        ((balances_close rfl).trans ((ih₂ trivial owed).trans (ih₃ trivial owed))))
  | @function xs ts b rest _ ih =>
      have hopen : Token.brackets (.fnWord :: .leftParen ::
          (Token.names xs ++ .rightParen :: ts)) = '(' :: ')' :: Token.brackets ts :=
        congrArg ('(' :: ·) (brackets_names xs (.rightParen :: ts))
      rw [hopen]
      exact (balances_open rfl).trans ((balances_close rfl).trans (ih trivial owed))
  | array _ ih => exact (balances_open rfl).trans (ih hbracket owed)
  | noItems => exact balances_closing hphrase owed
  | someItems _ _ ih => exact ih hphrase owed
  | lastItem _ _ ih => exact (ih trivial _).trans (balances_closing hphrase owed)
  | nextItem _ _ ih₁ ih₂ => exact (ih₁ trivial _).trans (ih₂ hphrase owed)
  | lastPair _ _ ih₁ ih₂ =>
      exact (ih₁ trivial _).trans ((ih₂ trivial _).trans (balances_close rfl))
  | nextPair _ _ _ ih₁ ih₂ ih₃ =>
      exact (ih₁ trivial _).trans ((ih₂ trivial _).trans (ih₃ trivial owed))

theorem ReadsProgram.balances {ts : List Token} {program : Program}
    (h : ReadsProgram ts program) (owed : List Char) :
    balances owed false (Token.brackets ts) = balances owed false [] := by
  induction h with
  | done => rfl
  | stray _ ih => exact ih
  | next hs _ ih => exact (hs.balances trivial owed).trans ih

end Parser

/-! ## Entries -/

namespace Repl

theorem evaluate_pending (r : Repl) (entry : String) :
    (r.evaluate entry).2.pending = r.pending := by
  unfold evaluate
  split
  · rfl
  · split
    · rfl
    · dsimp only
      split <;> rfl

theorem answer_pending {r r' : Repl} {entry : String} {output : Output}
    (h : r.answer entry = (output, some r')) : r'.pending = r.pending := by
  unfold answer at h
  split at h
  · cases h
    rfl
  · split at h <;> cases h
    · rfl
    · rfl
    · exact evaluate_pending r entry

/-- An entry that is balanced is answered, and nothing is kept of it. -/
theorem feed_pending {r r' : Repl} {line : String}
    (hbalanced : isBalanced (Text.withoutEnding (r.pending ++ line)))
    (h : (r.feed line).2 = some r') : r'.pending = "" := by
  simp only [feed, if_pos hbalanced] at h
  split at h
  · next r'' hanswer =>
      cases h
      exact answer_pending hanswer
  · cases h

theorem balances_code_of_parse {source : String} {program : Program}
    (h : Program.parse source = .ok program) :
    balances [] false (Source.code false source.toList) = true := by
  unfold Program.parse at h
  split at h
  · cases h
  · next tokens htokens =>
      split at h <;> cases h
      next hprogram =>
        obtain ⟨front, place, rfl, hfront, hbalances⟩ := balances_code_tokenizeFrom htokens
        have hwords : (Parser.words (front ++ [⟨.finish, place⟩])).takeWhile (· ≠ .finish) =
            Parser.words front := by
          rw [Parser.words, List.map_append, List.takeWhile_append_of_pos (by simpa using hfront)]
          exact List.append_nil _
        have hreads := Parser.ofTokens_eq_ok.1 hprogram
        rw [List.reverse_nil, List.nil_append, hwords] at hreads
        exact (hbalances []).trans (hreads.balances [])

/-- A source that can be parsed is balanced without its comments, and with them if their brackets
match and they have no quotes. The prompt then does not wait for more lines. -/
theorem isBalanced_of_parse {source : String} {program : Program}
    (h : Program.parse source = .ok program) :
    isBalanced (String.ofList (Source.code false source.toList)) ∧
      ((∀ body ∈ Source.comments source, Matched body) →
        isBalanced source ∧
        ∀ (r r' : Repl) (line : String), Text.withoutEnding (r.pending ++ line) = source →
          (r.feed line).2 = some r' → r'.pending = "") := by
  have hcode := balances_code_of_parse h
  refine ⟨by rwa [isBalanced, String.toList_ofList], fun hcomments => ?_⟩
  have hmatched : ∀ body, .comment body ∈ Source.parts false source.toList → Matched body := by
    intro body hbody
    exact hcomments body (List.mem_filterMap.2 ⟨_, hbody, rfl⟩)
  have hbalanced : isBalanced source := (balances_code hmatched []).symm.trans hcode
  refine ⟨hbalanced, ?_⟩
  rintro r r' line rfl hfeed
  exact feed_pending hbalanced hfeed

/-- A string with a bracket and a quote, and a comment with a call. -/
def remarkSample : String :=
  "let s = \"(\\\"\"; [s] // f(s)"

theorem isBalanced_of_parse_remarkSample :
    Program.parse remarkSample = .ok [.bind "s" (.str "(\""), .expr (.array [.ident "s"])] ∧
      Source.comments remarkSample = [" f(s)".toList] ∧ isBalanced remarkSample := by
  have hparse : Program.parse remarkSample =
      .ok [.bind "s" (.str "(\""), .expr (.array [.ident "s"])] := by cbv
  have hcomments : Source.comments remarkSample = [" f(s)".toList] := by cbv
  have hcall : Matched " f(s)".toList :=
    .plain (by decide) <| .plain (by decide) <|
      @Matched.bracket '(' ')' ['s'] [] rfl (.plain (by decide) .nil) .nil
  refine ⟨hparse, hcomments, ((isBalanced_of_parse hparse).2 ?_).1⟩
  rw [hcomments]
  exact List.forall_mem_singleton.2 hcall

/-- A bracket in a comment holds back an entry that is complete. -/
theorem isBalanced_commented :
    Program.parse "1 // (" = .ok [.expr (.int 1)] ∧ isBalanced "1 // (" = false ∧
      (feed {} "1 // (\n").2.map pending = some "1 // (\n" := by
  have hopen : isBalanced (Text.withoutEnding ("" ++ "1 // (\n")) = false := by decide
  refine ⟨by cbv, by decide, ?_⟩
  rw [feed, hopen]
  rfl

end Repl

end Monkey
