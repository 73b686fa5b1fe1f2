import Monkey.Proofs.Reading

/-!
# One program after another

Two lists of tokens with a semicolon between them spell the statements of the first and then those
of the second. For the first list this says that no parser needs the end of the input where it
found it: a semicolon does as well, at any depth of operators, lists and blocks, and also where an
`else` could have come. For the second list it says that nothing is left over from the first, so
that faults are found at the same places.

`Reads.before_semicolon` has the first half, by one induction over everything that a parser can
read. A statement is the only phrase for which the semicolon makes a difference: one that came to
the end of the input now takes the semicolon along.
-/

namespace Monkey

namespace Parser

variable {us : List Token}

/-- The phrase is read in the same way in front of a semicolon and more words. A statement that left
nothing over takes the semicolon. -/
def Phrase.BeforeSemicolon (us ts : List Token) (tree : Tree) (rest : List Token) : Phrase → Prop
  | .statement =>
      Reads .statement (ts ++ .semicolon :: us) tree (rest ++ .semicolon :: us) ∨
        rest = [] ∧ Reads .statement (ts ++ .semicolon :: us) tree us
  | phrase => Reads phrase (ts ++ .semicolon :: us) tree (rest ++ .semicolon :: us)

theorem skipSemicolon_append (rest us : List Token) :
    Token.skipSemicolon (rest ++ .semicolon :: us) =
        Token.skipSemicolon rest ++ .semicolon :: us ∨
      Token.skipSemicolon rest = [] ∧
        Token.skipSemicolon (rest ++ .semicolon :: us) = us := by
  cases rest with
  | nil => exact .inr ⟨rfl, rfl⟩
  | cons t rest =>
      left
      by_cases ht : t = .semicolon
      · subst ht
        rfl
      · simp [Token.skipSemicolon, ht]

/-- A statement ends behind its expression, or behind the semicolon there. -/
theorem before_semicolon_of_expression {ts rest : List Token} {s : Stmt}
    (h : Reads .statement (ts ++ .semicolon :: us) (.stmt s)
      (Token.skipSemicolon (rest ++ .semicolon :: us))) :
    Phrase.BeforeSemicolon us ts (.stmt s) (Token.skipSemicolon rest) .statement := by
  rcases skipSemicolon_append rest us with heq | ⟨hnil, heq⟩ <;> rw [heq] at h
  · exact .inl h
  · exact .inr ⟨hnil, h⟩

/-- The word to come is the same in front of a semicolon, but at the end of the input. -/
theorem next_append (ts us : List Token) :
    Token.next (ts ++ .semicolon :: us) = Token.next ts ∨
      ts = [] ∧ Token.next (ts ++ .semicolon :: us) = .semicolon := by
  cases ts with
  | nil => exact .inr ⟨rfl, rfl⟩
  | cons t ts => exact .inl rfl

/-- The end of the input is no statement. -/
theorem not_reads_statement_nil {tree : Tree} {rest : List Token} :
    ¬Reads .statement [] tree rest := by
  intro h
  rcases h.begins with h | h | h <;> cases h

theorem not_reads_statements_nil {tree : Tree} {rest : List Token} :
    ¬Reads .statements [] tree rest := by
  intro h
  cases h with
  | next hs _ => exact not_reads_statement_nil hs

theorem Reads.before_semicolon {phrase : Phrase} {ts rest : List Token} {tree : Tree}
    (h : Reads phrase ts tree rest) (us : List Token) :
    phrase.BeforeSemicolon us ts tree rest := by
  induction h with
  | bind _ ih => exact before_semicolon_of_expression (.bind ih)
  | ret _ ih => exact before_semicolon_of_expression (.ret ih)
  | value _ ih => exact before_semicolon_of_expression (.value ih)
  | close => exact .close
  | stray _ ih => exact .stray ih
  | next _ hrest ih₁ ih₂ =>
      -- a block still needs its closing brace, so the statement left something over
      rcases ih₁ with ih₁ | ⟨rfl, -⟩
      · exact .next ih₁ ih₂
      · exact absurd hrest not_reads_statements_nil
  | block _ ih => exact .block ih
  | expression _ _ ih₁ ih₂ => exact .expression ih₁ ih₂
  | @done least left ts hle =>
      refine .done ?_
      rcases next_append ts us with heq | ⟨-, heq⟩
      · rwa [heq]
      · simp [heq, Precedence.ofToken, Precedence.rank]
  | infixOp hop hlt _ _ ih₁ ih₂ => exact .infixOp hop hlt ih₁ ih₂
  | call hlt _ _ ih₁ ih₂ => exact .call hlt ih₁ ih₂
  | index hlt _ _ ih₁ ih₂ => exact .index hlt ih₁ ih₂
  | ident => exact .ident
  | int => exact .int
  | str => exact .str
  | yes => exact .yes
  | no => exact .no
  | prefixOp hop _ ih => exact .prefixOp hop ih
  | group _ ih => exact .group ih
  | @cond ts c mid b rest _ _ hne ih₁ ih₂ =>
      refine .cond ih₁ ih₂ ?_
      rcases next_append rest us with heq | ⟨-, heq⟩
      · rwa [heq]
      · simp [heq]
  | condElse _ _ _ ih₁ ih₂ ih₃ => exact .condElse ih₁ ih₂ ih₃
  | @function xs ts b rest _ ih =>
      show Reads .operand
        (.fnWord :: .leftParen :: ((Token.names xs ++ .rightParen :: ts) ++ _)) _ _
      rw [List.append_assoc]
      exact .function ih
  | array _ ih => exact .array ih
  | hash _ ih => exact .hash ih
  | noItems => exact .noItems
  | @someItems close ts es rest hne hmore ih =>
      refine .someItems ?_ ih
      rcases next_append ts us with heq | ⟨rfl, -⟩
      · rwa [heq]
      · cases hmore.begins
  | lastItem hclose _ ih => exact .lastItem hclose ih
  | nextItem _ _ ih₁ ih₂ => exact .nextItem ih₁ ih₂
  | noPairs => exact .noPairs
  | lastPair _ _ ih₁ ih₂ => exact .lastPair ih₁ ih₂
  | nextPair _ _ _ ih₁ ih₂ ih₃ => exact .nextPair ih₁ ih₂ ih₃

/-! ## The loop over the statements -/

theorem ReadsProgram.eq_nil {program : Program} (h : ReadsProgram [] program) : program = [] := by
  cases h with
  | done => rfl
  | next hs _ => exact absurd hs not_reads_statement_nil

/-- Behind a program and a semicolon, the loop stands at the words that follow, with the
statements of the program taken. -/
theorem ReadsProgram.programFrom_located {ts : List Token} {program : Program}
    (h : ReadsProgram ts program) (stop : Position) (places : Nat → Position) (us : List Token)
    (done : List Stmt) :
    programFrom stop done (located places (ts ++ .semicolon :: us)) =
      programFrom stop (program.reverse ++ done) (located places us) := by
  induction h generalizing done with
  | done =>
      rw [List.nil_append, located, programFrom, if_pos rfl, List.reverse_nil, List.nil_append]
  | stray _ ih => rw [List.cons_append, located, programFrom, if_pos rfl, ih]
  | next hs hrest ih =>
      rcases hs.before_semicolon us with hs' | ⟨rfl, hs'⟩
      · rw [programFrom_of_reads stop places hs', ih]
        simp
      · rw [programFrom_of_reads stop places hs', hrest.eq_nil]
        rfl

theorem drop_located (places : Nat → Position) (ts us : List Token) :
    (located places (ts ++ us)).drop ts.length = located places us := by
  induction ts with
  | nil => rfl
  | cons t ts ih => exact ih

theorem programFrom_append {ts us : List Located} {program : Program}
    (h : ReadsProgram (words ts) program) (stop place : Position) (done : List Stmt) :
    programFrom stop done (ts ++ ⟨.semicolon, place⟩ :: us) =
      programFrom stop (program.reverse ++ done) us := by
  obtain ⟨places, hplaces⟩ := exists_located (ts ++ ⟨.semicolon, place⟩ :: us)
  have hwords : words (ts ++ ⟨.semicolon, place⟩ :: us) = words ts ++ .semicolon :: words us := by
    simp [words]
  have hus : us = located places (words us) := by
    have hdrop := drop_located places (words ts ++ [.semicolon]) (words us)
    rw [List.append_assoc, List.singleton_append, ← hwords, ← hplaces] at hdrop
    simpa [words] using hdrop
  rw [hplaces, hwords, h.programFrom_located, ← hus]

/-- The statements taken so far have no part in what the loop finds next. -/
theorem programFrom_eq_map (stop : Position) (recent done : List Stmt) (ts : List Located) :
    programFrom stop (recent ++ done) ts =
      (programFrom stop recent ts).map (done.reverse ++ ·) := by
  fun_induction programFrom stop recent ts with
  | case1 recent => simp [programFrom, Except.map]
  | case2 recent t rest ht ih => rw [programFrom, if_pos ht, ih]
  | case3 recent t rest ht ih =>
      rw [programFrom, if_neg ht]
      cases hs : statement stop (t :: rest) with
      | error cause => rfl
      | ok first => exact ih first

/-! ## Lists of tokens without an end -/

section

variable {ts us : List Located}

theorem ofTokens_of_unfinished (h : ∀ t ∈ ts, t.token ≠ .finish) :
    Program.ofTokens ts = programFrom (endOfInput {} ts) [] ts := by
  have htake : ts.takeWhile (fun t => t.token ≠ .finish) = ts := by
    simpa [List.takeWhile_eq_self_iff] using h
  rw [Program.ofTokens, htake]

/-- Only the tokens from some place on say where the input ends. -/
theorem endOfInput_append (h : ∀ t ∈ ts, t.token ≠ .finish) (last last' : Position) (u : Located) :
    endOfInput last (ts ++ u :: us) = endOfInput last' (u :: us) := by
  induction ts generalizing last with
  | nil => rfl
  | cons t ts ih =>
      obtain ⟨ht, hts⟩ := List.forall_mem_cons.1 h
      rw [List.cons_append, endOfInput, if_neg ht]
      exact ih hts t.position

end

end Parser

/-- Tokens that spell a program, a semicolon and more tokens spell what the latter do alone,
behind the statements of the program; and where the latter are refused, the whole is refused with
the same fault at the same place. -/
theorem Program.ofTokens_semicolon {ts us : List Located} {program : Program}
    (hts : ∀ t ∈ ts, t.token ≠ .finish) (hus : ∀ t ∈ us, t.token ≠ .finish)
    (h : Program.ofTokens ts = .ok program) (place : Position) :
    Program.ofTokens (ts ++ ⟨.semicolon, place⟩ :: us) =
      (Program.ofTokens us).map (program ++ ·) := by
  have hreads : Parser.ReadsProgram (Parser.words ts) program := by
    have hwords := Parser.ofTokens_eq_ok.1 h
    rwa [List.takeWhile_eq_self_iff.2] at hwords
    simpa [Parser.words] using hts
  have hall : ∀ t ∈ ts ++ ⟨.semicolon, place⟩ :: us, t.token ≠ .finish := by
    simp only [List.mem_append, List.mem_cons]
    rintro t (ht | rfl | ht)
    · exact hts t ht
    · simp
    · exact hus t ht
  have hstop : Parser.endOfInput {} (ts ++ ⟨.semicolon, place⟩ :: us) =
      Parser.endOfInput place us := by
    rw [Parser.endOfInput_append hts {} {}, Parser.endOfInput, if_neg (by simp)]
  have hprogram := Parser.programFrom_eq_map (Parser.endOfInput place us) [] program.reverse us
  rw [List.nil_append, List.reverse_reverse] at hprogram
  rw [Parser.ofTokens_of_unfinished hall, hstop, Parser.programFrom_append hreads, List.append_nil,
    hprogram, Parser.ofTokens_of_unfinished hus]
  -- the place of the semicolon counts only if nothing follows, and then there is no fault
  cases us with
  | nil => simp [Parser.programFrom]
  | cons u us => rfl

/-- A conditional that could go on with an `else`, and a list that is not closed. -/
def Program.openEnded : List Located × List Located :=
  ([⟨.ifWord, ⟨1, 1⟩⟩, ⟨.leftParen, ⟨1, 4⟩⟩, ⟨.ident "x", ⟨1, 5⟩⟩, ⟨.rightParen, ⟨1, 6⟩⟩,
      ⟨.leftBrace, ⟨1, 8⟩⟩, ⟨.ident "y", ⟨1, 10⟩⟩, ⟨.rightBrace, ⟨1, 12⟩⟩],
    [⟨.letWord, ⟨2, 1⟩⟩, ⟨.ident "z", ⟨2, 5⟩⟩, ⟨.assign, ⟨2, 7⟩⟩, ⟨.leftBracket, ⟨2, 9⟩⟩,
      ⟨.int 1, ⟨2, 10⟩⟩, ⟨.comma, ⟨2, 11⟩⟩])

theorem Program.ofTokens_semicolon_openEnded :
    (∀ t ∈ openEnded.1, t.token ≠ .finish) ∧ (∀ t ∈ openEnded.2, t.token ≠ .finish) ∧
      Program.ofTokens openEnded.1 =
        .ok [.expr (.cond (.ident "x") [.expr (.ident "y")] none)] ∧
      Program.ofTokens (openEnded.1 ++ ⟨.semicolon, ⟨1, 13⟩⟩ :: openEnded.2) =
        .error ⟨.expectedExpression .finish, ⟨2, 11⟩⟩ := by
  have hfront : ∀ t ∈ openEnded.1, t.token ≠ .finish := by decide
  have hback : ∀ t ∈ openEnded.2, t.token ≠ .finish := by decide
  have hprogram : Program.ofTokens openEnded.1 =
      .ok [.expr (.cond (.ident "x") [.expr (.ident "y")] none)] := by cbv
  have hfault : Program.ofTokens openEnded.2 = .error ⟨.expectedExpression .finish, ⟨2, 11⟩⟩ := by
    cbv
  refine ⟨hfront, hback, hprogram, ?_⟩
  rw [Program.ofTokens_semicolon hfront hback hprogram, hfault]
  rfl

end Monkey
