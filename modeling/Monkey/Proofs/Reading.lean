import Mathlib
import Monkey.Syntax.Parser

/-!
# What the parser reads

`Reads phrase ts tree rest` says that the words `ts` start with a phrase that spells `tree`, and
that `rest` is left over. It has one rule for each way in which a parser can succeed, it knows no
places, and the loops of the parser have no accumulators in it. The theorems `reads_statement` to
`reads_pairs` say that every success is one of these, and `takes_of_reads` says that each of these
is a success; `ofTokens_eq_ok` sums up both for whole programs. What holds of every parse is then an
induction over `Reads`, and nothing else looks into the parser.
-/

namespace Monkey

namespace Token

/-- The operators before an operand. -/
def unary : List Token :=
  [.bang, .minus]

/-- The operators between two operands. -/
def binary : List Token :=
  [.plus, .minus, .asterisk, .slash, .less, .greater, .equal, .notEqual]

/-- The words that an expression can start with. -/
def opens : Token → Bool
  | .int _ | .str _ | .ident _ | .fnWord | .trueWord | .falseWord | .ifWord | .minus | .bang
  | .leftParen | .leftBrace | .leftBracket => true
  | _ => false

/-- The word to come, or `finish`. -/
def next (ts : List Token) : Token :=
  ts.headD .finish

@[simp] theorem next_cons (t : Token) (ts : List Token) : next (t :: ts) = t := rfl

/-- Passes over a semicolon, if one comes next. -/
def skipSemicolon : List Token → List Token
  | .semicolon :: ts => ts
  | ts => ts

/-- Names with commas between them. -/
def names (xs : List String) : List Token :=
  (xs.map .ident).intersperse .comma

theorem mem_binary {t : Token} (hrank : 0 < (Precedence.ofToken t).rank) (hparen : t ≠ .leftParen)
    (hbracket : t ≠ .leftBracket) : t ∈ binary := by
  cases t with
  | plus | minus | asterisk | slash | less | greater | equal | notEqual => decide
  | leftParen => exact absurd rfl hparen
  | leftBracket => exact absurd rfl hbracket
  | _ => exact absurd hrank (Nat.lt_irrefl 0)

end Token

namespace Parser

/-- What a parser is asked for. -/
inductive Phrase where
  | statement
  | statements
  | block
  | expression (least : Precedence)
  | operators (least : Precedence) (left : Expr)
  | operand
  | items (close : Token)
  | moreItems (close : Token)
  | pairs

/-- What a parser answers with. -/
inductive Tree where
  | stmt (s : Stmt)
  | block (b : Block)
  | expr (e : Expr)
  | exprs (es : List Expr)
  | entries (es : List (Expr × Expr))

/-- The words `ts` start with a phrase that spells the tree, and go on with `rest`. -/
inductive Reads : Phrase → List Token → Tree → List Token → Prop
  | bind {x ts e rest} :
      Reads (.expression .lowest) ts (.expr e) rest →
      Reads .statement (.letWord :: .ident x :: .assign :: ts) (.stmt (.bind x (e.named x)))
        (Token.skipSemicolon rest)
  | ret {ts e rest} :
      Reads (.expression .lowest) ts (.expr e) rest →
      Reads .statement (.returnWord :: ts) (.stmt (.ret e)) (Token.skipSemicolon rest)
  | value {ts e rest} :
      Reads (.expression .lowest) ts (.expr e) rest →
      Reads .statement ts (.stmt (.expr e)) (Token.skipSemicolon rest)
  | close {rest} :
      Reads .statements (.rightBrace :: rest) (.block []) rest
  | stray {ts b rest} :
      Reads .statements ts (.block b) rest →
      Reads .statements (.semicolon :: ts) (.block b) rest
  | next {ts s mid b rest} :
      Reads .statement ts (.stmt s) mid → Reads .statements mid (.block b) rest →
      Reads .statements ts (.block (s :: b)) rest
  | block {ts b rest} :
      Reads .statements ts (.block b) rest → Reads .block (.leftBrace :: ts) (.block b) rest
  | expression {least ts left mid e rest} :
      Reads .operand ts (.expr left) mid → Reads (.operators least left) mid (.expr e) rest →
      Reads (.expression least) ts (.expr e) rest
  | done {least left ts} :
      (Precedence.ofToken (Token.next ts)).rank ≤ least.rank →
      Reads (.operators least left) ts (.expr left) ts
  | infixOp {least left op ts right mid e rest} :
      op ∈ Token.binary → least.rank < (Precedence.ofToken op).rank →
      Reads (.expression (.ofToken op)) ts (.expr right) mid →
      Reads (.operators least (.infixOp op.text left right)) mid (.expr e) rest →
      Reads (.operators least left) (op :: ts) (.expr e) rest
  | call {least left ts args mid e rest} :
      least.rank < Precedence.call.rank →
      Reads (.items .rightParen) ts (.exprs args) mid →
      Reads (.operators least (.call left args)) mid (.expr e) rest →
      Reads (.operators least left) (.leftParen :: ts) (.expr e) rest
  | index {least left ts position mid e rest} :
      least.rank < Precedence.index.rank →
      Reads (.expression .lowest) ts (.expr position) (.rightBracket :: mid) →
      Reads (.operators least (.index left position)) mid (.expr e) rest →
      Reads (.operators least left) (.leftBracket :: ts) (.expr e) rest
  | ident {x rest} : Reads .operand (.ident x :: rest) (.expr (.ident x)) rest
  | int {n rest} : Reads .operand (.int n :: rest) (.expr (.int n)) rest
  | str {text rest} : Reads .operand (.str text :: rest) (.expr (.str text)) rest
  | yes {rest} : Reads .operand (.trueWord :: rest) (.expr (.bool true)) rest
  | no {rest} : Reads .operand (.falseWord :: rest) (.expr (.bool false)) rest
  | prefixOp {op ts e rest} :
      op ∈ Token.unary → Reads (.expression .prefixed) ts (.expr e) rest →
      Reads .operand (op :: ts) (.expr (.prefixOp op.text e)) rest
  | group {ts e rest} :
      Reads (.expression .lowest) ts (.expr e) (.rightParen :: rest) →
      Reads .operand (.leftParen :: ts) (.expr e) rest
  | cond {ts c mid b rest} :
      Reads (.expression .lowest) ts (.expr c) (.rightParen :: mid) →
      Reads .block mid (.block b) rest → Token.next rest ≠ .elseWord →
      Reads .operand (.ifWord :: .leftParen :: ts) (.expr (.cond c b none)) rest
  | condElse {ts c mid b mid' b' rest} :
      Reads (.expression .lowest) ts (.expr c) (.rightParen :: mid) →
      Reads .block mid (.block b) (.elseWord :: mid') → Reads .block mid' (.block b') rest →
      Reads .operand (.ifWord :: .leftParen :: ts) (.expr (.cond c b (some b'))) rest
  | function {xs ts b rest} :
      Reads .block ts (.block b) rest →
      Reads .operand (.fnWord :: .leftParen :: (Token.names xs ++ .rightParen :: ts))
        (.expr (.function xs b none)) rest
  | array {ts es rest} :
      Reads (.items .rightBracket) ts (.exprs es) rest →
      Reads .operand (.leftBracket :: ts) (.expr (.array es)) rest
  | hash {ts es rest} :
      Reads .pairs ts (.entries es) rest →
      Reads .operand (.leftBrace :: ts) (.expr (.hash es)) rest
  | noItems {close rest} : Reads (.items close) (close :: rest) (.exprs []) rest
  | someItems {close ts es rest} :
      Token.next ts ≠ close → Reads (.moreItems close) ts (.exprs es) rest →
      Reads (.items close) ts (.exprs es) rest
  | lastItem {close ts e rest} :
      close ≠ .comma → Reads (.expression .lowest) ts (.expr e) (close :: rest) →
      Reads (.moreItems close) ts (.exprs [e]) rest
  | nextItem {close ts e mid es rest} :
      Reads (.expression .lowest) ts (.expr e) (.comma :: mid) →
      Reads (.moreItems close) mid (.exprs es) rest →
      Reads (.moreItems close) ts (.exprs (e :: es)) rest
  | noPairs {rest} : Reads .pairs (.rightBrace :: rest) (.entries []) rest
  | lastPair {ts k mid v rest} :
      Reads (.expression .lowest) ts (.expr k) (.colon :: mid) →
      Reads (.expression .lowest) mid (.expr v) (.rightBrace :: rest) →
      Reads .pairs ts (.entries [(k, v)]) rest
  | nextPair {ts k mid v mid' es rest} :
      Reads (.expression .lowest) ts (.expr k) (.colon :: mid) →
      Reads (.expression .lowest) mid (.expr v) (.comma :: mid') →
      Reads .pairs mid' (.entries es) rest →
      Reads .pairs ts (.entries ((k, v) :: es)) rest

/-- The words that a phrase can start with. -/
def Phrase.Begins : Phrase → Token → Prop
  | .expression _, t | .operand, t | .moreItems _, t => t.opens
  | .statement, t => t = .letWord ∨ t = .returnWord ∨ t.opens
  | _, _ => True

theorem Reads.begins {phrase ts tree rest} (h : Reads phrase ts tree rest) :
    phrase.Begins (Token.next ts) := by
  induction h with
  | bind => exact .inl rfl
  | ret => exact .inr (.inl rfl)
  | value _ ih => exact .inr (.inr ih)
  | expression _ _ ih | lastItem _ _ ih | nextItem _ _ ih => exact ih
  | ident | int | str | yes | no | group | cond | condElse | function | array | hash => rfl
  | prefixOp hop =>
      rcases List.mem_pair.1 hop with rfl | rfl <;> rfl
  | _ => trivial

theorem Reads.begins_statement {ts tree rest} (h : Reads .statement ts tree rest) :
    Token.next ts ≠ .rightBrace ∧ Token.next ts ≠ .semicolon := by
  constructor
  all_goals
    intro heq
    have hbegins := h.begins
    rw [heq] at hbegins
    rcases hbegins with h | h | h <;> cases h

theorem Reads.begins_expression {least ts tree rest} (h : Reads (.expression least) ts tree rest) :
    Token.next ts ≠ .rightBrace := by
  intro heq
  have hbegins := h.begins
  rw [heq] at hbegins
  cases hbegins

/-! ## Words are taken in order -/

/-- What is left over comes after the words taken, and the end of the input is not taken. -/
def Consumes (ts rest : List Token) : Prop :=
  ∃ taken, ts = taken ++ rest ∧ .finish ∉ taken

section

variable {t : Token} {ts mid rest : List Token}

theorem Consumes.refl (ts : List Token) : Consumes ts ts :=
  ⟨[], rfl, List.not_mem_nil⟩

theorem Consumes.trans (h₁ : Consumes ts mid) (h₂ : Consumes mid rest) : Consumes ts rest := by
  obtain ⟨taken₁, rfl, hfinish₁⟩ := h₁
  obtain ⟨taken₂, rfl, hfinish₂⟩ := h₂
  refine ⟨taken₁ ++ taken₂, (List.append_assoc ..).symm, ?_⟩
  simp [hfinish₁, hfinish₂]

theorem Consumes.cons (h : Consumes ts rest) (ht : t ≠ .finish) : Consumes (t :: ts) rest := by
  obtain ⟨taken, rfl, hfinish⟩ := h
  refine ⟨t :: taken, rfl, ?_⟩
  simp [hfinish, ht.symm]

theorem Consumes.past (h : Consumes ts (t :: rest)) (ht : t ≠ .finish) : Consumes ts rest :=
  h.trans ((Consumes.refl rest).cons ht)

theorem Consumes.skip (h : Consumes ts rest) : Consumes ts (Token.skipSemicolon rest) := by
  unfold Token.skipSemicolon
  split
  · exact h.past (by decide)
  · exact h

theorem Consumes.names (h : Consumes ts rest) (xs : List String) :
    Consumes (Token.names xs ++ ts) rest := by
  induction xs with
  | nil => exact h
  | cons x xs ih =>
      cases xs with
      | nil => exact h.cons (by simp)
      | cons y ys => exact (ih.cons (by simp)).cons (by simp)

/-- The word that ends a list is not the end of the input. -/
def Phrase.Closed : Phrase → Prop
  | .items close | .moreItems close => close ≠ .finish
  | _ => True

theorem Reads.consumes {phrase tree} (h : Reads phrase ts tree rest) :
    phrase.Closed → Consumes ts rest := by
  induction h with
  | bind _ ih =>
      exact fun _ => (((ih trivial).skip.cons (by simp)).cons (by simp)).cons (by simp)
  | ret _ ih => exact fun _ => (ih trivial).skip.cons (by simp)
  | value _ ih => exact fun _ => (ih trivial).skip
  | close | ident | int | str | yes | no | noPairs =>
      exact fun _ => (Consumes.refl _).cons (by simp)
  | stray _ ih | block _ ih | hash _ ih => exact fun _ => (ih trivial).cons (by simp)
  | array _ ih => exact fun _ => (ih (by simp [Phrase.Closed])).cons (by simp)
  | next _ _ ih₁ ih₂ | expression _ _ ih₁ ih₂ => exact fun _ => (ih₁ trivial).trans (ih₂ trivial)
  | done => exact fun _ => .refl _
  | infixOp hop _ _ _ ih₁ ih₂ =>
      have hfinish := ne_of_mem_of_not_mem hop (by decide : Token.finish ∉ Token.binary)
      exact fun _ => ((ih₁ trivial).trans (ih₂ trivial)).cons hfinish
  | call _ _ _ ih₁ ih₂ =>
      exact fun _ => ((ih₁ (by simp [Phrase.Closed])).trans (ih₂ trivial)).cons (by simp)
  | index _ _ _ ih₁ ih₂ =>
      exact fun _ => (((ih₁ trivial).past (by simp)).trans (ih₂ trivial)).cons (by simp)
  | prefixOp hop _ ih =>
      have hfinish := ne_of_mem_of_not_mem hop (by decide : Token.finish ∉ Token.unary)
      exact fun _ => (ih trivial).cons hfinish
  | group _ ih => exact fun _ => ((ih trivial).past (by simp)).cons (by simp)
  | cond _ _ _ ih₁ ih₂ =>
      exact fun _ => ((((ih₁ trivial).past (by simp)).trans (ih₂ trivial)).cons (by simp)).cons
        (by simp)
  | condElse _ _ _ ih₁ ih₂ ih₃ =>
      intro _
      have hblocks := ((ih₂ trivial).past (by simp)).trans (ih₃ trivial)
      exact ((((ih₁ trivial).past (by simp)).trans hblocks).cons (by simp)).cons (by simp)
  | function _ ih =>
      exact fun _ => ((((ih trivial).cons (by simp)).names _).cons (by simp)).cons (by simp)
  | noItems => exact fun hclose => (Consumes.refl _).cons hclose
  | someItems _ _ ih => exact ih
  | lastItem _ _ ih => exact fun hclose => (ih trivial).past hclose
  | nextItem _ _ ih₁ ih₂ => exact fun hclose => ((ih₁ trivial).past (by simp)).trans (ih₂ hclose)
  | lastPair _ _ ih₁ ih₂ =>
      exact fun _ => ((ih₁ trivial).past (by simp)).trans ((ih₂ trivial).past (by simp))
  | nextPair _ _ _ ih₁ ih₂ ih₃ =>
      exact fun _ => ((ih₁ trivial).past (by simp)).trans
        (((ih₂ trivial).past (by simp)).trans (ih₃ trivial))

end

/-! ## Results -/

/-- A parser succeeds with a value and leaves `rest`. -/
def Yields {α : Type} {ts : List Located} (r : Result α ts) (v : α) (rest : List Located) : Prop :=
  ∃ h, r = .ok ⟨v, rest, h⟩

/-- Tokens without their places. -/
def words (ts : List Located) : List Token :=
  ts.map (·.token)

/-- Words with places, each one's place given by the number of words after it. -/
def located (places : Nat → Position) : List Token → List Located
  | [] => []
  | t :: ts => ⟨t, places ts.length⟩ :: located places ts

section

variable {α β : Type} {stop : Position} {start ts rest rest' : List Located} {t : Token} {v : α}
  {w : β} {places : Nat → Position}

@[simp] theorem words_cons (t : Located) (ts : List Located) :
    words (t :: ts) = t.token :: words ts := rfl

@[simp] theorem words_located (us : List Token) : words (located places us) = us := by
  induction us with
  | nil => rfl
  | cons t us ih => rw [located, words_cons, ih]

theorem located_congr {places' : Nat → Position} {us : List Token}
    (h : ∀ n < us.length, places n = places' n) : located places us = located places' us := by
  induction us with
  | nil => rfl
  | cons t us ih =>
      rw [located, located, h us.length (Nat.lt_succ_self _),
        ih fun n hn => h n (Nat.lt_succ_of_lt hn)]

theorem exists_located (ts : List Located) : ∃ places, ts = located places (words ts) := by
  induction ts with
  | nil => exact ⟨fun _ => {}, rfl⟩
  | cons t ts ih =>
      obtain ⟨places, hplaces⟩ := ih
      refine ⟨fun n => if n = (words ts).length then t.position else places n, ?_⟩
      rw [words_cons, located, if_pos rfl]
      conv_lhs => rw [hplaces]
      congr 1
      exact located_congr fun n hn => (if_neg hn.ne).symm

theorem peek_eq (ts : List Located) : peek ts = Token.next (words ts) := by
  cases ts <;> rfl

theorem peek_located (us : List Token) : peek (located places us) = Token.next us := by
  cases us <;> rfl

theorem skipSemicolon_located (us : List Token) :
    skipSemicolon (located places us) = located places (Token.skipSemicolon us) := by
  cases us with
  | nil => rfl
  | cons t us =>
      by_cases h : t = .semicolon
      · rw [located, skipSemicolon, if_pos h, h]
        rfl
      · rw [located, skipSemicolon, if_neg h, Token.skipSemicolon, located]
        exact fun ts' heq => h (List.cons.inj heq).1

theorem words_skipSemicolon (ts : List Located) :
    words (skipSemicolon ts) = Token.skipSemicolon (words ts) := by
  obtain ⟨places, hplaces⟩ := exists_located ts
  rw [hplaces, skipSemicolon_located, words_located, words_located]

theorem yields_bind {x : Result α ts} {f : Parsed α ts → Result β start} :
    Yields (x >>= f) w rest' ↔
      ∃ v rest h, Yields x v rest ∧ Yields (f ⟨v, rest, h⟩) w rest' := by
  cases x with
  | error e =>
      constructor
      · rintro ⟨_, ⟨⟩⟩
      · rintro ⟨_, _, _, ⟨_, ⟨⟩⟩, _⟩
  | ok p =>
      refine ⟨fun h => ⟨p.value, p.rest, p.shorter, ⟨p.shorter, rfl⟩, h⟩, ?_⟩
      rintro ⟨v, rest, _, ⟨_, ⟨⟩⟩, hf⟩
      exact hf

theorem Yields.bind {x : Result α ts} {f : Parsed α ts → Result β start} (hx : Yields x v rest)
    (hf : ∀ h, Yields (f ⟨v, rest, h⟩) w rest') : Yields (x >>= f) w rest' :=
  yields_bind.2 ⟨v, rest, hx.choose, hx, hf _⟩

theorem words_of_expect {u : Unit} (he : Yields (expect stop t ts) u rest) :
    words ts = t :: words rest := by
  obtain ⟨h, he⟩ := he
  cases ts with
  | nil => cases he
  | cons t' ts =>
      rw [expect] at he
      split at he
      · next heq =>
          cases he
          rw [words_cons, heq]
      · cases he

theorem yields_expect (p : Position) : Yields (expect stop t (⟨t, p⟩ :: rest)) () rest := by
  rw [expect, if_pos rfl]
  exact ⟨_, rfl⟩

theorem words_of_identifier {x : String} (he : Yields (identifier stop ts) x rest) :
    words ts = .ident x :: words rest := by
  unfold identifier at he
  split at he
  · obtain ⟨_, ⟨⟩⟩ := he
    rfl
  · obtain ⟨_, ⟨⟩⟩ := he
  · obtain ⟨_, ⟨⟩⟩ := he

theorem next_ne (ht : t ≠ .finish) (h : ∀ p ts', ts = ⟨t, p⟩ :: ts' → False) :
    Token.next (words ts) ≠ t := by
  intro heq
  cases ts with
  | nil => exact ht heq.symm
  | cons t' ts' => exact h t'.position ts' (by rw [← heq]; rfl)

end

/-! ## Parameter lists -/

section

variable {stop : Position} {places : Nat → Position} {us : List Token}

theorem names_of_parameters {start ts rest : List Located} {done xs : List String}
    {within : ts.length ≤ start.length}
    (he : Yields (parameters stop start done ts within) xs rest) :
    ∃ y ys, xs = done.reverse ++ y :: ys ∧
      words ts = Token.names (y :: ys) ++ .rightParen :: words rest := by
  rw [parameters] at he
  obtain ⟨x, ts1, h1, hx, he⟩ := yields_bind.1 he
  have hword := words_of_identifier hx
  dsimp only at he
  split at he
  · next p ts2 h1 =>
      have hlen : ts2.length < ts.length := Nat.lt_of_succ_lt h1
      obtain ⟨y, ys, rfl, hwords⟩ := names_of_parameters he
      exact ⟨x, y :: ys, by simp, by rw [hword, words_cons, hwords]; rfl⟩
  · obtain ⟨_, ts2, h2, hparen, he⟩ := yields_bind.1 he
    obtain ⟨_, ⟨⟩⟩ := he
    exact ⟨x, [], by simp, by rw [hword, words_of_expect hparen]; rfl⟩
termination_by ts.length
decreasing_by exact hlen

theorem names_of_parameterList {ts rest : List Located} {xs : List String}
    (he : Yields (parameterList stop ts) xs rest) :
    words ts = .leftParen :: (Token.names xs ++ .rightParen :: words rest) := by
  rw [parameterList] at he
  obtain ⟨_, ts1, h1, hparen, he⟩ := yields_bind.1 he
  rw [words_of_expect hparen]
  dsimp only at he
  split at he
  · obtain ⟨_, ⟨⟩⟩ := he
    rfl
  · obtain ⟨y, ys, rfl, hwords⟩ := names_of_parameters he
    rw [hwords]
    rfl

theorem yields_parameters (stop : Position) (x : String) (xs : List String) (start : List Located)
    (done : List String)
    (within : (located places (Token.names (x :: xs) ++ .rightParen :: us)).length ≤ start.length) :
    Yields (parameters stop start done _ within) (done.reverse ++ x :: xs) (located places us) := by
  induction xs generalizing x done with
  | nil =>
      rw [parameters, ← List.reverse_cons]
      exact .bind ⟨_, rfl⟩ fun _ => .bind (yields_expect _) fun _ => ⟨_, rfl⟩
  | cons y ys ih =>
      rw [parameters, List.append_cons done.reverse, ← List.reverse_cons]
      exact .bind ⟨_, rfl⟩ fun _ => ih y (x :: done) _

theorem yields_parameterList (stop : Position) (xs : List String) :
    Yields (parameterList stop (located places
      (.leftParen :: (Token.names xs ++ .rightParen :: us)))) xs (located places us) := by
  rw [parameterList]
  refine .bind (yields_expect _) fun h => ?_
  cases xs with
  | nil => exact ⟨_, rfl⟩
  | cons x xs =>
      have hrest := yields_parameters stop x xs _ [] h.le
      cases xs <;> exact hrest

end

/-! ## Every parse is a reading -/

section

variable {stop : Position}

-- The recursion is that of the parsers, with their own measure. The accumulator of a loop is taken
-- off the front of what the loop returns.
mutual

theorem reads_statement {ts rest : List Located} {s : Stmt}
    (he : Yields (statement stop ts) s rest) :
    Reads .statement (words ts) (.stmt s) (words rest) := by
  unfold statement at he
  split at he
  · obtain ⟨x, ts2, h2, hx, he⟩ := yields_bind.1 he
    obtain ⟨_, ts3, h3, hassign, he⟩ := yields_bind.1 he
    obtain ⟨e, ts4, h4, hvalue, he⟩ := yields_bind.1 he
    obtain ⟨_, ⟨⟩⟩ := he
    rw [words_cons, words_of_identifier hx, words_of_expect hassign, words_skipSemicolon]
    exact .bind (reads_expression hvalue)
  · obtain ⟨e, ts2, h2, hvalue, he⟩ := yields_bind.1 he
    obtain ⟨_, ⟨⟩⟩ := he
    rw [words_skipSemicolon]
    exact .ret (reads_expression hvalue)
  · obtain ⟨e, ts1, h1, hvalue, he⟩ := yields_bind.1 he
    obtain ⟨_, ⟨⟩⟩ := he
    rw [words_skipSemicolon]
    exact .value (reads_expression hvalue)
termination_by 4 * ts.length + 2
decreasing_by
  · subst_vars
    simp only [List.length_cons]
    omega
  · subst_vars
    simp only [List.length_cons]
    omega
  · omega

theorem reads_statements {start ts rest : List Located} {done b : List Stmt}
    {within : ts.length ≤ start.length}
    (he : Yields (statements stop start done ts within) b rest) :
    ∃ b', b = done.reverse ++ b' ∧ Reads .statements (words ts) (.block b') (words rest) := by
  unfold statements at he
  split at he
  · obtain ⟨_, ⟨⟩⟩ := he
  · next t ts₁ _ =>
      split at he
      · next ht =>
          obtain ⟨_, ⟨⟩⟩ := he
          rw [words_cons, ht]
          exact ⟨[], (List.append_nil _).symm, .close⟩
      · split at he
        · next ht =>
            obtain ⟨b', rfl, hb'⟩ := reads_statements he
            rw [words_cons, ht]
            exact ⟨b', rfl, .stray hb'⟩
        · obtain ⟨s, ts1, h1, hs, he⟩ := yields_bind.1 he
          have hlen : ts1.length ≤ ts₁.length := Nat.le_of_lt_succ h1
          obtain ⟨b', rfl, hb'⟩ := reads_statements he
          exact ⟨s :: b', by simp, .next (reads_statement hs) hb'⟩
termination_by 4 * ts.length + 3
decreasing_by
  all_goals
    subst_vars
    simp only [List.length_cons]
    omega

theorem reads_block {ts rest : List Located} {b : Block} (he : Yields (block stop ts) b rest) :
    Reads .block (words ts) (.block b) (words rest) := by
  rw [block] at he
  obtain ⟨_, ts1, h1, hbrace, he⟩ := yields_bind.1 he
  obtain ⟨b', rfl, hb'⟩ := reads_statements he
  rw [words_of_expect hbrace]
  exact .block hb'
termination_by 4 * ts.length
decreasing_by omega

theorem reads_expression {ts rest : List Located} {least : Precedence} {e : Expr}
    (he : Yields (expression stop least ts) e rest) :
    Reads (.expression least) (words ts) (.expr e) (words rest) := by
  rw [expression] at he
  obtain ⟨left, ts1, h1, hleft, he⟩ := yields_bind.1 he
  exact .expression (reads_operand hleft) (reads_operators he)
termination_by 4 * ts.length + 1
decreasing_by all_goals omega

theorem reads_operators {start ts rest : List Located} {least : Precedence} {left e : Expr}
    {within : ts.length < start.length}
    (he : Yields (operators stop start least left ts within) e rest) :
    Reads (.operators least left) (words ts) (.expr e) (words rest) := by
  rw [operators] at he
  split at he
  · next hlt =>
      obtain ⟨mid, ts1, h1, hmid, he⟩ := yields_bind.1 he
      have hrest := reads_operators he
      unfold application at hmid
      split at hmid
      · obtain ⟨args, ts2, h2, hargs, hmid⟩ := yields_bind.1 hmid
        obtain ⟨_, ⟨⟩⟩ := hmid
        exact .call hlt (reads_items hargs) hrest
      · obtain ⟨position, ts2, h2, hposition, hmid⟩ := yields_bind.1 hmid
        obtain ⟨_, ts3, h3, hclose, hmid⟩ := yields_bind.1 hmid
        obtain ⟨_, ⟨⟩⟩ := hmid
        exact .index hlt (words_of_expect hclose ▸ reads_expression hposition) hrest
      · next t ts₁ hparen hbracket _ =>
          obtain ⟨right, ts2, h2, hright, hmid⟩ := yields_bind.1 hmid
          obtain ⟨_, ⟨⟩⟩ := hmid
          have hop : t.token ∈ Token.binary :=
            Token.mem_binary (Nat.zero_lt_of_lt hlt) (fun h => hparen t.position (by rw [← h]))
              (fun h => hbracket t.position (by rw [← h]))
          exact .infixOp hop hlt (reads_expression hright) hrest
      · obtain ⟨_, ⟨⟩⟩ := hmid
  · next hle =>
      obtain ⟨_, ⟨⟩⟩ := he
      rw [peek_eq] at hle
      exact .done (Nat.le_of_not_lt hle)
termination_by 4 * ts.length + 1
decreasing_by
  · omega
  all_goals
    subst_vars
    simp only [List.length_cons]
    omega

theorem reads_operand {ts rest : List Located} {e : Expr}
    (he : Yields (operand stop ts) e rest) :
    Reads .operand (words ts) (.expr e) (words rest) := by
  unfold operand at he
  split at he
  · obtain ⟨_, ⟨⟩⟩ := he
    exact .ident
  · obtain ⟨_, ⟨⟩⟩ := he
    exact .int
  · obtain ⟨_, ⟨⟩⟩ := he
    exact .str
  · obtain ⟨_, ⟨⟩⟩ := he
    exact .yes
  · obtain ⟨_, ⟨⟩⟩ := he
    exact .no
  · obtain ⟨e, ts2, h2, he', he⟩ := yields_bind.1 he
    obtain ⟨_, ⟨⟩⟩ := he
    have hop : Token.bang ∈ Token.unary := by decide
    exact .prefixOp hop (reads_expression he')
  · obtain ⟨e, ts2, h2, he', he⟩ := yields_bind.1 he
    obtain ⟨_, ⟨⟩⟩ := he
    have hop : Token.minus ∈ Token.unary := by decide
    exact .prefixOp hop (reads_expression he')
  · obtain ⟨e, ts2, h2, he', he⟩ := yields_bind.1 he
    obtain ⟨_, ts3, h3, hclose, he⟩ := yields_bind.1 he
    obtain ⟨_, ⟨⟩⟩ := he
    exact .group (words_of_expect hclose ▸ reads_expression he')
  · obtain ⟨_, ts2, h2, hparen, he⟩ := yields_bind.1 he
    obtain ⟨c, ts3, h3, hc, he⟩ := yields_bind.1 he
    obtain ⟨_, ts4, h4, hclose, he⟩ := yields_bind.1 he
    obtain ⟨b, ts5, h5, hb, he⟩ := yields_bind.1 he
    have hc' := reads_expression hc
    have hb' := reads_block hb
    rw [words_of_expect hclose] at hc'
    rw [words_cons, words_of_expect hparen]
    dsimp only at he
    split at he
    · next p ts6 h5 =>
        have hlen : ts6.length < ts4.length := Nat.lt_of_succ_lt h5
        obtain ⟨b', ts7, h7, hb₂, he⟩ := yields_bind.1 he
        obtain ⟨_, ⟨⟩⟩ := he
        exact .condElse hc' hb' (reads_block hb₂)
    · next hne =>
        obtain ⟨_, ⟨⟩⟩ := he
        exact .cond hc' hb' (next_ne (by decide) fun p ts' heq =>
          hne p ts' (heq ▸ h5) heq (proof_irrel_heq _ _))
  · obtain ⟨xs, ts2, h2, hxs, he⟩ := yields_bind.1 he
    obtain ⟨b, ts3, h3, hb, he⟩ := yields_bind.1 he
    obtain ⟨_, ⟨⟩⟩ := he
    rw [words_cons, names_of_parameterList hxs]
    exact .function (reads_block hb)
  · obtain ⟨es, ts2, h2, hes, he⟩ := yields_bind.1 he
    obtain ⟨_, ⟨⟩⟩ := he
    exact .array (reads_items hes)
  · obtain ⟨es, ts2, h2, hes, he⟩ := yields_bind.1 he
    obtain ⟨_, ⟨⟩⟩ := he
    obtain ⟨es', rfl, hes'⟩ := reads_pairs hes
    exact .hash hes'
  · obtain ⟨_, ⟨⟩⟩ := he
  · obtain ⟨_, ⟨⟩⟩ := he
termination_by 4 * ts.length
decreasing_by
  all_goals
    subst_vars
    simp only [List.length_cons]
    omega

theorem reads_items {ts rest : List Located} {close : Token} {es : List Expr}
    (he : Yields (items stop close ts) es rest) :
    Reads (.items close) (words ts) (.exprs es) (words rest) := by
  unfold items at he
  split at he
  · next t ts₁ _ =>
      split at he
      · next ht =>
          obtain ⟨_, ⟨⟩⟩ := he
          rw [words_cons, ht]
          exact .noItems
      · next ht =>
          obtain ⟨es', rfl, hes'⟩ := reads_moreItems he
          exact .someItems ht hes'
  · exact absurd he.choose (Nat.not_lt_zero _)
termination_by 4 * ts.length + 3
decreasing_by
  subst_vars
  omega

theorem reads_moreItems {start ts rest : List Located} {close : Token} {done es : List Expr}
    {within : ts.length ≤ start.length}
    (he : Yields (moreItems stop close start done ts within) es rest) :
    ∃ es', es = done.reverse ++ es' ∧
      Reads (.moreItems close) (words ts) (.exprs es') (words rest) := by
  rw [moreItems] at he
  obtain ⟨e, ts1, h1, he', he⟩ := yields_bind.1 he
  have hitem := reads_expression he'
  dsimp only at he
  split at he
  · next p ts2 h1 =>
      have hlen : ts2.length < ts.length := Nat.lt_of_succ_lt h1
      obtain ⟨es', rfl, hes'⟩ := reads_moreItems he
      exact ⟨e :: es', by simp, .nextItem hitem hes'⟩
  · next hne =>
      obtain ⟨_, ts2, h2, hclose, he⟩ := yields_bind.1 he
      obtain ⟨_, ⟨⟩⟩ := he
      have hcomma := next_ne (by decide) fun p ts' heq =>
        hne p ts' (heq ▸ h1) heq (proof_irrel_heq _ _)
      rw [words_of_expect hclose] at hitem hcomma
      exact ⟨[e], by simp, .lastItem hcomma hitem⟩
termination_by 4 * ts.length + 2
decreasing_by all_goals omega

theorem reads_pairs {start ts rest : List Located} {done es : List (Expr × Expr)}
    {within : ts.length ≤ start.length}
    (he : Yields (pairs stop start done ts within) es rest) :
    ∃ es', es = done.reverse ++ es' ∧ Reads .pairs (words ts) (.entries es') (words rest) := by
  unfold pairs at he
  split at he
  · obtain ⟨_, ⟨⟩⟩ := he
    exact ⟨[], (List.append_nil _).symm, .noPairs⟩
  · obtain ⟨k, ts1, h1, hk, he⟩ := yields_bind.1 he
    obtain ⟨_, ts2, h2, hcolon, he⟩ := yields_bind.1 he
    obtain ⟨v, ts3, h3, hv, he⟩ := yields_bind.1 he
    have hk' := reads_expression hk
    have hv' := reads_expression hv
    rw [words_of_expect hcolon] at hk'
    dsimp only at he
    split at he
    · obtain ⟨_, ⟨⟩⟩ := he
      exact ⟨[(k, v)], by simp, .lastPair hk' hv'⟩
    · obtain ⟨_, ts4, h4, hcomma, he⟩ := yields_bind.1 he
      rw [words_of_expect hcomma] at hv'
      obtain ⟨es', rfl, hes'⟩ := reads_pairs he
      exact ⟨(k, v) :: es', by simp, .nextPair hk' hv' hes'⟩
termination_by 4 * ts.length + 2
decreasing_by all_goals omega

end

end

/-! ## Every reading is a parse -/

/-- The parser of a phrase succeeds on `ts` with the tree, and leaves `rest`. The loops do so from
every accumulator. -/
def Phrase.Takes (stop : Position) (ts rest : List Located) : Phrase → Tree → Prop
  | .statement, .stmt s => Yields (Parser.statement stop ts) s rest
  | .statements, .block b => ∀ start done within,
      Yields (Parser.statements stop start done ts within) (done.reverse ++ b) rest
  | .block, .block b => Yields (Parser.block stop ts) b rest
  | .expression least, .expr e => Yields (Parser.expression stop least ts) e rest
  | .operators least left, .expr e => ∀ start within,
      Yields (Parser.operators stop start least left ts within) e rest
  | .operand, .expr e => Yields (Parser.operand stop ts) e rest
  | .items close, .exprs es => Yields (Parser.items stop close ts) es rest
  | .moreItems close, .exprs es => ∀ start done within,
      Yields (Parser.moreItems stop close start done ts within) (done.reverse ++ es) rest
  | .pairs, .entries es => ∀ start done within,
      Yields (Parser.pairs stop start done ts within) (done.reverse ++ es) rest
  | _, _ => False

section

variable {stop : Position} {ts ts' mid rest start : List Located} {least : Precedence}
  {left e e' k v : Expr} {close : Token}

theorem yields_value (hopens : (peek ts).opens) (he : Yields (expression stop .lowest ts) e rest) :
    Yields (statement stop ts) (.expr e) (skipSemicolon rest) := by
  unfold statement
  split
  · cases hopens
  · cases hopens
  · exact .bind he fun _ => ⟨_, rfl⟩

theorem yields_close {done : List Stmt} (p : Position)
    (within : (⟨.rightBrace, p⟩ :: rest : List Located).length ≤ start.length) :
    Yields (statements stop start done _ within) done.reverse rest := by
  rw [statements, if_pos rfl]
  exact ⟨_, rfl⟩

theorem yields_stray {done b : List Stmt} (p : Position)
    (hb : ∀ within, Yields (statements stop start done ts within) b rest)
    (within : (⟨.semicolon, p⟩ :: ts : List Located).length ≤ start.length) :
    Yields (statements stop start done _ within) b rest := by
  rw [statements, if_neg (by simp), if_pos rfl]
  exact hb _

theorem yields_next {s : Stmt} {done b : List Stmt} (hbrace : peek ts ≠ .rightBrace)
    (hsemicolon : peek ts ≠ .semicolon) (hs : Yields (statement stop ts) s mid)
    (hb : ∀ within, Yields (statements stop start (s :: done) mid within) b rest)
    (within : ts.length ≤ start.length) : Yields (statements stop start done ts within) b rest := by
  cases ts with
  | nil => exact absurd hs.choose (Nat.not_lt_zero _)
  | cons t ts =>
      rw [peek] at hbrace hsemicolon
      rw [statements, if_neg hbrace, if_neg hsemicolon]
      exact .bind hs fun _ => hb _

/-- The loop over operators goes on after one that holds tight enough. -/
theorem yields_operators (hlt : least.rank < (Precedence.ofToken (peek ts)).rank)
    (happ : Yields (application stop left ts) e mid)
    (hrest : ∀ start within, Yields (operators stop start least e mid within) e' rest)
    (within : ts.length < start.length) :
    Yields (operators stop start least left ts within) e' rest := by
  rw [operators, if_pos hlt]
  exact .bind happ fun _ => hrest _ _

theorem yields_call {args : List Expr} (p : Position)
    (h : Yields (items stop .rightParen ts) args rest) :
    Yields (application stop left (⟨.leftParen, p⟩ :: ts)) (.call left args) rest := by
  rw [application]
  exact .bind h fun _ => ⟨_, rfl⟩

theorem yields_index (p q : Position)
    (h : Yields (expression stop .lowest ts) e (⟨.rightBracket, q⟩ :: rest)) :
    Yields (application stop left (⟨.leftBracket, p⟩ :: ts)) (.index left e) rest := by
  rw [application]
  exact .bind h fun _ => .bind (yields_expect q) fun _ => ⟨_, rfl⟩

theorem yields_infixOp {op : Token} (p : Position) (hop : op ∈ Token.binary)
    (he : Yields (expression stop (Precedence.ofToken op) ts) e rest) :
    Yields (application stop left (⟨op, p⟩ :: ts)) (.infixOp op.text left e) rest := by
  rw [application]
  · exact .bind he fun _ => ⟨_, rfl⟩
  · rintro p ⟨⟩
    exact absurd hop (by decide)
  · rintro p ⟨⟩
    exact absurd hop (by decide)

theorem yields_cond {c : Expr} {b : Block} (p q r : Position)
    (hc : Yields (expression stop .lowest ts) c (⟨.rightParen, r⟩ :: mid))
    (hb : Yields (Parser.block stop mid) b rest) (helse : peek rest ≠ .elseWord) :
    Yields (operand stop (⟨.ifWord, p⟩ :: ⟨.leftParen, q⟩ :: ts)) (.cond c b none) rest := by
  rw [operand]
  refine .bind (yields_expect q) fun _ => .bind hc fun _ => .bind (yields_expect r) fun _ =>
    .bind hb fun _ => ?_
  dsimp only
  split
  · exact absurd rfl helse
  · exact ⟨_, rfl⟩

theorem yields_someItems {es : List Expr} (hne : peek ts ≠ close)
    (h : ∀ start within, Yields (moreItems stop close start [] ts within) es rest) :
    Yields (items stop close ts) es rest := by
  cases ts with
  | nil =>
      rw [items]
      exact h _ _
  | cons t ts =>
      rw [peek] at hne
      rw [items, if_neg hne]
      exact h _ _

theorem yields_lastItem {done : List Expr} (he : Yields (expression stop .lowest ts) e mid)
    (hcomma : peek mid ≠ .comma) (hclose : Yields (expect stop close mid) () rest)
    (within : ts.length ≤ start.length) :
    Yields (moreItems stop close start done ts within) (e :: done).reverse rest := by
  rw [moreItems]
  refine .bind he fun _ => ?_
  dsimp only
  split
  · exact absurd rfl hcomma
  · exact .bind hclose fun _ => ⟨_, rfl⟩

theorem yields_nextItem {done es : List Expr} (p : Position)
    (he : Yields (expression stop .lowest ts) e (⟨.comma, p⟩ :: mid))
    (hes : ∀ within, Yields (moreItems stop close start (e :: done) mid within) es rest)
    (within : ts.length ≤ start.length) :
    Yields (moreItems stop close start done ts within) es rest := by
  rw [moreItems]
  exact .bind he fun _ => hes _

theorem yields_noPairs {done : List (Expr × Expr)} (p : Position)
    (within : (⟨.rightBrace, p⟩ :: rest : List Located).length ≤ start.length) :
    Yields (pairs stop start done _ within) done.reverse rest := by
  rw [pairs]
  exact ⟨_, rfl⟩

theorem yields_lastPair {done : List (Expr × Expr)} (hbrace : peek ts ≠ .rightBrace)
    (p q : Position) (hk : Yields (expression stop .lowest ts) k (⟨.colon, p⟩ :: mid))
    (hv : Yields (expression stop .lowest mid) v (⟨.rightBrace, q⟩ :: rest))
    (within : ts.length ≤ start.length) :
    Yields (pairs stop start done ts within) ((k, v) :: done).reverse rest := by
  unfold pairs
  split
  · exact absurd rfl hbrace
  · exact .bind hk fun _ => .bind (yields_expect p) fun _ => .bind hv fun _ => ⟨_, rfl⟩

theorem yields_nextPair {done es : List (Expr × Expr)} (hbrace : peek ts ≠ .rightBrace)
    (p q : Position) (hk : Yields (expression stop .lowest ts) k (⟨.colon, p⟩ :: mid))
    (hv : Yields (expression stop .lowest mid) v (⟨.comma, q⟩ :: ts'))
    (hes : ∀ within, Yields (pairs stop start ((k, v) :: done) ts' within) es rest)
    (within : ts.length ≤ start.length) : Yields (pairs stop start done ts within) es rest := by
  unfold pairs
  split
  · exact absurd rfl hbrace
  · exact .bind hk fun _ => .bind (yields_expect p) fun _ => .bind hv fun _ =>
      .bind (yields_expect q) fun _ => hes _

theorem takes_of_reads (stop : Position) (places : Nat → Position) {phrase us tree vs}
    (h : Reads phrase us tree vs) :
    phrase.Takes stop (located places us) (located places vs) tree := by
  induction h with
  | bind _ ih =>
      rw [Phrase.Takes, located, located, located, statement, ← skipSemicolon_located]
      exact .bind ⟨_, rfl⟩ fun _ => .bind (yields_expect _) fun _ => .bind ih fun _ => ⟨_, rfl⟩
  | ret _ ih =>
      rw [Phrase.Takes, located, statement, ← skipSemicolon_located]
      exact .bind ih fun _ => ⟨_, rfl⟩
  | value hvalue ih =>
      rw [Phrase.Takes, ← skipSemicolon_located]
      exact yields_value (by rw [peek_located]; exact hvalue.begins) ih
  | close =>
      intro start done within
      rw [List.append_nil]
      exact yields_close _ within
  | stray _ ih =>
      intro start done within
      exact yields_stray _ (ih start done) within
  | next hs _ ih₁ ih₂ =>
      intro start done within
      obtain ⟨hbrace, hsemicolon⟩ := hs.begins_statement
      rw [List.append_cons, ← List.reverse_cons]
      exact yields_next (by rwa [peek_located]) (by rwa [peek_located]) ih₁ (ih₂ start _) within
  | block _ ih =>
      rw [Phrase.Takes, located, Parser.block]
      exact .bind (yields_expect _) fun _ => ih _ _ _
  | expression _ _ ih₁ ih₂ =>
      rw [Phrase.Takes, Parser.expression]
      exact .bind ih₁ fun _ => ih₂ _ _
  | done hle =>
      intro start within
      rw [operators, peek_located, if_neg hle.not_gt]
      exact ⟨_, rfl⟩
  | infixOp hop hlt _ _ ih₁ ih₂ =>
      intro start within
      exact yields_operators hlt (yields_infixOp _ hop ih₁) ih₂ within
  | call hlt _ _ ih₁ ih₂ =>
      intro start within
      exact yields_operators hlt (yields_call _ ih₁) ih₂ within
  | index hlt _ _ ih₁ ih₂ =>
      intro start within
      exact yields_operators hlt (yields_index _ _ ih₁) ih₂ within
  | ident | int | str | yes | no =>
      rw [Phrase.Takes, located, operand]
      exact ⟨_, rfl⟩
  | prefixOp hop _ ih =>
      rcases List.mem_pair.1 hop with rfl | rfl
      all_goals
        rw [Phrase.Takes, located, operand]
        exact .bind ih fun _ => ⟨_, rfl⟩
  | group _ ih =>
      rw [Phrase.Takes, located, operand]
      exact .bind ih fun _ => .bind (yields_expect _) fun _ => ⟨_, rfl⟩
  | cond _ _ hne ih₁ ih₂ =>
      exact yields_cond _ _ _ ih₁ ih₂ (by rwa [peek_located])
  | condElse _ _ _ ih₁ ih₂ ih₃ =>
      rw [Phrase.Takes, located, located, operand]
      exact .bind (yields_expect _) fun _ => .bind ih₁ fun _ => .bind (yields_expect _) fun _ =>
        .bind ih₂ fun _ => .bind ih₃ fun _ => ⟨_, rfl⟩
  | function _ ih =>
      rw [Phrase.Takes, located, operand]
      exact .bind (yields_parameterList stop _) fun _ => .bind ih fun _ => ⟨_, rfl⟩
  | array _ ih =>
      rw [Phrase.Takes, located, operand]
      exact .bind ih fun _ => ⟨_, rfl⟩
  | hash _ ih =>
      rw [Phrase.Takes, located, operand]
      exact .bind (ih _ _ _) fun _ => ⟨_, rfl⟩
  | noItems =>
      rw [Phrase.Takes, located, items, if_pos rfl]
      exact ⟨_, rfl⟩
  | someItems hne _ ih =>
      exact yields_someItems (by rwa [peek_located]) fun start within => ih start [] within
  | lastItem hclose _ ih =>
      intro start done within
      rw [← List.reverse_cons]
      exact yields_lastItem ih hclose (yields_expect _) within
  | nextItem _ _ ih₁ ih₂ =>
      intro start done within
      rw [List.append_cons, ← List.reverse_cons]
      exact yields_nextItem _ ih₁ (ih₂ start _) within
  | noPairs =>
      intro start done within
      rw [List.append_nil]
      exact yields_noPairs _ within
  | lastPair hk _ ih₁ ih₂ =>
      intro start done within
      rw [← List.reverse_cons]
      exact yields_lastPair (by rw [peek_located]; exact hk.begins_expression) _ _ ih₁ ih₂ within
  | nextPair hk _ _ ih₁ ih₂ ih₃ =>
      intro start done within
      rw [List.append_cons, ← List.reverse_cons]
      exact yields_nextPair (by rw [peek_located]; exact hk.begins_expression) _ _ ih₁ ih₂
        (ih₃ start _) within

end

/-! ## Programs -/

/-- The words spell a program. -/
inductive ReadsProgram : List Token → Program → Prop
  | done : ReadsProgram [] []
  | stray {ts program} : ReadsProgram ts program → ReadsProgram (.semicolon :: ts) program
  | next {ts s mid program} :
      Reads .statement ts (.stmt s) mid → ReadsProgram mid program →
      ReadsProgram ts (s :: program)

theorem ReadsProgram.consumes {ts : List Token} {program : Program} (h : ReadsProgram ts program) :
    Consumes ts [] := by
  induction h with
  | done => exact .refl _
  | stray _ ih => exact ih.cons (by simp)
  | next hs _ ih => exact (hs.consumes trivial).trans ih

theorem readsProgram_of_programFrom {stop : Position} {done : List Stmt} {ts : List Located}
    {program : Program} (he : programFrom stop done ts = .ok program) :
    ∃ program', program = done.reverse ++ program' ∧ ReadsProgram (words ts) program' := by
  fun_induction programFrom stop done ts with
  | case1 done =>
      cases he
      exact ⟨[], (List.append_nil _).symm, .done⟩
  | case2 done t rest ht ih =>
      obtain ⟨program', rfl, hreads⟩ := ih he
      rw [words_cons, ht]
      exact ⟨program', rfl, .stray hreads⟩
  | case3 done t rest ht ih =>
      cases hs : statement stop (t :: rest) with
      | error cause =>
          rw [hs] at he
          cases he
      | ok first =>
          rw [hs] at he
          obtain ⟨program', rfl, hreads⟩ := ih first he
          exact ⟨first.value :: program', by simp,
            .next (reads_statement ⟨first.shorter, hs⟩) hreads⟩

/-- A statement at the front is the next one of the program, and the loop goes on behind it. -/
theorem programFrom_of_reads (stop : Position) (places : Nat → Position) {us vs : List Token}
    {s : Stmt} (h : Reads .statement us (.stmt s) vs) (done : List Stmt) :
    programFrom stop done (located places us) =
      programFrom stop (s :: done) (located places vs) := by
  have htakes := takes_of_reads stop places h
  obtain ⟨-, hsemicolon⟩ := h.begins_statement
  cases us with
  | nil => exact absurd htakes.choose (Nat.not_lt_zero _)
  | cons u us =>
      obtain ⟨hshorter, heq⟩ :
          Yields (statement stop (⟨u, places us.length⟩ :: located places us)) s
            (located places vs) := htakes
      rw [Token.next_cons] at hsemicolon
      rw [located, programFrom, if_neg hsemicolon, heq]
      rfl

theorem programFrom_of_readsProgram (stop : Position) (places : Nat → Position) {us : List Token}
    {program : Program} (h : ReadsProgram us program) (done : List Stmt) :
    programFrom stop done (located places us) = .ok (done.reverse ++ program) := by
  induction h generalizing done with
  | done => rw [located, programFrom, List.append_nil]
  | stray _ ih => rw [located, programFrom, if_pos rfl, ih]
  | next hs _ ih =>
      rw [programFrom_of_reads stop places hs, ih, List.reverse_cons, List.append_assoc]
      rfl

/-- A list of tokens gives a program just when its words, up to the first `finish`, spell it. -/
theorem ofTokens_eq_ok {ts : List Located} {program : Program} :
    Program.ofTokens ts = .ok program ↔
      ReadsProgram ((words ts).takeWhile (· ≠ .finish)) program := by
  have hwords : (words ts).takeWhile (· ≠ .finish) =
      words (ts.takeWhile fun t => t.token ≠ .finish) := List.takeWhile_map
  rw [hwords]
  constructor
  · intro h
    obtain ⟨program', rfl, hreads⟩ := readsProgram_of_programFrom h
    exact hreads
  · intro h
    obtain ⟨places, hplaces⟩ := exists_located (ts.takeWhile fun t => t.token ≠ .finish)
    rw [Program.ofTokens, hplaces]
    exact programFrom_of_readsProgram _ places h []

end Parser

end Monkey
