import Monkey.Proofs.Reading

/-!
# The grammar of the language

`Derives category ts tree` is the grammar: the words `ts`, all of them and in this order, make up a
phrase of the category, and the phrase spells `tree`. Expressions come in layers, one for each
strength of binding. The grammar looks at nothing but the words of the phrase, so it knows neither
lookahead nor what is left over, and it allows some lists of words in two ways: `a - 1` may be one
statement or two, because the semicolon between statements is optional.

The parser takes one of the ways. `Reads.sound` cuts the words that a parser took off the front and
derives the tree from them, and `ofTokens_derives` says so of whole programs.
-/

namespace Monkey

namespace Grammar

open Monkey.Parser (Tree)

/-- The layers of expressions, the loosest first. -/
inductive Layer where
  | equality
  | comparison
  | sum
  | product
  | prefixed
  /-- Calls and index expressions. -/
  | applied
  | primary
  deriving DecidableEq

namespace Layer

/-- The rank of a layer, counted like those of precedences. Calls and index expressions share
one. -/
def rank : Layer → Nat
  | .equality => 1
  | .comparison => 2
  | .sum => 3
  | .product => 4
  | .prefixed => 5
  | .applied => 7
  | .primary => 8

/-- The operators between two operands that make an expression of the layer. -/
def operators : Layer → List Token
  | .equality => [.equal, .notEqual]
  | .comparison => [.less, .greater]
  | .sum => [.plus, .minus]
  | .product => [.asterisk, .slash]
  | .prefixed | .applied | .primary => []

/-- The next layer inwards. -/
def tighter : Layer → Layer
  | .equality => .comparison
  | .comparison => .sum
  | .sum => .product
  | .product => .prefixed
  | .prefixed => .applied
  | .applied | .primary => .primary

end Layer

/-- The kinds of phrases. -/
inductive Category where
  /-- What a program consists of, and what stands between the braces of a block. -/
  | body
  | block
  | statement
  | expression (layer : Layer)
  /-- What stands between the parentheses of a call or the brackets of an array. -/
  | items
  | someItems
  /-- What stands between the braces of a hash literal. -/
  | pairs
  | somePairs

/-- No word, or one. -/
def Optional (t : Token) (ts : List Token) : Prop :=
  ts = [] ∨ ts = [t]

/-- The words make up a phrase of the category that spells the tree. -/
inductive Derives : Category → List Token → Tree → Prop
  | empty : Derives .body [] (.block [])
  | stray {ts b} : Derives .body ts (.block b) → Derives .body (.semicolon :: ts) (.block b)
  | next {ts s us b} :
      Derives .statement ts (.stmt s) → Derives .body us (.block b) →
      Derives .body (ts ++ us) (.block (s :: b))
  | block {ts b} :
      Derives .body ts (.block b) → Derives .block (.leftBrace :: (ts ++ [.rightBrace])) (.block b)
  | bind {x ts e stop} :
      Derives (.expression .equality) ts (.expr e) → Optional .semicolon stop →
      Derives .statement (.letWord :: .ident x :: .assign :: (ts ++ stop))
        (.stmt (.bind x (e.named x)))
  | ret {ts e stop} :
      Derives (.expression .equality) ts (.expr e) → Optional .semicolon stop →
      Derives .statement (.returnWord :: (ts ++ stop)) (.stmt (.ret e))
  | value {ts e stop} :
      Derives (.expression .equality) ts (.expr e) → Optional .semicolon stop →
      Derives .statement (ts ++ stop) (.stmt (.expr e))
  | inner {outer layer ts e} :
      outer.rank ≤ layer.rank → Derives (.expression layer) ts (.expr e) →
      Derives (.expression outer) ts (.expr e)
  | infixOp {layer op ts left us right} :
      op ∈ layer.operators → Derives (.expression layer) ts (.expr left) →
      Derives (.expression layer.tighter) us (.expr right) →
      Derives (.expression layer) (ts ++ op :: us) (.expr (.infixOp op.text left right))
  | prefixOp {op ts e} :
      op ∈ Token.unary → Derives (.expression .prefixed) ts (.expr e) →
      Derives (.expression .prefixed) (op :: ts) (.expr (.prefixOp op.text e))
  | call {ts f us args} :
      Derives (.expression .applied) ts (.expr f) → Derives .items us (.exprs args) →
      Derives (.expression .applied) (ts ++ .leftParen :: (us ++ [.rightParen]))
        (.expr (.call f args))
  | index {ts c us i} :
      Derives (.expression .applied) ts (.expr c) → Derives (.expression .equality) us (.expr i) →
      Derives (.expression .applied) (ts ++ .leftBracket :: (us ++ [.rightBracket]))
        (.expr (.index c i))
  | ident {x} : Derives (.expression .primary) [.ident x] (.expr (.ident x))
  | int {n} : Derives (.expression .primary) [.int n] (.expr (.int n))
  | str {text} : Derives (.expression .primary) [.str text] (.expr (.str text))
  | yes : Derives (.expression .primary) [.trueWord] (.expr (.bool true))
  | no : Derives (.expression .primary) [.falseWord] (.expr (.bool false))
  | group {ts e} :
      Derives (.expression .equality) ts (.expr e) →
      Derives (.expression .primary) (.leftParen :: (ts ++ [.rightParen])) (.expr e)
  | cond {ts c us b} :
      Derives (.expression .equality) ts (.expr c) → Derives .block us (.block b) →
      Derives (.expression .primary) (.ifWord :: .leftParen :: (ts ++ .rightParen :: us))
        (.expr (.cond c b none))
  | condElse {ts c us b vs b'} :
      Derives (.expression .equality) ts (.expr c) → Derives .block us (.block b) →
      Derives .block vs (.block b') →
      Derives (.expression .primary)
        (.ifWord :: .leftParen :: (ts ++ .rightParen :: (us ++ .elseWord :: vs)))
        (.expr (.cond c b (some b')))
  | function {xs ts b} :
      Derives .block ts (.block b) →
      Derives (.expression .primary)
        (.fnWord :: .leftParen :: (Token.names xs ++ .rightParen :: ts))
        (.expr (.function xs b none))
  | array {ts es} :
      Derives .items ts (.exprs es) →
      Derives (.expression .primary) (.leftBracket :: (ts ++ [.rightBracket])) (.expr (.array es))
  | hash {ts es} :
      Derives .pairs ts (.entries es) →
      Derives (.expression .primary) (.leftBrace :: (ts ++ [.rightBrace])) (.expr (.hash es))
  | noItems : Derives .items [] (.exprs [])
  | someItems {ts es} : Derives .someItems ts (.exprs es) → Derives .items ts (.exprs es)
  | lastItem {ts e} :
      Derives (.expression .equality) ts (.expr e) → Derives .someItems ts (.exprs [e])
  | nextItem {ts e us es} :
      Derives (.expression .equality) ts (.expr e) → Derives .someItems us (.exprs es) →
      Derives .someItems (ts ++ .comma :: us) (.exprs (e :: es))
  | noPairs : Derives .pairs [] (.entries [])
  | somePairs {ts es stop} :
      Derives .somePairs ts (.entries es) → Optional .comma stop →
      Derives .pairs (ts ++ stop) (.entries es)
  | lastPair {ts k us v} :
      Derives (.expression .equality) ts (.expr k) → Derives (.expression .equality) us (.expr v) →
      Derives .somePairs (ts ++ .colon :: us) (.entries [(k, v)])
  | nextPair {ts k us v vs es} :
      Derives (.expression .equality) ts (.expr k) → Derives (.expression .equality) us (.expr v) →
      Derives .somePairs vs (.entries es) →
      Derives .somePairs (ts ++ .colon :: (us ++ .comma :: vs)) (.entries ((k, v) :: es))

/-- What an argument list may follow can be called and indexed. -/
theorem Derives.applied {layer : Layer} {ts : List Token} {e : Expr}
    (h : Derives (.expression layer) ts (.expr e)) (hrank : Precedence.call.rank ≤ layer.rank) :
    Derives (.expression .applied) ts (.expr e) := by
  refine .inner ?_ h
  cases layer with
  | applied | primary => decide
  | _ => exact absurd hrank (by decide)

end Grammar

namespace Parser

open Monkey.Grammar (Category Layer Derives Optional)

/-! ## Layers and precedences -/

/-- The layer that the operators of a precedence make. -/
def layerOf : Precedence → Layer
  | .lowest | .equality => .equality
  | .comparison => .comparison
  | .sum => .sum
  | .product => .product
  | .prefixed => .prefixed
  | .call | .index => .applied

/-- The layer of the expressions whose operators hold tighter than a precedence. A prefix operator
in front is taken at every precedence. -/
def layerAbove : Precedence → Layer
  | .lowest => .equality
  | .equality => .comparison
  | .comparison => .sum
  | .sum => .product
  | .product | .prefixed | .call | .index => .prefixed

theorem rank_le_primary (p : Precedence) : p.rank ≤ Layer.primary.rank := by
  cases p <;> decide

theorem rank_le_applied (p : Precedence) : p.rank ≤ Layer.applied.rank := by
  cases p <;> decide

theorem rank_above_le_prefixed (least : Precedence) :
    (layerAbove least).rank ≤ Layer.prefixed.rank := by
  cases least <;> decide

theorem rank_above_le {least : Precedence} {layer : Layer} (h : least.rank < layer.rank)
    (hprefixed : layer.rank < Layer.prefixed.rank) : (layerAbove least).rank ≤ layer.rank := by
  cases least <;> simp [Precedence.rank, Layer.rank, layerAbove] at * <;> omega

theorem mem_operators {op : Token} (h : op ∈ Token.binary) :
    op ∈ (layerOf (.ofToken op)).operators ∧
      (layerOf (.ofToken op)).tighter = layerAbove (.ofToken op) ∧
      (layerOf (.ofToken op)).rank = (Precedence.ofToken op).rank ∧
      (Precedence.ofToken op).rank < Layer.prefixed.rank := by
  revert op
  decide

/-! ## What a parser took -/

/-- The words start with a phrase of the category, and go on with `rest`. -/
def Spans (category : Category) (ts : List Token) (tree : Tree) (rest : List Token) : Prop :=
  ∃ taken, ts = taken ++ rest ∧ Derives category taken tree

/-- The rank of the operator to come. -/
def nextRank (ts : List Token) : Nat :=
  (Precedence.ofToken (Token.next ts)).rank

/-- What a reading says of the words that it took. A loop over operators is told the words of its
left operand. The operator that comes after an operand, or after what the loop has so far, does not
hold tighter than that; else it would belong to the right end of it. -/
def Phrase.Sound (ts : List Token) (tree : Tree) (rest : List Token) : Phrase → Prop
  | .statement => Spans .statement ts tree rest
  | .statements => Spans .body ts tree (.rightBrace :: rest)
  | .block => Spans .block ts tree rest
  | .expression least =>
      Spans (.expression (layerAbove least)) ts tree rest ∧ nextRank rest ≤ least.rank
  | .operators least left =>
      (∀ us layer, (layerAbove least).rank ≤ layer.rank → nextRank ts ≤ layer.rank →
        Derives (.expression layer) us (.expr left) →
        Spans (.expression (layerAbove least)) (us ++ ts) tree rest) ∧ nextRank rest ≤ least.rank
  | .operand => ∃ layer, Layer.prefixed.rank ≤ layer.rank ∧ nextRank rest ≤ layer.rank ∧
      Spans (.expression layer) ts tree rest
  | .items close => Spans .items ts tree (close :: rest)
  | .moreItems close => Spans .someItems ts tree (close :: rest)
  | .pairs => Spans .pairs ts tree (.rightBrace :: rest)

theorem exists_stop (ts : List Token) :
    ∃ stop, Optional .semicolon stop ∧ ts = stop ++ Token.skipSemicolon ts := by
  unfold Token.skipSemicolon
  split
  · exact ⟨[.semicolon], .inr rfl, rfl⟩
  · exact ⟨[], .inl rfl, rfl⟩

section

variable {ts rest : List Token} {tree : Tree} {e : Expr}

/-- A statement ends after the semicolon behind it, if there is one. -/
theorem Spans.stopped (h : Spans (.expression .equality) ts (.expr e) rest) :
    ∃ us stop, ts = us ++ stop ++ Token.skipSemicolon rest ∧ Optional .semicolon stop ∧
      Derives (.expression .equality) us (.expr e) := by
  obtain ⟨us, rfl, he⟩ := h
  obtain ⟨stop, hstop, hrest⟩ := exists_stop rest
  exact ⟨us, stop, by rw [List.append_assoc, ← hrest], hstop, he⟩

theorem sound_primary (h : Spans (.expression .primary) ts tree rest) :
    Phrase.operand.Sound ts tree rest :=
  ⟨.primary, by decide, rank_le_primary _, h⟩

/-- A loop over operators goes on from a call or an index expression. -/
theorem sound_applied {least : Precedence} {left : Expr} {us : List Token}
    (h : (Phrase.operators least left).Sound ts tree rest)
    (hleft : Derives (.expression .applied) us (.expr left)) :
    Spans (.expression (layerAbove least)) (us ++ ts) tree rest :=
  h.1 us .applied ((rank_above_le_prefixed least).trans (by decide)) (rank_le_applied _) hleft

end

theorem Reads.sound {phrase ts tree rest} (h : Reads phrase ts tree rest) :
    phrase.Sound ts tree rest := by
  induction h with
  | bind _ ih =>
      obtain ⟨us, stop, rfl, hstop, he⟩ := ih.1.stopped
      exact ⟨_, rfl, .bind he hstop⟩
  | ret _ ih =>
      obtain ⟨us, stop, rfl, hstop, he⟩ := ih.1.stopped
      exact ⟨_, rfl, .ret he hstop⟩
  | value _ ih =>
      obtain ⟨us, stop, rfl, hstop, he⟩ := ih.1.stopped
      exact ⟨_, rfl, .value he hstop⟩
  | close => exact ⟨[], rfl, .empty⟩
  | stray _ ih =>
      obtain ⟨us, rfl, hb⟩ := ih
      exact ⟨_, rfl, .stray hb⟩
  | next _ _ ih₁ ih₂ =>
      obtain ⟨vs, rfl, hb⟩ := ih₂
      obtain ⟨us, rfl, hs⟩ := ih₁
      exact ⟨us ++ vs, by simp, .next hs hb⟩
  | block _ ih =>
      obtain ⟨us, rfl, hb⟩ := ih
      exact ⟨_, by simp, .block hb⟩
  | expression _ _ ih₁ ih₂ =>
      obtain ⟨layer, hprefixed, hnext, us, rfl, hleft⟩ := ih₁
      obtain ⟨hgoes, hrest⟩ := ih₂
      exact ⟨hgoes us layer ((rank_above_le_prefixed _).trans hprefixed) hnext hleft, hrest⟩
  | done hle =>
      exact ⟨fun us layer habove _ hleft => ⟨us, rfl, .inner habove hleft⟩, hle⟩
  | @infixOp least left op _ _ _ _ _ hop hlt _ _ ih₁ ih₂ =>
      obtain ⟨⟨vs, rfl, hright⟩, hmid⟩ := ih₁
      refine ⟨fun us layer _ hnext hleft => ?_, ih₂.2⟩
      obtain ⟨hmem, htighter, hrank, hprefixed⟩ := mem_operators hop
      rw [← htighter] at hright
      rw [← hrank] at hlt hmid hprefixed
      -- the left operand holds at least as tight as the operator
      have hloose := Derives.inner (hrank.le.trans hnext) hleft
      have hgoes := ih₂.1 (us ++ op :: vs) _ (rank_above_le hlt hprefixed) hmid
        (.infixOp hmem hloose hright)
      rwa [List.append_assoc] at hgoes
  | call _ _ _ ih₁ ih₂ =>
      obtain ⟨vs, rfl, hargs⟩ := ih₁
      refine ⟨fun us layer _ hnext hleft => ?_, ih₂.2⟩
      have hcallee := hleft.applied hnext
      simpa using sound_applied ih₂ (.call hcallee hargs)
  | index _ _ _ ih₁ ih₂ =>
      obtain ⟨⟨vs, rfl, hposition⟩, -⟩ := ih₁
      refine ⟨fun us layer _ hnext hleft => ?_, ih₂.2⟩
      have hcontainer := hleft.applied (Nat.le_of_succ_le hnext)
      simpa using sound_applied ih₂ (.index hcontainer hposition)
  | ident => exact sound_primary ⟨_, rfl, .ident⟩
  | int => exact sound_primary ⟨_, rfl, .int⟩
  | str => exact sound_primary ⟨_, rfl, .str⟩
  | yes => exact sound_primary ⟨_, rfl, .yes⟩
  | no => exact sound_primary ⟨_, rfl, .no⟩
  | prefixOp hop _ ih =>
      obtain ⟨⟨us, rfl, he⟩, hnext⟩ := ih
      exact ⟨.prefixed, Nat.le_refl _, hnext, _, rfl, .prefixOp hop he⟩
  | group _ ih =>
      obtain ⟨⟨us, rfl, he⟩, -⟩ := ih
      exact sound_primary ⟨_, by simp, .group he⟩
  | cond _ _ _ ih₁ ih₂ =>
      obtain ⟨vs, rfl, hb⟩ := ih₂
      obtain ⟨⟨us, rfl, hc⟩, -⟩ := ih₁
      exact sound_primary ⟨_, by simp, .cond hc hb⟩
  | condElse _ _ _ ih₁ ih₂ ih₃ =>
      obtain ⟨ws, rfl, hb'⟩ := ih₃
      obtain ⟨vs, rfl, hb⟩ := ih₂
      obtain ⟨⟨us, rfl, hc⟩, -⟩ := ih₁
      exact sound_primary ⟨_, by simp, .condElse hc hb hb'⟩
  | function _ ih =>
      obtain ⟨us, rfl, hb⟩ := ih
      exact sound_primary ⟨_, by simp, .function hb⟩
  | array _ ih =>
      obtain ⟨us, rfl, hes⟩ := ih
      exact sound_primary ⟨_, by simp, .array hes⟩
  | hash _ ih =>
      obtain ⟨us, rfl, hes⟩ := ih
      exact sound_primary ⟨_, by simp, .hash hes⟩
  | noItems => exact ⟨[], rfl, .noItems⟩
  | someItems _ _ ih =>
      obtain ⟨us, rfl, hes⟩ := ih
      exact ⟨us, rfl, .someItems hes⟩
  | lastItem _ _ ih =>
      obtain ⟨⟨us, rfl, he⟩, -⟩ := ih
      exact ⟨us, rfl, .lastItem he⟩
  | nextItem _ _ ih₁ ih₂ =>
      obtain ⟨vs, rfl, hes⟩ := ih₂
      obtain ⟨⟨us, rfl, he⟩, -⟩ := ih₁
      exact ⟨_, by simp, .nextItem he hes⟩
  | noPairs => exact ⟨[], rfl, .noPairs⟩
  | lastPair _ _ ih₁ ih₂ =>
      obtain ⟨⟨vs, rfl, hv⟩, -⟩ := ih₂
      obtain ⟨⟨us, rfl, hk⟩, -⟩ := ih₁
      exact ⟨_, by simp, .somePairs (.lastPair hk hv) (.inl rfl)⟩
  | nextPair _ _ _ ih₁ ih₂ ih₃ =>
      obtain ⟨ws, rfl, hes⟩ := ih₃
      obtain ⟨⟨vs, rfl, hv⟩, -⟩ := ih₂
      obtain ⟨⟨us, rfl, hk⟩, -⟩ := ih₁
      cases hes with
      | noPairs => exact ⟨_, by simp, .somePairs (.lastPair hk hv) (.inr rfl)⟩
      | somePairs hsome hstop => exact ⟨_, by simp, .somePairs (.nextPair hk hv hsome) hstop⟩

theorem ReadsProgram.sound {ts : List Token} {program : Program} (h : ReadsProgram ts program) :
    Derives .body ts (.block program) := by
  induction h with
  | done => exact .empty
  | stray _ ih => exact .stray ih
  | next hs _ ih =>
      obtain ⟨us, rfl, hstmt⟩ := hs.sound
      exact .next hstmt ih

end Parser

/-- The words in front of the first `finish` make up the program that they are parsed to: each is
used once, in its place, and none is left out. -/
theorem Program.ofTokens_derives {ts : List Located} {program : Program}
    (h : Program.ofTokens ts = .ok program) :
    Grammar.Derives .body ((ts.map (·.token)).takeWhile (· ≠ .finish)) (.block program) :=
  (Parser.ofTokens_eq_ok.1 h).sound

/-- A block that is called, a minus that goes on from the line before, stray semicolons, a comma
before a closing brace, and words after the end. -/
def Program.looseWords : List Token :=
  [.ifWord, .leftParen, .ident "x", .rightParen, .leftBrace, .semicolon, .ident "y", .rightBrace,
    .leftParen, .ident "z", .rightParen, .minus, .int 1, .leftBrace, .str "k", .colon,
    .leftBracket, .rightBracket, .comma, .rightBrace, .semicolon, .semicolon, .finish, .comma]

theorem Program.ofTokens_derives_looseWords :
    let program : Program :=
      [.expr (.infixOp "-" (.call (.cond (.ident "x") [.expr (.ident "y")] none) [.ident "z"])
          (.int 1)),
        .expr (.hash [(.str "k", .array [])])]
    Program.ofTokens (looseWords.map fun t => ⟨t, {}⟩) = .ok program ∧
      Grammar.Derives .body (looseWords.take 22) (.block program) := by
  intro program
  have hname : ∀ {x t ts}, Precedence.ofToken t = .lowest →
      Parser.Reads (.expression .lowest) (.ident x :: t :: ts) (.expr (.ident x)) (t :: ts) :=
    fun ht => .expression .ident (.done (by rw [Token.next_cons, ht]))
  have hreads : Parser.ReadsProgram (looseWords.take 22) program := by
    refine .next (.value (.expression (.cond (hname (by decide))
      (.block (.stray (.next (.value (hname (by decide))) .close))) (by decide))
      (.call (by decide) (.someItems (by decide) (.lastItem (by decide) (hname (by decide))))
        (.infixOp (by decide) (by decide) (.expression .int (.done (by decide)))
          (.done (by decide)))))) ?_
    refine .next (.value (.expression (.hash (.nextPair (.expression .str (.done (by decide)))
      (.expression (.array .noItems) (.done (by decide))) .noPairs)) (.done (by decide)))) ?_
    exact .stray .done
  have hok : Program.ofTokens (looseWords.map fun t => ⟨t, {}⟩) = .ok program :=
    Parser.ofTokens_eq_ok.2 hreads
  exact ⟨hok, Program.ofTokens_derives hok⟩

end Monkey
