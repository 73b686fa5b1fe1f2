import Monkey.Proofs.Reading
import Monkey.Proofs.Trees

/-!
# Printing with few parentheses

A program is printed with a semicolon after every statement and with parentheses only where the
operators need them. The parser gives the program back. `Prints` carries the induction: an
expression that is printed in front of `rest` is read as an operand, and the loop over operators
goes on with `rest`. So what is said of an expression does not depend on how many operators follow
it, and a chain of operators that lean to the left is read in one loop.

The programs that come back are those that the language can spell, the `writable` ones. The parser
gives no others.
-/

namespace Monkey

/-! ## The printer -/

/-- The operator of a table that is written like this, or `finish` if none is. -/
def Token.spelled (table : List Token) (op : String) : Token :=
  (table.find? (·.text = op)).getD .finish

/-- How tightly the outermost operator of an expression holds. What has no operator in front and
none in between holds tightest. -/
def Expr.precedence : Expr → Precedence
  | .infixOp op _ _ => .ofToken (Token.spelled Token.binary op)
  | .prefixOp .. => .prefixed
  | _ => .index

/-- Puts parentheses around words, where they are needed. -/
def Token.enclosed (needed : Bool) (ts : List Token) : List Token :=
  if needed then .leftParen :: (ts ++ [.rightParen]) else ts

/-- Puts braces around words. -/
def Token.braced (ts : List Token) : List Token :=
  .leftBrace :: (ts ++ [.rightBrace])

mutual

/-- The words of an expression. -/
def Expr.tokens : Expr → List Token
  | .ident x => [.ident x]
  | .int n => [.int n]
  | .str text => [.str text]
  | .bool true => [.trueWord]
  | .bool false => [.falseWord]
  | .prefixOp op e =>
      Token.spelled Token.unary op ::
        Token.enclosed (e.precedence.rank < Precedence.prefixed.rank) e.tokens
  | .infixOp op l r =>
      let word := Token.spelled Token.binary op
      let least := Precedence.ofToken word
      Token.enclosed (l.precedence.rank < least.rank) l.tokens ++
        word :: Token.enclosed (r.precedence.rank ≤ least.rank) r.tokens
  | .cond c b none =>
      .ifWord :: .leftParen :: (c.tokens ++ .rightParen :: Token.braced (blockTokens b))
  | .cond c b (some b') =>
      .ifWord :: .leftParen :: (c.tokens ++ .rightParen :: (Token.braced (blockTokens b) ++
        .elseWord :: Token.braced (blockTokens b')))
  | .function xs b _ =>
      .fnWord :: .leftParen :: (Token.names xs ++ .rightParen :: Token.braced (blockTokens b))
  | .call f args =>
      Token.enclosed (f.precedence.rank < Precedence.call.rank) f.tokens ++
        .leftParen :: (itemsTokens args ++ [.rightParen])
  | .index c i =>
      Token.enclosed (c.precedence.rank < Precedence.index.rank) c.tokens ++
        .leftBracket :: (i.tokens ++ [.rightBracket])
  | .array es => .leftBracket :: (itemsTokens es ++ [.rightBracket])
  | .hash es => .leftBrace :: (pairsTokens es ++ [.rightBrace])

/-- The words of a statement, with the semicolon after it. -/
def Stmt.tokens : Stmt → List Token
  | .bind x e => .letWord :: .ident x :: .assign :: (e.tokens ++ [.semicolon])
  | .ret e => .returnWord :: (e.tokens ++ [.semicolon])
  | .expr e => e.tokens ++ [.semicolon]

/-- Statements one after the other. -/
def blockTokens : List Stmt → List Token
  | [] => []
  | s :: b => s.tokens ++ blockTokens b

/-- Expressions with commas between them. -/
def itemsTokens : List Expr → List Token
  | [] => []
  | [e] => e.tokens
  | e :: e' :: es => e.tokens ++ .comma :: itemsTokens (e' :: es)

/-- Pairs with commas between them. -/
def pairsTokens : List (Expr × Expr) → List Token
  | [] => []
  | [p] => pairTokens p
  | p :: p' :: ps => pairTokens p ++ .comma :: pairsTokens (p' :: ps)

def pairTokens : Expr × Expr → List Token
  | (k, v) => k.tokens ++ .colon :: v.tokens

end

/-- The words of a program. -/
def Program.tokens (program : Program) : List Token :=
  blockTokens program

/-! ## Programs that can be written -/

mutual

/-- Whether an expression uses the operators of the language only, and no function literal has a
name but those bound by a `let` inside of it. -/
def Expr.writable : Expr → Bool
  | .ident _ | .int _ | .str _ | .bool _ => true
  | .prefixOp op e => op ∈ Token.unary.map Token.text && e.writable
  | .infixOp op l r => op ∈ Token.binary.map Token.text && l.writable && r.writable
  | .cond c b none => c.writable && blockWritable b
  | .cond c b (some b') => c.writable && blockWritable b && blockWritable b'
  | .function _ b name => name = none && blockWritable b
  | .call f args => f.writable && itemsWritable args
  | .index c i => c.writable && i.writable
  | .array es => itemsWritable es
  | .hash es => pairsWritable es

/-- The same of a statement. A function literal has the name that it is bound to. -/
def Stmt.writable : Stmt → Bool
  | .bind x (.function _ b name) => name = some x && blockWritable b
  | .bind _ e | .ret e | .expr e => e.writable

def blockWritable : List Stmt → Bool
  | [] => true
  | s :: b => s.writable && blockWritable b

def itemsWritable : List Expr → Bool
  | [] => true
  | e :: es => e.writable && itemsWritable es

def pairsWritable : List (Expr × Expr) → Bool
  | [] => true
  | p :: ps => pairWritable p && pairsWritable ps

def pairWritable : Expr × Expr → Bool
  | (k, v) => k.writable && v.writable

end

attribute [local simp] Expr.tokens Stmt.tokens blockTokens itemsTokens pairsTokens pairTokens
  Expr.writable Stmt.writable blockWritable itemsWritable pairsWritable pairWritable

/-- Whether a program can be spelled. -/
def Program.writable (program : Program) : Bool :=
  blockWritable program

theorem blockWritable_eq_true {b : List Stmt} :
    blockWritable b = true ↔ ∀ s ∈ b, s.writable = true := by
  induction b with
  | nil => simp [blockWritable]
  | cons s b ih => simp [blockWritable, ih]

theorem itemsWritable_eq_true {es : List Expr} :
    itemsWritable es = true ↔ ∀ e ∈ es, e.writable = true := by
  induction es with
  | nil => simp [itemsWritable]
  | cons e es ih => simp [itemsWritable, ih]

theorem pairsWritable_eq_true {ps : List (Expr × Expr)} :
    pairsWritable ps = true ↔ ∀ p ∈ ps, p.1.writable = true ∧ p.2.writable = true := by
  induction ps with
  | nil => simp [pairsWritable]
  | cons p ps ih =>
      obtain ⟨k, v⟩ := p
      simp [pairsWritable, pairWritable, ih]

theorem Expr.writable_prefixOp {op : String} {e : Expr} :
    (Expr.prefixOp op e).writable = true ↔
      op ∈ Token.unary.map Token.text ∧ e.writable = true := by
  rw [Expr.writable, Bool.and_eq_true, decide_eq_true_iff]

theorem Expr.writable_infixOp {op : String} {l r : Expr} :
    (Expr.infixOp op l r).writable = true ↔
      op ∈ Token.binary.map Token.text ∧ l.writable = true ∧ r.writable = true := by
  rw [Expr.writable, Bool.and_eq_true, Bool.and_eq_true, decide_eq_true_iff, and_assoc]

theorem Expr.writable_cond {c : Expr} {b : Block} {b' : Option Block} :
    (Expr.cond c b b').writable = true ↔ c.writable = true ∧ (∀ s ∈ b, s.writable = true) ∧
      ∀ body, b' = some body → ∀ s ∈ body, s.writable = true := by
  cases b' <;> simp [Expr.writable, blockWritable_eq_true, and_assoc]

/-- A function literal without its name. -/
def Expr.unnamed : Expr → Expr
  | .function xs b _ => .function xs b none
  | e => e

theorem Expr.unnamed_eq {e : Expr} (h : e.writable = true) : e.unnamed = e := by
  cases e with
  | function xs b name =>
      simp only [Expr.writable, Bool.and_eq_true, decide_eq_true_eq] at h
      rw [h.1, Expr.unnamed]
  | _ => rfl

theorem Expr.tokens_unnamed (e : Expr) : e.unnamed.tokens = e.tokens := by
  cases e with
  | function xs b name => rw [Expr.unnamed, Expr.tokens, Expr.tokens]
  | _ => rfl

theorem Stmt.writable_bind {x : String} {e : Expr} :
    (Stmt.bind x e).writable = true ↔ e.unnamed.writable = true ∧ e.unnamed.named x = e := by
  cases e with
  | function xs b name =>
      simp only [Stmt.writable, Expr.unnamed, Expr.writable, Bool.and_eq_true, decide_eq_true_eq]
      constructor
      · rintro ⟨rfl, hb⟩
        exact ⟨⟨trivial, hb⟩, rfl⟩
      · rintro ⟨⟨-, hb⟩, ⟨⟩⟩
        exact ⟨rfl, hb⟩
  | _ => simp [Stmt.writable, Expr.unnamed, Expr.named]

/-! ## Every parse is writable -/

namespace Parser

/-- All trees in an answer are writable. -/
def Tree.Writable : Tree → Prop
  | .stmt s => s.writable = true
  | .block b => blockWritable b = true
  | .expr e => e.writable = true
  | .exprs es => itemsWritable es = true
  | .entries es => pairsWritable es = true

/-- What a phrase needs of the trees that it is given. -/
def Phrase.Given : Phrase → Prop
  | .operators _ left => left.writable = true
  | _ => True

theorem Reads.writable {phrase ts tree rest} (h : Reads phrase ts tree rest) :
    phrase.Given → tree.Writable := by
  induction h with
  | @bind x _ e _ _ ih =>
      intro _
      have he := ih trivial
      refine Stmt.writable_bind.2 ?_
      cases e with
      | function xs b name =>
          rw [← Expr.unnamed_eq he] at he
          exact ⟨he, rfl⟩
      | _ => exact ⟨he, rfl⟩
  | ret _ ih | value _ ih => exact fun _ => ih trivial
  | close | noItems | noPairs => exact fun _ => rfl
  | stray _ ih | block _ ih | group _ ih | array _ ih | hash _ ih | someItems _ _ ih =>
      exact fun _ => ih trivial
  | next _ _ ih₁ ih₂ | nextItem _ _ ih₁ ih₂ =>
      exact fun _ => Bool.and_eq_true_iff.2 ⟨ih₁ trivial, ih₂ trivial⟩
  | expression _ _ ih₁ ih₂ => exact fun _ => ih₂ (ih₁ trivial)
  | done => exact id
  | infixOp hop _ _ _ ih₁ ih₂ =>
      exact fun hleft =>
        ih₂ (Expr.writable_infixOp.2 ⟨List.mem_map_of_mem hop, hleft, ih₁ trivial⟩)
  | call _ _ _ ih₁ ih₂ | index _ _ _ ih₁ ih₂ =>
      exact fun hleft => ih₂ (Bool.and_eq_true_iff.2 ⟨hleft, ih₁ trivial⟩)
  | ident | int | str | yes | no => exact fun _ => rfl
  | prefixOp hop _ ih =>
      exact fun _ => Expr.writable_prefixOp.2 ⟨List.mem_map_of_mem hop, ih trivial⟩
  | cond _ _ _ ih₁ ih₂ => exact fun _ => Bool.and_eq_true_iff.2 ⟨ih₁ trivial, ih₂ trivial⟩
  | condElse _ _ _ ih₁ ih₂ ih₃ =>
      exact fun _ =>
        Bool.and_eq_true_iff.2 ⟨Bool.and_eq_true_iff.2 ⟨ih₁ trivial, ih₂ trivial⟩, ih₃ trivial⟩
  | function _ ih => exact fun _ => Bool.and_eq_true_iff.2 ⟨rfl, ih trivial⟩
  | lastItem _ _ ih => exact fun _ => Bool.and_eq_true_iff.2 ⟨ih trivial, rfl⟩
  | lastPair _ _ ih₁ ih₂ =>
      exact fun _ =>
        Bool.and_eq_true_iff.2 ⟨Bool.and_eq_true_iff.2 ⟨ih₁ trivial, ih₂ trivial⟩, rfl⟩
  | nextPair _ _ _ ih₁ ih₂ ih₃ =>
      exact fun _ =>
        Bool.and_eq_true_iff.2 ⟨Bool.and_eq_true_iff.2 ⟨ih₁ trivial, ih₂ trivial⟩, ih₃ trivial⟩

theorem ReadsProgram.writable {ts : List Token} {program : Program}
    (h : ReadsProgram ts program) : program.writable = true := by
  induction h with
  | done => rfl
  | stray _ ih => exact ih
  | next hs _ ih => exact Bool.and_eq_true_iff.2 ⟨hs.writable trivial, ih⟩

end Parser

/-! ## Printed operators -/

theorem Token.spelled_mem {table : List Token} {op : String} (h : op ∈ table.map Token.text) :
    Token.spelled table op ∈ table ∧ (Token.spelled table op).text = op := by
  obtain ⟨t, ht, rfl⟩ := List.mem_map.1 h
  obtain ⟨t', ht'⟩ := Option.isSome_iff_exists.1
    (List.find?_isSome (p := fun t' => decide (t'.text = t.text)).2 ⟨t, ht, by simp⟩)
  rw [Token.spelled, ht']
  exact ⟨List.mem_of_find?_eq_some ht', by simpa using List.find?_some ht'⟩

theorem Token.rank_binary {t : Token} (h : t ∈ Token.binary) :
    0 < (Precedence.ofToken t).rank ∧ (Precedence.ofToken t).rank < Precedence.prefixed.rank := by
  revert t
  decide

theorem Expr.rank_pos {e : Expr} (h : e.writable = true) : 0 < e.precedence.rank := by
  cases e with
  | infixOp op l r =>
      exact (Token.rank_binary (Token.spelled_mem (Expr.writable_infixOp.1 h).1).1).1
  | _ => exact Nat.zero_lt_succ _

/-! ## Printed expressions are read back -/

namespace Parser

/-- The words `ts` may follow an expression of this precedence: they start neither with an operator
that would take the expression apart nor with an `else`. -/
structure Follows (outer : Precedence) (ts : List Token) : Prop where
  rank : (Precedence.ofToken (Token.next ts)).rank ≤ outer.rank
  ne_else : Token.next ts ≠ .elseWord

/-- An expression can be written, and in front of `rest` it is read as an operand, after which the
loop over operators goes on with `rest`. It stands where operators hold tighter than `least`. -/
structure Prints (e : Expr) : Prop where
  writable : e.writable = true
  reads : ∀ {least rest e' rest'}, least.rank < Precedence.call.rank →
    Precedence.prefixed.rank ≤ e.precedence.rank ∨ least.rank < e.precedence.rank →
    Follows e.precedence rest → Reads (.operators least e) rest (.expr e') rest' →
    Reads (.expression least) (e.tokens ++ rest) (.expr e') rest'

section

variable {e e' l r : Expr} {least : Precedence} {rest rest' : List Token} {op : String}

theorem Prints.before (h : Prints e) (t : Token) (rest : List Token)
    (ht : (Precedence.ofToken t).rank = 0 ∧ t ≠ .elseWord) :
    Reads (.expression .lowest) (e.tokens ++ t :: rest) (.expr e) (t :: rest) := by
  have hrank : ∀ outer : Precedence, (Precedence.ofToken t).rank ≤ outer.rank := by
    intro outer
    rw [ht.1]
    exact Nat.zero_le _
  exact h.reads (by decide) (.inr (Expr.rank_pos h.writable)) ⟨hrank _, ht.2⟩ (.done (hrank _))

/-- Parentheses make an expression fit everywhere. Without them it has to hold tight enough. -/
theorem Prints.enclosed (h : Prints e) {needed : Bool} (hleast : least.rank < Precedence.call.rank)
    (hbare : needed = false →
      (Precedence.prefixed.rank ≤ e.precedence.rank ∨ least.rank < e.precedence.rank) ∧
        Follows e.precedence rest)
    (hrest : Reads (.operators least e) rest (.expr e') rest') :
    Reads (.expression least) (Token.enclosed needed e.tokens ++ rest) (.expr e') rest' := by
  cases needed with
  | false =>
      obtain ⟨hfits, hfollows⟩ := hbare rfl
      exact h.reads hleast hfits hfollows hrest
  | true =>
      have hinner := h.before .rightParen rest (by decide)
      rw [Token.enclosed, if_pos rfl, List.cons_append, List.append_assoc]
      exact .expression (.group hinner) hrest

theorem prints_of_operand (hw : e.writable = true)
    (h : ∀ rest, Token.next rest ≠ .elseWord → Reads .operand (e.tokens ++ rest) (.expr e) rest) :
    Prints e := by
  refine ⟨hw, fun _ _ hfollows hrest => ?_⟩
  exact .expression (h _ hfollows.ne_else) hrest

theorem prints_prefixOp (h : Prints e) (hop : op ∈ Token.unary.map Token.text) :
    Prints (.prefixOp op e) := by
  refine ⟨Expr.writable_prefixOp.2 ⟨hop, h.writable⟩, ?_⟩
  intro least rest e' rest' _ _ hfollows hrest
  obtain ⟨hmem, htext⟩ := Token.spelled_mem hop
  have hoperand : Reads (.expression .prefixed) (Token.enclosed
      (e.precedence.rank < Precedence.prefixed.rank) e.tokens ++ rest) (.expr e) rest := by
    refine h.enclosed (by decide) (fun hbare => ?_) (.done hfollows.rank)
    have hrank := Nat.le_of_not_lt (of_decide_eq_false hbare)
    exact ⟨.inl hrank, hfollows.rank.trans hrank, hfollows.ne_else⟩
  have hreads := Reads.prefixOp hmem hoperand
  rw [htext] at hreads
  rw [Expr.tokens]
  exact .expression hreads hrest

theorem prints_infixOp (hl : Prints l) (hr : Prints r) (hop : op ∈ Token.binary.map Token.text) :
    Prints (.infixOp op l r) := by
  refine ⟨Expr.writable_infixOp.2 ⟨hop, hl.writable, hr.writable⟩, ?_⟩
  intro least rest e' rest' hleast hfits hfollows hrest
  obtain ⟨hmem, htext⟩ := Token.spelled_mem hop
  obtain ⟨hpos, hbelow⟩ := Token.rank_binary hmem
  rw [Expr.precedence] at hfits hfollows
  rw [Expr.tokens, List.append_assoc]
  rw [← htext] at hrest
  generalize Token.spelled Token.binary op = t at *
  have hlt : least.rank < (Precedence.ofToken t).rank := by omega
  have helse : t ≠ .elseWord := by
    rintro rfl
    exact absurd hpos (by decide)
  -- the right operand ends where the operator itself would go on
  have hright : Reads (.expression (.ofToken t)) (Token.enclosed
      (r.precedence.rank ≤ (Precedence.ofToken t).rank) r.tokens ++ rest) (.expr r) rest := by
    refine hr.enclosed (hbelow.trans (by decide)) (fun hbare => ?_) (.done hfollows.rank)
    have hrank := Nat.lt_of_not_le (of_decide_eq_false hbare)
    exact ⟨.inr hrank, hfollows.rank.trans hrank.le, hfollows.ne_else⟩
  refine hl.enclosed hleast (fun hbare => ?_) (.infixOp hmem hlt hright hrest)
  have hrank := Nat.le_of_not_lt (of_decide_eq_false hbare)
  exact ⟨.inr (hlt.trans_le hrank), hrank, helse⟩

/-! ### Lists -/

theorem reads_itemsTokens {close : Token} {es : List Expr}
    (hclose : close = .rightParen ∨ close = .rightBracket) (h : ∀ e ∈ es, Prints e)
    (rest : List Token) :
    Reads (.items close) (itemsTokens es ++ close :: rest) (.exprs es) rest := by
  have hends : (Precedence.ofToken close).rank = 0 ∧ close ≠ .elseWord := by
    rcases hclose with rfl | rfl <;> decide
  have hmore : ∀ e es, (∀ e' ∈ e :: es, Prints e') → Reads (.moreItems close)
      (itemsTokens (e :: es) ++ close :: rest) (.exprs (e :: es)) rest := by
    intro e es h
    induction es generalizing e with
    | nil =>
        rw [itemsTokens]
        refine .lastItem ?_ ((h e List.mem_cons_self).before close rest hends)
        rcases hclose with rfl | rfl <;> decide
    | cons e₂ es ih =>
        rw [itemsTokens, List.append_assoc, List.cons_append]
        exact .nextItem ((h e List.mem_cons_self).before .comma _ (by decide))
          (ih e₂ fun e' he' => h e' (List.mem_cons_of_mem _ he'))
  cases es with
  | nil => exact .noItems
  | cons e es =>
      have hreads := hmore e es h
      have hopens : Token.opens (Token.next _) = true := hreads.begins
      refine .someItems (fun heq => ?_) hreads
      rw [heq] at hopens
      rcases hclose with rfl | rfl <;> cases hopens

theorem reads_pairsTokens {ps : List (Expr × Expr)} (h : ∀ p ∈ ps, Prints p.1 ∧ Prints p.2)
    (rest : List Token) :
    Reads .pairs (pairsTokens ps ++ .rightBrace :: rest) (.entries ps) rest := by
  induction ps with
  | nil => exact .noPairs
  | cons p ps ih =>
      obtain ⟨k, v⟩ := p
      obtain ⟨hk, hv⟩ := h _ List.mem_cons_self
      cases ps with
      | nil =>
          rw [pairsTokens, pairTokens, List.append_assoc, List.cons_append]
          exact .lastPair (hk.before .colon _ (by decide)) (hv.before .rightBrace _ (by decide))
      | cons p₂ ps =>
          rw [pairsTokens, pairTokens, List.append_assoc, List.append_assoc, List.cons_append,
            List.cons_append]
          exact .nextPair (hk.before .colon _ (by decide)) (hv.before .comma _ (by decide))
            (ih fun p hp => h p (List.mem_cons_of_mem _ hp))

/-- A statement is read back whatever comes after its semicolon. -/
def PrintsStmt (s : Stmt) : Prop :=
  ∀ rest, Reads .statement (s.tokens ++ rest) (.stmt s) rest

theorem reads_braced {b : List Stmt} (h : ∀ s ∈ b, PrintsStmt s) (rest : List Token) :
    Reads .block (Token.braced (blockTokens b) ++ rest) (.block b) rest := by
  have hblock : Reads .statements (blockTokens b ++ .rightBrace :: rest) (.block b) rest := by
    induction b with
    | nil => exact .close
    | cons s b ih =>
        rw [blockTokens, List.append_assoc]
        exact .next (h s List.mem_cons_self _) (ih fun s hs => h s (List.mem_cons_of_mem _ hs))
  rw [Token.braced, List.cons_append, List.append_assoc]
  exact .block hblock

/-! ### All trees -/

theorem prints_call {f : Expr} {args : List Expr} (hf : Prints f) (h : ∀ e ∈ args, Prints e) :
    Prints (.call f args) := by
  have hwargs := itemsWritable_eq_true.2 fun e he => (h e he).writable
  refine ⟨Bool.and_eq_true_iff.2 ⟨hf.writable, hwargs⟩, ?_⟩
  intro least rest e' rest' hleast _ _ hrest
  rw [Expr.tokens, List.append_assoc, List.cons_append, List.append_assoc]
  refine hf.enclosed hleast (fun hbare => ?_)
    (.call hleast (reads_itemsTokens (.inl rfl) h rest) hrest)
  have hrank := Nat.le_of_not_lt (of_decide_eq_false hbare)
  exact ⟨.inl (Nat.le_of_succ_le hrank), hrank, by simp⟩

theorem prints_index {c i : Expr} (hc : Prints c) (hi : Prints i) : Prints (.index c i) := by
  refine ⟨Bool.and_eq_true_iff.2 ⟨hc.writable, hi.writable⟩, ?_⟩
  intro least rest e' rest' hleast _ _ hrest
  rw [Expr.tokens, List.append_assoc, List.cons_append, List.append_assoc]
  refine hc.enclosed hleast (fun hbare => ?_)
    (.index (hleast.trans (by decide)) (hi.before .rightBracket rest (by decide)) hrest)
  have hrank := Nat.le_of_not_lt (of_decide_eq_false hbare)
  exact ⟨.inl ((show _ ≤ Precedence.index.rank by decide).trans hrank), hrank, by simp⟩

theorem prints_cond {c : Expr} {b : Block} {b' : Option Block} (hc : Prints c)
    (hb : ∀ s ∈ b, PrintsStmt s) (hb' : ∀ body, b' = some body → ∀ s ∈ body, PrintsStmt s)
    (hw : (Expr.cond c b b').writable = true) : Prints (.cond c b b') := by
  refine prints_of_operand hw fun rest helse => ?_
  cases b' with
  | none =>
      rw [Expr.tokens]
      simp only [List.cons_append, List.append_assoc]
      exact .cond (hc.before .rightParen _ (by decide)) (reads_braced hb rest) helse
  | some body =>
      rw [Expr.tokens]
      simp only [List.cons_append, List.append_assoc]
      exact .condElse (hc.before .rightParen _ (by decide)) (reads_braced hb _)
        (reads_braced (hb' body rfl) rest)

theorem prints_function {xs : List String} {b : Block} (hb : ∀ s ∈ b, PrintsStmt s)
    (hw : (Expr.function xs b none).writable = true) : Prints (.function xs b none) := by
  refine prints_of_operand hw fun rest _ => ?_
  rw [Expr.tokens]
  simp only [List.cons_append, List.append_assoc]
  exact .function (reads_braced hb rest)

theorem prints_array {es : List Expr} (h : ∀ e ∈ es, Prints e) : Prints (.array es) := by
  refine prints_of_operand (itemsWritable_eq_true.2 fun e he => (h e he).writable) fun rest _ => ?_
  rw [Expr.tokens, List.cons_append, List.append_assoc]
  exact .array (reads_itemsTokens (.inr rfl) h rest)

theorem prints_hash {ps : List (Expr × Expr)} (h : ∀ p ∈ ps, Prints p.1 ∧ Prints p.2) :
    Prints (.hash ps) := by
  refine prints_of_operand (pairsWritable_eq_true.2 fun p hp => ?_) fun rest _ => ?_
  · exact ⟨(h p hp).1.writable, (h p hp).2.writable⟩
  · rw [Expr.tokens, List.cons_append, List.append_assoc]
    exact .hash (reads_pairsTokens h rest)

/-- What the induction over trees proves of an expression. The name of a function literal is not
printed, so the statement leaves it out. -/
def Returns (e : Expr) : Prop :=
  e.unnamed.writable = true → Prints e.unnamed

theorem Returns.prints (h : Returns e) (hw : e.writable = true) : Prints e := by
  rw [Returns, Expr.unnamed_eq hw] at h
  exact h hw

theorem hereditary_returns : Hereditary Returns fun s => s.writable = true → PrintsStmt s where
  ident _ hw := prints_of_operand hw fun _ _ => .ident
  int _ hw := prints_of_operand hw fun _ _ => .int
  str _ hw := prints_of_operand hw fun _ _ => .str
  bool b hw := by
    refine prints_of_operand hw fun _ _ => ?_
    cases b
    · exact .no
    · exact .yes
  prefixOp op e he hw := by
    obtain ⟨hop, hwe⟩ := Expr.writable_prefixOp.1 hw
    exact prints_prefixOp (he.prints hwe) hop
  infixOp op l r hl hr hw := by
    obtain ⟨hop, hwl, hwr⟩ := Expr.writable_infixOp.1 hw
    exact prints_infixOp (hl.prints hwl) (hr.prints hwr) hop
  cond c b b' hc hb hb' hw := by
    obtain ⟨hwc, hwb, hwb'⟩ := Expr.writable_cond.1 hw
    exact prints_cond (hc.prints hwc) (fun s hs => hb s hs (hwb s hs))
      (fun body hbody s hs => hb' body hbody s hs (hwb' body hbody s hs)) hw
  function xs b name hb hw := by
    have hwb := blockWritable_eq_true.1 (Bool.and_eq_true_iff.1 hw).2
    exact prints_function (fun s hs => hb s hs (hwb s hs)) hw
  call f args hf hargs hw := by
    obtain ⟨hwf, hwargs⟩ := Bool.and_eq_true_iff.1 hw
    rw [itemsWritable_eq_true] at hwargs
    exact prints_call (hf.prints hwf) fun e he => (hargs e he).prints (hwargs e he)
  index c i hc hi hw := by
    obtain ⟨hwc, hwi⟩ := Bool.and_eq_true_iff.1 hw
    exact prints_index (hc.prints hwc) (hi.prints hwi)
  array es hes hw := by
    have hwes := itemsWritable_eq_true.1 hw
    exact prints_array fun e he => (hes e he).prints (hwes e he)
  hash ps hps hw := by
    have hwps := pairsWritable_eq_true.1 hw
    exact prints_hash fun p hp =>
      ⟨(hps p hp).1.prints (hwps p hp).1, (hps p hp).2.prints (hwps p hp).2⟩
  bind x e he hw rest := by
    obtain ⟨hwe, hnamed⟩ := Stmt.writable_bind.1 hw
    have hreads := Reads.bind (x := x) ((he hwe).before .semicolon rest (by decide))
    rw [hnamed, Expr.tokens_unnamed] at hreads
    rw [Stmt.tokens]
    simp only [List.cons_append, List.append_assoc]
    exact hreads
  ret e he hw rest := by
    rw [Stmt.tokens, List.cons_append, List.append_assoc]
    exact .ret ((he.prints hw).before .semicolon rest (by decide))
  value e he hw rest := by
    rw [Stmt.tokens, List.append_assoc]
    exact .value ((he.prints hw).before .semicolon rest (by decide))

theorem readsProgram_tokens {program : Program} (hw : program.writable = true) :
    ReadsProgram program.tokens program := by
  have hall := blockWritable_eq_true.1 hw
  have hprints : ∀ s ∈ program, PrintsStmt s :=
    fun s hs => hereditary_returns.stmt s (hall s hs)
  clear hw hall
  rw [Program.tokens]
  induction program with
  | nil => exact .done
  | cons s program ih =>
      rw [blockTokens]
      exact .next (hprints s List.mem_cons_self _)
        (ih fun s hs => hprints s (List.mem_cons_of_mem _ hs))

end

end Parser

/-- Reading a program that was printed gives the program back, whatever the places of its words, and
reading gives nothing that cannot be printed. -/
theorem Program.ofTokens_tokens :
    (∀ (program : Program) (ts : List Located), program.writable = true →
      ts.map (·.token) = program.tokens ++ [.finish] → Program.ofTokens ts = .ok program) ∧
    ∀ (ts : List Located) (program : Program), Program.ofTokens ts = .ok program →
      program.writable = true := by
  constructor
  · intro program ts hw hts
    have hreads := Parser.readsProgram_tokens hw
    obtain ⟨taken, htaken, hfinish⟩ := hreads.consumes
    rw [List.append_nil] at htaken
    have hwords : (Parser.words ts).takeWhile (· ≠ .finish) = program.tokens := by
      rw [Parser.words, hts, htaken, List.takeWhile_append_of_pos]
      · simp
      · intro t ht
        exact decide_eq_true (ne_of_mem_of_not_mem ht hfinish)
    rw [Parser.ofTokens_eq_ok, hwords]
    exact hreads
  · intro ts program h
    exact (Parser.ofTokens_eq_ok.1 h).writable

/-- Operators that lean to the left and to the right, a loose operand of a tight operator, and calls
of what is not a plain name. -/
def Program.nestedSample : Program :=
  [.bind "f" (.function ["x", "y"]
      [.ret (.infixOp "-" (.infixOp "-" (.ident "x") (.ident "y"))
        (.infixOp "-" (.prefixOp "-" (.infixOp "*" (.ident "x") (.int 2))) (.int 1)))] (some "f")),
    .expr (.index (.call (.prefixOp "!" (.ident "f")) [.cond (.bool true) [] none])
      (.hash [(.str "k", .function [] [] none)]))]

theorem Program.ofTokens_tokens_nestedSample :
    nestedSample.tokens =
      [.letWord, .ident "f", .assign, .fnWord, .leftParen, .ident "x", .comma, .ident "y",
        .rightParen, .leftBrace, .returnWord, .ident "x", .minus, .ident "y", .minus, .leftParen,
        .minus, .leftParen, .ident "x", .asterisk, .int 2, .rightParen, .minus, .int 1, .rightParen,
        .semicolon, .rightBrace, .semicolon,
        .leftParen, .bang, .ident "f", .rightParen, .leftParen, .ifWord, .leftParen, .trueWord,
        .rightParen, .leftBrace, .rightBrace, .rightParen, .leftBracket, .leftBrace, .str "k",
        .colon, .fnWord, .leftParen, .rightParen, .leftBrace, .rightBrace, .rightBrace,
        .rightBracket, .semicolon] ∧
    Program.ofTokens ((nestedSample.tokens ++ [Token.finish]).map fun t => ⟨t, {}⟩) =
      .ok nestedSample := by
  refine ⟨by decide +kernel, Program.ofTokens_tokens.1 nestedSample _ (by decide +kernel) ?_⟩
  rw [List.map_map]
  exact List.map_id _

end Monkey
