import Mathlib
import Monkey.Syntax.Basic

/-!
# Induction over syntax trees

Expressions and statements contain lists of each other, which the `induction` tactic does not look
into. `Hereditary P S` collects what a proof has to show of each constructor, with the parts of a
list reached through membership, and `Hereditary.expr` and `Hereditary.stmt` give the property of
every tree.
-/

namespace Monkey

/-- The properties `P` of expressions and `S` of statements pass from the parts of a tree to the
tree. -/
structure Hereditary (P : Expr → Prop) (S : Stmt → Prop) : Prop where
  ident : ∀ name, P (.ident name)
  int : ∀ value, P (.int value)
  str : ∀ text, P (.str text)
  bool : ∀ value, P (.bool value)
  prefixOp : ∀ op operand, P operand → P (.prefixOp op operand)
  infixOp : ∀ op left right, P left → P right → P (.infixOp op left right)
  cond : ∀ condition consequence alternative, P condition → (∀ s ∈ consequence, S s) →
    (∀ body, alternative = some body → ∀ s ∈ body, S s) →
    P (.cond condition consequence alternative)
  function : ∀ parameters body name, (∀ s ∈ body, S s) → P (.function parameters body name)
  call : ∀ callee arguments, P callee → (∀ e ∈ arguments, P e) → P (.call callee arguments)
  index : ∀ container position, P container → P position → P (.index container position)
  array : ∀ elements, (∀ e ∈ elements, P e) → P (.array elements)
  hash : ∀ pairs, (∀ p ∈ pairs, P p.1 ∧ P p.2) → P (.hash pairs)
  bind : ∀ name value, P value → S (.bind name value)
  ret : ∀ value, P value → S (.ret value)
  value : ∀ value, P value → S (.expr value)

namespace Hereditary

variable {P : Expr → Prop} {S : Stmt → Prop}

mutual

theorem expr (h : Hereditary P S) : ∀ e, P e
  | .ident name => h.ident name
  | .int value => h.int value
  | .str text => h.str text
  | .bool value => h.bool value
  | .prefixOp op operand => h.prefixOp op operand (h.expr operand)
  | .infixOp op left right => h.infixOp op left right (h.expr left) (h.expr right)
  | .cond condition consequence alternative =>
      h.cond condition consequence alternative (h.expr condition) (h.block consequence)
        (h.otherwise alternative)
  | .function parameters body name => h.function parameters body name (h.block body)
  | .call callee arguments => h.call callee arguments (h.expr callee) (h.exprs arguments)
  | .index container position => h.index container position (h.expr container) (h.expr position)
  | .array elements => h.array elements (h.exprs elements)
  | .hash pairs => h.hash pairs (h.pairs pairs)

theorem stmt (h : Hereditary P S) : ∀ s, S s
  | .bind name value => h.bind name value (h.expr value)
  | .ret value => h.ret value (h.expr value)
  | .expr value => h.value value (h.expr value)

theorem block (h : Hereditary P S) : ∀ (body : List Stmt), ∀ s ∈ body, S s
  | [] => fun _ hs => nomatch hs
  | first :: rest => List.forall_mem_cons.2 ⟨h.stmt first, h.block rest⟩

theorem otherwise (h : Hereditary P S) :
    ∀ (alternative : Option (List Stmt)) body, alternative = some body → ∀ s ∈ body, S s
  | none => fun _ hb => nomatch hb
  | some body => fun _ hb => Option.some.inj hb ▸ h.block body

theorem exprs (h : Hereditary P S) : ∀ (es : List Expr), ∀ e ∈ es, P e
  | [] => fun _ he => nomatch he
  | first :: rest => List.forall_mem_cons.2 ⟨h.expr first, h.exprs rest⟩

theorem pairs (h : Hereditary P S) : ∀ (ps : List (Expr × Expr)), ∀ p ∈ ps, P p.1 ∧ P p.2
  | [] => fun _ hp => nomatch hp
  | first :: rest => List.forall_mem_cons.2 ⟨h.pair first, h.pairs rest⟩

theorem pair (h : Hereditary P S) : ∀ p : Expr × Expr, P p.1 ∧ P p.2
  | (key, value) => ⟨h.expr key, h.expr value⟩

end

end Hereditary

/-! ## Statements outside of function literals -/

mutual

/-- Whether an expression contains a statement of some kind, function literals apart. -/
def Expr.anyStmt (p : Stmt → Bool) : Expr → Bool
  | .ident _ | .int _ | .str _ | .bool _ | .function .. => false
  | .prefixOp _ operand => operand.anyStmt p
  | .infixOp _ left right => left.anyStmt p || right.anyStmt p
  | .cond condition consequence alternative =>
      condition.anyStmt p || blockAnyStmt p consequence || otherwiseAnyStmt p alternative
  | .call callee arguments => callee.anyStmt p || exprsAnyStmt p arguments
  | .index container position => container.anyStmt p || position.anyStmt p
  | .array elements => exprsAnyStmt p elements
  | .hash pairs => pairsAnyStmt p pairs

/-- Whether a statement is of some kind or contains one that is, function literals apart. -/
def Stmt.anyStmt (p : Stmt → Bool) : Stmt → Bool
  | .bind name value => p (.bind name value) || value.anyStmt p
  | .ret value => p (.ret value) || value.anyStmt p
  | .expr value => p (.expr value) || value.anyStmt p

def blockAnyStmt (p : Stmt → Bool) : List Stmt → Bool
  | [] => false
  | first :: rest => first.anyStmt p || blockAnyStmt p rest

def otherwiseAnyStmt (p : Stmt → Bool) : Option (List Stmt) → Bool
  | none => false
  | some body => blockAnyStmt p body

def exprsAnyStmt (p : Stmt → Bool) : List Expr → Bool
  | [] => false
  | first :: rest => first.anyStmt p || exprsAnyStmt p rest

def pairsAnyStmt (p : Stmt → Bool) : List (Expr × Expr) → Bool
  | [] => false
  | first :: rest => pairAnyStmt p first || pairsAnyStmt p rest

def pairAnyStmt (p : Stmt → Bool) : Expr × Expr → Bool
  | (key, value) => key.anyStmt p || value.anyStmt p

end

/-- Whether a program contains a statement of some kind, function literals apart. -/
def Program.anyStmt (program : Program) (p : Stmt → Bool) : Bool :=
  blockAnyStmt p program

theorem pairsAnyStmt_eq_false {p : Stmt → Bool} {pairs : List (Expr × Expr)} :
    pairsAnyStmt p pairs = false ↔
      ∀ q ∈ pairs, q.1.anyStmt p = false ∧ q.2.anyStmt p = false := by
  induction pairs with
  | nil => simp [pairsAnyStmt]
  | cons q rest ih =>
      obtain ⟨key, value⟩ := q
      simp [pairsAnyStmt, pairAnyStmt, ih, and_assoc]

end Monkey
