import Monkey.Proofs.Declarations
import Monkey.Proofs.Isolation

/-!
# Where the code of a call comes from

A call runs the template of a closure, and templates come from function literals only. Compilation
adds one to the pool for each literal of a program and nothing else makes any, so each call of each
run in a session executes a literal of one of the programs that the session was given, and the top
level executes one of these programs. `Machine.Executes` connects the two: the machine runs the code
of a body, which is known by the sites that its text has.

The induction over compilation keeps a property of the templates in the pool, whatever it is. What
it needs of the property is that it holds of what literals give (`Literal.Gives`).
-/

namespace Monkey

/-! ## Function literals -/

/-- A function literal. It has a name if a `let` gives it one. -/
structure Literal where
  parameters : List String
  body : List Stmt
  name : Option String

mutual

/-- The function literals in an expression, those inside of others too. -/
def Expr.literals : Expr → List Literal
  | .ident _ | .int _ | .str _ | .bool _ => []
  | .prefixOp _ operand => operand.literals
  | .infixOp _ left right => left.literals ++ right.literals
  | .cond condition consequence alternative =>
      condition.literals ++ blockLiterals consequence ++ otherwiseLiterals alternative
  | .function parameters body name => ⟨parameters, body, name⟩ :: blockLiterals body
  | .call callee arguments => callee.literals ++ exprsLiterals arguments
  | .index container position => container.literals ++ position.literals
  | .array elements => exprsLiterals elements
  | .hash pairs => pairsLiterals pairs

/-- The function literals in a statement. -/
def Stmt.literals : Stmt → List Literal
  | .bind _ value | .ret value | .expr value => value.literals

def blockLiterals : List Stmt → List Literal
  | [] => []
  | first :: rest => first.literals ++ blockLiterals rest

def otherwiseLiterals : Option (List Stmt) → List Literal
  | none => []
  | some body => blockLiterals body

def exprsLiterals : List Expr → List Literal
  | [] => []
  | first :: rest => first.literals ++ exprsLiterals rest

def pairsLiterals : List (Expr × Expr) → List Literal
  | [] => []
  | first :: rest => pairLiterals first ++ pairsLiterals rest

def pairLiterals : Expr × Expr → List Literal
  | (key, value) => key.literals ++ value.literals

end

/-- The function literals of a program. -/
def Program.literals (p : Program) : List Literal :=
  blockLiterals p

/-- The bodies of a program: its top level, as if it were a function without parameters, and its
function literals. -/
def Program.bodies (p : Program) : List Literal :=
  ⟨[], p, none⟩ :: p.literals

attribute [local simp] Expr.literals Stmt.literals blockLiterals otherwiseLiterals exprsLiterals
  pairsLiterals pairLiterals

theorem mem_blockLiterals {ss : List Stmt} {s : Stmt} (hs : s ∈ ss) {f : Literal}
    (hf : f ∈ s.literals) : f ∈ blockLiterals ss := by
  induction ss with
  | nil => cases hs
  | cons first rest ih =>
      rw [blockLiterals]
      rcases List.mem_cons.1 hs with rfl | hs
      · exact List.mem_append_left _ hf
      · exact List.mem_append_right _ (ih hs)

theorem mem_exprsLiterals {es : List Expr} {e : Expr} (he : e ∈ es) {f : Literal}
    (hf : f ∈ e.literals) : f ∈ exprsLiterals es := by
  induction es with
  | nil => cases he
  | cons first rest ih =>
      rw [exprsLiterals]
      rcases List.mem_cons.1 he with rfl | he
      · exact List.mem_append_left _ hf
      · exact List.mem_append_right _ (ih he)

theorem mem_pairsLiterals {ps : List (Expr × Expr)} {p : Expr × Expr} (hp : p ∈ ps) {f : Literal}
    (hf : f ∈ p.1.literals ++ p.2.literals) : f ∈ pairsLiterals ps := by
  induction ps with
  | nil => cases hp
  | cons first rest ih =>
      rw [pairsLiterals]
      rcases List.mem_cons.1 hp with rfl | hp
      · obtain ⟨key, value⟩ := p
        exact List.mem_append_left _ hf
      · exact List.mem_append_right _ (ih hp)

/-! ## What a literal gives -/

/-- The parameters of a body and its sites. -/
structure Resolved.Body where
  parameters : List Symbol
  sites : List Resolved.Site

/-- The bindings of a body that begin in front of a place: its parameters, then its `let`s. -/
def Resolved.Body.opened (body : Resolved.Body) (before : List Resolved.Site) : List Symbol :=
  body.parameters ++ Resolved.opened before

/-- The body has the names of the text of the literal, in the order in which it is compiled. -/
structure Resolved.Body.Spells (body : Resolved.Body) (f : Literal) : Prop where
  parameters : body.parameters.map Symbol.name = f.parameters
  mentions : Resolved.mentioned body.sites = blockMentions f.body

/-- Somewhere the literal is compiled to a template, with this body. -/
inductive Literal.Gives (f : Literal) : Template → Resolved.Body → Prop where
  | intro {own : Nat} {g inner : Codegen} {rs : List Resolved.Stmt} : g.Wf own →
      g.symbols.Honest → f.parameters.length ≤ 255 →
      Codegen.block f.body (g.enter f.name f.parameters) = .ok inner →
      Resolved.block f.body (Codegen.openBody g.symbols f.name f.parameters) =
        some (rs, inner.closeBody.symbols) →
      f.Gives ⟨inner.closeBody.buffer.code, inner.closeBody.symbols.current.definitions,
          f.parameters.length⟩
        ⟨Resolved.slotsFrom 0 f.parameters, Resolved.blockSites .body rs⟩

namespace Codegen

/-! ## The templates of the pool -/

/-- What is known of a state in the middle of a compilation: the templates so far have the property
`P`. -/
structure Stocked (own : Nat) (P : Template → Prop) (g : Codegen) : Prop where
  wf : g.Wf own
  honest : g.symbols.Honest
  templates : ∀ (k : Nat) id t, g.constants[k]? = some (.template id t) → P t

section

variable {own : Nat} {P : Template → Prop} {g g' : Codegen}

theorem Stocked.congr (h : g.Stocked own P) (hsymbols : g'.symbols = g.symbols)
    (hconstants : g'.constants = g.constants) : g'.Stocked own P := by
  obtain ⟨constants, symbols, buffer, log⟩ := g'
  dsimp only at hsymbols hconstants
  subst hsymbols hconstants
  exact ⟨⟨h.wf.symbols, h.wf.own_le, h.wf.templates⟩, h.honest, h.templates⟩

theorem Stocked.emit (h : g.Stocked own P) (i : Instruction) : (g.emit i).Stocked own P :=
  h.congr rfl rfl

theorem Stocked.landHere (h : g.Stocked own P) {jump : Nat} (heq : g.landHere jump = .ok g') :
    g'.Stocked own P := by
  rw [Codegen.landHere] at heq
  obtain ⟨target, -, hret⟩ := Except.bind_eq_ok.1 heq
  cases hret
  exact h.congr rfl rfl

theorem Stocked.define (h : g.Stocked own P) (name : String) :
    { g with symbols := (g.symbols.define name).2 }.Stocked own P := by
  obtain ⟨hw, hgrows, -, -⟩ := SymbolTable.define_spec name h.wf.symbols
  have hroom := hgrows.room_le own
  exact ⟨⟨hw, h.wf.own_le.trans hroom.globals,
    PoolWf.mono h.wf.templates (.refl _) hroom.globals fun _ _ _ ht => ht⟩, h.honest.define name,
    h.templates⟩

theorem Stocked.closeBranch (h : g.Stocked own P) : g.closeBranch.Stocked own P := by
  obtain ⟨buffer, log, heq⟩ := g.exists_closeBranch_eq
  rw [heq]
  exact h.congr rfl rfl

theorem Stocked.closeBody (h : g.Stocked own P) : g.closeBody.Stocked own P := by
  obtain ⟨buffer, log, heq⟩ := g.exists_closeBody_eq
  rw [heq]
  exact h.congr rfl rfl

theorem Stocked.enter (h : g.Stocked own P) (name : Option String) (parameters : List String) :
    (g.enter name parameters).Stocked own P :=
  ⟨enter_wf h.wf name parameters, (h.honest.openBody name parameters).1, h.templates⟩

/-- Only the templates are left to look at behind an expression. -/
theorem Stocked.of_expr {e : Expr} (h : g.Stocked own P) (heq : expr e g = .ok g')
    (ht : ∀ (k : Nat) id t, g'.constants[k]? = some (.template id t) → P t) :
    g'.Stocked own P := by
  obtain ⟨r, hr, hadds⟩ := hereditary.expr e own g g' h.wf heq
  exact ⟨hadds.wf, (Resolved.hereditary_scoped.expr e _ _ _ h.honest hr).honest, ht⟩

theorem forall_push {K : Array Value} {v : Value}
    (h : ∀ (k : Nat) id t, K[k]? = some (.template id t) → P t)
    (hv : ∀ id t, v = .template id t → P t) :
    ∀ (k : Nat) id t, (K.push v)[k]? = some (.template id t) → P t := by
  intro k id t ht
  rw [Array.getElem?_push] at ht
  split at ht
  · exact hv id t (Option.some.inj ht)
  · exact h k id t ht

end

/-- Compiling the expression adds the templates of its literals. -/
def StocksExpr (P : Template → Prop) (e : Expr) : Prop :=
  (∀ f ∈ e.literals, ∀ t body, f.Gives t body → P t) →
    ∀ own g g', g.Stocked own P → expr e g = .ok g' → g'.Stocked own P

/-- Compiling the statement adds the templates of its literals. -/
def StocksStmt (P : Template → Prop) (s : Stmt) : Prop :=
  (∀ f ∈ s.literals, ∀ t body, f.Gives t body → P t) →
    ∀ own g g', g.Stocked own P → stmt s g = .ok g' → g'.Stocked own P

section

variable {own : Nat} {P : Template → Prop} {g g' : Codegen}

theorem stocks_block {ss : List Stmt} (ih : ∀ s ∈ ss, StocksStmt P s)
    (hlit : ∀ f ∈ blockLiterals ss, ∀ t body, f.Gives t body → P t) (hg : g.Stocked own P)
    (h : block ss g = .ok g') : g'.Stocked own P := by
  induction ss generalizing g with
  | nil =>
      rw [block] at h
      cases h
      exact hg
  | cons s ss ihss =>
      rw [block] at h
      obtain ⟨g₁, h₁, h⟩ := Except.bind_eq_ok.1 h
      obtain ⟨ihs, ihrest⟩ := List.forall_mem_cons.1 ih
      have hfirst :=
        ihs (fun f hf => hlit f (mem_blockLiterals List.mem_cons_self hf)) own g g₁ hg h₁
      exact ihss ihrest (fun f hf => hlit f (by rw [blockLiterals]; simp [hf])) hfirst h

theorem stocks_exprs {es : List Expr} (ih : ∀ e ∈ es, StocksExpr P e)
    (hlit : ∀ f ∈ exprsLiterals es, ∀ t body, f.Gives t body → P t) (hg : g.Stocked own P)
    (h : exprs es g = .ok g') : g'.Stocked own P := by
  induction es generalizing g with
  | nil =>
      rw [exprs] at h
      cases h
      exact hg
  | cons e es ihes =>
      rw [exprs] at h
      obtain ⟨g₁, h₁, h⟩ := Except.bind_eq_ok.1 h
      obtain ⟨ihe, ihrest⟩ := List.forall_mem_cons.1 ih
      have hfirst :=
        ihe (fun f hf => hlit f (mem_exprsLiterals List.mem_cons_self hf)) own g g₁ hg h₁
      exact ihes ihrest (fun f hf => hlit f (by rw [exprsLiterals]; simp [hf])) hfirst h

theorem stocks_pairs {ps : List (Expr × Expr)} (ih : ∀ p ∈ ps, StocksExpr P p.1 ∧ StocksExpr P p.2)
    (hlit : ∀ p ∈ ps, ∀ f ∈ p.1.literals ++ p.2.literals, ∀ t body, f.Gives t body → P t)
    (hg : g.Stocked own P) (h : g.inTurn (ps.map fun p => (pairCode p).2) = .ok g') :
    g'.Stocked own P := by
  induction ps generalizing g with
  | nil =>
      rw [List.map_nil, inTurn] at h
      cases h
      exact hg
  | cons p ps ihps =>
      obtain ⟨key, value⟩ := p
      rw [List.map_cons, inTurn, pairCode] at h
      obtain ⟨g₂, h₂, h⟩ := Except.bind_eq_ok.1 h
      obtain ⟨g₁, h₁, h₂⟩ := Except.bind_eq_ok.1 h₂
      obtain ⟨⟨ihk, ihv⟩, ihrest⟩ := List.forall_mem_cons.1 ih
      obtain ⟨hpair, hrest⟩ := List.forall_mem_cons.1 hlit
      have hkey := ihk (fun f hf => hpair f (List.mem_append_left _ hf)) own g g₁ hg h₁
      have hvalue := ihv (fun f hf => hpair f (List.mem_append_right _ hf)) own g₁ g₂ hkey h₂
      exact ihps ihrest hrest hvalue h

theorem stocks_otherwise {alternative : Option (List Stmt)}
    (ih : ∀ body, alternative = some body → ∀ s ∈ body, StocksStmt P s)
    (hlit : ∀ f ∈ otherwiseLiterals alternative, ∀ t body, f.Gives t body → P t)
    (hg : g.Stocked own P) (h : otherwise alternative g = .ok g') : g'.Stocked own P := by
  cases alternative with
  | none =>
      rw [otherwise] at h
      cases h
      exact hg.emit _
  | some body =>
      rw [otherwise] at h
      obtain ⟨g₁, h₁, h⟩ := Except.bind_eq_ok.1 h
      cases h
      exact (stocks_block (ih body rfl) hlit hg h₁).closeBranch

theorem stocks_pushConstant {e : Expr} {v : Value} (hg : g.Stocked own P)
    (heq : expr e g = g.pushConstant v) (hv : ∀ id t, v ≠ .template id t) (h : expr e g = .ok g') :
    g'.Stocked own P := by
  refine hg.of_expr h ?_
  rw [heq, pushConstant] at h
  obtain ⟨⟨k, g₁⟩, hadd, hret⟩ := Except.bind_eq_ok.1 h
  obtain ⟨-, -, rfl⟩ := addConstant_spec hadd
  cases hret
  exact forall_push hg.templates fun id t hvt => absurd hvt (hv id t)

end

variable {P : Template → Prop}

theorem stocks_ident (name : String) : StocksExpr P (.ident name) := by
  intro _ own g g' hg h
  refine hg.of_expr h ?_
  rw [expr, pushName] at h
  split at h
  · obtain ⟨-, rfl⟩ := pushSymbol_spec h
    exact hg.templates
  · cases h

theorem stocks_prefixOp (op : String) (operand : Expr) (ih : StocksExpr P operand) :
    StocksExpr P (.prefixOp op operand) := by
  intro hlit own g g' hg h
  rw [Expr.literals] at hlit
  rw [expr] at h
  obtain ⟨g₁, h₁, h⟩ := Except.bind_eq_ok.1 h
  obtain ⟨i, -, rfl⟩ := applyOperator_eq_ok h
  exact (ih hlit own g g₁ hg h₁).emit i

theorem stocks_infixOp (op : String) (left right : Expr) (ihl : StocksExpr P left)
    (ihr : StocksExpr P right) : StocksExpr P (.infixOp op left right) := by
  intro hlit own g g' hg h
  rw [Expr.literals] at hlit
  have hleft := ihl fun f hf => hlit f (List.mem_append_left _ hf)
  have hright := ihr fun f hf => hlit f (List.mem_append_right _ hf)
  rw [expr] at h
  split at h
  · obtain ⟨g₁, h₁, h⟩ := Except.bind_eq_ok.1 h
    obtain ⟨g₂, h₂, h⟩ := Except.bind_eq_ok.1 h
    cases h
    exact (hleft own g₁ g₂ (hright own g g₁ hg h₁) h₂).emit _
  · obtain ⟨g₁, h₁, h⟩ := Except.bind_eq_ok.1 h
    obtain ⟨g₂, h₂, h⟩ := Except.bind_eq_ok.1 h
    obtain ⟨i, -, rfl⟩ := applyOperator_eq_ok h
    exact (hright own g₁ g₂ (hleft own g g₁ hg h₁) h₂).emit i

theorem stocks_cond (condition : Expr) (consequence : List Stmt) (alternative : Option (List Stmt))
    (ihc : StocksExpr P condition) (iha : ∀ s ∈ consequence, StocksStmt P s)
    (ihb : ∀ body, alternative = some body → ∀ s ∈ body, StocksStmt P s) :
    StocksExpr P (.cond condition consequence alternative) := by
  intro hlit own g g' hg h
  rw [Expr.literals] at hlit
  rw [expr] at h
  obtain ⟨g₁, h₁, h⟩ := Except.bind_eq_ok.1 h
  obtain ⟨g₂, h₂, h⟩ := Except.bind_eq_ok.1 h
  obtain ⟨g₃, h₃, h⟩ := Except.bind_eq_ok.1 h
  obtain ⟨g₄, h₄, h⟩ := Except.bind_eq_ok.1 h
  have hcondition := ihc (fun f hf => hlit f (by simp [hf])) own g g₁ hg h₁
  have hfirst := stocks_block iha (fun f hf => hlit f (by simp [hf])) (hcondition.emit _) h₂
  have hexit := (hfirst.closeBranch.emit (.jump unknownTarget)).landHere h₃
  have hsecond := stocks_otherwise ihb (fun f hf => hlit f (by simp [hf])) hexit h₄
  exact hsecond.landHere h

theorem stocks_call (callee : Expr) (arguments : List Expr) (ihc : StocksExpr P callee)
    (iha : ∀ e ∈ arguments, StocksExpr P e) : StocksExpr P (.call callee arguments) := by
  intro hlit own g g' hg h
  rw [Expr.literals] at hlit
  rw [expr] at h
  obtain ⟨g₁, h₁, h⟩ := Except.bind_eq_ok.1 h
  obtain ⟨g₂, h₂, h⟩ := Except.bind_eq_ok.1 h
  obtain ⟨n, -, h⟩ := Except.bind_eq_ok.1 h
  cases h
  have hcallee := ihc (fun f hf => hlit f (List.mem_append_left _ hf)) own g g₁ hg h₁
  exact (stocks_exprs iha (fun f hf => hlit f (List.mem_append_right _ hf)) hcallee h₂).emit _

theorem stocks_index (container position : Expr) (ihc : StocksExpr P container)
    (ihp : StocksExpr P position) : StocksExpr P (.index container position) := by
  intro hlit own g g' hg h
  rw [Expr.literals] at hlit
  rw [expr] at h
  obtain ⟨g₁, h₁, h⟩ := Except.bind_eq_ok.1 h
  obtain ⟨g₂, h₂, h⟩ := Except.bind_eq_ok.1 h
  cases h
  have hcontainer := ihc (fun f hf => hlit f (List.mem_append_left _ hf)) own g g₁ hg h₁
  exact (ihp (fun f hf => hlit f (List.mem_append_right _ hf)) own g₁ g₂ hcontainer h₂).emit _

theorem stocks_array (elements : List Expr) (ih : ∀ e ∈ elements, StocksExpr P e) :
    StocksExpr P (.array elements) := by
  intro hlit own g g' hg h
  rw [Expr.literals] at hlit
  rw [expr] at h
  obtain ⟨g₁, h₁, h⟩ := Except.bind_eq_ok.1 h
  obtain ⟨n, -, h⟩ := Except.bind_eq_ok.1 h
  cases h
  exact (stocks_exprs ih hlit hg h₁).emit _

theorem stocks_hash (pairs : List (Expr × Expr))
    (ih : ∀ p ∈ pairs, StocksExpr P p.1 ∧ StocksExpr P p.2) : StocksExpr P (.hash pairs) := by
  intro hlit own g g' hg h
  rw [Expr.literals] at hlit
  rw [expr] at h
  obtain ⟨g₁, h₁, h⟩ := Except.bind_eq_ok.1 h
  obtain ⟨n, -, h⟩ := Except.bind_eq_ok.1 h
  cases h
  rw [pairCodes_sorted] at h₁
  have hperm : (ordered pairs).Perm pairs := List.mergeSort_perm _ _
  exact (stocks_pairs (fun p hp => ih p (hperm.mem_iff.1 hp))
    (fun p hp f hf => hlit f (mem_pairsLiterals (hperm.mem_iff.1 hp) hf)) hg h₁).emit _

/-- The one place where a template is made: its body has been compiled in a scope of its own. -/
theorem stocks_function (parameters : List String) (body : List Stmt) (name : Option String)
    (ih : ∀ s ∈ body, StocksStmt P s) : StocksExpr P (.function parameters body name) := by
  intro hlit own g g' hg h
  rw [Expr.literals] at hlit
  obtain ⟨hself, hinside⟩ := List.forall_mem_cons.1 hlit
  refine hg.of_expr h ?_
  rw [expr] at h
  obtain ⟨count, hop, h⟩ := Except.bind_eq_ok.1 h
  obtain ⟨hcount, rfl⟩ := operand_eq_ok.1 hop
  obtain ⟨inner, hbody, h⟩ := Except.bind_eq_ok.1 h
  rw [within_eq_ok] at hbody
  obtain ⟨rs, hrs, hencl⟩ := body_adds (hereditary.block body) hg.wf hcount hbody
  obtain ⟨g₁, hpush, -, -, rfl⟩ := makeClosure_eq_ok h
  rw [hencl.left] at hpush ⊢
  obtain ⟨-, hconst, -⟩ := pushSymbols_adds hencl.wf hencl.within hpush
  have hgives : Literal.Gives ⟨parameters, body, name⟩ _ _ :=
    .intro hg.wf hg.honest hcount hbody hrs
  have hinner := (stocks_block ih hinside (hg.enter name parameters) hbody).closeBody
  refine forall_push ?_ fun id t ht => ?_
  · rw [hconst]
    exact hinner.templates
  · cases ht
    exact hself _ _ hgives

theorem stocks_bind (name : String) (value : Expr) (ih : StocksExpr P value) :
    StocksStmt P (.bind name value) := by
  intro hlit own g g' hg h
  rw [Stmt.literals] at hlit
  rw [stmt] at h
  obtain ⟨g₁, h₁, h⟩ := Except.bind_eq_ok.1 h
  obtain ⟨-, rfl, -⟩ := store_spec h
  exact (ih hlit own _ g₁ (hg.define name) h₁).emit _

theorem stocks_ret (value : Expr) (ih : StocksExpr P value) : StocksStmt P (.ret value) := by
  intro hlit own g g' hg h
  rw [Stmt.literals] at hlit
  rw [stmt] at h
  obtain ⟨g₁, h₁, h⟩ := Except.bind_eq_ok.1 h
  cases h
  exact (ih hlit own g g₁ hg h₁).emit _

theorem stocks_value (value : Expr) (ih : StocksExpr P value) : StocksStmt P (.expr value) := by
  intro hlit own g g' hg h
  rw [Stmt.literals] at hlit
  rw [stmt] at h
  obtain ⟨g₁, h₁, h⟩ := Except.bind_eq_ok.1 h
  cases h
  exact (ih hlit own g g₁ hg h₁).emit _

theorem hereditary_stocks : Hereditary (StocksExpr P) (StocksStmt P) where
  ident := stocks_ident
  int value _ _ g _ hg h := stocks_pushConstant hg (by rw [expr]) (by intro id t ht; cases ht) h
  str text _ _ g _ hg h := stocks_pushConstant hg (by rw [expr]) (by intro id t ht; cases ht) h
  bool value _ own g g' hg h := by
    rw [expr] at h
    cases h
    exact hg.emit _
  prefixOp := stocks_prefixOp
  infixOp := stocks_infixOp
  cond := stocks_cond
  function := stocks_function
  call := stocks_call
  index := stocks_index
  array := stocks_array
  hash := stocks_hash
  bind := stocks_bind
  ret := stocks_ret
  value := stocks_value

end Codegen

/-! ## Programs one after the other -/

namespace Compiler

theorem after_concat (programs : List Program) (p : Program) :
    after (programs ++ [p]) = ((after programs).compile p).2 := by
  rw [after, List.foldl_append]
  rfl

theorem new_honest : new.symbols.Honest := by
  have hall : ∀ (scopes : List Scope) (bodies : Bodies), SymbolTable.MirrorsFrom scopes bodies →
      ∀ scope ∈ scopes, SymbolTable.Named scope := by
    intro scopes
    induction scopes with
    | nil => exact fun _ _ _ hmem => absurd hmem List.not_mem_nil
    | cons scope around ih =>
        intro bodies h
        cases bodies with
        | nil => exact h.elim
        | cons names bodies => exact List.forall_mem_cons.2 ⟨h.1, ih bodies h.2.2⟩
  exact hall _ _ SymbolTable.builtinSymbols_mirrors

theorem after_honest (programs : List Program) : (after programs).symbols.Honest := by
  induction programs using List.reverseRecOn with
  | nil => exact new_honest
  | append_singleton programs p ih =>
      rw [after_concat]
      rcases h : (after programs).compile p with ⟨e | b, c⟩
      · rw [compile_eq_error (after_wf programs).top h]
        exact ih
      · obtain ⟨rs, hrs, -⟩ := (compile_eq_ok (after_wf programs) h).laid
        exact (Resolved.scoped_block (fun s _ => Resolved.hereditary_scoped.stmt s) ih hrs).1.honest

/-- Every template of the pool is given by a literal of one of the programs. -/
theorem after_templates (programs : List Program) {k : Nat} {id : Identity} {t : Template}
    (ht : (after programs).constants[k]? = some (.template id t)) :
    ∃ p ∈ programs, ∃ f ∈ p.literals, ∃ body, f.Gives t body := by
  induction programs using List.reverseRecOn generalizing k id t with
  | nil =>
      rw [after, List.foldl_nil, new, Array.getElem?_empty] at ht
      cases ht
  | append_singleton programs p ih =>
      have hold : ∀ (k : Nat) id t, (after programs).constants[k]? = some (.template id t) →
          ∃ q ∈ programs ++ [p], ∃ f ∈ q.literals, ∃ body, f.Gives t body := by
        intro k id t ht
        obtain ⟨q, hq, hf⟩ := ih ht
        exact ⟨q, List.mem_append_left _ hq, hf⟩
      rw [after_concat, compile] at ht
      split at ht
      · next g hblock =>
          have hstart := Codegen.Stocked.mk (after_wf programs).start (after_honest programs) hold
          have hend := Codegen.stocks_block (fun s _ => Codegen.hereditary_stocks.stmt s)
            (fun f hf t body hgives => ⟨p, by simp, f, hf, body, hgives⟩) hstart hblock
          exact hend.templates k id t ht
      · next refusal hblock =>
          rw [rollBack_eq (after_wf programs).top hblock] at ht
          exact hold k id t ht

/-- The code is that of one of the programs, compiled behind those before it. -/
def Accepted (programs : List Program) (b : Bytecode) : Prop :=
  ∃ earlier p later c, programs = earlier ++ p :: later ∧ (after earlier).compile p = (.ok b, c)

variable {programs : List Program} {p : Program} {b : Bytecode}

theorem Accepted.mono (h : Accepted programs b) (more : List Program) :
    Accepted (programs ++ more) b := by
  obtain ⟨earlier, p, later, c, rfl, hc⟩ := h
  exact ⟨earlier, p, later ++ more, c, by simp, hc⟩

theorem accepted_of_compile {c : Compiler} (h : (after programs).compile p = (.ok b, c)) :
    Accepted (programs ++ [p]) b :=
  ⟨programs, p, [], c, rfl, h⟩

theorem Accepted.templates (h : Accepted programs b) {k : Nat} {id : Identity} {t : Template}
    (ht : b.constants[k]? = some (.template id t)) :
    ∃ p ∈ programs, ∃ f ∈ p.literals, ∃ body, f.Gives t body := by
  obtain ⟨earlier, p, later, c, rfl, hc⟩ := h
  have hnext : (after (earlier ++ [p])).constants[k]? = some (.template id t) := by
    rw [after_concat, hc]
    rw [(compile_eq_ok (after_wf earlier) hc).bytecode] at ht
    exact ht
  obtain ⟨q, hq, hf⟩ := after_templates _ hnext
  refine ⟨q, ?_, hf⟩
  rw [← List.singleton_append, ← List.append_assoc]
  exact List.mem_append_left _ hq

end Compiler

/-! ## Machines -/

/-- The machine is in the code of a body that the programs contain: at the top level that is one of
the programs, else one of their function literals. -/
inductive Machine.Executes (programs : List Program) (m : Machine) : Resolved.Body → Prop where
  | program {earlier later : List Program} {p : Program} {b : Bytecode} {c : Compiler}
      {rs : List Resolved.Stmt} : m.callers = #[] → programs = earlier ++ p :: later →
      (Compiler.after earlier).compile p = (.ok b, c) → m.frame.body = ⟨b.code, 0, 0⟩ →
      Resolved.block p (Compiler.after earlier).symbols = some (rs, c.symbols) →
      Executes programs m ⟨[], Resolved.stmtsSites rs⟩
  | call {p : Program} {f : Literal} {body : Resolved.Body} : m.callers ≠ #[] → p ∈ programs →
      f ∈ p.literals → f.Gives m.frame.body body → Executes programs m body

namespace Machine

variable {m m' m₀ : Machine} {st : Stage} {g : Array Value} {xs : List Value}

/-- A step leaves the frames alone that are there before and after it, up to the place of the one
that has made the step. -/
theorem Moves.frame_at (h : m.Moves m') {d : Nat} (hd : d ≤ m.callers.size)
    (hd' : d ≤ m'.callers.size) :
    ∃ f ip, m.frames[d]? = some f ∧ m'.frames[d]? = some (f.at ip) ∧
      (d < m.callers.size → ip = f.ip) := by
  -- a frame below the current one, and the current one itself with another place
  have hbelow : ∀ {rest rest' : List Frame}, d < m.callers.size →
      ∃ f ip, (m.callers.toList ++ rest)[d]? = some f ∧
        (m.callers.toList ++ rest')[d]? = some (f.at ip) ∧ (d < m.callers.size → ip = f.ip) := by
    intro rest rest' hlt
    rw [← Array.length_toList] at hlt
    rw [List.getElem?_append_left hlt, List.getElem?_append_left hlt]
    exact ⟨_, _, List.getElem?_eq_getElem hlt, List.getElem?_eq_getElem hlt, fun _ => rfl⟩
  have hhere : ∀ {ip : Nat} {rest : List Frame}, d = m.callers.size →
      ∃ f ip', (m.callers.toList ++ [m.frame])[d]? = some f ∧
        (m.callers.toList ++ m.frame.at ip :: rest)[d]? = some (f.at ip') ∧
        (d < m.callers.size → ip' = f.ip) := by
    rintro ip rest rfl
    refine ⟨m.frame, ip, ?_, ?_, fun hlt => absurd hlt (Nat.lt_irrefl _)⟩
    · rw [← Array.length_toList, List.getElem?_concat_length]
    · rw [← Array.length_toList, List.getElem?_append_right (Nat.le_refl _), Nat.sub_self]
      rfl
  cases h with
  | onward ip _ _ hframe hcallers =>
      rw [frames, frames, hcallers, hframe]
      rcases Nat.lt_or_eq_of_le hd with hlt | heq
      · exact hbelow hlt
      · exact hhere heq
  | into ip _ _ _ _ hcallers =>
      rw [frames, frames, hcallers, Array.toList_push, List.append_assoc]
      rcases Nat.lt_or_eq_of_le hd with hlt | heq
      · exact hbelow hlt
      · exact hhere heq
  | back hcallers =>
      have hlist : m.callers.toList = m'.frames := by rw [hcallers, Array.toList_push]; rfl
      have hlt : d < m.callers.size := by rw [hcallers, Array.size_push]; omega
      rw [frames, ← hlist, ← List.append_nil m.callers.toList, List.append_assoc]
      exact hbelow hlt

/-- The code of the bottom frame stays the same. -/
theorem Good.bottom (hgood : m₀.Good st g) (hg : st.Reads g) (hreach : m₀.Reaches m) :
    m.frames[0]?.map Frame.body = m₀.frames[0]?.map Frame.body := by
  induction hreach with
  | refl => rfl
  | tail hreach hstep ih =>
      obtain ⟨hmoves, -⟩ := (hgood.of_reaches hg hreach).moves hg hstep
      obtain ⟨f, ip, hf, hf', -⟩ := hmoves.frame_at (Nat.zero_le _) (Nat.zero_le _)
      rw [← ih, hf, hf']
      rfl

/-- A call runs a function of the pool. -/
theorem Ok.exists_template (hok : m.Ok st g xs) (hcallers : m.callers ≠ #[]) :
    ∃ (k : Nat) (id : Identity), m.constants[k]? = some (.template id m.frame.body) := by
  obtain ⟨room, h, -, hrun⟩ := hok.frames.running
  rw [hok.constants]
  cases hinner : room.inner with
  | false =>
      have hnil := (hrun.top hinner).1
      rw [List.reverse_eq_nil_iff, Array.toList_eq_nil_iff] at hnil
      exact absurd hnil hcallers
  | true => exact (hrun.inner hinner).2.exists_template

/-- Whatever machine a run of a program comes to, it executes a body of the programs. -/
theorem Ok.exists_executes {programs : List Program} {b : Bytecode} (hok : m₀.Ok st g xs)
    (hg : st.Reads g) (hb : Compiler.Accepted programs b) (hconstants : m₀.constants = b.constants)
    (hframes : m₀.frames.map Frame.body = [⟨b.code, 0, 0⟩]) (hreach : m₀.Reaches m) :
    ∃ body, m.Executes programs body := by
  have hgood : m₀.Good st g := .inl ⟨xs, hok⟩
  by_cases hcallers : m.callers = #[]
  · have hbody := hgood.bottom hg hreach
    rw [← List.getElem?_map, ← List.getElem?_map, hframes, Machine.frames, hcallers] at hbody
    obtain ⟨earlier, p, later, c, hprograms, hc⟩ := hb
    obtain ⟨rs, hrs, -⟩ := (Compiler.compile_eq_ok (Compiler.after_wf earlier) hc).laid
    exact ⟨_, .program hcallers hprograms hc (Option.some.inj hbody) hrs⟩
  · rcases hgood.of_reaches hg hreach with ⟨ys, hok'⟩ | hdone
    · obtain ⟨k, id, ht⟩ := hok'.exists_template hcallers
      rw [hok'.constants, ← hok.constants, hconstants] at ht
      obtain ⟨p, hp, f, hf, body, hgives⟩ := hb.templates ht
      exact ⟨body, .call hcallers hp hf hgives⟩
    · exact absurd hdone.callers hcallers

end Machine

/-! ## Sessions -/

namespace Session

/-- The program that is compiled by an action, if it compiles one. -/
def Action.program? : Action → Option Program
  | .eval source => (Program.parse source).toOption
  | .evalProgram p | .compile p => some p
  | .run _ => none

/-- The programs that a session was given, whether it accepted them or not. -/
def programsOf (actions : List Action) : List Program :=
  actions.filterMap Action.program?

/-- The machine starts a program of the session. -/
def Launches (programs : List Program) (m : Machine) : Prop :=
  ∃ limits b globals issued console self, m = .start limits b globals issued console self ∧
    Compiler.Accepted programs b

theorem Launches.mono {programs : List Program} {m : Machine} (h : Launches programs m)
    (more : List Program) : Launches (programs ++ more) m := by
  obtain ⟨limits, b, globals, issued, console, self, heq, hb⟩ := h
  exact ⟨limits, b, globals, issued, console, self, heq, hb.mono more⟩

/-- A history goes back to these programs. -/
structure History.Traced (h : History) (programs : List Program) : Prop where
  compiler : h.session.compiler = .after programs
  returned : ∀ b ∈ h.programs, Compiler.Accepted programs b
  machines : ∀ m ∈ h.machines, Launches programs m

variable {s : Session} {programs : List Program}

theorem compiler_compile (s : Session) (p : Program) :
    (s.compile p).2.compiler = (s.compiler.compile p).2 :=
  rfl

theorem compiler_evalProgram (s : Session) (p : Program) :
    (s.evalProgram p).2.compiler = (s.compiler.compile p).2 := by
  rw [← compiler_compile, evalProgram]
  rcases s.compile p with ⟨e | b, s'⟩ <;> rfl

theorem accepted_of_compile {b : Bytecode} {s' : Session} {p : Program}
    (hs : s.compiler = .after programs) (h : s.compile p = (.ok b, s')) :
    Compiler.Accepted (programs ++ [p]) b := by
  rw [Session.compile, hs] at h
  rcases hc : (Compiler.after programs).compile p with ⟨e | b', c⟩ <;> rw [hc] at h <;> cases h
  exact Compiler.accepted_of_compile hc

theorem launches_of_started {p : Program} (hs : s.compiler = .after programs) :
    ∀ m ∈ s.started p, Launches (programs ++ [p]) m := by
  rw [started]
  rcases h : s.compile p with ⟨e | b, s'⟩
  · exact List.forall_mem_nil _
  · exact List.forall_mem_singleton.2
      ⟨_, b, _, _, _, _, rfl, accepted_of_compile hs h⟩

namespace History.Traced

variable {h : History}

theorem evalProgram (ht : h.Traced programs) (p : Program) :
    (h.perform (.evalProgram p)).Traced (programs ++ [p]) := by
  refine ⟨?_, fun b hb => (ht.returned b hb).mono _, List.forall_mem_append.2
    ⟨fun m hm => (ht.machines m hm).mono _, launches_of_started ht.compiler⟩⟩
  rw [Compiler.after_concat, ← ht.compiler]
  exact compiler_evalProgram h.session p

theorem eval (ht : h.Traced programs) (source : String) :
    (h.perform (.eval source)).Traced (programs ++ (Program.parse source).toOption.toList) := by
  cases hp : Program.parse source with
  | ok p =>
      have heq : h.perform (.eval source) = h.perform (.evalProgram p) := by
        rw [perform, perform, Session.eval, hp]
      rw [heq]
      exact ht.evalProgram p
  | error e =>
      have heq : h.perform (.eval source) = { h with results := h.results ++ [.error e] } := by
        rw [perform, Session.eval, hp]
        show ({ h with machines := h.machines ++ [], results := _ } : History) = _
        rw [List.append_nil]
      rw [heq]
      show History.Traced _ (programs ++ [])
      rw [List.append_nil]
      exact ⟨ht.compiler, ht.returned, ht.machines⟩

theorem compile (ht : h.Traced programs) (p : Program) :
    (h.perform (.compile p)).Traced (programs ++ [p]) := by
  refine ⟨?_, List.forall_mem_append.2 ⟨fun b hb => (ht.returned b hb).mono _, fun b hb => ?_⟩,
    fun m hm => (ht.machines m hm).mono _⟩
  · rw [Compiler.after_concat, ← ht.compiler]
    exact compiler_compile h.session p
  · rcases hc : h.session.compile p with ⟨e | b', s'⟩
    · rw [hc] at hb
      cases hb
    · rw [hc] at hb
      rw [List.mem_singleton.1 hb]
      exact accepted_of_compile ht.compiler hc

theorem run (ht : h.Traced programs) (k : Nat) : (h.perform (.run k)).Traced programs := by
  rw [perform]
  split
  · next b hb =>
      refine ⟨ht.compiler, ht.returned, List.forall_mem_append.2
        ⟨ht.machines, List.forall_mem_singleton.2 ?_⟩⟩
      exact ⟨_, b, _, _, _, _, rfl, ht.returned b (List.mem_of_getElem? hb)⟩
  · exact ht

theorem perform (ht : h.Traced programs) (action : Action) :
    (h.perform action).Traced (programs ++ action.program?.toList) := by
  cases action with
  | eval source => exact ht.eval source
  | evalProgram p => exact ht.evalProgram p
  | compile p => exact ht.compile p
  | run k =>
      show History.Traced _ (programs ++ [])
      rw [List.append_nil]
      exact ht.run k

end History.Traced

theorem history_traced (limits : Limits) (console : Console) (fuel : Nat) (actions : List Action) :
    (({ limits, console, fuel } : Session).history actions).Traced (programsOf actions) := by
  induction actions using List.reverseRecOn with
  | nil => exact ⟨rfl, List.forall_mem_nil _, List.forall_mem_nil _⟩
  | append_singleton actions action ih =>
      have hlast : [action].filterMap Action.program? = action.program?.toList := by
        cases h : action.program? <;> simp [h]
      rw [history, List.foldl_append, programsOf, List.filterMap_append, hlast]
      exact ih.perform action

/-- Whatever machine a run of a session comes to, it executes a body of the programs that the
session was given. -/
theorem exists_executes (limits : Limits) (console : Console) (fuel : Nat) (actions : List Action)
    {m₀ m : Machine} (hm₀ : m₀ ∈ (({ limits, console, fuel } : Session).history actions).machines)
    (hreach : m₀.Reaches m) : ∃ body, m.Executes (programsOf actions) body := by
  obtain ⟨st, g, hok, hg⟩ := (history_sane limits console fuel actions).starts m₀ hm₀
  obtain ⟨_, b, _, _, _, _, rfl, hb⟩ := (history_traced limits console fuel actions).machines m₀ hm₀
  exact hok.exists_executes hg hb rfl rfl hreach

end Session

end Monkey
