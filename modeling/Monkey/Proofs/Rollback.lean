import Monkey.Codegen.Basic
import Monkey.Proofs.Trees

/-!
# Programs that are given up

A program can be refused at any depth. By then it has defined names, opened the scopes and streams
of function bodies, captured what they use and put constants into the pool. The compiler takes all
this back in three ways: the symbols are those of the top level that was set aside at the start, the
constants are cut back to their old number, and the streams are dropped.

The first gives back all symbols because no body is open between two programs. The second gives back
the old constants because new ones are only ever put behind them, whichever way a compilation ends.
This is `Above`, which each part of a program keeps, and `rollBack_eq` draws the conclusion.
-/

namespace Monkey

namespace Codegen

-- The equations of compilation, which every lemma about a constructor opens.
attribute [local simp] pushSymbols inTurn expr stmt block otherwise exprs pairCodes pairCode

/-! ## Both ways out -/

/-- `P` holds of what is returned, and `Q` of the refusal if the program is refused. -/
def Ends {α : Type} (P : α → Prop) (Q : Refusal → Prop) : Except Refusal α → Prop
  | .ok a => P a
  | .error refusal => Q refusal

namespace Ends

variable {α β : Type} {P : α → Prop} {P' : β → Prop} {Q : Refusal → Prop}

theorem bind {x : Except Refusal α} {f : α → Except Refusal β} (h : Ends P Q x)
    (hf : ∀ {a}, P a → Ends P' Q (f a)) : Ends P' Q (x >>= f) := by
  cases x with
  | error refusal => exact h
  | ok a => exact hf h

theorem imp {P' : α → Prop} {x : Except Refusal α} (h : Ends P Q x) (himp : ∀ {a}, P a → P' a) :
    Ends P' Q x := by
  cases x with
  | error refusal => exact h
  | ok a => exact himp h

/-- An operand within its limit, or a refusal in the present state. -/
theorem operand {g : Codegen} (hrefused : ∀ e, Q { error := e, state := g }) (what : Resource)
    (count : Nat) {f : Nat → Except Refusal α} (hf : count ≤ what.limit → Ends P Q (f count)) :
    Ends P Q (g.operand what count >>= f) := by
  rw [Codegen.operand]
  split
  · next hle => exact hf hle
  · exact hrefused _

end Ends

/-! ## Constants are only added -/

theorem exists_closeBranch_eq (g : Codegen) :
    ∃ buffer log, g.closeBranch = { g with buffer, log } := by
  rw [closeBranch]
  split
  · exact ⟨_, _, rfl⟩
  · split <;> exact ⟨_, _, rfl⟩

theorem exists_closeBody_eq (g : Codegen) :
    ∃ buffer log, g.closeBody = { g with buffer, log } := by
  rw [closeBody]
  split <;> split <;> exact ⟨_, _, rfl⟩

/-- The constants begin with those of `K`. -/
def Above (K : Array Value) (g : Codegen) : Prop :=
  K.toList <+: g.constants.toList

/-- The constants begin with those of `K` at the end, also if it is a refusal. -/
abbrev EndsAbove (K : Array Value) (x : Result) : Prop :=
  Ends (Above K) (fun refusal => refusal.state.Above K) x

variable {K : Array Value} {g : Codegen}

namespace Above

theorem count (h : g.Above K) (what : Resource) (n : Nat) (i : Nat → Instruction) :
    EndsAbove K (g.operand what n >>= fun k => .ok (g.emit (i k))) :=
  .operand (fun _ => h) what n fun _ => h

theorem addConstant (h : g.Above K) (value : Value) {f : Nat × Codegen → Result}
    (hf : ∀ k {g'}, Above K g' → EndsAbove K (f (k, g'))) :
    EndsAbove K (g.addConstant value >>= f) := by
  rw [Codegen.addConstant, bind_assoc]
  refine .operand (fun _ => h) _ _ fun _ => hf _ ?_
  rw [Above, Array.toList_push]
  exact h.trans (List.prefix_append _ _)

theorem pushConstant (h : g.Above K) (value : Value) : EndsAbove K (g.pushConstant value) := by
  rw [Codegen.pushConstant]
  exact h.addConstant value fun _ _ h => h

theorem pushSymbol (h : g.Above K) (s : Symbol) : EndsAbove K (g.pushSymbol s) := by
  rw [Codegen.pushSymbol]
  cases s.storage with
  | self => exact h
  | _ => exact h.count _ _ _

theorem pushSymbols (h : g.Above K) (symbols : List Symbol) :
    EndsAbove K (g.pushSymbols symbols) := by
  induction symbols generalizing g with
  | nil => exact h
  | cons s rest ih => exact (h.pushSymbol s).bind ih

theorem pushName (h : g.Above K) (name : String) : EndsAbove K (g.pushName name) := by
  rw [Codegen.pushName]
  cases g.symbols.resolve name with
  | none => exact h
  | some found =>
      have hfound : { g with symbols := found.2 }.Above K := h
      exact hfound.pushSymbol found.1

theorem store (h : g.Above K) (s : Symbol) : EndsAbove K (g.store s) := by
  rw [Codegen.store]
  cases s.storage <;> exact h.count _ _ _

theorem landHere (h : g.Above K) (jump : Nat) : EndsAbove K (g.landHere jump) := by
  rw [Codegen.landHere]
  exact .operand (fun _ => h) _ _ fun _ => h

theorem applyOperator (h : g.Above K) (op : String) (i : Option Instruction) :
    EndsAbove K (g.applyOperator op i) := by
  cases i <;> exact h

theorem closeBranch (h : g.Above K) : g.closeBranch.Above K := by
  obtain ⟨buffer, log, heq⟩ := g.exists_closeBranch_eq
  rw [heq]
  exact h

theorem closeBody (h : g.Above K) : g.closeBody.Above K := by
  obtain ⟨buffer, log, heq⟩ := g.exists_closeBody_eq
  rw [heq]
  exact h

theorem within (outer : Codegen) {x : Result} (h : EndsAbove K x) :
    EndsAbove K (outer.within x) := by
  cases x <;> exact h

theorem makeClosure (h : g.Above K) (outer : Codegen) (parameters : Nat) :
    EndsAbove K (g.makeClosure outer parameters) := by
  have hleave : (outer.leave g.closeBody).Above K := h.closeBody
  rw [Codegen.makeClosure]
  refine .operand (fun _ => hleave) _ _ fun _ => (hleave.pushSymbols _).bind fun h => ?_
  exact h.addConstant _ fun _ _ h => h

end Above

/-! ## Every part of a program -/

/-- Compiling the expression only adds constants. -/
def AddsExpr (e : Expr) : Prop :=
  ∀ ⦃K g⦄, Above K g → EndsAbove K (expr e g)

/-- Compiling the statement only adds constants. -/
def AddsStmt (s : Stmt) : Prop :=
  ∀ ⦃K g⦄, Above K g → EndsAbove K (stmt s g)

theorem above_block {body : List Stmt} (ih : ∀ s ∈ body, AddsStmt s) (h : g.Above K) :
    EndsAbove K (block body g) := by
  induction body generalizing g with
  | nil =>
      rw [block]
      exact h
  | cons s rest ihrest =>
      obtain ⟨ihs, ihss⟩ := List.forall_mem_cons.1 ih
      rw [block]
      exact (ihs h).bind (ihrest ihss)

theorem above_exprs {es : List Expr} (ih : ∀ e ∈ es, AddsExpr e) (h : g.Above K) :
    EndsAbove K (exprs es g) := by
  induction es generalizing g with
  | nil =>
      rw [exprs]
      exact h
  | cons e rest ihrest =>
      obtain ⟨ihe, ihes⟩ := List.forall_mem_cons.1 ih
      rw [exprs]
      exact (ihe h).bind (ihrest ihes)

theorem above_otherwise {alternative : Option (List Stmt)}
    (ih : ∀ body, alternative = some body → ∀ s ∈ body, AddsStmt s) (h : g.Above K) :
    EndsAbove K (otherwise alternative g) := by
  cases alternative with
  | none =>
      rw [otherwise]
      exact h
  | some body =>
      rw [otherwise]
      exact (above_block (ih body rfl) h).bind Above.closeBranch

theorem above_inTurn {parts : List (Codegen → Result)}
    (ih : ∀ f ∈ parts, ∀ {g}, Above K g → EndsAbove K (f g)) (h : g.Above K) :
    EndsAbove K (g.inTurn parts) := by
  induction parts generalizing g with
  | nil => exact h
  | cons f rest ihrest =>
      obtain ⟨ihf, ihfs⟩ := List.forall_mem_cons.1 ih
      exact (ihf h).bind (ihrest ihfs)

theorem above_pairCodes {pairs : List (Expr × Expr)}
    (ih : ∀ p ∈ pairs, AddsExpr p.1 ∧ AddsExpr p.2) :
    ∀ code ∈ pairCodes pairs, ∀ {g}, Above K g → EndsAbove K (code.2 g) := by
  induction pairs with
  | nil =>
      rw [pairCodes]
      exact List.forall_mem_nil _
  | cons p rest ihrest =>
      obtain ⟨key, value⟩ := p
      obtain ⟨⟨ihk, ihv⟩, ihps⟩ := List.forall_mem_cons.1 ih
      rw [pairCodes, pairCode]
      exact List.forall_mem_cons.2 ⟨fun h => (ihk h).bind (ihv ·), ihrest ihps⟩

theorem addsExpr_infixOp (op : String) (left right : Expr) (ihl : AddsExpr left)
    (ihr : AddsExpr right) : AddsExpr (.infixOp op left right) := by
  intro K g h
  rw [expr]
  split
  · exact (ihr h).bind fun h => (ihl h).bind fun h => h
  · exact (ihl h).bind fun h => (ihr h).bind fun h => h.applyOperator _ _

theorem addsExpr_cond (condition : Expr) (consequence : List Stmt)
    (alternative : Option (List Stmt)) (ihc : AddsExpr condition)
    (ihs : ∀ s ∈ consequence, AddsStmt s)
    (iha : ∀ body, alternative = some body → ∀ s ∈ body, AddsStmt s) :
    AddsExpr (.cond condition consequence alternative) := by
  intro K g h
  rw [expr]
  refine (ihc h).bind fun {g₁} h₁ => ?_
  have htest : (g₁.emit (.jumpUnless unknownTarget)).Above K := h₁
  refine (above_block ihs htest).bind fun {g₂} h₂ => ?_
  have hexit : (g₂.closeBranch.emit (.jump unknownTarget)).Above K := h₂.closeBranch
  exact (hexit.landHere _).bind fun h₃ => (above_otherwise iha h₃).bind fun h₄ => h₄.landHere _

theorem addsExpr_function (parameters : List String) (body : List Stmt) (name : Option String)
    (ih : ∀ s ∈ body, AddsStmt s) : AddsExpr (.function parameters body name) := by
  intro K g h
  rw [expr]
  refine .operand (fun _ => h) _ _ fun _ => ?_
  have henter : (g.enter name parameters).Above K := h
  exact (Above.within g (above_block ih henter)).bind fun h => h.makeClosure g _

theorem addsExpr_hash (pairs : List (Expr × Expr))
    (ih : ∀ p ∈ pairs, AddsExpr p.1 ∧ AddsExpr p.2) : AddsExpr (.hash pairs) := by
  intro K g h
  rw [expr]
  refine (above_inTurn (fun f hf => ?_) h).bind fun h => h.count _ _ _
  obtain ⟨code, hmem, rfl⟩ := List.mem_map.1 hf
  exact above_pairCodes ih code (List.mem_mergeSort.1 hmem)

theorem hereditary_adds : Hereditary AddsExpr AddsStmt where
  ident name K g h := by
    rw [expr]
    exact h.pushName name
  int value K g h := by
    rw [expr]
    exact h.pushConstant _
  str text K g h := by
    rw [expr]
    exact h.pushConstant _
  bool value K g h := by
    rw [expr]
    exact h
  prefixOp op operand ih K g h := by
    rw [expr]
    exact (ih h).bind fun h => h.applyOperator _ _
  infixOp := addsExpr_infixOp
  cond := addsExpr_cond
  function := addsExpr_function
  call callee arguments ihc iha K g h := by
    rw [expr]
    exact (ihc h).bind fun h => (above_exprs iha h).bind fun h => h.count _ _ _
  index container position ihc ihp K g h := by
    rw [expr]
    exact (ihc h).bind fun h => (ihp h).bind fun h => h
  array elements ih K g h := by
    rw [expr]
    exact (above_exprs ih h).bind fun h => h.count _ _ _
  hash := addsExpr_hash
  bind name value ih K g h := by
    have hdefine : { g with symbols := (g.symbols.define name).2 }.Above K := h
    rw [stmt]
    exact (ih hdefine).bind fun h => h.store _
  ret value ih K g h := by
    rw [stmt]
    exact (ih h).bind fun h => h
  value value ih K g h := by
    rw [stmt]
    exact (ih h).bind fun h => h

end Codegen

/-! ## Back to the start -/

theorem SymbolTable.globals_of_top {table : SymbolTable} (h : table.outer = []) :
    table.globals = table := by
  rw [globals, h]
  obtain ⟨current, outer⟩ := table
  subst h
  rfl

namespace Compiler

variable {c : Compiler} {p : Program}

/-- Wherever a program is refused, the compiler gets back what it had before. -/
theorem rollBack_eq {refusal : Codegen.Refusal} (htop : c.symbols.outer = [])
    (h : Codegen.block p c.start = .error refusal) :
    rollBack c.symbols.globals c.constants.size refusal.state = { c with code := #[] } := by
  have hends : Codegen.EndsAbove c.constants (Codegen.block p c.start) :=
    Codegen.above_block (Codegen.hereditary_adds.block p) (List.prefix_refl c.constants.toList)
  rw [h] at hends
  have hprefix : c.constants.toList <+: refusal.state.constants.toList := hends
  have htake : refusal.state.constants.take c.constants.size = c.constants := by
    apply Array.toList_inj.1
    rw [Array.take_eq_extract, Array.toList_extract, List.extract_eq_take_drop, List.drop_zero,
      Nat.sub_zero, ← Array.length_toList]
    exact (List.prefix_iff_eq_take.1 hprefix).symm
  rw [rollBack, SymbolTable.globals_of_top htop, htake]

theorem compile_eq_error {c' : Compiler} {e : CompileError} (htop : c.symbols.outer = [])
    (h : c.compile p = (.error e, c')) : c' = { c with code := #[] } := by
  rw [compile] at h
  cases hblock : Codegen.block p c.start with
  | ok g =>
      rw [hblock] at h
      cases h
  | error refusal =>
      rw [hblock] at h
      obtain ⟨-, rfl⟩ := Prod.mk.inj h
      exact rollBack_eq htop hblock

end Compiler

end Monkey
