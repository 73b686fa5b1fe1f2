import Monkey.Proofs.Histories
import Monkey.Proofs.Verifier

/-!
# Earlier bindings stay

A `let` never writes to a global that was defined before its input: a name that is defined again
gets a new global, and the functions that were compiled earlier go on reading the old one. So for
the inputs of a session that come later, the globals of the earlier ones are constants, however the
later ones end.

Names are the other half. Resolution looks at the scope of the top level from everywhere, but only
a `let` outside of function literals writes to it. `Keeps` says so for one name, and the induction
is over the tree: inside of a function literal nothing needs to be said about the statements,
because they define in scopes that are closed again.
-/

namespace Monkey

namespace SymbolTable

/-- The last of some scopes. -/
def outermost : Scope → List Scope → Scope
  | scope, [] => scope
  | _, next :: rest => outermost next rest

/-- The scope of the top level. -/
def topLevel (t : SymbolTable) : Scope :=
  outermost t.current t.outer

/-- A later table with as many scopes, in which a name of the top level stands for the same. -/
structure Keeps (name : String) (t t' : SymbolTable) : Prop where
  depth : t'.outer.length = t.outer.length
  symbol : t'.topLevel.names[name]? = t.topLevel.names[name]?

variable {name : String} {t t' t'' : SymbolTable}

theorem Keeps.refl (name : String) (t : SymbolTable) : Keeps name t t :=
  ⟨rfl, rfl⟩

theorem Keeps.trans (h : Keeps name t t') (h' : Keeps name t' t'') : Keeps name t t'' :=
  ⟨h'.depth.trans h.depth, h'.symbol.trans h.symbol⟩

theorem Keeps.outer_nil (h : Keeps name t t') (hnil : t'.outer = []) : t.outer = [] := by
  rw [← List.length_eq_zero_iff, ← h.depth, hnil, List.length_nil]

theorem resolveFrom_keeps {found : String} {scope : Scope} {outer : List Scope} {s : Symbol}
    (h : resolveFrom found scope outer = some (s, t')) : Keeps name ⟨scope, outer⟩ t' := by
  induction outer generalizing scope s t' with
  | nil =>
      obtain ⟨s', -, heq⟩ := Option.map_eq_some_iff.1 h
      cases heq
      exact .refl _ _
  | cons next rest ih =>
      rw [resolveFrom] at h
      split at h
      · cases h
        exact .refl _ _
      · split at h
        · cases h
        · next s' next' rest' hrest =>
            have hkeeps := ih hrest
            -- A capture changes the inner scope only.
            split at h <;> cases h
            all_goals exact ⟨by simp [hkeeps.depth], hkeeps.symbol⟩

theorem resolve_keeps {found : String} {s : Symbol} (h : t.resolve found = some (s, t')) :
    Keeps name t t' :=
  resolveFrom_keeps h

theorem define_keeps {defined : String} (h : t.outer = [] → defined ≠ name) :
    Keeps name t (t.define defined).2 := by
  obtain ⟨scope, outer⟩ := t
  cases outer with
  | nil =>
      refine ⟨rfl, ?_⟩
      show (scope.names.insert defined _)[name]? = scope.names[name]?
      rw [Std.TreeMap.getElem?_insert, if_neg]
      rw [Std.compare_eq_iff_eq]
      exact h rfl
  | cons next rest => exact ⟨rfl, rfl⟩

theorem openBody_keeps (name : String) (t : SymbolTable) (self : Option String)
    (parameters : List String) :
    Keeps name t.enter (Codegen.openBody t self parameters) := by
  have hfold : ∀ u : SymbolTable, u.outer ≠ [] →
      Keeps name u (parameters.foldl (fun symbols name => (symbols.define name).2) u) := by
    induction parameters with
    | nil => exact fun u _ => .refl _ u
    | cons first rest ih =>
        intro u hu
        have hdefine : Keeps name u (u.define first).2 := define_keeps fun hnil => absurd hnil hu
        exact hdefine.trans (ih _ fun hnil => hu (hdefine.outer_nil hnil))
  cases self with
  | none => exact hfold t.enter (List.cons_ne_nil _ _)
  | some self =>
      have hself : Keeps name t.enter (t.enter.defineSelf self).2 := ⟨rfl, rfl⟩
      exact hself.trans (hfold _ (List.cons_ne_nil _ _))

/-- What was opened for a function body is closed again. -/
theorem Keeps.leave (h : Keeps name t.enter t') : Keeps name t t'.leave.2 := by
  obtain ⟨scope, outer⟩ := t'
  cases outer with
  | nil => exact absurd h.depth (by simp [enter])
  | cons next rest => exact ⟨Nat.succ.inj h.depth, h.symbol⟩

end SymbolTable

open SymbolTable (Keeps)

/-- Whether a statement is a `let` of this name. -/
def Stmt.defines (name : String) : Stmt → Bool
  | .bind defined _ => defined == name
  | _ => false

namespace Resolved

variable {name : String}

def KeepsExpr (name : String) (e : Monkey.Expr) : Prop :=
  ∀ t r t', expr e t = some (r, t') → (t.outer = [] → e.anyStmt (·.defines name) = false) →
    Keeps name t t'

def KeepsStmt (name : String) (s : Monkey.Stmt) : Prop :=
  ∀ t r t', stmt s t = some (r, t') → (t.outer = [] → s.anyStmt (·.defines name) = false) →
    Keeps name t t'

theorem block_keeps {ss : List Monkey.Stmt} (ih : ∀ s ∈ ss, KeepsStmt name s)
    {t t' : SymbolTable} {rs : List Stmt} (h : block ss t = some (rs, t'))
    (hfree : t.outer = [] → blockAnyStmt (·.defines name) ss = false) : Keeps name t t' := by
  induction ss generalizing t rs with
  | nil =>
      rw [block] at h
      cases h
      exact .refl _ _
  | cons s ss ihss =>
      rw [block] at h
      obtain ⟨⟨r, t₁⟩, h₁, h⟩ := Option.bind_eq_some_iff.1 h
      obtain ⟨⟨rs', t₂⟩, h₂, h⟩ := Option.bind_eq_some_iff.1 h
      cases h
      simp only [blockAnyStmt, Bool.or_eq_false_iff] at hfree
      have hkeeps := ih s List.mem_cons_self _ _ _ h₁ fun hnil => (hfree hnil).1
      exact hkeeps.trans (ihss (fun s hs => ih s (List.mem_cons_of_mem _ hs)) h₂
        fun hnil => (hfree (hkeeps.outer_nil hnil)).2)

theorem exprs_keeps {es : List Monkey.Expr} (ih : ∀ e ∈ es, KeepsExpr name e)
    {t t' : SymbolTable} {rs : List Expr} (h : exprs es t = some (rs, t'))
    (hfree : t.outer = [] → exprsAnyStmt (·.defines name) es = false) : Keeps name t t' := by
  induction es generalizing t rs with
  | nil =>
      rw [exprs] at h
      cases h
      exact .refl _ _
  | cons e es ihes =>
      rw [exprs] at h
      obtain ⟨⟨r, t₁⟩, h₁, h⟩ := Option.bind_eq_some_iff.1 h
      obtain ⟨⟨rs', t₂⟩, h₂, h⟩ := Option.bind_eq_some_iff.1 h
      cases h
      simp only [exprsAnyStmt, Bool.or_eq_false_iff] at hfree
      have hkeeps := ih e List.mem_cons_self _ _ _ h₁ fun hnil => (hfree hnil).1
      exact hkeeps.trans (ihes (fun e he => ih e (List.mem_cons_of_mem _ he)) h₂
        fun hnil => (hfree (hkeeps.outer_nil hnil)).2)

theorem pairs_keep {ps : List (Monkey.Expr × Monkey.Expr)}
    (ih : ∀ p ∈ ps, KeepsExpr name p.1 ∧ KeepsExpr name p.2) {t t' : SymbolTable}
    {rs : List (Expr × Expr)} (h : inTurn (ps.map fun p => (pairPart p).2) t = some (rs, t'))
    (hfree : t.outer = [] → ∀ p ∈ ps, p.1.anyStmt (·.defines name) = false ∧
      p.2.anyStmt (·.defines name) = false) : Keeps name t t' := by
  induction ps generalizing t rs with
  | nil =>
      cases h
      exact .refl _ _
  | cons p ps ihps =>
      obtain ⟨key, value⟩ := p
      rw [List.map_cons, inTurn, pairPart] at h
      obtain ⟨⟨r, t₂⟩, h₂, h⟩ := Option.bind_eq_some_iff.1 h
      obtain ⟨⟨rs', t₃⟩, h₃, h⟩ := Option.bind_eq_some_iff.1 h
      cases h
      obtain ⟨⟨rk, t₁⟩, h₁, h₂⟩ := Option.bind_eq_some_iff.1 h₂
      obtain ⟨⟨rv, t₂'⟩, h₂, heq⟩ := Option.bind_eq_some_iff.1 h₂
      cases heq
      obtain ⟨⟨ihk, ihv⟩, ihrest⟩ := List.forall_mem_cons.1 ih
      simp only [List.forall_mem_cons] at hfree
      have hkey := ihk _ _ _ h₁ fun hnil => (hfree hnil).1.1
      have hvalue := ihv _ _ _ h₂ fun hnil => (hfree (hkey.outer_nil hnil)).1.2
      have hpair := hkey.trans hvalue
      exact hpair.trans (ihps ihrest h₃ fun hnil => (hfree (hpair.outer_nil hnil)).2)

theorem keeps_literal {e : Monkey.Expr} {r : Expr} (hr : ∀ t, expr e t = some (r, t)) :
    KeepsExpr name e := by
  intro t r' t' h _
  rw [hr] at h
  cases h
  exact .refl _ _

/-- Two parts that are resolved one after the other. -/
theorem KeepsExpr.both {e₁ e₂ : Monkey.Expr} (h₁ : KeepsExpr name e₁) (h₂ : KeepsExpr name e₂)
    {t t₁ t₂ : SymbolTable} {r₁ r₂ : Expr} (hr₁ : expr e₁ t = some (r₁, t₁))
    (hr₂ : expr e₂ t₁ = some (r₂, t₂))
    (hfree : t.outer = [] → e₁.anyStmt (·.defines name) = false ∧
      e₂.anyStmt (·.defines name) = false) : Keeps name t t₂ := by
  have hkeeps := h₁ _ _ _ hr₁ fun hnil => (hfree hnil).1
  exact hkeeps.trans (h₂ _ _ _ hr₂ fun hnil => (hfree (hkeeps.outer_nil hnil)).2)

theorem keeps_infixOp (op : String) (left right : Monkey.Expr) (hl : KeepsExpr name left)
    (hr : KeepsExpr name right) : KeepsExpr name (.infixOp op left right) := by
  intro t r t' h hfree
  simp only [Monkey.Expr.anyStmt, Bool.or_eq_false_iff] at hfree
  rw [expr] at h
  split at h
  · obtain ⟨⟨r₁, t₁⟩, h₁, h⟩ := Option.bind_eq_some_iff.1 h
    obtain ⟨⟨r₂, t₂⟩, h₂, h⟩ := Option.bind_eq_some_iff.1 h
    cases h
    exact hr.both hl h₁ h₂ fun hnil => (hfree hnil).symm
  · obtain ⟨⟨r₁, t₁⟩, h₁, h⟩ := Option.bind_eq_some_iff.1 h
    obtain ⟨⟨r₂, t₂⟩, h₂, h⟩ := Option.bind_eq_some_iff.1 h
    obtain ⟨op', -, h⟩ := Option.bind_eq_some_iff.1 h
    cases h
    exact hl.both hr h₁ h₂ hfree

theorem keeps_cond (condition : Monkey.Expr) (consequence : List Monkey.Stmt)
    (alternative : Option (List Monkey.Stmt)) (hc : KeepsExpr name condition)
    (ha : ∀ s ∈ consequence, KeepsStmt name s)
    (hb : ∀ body, alternative = some body → ∀ s ∈ body, KeepsStmt name s) :
    KeepsExpr name (.cond condition consequence alternative) := by
  intro t r t' h hfree
  simp only [Monkey.Expr.anyStmt, Bool.or_eq_false_iff] at hfree
  rw [expr] at h
  obtain ⟨⟨r₁, t₁⟩, h₁, h⟩ := Option.bind_eq_some_iff.1 h
  obtain ⟨⟨r₂, t₂⟩, h₂, h⟩ := Option.bind_eq_some_iff.1 h
  obtain ⟨⟨r₃, t₃⟩, h₃, h⟩ := Option.bind_eq_some_iff.1 h
  cases h
  have hk₁ := hc _ _ _ h₁ fun hnil => (hfree hnil).1.1
  have hk₂ := hk₁.trans
    (block_keeps ha h₂ fun hnil => (hfree (hk₁.outer_nil hnil)).1.2)
  refine hk₂.trans ?_
  cases alternative with
  | none =>
      rw [otherwise] at h₃
      cases h₃
      exact .refl _ _
  | some body =>
      rw [otherwise] at h₃
      exact block_keeps (hb body rfl) h₃ fun hnil => (hfree (hk₂.outer_nil hnil)).2

theorem keeps_function (parameters : List String) (body : List Monkey.Stmt) (self : Option String)
    (ih : ∀ s ∈ body, KeepsStmt name s) : KeepsExpr name (.function parameters body self) := by
  intro t r t' h _
  rw [expr] at h
  obtain ⟨⟨rs, t₁⟩, h₁, h⟩ := Option.bind_eq_some_iff.1 h
  cases h
  have hopen := SymbolTable.openBody_keeps name t self parameters
  have hbody := block_keeps ih h₁ fun hnil => absurd (hopen.outer_nil hnil) (List.cons_ne_nil _ _)
  exact (hopen.trans hbody).leave

theorem keeps_hash (pairs : List (Monkey.Expr × Monkey.Expr))
    (ih : ∀ p ∈ pairs, KeepsExpr name p.1 ∧ KeepsExpr name p.2) :
    KeepsExpr name (.hash pairs) := by
  intro t r t' h hfree
  rw [expr, Codegen.pairParts_sorted] at h
  obtain ⟨⟨rs, t₁⟩, h₁, h⟩ := Option.bind_eq_some_iff.1 h
  cases h
  have hmem : ∀ p ∈ Codegen.ordered pairs, p ∈ pairs :=
    fun p hp => (List.mergeSort_perm pairs _).mem_iff.1 hp
  exact pairs_keep (fun p hp => ih p (hmem p hp)) h₁ fun hnil p hp =>
    pairsAnyStmt_eq_false.1 (hfree hnil) p (hmem p hp)

theorem keeps_bind (defined : String) (value : Monkey.Expr) (ih : KeepsExpr name value) :
    KeepsStmt name (.bind defined value) := by
  intro t r t' h hfree
  simp only [Monkey.Stmt.anyStmt, Bool.or_eq_false_iff] at hfree
  rw [stmt] at h
  obtain ⟨⟨r₁, t₁⟩, h₁, h⟩ := Option.bind_eq_some_iff.1 h
  cases h
  have hdefine : Keeps name t (t.define defined).2 :=
    SymbolTable.define_keeps fun hnil => by simpa [Stmt.defines] using (hfree hnil).1
  exact hdefine.trans (ih _ _ _ h₁ fun hnil => (hfree (hdefine.outer_nil hnil)).2)

theorem keeps_hereditary (name : String) : Hereditary (KeepsExpr name) (KeepsStmt name) where
  ident found := by
    intro t r t' h _
    rw [expr] at h
    obtain ⟨⟨s, t₁⟩, h₁, h⟩ := Option.bind_eq_some_iff.1 h
    cases h
    exact SymbolTable.resolve_keeps h₁
  int value := keeps_literal fun t => by rw [expr]
  str text := keeps_literal fun t => by rw [expr]
  bool value := keeps_literal fun t => by rw [expr]
  prefixOp op operand ih := by
    intro t r t' h hfree
    rw [expr] at h
    obtain ⟨⟨r₁, t₁⟩, h₁, h⟩ := Option.bind_eq_some_iff.1 h
    obtain ⟨op', -, h⟩ := Option.bind_eq_some_iff.1 h
    cases h
    exact ih _ _ _ h₁ hfree
  infixOp := keeps_infixOp
  cond := keeps_cond
  function := keeps_function
  call callee arguments hc ha := by
    intro t r t' h hfree
    simp only [Monkey.Expr.anyStmt, Bool.or_eq_false_iff] at hfree
    rw [expr] at h
    obtain ⟨⟨r₁, t₁⟩, h₁, h⟩ := Option.bind_eq_some_iff.1 h
    obtain ⟨⟨r₂, t₂⟩, h₂, h⟩ := Option.bind_eq_some_iff.1 h
    cases h
    have hcallee := hc _ _ _ h₁ fun hnil => (hfree hnil).1
    exact hcallee.trans (exprs_keeps ha h₂ fun hnil => (hfree (hcallee.outer_nil hnil)).2)
  index container position hc hp := by
    intro t r t' h hfree
    simp only [Monkey.Expr.anyStmt, Bool.or_eq_false_iff] at hfree
    rw [expr] at h
    obtain ⟨⟨r₁, t₁⟩, h₁, h⟩ := Option.bind_eq_some_iff.1 h
    obtain ⟨⟨r₂, t₂⟩, h₂, h⟩ := Option.bind_eq_some_iff.1 h
    cases h
    exact hc.both hp h₁ h₂ hfree
  array elements ih := by
    intro t r t' h hfree
    rw [expr] at h
    obtain ⟨⟨rs, t₁⟩, h₁, h⟩ := Option.bind_eq_some_iff.1 h
    cases h
    exact exprs_keeps ih h₁ hfree
  hash := keeps_hash
  bind := keeps_bind
  ret value ih := by
    intro t r t' h hfree
    simp only [Monkey.Stmt.anyStmt, Bool.or_eq_false_iff] at hfree
    rw [stmt] at h
    obtain ⟨⟨r₁, t₁⟩, h₁, h⟩ := Option.bind_eq_some_iff.1 h
    cases h
    exact ih _ _ _ h₁ fun hnil => (hfree hnil).2
  value value ih := by
    intro t r t' h hfree
    simp only [Monkey.Stmt.anyStmt, Bool.or_eq_false_iff] at hfree
    rw [stmt] at h
    obtain ⟨⟨r₁, t₁⟩, h₁, h⟩ := Option.bind_eq_some_iff.1 h
    cases h
    exact ih _ _ _ h₁ fun hnil => (hfree hnil).2

end Resolved

/-! ## Inputs of a session -/

namespace Session

/-- An input of a session: a source text, or a program that was read before. -/
inductive Input where
  | text (source : String)
  | program (p : Program)

/-- The program of an input, if it can be read. -/
def Input.program? : Input → Option Program
  | .text source => (Program.parse source).toOption
  | .program p => some p

/-- Evaluates an input. -/
def answer (s : Session) : Input → Except Error Value × Session
  | .text source => s.eval source
  | .program p => s.evalProgram p

/-- The session after an input. -/
def feed (s : Session) (input : Input) : Session :=
  (s.answer input).2

/-- The session after some inputs. -/
def feedAll (s : Session) (inputs : List Input) : Session :=
  inputs.foldl feed s

/-- The machine that an input starts, if it is read and accepted. -/
def startedBy (s : Session) (input : Input) : List Machine :=
  input.program?.toList.flatMap s.started

/-- The value of a global. One that was never stored is null. -/
def globalAt (s : Session) (i : Nat) : Value :=
  s.globals[i]?.getD .null

/-- What a name stands for at the top level. -/
def symbolOf (s : Session) (name : String) : Option Symbol :=
  s.compiler.symbols.current.names[name]?

/-- The session accepts the input, and the input defines the name at the top level. -/
def Redefines (s : Session) (input : Input) (name : String) : Prop :=
  ∃ p b, input.program? = some p ∧ (s.compile p).1 = .ok b ∧ p.anyStmt (·.defines name) = true

/-- A later session, for which what was defined before is as it was. -/
structure Extends (s s' : Session) : Prop where
  defined : s.compiler.globals ≤ s'.compiler.globals
  pool : PoolLe s.compiler.constants s'.compiler.constants
  globals : ∀ i, i < s.compiler.globals → s'.globalAt i = s.globalAt i

variable {s s' s'' : Session} {stages : List Stage}

theorem Extends.refl (s : Session) : s.Extends s :=
  ⟨Nat.le_refl _, .refl _, fun _ _ => rfl⟩

theorem Extends.trans (h : s.Extends s') (h' : s'.Extends s'') : s.Extends s'' :=
  ⟨h.defined.trans h'.defined, h.pool.trans h'.pool, fun i hi =>
    (h'.globals i (Nat.lt_of_lt_of_le hi h.defined)).trans (h.globals i hi)⟩

/-- An input that is not read, or not accepted, changes neither globals nor names. One that is
accepted stores only to globals that it defines itself. -/
theorem Ready.evalProgram_extends (h : s.Ready stages) (p : Program) :
    s.Extends (s.evalProgram p).2 ∧
      ∀ name, (∀ b, (s.compile p).1 = .ok b → p.anyStmt (·.defines name) = false) →
        (s.evalProgram p).2.symbolOf name = s.symbolOf name := by
  rcases hc : s.compiler.compile p with ⟨e | b, c⟩
  · have heq : s.evalProgram p = (.error (.compiler e), { s with compiler := c }) := by
      rw [Session.evalProgram, Session.compile, hc]
      rfl
    rw [heq, Compiler.compile_eq_error h.compiler.top hc]
    exact ⟨⟨Nat.le_refl _, .refl _, fun _ _ => rfl⟩, fun _ _ => rfl⟩
  · have hcompile : s.compile p = (.ok b, { s with compiler := c }) := by
      rw [Session.compile, hc]
      rfl
    have heq : s.evalProgram p = { s with compiler := c }.run b := by
      rw [Session.evalProgram, hcompile]
    have hacc := Compiler.compile_eq_ok h.compiler hc
    have hready := h.accept hc
    obtain ⟨hok, hreads⟩ := hready.start_ok List.mem_cons_self s.limits s.issued 0 s.console
    have hkept := Machine.Good.run_kept (.inl ⟨_, hok⟩) hreads s.fuel
    rw [heq, hcompile]
    refine ⟨⟨hacc.globals_le, hacc.pool, fun i hi => hkept.others i fun hin => ?_⟩, ?_⟩
    · exact Nat.not_le.2 hi hin.1
    · intro name hfree
      obtain ⟨rs, hrs, -⟩ := hacc.laid
      have hkeeps := Resolved.block_keeps ((Resolved.keeps_hereditary name).block p) hrs
        fun _ => hfree b rfl
      have hsymbol := hkeeps.symbol
      rw [SymbolTable.topLevel, SymbolTable.topLevel, h.compiler.top, hacc.wf.top] at hsymbol
      exact hsymbol

/-- At no time of a run is a global changed that was defined before the program. -/
theorem Ready.started_keeps (h : s.Ready stages) {p : Program} {m₀ m : Machine}
    (hm₀ : m₀ ∈ s.started p) (hreach : m₀.Reaches m) {i : Nat} (hi : i < s.compiler.globals) :
    m.globals[i]?.getD .null = s.globalAt i := by
  rw [started, Session.compile] at hm₀
  rcases hc : s.compiler.compile p with ⟨e | b, c⟩ <;> rw [hc] at hm₀
  · cases hm₀
  · obtain rfl := List.mem_singleton.1 hm₀
    obtain ⟨hok, hreads⟩ :=
      (h.accept hc).start_ok List.mem_cons_self s.limits s.issued 0 s.console
    have hkept := (Machine.Good.of_reaches (.inl ⟨_, hok⟩) hreads hreach).kept
    exact hkept.others i fun hin => Nat.not_le.2 hi hin.1

/-- An input is evaluated as the program that it says. -/
theorem feed_eq (s : Session) (input : Input) :
    (∃ p, input.program? = some p ∧ s.feed input = (s.evalProgram p).2) ∨
      (input.program? = none ∧ s.feed input = s) := by
  cases input with
  | program p => exact .inl ⟨p, rfl, rfl⟩
  | text source =>
      rw [Input.program?, feed, answer, eval]
      cases Program.parse source with
      | ok p => exact .inl ⟨p, rfl, rfl⟩
      | error e => exact .inr ⟨rfl, rfl⟩

theorem Ready.feed (h : s.Ready stages) (input : Input) :
    (∃ stages', (s.feed input).Ready stages') ∧ s.Extends (s.feed input) := by
  rcases feed_eq s input with ⟨p, -, heq⟩ | ⟨-, heq⟩
  · rw [heq]
    obtain ⟨⟨stages', hready, -⟩, -⟩ := h.evalProgram p
    exact ⟨⟨stages', hready⟩, (h.evalProgram_extends p).1⟩
  · rw [heq]
    exact ⟨⟨stages, h⟩, .refl s⟩

theorem Ready.feed_symbol (h : s.Ready stages) {input : Input} {name : String}
    (hname : ¬s.Redefines input name) : (s.feed input).symbolOf name = s.symbolOf name := by
  rcases feed_eq s input with ⟨p, hp, heq⟩ | ⟨-, heq⟩
  · rw [heq]
    refine (h.evalProgram_extends p).2 name fun b hb => ?_
    rw [← Bool.not_eq_true]
    exact fun hdefines => hname ⟨p, b, hp, hb, hdefines⟩
  · rw [heq]

theorem Ready.feedAll (h : s.Ready stages) (inputs : List Input) :
    (∃ stages', (s.feedAll inputs).Ready stages') ∧ s.Extends (s.feedAll inputs) := by
  induction inputs generalizing s stages with
  | nil => exact ⟨⟨stages, h⟩, .refl s⟩
  | cons input inputs ih =>
      obtain ⟨⟨stages', hready⟩, hextends⟩ := h.feed input
      obtain ⟨hready', hextends'⟩ := ih hready
      exact ⟨hready', hextends.trans hextends'⟩

/-- What was bound by earlier inputs is not changed by later ones, however they end. An input leaves
every global alone that was defined before it. So a function that was compiled earlier reads the
same values at any later time, between inputs and in the middle of their runs. And a name stands for
the same global until an accepted input defines it again. -/
theorem feed_keeps_bindings (limits : Limits) (console : Console) (fuel : Nat)
    (earlier : List Input) :
    let s := ({ limits, console, fuel } : Session).feedAll earlier
    (∀ input i, i < s.compiler.globals → (s.feed input).globalAt i = s.globalAt i) ∧
    (∀ (k : Nat) id t, s.compiler.constants[k]? = some (.template id t) →
      (∀ later, (s.feedAll later).compiler.constants[k]? = some (.template id t)) ∧
      ∃ is, t.code.decode = some is ∧ ∀ ip i, (ip, .getGlobal i) ∈ is → ∀ later,
        (s.feedAll later).globalAt i = s.globalAt i ∧
        ∀ input, ∀ m₀ ∈ (s.feedAll later).startedBy input, ∀ m, m₀.Reaches m →
          m.globals[i]?.getD .null = s.globalAt i) ∧
    (∀ input name, ¬s.Redefines input name → (s.feed input).symbolOf name = s.symbolOf name) := by
  intro s
  have hnew : ({ limits, console, fuel } : Session).Ready [] := ready_of_new
  obtain ⟨⟨stages, hready⟩, -⟩ := hnew.feedAll earlier
  refine ⟨fun input => (hready.feed input).2.globals, fun k id t ht => ⟨fun later => ?_, ?_⟩,
    fun input name hname => hready.feed_symbol hname⟩
  · exact (hready.feedAll later).2.pool k _ ht
  · obtain ⟨captures, is, hverified, -⟩ := (hready.compiler.templates.verified ht).code
    refine ⟨is, hverified.decodes, fun ip i hmem later => ?_⟩
    -- The verifier has bounded the operand by the number of globals of that time.
    have hi : i < s.compiler.globals := hverified.valid ip _ hmem
    obtain ⟨⟨stages', hready'⟩, hextends⟩ := hready.feedAll later
    refine ⟨hextends.globals i hi, fun input m₀ hm₀ m hreach => ?_⟩
    obtain ⟨p, -, hm₀⟩ := List.mem_flatMap.1 hm₀
    have hkept := hready'.started_keeps hm₀ hreach (Nat.lt_of_lt_of_le hi hextends.defined)
    exact hkept.trans (hextends.globals i hi)

/-- `let x = 1; let f = fn() { x };` -/
def boundSample : Input :=
  .program [.bind "x" (.int 1), .bind "f" (.function [] [.expr (.ident "x")] (some "f"))]

/-- `let x = 2; f()` -/
def reboundSample : Input :=
  .program [.bind "x" (.int 2), .expr (.call (.ident "f") [])]

/-- The first instruction of a function of the pool. -/
def firstOf? (s : Session) (k : Nat) : Option Instruction :=
  match s.compiler.constants[k]? with
  | some (.template _ t) =>
      match t.code.fetch? 0 with
      | .ok (some (i, _)) => some i
      | _ => none
  | _ => none

theorem eq_template_of_firstOf? {s : Session} {k : Nat} {i : Instruction}
    (h : s.firstOf? k = some i) : ∃ id t, s.compiler.constants[k]? = some (.template id t) ∧
      ∀ is, t.code.decode = some is → (0, i) ∈ is := by
  rw [firstOf?] at h
  split at h
  · next id t hk =>
      split at h
      · next i' next hfetch =>
          cases h
          refine ⟨id, t, hk, fun is his => ?_⟩
          rw [Code.decode, Code.decodeFrom] at his
          split at his
          · cases his
          · next hend =>
              rw [hfetch] at hend
              cases hend
          · next hfetch' =>
              obtain ⟨is', -, rfl⟩ := Option.map_eq_some_iff.1 his
              cases hfetch.symm.trans hfetch'
              exact List.mem_cons_self
      · cases h
  · cases h

/-- The name `x` is defined again, and `f` reads the old value of it, also while the input that
defines it runs. -/
theorem feed_keeps_bindings_reboundSample :
    let s := ({ fuel := 50 } : Session).feedAll [boundSample]
    (∃ id t is, s.compiler.constants[1]? = some (.template id t) ∧ t.code.decode = some is ∧
      (0, .getGlobal 0) ∈ is ∧ (s.feedAll [reboundSample]).globalAt 0 = s.globalAt 0 ∧
      (s.startedBy reboundSample).length = 1 ∧
      ∀ m₀ ∈ s.startedBy reboundSample, ∀ m, m₀.Reaches m →
        m.globals[0]?.getD .null = s.globalAt 0) ∧
    1 < s.compiler.globals ∧ (s.feed reboundSample).globalAt 1 = s.globalAt 1 ∧
    (s.feed reboundSample).symbolOf "x" ≠ s.symbolOf "x" ∧
    ¬s.Redefines reboundSample "f" ∧ (s.feed reboundSample).symbolOf "f" = s.symbolOf "f" := by
  intro s
  have heval :
      (s.firstOf? 1, s.compiler.globals, (s.feed reboundSample).symbolOf "x", s.symbolOf "x") =
        (some (.getGlobal 0), 2, some ⟨"x", .global, 2⟩, some ⟨"x", .global, 0⟩) := by
    decide +kernel
  simp only [Prod.mk.injEq] at heval
  obtain ⟨hfirst, hglobals, hnew, hold⟩ := heval
  obtain ⟨hkept, hread, hname⟩ := feed_keeps_bindings {} {} 50 [boundSample]
  obtain ⟨id, t, hk, hmem⟩ := eq_template_of_firstOf? hfirst
  obtain ⟨-, is, his, hreads⟩ := hread 1 id t hk
  have hlt : 1 < s.compiler.globals := hglobals ▸ Nat.lt_succ_self 1
  have hf : ¬s.Redefines reboundSample "f" := by
    rintro ⟨p, b, hp, -, hdefines⟩
    cases hp
    revert hdefines
    decide
  have hstarted : (s.startedBy reboundSample).length = 1 := by decide +kernel
  exact ⟨⟨id, t, is, hk, his, hmem is his, (hreads 0 0 (hmem is his) [reboundSample]).1, hstarted,
    (hreads 0 0 (hmem is his) []).2 reboundSample⟩, hlt, hkept reboundSample 1 hlt,
    by rw [hnew, hold]; decide, hf, hname reboundSample "f" hf⟩

end Session

end Monkey
