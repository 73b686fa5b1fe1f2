import Monkey.Proofs.Compiled

/-!
# Code does not depend on the names in a program

Names are gone when a program is compiled: the code refers to slots, captures and builtins by
number. So a program under other names has the same code and the same constants, as long as names
that were different stay different and builtins keep theirs. If it is refused, it is for the same
reason, with the name in it changed as well. Only the pairs of a hash literal look at the text of
names, since they are compiled in the order of it; a literal with one pair has nothing to order.

Two compilations are followed side by side. Their symbol tables need not share a key, but under
each new name the second one has what the first one has under the old name, and the captures are
the same in the same order (`SymbolTable.Renamed`). Every operation on tables keeps that, so both
streams get the same instructions. Where one compilation stops the other one stops too (`Alike`).
-/

namespace Monkey

/-! ## Programs under other names -/

mutual

/-- The expression with other names: those that it refers to, its parameters, and those by which
function literals know themselves. -/
def Expr.rename (ρ : String → String) : Expr → Expr
  | .ident name => .ident (ρ name)
  | .int value => .int value
  | .str text => .str text
  | .bool value => .bool value
  | .prefixOp op operand => .prefixOp op (operand.rename ρ)
  | .infixOp op left right => .infixOp op (left.rename ρ) (right.rename ρ)
  | .cond condition consequence alternative =>
      .cond (condition.rename ρ) (blockRename ρ consequence) (otherwiseRename ρ alternative)
  | .function parameters body name =>
      .function (parameters.map ρ) (blockRename ρ body) (name.map ρ)
  | .call callee arguments => .call (callee.rename ρ) (exprsRename ρ arguments)
  | .index container position => .index (container.rename ρ) (position.rename ρ)
  | .array elements => .array (exprsRename ρ elements)
  | .hash pairs => .hash (pairsRename ρ pairs)

/-- The statement with other names, the one that it defines among them. -/
def Stmt.rename (ρ : String → String) : Stmt → Stmt
  | .bind name value => .bind (ρ name) (value.rename ρ)
  | .ret value => .ret (value.rename ρ)
  | .expr value => .expr (value.rename ρ)

def blockRename (ρ : String → String) : List Stmt → List Stmt
  | [] => []
  | first :: rest => first.rename ρ :: blockRename ρ rest

def otherwiseRename (ρ : String → String) : Option (List Stmt) → Option (List Stmt)
  | none => none
  | some body => some (blockRename ρ body)

def exprsRename (ρ : String → String) : List Expr → List Expr
  | [] => []
  | first :: rest => first.rename ρ :: exprsRename ρ rest

def pairsRename (ρ : String → String) : List (Expr × Expr) → List (Expr × Expr)
  | [] => []
  | first :: rest => pairRename ρ first :: pairsRename ρ rest

def pairRename (ρ : String → String) : Expr × Expr → Expr × Expr
  | (key, value) => (key.rename ρ, value.rename ρ)

end

/-- The program with other names. -/
def Program.rename (ρ : String → String) (program : Program) : Program :=
  blockRename ρ program

mutual

/-- Whether no hash literal in an expression has more than `n` pairs. -/
def Expr.hashesWithin (n : Nat) : Expr → Bool
  | .ident _ | .int _ | .str _ | .bool _ => true
  | .prefixOp _ operand => operand.hashesWithin n
  | .infixOp _ left right => left.hashesWithin n && right.hashesWithin n
  | .cond condition consequence alternative =>
      condition.hashesWithin n && blockHashesWithin n consequence &&
        otherwiseHashesWithin n alternative
  | .function _ body _ => blockHashesWithin n body
  | .call callee arguments => callee.hashesWithin n && exprsHashesWithin n arguments
  | .index container position => container.hashesWithin n && position.hashesWithin n
  | .array elements => exprsHashesWithin n elements
  | .hash pairs => decide (pairs.length ≤ n) && pairsHashesWithin n pairs

/-- Whether no hash literal in a statement has more than `n` pairs. -/
def Stmt.hashesWithin (n : Nat) : Stmt → Bool
  | .bind _ value | .ret value | .expr value => value.hashesWithin n

def blockHashesWithin (n : Nat) : List Stmt → Bool
  | [] => true
  | first :: rest => first.hashesWithin n && blockHashesWithin n rest

def otherwiseHashesWithin (n : Nat) : Option (List Stmt) → Bool
  | none => true
  | some body => blockHashesWithin n body

def exprsHashesWithin (n : Nat) : List Expr → Bool
  | [] => true
  | first :: rest => first.hashesWithin n && exprsHashesWithin n rest

def pairsHashesWithin (n : Nat) : List (Expr × Expr) → Bool
  | [] => true
  | first :: rest => pairHashesWithin n first && pairsHashesWithin n rest

def pairHashesWithin (n : Nat) : Expr × Expr → Bool
  | (key, value) => key.hashesWithin n && value.hashesWithin n

end

/-- Whether no hash literal in a program, function literals included, has more than `n` pairs. -/
def Program.hashesWithin (n : Nat) (program : Program) : Bool :=
  blockHashesWithin n program

-- The equations that the lemmas about the constructors open.
attribute [local simp] Expr.rename Stmt.rename blockRename exprsRename otherwiseRename
  Expr.hashesWithin Stmt.hashesWithin blockHashesWithin exprsHashesWithin otherwiseHashesWithin

/-- The error with another name in it. -/
def CompileError.rename (ρ : String → String) : CompileError → CompileError
  | .undefinedVariable name => .undefinedVariable (ρ name)
  | .unknownOperator op => .unknownOperator op
  | .tooMany what count => .tooMany what count

variable {ρ : String → String}

theorem length_exprsRename (es : List Expr) : (exprsRename ρ es).length = es.length := by
  induction es with
  | nil => rfl
  | cons e es ih => rw [exprsRename, List.length_cons, List.length_cons, ih]

/-! ## Symbol tables under other names -/

/-- The symbol under another name. -/
def Symbol.rename (ρ : String → String) (s : Symbol) : Symbol :=
  { s with name := ρ s.name }

namespace Scope

/-- The second scope has under each new name what the first one has under the old name, and both
have the same captures and slots. -/
structure Renamed (ρ : String → String) (scope scope' : Scope) : Prop where
  names : ∀ name, scope'.names[ρ name]? = scope.names[name]?.map (Symbol.rename ρ)
  captures : scope'.captures = scope.captures.map (Symbol.rename ρ)
  definitions : scope'.definitions = scope.definitions

theorem Renamed.empty : Renamed ρ {} {} where
  names name := by
    rw [Std.TreeMap.getElem?_emptyc, Std.TreeMap.getElem?_emptyc, Option.map_none]
  captures := Array.map_empty.symm
  definitions := rfl

variable {scope scope' : Scope}

theorem Renamed.insert (hρ : Function.Injective ρ) (h : Renamed ρ scope scope') (name : String)
    (s : Symbol) (name' : String) :
    (scope'.names.insert (ρ name) (s.rename ρ))[ρ name']? =
      (scope.names.insert name s)[name']?.map (Symbol.rename ρ) := by
  rw [Std.TreeMap.getElem?_insert, Std.TreeMap.getElem?_insert, h.names]
  by_cases heq : name = name'
  · subst heq
    simp
  · have hne : ρ name ≠ ρ name' := fun h => heq (hρ h)
    simp [heq, hne]

theorem Renamed.declare (hρ : Function.Injective ρ) (h : Renamed ρ scope scope') (s : Symbol) :
    Renamed ρ (scope.declare s) (scope'.declare (s.rename ρ)) :=
  ⟨h.insert hρ s.name s, h.captures, h.definitions⟩

theorem Renamed.define (hρ : Function.Injective ρ) (h : Renamed ρ scope scope')
    (storage : Storage) (name : String) :
    (scope'.define storage (ρ name)).1 = (scope.define storage name).1.rename ρ ∧
      Renamed ρ (scope.define storage name).2 (scope'.define storage (ρ name)).2 := by
  have hsymbol : (scope'.define storage (ρ name)).1 = (scope.define storage name).1.rename ρ := by
    rw [Scope.define, Scope.define, h.definitions]
    rfl
  refine ⟨hsymbol, ?_, h.captures, congrArg (· + 1) h.definitions⟩
  intro name'
  have hinsert := h.insert hρ name (scope.define storage name).1 name'
  rw [← hsymbol] at hinsert
  exact hinsert

theorem Renamed.capture (hρ : Function.Injective ρ) (h : Renamed ρ scope scope') (s : Symbol) :
    (scope'.capture (s.rename ρ)).1 = (scope.capture s).1.rename ρ ∧
      Renamed ρ (scope.capture s).2 (scope'.capture (s.rename ρ)).2 := by
  have hsize : scope'.captures.size = scope.captures.size := by
    rw [h.captures, Array.size_map]
  have hsymbol : (scope'.capture (s.rename ρ)).1 = (scope.capture s).1.rename ρ := by
    rw [Scope.capture, Scope.capture, hsize]
    rfl
  refine ⟨hsymbol, ?_, ?_, h.definitions⟩
  · intro name'
    have hinsert := h.insert hρ s.name (scope.capture s).1 name'
    rw [← hsymbol] at hinsert
    exact hinsert
  · rw [Scope.capture, Scope.capture, h.captures, Array.map_push]

end Scope

namespace SymbolTable

/-- Scope by scope the tables are the same but for the names. -/
structure Renamed (ρ : String → String) (table table' : SymbolTable) : Prop where
  current : table.current.Renamed ρ table'.current
  outer : List.Forall₂ (Scope.Renamed ρ) table.outer table'.outer

/-- What resolving a name gives: the symbol under the new name, and the tables. -/
structure Found (ρ : String → String) (found found' : Symbol × SymbolTable) : Prop where
  symbol : found'.1 = found.1.rename ρ
  table : found.2.Renamed ρ found'.2

variable {table table' : SymbolTable}

theorem Renamed.enter (h : Renamed ρ table table') : Renamed ρ table.enter table'.enter :=
  ⟨.empty, .cons h.current h.outer⟩

theorem Renamed.define (hρ : Function.Injective ρ) (h : Renamed ρ table table') (name : String) :
    Found ρ (table.define name) (table'.define (ρ name)) := by
  obtain ⟨current, outer⟩ := table
  obtain ⟨current', outer'⟩ := table'
  obtain ⟨hcurrent, houter⟩ := h
  cases houter with
  | nil =>
      obtain ⟨hsymbol, hscope⟩ := hcurrent.define hρ .global name
      exact ⟨hsymbol, hscope, .nil⟩
  | cons hnext hrest =>
      obtain ⟨hsymbol, hscope⟩ := hcurrent.define hρ .slot name
      exact ⟨hsymbol, hscope, .cons hnext hrest⟩

theorem Renamed.defineSelf (hρ : Function.Injective ρ) (h : Renamed ρ table table')
    (name : String) : Renamed ρ (table.defineSelf name).2 (table'.defineSelf (ρ name)).2 :=
  ⟨h.current.declare hρ ⟨name, .self, 0⟩, h.outer⟩

theorem Renamed.openBody (hρ : Function.Injective ρ) (h : Renamed ρ table table')
    (name : Option String) (parameters : List String) :
    Renamed ρ (Codegen.openBody table name parameters)
      (Codegen.openBody table' (name.map ρ) (parameters.map ρ)) := by
  have hdefine : ∀ {inner inner' : SymbolTable}, Renamed ρ inner inner' →
      Renamed ρ (parameters.foldl (fun symbols name => (symbols.define name).2) inner)
        ((parameters.map ρ).foldl (fun symbols name => (symbols.define name).2) inner') := by
    induction parameters with
    | nil => exact id
    | cons first rest ih => exact fun hinner => ih (hinner.define hρ first).table
  cases name with
  | none => exact hdefine h.enter
  | some name => exact hdefine (h.enter.defineSelf hρ name)

theorem Renamed.leave (h : Renamed ρ table table') :
    table'.leave.1 = ⟨table.leave.1.definitions, table.leave.1.captures.map (Symbol.rename ρ)⟩ ∧
      Renamed ρ table.leave.2 table'.leave.2 := by
  obtain ⟨current, outer⟩ := table
  obtain ⟨current', outer'⟩ := table'
  obtain ⟨hcurrent, houter⟩ := h
  cases houter with
  | nil =>
      refine ⟨?_, hcurrent, .nil⟩
      rw [SymbolTable.leave, SymbolTable.leave, Array.map_empty]
  | cons hnext hrest =>
      refine ⟨?_, hnext, hrest⟩
      rw [SymbolTable.leave, SymbolTable.leave, hcurrent.definitions, hcurrent.captures]

/-- The new name is found where the old one is, and captured on the way in by the same bodies. -/
theorem resolveFrom_renamed (hρ : Function.Injective ρ) (name : String) {scope scope' : Scope}
    {outer outer' : List Scope} (h : scope.Renamed ρ scope')
    (houter : List.Forall₂ (Scope.Renamed ρ) outer outer') :
    Option.Rel (Found ρ) (resolveFrom name scope outer) (resolveFrom (ρ name) scope' outer') := by
  induction houter generalizing scope scope' with
  | nil =>
      rw [resolveFrom, resolveFrom, h.names]
      cases scope.names[name]? with
      | none => exact .none
      | some s => exact .some ⟨rfl, h, .nil⟩
  | @cons next next' rest rest' hnext hrest ih =>
      rw [resolveFrom, resolveFrom, h.names]
      cases scope.names[name]? with
      | some s => exact .some ⟨rfl, h, .cons hnext hrest⟩
      | none =>
          -- not known here: what the scopes around give decides
          have hfound := ih hnext
          rw [Option.map_none]
          generalize resolveFrom name next rest = found at hfound ⊢
          generalize resolveFrom (ρ name) next' rest' = found' at hfound ⊢
          cases hfound with
          | none => exact .none
          | @some found found' hfound =>
              obtain ⟨⟨sname, storage, index⟩, ⟨around, outermost⟩⟩ := found
              obtain ⟨s', ⟨around', outermost'⟩⟩ := found'
              obtain ⟨rfl, haround⟩ := hfound
              have htables := List.Forall₂.cons haround.current haround.outer
              cases storage with
              | global | builtin => exact .some ⟨rfl, h, htables⟩
              | slot | captured | self =>
                  obtain ⟨hsymbol, hscope⟩ := h.capture hρ ⟨sname, _, index⟩
                  exact .some ⟨hsymbol, hscope, htables⟩

theorem Renamed.resolve (hρ : Function.Injective ρ) (h : Renamed ρ table table') (name : String) :
    Option.Rel (Found ρ) (table.resolve name) (table'.resolve (ρ name)) :=
  resolveFrom_renamed hρ name h.current h.outer

theorem declareLast_renamed (hρ : Function.Injective ρ) (s : Symbol) {scope scope' : Scope}
    {outer outer' : List Scope} (h : scope.Renamed ρ scope')
    (houter : List.Forall₂ (Scope.Renamed ρ) outer outer') :
    Renamed ρ (declareLast s scope outer) (declareLast (s.rename ρ) scope' outer') := by
  induction houter generalizing scope scope' with
  | nil => exact ⟨h.declare hρ s, .nil⟩
  | cons hnext hrest ih => exact ⟨h, .cons (ih hnext).current (ih hnext).outer⟩

end SymbolTable

/-- Builtins keep their names, and so every program starts with symbols that are the same under
both. -/
theorem Compiler.builtinSymbols_renamed (hρ : Function.Injective ρ)
    (hbuiltin : ∀ b : Builtin, ρ b.name = b.name) : builtinSymbols.Renamed ρ builtinSymbols := by
  have hdefine : ∀ (bs : List (Builtin × Nat)) {table : SymbolTable}, table.Renamed ρ table →
      (bs.foldl (fun table b => (table.defineBuiltin b.2 b.1.name).2) table).Renamed ρ
        (bs.foldl (fun table b => (table.defineBuiltin b.2 b.1.name).2) table) := by
    intro bs
    induction bs with
    | nil => exact fun h => h
    | cons b bs ih =>
        intro table h
        have hkept : (⟨b.1.name, .builtin, b.2⟩ : Symbol).rename ρ = ⟨b.1.name, .builtin, b.2⟩ := by
          rw [Symbol.rename, hbuiltin]
        have hdeclare := SymbolTable.declareLast_renamed hρ ⟨b.1.name, .builtin, b.2⟩ h.current
          h.outer
        rw [hkept] at hdeclare
        exact ih hdeclare
  exact hdefine _ ⟨.empty, .nil⟩

namespace Codegen

-- The equations of compilation, which every lemma about a constructor opens.
attribute [local simp] expr stmt block exprs otherwise

/-! ## Two compilations side by side -/

/-- The states of two compilations that differ in names only. -/
structure Renamed (ρ : String → String) (g g' : Codegen) : Prop where
  constants : g'.constants = g.constants
  symbols : g.symbols.Renamed ρ g'.symbols
  buffer : g'.buffer = g.buffer

/-- Two compilations that both go on, with results that are related, or are both refused for the
same reason. -/
inductive Alike (ρ : String → String) {α : Type} (R : α → α → Prop) :
    Except Refusal α → Except Refusal α → Prop where
  | ok {a a' : α} (h : R a a') : Alike ρ R (.ok a) (.ok a')
  | error {r r' : Refusal} (h : r'.error = r.error.rename ρ) : Alike ρ R (.error r) (.error r')

/-- The compilations of a part under the old names and under the new ones, from wherever they
start. -/
def SideBySide (ρ : String → String) (f f' : Codegen → Result) : Prop :=
  ∀ {g g' : Codegen}, Renamed ρ g g' → Alike ρ (Renamed ρ) (f g) (f' g')

variable {g g' : Codegen}

theorem Alike.bind {α β : Type} {R : α → α → Prop} {S : β → β → Prop}
    {x x' : Except Refusal α} {f f' : α → Except Refusal β} (h : Alike ρ R x x')
    (hf : ∀ {a a'}, R a a' → Alike ρ S (f a) (f' a')) : Alike ρ S (x >>= f) (x' >>= f') := by
  cases h with
  | ok h => exact hf h
  | error h => exact .error h

theorem Alike.operand {β : Type} {S : β → β → Prop} (what : Resource) (count : Nat)
    {f f' : Nat → Except Refusal β} (hf : ∀ n, Alike ρ S (f n) (f' n)) :
    Alike ρ S (g.operand what count >>= f) (g'.operand what count >>= f') := by
  rw [Codegen.operand, Codegen.operand]
  split
  · exact hf count
  · exact .error rfl

theorem Alike.within {R : Codegen → Codegen → Prop} {x x' : Result} (h : Alike ρ R x x') :
    Alike ρ R (g.within x) (g'.within x') := by
  cases h with
  | ok h => exact .ok h
  | error h => exact .error h

theorem Renamed.edit (h : Renamed ρ g g') (change : Edit) :
    Renamed ρ (g.edit change) (g'.edit change) :=
  ⟨h.constants, h.symbols, congrArg (·.edit change) h.buffer⟩

theorem Renamed.emit (h : Renamed ρ g g') (i : Instruction) : Renamed ρ (g.emit i) (g'.emit i) :=
  h.edit (.emit i)

theorem Renamed.closeBranch (h : Renamed ρ g g') : Renamed ρ g.closeBranch g'.closeBranch := by
  rw [Codegen.closeBranch, Codegen.closeBranch, h.buffer]
  split
  · exact h.edit _
  · split
    · exact h
    · exact h.emit _

theorem Renamed.closeBody (h : Renamed ρ g g') : Renamed ρ g.closeBody g'.closeBody := by
  have hreturn : Renamed ρ (if g.buffer.endsWith .pop then g.edit .returnLast else g)
      (if g'.buffer.endsWith .pop then g'.edit .returnLast else g') := by
    rw [h.buffer]
    split
    · exact h.edit _
    · exact h
  rw [Codegen.closeBody, Codegen.closeBody]
  generalize (if g.buffer.endsWith .pop then g.edit .returnLast else g) = g₁ at hreturn ⊢
  generalize (if g'.buffer.endsWith .pop then g'.edit .returnLast else g') = g₁' at hreturn ⊢
  rw [hreturn.buffer]
  split
  · exact hreturn
  · exact hreturn.emit _

/-- An instruction that counts something of the program. -/
theorem Renamed.count (h : Renamed ρ g g') (what : Resource) (n : Nat) (i : Nat → Instruction) :
    Alike ρ (Renamed ρ) (g.operand what n >>= fun k => .ok (g.emit (i k)))
      (g'.operand what n >>= fun k => .ok (g'.emit (i k))) :=
  .operand what n fun k => .ok (h.emit (i k))

/-- An instruction that has a new constant as its operand. -/
theorem Renamed.emitConstant (h : Renamed ρ g g') (value : Value) (i : Nat → Instruction) :
    Alike ρ (Renamed ρ) (g.addConstant value >>= fun a => .ok (a.2.emit (i a.1)))
      (g'.addConstant value >>= fun a => .ok (a.2.emit (i a.1))) := by
  have hadd : Alike ρ (fun a a' => a'.1 = a.1 ∧ Renamed ρ a.2 a'.2) (g.addConstant value)
      (g'.addConstant value) := by
    rw [addConstant, addConstant, h.constants]
    exact .operand _ _ fun n => .ok ⟨rfl, rfl, h.symbols, h.buffer⟩
  refine hadd.bind fun {a a'} hadd => ?_
  obtain ⟨index, g₁⟩ := a
  obtain ⟨index', g₁'⟩ := a'
  obtain ⟨rfl, hg⟩ := hadd
  exact .ok (hg.emit _)

theorem Renamed.landHere (h : Renamed ρ g g') (jump : Nat) :
    Alike ρ (Renamed ρ) (g.landHere jump) (g'.landHere jump) := by
  rw [Codegen.landHere, Codegen.landHere, h.buffer]
  exact .operand _ _ fun target => .ok (h.edit _)

theorem Renamed.applyOperator (h : Renamed ρ g g') (op : String) (i : Option Instruction) :
    Alike ρ (Renamed ρ) (g.applyOperator op i) (g'.applyOperator op i) := by
  cases i with
  | none => exact .error rfl
  | some i => exact .ok (h.emit i)

theorem Renamed.pushSymbol (h : Renamed ρ g g') (s : Symbol) :
    Alike ρ (Renamed ρ) (g.pushSymbol s) (g'.pushSymbol (s.rename ρ)) := by
  obtain ⟨name, storage, index⟩ := s
  cases storage with
  | self => exact .ok (h.emit _)
  | global | slot | builtin | captured => exact h.count _ index _

theorem Renamed.store (h : Renamed ρ g g') (s : Symbol) :
    Alike ρ (Renamed ρ) (g.store s) (g'.store (s.rename ρ)) := by
  obtain ⟨name, storage, index⟩ := s
  cases storage <;> exact h.count _ index _

theorem Renamed.pushSymbols (h : Renamed ρ g g') (symbols : List Symbol) :
    Alike ρ (Renamed ρ) (g.pushSymbols symbols)
      (g'.pushSymbols (symbols.map (Symbol.rename ρ))) := by
  induction symbols generalizing g g' with
  | nil => exact .ok h
  | cons s rest ih => exact (h.pushSymbol s).bind fun hg => ih hg

theorem Renamed.pushName (hρ : Function.Injective ρ) (h : Renamed ρ g g') (name : String) :
    Alike ρ (Renamed ρ) (g.pushName name) (g'.pushName (ρ name)) := by
  have hresolve := h.symbols.resolve hρ name
  rw [Codegen.pushName, Codegen.pushName]
  generalize g.symbols.resolve name = found at hresolve ⊢
  generalize g'.symbols.resolve (ρ name) = found' at hresolve ⊢
  cases hresolve with
  | none => exact .error rfl
  | @some found found' hfound =>
      obtain ⟨s, table⟩ := found
      obtain ⟨s', table'⟩ := found'
      obtain ⟨rfl, htable⟩ := hfound
      have hg : Renamed ρ { g with symbols := table } { g' with symbols := table' } :=
        ⟨h.constants, htable, h.buffer⟩
      exact hg.pushSymbol s

/-- The template of a function has no name in it, and its captures are pushed in the same order. -/
theorem Renamed.makeClosure {outer outer' : Codegen} (h : Renamed ρ g g')
    (houter : Renamed ρ outer outer') (parameters : Nat) :
    Alike ρ (Renamed ρ) (g.makeClosure outer parameters) (g'.makeClosure outer' parameters) := by
  rw [Codegen.makeClosure, Codegen.makeClosure]
  have hbody := h.closeBody
  generalize g.closeBody = body at hbody ⊢
  generalize g'.closeBody = body' at hbody ⊢
  obtain ⟨hclosed, hleave⟩ := hbody.symbols.leave
  have hg : Renamed ρ (outer.leave body) (outer'.leave body') :=
    ⟨hbody.constants, hleave, houter.buffer⟩
  have hsize : (body.symbols.leave.1.captures.map (Symbol.rename ρ)).size =
      body.symbols.leave.1.captures.size := Array.size_map
  simp only [hclosed, hsize, Array.toList_map, hbody.buffer]
  refine .operand _ _ fun captured => (hg.pushSymbols _).bind fun hg => ?_
  rw [hg.constants]
  exact hg.emitConstant _ (.closure · captured)

/-! ## Expressions, one constructor at a time -/

/-- Compiling the expression gives the same under the old names and under the new ones. -/
def NamelessExpr (ρ : String → String) (e : Expr) : Prop :=
  e.hashesWithin 1 → SideBySide ρ (expr e) (expr (e.rename ρ))

/-- Compiling the statement gives the same under the old names and under the new ones. -/
def NamelessStmt (ρ : String → String) (s : Stmt) : Prop :=
  s.hashesWithin 1 → SideBySide ρ (stmt s) (stmt (s.rename ρ))

theorem nameless_ident (hρ : Function.Injective ρ) (name : String) :
    NamelessExpr ρ (.ident name) := by
  intro _ g g' h
  rw [Expr.rename, expr, expr]
  exact h.pushName hρ name

theorem nameless_int (value : Int64) : NamelessExpr ρ (.int value) := by
  intro _ g g' h
  rw [Expr.rename, expr, expr]
  exact h.emitConstant _ _

theorem nameless_str (text : String) : NamelessExpr ρ (.str text) := by
  intro _ g g' h
  rw [Expr.rename, expr, expr]
  exact h.emitConstant _ _

theorem nameless_bool (value : Bool) : NamelessExpr ρ (.bool value) := by
  intro _ g g' h
  rw [Expr.rename, expr, expr]
  exact .ok (h.emit _)

theorem nameless_prefixOp (op : String) (operand : Expr) (ih : NamelessExpr ρ operand) :
    NamelessExpr ρ (.prefixOp op operand) := by
  intro hsmall g g' h
  rw [Expr.hashesWithin] at hsmall
  rw [Expr.rename, expr, expr]
  exact (ih hsmall h).bind fun h => h.applyOperator op _

theorem nameless_infixOp (op : String) (left right : Expr) (ihl : NamelessExpr ρ left)
    (ihr : NamelessExpr ρ right) : NamelessExpr ρ (.infixOp op left right) := by
  intro hsmall g g' h
  rw [Expr.hashesWithin, Bool.and_eq_true] at hsmall
  rw [Expr.rename, expr, expr]
  by_cases hop : op = "<"
  · rw [if_pos hop, if_pos hop]
    exact (ihr hsmall.2 h).bind fun h => (ihl hsmall.1 h).bind fun h => .ok (h.emit _)
  · rw [if_neg hop, if_neg hop]
    exact (ihl hsmall.1 h).bind fun h => (ihr hsmall.2 h).bind fun h => h.applyOperator op _

theorem nameless_index (container position : Expr) (ihc : NamelessExpr ρ container)
    (ihp : NamelessExpr ρ position) : NamelessExpr ρ (.index container position) := by
  intro hsmall g g' h
  rw [Expr.hashesWithin, Bool.and_eq_true] at hsmall
  rw [Expr.rename, expr, expr]
  exact (ihc hsmall.1 h).bind fun h => (ihp hsmall.2 h).bind fun h => .ok (h.emit _)

theorem nameless_exprs {es : List Expr} (ih : ∀ e ∈ es, NamelessExpr ρ e)
    (hsmall : exprsHashesWithin 1 es) : SideBySide ρ (exprs es) (exprs (exprsRename ρ es)) := by
  induction es with
  | nil =>
      intro g g' h
      rw [exprsRename, exprs, exprs]
      exact .ok h
  | cons e es ihes =>
      intro g g' h
      rw [exprsHashesWithin, Bool.and_eq_true] at hsmall
      rw [exprsRename, exprs, exprs]
      obtain ⟨ihe, ihrest⟩ := List.forall_mem_cons.1 ih
      exact (ihe hsmall.1 h).bind fun h => ihes ihrest hsmall.2 h

theorem nameless_call (callee : Expr) (arguments : List Expr) (ihc : NamelessExpr ρ callee)
    (iha : ∀ e ∈ arguments, NamelessExpr ρ e) : NamelessExpr ρ (.call callee arguments) := by
  intro hsmall g g' h
  rw [Expr.hashesWithin, Bool.and_eq_true] at hsmall
  rw [Expr.rename, expr, expr, length_exprsRename]
  exact (ihc hsmall.1 h).bind fun h => (nameless_exprs iha hsmall.2 h).bind fun h => h.count _ _ _

theorem nameless_array (elements : List Expr) (ih : ∀ e ∈ elements, NamelessExpr ρ e) :
    NamelessExpr ρ (.array elements) := by
  intro hsmall g g' h
  rw [Expr.hashesWithin] at hsmall
  rw [Expr.rename, expr, expr, length_exprsRename]
  exact (nameless_exprs ih hsmall h).bind fun h => h.count _ _ _

/-- With one pair at most there is nothing to sort, and the texts of the keys do not matter. -/
theorem nameless_hash (pairs : List (Expr × Expr))
    (ih : ∀ p ∈ pairs, NamelessExpr ρ p.1 ∧ NamelessExpr ρ p.2) : NamelessExpr ρ (.hash pairs) := by
  intro hsmall g g' h
  rw [Expr.hashesWithin, Bool.and_eq_true, decide_eq_true_eq] at hsmall
  obtain ⟨hlength, hsmall⟩ := hsmall
  rw [Expr.rename, expr, expr]
  rcases pairs with _ | ⟨⟨key, value⟩, _ | ⟨_, _⟩⟩
  · simp only [pairsRename, pairCodes, List.mergeSort_nil]
    exact (Alike.ok h).bind fun h => h.count _ _ _
  · obtain ⟨ihk, ihv⟩ := ih (key, value) List.mem_cons_self
    simp only [pairsHashesWithin, pairHashesWithin, Bool.and_eq_true] at hsmall
    obtain ⟨⟨hkey, hvalue⟩, -⟩ := hsmall
    simp only [pairsRename, pairRename, pairCodes, pairCode, List.mergeSort_singleton]
    refine Alike.bind (R := Renamed ρ) ?_ fun h => h.count _ _ _
    refine Alike.bind (R := Renamed ρ) ?_ fun h => .ok h
    exact (ihk hkey h).bind fun h => ihv hvalue h
  · exact absurd hlength (by simp)

/-! ## Statements and bodies -/

theorem nameless_bind (hρ : Function.Injective ρ) (name : String) (value : Expr)
    (ih : NamelessExpr ρ value) : NamelessStmt ρ (.bind name value) := by
  intro hsmall g g' h
  rw [Stmt.hashesWithin] at hsmall
  rw [Stmt.rename, stmt, stmt]
  have hdefine := h.symbols.define hρ name
  generalize g.symbols.define name = defined at hdefine ⊢
  generalize g'.symbols.define (ρ name) = defined' at hdefine ⊢
  obtain ⟨s, table⟩ := defined
  obtain ⟨s', table'⟩ := defined'
  obtain ⟨rfl, htable⟩ := hdefine
  have hg : Renamed ρ { g with symbols := table } { g' with symbols := table' } :=
    ⟨h.constants, htable, h.buffer⟩
  exact (ih hsmall hg).bind fun h => h.store s

theorem nameless_ret (value : Expr) (ih : NamelessExpr ρ value) : NamelessStmt ρ (.ret value) := by
  intro hsmall g g' h
  rw [Stmt.hashesWithin] at hsmall
  rw [Stmt.rename, stmt, stmt]
  exact (ih hsmall h).bind fun h => .ok (h.emit _)

theorem nameless_value (value : Expr) (ih : NamelessExpr ρ value) :
    NamelessStmt ρ (.expr value) := by
  intro hsmall g g' h
  rw [Stmt.hashesWithin] at hsmall
  rw [Stmt.rename, stmt, stmt]
  exact (ih hsmall h).bind fun h => .ok (h.emit _)

theorem nameless_block {body : List Stmt} (ih : ∀ s ∈ body, NamelessStmt ρ s)
    (hsmall : blockHashesWithin 1 body) :
    SideBySide ρ (block body) (block (blockRename ρ body)) := by
  induction body with
  | nil =>
      intro g g' h
      rw [blockRename, block, block]
      exact .ok h
  | cons s body ihbody =>
      intro g g' h
      rw [blockHashesWithin, Bool.and_eq_true] at hsmall
      rw [blockRename, block, block]
      obtain ⟨ihs, ihrest⟩ := List.forall_mem_cons.1 ih
      exact (ihs hsmall.1 h).bind fun h => ihbody ihrest hsmall.2 h

theorem nameless_otherwise {alternative : Option (List Stmt)}
    (ih : ∀ body, alternative = some body → ∀ s ∈ body, NamelessStmt ρ s)
    (hsmall : otherwiseHashesWithin 1 alternative) :
    SideBySide ρ (otherwise alternative) (otherwise (otherwiseRename ρ alternative)) := by
  intro g g' h
  cases alternative with
  | none =>
      rw [otherwiseRename, otherwise, otherwise]
      exact .ok (h.emit _)
  | some body =>
      rw [otherwiseHashesWithin] at hsmall
      rw [otherwiseRename, otherwise, otherwise]
      exact (nameless_block (ih body rfl) hsmall h).bind fun h => .ok h.closeBranch

theorem nameless_cond (condition : Expr) (consequence : List Stmt)
    (alternative : Option (List Stmt)) (ihc : NamelessExpr ρ condition)
    (iht : ∀ s ∈ consequence, NamelessStmt ρ s)
    (ihe : ∀ body, alternative = some body → ∀ s ∈ body, NamelessStmt ρ s) :
    NamelessExpr ρ (.cond condition consequence alternative) := by
  intro hsmall g g' h
  rw [Expr.hashesWithin, Bool.and_eq_true, Bool.and_eq_true] at hsmall
  obtain ⟨⟨hcondition, hconsequence⟩, halternative⟩ := hsmall
  rw [Expr.rename, expr, expr]
  dsimp only
  -- the jumps stand at the same places, so they are given the same targets
  refine (ihc hcondition h).bind fun h => ?_
  rw [h.buffer]
  refine (nameless_block iht hconsequence (h.emit _)).bind fun h => ?_
  rw [h.closeBranch.buffer]
  refine ((h.closeBranch.emit _).landHere _).bind fun h => ?_
  exact (nameless_otherwise ihe halternative h).bind fun h => h.landHere _

theorem nameless_function (hρ : Function.Injective ρ) (parameters : List String)
    (body : List Stmt) (name : Option String) (ih : ∀ s ∈ body, NamelessStmt ρ s) :
    NamelessExpr ρ (.function parameters body name) := by
  intro hsmall g g' h
  rw [Expr.hashesWithin] at hsmall
  rw [Expr.rename, expr, expr, List.length_map]
  refine .operand _ _ fun count => ?_
  have henter : Renamed ρ (g.enter name parameters)
      (g'.enter (name.map ρ) (parameters.map ρ)) :=
    ⟨h.constants, h.symbols.openBody hρ name parameters, rfl⟩
  exact (nameless_block ih hsmall henter).within.bind fun hinner => hinner.makeClosure h _

theorem hereditary_nameless (hρ : Function.Injective ρ) :
    Hereditary (NamelessExpr ρ) (NamelessStmt ρ) where
  ident := nameless_ident hρ
  int := nameless_int
  str := nameless_str
  bool := nameless_bool
  prefixOp := nameless_prefixOp
  infixOp := nameless_infixOp
  cond := nameless_cond
  function := nameless_function hρ
  call := nameless_call
  index := nameless_index
  array := nameless_array
  hash := nameless_hash
  bind := nameless_bind hρ
  ret := nameless_ret
  value := nameless_value

end Codegen

theorem Codegen.Alike.map_eq {α β : Type} {R : α → α → Prop} {x x' : Except Refusal α}
    {f : α → β} (h : Alike ρ R x x') (hf : ∀ {a a'}, R a a' → f a' = f a) :
    (x'.mapError Refusal.error).map f =
      ((x.mapError Refusal.error).map f).mapError (CompileError.rename ρ) := by
  cases h with
  | ok h => exact congrArg Except.ok (hf h)
  | error h => exact congrArg Except.error h

namespace Compiler

theorem compile_fst (c : Compiler) (program : Program) :
    (c.compile program).1 = ((Codegen.block program c.start).mapError Codegen.Refusal.error).map
      fun g => ⟨g.buffer.code, g.constants⟩ := by
  rw [compile]
  cases Codegen.block program c.start <;> rfl

/-- The code of a program and its constants do not depend on its names, and neither does the reason
for which it is refused, but for the name in it. -/
theorem compile_rename (hρ : Function.Injective ρ)
    (hbuiltin : ∀ b : Builtin, ρ b.name = b.name) (program : Program)
    (hsmall : program.hashesWithin 1) :
    (Compiler.new.compile (program.rename ρ)).1 =
      (Compiler.new.compile program).1.mapError (CompileError.rename ρ) := by
  have hstart : Codegen.Renamed ρ new.start new.start :=
    ⟨rfl, builtinSymbols_renamed hρ hbuiltin, rfl⟩
  have hblock := Codegen.nameless_block ((Codegen.hereditary_nameless hρ).block program) hsmall
    hstart
  rw [compile_fst, compile_fst]
  refine hblock.map_eq fun h => ?_
  rw [h.buffer, h.constants]

/-- The two names are a global, parameters that hide it, and a capture, and change places
everywhere. -/
theorem compile_rename_swap :
    let ρ := Equiv.swap "x" "y"
    let inner : Expr := .function ["x"]
      [.expr (.cond (.infixOp "<" (.ident "x") (.ident "y"))
        [.expr (.call (.ident "f") [.ident "x"])]
        (some [.expr (.hash [(.str "n", .call (.ident "len") [.str "xy"])])]))] (some "g")
    let program : Program :=
      [.bind "x" (.int 1),
        .bind "f" (.function ["y"] [.bind "g" inner, .ret (.ident "g")] (some "f")),
        .expr (.call (.call (.ident "f") [.ident "x"]) [.int 2])]
    Function.Injective ρ ∧ (∀ b : Builtin, ρ b.name = b.name) ∧ program.hashesWithin 1 ∧
      (Compiler.new.compile program).1.isOk ∧
      (Compiler.new.compile (program.rename ρ)).1 =
        (Compiler.new.compile program).1.mapError (CompileError.rename ρ) := by
  intro ρ inner program
  have hρ : Function.Injective ρ := (Equiv.swap "x" "y").injective
  have hbuiltin : ∀ b : Builtin, ρ b.name = b.name := by
    intro b
    cases b <;> decide
  have hsmall : program.hashesWithin 1 := by decide +kernel
  exact ⟨hρ, hbuiltin, hsmall, by decide +kernel, compile_rename hρ hbuiltin program hsmall⟩

-- With two pairs the names decide which one is compiled first.
example :
    let program : Program := [.bind "x" (.int 1), .bind "y" (.int 2),
      .expr (.hash [(.ident "x", .int 3), (.ident "y", .int 4)])]
    let code (program : Program) := (Compiler.new.compile program).1.toOption.map Bytecode.code
    program.hashesWithin 2 ∧ code (program.rename (Equiv.swap "x" "y")) ≠ code program := by
  refine ⟨by decide, ?_⟩
  cbv
  decide

end Compiler

end Monkey
