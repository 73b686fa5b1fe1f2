import Monkey.Proofs.Captures
import Monkey.Proofs.Compiled

/-!
# Names in scope

What a name stands for is decided by a table of scopes that changes under the compiler's hands.
Which names are refused can be said without it. `Program.events` lists what a program does with
names and operators, in the order in which it is compiled, and a name is in scope when a builtin has
it or one of the bodies that are open at that place has declared it before.

`Mirrors` relates the table to the names declared in the open bodies. Captures add names to a scope,
but only such as a scope around it knows, so nothing is found that is not in scope. Each part of the
compiler then either goes through its events or ends at the first of them that does not pass, which
is `Explains`; a program that is too large may be refused earlier, for its size.
-/

namespace Monkey

/-! ## Events -/

/-- What happens to names and operators. -/
inductive Event where
  /-- The body of a function literal begins. -/
  | enter
  /-- The innermost body ends. -/
  | leave
  /-- The innermost body gets a name: from a `let`, as a parameter or as the name of the
  function. -/
  | declare (name : String)
  /-- An identifier. -/
  | use (name : String)
  /-- The operand of a prefix operator is complete. -/
  | prefixOp (op : String)
  /-- The operands of an infix operator are complete. -/
  | infixOp (op : String)

mutual

/-- The events of an expression. The right operand of `<` comes first, and the pairs of a hash
literal come in the order of the text of their keys. -/
def Expr.events : Expr → List Event
  | .ident name => [.use name]
  | .int _ | .str _ | .bool _ => []
  | .prefixOp op operand => operand.events ++ [.prefixOp op]
  | .infixOp op left right =>
      if op = "<" then right.events ++ left.events ++ [.infixOp op]
      else left.events ++ right.events ++ [.infixOp op]
  | .cond condition consequence alternative =>
      condition.events ++ blockEvents consequence ++ otherwiseEvents alternative
  | .function parameters body name =>
      .enter :: (name.toList ++ parameters).map .declare ++ blockEvents body ++ [.leave]
  | .call callee arguments => callee.events ++ exprsEvents arguments
  | .index container position => container.events ++ position.events
  | .array elements => exprsEvents elements
  | .hash pairs => (((pairsEvents pairs).mergeSort fun a b => a.1 ≤ b.1).map Prod.snd).flatten

/-- The events of a statement. A `let` declares its name before its value is looked at. -/
def Stmt.events : Stmt → List Event
  | .bind name value => .declare name :: value.events
  | .ret value | .expr value => value.events

def blockEvents : List Stmt → List Event
  | [] => []
  | first :: rest => first.events ++ blockEvents rest

def otherwiseEvents : Option (List Stmt) → List Event
  | none => []
  | some body => blockEvents body

def exprsEvents : List Expr → List Event
  | [] => []
  | first :: rest => first.events ++ exprsEvents rest

/-- The events of each pair of a hash literal, under the text of its key. -/
def pairsEvents : List (Expr × Expr) → List (String × List Event)
  | [] => []
  | first :: rest => pairEvents first :: pairsEvents rest

def pairEvents : Expr × Expr → String × List Event
  | (key, value) => (key.render, key.events ++ value.events)

end

/-- The events of a program. -/
def Program.events (program : Program) : List Event :=
  blockEvents program

/-- The names that the open bodies have declared, from the inside out. The last are those of the top
level. -/
abbrev Bodies := List (List String)

namespace Bodies

/-- The names in the open bodies after an event. -/
def next (bodies : Bodies) : Event → Bodies
  | .enter => [] :: bodies
  | .leave => bodies.tail
  | .declare name => bodies.modifyHead (name :: ·)
  | .use _ | .prefixOp _ | .infixOp _ => bodies

/-- The names in the open bodies after some events. -/
def after (bodies : Bodies) (events : List Event) : Bodies :=
  events.foldl next bodies

/-- A builtin has the name, or an open body has declared it. -/
def InScope (bodies : Bodies) (name : String) : Prop :=
  name ∈ Builtin.all.map Builtin.name ∨ ∃ names ∈ bodies, name ∈ names

/-- The name is in scope, or the operator is one of the language. The other events always pass. -/
def Passes (bodies : Bodies) : Event → Prop
  | .use name => bodies.InScope name
  | .prefixOp op => op ∈ ["-", "!"]
  | .infixOp op => op ∈ ["+", "-", "*", "/", "<", ">", "==", "!="]
  | .enter | .leave | .declare _ => True

instance (bodies : Bodies) (name : String) : Decidable (bodies.InScope name) :=
  inferInstanceAs (Decidable (_ ∨ _))

instance (bodies : Bodies) : (event : Event) → Decidable (bodies.Passes event)
  | .use name => inferInstanceAs (Decidable (bodies.InScope name))
  | .prefixOp op => inferInstanceAs (Decidable (op ∈ ["-", "!"]))
  | .infixOp op => inferInstanceAs (Decidable (op ∈ ["+", "-", "*", "/", "<", ">", "==", "!="]))
  | .enter | .leave | .declare _ => .isTrue trivial

/-- Every one of the events passes. -/
def Clear (bodies : Bodies) (events : List Event) : Prop :=
  ∀ before event rest, events = before ++ event :: rest → (bodies.after before).Passes event

/-- The event is the first that does not pass. -/
def StopsAt (bodies : Bodies) (events : List Event) (event : Event) : Prop :=
  ∃ before rest, events = before ++ event :: rest ∧ bodies.Clear before ∧
    ¬(bodies.after before).Passes event

/-- The first event that does not pass, if there is one. -/
def stop? (bodies : Bodies) : List Event → Option Event
  | [] => none
  | event :: rest => if bodies.Passes event then (bodies.next event).stop? rest else some event

variable {bodies : Bodies} {event : Event} {events : List Event}

@[simp] theorem after_append (bodies : Bodies) (events events' : List Event) :
    bodies.after (events ++ events') = (bodies.after events).after events' :=
  List.foldl_append

theorem clear_cons :
    bodies.Clear (event :: events) ↔ bodies.Passes event ∧ (bodies.next event).Clear events := by
  constructor
  · intro h
    refine ⟨h [] event events rfl, fun before event' rest heq => ?_⟩
    exact h (event :: before) event' rest (by rw [heq]; rfl)
  · rintro ⟨hfirst, hrest⟩ before event' rest heq
    cases before with
    | nil =>
        cases heq
        exact hfirst
    | cons first before =>
        cases heq
        exact hrest before event' rest rfl

theorem stop?_eq_none : bodies.stop? events = none ↔ bodies.Clear events := by
  induction events generalizing bodies with
  | nil => simp [stop?, Clear]
  | cons first rest ih =>
      rw [stop?, clear_cons, ← ih]
      split <;> simp [*]

theorem stop?_eq_some : bodies.stop? events = some event ↔ bodies.StopsAt events event := by
  induction events generalizing bodies with
  | nil => simp [stop?, StopsAt]
  | cons first rest ih =>
      rw [stop?]
      split
      · next hpass =>
          rw [ih]
          constructor
          · rintro ⟨before, rest', rfl, hclear, hstop⟩
            exact ⟨first :: before, rest', rfl, clear_cons.2 ⟨hpass, hclear⟩, hstop⟩
          · rintro ⟨before, rest', heq, hclear, hstop⟩
            cases before with
            | nil =>
                cases heq
                exact absurd hpass hstop
            | cons _ before =>
                cases heq
                exact ⟨before, rest', rfl, (clear_cons.1 hclear).2, hstop⟩
      · next hpass =>
          rw [Option.some.injEq]
          constructor
          · rintro rfl
            exact ⟨[], rest, rfl, by simp [Clear], hpass⟩
          · rintro ⟨before, rest', heq, hclear, -⟩
            cases before with
            | nil =>
                cases heq
                rfl
            | cons _ before =>
                cases heq
                exact absurd (clear_cons.1 hclear).1 hpass

theorem stop?_append (bodies : Bodies) (events events' : List Event) :
    bodies.stop? (events ++ events') =
      (bodies.stop? events).or ((bodies.after events).stop? events') := by
  induction events generalizing bodies with
  | nil => rfl
  | cons first rest ih =>
      rw [List.cons_append, stop?, stop?]
      split
      · exact ih _
      · rfl

/-- Names that are declared are declared in the innermost body. -/
theorem after_declares (bodies : Bodies) (names : List String) :
    bodies.stop? (names.map .declare) = none ∧
      (bodies.after (names.map .declare)).tail = bodies.tail := by
  induction names generalizing bodies with
  | nil => exact ⟨rfl, rfl⟩
  | cons name rest ih =>
      obtain ⟨hstop, htail⟩ := ih (bodies.next (.declare name))
      refine ⟨hstop, htail.trans ?_⟩
      cases bodies <;> rfl

end Bodies

/-! ## The table mirrors the open bodies -/

namespace SymbolTable

/-- Some of the scopes stores the name. -/
def Known (scopes : List Scope) (name : String) : Prop :=
  ∃ scope ∈ scopes, name ∈ scope.names

/-- A scope stores symbols under their own names. -/
def Named (scope : Scope) : Prop :=
  ∀ (name : String) s, scope.names[name]? = some s → s.name = name

/-- From each scope outwards those names are known that are in scope. -/
def MirrorsFrom : List Scope → Bodies → Prop
  | [], [] => True
  | scope :: around, names :: bodies =>
      Named scope ∧ (∀ name, Known (scope :: around) name ↔ Bodies.InScope (names :: bodies) name) ∧
      MirrorsFrom around bodies
  | _, _ => False

/-- A table knows the names that are in scope. -/
def Mirrors (table : SymbolTable) (bodies : Bodies) : Prop :=
  MirrorsFrom (table.current :: table.outer) bodies

section

variable {scope scope' : Scope} {around : List Scope} {bodies : Bodies} {name : String}
  {s : Symbol} {table : SymbolTable}

theorem known_cons : Known (scope :: around) name ↔ name ∈ scope.names ∨ Known around name := by
  simp [Known]

theorem known_insert (h : scope'.names = scope.names.insert name s) {name' : String} :
    Known (scope' :: around) name' ↔ name' = name ∨ Known (scope :: around) name' := by
  rw [known_cons, known_cons, h, Std.TreeMap.mem_insert, Std.compare_eq_iff_eq, eq_comm, or_assoc]

theorem Named.insert (h : Named scope) (hnames : scope'.names = scope.names.insert name s)
    (hs : s.name = name) : Named scope' := by
  intro name' s' hs'
  rw [hnames, Std.TreeMap.getElem?_insert] at hs'
  split at hs'
  · next heq =>
      cases hs'
      rw [hs, Std.LawfulEqCmp.eq_of_compare heq]
  · exact h name' s' hs'

theorem isSome_resolveFrom :
    (resolveFrom name scope around).isSome ↔ Known (scope :: around) name := by
  induction around generalizing scope with
  | nil =>
      rw [resolveFrom, Option.isSome_map, ← Std.TreeMap.mem_iff_isSome_getElem?]
      simp [Known]
  | cons next rest ih =>
      rw [known_cons, ← ih, resolveFrom, Std.TreeMap.mem_iff_isSome_getElem?]
      cases scope.names[name]? with
      | some s => simp
      | none =>
          cases resolveFrom name next rest with
          | none => simp
          | some found =>
              obtain ⟨s, ⟨next', rest'⟩⟩ := found
              cases hs : s.storage <;> simp [hs]

theorem MirrorsFrom.known (h : MirrorsFrom (scope :: around) bodies) :
    Known (scope :: around) name ↔ bodies.InScope name := by
  cases bodies with
  | nil => exact h.elim
  | cons => exact h.2.1 name

/-- A name that is stored in the innermost scope is declared in the innermost body. -/
theorem MirrorsFrom.insert {names : List String}
    (h : MirrorsFrom (scope :: around) (names :: bodies))
    (hnames : scope'.names = scope.names.insert name s) (hs : s.name = name) :
    MirrorsFrom (scope' :: around) ((name :: names) :: bodies) := by
  obtain ⟨hnamed, hknown, haround⟩ := h
  refine ⟨hnamed.insert hnames hs, fun name' => ?_, haround⟩
  rw [known_insert hnames, hknown]
  simp only [Bodies.InScope, List.mem_cons, exists_eq_or_imp]
  tauto

/-- Resolving a name tells no scope a name that the scopes around it do not know. -/
theorem MirrorsFrom.resolveFrom (h : MirrorsFrom (scope :: around) bodies)
    (hres : resolveFrom name scope around = some (s, table)) :
    table.Mirrors bodies ∧ s.name = name := by
  induction around generalizing scope bodies s table with
  | nil =>
      rw [SymbolTable.resolveFrom] at hres
      obtain ⟨s', hs, heq⟩ := Option.map_eq_some_iff.1 hres
      cases heq
      cases bodies with
      | nil => exact h.elim
      | cons names bodies => exact ⟨h, h.1 name s hs⟩
  | cons next rest ih =>
      cases bodies with
      | nil => exact h.elim
      | cons names bodies =>
          obtain ⟨hnamed, hknown, haround⟩ := h
          obtain ⟨hs, rfl⟩ | ⟨hnew, s', ⟨next', rest'⟩, hres', hcases⟩ := resolveFrom_cons hres
          · exact ⟨⟨hnamed, hknown, haround⟩, hnamed name s hs⟩
          · obtain ⟨haround', rfl⟩ := ih haround hres'
            have hsame : ∀ {name'}, Known (next' :: rest') name' ↔ Known (next :: rest) name' :=
              haround'.known.trans haround.known.symm
            have hfound : Known (next' :: rest') s'.name :=
              hsame.2 (isSome_resolveFrom.1 (Option.isSome_iff_exists.2 ⟨_, hres'⟩))
            -- the scope as it is, over the scopes around it as they are now
            have hknown' : ∀ name', Known (scope :: next' :: rest') name' ↔
                Bodies.InScope (names :: bodies) name' := by
              intro name'
              rw [← hknown, known_cons, @known_cons scope (next :: rest), hsame]
            obtain ⟨-, rfl, rfl⟩ | ⟨-, rfl, rfl⟩ := hcases
            · exact ⟨⟨hnamed, hknown', haround'⟩, rfl⟩
            · refine ⟨⟨hnamed.insert rfl rfl, fun name' => ?_, haround'⟩, rfl⟩
              rw [← hknown', known_insert rfl, or_iff_right_of_imp]
              rintro rfl
              exact known_cons.2 (.inr hfound)

theorem Mirrors.declare {names : List String} (h : table.Mirrors (names :: bodies))
    (hnames : scope.names = table.current.names.insert name s) (hs : s.name = name) :
    Mirrors ⟨scope, table.outer⟩ ((name :: names) :: bodies) :=
  MirrorsFrom.insert h hnames hs

theorem Mirrors.exists_cons (h : table.Mirrors bodies) :
    ∃ names rest, bodies = names :: rest ∧ table.Mirrors (names :: rest) := by
  cases bodies with
  | nil => exact h.elim
  | cons names rest => exact ⟨names, rest, rfl, h⟩

theorem Mirrors.define (h : table.Mirrors bodies) (name : String) :
    (table.define name).2.Mirrors (bodies.next (.declare name)) := by
  obtain ⟨names, rest, rfl, h⟩ := h.exists_cons
  exact h.declare rfl rfl

theorem Mirrors.defineSelf (h : table.Mirrors bodies) (name : String) :
    (table.defineSelf name).2.Mirrors (bodies.next (.declare name)) := by
  obtain ⟨names, rest, rfl, h⟩ := h.exists_cons
  exact h.declare rfl rfl

theorem Mirrors.enter (h : table.Mirrors bodies) : table.enter.Mirrors (bodies.next .enter) := by
  refine ⟨fun name s hs => ?_, fun name => ?_, h⟩
  · rw [SymbolTable.enter, Std.TreeMap.getElem?_emptyc] at hs
    cases hs
  · rw [SymbolTable.enter, known_cons, MirrorsFrom.known h]
    simp [Bodies.InScope]

/-- The symbols at the start of a body mirror what is declared there. -/
theorem Mirrors.openBody (h : table.Mirrors bodies) (name : Option String)
    (parameters : List String) :
    (Codegen.openBody table name parameters).Mirrors
      (bodies.after (.enter :: (name.toList ++ parameters).map .declare)) := by
  have hfold : ∀ (table : SymbolTable) (bodies : Bodies), table.Mirrors bodies →
      (parameters.foldl (fun symbols name => (symbols.define name).2) table).Mirrors
        (bodies.after (parameters.map .declare)) := by
    induction parameters with
    | nil => exact fun _ _ h => h
    | cons first rest ih => exact fun _ _ h => ih _ _ (h.define first)
  cases name with
  | none => exact hfold _ _ h.enter
  | some name => exact hfold _ _ (h.enter.defineSelf name)

theorem Mirrors.leave (h : table.Mirrors bodies) (hbodies : bodies.tail ≠ []) :
    table.leave.2.Mirrors bodies.tail := by
  obtain ⟨scope, outer⟩ := table
  obtain ⟨names, rest, rfl, -, -, hrest⟩ := h.exists_cons
  cases outer with
  | nil =>
      cases rest with
      | nil => exact absurd rfl hbodies
      | cons => exact hrest.elim
  | cons => exact hrest

end

end SymbolTable

/-! ## Compiling -/

namespace Codegen

/-- The error that an event leads to if it does not pass. -/
def refusal? : Event → Option CompileError
  | .use name => some (.undefinedVariable name)
  | .prefixOp op | .infixOp op => some (.unknownOperator op)
  | .enter | .leave | .declare _ => none

theorem refusal?_eq_undefined {event : Event} {name : String} :
    refusal? event = some (.undefinedVariable name) ↔ event = .use name := by
  cases event <;> simp [refusal?]

theorem refusal?_eq_unknown {event : Event} {op : String} :
    refusal? event = some (.unknownOperator op) ↔ event = .prefixOp op ∨ event = .infixOp op := by
  cases event <;> simp [refusal?]

/-- The program is refused for its size. -/
def TooLarge (e : CompileError) : Prop :=
  ∃ what count, e = .tooMany what count

/-- What the compilation of a part with some events comes to, if the symbols before it mirror the
open bodies. It either goes through its events, which declare names in the innermost body only, or
it is refused at the first that does not pass, or for its size. -/
def Explains (bodies : Bodies) (events : List Event) : Result → Prop
  | .ok g => bodies.stop? events = none ∧ g.symbols.Mirrors (bodies.after events) ∧
      (bodies.after events).tail = bodies.tail
  | .error r => TooLarge r.error ∨ (bodies.stop? events).bind refusal? = some r.error

/-- The same of a part without events, which keeps the symbols. -/
def Plain (symbols : SymbolTable) : Result → Prop
  | .ok g => g.symbols = symbols
  | .error r => TooLarge r.error

section

variable {bodies : Bodies} {events events' : List Event} {symbols : SymbolTable} {g : Codegen}
  {x : Result} {f : Codegen → Result}

theorem Explains.after (hevents : bodies.stop? events = none)
    (htail : (bodies.after events).tail = bodies.tail)
    (h : Explains (bodies.after events) events' x) : Explains bodies (events ++ events') x := by
  have hstop : bodies.stop? (events ++ events') = (bodies.after events).stop? events' := by
    rw [Bodies.stop?_append, hevents, Option.none_or]
  cases x with
  | error e => exact h.imp_right fun h => by rw [hstop, h]
  | ok g =>
      obtain ⟨hnone, hmirrors, htail'⟩ := h
      rw [← Bodies.after_append] at hmirrors htail'
      exact ⟨hstop.trans hnone, hmirrors, htail'.trans htail⟩

theorem Explains.bind (hx : Explains bodies events x)
    (hf : ∀ g, g.symbols.Mirrors (bodies.after events) →
      Explains (bodies.after events) events' (f g)) :
    Explains bodies (events ++ events') (x >>= f) := by
  cases x with
  | error e =>
      refine hx.imp_right fun h => ?_
      obtain ⟨event, hevent, he⟩ := Option.bind_eq_some_iff.1 h
      rw [Bodies.stop?_append, hevent]
      exact he
  | ok g => exact .after hx.1 hx.2.2 (hf g hx.2.1)

/-- The events came before `x`. -/
theorem Plain.explains_of (hx : Plain symbols x) (hevents : bodies.stop? events = none)
    (hsymbols : symbols.Mirrors (bodies.after events))
    (htail : (bodies.after events).tail = bodies.tail) : Explains bodies events x := by
  cases x with
  | error e => exact .inl hx
  | ok g => exact ⟨hevents, hx ▸ hsymbols, htail⟩

theorem Plain.explains (hx : Plain symbols x) (hsymbols : symbols.Mirrors bodies) :
    Explains bodies [] x :=
  hx.explains_of rfl hsymbols rfl

/-- Code that follows a part and has no events of its own. -/
theorem Explains.plain (hx : Explains bodies events x) (hf : ∀ g, Plain g.symbols (f g)) :
    Explains bodies events (x >>= f) := by
  have h := hx.bind fun g hg => (hf g).explains hg
  rwa [List.append_nil] at h

/-- A body that opens with some declarations and ends when the code after it has been made. -/
theorem Explains.body {names : List String}
    (hx : Explains (bodies.after (.enter :: names.map .declare)) events x) (hbodies : bodies ≠ [])
    (hf : ∀ g, Plain g.symbols.leave.2 (f g)) :
    Explains bodies (.enter :: names.map .declare ++ events ++ [.leave]) (g.within x >>= f) := by
  obtain ⟨hopening, htail⟩ := Bodies.after_declares (bodies.next .enter) names
  have hstop : bodies.stop? (.enter :: names.map .declare ++ events ++ [.leave]) =
      (bodies.after (.enter :: names.map .declare)).stop? events := by
    have hleave : ∀ bodies : Bodies, bodies.stop? [.leave] = none := fun _ => rfl
    rw [Bodies.stop?_append, Bodies.stop?_append, hleave, Option.or_none]
    exact congrArg (Option.or · _) hopening
  cases x with
  | error e => exact hx.imp_right fun h => by rw [hstop, h]
  | ok g =>
      obtain ⟨hnone, hmirrors, htail'⟩ := hx
      have hclosed : ((bodies.after (.enter :: names.map .declare)).after events).tail = bodies :=
        htail'.trans htail
      have hafter : bodies.after (.enter :: names.map .declare ++ events ++ [.leave]) = bodies := by
        rw [Bodies.after_append, Bodies.after_append]
        exact hclosed
      refine (hf g).explains_of (hstop.trans hnone) ?_ (by rw [hafter])
      have hleft := hmirrors.leave (by rwa [hclosed])
      rwa [hclosed, ← hafter] at hleft

theorem Plain.bind (hx : Plain symbols x) (hf : ∀ g, Plain g.symbols (f g)) :
    Plain symbols (x >>= f) := by
  cases x with
  | error e => exact hx
  | ok g => exact hx ▸ hf g

theorem plain_operand {what : Resource} {count : Nat} {f : Nat → Result}
    (hf : ∀ n, Plain symbols (f n)) : Plain symbols (g.operand what count >>= f) := by
  rw [operand]
  split
  · exact hf count
  · exact ⟨what, count, rfl⟩

theorem explains_operand {what : Resource} {count : Nat} {f : Nat → Result}
    (hf : ∀ n, Explains bodies events (f n)) :
    Explains bodies events (g.operand what count >>= f) := by
  rw [operand]
  split
  · exact hf count
  · exact .inl ⟨what, count, rfl⟩

theorem plain_pushSymbol (g : Codegen) (s : Symbol) : Plain g.symbols (g.pushSymbol s) := by
  rw [pushSymbol]
  cases s.storage with
  | self => rfl
  | global | slot | builtin | captured => exact plain_operand fun _ => rfl

theorem plain_pushSymbols (g : Codegen) (symbols : List Symbol) :
    Plain g.symbols (g.pushSymbols symbols) := by
  induction symbols generalizing g with
  | nil => rfl
  | cons s rest ih =>
      rw [pushSymbols]
      exact (plain_pushSymbol g s).bind ih

theorem plain_addConstant {value : Value} {f : Nat × Codegen → Result}
    (hf : ∀ index g', g'.symbols = g.symbols → Plain g.symbols (f (index, g'))) :
    Plain g.symbols (g.addConstant value >>= f) := by
  rw [addConstant, bind_assoc]
  exact plain_operand fun index => hf index _ rfl

theorem plain_pushConstant (g : Codegen) (value : Value) :
    Plain g.symbols (g.pushConstant value) := by
  rw [pushConstant]
  exact plain_addConstant fun _ _ hsymbols => hsymbols

theorem plain_store (g : Codegen) (s : Symbol) : Plain g.symbols (g.store s) := by
  rw [store]
  cases s.storage <;> exact plain_operand fun _ => rfl

theorem plain_landHere (g : Codegen) (jump : Nat) : Plain g.symbols (g.landHere jump) := by
  rw [landHere]
  exact plain_operand fun _ => rfl

theorem plain_makeClosure (inner outer : Codegen) (parameters : Nat) :
    Plain inner.symbols.leave.2 (inner.makeClosure outer parameters) := by
  rw [makeClosure, ← inner.symbols_closeBody]
  exact plain_operand fun _ => (plain_pushSymbols (outer.leave inner.closeBody) _).bind
    fun _ => plain_addConstant fun _ _ hsymbols => hsymbols

/-! ### Operators -/

theorem isSome_prefixInstruction? (op : String) :
    (prefixInstruction? op).isSome ↔ op ∈ ["-", "!"] := by
  unfold prefixInstruction?
  split <;> simp_all

theorem isSome_infixInstruction? {op : String} (hop : op ≠ "<") :
    (infixInstruction? op).isSome ↔ op ∈ ["+", "-", "*", "/", "<", ">", "==", "!="] := by
  unfold infixInstruction?
  split <;> simp_all

/-- An operator is refused if it has no instruction. -/
theorem explains_applyOperator {event : Event} {op : String} {i : Option Instruction}
    (hg : g.symbols.Mirrors bodies) (hi : i.isSome ↔ bodies.Passes event)
    (hrefusal : refusal? event = some (.unknownOperator op)) (hnext : bodies.next event = bodies) :
    Explains bodies [event] (g.applyOperator op i) := by
  cases i with
  | some i =>
      have hstop : bodies.stop? [event] = none := by
        rw [Bodies.stop?, if_pos (hi.1 rfl)]
        rfl
      have hafter : bodies.after [event] = bodies := hnext
      exact ⟨hstop, by rwa [hafter], by rw [hafter]⟩
  | none =>
      refine .inr ?_
      rw [Bodies.stop?, if_neg (fun h => nomatch hi.2 h)]
      exact hrefusal

/-! ### Trees -/

-- The equations of compilation and of the events, which every lemma about a constructor opens.
attribute [local simp] expr stmt block exprs otherwise
  Expr.events Stmt.events blockEvents exprsEvents otherwiseEvents pairsEvents pairEvents

/-- The events of an expression explain what compiling it comes to. -/
def ExplainsExpr (e : Expr) : Prop :=
  ∀ g bodies, g.symbols.Mirrors bodies → Explains bodies e.events (expr e g)

/-- The events of a statement explain what compiling it comes to. -/
def ExplainsStmt (s : Stmt) : Prop :=
  ∀ g bodies, g.symbols.Mirrors bodies → Explains bodies s.events (stmt s g)

theorem explains_ident (name : String) : ExplainsExpr (.ident name) := by
  intro g bodies hg
  rw [Expr.events, expr, pushName]
  have hfound : (g.symbols.resolve name).isSome ↔ bodies.Passes (.use name) :=
    SymbolTable.isSome_resolveFrom.trans (SymbolTable.MirrorsFrom.known hg)
  split
  · next s table hres =>
      have hpass := hfound.1 (Option.isSome_iff_exists.2 ⟨_, hres⟩)
      have hstop : bodies.stop? [.use name] = none := by
        rw [Bodies.stop?, if_pos hpass]
        rfl
      have htable := (SymbolTable.MirrorsFrom.resolveFrom hg hres).1
      exact (plain_pushSymbol { g with symbols := table } s).explains_of hstop htable rfl
  · next hres =>
      refine .inr ?_
      have hpass : ¬bodies.Passes (.use name) := by
        rw [← hfound, hres]
        exact Bool.false_ne_true
      rw [Bodies.stop?, if_neg hpass]
      rfl

theorem explains_literal {e : Expr} (hevents : e.events = [])
    (h : ∀ g, Plain g.symbols (expr e g)) : ExplainsExpr e := by
  intro g bodies hg
  rw [hevents]
  exact (h g).explains hg

theorem explains_prefixOp (op : String) (operand : Expr) (ih : ExplainsExpr operand) :
    ExplainsExpr (.prefixOp op operand) := by
  intro g bodies hg
  rw [Expr.events, expr]
  refine (ih g bodies hg).bind fun g hg => ?_
  exact explains_applyOperator hg (isSome_prefixInstruction? op) rfl rfl

theorem explains_infixOp (op : String) (left right : Expr) (ihl : ExplainsExpr left)
    (ihr : ExplainsExpr right) : ExplainsExpr (.infixOp op left right) := by
  intro g bodies hg
  rw [Expr.events, expr]
  split
  · next hop =>
      subst hop
      rw [List.append_assoc]
      refine (ihr g bodies hg).bind fun g hg => (ihl g _ hg).bind fun g hg => ?_
      exact explains_applyOperator (i := some .greater) hg (by simp [Bodies.Passes]) rfl rfl
  · next hop =>
      rw [List.append_assoc]
      refine (ihl g bodies hg).bind fun g hg => (ihr g _ hg).bind fun g hg => ?_
      exact explains_applyOperator hg (isSome_infixInstruction? hop) rfl rfl

theorem explains_exprs {es : List Expr} (ih : ∀ e ∈ es, ExplainsExpr e) (g : Codegen)
    (bodies : Bodies) (hg : g.symbols.Mirrors bodies) :
    Explains bodies (exprsEvents es) (exprs es g) := by
  induction es generalizing g bodies with
  | nil =>
      rw [exprsEvents, exprs]
      exact ⟨rfl, hg, rfl⟩
  | cons e es ihes =>
      rw [exprsEvents, exprs]
      obtain ⟨ihe, ihrest⟩ := List.forall_mem_cons.1 ih
      exact (ihe g bodies hg).bind fun g hg => ihes ihrest g _ hg

theorem explains_block {ss : List Stmt} (ih : ∀ s ∈ ss, ExplainsStmt s) (g : Codegen)
    (bodies : Bodies) (hg : g.symbols.Mirrors bodies) :
    Explains bodies (blockEvents ss) (block ss g) := by
  induction ss generalizing g bodies with
  | nil =>
      rw [blockEvents, block]
      exact ⟨rfl, hg, rfl⟩
  | cons s ss ihss =>
      rw [blockEvents, block]
      obtain ⟨ihs, ihrest⟩ := List.forall_mem_cons.1 ih
      exact (ihs g bodies hg).bind fun g hg => ihss ihrest g _ hg

theorem explains_otherwise {alternative : Option (List Stmt)}
    (ih : ∀ body, alternative = some body → ∀ s ∈ body, ExplainsStmt s) (g : Codegen)
    (bodies : Bodies) (hg : g.symbols.Mirrors bodies) :
    Explains bodies (otherwiseEvents alternative) (otherwise alternative g) := by
  cases alternative with
  | none =>
      rw [otherwiseEvents, otherwise]
      exact ⟨rfl, hg, rfl⟩
  | some body =>
      rw [otherwiseEvents, otherwise]
      exact (explains_block (ih body rfl) g bodies hg).plain symbols_closeBranch

theorem explains_cond (condition : Expr) (consequence : List Stmt)
    (alternative : Option (List Stmt)) (ihc : ExplainsExpr condition)
    (ihb : ∀ s ∈ consequence, ExplainsStmt s)
    (iha : ∀ body, alternative = some body → ∀ s ∈ body, ExplainsStmt s) :
    ExplainsExpr (.cond condition consequence alternative) := by
  intro g bodies hg
  rw [Expr.events, expr, List.append_assoc]
  refine (ihc g bodies hg).bind fun g hg => ?_
  refine (explains_block ihb (g.emit _) _ hg).bind fun g hg => ?_
  rw [← g.symbols_closeBranch] at hg
  refine ((plain_landHere (g.closeBranch.emit _) _).explains hg).bind fun g hg => ?_
  exact (explains_otherwise iha g _ hg).plain fun g => plain_landHere g _

theorem explains_function (parameters : List String) (body : List Stmt) (name : Option String)
    (ih : ∀ s ∈ body, ExplainsStmt s) : ExplainsExpr (.function parameters body name) := by
  intro g bodies hg
  rw [Expr.events, expr]
  refine explains_operand fun count => ?_
  have hbodies : bodies ≠ [] := by
    obtain ⟨_, _, rfl, -⟩ := hg.exists_cons
    exact List.cons_ne_nil _ _
  exact (explains_block ih _ _ (hg.openBody name parameters)).body hbodies fun inner =>
    plain_makeClosure inner _ _

theorem explains_call (callee : Expr) (arguments : List Expr) (ihc : ExplainsExpr callee)
    (iha : ∀ e ∈ arguments, ExplainsExpr e) : ExplainsExpr (.call callee arguments) := by
  intro g bodies hg
  rw [Expr.events, expr]
  refine (ihc g bodies hg).bind fun g hg => (explains_exprs iha g _ hg).plain fun g => ?_
  exact plain_operand fun _ => rfl

theorem explains_index (container position : Expr) (ihc : ExplainsExpr container)
    (ihp : ExplainsExpr position) : ExplainsExpr (.index container position) := by
  intro g bodies hg
  rw [Expr.events, expr]
  exact (ihc g bodies hg).bind fun g hg => (ihp g _ hg).plain fun _ => rfl

theorem explains_array (elements : List Expr) (ih : ∀ e ∈ elements, ExplainsExpr e) :
    ExplainsExpr (.array elements) := by
  intro g bodies hg
  rw [Expr.events, expr]
  exact (explains_exprs ih g bodies hg).plain fun _ => plain_operand fun _ => rfl

theorem pairsEvents_eq (pairs : List (Expr × Expr)) : pairsEvents pairs = pairs.map pairEvents := by
  induction pairs with
  | nil => rw [pairsEvents]; rfl
  | cons pair rest ih => rw [pairsEvents, ih]; rfl

theorem pairsEvents_sorted (pairs : List (Expr × Expr)) :
    ((pairsEvents pairs).mergeSort fun a b => a.1 ≤ b.1).map Prod.snd =
      (ordered pairs).map fun p => (pairEvents p).2 := by
  rw [pairsEvents_eq]
  refine map_sorted (fun p => ?_) pairs
  rw [pairEvents]

theorem explains_pairs {ps : List (Expr × Expr)}
    (ih : ∀ p ∈ ps, ExplainsExpr p.1 ∧ ExplainsExpr p.2) (g : Codegen) (bodies : Bodies)
    (hg : g.symbols.Mirrors bodies) :
    Explains bodies (ps.map fun p => (pairEvents p).2).flatten
      (g.inTurn (ps.map fun p => (pairCode p).2)) := by
  induction ps generalizing g bodies with
  | nil => exact ⟨rfl, hg, rfl⟩
  | cons p ps ihps =>
      obtain ⟨key, value⟩ := p
      obtain ⟨⟨ihkey, ihvalue⟩, ihrest⟩ := List.forall_mem_cons.1 ih
      rw [List.map_cons, List.map_cons, List.flatten_cons, inTurn, pairEvents, pairCode]
      have hpair := (ihkey g bodies hg).bind fun g hg => ihvalue g _ hg
      exact hpair.bind fun g hg => ihps ihrest g _ hg

theorem explains_hash (pairs : List (Expr × Expr))
    (ih : ∀ p ∈ pairs, ExplainsExpr p.1 ∧ ExplainsExpr p.2) : ExplainsExpr (.hash pairs) := by
  intro g bodies hg
  rw [Expr.events, expr, pairsEvents_sorted, pairCodes_sorted]
  have hperm : (ordered pairs).Perm pairs := List.mergeSort_perm _ _
  have hpairs := explains_pairs (fun p hp => ih p (hperm.mem_iff.1 hp)) g bodies hg
  exact hpairs.plain fun _ => plain_operand fun _ => rfl

theorem explains_bind (name : String) (value : Expr) (ih : ExplainsExpr value) :
    ExplainsStmt (.bind name value) := by
  intro g bodies hg
  rw [Stmt.events, stmt]
  obtain ⟨hdeclared, htail⟩ := bodies.after_declares [name]
  refine .after hdeclared htail ((ih _ _ (hg.define name)).plain fun g => plain_store g _)

theorem explains_ret (value : Expr) (ih : ExplainsExpr value) : ExplainsStmt (.ret value) := by
  intro g bodies hg
  rw [Stmt.events, stmt]
  exact (ih g bodies hg).plain fun _ => rfl

theorem explains_value (value : Expr) (ih : ExplainsExpr value) : ExplainsStmt (.expr value) := by
  intro g bodies hg
  rw [Stmt.events, stmt]
  exact (ih g bodies hg).plain fun _ => rfl

theorem hereditary_explains : Hereditary ExplainsExpr ExplainsStmt where
  ident := explains_ident
  int value := explains_literal (by rw [Expr.events]) fun g => by
    rw [expr]
    exact plain_pushConstant g _
  str text := explains_literal (by rw [Expr.events]) fun g => by
    rw [expr]
    exact plain_pushConstant g _
  bool value := explains_literal (by rw [Expr.events]) fun g => by
    rw [expr]
    rfl
  prefixOp := explains_prefixOp
  infixOp := explains_infixOp
  cond := explains_cond
  function := explains_function
  call := explains_call
  index := explains_index
  array := explains_array
  hash := explains_hash
  bind := explains_bind
  ret := explains_ret
  value := explains_value

end

end Codegen

/-! ## Programs -/

namespace SymbolTable

/-- At the top level of a new compiler the builtins are in scope and nothing else. -/
theorem builtinSymbols_mirrors : Compiler.builtinSymbols.Mirrors [[]] := by
  have hfold : ∀ (bs : List (Builtin × Nat)) (scope : Scope), Named scope →
      ∃ scope', bs.foldl (fun table b => (table.defineBuiltin b.2 b.1.name).2) ⟨scope, []⟩ =
          (⟨scope', []⟩ : SymbolTable) ∧ Named scope' ∧
        ∀ name, Known [scope'] name ↔ name ∈ bs.map (·.1.name) ∨ Known [scope] name := by
    intro bs
    induction bs with
    | nil => exact fun scope hscope => ⟨scope, rfl, hscope, by simp⟩
    | cons b rest ih =>
        intro scope hscope
        have hnext : Named (scope.declare ⟨b.1.name, .builtin, b.2⟩) := hscope.insert rfl rfl
        obtain ⟨scope', heq, hscope', hknown⟩ := ih _ hnext
        refine ⟨scope', heq, hscope', fun name => ?_⟩
        rw [hknown, known_insert rfl]
        simp only [List.map_cons, List.mem_cons]
        tauto
  have hempty : Named {} := by
    intro name s hs
    rw [Std.TreeMap.getElem?_emptyc] at hs
    cases hs
  obtain ⟨scope, heq, hscope, hknown⟩ := hfold Builtin.all.zipIdx {} hempty
  have hnames : ∀ name, Known [scope] name ↔ Bodies.InScope [[]] name := by
    intro name
    have hall : Builtin.all.zipIdx.map (·.1.name) = Builtin.all.map Builtin.name := rfl
    rw [hknown, hall]
    simp [Known, Bodies.InScope]
  rw [Compiler.builtinSymbols, heq]
  exact ⟨hscope, hnames, trivial⟩

end SymbolTable

namespace Compiler

open Bodies

/-- What a new compiler answers, by the events of the program. -/
theorem compile_new_cases (program : Program) :
    (∃ b, (new.compile program).1 = .ok b ∧ stop? [[]] program.events = none) ∨
    ∃ e, (new.compile program).1 = .error e ∧
      (Codegen.TooLarge e ∨ (stop? [[]] program.events).bind Codegen.refusal? = some e) := by
  have h := Codegen.explains_block (fun s (_ : s ∈ program) => Codegen.hereditary_explains.stmt s)
    new.start [[]] SymbolTable.builtinSymbols_mirrors
  rw [compile]
  split
  · next g hblock =>
      rw [hblock] at h
      exact .inl ⟨_, rfl, h.1⟩
  · next refusal hblock =>
      rw [hblock] at h
      exact .inr ⟨refusal.error, rfl, h⟩

/-- A new compiler accepts a program only if all its names are in scope and all its operators are
known. An undefined name or an unknown operator that it reports is the first in the order of
compilation, with nothing wrong before it. Where the program has one, that is the report, unless the
program is refused for its size. -/
theorem compile_new_stopsAt (program : Program) :
    let result := (new.compile program).1
    (∀ b, result = .ok b → Clear [[]] program.events) ∧
    (∀ name, result = .error (.undefinedVariable name) → StopsAt [[]] program.events (.use name)) ∧
    (∀ op, result = .error (.unknownOperator op) →
      StopsAt [[]] program.events (.prefixOp op) ∨ StopsAt [[]] program.events (.infixOp op)) ∧
    ∀ event, StopsAt [[]] program.events event →
      ∃ e, result = .error e ∧ (Codegen.TooLarge e ∨ Codegen.refusal? event = some e) := by
  simp only [← stop?_eq_none, ← stop?_eq_some]
  obtain ⟨b, hresult, hnone⟩ | ⟨e, hresult, hlarge | hrefusal⟩ := compile_new_cases program
  · simp [hresult, hnone]
  · obtain ⟨what, count, rfl⟩ := hlarge
    simp [hresult, Codegen.TooLarge]
  · obtain ⟨event, hstop, hrefusal⟩ := Option.bind_eq_some_iff.1 hrefusal
    rw [hresult, hstop]
    refine ⟨nofun, ?_, ?_, ?_⟩
    · rintro name ⟨⟩
      rw [Codegen.refusal?_eq_undefined.1 hrefusal]
    · rintro op ⟨⟩
      exact (Codegen.refusal?_eq_unknown.1 hrefusal).imp (congrArg some) (congrArg some)
    · rintro event' ⟨⟩
      exact ⟨e, rfl, .inr hrefusal⟩

/-- `let f = fn(x) { if (x) { let y = f }; y < z + w }; y` -/
def reordered : Program :=
  [.bind "f" (.function ["x"]
      [.expr (.cond (.ident "x") [.bind "y" (.ident "f")] none),
        .expr (.infixOp "<" (.ident "y") (.infixOp "+" (.ident "z") (.ident "w")))] (some "f")),
    .expr (.ident "y")]

/-- The name of the block is in scope after it, and the right operand comes first. -/
theorem compile_new_stopsAt_reordered :
    (new.compile reordered).1 = .error (.undefinedVariable "z") ∧
      StopsAt [[]] reordered.events (.use "z") := by
  have h : (new.compile reordered).1 = .error (.undefinedVariable "z") := by cbv
  exact ⟨h, (compile_new_stopsAt reordered).2.1 "z" h⟩

end Compiler

end Monkey
