import Monkey.Proofs.Scoping
import Monkey.Proofs.Sites

/-!
# Which binding an identifier means

Blocks open no scope, so a name stands for whatever was declared last under it when its identifier
is compiled, whether or not that `let` will have been executed when the identifier is evaluated.
Within one body this can be read off its sites. `Scoped` says it, along with what makes the symbols
of a body tell its bindings apart: each `let` gets an index of its own, larger than those before,
and stores under it once, behind the place where it begins. `Written` adds that the sites have the
names of the text, one after the other.

The table that resolution hands on is looked at only through the names of the innermost scope.
Scopes around it may capture, which `Scope.Extends` allows, but what they store they keep.
-/

namespace Monkey

/-- The last element of a list with some property. -/
def lastWhere {α : Type} (p : α → Bool) (xs : List α) : Option α :=
  (xs.filter p).getLast?

section

variable {α : Type} {p : α → Bool} {xs ys : List α} {a : α}

theorem lastWhere_append (p : α → Bool) (xs ys : List α) :
    lastWhere p (xs ++ ys) = (lastWhere p ys).or (lastWhere p xs) := by
  rw [lastWhere, List.filter_append, List.getLast?_append]
  rfl

theorem lastWhere_eq_some (h : lastWhere p xs = some a) : a ∈ xs ∧ p a = true :=
  List.mem_filter.1 (List.mem_of_getLast? h)

/-- Behind the last one there is no other. -/
theorem exists_of_lastWhere (h : lastWhere p xs = some a) :
    ∃ before after, xs = before ++ a :: after ∧ p a = true ∧ ∀ b ∈ after, p b = false := by
  induction xs using List.reverseRecOn with
  | nil => cases h
  | append_singleton xs b ih =>
      rw [lastWhere_append] at h
      cases hb : p b with
      | true =>
          have hlast : lastWhere p [b] = some b := by simp [lastWhere, hb]
          rw [hlast] at h
          cases h
          exact ⟨xs, [], rfl, hb, nofun⟩
      | false =>
          have hlast : lastWhere p [b] = none := by simp [lastWhere, hb]
          rw [hlast] at h
          obtain ⟨before, after, rfl, ha, hafter⟩ := ih h
          refine ⟨before, after ++ [b], by simp, ha, fun c hc => ?_⟩
          rcases List.mem_append.1 hc with hc | hc
          · exact hafter c hc
          · rw [List.mem_singleton.1 hc, hb]

theorem isSome_lastWhere (ha : a ∈ xs) (hp : p a = true) : ∃ b, lastWhere p xs = some b := by
  have hne : xs.filter p ≠ [] := List.ne_nil_of_mem (List.mem_filter.2 ⟨ha, hp⟩)
  exact ⟨_, List.getLast?_eq_some_getLast hne⟩

/-- Any other one stands in front of the last one. -/
theorem pair_sublist_of_lastWhere {b : α} (h : lastWhere p xs = some b) (ha : a ∈ xs)
    (hp : p a = true) (hne : a ≠ b) : [a, b].Sublist xs := by
  obtain ⟨before, after, rfl, -, hafter⟩ := exists_of_lastWhere h
  have hbefore : a ∈ before := by
    rcases List.mem_append.1 ha with hmem | hmem
    · exact hmem
    · rcases List.mem_cons.1 hmem with heq | hmem
      · exact absurd heq hne
      · exact absurd ((hafter a hmem).symm.trans hp) Bool.false_ne_true
  exact (List.singleton_sublist.2 hbefore).append (List.singleton_sublist.2 List.mem_cons_self)

/-- What comes last also comes last among fewer, if it is one of them. -/
theorem lastWhere_of_imp {q : α → Bool} (h : lastWhere p xs = some a)
    (himp : ∀ b, q b = true → p b = true) (ha : q a = true) : lastWhere q xs = some a := by
  obtain ⟨before, after, rfl, -, hafter⟩ := exists_of_lastWhere h
  have hnone : after.filter q = [] := by
    refine List.filter_eq_nil_iff.2 fun b hb hq => ?_
    exact Bool.false_ne_true ((hafter b hb).symm.trans (himp b hq))
  rw [lastWhere, List.filter_append, List.filter_cons_of_pos ha, hnone, List.getLast?_concat]

end

/-- A scope that stores at least what another one stores, with as many slots given out. -/
structure Scope.Extends (scope scope' : Scope) : Prop where
  definitions : scope'.definitions = scope.definitions
  names : ∀ (x : String) s, scope.names[x]? = some s → scope'.names[x]? = some s

theorem Scope.Extends.refl (scope : Scope) : scope.Extends scope :=
  ⟨rfl, fun _ _ h => h⟩

theorem Scope.Extends.trans {a b c : Scope} (h : a.Extends b) (h' : b.Extends c) : a.Extends c :=
  ⟨h'.definitions.trans h.definitions, fun x s hs => h'.names x s (h.names x s hs)⟩

theorem Scope.extends_all_refl (scopes : List Scope) : List.Forall₂ Scope.Extends scopes scopes :=
  List.forall₂_same.2 fun scope _ => .refl scope

theorem Scope.extends_all_trans {as bs cs : List Scope} (h : List.Forall₂ Scope.Extends as bs)
    (h' : List.Forall₂ Scope.Extends bs cs) : List.Forall₂ Scope.Extends as cs := by
  induction h generalizing cs with
  | nil => exact h'
  | cons hab _ ih =>
      cases h' with
      | cons hbc hrest => exact .cons (hab.trans hbc) (ih hrest)

namespace SymbolTable

/-- Every open scope stores symbols under their own names. -/
def Honest (table : SymbolTable) : Prop :=
  ∀ scope ∈ table.current :: table.outer, Named scope

/-- Where a body has its bindings: the top level among the globals, a function in its slots. -/
def kind (table : SymbolTable) : Storage :=
  if table.outer = [] then .global else .slot

theorem kind_congr {table table' : SymbolTable}
    (h : List.Forall₂ Scope.Extends table.outer table'.outer) : table'.kind = table.kind := by
  have hnil : table'.outer = [] ↔ table.outer = [] := by
    rw [← List.length_eq_zero_iff, ← h.length_eq, List.length_eq_zero_iff]
  simp only [kind, hnil]

/-- A name that the innermost scope stores stands for what is stored there, and resolving a name
takes nothing away from any scope. -/
theorem resolveFrom_extends {name : String} {scope : Scope} {outer : List Scope} {s : Symbol}
    {table : SymbolTable} (h : resolveFrom name scope outer = some (s, table))
    (hnamed : ∀ sc ∈ scope :: outer, Named sc) :
    s.name = name ∧ table.Honest ∧
      List.Forall₂ Scope.Extends (scope :: outer) (table.current :: table.outer) ∧
      ∀ s', scope.names[name]? = some s' → s = s' := by
  obtain ⟨hscope, houter⟩ := List.forall_mem_cons.1 hnamed
  induction outer generalizing scope s table with
  | nil =>
      rw [resolveFrom] at h
      obtain ⟨s', hs, heq⟩ := Option.map_eq_some_iff.1 h
      cases heq
      exact ⟨hscope name s hs, hnamed, Scope.extends_all_refl _,
        fun s' hs' => Option.some.inj (hs.symm.trans hs')⟩
  | cons next rest ih =>
      obtain ⟨hs, rfl⟩ | ⟨hnew, s', around, hres, hcases⟩ := resolveFrom_cons h
      · exact ⟨hscope name s hs, hnamed, Scope.extends_all_refl _,
          fun s' hs' => Option.some.inj (hs.symm.trans hs')⟩
      · obtain ⟨hnext, hrest⟩ := List.forall_mem_cons.1 houter
        obtain ⟨rfl, hhonest, hextends, -⟩ := ih hres houter hnext hrest
        have hnone : ∀ {s₀ : Symbol}, scope.names[s'.name]? = some s₀ → s = s₀ := by
          intro s₀ hs₀
          rw [hnew] at hs₀
          cases hs₀
        obtain ⟨-, rfl, rfl⟩ | ⟨-, rfl, rfl⟩ := hcases
        · exact ⟨rfl, List.forall_mem_cons.2 ⟨hscope, hhonest⟩, .cons (.refl scope) hextends,
            fun _ => hnone⟩
        · refine ⟨rfl, List.forall_mem_cons.2 ⟨hscope.insert rfl rfl, hhonest⟩,
            .cons ⟨rfl, fun x t ht => ?_⟩ hextends, fun _ => hnone⟩
          -- the capture is stored under a name that the scope did not have
          have hne : s'.name ≠ x := by
            rintro rfl
            rw [hnew] at ht
            cases ht
          show (scope.names.insert s'.name _)[x]? = some t
          rw [Std.TreeMap.getElem?_insert, if_neg (by rwa [Std.compare_eq_iff_eq])]
          exact ht

theorem resolve_extends {table table' : SymbolTable} {name : String} {s : Symbol}
    (h : table.resolve name = some (s, table')) (hnamed : table.Honest) :
    s.name = name ∧ table'.Honest ∧
      List.Forall₂ Scope.Extends (table.current :: table.outer) (table'.current :: table'.outer) ∧
      ∀ s', table.current.names[name]? = some s' → s = s' :=
  resolveFrom_extends h hnamed

theorem define_eq (table : SymbolTable) (name : String) :
    (table.define name).1 = ⟨name, table.kind, table.current.definitions⟩ := by
  obtain ⟨scope, outer⟩ := table
  cases outer <;> rfl

theorem getElem?_define (table : SymbolTable) (name x : String) :
    (table.define name).2.current.names[x]? =
      if name = x then some (table.define name).1 else table.current.names[x]? := by
  show (table.current.names.insert name (table.define name).1)[x]? = _
  rw [Std.TreeMap.getElem?_insert]
  simp only [Std.compare_eq_iff_eq]

theorem Honest.define {table : SymbolTable} (h : table.Honest) (name : String) :
    (table.define name).2.Honest := by
  obtain ⟨hcurrent, houter⟩ := List.forall_mem_cons.1 h
  exact List.forall_mem_cons.2 ⟨hcurrent.insert rfl rfl, houter⟩

theorem Honest.defineAll {table : SymbolTable} (h : table.Honest) (names : List String) :
    (names.foldl (fun symbols name => (symbols.define name).2) table).Honest ∧
      (names.foldl (fun symbols name => (symbols.define name).2) table).outer = table.outer := by
  induction names generalizing table with
  | nil => exact ⟨h, rfl⟩
  | cons name rest ih => exact ih (h.define name)

/-- The scope in which the parameters of a function are defined. -/
def entered (table : SymbolTable) (self : Option String) : SymbolTable :=
  Codegen.openBody table self []

theorem Honest.entered {table : SymbolTable} (h : table.Honest) (self : Option String) :
    (table.entered self).Honest := by
  have hempty : Named {} := by
    intro name s hs
    rw [Std.TreeMap.getElem?_emptyc] at hs
    cases hs
  cases self with
  | none => exact List.forall_mem_cons.2 ⟨hempty, h⟩
  | some name => exact List.forall_mem_cons.2 ⟨hempty.insert rfl rfl, h⟩

theorem Honest.openBody {table : SymbolTable} (h : table.Honest) (self : Option String)
    (parameters : List String) : (Codegen.openBody table self parameters).Honest ∧
      (Codegen.openBody table self parameters).outer = table.current :: table.outer := by
  have hall := (h.entered self).defineAll parameters
  refine ⟨hall.1, hall.2.trans ?_⟩
  cases self <;> rfl

end SymbolTable

/-! ## Names in the text of a body -/

/-- What a body does with a name. -/
inductive Mention where
  /-- A `let` begins. -/
  | opens (name : String)
  /-- The `let` has its value. -/
  | stores (name : String)
  /-- An identifier. -/
  | reads (name : String)
  deriving DecidableEq

mutual

/-- The mentions of an expression, in the order in which it is compiled. A function literal is a
body of its own. -/
def Expr.mentions : Expr → List Mention
  | .ident name => [.reads name]
  | .int _ | .str _ | .bool _ | .function _ _ _ => []
  | .prefixOp _ operand => operand.mentions
  | .infixOp op left right =>
      if op = "<" then right.mentions ++ left.mentions else left.mentions ++ right.mentions
  | .cond condition consequence alternative =>
      condition.mentions ++ blockMentions consequence ++ otherwiseMentions alternative
  | .call callee arguments => callee.mentions ++ exprsMentions arguments
  | .index container position => container.mentions ++ position.mentions
  | .array elements => exprsMentions elements
  | .hash pairs => (((pairsMentions pairs).mergeSort fun a b => a.1 ≤ b.1).map Prod.snd).flatten

/-- The mentions of a statement. -/
def Stmt.mentions : Stmt → List Mention
  | .bind name value => .opens name :: value.mentions ++ [.stores name]
  | .ret value | .expr value => value.mentions

def blockMentions : List Stmt → List Mention
  | [] => []
  | first :: rest => first.mentions ++ blockMentions rest

def otherwiseMentions : Option (List Stmt) → List Mention
  | none => []
  | some body => blockMentions body

def exprsMentions : List Expr → List Mention
  | [] => []
  | first :: rest => first.mentions ++ exprsMentions rest

/-- The mentions of each pair of a hash literal, under the text of its key. -/
def pairsMentions : List (Expr × Expr) → List (String × List Mention)
  | [] => []
  | first :: rest => pairMentions first :: pairsMentions rest

def pairMentions : Expr × Expr → String × List Mention
  | (key, value) => (key.render, key.mentions ++ value.mentions)

end

attribute [local simp] Expr.mentions Stmt.mentions blockMentions otherwiseMentions exprsMentions
  pairsMentions pairMentions

theorem pairsMentions_eq (pairs : List (Expr × Expr)) :
    pairsMentions pairs = pairs.map pairMentions := by
  induction pairs with
  | nil => rw [pairsMentions]; rfl
  | cons pair rest ih => rw [pairsMentions, ih]; rfl

theorem pairsMentions_sorted (pairs : List (Expr × Expr)) :
    ((pairsMentions pairs).mergeSort fun a b => a.1 ≤ b.1).map Prod.snd =
      (Codegen.ordered pairs).map fun p => (pairMentions p).2 := by
  rw [pairsMentions_eq]
  refine Codegen.map_sorted (fun p => ?_) pairs
  rw [pairMentions]

namespace Resolved

/-- What the site is in the text. -/
def Site.mention? : Site → Option Mention
  | .opens s => some (.opens s.name)
  | .stores s => some (.stores s.name)
  | .reads s => some (.reads s.name)
  | .works _ => none

/-- What some sites are in the text. -/
def mentioned (sites : List Site) : List Mention :=
  sites.filterMap Site.mention?

/-! ## What is in scope at a site -/

/-- What a name stands for behind some sites of a body. -/
def meant (table : SymbolTable) (sites : List Site) (x : String) : Option Symbol :=
  (lastWhere (·.name = x) (opened sites)).or table.current.names[x]?

/-- Resolution from a table to another one has left these sites. -/
structure Scoped (table : SymbolTable) (sites : List Site) (table' : SymbolTable) : Prop where
  honest : table'.Honest
  around : List.Forall₂ Scope.Extends table.outer table'.outer
  le : table.current.definitions ≤ table'.current.definitions
  /-- What the innermost scope stored, or what was declared since, is what a name stands for. -/
  names : ∀ x s, meant table sites x = some s → table'.current.names[x]? = some s
  reads : ∀ before s after, sites = before ++ .reads s :: after →
    ∀ s', meant table before s.name = some s' → s = s'
  /-- The bindings are numbered from the first free index on. -/
  opened : ∀ s ∈ opened sites, s.storage = table.kind ∧
    table.current.definitions ≤ s.index ∧ s.index < table'.current.definitions
  ordered : (Resolved.opened sites).Pairwise (·.index < ·.index)
  /-- A `let` stores once, after it has begun. -/
  stores : ∀ before s after, sites = before ++ .stores s :: after →
    s ∈ Resolved.opened before ∧ .stores s ∉ after

/-- A site in a list of one. -/
theorem eq_of_singleton {site site' : Site} {before after : List Site}
    (h : [site] = before ++ site' :: after) : before = [] ∧ site = site' ∧ after = [] := by
  rcases List.append_eq_singleton_iff.1 h.symm with ⟨hbefore, hrest⟩ | ⟨-, hrest⟩
  · cases hrest
    exact ⟨hbefore, rfl, rfl⟩
  · cases hrest

namespace Scoped

variable {table table₁ table₂ : SymbolTable} {sites sites' : List Site} {s : Symbol}

theorem meant_append (h : Scoped table sites table₁) {x : String} (before : List Site)
    (hs : meant table (sites ++ before) x = some s) : meant table₁ before x = some s := by
  rw [meant, opened_append, lastWhere_append, Option.or_assoc] at hs
  rw [meant]
  cases hlast : lastWhere (·.name = x) (Resolved.opened before) with
  | some s' =>
      rw [hlast] at hs
      exact hs
  | none =>
      rw [hlast] at hs
      exact h.names x s hs

theorem kind_eq (h : Scoped table sites table₁) : table₁.kind = table.kind :=
  SymbolTable.kind_congr h.around

theorem append (h : Scoped table sites table₁) (h' : Scoped table₁ sites' table₂) :
    Scoped table (sites ++ sites') table₂ := by
  refine ⟨h'.honest, Scope.extends_all_trans h.around h'.around, h.le.trans h'.le,
    fun x s hs => h'.names x s (h.meant_append sites' hs), fun before s after heq s' hs' => ?_,
    fun s hs => ?_, ?_, fun before s after heq => ?_⟩
  · rcases split_append heq with ⟨rest, rfl, -⟩ | ⟨rest, rfl, rfl⟩
    · exact h.reads before s rest rfl s' hs'
    · exact h'.reads rest s after rfl s' (h.meant_append rest hs')
  · have hle := h.le
    have hle' := h'.le
    rw [opened_append] at hs
    rcases List.mem_append.1 hs with hs | hs
    · obtain ⟨hkind, hlo, hhi⟩ := h.opened s hs
      exact ⟨hkind, hlo, by omega⟩
    · obtain ⟨hkind, hlo, hhi⟩ := h'.opened s hs
      exact ⟨hkind.trans h.kind_eq, by omega, hhi⟩
  · rw [opened_append]
    refine List.pairwise_append.2 ⟨h.ordered, h'.ordered, fun s hs s' hs' => ?_⟩
    have hlt := (h.opened s hs).2.2
    have hle := (h'.opened s' hs').2.1
    omega
  · rcases split_append heq with ⟨rest, rfl, rfl⟩ | ⟨rest, rfl, rfl⟩
    · obtain ⟨hopened, hrest⟩ := h.stores before s rest rfl
      refine ⟨hopened, fun hmem => ?_⟩
      rcases List.mem_append.1 hmem with hmem | hmem
      · exact hrest hmem
      · -- what the second part stores under, it has opened itself
        obtain ⟨before', after', rfl⟩ := List.append_of_mem hmem
        have hle := (h'.opened s (by simp [(h'.stores before' s after' rfl).1])).2.1
        have hlt := (h.opened s (by simp [hopened])).2.2
        omega
    · obtain ⟨hopened, hrest⟩ := h'.stores rest s after rfl
      exact ⟨by simp [hopened], hrest⟩

/-- Instructions that have nothing to do with the names of the body. -/
theorem quiet (hhonest : table₁.Honest)
    (h : List.Forall₂ Scope.Extends (table.current :: table.outer)
      (table₁.current :: table₁.outer)) (ops : List Opcode) :
    Scoped table (ops.map .works) table₁ := by
  have hopened : Resolved.opened (ops.map .works) = [] := by
    induction ops with
    | nil => rfl
    | cons op ops ih => exact ih
  cases h with
  | cons hcurrent houter =>
      refine ⟨hhonest, houter, hcurrent.definitions.ge, fun x s hs => ?_,
        fun before s after heq => ?_, fun s hs => ?_, ?_, fun before s after heq => ?_⟩
      · rw [meant, hopened] at hs
        exact hcurrent.names x s hs
      · have hmem : Site.reads s ∈ ops.map .works := by simp [heq]
        simp at hmem
      · rw [hopened] at hs
        cases hs
      · rw [hopened]
        exact .nil
      · have hmem : Site.stores s ∈ ops.map .works := by simp [heq]
        simp at hmem

theorem nil (h : table.Honest) : Scoped table [] table :=
  quiet h (Scope.extends_all_refl _) []

theorem read {name : String} (hhonest : table.Honest)
    (h : table.resolve name = some (s, table₁)) : Scoped table [.reads s] table₁ := by
  obtain ⟨rfl, hhonest₁, hextends, hstored⟩ := SymbolTable.resolve_extends h hhonest
  cases hextends with
  | cons hcurrent houter =>
      refine ⟨hhonest₁, houter, hcurrent.definitions.ge, hcurrent.names,
        fun before s' after heq => ?_, nofun, .nil, fun before s' after heq => ?_⟩
      · obtain ⟨rfl, hsite, -⟩ := eq_of_singleton heq
        cases hsite
        exact hstored
      · cases (eq_of_singleton heq).2.1

theorem declare (hhonest : table.Honest) (name : String) :
    Scoped table [.opens (table.define name).1] (table.define name).2 := by
  have hs := table.define_eq name
  refine ⟨hhonest.define name, Scope.extends_all_refl _, Nat.le_succ _, fun x s hx => ?_,
    fun before s after heq => ?_, fun s hmem => ?_, List.pairwise_singleton _ _,
    fun before s after heq => ?_⟩
  · rw [SymbolTable.getElem?_define]
    rw [meant, opened_opens, lastWhere, hs] at hx
    rw [hs]
    by_cases hname : name = x
    · simpa [hname, Resolved.opened] using hx
    · simpa [hname, Resolved.opened] using hx
  · cases (eq_of_singleton heq).2.1
  · obtain rfl := List.mem_singleton.1 hmem
    rw [hs]
    exact ⟨rfl, Nat.le_refl _, Nat.lt_succ_self _⟩
  · cases (eq_of_singleton heq).2.1

/-- A `let`, from the site where it begins to the one where it stores. -/
theorem close (h : Scoped table [.opens s] table₁) (h' : Scoped table₁ sites table₂) :
    Scoped table (.opens s :: sites ++ [.stores s]) table₂ := by
  have hwhole : Scoped table (.opens s :: sites) table₂ := h.append h'
  have hopened : Resolved.opened (.opens s :: sites ++ [.stores s]) =
      Resolved.opened (.opens s :: sites) := by
    rw [opened_append, opened_stores]
    exact List.append_nil _
  -- the initializer stores under symbols of its own only
  have hnew : .stores s ∉ .opens s :: sites := by
    intro hmem
    rcases List.mem_cons.1 hmem with hmem | hmem
    · cases hmem
    · obtain ⟨before, after, rfl⟩ := List.append_of_mem hmem
      have hle := (h'.opened s (by simp [(h'.stores before s after rfl).1])).2.1
      have hlt := (h.opened s (by simp)).2.2
      omega
  refine ⟨hwhole.honest, hwhole.around, hwhole.le, fun x s' hs' => ?_,
    fun before s' after heq => ?_, fun s' hs' => ?_, ?_, fun before s' after heq => ?_⟩
  · rw [meant, hopened] at hs'
    exact hwhole.names x s' hs'
  · rcases split_append heq with ⟨rest, hbefore, -⟩ | ⟨rest, -, hrest⟩
    · exact hwhole.reads before s' rest hbefore
    · cases (eq_of_singleton hrest).2.1
  · rw [hopened] at hs'
    exact hwhole.opened s' hs'
  · rw [hopened]
    exact hwhole.ordered
  · rcases split_append heq with ⟨rest, hbefore, rfl⟩ | ⟨rest, rfl, hrest⟩
    · obtain ⟨hmem, hrest⟩ := hwhole.stores before s' rest hbefore
      refine ⟨hmem, fun hstores => ?_⟩
      rcases List.mem_append.1 hstores with hstores | hstores
      · exact hrest hstores
      · cases List.mem_singleton.1 hstores
        exact hnew (by rw [hbefore]; simp)
    · obtain ⟨rfl, hsite, rfl⟩ := eq_of_singleton hrest
      cases hsite
      exact ⟨by simp, nofun⟩

end Scoped

/-- Resolution of a text from a table to another one has left these sites. -/
structure Written (table : SymbolTable) (text : List Mention) (sites : List Site)
    (table' : SymbolTable) : Prop extends Scoped table sites table' where
  text : mentioned sites = text

namespace Written

variable {table table₁ table₂ : SymbolTable} {text text' : List Mention} {sites sites' : List Site}
  {s : Symbol}

theorem append (h : Written table text sites table₁) (h' : Written table₁ text' sites' table₂) :
    Written table (text ++ text') (sites ++ sites') table₂ := by
  refine ⟨h.toScoped.append h'.toScoped, ?_⟩
  rw [mentioned, List.filterMap_append, ← h.text, ← h'.text]
  rfl

theorem quiet (hhonest : table₁.Honest)
    (h : List.Forall₂ Scope.Extends (table.current :: table.outer)
      (table₁.current :: table₁.outer)) (ops : List Opcode) :
    Written table [] (ops.map .works) table₁ := by
  refine ⟨.quiet hhonest h ops, ?_⟩
  rw [mentioned, List.filterMap_map, List.filterMap_eq_nil_iff]
  intro op _
  rfl

theorem works (h : table.Honest) (op : Opcode) : Written table [] [.works op] table :=
  quiet h (Scope.extends_all_refl _) [op]

theorem nil (h : table.Honest) : Written table [] [] table :=
  quiet h (Scope.extends_all_refl _) []

theorem andWorks (h : Written table text sites table₁) (op : Opcode) :
    Written table text (sites ++ [.works op]) table₁ := by
  have hwhole := h.append (works h.honest op)
  rwa [List.append_nil] at hwhole

theorem consWorks (hhonest : table.Honest) (h : Written table text sites table₁) (op : Opcode) :
    Written table text (.works op :: sites) table₁ :=
  (works hhonest op).append h

theorem read {name : String} (hhonest : table.Honest)
    (h : table.resolve name = some (s, table₁)) :
    Written table [.reads name] [.reads s] table₁ := by
  refine ⟨.read hhonest h, ?_⟩
  obtain ⟨rfl, -⟩ := SymbolTable.resolve_extends h hhonest
  rfl

theorem bind (hhonest : table.Honest) (name : String)
    (h : Written (table.define name).2 text sites table₂) :
    Written table (.opens name :: text ++ [.stores name])
      (.opens (table.define name).1 :: sites ++ [.stores (table.define name).1]) table₂ := by
  refine ⟨(Scoped.declare hhonest name).close h.toScoped, ?_⟩
  rw [← h.text, table.define_eq name, mentioned, List.filterMap_append]
  rfl

end Written

/-! ## Resolution, one constructor at a time -/

/-- Resolving the expression leaves its sites. -/
def ScopedExpr (e : Monkey.Expr) : Prop :=
  ∀ table r table', table.Honest → expr e table = some (r, table') →
    Written table e.mentions r.sites table'

/-- Resolving the statement leaves its sites, also where it ends a block. -/
def ScopedStmt (s : Monkey.Stmt) : Prop :=
  ∀ table r table', table.Honest → stmt s table = some (r, table') →
    Written table s.mentions r.sites table' ∧
      ∀ tail, Written table s.mentions (r.lastSites tail) table'

section

variable {table table' : SymbolTable}

theorem scoped_exprs {es : List Monkey.Expr} (ih : ∀ e ∈ es, ScopedExpr e) {rs : List Expr}
    (hhonest : table.Honest) (h : exprs es table = some (rs, table')) :
    Written table (exprsMentions es) (exprsSites rs) table' := by
  induction es generalizing table rs with
  | nil =>
      rw [exprs] at h
      cases h
      exact .nil hhonest
  | cons e es ihes =>
      rw [exprs] at h
      obtain ⟨⟨r, table₁⟩, h₁, h⟩ := Option.bind_eq_some_iff.1 h
      obtain ⟨⟨rs', table₂⟩, h₂, h⟩ := Option.bind_eq_some_iff.1 h
      cases h
      obtain ⟨ihe, ihrest⟩ := List.forall_mem_cons.1 ih
      have hfirst := ihe table r table₁ hhonest h₁
      exact hfirst.append (ihes ihrest hfirst.honest h₂)

theorem scoped_block {ss : List Monkey.Stmt} (ih : ∀ s ∈ ss, ScopedStmt s) {rs : List Stmt}
    (hhonest : table.Honest) (h : block ss table = some (rs, table')) :
    Written table (blockMentions ss) (stmtsSites rs) table' ∧
      ∀ tail, Written table (blockMentions ss) (blockSites tail rs) table' := by
  induction ss generalizing table rs with
  | nil =>
      rw [block] at h
      cases h
      exact ⟨.nil hhonest, fun tail => .works hhonest _⟩
  | cons s ss ihss =>
      rw [block] at h
      obtain ⟨⟨r, table₁⟩, h₁, h⟩ := Option.bind_eq_some_iff.1 h
      obtain ⟨⟨rs', table₂⟩, h₂, h⟩ := Option.bind_eq_some_iff.1 h
      cases h
      obtain ⟨ihs, ihrest⟩ := List.forall_mem_cons.1 ih
      obtain ⟨hfirst, hlast⟩ := ihs table r table₁ hhonest h₁
      obtain ⟨hrest, hblock⟩ := ihss ihrest hfirst.honest h₂
      refine ⟨hfirst.append hrest, fun tail => ?_⟩
      cases ss with
      | nil =>
          rw [block] at h₂
          cases h₂
          have hsame : s.mentions ++ blockMentions [] = s.mentions := by simp
          rw [blockMentions, hsame]
          exact hlast tail
      | cons s' ss =>
          obtain ⟨r', rs'', rfl⟩ := block_cons h₂
          exact hfirst.append (hblock tail)

theorem scoped_otherwise {alternative : Option (List Monkey.Stmt)}
    (ih : ∀ body, alternative = some body → ∀ s ∈ body, ScopedStmt s) {rs : List Stmt}
    (hhonest : table.Honest) (h : otherwise alternative table = some (rs, table')) :
    Written table (otherwiseMentions alternative) (blockSites .branch rs) table' := by
  cases alternative with
  | none =>
      rw [otherwise] at h
      cases h
      exact .works hhonest _
  | some body =>
      rw [otherwise] at h
      exact (scoped_block (ih body rfl) hhonest h).2 .branch

theorem scoped_pairs {ps : List (Monkey.Expr × Monkey.Expr)}
    (ih : ∀ p ∈ ps, ScopedExpr p.1 ∧ ScopedExpr p.2) {rs : List (Expr × Expr)}
    (hhonest : table.Honest)
    (h : inTurn (ps.map fun p => (pairPart p).2) table = some (rs, table')) :
    Written table (ps.map fun p => (pairMentions p).2).flatten (pairsSites rs) table' := by
  induction ps generalizing table rs with
  | nil =>
      rw [List.map_nil, inTurn] at h
      cases h
      exact .nil hhonest
  | cons p ps ihps =>
      obtain ⟨key, value⟩ := p
      rw [List.map_cons, inTurn, pairPart] at h
      obtain ⟨⟨r, table₂⟩, hpair, h⟩ := Option.bind_eq_some_iff.1 h
      obtain ⟨⟨rs', table₃⟩, h₃, h⟩ := Option.bind_eq_some_iff.1 h
      obtain ⟨⟨rk, table₁⟩, h₁, hpair⟩ := Option.bind_eq_some_iff.1 hpair
      obtain ⟨⟨rv, _⟩, h₂, hpair⟩ := Option.bind_eq_some_iff.1 hpair
      cases hpair
      cases h
      obtain ⟨⟨ihk, ihv⟩, ihrest⟩ := List.forall_mem_cons.1 ih
      have hkey := ihk table rk table₁ hhonest h₁
      have hvalue := ihv table₁ rv table₂ hkey.honest h₂
      exact (hkey.append hvalue).append (ihps ihrest hvalue.honest h₃)

theorem scoped_ident (name : String) : ScopedExpr (.ident name) := by
  intro table r table' hhonest h
  rw [expr] at h
  obtain ⟨⟨s, table₁⟩, hres, h⟩ := Option.bind_eq_some_iff.1 h
  cases h
  exact .read hhonest hres

theorem scoped_prefixOp (op : String) (operand : Monkey.Expr) (ih : ScopedExpr operand) :
    ScopedExpr (.prefixOp op operand) := by
  intro table r table' hhonest h
  rw [expr] at h
  obtain ⟨⟨r₁, table₁⟩, h₁, h⟩ := Option.bind_eq_some_iff.1 h
  obtain ⟨uop, -, h⟩ := Option.bind_eq_some_iff.1 h
  cases h
  exact (ih table r₁ table' hhonest h₁).andWorks _

theorem scoped_infixOp (op : String) (left right : Monkey.Expr) (ihl : ScopedExpr left)
    (ihr : ScopedExpr right) : ScopedExpr (.infixOp op left right) := by
  intro table r table' hhonest h
  rw [expr] at h
  rw [Expr.mentions]
  split at h
  · rename_i hless
    rw [if_pos hless]
    obtain ⟨⟨rr, table₁⟩, h₁, h⟩ := Option.bind_eq_some_iff.1 h
    obtain ⟨⟨rl, table₂⟩, h₂, h⟩ := Option.bind_eq_some_iff.1 h
    cases h
    have hright := ihr table rr table₁ hhonest h₁
    exact (hright.append (ihl table₁ rl table' hright.honest h₂)).andWorks _
  · rename_i hless
    rw [if_neg hless]
    obtain ⟨⟨rl, table₁⟩, h₁, h⟩ := Option.bind_eq_some_iff.1 h
    obtain ⟨⟨rr, table₂⟩, h₂, h⟩ := Option.bind_eq_some_iff.1 h
    obtain ⟨bop, -, h⟩ := Option.bind_eq_some_iff.1 h
    cases h
    have hleft := ihl table rl table₁ hhonest h₁
    exact (hleft.append (ihr table₁ rr table' hleft.honest h₂)).andWorks _

theorem scoped_cond (condition : Monkey.Expr) (consequence : List Monkey.Stmt)
    (alternative : Option (List Monkey.Stmt)) (ihc : ScopedExpr condition)
    (iha : ∀ s ∈ consequence, ScopedStmt s)
    (ihb : ∀ body, alternative = some body → ∀ s ∈ body, ScopedStmt s) :
    ScopedExpr (.cond condition consequence alternative) := by
  intro table r table' hhonest h
  rw [expr] at h
  obtain ⟨⟨rc, table₁⟩, h₁, h⟩ := Option.bind_eq_some_iff.1 h
  obtain ⟨⟨ra, table₂⟩, h₂, h⟩ := Option.bind_eq_some_iff.1 h
  obtain ⟨⟨rb, table₃⟩, h₃, h⟩ := Option.bind_eq_some_iff.1 h
  cases h
  have hcondition := ihc table rc table₁ hhonest h₁
  have hfirst := (scoped_block iha hcondition.honest h₂).2 .branch
  have hsecond := scoped_otherwise ihb hfirst.honest h₃
  exact (hcondition.append (hfirst.consWorks hcondition.honest _)).append
    (hsecond.consWorks hfirst.honest _)

theorem scoped_call (callee : Monkey.Expr) (arguments : List Monkey.Expr)
    (ihc : ScopedExpr callee) (iha : ∀ e ∈ arguments, ScopedExpr e) :
    ScopedExpr (.call callee arguments) := by
  intro table r table' hhonest h
  rw [expr] at h
  obtain ⟨⟨rc, table₁⟩, h₁, h⟩ := Option.bind_eq_some_iff.1 h
  obtain ⟨⟨ra, table₂⟩, h₂, h⟩ := Option.bind_eq_some_iff.1 h
  cases h
  have hcallee := ihc table rc table₁ hhonest h₁
  exact (hcallee.append (scoped_exprs iha hcallee.honest h₂)).andWorks _

theorem scoped_index (container position : Monkey.Expr) (ihc : ScopedExpr container)
    (ihp : ScopedExpr position) : ScopedExpr (.index container position) := by
  intro table r table' hhonest h
  rw [expr] at h
  obtain ⟨⟨rc, table₁⟩, h₁, h⟩ := Option.bind_eq_some_iff.1 h
  obtain ⟨⟨rp, table₂⟩, h₂, h⟩ := Option.bind_eq_some_iff.1 h
  cases h
  have hcontainer := ihc table rc table₁ hhonest h₁
  exact (hcontainer.append (ihp table₁ rp table' hcontainer.honest h₂)).andWorks _

theorem scoped_array (elements : List Monkey.Expr) (ih : ∀ e ∈ elements, ScopedExpr e) :
    ScopedExpr (.array elements) := by
  intro table r table' hhonest h
  rw [expr] at h
  obtain ⟨⟨rs, table₁⟩, h₁, h⟩ := Option.bind_eq_some_iff.1 h
  cases h
  exact (scoped_exprs ih hhonest h₁).andWorks _

theorem scoped_hash (pairs : List (Monkey.Expr × Monkey.Expr))
    (ih : ∀ p ∈ pairs, ScopedExpr p.1 ∧ ScopedExpr p.2) : ScopedExpr (.hash pairs) := by
  intro table r table' hhonest h
  rw [expr] at h
  obtain ⟨⟨rs, table₁⟩, h₁, h⟩ := Option.bind_eq_some_iff.1 h
  cases h
  have hperm : (Codegen.ordered pairs).Perm pairs := List.mergeSort_perm _ _
  rw [Codegen.pairParts_sorted] at h₁
  rw [Expr.mentions, pairsMentions_sorted]
  exact (scoped_pairs (fun p hp => ih p (hperm.mem_iff.1 hp)) hhonest h₁).andWorks _

/-- The scope of a function body is gone behind it. The body may have had the scopes around it
capture something, and no more than that. -/
theorem scoped_function (parameters : List String) (body : List Monkey.Stmt) (name : Option String)
    (ih : ∀ s ∈ body, ScopedStmt s) : ScopedExpr (.function parameters body name) := by
  intro table r table' hhonest h
  rw [expr] at h
  obtain ⟨⟨rs, inner⟩, h₁, h⟩ := Option.bind_eq_some_iff.1 h
  cases h
  have hopen := hhonest.openBody name parameters
  have hbody := (scoped_block ih hopen.1 h₁).1
  have haround := hbody.around
  rw [hopen.2] at haround
  have hinner := hbody.honest
  obtain ⟨scope, outer⟩ := inner
  cases haround with
  | @cons _ next _ rest hcurrent houter =>
      have hnext : SymbolTable.Honest ⟨next, rest⟩ := (List.forall_mem_cons.1 hinner).2
      have hleft := Written.quiet hnext (.cons hcurrent houter)
        (scope.captures.toList.map (·.load.opcode) ++ [.closure])
      simpa [Expr.sites, SymbolTable.leave, Function.comp_def] using hleft

theorem scoped_bind (name : String) (value : Monkey.Expr) (ih : ScopedExpr value) :
    ScopedStmt (.bind name value) := by
  intro table r table' hhonest h
  rw [stmt] at h
  obtain ⟨⟨rv, table₁⟩, h₁, h⟩ := Option.bind_eq_some_iff.1 h
  cases h
  have hstmt := Written.bind hhonest name (ih _ rv table' (hhonest.define name) h₁)
  exact ⟨hstmt, fun tail => hstmt.andWorks _⟩

theorem scoped_ret (value : Monkey.Expr) (ih : ScopedExpr value) : ScopedStmt (.ret value) := by
  intro table r table' hhonest h
  rw [stmt] at h
  obtain ⟨⟨rv, table₁⟩, h₁, h⟩ := Option.bind_eq_some_iff.1 h
  cases h
  have hstmt := (ih table rv table' hhonest h₁).andWorks .returnValue
  exact ⟨hstmt, fun tail => hstmt⟩

theorem scoped_value (value : Monkey.Expr) (ih : ScopedExpr value) : ScopedStmt (.expr value) := by
  intro table r table' hhonest h
  rw [stmt] at h
  obtain ⟨⟨rv, table₁⟩, h₁, h⟩ := Option.bind_eq_some_iff.1 h
  cases h
  have hvalue := ih table rv table' hhonest h₁
  refine ⟨hvalue.andWorks .pop, fun tail => ?_⟩
  cases tail with
  | branch =>
      have hlast := hvalue.append (.nil hvalue.honest)
      rwa [List.append_nil] at hlast
  | body => exact hvalue.andWorks .returnValue

theorem hereditary_scoped : Hereditary ScopedExpr ScopedStmt where
  ident := scoped_ident
  int value table r table' hhonest h := by
    rw [expr] at h
    cases h
    exact .works hhonest _
  str text table r table' hhonest h := by
    rw [expr] at h
    cases h
    exact .works hhonest _
  bool value table r table' hhonest h := by
    rw [expr] at h
    cases h
    exact .works hhonest _
  prefixOp := scoped_prefixOp
  infixOp := scoped_infixOp
  cond := scoped_cond
  function := scoped_function
  call := scoped_call
  index := scoped_index
  array := scoped_array
  hash := scoped_hash
  bind := scoped_bind
  ret := scoped_ret
  value := scoped_value

end

/-! ## Parameters -/

/-- The symbols of names that take the slots from `n` on. -/
def slotsFrom (n : Nat) : List String → List Symbol
  | [] => []
  | name :: rest => ⟨name, .slot, n⟩ :: slotsFrom (n + 1) rest

attribute [local simp] slotsFrom

theorem names_slotsFrom (n : Nat) (names : List String) :
    (slotsFrom n names).map Symbol.name = names := by
  induction names generalizing n with
  | nil => rfl
  | cons name rest ih => rw [slotsFrom, List.map_cons, ih]

/-- Parameters are declared like the names of `let`s. -/
theorem scoped_parameters {table : SymbolTable} (hhonest : table.Honest) (hinner : table.outer ≠ [])
    (names : List String) :
    Scoped table ((slotsFrom table.current.definitions names).map .opens)
      (names.foldl (fun symbols name => (symbols.define name).2) table) := by
  induction names generalizing table with
  | nil => exact .nil hhonest
  | cons name rest ih =>
      have hdeclare := Scoped.declare hhonest name
      rw [SymbolTable.define_eq, SymbolTable.kind, if_neg hinner] at hdeclare
      exact hdeclare.append (ih hdeclare.honest hinner)

end Resolved

end Monkey
