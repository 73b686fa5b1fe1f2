import Mathlib
import Monkey.Scope

/-!
# Captures lead to definitions

Resolving a name may change several scopes at once, and a name that a scope has captured may be
defined anew in it while the capture stays. What the closures rely on is that every capture,
followed from scope to scope outwards, still comes to the definition that it was made for.

The table does not remember its definitions, so the operations are run with a record beside the
table: for each open scope, which symbols were given out for which names. `Grounded name s levels`
follows a symbol through the captures of the enclosing scopes to an entry of the record.
`Inv` states what holds of one scope over those around it. It is kept by each operation, and only
`Level.Le`, the growing of captures and records, is needed to carry it from scope to scope.
-/

namespace Monkey

namespace SymbolTable

/-- What can be done to a table. -/
inductive Operation where
  | enter
  | leave
  | define (name : String)
  | defineSelf (name : String)
  | defineBuiltin (index : Nat) (name : String)
  | resolve (name : String)

/-- The symbols that were given out in a scope, each with the name it was given out for, in
order. -/
structure Record where
  /-- By `define`. -/
  defined : List (String × Symbol) := []
  /-- By `defineSelf`. -/
  selves : List (String × Symbol) := []

/-- A table, and the records of its open scopes from the inside out. -/
structure Recorded where
  table : SymbolTable := {}
  records : List Record := [{}]

namespace Recorded

/-- Forgets the innermost record, unless it is the only one. -/
def close : List Record → List Record
  | _ :: next :: rest => next :: rest
  | records => records

/-- Performs an operation and notes down what it gives out. -/
def perform (r : Recorded) : Operation → Recorded
  | .enter => ⟨r.table.enter, {} :: r.records⟩
  | .leave => ⟨r.table.leave.2, close r.records⟩
  | .define name =>
      let (s, table) := r.table.define name
      ⟨table, r.records.modifyHead fun record =>
        { record with defined := record.defined ++ [(name, s)] }⟩
  | .defineSelf name =>
      let (s, table) := r.table.defineSelf name
      ⟨table, r.records.modifyHead fun record =>
        { record with selves := record.selves ++ [(name, s)] }⟩
  | .defineBuiltin index name => { r with table := (r.table.defineBuiltin index name).2 }
  | .resolve name =>
      match r.table.resolve name with
      | some (_, table) => { r with table }
      | none => r

/-- A new table after some operations. -/
def after (operations : List Operation) : Recorded :=
  operations.foldl perform {}

end Recorded

/-- An open scope with its record. -/
structure Level where
  scope : Scope
  record : Record

/-- The open scopes with their records, from the inside out. -/
def levels (table : SymbolTable) (records : List Record) : List Level :=
  List.zipWith Level.mk (table.current :: table.outer) records

/-- A symbol that stands for a name in the first of some scopes was given out for that name there,
or it is a capture of one that stands for the name in the scopes around. -/
def Grounded (name : String) (s : Symbol) : List Level → Prop
  | [] => False
  | level :: around => s.name = name ∧
      match s.storage with
      | .slot => (name, s) ∈ level.record.defined
      | .self => (name, s) ∈ level.record.selves
      | .captured =>
          ∃ outer, level.scope.captures[s.index]? = some outer ∧ Grounded name outer around
      | .global | .builtin => False

theorem Grounded.name_eq {name : String} {s : Symbol} {ls : List Level} (h : Grounded name s ls) :
    s.name = name := by
  cases ls with
  | nil => exact h.elim
  | cons => exact h.1

/-! ## Resolving -/

/-- The symbol stands for the same thing in every function body, so none has to capture it. -/
def IsStatic (s : Symbol) : Prop :=
  s.storage = .global ∨ s.storage = .builtin

/-- The ways to resolve a name in a function body: it is stored there, or it comes from the scopes
around, and then it is captured unless it is static. -/
theorem resolveFrom_cons {name : String} {scope next : Scope} {rest : List Scope} {s : Symbol}
    {table : SymbolTable} (h : resolveFrom name scope (next :: rest) = some (s, table)) :
    (scope.names[name]? = some s ∧ table = ⟨scope, next :: rest⟩) ∨
    (scope.names[name]? = none ∧ ∃ s' around, resolveFrom name next rest = some (s', around) ∧
      (IsStatic s' ∧ s = s' ∧ table = ⟨scope, around.current :: around.outer⟩ ∨
        ¬IsStatic s' ∧ s = (scope.capture s').1 ∧
          table = ⟨(scope.capture s').2, around.current :: around.outer⟩)) := by
  rw [resolveFrom] at h
  split at h
  · next s' hs =>
      cases h
      exact .inl ⟨hs, rfl⟩
  · next hnew =>
      split at h
      · cases h
      · next s' next' rest' hres =>
          refine .inr ⟨hnew, s', ⟨next', rest'⟩, hres, ?_⟩
          cases hs : s'.storage with
          | global =>
              rw [hs] at h
              cases h
              exact .inl ⟨.inl hs, rfl, rfl⟩
          | builtin =>
              rw [hs] at h
              cases h
              exact .inl ⟨.inr hs, rfl, rfl⟩
          | slot | captured | self =>
              rw [hs] at h
              cases h
              exact .inr ⟨by simp [IsStatic, hs], rfl, rfl⟩

/-! ## Growing -/

/-- Nothing that was recorded or captured is gone. -/
structure Level.Le (a b : Level) : Prop where
  defined : ∀ entry ∈ a.record.defined, entry ∈ b.record.defined
  selves : ∀ entry ∈ a.record.selves, entry ∈ b.record.selves
  captures : ∀ (i : Nat) s, a.scope.captures[i]? = some s → b.scope.captures[i]? = some s

theorem Level.Le.refl (level : Level) : level.Le level :=
  ⟨fun _ h => h, fun _ h => h, fun _ _ h => h⟩

/-- Of each scope nothing that was recorded or captured is gone. -/
abbrev Grown (ls ls' : List Level) : Prop :=
  List.Forall₂ Level.Le ls ls'

theorem Grown.refl (ls : List Level) : Grown ls ls :=
  List.forall₂_same.2 fun level _ => .refl level

theorem Grounded.mono {name : String} {s : Symbol} {ls ls' : List Level} (h : Grounded name s ls)
    (hls : Grown ls ls') : Grounded name s ls' := by
  induction hls generalizing s with
  | nil => exact h
  | @cons level level' around around' hle _ ih =>
      obtain ⟨hname, h⟩ := h
      refine ⟨hname, ?_⟩
      cases hs : s.storage with
      | slot =>
          rw [hs] at h
          exact hle.defined _ h
      | self =>
          rw [hs] at h
          exact hle.selves _ h
      | captured =>
          rw [hs] at h
          obtain ⟨outer, houter, h⟩ := h
          exact ⟨outer, hle.captures _ _ houter, ih h⟩
      | global | builtin =>
          rw [hs] at h
          exact h

/-! ## One scope over those around it -/

/-- What the operations keep of a scope, over the scopes around it. -/
structure Level.Inv (level : Level) (around : List Level) : Prop where
  distinct : (level.scope.captures.toList.map Symbol.name).Nodup
  stored : ∀ (name : String) s, level.scope.names[name]? = some s →
    IsStatic s ∨ Grounded name s (level :: around)
  captured : ∀ s ∈ level.scope.captures,
    level.scope.names[s.name]? ≠ none ∧ Grounded s.name s around
  numbered : level.record.defined.map (·.2.index) = List.range level.scope.definitions

/-- What the operations keep of all open scopes. -/
def Kept : List Level → Prop
  | [] => True
  | level :: around => level.Inv around ∧ Kept around

namespace Level

variable {level level' : Level} {around around' : List Level} {name : String} {s : Symbol}

theorem inv_empty (around : List Level) : Inv ⟨{}, {}⟩ around := by
  refine ⟨List.nodup_nil, fun name s h => ?_, fun s h => absurd h (Array.not_mem_empty s), rfl⟩
  rw [Std.TreeMap.getElem?_emptyc] at h
  cases h

theorem Inv.grown (h : level.Inv around) (hgrown : Grown around around') : level.Inv around' where
  distinct := h.distinct
  stored name s hs := (h.stored name s hs).imp_right (·.mono (.cons (.refl level) hgrown))
  captured s hs := ⟨(h.captured s hs).1, (h.captured s hs).2.mono hgrown⟩
  numbered := h.numbered

/-- A name that is stored anew, with or without a record of it. -/
theorem Inv.insert (h : level.Inv around)
    (hnames : level'.scope.names = level.scope.names.insert name s)
    (hcaptures : level'.scope.captures = level.scope.captures) (hle : level.Le level')
    (hnumbered : level'.record.defined.map (·.2.index) = List.range level'.scope.definitions)
    (hs : IsStatic s ∨ Grounded name s (level' :: around)) : level'.Inv around where
  distinct := by
    rw [hcaptures]
    exact h.distinct
  stored := by
    intro name' s' hs'
    rw [hnames, Std.TreeMap.getElem?_insert] at hs'
    split at hs'
    · next heq =>
        cases hs'
        rw [← Std.LawfulEqCmp.eq_of_compare heq]
        exact hs
    · exact (h.stored name' s' hs').imp_right (·.mono (.cons hle (Grown.refl around)))
  captured := by
    intro s' hs'
    rw [hcaptures] at hs'
    obtain ⟨hstored, hgrounded⟩ := h.captured s' hs'
    refine ⟨?_, hgrounded⟩
    rw [hnames, Std.TreeMap.getElem?_insert]
    split
    · exact Option.some_ne_none _
    · exact hstored
  numbered := hnumbered

/-- The scope that captures a symbol of the scopes around it. -/
theorem Inv.capture {record : Record} {scope : Scope} (h : Inv ⟨scope, record⟩ around)
    (hnew : scope.names[name]? = none) (hs : Grounded name s around) :
    Inv ⟨(scope.capture s).2, record⟩ around ∧
      Le ⟨scope, record⟩ ⟨(scope.capture s).2, record⟩ ∧
      Grounded name (scope.capture s).1 (⟨(scope.capture s).2, record⟩ :: around) := by
  obtain rfl := hs.name_eq
  have hle : Le ⟨scope, record⟩ ⟨(scope.capture s).2, record⟩ := by
    refine ⟨fun _ he => he, fun _ he => he, fun i t ht => ?_⟩
    have hlt := (Array.getElem?_eq_some_iff.1 ht).1
    show (scope.captures.push s)[i]? = some t
    rwa [Array.getElem?_push_lt hlt, ← Array.getElem?_eq_getElem hlt]
  have hgrounded : Grounded s.name (scope.capture s).1
      (⟨(scope.capture s).2, record⟩ :: around) :=
    ⟨rfl, s, Array.getElem?_push_size, hs⟩
  refine ⟨?_, hle, hgrounded⟩
  constructor
  case distinct =>
    show ((scope.captures.push s).toList.map Symbol.name).Nodup
    rw [Array.toList_push, List.map_append, List.map_singleton, ← List.concat_eq_append,
      List.nodup_concat]
    refine ⟨fun hmem => ?_, h.distinct⟩
    obtain ⟨t, ht, heq⟩ := List.mem_map.1 hmem
    have hstored := (h.captured t (Array.mem_toList_iff.1 ht)).1
    rw [heq] at hstored
    exact hstored hnew
  case stored =>
    intro name' t ht
    rw [Scope.capture, Std.TreeMap.getElem?_insert] at ht
    split at ht
    · next heq =>
        cases ht
        rw [← Std.LawfulEqCmp.eq_of_compare heq]
        exact .inr hgrounded
    · exact (h.stored name' t ht).imp_right (·.mono (.cons hle (Grown.refl around)))
  case captured =>
    intro t ht
    rw [Scope.capture, Std.TreeMap.getElem?_insert]
    rcases Array.mem_push.1 ht with ht | rfl
    · obtain ⟨hstored, ht⟩ := h.captured t ht
      refine ⟨?_, ht⟩
      split
      · exact Option.some_ne_none _
      · exact hstored
    · refine ⟨?_, hs⟩
      rw [if_pos (by simp)]
      exact Option.some_ne_none _
  case numbered => exact h.numbered

end Level

/-! ## The operations -/

section

variable {scope : Scope} {outer : List Scope} {record : Record} {records : List Record}
  {table : SymbolTable} {name : String} {s : Symbol}

/-- Resolving a name keeps the scopes in order, and what it finds is grounded unless it is
static. -/
theorem Kept.resolveFrom (h : Kept (levels ⟨scope, outer⟩ (record :: records)))
    (hlength : records.length = outer.length)
    (hres : resolveFrom name scope outer = some (s, table)) :
    Kept (levels table (record :: records)) ∧
      Grown (levels ⟨scope, outer⟩ (record :: records)) (levels table (record :: records)) ∧
      table.outer.length = outer.length ∧
      (IsStatic s ∨ Grounded name s (levels table (record :: records))) := by
  induction outer generalizing scope record records s table with
  | nil =>
      rw [SymbolTable.resolveFrom] at hres
      obtain ⟨s', hs, heq⟩ := Option.map_eq_some_iff.1 hres
      cases heq
      exact ⟨h, Grown.refl _, rfl, h.1.stored name s hs⟩
  | cons next rest ih =>
      obtain ⟨record', records, rfl⟩ := List.exists_cons_of_length_eq_add_one hlength
      obtain ⟨hs, rfl⟩ | ⟨hnew, s', ⟨next', rest'⟩, hres', hcases⟩ := resolveFrom_cons hres
      · exact ⟨h, Grown.refl _, rfl, h.1.stored name s hs⟩
      · obtain ⟨hinv, haround⟩ := h
        obtain ⟨haround', hgrown, hlength', hs'⟩ := ih haround (Nat.succ.inj hlength) hres'
        -- the scope as it is, over the scopes around it as they are now
        have hinv' := hinv.grown hgrown
        obtain ⟨hstatic, rfl, rfl⟩ | ⟨hstatic, rfl, rfl⟩ := hcases
        · exact ⟨⟨hinv', haround'⟩, .cons (.refl _) hgrown, congrArg (· + 1) hlength', .inl hstatic⟩
        · obtain ⟨hcapture, hle, hgrounded⟩ := hinv'.capture hnew (hs'.resolve_left hstatic)
          exact ⟨⟨hcapture, haround'⟩, .cons hle hgrown, congrArg (· + 1) hlength',
            .inr hgrounded⟩

/-- Declaring a builtin changes no record and no capture. -/
theorem Kept.declareLast (h : Kept (levels ⟨scope, outer⟩ (record :: records)))
    (hlength : records.length = outer.length) (hs : IsStatic s) :
    Kept (levels (declareLast s scope outer) (record :: records)) ∧
      Grown (levels ⟨scope, outer⟩ (record :: records))
        (levels (declareLast s scope outer) (record :: records)) ∧
      (declareLast s scope outer).outer.length = outer.length := by
  induction outer generalizing scope record records with
  | nil =>
      have hle : Level.Le ⟨scope, record⟩ ⟨scope.declare s, record⟩ :=
        ⟨fun _ he => he, fun _ he => he, fun _ _ hc => hc⟩
      exact ⟨⟨h.1.insert rfl rfl hle h.1.numbered (.inl hs), h.2⟩, .cons hle .nil, rfl⟩
  | cons next rest ih =>
      obtain ⟨record', records, rfl⟩ := List.exists_cons_of_length_eq_add_one hlength
      obtain ⟨hinv, haround⟩ := h
      obtain ⟨haround', hgrown, hlength'⟩ := ih haround (Nat.succ.inj hlength)
      exact ⟨⟨hinv.grown hgrown, haround'⟩, .cons (.refl _) hgrown, congrArg (· + 1) hlength'⟩

end

namespace Recorded

/-- Every open scope has its record, and all of them keep the invariant. -/
structure Ok (r : Recorded) : Prop where
  length : r.records.length = r.table.depth + 1
  kept : Kept (levels r.table r.records)

theorem Ok.define {r : Recorded} (h : r.Ok) (name : String) : (r.perform (.define name)).Ok := by
  obtain ⟨⟨scope, outer⟩, records⟩ := r
  obtain ⟨record, records, rfl⟩ := List.exists_cons_of_length_eq_add_one h.length
  obtain ⟨hlength, hinv, haround⟩ := h
  refine ⟨hlength, ⟨?_, haround⟩⟩
  refine hinv.insert rfl rfl ?_ ?_ ?_
  · exact ⟨fun _ he => List.mem_append_left _ he, fun _ he => he, fun _ _ hc => hc⟩
  · refine (List.map_append).trans ?_
    rw [hinv.numbered]
    exact List.range_succ.symm
  · cases outer with
    | nil => exact .inl (.inl rfl)
    | cons next rest => exact .inr ⟨rfl, List.mem_append_right _ List.mem_cons_self⟩

theorem Ok.defineSelf {r : Recorded} (h : r.Ok) (name : String) :
    (r.perform (.defineSelf name)).Ok := by
  obtain ⟨⟨scope, outer⟩, records⟩ := r
  obtain ⟨record, records, rfl⟩ := List.exists_cons_of_length_eq_add_one h.length
  obtain ⟨hlength, hinv, haround⟩ := h
  refine ⟨hlength, ⟨?_, haround⟩⟩
  refine hinv.insert rfl rfl ?_ hinv.numbered (.inr ⟨rfl, ?_⟩)
  · exact ⟨fun _ he => he, fun _ he => List.mem_append_left _ he, fun _ _ hc => hc⟩
  · exact List.mem_append_right _ List.mem_cons_self

theorem Ok.leave {r : Recorded} (h : r.Ok) : (r.perform .leave).Ok := by
  obtain ⟨⟨scope, outer⟩, records⟩ := r
  obtain ⟨record, records, rfl⟩ := List.exists_cons_of_length_eq_add_one h.length
  cases outer with
  | nil =>
      obtain rfl := List.length_eq_zero_iff.1 (Nat.succ.inj h.length)
      exact h
  | cons next rest =>
      obtain ⟨record', records, rfl⟩ :=
        List.exists_cons_of_length_eq_add_one (Nat.succ.inj h.length)
      exact ⟨Nat.succ.inj h.length, h.kept.2⟩

theorem Ok.perform {r : Recorded} (h : r.Ok) (operation : Operation) :
    (r.perform operation).Ok := by
  obtain ⟨⟨scope, outer⟩, records⟩ := r
  obtain ⟨record, records, rfl⟩ := List.exists_cons_of_length_eq_add_one h.length
  have hlength : records.length = outer.length := Nat.succ.inj h.length
  cases operation with
  | enter => exact ⟨congrArg (· + 1) h.length, Level.inv_empty _, h.kept⟩
  | leave => exact h.leave
  | define name => exact h.define name
  | defineSelf name => exact h.defineSelf name
  | defineBuiltin index name =>
      have hstatic : IsStatic ⟨name, .builtin, index⟩ := .inr rfl
      obtain ⟨hkept, -, hlength'⟩ := h.kept.declareLast hlength hstatic
      exact ⟨congrArg (· + 1) (hlength.trans hlength'.symm), hkept⟩
  | resolve name =>
      rw [Recorded.perform]
      split
      · next s table hres =>
          obtain ⟨hkept, -, hlength', -⟩ := h.kept.resolveFrom hlength hres
          exact ⟨congrArg (· + 1) (hlength.trans hlength'.symm), hkept⟩
      · exact h

theorem after_ok (operations : List Operation) : (after operations).Ok := by
  have hrun : ∀ (operations : List Operation) (r : Recorded), r.Ok →
      (operations.foldl Recorded.perform r).Ok := by
    intro operations
    induction operations with
    | nil => exact fun _ h => h
    | cons operation rest ih => exact fun r h => ih _ (h.perform operation)
  exact hrun operations {} ⟨rfl, Level.inv_empty [], trivial⟩

end Recorded

/-! ## The invariant in the words of scopes -/

/-- What a captured symbol stands for is there in the enclosing scope: a slot that was given out, a
capture of the same name, or the function itself. It is never static. -/
def KnownIn (scope : Scope) (s : Symbol) : Prop :=
  match s.storage with
  | .slot => s.index < scope.definitions
  | .captured => ∃ outer, scope.captures[s.index]? = some outer ∧ outer.name = s.name
  | .self => True
  | .global | .builtin => False

/-- A scope is sound over the scopes around it. -/
structure Level.Sound (level : Level) (around : List Level) : Prop where
  /-- No name is captured twice. -/
  distinct : (level.scope.captures.toList.map Symbol.name).Nodup
  /-- A captured symbol that a name stands for is at hand among the captures, under that name. -/
  stored : ∀ (name : String) s, level.scope.names[name]? = some s → s.storage = .captured →
    s.name = name ∧ ∃ outer, level.scope.captures[s.index]? = some outer ∧ outer.name = name
  /-- A capture is of something in the next scope outwards. -/
  known : ∀ s ∈ level.scope.captures, ∃ next rest, around = next :: rest ∧ KnownIn next.scope s
  /-- Slots are given out in order, from 0 on. -/
  numbered : level.record.defined.map (·.2.index) = List.range level.scope.definitions
  /-- Captures of a name lead to a definition of the name. -/
  grounded : ∀ s ∈ level.scope.captures, Grounded s.name s around

/-- A grounded symbol is known in the first of the scopes. -/
theorem Grounded.knownIn {name : String} {s : Symbol} {level : Level} {around : List Level}
    (h : Grounded name s (level :: around)) (hinv : level.Inv around) : KnownIn level.scope s := by
  obtain ⟨rfl, h⟩ := h
  rw [KnownIn]
  cases hs : s.storage with
  | slot =>
      rw [hs] at h
      have hmem : s.index ∈ level.record.defined.map (·.2.index) := List.mem_map.2 ⟨_, h, rfl⟩
      rw [hinv.numbered] at hmem
      exact List.mem_range.1 hmem
  | captured =>
      rw [hs] at h
      obtain ⟨outer, houter, h⟩ := h
      exact ⟨outer, houter, h.name_eq⟩
  | self => trivial
  | global | builtin =>
      rw [hs] at h
      exact h

theorem Level.Inv.sound {level : Level} {around : List Level} (h : level.Inv around)
    (haround : Kept around) : level.Sound around where
  distinct := h.distinct
  stored name s hs hcaptured := by
    obtain hstatic | ⟨hname, hgrounded⟩ := h.stored name s hs
    · rcases hstatic with hstatic | hstatic <;> cases hcaptured.symm.trans hstatic
    · rw [hcaptured] at hgrounded
      obtain ⟨outer, houter, hgrounded⟩ := hgrounded
      exact ⟨hname, outer, houter, hgrounded.name_eq⟩
  known s hs := by
    have hgrounded := (h.captured s hs).2
    cases around with
    | nil => exact hgrounded.elim
    | cons next rest => exact ⟨next, rest, rfl, hgrounded.knownIn haround.1⟩
  numbered := h.numbered
  grounded s hs := (h.captured s hs).2

theorem Kept.of_suffix {ls ls' : List Level} (h : Kept ls) (hsuffix : ls' <:+ ls) : Kept ls' := by
  obtain ⟨inner, rfl⟩ := hsuffix
  induction inner with
  | nil => exact h
  | cons level inner ih => exact ih h.2

/-- After any operations on a new table every open scope is sound over the scopes around it. -/
theorem Recorded.after_sound (operations : List Operation) :
    let r := after operations
    r.records.length = r.table.depth + 1 ∧
      ∀ level around, level :: around <:+ levels r.table r.records → level.Sound around := by
  intro r
  have hok := after_ok operations
  refine ⟨hok.length, fun level around hsuffix => ?_⟩
  obtain ⟨hinv, haround⟩ := hok.kept.of_suffix hsuffix
  exact hinv.sound haround

-- A name is captured through a body that does not use it, and then defined anew where it is used.
example :
    let r := Recorded.after [.enter, .define "a", .enter, .enter, .resolve "a", .define "a"]
    (levels r.table r.records).map (·.scope.captures.toList) =
      [[⟨"a", .captured, 0⟩], [⟨"a", .slot, 0⟩], [], []] ∧
    r.table.current.names["a"]? = some ⟨"a", .slot, 0⟩ := by
  decide +kernel

end SymbolTable

end Monkey
