import Monkey.Proofs.Captures

/-!
# Looking a name up

A name that is found far outside is captured by every scope on the way back in, so one look-up may
write to many scopes. `Recorded.after_resolve` says which: none if the name is not found, and
otherwise just those in front of the nearest scope that stores the name, each of them once and only
if the symbol is not static. A second look-up finds what the first one has left.

`resolve` gives no table where it finds nothing. To say that it has written nothing till then,
`lookUp` hands the scopes on in every case, and `lookUp_eq` compares the two.
-/

namespace Monkey

namespace SymbolTable

/-- The open scopes from the inside out. -/
def scopes (table : SymbolTable) : List Scope :=
  table.current :: table.outer

/-- Looks a name up from the first of some scopes outwards, and gives the scopes as they are then,
also if the name is not found. -/
def lookUp (name : String) : List Scope → Option Symbol × List Scope
  | [] => (none, [])
  | scope :: around =>
      match scope.names[name]? with
      | some s => (some s, scope :: around)
      | none =>
          match lookUp name around with
          | (none, around) => (none, scope :: around)
          | (some s, around) =>
              match s.storage with
              | .global | .builtin => (some s, scope :: around)
              | .slot | .captured | .self =>
                  let (captured, scope) := scope.capture s
                  (some captured, scope :: around)

attribute [local simp] lookUp

section

variable {name : String} {scope holder : Scope} {inner inner' around around' scopes : List Scope}
  {s stored : Symbol}

/-! ## One scope -/

theorem lookUp_stored (h : scope.names[name]? = some s) :
    lookUp name (scope :: around) = (some s, scope :: around) := by
  rw [lookUp, h]

theorem lookUp_cons_none (h : scope.names[name]? = none)
    (haround : lookUp name around = (none, around')) :
    lookUp name (scope :: around) = (none, scope :: around') := by
  rw [lookUp, h, haround]

theorem lookUp_cons_static (h : scope.names[name]? = none)
    (haround : lookUp name around = (some s, around')) (hs : IsStatic s) :
    lookUp name (scope :: around) = (some s, scope :: around') := by
  rw [lookUp, h, haround]
  rcases hs with hs | hs <;> simp only [hs]

theorem lookUp_cons_capture (h : scope.names[name]? = none)
    (haround : lookUp name around = (some s, around')) (hs : ¬IsStatic s) :
    lookUp name (scope :: around) = (some (scope.capture s).1, (scope.capture s).2 :: around') := by
  rw [lookUp, h, haround]
  cases hstorage : s.storage with
  | global => exact absurd (.inl hstorage) hs
  | builtin => exact absurd (.inr hstorage) hs
  | slot | captured | self => simp only [hstorage]

/-- Resolving is looking up, and where it fails nothing has been written. -/
theorem lookUp_eq (name : String) (scope : Scope) (around : List Scope) :
    lookUp name (scope :: around) =
      (resolveFrom name scope around).elim (none, scope :: around)
        fun found => (some found.1, found.2.scopes) := by
  induction around generalizing scope with
  | nil =>
      rw [resolveFrom]
      cases hs : scope.names[name]? with
      | none => exact lookUp_cons_none hs rfl
      | some s => exact lookUp_stored hs
  | cons next rest ih =>
      rw [resolveFrom]
      cases hs : scope.names[name]? with
      | some s => exact lookUp_stored hs
      | none =>
          have haround := ih next
          cases hres : resolveFrom name next rest with
          | none =>
              rw [hres] at haround
              exact lookUp_cons_none hs haround
          | some found =>
              obtain ⟨s, ⟨next', rest'⟩⟩ := found
              rw [hres] at haround
              cases hstorage : s.storage with
              | global =>
                  simp only [hstorage]
                  exact lookUp_cons_static hs haround (.inl hstorage)
              | builtin =>
                  simp only [hstorage]
                  exact lookUp_cons_static hs haround (.inr hstorage)
              | slot | captured | self =>
                  simp only [hstorage]
                  exact lookUp_cons_capture hs haround (by simp [IsStatic, hstorage])

/-! ## All scopes -/

theorem lookUp_lacking (h : ∀ scope ∈ scopes, scope.names[name]? = none) :
    lookUp name scopes = (none, scopes) := by
  induction scopes with
  | nil => rfl
  | cons scope around ih =>
      obtain ⟨hscope, haround⟩ := List.forall_mem_cons.1 h
      exact lookUp_cons_none hscope (ih haround)

/-- `holder` is the nearest of some scopes that stores the name, and `inner` are those in front. -/
structure Nearest (name : String) (scopes inner : List Scope) (holder : Scope) (around : List Scope)
    (stored : Symbol) : Prop where
  split : scopes = inner ++ holder :: around
  lacking : ∀ scope ∈ inner, scope.names[name]? = none
  stores : holder.names[name]? = some stored

theorem exists_nearest (h : ¬∀ scope ∈ scopes, scope.names[name]? = none) :
    ∃ inner holder around stored, Nearest name scopes inner holder around stored := by
  induction scopes with
  | nil => exact absurd nofun h
  | cons scope around ih =>
      cases hs : scope.names[name]? with
      | some stored => exact ⟨[], scope, around, stored, rfl, nofun, hs⟩
      | none =>
          have haround : ¬∀ scope ∈ around, scope.names[name]? = none :=
            fun haround => h (List.forall_mem_cons.2 ⟨hs, haround⟩)
          obtain ⟨inner, holder, around, stored, rfl, hlacking, hstores⟩ := ih haround
          exact ⟨scope :: inner, holder, around, stored, rfl,
            List.forall_mem_cons.2 ⟨hs, hlacking⟩, hstores⟩

theorem Nearest.mem (h : Nearest name scopes inner holder around stored) : holder ∈ scopes := by
  rw [h.split]
  exact List.mem_append_right _ List.mem_cons_self

theorem lookUp_static (h : ∀ scope ∈ inner, scope.names[name]? = none)
    (hholder : holder.names[name]? = some stored) (hstatic : IsStatic stored) :
    lookUp name (inner ++ holder :: around) = (some stored, inner ++ holder :: around) := by
  induction inner with
  | nil => exact lookUp_stored hholder
  | cons scope inner ih =>
      obtain ⟨hscope, hinner⟩ := List.forall_mem_cons.1 h
      exact lookUp_cons_static hscope (ih hinner) hstatic

/-- A scope has captured a symbol of that name, stores it as its newest capture, and is otherwise as
it was. -/
structure Gains (name : String) (scope scope' : Scope) : Prop where
  captures : ∃ s : Symbol, s.name = name ∧ ¬IsStatic s ∧
    scope'.captures.toList = scope.captures.toList ++ [s]
  names : scope'.names = scope.names.insert name ⟨name, .captured, scope.captures.size⟩
  definitions : scope'.definitions = scope.definitions

theorem gains_capture (scope : Scope) (hs : ¬IsStatic s) :
    Gains s.name scope (scope.capture s).2 where
  captures := ⟨s, rfl, hs, Array.toList_push⟩
  names := rfl
  definitions := rfl

/-- A symbol that is not static comes in through the scopes in front of the one that stores it. -/
theorem lookUp_captured (h : ∀ scope ∈ inner, scope.names[name]? = none)
    (hholder : holder.names[name]? = some stored) (hstatic : ¬IsStatic stored)
    (hname : stored.name = name) :
    ∃ s inner', lookUp name (inner ++ holder :: around) = (some s, inner' ++ holder :: around) ∧
      List.Forall₂ (Gains name) inner inner' ∧ s.name = name ∧ ¬IsStatic s ∧
      lookUp name (inner' ++ holder :: around) = (some s, inner' ++ holder :: around) := by
  induction inner with
  | nil =>
      have hstored : lookUp name ([] ++ holder :: around) = (some stored, [] ++ holder :: around) :=
        lookUp_stored hholder
      exact ⟨stored, [], hstored, .nil, hname, hstatic, hstored⟩
  | cons scope inner ih =>
      obtain ⟨hscope, hinner⟩ := List.forall_mem_cons.1 h
      obtain ⟨s, inner', hlookUp, hgains, rfl, hs, -⟩ := ih hinner
      have hcaptured : ¬IsStatic (scope.capture s).1 := by simp [IsStatic, Scope.capture]
      refine ⟨(scope.capture s).1, (scope.capture s).2 :: inner',
        lookUp_cons_capture hscope hlookUp hs, .cons (gains_capture scope hs) hgains, rfl,
        hcaptured, ?_⟩
      -- the capture is stored where the name is looked for first
      exact lookUp_stored Std.TreeMap.getElem?_insert_self

theorem Nearest.exists_lookUp (h : Nearest name scopes inner holder around stored)
    (hname : ¬IsStatic stored → stored.name = name) :
    ∃ s inner', lookUp name scopes = (some s, inner' ++ holder :: around) ∧
      lookUp name (inner' ++ holder :: around) = (some s, inner' ++ holder :: around) ∧
      (IsStatic stored → s = stored ∧ inner' = inner) ∧
      (¬IsStatic stored → List.Forall₂ (Gains name) inner inner') := by
  obtain ⟨rfl, hlacking, hstores⟩ := h
  by_cases hstatic : IsStatic stored
  · have hlookUp : lookUp name (inner ++ holder :: around) = (some stored, _) :=
      lookUp_static hlacking hstores hstatic
    exact ⟨stored, inner, hlookUp, hlookUp, fun _ => ⟨rfl, rfl⟩, fun hnot => absurd hstatic hnot⟩
  · obtain ⟨s, inner', hlookUp, hgains, -, -, hagain⟩ :=
      lookUp_captured hlacking hstores hstatic (hname hstatic)
    exact ⟨s, inner', hlookUp, hagain, fun hyes => absurd hyes hstatic, fun _ => hgains⟩

theorem map_definitions_of_gains (h : List.Forall₂ (Gains name) inner inner') :
    inner'.map Scope.definitions = inner.map Scope.definitions := by
  induction h with
  | nil => rfl
  | cons hgains _ ih => rw [List.map_cons, List.map_cons, hgains.definitions, ih]

end

/-! ## All tables that the operations lead to -/

theorem Kept.exists_inv {ls : List Level} (h : Kept ls) {level : Level} (hlevel : level ∈ ls) :
    ∃ around, level.Inv around := by
  obtain ⟨inner, around, rfl⟩ := List.append_of_mem hlevel
  exact ⟨around, (h.of_suffix (List.suffix_append _ _)).1⟩

/-- A symbol that is not static is stored under its own name. -/
theorem Recorded.Ok.stored_name {r : Recorded} (h : r.Ok) {scope : Scope}
    (hscope : scope ∈ r.table.scopes) {name : String} {s : Symbol}
    (hs : scope.names[name]? = some s) (hstatic : ¬IsStatic s) : s.name = name := by
  obtain ⟨i, hi, rfl⟩ := List.mem_iff_getElem.1 hscope
  have hrecords : i < r.records.length := h.length ▸ hi
  have hlevel : (⟨r.table.scopes[i], r.records[i]⟩ : Level) ∈ levels r.table r.records :=
    List.mem_of_getElem? (List.getElem?_zipWith_eq_some.2
      ⟨_, _, List.getElem?_eq_getElem hi, List.getElem?_eq_getElem hrecords, rfl⟩)
  obtain ⟨around, hinv⟩ := h.kept.exists_inv hlevel
  exact ((hinv.stored name s hs).resolve_left hstatic).name_eq

section

variable {name : String} {table table' : SymbolTable} {s : Symbol}

theorem lookUp_scopes (name : String) (table : SymbolTable) :
    lookUp name table.scopes = (table.resolve name).elim (none, table.scopes)
      fun found => (some found.1, found.2.scopes) :=
  lookUp_eq name table.current table.outer

theorem lookUp_of_resolve_none (h : table.resolve name = none) :
    lookUp name table.scopes = (none, table.scopes) := by
  rw [lookUp_scopes, h]
  rfl

theorem resolve_eq_some :
    table.resolve name = some (s, table') ↔ lookUp name table.scopes = (some s, table'.scopes) := by
  rw [lookUp_scopes]
  cases table.resolve name with
  | none => exact ⟨nofun, nofun⟩
  | some found =>
      obtain ⟨s', ⟨current, outer⟩⟩ := found
      obtain ⟨current', outer'⟩ := table'
      simp [scopes]

end

/-- After any operations on a new table, a name is found just if an open scope stores it. If it is
not found, no scope is changed. If it is found, it will be found again as it is and with no change,
no slot is given out, and only the scopes in front of the nearest one that stores the name may be
changed: they all capture it once, unless what is stored is static. -/
theorem Recorded.after_resolve (operations : List Operation) (name : String) :
    let table := (after operations).table
    (table.resolve name = none ↔ ∀ scope ∈ table.scopes, scope.names[name]? = none) ∧
    (table.resolve name = none → lookUp name table.scopes = (none, table.scopes)) ∧
    ∀ s table', table.resolve name = some (s, table') →
      lookUp name table.scopes = (some s, table'.scopes) ∧
      table'.resolve name = some (s, table') ∧
      table'.scopes.map Scope.definitions = table.scopes.map Scope.definitions ∧
      ∃ inner holder around stored, Nearest name table.scopes inner holder around stored ∧
        ∃ inner', table'.scopes = inner' ++ holder :: around ∧
          (IsStatic stored → s = stored ∧ inner' = inner) ∧
          (¬IsStatic stored → List.Forall₂ (Gains name) inner inner') := by
  intro table
  have hname : ∀ {inner holder around stored},
      Nearest name table.scopes inner holder around stored →
        ¬IsStatic stored → stored.name = name :=
    fun hnearest => (after_ok operations).stored_name hnearest.mem hnearest.stores
  refine ⟨⟨fun hnone => ?_, fun hall => ?_⟩, lookUp_of_resolve_none, fun s table' hres => ?_⟩
  · by_contra hall
    obtain ⟨_, _, _, _, hnearest⟩ := exists_nearest hall
    obtain ⟨s, inner', hlookUp, -⟩ := hnearest.exists_lookUp (hname hnearest)
    cases (lookUp_of_resolve_none hnone).symm.trans hlookUp
  · by_contra hsome
    obtain ⟨⟨s, table'⟩, hres⟩ := Option.ne_none_iff_exists'.1 hsome
    cases (lookUp_lacking hall).symm.trans (resolve_eq_some.1 hres)
  · have hlookUp := resolve_eq_some.1 hres
    have hall : ¬∀ scope ∈ table.scopes, scope.names[name]? = none := fun hall => by
      cases (lookUp_lacking hall).symm.trans hlookUp
    obtain ⟨inner, holder, around, stored, hnearest⟩ := exists_nearest hall
    obtain ⟨s', inner', hfirst, hagain, hstatic, hcaptured⟩ :=
      hnearest.exists_lookUp (hname hnearest)
    obtain ⟨hs, hscopes⟩ := Prod.mk.inj (hlookUp.symm.trans hfirst)
    obtain rfl := Option.some.inj hs
    rw [← hscopes] at hagain
    refine ⟨hlookUp, resolve_eq_some.2 hagain, ?_, inner, holder, around, stored, hnearest, inner',
      hscopes, hstatic, hcaptured⟩
    rw [hscopes, hnearest.split, List.map_append, List.map_append]
    congr 1
    by_cases h : IsStatic stored
    · rw [(hstatic h).2]
    · exact map_definitions_of_gains (hcaptured h)

-- A name comes in through two bodies. The second time they have it already.
example :
    let table := (Recorded.after [.enter, .define "a", .enter, .define "b", .enter]).table
    let found := lookUp "a" table.scopes
    found.1 = some ⟨"a", .captured, 0⟩ ∧
    found.2.map (·.captures.toList) = [[⟨"a", .captured, 0⟩], [⟨"a", .slot, 0⟩], [], []] ∧
    (lookUp "a" found.2).2.map (·.captures.toList) = found.2.map (·.captures.toList) ∧
    (lookUp "c" table.scopes).1 = none := by
  decide +kernel

end SymbolTable

end Monkey
