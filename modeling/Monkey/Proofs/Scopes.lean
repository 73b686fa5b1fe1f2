import Monkey.Proofs.Layout

/-!
# Symbols point at something

A symbol table is well formed when each symbol that one of its scopes stores is within the room of
that scope, and each captured symbol within the room of the scope around it. Every operation of
the compiler keeps this, and none takes room away: `Grows` says that the scopes of a table are those
of an earlier one with more definitions in the innermost and more captures anywhere.

Only the innermost scope gets definitions. The scopes around it keep their count, and that is why
the slots of a function are known when its body is closed.
-/

namespace Monkey

namespace SymbolTable

/-- The number of globals defined, read from the last of some scopes. -/
def globalCount : Scope → List Scope → Nat
  | scope, [] => scope.definitions
  | _, next :: rest => globalCount next rest

/-- The room of a scope. -/
def roomOf (own : Nat) : Scope → List Scope → Room
  | scope, [] => ⟨scope.definitions, own, 0, 0, false⟩
  | scope, next :: rest =>
      ⟨globalCount next rest, own, scope.definitions, scope.captures.size, true⟩

/-- The room of the innermost scope. -/
def room (table : SymbolTable) (own : Nat) : Room :=
  roomOf own table.current table.outer

/-- Every stored symbol is within the room of its scope, and every captured one within the room
around it. -/
def WfFrom : Scope → List Scope → Prop
  | scope, [] => ∀ (name : String) s, scope.names[name]? = some s → s.Within (roomOf 0 scope [])
  | scope, next :: rest =>
      (∀ (name : String) s, scope.names[name]? = some s →
        s.Within (roomOf 0 scope (next :: rest))) ∧
      (∀ s ∈ scope.captures, s.Within (roomOf 0 next rest)) ∧ WfFrom next rest

/-- Symbols point at something. -/
def Wf (table : SymbolTable) : Prop :=
  WfFrom table.current table.outer

/-- Scopes that were extended: the innermost by definitions, any by captures. -/
def GrowsFrom : Scope → List Scope → Scope → List Scope → Prop
  | scope, [], scope', [] => scope.definitions ≤ scope'.definitions
  | scope, next :: rest, scope', next' :: rest' =>
      scope.definitions ≤ scope'.definitions ∧ scope.captures.size ≤ scope'.captures.size ∧
      next.definitions = next'.definitions ∧ GrowsFrom next rest next' rest'
  | _, _, _, _ => False

/-- A table that extends another one. -/
def Grows (table table' : SymbolTable) : Prop :=
  GrowsFrom table.current table.outer table'.current table'.outer

/-- What a program may store to has no part in what its symbols point at. -/
theorem within_room {table : SymbolTable} {s : Symbol} {own own' : Nat}
    (h : s.Within (table.room own)) : s.Within (table.room own') := by
  obtain ⟨scope, outer⟩ := table
  cases outer <;> exact h

/-! ## Growing -/

theorem GrowsFrom.refl (scope : Scope) (outer : List Scope) :
    GrowsFrom scope outer scope outer := by
  induction outer generalizing scope with
  | nil => exact Nat.le_refl _
  | cons next rest ih => exact ⟨Nat.le_refl _, Nat.le_refl _, rfl, ih next⟩

theorem GrowsFrom.trans {a b c : Scope} {as bs cs : List Scope} (h₁ : GrowsFrom a as b bs)
    (h₂ : GrowsFrom b bs c cs) : GrowsFrom a as c cs := by
  induction as generalizing a b c bs cs with
  | nil =>
      match bs, cs, h₁, h₂ with
      | [], [], h₁, h₂ => exact Nat.le_trans h₁ h₂
  | cons next rest ih =>
      match bs, cs, h₁, h₂ with
      | _ :: _, _ :: _, ⟨hd, hc, hn, hr⟩, ⟨hd', hc', hn', hr'⟩ =>
          exact ⟨hd.trans hd', hc.trans hc', hn.trans hn', ih hr hr'⟩

theorem GrowsFrom.globalCount_le {a b : Scope} {as bs : List Scope} (h : GrowsFrom a as b bs) :
    globalCount a as ≤ globalCount b bs := by
  induction as generalizing a b bs with
  | nil =>
      match bs, h with
      | [], h => exact h
  | cons next rest ih =>
      match bs, h with
      | _ :: _, ⟨_, _, _, hr⟩ =>
          rw [globalCount, globalCount]
          exact ih hr

theorem GrowsFrom.room_le {a b : Scope} {as bs : List Scope} (h : GrowsFrom a as b bs) (own : Nat) :
    (roomOf own a as).Le (roomOf own b bs) := by
  match as, bs, h with
  | [], [], h => exact ⟨h, Nat.le_refl _, Nat.le_refl _, Nat.le_refl _, rfl⟩
  | _ :: _, _ :: _, ⟨hd, hc, _, hr⟩ =>
      exact ⟨hr.globalCount_le, Nat.le_refl _, hd, hc, rfl⟩

theorem Grows.refl (table : SymbolTable) : table.Grows table :=
  GrowsFrom.refl _ _

theorem Grows.trans {a b c : SymbolTable} (h₁ : a.Grows b) (h₂ : b.Grows c) : a.Grows c :=
  GrowsFrom.trans h₁ h₂

theorem Grows.room_le {a b : SymbolTable} (h : a.Grows b) (own : Nat) :
    (a.room own).Le (b.room own) :=
  GrowsFrom.room_le h own

theorem Grows.outer_nil_iff {a b : SymbolTable} (h : a.Grows b) : a.outer = [] ↔ b.outer = [] := by
  obtain ⟨_, as⟩ := a
  obtain ⟨_, bs⟩ := b
  match as, bs, h with
  | [], [], _ => exact Iff.rfl
  | _ :: _, _ :: _, _ => exact ⟨nofun, nofun⟩

/-! ## Stored symbols -/

theorem mem_insert {names : Std.TreeMap String Symbol} {name name' : String} {s s' : Symbol}
    (h : (names.insert name s)[name']? = some s') : s' = s ∨ names[name']? = some s' := by
  rw [Std.TreeMap.getElem?_insert] at h
  split at h
  · injection h with h
    exact .inl h.symm
  · exact .inr h

theorem WfFrom.stored {scope : Scope} {outer : List Scope} (h : WfFrom scope outer) {name : String}
    {s : Symbol} (hs : scope.names[name]? = some s) : s.Within (roomOf 0 scope outer) := by
  match outer, h with
  | [], h => exact h name s hs
  | _ :: _, h => exact h.1 name s hs

theorem WfFrom.insert {scope scope' : Scope} {outer : List Scope} {s : Symbol} (name : String)
    (h : WfFrom scope outer) (hnames : scope'.names = scope.names.insert name s)
    (hcaptures : scope'.captures = scope.captures) (hle : scope.definitions ≤ scope'.definitions)
    (hs : s.Within (roomOf 0 scope' outer)) : WfFrom scope' outer := by
  have hroom : (roomOf 0 scope outer).Le (roomOf 0 scope' outer) := by
    cases outer with
    | nil => exact ⟨hle, Nat.le_refl _, Nat.le_refl _, Nat.le_refl _, rfl⟩
    | cons next rest =>
        exact ⟨Nat.le_refl _, Nat.le_refl _, hle, by rw [roomOf, roomOf, hcaptures], rfl⟩
  have hstored : ∀ (name' : String) s', scope'.names[name']? = some s' →
      s'.Within (roomOf 0 scope' outer) := by
    intro name' s' h'
    rw [hnames] at h'
    rcases mem_insert h' with rfl | h'
    · exact hs
    · exact (h.stored h').mono hroom
  match outer, h with
  | [], _ => exact hstored
  | _ :: _, ⟨_, hc, hw⟩ => exact ⟨hstored, hcaptures ▸ hc, hw⟩

theorem room_of_top {table : SymbolTable} (htop : table.outer = []) (own : Nat) :
    table.room own = ⟨table.current.definitions, own, 0, 0, false⟩ := by
  rw [room, htop]
  rfl

theorem roomOf_globals (own : Nat) (scope : Scope) (outer : List Scope) :
    (roomOf own scope outer).globals = globalCount scope outer := by
  cases outer <;> rfl

/-- A symbol of the enclosing scope that needs no capture is within the inner room too. -/
theorem within_inner {scope next : Scope} {rest : List Scope} {s : Symbol}
    (h : s.Within (roomOf 0 next rest)) (hst : s.storage = .global ∨ s.storage = .builtin) :
    s.Within (roomOf 0 scope (next :: rest)) := by
  rw [Symbol.Within] at h ⊢
  rcases hst with hst | hst
  · rw [hst] at h ⊢
    rw [roomOf_globals] at h
    exact h
  · rw [hst] at h ⊢
    exact h

/-- A scope that captures a symbol of the scope around it. -/
theorem WfFrom.capture {scope next : Scope} {rest : List Scope} {s : Symbol}
    (h : WfFrom scope (next :: rest)) (hs : s.Within (roomOf 0 next rest)) :
    WfFrom (scope.capture s).2 (next :: rest) ∧
      (scope.capture s).1.Within (roomOf 0 (scope.capture s).2 (next :: rest)) := by
  obtain ⟨hstored, hcaps, hw⟩ := h
  have hsize : scope.captures.size < (scope.captures.push s).size := by
    rw [Array.size_push]
    exact Nat.lt_succ_self _
  have hroom : (roomOf 0 scope (next :: rest)).Le (roomOf 0 (scope.capture s).2 (next :: rest)) :=
    ⟨Nat.le_refl _, Nat.le_refl _, Nat.le_refl _, hsize.le, rfl⟩
  refine ⟨⟨fun name t ht => ?_, fun t ht => ?_, hw⟩, hsize⟩
  · rcases mem_insert ht with rfl | ht
    · exact hsize
    · exact (hstored name t ht).mono hroom
  · rcases Array.mem_push.1 ht with ht | rfl
    · exact hcaps t ht
    · exact hs

/-- What resolving a name gives is within the room of the innermost scope, and takes no slot. -/
theorem resolveFrom_spec {name : String} {scope : Scope} {outer : List Scope} {s : Symbol}
    {table : SymbolTable} (h : resolveFrom name scope outer = some (s, table))
    (hw : WfFrom scope outer) :
    table.Wf ∧ GrowsFrom scope outer table.current table.outer ∧
      s.Within (table.room 0) ∧ table.current.definitions = scope.definitions := by
  induction outer generalizing scope s table with
  | nil =>
      rw [resolveFrom] at h
      obtain ⟨s', hs, heq⟩ := Option.map_eq_some_iff.1 h
      injection heq with h₁ h₂
      subst h₁ h₂
      exact ⟨hw, GrowsFrom.refl _ _, hw.stored hs, rfl⟩
  | cons next rest ih =>
      rw [resolveFrom] at h
      split at h
      · next s' hs =>
          injection h with h
          injection h with h₁ h₂
          subst h₁ h₂
          exact ⟨hw, GrowsFrom.refl _ _, hw.stored hs, rfl⟩
      · split at h
        · cases h
        · next s' next' rest' hres =>
            obtain ⟨hstored, hcaps, hwnext⟩ := hw
            obtain ⟨hw', hgrows, hs', hdefs⟩ := ih hres hwnext
            have hroom : (roomOf 0 scope (next :: rest)).Le (roomOf 0 scope (next' :: rest')) :=
              ⟨hgrows.globalCount_le, Nat.le_refl _, Nat.le_refl _, Nat.le_refl _, rfl⟩
            -- the scope as it is, over the scopes around it as they are now
            have hwhere : WfFrom scope (next' :: rest') :=
              ⟨fun n t ht => (hstored n t ht).mono hroom,
                fun t ht => (hcaps t ht).mono (hgrows.room_le 0), hw'⟩
            have hkept : s'.storage = .global ∨ s'.storage = .builtin →
                some (s', (⟨scope, next' :: rest'⟩ : SymbolTable)) = some (s, table) →
                table.Wf ∧ GrowsFrom scope (next :: rest) table.current table.outer ∧
                  s.Within (table.room 0) ∧ table.current.definitions = scope.definitions := by
              intro hst h
              injection h with h
              injection h with h₁ h₂
              subst h₁ h₂
              exact ⟨hwhere, ⟨Nat.le_refl _, Nat.le_refl _, hdefs.symm, hgrows⟩,
                within_inner hs' hst, rfl⟩
            have hcaptured : some ((scope.capture s').1,
                  (⟨(scope.capture s').2, next' :: rest'⟩ : SymbolTable)) = some (s, table) →
                table.Wf ∧ GrowsFrom scope (next :: rest) table.current table.outer ∧
                  s.Within (table.room 0) ∧ table.current.definitions = scope.definitions := by
              intro h
              injection h with h
              injection h with h₁ h₂
              subst h₁ h₂
              obtain ⟨hwc, hsc⟩ := hwhere.capture hs'
              refine ⟨hwc, ⟨Nat.le_refl _, ?_, hdefs.symm, hgrows⟩, hsc, rfl⟩
              show scope.captures.size ≤ (scope.captures.push s').size
              rw [Array.size_push]
              exact Nat.le_succ _
            split at h
            · next hst => exact hkept (.inl hst) h
            · next hst => exact hkept (.inr hst) h
            · exact hcaptured h
            · exact hcaptured h
            · exact hcaptured h

theorem resolve_spec {table table' : SymbolTable} {name : String} {s : Symbol}
    (h : table.resolve name = some (s, table')) (hw : table.Wf) :
    table'.Wf ∧ table.Grows table' ∧ s.Within (table'.room 0) ∧
      table'.current.definitions = table.current.definitions :=
  resolveFrom_spec h hw

/-! ## New symbols -/

theorem define_spec {table : SymbolTable} (name : String) (hw : table.Wf) :
    (table.define name).2.Wf ∧ table.Grows (table.define name).2 ∧
      (table.define name).1.index = table.current.definitions ∧
      (table.define name).2.current.definitions = table.current.definitions + 1 := by
  obtain ⟨scope, outer⟩ := table
  refine ⟨?_, ?_, rfl, rfl⟩
  · refine WfFrom.insert name hw rfl rfl (Nat.le_succ _) ?_
    cases outer with
    | nil => exact Nat.lt_succ_self _
    | cons next rest => exact Nat.lt_succ_self _
  · cases outer with
    | nil => exact Nat.le_succ _
    | cons next rest => exact ⟨Nat.le_succ _, Nat.le_refl _, rfl, GrowsFrom.refl _ _⟩

theorem define_storage {table : SymbolTable} (name : String) (h : table.outer ≠ []) :
    (table.define name).1.storage = .slot := by
  obtain ⟨scope, outer⟩ := table
  cases outer with
  | nil => exact absurd rfl h
  | cons next rest => rfl

/-- A defined symbol can be stored to, in any later table. -/
theorem define_storable {table table' : SymbolTable} {own : Nat} (name : String)
    (hown : own ≤ (table.room own).globals) (h : (table.define name).2.Grows table') :
    (table.define name).1.Storable (table'.room own) := by
  refine Symbol.Storable.mono ?_ (h.room_le own)
  obtain ⟨scope, outer⟩ := table
  cases outer with
  | nil => exact ⟨rfl, hown, Nat.lt_succ_self _⟩
  | cons next rest => exact Nat.lt_succ_self _

/-- The innermost scope is that of a function body without captures. -/
structure Opened (table inner : SymbolTable) (slots : Nat) : Prop where
  wf : inner.Wf
  outer : inner.outer = table.current :: table.outer
  captures : inner.current.captures = #[]
  slots : inner.current.definitions = slots

theorem enter_opened {table : SymbolTable} (hw : table.Wf) : Opened table table.enter 0 := by
  refine ⟨⟨fun name s h => ?_, fun s h => ?_, hw⟩, rfl, rfl, rfl⟩
  · rw [enter, Std.TreeMap.getElem?_emptyc] at h
    cases h
  · exact absurd h (Array.not_mem_empty s)

theorem Opened.defineSelf {table inner : SymbolTable} {slots : Nat} (name : String)
    (h : Opened table inner slots) : Opened table (inner.defineSelf name).2 slots := by
  obtain ⟨scope, outer⟩ := inner
  obtain ⟨hw, houter, hcaps, hslots⟩ := h
  dsimp only at houter
  subst houter
  exact ⟨WfFrom.insert name hw rfl rfl (Nat.le_refl _) rfl, rfl, hcaps, hslots⟩

theorem Opened.define {table inner : SymbolTable} {slots : Nat} (name : String)
    (h : Opened table inner slots) : Opened table (inner.define name).2 (slots + 1) := by
  obtain ⟨hw, -, -, hdefs⟩ := define_spec name h.wf
  exact ⟨hw, h.outer, h.captures, by rw [hdefs, h.slots]⟩

theorem Opened.defineAll {table inner : SymbolTable} {slots : Nat} (names : List String)
    (h : Opened table inner slots) :
    Opened table (names.foldl (fun symbols name => (symbols.define name).2) inner)
      (slots + names.length) := by
  induction names generalizing inner slots with
  | nil => exact h
  | cons name rest ih =>
      have := ih (h.define name)
      rwa [Nat.add_assoc, Nat.add_comm 1] at this

theorem openBody_opened {table : SymbolTable} (name : Option String) (parameters : List String)
    (hw : table.Wf) : Opened table (Codegen.openBody table name parameters) parameters.length := by
  have h := enter_opened hw
  cases name with
  | none => simpa [Codegen.openBody] using h.defineAll parameters
  | some name => simpa [Codegen.openBody] using (h.defineSelf name).defineAll parameters

/-- The table at the end of a function body: its captures are symbols of the scope around it, which
has grown by captures only. -/
theorem leave_spec {table opened inner : SymbolTable} {slots : Nat} (ho : Opened table opened slots)
    (hw : inner.Wf) (hg : opened.Grows inner) :
    inner.leave.2.Wf ∧ table.Grows inner.leave.2 ∧
      inner.leave.2.current.definitions = table.current.definitions ∧
      inner.leave.1 = ⟨inner.current.definitions, inner.current.captures⟩ ∧
      (∀ s ∈ inner.current.captures, s.Within (inner.leave.2.room 0)) ∧
      (∀ own, inner.room own =
        (inner.leave.2.room own).within inner.current.definitions inner.current.captures.size) := by
  obtain ⟨scope, outer⟩ := inner
  obtain ⟨scope₀, outer₀⟩ := opened
  obtain ⟨-, houter, -, -⟩ := ho
  dsimp only at houter
  subst houter
  match outer, hg with
  | next :: rest, ⟨_, _, hdefs, hgrows⟩ =>
      obtain ⟨_, hcaps, hwnext⟩ := hw
      refine ⟨hwnext, hgrows, hdefs.symm, rfl, hcaps, fun own => ?_⟩
      simp only [leave, room, roomOf, Room.within]
      cases rest <;> rfl

/-! ## The symbols of a new compiler -/

theorem wf_empty : Wf {} := by
  intro name s h
  rw [Std.TreeMap.getElem?_emptyc] at h
  cases h

theorem defineBuiltin_wf {table : SymbolTable} {index : Nat} (name : String) (hw : table.Wf)
    (htop : table.outer = []) (hi : index < Builtin.all.length) :
    (table.defineBuiltin index name).2.Wf ∧ (table.defineBuiltin index name).2.outer = [] ∧
      (table.defineBuiltin index name).2.current.definitions = table.current.definitions := by
  obtain ⟨scope, outer⟩ := table
  dsimp only at htop
  subst htop
  exact ⟨WfFrom.insert name hw rfl rfl (Nat.le_refl _) hi, rfl, rfl⟩

theorem builtinSymbols_spec :
    Compiler.builtinSymbols.Wf ∧ Compiler.builtinSymbols.outer = [] ∧
      Compiler.builtinSymbols.current.definitions = 0 := by
  have hfold : ∀ (bs : List (Builtin × Nat)) (table : SymbolTable),
      (∀ b ∈ bs, b.2 < Builtin.all.length) → table.Wf → table.outer = [] →
      table.current.definitions = 0 →
      let after := bs.foldl (fun table b => (table.defineBuiltin b.2 b.1.name).2) table
      after.Wf ∧ after.outer = [] ∧ after.current.definitions = 0 := by
    intro bs
    induction bs with
    | nil => exact fun _ _ hw htop hdefs => ⟨hw, htop, hdefs⟩
    | cons b rest ih =>
        intro table hbs hw htop hdefs
        obtain ⟨hb, hrest⟩ := List.forall_mem_cons.1 hbs
        obtain ⟨hw', htop', hdefs'⟩ := defineBuiltin_wf b.1.name hw htop hb
        exact ih _ hrest hw' htop' (hdefs'.trans hdefs)
  exact hfold _ _ (by decide) wf_empty rfl rfl

end SymbolTable

end Monkey
