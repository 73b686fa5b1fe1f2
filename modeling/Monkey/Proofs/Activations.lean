import Monkey.Proofs.Slots

/-!
# What an identifier reads

An activation is the run of a body, from the start of the program or from a call to its return. In
between there are the activations of other calls. `Body.bindings` lists the bindings that an
activation has executed in its own code so far, with the values that they got.

An identifier stands for the binding of its name that begins last in front of it in the text. That
binding has a place of its own, so the identifier reads what the binding has stored in this
activation, and null if it has stored nothing, whatever other bindings of the name have done
(`Body.Finds`).
Code is executed from front to back, as jumps go forward. So the binding that begins last is also
the one that was executed last if it was executed at all, unless it stands in the initializer of a
`let` of the same name, which begins before it and stores after it.

What is kept from step to step is `Machine.Tracks`: the activation has executed bindings in front of
the place where it stands, each once and in their order, and holds what they have stored.
-/

namespace Monkey

/-! ## Code without loops -/

namespace Code

variable {code : Code} {is : List (Nat × Instruction)} {ip ip' next : Nat} {i : Instruction}

/-- An offset between two instructions of a listing, or at one of its ends. -/
def Stop (code : Code) (is : List (Nat × Instruction)) (ip : Nat) : Prop :=
  ip = code.size ∨ ∃ i, (ip, i) ∈ is

/-- A listing of code in which every jump goes forward. -/
structure Forward (code : Code) (is : List (Nat × Instruction)) : Prop where
  tiles : code.Tiles 0 is code.size
  jumps : ∀ ip i target, (ip, i) ∈ is → i.target? = some target → ip < target ∧ code.Stop is target

theorem Forward.mem (h : code.Forward is) (hstop : code.Stop is ip) (hi : code.Holds ip i next) :
    (ip, i) ∈ is := by
  rcases hstop with rfl | ⟨j, hj⟩
  · exact absurd (Nat.lt_of_lt_of_le hi.lt hi.le_size) (Nat.lt_irrefl _)
  · obtain ⟨next', hj', -⟩ := h.tiles.next_of_mem hj
    obtain ⟨rfl, rfl⟩ := hi.unique hj'
    exact hj

/-- Execution goes on behind an instruction, where it jumps to, or it is over. -/
theorem Forward.onward (h : code.Forward is) (hmem : (ip, i) ∈ is) (hi : code.Holds ip i next)
    (hip' : ip' = next ∨ i.target? = some ip' ∨ ip' = code.size) : ip < ip' ∧ code.Stop is ip' := by
  rcases hip' with rfl | htarget | rfl
  · obtain ⟨next', hj', hnext⟩ := h.tiles.next_of_mem hmem
    obtain ⟨-, rfl⟩ := hi.unique hj'
    exact ⟨hi.lt, hnext⟩
  · exact h.jumps ip i ip' hmem htarget
  · exact ⟨Nat.lt_of_lt_of_le hi.lt hi.le_size, .inl rfl⟩

end Code

namespace Resolved

/-! ## Bodies -/

theorem opened_map_opens (symbols : List Symbol) : opened (symbols.map .opens) = symbols := by
  induction symbols with
  | nil => rfl
  | cons s rest ih => rw [List.map_cons, opened_opens, ih]

/-- What a body has to do with its code. Its bindings are all in the same place, among the globals
or in the slots of the call. -/
structure Body.Fits (place : Storage) (body : Body) (t : Template) : Prop where
  spelt : Spelt t.code 0 body.sites t.code.size
  listing : ∃ is, t.code.Forward is
  /-- An identifier means the binding of its name that has begun last. -/
  reads : ∀ before s after, body.sites = before ++ .reads s :: after →
    ∀ s', lastWhere (·.name = s.name) (body.opened before) = some s' → s = s'
  storage : ∀ s ∈ body.opened body.sites, s.storage = place
  locals : place = .slot → ∀ s ∈ body.opened body.sites, s.index < t.locals
  parameters : ∀ s ∈ Resolved.opened body.sites, t.parameters ≤ s.index
  ordered : (body.opened body.sites).Pairwise (·.index < ·.index)
  stores : ∀ before s after, body.sites = before ++ .stores s :: after →
    s ∈ Resolved.opened before ∧ .stores s ∉ after

theorem Body.Fits.of_scoped {table table₁ table₂ : SymbolTable} {parameters : List Symbol}
    {sites : List Site} {t : Template} {K : Array Value} {room : Room}
    {is : List (Nat × Instruction)} (hfirst : Scoped table (parameters.map .opens) table₁)
    (hrest : Scoped table₁ sites table₂) (hspelt : Spelt t.code 0 sites t.code.size)
    (hlisted : Listed K room t.code 0 is t.code.size)
    (hlocals : table.kind = .slot → table₂.current.definitions ≤ t.locals)
    (hparameters : t.parameters ≤ table₁.current.definitions) :
    Body.Fits table.kind ⟨parameters, sites⟩ t := by
  have hwhole := hfirst.append hrest
  have hopened : ∀ before, Resolved.opened (parameters.map .opens ++ before) =
      Body.opened ⟨parameters, sites⟩ before := by
    intro before
    rw [opened_append, opened_map_opens]
    rfl
  refine ⟨hspelt, ⟨is, hlisted.tiles, hlisted.jumps⟩, fun before s after heq s' hlast => ?_,
    fun s hs => ?_, fun hkind s hs => ?_, fun s hs => ?_, ?_, hrest.stores⟩
  · have hmeant : meant table (parameters.map .opens ++ before) s.name = some s' := by
      rw [meant, hopened, hlast]
      rfl
    refine hwhole.reads (parameters.map .opens ++ before) s after ?_ s' hmeant
    rw [List.append_assoc, ← heq]
  · exact (hwhole.opened s (hopened sites ▸ hs)).1
  · exact Nat.lt_of_lt_of_le (hwhole.opened s (hopened sites ▸ hs)).2.2 (hlocals hkind)
  · exact hparameters.trans (hrest.opened s hs).2.1
  · rw [← hopened]
    exact hwhole.ordered

theorem Body.Fits.hasPlace {place : Storage} {body : Body} {t : Template} {s : Symbol}
    (h : body.Fits place t) (hplace : place = .global ∨ place = .slot)
    (hs : s ∈ body.opened body.sites) : s.HasPlace t.locals := by
  have hstorage := h.storage s hs
  rcases hplace with rfl | rfl
  · exact .inl hstorage
  · exact .inr ⟨hstorage, h.locals rfl s hs⟩

/-- Bindings of a body that store in the same place are the same. -/
theorem Body.Fits.save_inj {place : Storage} {body : Body} {t : Template} {s s' : Symbol}
    (h : body.Fits place t) (hs : s ∈ body.opened body.sites) (hs' : s' ∈ body.opened body.sites)
    (heq : s.save = s'.save) : s = s' := by
  have hindex : s.index = s'.index := by
    have hstorage := (h.storage s hs).trans (h.storage s' hs').symm
    rw [Symbol.save, Symbol.save, hstorage] at heq
    split at heq <;> injection heq
  have hnodup : ((body.opened body.sites).map Symbol.index).Nodup :=
    (List.pairwise_map.2 h.ordered).imp Nat.ne_of_lt
  exact List.inj_on_of_nodup_map hnodup hs hs' hindex

/-- The symbols under which something is stored, in order. -/
def stored (sites : List Site) : List Symbol :=
  sites.filterMap Site.stored?

@[simp] theorem stored_append (before after : List Site) :
    stored (before ++ after) = stored before ++ stored after :=
  List.filterMap_append

/-- Sites that end where another one begins, or before, are in front of it. -/
theorem prefix_of_width_le {before sites after : List Site} {site : Site}
    (hpre : before <+: sites ++ site :: after) (hle : width before ≤ width sites)
    (hpos : 0 < site.size) : before <+: sites := by
  obtain ⟨rest, heq⟩ := hpre
  rcases List.append_eq_append_iff.1 heq with ⟨between, hsites, -⟩ | ⟨between, hbefore, hrest⟩
  · exact ⟨between, hsites.symm⟩
  · cases between with
    | nil =>
        rw [hbefore, List.append_nil]
    | cons first between =>
        obtain ⟨rfl, -⟩ := List.cons.inj hrest
        rw [hbefore, width_append, width] at hle
        omega

theorem mem_stored {sites : List Site} {s : Symbol} : s ∈ stored sites ↔ .stores s ∈ sites := by
  rw [stored, List.mem_filterMap]
  constructor
  · rintro ⟨site, hsite, hs⟩
    cases site <;> cases hs
    exact hsite
  · exact fun h => ⟨_, h, rfl⟩

/-- The `let` of one symbol stands in the initializer of the `let` of another one. -/
def Encloses (sites : List Site) (outer inner : Symbol) : Prop :=
  [.opens outer, .opens inner, .stores outer].Sublist sites

instance (sites : List Site) (outer inner : Symbol) : Decidable (Encloses sites outer inner) :=
  inferInstanceAs (Decidable (List.Sublist _ _))

namespace Body.Fits

variable {place : Storage} {body : Body} {t : Template} {before after : List Site} {s s' : Symbol}
  {log : List (Symbol × Value)}

theorem ordered_of_append (h : body.Fits place t) (hsites : body.sites = before ++ after) :
    (body.opened before).Pairwise (·.index < ·.index) := by
  refine h.ordered.sublist ?_
  rw [Body.opened, Body.opened, hsites, opened_append]
  exact List.Sublist.append (List.Sublist.refl _) (List.sublist_append_left _ _)

theorem opened_of_stored (h : body.Fits place t) (hsites : body.sites = before ++ after)
    (hs : s ∈ stored before) : s ∈ Resolved.opened before := by
  obtain ⟨b, c, rfl⟩ := List.append_of_mem (mem_stored.1 hs)
  rw [opened_append]
  refine List.mem_append_left _ (h.stores b s (c ++ after) ?_).1
  rw [hsites, List.append_assoc]
  rfl

/-- Only what the sites mark stores something. -/
theorem sets_eq_false {is : List (Nat × Instruction)} {ip : Nat} {i : Instruction}
    (h : body.Fits place t) (hcode : t.code.Forward is) (hmem : (ip, i) ∈ is)
    (hnone : storedAt body.sites ip = none) : i.sets = false := by
  by_contra hsets
  rw [Bool.not_eq_false] at hsets
  obtain ⟨before, s, after, hsites, hip⟩ := h.spelt.exists_stores hcode.tiles hmem hsets
  rw [hsites, hip, Nat.zero_add, storedAt_width] at hnone
  cases hnone

/-- Of two `let`s, the one that begins first and has its value last encloses the other one. -/
theorem encloses (h : body.Fits place t) (hsites : body.sites = before ++ after)
    (hindex : s'.index < s.index) (hstored : [s, s'].Sublist (stored before)) :
    Encloses before s' s := by
  obtain ⟨r₁, r₂, happend, hs, hs'⟩ := List.cons_sublist_iff.1 hstored
  obtain ⟨b₁, b₂, rfl, rfl, rfl⟩ := List.filterMap_eq_append_iff.1 happend
  obtain ⟨between, last, rfl⟩ :=
    List.append_of_mem (mem_stored.1 (List.singleton_sublist.1 hs'))
  have hbegun : s ∈ Resolved.opened b₁ :=
    h.opened_of_stored (hsites.trans (List.append_assoc _ _ _)) hs
  have hbegun' : s' ∈ Resolved.opened (b₁ ++ between) := by
    refine (h.stores (b₁ ++ between) s' (last ++ after) ?_).1
    rw [hsites]
    simp
  have hordered := (List.pairwise_append.1 (h.ordered_of_append hsites)).2.1
  rw [opened_append, opened_append] at hordered
  rw [opened_append] at hbegun'
  have hfirst : s' ∈ Resolved.opened b₁ := by
    rcases List.mem_append.1 hbegun' with hmem | hmem
    · exact hmem
    · have hlt := (List.pairwise_append.1 hordered).2.2 s hbegun s' (List.mem_append_left _ hmem)
      omega
  obtain ⟨front, middle, rfl⟩ := List.append_of_mem (mem_opened.1 hfirst)
  have hwithin : .opens s ∈ middle := by
    have hsorted := (List.pairwise_append.1 hordered).1
    rw [opened_append, opened_opens] at hsorted hbegun
    rcases List.mem_append.1 hbegun with hmem | hmem
    · have hlt := (List.pairwise_append.1 hsorted).2.2 s hmem s' List.mem_cons_self
      omega
    · rcases List.mem_cons.1 hmem with rfl | hmem
      · exact absurd hindex (Nat.lt_irrefl _)
      · exact mem_opened.1 hmem
  have hbegin : [.opens s', .opens s].Sublist (front ++ .opens s' :: middle) :=
    ((List.singleton_sublist.2 hwithin).cons_cons _).trans (List.sublist_append_right _ _)
  have hend : [.stores s'].Sublist (between ++ .stores s' :: last) :=
    List.singleton_sublist.2 (by simp)
  exact hbegin.append hend

/-- The binding that a name means is the one that was executed last, unless it is enclosed by one
that was executed later. -/
theorem recent (h : body.Fits place t) (hsites : body.sites = before ++ after)
    (hlast : lastWhere (·.name = s.name) (body.opened before) = some s)
    (hlog : (log.map Prod.fst).Sublist (body.parameters ++ stored before))
    {w : Value} (hs : (s, w) ∈ log)
    (hfree : ∀ s' ∈ Resolved.opened before, s'.name = s.name → ¬Encloses before s' s) :
    ∃ v, lastWhere (·.1.name = s.name) log = some (s, v) := by
  obtain ⟨⟨s', v⟩, hs'⟩ := isSome_lastWhere (p := fun e => e.1.name = s.name) hs (by simp)
  by_cases heq : s' = s
  · exact ⟨v, heq ▸ hs'⟩
  have hname : s'.name = s.name := by simpa using (lastWhere_eq_some hs').2
  -- the binding was executed before the last one of its name
  have hpair : [s, s'].Sublist (body.parameters ++ stored before) := by
    have hne : (s, w) ≠ (s', v) := fun h => heq (congrArg Prod.fst h).symm
    exact ((pair_sublist_of_lastWhere hs' hs (by simp) hne).map Prod.fst).trans hlog
  have hstored : ∀ {x : Symbol}, x ∈ stored before → x ∈ Resolved.opened before :=
    fun hx => h.opened_of_stored hsites hx
  have hordered := h.ordered_of_append hsites
  -- but it begins after it
  have hlt : s'.index < s.index := by
    have hopened : s' ∈ body.opened before := by
      rcases List.mem_append.1 (hpair.subset (List.mem_cons_of_mem s List.mem_cons_self)) with
        hmem | hmem
      · exact List.mem_append_left _ hmem
      · exact List.mem_append_right _ (hstored hmem)
    have hfront := pair_sublist_of_lastWhere hlast hopened (by simpa using hname) heq
    exact (List.pairwise_cons.1 (hordered.sublist hfront)).1 s List.mem_cons_self
  have hparts := List.pairwise_append.1 hordered
  -- parameters are executed in the order of their indices, and before any `let`
  obtain ⟨p₁, p₂, hsplit, hp₁, hp₂⟩ := List.sublist_append_iff.1 hpair
  rcases p₁ with _ | ⟨x, _ | ⟨y, rest⟩⟩
  · obtain rfl : [s, s'] = p₂ := hsplit
    have hencl := h.encloses hsites hlt hp₂
    exact absurd hencl (hfree s' (mem_opened.2 (hencl.subset List.mem_cons_self)) hname)
  · obtain ⟨rfl, rfl⟩ := List.cons.inj hsplit
    have hlt' := hparts.2.2 s (List.singleton_sublist.1 hp₁) s'
      (hstored (List.singleton_sublist.1 hp₂))
    omega
  · obtain ⟨rfl, hrest⟩ := List.cons.inj hsplit
    obtain ⟨rfl, -⟩ := List.cons.inj hrest
    have hlt' := (List.pairwise_cons.1 (hparts.1.sublist hp₁)).1 s' List.mem_cons_self
    omega

end Body.Fits

end Resolved

namespace Literal

open Resolved

theorem Gives.fits {f : Literal} {t : Template} {body : Body} (h : f.Gives t body) :
    body.Fits .slot t := by
  cases h with
  | @intro own g inner rs hw hhonest hcount hblock hrs =>
      obtain ⟨rs', hrs', hencl⟩ :=
        Codegen.body_adds (Codegen.hereditary.block f.body) hw hcount hblock
      cases hrs.symm.trans hrs'
      obtain ⟨is, hlisted, -⟩ := hencl.laid.listed nofun
      have hentered := hhonest.entered f.name
      have hzero : (g.symbols.entered f.name).current.definitions = 0 := by cases f.name <;> rfl
      have houter : (g.symbols.entered f.name).outer ≠ [] := by
        rw [SymbolTable.entered, (hhonest.openBody f.name []).2]
        exact List.cons_ne_nil _ _
      have hkind : (g.symbols.entered f.name).kind = .slot := if_neg houter
      have hfirst := scoped_parameters hentered houter f.parameters
      rw [hzero] at hfirst
      have hrest := (scoped_block (fun s _ => hereditary_scoped.stmt s) hfirst.honest hrs).2 .body
      rw [← hkind]
      refine .of_scoped hfirst hrest.toScoped hencl.laid.spelt hlisted (fun _ => Nat.le_refl _) ?_
      exact (SymbolTable.openBody_opened f.name f.parameters hw.symbols).slots.ge

theorem Gives.spells {f : Literal} {t : Template} {body : Body} (h : f.Gives t body) :
    body.Spells f := by
  obtain @⟨own, g, inner, rs, hw, hhonest, -, -, hrs⟩ := h
  have hopen := (hhonest.openBody f.name f.parameters).1
  have hbody := (scoped_block (fun s _ => hereditary_scoped.stmt s) hopen hrs).2 .body
  exact ⟨names_slotsFrom 0 f.parameters, hbody.text⟩

end Literal

namespace Machine

open Resolved

/-- A body that is executed fits the code of the frame. -/
theorem Executes.fits {programs : List Program} {m : Machine} {body : Body}
    (h : m.Executes programs body) :
    (m.callers = #[] ∧ body.parameters = [] ∧ body.Fits .global m.frame.body) ∨
      (m.callers ≠ #[] ∧ body.Fits .slot m.frame.body) := by
  cases h with
  | @program earlier later p b c rs hcallers _ hc hbody hrs =>
      refine .inl ⟨hcallers, rfl, ?_⟩
      have hacc := Compiler.compile_eq_ok (Compiler.after_wf earlier) hc
      obtain ⟨rs', hrs', hlaid⟩ := hacc.laid
      cases hrs.symm.trans hrs'
      obtain ⟨is, hlisted, -⟩ := hlaid.listed fun _ => ⟨rfl, rfl⟩
      have hkind : (Compiler.after earlier).symbols.kind = .global :=
        if_pos (Compiler.after_wf earlier).top
      have hhonest := Compiler.after_honest earlier
      rw [hbody, ← hkind]
      have hscoped := (scoped_block (fun s _ => hereditary_scoped.stmt s) hhonest hrs).1
      refine .of_scoped (.nil hhonest) hscoped.toScoped hlaid.spelt hlisted (fun hslot => ?_)
        (Nat.zero_le _)
      rw [hkind] at hslot
      cases hslot
  | call hcallers _ _ hgives => exact .inr ⟨hcallers, hgives.fits⟩

/-- A body that is executed is written in one of the programs. -/
theorem Executes.spells {programs : List Program} {m : Machine} {body : Body}
    (h : m.Executes programs body) : ∃ p ∈ programs, ∃ f ∈ p.bodies, body.Spells f := by
  cases h with
  | @program earlier later p b c rs _ hprograms _ _ hrs =>
      have hhonest := Compiler.after_honest earlier
      have htext := (scoped_block (fun s _ => hereditary_scoped.stmt s) hhonest hrs).1.text
      exact ⟨p, by simp [hprograms], _, List.mem_cons_self, rfl, htext⟩
  | call _ hp hf hgives => exact ⟨_, hp, _, List.mem_cons_of_mem _ hf, hgives.spells⟩

/-! ## Activations -/

/-- The activation begins with this machine in a run from `m₀`: the program itself, or a call. -/
def Begins (m₀ a : Machine) : Prop :=
  a = m₀ ∨ ∃ m, m₀.Reaches m ∧ m.Steps a ∧ a.callers.size = m.callers.size + 1

/-- The activation that begins with `a` is not over after `n` steps. -/
def Lasts (a : Machine) (n : Nat) : Prop :=
  ∀ k, k ≤ n → ∃ m, a.run k = .running m ∧ a.callers.size ≤ m.callers.size

/-- The activation of the top level lasts as long as the run. -/
theorem lasts_of_running {a m : Machine} {n : Nat} (hcallers : a.callers = #[])
    (hrun : a.run n = .running m) : a.Lasts n := by
  have hbelow : ∀ m' : Machine, a.callers.size ≤ m'.callers.size := by
    intro m'
    rw [hcallers]
    exact Nat.zero_le _
  induction n generalizing m with
  | zero =>
      intro k hk
      obtain rfl := Nat.le_zero.1 hk
      exact ⟨m, hrun, hbelow m⟩
  | succ n ih =>
      intro k hk
      rcases Nat.le_succ_iff.1 hk with hk | rfl
      · obtain ⟨m₁, hrun₁, -⟩ := exists_steps_of_run hrun
        exact ih hrun₁ k hk
      · exact ⟨m, hrun, hbelow m⟩

/-- What is read for a binding that has not been executed in the activation: null, or for a global
what it was before. -/
def unbound (a : Machine) (s : Symbol) : Value :=
  match s.storage with
  | .global => a.globals[s.index]?.getD .null
  | _ => .null

end Machine

namespace Resolved.Body

/-- The binding that is executed next, with its value, if the run is in the activation itself and
not in a call from there. -/
def noted (body : Body) (depth : Nat) : Progress → List (Symbol × Value)
  | .running m =>
      if m.callers.size = depth then
        (storedAt body.sites m.frame.ip).toList.map fun s => (s, m.slot (m.top - 1))
      else []
  | _ => []

/-- The bindings that the activation has executed in its first `n` steps, with their values. The
parameters come first. -/
def bindings (body : Body) (a : Machine) : Nat → List (Symbol × Value)
  | 0 => body.parameters.map fun s => (s, a.held a.frame.base s)
  | n + 1 => body.bindings a n ++ body.noted a.callers.size (a.run n)

/-- What the activation holds for a binding after `n` steps, by what it has executed. -/
def latest (body : Body) (a : Machine) (n : Nat) (s : Symbol) : Option Value :=
  (lastWhere (·.1 = s) (body.bindings a n)).map Prod.snd

theorem latest_of_append {body : Body} {a : Machine} {n : Nat} {s s₀ : Symbol} {v : Value}
    (h : body.bindings a (n + 1) = body.bindings a n ++ [(s₀, v)]) :
    body.latest a (n + 1) s = if s₀ = s then some v else body.latest a n s := by
  rw [latest, h, lastWhere_append]
  by_cases heq : s₀ = s
  · simp [lastWhere, heq]
  · have hlast : lastWhere (fun e : Symbol × Value => e.1 = s) [(s₀, v)] = none := by
      simp [lastWhere, heq]
    rw [if_neg heq, hlast]
    rfl

end Resolved.Body

namespace Machine

open Resolved

variable {m m' a : Machine} {st : Stage} {g : Array Value} {xs : List Value} {body : Body}
  {is : List (Nat × Instruction)} {n : Nat} {place : Storage}

/-- The activation after `n` steps: it stands between two instructions, has executed bindings in
front of that place only, each once and in their order, and holds what they have stored. -/
structure Tracks (body : Body) (is : List (Nat × Instruction)) (a : Machine) (n : Nat)
    (m : Machine) : Prop where
  place : ∃ ip, m.frames[a.callers.size]? = some (a.frame.at ip) ∧
    a.frame.body.code.Stop is ip ∧
    ∃ before, before <+: body.sites ∧ width before ≤ ip ∧
      ((body.bindings a n).map Prod.fst).Sublist (body.parameters ++ stored before)
  held : ∀ s ∈ body.opened body.sites,
    m.held a.frame.base s = (body.latest a n s).getD (a.held a.frame.base s)

/-- A step of a call from the activation. -/
theorem Tracks.deeper (h : Tracks body is a n m) (hfits : body.Fits place a.frame.body)
    (hplace : place = .global ∨ place = .slot) (hrun : a.run n = .running m) (hok : m.Ok st g xs)
    (hg : st.Reads g) (hstep : m.Steps m') (hd : a.callers.size < m.callers.size)
    (hd' : a.callers.size ≤ m'.callers.size) : Tracks body is a (n + 1) m' := by
  have hbindings : body.bindings a (n + 1) = body.bindings a n := by
    rw [Body.bindings, hrun, Body.noted, if_neg hd.ne', List.append_nil]
  obtain ⟨ip, hframe, hip, hbefore⟩ := h.place
  refine ⟨⟨ip, ?_, hip, ?_⟩, fun s hs => ?_⟩
  · obtain ⟨hmoves, -⟩ := Good.moves (.inl ⟨xs, hok⟩) hg hstep
    obtain ⟨f, ip', hf, hf', hsame⟩ := hmoves.frame_at hd.le hd'
    cases hframe.symm.trans hf
    rw [hf', hsame hd]
    rfl
  · rw [hbindings]
    exact hbefore
  · have hkept := hok.held_of_deeper hg hstep hframe hd (hfits.hasPlace hplace hs)
    rw [Body.latest, hbindings, ← Body.latest, ← h.held s hs]
    exact hkept

/-- A step of the activation itself. -/
theorem Tracks.here (h : Tracks body is a n m) (hfits : body.Fits place a.frame.body)
    (hplace : place = .global ∨ place = .slot) (hcode : a.frame.body.code.Forward is)
    (hrun : a.run n = .running m) (hok : m.Ok st g xs) (hg : st.Reads g) (hstep : m.Steps m')
    (hd : a.callers.size = m.callers.size) (hd' : a.callers.size ≤ m'.callers.size) :
    Tracks body is a (n + 1) m' := by
  obtain ⟨ip, hframe, hip, before, hpre, hwidth, hsub⟩ := h.place
  rw [hd, m.frames_getElem?] at hframe
  have hframe : m.frame = a.frame.at ip := Option.some.inj hframe
  obtain ⟨i, next, hi⟩ := hok.exists_holds hstep
  have hproceeds := hok.proceeds hg hi hstep (hd ▸ hd')
  have hheld : ∀ s ∈ body.opened body.sites, m'.held a.frame.base s =
      if i = s.save then m.slot (m.top - 1) else m.held a.frame.base s := by
    intro s hs
    have hkept := hok.held_of_steps hg hi hstep (hd ▸ hd') (s := s)
    rw [hframe] at hkept
    exact hkept (hfits.hasPlace hplace hs)
  obtain ⟨ip', hframe', hip'⟩ := hproceeds.place
  rw [hframe] at hi hframe' hip'
  have hi : a.frame.body.code.Holds ip i next := hi
  have hbindings : body.bindings a (n + 1) = body.bindings a n ++
      (storedAt body.sites ip).toList.map fun s => (s, m.slot (m.top - 1)) := by
    rw [Body.bindings, hrun, Body.noted, if_pos hd.symm, hframe]
    rfl
  have hmem := hcode.mem hip hi
  obtain ⟨hlt, hstop⟩ := hcode.onward hmem hi hip'
  rw [← hd] at hframe'
  -- the instruction is that of a `let`, or it stores nothing
  cases hstored : storedAt body.sites ip with
  | none =>
      have hsets := hfits.sets_eq_false hcode hmem hstored
      have hsame : body.bindings a (n + 1) = body.bindings a n := by
        rw [hbindings, hstored]
        exact List.append_nil _
      refine ⟨⟨ip', hframe', hstop, before, hpre, by omega, hsame ▸ hsub⟩, fun s hs => ?_⟩
      have hne : i ≠ s.save := by
        rintro rfl
        rw [Symbol.sets_save] at hsets
        cases hsets
      rw [hheld s hs, if_neg hne, Body.latest, hsame]
      exact h.held s hs
  | some s₀ =>
      obtain ⟨b, c, hsites, rfl⟩ := exists_of_storedAt hstored
      obtain ⟨next', hsave⟩ :=
        (hsites ▸ hfits.spelt : Spelt _ 0 (b ++ .stores s₀ :: c) _).holds_save
      obtain ⟨rfl, rfl⟩ := hi.unique hsave
      have hs₀ : s₀ ∈ body.opened body.sites := by
        have hbegun := (hfits.stores b s₀ c hsites).1
        rw [Body.opened, hsites, opened_append]
        exact List.mem_append_right _ (List.mem_append_left _ hbegun)
      have hwhole : before <+: b ++ .stores s₀ :: c := hsites ▸ hpre
      have hfront := prefix_of_width_le hwhole hwidth s₀.save.size_pos
      have hle : next ≤ ip' := by
        rcases hip' with rfl | htarget | rfl
        · exact Nat.le_refl _
        · rw [Symbol.target_save] at htarget
          cases htarget
        · exact hi.le_size
      have hmore : body.bindings a (n + 1) = body.bindings a n ++ [(s₀, m.slot (m.top - 1))] := by
        rw [hbindings, hstored]
        rfl
      refine ⟨⟨ip', hframe', hstop, b ++ [.stores s₀], ⟨c, by rw [hsites]; simp⟩, ?_, ?_⟩,
        fun s hs => ?_⟩
      · rw [width_append]
        exact (hi.bounds.1 ▸ Nat.le_refl _ : width b + width [.stores s₀] ≤ next).trans hle
      · rw [hmore, List.map_append, stored_append, ← List.append_assoc]
        refine List.Sublist.append (hsub.trans ?_) (List.Sublist.refl _)
        exact List.Sublist.append (List.Sublist.refl _) (hfront.sublist.filterMap _)
      · rw [hheld s hs, Body.latest_of_append hmore]
        by_cases heq : s₀ = s
        · rw [if_pos heq, if_pos (congrArg Symbol.save heq)]
          rfl
        · have hne : s₀.save ≠ s.save := fun hsame => heq (hfits.save_inj hs₀ hs hsame)
          rw [if_neg heq, if_neg hne]
          exact h.held s hs

theorem Tracks.start (hip : a.frame.ip = 0) (hcode : a.frame.body.code.Forward is) :
    Tracks body is a 0 a := by
  refine ⟨⟨0, ?_, hcode.tiles.start, [], List.nil_prefix, Nat.le_refl _, ?_⟩, fun s hs => ?_⟩
  · rw [a.frames_getElem?, ← hip]
    rfl
  · rw [Body.bindings, List.map_map]
    simp [Function.comp_def]
  · cases hlatest : body.latest a 0 s with
    | none => rfl
    | some v =>
        obtain ⟨⟨s', v'⟩, hlast, rfl⟩ := Option.map_eq_some_iff.1 hlatest
        obtain ⟨hmem, heq⟩ := lastWhere_eq_some hlast
        obtain ⟨s'', -, hpair⟩ := List.mem_map.1 hmem
        cases hpair
        obtain rfl : s' = s := by simpa using heq
        rfl

/-- What every step keeps, a whole run of the activation keeps. -/
theorem Tracks.run (hfits : body.Fits place a.frame.body) (hplace : place = .global ∨ place = .slot)
    (hip : a.frame.ip = 0) (hcode : a.frame.body.code.Forward is)
    (hgood : a.Good st g) (hg : st.Reads g) (hlasts : a.Lasts n) (hrun : a.run n = .running m) :
    Tracks body is a n m := by
  induction n generalizing m with
  | zero =>
      cases hrun
      exact .start hip hcode
  | succ n ih =>
      obtain ⟨m₁, hrun₁, hstep⟩ := exists_steps_of_run hrun
      have hprev := ih (fun k hk => hlasts k (Nat.le_succ_of_le hk)) hrun₁
      obtain ⟨_, hrun', hd'⟩ := hlasts (n + 1) (Nat.le_refl _)
      cases hrun.symm.trans hrun'
      obtain ⟨_, hrun', hd⟩ := hlasts n (Nat.le_succ n)
      cases hrun₁.symm.trans hrun'
      obtain ⟨-, xs, hok⟩ := (hgood.of_reaches hg (reaches_of_run hrun₁)).moves hg hstep
      rcases Nat.lt_or_eq_of_le hd with hlt | heq
      · exact hprev.deeper hfits hplace hrun₁ hok hg hstep hlt hd'
      · exact hprev.here hfits hplace hcode hrun₁ hok hg hstep heq hd'

end Machine

/-! ## Reading an identifier -/

namespace Resolved.Body

variable {body : Body} {a : Machine}

theorem bindings_prefix (body : Body) (a : Machine) (n : Nat) :
    body.bindings a 0 <+: body.bindings a n := by
  induction n with
  | zero => exact List.prefix_refl _
  | succ n ih => exact ih.trans (List.prefix_append _ _)

/-- Parameters are bound from the start. -/
theorem latest_parameter {s : Symbol} (hs : s ∈ body.parameters) (n : Nat) :
    ∃ v, body.latest a n s = some v := by
  have hmem : (s, a.held a.frame.base s) ∈ body.bindings a n :=
    (body.bindings_prefix a n).subset (List.mem_map.2 ⟨s, hs, rfl⟩)
  obtain ⟨e, he⟩ := isSome_lastWhere (p := fun e => e.1 = s) hmem (by simp)
  exact ⟨e.2, by rw [latest, he]; rfl⟩

/-- After `n` steps the activation that begins with `a` evaluates an identifier, from `m` to `m'`.
The identifier stands behind the sites `before` and means `s`. -/
structure Evaluates (body : Body) (a : Machine) (n : Nat) (before : List Site) (s : Symbol)
    (m m' : Machine) : Prop where
  lasts : a.Lasts n
  running : a.run n = .running m
  depth : m.callers.size = a.callers.size
  site : ∃ after, body.sites = before ++ .reads s :: after
  place : m.frame.ip = width before
  steps : m.Steps m'

/-- What an identifier has as its value after `n` steps of an activation. -/
structure Finds (body : Body) (a : Machine) (n : Nat) (before : List Site) (s : Symbol)
    (v : Value) : Prop where
  /-- Its name stands for the binding that begins last in front of it. -/
  last : lastWhere (·.name = s.name) (body.opened before) = some s
  /-- It has the value with which that binding was executed, if it was. -/
  value : v = (body.latest a n s).getD (a.unbound s)
  /-- No binding of the name was executed later, unless by a `let` around that binding. -/
  recent : ∀ w, (s, w) ∈ body.bindings a n →
    (∀ s' ∈ Resolved.opened before, s'.name = s.name → ¬Encloses before s' s) →
    lastWhere (·.1.name = s.name) (body.bindings a n) = some (s, v)

end Resolved.Body

namespace Machine

open Resolved

variable {m m' a m₀ : Machine} {st : Stage} {g : Array Value} {xs : List Value} {body : Body}
  {is : List (Nat × Instruction)} {n : Nat} {place : Storage} {before : List Site} {s : Symbol}

theorem Tracks.finds (h : Tracks body is a n m) (hfits : body.Fits place a.frame.body)
    (hplace : place = .global ∨ place = .slot) (hok : m.Ok st g xs)
    (hunbound : ∀ s ∈ Resolved.opened body.sites, a.held a.frame.base s = a.unbound s)
    (heval : body.Evaluates a n before s m m') :
    (∀ e ∈ body.bindings a n, e.1 ∈ body.opened before) ∧
      ((∃ s' ∈ body.opened before, s'.name = s.name) →
        m'.top = m.top + 1 ∧ body.Finds a n before s (m'.slot m.top)) := by
  obtain ⟨after, hsites⟩ := heval.site
  obtain ⟨ip, hframe, -, front, hpre, hwidth, hlog⟩ := h.place
  rw [← heval.depth, m.frames_getElem?] at hframe
  have hframe : m.frame = a.frame.at ip := Option.some.inj hframe
  have hip : ip = width before := by
    rw [← heval.place, hframe]
    rfl
  have hsize : 0 < (Site.reads s).size := s.load.size_pos
  have hfront : front <+: before := prefix_of_width_le (hsites ▸ hpre) (hip ▸ hwidth) hsize
  have hlog : ((body.bindings a n).map Prod.fst).Sublist (body.parameters ++ stored before) :=
    hlog.trans (List.Sublist.append (List.Sublist.refl _) (hfront.sublist.filterMap _))
  refine ⟨fun e he => ?_, fun ⟨s', hs', hname⟩ => ?_⟩
  · rcases List.mem_append.1 (hlog.subset (List.mem_map_of_mem (f := Prod.fst) he)) with hmem | hmem
    · exact List.mem_append_left _ hmem
    · exact List.mem_append_right _ (hfits.opened_of_stored hsites hmem)
  obtain ⟨s₁, hlast⟩ := isSome_lastWhere (p := fun x => x.name = s.name) hs' (by simpa using hname)
  obtain rfl := hfits.reads before s after hsites s₁ hlast
  have hmem : s ∈ body.opened body.sites := by
    have hbefore := (lastWhere_eq_some hlast).1
    rw [Body.opened, hsites, opened_append, ← List.append_assoc]
    exact List.mem_append_left _ hbefore
  obtain ⟨next, hload⟩ :=
    (hsites ▸ hfits.spelt : Spelt _ 0 (before ++ .reads s :: after) _).holds_load
  have hload : m.frame.body.code.Holds m.frame.ip s.load next := by
    rw [heval.place, hframe]
    exact hload
  have hhas : s.HasPlace m.frame.body.locals := by
    rw [hframe]
    exact hfits.hasPlace hplace hmem
  obtain ⟨htop, hvalue⟩ := hok.loads hload heval.steps hhas
  have hvalue : m'.slot m.top = (body.latest a n s).getD (a.unbound s) := by
    rw [hvalue, hframe, show (a.frame.at ip).base = a.frame.base from rfl, h.held s hmem]
    rcases List.mem_append.1 hmem with hparam | hlet
    · obtain ⟨v, hv⟩ := Body.latest_parameter (a := a) hparam n
      rw [hv]
      rfl
    · rw [hunbound s hlet]
  refine ⟨htop, hlast, hvalue, fun w hw hfree => ?_⟩
  obtain ⟨v, hv⟩ := hfits.recent hsites hlast hlog hw hfree
  have hlatest : body.latest a n s = some v := by
    rw [Body.latest, lastWhere_of_imp hv (fun e he => ?_) (by simp)]
    · rfl
    · rw [decide_eq_true_eq] at he ⊢
      rw [he]
  rw [hv, hvalue, hlatest]
  rfl

theorem Begins.good (h : m₀.Begins a) (hgood : m₀.Good st g) (hg : st.Reads g) : a.Good st g := by
  rcases h with rfl | ⟨m, hreach, hstep, -⟩
  · exact hgood
  · exact (hgood.of_reaches hg hreach).of_steps hg hstep

/-- An activation begins at the start of its code, with nothing bound by its `let`s. -/
theorem Begins.fresh {programs : List Program} (h : m₀.Begins a) (hgood : m₀.Good st g)
    (hg : st.Reads g) (hip : m₀.frame.ip = 0) (hcallers : m₀.callers = #[])
    (hexec : a.Executes programs body) :
    a.frame.ip = 0 ∧ ∃ place, (place = .global ∨ place = .slot) ∧ body.Fits place a.frame.body ∧
      ∀ s ∈ Resolved.opened body.sites, a.held a.frame.base s = a.unbound s := by
  rcases h with rfl | ⟨m, hreach, hstep, hsize⟩
  · rcases hexec.fits with ⟨-, -, hfits⟩ | ⟨hne, -⟩
    · refine ⟨hip, .global, .inl rfl, hfits, fun s hs => ?_⟩
      have hs := hfits.storage s (List.mem_append_right _ hs)
      rw [held_global _ _ hs, unbound, hs]
    · exact absurd hcallers hne
  · rcases hexec.fits with ⟨hnone, -⟩ | ⟨-, hfits⟩
    · rw [hnone] at hsize
      exact absurd hsize (Nat.succ_ne_zero _).symm
    · obtain ⟨-, xs, hok⟩ := (hgood.of_reaches hg hreach).moves hg hstep
      obtain ⟨hstart, hnull⟩ := hok.enters hg hstep hsize
      refine ⟨hstart, .slot, .inr rfl, hfits, fun s hs => ?_⟩
      have hmem : s ∈ body.opened body.sites := List.mem_append_right _ hs
      have hslot := hfits.storage s hmem
      rw [held_slot _ _ hslot, hnull _ (hfits.parameters s hs) (hfits.locals rfl s hmem), unbound,
        hslot]

end Machine

namespace Session

open Resolved

/-! ## Programs on their own -/

/-- The history of a session that runs one program. -/
def alone (p : Program) : History :=
  ({ limits := { stackSize := 16 }, fuel := 30 } : Session).history [.evalProgram p]

/-- What is seen of the evaluation of an identifier, with values as keys. -/
structure Reading where
  waiting : Nat
  offset : Nat
  /-- What the identifier gives. -/
  value : Option Key
  /-- The binding of its name that was executed last, and its value. -/
  latest : Symbol
  bound : Option Key
  deriving DecidableEq

/-- The reading of an identifier after `n` steps. -/
def reading? (body : Body) (name : String) (m₀ : Machine) (n : Nat) : Option Reading :=
  match m₀.run n, m₀.run (n + 1), lastWhere (·.1.name = name) (body.bindings m₀ n) with
  | .running m, .running m', some (s, v) =>
      some ⟨m.callers.size, m.frame.ip, (m'.slot m.top).key?, s, v.key?⟩
  | _, _, _ => none

/-- Whether a run has ended without a fault. -/
def halts : Progress → Bool
  | .halted _ => true
  | _ => false

theorem eq_of_reading? {body : Body} {name : String} {m₀ : Machine} {n : Nat} {r : Reading}
    (h : reading? body name m₀ n = some r) :
    ∃ m m' v, m₀.run n = .running m ∧ m₀.run (n + 1) = .running m' ∧
      lastWhere (·.1.name = name) (body.bindings m₀ n) = some (r.latest, v) ∧
      r.waiting = m.callers.size ∧ r.offset = m.frame.ip ∧ r.value = (m'.slot m.top).key? ∧
      r.bound = v.key? := by
  rw [reading?] at h
  split at h
  · next m m' s v hrun hrun' hlast =>
      cases h
      exact ⟨m, m', v, hrun, hrun', hlast, rfl, rfl, rfl, rfl⟩
  · cases h

theorem eq_halted_of_halts {p : Progress} (h : halts p = true) : ∃ m, p = .halted m := by
  cases p with
  | halted m => exact ⟨m, rfl⟩
  | running | faulted => cases h

/-- What runs at first is the program. -/
theorem executes_alone {p : Program} {m₀ : Machine} {sites : List Site}
    (hm₀ : (alone p).machines[0]? = some m₀)
    (hsites : (Resolved.program p).map stmtsSites = some sites) :
    m₀.callers = #[] ∧ m₀.Executes [p] ⟨[], sites⟩ := by
  have hmem := List.mem_of_getElem? hm₀
  have hcallers : m₀.callers = #[] := by
    obtain ⟨_, _, _, _, _, _, rfl, -⟩ := (history_traced _ _ _ _).machines m₀ hmem
    rfl
  refine ⟨hcallers, ?_⟩
  obtain ⟨body, hexec⟩ := exists_executes _ _ _ _ hmem .refl
  have hsource := hexec
  cases hsource with
  | call hne => exact absurd hcallers hne
  | @program earlier later p' b c rs _ hprograms _ _ hrs =>
      obtain ⟨rfl, rfl⟩ : earlier = [] ∧ p' = p := by
        rcases List.append_eq_singleton_iff.1 hprograms.symm with ⟨rfl, h⟩ | ⟨-, h⟩
        · cases h
          exact ⟨rfl, rfl⟩
        · cases h
      have hresolved : Resolved.program p' = some rs := by
        have hnew : Compiler.builtinSymbols = (Compiler.after []).symbols := rfl
        rw [Resolved.program, hnew, hrs]
        rfl
      rw [hresolved] at hsites
      cases hsites
      exact hexec

/-- A program on its own evaluates an identifier at top level if it is seen to do so. -/
theorem exists_evaluates_alone (p : Program) (before : List Site) (s : Symbol) (after : List Site)
    (n k : Nat) (s' : Symbol) (x y : Option Key)
    (hsites : (Resolved.program p).map stmtsSites = some (before ++ .reads s :: after))
    (heval : (alone p).machines[0]?.map (fun m₀ : Machine =>
      (reading? ⟨[], before ++ .reads s :: after⟩ s.name m₀ n, halts (m₀.run k))) =
      some (some ⟨0, width before, x, s', y⟩, true)) :
    ∃ (m₀ : Machine) (body : Body) (m m' : Machine) (v : Value),
      (alone p).machines[0]? = some m₀ ∧ (∃ last, m₀.run k = .halted last) ∧
      body = ⟨[], before ++ .reads s :: after⟩ ∧ m₀.Executes [p] body ∧
      body.Evaluates m₀ n before s m m' ∧ (m'.slot m.top).key? = x ∧
      lastWhere (·.1.name = s.name) (body.bindings m₀ n) = some (s', v) ∧ v.key? = y := by
  obtain ⟨m₀, hm₀, heval⟩ := Option.map_eq_some_iff.1 heval
  obtain ⟨hreading, hhalts⟩ := Prod.mk.inj heval
  obtain ⟨m, m', v, hrun, hrun', hlast, hsize, hip, hvalue, hbound⟩ := eq_of_reading? hreading
  obtain ⟨hcallers, hexec⟩ := executes_alone hm₀ hsites
  have hdepth : m.callers.size = m₀.callers.size := by
    rw [← hsize, hcallers]
    rfl
  exact ⟨m₀, _, m, m', v, hm₀, eq_halted_of_halts hhalts, rfl, hexec,
    ⟨Machine.lasts_of_running hcallers hrun, hrun, hdepth, ⟨after, rfl⟩, hip.symm,
      Machine.steps_of_run hrun hrun'⟩, hvalue.symm, hlast, hbound.symm⟩

/-! ## Every session -/

/-- Whatever a run of a session executes is a body of the programs that the session was given, and
there an identifier whose name the body binds in front of it stands for the binding that begins last
in front of it. It has the value that this binding was given in the same activation, or null if it
was not executed. -/
theorem history_reads_bindings (limits : Limits) (console : Console) (fuel : Nat)
    (actions : List Action) (m₀ : Machine)
    (hm₀ : m₀ ∈ (({ limits, console, fuel } : Session).history actions).machines) :
    (∀ m, m₀.Reaches m → ∃ body, m.Executes (programsOf actions) body) ∧
      ∀ (a : Machine) (body : Body), m₀.Begins a → a.Executes (programsOf actions) body →
        (∃ p ∈ programsOf actions, ∃ f ∈ p.bodies, body.Spells f) ∧
          ∀ (n : Nat) (before : List Site) (s : Symbol) (m m' : Machine),
            body.Evaluates a n before s m m' →
            (∀ e ∈ body.bindings a n, e.1 ∈ body.opened before) ∧
              ((∃ s' ∈ body.opened before, s'.name = s.name) →
                m'.top = m.top + 1 ∧ body.Finds a n before s (m'.slot m.top)) := by
  refine ⟨fun m hreach => exists_executes limits console fuel actions hm₀ hreach,
    fun a body hbegins hexec => ⟨hexec.spells, fun n before s m m' heval => ?_⟩⟩
  obtain ⟨st, g, hok, hg⟩ := (history_sane limits console fuel actions).starts m₀ hm₀
  obtain ⟨_, b, _, _, _, _, rfl, -⟩ := (history_traced limits console fuel actions).machines m₀ hm₀
  have hgood : Machine.Good st g _ := .inl ⟨[], hok⟩
  obtain ⟨hip, place, hplace, hfits, hunbound⟩ := hbegins.fresh hgood hg rfl rfl hexec
  have hgood' := hbegins.good hgood hg
  obtain ⟨is, hcode⟩ := hfits.listing
  have htracks := Machine.Tracks.run hfits hplace hip hcode hgood' hg heval.lasts heval.running
  obtain ⟨-, xs, hok'⟩ :=
    (hgood'.of_reaches hg (Machine.reaches_of_run heval.running)).moves hg heval.steps
  exact htracks.finds hfits hplace hok' hunbound heval

/-- A name is bound at top level and bound again in a branch. -/
def rebound (taken : Bool) : Program :=
  [.bind "x" (.int 1), .expr (.cond (.bool taken) [.bind "x" (.int 2)] none), .expr (.ident "x")]

/-- The sites of the program in front of the last identifier. -/
def reboundSites (taken : Bool) : List Site :=
  [.opens ⟨"x", .global, 0⟩, .works .constant, .stores ⟨"x", .global, 0⟩,
    .works (if taken then .pushTrue else .pushFalse), .works .jumpUnless,
    .opens ⟨"x", .global, 1⟩, .works .constant, .stores ⟨"x", .global, 1⟩, .works .pushNull,
    .works .jump, .works .pushNull, .works .pop]

/-- Where the branch is taken, the identifier has the value of the `let` in it. -/
theorem history_reads_bindings_rebound :
    ∃ (m₀ : Machine) (body : Body) (before : List Site) (s : Symbol) (m m' : Machine),
      (alone (rebound true)).machines[0]? = some m₀ ∧ m₀.Executes [rebound true] body ∧
      body.Evaluates m₀ 9 before s m m' ∧ (m'.slot m.top).key? = some (.int 2) ∧
      body.Finds m₀ 9 before s (m'.slot m.top) ∧
      lastWhere (·.1.name = s.name) (body.bindings m₀ 9) = some (s, m'.slot m.top) := by
  obtain ⟨m₀, body, m, m', v, hm₀, -, rfl, hexec, heval, hkey, hlast, -⟩ :=
    exists_evaluates_alone (rebound true) (reboundSites true) ⟨"x", .global, 1⟩ [.works .pop] 9 12
      ⟨"x", .global, 1⟩ (some (.int 2)) (some (.int 2)) (by decide +kernel) (by decide +kernel)
  obtain ⟨-, hreads⟩ := history_reads_bindings _ _ _ _ m₀ (List.mem_of_getElem? hm₀)
  obtain ⟨-, hreads⟩ := hreads m₀ _ (.inl rfl) hexec
  obtain ⟨-, hfinds⟩ := (hreads 9 _ _ m m' heval).2 ⟨⟨"x", .global, 1⟩, by decide +kernel, rfl⟩
  exact ⟨m₀, _, _, _, m, m', hm₀, hexec, heval, hkey, hfinds,
    hfinds.recent v (lastWhere_eq_some hlast).1 (by decide +kernel)⟩

/-- A name is bound in the initializer of a `let` of the same name. -/
def boundWithin : Program :=
  [.bind "x" (.cond (.bool true) [.bind "x" (.int 5), .expr (.int 1)] (some [.expr (.int 2)])),
    .expr (.ident "x")]

/-- The sites of the program in front of the identifier. -/
def boundWithinSites : List Site :=
  [.opens ⟨"x", .global, 0⟩, .works .pushTrue, .works .jumpUnless, .opens ⟨"x", .global, 1⟩,
    .works .constant, .stores ⟨"x", .global, 1⟩, .works .constant, .works .jump, .works .constant,
    .stores ⟨"x", .global, 0⟩]

/-- On its own the program runs to its end, and on the way an identifier at top level, outside of
the `let`s of its name, has another value than the binding of the name that was executed last. -/
def Strays (p : Program) : Prop :=
  ∃ (m₀ : Machine) (body : Body) (n : Nat) (before : List Site) (s : Symbol) (m m' : Machine)
    (s' : Symbol) (v : Value),
    (alone p).machines[0]? = some m₀ ∧ (∃ k m, m₀.run k = .halted m) ∧ m₀.Executes [p] body ∧
    body.Evaluates m₀ n before s m m' ∧
    (∀ s' ∈ Resolved.opened before, s'.name = s.name → s' ∈ stored before) ∧
    lastWhere (·.1.name = s.name) (body.bindings m₀ n) = some (s', v) ∧ m'.slot m.top ≠ v

/-- An identifier need not have the value of the binding of its name that was executed last. The
`let` of a branch that is not taken begins in front of it all the same, and a `let` in the
initializer of another one begins later than that one. -/
theorem not_reads_last_executed : Strays (rebound false) ∧ Strays boundWithin := by
  refine ⟨?_, ?_⟩
  · obtain ⟨m₀, body, m, m', v, hm₀, hhalts, rfl, hexec, heval, hkey, hlast, hbound⟩ :=
      exists_evaluates_alone (rebound false) (reboundSites false) ⟨"x", .global, 1⟩ [.works .pop]
        6 9 ⟨"x", .global, 0⟩ none (some (.int 1)) (by decide +kernel) (by decide +kernel)
    refine ⟨m₀, _, 6, _, _, m, m', _, v, hm₀, ⟨9, hhalts⟩, hexec, heval, by decide +kernel, hlast,
      fun heq => ?_⟩
    rw [heq, hbound] at hkey
    cases hkey
  · obtain ⟨m₀, body, m, m', v, hm₀, hhalts, rfl, hexec, heval, hkey, hlast, hbound⟩ :=
      exists_evaluates_alone boundWithin boundWithinSites ⟨"x", .global, 1⟩ [.works .pop] 7 10
        ⟨"x", .global, 0⟩ (some (.int 5)) (some (.int 1)) (by decide +kernel) (by decide +kernel)
    refine ⟨m₀, _, 7, _, _, m, m', _, v, hm₀, ⟨10, hhalts⟩, hexec, heval, by decide +kernel, hlast,
      fun heq => ?_⟩
    rw [heq, hbound] at hkey
    cases hkey

end Session

end Monkey
