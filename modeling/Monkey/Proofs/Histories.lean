import Monkey.Proofs.Compiled
import Monkey.Proofs.Runs
import Monkey.Session

/-!
# Histories of a session

A session compiles and runs programs in any order, and a program that was compiled once can be run
at any later time. Closures stay in the globals between the runs, and their code refers to the pool
of whichever program is running. A program with an older and shorter pool must therefore never come
upon a closure of a newer one.

It never does, because a program stores only to globals that it defined itself, and older programs
cannot read those. `Precedes` is this order on programs. Every session keeps a list of stages, one
for each accepted program, that are ordered by it and can all still read the globals, so each of
them runs safely whenever it is run.
-/

namespace Monkey

namespace Stage

/-- An older program beside a newer one: the newer one has at least its pool, and defines globals
beyond those that the older one reads. -/
structure Precedes (st st' : Stage) : Prop where
  pool : PoolLe st.bytecode.constants st'.bytecode.constants
  apart : st.globals ≤ st'.own
  own_le : st'.own ≤ st'.globals

theorem Precedes.trans {st st' st'' : Stage} (h : st.Precedes st') (h' : st'.Precedes st'') :
    st.Precedes st'' :=
  ⟨h.pool.trans h'.pool, h.apart.trans (h.own_le.trans h'.apart), h'.own_le⟩

theorem Precedes.before {st st' : Stage} (h : st.Precedes st') : st.Before st' ∧ st'.Before st :=
  ⟨.inl ⟨h.pool, h.apart.trans h.own_le⟩, .inr h.apart⟩

/-- In an ordered list of programs, none disturbs what another one reads. -/
theorem before_of_pairwise {stages : List Stage}
    (h : stages.Pairwise fun newer older => older.Precedes newer) {st st' : Stage}
    (hst : st ∈ stages) (hst' : st' ∈ stages) : st.Before st' := by
  have hdown : stages.Pairwise Before := h.imp fun hprec => hprec.before.2
  have hup : stages.Pairwise (flip Before) := h.imp fun hprec => hprec.before.1
  exact List.Pairwise.forall_of_forall_of_flip (fun a _ => .refl a) hdown hup hst hst'

end Stage

namespace Compiler

/-- What the next program will find: the pool and the globals so far. -/
def horizon (c : Compiler) : Stage :=
  ⟨⟨#[], c.constants⟩, c.globals, c.globals⟩

end Compiler

namespace Session

/-- The machine with which a program starts in a session. -/
def machine (s : Session) (b : Bytecode) : Machine :=
  .start s.limits b s.globals s.issued s.console 0

/-- The session with another stream left in its compiler, which nothing reads. -/
def withCode (s : Session) (code : Code) : Session :=
  { s with compiler := { s.compiler with code } }

/-- A session whose accepted programs are `stages`, the newest first. -/
structure Ready (s : Session) (stages : List Stage) : Prop where
  compiler : s.compiler.Wf
  size : s.globals.size ≤ s.compiler.globals
  reads : ∀ st ∈ s.compiler.horizon :: stages, st.Reads s.globals
  order : (s.compiler.horizon :: stages).Pairwise fun newer older => older.Precedes newer
  safe : ∀ st ∈ stages, Safe st.bytecode.constants st.room st.bytecode.code 0 0

variable {s : Session} {stages : List Stage} {st : Stage}

theorem ready_of_new {limits : Limits} {console : Console} {fuel : Nat} :
    ({ limits, console, fuel } : Session).Ready [] := by
  refine ⟨Compiler.new_wf, Nat.zero_le _, fun st _ i v _ hv => ?_, List.pairwise_singleton _ _,
    nofun⟩
  rw [Array.getElem?_empty] at hv
  cases hv

/-- A program of the session starts as the invariant of the machine demands, whatever the limits. -/
theorem Ready.start_ok (h : s.Ready stages) (hst : st ∈ stages) (limits : Limits)
    (issued self : Identity) (console : Console) :
    (Machine.start limits st.bytecode s.globals issued console self).Ok st s.globals [] ∧
      st.Reads s.globals :=
  ⟨Machine.start_ok (h.safe st hst) _ _ _ _ _, h.reads st (List.mem_cons_of_mem _ hst)⟩

/-! ## What the steps of a session keep -/

/-- A run, however it ends, leaves globals that every program can still read. -/
theorem Ready.run (h : s.Ready stages) (hst : st ∈ stages) :
    (s.run st.bytecode).2.Ready stages := by
  obtain ⟨hok, hreads⟩ := h.start_ok hst s.limits s.issued 0 s.console
  have hkept := Machine.Good.run_kept (.inl ⟨_, hok⟩) hreads s.fuel
  have hst' : st ∈ s.compiler.horizon :: stages := List.mem_cons_of_mem _ hst
  have hprec := (List.pairwise_cons.1 h.order).1 st hst
  refine ⟨h.compiler, ?_, fun st' hmem => ?_, h.order, h.safe⟩
  · have hsize := hkept.size
    have hold := h.size
    have hst_le : st.globals ≤ s.compiler.globals := hprec.apart
    exact hsize.trans (Nat.max_le.2 ⟨hold, hst_le⟩)
  · exact hkept.reads (Stage.before_of_pairwise h.order hst' hmem) (h.reads st' hmem)

theorem Ready.accept {p : Program} {b : Bytecode} {c : Compiler} (h : s.Ready stages)
    (hc : s.compiler.compile p = (.ok b, c)) :
    { s with compiler := c }.Ready (⟨b, s.compiler.globals, c.globals⟩ :: stages) := by
  have hacc := Compiler.compile_eq_ok h.compiler hc
  have hK : b.constants = c.constants := by
    rw [hacc.bytecode]
    rfl
  obtain ⟨hold, hpairs⟩ := List.pairwise_cons.1 h.order
  have hnewest : ∀ st ∈ stages, st.Precedes ⟨b, s.compiler.globals, c.globals⟩ := by
    intro st hst
    have hprec := hold st hst
    refine ⟨hprec.pool.trans ?_, hprec.apart, hacc.globals_le⟩
    rw [hK]
    exact hacc.pool
  have hnow : Stage.Precedes ⟨b, s.compiler.globals, c.globals⟩ c.horizon := by
    refine ⟨?_, Nat.le_refl _, Nat.le_refl _⟩
    rw [hK]
    exact .refl _
  -- The new globals are not stored yet, and what is stored was sound for the smaller pool.
  have hreads : c.horizon.Reads s.globals := by
    intro i v _ hv
    have hi : i < s.compiler.globals :=
      Nat.lt_of_lt_of_le (Array.getElem?_eq_some_iff.1 hv).1 h.size
    exact (h.reads _ List.mem_cons_self i v hi hv).mono hacc.pool hacc.globals_le
  refine ⟨hacc.wf, h.size.trans hacc.globals_le, ?_, ?_, ?_⟩
  · refine List.forall_mem_cons.2 ⟨hreads, List.forall_mem_cons.2 ⟨?_, ?_⟩⟩
    · intro i v hi hv
      have hv' := hreads i v hi hv
      show Sound b.constants c.globals v
      rw [hK]
      exact hv'
    · exact fun st hst => h.reads st (List.mem_cons_of_mem _ hst)
  · refine List.pairwise_cons.2 ⟨?_, List.pairwise_cons.2 ⟨hnewest, hpairs⟩⟩
    exact List.forall_mem_cons.2 ⟨hnow, fun st hst => (hnewest st hst).trans hnow⟩
  · refine List.forall_mem_cons.2 ⟨?_, h.safe⟩
    obtain ⟨rs, -, hlaid⟩ := hacc.laid
    exact hlaid.safe trivial fun _ => .finish rfl rfl

theorem Ready.refuse {p : Program} {e : CompileError} {c : Compiler} (h : s.Ready stages)
    (hc : s.compiler.compile p = (.error e, c)) : { s with compiler := c }.Ready stages := by
  rw [Compiler.compile_eq_error h.compiler.top hc]
  exact ⟨⟨h.compiler.symbols, h.compiler.top, h.compiler.templates⟩, h.size, h.reads, h.order,
    h.safe⟩

theorem Ready.compile (h : s.Ready stages) (p : Program) :
    ∃ stages', (s.compile p).2.Ready stages' ∧ stages ⊆ stages' ∧
      ∀ b, (s.compile p).1 = .ok b → ∃ st ∈ stages', st.bytecode = b := by
  rcases hc : s.compiler.compile p with ⟨e | b, c⟩
  · have heq : s.compile p = (.error (.compiler e), { s with compiler := c }) := by
      rw [Session.compile, hc]
      rfl
    rw [heq]
    exact ⟨stages, h.refuse hc, List.Subset.refl _, nofun⟩
  · have heq : s.compile p = (.ok b, { s with compiler := c }) := by
      rw [Session.compile, hc]
      rfl
    rw [heq]
    refine ⟨_, h.accept hc, List.subset_cons_self _ _, fun b' hb => ?_⟩
    injection hb with hb
    exact ⟨_, List.mem_cons_self, hb⟩

/-! ## Histories -/

/-- What can be done in a session. `run k` runs the program that the `k`-th successful `compile`
returned. -/
inductive Action where
  | eval (source : String)
  | evalProgram (p : Program)
  | compile (p : Program)
  | run (k : Nat)

/-- A session with the programs that it returned, the machines that it started and the results of
all evaluations and runs. -/
structure History where
  session : Session
  programs : List Bytecode := []
  machines : List Machine := []
  results : List (Except Error Value) := []

/-- The machine that the evaluation of a program starts, if the program is accepted. -/
def started (s : Session) (p : Program) : List Machine :=
  match s.compile p with
  | (.ok b, s) => [s.machine b]
  | (.error _, _) => []

/-- Does one thing more. A program that was never returned cannot be run. -/
def History.perform (h : History) : Action → History
  | .eval source =>
      { h with
        session := (h.session.eval source).2
        machines := h.machines ++ match Program.parse source with
          | .ok p => h.session.started p
          | .error _ => []
        results := h.results ++ [(h.session.eval source).1] }
  | .evalProgram p =>
      { h with
        session := (h.session.evalProgram p).2
        machines := h.machines ++ h.session.started p
        results := h.results ++ [(h.session.evalProgram p).1] }
  | .compile p =>
      { h with
        session := (h.session.compile p).2
        programs := h.programs ++ (h.session.compile p).1.toOption.toList }
  | .run k =>
      match h.programs[k]? with
      | some b =>
          { h with
            session := (h.session.run b).2
            machines := h.machines ++ [h.session.machine b]
            results := h.results ++ [(h.session.run b).1] }
      | none => h

/-- What a session has come to after some actions. -/
def history (s : Session) (actions : List Action) : History :=
  actions.foldl .perform { session := s }

/-- Not the error of a run of malformed code. -/
def Unbroken (result : Except Error Value) : Prop :=
  ∀ f, result = .error (.runtime f) → f.structural = false

/-- The invariant of a history. -/
structure History.Sane (h : History) : Prop where
  ready : ∃ stages, h.session.Ready stages ∧ ∀ b ∈ h.programs, ∃ st ∈ stages, st.bytecode = b
  starts : ∀ m ∈ h.machines, m.Starts
  results : ∀ r ∈ h.results, Unbroken r

theorem History.Sane.machines {h : History} (hsane : h.Sane) : ∀ m ∈ h.machines, m.RunsSafely := by
  intro m hm
  obtain ⟨st, g, hok, hreads⟩ := hsane.starts m hm
  exact hok.runsSafely hreads

/-- The machine of a run, and what the session reports of it. -/
theorem Ready.runs (h : s.Ready stages) (hst : st ∈ stages) :
    (s.machine st.bytecode).Starts ∧ Unbroken (s.run st.bytecode).1 := by
  obtain ⟨hok, hreads⟩ := h.start_ok hst s.limits s.issued 0 s.console
  have hsafe : (s.machine st.bytecode).RunsSafely := hok.runsSafely hreads
  refine ⟨⟨st, _, hok, hreads⟩, fun f hf => ?_⟩
  have hresult : resultOf ((s.machine st.bytecode).run s.fuel) = .error (.runtime f) := hf
  cases hrun : (s.machine st.bytecode).run s.fuel with
  | running m | halted m =>
      rw [hrun] at hresult
      cases hresult
  | faulted f' m =>
      rw [hrun] at hresult
      cases hresult
      exact hsafe.faults _ _ _ hrun

theorem compile_eq_error {s' : Session} {p : Program} {e : Error}
    (h : s.compile p = (.error e, s')) : ∃ e', e = .compiler e' := by
  rw [Session.compile] at h
  rcases hc : s.compiler.compile p with ⟨e' | b, c⟩ <;> rw [hc] at h <;> cases h
  exact ⟨e', rfl⟩

/-- An evaluation is a compilation and, if the program is accepted, a run. -/
theorem Ready.evalProgram (h : s.Ready stages) (p : Program) :
    (∃ stages', (s.evalProgram p).2.Ready stages' ∧ stages ⊆ stages') ∧
      (∀ m ∈ s.started p, m.Starts) ∧ Unbroken (s.evalProgram p).1 := by
  obtain ⟨stages', hready, hsub, hmem⟩ := h.compile p
  rw [Session.evalProgram, started]
  rcases hc : s.compile p with ⟨e | b, s'⟩
  · rw [hc] at hready
    obtain ⟨e', rfl⟩ := compile_eq_error hc
    refine ⟨⟨stages', hready, hsub⟩, List.forall_mem_nil _, fun f hf => ?_⟩
    injection hf with hf
    cases hf
  · rw [hc] at hready hmem
    obtain ⟨st, hst, rfl⟩ := hmem b rfl
    obtain ⟨hstarts, hresult⟩ := hready.runs hst
    exact ⟨⟨stages', hready.run hst, hsub⟩, List.forall_mem_singleton.2 hstarts, hresult⟩

theorem History.Sane.evalProgram {h : History} (hsane : h.Sane) (p : Program) :
    (h.perform (.evalProgram p)).Sane := by
  obtain ⟨⟨stages, hready, hprograms⟩, hstarts, hresults⟩ := hsane
  obtain ⟨⟨stages', hready', hsub⟩, hstarted, hresult⟩ := hready.evalProgram p
  refine ⟨⟨stages', hready', fun b hb => ?_⟩, List.forall_mem_append.2 ⟨hstarts, hstarted⟩,
    List.forall_mem_append.2 ⟨hresults, List.forall_mem_singleton.2 hresult⟩⟩
  obtain ⟨st, hst, heq⟩ := hprograms b hb
  exact ⟨st, hsub hst, heq⟩

theorem parse_unbroken {source : String} {e : Error} (h : Program.parse source = .error e) :
    Unbroken (.error e) := by
  intro f hf
  injection hf with hf
  subst hf
  rw [Program.parse] at h
  split at h
  · cases h
  · split at h <;> cases h

theorem History.Sane.eval {h : History} (hsane : h.Sane) (source : String) :
    (h.perform (.eval source)).Sane := by
  cases hp : Program.parse source with
  | ok p =>
      have heq : h.perform (.eval source) = h.perform (.evalProgram p) := by
        rw [perform, perform, Session.eval, hp]
      rw [heq]
      exact hsane.evalProgram p
  | error e =>
      have heq : h.perform (.eval source) = { h with results := h.results ++ [.error e] } := by
        rw [perform, Session.eval, hp]
        show ({ h with machines := h.machines ++ [], results := _ } : History) = _
        rw [List.append_nil]
      rw [heq]
      exact ⟨hsane.ready, hsane.starts, List.forall_mem_append.2
        ⟨hsane.results, List.forall_mem_singleton.2 (parse_unbroken hp)⟩⟩

theorem History.Sane.compile {h : History} (hsane : h.Sane) (p : Program) :
    (h.perform (.compile p)).Sane := by
  obtain ⟨⟨stages, hready, hprograms⟩, hstarts, hresults⟩ := hsane
  obtain ⟨stages', hready', hsub, hnew⟩ := hready.compile p
  refine ⟨⟨stages', hready', List.forall_mem_append.2 ⟨fun b hb => ?_, fun b hb => ?_⟩⟩,
    hstarts, hresults⟩
  · obtain ⟨st, hst, heq⟩ := hprograms b hb
    exact ⟨st, hsub hst, heq⟩
  · refine hnew b ?_
    cases hc : (h.session.compile p).1 with
    | ok b' =>
        rw [hc] at hb
        rw [List.mem_singleton.1 hb]
    | error e =>
        rw [hc] at hb
        cases hb

theorem History.Sane.run {h : History} (hsane : h.Sane) (k : Nat) :
    (h.perform (.run k)).Sane := by
  rw [perform]
  split
  · next b hb =>
      obtain ⟨⟨stages, hready, hprograms⟩, hstarts, hresults⟩ := hsane
      obtain ⟨st, hst, rfl⟩ := hprograms b (List.mem_of_getElem? hb)
      obtain ⟨hstart, hresult⟩ := hready.runs hst
      exact ⟨⟨stages, hready.run hst, hprograms⟩,
        List.forall_mem_append.2 ⟨hstarts, List.forall_mem_singleton.2 hstart⟩,
        List.forall_mem_append.2 ⟨hresults, List.forall_mem_singleton.2 hresult⟩⟩
  · exact hsane

theorem History.Sane.perform {h : History} (hsane : h.Sane) (action : Action) :
    (h.perform action).Sane := by
  cases action with
  | eval source => exact hsane.eval source
  | evalProgram p => exact hsane.evalProgram p
  | compile p => exact hsane.compile p
  | run k => exact hsane.run k

theorem history_sane (limits : Limits) (console : Console) (fuel : Nat) (actions : List Action) :
    (({ limits, console, fuel } : Session).history actions).Sane := by
  have hall : ∀ h : History, h.Sane → (actions.foldl .perform h).Sane := by
    induction actions with
    | nil => exact fun _ hsane => hsane
    | cons action actions ih => exact fun h hsane => ih _ (hsane.perform action)
  exact hall _ ⟨⟨[], ready_of_new, List.forall_mem_nil _⟩, List.forall_mem_nil _,
    List.forall_mem_nil _⟩

/-- No program of a session ever fails because of its code: whatever was done before, the machine
that runs it neither takes a value that is not there nor leaves its stack, only the top level ends
its stream, and no result that the session reports is a fault of malformed code. -/
theorem history_runsSafely (limits : Limits) (console : Console) (fuel : Nat)
    (actions : List Action) :
    (∀ m ∈ (({ limits, console, fuel } : Session).history actions).machines, m.RunsSafely) ∧
      ∀ r ∈ (({ limits, console, fuel } : Session).history actions).results, ∀ f,
        r = .error (.runtime f) → f.structural = false := by
  have hsane := history_sane limits console fuel actions
  exact ⟨hsane.machines, hsane.results⟩

/-- A saved program is run after one that calls its function, one that was refused and one that
fails. -/
def savedSample : List Action :=
  [.compile [.bind "f" (.function ["x"] [.expr (.ident "x")] (some "f"))],
    .evalProgram [.bind "g" (.function [] [.expr (.call (.ident "f") [.int 1])] (some "g"))],
    .compile [.expr (.ident "h")],
    .evalProgram [.expr (.call (.ident "g") [])],
    .run 0]

/-- The fault that a result reports. -/
def faultOf? : Except Error Value → Option Fault
  | .error (.runtime f) => some f
  | _ => none

theorem eq_of_isSome_faultOf? {r : Except Error Value} (h : (faultOf? r).isSome = true) :
    ∃ f, r = .error (.runtime f) := by
  cases r with
  | ok v => cases h
  | error e =>
      cases e with
      | runtime f => exact ⟨f, rfl⟩
      | lexer | parser | compiler | unfinished => cases h

theorem history_runsSafely_savedSample :
    ∃ (m : Machine) (r : Except Error Value) (f : Fault),
      (({ fuel := 1000 } : Session).history savedSample).machines[2]? = some m ∧
      (({ fuel := 1000 } : Session).history savedSample).results[1]? = some r ∧
      r = .error (.runtime f) ∧ m.RunsSafely ∧ f.structural = false := by
  have heval : ((({ fuel := 1000 } : Session).history savedSample).machines.length,
      (({ fuel := 1000 } : Session).history savedSample).results[1]?.map fun r =>
        (faultOf? r).isSome) = (3, some true) := by
    decide +kernel
  obtain ⟨hlen, hr⟩ := Prod.mk.inj heval
  obtain ⟨r, hr, hf⟩ := Option.map_eq_some_iff.1 hr
  have hm := List.getElem?_eq_getElem (hlen ▸ Nat.lt_succ_self 2 :
    2 < (({ fuel := 1000 } : Session).history savedSample).machines.length)
  obtain ⟨hsafe, hresult⟩ := history_runsSafely {} {} 1000 savedSample
  obtain ⟨f, rfl⟩ := eq_of_isSome_faultOf? hf
  exact ⟨_, _, f, hm, hr, rfl, hsafe _ (List.mem_of_getElem? hm),
    hresult _ (List.mem_of_getElem? hr) f rfl⟩

end Session

end Monkey
