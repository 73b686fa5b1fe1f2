import Monkey.Proofs.Histories

/-!
# Refused inputs leave no trace

A text that cannot be read and a program that is not accepted are refused, and the session goes on
as if they had never been given. What a refused compilation did on its way, to names, captures and
the pool, is taken back, as long as no body is open between two inputs. So the invariant of
histories is needed here.

The transcript of a session has one entry for each action: what was answered, the globals after it,
and what it printed. Take the actions of some of the refused entries away and perform the others
alone: the transcript is the rest of the old one. The only thing a refusal does change is the
stream that the compiler last produced, and no action reads that: `History.Like` relates histories
that differ in it at most, as sessions do that `withCode` makes.
-/

namespace Monkey

/-- The text was not read, or the program not accepted. -/
def Error.refuses : Error → Bool
  | .lexer _ | .parser _ | .compiler _ => true
  | .runtime _ | .unfinished => false

namespace Session

/-- What an action answers. -/
inductive Outcome where
  | value (result : Except Error Value)
  | bytecode (result : Except Error Bytecode)
  /-- There was no such program to run. -/
  | missing

/-- The answer is that the input is refused. -/
def Outcome.refused : Outcome → Bool
  | .value (.error e) | .bytecode (.error e) => e.refuses
  | _ => false

/-- What is seen of an action. -/
structure Entry where
  action : Action
  outcome : Outcome
  globals : Array Value
  /-- What the action printed. -/
  output : String

namespace History

/-- The history with the output taken that is there. -/
def quiet (h : History) : History :=
  { h with session := h.session.takeOutput.2 }

def outcome (h : History) : Action → Outcome
  | .eval source => .value (h.session.eval source).1
  | .evalProgram p => .value (h.session.evalProgram p).1
  | .compile p => .bytecode (h.session.compile p).1
  | .run k =>
      match h.programs[k]? with
      | some b => .value (h.session.run b).1
      | none => .missing

/-- The history after an action, which starts with no output. -/
def next (h : History) (action : Action) : History :=
  h.quiet.perform action

def entry (h : History) (action : Action) : Entry where
  action
  outcome := h.quiet.outcome action
  globals := (h.next action).session.globals
  output := (h.next action).session.console.written

/-- The entries of some actions in a row. -/
def transcript : History → List Action → List Entry
  | _, [] => []
  | h, action :: actions => h.entry action :: (h.next action).transcript actions

end History

/-! ## What an action depends on -/

/-- The same history, but for the stream left in the compiler. -/
structure History.Like (h h' : History) : Prop where
  session : ∃ code, h'.session = h.session.withCode code
  programs : h'.programs = h.programs

theorem compile_withCode (s : Session) (code : Code) (p : Program) :
    (s.withCode code).compile p = s.compile p :=
  rfl

theorem evalProgram_withCode (s : Session) (code : Code) (p : Program) :
    (s.withCode code).evalProgram p = s.evalProgram p := by
  rw [evalProgram, evalProgram, compile_withCode]

theorem run_withCode (s : Session) (code : Code) (b : Bytecode) :
    (s.withCode code).run b = ((s.run b).1, (s.run b).2.withCode code) :=
  rfl

theorem eval_withCode (s : Session) (code : Code) (source : String) :
    ((s.withCode code).eval source).1 = (s.eval source).1 ∧
      ∃ code', ((s.withCode code).eval source).2 = (s.eval source).2.withCode code' := by
  rw [eval, eval]
  cases Program.parse source with
  | ok p =>
      dsimp only
      rw [evalProgram_withCode]
      exact ⟨rfl, _, rfl⟩
  | error e => exact ⟨rfl, code, rfl⟩

/-- A compilation that is refused. -/
theorem compile_refused {s s' : Session} {p : Program} {e : Error}
    (htop : s.compiler.symbols.outer = []) (h : s.compile p = (.error e, s')) :
    s' = s.withCode #[] := by
  rw [compile] at h
  rcases hc : s.compiler.compile p with ⟨e' | b, c⟩ <;> rw [hc] at h <;> cases h
  rw [Compiler.compile_eq_error htop hc]
  rfl

/-- A run may fail, but nothing is refused any more. -/
theorem refused_run (s : Session) (b : Bytecode) :
    (Outcome.value (s.run b).1).refused = false := by
  show (Outcome.value (resultOf _)).refused = false
  cases Machine.run s.fuel (.start s.limits b s.globals s.issued s.console 0) <;> rfl

theorem evalProgram_refused {s : Session} {p : Program} (htop : s.compiler.symbols.outer = [])
    (h : (Outcome.value (s.evalProgram p).1).refused = true) :
    (s.evalProgram p).2 = s.withCode #[] := by
  rw [evalProgram] at h ⊢
  rcases hc : s.compile p with ⟨e | b, s'⟩ <;> rw [hc] at h
  · exact compile_refused htop hc
  · dsimp only at h
    rw [refused_run] at h
    cases h

namespace History

variable {h h' : History}

theorem Like.quiet (hlike : h.Like h') : h.quiet.Like h'.quiet := by
  obtain ⟨⟨code, hsession⟩, hprograms⟩ := hlike
  refine ⟨⟨code, ?_⟩, hprograms⟩
  rw [History.quiet, History.quiet, hsession]
  rfl

theorem Like.perform (hlike : h.Like h') (action : Action) :
    h'.outcome action = h.outcome action ∧ (h.perform action).Like (h'.perform action) := by
  obtain ⟨⟨code, hsession⟩, hprograms⟩ := hlike
  cases action with
  | eval source =>
      obtain ⟨hresult, code', hstate⟩ := eval_withCode h.session code source
      rw [← hsession] at hresult hstate
      exact ⟨congrArg Outcome.value hresult, ⟨code', hstate⟩, hprograms⟩
  | evalProgram p =>
      have heq := evalProgram_withCode h.session code p
      rw [← hsession] at heq
      exact ⟨congrArg (Outcome.value ∘ Prod.fst) heq, ⟨_, congrArg Prod.snd heq⟩, hprograms⟩
  | compile p =>
      have heq := compile_withCode h.session code p
      rw [← hsession] at heq
      refine ⟨congrArg (Outcome.bytecode ∘ Prod.fst) heq, ⟨_, congrArg Prod.snd heq⟩, ?_⟩
      rw [History.perform, History.perform, heq, hprograms]
  | run k =>
      rw [outcome, outcome, History.perform, History.perform, hprograms]
      cases h.programs[k]? with
      | none => exact ⟨rfl, ⟨code, hsession⟩, hprograms⟩
      | some b =>
          have heq := run_withCode h.session code b
          rw [← hsession] at heq
          exact ⟨congrArg (fun r => Outcome.value r.1) heq, ⟨code, congrArg Prod.snd heq⟩, rfl⟩

theorem Like.entry (hlike : h.Like h') (action : Action) : h'.entry action = h.entry action := by
  obtain ⟨houtcome, ⟨code, hsession⟩, -⟩ := hlike.quiet.perform action
  rw [History.entry, History.entry, houtcome, next, next, hsession]
  rfl

theorem Like.transcript (hlike : h.Like h') (actions : List Action) :
    h'.transcript actions = h.transcript actions := by
  induction actions generalizing h h' with
  | nil => rfl
  | cons action actions ih =>
      have hnext : (h.next action).Like (h'.next action) := (hlike.quiet.perform action).2
      rw [History.transcript, History.transcript, hlike.entry, ih hnext]

/-- No body is open between two actions. -/
theorem Sane.top (hsane : h.Sane) : h.session.compiler.symbols.outer = [] := by
  obtain ⟨stages, hready, -⟩ := hsane.ready
  exact hready.compiler.top

theorem Sane.quiet (hsane : h.Sane) : h.quiet.Sane := by
  obtain ⟨⟨stages, hready, hprograms⟩, hstarts, hresults⟩ := hsane
  exact ⟨⟨stages, ⟨hready.compiler, hready.size, hready.reads, hready.order, hready.safe⟩,
    hprograms⟩, hstarts, hresults⟩

/-- A refused action changes nothing but the stream left in the compiler. -/
theorem like_of_refused {action : Action} (hsane : h.Sane)
    (hrefused : (h.outcome action).refused = true) : h.Like (h.perform action) := by
  cases action with
  | eval source =>
      rw [outcome, eval] at hrefused
      rw [History.perform, eval]
      cases hp : Program.parse source with
      | ok p =>
          rw [hp] at hrefused
          exact ⟨⟨#[], evalProgram_refused hsane.top hrefused⟩, rfl⟩
      | error e => exact ⟨⟨h.session.compiler.code, rfl⟩, rfl⟩
  | evalProgram p => exact ⟨⟨#[], evalProgram_refused hsane.top hrefused⟩, rfl⟩
  | compile p =>
      rw [outcome] at hrefused
      rw [History.perform]
      rcases hc : h.session.compile p with ⟨e | b, s'⟩
      · exact ⟨⟨#[], compile_refused hsane.top hc⟩, List.append_nil _⟩
      · rw [hc] at hrefused
        cases hrefused
  | run k =>
      rw [outcome] at hrefused
      split at hrefused
      · rw [refused_run] at hrefused
        cases hrefused
      · cases hrefused

theorem transcript_quiet (h : History) (actions : List Action) :
    h.quiet.transcript actions = h.transcript actions := by
  cases actions <;> rfl

end History

/-! ## Transcripts without some of the refusals -/

/-- A transcript from which some refused entries were taken away. -/
inductive Thinned : List Entry → List Entry → Prop where
  | nil : Thinned [] []
  | keep {entry entries rest} : Thinned entries rest → Thinned (entry :: entries) (entry :: rest)
  | drop {entry entries rest} : entry.outcome.refused = true → Thinned entries rest →
      Thinned (entry :: entries) rest

theorem History.transcript_of_thinned {h : History} {actions : List Action} {kept : List Entry}
    (hsane : h.Sane) (hkept : Thinned (h.transcript actions) kept) :
    h.transcript (kept.map Entry.action) = kept := by
  induction actions generalizing h kept with
  | nil =>
      cases hkept
      rfl
  | cons action actions ih =>
      cases hkept with
      | keep hrest =>
          exact congrArg (h.entry action :: ·) (ih (hsane.quiet.perform action) hrest)
      | drop hrefused hrest =>
          -- The next action finds the history as the refused one found it.
          have hlike : h.quiet.Like (h.next action) := like_of_refused hsane.quiet hrefused
          rw [hlike.transcript, h.transcript_quiet] at hrest
          exact ih hsane hrest

/-- A session without some of the actions that it refused gives the same answers, the same bytecode
among them, has the same globals after each action, and prints the same. -/
theorem transcript_thinned (limits : Limits) (console : Console) (fuel : Nat)
    (actions : List Action) (kept : List Entry)
    (hkept : Thinned (History.transcript { session := { limits, console, fuel } } actions) kept) :
    History.transcript { session := { limits, console, fuel } } (kept.map Entry.action) = kept :=
  History.transcript_of_thinned (history_sane limits console fuel []) hkept

theorem thinned_filter (entries : List Entry) :
    Thinned entries (entries.filter fun entry => !entry.outcome.refused) := by
  induction entries with
  | nil => exact .nil
  | cons entry entries ih =>
      rw [List.filter_cons]
      cases hrefused : entry.outcome.refused with
      | true => exact .drop hrefused ih
      | false => exact .keep ih

/-- A function with a constant in it. -/
def acceptedProgram : Program :=
  [.bind "f" (.function ["x"] [.expr (.infixOp "+" (.ident "x") (.int 1))] (some "f"))]

/-- A program that is refused inside of a function inside of a function. -/
def refusedProgram : Program :=
  [.bind "g" (.function ["y"] [.bind "n" (.int 7),
    .expr (.function [] [.expr (.infixOp "+" (.ident "n") (.ident "unknown"))] none)] (some "g"))]

/-- The refused program comes between others, and so does a text that is refused by its first
character. -/
def refusedSample : List Action :=
  [.compile acceptedProgram, .evalProgram refusedProgram, .eval "@",
    .compile [.bind "g" (.int 2), .expr (.call (.ident "f") [.ident "g"])], .run 0, .run 1]

/-- When the program is refused two bodies are open and have streams of their own, the inner one has
captured a name and a constant was added. -/
theorem transcript_thinned_refusedSample :
    let c := (Compiler.new.compile acceptedProgram).2
    let refused := (Codegen.block refusedProgram c.start).mapError fun r =>
      (r.state.symbols.depth, r.around.length, r.state.symbols.current.captures.size,
        r.state.constants.size)
    refused.map (fun _ => ()) = .error (2, 2, 1, c.constants.size + 1) ∧
    ∃ kept, Thinned (History.transcript { session := { fuel := 50 } } refusedSample) kept ∧
      kept.length = 4 ∧
      History.transcript { session := { fuel := 50 } } (kept.map Entry.action) = kept := by
  have hlength : ((History.transcript { session := { fuel := 50 } } refusedSample).filter
      fun entry => !entry.outcome.refused).length = 4 := by
    decide +kernel
  exact ⟨by decide +kernel, _, thinned_filter _, hlength,
    transcript_thinned _ _ _ _ _ (thinned_filter _)⟩

end Session

end Monkey
