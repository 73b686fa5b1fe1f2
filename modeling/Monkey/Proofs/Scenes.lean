import Monkey.Proofs.Evaluator
import Monkey.Proofs.Layout
import Monkey.Proofs.Runs

/-!
# A call seen by machine and evaluator

The machine runs the code of a call while the evaluator walks its tree. A `Scene` is what stays the
same until the call ends, on both sides, and `At` says how they stand in between: the slots and the
world of the evaluator are mirrored by the machine, which has some values more on its stack.

Statements about runs are in terms of what is still to come: a machine `Ends` as it should if the
machine after an instruction does. That keeps each lemma about one instruction, whatever comes after
it, and it leaves the one way in which the two may differ, a machine that has no room left, to a
single place.
-/

namespace Monkey

/-- The faults of a machine that has no room left. -/
def Fault.overflow : Fault → Bool
  | .stackOverflow _ | .frameOverflow _ => true
  | _ => false

/-! ## Runs that end -/

namespace Machine

/-- The run ends, and as `Q` says unless the machine has no room left. -/
def Ends (Q : Progress → Prop) (m : Machine) : Prop :=
  ∃ n, (m.run n).Ended ∧
    (Q (m.run n) ∨ ∃ f m', m.run n = .faulted f m' ∧ f.overflow = true)

variable {Q : Progress → Prop} {m m' : Machine} {i : Instruction} {next : Nat}

theorem Ends.of_steps (h : m'.Ends Q) (hstep : m.Steps m') : m.Ends Q := by
  obtain ⟨n, hn⟩ := h
  refine ⟨n + 1, ?_⟩
  rw [run, hstep]
  exact hn

theorem ends_of_halted (hstep : m.step = .halted m') (h : Q (.halted m')) : m.Ends Q := by
  refine ⟨1, ?_⟩
  rw [run, hstep]
  exact ⟨Progress.ended_halted m', .inl h⟩

theorem ends_of_faulted {f : Fault} (hstep : m.step = .faulted f m')
    (h : Q (.faulted f m') ∨ f.overflow = true) : m.Ends Q := by
  refine ⟨1, ?_⟩
  rw [run, hstep]
  exact ⟨Progress.ended_faulted f m', h.imp_right fun hf => ⟨f, m', rfl, hf⟩⟩

theorem ends_of_ok (hsteps : m.limits.maxSteps = none)
    (hi : m.frame.body.code.Holds m.frame.ip i next)
    (heq : execute i (m.advance next) = .ok () m') (h : m'.Ends Q) : m.Ends Q := by
  have hstep : m.step = .running m' := by
    rw [step_of_unlimited hsteps hi, heq, settle]
  exact h.of_steps hstep

theorem ends_of_error {f : Fault} (hsteps : m.limits.maxSteps = none)
    (hi : m.frame.body.code.Holds m.frame.ip i next)
    (heq : execute i (m.advance next) = .error f m') (h : Q (.faulted f m') ∨ f.overflow = true) :
    m.Ends Q := by
  have hstep : m.step = .faulted f m' := by
    rw [step_of_unlimited hsteps hi, heq, settle]
  exact ends_of_faulted hstep h

theorem ends_of_value {ys : List Value} {v : Value} {w : World}
    (hsteps : m.limits.maxSteps = none) (hi : m.frame.body.code.Holds m.frame.ip i next)
    (ha : Answers (execute i) (m.advance next) ys (.ok (v, w)))
    (h : ∀ m', (m.advance next).Moved m' (ys ++ [v]) w → m'.Ends Q) : m.Ends Q := by
  rcases ha with ⟨-, m', heq, hm⟩ | ⟨-, m', heq, -⟩
  · exact ends_of_ok hsteps hi heq (h m' hm)
  · exact ends_of_error hsteps hi heq (.inr rfl)

theorem ends_of_fault {ys : List Value} {f : Fault} (hsteps : m.limits.maxSteps = none)
    (hi : m.frame.body.code.Holds m.frame.ip i next)
    (ha : Answers (execute i) (m.advance next) ys (.error f))
    (h : ∀ m', m'.world = m.world → Q (.faulted f m')) : m.Ends Q := by
  obtain ⟨m', heq, hw⟩ := ha
  exact ends_of_error hsteps hi heq (.inl (h m' hw))

end Machine

/-! ## Related worlds -/

/-- Two worlds that differ only in the bodies of functions. -/
structure RelatedWorld {F G : Type} (R : F → G → Nat → Prop) (w : WorldOf F) (w' : WorldOf G) :
    Prop where
  size : w.globals.size = w'.globals.size
  globals : ∀ i : Nat, Option.Rel (Related R) w.globals[i]? w'.globals[i]?
  issued : w.issued = w'.issued
  console : w.console = w'.console

theorem RelatedWorld.store {F G : Type} {R : F → G → Nat → Prop} {w : WorldOf F} {w' : WorldOf G}
    {v : ValueOf F} {v' : ValueOf G} (h : RelatedWorld R w w') (hv : Related R v v') (k : Nat) :
    RelatedWorld R { w with globals := Machine.storeAt w.globals k v }
      { w' with globals := Machine.storeAt w'.globals k v' } := by
  refine ⟨?_, fun i => ?_, h.issued, h.console⟩
  · rw [Machine.size_storeAt, Machine.size_storeAt, h.size]
  · rw [Machine.getElem?_storeAt, Machine.getElem?_storeAt, h.size]
    split
    · exact .some hv
    · split
      · exact h.globals i
      · split
        · exact .some .null
        · exact .none

namespace Resolved

/-- The template is the code of the function, in closures with `count` captured values. -/
structure CodeOf (K : Array Value) (globals : Nat) (f : Lambda) (t : Template) (count : Nat) :
    Prop where
  parameters : f.parameters = t.parameters
  locals : f.locals = t.locals
  parameters_le : t.parameters ≤ t.locals
  laid : Laid K ⟨globals, 0, t.locals, count, true⟩ t.code (.block .body f.body) 0 t.code.size

/-! ## Scenes -/

/-- What stays the same while a call runs. The stack holds `below` under the slots of the call. -/
structure Scene where
  limits : Limits
  constants : Array Value
  globals : Nat
  context : Context
  frame : Frame
  callers : Array Frame
  below : List Value
  unlimited : limits.maxSteps = none
  globalsSize : context.globalsSize = limits.globalsSize
  base : frame.base = below.length
  captured : List.Forall₂ (Related (CodeOf constants globals)) context.captured frame.captured

namespace Scene

/-- A value of the machine stands for one of the evaluator. -/
abbrev Rel (sc : Scene) : Datum → Value → Prop :=
  Related (CodeOf sc.constants sc.globals)

/-- The worlds of evaluator and machine. -/
abbrev RelWorld (sc : Scene) : WorldOf Lambda → World → Prop :=
  RelatedWorld (CodeOf sc.constants sc.globals)

/-- The stack: what was there before the call, its slots, and the values of the expression that is
being evaluated. -/
def stack (sc : Scene) (slots temps : List Value) : List Value :=
  sc.below ++ (slots ++ temps)

theorem stack_append (sc : Scene) (slots temps vs : List Value) :
    sc.stack slots (temps ++ vs) = sc.stack slots temps ++ vs := by
  rw [stack, stack, List.append_assoc, List.append_assoc]

/-- The room of a call whose scene this is, and how deep calls may still nest before the machine
runs out of frames. -/
structure Fits (sc : Scene) (room : Room) (depth : Nat) : Prop where
  globals : room.globals = sc.globals
  slots : room.slots ≤ sc.frame.body.locals
  captures : room.captures ≤ sc.frame.captured.length
  self : room.inner = true → sc.Rel sc.context.self sc.frame.closure
  outer : room.inner = false → sc.callers = #[]
  inner : room.inner = true → ∃ (caller : Frame) (rest : Array Frame),
    sc.callers = rest.push caller ∧ 0 < sc.below.length
  depth : sc.limits.maxFrames ≤ sc.callers.size + 1 + depth

/-- The machine is at an offset of the call, and mirrors the store. -/
structure At (sc : Scene) (σ : Store) (temps : List Value) (ip : Nat) (m : Machine) : Prop where
  limits : m.limits = sc.limits
  constants : m.constants = sc.constants
  frame : m.frame = sc.frame.at ip
  callers : m.callers = sc.callers
  stack : ∃ slots, List.Forall₂ sc.Rel σ.slots slots ∧ slots.length = sc.frame.body.locals ∧
    m.Shows (sc.stack slots temps)
  world : sc.RelWorld σ.world m.world

/-- The machine has left the call with a value: the caller has it, or the program is at its end. -/
inductive Left (sc : Scene) (w : WorldOf Lambda) (v : Value) (m : Machine) : Prop where
  | outer : sc.callers = #[] → m.frame.ip = m.frame.body.code.size → m.lastPopped = v →
      sc.RelWorld w m.world → Left sc w v m
  | inner {b : Nat} : sc.callers = m.callers.push m.frame → sc.below.length = b + 1 →
      m.limits = sc.limits → m.constants = sc.constants → m.Shows (sc.below.take b ++ [v]) →
      sc.RelWorld w m.world → Left sc w v m

/-- What has to be shown of the rest of a run, depending on how an evaluation within the call comes
out. A fault has to be the fault of the machine. -/
def Yields (sc : Scene) (Q : Progress → Prop) {α : Type} (r : EStateM.Result Stop Store α)
    (ok : α → Store → Prop) : Prop :=
  match r with
  | .ok a σ => ok a σ
  | .error (.returned v) σ => ∀ m v', sc.Left σ.world v' m → sc.Rel v v' → m.Ends Q
  | .error (.fault f) σ => ∀ m, sc.RelWorld σ.world m.world → Q (.faulted f m)
  | .error .exhausted _ => True

/-- The run ends well from where the value is on top of the stack. -/
def Pushes (sc : Scene) (Q : Progress → Prop) (temps : List Value) (ip : Nat) (v : Datum)
    (σ : Store) : Prop :=
  ∀ m v', sc.At σ (temps ++ [v']) ip m → sc.Rel v v' → m.Ends Q

/-- The run ends well from where `count` values are on top of the stack. -/
def PushesAll (sc : Scene) (Q : Progress → Prop) (temps : List Value) (ip count : Nat)
    (vs : List Datum) (σ : Store) : Prop :=
  ∀ m vs', sc.At σ (temps ++ vs') ip m → List.Forall₂ sc.Rel vs vs' → vs'.length = count →
    m.Ends Q

section Yields

variable {sc : Scene} {Q : Progress → Prop} {α β : Type} {σ : Store}

theorem Yields.mono {r : EStateM.Result Stop Store α} {ok ok' : α → Store → Prop}
    (h : sc.Yields Q r ok) (himp : ∀ a σ, ok a σ → ok' a σ) : sc.Yields Q r ok' := by
  match r, h with
  | .ok a σ, h => exact himp a σ h
  | .error (.returned v) σ, h => exact h
  | .error (.fault f) σ, h => exact h
  | .error .exhausted σ, h => exact h

theorem yields_bind {x : Eval α} {f : α → Eval β} {ok : β → Store → Prop} :
    sc.Yields Q ((x >>= f) σ) ok ↔ sc.Yields Q (x σ) fun a σ' => sc.Yields Q (f a σ') ok := by
  show sc.Yields Q (EStateM.bind x f σ) ok ↔ _
  rw [EStateM.bind]
  match x σ with
  | .ok a σ' => exact Iff.rfl
  | .error (.returned v) σ' => exact Iff.rfl
  | .error (.fault f) σ' => exact Iff.rfl
  | .error .exhausted σ' => exact Iff.rfl

end Yields

/-! ## One instruction -/

section Instructions

variable {sc : Scene} {Q : Progress → Prop} {σ σ' : Store} {temps vs : List Value} {ip next : Nat}
  {m m' : Machine} {i : Instruction} {v : Datum} {v' : Value}

theorem At.unlimited (h : sc.At σ temps ip m) : m.limits.maxSteps = none := by
  rw [h.limits]
  exact sc.unlimited

theorem At.holds (h : sc.At σ temps ip m) (hi : sc.frame.body.code.Holds ip i next) :
    m.frame.body.code.Holds m.frame.ip i next := by
  rw [h.frame]
  exact hi

theorem At.shows (h : sc.At σ (temps ++ vs) ip m) (next : Nat) :
    ∃ slots, List.Forall₂ sc.Rel σ.slots slots ∧ slots.length = sc.frame.body.locals ∧
      (m.advance next).Shows (sc.stack slots temps ++ vs) := by
  obtain ⟨slots, hslots, hlen, hshows⟩ := h.stack
  rw [stack_append] at hshows
  exact ⟨slots, hslots, hlen, hshows.advance next⟩

/-- The machine that an instruction of the call leaves is at a later offset of it. -/
theorem At.leads {slots temps' : List Value} {w : World} {ip' : Nat} {f : Frame}
    (h : sc.At σ temps ip m)
    (hm : (m.advance next).Leads m' f (m.advance next).callers (sc.stack slots temps') w)
    (hf : f = sc.frame.at ip') (hslots : List.Forall₂ sc.Rel σ'.slots slots)
    (hlen : slots.length = sc.frame.body.locals) (hw : sc.RelWorld σ'.world w) :
    sc.At σ' temps' ip' m' :=
  ⟨hm.limits.trans h.limits, hm.constants.trans h.constants, hm.frame.trans hf,
    hm.callers.trans h.callers, ⟨slots, hslots, hlen, hm.shows⟩, hm.world ▸ hw⟩

theorem At.frame_advance (h : sc.At σ temps ip m) (next : Nat) :
    (m.advance next).frame = sc.frame.at next := by
  rw [Machine.advance, h.frame]
  rfl

/-- An instruction that takes values and answers as an operator of the evaluator does. -/
theorem At.operator {a : Except Fault Datum} {a' : Except Fault Value}
    (hat : sc.At σ (temps ++ vs) ip m) (hi : sc.frame.body.code.Holds ip i next)
    (ha : ∀ ys, (m.advance next).Shows (ys ++ vs) →
      Machine.Answers (Machine.execute i) (m.advance next) ys (a'.map (·, (m.advance next).world)))
    (hrel : RelatedAnswer (CodeOf sc.constants sc.globals) a a')
    (h : sc.Yields Q (answer a σ) (sc.Pushes Q temps next)) : m.Ends Q := by
  obtain ⟨slots, hslots, hlen, hshows⟩ := hat.shows next
  cases a <;> cases a'
  case ok.ok v v' =>
    refine Machine.ends_of_value hat.unlimited (hat.holds hi) (ha _ hshows) fun m' hm => ?_
    rw [← stack_append] at hm
    exact h m' v' (hat.leads hm (hat.frame_advance next) hslots hlen hat.world) hrel
  case error.error f f' =>
    obtain ⟨rfl, -⟩ := hrel
    exact Machine.ends_of_fault hat.unlimited (hat.holds hi) (ha _ hshows)
      fun m' hw => h m' (hw ▸ hat.world)
  all_goals exact hrel.elim

theorem At.source (hat : sc.At σ temps ip m) (hi : sc.frame.body.code.Holds ip i next)
    (hv : i.source? (m.advance next) = some v') (hrel : sc.Rel v v')
    (h : sc.Pushes Q temps next v σ) : m.Ends Q := by
  have hanswer : RelatedAnswer (CodeOf sc.constants sc.globals) (.ok v) (.ok v') := hrel
  rw [← List.append_nil temps] at hat
  refine hat.operator hi (fun ys hshows => ?_) hanswer h
  rw [List.append_nil] at hshows
  exact Machine.execute_source hv hshows

theorem At.constant {k : Nat} (hat : sc.At σ temps ip m)
    (hi : sc.frame.body.code.Holds ip (.constant k) next) (hk : sc.constants[k]? = some v')
    (hrel : sc.Rel v v') (h : sc.Pushes Q temps next v σ) : m.Ends Q := by
  refine hat.source hi ?_ hrel h
  show m.constants[k]? = some v'
  rw [hat.constants]
  exact hk

/-- What a symbol stands for is where its instruction finds it. -/
theorem At.lookup {room : Room} {depth : Nat} {s : Symbol} (hat : sc.At σ temps ip m)
    (hfit : sc.Fits room depth) (hs : s.Within room) (next : Nat) :
    ∃ v', s.load.source? (m.advance next) = some v' ∧ sc.Rel (sc.context.lookup σ s) v' := by
  rw [Symbol.Within] at hs
  rw [Symbol.load, Context.lookup]
  cases hstorage : s.storage <;> rw [hstorage] at hs
  case global => exact ⟨_, rfl, Related.getD_null (hat.world.globals _)⟩
  case slot =>
    obtain ⟨slots, hslots, hlen, hshows⟩ := hat.stack
    have hk : s.index < slots.length := by
      rw [hlen]
      exact Nat.lt_of_lt_of_le hs hfit.slots
    have hlt : sc.below.length + s.index < (sc.stack slots temps).length := by
      rw [Scene.stack, List.length_append, List.length_append]
      omega
    refine ⟨slots[s.index], ?_, ?_⟩
    · show m.stack[m.frame.base + s.index]? = _
      have hbase : m.frame.base = sc.below.length := by
        rw [hat.frame]
        exact sc.base
      rw [hbase, hshows.slot _ hlt, Scene.stack, List.getElem?_append_right (Nat.le_add_right _ _),
        Nat.add_sub_cancel_left, List.getElem?_append_left hk, List.getElem?_eq_getElem hk]
    · have hrel := Related.getD_null (Related.getElem? hslots s.index)
      rwa [List.getElem?_eq_getElem hk] at hrel
  case builtin =>
    refine ⟨.builtin Builtin.all[s.index], ?_, ?_⟩
    · show Builtin.all[s.index]?.map _ = _
      rw [List.getElem?_eq_getElem hs]
      rfl
    · rw [List.getElem?_eq_getElem hs]
      exact Related.builtin
  case captured =>
    have hk : s.index < sc.frame.captured.length := Nat.lt_of_lt_of_le hs hfit.captures
    refine ⟨sc.frame.captured[s.index], ?_, ?_⟩
    · show m.frame.captured[s.index]? = _
      rw [hat.frame, ← List.getElem?_eq_getElem hk]
      rfl
    · have hrel := Related.getD_null (Related.getElem? sc.captured s.index)
      rwa [List.getElem?_eq_getElem hk] at hrel
  case self =>
    refine ⟨_, rfl, ?_⟩
    have hclosure : (m.advance next).frame.closure = sc.frame.closure := by
      rw [hat.frame_advance]
      rfl
    rw [hclosure]
    exact hfit.self hs

theorem At.create {f : List Value → Except Fault (Identity → Value)} {make : Identity → Datum}
    {make' : Identity → Value} (hat : sc.At σ (temps ++ vs) ip m)
    (hi : sc.frame.body.code.Holds ip i next)
    (hf : i.collect? sc.constants = some (vs.length, f)) (hmake : f vs = .ok make')
    (hrel : ∀ id, sc.Rel (make id) (make' id))
    (h : sc.Yields Q (Resolved.create make σ) (sc.Pushes Q temps next)) : m.Ends Q := by
  obtain ⟨slots, hslots, hlen, hshows⟩ := hat.shows next
  rw [← hat.constants] at hf
  have ha := Machine.execute_collect (m := m.advance next) hf hshows
  rw [hmake] at ha
  refine Machine.ends_of_value hat.unlimited (hat.holds hi) ha fun m' hm => ?_
  rw [← stack_append] at hm
  have hw := hat.world
  have hissued : σ.world.issued = m.issued := hw.issued
  refine h m' _ (hat.leads hm (hat.frame_advance next) hslots hlen ?_) ?_
  · exact ⟨hw.size, hw.globals, congrArg (· + 1) hw.issued, hw.console⟩
  · rw [hissued]
    exact hrel _

theorem At.collect_fault {f : List Value → Except Fault (Identity → Value)} {e : Fault}
    (hat : sc.At σ (temps ++ vs) ip m) (hi : sc.frame.body.code.Holds ip i next)
    (hf : i.collect? sc.constants = some (vs.length, f)) (hfail : f vs = .error e)
    (h : ∀ m, sc.RelWorld σ.world m.world → Q (.faulted e m)) : m.Ends Q := by
  obtain ⟨slots, -, -, hshows⟩ := hat.shows next
  rw [← hat.constants] at hf
  have ha := Machine.execute_collect (m := m.advance next) hf hshows
  rw [hfail] at ha
  exact Machine.ends_of_fault hat.unlimited (hat.holds hi) ha fun m' hw => h m' (hw ▸ hat.world)

theorem At.answer {callee : Datum} {callee' : Value} {arguments : List Datum}
    (hat : sc.At σ (temps ++ callee' :: vs) ip m)
    (hi : sc.frame.body.code.Holds ip (.call vs.length) next)
    (hc : ∀ id body captured, callee' ≠ .closure id body captured)
    (hcallee : sc.Rel callee callee') (hvs : List.Forall₂ sc.Rel arguments vs)
    (hok : ∀ v w, callAnswer σ.world callee arguments = .ok (v, w) →
      sc.Pushes Q temps next v { σ with world := w })
    (herror : ∀ f, callAnswer σ.world callee arguments = .error f →
      ∀ m, sc.RelWorld σ.world m.world → Q (.faulted f m)) : m.Ends Q := by
  obtain ⟨slots, hslots, hlen, hshows⟩ := hat.shows next
  have hw := hat.world
  have ha := Machine.execute_call hc hshows
  have hissued : σ.world.issued = (m.advance next).world.issued := hw.issued
  have hrel := callAnswer_related hissued hw.console hcallee hvs
  cases heq : callAnswer σ.world callee arguments <;>
    cases heq' : callAnswer (m.advance next).world callee' vs <;> rw [heq, heq'] at hrel
  case ok.ok a a' =>
    rw [heq'] at ha
    obtain ⟨hv, hglobals, hglobals', hissued', hconsole'⟩ := hrel
    refine Machine.ends_of_value hat.unlimited (hat.holds hi) ha fun m' hm => ?_
    rw [← stack_append] at hm
    refine hok _ _ heq m' _ (hat.leads hm (hat.frame_advance next) hslots hlen ?_) hv
    exact ⟨by rw [hglobals, hglobals']; exact hw.size,
      by rw [hglobals, hglobals']; exact hw.globals, hissued', hconsole'⟩
  case error.error f f' =>
    obtain ⟨rfl, -⟩ := hrel
    rw [heq'] at ha
    exact Machine.ends_of_fault hat.unlimited (hat.holds hi) ha
      fun m' hw' => herror f heq m' (hw' ▸ hw)
  all_goals exact hrel.elim

theorem At.pop (hat : sc.At σ (temps ++ [v']) ip m) (hi : sc.frame.body.code.Holds ip .pop next)
    (h : ∀ m', sc.At σ temps next m' → m'.lastPopped = v' → m'.Ends Q) : m.Ends Q := by
  obtain ⟨slots, hslots, hlen, hshows⟩ := hat.shows next
  obtain ⟨m', heq, hm, hlast⟩ := Machine.execute_pop hshows
  exact Machine.ends_of_ok hat.unlimited (hat.holds hi) heq
    (h m' (hat.leads hm (hat.frame_advance next) hslots hlen hat.world) hlast)

theorem set_stack (sc : Scene) {slots : List Value} (temps : List Value) {k : Nat} (v : Value)
    (hk : k < slots.length) :
    (sc.stack slots temps).set (sc.below.length + k) v = sc.stack (slots.set k v) temps := by
  rw [stack, stack, List.set_append_right _ _ (Nat.le_add_right _ _), Nat.add_sub_cancel_left,
    List.set_append_left _ _ hk]

theorem forall₂_set {R : Datum → Value → Prop} {xs : List Datum} {ys : List Value}
    (h : List.Forall₂ R xs ys) (hv : R v v') (k : Nat) :
    List.Forall₂ R (xs.set k v) (ys.set k v') := by
  induction h generalizing k with
  | nil => exact .nil
  | cons hxy hrest ih =>
      cases k with
      | zero => exact .cons hv hrest
      | succ k => exact .cons hxy (ih k)

theorem forall₂_replicate {R : Datum → Value → Prop} (hv : R v v') (n : Nat) :
    List.Forall₂ R (List.replicate n v) (List.replicate n v') := by
  induction n with
  | zero => exact .nil
  | succ n ih => exact .cons hv ih

theorem At.assign {room : Room} {depth : Nat} {s : Symbol} (hat : sc.At σ (temps ++ [v']) ip m)
    (hfit : sc.Fits room depth) (hs : s.Storable room)
    (hi : sc.frame.body.code.Holds ip s.save next) (hrel : sc.Rel v v')
    (h : sc.Yields Q (sc.context.assign s v σ) fun _ σ' =>
      ∀ m', sc.At σ' temps next m' → m'.lastPopped = v' → m'.Ends Q) : m.Ends Q := by
  obtain ⟨slots, hslots, hlen, hshows⟩ := hat.shows next
  have hlimit : (m.advance next).limits.globalsSize = sc.context.globalsSize := by
    rw [sc.globalsSize, ← hat.limits]
    rfl
  rw [Symbol.Storable] at hs
  rw [Symbol.save] at hi
  rw [Context.assign] at h
  cases hstorage : s.storage <;> rw [hstorage] at hs hi h
  case global =>
    by_cases hfull : sc.context.globalsSize ≤ s.index
    · rw [if_pos hfull] at h
      obtain ⟨m', heq, hw⟩ := Machine.execute_setGlobal_full hshows (hlimit ▸ hfull)
      rw [hlimit] at heq
      exact Machine.ends_of_error hat.unlimited (hat.holds hi) heq (.inl (h m' (hw ▸ hat.world)))
    · rw [if_neg hfull] at h
      obtain ⟨m', heq, hm, hlast⟩ :=
        Machine.execute_setGlobal hshows (hlimit ▸ Nat.not_le.1 hfull)
      exact Machine.ends_of_ok hat.unlimited (hat.holds hi) heq (h m'
        (hat.leads hm (hat.frame_advance next) hslots hlen (hat.world.store hrel s.index)) hlast)
  case slot =>
    have hk : s.index < slots.length := by
      rw [hlen]
      exact Nat.lt_of_lt_of_le hs hfit.slots
    have hbase : (m.advance next).frame.base = sc.below.length := by
      rw [hat.frame_advance]
      exact sc.base
    have hlt : (m.advance next).frame.base + s.index < (sc.stack slots temps).length := by
      rw [hbase, Scene.stack, List.length_append, List.length_append]
      omega
    obtain ⟨m', heq, hm, hlast⟩ := Machine.execute_setLocal hshows hlt
    rw [hbase, set_stack _ _ _ hk] at hm
    exact Machine.ends_of_ok hat.unlimited (hat.holds hi) heq (h m'
      (hat.leads hm (hat.frame_advance next) (forall₂_set hslots hrel _)
        (by rw [List.length_set, hlen]) hat.world) hlast)
  all_goals exact hs.elim

theorem At.jump {target : Nat} (hat : sc.At σ temps ip m)
    (hi : sc.frame.body.code.Holds ip (.jump target) next)
    (h : ∀ m', sc.At σ temps target m' → m'.Ends Q) : m.Ends Q := by
  obtain ⟨slots, hslots, hlen, hshows⟩ := hat.stack
  obtain ⟨m', heq, hm⟩ := Machine.execute_jump (hshows.advance next)
  refine Machine.ends_of_ok hat.unlimited (hat.holds hi) heq
    (h m' (hat.leads hm ?_ hslots hlen hat.world))
  rw [hat.frame_advance]
  rfl

theorem At.jumpUnless {target : Nat} (hat : sc.At σ (temps ++ [v']) ip m)
    (hi : sc.frame.body.code.Holds ip (.jumpUnless target) next)
    (h : ∀ m', sc.At σ temps (if v'.isTruthy then next else target) m' → m'.Ends Q) : m.Ends Q := by
  obtain ⟨slots, hslots, hlen, hshows⟩ := hat.shows next
  obtain ⟨m', heq, hm⟩ := Machine.execute_jumpUnless hshows
  refine Machine.ends_of_ok hat.unlimited (hat.holds hi) heq
    (h m' (hat.leads hm ?_ hslots hlen hat.world))
  rw [hat.frame_advance]
  split <;> rfl

theorem At.left {caller : Frame} {rest : Array Frame} {b : Nat} {slots temps' : List Value}
    (hat : sc.At σ temps ip m) (hcallers : sc.callers = rest.push caller)
    (hb : sc.below.length = b + 1)
    (hm : (m.advance next).Leads m' caller rest ((sc.stack slots temps').take b ++ [v'])
      (m.advance next).world) : sc.Left σ.world v' m' := by
  have htake : (sc.stack slots temps').take b = sc.below.take b :=
    List.take_append_of_le_length (by omega)
  rw [htake] at hm
  refine .inner ?_ hb (hm.limits.trans hat.limits) (hm.constants.trans hat.constants) hm.shows
    (hm.world ▸ hat.world)
  rw [hm.callers, hm.frame]
  exact hcallers

theorem At.inner {room : Room} {depth : Nat} (hat : sc.At σ temps ip m) (hfit : sc.Fits room depth)
    (hinner : room.inner = true) (next : Nat) :
    ∃ (caller : Frame) (rest : Array Frame) (b : Nat), sc.callers = rest.push caller ∧
      (m.advance next).callers = rest.push caller ∧ sc.below.length = b + 1 ∧
      (m.advance next).frame.base = b + 1 ∧
      ∀ slots temps', b < (sc.stack slots temps').length := by
  obtain ⟨caller, rest, hcallers, hbelow⟩ := hfit.inner hinner
  obtain ⟨b, hb⟩ := Nat.exists_eq_add_of_lt hbelow
  rw [Nat.zero_add] at hb
  refine ⟨caller, rest, b, hcallers, hat.callers.trans hcallers, hb, ?_, fun slots temps' => ?_⟩
  · rw [hat.frame_advance, ← hb]
    exact sc.base
  · rw [Scene.stack, List.length_append]
    omega

theorem At.returnValue {room : Room} {depth : Nat} (hat : sc.At σ (temps ++ [v']) ip m)
    (hfit : sc.Fits room depth) (hi : sc.frame.body.code.Holds ip .returnValue next)
    (h : ∀ m', sc.Left σ.world v' m' → m'.Ends Q) : m.Ends Q := by
  obtain ⟨slots, -, -, hshows⟩ := hat.shows next
  cases hinner : room.inner with
  | false =>
      have hcallers := hfit.outer hinner
      obtain ⟨m', heq, hm, hlast⟩ :=
        Machine.execute_returnValue_top hshows (hat.callers.trans hcallers)
      refine Machine.ends_of_ok hat.unlimited (hat.holds hi) heq
        (h m' (.outer hcallers ?_ hlast (hm.world ▸ hat.world)))
      rw [hm.frame]
      rfl
  | true =>
      obtain ⟨caller, rest, b, hcallers, hcallers', hb, hbase, hlt⟩ := hat.inner hfit hinner next
      obtain ⟨m', heq, hm⟩ := Machine.execute_returnValue hshows hcallers' hbase (hlt slots temps)
      exact Machine.ends_of_ok hat.unlimited (hat.holds hi) heq (h m' (hat.left hcallers hb hm))

theorem At.returnNull {room : Room} {depth : Nat} (hat : sc.At σ temps ip m)
    (hfit : sc.Fits room depth) (hinner : room.inner = true)
    (hi : sc.frame.body.code.Holds ip .returnNull next)
    (h : ∀ m', sc.Left σ.world .null m' → m'.Ends Q) : m.Ends Q := by
  obtain ⟨slots, -, -, hshows⟩ := hat.stack
  obtain ⟨caller, rest, b, hcallers, hcallers', hb, hbase, hlt⟩ := hat.inner hfit hinner next
  obtain ⟨m', heq, hm⟩ :=
    Machine.leave_inner (hshows.advance next) hcallers' hbase (hlt slots temps) .null
  exact Machine.ends_of_ok hat.unlimited (hat.holds hi) heq (h m' (hat.left hcallers hb hm))

end Instructions

end Scene

end Resolved

end Monkey
