import Monkey.Proofs.Runs

/-!
# Room to spare

A machine compares with its limits and does nothing else with them. So a run that fitted its limits
is the same run under higher ones, step for step, and the one trace of the larger stack is a row of
nulls that lies above everything the run has ever touched.

`Widening.widen` is that other machine, as a function of the first one. Every action commutes with
it, or ends in a fault that a higher limit would have spared (`Steady`), and this is shown once for
the small actions and carried through `execute`. The limit on instructions is left open here: no
action reads it, and the two machines may have different ones.
-/

namespace Monkey

/-- The faults of a limit on the stack, the frames or the globals. -/
def Fault.exhausts : Fault → Bool
  | .stackOverflow _ | .frameOverflow _ | .globalsOverflow _ _ => true
  | _ => false

/-- The faults of the limit on instructions. -/
def Fault.timesOut : Fault → Bool
  | .stepLimit _ => true
  | _ => false

/-- The same state of a run, of another machine. -/
def Progress.map (φ : Machine → Machine) : Progress → Progress
  | .running m => .running (φ m)
  | .halted m => .halted (φ m)
  | .faulted f m => .faulted f (φ m)

/-- Two sets of limits, the second with no less room, and the slots that its stack has more. -/
structure Widening where
  tight : Limits
  roomy : Limits
  pad : Nat
  maxFrames : tight.maxFrames ≤ roomy.maxFrames
  globalsSize : tight.globalsSize ≤ roomy.globalsSize

namespace Widening

variable (W : Widening)

/-- The machine as it would stand with more room. -/
def widen (m : Machine) : Machine :=
  { m with limits := W.roomy, stack := m.stack ++ Array.replicate W.pad .null }

/-- There is no more room after all. -/
def Exact : Prop :=
  W.pad = 0 ∧ W.roomy.stackSize = W.tight.stackSize ∧ W.roomy.maxFrames = W.tight.maxFrames ∧
    W.roomy.globalsSize = W.tight.globalsSize

/-- A machine under the lower limits that has begun `s` instructions. -/
structure Suits (s : Nat) (m : Machine) : Prop where
  limits : m.limits = W.tight
  top_le : m.top ≤ m.stack.size
  steps : m.steps = s

/-- With more room an action comes out the same, or it did not fit. -/
def SteadyAt {α : Type} (s : Nat) (x : Exec α) (m : Machine) : Prop :=
  match x m with
  | .ok a m₁ => x (W.widen m) = .ok a (W.widen m₁) ∧ W.Suits s m₁
  | .error f m₁ => f.timesOut = false ∧
      (x (W.widen m) = .error f (W.widen m₁) ∨ f.exhausts = true ∧ ¬W.Exact)

def Steady {α : Type} (s : Nat) (x : Exec α) : Prop :=
  ∀ m, W.Suits s m → W.SteadyAt s x m

variable {W} {s : Nat} {α β : Type} {m m₁ : Machine}

theorem slot_widen (m : Machine) (i : Nat) : (W.widen m).slot i = m.slot i := by
  show (m.stack ++ Array.replicate W.pad .null)[i]?.getD .null = m.stack[i]?.getD .null
  rw [Array.getElem?_append]
  split
  · rfl
  · next h =>
      rw [Array.getElem?_eq_none (Nat.not_lt.1 h), Array.getElem?_replicate]
      split <;> rfl

theorem size_le_widen (m : Machine) : m.stack.size ≤ (W.widen m).stack.size := by
  rw [widen, Array.size_append]
  exact Nat.le_add_right _ _

theorem widen_of_exact (h : W.Exact) (m : Machine) :
    W.widen m = { m with limits := W.roomy } := by
  rw [widen, h.1]
  simp

theorem steadyAt_ok {x : Exec α} (a : α) (m₁ : Machine) (hx : x m = .ok a m₁)
    (hw : x (W.widen m) = .ok a (W.widen m₁)) (hs : W.Suits s m₁) : W.SteadyAt s x m := by
  rw [SteadyAt, hx]
  exact ⟨hw, hs⟩

theorem steadyAt_error {x : Exec α} (f : Fault) (hx : x m = .error f m)
    (hw : x (W.widen m) = .error f (W.widen m)) (hf : f.timesOut = false) :
    W.SteadyAt s x m := by
  rw [SteadyAt, hx]
  exact ⟨hf, .inl hw⟩

/-- A fault of a limit counts for nothing, unless there is no more room. -/
theorem steadyAt_exhausted {x : Exec α} (f : Fault) (hx : x m = .error f m)
    (hf : f.exhausts = true) (hw : W.Exact → x (W.widen m) = .error f (W.widen m)) :
    W.SteadyAt s x m := by
  rw [SteadyAt, hx]
  refine ⟨?_, ?_⟩
  · cases f <;> first | rfl | cases hf
  · by_cases hexact : W.Exact
    · exact .inl (hw hexact)
    · exact .inr ⟨hf, hexact⟩

/-! ## Actions in turn -/

theorem SteadyAt.bind {x : Exec α} {f : α → Exec β} (hx : W.SteadyAt s x m)
    (hf : ∀ a, W.Steady s (f a)) : W.SteadyAt s (x >>= f) m := by
  rw [SteadyAt] at hx
  cases h : x m with
  | ok a m₁ =>
      rw [h] at hx
      obtain ⟨hw, hs⟩ := hx
      have hnext := hf a m₁ hs
      rw [SteadyAt] at hnext ⊢
      rw [Machine.bind_ok h, Machine.bind_ok hw]
      exact hnext
  | error e m₁ =>
      rw [h] at hx
      obtain ⟨htime, hw⟩ := hx
      rw [SteadyAt, Machine.bind_error h]
      refine ⟨htime, ?_⟩
      rcases hw with hw | hexhausts
      · exact .inl (Machine.bind_error hw)
      · exact .inr hexhausts

theorem Steady.bind {x : Exec α} {f : α → Exec β} (hx : W.Steady s x)
    (hf : ∀ a, W.Steady s (f a)) : W.Steady s (x >>= f) :=
  fun m hm => (hx m hm).bind hf

/-- What an action reads of the machine has to be the same in the wider one. -/
theorem steady_get {f : Machine → Exec β} (hf : ∀ m, W.Suits s m → f (W.widen m) = f m)
    (hs : ∀ m, W.Suits s m → W.SteadyAt s (f m) m) : W.Steady s (get >>= f) := by
  intro m hm
  have hat := hs m hm
  rw [SteadyAt] at hat ⊢
  rw [Machine.bind_get, Machine.bind_get, hf m hm]
  exact hat

theorem steady_pure (a : α) : W.Steady s (pure a) :=
  fun _ hm => ⟨rfl, hm⟩

theorem steady_fail {f : Fault} (hf : f.timesOut = false) :
    W.Steady s (Machine.fail f : Exec α) :=
  fun _ _ => ⟨hf, .inl rfl⟩

theorem steady_check {a : Except Fault α} (h : ∀ f, a = .error f → f.timesOut = false) :
    W.Steady s (Machine.check a) := by
  cases a with
  | ok a => exact steady_pure a
  | error f => exact steady_fail (h f rfl)

/-! ## The small actions -/

/-- The machine may have its cursor anywhere before a push. -/
theorem steadyAt_push (v : Value) (hlimits : m.limits = W.tight) (hsteps : m.steps = s) :
    W.SteadyAt s (Machine.push v) m := by
  by_cases h : m.top < m.stack.size
  · have h' : (W.widen m).top < (W.widen m).stack.size := Nat.lt_of_lt_of_le h (size_le_widen m)
    refine steadyAt_ok () { m with stack := m.stack.set m.top v h, top := m.top + 1 }
      (by rw [Machine.push, dif_pos h]) ?_ ⟨hlimits, ?_, hsteps⟩
    · rw [Machine.push, dif_pos h']
      simp only [widen, Array.set_append_left h]
    · rw [Array.size_set]
      exact h
  · refine steadyAt_exhausted m.overflow (by rw [Machine.push, dif_neg h]) rfl ?_
    intro hexact
    rw [widen_of_exact hexact, Machine.push, dif_neg h, Machine.overflow, Machine.overflow, hlimits,
      hexact.2.1]

theorem steady_push (v : Value) : W.Steady s (Machine.push v) :=
  fun _ hm => steadyAt_push v hm.limits hm.steps

theorem steady_pop : W.Steady s Machine.pop := by
  intro m hm
  have htop := hm.top_le
  by_cases h : m.top = 0
  · refine steadyAt_error .stackUnderflow (by rw [Machine.pop, if_pos h]) ?_ rfl
    rw [Machine.pop, if_pos (by exact h)]
  · refine steadyAt_ok (m.slot (m.top - 1)) { m with top := m.top - 1 }
      (by rw [Machine.pop, if_neg h]) ?_ ⟨hm.limits, (Nat.sub_le _ _).trans htop, hm.steps⟩
    rw [Machine.pop, if_neg (by exact h), slot_widen]
    rfl

theorem extract_widen (hm : W.Suits s m) (start : Nat) :
    (W.widen m).stack.extract start m.top = m.stack.extract start m.top :=
  Array.extract_append_of_stop_le_size_left hm.top_le

theorem steady_take (count : Nat) : W.Steady s (Machine.take count) := by
  intro m hm
  have htop := hm.top_le
  by_cases h : count ≤ m.top
  · refine steadyAt_ok (m.stack.extract (m.top - count) m.top).toList
      { m with top := m.top - count } (by rw [Machine.take, if_pos h]) ?_
      ⟨hm.limits, (Nat.sub_le _ _).trans htop, hm.steps⟩
    rw [← extract_widen hm, Machine.take, if_pos (by exact h)]
    rfl
  · refine steadyAt_error .stackUnderflow (by rw [Machine.take, if_neg h]) ?_ rfl
    rw [Machine.take, if_neg (by exact h)]

theorem steady_setSlot (i : Nat) (v : Value) : W.Steady s (Machine.setSlot i v) := by
  intro m hm
  by_cases h : i < m.stack.size
  · have h' : i < (W.widen m).stack.size := Nat.lt_of_lt_of_le h (size_le_widen m)
    refine steadyAt_ok () { m with stack := m.stack.set i v h }
      (by rw [Machine.setSlot, dif_pos h]) ?_ ⟨hm.limits, ?_, hm.steps⟩
    · rw [Machine.setSlot, dif_pos h']
      simp only [widen, Array.set_append_left h]
    · rw [Array.size_set]
      exact hm.top_le
  · refine steadyAt_exhausted m.overflow (by rw [Machine.setSlot, dif_neg h]) rfl ?_
    intro hexact
    rw [widen_of_exact hexact, Machine.setSlot, dif_neg h, Machine.overflow, Machine.overflow,
      hm.limits, hexact.2.1]

theorem steady_newIdentity : W.Steady s Machine.newIdentity :=
  fun _ hm => ⟨rfl, hm.limits, hm.top_le, hm.steps⟩

theorem steady_jumpTo (offset : Nat) : W.Steady s (Machine.jumpTo offset) :=
  fun _ hm => ⟨rfl, hm.limits, hm.top_le, hm.steps⟩

theorem steady_print (function : Builtin) (text : String) :
    W.Steady s (Machine.print function text) := by
  intro m hm
  have hconsole : (W.widen m).console = m.console := rfl
  cases h : m.console.write text with
  | ok console =>
      refine steadyAt_ok () { m with console } (by rw [Machine.print, h]) ?_
        ⟨hm.limits, hm.top_le, hm.steps⟩
      rw [Machine.print, hconsole, h]
      rfl
  | error reason =>
      refine steadyAt_error (.builtinFailed function reason)
        (by rw [Machine.print, h]) ?_ rfl
      rw [Machine.print, hconsole, h]

theorem overflow_widen (hexact : W.Exact) (hm : W.Suits s m) :
    (W.widen m).overflow = m.overflow := by
  show Fault.stackOverflow W.roomy.stackSize = Fault.stackOverflow m.limits.stackSize
  rw [hexact.2.1, hm.limits]

theorem steady_pushLocal (slot : Nat) : W.Steady s (Machine.pushLocal slot) := by
  intro m hm
  cases h : m.stack[m.frame.base + slot]? with
  | some v =>
      have h' : (W.widen m).stack[(W.widen m).frame.base + slot]? = some v := by
        rw [widen, Array.getElem?_append_left (Array.getElem?_eq_some_iff.1 h).1]
        exact h
      have hread : ∀ m', m'.stack[m'.frame.base + slot]? = some v →
          Machine.pushLocal slot m' = Machine.push v m' := by
        intro m' hm'
        rw [Machine.pushLocal, Machine.bind_get, hm']
      have hpush := steady_push v m hm
      rw [SteadyAt, ← hread _ h, ← hread _ h'] at hpush
      exact hpush
  | none =>
      refine steadyAt_exhausted m.overflow
        (by rw [Machine.pushLocal, Machine.bind_get, h]; rfl) rfl fun hexact => ?_
      have h' : (W.widen m).stack[(W.widen m).frame.base + slot]? = none := by
        rw [widen_of_exact hexact]
        exact h
      rw [Machine.pushLocal, Machine.bind_get, h', overflow_widen hexact hm]
      rfl

theorem steady_storeGlobal (index : Nat) : W.Steady s (Machine.storeGlobal index) := by
  refine steady_pop.bind fun v m hm => ?_
  have hglobals := W.globalsSize
  by_cases h : m.limits.globalsSize ≤ index
  · refine steadyAt_exhausted (.globalsOverflow index m.limits.globalsSize)
      (by rw [Machine.bind_get, if_pos h]; rfl) rfl fun hexact => ?_
    have hsize : (W.widen m).limits.globalsSize = m.limits.globalsSize := by
      rw [hm.limits]
      exact hexact.2.2.2
    rw [Machine.bind_get, hsize, if_pos h]
    rfl
  · have h' : ¬(W.widen m).limits.globalsSize ≤ index := by
      rw [hm.limits] at h
      show ¬W.roomy.globalsSize ≤ index
      omega
    refine steadyAt_ok () { m with globals := Machine.storeAt m.globals index v }
      (by rw [Machine.bind_get, if_neg h]; rfl) ?_ ⟨hm.limits, hm.top_le, hm.steps⟩
    rw [Machine.bind_get, if_neg h']
    rfl

/-! ## Calls and returns -/

theorem clearSlots_append (stack rest : Array Value) (start count : Nat)
    (h : start + count ≤ stack.size) :
    Machine.clearSlots (stack ++ rest) start count =
      Machine.clearSlots stack start count ++ rest := by
  induction count generalizing stack start with
  | zero => rfl
  | succ count ih =>
      rw [Machine.clearSlots, Machine.clearSlots, Array.setIfInBounds_append_left (by omega),
        ih _ _ (by rw [Array.size_setIfInBounds]; omega)]

theorem steady_enter (id : Identity) (body : Template) (captured : List Value) (n : Nat) :
    W.Steady s (Machine.enter id body captured n) := by
  intro m hm
  have htop := hm.top_le
  have hframes := W.maxFrames
  by_cases hargs : n = body.parameters
  · have hargs' : ¬n ≠ body.parameters := not_not.2 hargs
    by_cases hdepth : m.limits.maxFrames ≤ m.callers.size + 1
    · refine steadyAt_exhausted (.frameOverflow m.limits.maxFrames)
        (by rw [Machine.enter, if_neg hargs', if_pos hdepth]) rfl fun hexact => ?_
      have hmax : (W.widen m).limits.maxFrames = m.limits.maxFrames := by
        rw [hm.limits]
        exact hexact.2.2.1
      rw [Machine.enter, if_neg hargs', hmax, if_pos (by exact hdepth)]
    · have hdepth' : ¬(W.widen m).limits.maxFrames ≤ (W.widen m).callers.size + 1 := by
        rw [hm.limits] at hdepth
        show ¬W.roomy.maxFrames ≤ m.callers.size + 1
        omega
      by_cases hsize : m.stack.size < m.top - n + body.locals
      · refine steadyAt_exhausted m.overflow
          (by rw [Machine.enter, if_neg hargs', if_neg hdepth, if_pos hsize]) rfl fun hexact => ?_
        have hsize' : (W.widen m).stack.size < (W.widen m).top - n + body.locals := by
          rw [widen_of_exact hexact]
          exact hsize
        rw [Machine.enter, if_neg hargs', if_neg hdepth', if_pos hsize', overflow_widen hexact hm]
      · have hsize' : ¬(W.widen m).stack.size < (W.widen m).top - n + body.locals := by
          have hle := size_le_widen (W := W) m
          show ¬(W.widen m).stack.size < m.top - n + body.locals
          omega
        -- What is cleared lies inside the smaller stack, so the nulls above stay apart.
        refine steadyAt_ok () { m with
            stack := Machine.clearSlots m.stack m.top (m.top - n + body.locals - m.top)
            top := m.top - n + body.locals
            frame := { id, body, captured, base := m.top - n }
            callers := m.callers.push m.frame }
          (by rw [Machine.enter, if_neg hargs', if_neg hdepth, if_neg hsize]) ?_
          ⟨hm.limits, ?_, hm.steps⟩
        · rw [Machine.enter, if_neg hargs', if_neg hdepth', if_neg hsize']
          simp only [widen]
          rw [clearSlots_append _ _ _ _ (by omega)]
        · rw [Machine.size_clearSlots]
          exact Nat.not_lt.1 hsize
  · refine steadyAt_error (.argumentCount body.parameters n)
      (by rw [Machine.enter, if_pos hargs]) ?_ rfl
    rw [Machine.enter, if_pos hargs]

theorem steady_callBuiltin (function : Builtin) (count : Nat) :
    W.Steady s (Machine.callBuiltin function count) := by
  refine steady_get (fun m hm => ?_) fun m hm => ?_
  · have hread : ((W.widen m).stack.extract ((W.widen m).top - count) (W.widen m).top).toList =
        (m.stack.extract (m.top - count) m.top).toList := congrArg _ (extract_widen hm _)
    have hconsole : (W.widen m).console = m.console := rfl
    rw [hread, hconsole]
  · refine (steady_print _ _ m hm).bind fun _ => steady_newIdentity.bind fun id m hm => ?_
    have hdrop : W.Suits s { m with top := m.top - count - 1 } :=
      ⟨hm.limits, by have := hm.top_le; show m.top - count - 1 ≤ m.stack.size; omega, hm.steps⟩
    exact steady_push _ _ hdrop

theorem steady_call (count : Nat) : W.Steady s (Machine.call count) := by
  refine steady_get (fun m hm => ?_) fun m hm => ?_
  · show (if m.top < count + 1 then _ else _) = _
    rw [slot_widen]
    rfl
  · split
    · exact steady_fail rfl m hm
    · split
      · exact steady_enter _ _ _ _ m hm
      · exact steady_callBuiltin _ _ m hm
      · exact steady_fail rfl m hm

theorem steady_leave (v : Value) : W.Steady s (Machine.leave v) := by
  refine steady_get (fun m hm => rfl) fun m hm => ?_
  split
  · exact (steady_jumpTo _ m hm).bind fun _ => steady_setSlot _ _
  · split
    · exact steady_fail rfl m hm
    · -- The cursor comes from the frame here, and the push finds out whether it is on the stack.
      exact steadyAt_push v hm.limits hm.steps

/-! ## Instructions -/

theorem arithmetic_intime {a b : Int64} {op : BinaryOperator} {f : Fault}
    (h : (ValueOf.arithmetic a b op : Except Fault Value) = .error f) : f.timesOut = false := by
  cases op <;> simp only [ValueOf.arithmetic] at h
  case divide =>
    split at h
    · cases h
      rfl
    · cases h
  all_goals cases h

theorem binary_intime {op : BinaryOperator} {l r : Value} {f : Fault}
    (h : ValueOf.binary op l r = .error f) : f.timesOut = false := by
  unfold ValueOf.binary at h
  split at h
  · exact arithmetic_intime h
  · split at h
    · cases h
    · cases h
      rfl
  · cases h
    rfl

theorem negate_intime {v : Value} {f : Fault} (h : v.negate = .error f) : f.timesOut = false := by
  cases v <;> cases h <;> rfl

theorem collectEntries_intime {es : List (Key × Value)} {vs : List Value} {f : Fault}
    (h : ValueOf.collectEntries es vs = .error f) : f.timesOut = false := by
  fun_induction ValueOf.collectEntries es vs with
  | case1 es k v rest key hkey ih => exact ih h
  | case2 es k v rest hkey =>
      cases h
      rfl
  | case3 es vs hshort => cases h

theorem atIndex_intime {c p : Value} {f : Fault} (h : c.atIndex p = .error f) :
    f.timesOut = false := by
  unfold ValueOf.atIndex at h
  split at h
  · cases h
  · split at h
    · cases h
    · cases h
      rfl
  · cases h
    rfl

theorem steady_applyBinary (op : BinaryOperator) : W.Steady s (Machine.applyBinary op) :=
  steady_pop.bind fun _ => steady_pop.bind fun _ =>
    (steady_check fun _ => binary_intime).bind steady_push

/-- No instruction notices the room that it does not need. -/
theorem steady_execute (i : Instruction) : W.Steady s (Machine.execute i) := by
  cases i
  case constant k =>
    refine steady_get (fun m hm => rfl) fun m hm => ?_
    split
    · exact steady_push _ m hm
    · exact steady_fail rfl m hm
  case add | subtract | multiply | divide | greater => exact steady_applyBinary _
  case pop => exact steady_pop.bind fun _ => steady_pure _
  case pushTrue | pushFalse | pushNull => exact steady_push _
  case equal | notEqual => exact steady_pop.bind fun _ => steady_pop.bind fun _ => steady_push _
  case negate =>
    exact steady_pop.bind fun _ => (steady_check fun _ => negate_intime).bind steady_push
  case not => exact steady_pop.bind fun _ => steady_push _
  case jumpUnless target =>
    refine steady_pop.bind fun v => ?_
    split
    · exact steady_pure _
    · exact steady_jumpTo _
  case jump target => exact steady_jumpTo _
  case getGlobal k => exact steady_get (fun m hm => rfl) fun m hm => steady_push _ m hm
  case setGlobal k => exact steady_storeGlobal k
  case array n =>
    exact (steady_take n).bind fun _ => steady_newIdentity.bind fun _ => steady_push _
  case hash n =>
    exact (steady_take n).bind fun _ => (steady_check fun _ => collectEntries_intime).bind fun _ =>
      steady_newIdentity.bind fun _ => steady_push _
  case index =>
    exact steady_pop.bind fun _ => steady_pop.bind fun _ =>
      (steady_check fun _ => atIndex_intime).bind steady_push
  case call n => exact steady_call n
  case returnValue => exact steady_pop.bind steady_leave
  case returnNull => exact steady_leave _
  case setLocal k =>
    refine steady_get (fun m hm => rfl) fun m hm => ?_
    exact (steady_pop m hm).bind fun v => steady_setSlot _ _
  case getLocal k => exact steady_pushLocal k
  case getBuiltin k =>
    rw [Machine.execute, Machine.pushBuiltin]
    split
    · exact steady_push _
    · exact steady_fail rfl
  case closure k n =>
    refine steady_get (fun m hm => rfl) fun m hm => ?_
    split
    · exact (steady_take n m hm).bind fun _ => steady_newIdentity.bind fun _ => steady_push _
    · exact steady_fail rfl m hm
  case getCaptured k =>
    refine steady_get (fun m hm => rfl) fun m hm => ?_
    split
    · exact steady_push _ m hm
    · exact steady_fail rfl m hm
  case currentClosure => exact steady_get (fun m hm => rfl) fun m hm => steady_push _ m hm

/-! ## Steps and runs -/

/-- The machines count alike, so it is up to their limits whether both go on. -/
theorem step_widen (hm : W.Suits s m)
    (hlimit : W.roomy.maxSteps.filter (· < s + 1) = W.tight.maxSteps.filter (· < s + 1)) :
    (∃ f m₁, m.step = .faulted f m₁ ∧ f.exhausts = true ∧ ¬W.Exact) ∨
      ((W.widen m).step = m.step.map W.widen ∧
        ∀ m₁, m.step = .running m₁ → W.Suits (s + 1) m₁) := by
  have hfetch : Code.fetch? (W.widen m).frame.body.code (W.widen m).frame.ip =
      Code.fetch? m.frame.body.code m.frame.ip := rfl
  rw [Machine.step, Machine.step, hfetch]
  cases Code.fetch? m.frame.body.code m.frame.ip with
  | error cause => exact .inr ⟨rfl, fun m₁ h => by cases h⟩
  | ok found =>
      cases found with
      | none => exact .inr ⟨rfl, fun m₁ h => by cases h⟩
      | some found =>
          obtain ⟨i, next⟩ := found
          have hs : W.Suits (s + 1) (m.advance next) :=
            ⟨hm.limits, hm.top_le, congrArg (· + 1) hm.steps⟩
          have hexceeds : ((W.widen m).advance next).exceedsLimit =
              (m.advance next).exceedsLimit := by
            show W.roomy.maxSteps.filter (· < m.steps + 1) =
              m.limits.maxSteps.filter (· < m.steps + 1)
            rw [hm.limits, hm.steps]
            exact hlimit
          simp only [hexceeds]
          cases (m.advance next).exceedsLimit with
          | some limit => exact .inr ⟨rfl, fun m₁ h => by cases h⟩
          | none =>
              have hexec := steady_execute i (m.advance next) hs
              have hwide : W.widen (m.advance next) = (W.widen m).advance next := rfl
              rw [SteadyAt, hwide] at hexec
              cases h : Machine.execute i (m.advance next) with
              | ok a m₁ =>
                  rw [h] at hexec
                  refine .inr ⟨?_, fun m₂ hm₂ => ?_⟩
                  · simp only [hexec.1, Progress.map]
                  · cases hm₂
                    exact hexec.2
              | error f m₁ =>
                  rw [h] at hexec
                  rcases hexec.2 with hsame | ⟨hf, hexact⟩
                  · refine .inr ⟨?_, fun m₂ hm₂ => by cases hm₂⟩
                    simp only [hsame, Progress.map]
                  · exact .inl ⟨f, m₁, rfl, hf, hexact⟩

theorem run_widen (hsteps : W.roomy.maxSteps = W.tight.maxSteps) (hm : W.Suits s m) (n : Nat)
    (hfits : ∀ f m₁, m.run n = .faulted f m₁ → f.exhausts = false) :
    (W.widen m).run n = (m.run n).map W.widen := by
  induction n generalizing m s with
  | zero => rfl
  | succ n ih =>
      rcases step_widen hm (by rw [hsteps]) with ⟨f, m₁, hstep, hf, -⟩ | ⟨hwide, hrunning⟩
      · have hfalse := hfits f m₁ (by rw [Machine.run, hstep])
        rw [hf] at hfalse
        cases hfalse
      · rw [Machine.run, Machine.run, hwide]
        cases hstep : m.step with
        | running m₁ =>
            refine ih (hrunning m₁ hstep) fun f m₂ hrun => hfits f m₂ ?_
            rw [Machine.run, hstep]
            exact hrun
        | halted m₁ | faulted f m₁ => rfl

end Widening

/-! ## What can be read after a run -/

/-- Nothing that is read after a run tells the machines apart. -/
structure Machine.LooksLike (m m' : Machine) : Prop where
  lastPopped : m'.lastPopped = m.lastPopped
  globals : m'.globals = m.globals
  console : m'.console = m.console

theorem Machine.LooksLike.symm {m m' : Machine} (h : m.LooksLike m') : m'.LooksLike m :=
  ⟨h.lastPopped.symm, h.globals.symm, h.console.symm⟩

/-- The runs stand alike: both go on, both have halted, or both ended with the same fault. -/
def Progress.LooksLike : Progress → Progress → Prop
  | .running m, .running m' => m.LooksLike m'
  | .halted m, .halted m' => m.LooksLike m'
  | .faulted f m, .faulted f' m' => f' = f ∧ m.LooksLike m'
  | _, _ => False

theorem Progress.LooksLike.ended {p q : Progress} (h : p.LooksLike q) (hp : p.Ended) : q.Ended := by
  cases p with
  | running m => exact absurd rfl (hp m)
  | halted m | faulted f m =>
      cases q with
      | running m' => exact h.elim
      | halted m' => exact ended_halted m'
      | faulted f' m' => exact ended_faulted f' m'

namespace Widening

variable {W : Widening}

theorem looksLike_widen (m : Machine) : m.LooksLike (W.widen m) :=
  ⟨slot_widen m m.top, rfl, rfl⟩

theorem looksLike_map (p : Progress) : p.LooksLike (p.map W.widen) := by
  cases p with
  | running m | halted m => exact looksLike_widen m
  | faulted f m => exact ⟨rfl, looksLike_widen m⟩

theorem suits_start (program : Bytecode) (globals : Array Value) (issued self : Identity)
    (console : Console) : W.Suits 0 (Machine.start W.tight program globals issued console self) :=
  ⟨rfl, Nat.zero_le _, rfl⟩

theorem widen_start (hpad : W.tight.stackSize + W.pad = W.roomy.stackSize) (program : Bytecode)
    (globals : Array Value) (issued self : Identity) (console : Console) :
    W.widen (Machine.start W.tight program globals issued console self) =
      Machine.start W.roomy program globals issued console self := by
  simp only [widen, Machine.start, Array.replicate_append_replicate, hpad]

end Widening

/-- A run that ends, and not because of a limit on stack, frames or globals, ends the same way when
these limits are raised. -/
theorem Machine.run_of_more_room (program : Bytecode) (globals : Array Value)
    (issued self : Identity) (console : Console) (l l' : Limits)
    (hsteps : l'.maxSteps = l.maxSteps)
    (hstack : l.stackSize ≤ l'.stackSize) (hframes : l.maxFrames ≤ l'.maxFrames)
    (hglobals : l.globalsSize ≤ l'.globalsSize) (n : Nat)
    (hended : ((start l program globals issued console self).run n).Ended)
    (hfits : ∀ f m, (start l program globals issued console self).run n = .faulted f m →
      f.exhausts = false) :
    ((start l' program globals issued console self).run n).Ended ∧
      ((start l program globals issued console self).run n).LooksLike
        ((start l' program globals issued console self).run n) := by
  let W : Widening := ⟨l, l', l'.stackSize - l.stackSize, hframes, hglobals⟩
  have hstart : W.widen (start l program globals issued console self) =
      start l' program globals issued console self :=
    Widening.widen_start (Nat.add_sub_of_le hstack) program globals issued self console
  have hrun := W.run_widen hsteps (W.suits_start program globals issued self console) n hfits
  have hlike :=
    Widening.looksLike_map (W := W) ((start l program globals issued console self).run n)
  rw [← hrun, hstart] at hlike
  exact ⟨hlike.ended hended, hlike⟩

namespace Machine

/-- A call that fills a stack of four slots, both frames and the one global. -/
def fullSample : Bytecode where
  code := ([.closure 0 0, .constant 1, .call 1, .setGlobal 0, .getGlobal 0, .pop].flatMap
    Instruction.encode).toArray
  constants := #[
    .template 0 {
      code := ([.getLocal 0, .setLocal 1, .getLocal 1, .returnValue].flatMap
        Instruction.encode).toArray
      locals := 2
      parameters := 1 },
    .int 7]

theorem run_of_more_room_fullSample :
    ∃ m m', (start { stackSize := 4, maxFrames := 2, globalsSize := 1 } fullSample #[] 1 {}).run
        12 = .halted m ∧ m.lastPopped.key? = some (.int 7) ∧
      (start {} fullSample #[] 1 {}).run 12 = .halted m' ∧ m.LooksLike m' := by
  have hkey : keyOf? ((start { stackSize := 4, maxFrames := 2, globalsSize := 1 } fullSample #[] 1
      {}).run 12) = some (.int 7) := by
    decide +kernel
  obtain ⟨m, hrun, hlast⟩ := eq_halted_of_keyOf? hkey
  have hlike := run_of_more_room fullSample #[] 1 1 {}
    { stackSize := 4, maxFrames := 2, globalsSize := 1 } {} rfl (by decide) (by decide)
    (by decide) 12 (hrun ▸ Progress.ended_halted m) (fun f m₁ h => by rw [hrun] at h; cases h)
  rw [hrun] at hlike
  cases hrun' : (start {} fullSample #[] 1 {}).run 12 with
  | halted m' =>
      rw [hrun'] at hlike
      exact ⟨m, m', hrun, hlast, rfl, hlike.2⟩
  | running m' | faulted f m' =>
      rw [hrun'] at hlike
      exact hlike.2.elim

end Machine

end Monkey
