import Monkey.Machine.Step
import Monkey.Proofs.Parametric
import Monkey.Proofs.Placement

/-!
# What one instruction does

A machine is seen here as the list of values on its stack and the world that outlives it: globals,
console and the next identity. `Shows` is that list. Popped values stay in the array above it and
have no part in it.

Most instructions take some values and answer with one, or with a fault. `Answers` says so for a
whole family of instructions at once, with the one thing that is left to the machine: a stack that
is full. The other instructions have a lemma each. A proof about what compiled code computes does
not unfold `execute` again.
-/

namespace Monkey

/-- What outlives the run of a machine. -/
abbrev World := WorldOf Template

/-- A frame at another offset. -/
def Frame.at (f : Frame) (offset : Nat) : Frame :=
  { f with ip := offset }

namespace Machine

/-- What is left of a run that ends here. -/
def world (m : Machine) : World :=
  ⟨m.globals, m.issued, m.console⟩

/-- The stack holds these values, the lowest first. -/
structure Shows (m : Machine) (xs : List Value) : Prop where
  top : m.top = xs.length
  fits : xs.length ≤ m.stack.size
  slot : ∀ i, i < xs.length → m.stack[i]? = xs[i]?

/-- A later machine with these frames, these values on the stack and this world. -/
structure Leads (m m' : Machine) (frame : Frame) (callers : Array Frame) (xs : List Value)
    (w : World) : Prop where
  shows : m'.Shows xs
  world : m'.world = w
  limits : m'.limits = m.limits
  constants : m'.constants = m.constants
  size : m'.stack.size = m.stack.size
  frame : m'.frame = frame
  callers : m'.callers = callers

/-- A later machine at the same place of the same call. -/
abbrev Moved (m m' : Machine) (xs : List Value) (w : World) : Prop :=
  m.Leads m' m.frame m.callers xs w

/-- An action answers with a value on top of `xs` in a world, or with a fault. -/
def Answers (x : Exec Unit) (m : Machine) (xs : List Value) : Except Fault (Value × World) → Prop
  | .ok (v, w) =>
      (xs.length < m.stack.size ∧ ∃ m', x m = .ok () m' ∧ m.Moved m' (xs ++ [v]) w) ∨
      (m.stack.size ≤ xs.length ∧ ∃ m', x m = .error m.overflow m' ∧ m'.globals = m.globals)
  | .error f => ∃ m', x m = .error f m' ∧ m'.world = m.world

/-! ## Actions in turn -/

theorem bind_ok {α β : Type} {x : Exec α} {f : α → Exec β} {m m' : Machine} {a : α}
    (h : x m = .ok a m') : (x >>= f) m = f a m' := by
  show EStateM.bind x f m = _
  rw [EStateM.bind, h]

theorem bind_error {α β : Type} {x : Exec α} {f : α → Exec β} {m m' : Machine} {e : Fault}
    (h : x m = .error e m') : (x >>= f) m = .error e m' := by
  show EStateM.bind x f m = _
  rw [EStateM.bind, h]

theorem bind_get {β : Type} {f : Machine → Exec β} (m : Machine) : (get >>= f) m = f m m :=
  rfl

/-! ## The stack as a list -/

variable {m m' : Machine} {xs : List Value} {v : Value} {w : World}

theorem Leads.globals {f : Frame} {callers : Array Frame} (h : m.Leads m' f callers xs w) :
    m'.globals = w.globals :=
  congrArg WorldOf.globals h.world

theorem Shows.congr (h : m.Shows xs) (hs : m'.stack = m.stack) (ht : m'.top = m.top) :
    m'.Shows xs :=
  ⟨ht.trans h.top, hs ▸ h.fits, hs ▸ h.slot⟩

theorem Shows.left {ys : List Value} (h : m.Shows (xs ++ ys)) :
    { m with top := xs.length }.Shows xs := by
  have hfits := h.fits
  rw [List.length_append] at hfits
  refine ⟨rfl, (Nat.le_add_right _ _).trans hfits, fun i hi => ?_⟩
  have hslot := h.slot i (by rw [List.length_append]; omega)
  rwa [List.getElem?_append_left hi] at hslot

theorem Shows.slot_eq (h : m.Shows xs) {i : Nat} (hi : xs[i]? = some v) : m.slot i = v := by
  have hlt := (List.getElem?_eq_some_iff.1 hi).1
  rw [Machine.slot, h.slot i hlt, hi]
  rfl

theorem Shows.unique {ys : List Value} (h : m.Shows xs) (h' : m.Shows ys) : xs = ys := by
  have hlen : xs.length = ys.length := by rw [← h.top, h'.top]
  refine List.ext_getElem? fun i => ?_
  rcases Nat.lt_or_ge i xs.length with hlt | hge
  · rw [← h.slot i hlt, h'.slot i (hlen ▸ hlt)]
  · rw [List.getElem?_eq_none hge, List.getElem?_eq_none (hlen ▸ hge)]

theorem push_ok (h : m.Shows xs) (hlt : xs.length < m.stack.size) (v : Value) :
    ∃ m', push v m = .ok () m' ∧ m.Moved m' (xs ++ [v]) m.world := by
  have htop : m.top < m.stack.size := by rw [h.top]; exact hlt
  refine ⟨{ m with stack := m.stack.set m.top v htop, top := m.top + 1 },
    by rw [push, dif_pos htop], ⟨?_, ?_, fun i hi => ?_⟩, rfl, rfl, rfl, ?_, rfl, rfl⟩
  · show m.top + 1 = _
    rw [h.top, List.length_append]
    rfl
  · rw [List.length_append, Array.size_set]
    exact hlt
  · rw [List.length_append] at hi
    show (m.stack.set m.top v htop)[i]? = _
    rw [Array.getElem?_set, h.top]
    by_cases heq : xs.length = i
    · rw [if_pos heq, ← heq, List.getElem?_append_right (Nat.le_refl _), Nat.sub_self]
      rfl
    · have hi' : i < xs.length := by
        have : i < xs.length + 1 := hi
        omega
      rw [if_neg heq, h.slot i hi', List.getElem?_append_left hi']
  · exact Array.size_set htop

theorem push_full (h : m.Shows xs) (hle : m.stack.size ≤ xs.length) (v : Value) :
    push v m = .error m.overflow m := by
  rw [push, dif_neg (by rw [h.top]; omega)]

theorem pop_ok (h : m.Shows (xs ++ [v])) :
    pop m = .ok v { m with top := xs.length } ∧ { m with top := xs.length }.Shows xs ∧
      { m with top := xs.length }.lastPopped = v := by
  have htop : m.top = xs.length + 1 := by
    rw [h.top, List.length_append]
    rfl
  have hv : m.slot xs.length = v := h.slot_eq (List.getElem?_concat_length)
  refine ⟨?_, h.left, hv⟩
  rw [pop, if_neg (by omega), htop, Nat.add_sub_cancel, hv]

theorem extract_eq {vs : List Value} (h : m.Shows (xs ++ vs)) :
    (m.stack.extract (m.top - vs.length) m.top).toList = vs := by
  have htop : m.top = xs.length + vs.length := by
    rw [h.top, List.length_append]
  have hfits : xs.length + vs.length ≤ m.stack.size := by
    rw [← List.length_append]
    exact h.fits
  refine List.ext_getElem? fun i => ?_
  rw [Array.getElem?_toList, Array.getElem?_extract, htop, Nat.add_sub_cancel]
  by_cases hi : i < vs.length
  · rw [if_pos (by omega), h.slot _ (by rw [List.length_append]; omega),
      List.getElem?_append_right (by omega), Nat.add_sub_cancel_left]
  · rw [if_neg (by omega), List.getElem?_eq_none (by omega)]

theorem take_ok {vs : List Value} (h : m.Shows (xs ++ vs)) :
    take vs.length m = .ok vs { m with top := xs.length } ∧
      { m with top := xs.length }.Shows xs := by
  have htop : m.top = xs.length + vs.length := by
    rw [h.top, List.length_append]
  refine ⟨?_, h.left⟩
  rw [take, if_pos (by omega), extract_eq h, htop, Nat.add_sub_cancel]

/-! ## Instructions that answer -/

/-- A value on top of what is there, in the world as it is or with a new object. -/
theorem push_answers (h : m.Shows xs) (v : Value) : Answers (push v) m xs (.ok (v, m.world)) := by
  rcases Nat.lt_or_ge xs.length m.stack.size with hlt | hle
  · exact .inl ⟨hlt, push_ok h hlt v⟩
  · exact .inr ⟨hle, m, push_full h hle v, rfl⟩

/-- An action that answers as another one does from a later machine of the same call. -/
theorem Answers.of_eq {x y : Exec Unit} {a : Except Fault (Value × World)} (ha : Answers y m' xs a)
    (hx : x m = y m') (hlimits : m'.limits = m.limits) (hconstants : m'.constants = m.constants)
    (hsize : m'.stack.size = m.stack.size) (hframe : m'.frame = m.frame)
    (hcallers : m'.callers = m.callers) (hglobals : m'.globals = m.globals)
    (hworld : ∀ f, a = .error f → m'.world = m.world) : Answers x m xs a := by
  match a, ha with
  | .ok (v, w), .inl ⟨hlt, m₁, heq, hm⟩ =>
      exact .inl ⟨hsize ▸ hlt, m₁, hx.trans heq, hm.shows, hm.world, hm.limits.trans hlimits,
        hm.constants.trans hconstants, hm.size.trans hsize, hm.frame.trans hframe,
        hm.callers.trans hcallers⟩
  | .ok (v, w), .inr ⟨hle, m₁, heq, hg⟩ =>
      refine .inr ⟨hsize ▸ hle, m₁, ?_, hg.trans hglobals⟩
      rw [hx, heq, overflow, hlimits]
      rfl
  | .error f, ⟨m₁, heq, hw⟩ => exact ⟨m₁, hx.trans heq, hw.trans (hworld f rfl)⟩

end Machine

/-- The value that an instruction reads and pushes. -/
def Instruction.source? (m : Machine) : Instruction → Option Value
  | .constant k => m.constants[k]?
  | .pushTrue => some (.bool true)
  | .pushFalse => some (.bool false)
  | .pushNull => some .null
  | .getGlobal k => some (m.globals[k]?.getD .null)
  | .getLocal k => m.stack[m.frame.base + k]?
  | .getBuiltin k => Builtin.all[k]?.map .builtin
  | .getCaptured k => m.frame.captured[k]?
  | .currentClosure => some m.frame.closure
  | _ => none

/-- What an instruction makes of one value. -/
def Instruction.unary? {F : Type} : Instruction → Option (ValueOf F → Except Fault (ValueOf F))
  | .negate => some ValueOf.negate
  | .not => some fun v => .ok (.bool !v.isTruthy)
  | _ => none

/-- What an instruction makes of two values. -/
def Instruction.binary? {F : Type} :
    Instruction → Option (ValueOf F → ValueOf F → Except Fault (ValueOf F))
  | .add => some (ValueOf.binary .add)
  | .subtract => some (ValueOf.binary .subtract)
  | .multiply => some (ValueOf.binary .multiply)
  | .divide => some (ValueOf.binary .divide)
  | .greater => some (ValueOf.binary .greater)
  | .equal => some fun l r => .ok (.bool (l.identical r == true))
  | .notEqual => some fun l r => .ok (.bool (l.identical r == false))
  | .index => some ValueOf.atIndex
  | _ => none

/-- The object that an instruction makes of several values. -/
def Instruction.collect? (constants : Array Value) :
    Instruction → Option (Nat × (List Value → Except Fault (Identity → Value)))
  | .array n => some (n, fun vs => .ok fun id => .array id vs)
  | .hash n => some (n, fun vs => (ValueOf.collectEntries [] vs).map fun es id => .hash id es)
  | .closure k n =>
      match constants[k]? with
      | some (.template _ body) => some (n, fun vs => .ok fun id => .closure id body vs)
      | _ => none
  | _ => none

namespace Machine

variable {m m' : Machine} {xs : List Value} {v : Value} {w : World} {i : Instruction}

theorem execute_source (hi : i.source? m = some v) (h : m.Shows xs) :
    Answers (execute i) m xs (.ok (v, m.world)) := by
  have hexec : execute i m = push v m := by
    cases i <;> try cases hi
    case constant k =>
      have hk : m.constants[k]? = some v := hi
      rw [execute, pushConstant, bind_get, hk]
    case getLocal k =>
      have hk : m.stack[m.frame.base + k]? = some v := hi
      rw [execute, pushLocal, bind_get, hk]
    case getBuiltin k =>
      obtain ⟨function, hk, rfl⟩ := Option.map_eq_some_iff.1 hi
      rw [execute, pushBuiltin, hk]
    case getCaptured k =>
      have hk : m.frame.captured[k]? = some v := hi
      rw [execute, pushCaptured, bind_get, hk]
    all_goals rfl
  exact (push_answers h v).of_eq hexec rfl rfl rfl rfl rfl rfl fun _ h => by cases h

theorem check_answers {a : Except Fault Value} (h : m.Shows xs) :
    Answers (fun m => (check a >>= push) m) m xs (a.map (·, m.world)) := by
  cases a with
  | ok v => exact push_answers h v
  | error f => exact ⟨m, rfl, rfl⟩

theorem execute_unary {f : Value → Except Fault Value} (hi : i.unary? = some f)
    (h : m.Shows (xs ++ [v])) : Answers (execute i) m xs ((f v).map (·, m.world)) := by
  obtain ⟨hpop, hshows, -⟩ := pop_ok h
  have hexec : execute i m = (check (f v) >>= push) { m with top := xs.length } := by
    cases i <;> cases hi
    · rw [execute, bind_ok hpop]
    · rw [execute, bind_ok hpop]
      rfl
  exact (check_answers (a := f v) hshows).of_eq hexec rfl rfl rfl rfl rfl rfl fun _ _ => rfl

theorem execute_binary {f : Value → Value → Except Fault Value} {l r : Value}
    (hi : i.binary? = some f) (h : m.Shows (xs ++ [l, r])) :
    Answers (execute i) m xs ((f l r).map (·, m.world)) := by
  have h' : m.Shows ((xs ++ [l]) ++ [r]) := by
    rw [List.append_assoc]
    exact h
  obtain ⟨hpop, hshows, -⟩ := pop_ok h'
  obtain ⟨hpop', hshows', -⟩ := pop_ok hshows
  have hexec : execute i m = (check (f l r) >>= push) { m with top := xs.length } := by
    cases i <;> cases hi
    case equal | notEqual =>
      rw [execute, compare, bind_ok hpop, bind_ok hpop']
      rfl
    case index => rw [execute, bind_ok hpop, bind_ok hpop']
    all_goals rw [execute, applyBinary, bind_ok hpop, bind_ok hpop']
  exact (check_answers (a := f l r) hshows').of_eq hexec rfl rfl rfl rfl rfl rfl fun _ _ => rfl

theorem new_answers (h : m.Shows xs) (f : Identity → Value) :
    Answers (newIdentity >>= fun id => push (f id)) m xs
      (.ok (f (m.issued + 1), { m.world with issued := m.issued + 1 })) :=
  have hshows : { m with issued := m.issued + 1 }.Shows xs := h.congr rfl rfl
  (push_answers hshows (f (m.issued + 1))).of_eq rfl rfl rfl rfl rfl rfl rfl fun _ h => by cases h

theorem execute_collect {vs : List Value} {f : List Value → Except Fault (Identity → Value)}
    (hi : i.collect? m.constants = some (vs.length, f)) (h : m.Shows (xs ++ vs)) :
    Answers (execute i) m xs
      ((f vs).map fun make => (make (m.issued + 1), { m.world with issued := m.issued + 1 })) := by
  obtain ⟨htake, hshows⟩ := take_ok h
  have hexec : execute i m =
      (check (f vs) >>= fun make => newIdentity >>= fun id => push (make id))
        { m with top := xs.length } := by
    cases i <;> try cases hi
    case array =>
      rw [execute, bind_ok htake]
      rfl
    case hash =>
      rw [execute, bind_ok htake]
      beta_reduce
      cases ValueOf.collectEntries [] vs <;> rfl
    case closure k n =>
      rw [Instruction.collect?] at hi
      split at hi
      · next id body hk =>
          cases hi
          rw [execute, makeClosure, bind_get, hk]
          show (take vs.length >>= fun captured =>
            newIdentity >>= fun id => push (.closure id body captured)) m = _
          rw [bind_ok htake]
          rfl
      · cases hi
  cases hf : f vs with
  | ok make =>
      rw [hf] at hexec
      exact (new_answers hshows make).of_eq hexec rfl rfl rfl rfl rfl rfl fun _ h => by cases h
  | error e =>
      rw [hf] at hexec
      exact ⟨_, hexec, rfl⟩

/-- Calls a value. -/
def dispatch (callee : Value) (count : Nat) : Exec Unit :=
  match callee with
  | .closure id body captured => enter id body captured count
  | .builtin function => callBuiltin function count
  | v => fail (.notAFunction v.kind)

theorem top_of_call {callee : Value} {vs : List Value} (h : m.Shows (xs ++ callee :: vs)) :
    m.top = xs.length + (vs.length + 1) := by
  rw [h.top, List.length_append, List.length_cons]

theorem execute_dispatch {callee : Value} {vs : List Value} (h : m.Shows (xs ++ callee :: vs)) :
    execute (.call vs.length) m = dispatch callee vs.length m := by
  have htop := top_of_call h
  have hcallee : m.slot (m.top - (vs.length + 1)) = callee := by
    refine h.slot_eq ?_
    rw [htop, Nat.add_sub_cancel, List.getElem?_append_right (Nat.le_refl _), Nat.sub_self]
    rfl
  rw [← hcallee, execute, call, bind_get, if_neg (by omega)]
  cases m.slot (m.top - (vs.length + 1)) <;> rfl

theorem execute_call {callee : Value} {vs : List Value}
    (hc : ∀ id body captured, callee ≠ .closure id body captured)
    (h : m.Shows (xs ++ callee :: vs)) :
    Answers (execute (.call vs.length)) m xs (callAnswer m.world callee vs) := by
  have htop := top_of_call h
  have hcall := execute_dispatch h
  cases callee with
  | closure id body captured => exact absurd rfl (hc id body captured)
  | builtin function =>
      have hvs : m.Shows ((xs ++ [.builtin function]) ++ vs) := by
        rw [List.append_assoc]
        exact h
      rw [callAnswer]
      cases hw : m.world.console.write (function.printed vs m.world.console.address) with
      | error reason =>
          have hprint : print function (function.printed vs m.console.address) m =
              .error (.builtinFailed function reason) m := by
            have hw' : m.console.write (function.printed vs m.console.address) = .error reason := hw
            rw [print, hw']
          refine ⟨m, ?_, rfl⟩
          rw [hcall, dispatch, callBuiltin, bind_get, extract_eq hvs, bind_error hprint]
      | ok console =>
          have hprint : print function (function.printed vs m.console.address) m =
              .ok () { m with console } := by
            have hw' : m.console.write (function.printed vs m.console.address) = .ok console := hw
            rw [print, hw']
          have hexec : execute (.call vs.length) m = push (function.apply (m.issued + 1) vs)
              { m with console, issued := m.issued + 1, top := xs.length } := by
            rw [hcall, dispatch, callBuiltin, bind_get, extract_eq hvs, bind_ok hprint]
            show push (function.apply (m.issued + 1) vs)
              { m with console, issued := m.issued + 1, top := m.top - vs.length - 1 } = _
            rw [htop, Nat.sub_sub, Nat.add_sub_cancel]
          have hshows : { m with console, issued := m.issued + 1, top := xs.length }.Shows xs :=
            h.left.congr rfl rfl
          exact (push_answers hshows _).of_eq hexec rfl rfl rfl rfl rfl rfl fun _ h => by cases h
  | _ => exact ⟨m, hcall, rfl⟩

/-! ## Instructions that store, jump, call and return -/

theorem execute_pop (h : m.Shows (xs ++ [v])) :
    ∃ m', execute .pop m = .ok () m' ∧ m.Moved m' xs m.world ∧ m'.lastPopped = v := by
  obtain ⟨hpop, hshows, hlast⟩ := pop_ok h
  exact ⟨_, by rw [execute, bind_ok hpop]; rfl, ⟨hshows, rfl, rfl, rfl, rfl, rfl, rfl⟩, hlast⟩

/-- Globals with one of them stored. -/
def storeAt {F : Type} (globals : Array (ValueOf F)) (k : Nat) (v : ValueOf F) :
    Array (ValueOf F) :=
  (growGlobals globals k).setIfInBounds k v

theorem execute_setGlobal {k : Nat} (h : m.Shows (xs ++ [v])) (hk : k < m.limits.globalsSize) :
    ∃ m', execute (.setGlobal k) m = .ok () m' ∧
      m.Moved m' xs { m.world with globals := storeAt m.globals k v } ∧ m'.lastPopped = v := by
  obtain ⟨hpop, hshows, hlast⟩ := pop_ok h
  refine ⟨{ m with top := xs.length, globals := storeAt m.globals k v }, ?_,
    ⟨hshows.congr rfl rfl, rfl, rfl, rfl, rfl, rfl, rfl⟩, hlast⟩
  rw [execute, storeGlobal, bind_ok hpop, bind_get, if_neg (by exact Nat.not_le.2 hk)]
  rfl

theorem execute_setGlobal_full {k : Nat} (h : m.Shows (xs ++ [v]))
    (hk : m.limits.globalsSize ≤ k) :
    ∃ m', execute (.setGlobal k) m = .error (.globalsOverflow k m.limits.globalsSize) m' ∧
      m'.world = m.world := by
  obtain ⟨hpop, -, -⟩ := pop_ok h
  refine ⟨{ m with top := xs.length }, ?_, rfl⟩
  rw [execute, storeGlobal, bind_ok hpop, bind_get, if_pos (by exact hk)]
  rfl

theorem execute_setLocal {k : Nat} (h : m.Shows (xs ++ [v])) (hk : m.frame.base + k < xs.length) :
    ∃ m', execute (.setLocal k) m = .ok () m' ∧
      m.Moved m' (xs.set (m.frame.base + k) v) m.world ∧ m'.lastPopped = v := by
  obtain ⟨hpop, hshows, hlast⟩ := pop_ok h
  have hsize : m.frame.base + k < m.stack.size := Nat.lt_of_lt_of_le hk hshows.fits
  refine ⟨{ m with top := xs.length, stack := m.stack.set (m.frame.base + k) v hsize }, ?_,
    ⟨⟨by rw [List.length_set], ?_, fun i hi => ?_⟩, rfl, rfl, rfl, Array.size_set hsize, rfl, rfl⟩,
    ?_⟩
  · rw [execute, storeLocal, bind_get, bind_ok hpop, setSlot, dif_pos hsize]
  · rw [List.length_set, Array.size_set]
    exact hshows.fits
  · rw [List.length_set] at hi
    rw [Array.getElem?_set, List.getElem?_set, hshows.slot i hi, if_pos hk]
  · show (m.stack.set (m.frame.base + k) v hsize)[xs.length]?.getD .null = v
    rw [Array.getElem?_set, if_neg (Nat.ne_of_lt hk)]
    exact hlast

theorem execute_jump {target : Nat} (h : m.Shows xs) :
    ∃ m', execute (.jump target) m = .ok () m' ∧
      m.Leads m' (m.frame.at target) m.callers xs m.world :=
  ⟨_, rfl, h.congr rfl rfl, rfl, rfl, rfl, rfl, rfl, rfl⟩

theorem execute_jumpUnless {target : Nat} (h : m.Shows (xs ++ [v])) :
    ∃ m', execute (.jumpUnless target) m = .ok () m' ∧
      m.Leads m' (if v.isTruthy then m.frame else m.frame.at target) m.callers xs m.world := by
  obtain ⟨hpop, hshows, -⟩ := pop_ok h
  rw [execute, bind_ok hpop]
  cases v.isTruthy with
  | true => exact ⟨_, rfl, hshows, rfl, rfl, rfl, rfl, rfl, rfl⟩
  | false => exact ⟨_, rfl, hshows.congr rfl rfl, rfl, rfl, rfl, rfl, rfl, rfl⟩

theorem getElem?_clearSlots (stack : Array Value) (start count i : Nat)
    (h : start + count ≤ stack.size) :
    (clearSlots stack start count)[i]? =
      if start ≤ i ∧ i < start + count then some .null else stack[i]? := by
  induction count generalizing stack start with
  | zero => rw [clearSlots, if_neg (by omega)]
  | succ count ih =>
      rw [clearSlots, ih _ _ (by rw [Array.size_setIfInBounds]; omega)]
      by_cases heq : start = i
      · subst heq
        rw [if_neg (by omega), if_pos (by omega),
          Array.getElem?_setIfInBounds_self_of_lt (by omega)]
      · rw [Array.getElem?_setIfInBounds_ne heq]
        by_cases hin : start + 1 ≤ i ∧ i < start + 1 + count
        · rw [if_pos hin, if_pos (by omega)]
        · rw [if_neg hin, if_neg (by omega)]

theorem size_clearSlots (stack : Array Value) (start count : Nat) :
    (clearSlots stack start count).size = stack.size := by
  induction count generalizing stack start with
  | zero => rfl
  | succ count ih => rw [clearSlots, ih, Array.size_setIfInBounds]

/-- The values on the stack when a call begins: the arguments, then null in the other slots. -/
def slotsOf (locals : Nat) {F : Type} (arguments : List (ValueOf F)) : List (ValueOf F) :=
  arguments ++ List.replicate (locals - arguments.length) .null

theorem length_slotsOf {F : Type} {locals : Nat} {arguments : List (ValueOf F)}
    (h : arguments.length ≤ locals) : (slotsOf locals arguments).length = locals := by
  rw [slotsOf, List.length_append, List.length_replicate]
  omega

/-- A closure is called: the number of arguments, the frames and the stack are checked, in this
order. -/
theorem execute_closure {id : Identity} {body : Template} {captured vs : List Value}
    (h : m.Shows (xs ++ .closure id body captured :: vs))
    (hlocals : body.parameters ≤ body.locals) :
    (vs.length ≠ body.parameters ∧
      execute (.call vs.length) m = .error (.argumentCount body.parameters vs.length) m) ∨
    (vs.length = body.parameters ∧ m.limits.maxFrames ≤ m.callers.size + 1 ∧
      execute (.call vs.length) m = .error (.frameOverflow m.limits.maxFrames) m) ∨
    (m.stack.size < xs.length + 1 + body.locals ∧
      execute (.call vs.length) m = .error m.overflow m) ∨
    (vs.length = body.parameters ∧ m.callers.size + 1 < m.limits.maxFrames ∧
      ∃ m', execute (.call vs.length) m = .ok () m' ∧
        m.Leads m' { id, body, captured, base := xs.length + 1 } (m.callers.push m.frame)
          (xs ++ .closure id body captured :: slotsOf body.locals vs) m.world) := by
  have htop := top_of_call h
  have hexec : execute (.call vs.length) m = enter id body captured vs.length m :=
    execute_dispatch h
  have hbase : m.top - vs.length = xs.length + 1 := by omega
  rw [hexec, enter, hbase]
  by_cases hargs : vs.length = body.parameters
  · rw [if_neg (not_not.2 hargs)]
    by_cases hframes : m.limits.maxFrames ≤ m.callers.size + 1
    · rw [if_pos hframes]
      exact .inr (.inl ⟨hargs, hframes, rfl⟩)
    · rw [if_neg hframes]
      by_cases hsize : m.stack.size < xs.length + 1 + body.locals
      · rw [if_pos hsize]
        exact .inr (.inr (.inl ⟨hsize, rfl⟩))
      · rw [if_neg hsize]
        have hlen : (xs ++ .closure id body captured :: slotsOf body.locals vs).length =
            xs.length + 1 + body.locals := by
          rw [List.length_append, List.length_cons, length_slotsOf (by omega)]
          omega
        refine .inr (.inr (.inr ⟨hargs, Nat.not_le.1 hframes, _, rfl,
          ⟨hlen.symm, ?_, fun i hi => ?_⟩, rfl, rfl, rfl, size_clearSlots _ _ _, rfl, rfl⟩))
        · rw [hlen, size_clearSlots]
          exact Nat.not_lt.1 hsize
        · rw [hlen] at hi
          show (clearSlots m.stack m.top (xs.length + 1 + body.locals - m.top))[i]? = _
          rw [getElem?_clearSlots _ _ _ _ (by omega), slotsOf, ← List.cons_append,
            ← List.append_assoc]
          have hlen' : (xs ++ .closure id body captured :: vs).length = m.top := h.top.symm
          -- The arguments stay in place, and what is cleared starts above them.
          by_cases hlt : i < m.top
          · rw [if_neg (by omega), h.slot i (by omega)]
            exact (List.getElem?_append_left (by omega)).symm
          · rw [if_pos (by omega), List.getElem?_append_right (by omega),
              List.getElem?_replicate_of_lt (by omega)]
  · rw [if_pos hargs]
    exact .inl ⟨hargs, rfl⟩

theorem leave_inner {caller : Frame} {callers : Array Frame} {b : Nat} (h : m.Shows xs)
    (hcallers : m.callers = callers.push caller) (hbase : m.frame.base = b + 1) (hb : b < xs.length)
    (v : Value) :
    ∃ m', leave v m = .ok () m' ∧ m.Leads m' caller callers (xs.take b ++ [v]) m.world := by
  have hlen : (xs.take b).length = b := by
    rw [List.length_take]
    omega
  have hshows : { m with frame := caller, callers := m.callers.pop, top := m.frame.base - 1 }.Shows
      (xs.take b) := by
    have h' : m.Shows (xs.take b ++ xs.drop b) := by
      rw [List.take_append_drop]
      exact h
    refine h'.left.congr rfl ?_
    rw [hlen, hbase]
    rfl
  have hfits := h.fits
  obtain ⟨m', hpush, hm⟩ := push_ok hshows (by rw [hlen]; exact Nat.lt_of_lt_of_le hb hfits) v
  refine ⟨m', ?_, hm.shows, hm.world, hm.limits, hm.constants, hm.size, hm.frame, ?_⟩
  · have hback : m.callers.back? = some caller := by
      rw [hcallers, Array.back?_push]
    rw [leave, bind_get, hback]
    show (if m.frame.base = 0 then fail .stackUnderflow else _) m = _
    rw [if_neg (by omega)]
    exact hpush
  · rw [hm.callers]
    show m.callers.pop = callers
    rw [hcallers, Array.pop_push]

theorem execute_returnValue {caller : Frame} {callers : Array Frame} {b : Nat}
    (h : m.Shows (xs ++ [v])) (hcallers : m.callers = callers.push caller)
    (hbase : m.frame.base = b + 1) (hb : b < xs.length) :
    ∃ m', execute .returnValue m = .ok () m' ∧
      m.Leads m' caller callers (xs.take b ++ [v]) m.world := by
  obtain ⟨hpop, hshows, -⟩ := pop_ok h
  obtain ⟨m', hleave, hm⟩ := leave_inner hshows hcallers hbase hb v
  refine ⟨m', ?_, hm.shows, hm.world, hm.limits, hm.constants, hm.size, hm.frame, hm.callers⟩
  rw [execute, bind_ok hpop, hleave]

theorem execute_returnValue_top (h : m.Shows (xs ++ [v])) (hcallers : m.callers = #[]) :
    ∃ m', execute .returnValue m = .ok () m' ∧
      m.Leads m' (m.frame.at m.frame.body.code.size) m.callers xs m.world ∧
      m'.lastPopped = v := by
  obtain ⟨hpop, hshows, -⟩ := pop_ok h
  have hsize : xs.length < m.stack.size := by
    have hfits := h.fits
    rw [List.length_append] at hfits
    exact hfits
  -- The value is written back to where it was popped from, for the end of the run to read.
  refine ⟨{ m with
      top := xs.length
      frame := m.frame.at m.frame.body.code.size
      stack := m.stack.set xs.length v hsize }, ?_,
    ⟨⟨rfl, ?_, fun i hi => ?_⟩, rfl, rfl, rfl, Array.size_set hsize, rfl, rfl⟩, ?_⟩
  · have hback : m.callers.back? = none := by
      rw [hcallers]
      rfl
    rw [execute, bind_ok hpop, leave, bind_get, hback]
    show setSlot xs.length v
      { m with top := xs.length, frame := m.frame.at m.frame.body.code.size } = _
    rw [setSlot, dif_pos hsize]
  · rw [Array.size_set]
    exact hshows.fits
  · show (m.stack.set xs.length v hsize)[i]? = _
    rw [Array.getElem?_set, if_neg (by omega)]
    exact hshows.slot i hi
  · show (m.stack.set xs.length v hsize)[xs.length]?.getD .null = v
    rw [Array.getElem?_set_self]
    rfl

/-! ## Globals change in stores only -/

/-- The machine that an action leaves, whether it faults or not. -/
def outcome {α : Type} : EStateM.Result Fault Machine α → Machine
  | .ok _ m | .error _ m => m

/-- An action leaves the globals alone. -/
def Keeps {α : Type} (x : Exec α) : Prop :=
  ∀ m, (outcome (x m)).globals = m.globals

section Keeps

variable {α β : Type}

theorem keeps_pure (a : α) : Keeps (pure a) :=
  fun _ => rfl

theorem keeps_get : Keeps get :=
  fun _ => rfl

theorem keeps_fail (f : Fault) : Keeps (fail f : Exec α) :=
  fun _ => rfl

theorem keeps_check (a : Except Fault α) : Keeps (check a) := by
  cases a with
  | ok a => exact keeps_pure a
  | error f => exact keeps_fail f

theorem keeps_modify {f : Machine → Machine} (h : ∀ m, (f m).globals = m.globals) :
    Keeps (modify f : Exec PUnit) :=
  h

theorem keeps_jumpTo (offset : Nat) : Keeps (jumpTo offset) :=
  fun _ => rfl

theorem Keeps.bind {x : Exec α} {f : α → Exec β} (hx : Keeps x) (hf : ∀ a, Keeps (f a)) :
    Keeps (x >>= f) := by
  intro m
  have hglobals := hx m
  cases h : x m with
  | error e m₁ =>
      rw [bind_error h]
      rw [h] at hglobals
      exact hglobals
  | ok a m₁ =>
      rw [bind_ok h]
      rw [h] at hglobals
      exact (hf a m₁).trans hglobals

theorem keeps_push (v : Value) : Keeps (push v) := by
  intro m
  rw [push]
  split <;> rfl

theorem keeps_pop : Keeps pop := by
  intro m
  rw [pop]
  split <;> rfl

theorem keeps_take (count : Nat) : Keeps (take count) := by
  intro m
  rw [take]
  split <;> rfl

theorem keeps_setSlot (i : Nat) (v : Value) : Keeps (setSlot i v) := by
  intro m
  rw [setSlot]
  split <;> rfl

theorem keeps_newIdentity : Keeps newIdentity :=
  fun _ => rfl

theorem keeps_print (function : Builtin) (text : String) : Keeps (print function text) := by
  intro m
  rw [print]
  split <;> rfl

theorem keeps_enter (id : Identity) (body : Template) (captured : List Value) (n : Nat) :
    Keeps (enter id body captured n) := by
  intro m
  rw [enter]
  split
  · rfl
  · split
    · rfl
    · split <;> rfl

theorem keeps_call (count : Nat) : Keeps (call count) := by
  refine keeps_get.bind fun m => ?_
  split
  · exact keeps_fail _
  · split
    · exact keeps_enter _ _ _ _
    · refine keeps_get.bind fun m => (keeps_print _ _).bind fun _ => ?_
      refine keeps_newIdentity.bind fun id => Keeps.bind (keeps_modify fun m => ?_) fun _ =>
        keeps_push _
      rfl
    · exact keeps_fail _

theorem keeps_leave (v : Value) : Keeps (leave v) := by
  refine keeps_get.bind fun m => ?_
  split
  · exact (keeps_jumpTo _).bind fun _ => keeps_setSlot _ _
  · split
    · exact keeps_fail _
    · refine Keeps.bind (keeps_modify fun m => ?_) fun _ => keeps_push _
      rfl

theorem keeps_execute {i : Instruction} (hi : ∀ k, i ≠ .setGlobal k) : Keeps (execute i) := by
  have hoperator : ∀ f : Value → Value → Except Fault Value,
      Keeps (pop >>= fun r => pop >>= fun l => check (f l r) >>= push) :=
    fun f => keeps_pop.bind fun _ => keeps_pop.bind fun _ => (keeps_check _).bind keeps_push
  cases i
  case setGlobal k => exact absurd rfl (hi k)
  case constant k =>
    refine keeps_get.bind fun m => ?_
    split
    · exact keeps_push _
    · exact keeps_fail _
  case add | subtract | multiply | divide | greater | index => exact hoperator _
  case equal | notEqual =>
    exact keeps_pop.bind fun _ => keeps_pop.bind fun _ => keeps_push _
  case pop => exact keeps_pop.bind fun _ => keeps_pure _
  case pushTrue | pushFalse | pushNull => exact keeps_push _
  case negate => exact keeps_pop.bind fun _ => (keeps_check _).bind keeps_push
  case not => exact keeps_pop.bind fun _ => keeps_push _
  case jumpUnless target =>
    refine keeps_pop.bind fun v => ?_
    split
    · exact keeps_pure _
    · exact keeps_jumpTo _
  case jump target => exact keeps_jumpTo _
  case getGlobal k => exact keeps_get.bind fun m => keeps_push _
  case array n =>
    exact (keeps_take n).bind fun _ => keeps_newIdentity.bind fun _ => keeps_push _
  case hash n =>
    exact (keeps_take n).bind fun _ => (keeps_check _).bind fun _ => keeps_newIdentity.bind fun _ =>
      keeps_push _
  case call n => exact keeps_call n
  case returnValue => exact keeps_pop.bind keeps_leave
  case returnNull => exact keeps_leave _
  case setLocal k => exact keeps_get.bind fun m => keeps_pop.bind fun v => keeps_setSlot _ _
  case getLocal k =>
    refine keeps_get.bind fun m => ?_
    split
    · exact keeps_push _
    · exact keeps_fail _
  case getBuiltin k =>
    rw [execute, pushBuiltin]
    split
    · exact keeps_push _
    · exact keeps_fail _
  case closure k n =>
    refine keeps_get.bind fun m => ?_
    split
    · exact (keeps_take n).bind fun _ => keeps_newIdentity.bind fun _ => keeps_push _
    · exact keeps_fail _
  case getCaptured k =>
    refine keeps_get.bind fun m => ?_
    split
    · exact keeps_push _
    · exact keeps_fail _
  case currentClosure => exact keeps_get.bind fun m => keeps_push _

end Keeps

/-! ## Steps -/

theorem Shows.advance (h : m.Shows xs) (next : Nat) : (m.advance next).Shows xs :=
  h.congr rfl rfl

/-- How a run stands after an instruction. -/
def settle : EStateM.Result Fault Machine Unit → Progress
  | .ok _ m => .running m
  | .error fault m => .faulted fault m

/-- A step fetches the instruction at hand, counts it and executes it. -/
theorem step_eq {next : Nat} (hi : m.frame.body.code.Holds m.frame.ip i next)
    (hlimit : (m.advance next).exceedsLimit = none) :
    m.step = settle (execute i (m.advance next)) := by
  rw [step, hi]
  dsimp only
  rw [hlimit]
  rfl

theorem step_of_unlimited {next : Nat} (hsteps : m.limits.maxSteps = none)
    (hi : m.frame.body.code.Holds m.frame.ip i next) :
    m.step = settle (execute i (m.advance next)) := by
  refine step_eq hi ?_
  show m.limits.maxSteps.filter _ = none
  rw [hsteps]
  rfl

theorem step_limit {next limit : Nat} (hi : m.frame.body.code.Holds m.frame.ip i next)
    (hlimit : (m.advance next).exceedsLimit = some limit) :
    m.step = .faulted (.stepLimit limit) (m.advance next) := by
  rw [step, hi]
  dsimp only
  rw [hlimit]

theorem step_end (h : m.frame.ip = m.frame.body.code.size) : m.step = .halted m := by
  rw [step, Code.fetch?, h, Array.getElem?_size]

end Machine

end Monkey
