import Monkey.Proofs.Safety

/-!
# What holds of a machine that runs compiled code

A machine that runs safe code has sound values on its stack and a stack of frames in which each
waiting call will go on safely with one value more. `Ok` is that invariant, and a step keeps it: the
machine faults for a reason of the program, or goes on, or ends at the top level with an empty
stack.

Globals are shared by all programs of a session, and each program is compiled against a pool of its
own. A `Stage` is a program with the globals it may read and those it may store to. `Kept` says that
running it touches no others, which is what makes programs of different stages run side by side.
-/

namespace Monkey

/-- A program, the number of globals that it may read, and the first that it may store to. -/
structure Stage where
  bytecode : Bytecode
  own : Nat
  globals : Nat

namespace Stage

/-- The room of the top level. -/
def room (st : Stage) : Room :=
  ⟨st.globals, st.own, 0, 0, false⟩

/-- The value is sound for a run of the program. -/
def Accepts (st : Stage) (v : Value) : Prop :=
  Sound st.bytecode.constants st.globals v

/-- The globals that the program may read are sound. -/
def Reads (st : Stage) (globals : Array Value) : Prop :=
  ∀ (i : Nat) (v : Value), i < st.globals → globals[i]? = some v → st.Accepts v

/-- Globals as a run of the program may leave them. -/
structure Kept (st : Stage) (g g' : Array Value) : Prop where
  others : ∀ i : Nat, ¬(st.own ≤ i ∧ i < st.globals) → g'[i]?.getD .null = g[i]?.getD .null
  mine : ∀ (i : Nat) (v : Value), st.own ≤ i → i < st.globals → g'[i]? = some v →
    g[i]? = some v ∨ st.Accepts v
  size : g'.size ≤ max g.size st.globals

end Stage

/-! ## Globals -/

namespace Machine

theorem size_storeAt {F : Type} (globals : Array (ValueOf F)) (k : Nat) (v : ValueOf F) :
    (storeAt globals k v).size = max globals.size (k + 1) := by
  rw [storeAt, growGlobals, Array.size_setIfInBounds, Array.size_append, Array.size_replicate]
  omega

theorem getElem?_storeAt {F : Type} (globals : Array (ValueOf F)) (k i : Nat) (v : ValueOf F) :
    (storeAt globals k v)[i]? =
      if i = k then some v else if i < globals.size then globals[i]?
      else if i < k then some .null else none := by
  rw [storeAt, growGlobals, Array.getElem?_setIfInBounds, Array.getElem?_append,
    Array.getElem?_replicate, Array.size_append, Array.size_replicate]
  grind

theorem getD_storeAt {F : Type} (globals : Array (ValueOf F)) {k i : Nat} (v : ValueOf F)
    (hne : i ≠ k) : (storeAt globals k v)[i]?.getD .null = globals[i]?.getD .null := by
  rw [getElem?_storeAt, if_neg hne]
  by_cases hlt : i < globals.size
  · rw [if_pos hlt]
  · rw [if_neg hlt, Array.getElem?_eq_none (Nat.not_lt.1 hlt)]
    split <;> rfl

end Machine

namespace Stage

variable {st : Stage} {g g' g'' : Array Value}

theorem Kept.refl (st : Stage) (g : Array Value) : st.Kept g g :=
  ⟨fun _ _ => rfl, fun _ _ _ _ h => .inl h, Nat.le_max_left _ _⟩

theorem Kept.store (h : st.Kept g g') {k : Nat} {v : Value} (hown : st.own ≤ k)
    (hk : k < st.globals) (hv : st.Accepts v) : st.Kept g (Machine.storeAt g' k v) := by
  refine ⟨fun i hi => ?_, fun i w hi hlt hw => ?_, ?_⟩
  · rw [Machine.getD_storeAt _ _ (by rintro rfl; exact hi ⟨hown, hk⟩)]
    exact h.others i hi
  · rw [Machine.getElem?_storeAt] at hw
    split at hw
    · injection hw with hw
      exact .inr (hw ▸ hv)
    · split at hw
      · exact h.mine i w hi hlt hw
      · split at hw
        · injection hw with hw
          exact .inr (hw ▸ Related.null)
        · cases hw
  · have := h.size
    rw [Machine.size_storeAt]
    omega

/-- A program whose values the other one may use, or whose own globals it cannot read. -/
def Before (st st' : Stage) : Prop :=
  (PoolLe st.bytecode.constants st'.bytecode.constants ∧ st.globals ≤ st'.globals) ∨
    st'.globals ≤ st.own

theorem Before.refl (st : Stage) : st.Before st :=
  .inl ⟨.refl _, Nat.le_refl _⟩

/-- What a run leaves can be read by other programs as before. -/
theorem Kept.reads {st' : Stage} (h : st.Kept g g') (hst : st.Before st') (hg : st'.Reads g) :
    st'.Reads g' := by
  intro i v hi hv
  by_cases hin : st.own ≤ i ∧ i < st.globals
  · rcases hst with ⟨hK, hle⟩ | hle
    · rcases h.mine i v hin.1 hin.2 hv with hv | hv
      · exact hg i v hi hv
      · exact hv.mono hK hle
    · omega
  · have hother := h.others i hin
    rw [hv] at hother
    have heq : v = g[i]?.getD .null := hother
    cases hgi : g[i]? with
    | none =>
        rw [hgi] at heq
        exact heq ▸ Related.null
    | some w =>
        rw [hgi] at heq
        exact heq ▸ hg i w hi hgi

theorem Reads.getD (hg : st.Reads g) {i : Nat} (hi : i < st.globals) :
    st.Accepts (g[i]?.getD .null) := by
  cases hgi : g[i]? with
  | none => exact Related.null
  | some v => exact hg i v hi hgi

end Stage

/-! ## Frames -/

/-- The room of a function that runs in a frame. -/
def Frame.room (f : Frame) (globals : Nat) : Room :=
  ⟨globals, 0, f.body.locals, f.captured.length, true⟩

/-- A frame over those that wait for it, with the stack up to `top`. A frame that waits goes on with
the value of the call in the place of the callee, so its stack then ends where the slots of the
call began. -/
inductive Stacked (st : Stage) : List Frame → Frame → Nat → Prop where
  | outermost {f h} : f.base = 0 → f.body.locals = 0 →
      Safe st.bytecode.constants st.room f.body.code f.ip h → Stacked st [] f h
  | inner {callers caller f h} : Stacked st callers caller f.base →
      caller.base + caller.body.locals < f.base → st.Accepts f.closure →
      Safe st.bytecode.constants (f.room st.globals) f.body.code f.ip h →
      Stacked st (caller :: callers) f (f.base + f.body.locals + h)

/-- What the code of the running frame may rely on. -/
structure Running (st : Stage) (callers : List Frame) (f : Frame) (room : Room) (h : Nat) :
    Prop where
  safe : Safe st.bytecode.constants room f.body.code f.ip h
  globals : room.globals = st.globals
  slots : room.slots ≤ f.body.locals
  captured : ∀ k, k < room.captures → ∃ v, f.captured[k]? = some v ∧ st.Accepts v
  top : room.inner = false → callers = [] ∧ room.own = st.own ∧ f.base + f.body.locals = 0
  inner : room.inner = true → callers ≠ [] ∧ st.Accepts f.closure
  /-- The frame is as good at any other safe place of its code. -/
  resume : ∀ ip h', Safe st.bytecode.constants room f.body.code ip h' →
    Stacked st callers (f.at ip) (f.base + f.body.locals + h')

theorem Stacked.running {st : Stage} {callers : List Frame} {f : Frame} {top : Nat}
    (hst : Stacked st callers f top) :
    ∃ room h, top = f.base + f.body.locals + h ∧ Running st callers f room h := by
  cases hst with
  | outermost hbase hlocals hsafe =>
      refine ⟨st.room, top, by omega, hsafe, rfl, Nat.zero_le _,
        fun k hk => absurd hk (Nat.not_lt_zero k), fun _ => ⟨rfl, rfl, by omega⟩, nofun,
        fun ip h' hsafe' => ?_⟩
      have htop : f.base + f.body.locals + h' = h' := by omega
      rw [htop]
      exact .outermost hbase hlocals hsafe'
  | inner hwaits hlt hclosure hsafe =>
      refine ⟨f.room st.globals, _, rfl, hsafe, rfl, Nat.le_refl _, fun k hk => ?_, nofun,
        fun _ => ⟨nofun, hclosure⟩, fun ip h' hsafe' => .inner hwaits hlt hclosure hsafe'⟩
      have hk' : k < f.captured.length := hk
      exact ⟨_, List.getElem?_eq_getElem hk', hclosure.of_closure.2.2 _ (List.getElem_mem hk')⟩

theorem Stacked.waiting {st : Stage} {callers : List Frame} {f : Frame} {top : Nat}
    (hst : Stacked st callers f top) (hne : callers ≠ []) :
    ∃ caller rest, callers = caller :: rest ∧ Stacked st rest caller f.base ∧
      caller.base + caller.body.locals < f.base := by
  cases hst with
  | outermost => exact absurd rfl hne
  | inner hwaits hlt => exact ⟨_, _, rfl, hwaits, hlt⟩

theorem Stacked.base_le {st : Stage} {callers : List Frame} {f : Frame} {top : Nat}
    (hst : Stacked st callers f top) : f.base ≤ top := by
  obtain ⟨room, h, htop, -⟩ := hst.running
  omega

/-! ## The invariant -/

/-- A machine that runs a program of a session, with these values on its stack. It started with the
globals `g`. -/
structure Machine.Ok (st : Stage) (g : Array Value) (m : Machine) (xs : List Value) : Prop where
  constants : m.constants = st.bytecode.constants
  shows : m.Shows xs
  values : ∀ x ∈ xs, st.Accepts x
  frames : Stacked st m.callers.toList.reverse m.frame xs.length
  kept : st.Kept g m.globals

/-- Two machines hold the same in the slots below `n`. -/
def Machine.SameBelow (m m' : Machine) (n : Nat) : Prop :=
  ∀ j, j < n → m'.stack[j]? = m.stack[j]?

/-- The machine is at a return that gives back this value. -/
def Machine.GivesBack (m : Machine) (v : Value) : Prop :=
  ∃ i next, m.frame.body.code.Holds m.frame.ip i next ∧
    ((i = .returnValue ∧ v = m.slot (m.top - 1)) ∨ (i = .returnNull ∧ v = .null))

/-- How a step moves between frames: on in the same one, into a call, or back to the caller. Only
the slots of the current call change, and those above them. A call leaves the callee below the slots
of its frame, and a return puts its value there. -/
inductive Machine.Moves (m m' : Machine) : Prop where
  | onward (ip : Nat) : m.frame.ip < ip → ip ≤ m.frame.body.code.size →
      m'.frame = m.frame.at ip → m'.callers = m.callers → m.SameBelow m' m.frame.base → Moves m m'
  | into (ip : Nat) {n : Nat} : m.frame.ip < ip → ip ≤ m.frame.body.code.size →
      m.callers.size + 1 < m.limits.maxFrames → m.top ≤ m'.top →
      m'.callers = m.callers.push (m.frame.at ip) →
      m.frame.body.code.Holds m.frame.ip (.call n) ip → m'.frame.base + n = m.top →
      m'.stack[m'.frame.base - 1]? = some m'.frame.closure → m.SameBelow m' m.top → Moves m m'
  | back {v : Value} : m.callers = m'.callers.push m'.frame → m.GivesBack v →
      m'.top = m.frame.base → m'.stack[m.frame.base - 1]? = some v →
      m.SameBelow m' (m.frame.base - 1) → Moves m m'

/-- The program was ended by a return at the top level: only its last value is still to be read. -/
structure Machine.Done (st : Stage) (g : Array Value) (m : Machine) : Prop where
  callers : m.callers = #[]
  ip : m.frame.ip = m.frame.body.code.size
  kept : st.Kept g m.globals

/-- The machine is at a return of the top level. -/
def Machine.AtReturn (m : Machine) : Prop :=
  m.callers = #[] ∧ ∃ i next, m.frame.body.code.Holds m.frame.ip i next ∧
    (i = .returnValue ∨ i = .returnNull)

/-- What a step from a machine may come to. -/
def Machine.StepOk (st : Stage) (g : Array Value) (m : Machine) : Progress → Prop
  | .running m' => m'.limits = m.limits ∧ m'.stack.size = m.stack.size ∧ m.Moves m' ∧
      ((∃ xs, m'.Ok st g xs) ∨ (m.AtReturn ∧ m'.Done st g))
  | .halted m' => m' = m ∧ m.callers = #[] ∧ m.top = 0
  | .faulted f m' => f.structural = false ∧ st.Kept g m'.globals

namespace Machine

variable {st : Stage} {g : Array Value} {m m' : Machine} {xs : List Value} {i : Instruction}
  {next : Nat}

/-- It is enough to look at the instruction at hand, since the limit on steps is a fault of its
own. -/
theorem stepOk_of_execute (hok : m.Ok st g xs) (hi : m.frame.body.code.Holds m.frame.ip i next)
    (hexec : m.StepOk st g (settle (execute i (m.advance next)))) : m.StepOk st g m.step := by
  cases hlimit : (m.advance next).exceedsLimit with
  | none =>
      rw [step_eq hi hlimit]
      exact hexec
  | some limit =>
      rw [step_limit hi hlimit]
      exact ⟨rfl, hok.kept⟩

theorem stepOk_of_ok (hok : m.Ok st g xs) (hi : m.frame.body.code.Holds m.frame.ip i next)
    (heq : execute i (m.advance next) = .ok () m') (h : m.StepOk st g (.running m')) :
    m.StepOk st g m.step := by
  refine stepOk_of_execute hok hi ?_
  rw [heq]
  exact h

theorem stepOk_of_error {f : Fault} (hok : m.Ok st g xs)
    (hi : m.frame.body.code.Holds m.frame.ip i next)
    (heq : execute i (m.advance next) = .error f m') (hf : f.structural = false)
    (hglobals : m'.globals = m.globals) : m.StepOk st g m.step := by
  refine stepOk_of_execute hok hi ?_
  rw [heq]
  exact ⟨hf, hglobals ▸ hok.kept⟩

theorem Shows.sameBelow {ys : List Value} {n : Nat} (h : m.Shows xs) (h' : m'.Shows ys)
    (hn : n ≤ xs.length) (hn' : n ≤ ys.length) (heq : ∀ j, j < n → ys[j]? = xs[j]?) :
    m.SameBelow m' n := by
  intro j hj
  rw [h.slot j (Nat.lt_of_lt_of_le hj hn), h'.slot j (Nat.lt_of_lt_of_le hj hn'), heq j hj]

/-- A machine that has gone on in its frame keeps the invariant if its code is safe there. -/
theorem stepOk_onward {room : Room} {h h' ip : Nat} {ys : List Value} {w : World}
    (hok : m.Ok st g xs) (hrun : Running st m.callers.toList.reverse m.frame room h)
    (hlen : ys.length = m.frame.base + m.frame.body.locals + h')
    (hsafe : Safe st.bytecode.constants room m.frame.body.code ip h')
    (hlt : m.frame.ip < ip)
    (hm : (m.advance next).Leads m' (m.frame.at ip) m.callers ys w)
    (hsame : ∀ j, j < m.frame.base → ys[j]? = xs[j]?)
    (hys : ∀ y ∈ ys, st.Accepts y) (hw : st.Kept g w.globals) : m.StepOk st g (.running m') := by
  have hbelow := hok.shows.sameBelow hm.shows hok.frames.base_le (by omega) hsame
  refine ⟨hm.limits, hm.size, .onward ip hlt hsafe.le_size hm.frame hm.callers hbelow,
    .inl ⟨ys, ?_⟩⟩
  refine ⟨hm.constants.trans hok.constants, hm.shows, hys, ?_, ?_⟩
  · rw [hm.callers, hm.frame, hlen]
    exact hrun.resume ip h' hsafe
  · rw [hm.globals]
    exact hw

/-- An instruction that answers: the value is sound, or the fault is not one of malformed code. -/
theorem stepOk_of_answers {room : Room} {h h' : Nat} {ys : List Value}
    {a : Except Fault (Value × World)} (hok : m.Ok st g xs)
    (hrun : Running st m.callers.toList.reverse m.frame room h)
    (hi : m.frame.body.code.Holds m.frame.ip i next)
    (hsafe : Safe st.bytecode.constants room m.frame.body.code next (h' + 1))
    (hlen : ys.length = m.frame.base + m.frame.body.locals + h') (hpre : ys <+: xs)
    (hys : ∀ y ∈ ys, st.Accepts y) (ha : Answers (execute i) (m.advance next) ys a)
    (hvalue : ∀ v w, a = .ok (v, w) → st.Accepts v ∧ w.globals = m.globals)
    (hfault : ∀ f, a = .error f → f.structural = false) : m.StepOk st g m.step := by
  match a, ha with
  | .ok (v, w), .inl ⟨_, m', heq, hm⟩ =>
      obtain ⟨hv, hw⟩ := hvalue v w rfl
      refine stepOk_of_ok hok hi heq (stepOk_onward hok hrun ?_ hsafe hi.lt hm ?_ ?_ ?_)
      · rw [List.length_append, hlen]
        rfl
      · intro j hj
        have hlt : j < ys.length := by omega
        obtain ⟨zs, rfl⟩ := hpre
        rw [List.getElem?_append_left hlt, List.getElem?_append_left hlt]
      · exact List.forall_mem_append.2 ⟨hys, List.forall_mem_singleton.2 hv⟩
      · rw [hw]
        exact hok.kept
  | .ok (v, w), .inr ⟨_, m', heq, hglobals⟩ => exact stepOk_of_error hok hi heq rfl hglobals
  | .error f, ⟨m', heq, hw⟩ =>
      exact stepOk_of_error hok hi heq (hfault f rfl) (congrArg WorldOf.globals hw)

theorem source_accepts {room : Room} {h : Nat} (hok : m.Ok st g xs) (hg : st.Reads g)
    (hrun : Running st m.callers.toList.reverse m.frame room h)
    (hlen : xs.length = m.frame.base + m.frame.body.locals + h)
    (hr : i.Reads st.bytecode.constants room) (next : Nat) :
    ∃ v, i.source? (m.advance next) = some v ∧ st.Accepts v := by
  cases i <;> try exact hr.elim
  case constant k =>
    have hk : ∀ {v : Value}, st.bytecode.constants[k]? = some v →
        (Instruction.constant k).source? (m.advance next) = some v := by
      intro v hk
      show m.constants[k]? = some v
      rw [hok.constants]
      exact hk
    rcases hr with ⟨n, hn⟩ | ⟨text, hn⟩
    · exact ⟨_, hk hn, Related.int⟩
    · exact ⟨_, hk hn, Related.str⟩
  case pushTrue | pushFalse => exact ⟨_, rfl, Related.bool⟩
  case pushNull => exact ⟨_, rfl, Related.null⟩
  case getGlobal k => exact ⟨_, rfl, (hok.kept.reads (.refl st) hg).getD (hrun.globals ▸ hr)⟩
  case getLocal k =>
    have hk : k < room.slots := hr
    have hslots := hrun.slots
    have hlt : m.frame.base + k < xs.length := by omega
    refine ⟨xs[m.frame.base + k], ?_, hok.values _ (List.getElem_mem hlt)⟩
    show m.stack[m.frame.base + k]? = _
    rw [hok.shows.slot _ hlt, List.getElem?_eq_getElem hlt]
  case getBuiltin k =>
    have hk : k < Builtin.all.length := hr
    refine ⟨.builtin Builtin.all[k], ?_, Related.builtin⟩
    show Builtin.all[k]?.map _ = _
    rw [List.getElem?_eq_getElem hk]
    rfl
  case getCaptured k => exact hrun.captured k hr
  case currentClosure => exact ⟨_, rfl, (hrun.inner hr).2⟩

theorem exists_append {xs : List Value} {a n : Nat} (h : xs.length = a + n) :
    ∃ ys vs, xs = ys ++ vs ∧ ys.length = a ∧ vs.length = n :=
  ⟨xs.take a, xs.drop a, (List.take_append_drop a xs).symm, by rw [List.length_take]; omega,
    by rw [List.length_drop]; omega⟩

theorem exists_concat {xs : List Value} {a n : Nat} (h : xs.length = a + (n + 1)) :
    ∃ ys v, xs = ys ++ [v] ∧ ys.length = a + n := by
  rw [← Nat.add_assoc] at h
  obtain ⟨ys, vs, rfl, hys, hvs⟩ := exists_append h
  obtain ⟨v, rfl⟩ := List.length_eq_one_iff.1 hvs
  exact ⟨ys, v, rfl, hys⟩

theorem stepOk_enter {room : Room} {h h' : Nat} {ys vs captured : List Value} {id : Identity}
    {body : Template} (hok : m.Ok st g (ys ++ .closure id body captured :: vs))
    (hrun : Running st m.callers.toList.reverse m.frame room h)
    (hi : m.frame.body.code.Holds m.frame.ip (.call vs.length) next)
    (hsafe : Safe st.bytecode.constants room m.frame.body.code next (h' + 1))
    (hlen : ys.length = m.frame.base + m.frame.body.locals + h') : m.StepOk st g m.step := by
  obtain ⟨hys, hvs⟩ := List.forall_mem_append.1 hok.values
  obtain ⟨hcallee, hvs⟩ := List.forall_mem_cons.1 hvs
  obtain ⟨hp, hbody, hcaptured⟩ := hcallee.of_closure
  rcases execute_closure (hok.shows.advance next) hp with
    ⟨_, heq⟩ | ⟨_, _, heq⟩ | ⟨_, heq⟩ | ⟨hargs, hframes, m', heq, hm⟩
  · exact stepOk_of_error hok hi heq rfl rfl
  · exact stepOk_of_error hok hi heq rfl rfl
  · exact stepOk_of_error hok hi heq rfl rfl
  · have htop : m.top ≤ m'.top := by
      rw [hok.shows.top, hm.shows.top, List.length_append, List.length_append, List.length_cons,
        List.length_cons, length_slotsOf (hargs ▸ hp)]
      omega
    have hbase : m'.frame.base + vs.length = m.top := by
      rw [hm.frame, hok.shows.top, List.length_append, List.length_cons]
      show ys.length + 1 + vs.length = _
      omega
    have hclosure : m'.stack[m'.frame.base - 1]? = some m'.frame.closure := by
      rw [hm.frame]
      show m'.stack[ys.length]? = some (.closure id body captured)
      rw [hm.shows.slot _ (by simp), List.getElem?_append_right (Nat.le_refl _), Nat.sub_self]
      rfl
    have hbelow : m.SameBelow m' m.top := by
      have htop' := hm.shows.top
      refine hok.shows.sameBelow hm.shows hok.shows.top.le (by omega) fun j hj => ?_
      rw [slotsOf, ← List.cons_append, ← List.append_assoc]
      exact List.getElem?_append_left (hok.shows.top ▸ hj)
    refine stepOk_of_ok hok hi heq ⟨hm.limits, hm.size,
      .into next hi.lt hi.le_size hframes htop hm.callers hi hbase hclosure hbelow,
      .inl ⟨ys ++ .closure id body captured :: slotsOf body.locals vs, ?_⟩⟩
    refine ⟨hm.constants.trans hok.constants, hm.shows, ?_, ?_, ?_⟩
    · refine List.forall_mem_append.2 ⟨hys, List.forall_mem_cons.2 ⟨hcallee, ?_⟩⟩
      refine List.forall_mem_append.2 ⟨hvs, fun v hv => ?_⟩
      rw [List.eq_of_mem_replicate hv]
      exact Related.null
    · have hcallers : m'.callers.toList.reverse = m.frame.at next :: m.callers.toList.reverse := by
        rw [hm.callers]
        show (m.callers.push (m.frame.at next)).toList.reverse = _
        rw [Array.toList_push, List.reverse_append]
        rfl
      have htop : (ys ++ .closure id body captured :: slotsOf body.locals vs).length =
          ys.length + 1 + body.locals + 0 := by
        rw [List.length_append, List.length_cons, length_slotsOf (hargs ▸ hp)]
        omega
      rw [hcallers, hm.frame, htop]
      refine .inner ?_ ?_ hcallee hbody
      · show Stacked st _ (m.frame.at next) (ys.length + 1)
        rw [hlen]
        exact hrun.resume next (h' + 1) hsafe
      · show m.frame.base + m.frame.body.locals < ys.length + 1
        omega
    · rw [hm.globals]
      exact hok.kept

theorem stepOk_call {room : Room} {h h' n : Nat} (hok : m.Ok st g xs)
    (hrun : Running st m.callers.toList.reverse m.frame room h)
    (hi : m.frame.body.code.Holds m.frame.ip (.call n) next)
    (hsafe : Safe st.bytecode.constants room m.frame.body.code next (h' + 1))
    (hlen : xs.length = m.frame.base + m.frame.body.locals + (h' + (n + 1))) :
    m.StepOk st g m.step := by
  rw [← Nat.add_assoc] at hlen
  obtain ⟨ys, top, rfl, hys, htop⟩ := exists_append hlen
  obtain ⟨callee, vs, rfl⟩ := List.exists_cons_of_length_eq_add_one htop
  have hvs : vs.length = n := Nat.succ.inj htop
  subst hvs
  by_cases hc : ∃ id body captured, callee = .closure id body captured
  · obtain ⟨id, body, captured, rfl⟩ := hc
    exact stepOk_enter hok hrun hi hsafe hys
  · have hc' : ∀ id body captured, callee ≠ .closure id body captured :=
      fun id body captured heq => hc ⟨id, body, captured, heq⟩
    obtain ⟨hysv, hvs⟩ := List.forall_mem_append.1 hok.values
    obtain ⟨hcallee, hvs⟩ := List.forall_mem_cons.1 hvs
    have hanswer := callAnswer_related (w := (m.advance next).world) rfl rfl hcallee
      (Sound.list_iff.2 hvs)
    refine stepOk_of_answers hok hrun hi hsafe hys (List.prefix_append _ _) hysv
      (execute_call hc' (hok.shows.advance next)) (fun v w heq => ?_) (fun f heq => ?_)
    · rw [heq] at hanswer
      exact ⟨hanswer.1, hanswer.2.1⟩
    · rw [heq] at hanswer
      exact hanswer.2

theorem callers_eq_push {caller : Frame} {callers : List Frame}
    (h : m.callers.toList.reverse = caller :: callers) :
    m.callers = callers.reverse.toArray.push caller := by
  have hlist : m.callers.toList = callers.reverse ++ [caller] := by
    rw [← List.reverse_cons, ← h, List.reverse_reverse]
  rw [List.push_toArray, ← hlist]

theorem stepOk_back {caller : Frame} {callers : List Frame} {ys : List Value} {v : Value}
    (hok : m.Ok st g xs) (hi : m.frame.body.code.Holds m.frame.ip i next)
    (hcallers : m.callers.toList.reverse = caller :: callers)
    (hwaits : Stacked st callers caller m.frame.base) (hbase : 0 < m.frame.base)
    (hle : m.frame.base ≤ ys.length) (hpre : ys <+: xs) (hys : ∀ y ∈ ys, st.Accepts y)
    (hv : st.Accepts v) (hgives : m.GivesBack v)
    (hexec : ∀ b, m.frame.base = b + 1 → b < ys.length →
      ∀ rest, m.callers = rest.push caller → ∃ m', execute i (m.advance next) = .ok () m' ∧
        (m.advance next).Leads m' caller rest (ys.take b ++ [v]) m.world) :
    m.StepOk st g m.step := by
  have hpush := callers_eq_push hcallers
  obtain ⟨b, hb⟩ := Nat.exists_eq_add_of_lt hbase
  rw [Nat.zero_add] at hb
  obtain ⟨m', heq, hm⟩ := hexec b hb (by omega) _ hpush
  have hlen : (ys.take b).length = b := by
    rw [List.length_take]
    omega
  have htop : (ys.take b ++ [v]).length = m.frame.base := by
    rw [List.length_append, hlen, hb]
    rfl
  have hmoves : m.Moves m' := by
    refine .back ?_ hgives (hm.shows.top.trans htop) ?_ ?_
    · rw [hm.callers, hm.frame]
      exact hpush
    · rw [hm.shows.slot _ (by omega), List.getElem?_append_right (by omega), hlen, hb,
        Nat.add_sub_cancel, Nat.sub_self]
      rfl
    · refine hok.shows.sameBelow hm.shows (by have := hpre.length_le; omega) (by omega)
        fun j hj => ?_
      obtain ⟨zs, rfl⟩ := hpre
      rw [List.getElem?_append_left (by omega), List.getElem?_take_of_lt (by omega),
        List.getElem?_append_left (by omega)]
  refine stepOk_of_ok hok hi heq ⟨hm.limits, hm.size, hmoves, .inl ⟨ys.take b ++ [v], ?_⟩⟩
  · refine ⟨hm.constants.trans hok.constants, hm.shows, ?_, ?_, ?_⟩
    · exact List.forall_mem_append.2
        ⟨fun y hy => hys y (List.mem_of_mem_take hy), List.forall_mem_singleton.2 hv⟩
    · rw [hm.callers, hm.frame, htop]
      rwa [List.toList_toArray, List.reverse_reverse]
    · rw [hm.globals]
      exact hok.kept

theorem stepOk_collect {room : Room} {h h' n : Nat}
    {f : List Value → Except Fault (Identity → Value)} (hok : m.Ok st g xs)
    (hrun : Running st m.callers.toList.reverse m.frame room h)
    (hi : m.frame.body.code.Holds m.frame.ip i next)
    (hf : i.collect? m.constants = some (n, f))
    (hsafe : Safe st.bytecode.constants room m.frame.body.code next (h' + 1))
    (hlen : xs.length = m.frame.base + m.frame.body.locals + (h' + n))
    (hmake : ∀ vs, vs.length = n → (∀ v ∈ vs, st.Accepts v) → match f vs with
      | .ok make => ∀ id, st.Accepts (make id)
      | .error e => e.structural = false) : m.StepOk st g m.step := by
  rw [← Nat.add_assoc] at hlen
  obtain ⟨ys, vs, rfl, hys, rfl⟩ := exists_append hlen
  obtain ⟨hysv, hvs⟩ := List.forall_mem_append.1 hok.values
  have hmade := hmake vs rfl hvs
  refine stepOk_of_answers hok hrun hi hsafe hys (List.prefix_append _ _) hysv
    (execute_collect hf (hok.shows.advance next)) (fun v w heq => ?_) (fun e heq => ?_)
  · cases hfvs : f vs with
    | error e =>
        rw [hfvs] at heq
        cases heq
    | ok make =>
        rw [hfvs] at heq hmade
        cases heq
        exact ⟨hmade _, rfl⟩
  · cases hfvs : f vs with
    | error e' =>
        rw [hfvs] at heq hmade
        cases heq
        exact hmade
    | ok make =>
        rw [hfvs] at heq
        cases heq

theorem stepOk_operator {room : Room} {h h' : Nat} {ys : List Value} {a : Except Fault Value}
    (hok : m.Ok st g xs) (hrun : Running st m.callers.toList.reverse m.frame room h)
    (hi : m.frame.body.code.Holds m.frame.ip i next)
    (hsafe : Safe st.bytecode.constants room m.frame.body.code next (h' + 1))
    (hlen : ys.length = m.frame.base + m.frame.body.locals + h') (hpre : ys <+: xs)
    (hys : ∀ y ∈ ys, st.Accepts y)
    (ha : Answers (execute i) (m.advance next) ys (a.map (·, (m.advance next).world)))
    (hsound : RelatedAnswer (SafeBody st.bytecode.constants st.globals) a a) :
    m.StepOk st g m.step := by
  refine stepOk_of_answers hok hrun hi hsafe hlen hpre hys ha (fun v w heq => ?_) (fun f heq => ?_)
  · cases a with
    | error e => cases heq
    | ok v' =>
        cases heq
        exact ⟨hsound, rfl⟩
  · cases a with
    | error e =>
        cases heq
        exact hsound.2
    | ok v' => cases heq

theorem stepOk_return {room : Room} {h : Nat} {ys : List Value} {v : Value}
    (hok : m.Ok st g (ys ++ [v])) (hrun : Running st m.callers.toList.reverse m.frame room h)
    (hi : m.frame.body.code.Holds m.frame.ip .returnValue next)
    (hlen : m.frame.base ≤ ys.length) : m.StepOk st g m.step := by
  obtain ⟨hys, hv⟩ := List.forall_mem_append.1 hok.values
  cases hinner : room.inner with
  | false =>
      have hcallers : m.callers = #[] := by
        have hnil := (hrun.top hinner).1
        rwa [List.reverse_eq_nil_iff, Array.toList_eq_nil_iff] at hnil
      obtain ⟨m', heq, hm, -⟩ := execute_returnValue_top (hok.shows.advance next) hcallers
      have hsize := hi.le_size
      have hbelow : m.SameBelow m' m.frame.base :=
        hok.shows.sameBelow hm.shows (by simp; omega) hlen fun j hj =>
          (List.getElem?_append_left (by omega)).symm
      refine stepOk_of_ok hok hi heq ⟨hm.limits, hm.size,
        .onward m.frame.body.code.size (Nat.lt_of_lt_of_le hi.lt hsize) (Nat.le_refl _) hm.frame
          hm.callers hbelow,
          .inr ⟨⟨hcallers, _, _, hi, .inl rfl⟩, hm.callers.trans hcallers, ?_, ?_⟩⟩
      · rw [hm.frame]
        rfl
      · rw [hm.globals]
        exact hok.kept
  | true =>
      obtain ⟨caller, rest, hcallers, hwaits, hlt⟩ := hok.frames.waiting (hrun.inner hinner).1
      have hgives : m.GivesBack v := by
        refine ⟨_, _, hi, .inl ⟨rfl, (hok.shows.slot_eq ?_).symm⟩⟩
        rw [hok.shows.top, List.length_append]
        exact List.getElem?_concat_length
      exact stepOk_back hok hi hcallers hwaits (by omega) hlen (List.prefix_append _ _) hys
        (List.forall_mem_singleton.1 hv) hgives
        fun b hb hlt' callers hpush => execute_returnValue (hok.shows.advance next) hpush hb hlt'

theorem Ok.stepOk (hok : m.Ok st g xs) (hg : st.Reads g) : m.StepOk st g m.step := by
  obtain ⟨room, h, hlen, hrun⟩ := hok.frames.running
  have hvalues := hok.values
  cases hrun.safe with
  | finish hinner hip =>
      obtain ⟨hnil, -, hzero⟩ := hrun.top hinner
      rw [List.reverse_eq_nil_iff, Array.toList_eq_nil_iff] at hnil
      rw [step_end hip]
      refine ⟨rfl, hnil, ?_⟩
      rw [hok.shows.top, hlen, hzero]
  | source hi hr hsafe =>
      obtain ⟨v, hv, hacc⟩ := source_accepts hok hg hrun hlen hr _
      exact stepOk_operator (a := .ok v) hok hrun hi hsafe hlen (List.prefix_refl _) hvalues
        (execute_source hv (hok.shows.advance _)) hacc
  | unary hi hop hsafe =>
      obtain ⟨f, hf⟩ := Option.isSome_iff_exists.1 hop
      obtain ⟨ys, v, rfl, hys⟩ := exists_concat hlen
      obtain ⟨hysv, hv⟩ := List.forall_mem_append.1 hvalues
      exact stepOk_operator hok hrun hi hsafe hys (List.prefix_append _ _) hysv
        (execute_unary hf (hok.shows.advance _)) (Sound.unary hf (List.forall_mem_singleton.1 hv))
  | binary hi hop hsafe =>
      obtain ⟨f, hf⟩ := Option.isSome_iff_exists.1 hop
      rw [← Nat.add_assoc] at hlen
      obtain ⟨ys, vs, rfl, hys, hvs⟩ := exists_append hlen
      obtain ⟨l, r, rfl⟩ := List.length_eq_two.1 hvs
      obtain ⟨hysv, hlr⟩ := List.forall_mem_append.1 hvalues
      obtain ⟨hl, hr⟩ := List.forall_mem_cons.1 hlr
      exact stepOk_operator hok hrun hi hsafe hys (List.prefix_append _ _) hysv
        (execute_binary hf (hok.shows.advance _))
        (Sound.binary hf hl (List.forall_mem_singleton.1 hr))
  | array hi hsafe =>
      refine stepOk_collect hok hrun hi rfl hsafe hlen fun vs _ hvs id => ?_
      exact Related.array (Sound.list_iff.2 hvs)
  | hash hi hsafe =>
      refine stepOk_collect hok hrun hi rfl hsafe hlen fun vs _ hvs => ?_
      have hentries := Related.collectEntries (Sound.list_iff.2 hvs) .nil
      cases hce : ValueOf.collectEntries [] vs with
      | ok es =>
          rw [hce] at hentries
          exact fun id => Related.hash hentries
      | error e =>
          rw [hce] at hentries
          exact hentries.2
  | @closure _ _ _ _ _ k n id t hi hk hp hbody hsafe =>
      have hf : (Instruction.closure k n).collect? m.constants =
          some (n, fun vs => .ok fun id => .closure id t vs) := by
        rw [Instruction.collect?, hok.constants, hk]
      refine stepOk_collect hok hrun hi hf hsafe hlen fun vs hn hvs id => ?_
      subst hn
      -- The code is safe with as many captured values as the instruction takes.
      exact Sound.closure hk hp (hbody.mono (.refl _)
        ⟨hrun.globals.le, Nat.zero_le _, Nat.le_refl _, Nat.le_refl _, rfl⟩) hvs
  | call hi hsafe => exact stepOk_call hok hrun hi hsafe hlen
  | pop hi hsafe =>
      obtain ⟨ys, v, rfl, hys⟩ := exists_concat hlen
      obtain ⟨m', heq, hm, -⟩ := execute_pop (hok.shows.advance _)
      exact stepOk_of_ok hok hi heq (stepOk_onward hok hrun hys hsafe hi.lt hm
        (fun j hj => (List.getElem?_append_left (by omega)).symm)
        (List.forall_mem_append.1 hvalues).1 hok.kept)
  | @setGlobal _ _ _ _ _ k hi hinner hown hk hsafe =>
      obtain ⟨ys, v, rfl, hys⟩ := exists_concat hlen
      obtain ⟨hysv, hv⟩ := List.forall_mem_append.1 hvalues
      obtain ⟨-, hown', -⟩ := hrun.top hinner
      -- Only the top level stores to globals, and only to those that its program defines.
      rw [hown'] at hown
      rw [hrun.globals] at hk
      rcases Nat.lt_or_ge k m.limits.globalsSize with hlt | hge
      · obtain ⟨m', heq, hm, -⟩ := execute_setGlobal (hok.shows.advance _) hlt
        exact stepOk_of_ok hok hi heq (stepOk_onward hok hrun hys hsafe hi.lt hm
          (fun j hj => (List.getElem?_append_left (by omega)).symm) hysv
          (hok.kept.store hown hk (List.forall_mem_singleton.1 hv)))
      · obtain ⟨m', heq, hw⟩ := execute_setGlobal_full (hok.shows.advance _) hge
        exact stepOk_of_error hok hi heq rfl (congrArg WorldOf.globals hw)
  | @setLocal _ _ _ next _ k hi hk hsafe =>
      obtain ⟨ys, v, rfl, hys⟩ := exists_concat hlen
      obtain ⟨hysv, hv⟩ := List.forall_mem_append.1 hvalues
      have hslots := hrun.slots
      have hlt : m.frame.base + k < ys.length := by omega
      obtain ⟨m', heq, hm, -⟩ := execute_setLocal (hok.shows.advance next) hlt
      refine stepOk_of_ok hok hi heq
        (stepOk_onward hok hrun (by rw [List.length_set, hys]) hsafe hi.lt hm ?_ ?_ hok.kept)
      · intro j hj
        have hne : m.frame.base + k ≠ j := by omega
        exact (List.getElem?_set_ne hne).trans (List.getElem?_append_left (by omega)).symm
      · intro y hy
        rcases List.mem_or_eq_of_mem_set hy with hy | rfl
        · exact hysv y hy
        · exact List.forall_mem_singleton.1 hv
  | jump hi hlt hsafe =>
      obtain ⟨m', heq, hm⟩ := execute_jump (hok.shows.advance _)
      exact stepOk_of_ok hok hi heq
        (stepOk_onward hok hrun hlen hsafe hlt hm (fun _ _ => rfl) hvalues hok.kept)
  | jumpUnless hi hlt htarget hnext =>
      obtain ⟨ys, v, rfl, hys⟩ := exists_concat hlen
      obtain ⟨hysv, -⟩ := List.forall_mem_append.1 hvalues
      obtain ⟨m', heq, hm⟩ := execute_jumpUnless (hok.shows.advance _)
      have hsame : ∀ j, j < m.frame.base → ys[j]? = (ys ++ [v])[j]? :=
        fun j hj => (List.getElem?_append_left (by omega)).symm
      refine stepOk_of_ok hok hi heq ?_
      cases hv : v.isTruthy <;> rw [hv] at hm
      · exact stepOk_onward hok hrun hys htarget hlt hm hsame hysv hok.kept
      · exact stepOk_onward hok hrun hys hnext hi.lt hm hsame hysv hok.kept
  | returnValue hi =>
      obtain ⟨ys, v, rfl, hys⟩ := exists_concat hlen
      exact stepOk_return hok hrun hi (by omega)
  | @returnNull _ _ _ next _ hi hinner =>
      obtain ⟨caller, rest, hcallers, hwaits, hlt⟩ := hok.frames.waiting (hrun.inner hinner).1
      exact stepOk_back hok hi hcallers hwaits (by omega) (by omega) (List.prefix_refl _) hvalues
        Related.null ⟨_, _, hi, .inr ⟨rfl, rfl⟩⟩
        fun b hb hlt' callers hpush => leave_inner (hok.shows.advance next) hpush hb hlt' .null

end Machine

end Monkey
