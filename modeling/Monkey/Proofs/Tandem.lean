import Monkey.Proofs.Relocation
import Monkey.Proofs.Runs

/-!
# Two machines in tandem

The first machine runs a stream in which the program of the second one stands at some offset. As
long as it stays inside that program, the two do the same step for step: the same values are on
their stacks, and the same world outlives them.

A `Tandem` is what stays the same during the two runs. `Twin` relates the machines while they are
inside the program, and `Over` when they have come to its end. The first machine leads: when it
makes a step, so does the second (`Twin.step`), and a whole run follows by induction (`Twin.run`).
The invariant that says what is on the stack is that of the second machine, which alone runs a
compiled program from its start.
-/

namespace Monkey

/-- A program in the middle of a stream beside the same program alone. -/
structure Tandem where
  left : Code
  right : Code
  offset : Nat
  is : List (Nat × Instruction)
  slid : Code.Slid offset left right is

/-- The frame is one of the top level, with this code and at this place. -/
structure Frame.Stands (f : Frame) (code : Code) (ip : Nat) : Prop where
  code : f.body.code = code
  captured : f.captured = []
  base : f.base = 0
  ip : f.ip = ip

theorem Frame.Stands.at {f : Frame} {code : Code} {ip : Nat} (h : f.Stands code ip) (ip' : Nat) :
    (f.at ip').Stands code ip' :=
  ⟨h.code, h.captured, h.base, rfl⟩

/-! ## Instructions -/

namespace Instruction

variable {i : Instruction}

/-- A larger pool has the same functions. -/
theorem collect?_of_pool {K K' : Array Value} {n : Nat}
    {f : List Value → Except Fault (Identity → Value)} (hK : PoolLe K' K)
    (hi : i.collect? K' = some (n, f)) : i.collect? K = some (n, f) := by
  cases i <;> try cases hi
  case array | hash => rfl
  case closure k count =>
    rw [collect?] at hi
    split at hi
    · next id body hk =>
        cases hi
        rw [collect?, hK _ _ hk]
    · cases hi

theorem source?_advance (m : Machine) (next : Nat) : i.source? (m.advance next) = i.source? m := by
  cases i <;> rfl

/-! Instructions that only answer neither jump nor end a statement. -/

theorem plain_of_reads {K : Array Value} {room : Room} (h : i.Reads K room) :
    i.target? = none ∧ i.closes = false := by
  cases i <;> first | exact h.elim | exact ⟨rfl, rfl⟩

theorem plain_of_unary {f : Value → Except Fault Value} (h : i.unary? = some f) :
    i.target? = none ∧ i.closes = false := by
  cases i <;> cases h <;> exact ⟨rfl, rfl⟩

theorem plain_of_binary {f : Value → Value → Except Fault Value} (h : i.binary? = some f) :
    i.target? = none ∧ i.closes = false := by
  cases i <;> cases h <;> exact ⟨rfl, rfl⟩

end Instruction

namespace Tandem

variable (T : Tandem)

/-! ## Machines side by side -/

/-- Everything but the frames. -/
structure Beside (m m' : Machine) (xs : List Value) : Prop where
  limits : m'.limits = m.limits
  size : m'.stack.size = m.stack.size
  pool : PoolLe m'.constants m.constants
  shows : m.Shows xs
  shows' : m'.Shows xs
  world : m'.world = m.world

/-- The frames of the two runs. The outermost ones are at the same instruction of the program, the
others are the same. -/
inductive Frames : List Frame → Frame → List Frame → Frame → Prop where
  | outermost {f f' : Frame} {ip : Nat} {i : Instruction} : f.Stands T.left (T.offset + ip) →
      f'.Stands T.right ip → (ip, i) ∈ T.is → Frames [] f [] f'
  | inner {cs cs' : List Frame} {c c' f : Frame} : Frames cs c cs' c' →
      Frames (c :: cs) f (c' :: cs') f

/-- The outermost frames at the end of the program. -/
structure Ends (f f' : Frame) : Prop where
  left : f.Stands T.left (T.offset + T.right.size)
  right : f'.Stands T.right T.right.size

/-- Machines at the start of the program. -/
structure Begins (m m' : Machine) (xs : List Value) : Prop extends Beside m m' xs where
  callers : m.callers = #[]
  callers' : m'.callers = #[]
  left : m.frame.Stands T.left T.offset
  right : m'.frame.Stands T.right 0

/-- Machines inside the program. -/
structure Twin (m m' : Machine) (xs : List Value) : Prop extends Beside m m' xs where
  frames : T.Frames m.callers.toList.reverse m.frame m'.callers.toList.reverse m'.frame

/-- Machines at the end of the program. If there was one to run, its value can be read. -/
structure Over (m m' : Machine) (xs : List Value) : Prop extends Beside m m' xs where
  callers : m.callers = #[]
  callers' : m'.callers = #[]
  ends : T.Ends m.frame m'.frame
  popped : T.is ≠ [] → m'.lastPopped = m.lastPopped

variable {T}

/-! ## Fetching -/

variable {cs cs' : List Frame} {f f' : Frame} {i : Instruction} {next' : Nat}

/-- Both frames are at the same instruction, and behind it they are so again, unless it closes the
last statement of the program. -/
theorem Frames.fetch (h : T.Frames cs f cs' f') (hi : f'.body.code.Holds f'.ip i next')
    (ht : i.target? = none) :
    ∃ next, f.body.code.Holds f.ip i next ∧ (T.Frames cs (f.at next) cs' (f'.at next') ∨
      (i.closes = true ∧ cs = [] ∧ cs' = [] ∧ T.Ends (f.at next) (f'.at next'))) := by
  cases h with
  | outermost hf hf' hmem =>
      rw [hf'.code, hf'.ip] at hi
      obtain ⟨next, hnext, hwhere⟩ := T.slid.tiles.next_of_mem hmem
      obtain ⟨rfl, rfl⟩ := hi.unique hnext
      have hleft := T.slid.slides _ _ _ hmem hi
      rw [Instruction.shift_of_target? ht] at hleft
      rw [hf.code, hf.ip]
      refine ⟨_, hleft, ?_⟩
      rcases hwhere with rfl | ⟨j, hj⟩
      · exact .inr ⟨T.slid.last _ _ hmem hi, rfl, rfl, hf.at _, hf'.at _⟩
      · exact .inl (.outermost (hf.at _) (hf'.at _) hj)
  | inner hwaits => exact ⟨next', hi, .inl (.inner hwaits)⟩

theorem Frames.onward (h : T.Frames cs f cs' f') (hi : f'.body.code.Holds f'.ip i next')
    (ht : i.target? = none) (hc : i.closes = false) :
    ∃ next, f.body.code.Holds f.ip i next ∧ T.Frames cs (f.at next) cs' (f'.at next') := by
  obtain ⟨next, hnext, hframes | ⟨hcloses, -⟩⟩ := h.fetch hi ht
  · exact ⟨next, hnext, hframes⟩
  · rw [hc] at hcloses
    cases hcloses

theorem Frames.jump {jump : Nat → Instruction} {target' : Nat}
    (hjump : jump = .jump ∨ jump = .jumpUnless) (h : T.Frames cs f cs' f')
    (hi : f'.body.code.Holds f'.ip (jump target') next') :
    ∃ target next, f.body.code.Holds f.ip (jump target) next ∧
      T.Frames cs (f.at target) cs' (f'.at target') ∧
      T.Frames cs (f.at next) cs' (f'.at next') := by
  cases h with
  | outermost hf hf' hmem =>
      rw [hf'.code, hf'.ip] at hi
      obtain ⟨next, hnext, hwhere⟩ := T.slid.tiles.next_of_mem hmem
      obtain ⟨rfl, rfl⟩ := hi.unique hnext
      have hleft := T.slid.slides _ _ _ hmem hi
      have hshift : (jump target').shift T.offset = jump (T.offset + target') := by
        rcases hjump with rfl | rfl <;> rfl
      have htarget : (jump target').target? = some target' := by
        rcases hjump with rfl | rfl <;> rfl
      obtain ⟨j, hj⟩ := T.slid.closed _ _ _ hmem htarget
      rw [hshift] at hleft
      rw [hf.code, hf.ip]
      refine ⟨T.offset + target', T.offset + next', hleft, .outermost (hf.at _) (hf'.at _) hj, ?_⟩
      rcases hwhere with rfl | ⟨j', hj'⟩
      · have hcloses := T.slid.last _ _ hmem hi
        rcases hjump with rfl | rfl <;> cases hcloses
      · exact .outermost (hf.at _) (hf'.at _) hj'
  | inner hwaits => exact ⟨target', next', hi, .inner hwaits, .inner hwaits⟩

theorem Frames.holds (h : T.Frames cs f cs' f') (hi : f'.body.code.Holds f'.ip i next') :
    ∃ j next, f.body.code.Holds f.ip j next := by
  cases h with
  | outermost hf _ hmem =>
      obtain ⟨next, hnext, -⟩ := T.slid.tiles.next_of_mem hmem
      rw [hf.code, hf.ip]
      exact ⟨_, _, T.slid.slides _ _ _ hmem hnext⟩
  | inner => exact ⟨i, next', hi⟩

theorem Frames.inside (h : T.Frames cs f [] f') : f'.ip < f'.body.code.size := by
  cases h with
  | outermost _ hf' hmem =>
      obtain ⟨next, hnext, -⟩ := T.slid.tiles.next_of_mem hmem
      rw [hf'.code, hf'.ip]
      exact Nat.lt_of_lt_of_le hnext.lt hnext.le_size

theorem Frames.base_eq (h : T.Frames cs f cs' f') : f'.base = f.base := by
  cases h with
  | outermost hf hf' => rw [hf.base, hf'.base]
  | inner => rfl

theorem Frames.captured_eq (h : T.Frames cs f cs' f') : f'.captured = f.captured := by
  cases h with
  | outermost hf hf' => rw [hf.captured, hf'.captured]
  | inner => rfl

theorem Frames.length_eq (h : T.Frames cs f cs' f') : cs'.length = cs.length := by
  induction h with
  | outermost => rfl
  | inner _ ih => rw [List.length_cons, List.length_cons, ih]

theorem Frames.eq_of_inner (h : T.Frames cs f cs' f') (hne : cs' ≠ []) : f' = f := by
  cases h with
  | outermost => exact absurd rfl hne
  | inner => rfl

theorem Frames.waiting {c' : Frame} (h : T.Frames cs f (c' :: cs') f') :
    ∃ c rest, cs = c :: rest ∧ T.Frames rest c cs' c' := by
  cases h with
  | inner hwaits => exact ⟨_, _, rfl, hwaits⟩

/-- A return of the program itself goes to its end, and nothing is behind it. -/
theorem Frames.leave (h : T.Frames cs f [] f') (hi : f'.body.code.Holds f'.ip i next')
    (hr : i.returns = true) :
    cs = [] ∧ T.left.size = T.offset + T.right.size ∧
      T.Ends (f.at f.body.code.size) (f'.at f'.body.code.size) := by
  cases h with
  | outermost hf hf' hmem =>
      rw [hf'.code, hf'.ip] at hi
      obtain ⟨next, hnext, -⟩ := T.slid.tiles.next_of_mem hmem
      obtain ⟨rfl, rfl⟩ := hi.unique hnext
      have hsize := T.slid.returns _ _ hmem hr
      rw [hf.code, hf'.code, hsize]
      exact ⟨rfl, rfl, hf.at _, hf'.at _⟩

/-! ## Steps -/

open Machine

variable {m m' m₁ m₁' : Machine} {xs ys : List Value} {st : Stage} {g : Array Value} {next : Nat}

/-- The second machine makes a step too, and the machines are still side by side. -/
def Follows (T : Tandem) (m' m₁ : Machine) : Prop :=
  ∃ m₁', m'.step = .running m₁' ∧ ∃ ys, T.Twin m₁ m₁' ys ∨ T.Over m₁ m₁' ys

theorem Beside.leads {w : World} {frame frame' : Frame} {callers callers' : Array Frame}
    (h : Beside m m' xs) (hm : (m.advance next).Leads m₁ frame callers ys w)
    (hm' : (m'.advance next').Leads m₁' frame' callers' ys w) : Beside m₁ m₁' ys := by
  refine ⟨?_, ?_, ?_, hm.shows, hm'.shows, ?_⟩
  · rw [hm.limits, hm'.limits]
    exact h.limits
  · rw [hm.size, hm'.size]
    exact h.size
  · rw [hm.constants, hm'.constants]
    exact h.pool
  · rw [hm.world, hm'.world]

/-- Two instructions that went well lead to twins again, if the frames are so. -/
theorem Twin.of_leads {i' : Instruction} {w : World} {frame frame' : Frame}
    {callers callers' : Array Frame} (h : T.Twin m m' xs) (hsteps : m.limits.maxSteps = none)
    (hi' : m'.frame.body.code.Holds m'.frame.ip i' next')
    (heq' : execute i' (m'.advance next') = .ok () m₁')
    (hm : (m.advance next).Leads m₁ frame callers ys w)
    (hm' : (m'.advance next').Leads m₁' frame' callers' ys w)
    (hframes : T.Frames callers.toList.reverse frame callers'.toList.reverse frame') :
    T.Follows m' m₁ := by
  refine ⟨m₁', ?_, ys, .inl ⟨h.leads hm hm', ?_⟩⟩
  · rw [step_of_unlimited (h.limits ▸ hsteps) hi', heq']
    rfl
  · rw [hm.callers, hm.frame, hm'.callers, hm'.frame]
    exact hframes

/-- An instruction that both machines answer alike. -/
theorem Twin.of_answers {a : Except Fault (Value × World)} (h : T.Twin m m' xs)
    (hsteps : m.limits.maxSteps = none) (hi' : m'.frame.body.code.Holds m'.frame.ip i next')
    (ht : i.target? = none) (hc : i.closes = false)
    (ha : ∀ next, Answers (execute i) (m.advance next) ys a)
    (ha' : Answers (execute i) (m'.advance next') ys a) (hstep : m.step = .running m₁) :
    T.Follows m' m₁ := by
  obtain ⟨next, hi, hframes⟩ := h.frames.onward hi' ht hc
  have ha := ha next
  rw [step_of_unlimited hsteps hi] at hstep
  rcases a with f | ⟨v, w⟩
  · obtain ⟨m₂, heq, -⟩ := ha
    rw [heq] at hstep
    cases hstep
  · rcases ha with ⟨hlt, m₂, heq, hm⟩ | ⟨-, m₂, heq, -⟩ <;> rw [heq] at hstep <;> cases hstep
    rcases ha' with ⟨-, m₂', heq', hm'⟩ | ⟨hle, -⟩
    · exact h.of_leads hsteps hi' heq' hm hm' hframes
    · have hsize : (m'.advance next').stack.size = (m.advance next).stack.size := h.size
      omega

/-! ## One instruction at a time -/

/-- What an instruction reads is the same in both machines. -/
theorem Twin.source {room : Room} {k : Nat} (h : T.Twin m m' xs) (hok : m'.Ok st g xs)
    (hrun : Running st m'.callers.toList.reverse m'.frame room k)
    (hlen : xs.length = m'.frame.base + m'.frame.body.locals + k)
    (hr : i.Reads st.bytecode.constants room) :
    ∃ v, i.source? m = some v ∧ i.source? m' = some v := by
  cases i <;> try exact hr.elim
  case constant j =>
    have hj : ∀ {v : Value}, st.bytecode.constants[j]? = some v →
        m.constants[j]? = some v ∧ m'.constants[j]? = some v := by
      intro v hv
      rw [← hok.constants] at hv
      exact ⟨h.pool _ _ hv, hv⟩
    rcases hr with ⟨n, hn⟩ | ⟨text, hn⟩
    · exact ⟨.int n, hj hn⟩
    · exact ⟨.str text, hj hn⟩
  case pushTrue => exact ⟨.bool true, rfl, rfl⟩
  case pushFalse => exact ⟨.bool false, rfl, rfl⟩
  case pushNull => exact ⟨.null, rfl, rfl⟩
  case getGlobal j =>
    have hglobals : m'.globals = m.globals := congrArg WorldOf.globals h.world
    refine ⟨m.globals[j]?.getD .null, rfl, ?_⟩
    show some (m'.globals[j]?.getD .null) = _
    rw [hglobals]
  case getLocal j =>
    have hj : j < room.slots := hr
    have hslots := hrun.slots
    have hbase := h.frames.base_eq
    have hlt : m.frame.base + j < xs.length := by omega
    refine ⟨xs[m.frame.base + j], ?_, ?_⟩
    · show m.stack[m.frame.base + j]? = _
      rw [h.shows.slot _ hlt, List.getElem?_eq_getElem hlt]
    · show m'.stack[m'.frame.base + j]? = _
      rw [hbase, h.shows'.slot _ hlt, List.getElem?_eq_getElem hlt]
  case getBuiltin j =>
    have hj : j < Builtin.all.length := hr
    refine ⟨.builtin Builtin.all[j], ?_, ?_⟩
    all_goals
      show Builtin.all[j]?.map _ = _
      rw [List.getElem?_eq_getElem hj]
      rfl
  case getCaptured j =>
    obtain ⟨v, hv, -⟩ := hrun.captured j hr
    refine ⟨v, ?_, hv⟩
    show m.frame.captured[j]? = _
    rw [← h.frames.captured_eq, hv]
  case currentClosure =>
    obtain ⟨hne, -⟩ := hrun.inner hr
    refine ⟨m.frame.closure, rfl, ?_⟩
    show some m'.frame.closure = _
    rw [h.frames.eq_of_inner hne]

theorem Twin.collect {n : Nat} {f : List Value → Except Fault (Identity → Value)}
    {vs : List Value} (h : T.Twin m m' (ys ++ vs)) (hsteps : m.limits.maxSteps = none)
    (hi' : m'.frame.body.code.Holds m'.frame.ip i next') (ht : i.target? = none)
    (hc : i.closes = false) (hf : i.collect? m'.constants = some (n, f)) (hn : vs.length = n)
    (hstep : m.step = .running m₁) : T.Follows m' m₁ := by
  subst hn
  have ha' := execute_collect (m := m'.advance next') hf (h.shows'.advance next')
  have hworld : (m'.advance next').world = m.world := h.world
  have hissued : (m'.advance next').issued = m.issued := congrArg WorldOf.issued h.world
  rw [hworld, hissued] at ha'
  exact h.of_answers hsteps hi' ht hc
    (fun next => execute_collect (m := m.advance next) (Instruction.collect?_of_pool h.pool hf)
      (h.shows.advance next))
    ha' hstep

theorem Twin.enter {id : Identity} {body : Template} {captured vs : List Value}
    (h : T.Twin m m' (ys ++ .closure id body captured :: vs)) (hsteps : m.limits.maxSteps = none)
    (hp : body.parameters ≤ body.locals)
    (hi' : m'.frame.body.code.Holds m'.frame.ip (.call vs.length) next')
    (hstep : m.step = .running m₁) : T.Follows m' m₁ := by
  obtain ⟨next, hi, hframes⟩ := h.frames.onward hi' rfl rfl
  have hexec' := execute_closure (h.shows'.advance next') hp
  rw [step_of_unlimited hsteps hi] at hstep
  rcases execute_closure (h.shows.advance next) hp with
    ⟨_, heq⟩ | ⟨_, _, heq⟩ | ⟨_, heq⟩ | ⟨hargs, hlt, m₂, heq, hm⟩ <;> rw [heq] at hstep <;>
    cases hstep
  have hlimits : (m'.advance next').limits = (m.advance next).limits := h.limits
  have hsize : (m'.advance next').stack.size = (m.advance next).stack.size := h.size
  have hworld : (m'.advance next').world = (m.advance next).world := h.world
  have hcallers : (m'.advance next').callers.size = (m.advance next).callers.size := by
    show m'.callers.size = m.callers.size
    simpa using hframes.length_eq
  have hfits := hm.shows.fits
  rw [hm.size, List.length_append, List.length_cons, length_slotsOf (hargs ▸ hp)] at hfits
  rcases hexec' with ⟨hne, -⟩ | ⟨-, hle, -⟩ | ⟨hfull, -⟩ | ⟨-, -, m₂', heq', hm'⟩
  · exact absurd hargs hne
  · rw [hlimits, hcallers] at hle
    omega
  · omega
  · rw [hworld] at hm'
    refine h.of_leads hsteps hi' heq' hm hm' ?_
    rw [Array.toList_push, Array.toList_push, List.reverse_append, List.reverse_append]
    exact .inner hframes

theorem Twin.call {n k : Nat} (h : T.Twin m m' xs) (hsteps : m.limits.maxSteps = none)
    (hok : m'.Ok st g xs) (hi' : m'.frame.body.code.Holds m'.frame.ip (.call n) next')
    (hlen : xs.length = k + (n + 1)) (hstep : m.step = .running m₁) : T.Follows m' m₁ := by
  obtain ⟨ys, top, rfl, -, htop⟩ := exists_append hlen
  obtain ⟨callee, vs, rfl⟩ := List.exists_cons_of_length_eq_add_one htop
  have hvs : vs.length = n := Nat.succ.inj htop
  subst hvs
  by_cases hc : ∃ id body captured, callee = .closure id body captured
  · obtain ⟨id, body, captured, rfl⟩ := hc
    have hcallee := (List.forall_mem_cons.1 (List.forall_mem_append.1 hok.values).2).1
    exact h.enter hsteps hcallee.of_closure.1 hi' hstep
  · have hc' : ∀ id body captured, callee ≠ .closure id body captured :=
      fun id body captured heq => hc ⟨id, body, captured, heq⟩
    have ha' := execute_call hc' (h.shows'.advance next')
    have hworld : (m'.advance next').world = m.world := h.world
    rw [hworld] at ha'
    exact h.of_answers hsteps hi' rfl rfl (fun next => execute_call hc' (h.shows.advance next)) ha'
      hstep

theorem Twin.of_ends {i' : Instruction} {w : World} {frame frame' : Frame}
    {callers callers' : Array Frame} (h : T.Twin m m' xs) (hsteps : m.limits.maxSteps = none)
    (hi' : m'.frame.body.code.Holds m'.frame.ip i' next')
    (heq' : execute i' (m'.advance next') = .ok () m₁')
    (hm : (m.advance next).Leads m₁ frame callers ys w)
    (hm' : (m'.advance next').Leads m₁' frame' callers' ys w)
    (hnil : callers.toList.reverse = []) (hnil' : callers'.toList.reverse = [])
    (hends : T.Ends frame frame') (hlast : m₁'.lastPopped = m₁.lastPopped) : T.Follows m' m₁ := by
  rw [List.reverse_eq_nil_iff, Array.toList_eq_nil_iff] at hnil hnil'
  refine ⟨m₁', ?_, ys, .inr ⟨h.leads hm hm', hm.callers.trans hnil, hm'.callers.trans hnil', ?_,
    fun _ => hlast⟩⟩
  · rw [step_of_unlimited (h.limits ▸ hsteps) hi', heq']
    rfl
  · rw [hm.frame, hm'.frame]
    exact hends

/-- An instruction that may close a statement leads to twins again, or to the end of the program
with its value in sight. -/
theorem Twin.of_closing {w : World} {v : Value} (h : T.Twin m m' xs)
    (hsteps : m.limits.maxSteps = none) (hi' : m'.frame.body.code.Holds m'.frame.ip i next')
    (ht : i.target? = none)
    (hexec : ∀ next, ∃ m₂, execute i (m.advance next) = .ok () m₂ ∧
      (m.advance next).Moved m₂ ys w ∧ m₂.lastPopped = v)
    (hexec' : ∃ m₂', execute i (m'.advance next') = .ok () m₂' ∧
      (m'.advance next').Moved m₂' ys w ∧ m₂'.lastPopped = v)
    (hstep : m.step = .running m₁) : T.Follows m' m₁ := by
  obtain ⟨next, hi, hframes⟩ := h.frames.fetch hi' ht
  obtain ⟨m₂, heq, hm, hlast⟩ := hexec next
  obtain ⟨m₂', heq', hm', hlast'⟩ := hexec'
  rw [step_of_unlimited hsteps hi, heq] at hstep
  cases hstep
  rcases hframes with hframes | ⟨-, hnil, hnil', hends⟩
  · exact h.of_leads hsteps hi' heq' hm hm' hframes
  · exact h.of_ends hsteps hi' heq' hm hm' hnil hnil' hends (by rw [hlast', hlast])

theorem Twin.back {caller' : Frame} {callers' : List Frame} {v : Value} (h : T.Twin m m' xs)
    (hsteps : m.limits.maxSteps = none) (hi' : m'.frame.body.code.Holds m'.frame.ip i next')
    (ht : i.target? = none) (hcallers' : m'.callers.toList.reverse = caller' :: callers')
    (hpos : 0 < m'.frame.base) (hle : m'.frame.base ≤ ys.length)
    (hexec : ∀ next b caller callers, m.callers = callers.push caller → m.frame.base = b + 1 →
      b < ys.length → ∃ m₂, execute i (m.advance next) = .ok () m₂ ∧
        (m.advance next).Leads m₂ caller callers (ys.take b ++ [v]) m.world)
    (hexec' : ∀ b callers, m'.callers = callers.push caller' → m'.frame.base = b + 1 →
      b < ys.length → ∃ m₂', execute i (m'.advance next') = .ok () m₂' ∧
        (m'.advance next').Leads m₂' caller' callers (ys.take b ++ [v]) m'.world)
    (hstep : m.step = .running m₁) : T.Follows m' m₁ := by
  obtain ⟨next, hi, -⟩ := h.frames.fetch hi' ht
  have hframes := h.frames
  rw [hcallers'] at hframes
  obtain ⟨caller, callers, hcallers, hwaits⟩ := hframes.waiting
  obtain ⟨b, hb⟩ := Nat.exists_eq_add_of_lt hpos
  rw [Nat.zero_add] at hb
  obtain ⟨m₂, heq, hm⟩ := hexec next b _ _ (callers_eq_push hcallers) (hframes.base_eq ▸ hb)
    (by omega)
  obtain ⟨m₂', heq', hm'⟩ := hexec' b _ (callers_eq_push hcallers') hb (by omega)
  rw [step_of_unlimited hsteps hi, heq] at hstep
  cases hstep
  rw [h.world] at hm'
  refine h.of_leads hsteps hi' heq' hm hm' ?_
  rwa [List.toList_toArray, List.reverse_reverse, List.toList_toArray, List.reverse_reverse]

theorem Twin.returnValue {room : Room} {k : Nat} {v : Value} (h : T.Twin m m' (ys ++ [v]))
    (hsteps : m.limits.maxSteps = none) (hok : m'.Ok st g (ys ++ [v]))
    (hrun : Running st m'.callers.toList.reverse m'.frame room k)
    (hi' : m'.frame.body.code.Holds m'.frame.ip .returnValue next')
    (hle : m'.frame.base ≤ ys.length) (hstep : m.step = .running m₁) : T.Follows m' m₁ := by
  cases hinner : room.inner with
  | true =>
      obtain ⟨caller', rest', hcallers', -, hlt⟩ := hok.frames.waiting (hrun.inner hinner).1
      exact h.back hsteps hi' rfl hcallers' (by omega) hle
        (fun next _ _ _ => execute_returnValue (h.shows.advance next))
        (fun _ _ => execute_returnValue (h.shows'.advance next')) hstep
  | false =>
      have hnil' := (hrun.top hinner).1
      have hframes := h.frames
      rw [hnil'] at hframes
      obtain ⟨hnil, -, hends⟩ := hframes.leave hi' rfl
      obtain ⟨next, hi, -⟩ := h.frames.fetch hi' rfl
      have hcallers {m : Machine} (h : m.callers.toList.reverse = []) : m.callers = #[] := by
        rwa [List.reverse_eq_nil_iff, Array.toList_eq_nil_iff] at h
      obtain ⟨m₂, heq, hm, hlast⟩ := execute_returnValue_top (h.shows.advance next) (hcallers hnil)
      obtain ⟨m₂', heq', hm', hlast'⟩ :=
        execute_returnValue_top (h.shows'.advance next') (hcallers hnil')
      have hworld : (m'.advance next').world = (m.advance next).world := h.world
      rw [hworld] at hm'
      rw [step_of_unlimited hsteps hi, heq] at hstep
      cases hstep
      exact h.of_ends hsteps hi' heq' hm hm' hnil hnil' hends (by rw [hlast', hlast])

/-- When the first machine makes a step, so does the second. -/
theorem Twin.step (h : T.Twin m m' xs) (hok : m'.Ok st g xs) (hsteps : m.limits.maxSteps = none)
    (hstep : m.step = .running m₁) : T.Follows m' m₁ := by
  obtain ⟨room, k, hlen, hrun⟩ := hok.frames.running
  have hworld (next' : Nat) : (m'.advance next').world = m.world := h.world
  cases hrun.safe with
  | finish hinner hip =>
      have hframes := h.frames
      rw [(hrun.top hinner).1] at hframes
      exact absurd hip (Nat.ne_of_lt hframes.inside)
  | @source _ _ _ next' _ _ hi' hr =>
      obtain ⟨ht, hc⟩ := Instruction.plain_of_reads hr
      obtain ⟨v, hv, hv'⟩ := h.source hok hrun hlen hr
      rw [← Instruction.source?_advance m' next'] at hv'
      have ha' := execute_source hv' (h.shows'.advance next')
      rw [hworld] at ha'
      refine h.of_answers hsteps hi' ht hc (fun next => ?_) ha' hstep
      exact execute_source ((Instruction.source?_advance m next).trans hv) (h.shows.advance next)
  | @unary _ _ _ next' _ _ hi' hop =>
      obtain ⟨f, hf⟩ := Option.isSome_iff_exists.1 hop
      obtain ⟨ht, hc⟩ := Instruction.plain_of_unary hf
      obtain ⟨ys, v, rfl, -⟩ := exists_concat hlen
      have ha' := execute_unary hf (h.shows'.advance next')
      rw [hworld] at ha'
      exact h.of_answers hsteps hi' ht hc (fun next => execute_unary hf (h.shows.advance next)) ha'
        hstep
  | @binary _ _ _ next' _ _ hi' hop =>
      obtain ⟨f, hf⟩ := Option.isSome_iff_exists.1 hop
      obtain ⟨ht, hc⟩ := Instruction.plain_of_binary hf
      rw [← Nat.add_assoc] at hlen
      obtain ⟨ys, vs, rfl, -, hvs⟩ := exists_append hlen
      obtain ⟨l, r, rfl⟩ := List.length_eq_two.1 hvs
      have ha' := execute_binary hf (h.shows'.advance next')
      rw [hworld] at ha'
      exact h.of_answers hsteps hi' ht hc (fun next => execute_binary hf (h.shows.advance next))
        ha' hstep
  | array hi' =>
      rw [← Nat.add_assoc] at hlen
      obtain ⟨ys, vs, rfl, -, hvs⟩ := exists_append hlen
      exact h.collect hsteps hi' rfl rfl rfl hvs hstep
  | hash hi' =>
      rw [← Nat.add_assoc] at hlen
      obtain ⟨ys, vs, rfl, -, hvs⟩ := exists_append hlen
      exact h.collect hsteps hi' rfl rfl rfl hvs hstep
  | @closure _ _ _ _ _ j n id t hi' hj =>
      rw [← Nat.add_assoc] at hlen
      obtain ⟨ys, vs, rfl, -, hvs⟩ := exists_append hlen
      have hf' : (Instruction.closure j n).collect? m'.constants =
          some (n, fun vs => .ok fun id => .closure id t vs) := by
        rw [Instruction.collect?, hok.constants, hj]
      exact h.collect hsteps hi' rfl rfl hf' hvs hstep
  | call hi' =>
      rw [← Nat.add_assoc] at hlen
      exact h.call hsteps hok hi' hlen hstep
  | @pop _ _ _ next' _ hi' =>
      obtain ⟨ys, v, rfl, -⟩ := exists_concat hlen
      have hexec' := execute_pop (h.shows'.advance next')
      rw [hworld] at hexec'
      exact h.of_closing hsteps hi' rfl (fun next => execute_pop (h.shows.advance next)) hexec'
        hstep
  | @setGlobal _ _ _ next' _ j hi' =>
      obtain ⟨ys, v, rfl, -⟩ := exists_concat hlen
      rcases Nat.lt_or_ge j m.limits.globalsSize with hlt | hge
      · have hlt' : j < (m'.advance next').limits.globalsSize := by
          show j < m'.limits.globalsSize
          rw [h.limits]
          exact hlt
        have hexec' := execute_setGlobal (h.shows'.advance next') hlt'
        have hglobals : (m'.advance next').globals = m.globals := congrArg WorldOf.globals h.world
        rw [hworld, hglobals] at hexec'
        exact h.of_closing hsteps hi' rfl
          (fun next => execute_setGlobal (h.shows.advance next) hlt) hexec' hstep
      · obtain ⟨next, hi, -⟩ := h.frames.fetch hi' rfl
        obtain ⟨m₂, heq, -⟩ := execute_setGlobal_full (h.shows.advance next) hge
        rw [step_of_unlimited hsteps hi, heq] at hstep
        cases hstep
  | @setLocal _ _ _ next' _ j hi' hj =>
      obtain ⟨ys, v, rfl, hys⟩ := exists_concat hlen
      have hslots := hrun.slots
      have hbase : (m'.advance next').frame.base = m.frame.base := h.frames.base_eq
      have hlt : m'.frame.base + j < ys.length := by omega
      have hexec' := execute_setLocal (h.shows'.advance next') hlt
      rw [hworld, hbase] at hexec'
      refine h.of_closing hsteps hi' rfl (fun next => ?_) hexec' hstep
      refine execute_setLocal (h.shows.advance next) ?_
      show m.frame.base + j < ys.length
      rw [← hbase]
      exact hlt
  | @jump _ _ _ next' _ _ hi' =>
      obtain ⟨target, next, hi, htarget, -⟩ := h.frames.jump (.inl rfl) hi'
      obtain ⟨m₂, heq, hm⟩ := execute_jump (h.shows.advance next)
      obtain ⟨m₂', heq', hm'⟩ := execute_jump (h.shows'.advance next')
      rw [hworld] at hm'
      rw [step_of_unlimited hsteps hi, heq] at hstep
      cases hstep
      exact h.of_leads hsteps hi' heq' hm hm' htarget
  | @jumpUnless _ _ _ next' _ _ hi' =>
      obtain ⟨ys, v, rfl, -⟩ := exists_concat hlen
      obtain ⟨target, next, hi, htarget, hnext⟩ := h.frames.jump (.inr rfl) hi'
      obtain ⟨m₂, heq, hm⟩ := execute_jumpUnless (h.shows.advance next)
      obtain ⟨m₂', heq', hm'⟩ := execute_jumpUnless (h.shows'.advance next')
      rw [hworld] at hm'
      rw [step_of_unlimited hsteps hi, heq] at hstep
      cases hstep
      refine h.of_leads hsteps hi' heq' hm hm' ?_
      cases v.isTruthy
      · exact htarget
      · exact hnext
  | returnValue hi' =>
      obtain ⟨ys, v, rfl, hys⟩ := exists_concat hlen
      exact h.returnValue hsteps hok hrun hi' (by omega) hstep
  | @returnNull _ _ _ next' _ hi' hinner =>
      obtain ⟨caller', rest', hcallers', -, hlt⟩ := hok.frames.waiting (hrun.inner hinner).1
      exact h.back hsteps hi' rfl hcallers' (by omega) (by omega)
        (fun next _ _ _ hpush hb hlt => leave_inner (h.shows.advance next) hpush hb hlt .null)
        (fun _ _ hpush hb hlt => leave_inner (h.shows'.advance next') hpush hb hlt .null) hstep

/-! ## Whole runs -/

/-- The stack of machines at the end of the program is empty, unless a return has ended it. -/
theorem Over.emptied {zs : List Value} (h : T.Over m m' xs) (hok : m'.Ok st g zs) : xs = [] := by
  have hzs : zs.length = xs.length := by
    rw [← hok.shows.top, h.shows'.top]
  have hframes := hok.frames
  rw [h.callers'] at hframes
  have hip : m'.frame.ip = m'.frame.body.code.size := by rw [h.ends.right.ip, h.ends.right.code]
  have hnot : ∀ i next, ¬m'.frame.body.code.Holds m'.frame.ip i next := fun i next hi => by
    have hlt := hi.lt
    have hle := hi.le_size
    omega
  generalize hn : zs.length = n at hframes
  cases hframes with
  | outermost _ _ hsafe =>
      cases hsafe with
      | finish => exact List.length_eq_zero_iff.1 (hzs.symm.trans hn)
      | source hi | unary hi | binary hi | array hi | hash hi | closure hi | call hi | pop hi
      | setGlobal hi | setLocal hi | jump hi | jumpUnless hi | returnValue hi | returnNull hi =>
          exact absurd hi (hnot _ _)

theorem Twin.ne_halted (h : T.Twin m m' xs) (hok : m'.Ok st g xs)
    (hsteps : m.limits.maxSteps = none) : m.step ≠ .halted m₁ := by
  intro hhalt
  have hholds : ∃ i next, m'.frame.body.code.Holds m'.frame.ip i next := by
    obtain ⟨room, k, -, hrun⟩ := hok.frames.running
    cases hrun.safe with
    | finish hinner hip =>
        have hframes := h.frames
        rw [(hrun.top hinner).1] at hframes
        exact absurd hip (Nat.ne_of_lt hframes.inside)
    | source hi | unary hi | binary hi | array hi | hash hi | closure hi | call hi | pop hi
    | setGlobal hi | setLocal hi | jump hi | jumpUnless hi | returnValue hi | returnNull hi =>
        exact ⟨_, _, hi⟩
  obtain ⟨i, next', hi'⟩ := hholds
  obtain ⟨j, next, hi⟩ := h.frames.holds hi'
  rw [step_of_unlimited hsteps hi] at hhalt
  cases hexec : execute j (m.advance next) <;> rw [hexec] at hhalt <;> cases hhalt

theorem Twin.unlimited {n : Nat} (h₁ : T.Twin m₁ m₁' ys) (h : Beside m m' xs)
    (hok : m'.Ok st g xs) (hg : st.Reads g) (hsteps : m.limits.maxSteps = none)
    (hrun : m'.run n = .running m₁') : m₁.limits.maxSteps = none := by
  have hsame := Good.same (.inl ⟨_, hok⟩) hg (reaches_of_run hrun)
  rw [← h₁.limits, hsame.1, h.limits]
  exact hsteps

/-- How two runs stand when the first is on its way: both are inside the program, or they were at
its end after the same number of steps. -/
theorem Twin.run (h : T.Twin m m' xs) (hok : m'.Ok st g xs) (hg : st.Reads g)
    (hsteps : m.limits.maxSteps = none) {n : Nat} (hrun : m.run n = .running m₁) :
    (∃ m₁' ys, m'.run n = .running m₁' ∧ T.Twin m₁ m₁' ys ∧ m₁'.Ok st g ys) ∨
    ∃ k m₂ m₂' ys, k ≤ n ∧ m.run k = .running m₂ ∧ m'.run k = .running m₂' ∧ T.Over m₂ m₂' ys ∧
      (T.left.size = T.offset + T.right.size ∨ ys = []) := by
  induction n generalizing m₁ with
  | zero =>
      cases hrun
      exact .inl ⟨m', xs, rfl, h, hok⟩
  | succ n ih =>
      obtain ⟨m₀, hrun₀, hstep⟩ := exists_steps_of_run hrun
      rcases ih hrun₀ with ⟨m₀', ys, hrun₀', htwin, hok₀⟩ | hover
      · have hsteps₀ := htwin.unlimited h.toBeside hok hg hsteps hrun₀'
        obtain ⟨m₁', hstep', hnext⟩ := htwin.step hok₀ hsteps₀ hstep
        have hrun' : m'.run (n + 1) = .running m₁' := by
          rw [run_add_of_running hrun₀', run_one, hstep']
        have hgood := hok₀.stepOk hg
        rw [hstep'] at hgood
        obtain ⟨-, -, -, hok₁⟩ := hgood
        rcases hnext with ⟨zs, htwin₁ | hover₁⟩
        · refine .inl ⟨m₁', zs, hrun', htwin₁, ?_⟩
          rcases hok₁ with ⟨us, hok₁⟩ | ⟨-, hdone⟩
          · rwa [hok₁.shows.unique htwin₁.shows'] at hok₁
          · have hframes := htwin₁.frames
            rw [hdone.callers] at hframes
            exact absurd hdone.ip (Nat.ne_of_lt hframes.inside)
        · refine .inr ⟨n + 1, m₁, m₁', zs, Nat.le_refl _, hrun, hrun', hover₁, ?_⟩
          rcases hok₁ with ⟨us, hok₁⟩ | ⟨⟨hnil, i, next', hi', hreturn⟩, -⟩
          · exact .inr (hover₁.emptied hok₁)
          · have hframes := htwin.frames
            rw [hnil] at hframes
            exact .inl (hframes.leave hi' (by rcases hreturn with rfl | rfl <;> rfl)).2.1
      · obtain ⟨k, m₂, m₂', zs, hle, hover⟩ := hover
        exact .inr ⟨k, m₂, m₂', zs, hle.trans (Nat.le_succ n), hover⟩

theorem Begins.twin_or_over (h : T.Begins m m' xs) : T.Twin m m' xs ∨ T.Over m m' xs := by
  have htiles := T.slid.tiles
  cases his : T.is with
  | nil =>
      have hsize : T.right.size = 0 := by
        rw [his] at htiles
        generalize T.right.size = n at htiles
        cases htiles
        rfl
      refine .inr ⟨h.toBeside, h.callers, h.callers', ⟨?_, ?_⟩, fun hne => absurd his hne⟩
      · rw [hsize]
        exact h.left
      · rw [hsize]
        exact h.right
  | cons first rest =>
      have hmem : ∃ i, (0, i) ∈ T.is := by
        rw [his] at htiles ⊢
        cases htiles with
        | cons => exact ⟨_, List.mem_cons_self⟩
      obtain ⟨i, hi⟩ := hmem
      have hleft : m.frame.Stands T.left (T.offset + 0) := h.left
      refine .inl ⟨h.toBeside, ?_⟩
      rw [h.callers, h.callers']
      exact .outermost hleft h.right hi

/-- The same from the start of the program, which may be empty. -/
theorem Begins.run (h : T.Begins m m' xs) (hok : m'.Ok st g xs) (hg : st.Reads g)
    (hsteps : m.limits.maxSteps = none) {n : Nat} (hrun : m.run n = .running m₁) :
    (∃ m₁' ys, m'.run n = .running m₁' ∧ T.Twin m₁ m₁' ys ∧ m₁'.Ok st g ys) ∨
    ∃ k m₂ m₂' ys, k ≤ n ∧ m.run k = .running m₂ ∧ m'.run k = .running m₂' ∧ T.Over m₂ m₂' ys ∧
      (T.left.size = T.offset + T.right.size ∨ ys = []) := by
  rcases h.twin_or_over with htwin | hover
  · exact htwin.run hok hg hsteps hrun
  · exact .inr ⟨0, m, m', xs, Nat.zero_le _, rfl, rfl, hover, .inr (hover.emptied hok)⟩

theorem Over.halts (h : T.Over m m' xs) : m'.step = .halted m' := by
  refine step_end ?_
  rw [h.ends.right.ip, h.ends.right.code]

/-- A run that comes to its end has been at the end of the program, and the program alone comes to
its end as well, within as many steps. -/
theorem Begins.over (h : T.Begins m m' xs) (hok : m'.Ok st g xs) (hg : st.Reads g)
    (hsteps : m.limits.maxSteps = none) {n : Nat} (hrun : m.run n = .halted m₁) :
    ∃ k m₂ m₂' ys, k < n ∧ m.run k = .running m₂ ∧ m'.run n = .halted m₂' ∧ T.Over m₂ m₂' ys ∧
      (T.left.size = T.offset + T.right.size ∨ ys = []) := by
  obtain ⟨k, mₖ, hlt, hk, hend⟩ := running_of_ended (hrun ▸ Progress.ended_halted m₁)
  rw [hrun] at hend
  rcases h.run hok hg hsteps hk with
    ⟨mₖ', ys, hk', htwin, hokₖ⟩ | ⟨j, m₂, m₂', ys, hle, hj, hj', hover, hempty⟩
  · exact absurd hend (htwin.ne_halted hokₖ (htwin.unlimited h.toBeside hok hg hsteps hk'))
  · have hend' : m'.run (j + 1) = .halted m₂' := by
      rw [run_add_of_running hj', run_one, hover.halts]
    refine ⟨j, m₂, m₂', ys, by omega, hj, ?_, hover, hempty⟩
    obtain ⟨d, rfl⟩ := Nat.exists_eq_add_of_le (show j + 1 ≤ n by omega)
    rw [run_add_of_ended (hend' ▸ Progress.ended_halted m₂'), hend']

/-- If nothing comes after the program, the two runs end side by side. -/
theorem Begins.halts (h : T.Begins m m' xs) (hok : m'.Ok st g xs) (hg : st.Reads g)
    (hsteps : m.limits.maxSteps = none) {n : Nat} (hrun : m.run n = .halted m₁)
    (hsize : T.left.size = T.offset + T.right.size) :
    ∃ m₁' ys, m'.run n = .halted m₁' ∧ T.Over m₁ m₁' ys := by
  obtain ⟨k, m₂, m₂', ys, -, hk, hend', hover, -⟩ := h.over hok hg hsteps hrun
  have hend : m.run (k + 1) = .halted m₂ := by
    rw [run_add_of_running hk, run_one, step_end]
    rw [hover.ends.left.ip, hover.ends.left.code, hsize]
  have heq := run_eq_of_ended (hend ▸ Progress.ended_halted m₂) (hrun ▸ Progress.ended_halted m₁)
  rw [hend, hrun] at heq
  cases heq
  exact ⟨m₂', ys, hend', hover⟩

end Tandem

end Monkey
