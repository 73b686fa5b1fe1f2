import Monkey.Proofs.Invariant

/-!
# Whole runs

A run is step after step. What a step keeps, a run keeps: from a machine that starts safe code with
sound globals, every machine on the way satisfies the invariant, and however the run ends, it does
not end because the code was malformed. `RunsSafely` collects what that means to someone who only
watches the machine.
-/

namespace Monkey

/-- The run is over. -/
def Progress.Ended (p : Progress) : Prop :=
  ∀ m, p ≠ .running m

theorem Progress.ended_halted (m : Machine) : (Progress.halted m).Ended := by
  intro m' h
  cases h

theorem Progress.ended_faulted (f : Fault) (m : Machine) : (Progress.faulted f m).Ended := by
  intro m' h
  cases h

namespace Machine

/-- One machine goes on to the other. -/
def Steps (m m' : Machine) : Prop :=
  m.step = .running m'

/-- One machine comes to the other after some steps. -/
def Reaches : Machine → Machine → Prop :=
  Relation.ReflTransGen Steps

/-- A run comes to a machine and is still there, or ends with the step of that machine. -/
theorem run_reaches (n : Nat) (m : Machine) :
    ∃ m', m.Reaches m' ∧
      (m.run n = .running m' ∨ (m.run n = m'.step ∧ m'.step.Ended)) := by
  induction n generalizing m with
  | zero => exact ⟨m, .refl, .inl rfl⟩
  | succ n ih =>
      rw [run]
      cases hstep : m.step with
      | running m₁ =>
          obtain ⟨m', hreach, h⟩ := ih m₁
          exact ⟨m', .head hstep hreach, h⟩
      | halted m₁ => exact ⟨m, .refl, .inr ⟨hstep.symm, hstep ▸ Progress.ended_halted m₁⟩⟩
      | faulted f m₁ => exact ⟨m, .refl, .inr ⟨hstep.symm, hstep ▸ Progress.ended_faulted f m₁⟩⟩

theorem run_add_of_ended {n : Nat} {m : Machine} (h : (m.run n).Ended) (k : Nat) :
    m.run (n + k) = m.run n := by
  induction n generalizing m with
  | zero => exact absurd rfl (h m)
  | succ n ih =>
      rw [Nat.succ_add, run, run]
      rw [run] at h
      cases hstep : m.step with
      | running m₁ =>
          rw [hstep] at h
          exact ih h
      | halted m₁ | faulted f m₁ => rfl

theorem run_eq_of_ended {n n' : Nat} {m : Machine} (h : (m.run n).Ended) (h' : (m.run n').Ended) :
    m.run n = m.run n' := by
  rw [← run_add_of_ended h n', ← run_add_of_ended h' n, Nat.add_comm]

/-- A run can be taken up where it stands. -/
theorem run_add_of_running {n : Nat} {m m' : Machine} (h : m.run n = .running m') (k : Nat) :
    m.run (n + k) = m'.run k := by
  induction n generalizing m with
  | zero =>
      cases h
      rw [Nat.zero_add]
  | succ n ih =>
      rw [Nat.succ_add, run]
      rw [run] at h
      cases hstep : m.step with
      | running m₁ =>
          rw [hstep] at h
          exact ih h
      | halted m₁ | faulted f m₁ =>
          rw [hstep] at h
          cases h

theorem run_one (m : Machine) : m.run 1 = m.step := by
  rw [run]
  cases m.step <;> rfl

/-- The value that a run has ended with, as a key. -/
def keyOf? : Progress → Option Key
  | .halted m => m.lastPopped.key?
  | _ => none

theorem eq_halted_of_keyOf? {p : Progress} {k : Key} (h : keyOf? p = some k) :
    ∃ m, p = .halted m ∧ m.lastPopped.key? = some k := by
  cases p with
  | halted m => exact ⟨m, rfl, h⟩
  | running | faulted => cases h

theorem steps_of_run {n : Nat} {m m₁ m₂ : Machine} (h₁ : m.run n = .running m₁)
    (h₂ : m.run (n + 1) = .running m₂) : m₁.Steps m₂ := by
  rw [run_add_of_running h₁, run_one] at h₂
  exact h₂

theorem reaches_of_run {n : Nat} {m m' : Machine} (h : m.run n = .running m') : m.Reaches m' := by
  obtain ⟨m₁, hreach, hrun | ⟨hrun, hended⟩⟩ := run_reaches n m
  · cases hrun.symm.trans h
    exact hreach
  · exact absurd (hrun.symm.trans h) (hended m')

theorem exists_steps_of_run {n : Nat} {m m' : Machine} (h : m.run (n + 1) = .running m') :
    ∃ m₁, m.run n = .running m₁ ∧ m₁.Steps m' := by
  cases hn : m.run n with
  | running m₁ => exact ⟨m₁, rfl, steps_of_run hn h⟩
  | halted m₁ | faulted f m₁ =>
      have hended : (m.run n).Ended := by
        intro m₂ hrun
        rw [hn] at hrun
        cases hrun
      exact absurd ((run_add_of_ended hended 1).symm.trans h) (hended m')

/-- A run that ends is a run that is going on and one step more. -/
theorem running_of_ended {n : Nat} {m : Machine} (h : (m.run n).Ended) :
    ∃ k m', k < n ∧ m.run k = .running m' ∧ m'.step = m.run n := by
  induction n generalizing m with
  | zero => exact absurd rfl (h m)
  | succ n ih =>
      cases hstep : m.step with
      | running m₁ =>
          rw [run, hstep] at h ⊢
          obtain ⟨k, m', hlt, hrun, hend⟩ := ih h
          refine ⟨k + 1, m', Nat.succ_lt_succ hlt, ?_, hend⟩
          rw [run, hstep]
          exact hrun
      | halted m₁ | faulted f m₁ =>
          refine ⟨0, m, Nat.succ_pos n, rfl, ?_⟩
          rw [run, hstep]

/-! ## The invariant along a run -/

/-- A machine on the way, or after a return at the top level. -/
def Good (st : Stage) (g : Array Value) (m : Machine) : Prop :=
  (∃ xs, m.Ok st g xs) ∨ m.Done st g

variable {st : Stage} {g : Array Value} {m m' m₀ : Machine}

theorem Done.step_eq (h : m.Done st g) : m.step = .halted m :=
  step_end h.ip

theorem Good.kept (h : m.Good st g) : st.Kept g m.globals := by
  rcases h with ⟨xs, hok⟩ | hdone
  · exact hok.kept
  · exact hdone.kept

theorem Good.of_steps (h : m.Good st g) (hg : st.Reads g) (hstep : m.Steps m') : m'.Good st g := by
  rcases h with ⟨xs, hok⟩ | hdone
  · have hnext := hok.stepOk hg
    rw [hstep] at hnext
    rcases hnext.2.2.2 with hok' | ⟨-, hdone⟩
    · exact .inl hok'
    · exact .inr hdone
  · rw [Steps, hdone.step_eq] at hstep
    cases hstep

theorem Good.of_reaches (h : m.Good st g) (hg : st.Reads g) (hreach : m.Reaches m') :
    m'.Good st g := by
  induction hreach with
  | refl => exact h
  | tail _ hstep ih => exact ih.of_steps hg hstep

theorem Good.same (h : m.Good st g) (hg : st.Reads g) (hreach : m.Reaches m') :
    m'.limits = m.limits ∧ m'.stack.size = m.stack.size := by
  induction hreach with
  | refl => exact ⟨rfl, rfl⟩
  | tail hreach hstep ih =>
      rcases h.of_reaches hg hreach with ⟨xs, hok⟩ | hdone
      · have hnext := hok.stepOk hg
        rw [hstep] at hnext
        exact ⟨hnext.1.trans ih.1, hnext.2.1.trans ih.2⟩
      · rw [Steps, hdone.step_eq] at hstep
        cases hstep

/-- However a run stands, it has kept the globals that are not its own. -/
theorem Good.run_kept (h : m.Good st g) (hg : st.Reads g) (n : Nat) :
    st.Kept g (m.run n).machine.globals := by
  obtain ⟨m', hreach, hrun | ⟨hrun, -⟩⟩ := run_reaches n m
  · rw [hrun]
    exact (h.of_reaches hg hreach).kept
  · rw [hrun]
    rcases h.of_reaches hg hreach with ⟨xs, hok⟩ | hdone
    · have hnext := hok.stepOk hg
      cases hstep : m'.step with
      | running m'' =>
          exact ((Good.of_steps (.inl ⟨xs, hok⟩) hg hstep)).kept
      | halted m'' =>
          rw [hstep] at hnext
          rw [hnext.1]
          exact hok.kept
      | faulted f m'' =>
          rw [hstep] at hnext
          exact hnext.2
    · rw [hdone.step_eq]
      exact hdone.kept

theorem start_ok (hsafe : Safe st.bytecode.constants st.room st.bytecode.code 0 0) (limits : Limits)
    (g : Array Value) (issued self : Identity) (console : Console) :
    (start limits st.bytecode g issued console self).Ok st g [] :=
  ⟨rfl, ⟨rfl, Nat.zero_le _, fun _ h => absurd h (Nat.not_lt_zero _)⟩, List.forall_mem_nil _,
    .outermost rfl rfl hsafe, .refl st g⟩

/-- A machine that starts a program with globals that the program can read. -/
def Starts (m : Machine) : Prop :=
  ∃ st g, m.Ok st g [] ∧ st.Reads g

end Machine

/-! ## What an instruction takes -/

/-- The number of values that an instruction takes from the stack. -/
def Instruction.takes : Instruction → Nat
  | .add | .subtract | .multiply | .divide | .equal | .notEqual | .greater | .index => 2
  | .pop | .negate | .not | .jumpUnless _ | .setGlobal _ | .setLocal _ | .returnValue => 1
  | .array n | .hash n | .closure _ n => n
  | .call n => n + 1
  | _ => 0

namespace Safe

variable {K : Array Value} {room : Room} {code : Code} {ip h next : Nat} {i : Instruction}

theorem takes_le (hsafe : Safe K room code ip h) (hi : code.Holds ip i next) : i.takes ≤ h := by
  cases hsafe with
  | finish _ hip => exact absurd hi.lt (by have := hi.le_size; omega)
  | source hj hr =>
      obtain ⟨rfl, -⟩ := hi.unique hj
      cases i <;> first | exact hr.elim | exact Nat.zero_le _
  | unary hj hop | binary hj hop =>
      obtain ⟨rfl, -⟩ := hi.unique hj
      cases i <;> cases hop
      all_goals exact Nat.le_add_left _ _
  | array hj | hash hj | closure hj | call hj | pop hj | setGlobal hj | setLocal hj
  | jumpUnless hj | returnValue hj =>
      obtain ⟨rfl, -⟩ := hi.unique hj
      exact Nat.le_add_left _ _
  | jump hj | returnNull hj =>
      obtain ⟨rfl, -⟩ := hi.unique hj
      exact Nat.zero_le _

theorem slot_lt {k : Nat} (hsafe : Safe K room code ip h) (hi : code.Holds ip i next)
    (hik : i = .getLocal k ∨ i = .setLocal k) : k < room.slots := by
  cases hsafe with
  | finish _ hip => exact absurd hi.lt (by have := hi.le_size; omega)
  | source hj hr =>
      obtain ⟨rfl, -⟩ := hi.unique hj
      rcases hik with rfl | rfl
      · exact hr
      · exact hr.elim
  | setLocal hj hk =>
      obtain ⟨rfl, -⟩ := hi.unique hj
      rcases hik with hik | hik <;> cases hik
      exact hk
  | unary hj hop | binary hj hop =>
      obtain ⟨rfl, -⟩ := hi.unique hj
      rcases hik with rfl | rfl <;> cases hop
  | array hj | hash hj | closure hj | call hj | pop hj | setGlobal hj | jump hj | jumpUnless hj
  | returnValue hj | returnNull hj =>
      obtain ⟨rfl, -⟩ := hi.unique hj
      rcases hik with hik | hik <;> cases hik

end Safe

/-! ## What can be seen of a safe run -/

namespace Machine

/-- An instruction reaches for nothing outside of the stack: the values it takes lie above the slots
of the call, and a call that it makes only moves the cursor up. -/
structure InRange (m : Machine) (i : Instruction) : Prop where
  top_le : m.top ≤ m.stack.size
  takes : m.frame.base + m.frame.body.locals + i.takes ≤ m.top
  slot : ∀ k, i = .getLocal k ∨ i = .setLocal k → k < m.frame.body.locals
  entered : ∀ m', m.step = .running m' → m'.callers.size = m.callers.size + 1 →
    m.top ≤ m'.top ∧ m'.top ≤ m.stack.size

/-- A run that never fails because of the code: no fault of malformed code, nothing out of range,
only the top level at the end of its stream, and an empty stack there unless a return of the top
level ended the program. -/
structure RunsSafely (m₀ : Machine) : Prop where
  faults : ∀ n f m, m₀.run n = .faulted f m → f.structural = false
  inRange : ∀ m i next, m₀.Reaches m → m.frame.body.code.Holds m.frame.ip i next → m.InRange i
  ends : ∀ m m', m₀.Reaches m → m.step = .halted m' → m.callers = #[]
  empty : ∀ n m, m₀.run n = .halted m → (∀ m₁, m₀.Reaches m₁ → ¬m₁.AtReturn) →
    m.top = 0 ∧ m.callers = #[]

variable {st : Stage} {g : Array Value} {m m' m₀ : Machine} {xs : List Value}

theorem Ok.inRange (hok : m.Ok st g xs) (hg : st.Reads g) {i : Instruction} {next : Nat}
    (hi : m.frame.body.code.Holds m.frame.ip i next) : m.InRange i := by
  obtain ⟨room, h, hlen, hrun⟩ := hok.frames.running
  have htop := hok.shows.top
  have htakes := hrun.safe.takes_le hi
  refine ⟨htop ▸ hok.shows.fits, by omega, fun k hik => ?_, fun m' hstep hsize => ?_⟩
  · exact Nat.lt_of_lt_of_le (hrun.safe.slot_lt hi hik) hrun.slots
  · have hnext := hok.stepOk hg
    rw [hstep] at hnext
    obtain ⟨-, hstack, hmoves, hgood⟩ := hnext
    constructor
    · cases hmoves with
      | onward ip _ _ _ hcallers =>
          rw [hcallers] at hsize
          omega
      | into ip _ _ _ hle _ => exact hle
      | back hcallers =>
          rw [hcallers, Array.size_push] at hsize
          omega
    · rcases hgood with ⟨ys, hok'⟩ | ⟨-, hdone⟩
      · rw [hok'.shows.top, ← hstack]
        exact hok'.shows.fits
      · rw [hdone.callers] at hsize
        exact absurd hsize (Nat.succ_ne_zero _).symm

theorem Done.not_holds (h : m.Done st g) {i : Instruction} {next : Nat} :
    ¬m.frame.body.code.Holds m.frame.ip i next := by
  intro hi
  have hlt := hi.lt
  have hle := hi.le_size
  rw [h.ip] at hlt
  omega

/-- The only way to be done is a return of the top level. -/
theorem Ok.reaches_done (hok : m₀.Ok st g xs) (hg : st.Reads g) (hreach : m₀.Reaches m) :
    (∃ ys, m.Ok st g ys) ∨ ∃ m₁, m₀.Reaches m₁ ∧ m₁.AtReturn := by
  induction hreach with
  | refl => exact .inl ⟨xs, hok⟩
  | @tail m₁ m hreach hstep ih =>
      rcases ih with ⟨ys, hok₁⟩ | hreturn
      · have hnext := hok₁.stepOk hg
        rw [hstep] at hnext
        rcases hnext.2.2.2 with hok' | ⟨hat, -⟩
        · exact .inl hok'
        · exact .inr ⟨m₁, hreach, hat⟩
      · exact .inr hreturn

theorem Ok.runsSafely (hok : m₀.Ok st g xs) (hg : st.Reads g) : m₀.RunsSafely := by
  have hgood : ∀ m, m₀.Reaches m → m.Good st g :=
    fun m hreach => Good.of_reaches (.inl ⟨xs, hok⟩) hg hreach
  refine ⟨fun n f m hrun => ?_, fun m i next hreach hi => ?_, fun m m' hreach hstep => ?_,
    fun n m hrun hreturn => ?_⟩
  · obtain ⟨m', hreach, hrun' | ⟨hrun', -⟩⟩ := run_reaches n m₀
    · rw [hrun'] at hrun
      cases hrun
    · rw [hrun'] at hrun
      rcases hgood m' hreach with ⟨ys, hok'⟩ | hdone
      · have hnext := hok'.stepOk hg
        rw [hrun] at hnext
        exact hnext.1
      · rw [hdone.step_eq] at hrun
        cases hrun
  · rcases hgood m hreach with ⟨ys, hok'⟩ | hdone
    · exact hok'.inRange hg hi
    · exact absurd hi hdone.not_holds
  · rcases hgood m hreach with ⟨ys, hok'⟩ | hdone
    · have hnext := hok'.stepOk hg
      rw [hstep] at hnext
      exact hnext.2.1
    · exact hdone.callers
  · obtain ⟨m', hreach, hrun' | ⟨hrun', -⟩⟩ := run_reaches n m₀
    · rw [hrun'] at hrun
      cases hrun
    · rw [hrun'] at hrun
      rcases hok.reaches_done hg hreach with ⟨ys, hok'⟩ | ⟨m₁, hreach₁, hat⟩
      · have hnext := hok'.stepOk hg
        rw [hrun] at hnext
        obtain ⟨rfl, hcallers, htop⟩ := hnext
        exact ⟨htop, hcallers⟩
      · exact absurd hat (hreturn m₁ hreach₁)

end Machine

end Monkey
