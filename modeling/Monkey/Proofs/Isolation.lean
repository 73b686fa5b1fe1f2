import Monkey.Proofs.Histories

/-!
# Calls keep to themselves

Every call has a stretch of the stack: its slots start right above the closure that it runs, and
above them it works. Whatever a call does, and whatever it calls in turn, it writes to its own
stretch only, until its return puts a value in the place of the closure.

So the caller finds everything as it left it, with one value in the place of the callee and the
arguments. `Completes` is a call from the machine that executes it to the one that has returned from
it, and the induction is over the steps in between, which may enter and leave further calls.
-/

namespace Monkey

/-- In a stack of frames each one starts above the slots of the one that waits for it. -/
theorem Stacked.bases {st : Stage} {callers : List Frame} {f : Frame} {top : Nat}
    (h : Stacked st callers f top) : (f :: callers).Pairwise fun f g => g.base < f.base := by
  induction h with
  | outermost => exact List.pairwise_singleton _ _
  | inner _ hlt _ _ ih =>
      refine List.pairwise_cons.2 ⟨List.forall_mem_cons.2 ⟨by omega, fun g hg => ?_⟩, ih⟩
      have hgc := (List.pairwise_cons.1 ih).1 g hg
      omega

namespace Machine

/-- The frames of a machine, from the top level to the current call. -/
def frames (m : Machine) : List Frame :=
  m.callers.toList ++ [m.frame]

/-- The calls of a machine lie above one another, each right above its closure. -/
structure Isolated (m : Machine) : Prop where
  bases : (m.frames.map Frame.base).Pairwise (· < ·)
  closures : ∀ f ∈ m.frames.tail, 1 ≤ f.base ∧ m.stack[f.base - 1]? = some f.closure
  slots : m.frame.base + m.frame.body.locals ≤ m.top

variable {st : Stage} {g : Array Value} {m m' m'' : Machine} {xs : List Value}

theorem SameBelow.mono {n k : Nat} (h : m.SameBelow m' n) (hk : k ≤ n) : m.SameBelow m' k :=
  fun j hj => h j (Nat.lt_of_lt_of_le hj hk)

theorem SameBelow.trans {n : Nat} (h : m.SameBelow m' n) (h' : m'.SameBelow m'' n) :
    m.SameBelow m'' n :=
  fun j hj => (h' j hj).trans (h j hj)

theorem Ok.bases (hok : m.Ok st g xs) : m.frames.Pairwise fun f g => f.base < g.base := by
  have hbases := hok.frames.bases
  rw [← List.pairwise_reverse, List.reverse_cons, List.reverse_reverse] at hbases
  exact hbases

theorem Ok.caller_lt (hok : m.Ok st g xs) {f : Frame} (hf : f ∈ m.callers) :
    f.base < m.frame.base :=
  (List.pairwise_append.1 hok.bases).2.2 f (Array.mem_toList_iff.2 hf) m.frame
    (List.mem_singleton_self _)

theorem Ok.base_le_top (hok : m.Ok st g xs) : m.frame.base ≤ m.top :=
  hok.shows.top ▸ hok.frames.base_le

/-- Only a machine that is on its way takes a step. -/
theorem Good.moves (h : m.Good st g) (hg : st.Reads g) (hstep : m.Steps m') :
    m.Moves m' ∧ ∃ xs, m.Ok st g xs := by
  rcases h with ⟨xs, hok⟩ | hdone
  · have hnext := hok.stepOk hg
    rw [hstep] at hnext
    exact ⟨hnext.2.2.1, xs, hok⟩
  · rw [Steps, hdone.step_eq] at hstep
    cases hstep

/-! ## The closure below each frame -/

/-- Below the slots of every call is the closure that it runs. The top level has nothing below. -/
def Anchored (m : Machine) : Prop :=
  ∀ f ∈ m.frames, 0 < f.base → m.stack[f.base - 1]? = some f.closure

theorem Anchored.of_sameBelow {f : Frame} {n : Nat} (h : m.Anchored) (hsame : m.SameBelow m' n)
    (hf : f ∈ m.frames) (hn : f.base ≤ n) (hpos : 0 < f.base) :
    m'.stack[f.base - 1]? = some f.closure := by
  rw [hsame _ (by omega)]
  exact h f hf hpos

theorem Anchored.of_moves (h : m.Anchored) (hok : m.Ok st g xs) (hmoves : m.Moves m') :
    m'.Anchored := by
  have hcallers : ∀ f ∈ m.callers.toList, f ∈ m.frames ∧ f.base < m.frame.base :=
    fun f hf => ⟨List.mem_append_left _ hf, hok.caller_lt (Array.mem_toList_iff.1 hf)⟩
  have hframe : m.frame ∈ m.frames := List.mem_append_right _ (List.mem_singleton_self _)
  have htop := hok.base_le_top
  intro f hf hpos
  cases hmoves with
  | onward ip _ _ hframe' hcallers' hsame =>
      rw [frames, hcallers', hframe'] at hf
      rcases List.mem_append.1 hf with hf | hf
      · obtain ⟨hmem, hlt⟩ := hcallers f hf
        exact h.of_sameBelow hsame hmem hlt.le hpos
      · obtain rfl := List.mem_singleton.1 hf
        exact h.of_sameBelow (f := m.frame) hsame hframe (Nat.le_refl _) hpos
  | into ip _ _ _ _ hcallers' _ _ hclosure hsame =>
      rw [frames, hcallers', Array.toList_push, List.append_assoc] at hf
      rcases List.mem_append.1 hf with hf | hf
      · obtain ⟨hmem, hlt⟩ := hcallers f hf
        exact h.of_sameBelow hsame hmem (by omega) hpos
      · rcases List.mem_cons.1 hf with rfl | hf
        · exact h.of_sameBelow (f := m.frame) hsame hframe htop hpos
        · obtain rfl := List.mem_singleton.1 hf
          exact hclosure
  | back hcallers' _ _ _ hsame =>
      have hf' : f ∈ m.callers.toList := by
        rw [hcallers', Array.toList_push]
        exact hf
      obtain ⟨hmem, hlt⟩ := hcallers f hf'
      exact h.of_sameBelow hsame hmem (by omega) hpos

theorem Anchored.of_reaches (h : m.Anchored) (hgood : m.Good st g) (hg : st.Reads g)
    (hreach : m.Reaches m') : m'.Anchored := by
  induction hreach with
  | refl => exact h
  | tail hreach hstep ih =>
      obtain ⟨hmoves, ys, hok⟩ := (hgood.of_reaches hg hreach).moves hg hstep
      exact ih.of_moves hok hmoves

theorem Ok.anchored (hok : m.Ok st g []) : m.Anchored := by
  have htop : m.frame.base ≤ 0 := hok.frames.base_le
  intro f hf hpos
  rcases List.mem_append.1 hf with hf | hf
  · have hlt := hok.caller_lt (Array.mem_toList_iff.1 hf)
    omega
  · obtain rfl := List.mem_singleton.1 hf
    omega

theorem Ok.isolated (hok : m.Ok st g xs) (h : m.Anchored) : m.Isolated := by
  have hbases := hok.bases
  refine ⟨List.pairwise_map.2 hbases, fun f hf => ?_, ?_⟩
  · cases hframes : m.frames with
    | nil =>
        rw [hframes] at hf
        cases hf
    | cons f₀ rest =>
        rw [hframes] at hf hbases
        have hlt := (List.pairwise_cons.1 hbases).1 f hf
        exact ⟨by omega, h f (hframes ▸ List.mem_cons_of_mem _ hf) (by omega)⟩
  · obtain ⟨room, h, htop, -⟩ := hok.frames.running
    rw [hok.shows.top]
    omega

/-- A return of the top level leaves one frame, which needs no slots. -/
theorem Ok.isolated_of_return (hok : m.Ok st g xs) (hmoves : m.Moves m') (hat : m.AtReturn) :
    m'.Isolated := by
  have hnil : m.callers = #[] := hat.1
  have hstacked := hok.frames
  rw [hnil] at hstacked
  cases hstacked with
  | outermost hbase hlocals =>
      cases hmoves with
      | onward ip _ _ hframe hcallers =>
          have hframes : m'.frames = [m.frame.at ip] := by
            rw [Machine.frames, hcallers, hnil, hframe]
            rfl
          refine ⟨?_, fun f hf => ?_, ?_⟩
          · rw [hframes]
            exact List.pairwise_singleton _ _
          · rw [hframes] at hf
            cases hf
          · rw [hframe]
            show m.frame.base + m.frame.body.locals ≤ m'.top
            omega
      | into ip _ _ _ _ _ hcall =>
          obtain ⟨-, i, next, hi, hreturn⟩ := hat
          obtain ⟨rfl, -⟩ := hi.unique hcall
          rcases hreturn with hreturn | hreturn <;> cases hreturn
      | back hcallers =>
          rw [hnil] at hcallers
          exact absurd hcallers.symm Array.push_ne_empty

theorem Ok.isolated_of_reaches (hok : m.Ok st g xs) (hg : st.Reads g) (h : m.Anchored)
    (hreach : m.Reaches m') : m'.Isolated := by
  have hgood : m.Good st g := .inl ⟨xs, hok⟩
  rcases Relation.ReflTransGen.cases_tail hreach with rfl | ⟨m₁, hreach₁, hstep⟩
  · exact hok.isolated h
  · obtain ⟨hmoves, ys, hok₁⟩ := (hgood.of_reaches hg hreach₁).moves hg hstep
    have hnext := hok₁.stepOk hg
    rw [hstep] at hnext
    rcases hnext.2.2.2 with ⟨zs, hok'⟩ | ⟨hat, -⟩
    · exact hok'.isolated (h.of_reaches hgood hg hreach)
    · exact hok₁.isolated_of_return hmoves hat

/-! ## A call and its return -/

/-- A call that comes to its end. The machine `m` calls a closure with `n` arguments, the call
starts with `m₁`, and `m₂` is the first machine after it that returns to the frames of `m`, in
`m₃`. -/
structure Completes (m : Machine) (n : Nat) (m₁ m₂ m₃ : Machine) : Prop where
  calls : ∃ next, m.frame.body.code.Holds m.frame.ip (.call n) next
  enters : m.Steps m₁
  entered : m₁.callers.size = m.callers.size + 1
  inside : Relation.ReflTransGen (fun a b => a.Steps b ∧ m.callers.size < b.callers.size) m₁ m₂
  returns : m₂.Steps m₃
  returned : m₃.callers.size = m.callers.size

/-- What is left of a call with `n` arguments, whose callee was in the slot `callee`: the caller
goes on behind the call, with nothing changed but the result in the place of the callee. -/
structure Resumes (m : Machine) (n callee : Nat) (m₂ m₃ : Machine) : Prop where
  operands : callee + (n + 1) = m.top
  slots : ∀ j, j < callee → m₃.stack[j]? = m.stack[j]?
  frame : ∃ next, m.frame.body.code.Holds m.frame.ip (.call n) next ∧ m₃.frame = m.frame.at next
  callers : m₃.callers = m.callers
  top : m₃.top = callee + 1
  result : ∃ v, m₂.GivesBack v ∧ m₃.stack[callee]? = some v

/-- A machine inside of a call whose slots start at `base`, over the frames `waiting`: it runs the
call itself, or a call that was made from there. -/
structure Inside (waiting : List Frame) (base : Nat) (m m' : Machine) : Prop where
  frames : (m'.callers.toList = waiting ∧ m'.frame.base = base) ∨
    ∃ f rest, m'.callers.toList = waiting ++ f :: rest ∧ f.base = base
  same : m.SameBelow m' base

theorem Inside.base_le {waiting : List Frame} {base : Nat} (h : Inside waiting base m m')
    (hok : m'.Ok st g xs) : base ≤ m'.frame.base := by
  rcases h.frames with ⟨-, hbase⟩ | ⟨f, rest, hcallers, rfl⟩
  · exact hbase.ge
  · have hf : f ∈ m'.callers.toList := by
      rw [hcallers]
      exact List.mem_append_right _ List.mem_cons_self
    exact (hok.caller_lt (Array.mem_toList_iff.1 hf)).le

/-- A step that stays above the waiting frames stays inside of the call. -/
theorem Inside.of_moves {waiting : List Frame} {base : Nat} (h : Inside waiting base m m')
    (hok : m'.Ok st g xs) (hmoves : m'.Moves m'') (hle : waiting.length ≤ m''.callers.size) :
    Inside waiting base m m'' := by
  have hbase := h.base_le hok
  have htop := hok.base_le_top
  cases hmoves with
  | onward ip _ _ hframe hcallers hsame =>
      refine ⟨?_, h.same.trans (hsame.mono hbase)⟩
      rw [hcallers, hframe]
      exact h.frames
  | into ip _ _ _ _ hcallers _ _ _ hsame =>
      refine ⟨.inr ?_, h.same.trans (hsame.mono (by omega))⟩
      rw [hcallers, Array.toList_push]
      rcases h.frames with ⟨hwaiting, hb⟩ | ⟨f, rest, hwaiting, hb⟩
      · exact ⟨m'.frame.at ip, [], by rw [hwaiting], hb⟩
      · exact ⟨f, rest ++ [m'.frame.at ip], by rw [hwaiting, List.append_assoc]; rfl, hb⟩
  | back hcallers _ _ _ hsame =>
      rw [← Array.length_toList] at hle
      have hlist : m'.callers.toList = m''.callers.toList ++ [m''.frame] := by
        rw [hcallers, Array.toList_push]
      rcases h.frames with ⟨hwaiting, -⟩ | ⟨f, rest, hwaiting, hb⟩
      · rw [← hwaiting, hlist, List.length_append, List.length_singleton] at hle
        omega
      · have hf : f ∈ m'.callers.toList := by
          rw [hwaiting]
          exact List.mem_append_right _ List.mem_cons_self
        have hlt := hok.caller_lt (Array.mem_toList_iff.1 hf)
        refine ⟨?_, h.same.trans (hsame.mono (by omega))⟩
        rw [hlist] at hwaiting
        rcases List.eq_nil_or_concat rest with rfl | ⟨init, last, rfl⟩
        · obtain ⟨hinit, hlast⟩ := List.append_inj' hwaiting rfl
          obtain rfl := List.singleton_inj.1 hlast
          exact .inl ⟨hinit, hb⟩
        · rw [List.concat_eq_append, ← List.cons_append, ← List.append_assoc] at hwaiting
          exact .inr ⟨f, init, (List.append_inj' hwaiting rfl).1, hb⟩

theorem Inside.of_reaches {waiting : List Frame} {base n : Nat} (h : Inside waiting base m m')
    (hgood : m'.Good st g) (hg : st.Reads g) (hn : waiting.length = n + 1)
    (hreach : Relation.ReflTransGen (fun a b => a.Steps b ∧ n < b.callers.size) m' m'') :
    Inside waiting base m m'' ∧ m''.Good st g := by
  induction hreach with
  | refl => exact ⟨h, hgood⟩
  | tail _ hstep ih =>
      obtain ⟨hinside, hgood'⟩ := ih
      obtain ⟨hmoves, ys, hok⟩ := hgood'.moves hg hstep.1
      exact ⟨hinside.of_moves hok hmoves (hn ▸ hstep.2), hgood'.of_steps hg hstep.1⟩

/-- The machine that a call enters is inside of it. -/
theorem inside_of_call {n next : Nat} (hcall : m.frame.body.code.Holds m.frame.ip (.call n) next)
    (hmoves : m.Moves m') (hsize : m'.callers.size = m.callers.size + 1) (hok : m'.Ok st g xs) :
    ∃ callee, callee + (n + 1) = m.top ∧
      Inside (m.callers.toList ++ [m.frame.at next]) (callee + 1) m m' := by
  cases hmoves with
  | onward _ _ _ _ hcallers =>
      rw [hcallers] at hsize
      omega
  | into ip _ _ _ _ hcallers hcall' hbase _ hsame =>
      obtain ⟨hn, rfl⟩ := hcall.unique hcall'
      cases hn
      have hlt := hok.caller_lt (hcallers ▸ Array.mem_push_self)
      refine ⟨m'.frame.base - 1, by omega, .inl ⟨?_, by omega⟩, hsame.mono (by omega)⟩
      rw [hcallers, Array.toList_push]
  | back hcallers =>
      rw [hcallers, Array.size_push] at hsize
      omega

/-- The step out of a call. -/
theorem Inside.resumes {n next callee : Nat} {m₂ m₃ : Machine}
    (hcall : m.frame.body.code.Holds m.frame.ip (.call n) next) (htop : callee + (n + 1) = m.top)
    (h : Inside (m.callers.toList ++ [m.frame.at next]) (callee + 1) m m₂)
    (hmoves : m₂.Moves m₃) (hsize : m₃.callers.size = m.callers.size) :
    m.Resumes n callee m₂ m₃ := by
  have hdeeper : m.callers.size < m₂.callers.size := by
    rw [← Array.length_toList, ← Array.length_toList]
    rcases h.frames with ⟨hwaiting, -⟩ | ⟨f, rest, hwaiting, -⟩
    · simp [hwaiting]
    · simp [hwaiting]
  cases hmoves with
  | onward _ _ _ _ hcallers =>
      rw [hcallers] at hsize
      omega
  | into _ _ _ _ _ hcallers =>
      rw [hcallers, Array.size_push] at hsize
      omega
  | back hcallers hgives htop₃ hresult hsame =>
      have hlist : m₂.callers.toList = m₃.callers.toList ++ [m₃.frame] := by
        rw [hcallers, Array.toList_push]
      rcases h.frames with ⟨hwaiting, hbase⟩ | ⟨f, rest, hwaiting, -⟩
      · obtain ⟨hcallers', hframe⟩ := List.append_inj' (hlist.symm.trans hwaiting) rfl
        rw [hbase, Nat.add_sub_cancel] at hresult hsame
        exact ⟨htop, (h.same.mono (Nat.le_succ _)).trans hsame,
          ⟨next, hcall, List.singleton_inj.1 hframe⟩, Array.toList_inj.1 hcallers',
          htop₃.trans hbase, _, hgives, hresult⟩
      · -- A deeper call would return to a frame above those of `m`.
        have hlen := congrArg List.length (hlist.symm.trans hwaiting)
        simp at hlen
        omega

/-- A call leaves its caller as it was, up to the result. -/
theorem Completes.resumes {n : Nat} {m₁ m₂ m₃ : Machine} (h : m.Completes n m₁ m₂ m₃)
    (hgood : m.Good st g) (hg : st.Reads g) : ∃ callee, m.Resumes n callee m₂ m₃ := by
  obtain ⟨next, hcall⟩ := h.calls
  have hgood₁ := hgood.of_steps hg h.enters
  rcases hgood₁ with ⟨ys, hok₁⟩ | hdone
  · obtain ⟨callee, htop, hinside⟩ :=
      inside_of_call hcall (hgood.moves hg h.enters).1 h.entered hok₁
    obtain ⟨hinside₂, hgood₂⟩ :=
      hinside.of_reaches (.inl ⟨ys, hok₁⟩) hg (by simp) h.inside
    exact ⟨callee, hinside₂.resumes hcall htop (hgood₂.moves hg h.returns).1 h.returned⟩
  · have hentered := h.entered
    rw [hdone.callers] at hentered
    cases hentered

end Machine

namespace Session

/-- Calls are isolated in every machine of a session: each frame lies above the one that waits for
it, right above the closure that it runs, and a call that returns leaves its caller as it was but
for the result, which replaces the callee and the arguments. -/
theorem history_calls_isolated (limits : Limits) (console : Console) (fuel : Nat)
    (actions : List Action) (m₀ : Machine)
    (hm₀ : m₀ ∈ (({ limits, console, fuel } : Session).history actions).machines) (m : Machine)
    (hreach : m₀.Reaches m) :
    m.Isolated ∧ ∀ n m₁ m₂ m₃, m.Completes n m₁ m₂ m₃ → ∃ callee, m.Resumes n callee m₂ m₃ := by
  obtain ⟨st, g, hok, hreads⟩ := (history_sane limits console fuel actions).starts m₀ hm₀
  have hgood : m.Good st g := Machine.Good.of_reaches (.inl ⟨_, hok⟩) hreads hreach
  exact ⟨hok.isolated_of_reaches hreads hok.anchored hreach,
    fun n m₁ m₂ m₃ h => h.resumes hgood hreads⟩

/-- A call inside of an array literal, whose body returns from a branch and makes a call of its own
for an operand. -/
def nestedSample : List Action :=
  [.evalProgram
    [.bind "g" (.function ["y"] [.expr (.infixOp "*" (.ident "y") (.int 2))] (some "g")),
      .bind "f" (.function ["x"] [.expr (.cond (.bool true)
        [.ret (.infixOp "+" (.call (.ident "g") [.ident "x"]) (.int 1))] none)] (some "f")),
      .expr (.array [.int 10, .call (.ident "f") [.int 3]])]]

/-- The number of frames that wait, while the run goes on. -/
def waiting? : Progress → Option Nat
  | .running m => some m.callers.size
  | _ => none

/-- The number of arguments, where a call is at hand. -/
def argumentsAtHand? : Progress → Option Nat
  | .running m =>
      match m.frame.body.code.fetch? m.frame.ip with
      | .ok (some (.call n, _)) => some n
      | _ => none
  | _ => none

theorem eq_running_of_waiting? {p : Progress} {n : Nat} (h : waiting? p = some n) :
    ∃ m, p = .running m ∧ m.callers.size = n := by
  cases p with
  | running m => exact ⟨m, rfl, Option.some.inj h⟩
  | halted | faulted => cases h

theorem holds_of_argumentsAtHand? {m : Machine} {n : Nat}
    (h : argumentsAtHand? (.running m) = some n) :
    ∃ next, m.frame.body.code.Holds m.frame.ip (.call n) next := by
  rw [argumentsAtHand?] at h
  split at h
  · next hfetch =>
      cases h
      exact ⟨_, hfetch⟩
  · cases h

/-- A stretch of a run over which more than `n` frames wait. -/
theorem inside_of_run {m : Machine} {n k : Nat}
    (h : ∀ j < k + 1, n < (waiting? (m.run j)).getD 0) :
    ∃ m', m.run k = .running m' ∧
      Relation.ReflTransGen (fun a b => a.Steps b ∧ n < b.callers.size) m m' := by
  induction k with
  | zero => exact ⟨m, rfl, .refl⟩
  | succ k ih =>
      obtain ⟨m', hrun, hinside⟩ := ih fun j hj => h j (Nat.lt_succ_of_lt hj)
      have hlt := h (k + 1) (Nat.lt_succ_self _)
      cases hwait : waiting? (m.run (k + 1)) with
      | none =>
          rw [hwait] at hlt
          exact absurd hlt (Nat.not_lt_zero _)
      | some d =>
          rw [hwait] at hlt
          obtain ⟨m'', hrun', rfl⟩ := eq_running_of_waiting? hwait
          exact ⟨m'', hrun', hinside.tail ⟨Machine.steps_of_run hrun hrun', hlt⟩⟩

theorem history_calls_isolated_nestedSample :
    ∃ m₀ m m₁ m₂ m₃ callee,
      (({ limits := { stackSize := 16 }, fuel := 30 } : Session).history
        nestedSample).machines[0]? = some m₀ ∧
      m₀.Reaches m ∧ m.Completes 1 m₁ m₂ m₃ ∧ m.Isolated ∧ m.Resumes 1 callee m₂ m₃ := by
  have heval : (({ limits := { stackSize := 16 }, fuel := 30 } : Session).history
      nestedSample).machines[0]?.map (fun m₀ : Machine =>
        (argumentsAtHand? (m₀.run 7), [7, 8, 20].map fun j => waiting? (m₀.run j),
          (List.range 12).all fun j => decide (0 < (waiting? (m₀.run (8 + j))).getD 0))) =
      some (some 1, [some 0, some 1, some 0], true) := by
    decide +kernel
  obtain ⟨m₀, hm₀, heval⟩ := Option.map_eq_some_iff.1 heval
  simp only [List.map_cons, List.map_nil, Prod.mk.injEq, List.cons.injEq] at heval
  obtain ⟨hcall, ⟨h₇, h₈, h₂₀, -⟩, hdeep⟩ := heval
  obtain ⟨m, hrun, hsize⟩ := eq_running_of_waiting? h₇
  obtain ⟨m₁, hrun₁, hsize₁⟩ := eq_running_of_waiting? h₈
  obtain ⟨m₃, hrun₃, hsize₃⟩ := eq_running_of_waiting? h₂₀
  have hdeep₁ : ∀ j < 12, m.callers.size < (waiting? (m₁.run j)).getD 0 := by
    intro j hj
    rw [← Machine.run_add_of_running hrun₁, hsize]
    exact of_decide_eq_true (List.all_eq_true.1 hdeep j (List.mem_range.2 hj))
  obtain ⟨m₂, hrun₂, hinside⟩ := inside_of_run hdeep₁
  rw [← Machine.run_add_of_running hrun₁] at hrun₂
  have hcompletes : m.Completes 1 m₁ m₂ m₃ :=
    ⟨holds_of_argumentsAtHand? (hrun ▸ hcall), Machine.steps_of_run hrun hrun₁,
      by rw [hsize, hsize₁], hinside, Machine.steps_of_run hrun₂ hrun₃, by rw [hsize, hsize₃]⟩
  have hreach := Machine.reaches_of_run hrun
  obtain ⟨hisolated, hresumes⟩ := history_calls_isolated { stackSize := 16 } {} 30 nestedSample m₀
    (List.mem_of_getElem? hm₀) m hreach
  obtain ⟨callee, hresumes⟩ := hresumes 1 m₁ m₂ m₃ hcompletes
  exact ⟨m₀, m, m₁, m₂, m₃, callee, hm₀, hreach, hcompletes, hisolated, hresumes⟩

end Session

end Monkey
