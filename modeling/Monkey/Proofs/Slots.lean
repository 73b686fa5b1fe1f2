import Monkey.Proofs.Origins
import Monkey.Proofs.Relocation

/-!
# The places of bindings

A binding has a place: a global, or a slot of the call that executes it. `Machine.held` is what
stands there. The places of a call are changed by its own steps only, and by these only where they
store under the symbol of the binding (`Ok.held_of_steps`, `Ok.held_of_deeper`). Slots could be
overwritten by whatever a step pushes, so this rests on the stack that every instruction leaves,
which `Proceeds` says for the slots of the call. Globals are set at top level and nowhere else, so
for the top level they are like slots.
-/

namespace Monkey

/-- There is a place for the binding: a global, or a slot of the call. -/
def Symbol.HasPlace (s : Symbol) (locals : Nat) : Prop :=
  s.storage = .global ∨ s.storage = .slot ∧ s.index < locals

theorem Symbol.sets_save (s : Symbol) : s.save.sets = true := by
  rw [Symbol.save]
  split <;> rfl

theorem Symbol.target_save (s : Symbol) : s.save.target? = none := by
  rw [Symbol.save]
  split <;> rfl

namespace Machine

/-! ## What a step does to the slots of its call -/

variable {m m' : Machine} {st : Stage} {g : Array Value} {xs xs' ys : List Value}
  {i : Instruction} {next : Nat}

theorem execute_of_steps (hi : m.frame.body.code.Holds m.frame.ip i next) (hstep : m.Steps m') :
    execute i (m.advance next) = .ok () m' := by
  rw [Steps] at hstep
  cases hlimit : (m.advance next).exceedsLimit with
  | some limit =>
      rw [step_limit hi hlimit] at hstep
      cases hstep
  | none =>
      rw [step_eq hi hlimit] at hstep
      cases hexec : execute i (m.advance next) with
      | ok u m₁ =>
          rw [hexec] at hstep
          cases hstep
          rfl
      | error f m₁ =>
          rw [hexec] at hstep
          cases hstep

theorem eq_of_ok {x : Exec Unit} {m₁ m₂ : Machine} (h₁ : x m = .ok () m₁) (h₂ : x m = .ok () m₂) :
    m₁ = m₂ := by
  rw [h₁] at h₂
  cases h₂
  rfl

theorem Answers.moved {x : Exec Unit} {a : Except Fault (Value × World)} (h : Answers x m xs a)
    (hx : x m = .ok () m') : ∃ v w, a = .ok (v, w) ∧ m.Moved m' (xs ++ [v]) w := by
  cases a with
  | error f =>
      obtain ⟨m₁, herror, -⟩ := h
      rw [hx] at herror
      cases herror
  | ok answer =>
      obtain ⟨v, w⟩ := answer
      rcases h with ⟨-, m₁, hok, hm⟩ | ⟨-, m₁, herror, -⟩
      · obtain rfl := eq_of_ok hx hok
        exact ⟨v, w, rfl, hm⟩
      · rw [hx] at herror
        cases herror

theorem Shows.slot_of_prefix {j : Nat} (h : m.Shows xs) (h' : m'.Shows xs') (hpre : ys <+: xs)
    (hpre' : ys <+: xs') (hj : j < ys.length) : m'.slot j = m.slot j := by
  obtain ⟨zs, rfl⟩ := hpre
  obtain ⟨zs', rfl⟩ := hpre'
  rw [Machine.slot, Machine.slot, h.slot j (by simp; omega), h'.slot j (by simp; omega),
    List.getElem?_append_left hj, List.getElem?_append_left hj]

theorem Shows.slot_last {v : Value} (h : m.Shows (ys ++ [v])) : m.slot (m.top - 1) = v := by
  refine h.slot_eq ?_
  rw [h.top, List.length_append]
  exact List.getElem?_concat_length

theorem frames_getElem? (m : Machine) : m.frames[m.callers.size]? = some m.frame := by
  rw [frames, ← Array.length_toList, List.getElem?_concat_length]

/-- A step of a call that does not end it: what becomes of its slots, and where it goes on. -/
structure Proceeds (m m' : Machine) (i : Instruction) (next : Nat) : Prop where
  slots : ∀ k, k < m.frame.body.locals → m'.slot (m.frame.base + k) =
    if i = .setLocal k then m.slot (m.top - 1) else m.slot (m.frame.base + k)
  place : ∃ ip, m'.frames[m.callers.size]? = some (m.frame.at ip) ∧
    (ip = next ∨ i.target? = some ip ∨ ip = m.frame.body.code.size)

/-- The instruction leaves the slots alone and goes on behind it, or where it jumps to. -/
theorem Proceeds.of_shows {ip : Nat} (hi : ∀ k, i ≠ .setLocal k) (h : m.Shows xs)
    (h' : m'.Shows xs') (hpre : ys <+: xs) (hpre' : ys <+: xs')
    (hlen : m.frame.base + m.frame.body.locals ≤ ys.length)
    (hframe : m'.frame = m.frame.at ip) (hcallers : m'.callers = m.callers)
    (hip : ip = next ∨ i.target? = some ip ∨ ip = m.frame.body.code.size) :
    m.Proceeds m' i next := by
  refine ⟨fun k hk => ?_, ip, ?_, hip⟩
  · rw [if_neg (hi k)]
    exact h.slot_of_prefix h' hpre hpre' (by omega)
  · rw [← hframe, ← hcallers]
    exact m'.frames_getElem?

/-- An instruction that takes some values and answers with one. -/
theorem Proceeds.of_answers {a : Except Fault (Value × World)} (hi : ∀ k, i ≠ .setLocal k)
    (h : m.Shows xs) (hpre : ys <+: xs) (hlen : m.frame.base + m.frame.body.locals ≤ ys.length)
    (ha : Answers (execute i) (m.advance next) ys a)
    (hexec : execute i (m.advance next) = .ok () m') : m.Proceeds m' i next := by
  obtain ⟨v, w, -, hm⟩ := ha.moved hexec
  exact .of_shows hi h hm.shows hpre (List.prefix_append _ _) hlen hm.frame hm.callers (.inl rfl)

/-- An instruction that only takes a value. -/
theorem Proceeds.of_takes {v : Value} {w : World} {ip : Nat} (hi : ∀ k, i ≠ .setLocal k)
    (h : m.Shows (ys ++ [v])) (hlen : m.frame.base + m.frame.body.locals ≤ ys.length)
    (hm : (m.advance next).Leads m' (m.frame.at ip) m.callers ys w)
    (hip : ip = next ∨ i.target? = some ip ∨ ip = m.frame.body.code.size) : m.Proceeds m' i next :=
  .of_shows hi h hm.shows (List.prefix_append _ _) (List.prefix_refl _) hlen hm.frame hm.callers hip

/-- A slot gets the value on top of the stack, and the others keep theirs. -/
theorem Proceeds.of_setLocal {v : Value} {k : Nat} (h : m.Shows (ys ++ [v]))
    (hlen : m.frame.base + m.frame.body.locals ≤ ys.length) (hk : m.frame.base + k < ys.length)
    (hexec : execute (.setLocal k) (m.advance next) = .ok () m') :
    m.Proceeds m' (.setLocal k) next := by
  obtain ⟨m₁, heq, hm, -⟩ := execute_setLocal (h.advance next) hk
  obtain rfl := eq_of_ok hexec heq
  refine ⟨fun j hj => ?_, next, ?_, .inl rfl⟩
  · have hset := hm.shows.slot (m.frame.base + j) (by rw [List.length_set]; omega)
    rw [Machine.slot, hset]
    show ((ys.set (m.frame.base + k) v)[m.frame.base + j]?).getD .null = _
    by_cases hjk : j = k
    · subst hjk
      rw [if_pos rfl, List.getElem?_set_self hk, h.slot_last]
      rfl
    · rw [if_neg (by intro hkj; cases hkj; exact hjk rfl), List.getElem?_set_ne (by omega),
        Machine.slot, h.slot _ (by simp; omega), List.getElem?_append_left (by omega)]
  · have hcallers : m'.callers = m.callers := hm.callers
    rw [← hcallers, m'.frames_getElem?, hm.frame]
    rfl

/-- An instruction that leaves a call leaves fewer callers. -/
theorem Ok.size_lt_of_leaves {room : Room} {h : Nat} {v : Value} (hok : m.Ok st g xs)
    (hrun : Running st m.callers.toList.reverse m.frame room h) (hinner : room.inner = true)
    (hle : m.frame.base ≤ ys.length) (hexec : execute i (m.advance next) = .ok () m')
    (hleave : ∀ b caller rest, m.frame.base = b + 1 → b < ys.length →
      m.callers = rest.push caller → ∃ m₁, execute i (m.advance next) = .ok () m₁ ∧
        (m.advance next).Leads m₁ caller rest (ys.take b ++ [v]) m.world) :
    m'.callers.size < m.callers.size := by
  obtain ⟨caller, rest, hcallers, -, hlt⟩ := hok.frames.waiting (hrun.inner hinner).1
  have hpush := callers_eq_push hcallers
  obtain ⟨b, hb⟩ := Nat.exists_eq_add_of_lt (Nat.zero_lt_of_lt hlt)
  rw [Nat.zero_add] at hb
  obtain ⟨m₁, heq, hm⟩ := hleave b caller _ hb (by omega) hpush
  obtain rfl := eq_of_ok hexec heq
  rw [hm.callers, hpush, Array.size_push]
  exact Nat.lt_succ_self _

/-- A call of a builtin is over with the step. The call of a closure begins with the arguments in
the first slots and null in the others. -/
theorem Ok.cases_call {n : Nat} (hok : m.Ok st g xs)
    (hi : m.frame.body.code.Holds m.frame.ip (.call n) next) (hstep : m.Steps m') :
    (∃ ys v w, ys <+: xs ∧ m.frame.base + m.frame.body.locals ≤ ys.length ∧
      (m.advance next).Moved m' (ys ++ [v]) w) ∨
    ∃ ys vs id body captured, ys <+: xs ∧ m.frame.base + m.frame.body.locals ≤ ys.length ∧
      vs.length = body.parameters ∧ (m.advance next).Leads m'
        { id, body, captured, base := ys.length + 1 } (m.callers.push (m.frame.at next))
        (ys ++ .closure id body captured :: slotsOf body.locals vs) m.world := by
  have hexec := execute_of_steps hi hstep
  obtain ⟨room, h, hlen, hrun⟩ := hok.frames.running
  have htakes : n + 1 ≤ h := hrun.safe.takes_le hi
  have hlen' : xs.length = xs.length - (n + 1) + (n + 1) := by omega
  obtain ⟨ys, top, rfl, hys, htop⟩ := exists_append hlen'
  obtain ⟨callee, vs, rfl⟩ := List.exists_cons_of_length_eq_add_one htop
  have hvs : vs.length = n := Nat.succ.inj htop
  subst hvs
  have hle : m.frame.base + m.frame.body.locals ≤ ys.length := by omega
  by_cases hc : ∃ id body captured, callee = .closure id body captured
  · obtain ⟨id, body, captured, rfl⟩ := hc
    obtain ⟨-, hvalues⟩ := List.forall_mem_append.1 hok.values
    obtain ⟨hp, -⟩ := (List.forall_mem_cons.1 hvalues).1.of_closure
    rcases execute_closure (hok.shows.advance next) hp with
      ⟨_, heq⟩ | ⟨_, _, heq⟩ | ⟨_, heq⟩ | ⟨hargs, hframes, m₁, heq, hm⟩
    · rw [hexec] at heq
      cases heq
    · rw [hexec] at heq
      cases heq
    · rw [hexec] at heq
      cases heq
    · obtain rfl := eq_of_ok hexec heq
      exact .inr ⟨ys, vs, id, body, captured, List.prefix_append _ _, hle, hargs, hm⟩
  · have ha := execute_call (fun id body captured heq => hc ⟨id, body, captured, heq⟩)
      (hok.shows.advance next)
    obtain ⟨v, w, -, hm⟩ := ha.moved hexec
    exact .inl ⟨ys, v, w, List.prefix_append _ _, hle, hm⟩

theorem Ok.proceeds_call {n : Nat} (hok : m.Ok st g xs)
    (hi : m.frame.body.code.Holds m.frame.ip (.call n) next) (hstep : m.Steps m') :
    m.Proceeds m' (.call n) next := by
  have hne : ∀ k, Instruction.call n ≠ .setLocal k := by
    intro k hk
    cases hk
  rcases hok.cases_call hi hstep with
    ⟨ys, v, w, hpre, hle, hm⟩ | ⟨ys, vs, id, body, captured, hpre, hle, -, hm⟩
  · exact .of_shows hne hok.shows hm.shows hpre (List.prefix_append _ _) hle hm.frame hm.callers
      (.inl rfl)
  · refine ⟨fun k hk => ?_, next, ?_, .inl rfl⟩
    · rw [if_neg (hne k)]
      exact hok.shows.slot_of_prefix hm.shows hpre (List.prefix_append _ _) (by omega)
    · rw [Machine.frames, hm.callers, Array.toList_push, List.append_assoc, ← Array.length_toList,
        List.getElem?_append_right (Nat.le_refl _), Nat.sub_self]
      rfl

theorem Ok.proceeds_collect {n h' : Nat} {f : List Value → Except Fault (Identity → Value)}
    (hok : m.Ok st g xs) (hi : m.frame.body.code.Holds m.frame.ip i next) (hstep : m.Steps m')
    (hf : i.collect? m.constants = some (n, f))
    (hlen : xs.length = m.frame.base + m.frame.body.locals + (h' + n)) : m.Proceeds m' i next := by
  rw [← Nat.add_assoc] at hlen
  obtain ⟨ys, vs, rfl, hys, rfl⟩ := exists_append hlen
  refine .of_answers ?_ hok.shows (List.prefix_append _ _) (by omega)
    (execute_collect hf (hok.shows.advance next)) (execute_of_steps hi hstep)
  rintro k rfl
  cases hf

theorem Ok.proceeds (hok : m.Ok st g xs) (hg : st.Reads g)
    (hi : m.frame.body.code.Holds m.frame.ip i next) (hstep : m.Steps m')
    (hsize : m.callers.size ≤ m'.callers.size) : m.Proceeds m' i next := by
  have hexec := execute_of_steps hi hstep
  obtain ⟨room, h, hlen, hrun⟩ := hok.frames.running
  cases hrun.safe with
  | finish _ hip =>
      have hlt := Nat.lt_of_lt_of_le hi.lt hi.le_size
      omega
  | source hj hr hsafe =>
      obtain ⟨rfl, rfl⟩ := hi.unique hj
      obtain ⟨v, hv, -⟩ := source_accepts hok hg hrun hlen hr next
      refine .of_answers ?_ hok.shows (List.prefix_refl _) (by omega)
        (execute_source hv (hok.shows.advance _)) hexec
      rintro k rfl
      exact hr
  | unary hj hop hsafe =>
      obtain ⟨rfl, rfl⟩ := hi.unique hj
      obtain ⟨f, hf⟩ := Option.isSome_iff_exists.1 hop
      obtain ⟨ys, v, rfl, hys⟩ := exists_concat hlen
      refine .of_answers ?_ hok.shows (List.prefix_append _ _) (by omega)
        (execute_unary hf (hok.shows.advance _)) hexec
      rintro k rfl
      cases hf
  | binary hj hop hsafe =>
      obtain ⟨rfl, rfl⟩ := hi.unique hj
      obtain ⟨f, hf⟩ := Option.isSome_iff_exists.1 hop
      rw [← Nat.add_assoc] at hlen
      obtain ⟨ys, vs, rfl, hys, hvs⟩ := exists_append hlen
      obtain ⟨l, r, rfl⟩ := List.length_eq_two.1 hvs
      refine .of_answers ?_ hok.shows (List.prefix_append _ _) (by omega)
        (execute_binary hf (hok.shows.advance _)) hexec
      rintro k rfl
      cases hf
  | array hj hsafe | hash hj hsafe =>
      obtain ⟨rfl, rfl⟩ := hi.unique hj
      exact hok.proceeds_collect hi hstep rfl hlen
  | @closure _ _ _ _ _ k n id t hj hk hp hbody hsafe =>
      obtain ⟨rfl, rfl⟩ := hi.unique hj
      have hf : (Instruction.closure k n).collect? m.constants =
          some (n, fun vs => .ok fun id => .closure id t vs) := by
        rw [Instruction.collect?, hok.constants, hk]
      exact hok.proceeds_collect hi hstep hf hlen
  | call hj hsafe =>
      obtain ⟨rfl, rfl⟩ := hi.unique hj
      exact hok.proceeds_call hi hstep
  | pop hj hsafe =>
      obtain ⟨rfl, rfl⟩ := hi.unique hj
      obtain ⟨ys, v, rfl, hys⟩ := exists_concat hlen
      obtain ⟨m₁, heq, hm, -⟩ := execute_pop (hok.shows.advance next)
      obtain rfl := eq_of_ok hexec heq
      exact .of_takes (fun k hk => by cases hk) hok.shows (by omega) hm (.inl rfl)
  | @setGlobal _ _ _ _ _ k hj hinner hown hk hsafe =>
      obtain ⟨rfl, rfl⟩ := hi.unique hj
      obtain ⟨ys, v, rfl, hys⟩ := exists_concat hlen
      rcases Nat.lt_or_ge k m.limits.globalsSize with hlt | hge
      · obtain ⟨m₁, heq, hm, -⟩ := execute_setGlobal (hok.shows.advance next) hlt
        obtain rfl := eq_of_ok hexec heq
        exact .of_takes (fun k hk => by cases hk) hok.shows (by omega) hm (.inl rfl)
      · obtain ⟨m₁, heq, -⟩ := execute_setGlobal_full (hok.shows.advance next) hge
        rw [hexec] at heq
        cases heq
  | @setLocal _ _ _ _ _ k hj hk hsafe =>
      obtain ⟨rfl, rfl⟩ := hi.unique hj
      obtain ⟨ys, v, rfl, hys⟩ := exists_concat hlen
      have hslots := hrun.slots
      exact .of_setLocal hok.shows (by omega) (by omega) hexec
  | @jump _ _ _ _ _ target hj hlt hsafe =>
      obtain ⟨rfl, rfl⟩ := hi.unique hj
      obtain ⟨m₁, heq, hm⟩ := execute_jump (hok.shows.advance next)
      obtain rfl := eq_of_ok hexec heq
      exact .of_shows (fun k hk => by cases hk) hok.shows hm.shows (List.prefix_refl _)
        (List.prefix_refl _) (by omega) hm.frame hm.callers (.inr (.inl rfl))
  | @jumpUnless _ _ _ _ _ target hj hlt htarget hnext =>
      obtain ⟨rfl, rfl⟩ := hi.unique hj
      obtain ⟨ys, v, rfl, hys⟩ := exists_concat hlen
      obtain ⟨m₁, heq, hm⟩ := execute_jumpUnless (hok.shows.advance next)
      obtain rfl := eq_of_ok hexec heq
      cases hv : v.isTruthy <;> rw [hv] at hm
      · exact .of_takes (fun k hk => by cases hk) hok.shows (by omega) hm (.inr (.inl rfl))
      · exact .of_takes (fun k hk => by cases hk) hok.shows (by omega) hm (.inl rfl)
  | returnValue hj =>
      obtain ⟨rfl, rfl⟩ := hi.unique hj
      obtain ⟨ys, v, rfl, hys⟩ := exists_concat hlen
      cases hinner : room.inner with
      | false =>
          have hnil := (hrun.top hinner).1
          rw [List.reverse_eq_nil_iff, Array.toList_eq_nil_iff] at hnil
          obtain ⟨m₁, heq, hm, -⟩ := execute_returnValue_top (hok.shows.advance next) hnil
          obtain rfl := eq_of_ok hexec heq
          exact .of_takes (fun k hk => by cases hk) hok.shows (by omega) hm (.inr (.inr rfl))
      | true =>
          have hless := hok.size_lt_of_leaves hrun hinner (by omega) hexec
            fun b caller rest hb hlt hpush =>
              execute_returnValue (hok.shows.advance next) hpush hb hlt
          exact absurd hsize (Nat.not_le.2 hless)
  | returnNull hj hinner =>
      obtain ⟨rfl, rfl⟩ := hi.unique hj
      have hless := hok.size_lt_of_leaves hrun hinner (by omega) hexec
        fun b caller rest hb hlt hpush => leave_inner (hok.shows.advance next) hpush hb hlt .null
      exact absurd hsize (Nat.not_le.2 hless)

theorem Ok.exists_holds (hok : m.Ok st g xs) (hstep : m.Steps m') :
    ∃ i next, m.frame.body.code.Holds m.frame.ip i next := by
  obtain ⟨room, h, -, hrun⟩ := hok.frames.running
  cases hrun.safe with
  | finish _ hip =>
      rw [Steps, step_end hip] at hstep
      cases hstep
  | source hi | unary hi | binary hi | array hi | hash hi | closure hi | call hi | pop hi
  | setGlobal hi | setLocal hi | jump hi | jumpUnless hi | returnValue hi | returnNull hi =>
      exact ⟨_, _, hi⟩

/-! ## Globals -/

theorem globals_of_steps (hi : m.frame.body.code.Holds m.frame.ip i next) (hstep : m.Steps m')
    (hne : ∀ k, i ≠ .setGlobal k) : m'.globals = m.globals := by
  have hkept := keeps_execute hne (m.advance next)
  rw [execute_of_steps hi hstep] at hkept
  exact hkept

end Machine

/-- Only the top level stores to globals. -/
theorem Safe.inner_of_setGlobal {K : Array Value} {room : Room} {code : Code} {ip h k next : Nat}
    (hsafe : Safe K room code ip h) (hi : code.Holds ip (.setGlobal k) next) :
    room.inner = false := by
  cases hsafe with
  | setGlobal _ hinner => exact hinner
  | finish _ hip => exact absurd hi.lt (by have := hi.le_size; omega)
  | source hj hr =>
      obtain ⟨rfl, -⟩ := hi.unique hj
      exact hr.elim
  | unary hj hop | binary hj hop =>
      obtain ⟨rfl, -⟩ := hi.unique hj
      cases hop
  | array hj | hash hj | closure hj | call hj | pop hj | setLocal hj | jump hj | jumpUnless hj
  | returnValue hj | returnNull hj => cases (hi.unique hj).1

/-- The slots of every frame end below the next one. -/
theorem Stacked.slots_lt {st : Stage} {callers : List Frame} {f : Frame} {top : Nat}
    (h : Stacked st callers f top) : ∀ c ∈ callers, c.base + c.body.locals < f.base := by
  induction h with
  | outermost => exact List.forall_mem_nil _
  | inner _ hlt _ _ ih =>
      refine List.forall_mem_cons.2 ⟨hlt, fun c hc => ?_⟩
      have hbelow := ih c hc
      omega

namespace Machine

variable {m m' : Machine} {st : Stage} {g : Array Value} {xs : List Value} {i : Instruction}
  {next : Nat} {s : Symbol}

theorem Ok.callers_of_setGlobal {k : Nat} (hok : m.Ok st g xs)
    (hi : m.frame.body.code.Holds m.frame.ip (.setGlobal k) next) : m.callers = #[] := by
  obtain ⟨room, h, -, hrun⟩ := hok.frames.running
  have hnil := (hrun.top (hrun.safe.inner_of_setGlobal hi)).1
  rwa [List.reverse_eq_nil_iff, Array.toList_eq_nil_iff] at hnil

theorem Ok.globals_of_setGlobal {k : Nat} (hok : m.Ok st g xs)
    (hi : m.frame.body.code.Holds m.frame.ip (.setGlobal k) next) (hstep : m.Steps m') :
    m'.globals = storeAt m.globals k (m.slot (m.top - 1)) := by
  obtain ⟨room, h, hlen, hrun⟩ := hok.frames.running
  have htakes : 1 ≤ h := hrun.safe.takes_le hi
  obtain ⟨n, rfl⟩ := Nat.exists_eq_add_of_le' htakes
  obtain ⟨ys, v, rfl, hys⟩ := exists_concat hlen
  have hexec := execute_of_steps hi hstep
  rcases Nat.lt_or_ge k m.limits.globalsSize with hlt | hge
  · obtain ⟨m₁, heq, hm, -⟩ := execute_setGlobal (hok.shows.advance next) hlt
    obtain rfl := eq_of_ok hexec heq
    rw [hm.globals, hok.shows.slot_last]
    rfl
  · obtain ⟨m₁, heq, -⟩ := execute_setGlobal_full (hok.shows.advance next) hge
    rw [hexec] at heq
    cases heq

/-! ## What is held for a binding -/

/-- What a machine holds for a binding of a body whose slots start at `base`. -/
def held (m : Machine) (base : Nat) (s : Symbol) : Value :=
  match s.storage with
  | .global => m.globals[s.index]?.getD .null
  | _ => m.slot (base + s.index)

theorem held_global (m : Machine) (base : Nat) (hs : s.storage = .global) :
    m.held base s = m.globals[s.index]?.getD .null := by
  rw [held, hs]

theorem held_slot (m : Machine) (base : Nat) (hs : s.storage = .slot) :
    m.held base s = m.slot (base + s.index) := by
  rw [held, hs]

/-- A step of a call changes what is held for one of its bindings only by storing there. -/
theorem Ok.held_of_steps (hok : m.Ok st g xs) (hg : st.Reads g)
    (hi : m.frame.body.code.Holds m.frame.ip i next) (hstep : m.Steps m')
    (hsize : m.callers.size ≤ m'.callers.size) (hs : s.HasPlace m.frame.body.locals) :
    m'.held m.frame.base s =
      if i = s.save then m.slot (m.top - 1) else m.held m.frame.base s := by
  rcases hs with hs | ⟨hs, hlt⟩
  · rw [held_global _ _ hs, held_global _ _ hs, Symbol.save, hs]
    by_cases hset : ∃ k, i = .setGlobal k
    · obtain ⟨k, rfl⟩ := hset
      rw [hok.globals_of_setGlobal hi hstep]
      by_cases hk : k = s.index
      · subst hk
        rw [if_pos rfl, getElem?_storeAt, if_pos rfl]
        rfl
      · rw [if_neg (by intro heq; cases heq; exact hk rfl), getD_storeAt _ _ (Ne.symm hk)]
    · have hne : ∀ k, i ≠ .setGlobal k := fun k heq => hset ⟨k, heq⟩
      rw [globals_of_steps hi hstep hne, if_neg (hne s.index)]
  · rw [held_slot _ _ hs, held_slot _ _ hs, Symbol.save, hs]
    exact (hok.proceeds hg hi hstep hsize).slots s.index hlt

/-- The steps of further calls change nothing for the bindings of a call that waits. -/
theorem Ok.held_of_deeper (hok : m.Ok st g xs) (hg : st.Reads g) (hstep : m.Steps m') {d : Nat}
    {f : Frame} (hf : m.frames[d]? = some f) (hd : d < m.callers.size)
    (hs : s.HasPlace f.body.locals) : m'.held f.base s = m.held f.base s := by
  rcases hs with hs | ⟨hs, hlt⟩
  · rw [held_global _ _ hs, held_global _ _ hs]
    obtain ⟨i, next, hi⟩ := hok.exists_holds hstep
    rw [globals_of_steps hi hstep]
    rintro k rfl
    rw [hok.callers_of_setGlobal hi] at hd
    exact absurd hd (Nat.not_lt_zero d)
  · rw [held_slot _ _ hs, held_slot _ _ hs]
    have hmem : f ∈ m.callers.toList.reverse := by
      rw [Machine.frames, List.getElem?_append_left (by simpa using hd)] at hf
      exact List.mem_reverse.2 (List.mem_of_getElem? hf)
    have hbase := hok.frames.slots_lt f hmem
    have htop := hok.base_le_top
    have hsame : m.SameBelow m' (m.frame.base - 1) := by
      obtain ⟨hmoves, -⟩ := Good.moves (.inl ⟨xs, hok⟩) hg hstep
      cases hmoves with
      | onward _ _ _ _ _ hsame => exact hsame.mono (Nat.sub_le _ _)
      | into _ _ _ _ _ _ _ _ _ hsame => exact hsame.mono (by omega)
      | back _ _ _ _ hsame => exact hsame
    rw [slot, slot, hsame _ (by omega)]

/-- A call begins at the start of its code, with null in the slots that are not for arguments. -/
theorem Ok.enters (hok : m.Ok st g xs) (hg : st.Reads g) (hstep : m.Steps m')
    (hsize : m'.callers.size = m.callers.size + 1) :
    m'.frame.ip = 0 ∧ ∀ k, m'.frame.body.parameters ≤ k → k < m'.frame.body.locals →
      m'.slot (m'.frame.base + k) = .null := by
  obtain ⟨hmoves, -⟩ := Good.moves (.inl ⟨xs, hok⟩) hg hstep
  cases hmoves with
  | onward _ _ _ _ hcallers =>
      rw [hcallers] at hsize
      omega
  | back hcallers =>
      rw [hcallers, Array.size_push] at hsize
      omega
  | into ip _ _ _ _ _ hcall =>
      rcases hok.cases_call hcall hstep with
        ⟨ys, v, w, -, -, hm⟩ | ⟨ys, vs, id, body, captured, -, -, hargs, hm⟩
      · have hcallers : m'.callers = m.callers := hm.callers
        rw [hcallers] at hsize
        omega
      · rw [hm.frame]
        refine ⟨rfl, fun k hk hlt => ?_⟩
        dsimp only at hk hlt ⊢
        refine hm.shows.slot_eq ?_
        rw [List.getElem?_append_right (by omega),
          show ys.length + 1 + k - ys.length = k + 1 by omega, List.getElem?_cons_succ, slotsOf,
          List.getElem?_append_right (by omega), List.getElem?_replicate, if_pos (by omega)]

/-- Loading what a symbol stands for pushes what is held for it. -/
theorem Ok.loads {s : Symbol} {next : Nat} (hok : m.Ok st g xs)
    (hi : m.frame.body.code.Holds m.frame.ip s.load next) (hstep : m.Steps m')
    (hs : s.HasPlace m.frame.body.locals) :
    m'.top = m.top + 1 ∧ m'.slot m.top = m.held m.frame.base s := by
  have hsource : s.load.source? (m.advance next) = some (m.held m.frame.base s) := by
    rcases hs with hs | ⟨hs, hlt⟩
    · rw [held_global _ _ hs, Symbol.load, hs]
      rfl
    · obtain ⟨room, h, hlen, -⟩ := hok.frames.running
      have hlt' : m.frame.base + s.index < xs.length := by omega
      rw [held_slot _ _ hs, Symbol.load, hs, slot, hok.shows.slot _ hlt',
        List.getElem?_eq_getElem hlt']
      show m.stack[m.frame.base + s.index]? = _
      rw [hok.shows.slot _ hlt', List.getElem?_eq_getElem hlt']
      rfl
  obtain ⟨v, w, heq, hm⟩ :=
    (execute_source hsource (hok.shows.advance next)).moved (execute_of_steps hi hstep)
  cases heq
  refine ⟨?_, ?_⟩
  · rw [hm.shows.top, List.length_append, hok.shows.top]
    rfl
  · refine hm.shows.slot_eq ?_
    rw [hok.shows.top]
    exact List.getElem?_concat_length

end Machine

end Monkey
