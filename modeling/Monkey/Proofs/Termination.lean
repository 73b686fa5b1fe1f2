import Monkey.Proofs.Histories

/-!
# Every program ends

Within one call the offset only grows, since compiled jumps go forward, and calls nest only as deep
as the limit on frames allows. So a call comes to its end after finitely many steps, however often
it calls others: the run faults, or the caller goes on behind the call. The measure is the number of
frames that are left, then the number of bytes left in the stream of the current call. At the top
level there is no caller to go back to, so the run ends.

Nothing here uses the limit on steps, and nothing bounds the number of steps by a useful figure:
recursion makes runs exponentially long.
-/

namespace Monkey

namespace Machine

/-- The run ends after finitely many steps. -/
def Halts (m : Machine) : Prop :=
  ∃ n, (m.run n).Ended

variable {st : Stage} {g : Array Value} {m m' m'' : Machine} {xs : List Value}

theorem Halts.of_steps (h : m'.Halts) (hstep : m.Steps m') : m.Halts := by
  obtain ⟨n, hn⟩ := h
  refine ⟨n + 1, ?_⟩
  rw [run, hstep]
  exact hn

theorem Halts.of_reaches (h : m'.Halts) (hreach : m.Reaches m') : m.Halts := by
  induction hreach using Relation.ReflTransGen.head_induction_on with
  | refl => exact h
  | head hstep _ ih => exact ih.of_steps hstep

theorem halts_of_step (h : m.step.Ended) : m.Halts := by
  refine ⟨1, ?_⟩
  cases hstep : m.step with
  | running m₁ => exact absurd hstep (h m₁)
  | halted m₁ | faulted f m₁ =>
      rw [hstep] at h
      rw [run, hstep]
      exact h

/-- The current call has come to its end and its caller goes on. -/
structure Returns (st : Stage) (g : Array Value) (m m' : Machine) : Prop where
  reaches : m.Reaches m'
  ok : ∃ xs, m'.Ok st g xs
  limits : m'.limits = m.limits
  callers : m.callers = m'.callers.push m'.frame

/-- What holds of a machine one step on in the same call holds of the machine. -/
theorem Returns.of_reaches (h : m'.Returns st g m'') (hreach : m.Reaches m')
    (hlimits : m'.limits = m.limits) (hcallers : m'.callers = m.callers) : m.Returns st g m'' :=
  ⟨hreach.trans h.reaches, h.ok, h.limits.trans hlimits, hcallers ▸ h.callers⟩

/-- A call comes to its end. -/
theorem Ok.halts_or_returns {m : Machine} {xs : List Value} (hok : m.Ok st g xs)
    (hg : st.Reads g) : m.Halts ∨ ∃ m', m.Returns st g m' := by
  have hnext := hok.stepOk hg
  match hstep : m.step with
  | .halted m₁ => exact .inl (halts_of_step (hstep ▸ Progress.ended_halted m₁))
  | .faulted f m₁ => exact .inl (halts_of_step (hstep ▸ Progress.ended_faulted f m₁))
  | .running m₁ =>
      rw [hstep] at hnext
      obtain ⟨hlimits, -, hmoves, ⟨ys, hok₁⟩ | ⟨-, hdone⟩⟩ := hnext
      · have hreach : m.Reaches m₁ := .single hstep
        cases hmoves with
        | onward ip hlt hle hframe hcallers =>
            rcases hok₁.halts_or_returns hg with hhalts | ⟨m₂, hreturns⟩
            · exact .inl (hhalts.of_reaches hreach)
            · exact .inr ⟨m₂, hreturns.of_reaches hreach hlimits hcallers⟩
        | into ip hlt hle hframes _ hcallers =>
            rcases hok₁.halts_or_returns hg with hhalts | ⟨m₂, hreturns⟩
            · exact .inl (hhalts.of_reaches hreach)
            · -- The caller is back, behind the call.
              have hback := hcallers.symm.trans hreturns.callers
              obtain ⟨hframe₂, hcallers₂⟩ := Array.push_eq_push.1 hback
              have hlimits₂ := hreturns.limits.trans hlimits
              have hreach₂ := hreach.trans hreturns.reaches
              obtain ⟨zs, hok₂⟩ := hreturns.ok
              rcases hok₂.halts_or_returns hg with hhalts | ⟨m₃, hreturns₃⟩
              · exact .inl (hhalts.of_reaches hreach₂)
              · exact .inr ⟨m₃, hreturns₃.of_reaches hreach₂ hlimits₂ hcallers₂.symm⟩
        | back hcallers => exact .inr ⟨m₁, hreach, ⟨ys, hok₁⟩, hlimits, hcallers⟩
      · have hhalts : m₁.Halts := halts_of_step (hdone.step_eq ▸ Progress.ended_halted m₁)
        exact .inl (hhalts.of_steps hstep)
termination_by (m.limits.maxFrames - m.callers.size, m.frame.body.code.size - m.frame.ip)
decreasing_by
  · rw [hlimits, hcallers, hframe]
    exact Prod.Lex.right _ (Nat.sub_lt_sub_left (Nat.lt_of_lt_of_le hlt hle) hlt)
  · rw [hlimits, hcallers, Array.size_push]
    exact Prod.Lex.left _ _ (by omega)
  · rw [hlimits₂, ← hcallers₂, ← hframe₂]
    exact Prod.Lex.right _ (Nat.sub_lt_sub_left (Nat.lt_of_lt_of_le hlt hle) hlt)

/-- At the top level there is no caller to go back to. -/
theorem Ok.halts (hok : m.Ok st g xs) (hg : st.Reads g) (htop : m.callers = #[]) : m.Halts := by
  rcases hok.halts_or_returns hg with hhalts | ⟨m', hreturns⟩
  · exact hhalts
  · have hcallers := hreturns.callers
    rw [htop] at hcallers
    exact absurd hcallers.symm Array.push_ne_empty

end Machine

namespace Session

/-- Every program that a session returned comes to an end when it is run on the globals of the
session, with any limits. -/
theorem history_programs_halt (limits : Limits) (console : Console) (fuel : Nat)
    (actions : List Action) (b : Bytecode)
    (hb : b ∈ (({ limits, console, fuel } : Session).history actions).programs)
    (limits' : Limits) (issued self : Identity) (console' : Console) :
    ∃ n, ((Machine.start limits' b
      (({ limits, console, fuel } : Session).history actions).session.globals issued
      console' self).run n).Ended := by
  obtain ⟨stages, hready, hprograms⟩ := (history_sane limits console fuel actions).ready
  obtain ⟨st, hst, rfl⟩ := hprograms b hb
  obtain ⟨hok, hreads⟩ := hready.start_ok hst limits' issued self console'
  exact hok.halts hreads rfl

/-- A function that does nothing but call itself. -/
def endlessSample : List Action :=
  [.compile [.bind "f" (.function [] [.expr (.call (.ident "f") [])] (some "f")),
    .expr (.call (.ident "f") [])]]

theorem history_programs_halt_endlessSample :
    ∃ b, (({} : Session).history endlessSample).programs[0]? = some b ∧ ∀ limits : Limits,
      ∃ n, ((Machine.start limits b (({} : Session).history endlessSample).session.globals 0
        {}).run n).Ended := by
  have hb : ((({} : Session).history endlessSample).programs[0]?).isSome = true := by
    decide +kernel
  obtain ⟨b, hb⟩ := Option.isSome_iff_exists.1 hb
  exact ⟨b, hb, fun limits =>
    history_programs_halt {} {} _ endlessSample b (List.mem_of_getElem? hb) limits 0 0 {}⟩

end Session

end Monkey
