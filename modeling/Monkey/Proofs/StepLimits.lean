import Monkey.Proofs.Headroom

/-!
# A limit on instructions cuts a run short

The limit is looked at between the fetch of an instruction and its effect, and nowhere else. Up to
there a limited run and a free one are the same, by the lockstep of `Widening` with no room added.
At the limit three things can come next: the end of the stream and a malformed instruction, which
the limited run reports as the free one does, and an instruction that can be fetched, where only
the free run goes on.

`limited_run_agrees` says this of whole runs. Its last part compares two limits, neither of
which need be none.
-/

namespace Monkey

/-- What a run is given besides a limit on instructions. -/
structure Setup where
  limits : Limits
  program : Bytecode
  globals : Array Value
  issued : Identity
  /-- The identity of the program. -/
  self : Identity
  console : Console

/-- The start of a run with a limit on instructions, or without one. -/
def Setup.start (x : Setup) (limit : Option Nat) : Machine :=
  Machine.start { x.limits with maxSteps := limit } x.program x.globals x.issued x.console x.self

/-- So many instructions may be begun. -/
def Limits.Allows (l : Limits) (n : Nat) : Prop :=
  l.maxSteps.filter (· < n) = none

theorem Limits.allows_of_none {l : Limits} (h : l.maxSteps = none) (n : Nat) : l.Allows n := by
  simp [Allows, h]

theorem Limits.allows_of_le {l : Limits} {limit n : Nat} (h : l.maxSteps = some limit)
    (hn : n ≤ limit) : l.Allows n := by
  simp [Allows, h, hn]

namespace Widening

variable {W : Widening} {s n : Nat} {m : Machine}

theorem step_intime (hm : W.Suits s m) (hallows : W.tight.Allows (s + 1)) {f : Fault} {m₁ : Machine}
    (h : m.step = .faulted f m₁) : f.timesOut = false := by
  rw [Machine.step] at h
  split at h
  · cases h
    rfl
  · cases h
  · next i next _ =>
      have hs : W.Suits (s + 1) (m.advance next) :=
        ⟨hm.limits, hm.top_le, congrArg (· + 1) hm.steps⟩
      have hnone : (m.advance next).exceedsLimit = none := by
        rw [Machine.exceedsLimit, hs.limits, hs.steps]
        exact hallows
      have hexec := steady_execute i (m.advance next) hs
      simp only [hnone] at h
      rw [SteadyAt] at hexec
      cases hx : Machine.execute i (m.advance next) with
      | ok a m₂ =>
          rw [hx] at h
          cases h
      | error e m₂ =>
          rw [hx] at h hexec
          cases h
          exact hexec.1

theorem ended_map {φ : Machine → Machine} {p : Progress} (h : p.Ended) : (p.map φ).Ended := by
  cases p with
  | running m => exact absurd rfl (h m)
  | halted m => exact Progress.ended_halted _
  | faulted f m => exact Progress.ended_faulted _ _

/-- Runs that are over together stay so. -/
theorem same_of_ended {j k : Nat} (hended : (m.run j).Ended)
    (hsame : (W.widen m).run j = (m.run j).map W.widen) (hk : j ≤ k) :
    (W.widen m).run k = (m.run k).map W.widen := by
  obtain ⟨d, rfl⟩ := Nat.exists_eq_add_of_le hk
  have hended' : ((W.widen m).run j).Ended := by
    rw [hsame]
    exact ended_map hended
  rw [Machine.run_add_of_ended hended, Machine.run_add_of_ended hended', hsame]

/-- Two runs that differ in their limits on instructions, for as long as neither limit is met. -/
structure Lockstep (W : Widening) (k : Nat) (m : Machine) : Prop where
  same : (W.widen m).run k = (m.run k).map W.widen
  suits : ∀ m₁, m.run k = .running m₁ → W.Suits k m₁
  intime : ∀ f m₁, m.run k = .faulted f m₁ → f.timesOut = false

theorem lockstep_succ {k : Nat} (hexact : W.Exact) (h : W.Lockstep k m)
    (ht : W.tight.Allows (k + 1)) (hr : W.roomy.Allows (k + 1)) : W.Lockstep (k + 1) m := by
  by_cases hended : (m.run k).Ended
  · have hover := Machine.run_add_of_ended hended 1
    refine ⟨same_of_ended hended h.same (Nat.le_succ k), fun m₁ hm₁ => ?_, fun f m₁ hm₁ => ?_⟩
    · exact absurd (hover.symm.trans hm₁) (hended m₁)
    · exact h.intime f m₁ (hover.symm.trans hm₁)
  · obtain ⟨m₁, hrun⟩ := not_forall_not.1 hended
    have hs := h.suits m₁ hrun
    have hrun' : (W.widen m).run k = .running (W.widen m₁) := by
      rw [h.same, hrun]
      rfl
    have hnext : m.run (k + 1) = m₁.step := by
      rw [Machine.run_add_of_running hrun, Machine.run_one]
    have hnext' : (W.widen m).run (k + 1) = (W.widen m₁).step := by
      rw [Machine.run_add_of_running hrun', Machine.run_one]
    rcases step_widen hs (hr.trans ht.symm) with ⟨f, m₂, -, -, hnot⟩ | ⟨hsame, hsuits⟩
    · exact absurd hexact hnot
    · refine ⟨?_, fun m₂ hm₂ => ?_, fun f m₂ hm₂ => ?_⟩
      · rw [hnext, hnext', hsame]
      · exact hsuits m₂ (hnext ▸ hm₂)
      · exact step_intime hs ht (hnext ▸ hm₂)

theorem lockstep (hexact : W.Exact) (hm : W.Suits 0 m) (ht : ∀ t ≤ n, W.tight.Allows t)
    (hr : ∀ t ≤ n, W.roomy.Allows t) {k : Nat} (hk : k ≤ n) : W.Lockstep k m := by
  induction k with
  | zero =>
      refine ⟨rfl, fun m₁ h => ?_, fun f m₁ h => ?_⟩
      · cases h
        exact hm
      · cases h
  | succ k ih => exact lockstep_succ hexact (ih (by omega)) (ht _ hk) (hr _ hk)

/-- What comes next when the limit is met. -/
theorem step_at_limit (hn : W.tight.maxSteps = some n) (hm : W.Suits n m) :
    (∃ i next, m.frame.body.code.Holds m.frame.ip i next ∧
      m.step = .faulted (.stepLimit n) (m.advance next)) ∨
    ((∀ i next, ¬m.frame.body.code.Holds m.frame.ip i next) ∧ m.step.Ended ∧
      (W.widen m).step = m.step.map W.widen ∧
        ∀ f m₁, m.step = .faulted f m₁ → f.timesOut = false) := by
  have hwide : (W.widen m).frame = m.frame := rfl
  cases hfetch : Code.fetch? m.frame.body.code m.frame.ip with
  | error cause =>
      have hstep : m.step = .faulted (.badInstruction m.frame.ip cause) m := by
        rw [Machine.step, hfetch]
      refine .inr ⟨fun i next hi => ?_, ?_, ?_, fun f m₁ h => ?_⟩
      · cases hfetch.symm.trans hi
      · rw [hstep]
        exact Progress.ended_faulted _ _
      · rw [hstep, Machine.step, hwide, hfetch]
        rfl
      · cases hstep.symm.trans h
        rfl
  | ok found =>
      cases found with
      | none =>
          have hstep : m.step = .halted m := by
            rw [Machine.step, hfetch]
          refine .inr ⟨fun i next hi => ?_, ?_, ?_, fun f m₁ h => ?_⟩
          · cases hfetch.symm.trans hi
          · rw [hstep]
            exact Progress.ended_halted _
          · rw [hstep, Machine.step, hwide, hfetch]
            rfl
          · cases hstep.symm.trans h
      | some found =>
          obtain ⟨i, next⟩ := found
          refine .inl ⟨i, next, hfetch, Machine.step_limit hfetch ?_⟩
          show m.limits.maxSteps.filter (· < m.steps + 1) = some n
          rw [hm.limits, hm.steps, hn]
          simp

/-- A limited run fails at its limit, or it is the run of any higher limit. -/
theorem limited_cases (hexact : W.Exact) (hm : W.Suits 0 m) (hn : W.tight.maxSteps = some n)
    (hr : ∀ t ≤ n, W.roomy.Allows t) :
    (∃ m₁ i next, m.run n = .running m₁ ∧ (W.widen m).run n = .running (W.widen m₁) ∧
      m₁.frame.body.code.Holds m₁.frame.ip i next ∧
      m.run (n + 1) = .faulted (.stepLimit n) (m₁.advance next)) ∨
    ((∀ m₁ i next, (W.widen m).run n = .running m₁ → ¬m₁.frame.body.code.Holds m₁.frame.ip i next) ∧
      (m.run (n + 1)).Ended ∧ (∀ f m₁, m.run (n + 1) = .faulted f m₁ → f.timesOut = false) ∧
      ∀ k, (W.widen m).run k = (m.run k).map W.widen) := by
  have ht : ∀ t ≤ n, W.tight.Allows t := fun t => Limits.allows_of_le hn
  have hlock : ∀ k ≤ n, W.Lockstep k m := fun k => lockstep hexact hm ht hr
  have hsame := (hlock n (Nat.le_refl n)).same
  by_cases hended : (m.run n).Ended
  · have hover := Machine.run_add_of_ended hended 1
    refine .inr ⟨fun m₁ i next hrun => ?_, ?_, fun f m₁ h => ?_, fun k => ?_⟩
    · rw [hsame] at hrun
      exact absurd hrun (ended_map hended m₁)
    · rw [hover]
      exact hended
    · exact (hlock n (Nat.le_refl n)).intime f m₁ (hover.symm.trans h)
    · rcases Nat.le_total k n with hk | hk
      · exact (hlock k hk).same
      · exact same_of_ended hended hsame hk
  · obtain ⟨m₁, hrun⟩ := not_forall_not.1 hended
    have hnext : m.run (n + 1) = m₁.step := by
      rw [Machine.run_add_of_running hrun, Machine.run_one]
    have hrun' : (W.widen m).run n = .running (W.widen m₁) := by
      rw [hsame, hrun]
      rfl
    rcases step_at_limit hn ((hlock n (Nat.le_refl n)).suits m₁ hrun) with
      ⟨i, next, hi, hstep⟩ | ⟨hnone, hover, hstep, hintime⟩
    · exact .inl ⟨m₁, i, next, hrun, hrun', hi, hnext.trans hstep⟩
    · rw [← hnext] at hover hstep
      have hsame' : (W.widen m).run (n + 1) = (m.run (n + 1)).map W.widen := by
        rw [← hstep, Machine.run_add_of_running hrun', Machine.run_one]
      refine .inr ⟨fun m₂ i next hm₂ => ?_, hover, fun f m₂ h => ?_, fun k => ?_⟩
      · cases hrun'.symm.trans hm₂
        exact hnone i next
      · exact hintime f m₂ (hnext ▸ h)
      · rcases Nat.lt_or_ge n k with hk | hk
        · exact same_of_ended hover hsame' hk
        · exact (hlock k hk).same

end Widening

/-- The limits of a setup with one limit on instructions beside those with another. -/
def Setup.widening (x : Setup) (n : Nat) (limit : Option Nat) : Widening :=
  ⟨{ x.limits with maxSteps := some n }, { x.limits with maxSteps := limit }, 0, Nat.le_refl _,
    Nat.le_refl _⟩

namespace Setup

variable (x : Setup) (n : Nat)

theorem widen_start (limit : Option Nat) :
    (x.widening n limit).widen (x.start (some n)) = x.start limit :=
  Widening.widen_start rfl x.program x.globals x.issued x.self x.console

/-- A limited run beside one that may go at least as far. -/
theorem limited_cases (limit : Option Nat) (h : ∀ l, limit = some l → n ≤ l) :
    (∃ m m' i next, (x.start (some n)).run n = .running m ∧ (x.start limit).run n = .running m' ∧
      m.LooksLike m' ∧ m'.frame.body.code.Holds m'.frame.ip i next ∧
      (x.start (some n)).run (n + 1) = .faulted (.stepLimit n) (m.advance next)) ∨
    ((∀ m i next, (x.start limit).run n = .running m → ¬m.frame.body.code.Holds m.frame.ip i next) ∧
      ((x.start (some n)).run (n + 1)).Ended ∧
      (∀ m, (x.start (some n)).run (n + 1) ≠ .faulted (.stepLimit n) m) ∧
      ∀ k, ((x.start (some n)).run k).LooksLike ((x.start limit).run k)) := by
  have hallows : ∀ t ≤ n, (x.widening n limit).roomy.Allows t := by
    intro t ht
    cases limit with
    | none => exact Limits.allows_of_none rfl t
    | some l => exact Limits.allows_of_le rfl (ht.trans (h l rfl))
  have hcases := Widening.limited_cases (W := x.widening n limit) (m := x.start (some n)) (n := n)
    ⟨rfl, rfl, rfl, rfl⟩ (Widening.suits_start x.program x.globals x.issued x.self x.console) rfl
    hallows
  rw [x.widen_start n limit] at hcases
  rcases hcases with ⟨m, i, next, hrun, hrun', hi, hlimit⟩ | ⟨hnone, hended, hintime, hsame⟩
  · exact .inl ⟨m, _, i, next, hrun, hrun', Widening.looksLike_widen m, hi, hlimit⟩
  · refine .inr ⟨hnone, hended, fun m hm => ?_, fun k => ?_⟩
    · cases hintime _ m hm
    · rw [hsame k]
      exact Widening.looksLike_map _

/-- A run with a limit on instructions always ends. It fails at the limit exactly when the free run
comes to that point and can fetch one more instruction, and then it stands where the free run stands
there. Otherwise it is the free run, and the run under any higher limit; a malformed instruction at
the limit is reported as such. -/
theorem limited_run_agrees :
    (∃ k, ((x.start (some n)).run k).Ended) ∧
    ((∃ k m, (x.start (some n)).run k = .faulted (.stepLimit n) m) ↔
      ∃ m i next, (x.start none).run n = .running m ∧ m.frame.body.code.Holds m.frame.ip i next) ∧
    (∀ k m, (x.start (some n)).run k = .faulted (.stepLimit n) m →
      ∃ m', (x.start none).run n = .running m' ∧ m'.LooksLike m) ∧
    (∀ k, ((x.start (some n)).run k).Ended →
      (∀ m, (x.start (some n)).run k ≠ .faulted (.stepLimit n) m) →
      ((x.start (some n)).run k).LooksLike ((x.start none).run k) ∧
      ∀ n', n ≤ n' → ((x.start (some n)).run k).LooksLike ((x.start (some n')).run k)) ∧
    (∀ m cause, (x.start none).run n = .running m →
      m.frame.body.code.fetch? m.frame.ip = .error cause →
      ∃ k m', (x.start (some n)).run k = .faulted (.badInstruction m.frame.ip cause) m' ∧
        m.LooksLike m') := by
  have hunique : ∀ {k j : Nat} {p : Progress}, (x.start (some n)).run k = p → p.Ended →
      ((x.start (some n)).run j).Ended → (x.start (some n)).run j = p := by
    intro k j p hk hp hj
    rw [← hk] at hp ⊢
    exact Machine.run_eq_of_ended hj hp
  rcases x.limited_cases n none (by simp) with
    ⟨m, m', i, next, -, hfree, hlike, hi, hlimit⟩ | ⟨hnone, hended, hother, hsame⟩
  · have hended : ((x.start (some n)).run (n + 1)).Ended := by
      rw [hlimit]
      exact Progress.ended_faulted _ _
    refine ⟨⟨n + 1, hended⟩, ⟨fun _ => ⟨m', i, next, hfree, hi⟩, fun _ => ⟨n + 1, _, hlimit⟩⟩,
      fun k m₁ hk => ?_, fun k hk hnot => ?_, fun m₁ cause hm₁ hcause => ?_⟩
    · cases hlimit.symm.trans (hunique hk (Progress.ended_faulted _ _) hended)
      exact ⟨m', hfree, hlike.symm.lastPopped, hlike.symm.globals, hlike.symm.console⟩
    · exact absurd (hunique hlimit (Progress.ended_faulted _ _) hk) (hnot _)
    · cases hfree.symm.trans hm₁
      cases hcause.symm.trans hi
  · have hnever : ∀ k m, (x.start (some n)).run k ≠ .faulted (.stepLimit n) m := by
      intro k m hk
      exact hother m (hunique hk (Progress.ended_faulted _ _) hended)
    refine ⟨⟨n + 1, hended⟩, ⟨fun ⟨k, m, hk⟩ => absurd hk (hnever k m), ?_⟩,
      fun k m hk => absurd hk (hnever k m), fun k hk hnot => ⟨hsame k, fun n' hn' => ?_⟩,
      fun m cause hm hcause => ?_⟩
    · rintro ⟨m, i, next, hm, hi⟩
      exact absurd hi (hnone m i next hm)
    · rcases x.limited_cases n (some n') (by simpa using hn') with
        ⟨m, -, -, next, -, -, -, -, hlimit⟩ | ⟨-, -, -, hsame'⟩
      · exact absurd hlimit (hnever (n + 1) _)
      · exact hsame' k
    · have hfree : (x.start none).run (n + 1) = .faulted (.badInstruction m.frame.ip cause) m := by
        rw [Machine.run_add_of_running hm, Machine.run_one, Machine.step, hcause]
      have hlike := hsame (n + 1)
      rw [hfree] at hlike
      cases hrun : (x.start (some n)).run (n + 1) with
      | running m₁ | halted m₁ =>
          rw [hrun] at hlike
          exact hlike.elim
      | faulted f m₁ =>
          rw [hrun] at hlike
          obtain ⟨rfl, hlike⟩ := hlike
          exact ⟨n + 1, m₁, hrun, hlike.symm⟩

end Setup

end Monkey
