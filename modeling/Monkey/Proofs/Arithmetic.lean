import Monkey.Proofs.Runs
import Monkey.Proofs.Verifier

/-!
# Arithmetic on words

An expression of integer literals, sums, differences, products and negations has an exact value,
which no word can hold in general. The machine computes with words, and each of its operations may
wrap around. Wherever that happens and however often, the word that comes out is the one that is
congruent to the exact value: all operations are those of the ring of integers modulo 2^64.

The other half is about room. An operand that is computed waits on the stack while the next one is,
so one slot for each literal is enough. `Comes` carries both through the code of an expression: the
run gets to its end with one value more, or the stack was too small for it.
-/

namespace Monkey

/-! ## Expressions and their values -/

namespace Arithmetic

/-- An operation on two integers. -/
inductive Operation where
  | plus
  | minus
  | times
  deriving DecidableEq

namespace Operation

/-- How the operation is written. -/
def text : Operation → String
  | .plus => "+"
  | .minus => "-"
  | .times => "*"

/-- The operation on unbounded integers. -/
def onInt : Operation → Int → Int → Int
  | .plus, a, b => a + b
  | .minus, a, b => a - b
  | .times, a, b => a * b

/-- The operation on words, which wraps around. -/
def onWord : Operation → Int64 → Int64 → Int64
  | .plus, a, b => a + b
  | .minus, a, b => a - b
  | .times, a, b => a * b

/-- The operator of the machine. -/
def operator : Operation → BinaryOperator
  | .plus => .add
  | .minus => .subtract
  | .times => .multiply

end Operation

end Arithmetic

/-- An arithmetic expression without division. -/
inductive Arithmetic where
  | literal (n : Int64)
  | negate (a : Arithmetic)
  | apply (op : Arithmetic.Operation) (a b : Arithmetic)

namespace Arithmetic

/-- The expression as a syntax tree. -/
def expr : Arithmetic → Expr
  | literal n => .int n
  | negate a => .prefixOp "-" a.expr
  | apply op a b => .infixOp op.text a.expr b.expr

/-- The exact value. -/
def value : Arithmetic → Int
  | literal n => n.toInt
  | negate a => -a.value
  | apply op a b => op.onInt a.value b.value

/-- The value in words. -/
def word : Arithmetic → Int64
  | literal n => n
  | negate a => -a.word
  | apply op a b => op.onWord a.word b.word

/-- The number of literals. -/
def literals : Arithmetic → Nat
  | literal _ => 1
  | negate a => a.literals
  | apply _ a b => a.literals + b.literals

/-- The expression with its operators resolved. It has no names. -/
def resolved : Arithmetic → Resolved.Expr
  | literal n => .int n
  | negate a => .unary .negate a.resolved
  | apply op a b => .binary (.arithmetic op.operator) a.resolved b.resolved

theorem literals_pos (t : Arithmetic) : 0 < t.literals := by
  induction t with
  | literal n => exact Nat.one_pos
  | negate a ih => exact ih
  | apply op a b iha ihb => exact Nat.add_pos_left iha _

/-- What is reduced to the size of a word is congruent to what it was. -/
theorem bmod_modEq (n : Int) : n.bmod (2 ^ 64) ≡ n [ZMOD 2 ^ 64] :=
  Int.bmod_emod

theorem Operation.onWord_modEq (op : Operation) {a b : Int64} {m n : Int}
    (ha : a.toInt ≡ m [ZMOD 2 ^ 64]) (hb : b.toInt ≡ n [ZMOD 2 ^ 64]) :
    (op.onWord a b).toInt ≡ op.onInt m n [ZMOD 2 ^ 64] := by
  cases op with
  | plus =>
      show (a + b).toInt ≡ m + n [ZMOD 2 ^ 64]
      rw [Int64.toInt_add]
      exact (bmod_modEq _).trans (ha.add hb)
  | minus =>
      show (a - b).toInt ≡ m - n [ZMOD 2 ^ 64]
      rw [Int64.toInt_sub]
      exact (bmod_modEq _).trans (ha.sub hb)
  | times =>
      show (a * b).toInt ≡ m * n [ZMOD 2 ^ 64]
      rw [Int64.toInt_mul]
      exact (bmod_modEq _).trans (ha.mul hb)

/-- Wrapping around at every operation comes to the same as wrapping around once. -/
theorem word_modEq (t : Arithmetic) : t.word.toInt ≡ t.value [ZMOD 2 ^ 64] := by
  induction t with
  | literal n => exact Int.ModEq.refl _
  | negate a ih =>
      show (-a.word).toInt ≡ -a.value [ZMOD 2 ^ 64]
      rw [Int64.toInt_neg]
      exact (bmod_modEq _).trans ih.neg
  | apply op a b iha ihb => exact op.onWord_modEq iha ihb

theorem Operation.ofText?_text (op : Operation) :
    Resolved.BinaryOp.ofText? op.text = some (.arithmetic op.operator) := by
  cases op <;> rfl

theorem resolve_expr (t : Arithmetic) (table : SymbolTable) :
    Resolved.expr t.expr table = some (t.resolved, table) := by
  induction t generalizing table with
  | literal n => rfl
  | negate a ih =>
      rw [expr, Resolved.expr, ih]
      rfl
  | apply op a b iha ihb =>
      have hless : op.text ≠ "<" := by cases op <;> decide
      rw [expr, Resolved.expr, if_neg hless, iha]
      simp only [Option.bind_eq_bind, Option.bind_some, ihb, op.ofText?_text]
      rfl

end Arithmetic

/-! ## Runs that need some room -/

namespace Machine

/-- The run ends because the stack is full. -/
def Overflows (m : Machine) : Prop :=
  ∃ m₁ m₂ limit, m.Reaches m₁ ∧ m₁.step = .faulted (.stackOverflow limit) m₂

/-- The run comes to a machine with a property, or it overflows because it does not have the
room. -/
def Comes (m : Machine) (roomy : Prop) (P : Machine → Prop) : Prop :=
  (∃ m', m.Reaches m' ∧ P m') ∨ (¬roomy ∧ m.Overflows)

variable {m m' : Machine} {roomy roomy' : Prop} {P Q : Machine → Prop} {i : Instruction}
  {next : Nat} {xs : List Value} {v : Value} {w : World}

theorem Comes.here (h : P m) : m.Comes roomy P :=
  .inl ⟨m, .refl, h⟩

theorem Comes.bind (h : m.Comes roomy P) (hroom : roomy' → roomy)
    (hnext : ∀ m', P m' → m'.Comes roomy' Q) : m.Comes roomy' Q := by
  rcases h with ⟨m₁, hreach, hP⟩ | ⟨hfull, hover⟩
  · rcases hnext m₁ hP with ⟨m₂, hreach', hQ⟩ | ⟨hfull, m₂, m₃, limit, hreach', hfault⟩
    · exact .inl ⟨m₂, hreach.trans hreach', hQ⟩
    · exact .inr ⟨hfull, m₂, m₃, limit, hreach.trans hreach', hfault⟩
  · exact .inr ⟨fun h => hfull (hroom h), hover⟩

/-- An instruction that answers with a value needs a slot for it. -/
theorem comes_of_value (hsteps : m.limits.maxSteps = none)
    (hi : m.frame.body.code.Holds m.frame.ip i next)
    (ha : Answers (execute i) (m.advance next) xs (.ok (v, w)))
    (hroom : roomy → xs.length < m.stack.size) :
    m.Comes roomy ((m.advance next).Moved · (xs ++ [v]) w) := by
  have hstep := step_of_unlimited hsteps hi
  rcases ha with ⟨-, m', heq, hm⟩ | ⟨hfull, m', heq, -⟩
  · rw [heq] at hstep
    exact .inl ⟨m', .single hstep, hm⟩
  · rw [heq] at hstep
    exact .inr ⟨fun h => absurd (hroom h) (Nat.not_lt.2 hfull), m, m', _, .refl, hstep⟩

theorem exists_run_of_reaches {p : Progress} (hreach : m.Reaches m') (hstep : m'.step = p) :
    ∃ n, m.run n = p := by
  induction hreach using Relation.ReflTransGen.head_induction_on with
  | refl => exact ⟨1, (run_one m').trans hstep⟩
  | head hfirst _ ih =>
      obtain ⟨n, hn⟩ := ih
      refine ⟨n + 1, ?_⟩
      rw [run, hfirst]
      exact hn

/-- A run that comes to its end, or else overflows. -/
theorem Comes.ends (h : m.Comes roomy fun m' => m'.step = .halted m' ∧ P m') :
    (∃ n, (m.run n).Ended) ∧
    ∀ n, (m.run n).Ended →
      (∃ m', m.run n = .halted m' ∧ P m') ∨
      (¬roomy ∧ ∃ limit m', m.run n = .faulted (.stackOverflow limit) m') := by
  rcases h with ⟨m', hreach, hstep, hP⟩ | ⟨hfull, m₁, m₂, limit, hreach, hstep⟩
  · obtain ⟨k, hk⟩ := exists_run_of_reaches hreach hstep
    have hended : (m.run k).Ended := hk ▸ Progress.ended_halted m'
    exact ⟨⟨k, hended⟩, fun n hn => .inl ⟨m', (run_eq_of_ended hn hended).trans hk, hP⟩⟩
  · obtain ⟨k, hk⟩ := exists_run_of_reaches hreach hstep
    have hended : (m.run k).Ended := hk ▸ Progress.ended_faulted _ m₂
    exact ⟨⟨k, hended⟩,
      fun n hn => .inr ⟨hfull, limit, m₂, (run_eq_of_ended hn hended).trans hk⟩⟩

end Machine

/-! ## The code of an expression -/

namespace Arithmetic

open Resolved (Laid)

variable {K : Array Value} {room : Room} {code : Code} {lo hi : Nat} {m : Machine}
  {xs : List Value}

/-- A machine at the start of some code, ready to run it with these values on its stack. -/
structure Ready (K : Array Value) (code : Code) (lo : Nat) (xs : List Value) (m : Machine) :
    Prop where
  unlimited : m.limits.maxSteps = none
  constants : m.constants = K
  code : m.frame.body.code = code
  ip : m.frame.ip = lo
  shows : m.Shows xs

/-- A machine that has gone on to an offset with other values on its stack. -/
structure Onward (m : Machine) (offset : Nat) (xs : List Value) (m' : Machine) : Prop where
  limits : m'.limits = m.limits
  constants : m'.constants = m.constants
  size : m'.stack.size = m.stack.size
  body : m'.frame.body = m.frame.body
  ip : m'.frame.ip = offset
  shows : m'.Shows xs

theorem Ready.onward {m' : Machine} {ys : List Value} (h : Ready K code lo xs m)
    (h' : Onward m hi ys m') : Ready K code hi ys m' :=
  ⟨h'.limits ▸ h.unlimited, h'.constants.trans h.constants, h'.body ▸ h.code, h'.ip, h'.shows⟩

theorem Onward.trans {m₁ m₂ : Machine} {ys : List Value} (h : Onward m lo xs m₁)
    (h' : Onward m₁ hi ys m₂) : Onward m hi ys m₂ :=
  ⟨h'.limits.trans h.limits, h'.constants.trans h.constants, h'.size.trans h.size,
    h'.body.trans h.body, h'.ip, h'.shows⟩

theorem Ready.holds {i : Instruction} {next : Nat} (h : Ready K code lo xs m)
    (hi : code.Holds lo i next) : m.frame.body.code.Holds m.frame.ip i next := by
  rw [h.code, h.ip]
  exact hi

theorem onward_of_moved {m' : Machine} {next : Nat} {w : World}
    (h : (m.advance next).Moved m' xs w) : Onward m next xs m' :=
  ⟨h.limits, h.constants, h.size, by rw [h.frame]; rfl, by rw [h.frame]; rfl, h.shows⟩

/-- An instruction that answers with a value, whatever it takes. -/
theorem Ready.answers {i : Instruction} {next : Nat} {ys : List Value} {v : Value} {w : World}
    {roomy : Prop} (h : Ready K code lo xs m) (hi : code.Holds lo i next)
    (ha : Machine.Answers (Machine.execute i) (m.advance next) ys (.ok (v, w)))
    (hroom : roomy → ys.length < m.stack.size) : m.Comes roomy (Onward m next (ys ++ [v])) :=
  (Machine.comes_of_value h.unlimited (h.holds hi) ha hroom).bind id
    fun _ hm => .here (onward_of_moved hm)

theorem negate_answers {a : Int64} (h : m.Shows (xs ++ [.int a])) :
    Machine.Answers (Machine.execute .negate) m xs (.ok (.int (-a), m.world)) :=
  Machine.execute_unary (i := .negate) rfl h

theorem Operation.answers (op : Operation) {a b : Int64} (h : m.Shows (xs ++ [.int a, .int b])) :
    Machine.Answers (Machine.execute (Resolved.BinaryOp.arithmetic op.operator).instruction) m xs
      (.ok (.int (op.onWord a b), m.world)) := by
  cases op with
  | plus => exact Machine.execute_binary (i := .add) rfl h
  | minus => exact Machine.execute_binary (i := .subtract) rfl h
  | times => exact Machine.execute_binary (i := .multiply) rfl h

/-- The code of an expression pushes its word, and needs no more slots than there are literals. The
operand on the left waits on the stack while the one on the right is computed. -/
theorem comes (t : Arithmetic) (hlaid : Laid K room code (.expr t.resolved) lo hi)
    (h : Ready K code lo xs m) :
    m.Comes (xs.length + t.literals ≤ m.stack.size) (Onward m hi (xs ++ [.int t.word])) := by
  induction t generalizing lo hi xs m with
  | literal n =>
      cases hlaid with
      | @int _ _ _ _ k _ hat hk =>
          have hsource : (Instruction.constant k).source? (m.advance hi) = some (.int n) := by
            show m.constants[k]? = _
            rw [h.constants, hk]
          exact h.answers hat (Machine.execute_source hsource (h.shows.advance hi)) id
  | negate a ih =>
      cases hlaid with
      | unary hoperand hat =>
          refine (ih hoperand h).bind id fun m₁ hm₁ => ?_
          have h₁ := h.onward hm₁
          refine (h₁.answers hat (negate_answers (h₁.shows.advance _)) fun hroom => ?_).bind id
            fun m₂ hm₂ => .here (hm₁.trans hm₂)
          rw [hm₁.size]
          exact Nat.lt_of_lt_of_le (Nat.lt_add_of_pos_right a.literals_pos) hroom
  | apply op a b iha ihb =>
      cases hlaid with
      | binary hleft hright hat =>
          have hpos := a.literals_pos
          have hliterals : (apply op a b).literals = a.literals + b.literals := rfl
          refine (iha hleft h).bind (by omega) fun m₁ hm₁ => ?_
          have h₁ := h.onward hm₁
          have hsize₁ := hm₁.size
          refine (ihb hright h₁).bind (fun hroom => ?_) fun m₂ hm₂ => ?_
          · rw [List.length_append, List.length_singleton]
            omega
          · have h₂ := h₁.onward hm₂
            have hsize₂ := hm₂.size
            have hshows := h₂.shows.advance hi
            rw [List.append_assoc] at hshows
            refine (h₂.answers hat (op.answers hshows) fun hroom => ?_).bind id
              fun m₃ hm₃ => .here (hm₁.trans (hm₂.trans hm₃))
            omega

/-- The program of an expression statement ends with the word of the expression, if there is
room. -/
theorem comes_halted (t : Arithmetic)
    (hlaid : Laid K room code (.stmts [.expr t.resolved]) 0 code.size) (h : Ready K code 0 [] m) :
    m.Comes (t.literals ≤ m.stack.size)
      fun m' => m'.step = .halted m' ∧ m'.lastPopped = .int t.word := by
  cases hlaid with
  | stmtsCons hstmt hrest =>
      cases hstmt with
      | value hexpr hat =>
          cases hrest
          refine (t.comes hexpr h).bind (fun hroom => ?_) fun m₁ hm₁ => ?_
          · rw [List.length_nil, Nat.zero_add]
            exact hroom
          · have h₁ := h.onward hm₁
            obtain ⟨m₂, heq, hm₂, hlast⟩ := Machine.execute_pop (h₁.shows.advance code.size)
            have hstep := Machine.step_of_unlimited h₁.unlimited (h₁.holds hat)
            rw [heq] at hstep
            refine .inl ⟨m₂, .single hstep, Machine.step_end ?_, hlast⟩
            have hon := onward_of_moved hm₂
            rw [hon.ip, hon.body, h₁.code]

end Arithmetic

namespace Compiler

/-- The program of an arithmetic expression computes its exact value up to multiples of 2^64, after
whatever was compiled before and on any globals. The run comes to an end, and unless the stack is
too small it ends with the one word that is congruent to the exact value. A slot for each literal is
room enough. -/
theorem compile_arithmetic (earlier : List Program) (t : Arithmetic) (b : Bytecode) (c : Compiler)
    (h : (after earlier).compile [.expr t.expr] = (.ok b, c)) (limits : Limits)
    (hsteps : limits.maxSteps = none) (globals : Array Value) (issued self : Identity)
    (console : Console) :
    let m := Machine.start limits b globals issued console self
    (∃ n, (m.run n).Ended) ∧
    (∀ n, (m.run n).Ended → (∀ limit m', m.run n ≠ .faulted (.stackOverflow limit) m') →
      ∃ m' z, m.run n = .halted m' ∧ m'.lastPopped = .int z ∧
        -2 ^ 63 ≤ z.toInt ∧ z.toInt < 2 ^ 63 ∧ z.toInt ≡ t.value [ZMOD 2 ^ 64]) ∧
    (t.literals ≤ limits.stackSize →
      ∀ n limit m', m.run n ≠ .faulted (.stackOverflow limit) m') := by
  intro m
  obtain ⟨rs, hrs, hlaid⟩ := (compile_eq_ok (after_wf earlier) h).laid
  have hresolved : rs = [.expr t.resolved] := by
    rw [Resolved.block, Resolved.stmt, t.resolve_expr] at hrs
    exact (congrArg Prod.fst (Option.some.inj hrs)).symm
  subst hresolved
  have hready : Arithmetic.Ready b.constants b.code 0 [] m :=
    ⟨hsteps, rfl, rfl, rfl, rfl, Nat.zero_le _, fun _ hi => absurd hi (Nat.not_lt_zero _)⟩
  obtain ⟨hends, hcases⟩ := (t.comes_halted hlaid hready).ends
  have hsize : m.stack.size = limits.stackSize := Array.size_replicate
  refine ⟨hends, fun n hn hroom => ?_, fun hroom n limit m' hrun => ?_⟩
  · rcases hcases n hn with ⟨m', hrun, hlast⟩ | ⟨-, limit, m', hrun⟩
    · exact ⟨m', t.word, hrun, hlast, Int64.le_toInt _, Int64.toInt_lt _, t.word_modEq⟩
    · exact absurd hrun (hroom limit m')
  · rcases hcases n (hrun ▸ Progress.ended_faulted _ m') with ⟨m'', hrun', -⟩ | ⟨hfull, -⟩
    · rw [hrun] at hrun'
      cases hrun'
    · exact hfull (hsize ▸ hroom)

/-- `(9223372036854775807 + 1) * 3 - -5`, whose sum and product wrap around. -/
def wrappingSample : Arithmetic :=
  .apply .minus
    (.apply .times (.apply .plus (.literal 9223372036854775807) (.literal 1)) (.literal 3))
    (.negate (.literal 5))

theorem compile_arithmetic_wrappingSample :
    wrappingSample.value = 27670116110564327429 ∧
      ∃ b c n m z, (after []).compile [.expr wrappingSample.expr] = (.ok b, c) ∧
        (Machine.start { stackSize := 4 } b #[] 0 {}).run n = .halted m ∧
        m.lastPopped = .int z ∧ z.toInt = -9223372036854775803 := by
  have hvalue : wrappingSample.value = 27670116110564327429 := by decide
  have hok : ((after []).compile [.expr wrappingSample.expr]).1.isOk = true := by
    decide +kernel
  rcases hc : (after []).compile [.expr wrappingSample.expr] with ⟨e | b, c⟩
  · rw [hc] at hok
    cases hok
  · obtain ⟨⟨n, hn⟩, hresult, hroom⟩ :=
      compile_arithmetic [] wrappingSample b c hc { stackSize := 4 } rfl #[] 0 0 {}
    obtain ⟨m, z, hrun, hlast, hlow, hhigh, hmod⟩ := hresult n hn (hroom (by decide) n)
    refine ⟨hvalue, b, c, n, m, z, rfl, hrun, hlast, ?_⟩
    rw [hvalue, Int.ModEq] at hmod
    omega

end Compiler

end Monkey
