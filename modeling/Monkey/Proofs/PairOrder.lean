import Monkey.Proofs.Compiled

/-!
# The order of the pairs in a hash literal does not matter

A hash literal is compiled in the order of its keys' texts, so the order in which its pairs were
written shows in the code only where two keys have the same text. `Rearranged` says that two lists
have the same pairs and differ at most in the order of pairs under different texts; sorting takes
both to the same list, because a stable sort is determined by what it does to the pairs under each
text.

Compiling a pair has effects: constants are added, names are defined in it, captures are recorded.
So it is the whole function from one state of the compiler to the next that has to be the same for
both literals. A `Context` is a program with a place left open for an expression, anywhere but in
the key of a hash literal, where the text of the expression would count as well. Around any such
place the compiler knows an expression by that function only, and so by its code.
-/

namespace Monkey

/-- The same pairs in an order that is the same for pairs whose keys have the same text. -/
structure Rearranged (pairs pairs' : List (Expr × Expr)) : Prop where
  perm : pairs.Perm pairs'
  order : ∀ text, pairs.filter (·.1.render = text) = pairs'.filter (·.1.render = text)

/-- Lists under different texts may change places. -/
theorem Rearranged.append_comm {ps qs : List (Expr × Expr)}
    (h : ∀ p ∈ ps, ∀ q ∈ qs, p.1.render ≠ q.1.render) : Rearranged (ps ++ qs) (qs ++ ps) := by
  refine ⟨List.perm_append_comm, fun text => ?_⟩
  rw [List.filter_append, List.filter_append]
  by_cases htext : ∃ p ∈ ps, p.1.render = text
  · obtain ⟨p, hp, rfl⟩ := htext
    have hqs : qs.filter (·.1.render = p.1.render) = [] :=
      List.filter_eq_nil_iff.2 fun q hq => by simpa using (h p hp q hq).symm
    rw [hqs, List.append_nil, List.nil_append]
  · have hps : ps.filter (·.1.render = text) = [] :=
      List.filter_eq_nil_iff.2 fun p hp => by simpa using fun heq => htext ⟨p, hp, heq⟩
    rw [hps, List.append_nil, List.nil_append]

namespace Codegen

/-! ## Sorting by text -/

theorem text_le_trans (p q r : Expr × Expr) (hpq : decide (p.1.render ≤ q.1.render))
    (hqr : decide (q.1.render ≤ r.1.render)) : decide (p.1.render ≤ r.1.render) :=
  decide_eq_true (String.le_trans (of_decide_eq_true hpq) (of_decide_eq_true hqr))

theorem text_le_total (p q : Expr × Expr) :
    (decide (p.1.render ≤ q.1.render) || decide (q.1.render ≤ p.1.render)) = true := by
  simpa using String.le_total p.1.render q.1.render

theorem perm_ordered (pairs : List (Expr × Expr)) : (ordered pairs).Perm pairs :=
  List.mergeSort_perm _ _

theorem pairwise_ordered (pairs : List (Expr × Expr)) :
    (ordered pairs).Pairwise fun p q => p.1.render ≤ q.1.render := by
  have hsorted := List.pairwise_mergeSort text_le_trans text_le_total pairs
  rw [ordered]
  simpa only [decide_eq_true_eq] using hsorted

/-- Sorting is stable: it leaves the pairs under one text as they are. -/
theorem filter_ordered (pairs : List (Expr × Expr)) (text : String) :
    (ordered pairs).filter (·.1.render = text) = pairs.filter (·.1.render = text) := by
  have hsame : (pairs.filter (·.1.render = text)).Pairwise
      fun p q => decide (p.1.render ≤ q.1.render) := by
    rw [List.pairwise_filter]
    refine List.pairwise_of_forall fun p q hp hq => ?_
    rw [of_decide_eq_true hp, of_decide_eq_true hq]
    exact decide_eq_true (String.le_refl _)
  have hsublist := List.sublist_mergeSort text_le_trans text_le_total hsame List.filter_sublist
  have hfilter := hsublist.filter (·.1.render = text)
  rw [List.filter_filter] at hfilter
  simp only [Bool.and_self] at hfilter
  exact (hfilter.eq_of_length ((perm_ordered pairs).filter _).length_eq.symm).symm

theorem le_of_mem {p q : Expr × Expr} {qs : List (Expr × Expr)}
    (hqs : (q :: qs).Pairwise fun p q => p.1.render ≤ q.1.render) (hp : p ∈ q :: qs) :
    q.1.render ≤ p.1.render := by
  rcases List.mem_cons.1 hp with rfl | hp
  · exact String.le_refl _
  · exact List.rel_of_pairwise_cons hqs hp

/-- A list in the order of texts is determined by its pairs under each text. -/
theorem eq_of_pairwise_of_filter {ps qs : List (Expr × Expr)}
    (hps : ps.Pairwise fun p q => p.1.render ≤ q.1.render)
    (hqs : qs.Pairwise fun p q => p.1.render ≤ q.1.render)
    (h : ∀ text, ps.filter (·.1.render = text) = qs.filter (·.1.render = text)) : ps = qs := by
  induction ps generalizing qs with
  | nil =>
      cases qs with
      | nil => rfl
      | cons q qs => simpa using h q.1.render
  | cons p ps ih =>
      cases qs with
      | nil => simpa using h p.1.render
      | cons q qs =>
          have hmem : ∀ r, r ∈ p :: ps ↔ r ∈ q :: qs := by
            intro r
            have hr := congrArg (r ∈ ·) (h r.1.render)
            simpa using hr
          have htext : p.1.render = q.1.render :=
            String.le_antisymm (le_of_mem hps ((hmem q).2 List.mem_cons_self))
              (le_of_mem hqs ((hmem p).1 List.mem_cons_self))
          have hhead := h p.1.render
          simp only [List.filter_cons, htext, decide_true, if_true, List.cons.injEq] at hhead
          obtain ⟨rfl, hsame⟩ := hhead
          have hrest : ∀ text, ps.filter (·.1.render = text) = qs.filter (·.1.render = text) := by
            intro text
            by_cases heq : p.1.render = text
            · subst heq
              exact hsame
            · have htail := h text
              simpa [List.filter_cons, heq] using htail
          rw [ih hps.of_cons hqs.of_cons hrest]

end Codegen

theorem Rearranged.ordered_eq {pairs pairs' : List (Expr × Expr)} (h : Rearranged pairs pairs') :
    Codegen.ordered pairs = Codegen.ordered pairs' := by
  refine Codegen.eq_of_pairwise_of_filter (Codegen.pairwise_ordered _)
    (Codegen.pairwise_ordered _) fun text => ?_
  rw [Codegen.filter_ordered, Codegen.filter_ordered, h.order]

/-- Rearranged pairs compile to the same code. -/
theorem Rearranged.expr_hash {pairs pairs' : List (Expr × Expr)} (h : Rearranged pairs pairs') :
    Codegen.expr (.hash pairs) = Codegen.expr (.hash pairs') := by
  funext g
  rw [Codegen.expr, Codegen.expr, Codegen.pairCodes_sorted, Codegen.pairCodes_sorted, h.ordered_eq,
    h.perm.length_eq]

/-! ## Programs with an open place -/

mutual

/-- An expression with a place left open, which is not in the key of a hash literal. -/
inductive Expr.Context where
  | here
  | operand (op : String) (c : Expr.Context)
  | left (op : String) (c : Expr.Context) (right : Expr)
  | right (op : String) (left : Expr) (c : Expr.Context)
  | condition (c : Expr.Context) (consequence : List Stmt) (alternative : Option (List Stmt))
  | consequence (condition : Expr) (c : Block.Context) (alternative : Option (List Stmt))
  | alternative (condition : Expr) (consequence : List Stmt) (c : Block.Context)
  | body (parameters : List String) (c : Block.Context) (name : Option String)
  | callee (c : Expr.Context) (arguments : List Expr)
  | argument (callee : Expr) (before : List Expr) (c : Expr.Context) (after : List Expr)
  | container (c : Expr.Context) (position : Expr)
  | position (container : Expr) (c : Expr.Context)
  | element (before : List Expr) (c : Expr.Context) (after : List Expr)
  | value (before : List (Expr × Expr)) (key : Expr) (c : Expr.Context)
      (after : List (Expr × Expr))

/-- A statement with a place left open. -/
inductive Stmt.Context where
  | bind (name : String) (c : Expr.Context)
  | ret (c : Expr.Context)
  | expr (c : Expr.Context)

/-- Statements with a place left open in one of them. -/
inductive Block.Context where
  | statement (before : List Stmt) (c : Stmt.Context) (after : List Stmt)

end

mutual

/-- The expression with another one put into its open place. -/
def Expr.Context.fill (e : Expr) : Expr.Context → Expr
  | .here => e
  | .operand op c => .prefixOp op (c.fill e)
  | .left op c right => .infixOp op (c.fill e) right
  | .right op left c => .infixOp op left (c.fill e)
  | .condition c consequence alternative => .cond (c.fill e) consequence alternative
  | .consequence condition c alternative => .cond condition (c.fill e) alternative
  | .alternative condition consequence c => .cond condition consequence (some (c.fill e))
  | .body parameters c name => .function parameters (c.fill e) name
  | .callee c arguments => .call (c.fill e) arguments
  | .argument callee before c after => .call callee (before ++ c.fill e :: after)
  | .container c position => .index (c.fill e) position
  | .position container c => .index container (c.fill e)
  | .element before c after => .array (before ++ c.fill e :: after)
  | .value before key c after => .hash (before ++ (key, c.fill e) :: after)

/-- The statement with an expression put into its open place. -/
def Stmt.Context.fill (e : Expr) : Stmt.Context → Stmt
  | .bind name c => .bind name (c.fill e)
  | .ret c => .ret (c.fill e)
  | .expr c => .expr (c.fill e)

/-- The statements with an expression put into their open place. -/
def Block.Context.fill (e : Expr) : Block.Context → List Stmt
  | .statement before c after => before ++ c.fill e :: after

end

namespace Codegen

-- The equations that every case below opens.
attribute [local simp] expr stmt block exprs otherwise

theorem exprs_middle {e e' : Expr} (h : expr e = expr e') (before after : List Expr) :
    exprs (before ++ e :: after) = exprs (before ++ e' :: after) := by
  induction before with
  | nil =>
      funext g
      rw [List.nil_append, List.nil_append, exprs, exprs, h]
  | cons first before ih =>
      funext g
      rw [List.cons_append, List.cons_append, exprs, exprs, ih]

theorem block_middle {s s' : Stmt} (h : stmt s = stmt s') (before after : List Stmt) :
    block (before ++ s :: after) = block (before ++ s' :: after) := by
  induction before with
  | nil =>
      funext g
      rw [List.nil_append, List.nil_append, block, block, h]
  | cons first before ih =>
      funext g
      rw [List.cons_append, List.cons_append, block, block, ih]

theorem pairCodes_middle {e e' : Expr} (h : expr e = expr e') (before : List (Expr × Expr))
    (key : Expr) (after : List (Expr × Expr)) :
    pairCodes (before ++ (key, e) :: after) = pairCodes (before ++ (key, e') :: after) := by
  have hpair : pairCode (key, e) = pairCode (key, e') := by
    rw [pairCode, pairCode, h]
  simp only [pairCodes_eq, List.map_append, List.map_cons, hpair]

end Codegen

mutual

/-- The code around an open place depends on the code of what is put there, and on nothing else. -/
theorem Expr.Context.expr_fill {e e' : Expr} (h : Codegen.expr e = Codegen.expr e') :
    ∀ c : Expr.Context, Codegen.expr (c.fill e) = Codegen.expr (c.fill e')
  | .here => h
  | .operand op c => by
      funext g
      rw [Expr.Context.fill, Expr.Context.fill, Codegen.expr, Codegen.expr, c.expr_fill h]
  | .left op c right => by
      funext g
      rw [Expr.Context.fill, Expr.Context.fill, Codegen.expr, Codegen.expr, c.expr_fill h]
  | .right op left c => by
      funext g
      rw [Expr.Context.fill, Expr.Context.fill, Codegen.expr, Codegen.expr, c.expr_fill h]
  | .condition c consequence alternative => by
      funext g
      rw [Expr.Context.fill, Expr.Context.fill, Codegen.expr, Codegen.expr, c.expr_fill h]
  | .consequence condition c alternative => by
      funext g
      rw [Expr.Context.fill, Expr.Context.fill, Codegen.expr, Codegen.expr, c.block_fill h]
  | .alternative condition consequence c => by
      funext g
      rw [Expr.Context.fill, Expr.Context.fill, Codegen.expr, Codegen.expr]
      simp only [Codegen.otherwise, c.block_fill h]
  | .body parameters c name => by
      funext g
      rw [Expr.Context.fill, Expr.Context.fill, Codegen.expr, Codegen.expr, c.block_fill h]
  | .callee c arguments => by
      funext g
      rw [Expr.Context.fill, Expr.Context.fill, Codegen.expr, Codegen.expr, c.expr_fill h]
  | .argument callee before c after => by
      funext g
      rw [Expr.Context.fill, Expr.Context.fill, Codegen.expr, Codegen.expr,
        Codegen.exprs_middle (c.expr_fill h)]
      simp only [List.length_append, List.length_cons]
  | .container c position => by
      funext g
      rw [Expr.Context.fill, Expr.Context.fill, Codegen.expr, Codegen.expr, c.expr_fill h]
  | .position container c => by
      funext g
      rw [Expr.Context.fill, Expr.Context.fill, Codegen.expr, Codegen.expr, c.expr_fill h]
  | .element before c after => by
      funext g
      rw [Expr.Context.fill, Expr.Context.fill, Codegen.expr, Codegen.expr,
        Codegen.exprs_middle (c.expr_fill h)]
      simp only [List.length_append, List.length_cons]
  | .value before key c after => by
      funext g
      rw [Expr.Context.fill, Expr.Context.fill, Codegen.expr, Codegen.expr,
        Codegen.pairCodes_middle (c.expr_fill h)]
      simp only [List.length_append, List.length_cons]

theorem Stmt.Context.stmt_fill {e e' : Expr} (h : Codegen.expr e = Codegen.expr e') :
    ∀ c : Stmt.Context, Codegen.stmt (c.fill e) = Codegen.stmt (c.fill e')
  | .bind name c => by
      funext g
      rw [Stmt.Context.fill, Stmt.Context.fill, Codegen.stmt, Codegen.stmt, c.expr_fill h]
  | .ret c => by
      funext g
      rw [Stmt.Context.fill, Stmt.Context.fill, Codegen.stmt, Codegen.stmt, c.expr_fill h]
  | .expr c => by
      funext g
      rw [Stmt.Context.fill, Stmt.Context.fill, Codegen.stmt, Codegen.stmt, c.expr_fill h]

theorem Block.Context.block_fill {e e' : Expr} (h : Codegen.expr e = Codegen.expr e') :
    ∀ c : Block.Context, Codegen.block (c.fill e) = Codegen.block (c.fill e')
  | .statement before c after => by
      rw [Block.Context.fill, Block.Context.fill, Codegen.block_middle (c.stmt_fill h)]

end

/-- A program compiles to the same code, and leaves the compiler in the same state, when the pairs
of a hash literal in it are rearranged; or it is refused for the same reason. -/
theorem Compiler.compile_rearranged {pairs pairs' : List (Expr × Expr)}
    (h : Rearranged pairs pairs') (program : Block.Context) (c : Compiler) :
    c.compile (program.fill (.hash pairs)) = c.compile (program.fill (.hash pairs')) := by
  rw [compile, compile, program.block_fill h.expr_hash]

/-- The literal is the value under a key of another one, in the body of a function. Two of its keys
have the text `1`: they come before the third, and in the order in which they were written. -/
theorem Compiler.compile_rearranged_twins :
    let twins : List (Expr × Expr) := [(.str "1", .ident "x"), (.int 1, .int 20)]
    let other : List (Expr × Expr) := [(.str "0", .int 10)]
    let program : Block.Context := .statement []
      (.bind "f" (.body ["x"] (.statement [] (.ret (.value [] (.str "k") .here [])) []) (some "f")))
      [.expr (.call (.ident "f") [.int 30])]
    (∀ p ∈ twins, p.1.render = "1") ∧ Rearranged (twins ++ other) (other ++ twins) ∧
      Compiler.new.compile (program.fill (.hash (twins ++ other))) =
        Compiler.new.compile (program.fill (.hash (other ++ twins))) := by
  intro twins other program
  have h : Rearranged (twins ++ other) (other ++ twins) := .append_comm (by decide +kernel)
  exact ⟨by decide +kernel, h, Compiler.compile_rearranged h program Compiler.new⟩

end Monkey
