import Monkey.Proofs.Rollback
import Monkey.Proofs.Scopes

/-!
# Compiled programs are laid out

The compiler writes a stream from left to right, but not once: it patches jumps, takes a pop back
and turns another one into a return. This file shows that what stands in the stream when a
part is done is the layout of the resolved part, and that the symbols are those that resolution
gives. From here on nothing looks at the compiler again.

`Adds own g g' part` is the contract of every function of the compiler: from the state `g` to the
state `g'` the stream got the code of `part`, what was there before stays, and pool and symbols have
only grown. Each constructor of the syntax has its own lemma, and `Hereditary` puts them together.
-/

namespace Monkey

theorem Except.bind_eq_ok {ε α β : Type} {x : Except ε α} {f : α → Except ε β} {b : β} :
    x >>= f = .ok b ↔ ∃ a, x = .ok a ∧ f a = .ok b := by
  cases x with
  | error e => exact ⟨nofun, fun ⟨_, h, _⟩ => nomatch h⟩
  | ok a => exact ⟨fun h => ⟨a, rfl, h⟩, fun ⟨_, h, hf⟩ => by cases h; exact hf⟩

open Resolved (Part Laid Tail)

/-- Every function template of a pool has code that is laid out, in a room with so many globals. -/
def PoolWf (K : Array Value) (globals : Nat) : Prop :=
  ∀ (k : Nat) (id : Identity) (t : Template), K[k]? = some (.template id t) →
    t.parameters ≤ t.locals ∧ t.locals ≤ 256 ∧
    ∃ captures body, Laid K ⟨globals, 0, t.locals, captures, true⟩ t.code (.block .body body) 0
      t.code.size

namespace Codegen

theorem operand_eq_ok {g : Codegen} {what : Resource} {count n : Nat} :
    g.operand what count = .ok n ↔ count ≤ what.limit ∧ n = count := by
  rw [operand]
  split
  · next h => exact ⟨fun hn => ⟨h, (Except.ok.inj hn).symm⟩, fun hn => by rw [hn.2]⟩
  · next h => exact ⟨fun hn => (by cases hn), fun hn => absurd hn.1 h⟩

theorem within_eq_ok {outer inner : Codegen} {x : Result} :
    outer.within x = .ok inner ↔ x = .ok inner := by
  cases x with
  | error r => exact ⟨fun h => (by cases h), fun h => (by cases h)⟩
  | ok g => exact Iff.rfl

-- The equations of compilation and resolution, which every lemma about a constructor opens.
attribute [local simp] expr stmt block exprs otherwise
  Resolved.expr Resolved.stmt Resolved.block Resolved.exprs Resolved.otherwise

/-- What holds between any two steps of a compilation. The globals below `own` belong to earlier
programs. -/
structure Wf (own : Nat) (g : Codegen) : Prop where
  symbols : g.symbols.Wf
  own_le : own ≤ (g.symbols.room own).globals
  templates : PoolWf g.constants (g.symbols.room own).globals

/-- A later state of a compilation: nothing that was there is gone. -/
structure Later (g g' : Codegen) : Prop where
  grows : g.symbols.Grows g'.symbols
  /-- Slots are given out up to the largest operand. -/
  slots : g'.symbols.outer ≠ [] →
    g'.symbols.current.definitions ≤ max g.symbols.current.definitions 256
  pool : PoolLe g.constants g'.constants
  size_le : g.buffer.code.size ≤ g'.buffer.code.size
  agree : Code.Agree g.buffer.code g'.buffer.code 0 g.buffer.code.size

/-- From one state to the other the stream got the code of a part. -/
structure Adds (own : Nat) (g g' : Codegen) (part : Part) : Prop where
  wf : g'.Wf own
  later : Later g g'
  laid : Laid g'.constants (g'.symbols.room own) g'.buffer.code part g.buffer.code.size
    g'.buffer.code.size

theorem Later.refl (g : Codegen) : Later g g :=
  ⟨.refl _, fun _ => Nat.le_max_left _ _, .refl _, Nat.le_refl _, fun _ _ _ => rfl⟩

theorem Later.trans {a b c : Codegen} (h₁ : Later a b) (h₂ : Later b c) : Later a c := by
  refine ⟨h₁.grows.trans h₂.grows, fun hc => ?_, h₁.pool.trans h₂.pool,
    h₁.size_le.trans h₂.size_le,
    h₁.agree.trans (h₂.agree.mono (Nat.le_refl _) h₁.size_le)⟩
  have hb : b.symbols.outer ≠ [] := fun hb => hc (h₂.grows.outer_nil_iff.1 hb)
  have := h₁.slots hb
  have := h₂.slots hc
  omega

theorem Later.laid {own : Nat} {g g' : Codegen} {part : Part} {lo hi : Nat} (h : Later g g')
    (hl : Laid g.constants (g.symbols.room own) g.buffer.code part lo hi)
    (hhi : hi ≤ g.buffer.code.size) :
    Laid g'.constants (g'.symbols.room own) g'.buffer.code part lo hi :=
  (hl.congr (h.agree.mono (Nat.zero_le _) hhi)).mono h.pool (h.grows.room_le own)

theorem Adds.lift {own : Nat} {g g₁ g₂ : Codegen} {part : Part} (h : Adds own g g₁ part)
    (hl : Later g₁ g₂) : Laid g₂.constants (g₂.symbols.room own) g₂.buffer.code part
      g.buffer.code.size g₁.buffer.code.size :=
  hl.laid h.laid (Nat.le_refl _)

theorem PoolWf.mono {K K' : Array Value} {globals globals' : Nat}
    (h : PoolWf K globals) (hK : PoolLe K K') (hg : globals ≤ globals')
    (hnew : ∀ (k : Nat) id t, K'[k]? = some (.template id t) → K[k]? = some (.template id t)) :
    PoolWf K' globals' := by
  intro k id t ht
  obtain ⟨hp, hl, captures, body, hlaid⟩ := h k id t (hnew k id t ht)
  exact ⟨hp, hl, captures, body,
    hlaid.mono hK ⟨hg, Nat.le_refl _, Nat.le_refl _, Nat.le_refl _, rfl⟩⟩

/-! ## Single instructions -/

theorem code_emit (g : Codegen) (i : Instruction) :
    (g.emit i).buffer.code = g.buffer.code ++ i.encode := rfl

theorem size_emit (g : Codegen) (i : Instruction) :
    (g.emit i).buffer.code.size = g.buffer.code.size + i.opcode.size := by
  rw [code_emit, Code.size_appendList, i.length_encode]

theorem emit_wf {own : Nat} {g : Codegen} (i : Instruction) (h : g.Wf own) : (g.emit i).Wf own :=
  ⟨h.symbols, h.own_le, h.templates⟩

theorem emit_later (g : Codegen) (i : Instruction) : Later g (g.emit i) :=
  ⟨.refl _, fun _ => Nat.le_max_left _ _, .refl _, by rw [size_emit]; omega,
    Code.agree_append _ _ _⟩

theorem emit_holds (g : Codegen) {i : Instruction} (hf : i.Fits) :
    (g.emit i).buffer.code.Holds g.buffer.code.size i (g.emit i).buffer.code.size := by
  rw [size_emit]
  exact Code.holds_of_has (Code.has_append _ _) hf

theorem fits_wide {i : Instruction} {n : Nat} (hw : i.opcode.widths = [2]) (ho : i.operands = [n])
    (hn : n ≤ 65535) : i.Fits := by
  rw [Instruction.Fits, Opcode.Fits, hw, ho]
  exact .cons (by omega) .nil

theorem fits_narrow {i : Instruction} {n : Nat} (hw : i.opcode.widths = [1])
    (ho : i.operands = [n]) (hn : n ≤ 255) : i.Fits := by
  rw [Instruction.Fits, Opcode.Fits, hw, ho]
  exact .cons (by omega) .nil

theorem fits_plain {i : Instruction} (hw : i.opcode.widths = []) (ho : i.operands = []) :
    i.Fits := by
  rw [Instruction.Fits, Opcode.Fits, hw, ho]
  exact .nil

theorem Adds.emit {own : Nat} {g g₁ : Codegen} {part whole : Part} {i : Instruction}
    (h : Adds own g g₁ part) (hf : i.Fits)
    (hwhole : ∀ {K room code lo m hi}, Laid K room code part lo m → code.Holds m i hi →
      Laid K room code whole lo hi) : Adds own g (g₁.emit i) whole :=
  ⟨emit_wf i h.wf, h.later.trans (emit_later g₁ i),
    hwhole (h.lift (emit_later g₁ i)) (emit_holds g₁ hf)⟩

theorem Adds.trans {own : Nat} {g g₁ g₂ : Codegen} {part₁ part₂ whole : Part}
    (h₁ : Adds own g g₁ part₁) (h₂ : Adds own g₁ g₂ part₂)
    (hwhole : ∀ {K room code lo m hi}, Laid K room code part₁ lo m →
      Laid K room code part₂ m hi → Laid K room code whole lo hi) : Adds own g g₂ whole :=
  ⟨h₂.wf, h₁.later.trans h₂.later, hwhole (h₁.lift h₂.later) h₂.laid⟩

theorem Adds.trans_emit {own : Nat} {g g₁ g₂ : Codegen} {part₁ part₂ whole : Part}
    {i : Instruction} (h₁ : Adds own g g₁ part₁) (h₂ : Adds own g₁ g₂ part₂) (hf : i.Fits)
    (hwhole : ∀ {K room code lo m n hi}, Laid K room code part₁ lo m →
      Laid K room code part₂ m n → code.Holds n i hi → Laid K room code whole lo hi) :
    Adds own g (g₂.emit i) whole :=
  ⟨emit_wf i h₂.wf, (h₁.later.trans h₂.later).trans (emit_later g₂ i),
    hwhole (h₁.lift (h₂.later.trans (emit_later g₂ i))) (h₂.lift (emit_later g₂ i))
      (emit_holds g₂ hf)⟩

/-! ## Constants and symbols -/

theorem getElem?_push_of_some {K : Array Value} {v w : Value} {k : Nat} (h : K[k]? = some v) :
    (K.push w)[k]? = some v := by
  have hlt := (Array.getElem?_eq_some_iff.1 h).1
  rw [Array.getElem?_push_lt hlt, ← Array.getElem?_eq_getElem hlt, h]

theorem addConstant_spec {g g' : Codegen} {v : Value} {k : Nat}
    (h : g.addConstant v = .ok (k, g')) :
    k = g.constants.size ∧ k ≤ 65535 ∧ g' = { g with constants := g.constants.push v } := by
  rw [addConstant] at h
  obtain ⟨index, hop, hret⟩ := Except.bind_eq_ok.1 h
  obtain ⟨hle, rfl⟩ := operand_eq_ok.1 hop
  cases hret
  exact ⟨rfl, hle, rfl⟩

theorem push_later (g : Codegen) (v : Value) :
    Later g { g with constants := g.constants.push v } :=
  ⟨.refl _, fun _ => Nat.le_max_left _ _, fun _ _ hk => getElem?_push_of_some hk, Nat.le_refl _,
    fun _ _ _ => rfl⟩

theorem pushConstant_adds {own : Nat} {g g' : Codegen} {v : Value} {part : Part} (hw : g.Wf own)
    (h : g.pushConstant v = .ok g') (hplain : ∀ id t, v ≠ .template id t)
    (hpart : ∀ {K : Array Value} {room code lo k hi}, code.Holds lo (.constant k) hi →
      K[k]? = some v → Laid K room code part lo hi) :
    g'.symbols = g.symbols ∧ Adds own g g' part := by
  rw [pushConstant] at h
  obtain ⟨⟨k, g₁⟩, hadd, hret⟩ := Except.bind_eq_ok.1 h
  obtain ⟨hk, hle, rfl⟩ := addConstant_spec hadd
  cases hret
  subst hk
  have hlater := push_later g v
  refine ⟨rfl, emit_wf _ ⟨hw.symbols, hw.own_le, ?_⟩, hlater.trans (emit_later _ _),
    hpart (emit_holds _ (fits_wide rfl rfl hle)) ?_⟩
  · refine PoolWf.mono hw.templates hlater.pool (Nat.le_refl _) fun k id t ht => ?_
    rw [Array.getElem?_push] at ht
    split at ht
    · exact absurd (Option.some.inj ht) (hplain id t)
    · exact ht
  · exact Array.getElem?_push_size

theorem pushSymbol_spec {g g' : Codegen} {s : Symbol} (h : g.pushSymbol s = .ok g') :
    s.load.Fits ∧ g' = g.emit s.load := by
  rw [pushSymbol] at h
  rw [Symbol.load]
  cases hs : s.storage <;> rw [hs] at h
  case self =>
    cases h
    exact ⟨fits_plain rfl rfl, rfl⟩
  all_goals
    obtain ⟨n, hop, hret⟩ := Except.bind_eq_ok.1 h
    obtain ⟨hle, rfl⟩ := operand_eq_ok.1 hop
    cases hret
  case global => exact ⟨fits_wide rfl rfl hle, rfl⟩
  all_goals exact ⟨fits_narrow rfl rfl hle, rfl⟩

theorem store_spec {g g' : Codegen} {s : Symbol} (h : g.store s = .ok g') :
    s.save.Fits ∧ g' = g.emit s.save ∧ (s.storage ≠ .global → s.index ≤ 255) := by
  rw [store] at h
  rw [Symbol.save]
  cases hs : s.storage <;> rw [hs] at h
  all_goals
    obtain ⟨n, hop, hret⟩ := Except.bind_eq_ok.1 h
    obtain ⟨hle, rfl⟩ := operand_eq_ok.1 hop
    cases hret
  case global => exact ⟨fits_wide rfl rfl hle, rfl, fun hne => absurd rfl hne⟩
  all_goals exact ⟨fits_narrow rfl rfl hle, rfl, fun _ => hle⟩

/-! ## Expressions, one constructor at a time -/

/-- Compiling the expression lays out what it resolves to. -/
def CompilesExpr (e : Expr) : Prop :=
  ∀ own g g', g.Wf own → expr e g = .ok g' →
    ∃ r, Resolved.expr e g.symbols = some (r, g'.symbols) ∧ Adds own g g' (.expr r)

/-- Compiling the statement lays out what it resolves to: its expression, then the instruction that
ends it. -/
def CompilesStmt (s : Stmt) : Prop :=
  ∀ own g g', g.Wf own → stmt s g = .ok g' →
    ∃ r, Resolved.stmt s g.symbols = some (r, g'.symbols) ∧ Adds own g g' (.stmt r) ∧
      ∃ g₁, Adds own g g₁ (.expr r.value) ∧ g' = g₁.emit r.ending

theorem compiles_ident (name : String) : CompilesExpr (.ident name) := by
  intro own g g' hw h
  rw [expr, pushName] at h
  rw [Resolved.expr]
  split at h
  · next s table hres =>
      obtain ⟨hfit, rfl⟩ := pushSymbol_spec h
      obtain ⟨hwt, hgrows, hs, hdefs⟩ := SymbolTable.resolve_spec hres hw.symbols
      refine ⟨.symbol s, by rw [hres]; rfl, ?_⟩
      have hroom := hgrows.room_le own
      have hlater : Later g { g with symbols := table } :=
        ⟨hgrows, fun _ => hdefs ▸ Nat.le_max_left _ _, .refl _, Nat.le_refl _, fun _ _ _ => rfl⟩
      exact ⟨emit_wf _ ⟨hwt, hw.own_le.trans hroom.globals,
          PoolWf.mono hw.templates (.refl _) hroom.globals fun _ _ _ ht => ht⟩,
        hlater.trans (emit_later _ _), .symbol (SymbolTable.within_room hs) (emit_holds _ hfit)⟩
  · cases h

theorem compiles_int (value : Int64) : CompilesExpr (.int value) := by
  intro own g g' hw h
  rw [expr] at h
  obtain ⟨hsymbols, hadds⟩ := pushConstant_adds hw h (fun _ _ => nofun) Laid.int
  exact ⟨.int value, by rw [Resolved.expr, hsymbols], hadds⟩

theorem compiles_str (text : String) : CompilesExpr (.str text) := by
  intro own g g' hw h
  rw [expr] at h
  obtain ⟨hsymbols, hadds⟩ := pushConstant_adds hw h (fun _ _ => nofun) Laid.str
  exact ⟨.str text, by rw [Resolved.expr, hsymbols], hadds⟩

theorem compiles_bool (value : Bool) : CompilesExpr (.bool value) := by
  intro own g g' hw h
  rw [expr] at h
  cases h
  refine ⟨.bool value, rfl, emit_wf _ hw, emit_later _ _, .bool (emit_holds _ ?_)⟩
  cases value <;> exact fits_plain rfl rfl

theorem prefixInstruction?_eq (op : String) :
    prefixInstruction? op = (Resolved.UnaryOp.ofText? op).map (·.instruction) := by
  unfold prefixInstruction? Resolved.UnaryOp.ofText?
  grind [Resolved.UnaryOp.instruction]

theorem infixInstruction?_eq (op : String) :
    infixInstruction? op = (Resolved.BinaryOp.ofText? op).map (·.instruction) := by
  unfold infixInstruction? Resolved.BinaryOp.ofText?
  grind [Resolved.BinaryOp.instruction]

theorem UnaryOp.fits (op : Resolved.UnaryOp) : op.instruction.Fits := by
  cases op <;> exact fits_plain rfl rfl

theorem BinaryOp.fits (op : Resolved.BinaryOp) : op.instruction.Fits := by
  rcases op with op | wanted
  · cases op <;> exact fits_plain rfl rfl
  · cases wanted <;> exact fits_plain rfl rfl

theorem applyOperator_eq_ok {g g' : Codegen} {op : String} {i : Option Instruction}
    (h : g.applyOperator op i = .ok g') : ∃ j, i = some j ∧ g' = g.emit j := by
  cases i with
  | none => cases h
  | some j => exact ⟨j, rfl, (Except.ok.inj h).symm⟩

theorem compiles_prefixOp (op : String) (operand : Expr) (ih : CompilesExpr operand) :
    CompilesExpr (.prefixOp op operand) := by
  intro own g g' hw h
  rw [expr] at h
  obtain ⟨g₁, h₁, h⟩ := Except.bind_eq_ok.1 h
  obtain ⟨r, hr, hadds⟩ := ih own g g₁ hw h₁
  obtain ⟨i, hi, rfl⟩ := applyOperator_eq_ok h
  rw [prefixInstruction?_eq] at hi
  obtain ⟨uop, hop, rfl⟩ := Option.map_eq_some_iff.1 hi
  refine ⟨.unary uop r, ?_, hadds.emit (UnaryOp.fits uop) Laid.unary⟩
  rw [Resolved.expr, hr]
  simp only [Option.bind_eq_bind, Option.bind_some, hop]
  rfl

theorem compiles_infixOp (op : String) (left right : Expr) (ihl : CompilesExpr left)
    (ihr : CompilesExpr right) : CompilesExpr (.infixOp op left right) := by
  intro own g g' hw h
  rw [expr] at h
  rw [Resolved.expr]
  split at h
  · next hop =>
      rw [if_pos hop]
      obtain ⟨g₁, h₁, h⟩ := Except.bind_eq_ok.1 h
      obtain ⟨g₂, h₂, h⟩ := Except.bind_eq_ok.1 h
      cases h
      obtain ⟨r, hr, hadds₁⟩ := ihr own g g₁ hw h₁
      obtain ⟨l, hl, hadds₂⟩ := ihl own g₁ g₂ hadds₁.wf h₂
      refine ⟨.less l r, ?_, hadds₁.trans_emit hadds₂ (fits_plain rfl rfl) Laid.less⟩
      rw [hr]
      simp only [Option.bind_eq_bind, Option.bind_some, hl]
      rfl
  · next hop =>
      rw [if_neg hop]
      obtain ⟨g₁, h₁, h⟩ := Except.bind_eq_ok.1 h
      obtain ⟨g₂, h₂, h⟩ := Except.bind_eq_ok.1 h
      obtain ⟨l, hl, hadds₁⟩ := ihl own g g₁ hw h₁
      obtain ⟨r, hr, hadds₂⟩ := ihr own g₁ g₂ hadds₁.wf h₂
      obtain ⟨i, hi, rfl⟩ := applyOperator_eq_ok h
      rw [infixInstruction?_eq] at hi
      obtain ⟨bop, hbop, rfl⟩ := Option.map_eq_some_iff.1 hi
      refine ⟨.binary bop l r, ?_, hadds₁.trans_emit hadds₂ (BinaryOp.fits bop) Laid.binary⟩
      rw [hl]
      simp only [Option.bind_eq_bind, Option.bind_some, hr, hbop]
      rfl

theorem compiles_index (container position : Expr) (ihc : CompilesExpr container)
    (ihp : CompilesExpr position) : CompilesExpr (.index container position) := by
  intro own g g' hw h
  rw [expr] at h
  obtain ⟨g₁, h₁, h⟩ := Except.bind_eq_ok.1 h
  obtain ⟨g₂, h₂, h⟩ := Except.bind_eq_ok.1 h
  cases h
  obtain ⟨c, hc, hadds₁⟩ := ihc own g g₁ hw h₁
  obtain ⟨p, hp, hadds₂⟩ := ihp own g₁ g₂ hadds₁.wf h₂
  refine ⟨.index c p, ?_, hadds₁.trans_emit hadds₂ (fits_plain rfl rfl) Laid.index⟩
  rw [Resolved.expr, hc]
  simp only [Option.bind_eq_bind, Option.bind_some, hp]
  rfl

theorem exprs_spec {es : List Expr} (ih : ∀ e ∈ es, CompilesExpr e) {own : Nat} {g g' : Codegen}
    (hw : g.Wf own) (h : exprs es g = .ok g') :
    ∃ rs, Resolved.exprs es g.symbols = some (rs, g'.symbols) ∧ rs.length = es.length ∧
      Adds own g g' (.exprs rs) := by
  induction es generalizing g with
  | nil =>
      rw [exprs] at h
      cases h
      exact ⟨[], rfl, rfl, hw, .refl _, .exprsNil⟩
  | cons e es ihes =>
      rw [exprs] at h
      obtain ⟨g₁, h₁, h₂⟩ := Except.bind_eq_ok.1 h
      obtain ⟨ihe, ihrest⟩ := List.forall_mem_cons.1 ih
      obtain ⟨r, hr, hadds₁⟩ := ihe own g g₁ hw h₁
      obtain ⟨rs, hrs, hlen, hadds₂⟩ := ihes ihrest hadds₁.wf h₂
      refine ⟨r :: rs, ?_, by rw [List.length_cons, List.length_cons, hlen],
        hadds₁.trans hadds₂ Laid.exprsCons⟩
      rw [Resolved.exprs, hr]
      simp only [Option.bind_eq_bind, Option.bind_some, hrs]
      rfl

theorem compiles_call (callee : Expr) (arguments : List Expr) (ihc : CompilesExpr callee)
    (iha : ∀ e ∈ arguments, CompilesExpr e) : CompilesExpr (.call callee arguments) := by
  intro own g g' hw h
  rw [expr] at h
  obtain ⟨g₁, h₁, h⟩ := Except.bind_eq_ok.1 h
  obtain ⟨g₂, h₂, h⟩ := Except.bind_eq_ok.1 h
  obtain ⟨n, hop, h⟩ := Except.bind_eq_ok.1 h
  cases h
  obtain ⟨hle, rfl⟩ := operand_eq_ok.1 hop
  obtain ⟨f, hf, hadds₁⟩ := ihc own g g₁ hw h₁
  obtain ⟨args, hargs, hlen, hadds₂⟩ := exprs_spec iha hadds₁.wf h₂
  rw [← hlen] at hle ⊢
  refine ⟨.call f args, ?_, hadds₁.trans_emit hadds₂ (fits_narrow rfl rfl hle) Laid.call⟩
  rw [Resolved.expr, hf]
  simp only [Option.bind_eq_bind, Option.bind_some, hargs]
  rfl

theorem compiles_array (elements : List Expr) (ih : ∀ e ∈ elements, CompilesExpr e) :
    CompilesExpr (.array elements) := by
  intro own g g' hw h
  rw [expr] at h
  obtain ⟨g₁, h₁, h⟩ := Except.bind_eq_ok.1 h
  obtain ⟨n, hop, h⟩ := Except.bind_eq_ok.1 h
  cases h
  obtain ⟨hle, rfl⟩ := operand_eq_ok.1 hop
  obtain ⟨rs, hrs, hlen, hadds⟩ := exprs_spec ih hw h₁
  rw [← hlen] at hle ⊢
  refine ⟨.array rs, ?_, hadds.emit (fits_wide rfl rfl hle) Laid.array⟩
  rw [Resolved.expr, hrs]
  rfl

/-! ## Statements and blocks -/

theorem compiles_bind (name : String) (value : Expr) (ih : CompilesExpr value) :
    CompilesStmt (.bind name value) := by
  intro own g g' hw h
  have hstmt : stmt (.bind name value) g =
      (expr value { g with symbols := (g.symbols.define name).2 } >>= fun g₁ =>
        g₁.store (g.symbols.define name).1) := by
    rw [stmt]
  rw [hstmt] at h
  obtain ⟨g₁, h₁, h⟩ := Except.bind_eq_ok.1 h
  obtain ⟨hfit, rfl, hidx⟩ := store_spec h
  obtain ⟨hwt, hgrows, hindex, hdefs⟩ := SymbolTable.define_spec name hw.symbols
  have hroom := hgrows.room_le own
  have hw₁ : Wf own { g with symbols := (g.symbols.define name).2 } :=
    ⟨hwt, hw.own_le.trans hroom.globals,
      PoolWf.mono hw.templates (.refl _) hroom.globals fun _ _ _ ht => ht⟩
  obtain ⟨r, hr, hadds⟩ := ih own _ g₁ hw₁ h₁
  have hlater : Later g g₁ := by
    refine ⟨hgrows.trans hadds.later.grows, fun houter => ?_, hadds.later.pool,
      hadds.later.size_le, hadds.later.agree⟩
    -- the slot of the name passed the check, so the count after it is at most 256
    have hinner : g.symbols.outer ≠ [] := fun hnil =>
      houter ((hgrows.trans hadds.later.grows).outer_nil_iff.1 hnil)
    have hle := hidx (by rw [SymbolTable.define_storage name hinner]; exact nofun)
    have hcount : g₁.symbols.current.definitions ≤
        max (g.symbols.define name).2.current.definitions 256 := hadds.later.slots houter
    rw [hindex] at hle
    rw [hdefs] at hcount
    omega
  have hadds' : Adds own g g₁ (.expr r) := ⟨hadds.wf, hlater, hadds.laid⟩
  have hstorable := SymbolTable.define_storable name hw.own_le hadds.later.grows
  refine ⟨.bind (g.symbols.define name).1 r, ?_,
    ⟨emit_wf _ hadds.wf, hlater.trans (emit_later _ _),
      .bind (hadds'.lift (emit_later _ _)) hstorable (emit_holds _ hfit)⟩, g₁, hadds', rfl⟩
  rw [Resolved.stmt]
  simp only [hr, Option.bind_eq_bind, Option.bind_some]
  rfl

theorem compiles_ret (value : Expr) (ih : CompilesExpr value) : CompilesStmt (.ret value) := by
  intro own g g' hw h
  rw [stmt] at h
  obtain ⟨g₁, h₁, h⟩ := Except.bind_eq_ok.1 h
  cases h
  obtain ⟨r, hr, hadds⟩ := ih own g g₁ hw h₁
  refine ⟨.ret r, ?_, hadds.emit (fits_plain rfl rfl) Laid.ret, g₁, hadds, rfl⟩
  rw [Resolved.stmt, hr]
  rfl

theorem compiles_value (value : Expr) (ih : CompilesExpr value) : CompilesStmt (.expr value) := by
  intro own g g' hw h
  rw [stmt] at h
  obtain ⟨g₁, h₁, h⟩ := Except.bind_eq_ok.1 h
  cases h
  obtain ⟨r, hr, hadds⟩ := ih own g g₁ hw h₁
  refine ⟨.expr r, ?_, hadds.emit (fits_plain rfl rfl) Laid.value, g₁, hadds, rfl⟩
  rw [Resolved.stmt, hr]
  rfl

/-- The end of a block's code. -/
def closeWith (g : Codegen) : Tail → Codegen
  | .branch => g.closeBranch
  | .body => g.closeBody

theorem symbols_closeBranch (g : Codegen) : g.closeBranch.symbols = g.symbols := by
  obtain ⟨buffer, log, heq⟩ := g.exists_closeBranch_eq
  rw [heq]

theorem symbols_closeBody (g : Codegen) : g.closeBody.symbols = g.symbols := by
  obtain ⟨buffer, log, heq⟩ := g.exists_closeBody_eq
  rw [heq]

theorem symbols_closeWith (g : Codegen) (tail : Tail) :
    (g.closeWith tail).symbols = g.symbols := by
  cases tail with
  | branch => exact g.symbols_closeBranch
  | body => exact g.symbols_closeBody

theorem endsWith_emit (g : Codegen) (i : Instruction) (op : Opcode) :
    (g.emit i).buffer.endsWith op = (i.opcode == op) := rfl

theorem closeWith_of_neither {g : Codegen} (tail : Tail) (hp : g.buffer.endsWith .pop = false)
    (hr : g.buffer.endsWith .returnValue = false) : g.closeWith tail = g.emit tail.ofNothing := by
  cases tail with
  | branch =>
      rw [closeWith, closeBranch, hp, hr]
      rfl
  | body =>
      rw [closeWith, closeBody, hp]
      simp only [Bool.false_eq_true, if_false, hr]
      rfl

theorem closeWith_return (g : Codegen) (tail : Tail) :
    (g.emit .returnValue).closeWith tail = g.emit .returnValue := by
  cases tail <;> rfl

/-- The pop of a closing expression is taken back, or becomes a return. -/
theorem code_closeWith_pop (g : Codegen) (tail : Tail) :
    ((g.emit .pop).closeWith tail).buffer.code =
      match tail with
      | .branch => g.buffer.code
      | .body => (g.emit .returnValue).buffer.code := by
  cases tail with
  | branch => exact Code.truncate_append _ _
  | body => exact Code.overwrite_append _ _ _

/-- The contract speaks of pool, symbols and bytes only. -/
theorem Adds.of_code {own : Nat} {g g₁ g₂ : Codegen} {part : Part} (h : Adds own g g₁ part)
    (hk : g₂.constants = g₁.constants) (hs : g₂.symbols = g₁.symbols)
    (hc : g₂.buffer.code = g₁.buffer.code) : Adds own g g₂ part := by
  obtain ⟨⟨hw₁, hw₂, hw₃⟩, ⟨hl₁, hl₂, hl₃, hl₄, hl₅⟩, hlaid⟩ := h
  rw [← hk, ← hs] at *
  rw [← hc] at *
  exact ⟨⟨hw₁, hw₂, hw₃⟩, ⟨hl₁, hl₂, hl₃, hl₄, hl₅⟩, hlaid⟩

theorem Tail.fits (tail : Tail) : tail.ofNothing.Fits := by
  cases tail <;> exact fits_plain rfl rfl

theorem close_nothing_adds {own : Nat} {g : Codegen} (tail : Tail) (hw : g.Wf own)
    (hp : g.buffer.endsWith .pop = false) (hr : g.buffer.endsWith .returnValue = false) :
    Adds own g (g.closeWith tail) (.block tail []) := by
  rw [closeWith_of_neither tail hp hr]
  exact ⟨emit_wf _ hw, emit_later _ _, .blockNil (emit_holds _ (Tail.fits tail))⟩

theorem close_last_adds {own : Nat} {g g' g₁ : Codegen} {r : Resolved.Stmt} (tail : Tail)
    (hadds : Adds own g g' (.stmt r)) (h₁ : Adds own g g₁ (.expr r.value))
    (heq : g' = g₁.emit r.ending) : Adds own g (g'.closeWith tail) (.block tail [r]) := by
  subst heq
  cases r with
  | bind s e =>
      have hsave : s.save.opcode = .setGlobal ∨ s.save.opcode = .setLocal := by
        rw [Symbol.save]
        split
        · exact .inl rfl
        · exact .inr rfl
      refine hadds.trans (close_nothing_adds tail hadds.wf ?_ ?_) Laid.blockBind
      · rw [endsWith_emit]
        rcases hsave with h | h <;> rw [Resolved.Stmt.ending, h] <;> rfl
      · rw [endsWith_emit]
        rcases hsave with h | h <;> rw [Resolved.Stmt.ending, h] <;> rfl
  | ret e =>
      rw [Resolved.Stmt.ending, closeWith_return]
      exact ⟨hadds.wf, hadds.later, .blockRet hadds.laid⟩
  | expr e =>
      have hcode := code_closeWith_pop g₁ tail
      cases tail with
      | branch =>
          have : Adds own g g₁ (.block .branch [.expr e]) :=
            ⟨h₁.wf, h₁.later, .blockValue h₁.laid rfl⟩
          exact this.of_code rfl rfl hcode
      | body =>
          have : Adds own g (g₁.emit .returnValue) (.block .body [.expr e]) :=
            h₁.emit (fits_plain rfl rfl) fun hl hh => .blockValue hl hh
          exact this.of_code rfl rfl hcode

/-- A block, closed. An empty one must not find the end of a statement in front of it. -/
theorem block_adds {b : List Stmt} (ih : ∀ s ∈ b, CompilesStmt s) {own : Nat} {g g' : Codegen}
    (tail : Tail) (hw : g.Wf own) (h : block b g = .ok g')
    (hempty : b = [] → g.buffer.endsWith .pop = false ∧ g.buffer.endsWith .returnValue = false) :
    ∃ rs, Resolved.block b g.symbols = some (rs, (g'.closeWith tail).symbols) ∧
      Adds own g (g'.closeWith tail) (.block tail rs) := by
  rw [symbols_closeWith]
  induction b generalizing g with
  | nil =>
      rw [block] at h
      cases h
      obtain ⟨hp, hr⟩ := hempty rfl
      exact ⟨[], by rw [Resolved.block], close_nothing_adds tail hw hp hr⟩
  | cons s rest ihrest =>
      rw [block] at h
      obtain ⟨g₁, h₁, h⟩ := Except.bind_eq_ok.1 h
      obtain ⟨ihs, ihss⟩ := List.forall_mem_cons.1 ih
      obtain ⟨r, hr, hadds, g₀, hadds₀, heq⟩ := ihs own g g₁ hw h₁
      rw [Resolved.block, hr]
      simp only [Option.bind_eq_bind, Option.bind_some]
      cases rest with
      | nil =>
          rw [block] at h
          cases h
          refine ⟨[r], ?_, close_last_adds tail hadds hadds₀ heq⟩
          rw [Resolved.block]
          rfl
      | cons s' rest' =>
          obtain ⟨rs, hrs, hadds'⟩ := ihrest ihss hadds.wf h nofun
          obtain ⟨r', rs', rfl⟩ := Resolved.block_cons hrs
          rw [hrs]
          exact ⟨r :: r' :: rs', rfl, hadds.trans hadds' Laid.blockCons⟩

/-- The statements of a program, which nothing closes. -/
theorem block_adds_stmts {b : List Stmt} (ih : ∀ s ∈ b, CompilesStmt s) {own : Nat}
    {g g' : Codegen} (hw : g.Wf own) (h : block b g = .ok g') :
    ∃ rs, Resolved.block b g.symbols = some (rs, g'.symbols) ∧ Adds own g g' (.stmts rs) := by
  induction b generalizing g with
  | nil =>
      rw [block] at h
      cases h
      exact ⟨[], by rw [Resolved.block], hw, .refl _, .stmtsNil⟩
  | cons s rest ihrest =>
      rw [block] at h
      obtain ⟨g₁, h₁, h⟩ := Except.bind_eq_ok.1 h
      obtain ⟨ihs, ihss⟩ := List.forall_mem_cons.1 ih
      obtain ⟨r, hr, hadds, -⟩ := ihs own g g₁ hw h₁
      obtain ⟨rs, hrs, hadds'⟩ := ihrest ihss hadds.wf h
      refine ⟨r :: rs, ?_, hadds.trans hadds' Laid.stmtsCons⟩
      rw [Resolved.block, hr]
      simp only [Option.bind_eq_bind, Option.bind_some, hrs]
      rfl

/-! ## Jumps

A jump is written before its target is known and patched when it is. The patch changes the bytes
of the jump and no others. -/

/-- A state that differs from another one in the bytes from `lo` up to `hi` only. -/
structure Patched (g g' : Codegen) (lo hi : Nat) : Prop where
  constants : g'.constants = g.constants
  symbols : g'.symbols = g.symbols
  last : g'.buffer.last = g.buffer.last
  size : g'.buffer.code.size = g.buffer.code.size
  outside : ∀ j, j < lo ∨ hi ≤ j → g'.buffer.code[j]? = g.buffer.code[j]?

theorem Patched.agree {g g' : Codegen} {lo hi a b : Nat} (h : Patched g g' lo hi)
    (hout : b ≤ lo ∨ hi ≤ a) : Code.Agree g.buffer.code g'.buffer.code a b :=
  fun j ha hb => h.outside j (by omega)

theorem Patched.wf {own : Nat} {g g' : Codegen} {lo hi : Nat} (h : Patched g g' lo hi)
    (hw : g.Wf own) : g'.Wf own := by
  obtain ⟨h₁, h₂, h₃⟩ := hw
  refine ⟨?_, ?_, ?_⟩
  · rw [h.symbols]; exact h₁
  · rw [h.symbols]; exact h₂
  · rw [h.symbols, h.constants]; exact h₃

theorem Patched.later {g₀ g g' : Codegen} {lo hi : Nat} (h : Patched g g' lo hi)
    (hl : Later g₀ g) (hlo : g₀.buffer.code.size ≤ lo) : Later g₀ g' := by
  refine ⟨?_, ?_, ?_, ?_, hl.agree.trans (h.agree (.inl hlo))⟩
  · rw [h.symbols]; exact hl.grows
  · rw [h.symbols]; exact hl.slots
  · rw [h.constants]; exact hl.pool
  · rw [h.size]; exact hl.size_le

theorem Patched.laid {own : Nat} {g g' : Codegen} {lo hi a b : Nat} {part : Part}
    (h : Patched g g' lo hi)
    (hl : Laid g.constants (g.symbols.room own) g.buffer.code part a b)
    (hout : b ≤ lo ∨ hi ≤ a) :
    Laid g'.constants (g'.symbols.room own) g'.buffer.code part a b := by
  rw [h.constants, h.symbols]
  exact hl.congr (h.agree hout)

theorem landHere_spec {g g' : Codegen} {j t hi : Nat} {jump : Nat → Instruction}
    (hjump : jump = .jump ∨ jump = .jumpUnless) (hold : g.buffer.code.Holds j (jump t) hi)
    (h : g.landHere j = .ok g') :
    Patched g g' j hi ∧ g'.buffer.code.Holds j (jump g.buffer.code.size) hi := by
  rw [landHere] at h
  obtain ⟨target, hop, hret⟩ := Except.bind_eq_ok.1 h
  obtain ⟨hle, rfl⟩ := operand_eq_ok.1 hop
  cases hret
  have hhi := hold.bounds
  have hopcode := hold.opcode
  have hpatch : (g.buffer.patch j g.buffer.code.size).code =
      Code.overwrite g.buffer.code j (jump g.buffer.code.size).encode := by
    rw [Buffer.patch, hopcode]
    rcases hjump with rfl | rfl <;> rfl
  have hlast : (g.buffer.patch j g.buffer.code.size).last = g.buffer.last := by
    rw [Buffer.patch, hopcode]
  have hsize : (jump g.buffer.code.size).opcode.size = (jump t).opcode.size := by
    rcases hjump with rfl | rfl <;> rfl
  have hlen := (jump g.buffer.code.size).length_encode
  refine ⟨⟨rfl, rfl, hlast, ?_, fun i hi => ?_⟩, ?_⟩
  · show (g.buffer.patch j g.buffer.code.size).code.size = _
    rw [hpatch, Code.size_overwrite]
  · show (g.buffer.patch j g.buffer.code.size).code[i]? = _
    rw [hpatch, Code.getElem?_overwrite_of_outside (by omega)]
  · show (g.buffer.patch j g.buffer.code.size).code.Holds _ _ _
    rw [hpatch, hhi.1, ← hsize]
    refine Code.holds_of_has (Code.has_overwrite (by omega)) ?_
    rcases hjump with rfl | rfl <;> exact fits_wide rfl rfl hle

theorem otherwise_adds {alternative : Option (List Stmt)}
    (ih : ∀ body, alternative = some body → ∀ s ∈ body, CompilesStmt s) {own : Nat}
    {g g' : Codegen} (hw : g.Wf own) (hp : g.buffer.endsWith .pop = false)
    (hr : g.buffer.endsWith .returnValue = false) (h : otherwise alternative g = .ok g') :
    ∃ rs, Resolved.otherwise alternative g.symbols = some (rs, g'.symbols) ∧
      Adds own g g' (.block .branch rs) := by
  cases alternative with
  | none =>
      rw [otherwise] at h
      cases h
      refine ⟨[], by rw [Resolved.otherwise]; rfl, ?_⟩
      have := close_nothing_adds .branch hw hp hr
      rwa [closeWith_of_neither .branch hp hr] at this
  | some body =>
      rw [otherwise] at h
      obtain ⟨g₁, h₁, h⟩ := Except.bind_eq_ok.1 h
      cases h
      obtain ⟨rs, hrs, hadds⟩ := block_adds (ih body rfl) .branch hw h₁ fun _ => ⟨hp, hr⟩
      refine ⟨rs, ?_, hadds⟩
      rw [Resolved.otherwise, hrs]
      rfl

theorem compiles_cond (condition : Expr) (consequence : List Stmt)
    (alternative : Option (List Stmt)) (ihc : CompilesExpr condition)
    (iha : ∀ s ∈ consequence, CompilesStmt s)
    (ihb : ∀ body, alternative = some body → ∀ s ∈ body, CompilesStmt s) :
    CompilesExpr (.cond condition consequence alternative) := by
  intro own g g' hw h
  rw [expr] at h
  obtain ⟨g₁, hc, h⟩ := Except.bind_eq_ok.1 h
  obtain ⟨g₂, ha, h⟩ := Except.bind_eq_ok.1 h
  obtain ⟨g₃, hland, h⟩ := Except.bind_eq_ok.1 h
  obtain ⟨g₄, hb, hland'⟩ := Except.bind_eq_ok.1 h
  obtain ⟨rc, hrc, haddsc⟩ := ihc own g g₁ hw hc
  obtain ⟨ra, hra, haddsa⟩ :=
    block_adds iha .branch (emit_wf _ haddsc.wf) ha fun _ => ⟨rfl, rfl⟩
  have hfit : ∀ {jump : Nat → Instruction}, jump = .jump ∨ jump = .jumpUnless →
      (jump unknownTarget).Fits := by
    intro jump hjump
    rcases hjump with rfl | rfl <;> exact fits_wide rfl rfl (by decide)
  -- the test, its code in the stream where the first branch is closed and the exit written
  have htest := emit_holds g₁ (hfit (.inr rfl))
  have hexit := emit_holds (g₂.closeWith .branch) (hfit (.inl rfl))
  have hlater₁ := haddsa.later.trans (emit_later (g₂.closeWith .branch) (.jump unknownTarget))
  have htest' := htest.congr (hlater₁.agree.mono (Nat.zero_le _) (Nat.le_refl _))
  obtain ⟨hpatch, htest₃⟩ := landHere_spec (.inr rfl) htest' hland
  have hlater₃ := hpatch.later ((emit_later g₁ _).trans hlater₁) (Nat.le_refl _)
  obtain ⟨rb, hrb, haddsb⟩ := otherwise_adds ihb (hpatch.wf (emit_wf _ haddsa.wf))
    (by rw [Buffer.endsWith, hpatch.last]; rfl) (by rw [Buffer.endsWith, hpatch.last]; rfl) hb
  have hm := haddsa.later.size_le
  have hexit₃ := hexit.congr (hpatch.agree (.inr hm))
  have hexit₄ := hexit₃.congr (haddsb.later.agree.mono (Nat.zero_le _) hexit₃.le_size)
  obtain ⟨hpatch', hexit'⟩ := landHere_spec (.inl rfl) hexit₄ hland'
  have hlt := htest.lt
  have hlater' := hpatch'.later (hlater₃.trans haddsb.later) (by omega)
  refine ⟨.cond rc ra rb, ?_, hpatch'.wf haddsb.wf, haddsc.later.trans hlater', ?_⟩
  · have hsymbols : g₃.symbols = (g₂.closeWith .branch).symbols := hpatch.symbols
    have hra' : Resolved.block consequence g₁.symbols = some (ra, g₃.symbols) := by
      rw [hsymbols]
      exact hra
    have hrb' : Resolved.otherwise alternative g₃.symbols = some (rb, g'.symbols) := by
      rw [hpatch'.symbols]
      exact hrb
    rw [Resolved.expr, hrc]
    simp only [Option.bind_eq_bind, Option.bind_some, hra', hrb']
    rfl
  · have hm' := hexit.lt
    have hhi := haddsb.later.size_le
    have htest' := (htest₃.congr (haddsb.later.agree.mono (Nat.zero_le _) htest₃.le_size)).congr
      (hpatch'.agree (.inl hm))
    have ha' := hpatch'.laid (haddsb.later.laid (hpatch.laid
      (haddsa.lift (emit_later _ _)) (.inr (Nat.le_refl _))) (by rw [hpatch.size]; exact hm'.le))
      (.inl (Nat.le_refl _))
    have hb' := hpatch'.laid haddsb.laid (.inr (by rw [hpatch.size]))
    rw [hpatch.size] at hb'
    rw [hpatch'.size]
    exact .cond (haddsc.lift hlater') htest' ha' hexit' hb'

/-! ## Function literals -/

theorem pushSymbols_adds {own : Nat} {g g' : Codegen} {symbols : List Symbol} (hw : g.Wf own)
    (hs : ∀ s ∈ symbols, s.Within (g.symbols.room own)) (h : g.pushSymbols symbols = .ok g') :
    g'.symbols = g.symbols ∧ g'.constants = g.constants ∧ Adds own g g' (.loads symbols) := by
  induction symbols generalizing g with
  | nil =>
      rw [pushSymbols] at h
      cases h
      exact ⟨rfl, rfl, hw, .refl _, .loadsNil⟩
  | cons s rest ih =>
      rw [pushSymbols] at h
      obtain ⟨g₁, h₁, h⟩ := Except.bind_eq_ok.1 h
      obtain ⟨hfit, rfl⟩ := pushSymbol_spec h₁
      obtain ⟨hhere, hrest⟩ := List.forall_mem_cons.1 hs
      obtain ⟨hsym, hconst, hadds⟩ := ih (emit_wf s.load hw) hrest h
      refine ⟨hsym, hconst, hadds.wf, (emit_later g _).trans hadds.later, ?_⟩
      refine .loadsCons ?_ ?_ hadds.laid
      · rw [hsym]
        exact hhere
      · exact (emit_holds g hfit).congr (hadds.later.agree.mono (Nat.zero_le _) (Nat.le_refl _))

theorem PoolWf.push {K : Array Value} {globals own captures : Nat} {t : Template} {id : Identity}
    {body : List Resolved.Stmt} (h : PoolWf K globals) (hp : t.parameters ≤ t.locals)
    (hl : t.locals ≤ 256)
    (hlaid : Laid K ⟨globals, own, t.locals, captures, true⟩ t.code (.block .body body) 0
      t.code.size) : PoolWf (K.push (.template id t)) globals := by
  have hK : PoolLe K (K.push (.template id t)) := fun _ _ hk => getElem?_push_of_some hk
  intro k id' t' ht
  rw [Array.getElem?_push] at ht
  split at ht
  · injection ht with ht
    injection ht with _ ht
    subst ht
    exact ⟨hp, hl, captures, body,
      hlaid.mono hK ⟨Nat.le_refl _, Nat.zero_le _, Nat.le_refl _, Nat.le_refl _, rfl⟩⟩
  · obtain ⟨hp', hl', captures', body', hlaid'⟩ := h k id' t' ht
    exact ⟨hp', hl', captures', body', hlaid'.mono hK (.refl _)⟩

theorem makeClosure_eq_ok {inner outer g' : Codegen} {parameters : Nat}
    (h : inner.makeClosure outer parameters = .ok g') :
    ∃ g, (outer.leave inner.closeBody).pushSymbols
        inner.closeBody.symbols.leave.1.captures.toList = .ok g ∧
      inner.closeBody.symbols.leave.1.captures.size ≤ 255 ∧ g.constants.size ≤ 65535 ∧
      g' = { g with constants := g.constants.push (.template g.constants.size
          ⟨inner.closeBody.buffer.code, inner.closeBody.symbols.leave.1.definitions,
            parameters⟩) }.emit
        (.closure g.constants.size inner.closeBody.symbols.leave.1.captures.size) := by
  rw [makeClosure] at h
  obtain ⟨captured, hop, h⟩ := Except.bind_eq_ok.1 h
  obtain ⟨hle, rfl⟩ := operand_eq_ok.1 hop
  obtain ⟨g, hpush, h⟩ := Except.bind_eq_ok.1 h
  obtain ⟨⟨k, g₁⟩, hadd, h⟩ := Except.bind_eq_ok.1 h
  obtain ⟨rfl, hk, rfl⟩ := addConstant_spec hadd
  cases h
  exact ⟨g, hpush, hle, hk, rfl⟩

theorem enter_wf {own : Nat} {g : Codegen} (hw : g.Wf own) (name : Option String)
    (parameters : List String) :
    (g.enter name parameters).Wf own := by
  have ho := SymbolTable.openBody_opened name parameters hw.symbols
  have hglobals : ((openBody g.symbols name parameters).room own).globals =
      (g.symbols.room own).globals := by
    rw [SymbolTable.room, SymbolTable.room, SymbolTable.roomOf_globals, SymbolTable.roomOf_globals,
      ho.outer]
    rfl
  refine ⟨ho.wf, ?_, ?_⟩
  · show own ≤ ((openBody g.symbols name parameters).room own).globals
    rw [hglobals]
    exact hw.own_le
  · show PoolWf g.constants ((openBody g.symbols name parameters).room own).globals
    rw [hglobals]
    exact hw.templates

/-- What the body of a function leaves when it is left: the state around it has grown, and the code
of the body, closed, is that of a template. -/
structure Encloses (own : Nat) (g inner : Codegen) (parameters : Nat) (body : List Resolved.Stmt) :
    Prop where
  left : inner.symbols.leave.1 = ⟨inner.symbols.current.definitions, inner.symbols.current.captures⟩
  wf : (g.leave inner).Wf own
  later : Later g (g.leave inner)
  within : ∀ s ∈ inner.symbols.current.captures.toList, s.Within (inner.symbols.leave.2.room own)
  parameters_le : parameters ≤ inner.symbols.current.definitions
  locals_le : inner.symbols.current.definitions ≤ 256
  laid : Laid inner.constants ((inner.symbols.leave.2.room own).within
    inner.symbols.current.definitions inner.symbols.current.captures.toList.length)
    inner.buffer.code (.block .body body) 0 inner.buffer.code.size

theorem body_adds {own : Nat} {g inner : Codegen} {name : Option String} {parameters : List String}
    {body : List Stmt} (ih : ∀ s ∈ body, CompilesStmt s) (hw : g.Wf own)
    (hcount : parameters.length ≤ 255)
    (h : block body (g.enter name parameters) = .ok inner) :
    ∃ rs, Resolved.block body (openBody g.symbols name parameters) =
        some (rs, inner.closeBody.symbols) ∧
      Encloses own g inner.closeBody parameters.length rs := by
  obtain ⟨rs, hrs, hadds⟩ :=
    block_adds ih .body (enter_wf hw name parameters) h fun _ => ⟨rfl, rfl⟩
  rw [closeWith] at hrs hadds
  generalize inner.closeBody = inner at hrs hadds ⊢
  have ho := SymbolTable.openBody_opened name parameters hw.symbols
  have hgrows : (openBody g.symbols name parameters).Grows inner.symbols := hadds.later.grows
  have hwi : inner.symbols.Wf := hadds.wf.symbols
  obtain ⟨hwl, hgl, hdefs, hclosed, hwithin, hroom⟩ := SymbolTable.leave_spec ho hwi hgrows
  have htemplates : PoolWf inner.constants (inner.symbols.room own).globals := hadds.wf.templates
  have hslots := (hgrows.room_le own).slots
  rw [hroom own, SymbolTable.room, ho.outer] at hslots
  have hinner : inner.symbols.outer ≠ [] := by
    intro hnil
    have hopen := hgrows.outer_nil_iff.2 hnil
    rw [ho.outer] at hopen
    cases hopen
  -- the parameters passed their check, and so did every slot that the body took
  have hlocals : inner.symbols.current.definitions ≤
      max (openBody g.symbols name parameters).current.definitions 256 := hadds.later.slots hinner
  rw [ho.slots] at hlocals
  refine ⟨rs, hrs, hclosed, ⟨hwl, hw.own_le.trans (hgl.room_le own).globals, ?_⟩,
    ⟨hgl, fun _ => hdefs ▸ Nat.le_max_left _ _, hadds.later.pool, Nat.le_refl _, fun _ _ _ => rfl⟩,
    fun s hs => SymbolTable.within_room (hwithin s (Array.mem_toList_iff.1 hs)),
    ho.slots ▸ hslots, by omega, ?_⟩
  · rw [hroom own] at htemplates
    exact htemplates
  · rw [Array.length_toList, ← hroom own]
    exact hadds.laid

theorem compiles_function (parameters : List String) (body : List Stmt) (name : Option String)
    (ih : ∀ s ∈ body, CompilesStmt s) : CompilesExpr (.function parameters body name) := by
  intro own g g' hw h
  rw [expr] at h
  obtain ⟨count, hop, h⟩ := Except.bind_eq_ok.1 h
  obtain ⟨hcount, rfl⟩ := operand_eq_ok.1 hop
  obtain ⟨inner, hbody, h⟩ := Except.bind_eq_ok.1 h
  obtain ⟨rs, hrs, hencl⟩ := body_adds ih hw hcount (within_eq_ok.1 hbody)
  obtain ⟨g₁, hpush, hcaps, hk, rfl⟩ := makeClosure_eq_ok h
  generalize inner.closeBody = inner at hrs hencl hpush hcaps ⊢
  rw [hencl.left] at hpush hcaps ⊢
  obtain ⟨hsym, hconst, haddsl⟩ := pushSymbols_adds hencl.wf hencl.within hpush
  obtain ⟨constants₁, symbols₁, buffer₁, log₁⟩ := g₁
  dsimp only at hsym hconst hk ⊢
  subst hsym hconst
  -- from here on the template is a name, which keeps what it is made of out of the way
  generalize ht : (⟨inner.buffer.code, inner.symbols.current.definitions,
    parameters.length⟩ : Template) = t
  have hcode : inner.buffer.code = t.code := by rw [← ht]
  have hdefs : inner.symbols.current.definitions = t.locals := by rw [← ht]
  have hparams : parameters.length = t.parameters := by rw [← ht]
  have hp : t.parameters ≤ t.locals := hparams ▸ hdefs ▸ hencl.parameters_le
  have hl : t.locals ≤ 256 := hdefs ▸ hencl.locals_le
  have hlaid := hencl.laid
  rw [hcode, hdefs] at hlaid
  have hlater := push_later ⟨inner.constants, inner.symbols.leave.2, buffer₁, log₁⟩
    (.template inner.constants.size t)
  have hw₁ : Wf own ⟨inner.constants.push (.template inner.constants.size t),
      inner.symbols.leave.2, buffer₁, log₁⟩ :=
    ⟨hencl.wf.symbols, hencl.wf.own_le, PoolWf.push hencl.wf.templates hp hl hlaid⟩
  refine ⟨.function t.parameters t.locals inner.symbols.current.captures.toList rs, ?_,
    emit_wf _ hw₁, hencl.later.trans (haddsl.later.trans (hlater.trans (emit_later _ _))), ?_⟩
  · rw [Resolved.expr, hrs, ← hparams, ← hdefs]
    simp only [Option.bind_eq_bind, Option.bind_some, hencl.left]
    rfl
  · refine .function (haddsl.lift (hlater.trans (emit_later _ _))) (emit_holds _ ?_)
      Array.getElem?_push_size hp hl (hlaid.mono hlater.pool (.refl _))
    exact .cons (Nat.lt_succ_of_le hk) (.cons (Nat.lt_succ_of_le hcaps) .nil)

/-! ## Hash literals -/

/-- The pairs of a hash literal in the order in which they are compiled. -/
def ordered (pairs : List (Expr × Expr)) : List (Expr × Expr) :=
  pairs.mergeSort fun p q => p.1.render ≤ q.1.render

theorem pairCodes_eq (pairs : List (Expr × Expr)) : pairCodes pairs = pairs.map pairCode := by
  induction pairs with
  | nil => rw [pairCodes]; rfl
  | cons pair rest ih => rw [pairCodes, ih]; rfl

theorem pairParts_eq (pairs : List (Expr × Expr)) :
    Resolved.pairParts pairs = pairs.map Resolved.pairPart := by
  induction pairs with
  | nil => rw [Resolved.pairParts]; rfl
  | cons pair rest ih => rw [Resolved.pairParts, ih]; rfl

/-- Whatever is made of the pairs is put in their order if it goes by the text of the keys. -/
theorem map_sorted {α : Type} {f : Expr × Expr → String × α} (hf : ∀ p, (f p).1 = p.1.render)
    (pairs : List (Expr × Expr)) :
    ((pairs.map f).mergeSort fun a b => a.1 ≤ b.1).map Prod.snd =
      (ordered pairs).map fun p => (f p).2 := by
  rw [ordered, ← List.map_mergeSort (r := fun p q => p.1.render ≤ q.1.render), List.map_map]
  · rfl
  · intro p _ q _
    rw [hf p, hf q]

theorem pairCodes_sorted (pairs : List (Expr × Expr)) :
    ((pairCodes pairs).mergeSort fun a b => a.1 ≤ b.1).map Prod.snd =
      (ordered pairs).map fun p => (pairCode p).2 := by
  rw [pairCodes_eq]
  refine map_sorted (fun p => ?_) pairs
  rw [pairCode]

theorem pairParts_sorted (pairs : List (Expr × Expr)) :
    ((Resolved.pairParts pairs).mergeSort fun a b => a.1 ≤ b.1).map Prod.snd =
      (ordered pairs).map fun p => (Resolved.pairPart p).2 := by
  rw [pairParts_eq]
  refine map_sorted (fun p => ?_) pairs
  rw [Resolved.pairPart]

theorem pairs_adds {ps : List (Expr × Expr)} (ih : ∀ p ∈ ps, CompilesExpr p.1 ∧ CompilesExpr p.2)
    {own : Nat} {g g' : Codegen} (hw : g.Wf own)
    (h : g.inTurn (ps.map fun p => (pairCode p).2) = .ok g') :
    ∃ rs, Resolved.inTurn (ps.map fun p => (Resolved.pairPart p).2) g.symbols =
        some (rs, g'.symbols) ∧ rs.length = ps.length ∧ Adds own g g' (.pairs rs) := by
  induction ps generalizing g with
  | nil =>
      rw [List.map_nil, inTurn] at h
      cases h
      exact ⟨[], rfl, rfl, hw, .refl _, .pairsNil⟩
  | cons p ps ihps =>
      obtain ⟨key, value⟩ := p
      rw [List.map_cons, inTurn, pairCode] at h
      obtain ⟨g₂, h₂, h⟩ := Except.bind_eq_ok.1 h
      obtain ⟨g₁, h₁, h₂⟩ := Except.bind_eq_ok.1 h₂
      obtain ⟨⟨ihk, ihv⟩, ihrest⟩ := List.forall_mem_cons.1 ih
      obtain ⟨rk, hrk, hadds₁⟩ := ihk own g g₁ hw h₁
      obtain ⟨rv, hrv, hadds₂⟩ := ihv own g₁ g₂ hadds₁.wf h₂
      obtain ⟨rs, hrs, hlen, hadds₃⟩ := ihps ihrest hadds₂.wf h
      refine ⟨(rk, rv) :: rs, ?_, by rw [List.length_cons, List.length_cons, hlen], hadds₃.wf,
        hadds₁.later.trans (hadds₂.later.trans hadds₃.later),
        .pairsCons (hadds₁.lift (hadds₂.later.trans hadds₃.later)) (hadds₂.lift hadds₃.later)
          hadds₃.laid⟩
      rw [List.map_cons, Resolved.inTurn, Resolved.pairPart]
      simp only [Option.bind_eq_bind, Option.bind_some, hrk, hrv, hrs, Option.pure_def]

theorem compiles_hash (pairs : List (Expr × Expr))
    (ih : ∀ p ∈ pairs, CompilesExpr p.1 ∧ CompilesExpr p.2) : CompilesExpr (.hash pairs) := by
  intro own g g' hw h
  rw [expr] at h
  obtain ⟨g₁, h₁, h⟩ := Except.bind_eq_ok.1 h
  obtain ⟨n, hop, h⟩ := Except.bind_eq_ok.1 h
  cases h
  obtain ⟨hle, rfl⟩ := operand_eq_ok.1 hop
  rw [pairCodes_sorted] at h₁
  have hperm : (ordered pairs).Perm pairs := List.mergeSort_perm _ _
  obtain ⟨rs, hrs, hlen, hadds⟩ := pairs_adds (fun p hp => ih p (hperm.mem_iff.1 hp)) hw h₁
  rw [hperm.length_eq] at hlen
  rw [← hlen] at hle ⊢
  refine ⟨.hash rs, ?_, hadds.emit (fits_wide rfl rfl hle) Laid.hash⟩
  rw [Resolved.expr, pairParts_sorted, hrs]
  rfl

/-! ## Every tree -/

theorem hereditary : Hereditary CompilesExpr CompilesStmt where
  ident := compiles_ident
  int := compiles_int
  str := compiles_str
  bool := compiles_bool
  prefixOp := compiles_prefixOp
  infixOp := compiles_infixOp
  cond := compiles_cond
  function := compiles_function
  call := compiles_call
  index := compiles_index
  array := compiles_array
  hash := compiles_hash
  bind := compiles_bind
  ret := compiles_ret
  value := compiles_value

end Codegen

/-! ## Programs -/

namespace Compiler

/-- The number of globals that the programs so far have defined. -/
def globals (c : Compiler) : Nat :=
  c.symbols.current.definitions

/-- What holds of a compiler between two programs. -/
structure Wf (c : Compiler) : Prop where
  symbols : c.symbols.Wf
  top : c.symbols.outer = []
  templates : PoolWf c.constants c.globals

theorem new_wf : new.Wf := by
  obtain ⟨hw, htop, -⟩ := SymbolTable.builtinSymbols_spec
  refine ⟨hw, htop, fun k id t h => ?_⟩
  rw [new, Array.getElem?_empty] at h
  cases h

/-- From one compiler to the next a program was accepted, with the bytecode `b`. -/
structure Accepts (c : Compiler) (p : Program) (b : Bytecode) (c' : Compiler) : Prop where
  wf : c'.Wf
  bytecode : b = c'.bytecode
  pool : PoolLe c.constants c'.constants
  globals_le : c.globals ≤ c'.globals
  /-- The code is that of the resolved program. It reads what is defined now and stores to what
  the program itself defines. -/
  laid : ∃ rs, Resolved.block p c.symbols = some (rs, c'.symbols) ∧
    Laid b.constants ⟨c'.globals, c.globals, 0, 0, false⟩ b.code (.stmts rs) 0 b.code.size

/-- The state in which the compilation of the next program starts. -/
theorem Wf.start {c : Compiler} (hw : c.Wf) :
    c.start.Wf c.globals := by
  have hroom := SymbolTable.room_of_top hw.top c.globals
  refine ⟨hw.symbols, ?_, ?_⟩
  · show c.globals ≤ (c.symbols.room c.globals).globals
    rw [hroom]
    exact Nat.le_refl _
  · show PoolWf c.constants (c.symbols.room c.globals).globals
    rw [hroom]
    exact hw.templates

theorem compile_eq_ok {c c' : Compiler} {p : Program} {b : Bytecode} (hw : c.Wf)
    (h : c.compile p = (.ok b, c')) : c.Accepts p b c' := by
  have hroomc := SymbolTable.room_of_top hw.top c.globals
  rw [compile] at h
  split at h
  · next g hg =>
      obtain ⟨rs, hrs, hadds⟩ :=
        Codegen.block_adds_stmts (Codegen.hereditary.block p) hw.start hg
      injection h with hb hc
      injection hb with hb
      subst hb hc
      have htop : g.symbols.outer = [] := hadds.later.grows.outer_nil_iff.1 hw.top
      have hroomg := SymbolTable.room_of_top htop c.globals
      refine ⟨⟨hadds.wf.symbols, htop, ?_⟩, rfl, hadds.later.pool, ?_, rs, hrs, ?_⟩
      · have htemplates := hadds.wf.templates
        rw [hroomg] at htemplates
        exact htemplates
      · have hle : (c.symbols.room c.globals).globals ≤ (g.symbols.room c.globals).globals :=
          (hadds.later.grows.room_le c.globals).globals
        rw [hroomc, hroomg] at hle
        exact hle
      · have hlaid := hadds.laid
        rw [hroomg] at hlaid
        exact hlaid
  · cases h

theorem compile_wf {c : Compiler} (hw : c.Wf) (p : Program) : (c.compile p).2.Wf := by
  rcases h : c.compile p with ⟨b | e, c'⟩
  · rw [compile_eq_error hw.top h]
    exact ⟨hw.symbols, hw.top, hw.templates⟩
  · exact (compile_eq_ok hw h).wf

end Compiler

end Monkey
