import Monkey.Proofs.Placement
import Monkey.Proofs.Resolved

/-!
# How resolved programs lie in a stream

`Laid K room code part lo hi` says that the bytes of `code` from `lo` up to `hi` are the code of a
part of a resolved program, with its constants in the pool `K` and its symbols within `room`.
The derivation has one rule for each way a part is laid out, jumps with the targets they end up
with, so it says in one place what the compiler does in many: placeholders that are patched later,
pops that are taken back at the end of a branch or become the return of a function.

Everything that is proved of compiled code is an induction over this relation. What the code
of a function looks like is part of the derivation of the literal that makes it, because there its
template is known.
-/

namespace Monkey

/-! ## What a body may refer to -/

/-- What the code of a body may refer to. -/
structure Room where
  /-- The globals that may be read. -/
  globals : Nat
  /-- The first global that the top level may store to. -/
  own : Nat
  /-- The slots of a call. -/
  slots : Nat
  /-- The captured values of the running closure. -/
  captures : Nat
  /-- Whether the body is that of a function. -/
  inner : Bool

namespace Room

/-- A room that has all that another one has. -/
structure Le (room room' : Room) : Prop where
  globals : room.globals ≤ room'.globals
  own : room'.own ≤ room.own
  slots : room.slots ≤ room'.slots
  captures : room.captures ≤ room'.captures
  inner : room.inner = room'.inner

theorem Le.refl (room : Room) : room.Le room :=
  ⟨Nat.le_refl _, Nat.le_refl _, Nat.le_refl _, Nat.le_refl _, rfl⟩

/-- The room of a function body in a body with this room. -/
def within (room : Room) (slots captures : Nat) : Room :=
  { room with slots, captures, inner := true }

theorem Le.within {room room' : Room} (h : room.Le room') (slots captures : Nat) :
    (room.within slots captures).Le (room'.within slots captures) :=
  ⟨h.globals, h.own, Nat.le_refl _, Nat.le_refl _, rfl⟩

end Room

namespace Symbol

/-- The symbol stands for something in the room. -/
def Within (s : Symbol) (room : Room) : Prop :=
  match s.storage with
  | .global => s.index < room.globals
  | .slot => s.index < room.slots
  | .builtin => s.index < Builtin.all.length
  | .captured => s.index < room.captures
  | .self => room.inner = true

/-- The symbol is one that a `let` of the body defines. -/
def Storable (s : Symbol) (room : Room) : Prop :=
  match s.storage with
  | .global => room.inner = false ∧ room.own ≤ s.index ∧ s.index < room.globals
  | .slot => s.index < room.slots
  | _ => False

theorem Within.mono {s : Symbol} {room room' : Room} (h : s.Within room) (hle : room.Le room') :
    s.Within room' := by
  rw [Within] at h ⊢
  split at h
  · exact Nat.lt_of_lt_of_le h hle.globals
  · exact Nat.lt_of_lt_of_le h hle.slots
  · exact h
  · exact Nat.lt_of_lt_of_le h hle.captures
  · exact hle.inner ▸ h

theorem Storable.mono {s : Symbol} {room room' : Room} (h : s.Storable room)
    (hle : room.Le room') : s.Storable room' := by
  rw [Storable] at h ⊢
  split at h
  · exact ⟨hle.inner ▸ h.1, hle.own.trans h.2.1, Nat.lt_of_lt_of_le h.2.2 hle.globals⟩
  · exact Nat.lt_of_lt_of_le h hle.slots
  · exact h.elim

/-- The instruction that pushes what the symbol stands for. -/
def load (s : Symbol) : Instruction :=
  match s.storage with
  | .global => .getGlobal s.index
  | .slot => .getLocal s.index
  | .builtin => .getBuiltin s.index
  | .captured => .getCaptured s.index
  | .self => .currentClosure

/-- The instruction that stores under the symbol. -/
def save (s : Symbol) : Instruction :=
  match s.storage with
  | .global => .setGlobal s.index
  | _ => .setLocal s.index

end Symbol

/-- A pool that has every constant of another one in its place. -/
def PoolLe (K K' : Array Value) : Prop :=
  ∀ (k : Nat) (v : Value), K[k]? = some v → K'[k]? = some v

theorem PoolLe.refl (K : Array Value) : PoolLe K K := fun _ _ h => h

theorem PoolLe.trans {a b c : Array Value} (h₁ : PoolLe a b) (h₂ : PoolLe b c) : PoolLe a c :=
  fun k v h => h₂ k v (h₁ k v h)

namespace Resolved

/-- The instruction of a prefix operator. -/
def UnaryOp.instruction : UnaryOp → Instruction
  | .negate => .negate
  | .not => .not

/-- The instruction of an infix operator. -/
def BinaryOp.instruction : BinaryOp → Instruction
  | .arithmetic .add => .add
  | .arithmetic .subtract => .subtract
  | .arithmetic .multiply => .multiply
  | .arithmetic .divide => .divide
  | .arithmetic .greater => .greater
  | .equality true => .equal
  | .equality false => .notEqual

/-- The expression of a statement. -/
def Stmt.value : Stmt → Expr
  | .bind _ e => e
  | .ret e => e
  | .expr e => e

/-- The instruction after the expression of a statement. -/
def Stmt.ending : Stmt → Instruction
  | .bind s _ => s.save
  | .ret _ => .returnValue
  | .expr _ => .pop

/-- What a block is for: the branch of a conditional, which leaves a value, or the body of a
function, which returns one. -/
inductive Tail where
  | branch
  | body

/-- The instruction that ends a block which has no value of its own. -/
def Tail.ofNothing : Tail → Instruction
  | .branch => .pushNull
  | .body => .returnNull

/-- What stands after the expression that ends a block. -/
def Tail.Closes (code : Code) : Tail → Nat → Nat → Prop
  | .branch, lo, hi => lo = hi
  | .body, lo, hi => code.Holds lo .returnValue hi

/-- A part of a program that has code of its own. -/
inductive Part where
  | expr (e : Expr)
  | stmt (s : Stmt)
  | exprs (es : List Expr)
  | pairs (ps : List (Expr × Expr))
  /-- The captured values of a closure, before it is made. -/
  | loads (symbols : List Symbol)
  | stmts (ss : List Stmt)
  | block (tail : Tail) (ss : List Stmt)

/-- The code of a part lies in the stream from `lo` up to `hi`. -/
inductive Laid (K : Array Value) : Room → Code → Part → Nat → Nat → Prop where
  | symbol {room code lo hi} {s : Symbol} : s.Within room → code.Holds lo s.load hi →
      Laid K room code (.expr (.symbol s)) lo hi
  | int {room code lo hi k value} : code.Holds lo (.constant k) hi → K[k]? = some (.int value) →
      Laid K room code (.expr (.int value)) lo hi
  | str {room code lo hi k text} : code.Holds lo (.constant k) hi → K[k]? = some (.str text) →
      Laid K room code (.expr (.str text)) lo hi
  | bool {room code lo hi value} :
      code.Holds lo (if value then .pushTrue else .pushFalse) hi →
      Laid K room code (.expr (.bool value)) lo hi
  | unary {room code lo m hi e} {op : UnaryOp} : Laid K room code (.expr e) lo m →
      code.Holds m op.instruction hi → Laid K room code (.expr (.unary op e)) lo hi
  | binary {room code lo m n hi l r} {op : BinaryOp} : Laid K room code (.expr l) lo m →
      Laid K room code (.expr r) m n → code.Holds n op.instruction hi →
      Laid K room code (.expr (.binary op l r)) lo hi
  | less {room code lo m n hi l r} : Laid K room code (.expr r) lo m →
      Laid K room code (.expr l) m n → code.Holds n .greater hi →
      Laid K room code (.expr (.less l r)) lo hi
  | cond {room code lo m₁ m₂ m₃ m₄ hi c a b} : Laid K room code (.expr c) lo m₁ →
      code.Holds m₁ (.jumpUnless m₄) m₂ → Laid K room code (.block .branch a) m₂ m₃ →
      code.Holds m₃ (.jump hi) m₄ → Laid K room code (.block .branch b) m₄ hi →
      Laid K room code (.expr (.cond c a b)) lo hi
  | function {room code lo m hi k id captures body} {t : Template} :
      Laid K room code (.loads captures) lo m → code.Holds m (.closure k captures.length) hi →
      K[k]? = some (.template id t) → t.parameters ≤ t.locals → t.locals ≤ 256 →
      Laid K (room.within t.locals captures.length) t.code (.block .body body) 0 t.code.size →
      Laid K room code (.expr (.function t.parameters t.locals captures body)) lo hi
  | call {room code lo m n hi f args} : Laid K room code (.expr f) lo m →
      Laid K room code (.exprs args) m n → code.Holds n (.call args.length) hi →
      Laid K room code (.expr (.call f args)) lo hi
  | index {room code lo m n hi c p} : Laid K room code (.expr c) lo m →
      Laid K room code (.expr p) m n → code.Holds n .index hi →
      Laid K room code (.expr (.index c p)) lo hi
  | array {room code lo m hi es} : Laid K room code (.exprs es) lo m →
      code.Holds m (.array es.length) hi → Laid K room code (.expr (.array es)) lo hi
  | hash {room code lo m hi ps} : Laid K room code (.pairs ps) lo m →
      code.Holds m (.hash (2 * ps.length)) hi → Laid K room code (.expr (.hash ps)) lo hi
  | exprsNil {room code lo} : Laid K room code (.exprs []) lo lo
  | exprsCons {room code lo m hi e es} : Laid K room code (.expr e) lo m →
      Laid K room code (.exprs es) m hi → Laid K room code (.exprs (e :: es)) lo hi
  | pairsNil {room code lo} : Laid K room code (.pairs []) lo lo
  | pairsCons {room code lo m n hi k v ps} : Laid K room code (.expr k) lo m →
      Laid K room code (.expr v) m n → Laid K room code (.pairs ps) n hi →
      Laid K room code (.pairs ((k, v) :: ps)) lo hi
  | loadsNil {room code lo} : Laid K room code (.loads []) lo lo
  | loadsCons {room code lo m hi ss} {s : Symbol} : s.Within room → code.Holds lo s.load m →
      Laid K room code (.loads ss) m hi → Laid K room code (.loads (s :: ss)) lo hi
  | bind {room code lo m hi e} {s : Symbol} : Laid K room code (.expr e) lo m →
      s.Storable room → code.Holds m s.save hi → Laid K room code (.stmt (.bind s e)) lo hi
  | ret {room code lo m hi e} : Laid K room code (.expr e) lo m →
      code.Holds m .returnValue hi → Laid K room code (.stmt (.ret e)) lo hi
  | value {room code lo m hi e} : Laid K room code (.expr e) lo m →
      code.Holds m .pop hi → Laid K room code (.stmt (.expr e)) lo hi
  | stmtsNil {room code lo} : Laid K room code (.stmts []) lo lo
  | stmtsCons {room code lo m hi s ss} : Laid K room code (.stmt s) lo m →
      Laid K room code (.stmts ss) m hi → Laid K room code (.stmts (s :: ss)) lo hi
  | blockNil {room code lo hi} {tail : Tail} : code.Holds lo tail.ofNothing hi →
      Laid K room code (.block tail []) lo hi
  | blockBind {room code lo m hi s e} {tail : Tail} : Laid K room code (.stmt (.bind s e)) lo m →
      Laid K room code (.block tail []) m hi → Laid K room code (.block tail [.bind s e]) lo hi
  | blockRet {room code lo hi e} {tail : Tail} : Laid K room code (.stmt (.ret e)) lo hi →
      Laid K room code (.block tail [.ret e]) lo hi
  | blockValue {room code lo m hi e} {tail : Tail} : Laid K room code (.expr e) lo m →
      tail.Closes code m hi → Laid K room code (.block tail [.expr e]) lo hi
  | blockCons {room code lo m hi s s' ss} {tail : Tail} : Laid K room code (.stmt s) lo m →
      Laid K room code (.block tail (s' :: ss)) m hi →
      Laid K room code (.block tail (s :: s' :: ss)) lo hi

namespace Laid

variable {K K' : Array Value} {room room' : Room} {code code' : Code} {part : Part} {lo hi : Nat}

theorem le (h : Laid K room code part lo hi) : lo ≤ hi := by
  induction h with
  | symbol _ hi | int hi _ | str hi _ | bool hi | blockNil hi => exact hi.lt.le
  | unary _ hi ih | array _ hi ih | hash _ hi ih | bind _ _ hi ih | ret _ hi ih | value _ hi ih
  | function _ hi _ _ _ _ ih _ =>
      exact ih.trans hi.lt.le
  | binary _ _ hi ih₁ ih₂ | less _ _ hi ih₁ ih₂ | call _ _ hi ih₁ ih₂ | index _ _ hi ih₁ ih₂ =>
      exact (ih₁.trans ih₂).trans hi.lt.le
  | cond _ h₁ _ h₂ _ ihc iha ihb =>
      exact ihc.trans (h₁.lt.le.trans (iha.trans (h₂.lt.le.trans ihb)))
  | exprsNil | pairsNil | loadsNil | stmtsNil => exact Nat.le_refl _
  | exprsCons _ _ ih₁ ih₂ | stmtsCons _ _ ih₁ ih₂ | blockBind _ _ ih₁ ih₂
  | blockCons _ _ ih₁ ih₂ =>
      exact ih₁.trans ih₂
  | pairsCons _ _ _ ih₁ ih₂ ih₃ => exact ih₁.trans (ih₂.trans ih₃)
  | loadsCons _ hi _ ih => exact hi.lt.le.trans ih
  | blockRet _ ih => exact ih
  | @blockValue _ _ _ _ _ _ tail _ hc ih =>
      cases tail with
      | branch => exact hc ▸ ih
      | body => exact ih.trans hc.lt.le

theorem congr (h : Laid K room code part lo hi) (hag : Code.Agree code code' lo hi) :
    Laid K room code' part lo hi := by
  induction h generalizing code' with
  | symbol hs hi => exact .symbol hs (hi.congr hag)
  | int hi hk => exact .int (hi.congr hag) hk
  | str hi hk => exact .str (hi.congr hag) hk
  | bool hi => exact .bool (hi.congr hag)
  | unary h₁ hi ih =>
      exact .unary (ih (hag.mono (Nat.le_refl _) hi.lt.le))
        (hi.congr (hag.mono h₁.le (Nat.le_refl _)))
  | binary h₁ h₂ hi ih₁ ih₂ =>
      have := h₁.le; have := h₂.le; have := hi.lt
      exact .binary (ih₁ (hag.mono (by omega) (by omega))) (ih₂ (hag.mono (by omega) (by omega)))
        (hi.congr (hag.mono (by omega) (by omega)))
  | less h₁ h₂ hi ih₁ ih₂ =>
      have := h₁.le; have := h₂.le; have := hi.lt
      exact .less (ih₁ (hag.mono (by omega) (by omega))) (ih₂ (hag.mono (by omega) (by omega)))
        (hi.congr (hag.mono (by omega) (by omega)))
  | cond hc h₁ ha h₂ hb ihc iha ihb =>
      have := hc.le; have := h₁.lt; have := ha.le; have := h₂.lt; have := hb.le
      exact .cond (ihc (hag.mono (by omega) (by omega))) (h₁.congr (hag.mono (by omega) (by omega)))
        (iha (hag.mono (by omega) (by omega))) (h₂.congr (hag.mono (by omega) (by omega)))
        (ihb (hag.mono (by omega) (by omega)))
  | function h₁ hi hk hp hl hbody ih _ =>
      exact .function (ih (hag.mono (Nat.le_refl _) hi.lt.le))
        (hi.congr (hag.mono h₁.le (Nat.le_refl _))) hk hp hl hbody
  | call h₁ h₂ hi ih₁ ih₂ =>
      have := h₁.le; have := h₂.le; have := hi.lt
      exact .call (ih₁ (hag.mono (by omega) (by omega))) (ih₂ (hag.mono (by omega) (by omega)))
        (hi.congr (hag.mono (by omega) (by omega)))
  | index h₁ h₂ hi ih₁ ih₂ =>
      have := h₁.le; have := h₂.le; have := hi.lt
      exact .index (ih₁ (hag.mono (by omega) (by omega))) (ih₂ (hag.mono (by omega) (by omega)))
        (hi.congr (hag.mono (by omega) (by omega)))
  | array h₁ hi ih =>
      exact .array (ih (hag.mono (Nat.le_refl _) hi.lt.le))
        (hi.congr (hag.mono h₁.le (Nat.le_refl _)))
  | hash h₁ hi ih =>
      exact .hash (ih (hag.mono (Nat.le_refl _) hi.lt.le))
        (hi.congr (hag.mono h₁.le (Nat.le_refl _)))
  | exprsNil => exact .exprsNil
  | exprsCons h₁ h₂ ih₁ ih₂ =>
      exact .exprsCons (ih₁ (hag.mono (Nat.le_refl _) h₂.le)) (ih₂ (hag.mono h₁.le (Nat.le_refl _)))
  | pairsNil => exact .pairsNil
  | pairsCons h₁ h₂ h₃ ih₁ ih₂ ih₃ =>
      have := h₁.le; have := h₂.le; have := h₃.le
      exact .pairsCons (ih₁ (hag.mono (by omega) (by omega))) (ih₂ (hag.mono (by omega) (by omega)))
        (ih₃ (hag.mono (by omega) (by omega)))
  | loadsNil => exact .loadsNil
  | loadsCons hs hi h₁ ih =>
      exact .loadsCons hs (hi.congr (hag.mono (Nat.le_refl _) h₁.le))
        (ih (hag.mono hi.lt.le (Nat.le_refl _)))
  | bind h₁ hs hi ih =>
      exact .bind (ih (hag.mono (Nat.le_refl _) hi.lt.le)) hs
        (hi.congr (hag.mono h₁.le (Nat.le_refl _)))
  | ret h₁ hi ih =>
      exact .ret (ih (hag.mono (Nat.le_refl _) hi.lt.le))
        (hi.congr (hag.mono h₁.le (Nat.le_refl _)))
  | value h₁ hi ih =>
      exact .value (ih (hag.mono (Nat.le_refl _) hi.lt.le))
        (hi.congr (hag.mono h₁.le (Nat.le_refl _)))
  | stmtsNil => exact .stmtsNil
  | stmtsCons h₁ h₂ ih₁ ih₂ =>
      exact .stmtsCons (ih₁ (hag.mono (Nat.le_refl _) h₂.le)) (ih₂ (hag.mono h₁.le (Nat.le_refl _)))
  | blockNil hi => exact .blockNil (hi.congr hag)
  | blockBind h₁ h₂ ih₁ ih₂ =>
      exact .blockBind (ih₁ (hag.mono (Nat.le_refl _) h₂.le)) (ih₂ (hag.mono h₁.le (Nat.le_refl _)))
  | blockRet _ ih => exact .blockRet (ih hag)
  | @blockValue _ _ _ _ _ _ tail h₁ hc ih =>
      cases tail with
      | branch => exact .blockValue (ih (hc ▸ hag)) hc
      | body =>
          have hc : Code.Holds _ _ _ _ := hc
          exact .blockValue (ih (hag.mono (Nat.le_refl _) hc.lt.le))
            (hc.congr (hag.mono h₁.le (Nat.le_refl _)))
  | blockCons h₁ h₂ ih₁ ih₂ =>
      exact .blockCons (ih₁ (hag.mono (Nat.le_refl _) h₂.le)) (ih₂ (hag.mono h₁.le (Nat.le_refl _)))

theorem mono (h : Laid K room code part lo hi) (hK : PoolLe K K') (hroom : room.Le room') :
    Laid K' room' code part lo hi := by
  induction h generalizing room' with
  | symbol hs hi => exact .symbol (hs.mono hroom) hi
  | int hi hk => exact .int hi (hK _ _ hk)
  | str hi hk => exact .str hi (hK _ _ hk)
  | bool hi => exact .bool hi
  | unary _ hi ih => exact .unary (ih hroom) hi
  | binary _ _ hi ih₁ ih₂ => exact .binary (ih₁ hroom) (ih₂ hroom) hi
  | less _ _ hi ih₁ ih₂ => exact .less (ih₁ hroom) (ih₂ hroom) hi
  | cond _ h₁ _ h₂ _ ihc iha ihb => exact .cond (ihc hroom) h₁ (iha hroom) h₂ (ihb hroom)
  | function _ hi hk hp hl _ ih ihbody =>
      exact .function (ih hroom) hi (hK _ _ hk) hp hl (ihbody (hroom.within _ _))
  | call _ _ hi ih₁ ih₂ => exact .call (ih₁ hroom) (ih₂ hroom) hi
  | index _ _ hi ih₁ ih₂ => exact .index (ih₁ hroom) (ih₂ hroom) hi
  | array _ hi ih => exact .array (ih hroom) hi
  | hash _ hi ih => exact .hash (ih hroom) hi
  | exprsNil => exact .exprsNil
  | exprsCons _ _ ih₁ ih₂ => exact .exprsCons (ih₁ hroom) (ih₂ hroom)
  | pairsNil => exact .pairsNil
  | pairsCons _ _ _ ih₁ ih₂ ih₃ => exact .pairsCons (ih₁ hroom) (ih₂ hroom) (ih₃ hroom)
  | loadsNil => exact .loadsNil
  | loadsCons hs hi _ ih => exact .loadsCons (hs.mono hroom) hi (ih hroom)
  | bind _ hs hi ih => exact .bind (ih hroom) (hs.mono hroom) hi
  | ret _ hi ih => exact .ret (ih hroom) hi
  | value _ hi ih => exact .value (ih hroom) hi
  | stmtsNil => exact .stmtsNil
  | stmtsCons _ _ ih₁ ih₂ => exact .stmtsCons (ih₁ hroom) (ih₂ hroom)
  | blockNil hi => exact .blockNil hi
  | blockBind _ _ ih₁ ih₂ => exact .blockBind (ih₁ hroom) (ih₂ hroom)
  | blockRet _ ih => exact .blockRet (ih hroom)
  | blockValue _ hc ih => exact .blockValue (ih hroom) hc
  | blockCons _ _ ih₁ ih₂ => exact .blockCons (ih₁ hroom) (ih₂ hroom)

end Laid

end Resolved

end Monkey
