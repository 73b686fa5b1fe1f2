import Monkey.Proofs.Effects
import Monkey.Proofs.Layout
import Monkey.Proofs.Parametric

/-!
# Code that cannot go wrong

`Safe K room code ip h` says that code may be run from `ip` on with `h` values on top of the slots
of its call: every instruction finds the values it takes, every operand refers to something, jumps
go forward, and only the top level comes to the end of its stream, with nothing left over. A
function that the code makes a closure of is safe from its start.

Laid out code is safe if what comes after it is. That form of the statement, with the rest of the
stream as a hypothesis, is what makes the branches of a conditional meet: both go on at the same
place with one value more. Code after a return has no such hypothesis, because nothing goes on.
-/

namespace Monkey

/-- What an instruction pushes is there. -/
def Instruction.Reads (K : Array Value) (room : Room) : Instruction → Prop
  | .constant k => (∃ n, K[k]? = some (.int n)) ∨ ∃ text, K[k]? = some (.str text)
  | .pushTrue | .pushFalse | .pushNull => True
  | .getGlobal k => k < room.globals
  | .getLocal k => k < room.slots
  | .getBuiltin k => k < Builtin.all.length
  | .getCaptured k => k < room.captures
  | .currentClosure => room.inner = true
  | _ => False

theorem Instruction.Reads.mono {K K' : Array Value} {room room' : Room} {i : Instruction}
    (h : i.Reads K room) (hK : PoolLe K K') (hroom : room.Le room') : i.Reads K' room' := by
  cases i <;> try exact h
  case constant k =>
    rcases h with ⟨n, hk⟩ | ⟨text, hk⟩
    · exact .inl ⟨n, hK _ _ hk⟩
    · exact .inr ⟨text, hK _ _ hk⟩
  case getGlobal k => exact Nat.lt_of_lt_of_le h hroom.globals
  case getLocal k => exact Nat.lt_of_lt_of_le h hroom.slots
  case getCaptured k => exact Nat.lt_of_lt_of_le h hroom.captures
  case currentClosure => exact hroom.inner.symm.trans h

theorem Symbol.Within.reads {s : Symbol} {room : Room} (h : s.Within room) (K : Array Value) :
    s.load.Reads K room := by
  rw [Symbol.Within] at h
  rw [Symbol.load]
  cases hs : s.storage <;> rw [hs] at h <;> exact h

/-- The code may be run from `ip` on with `h` values on top of its slots. -/
inductive Safe (K : Array Value) : Room → Code → Nat → Nat → Prop where
  | finish {room code ip} : room.inner = false → ip = code.size → Safe K room code ip 0
  | source {room code ip next h i} : code.Holds ip i next → i.Reads K room →
      Safe K room code next (h + 1) → Safe K room code ip h
  | unary {room code ip next h i} : code.Holds ip i next → (i.unary? (F := Template)).isSome →
      Safe K room code next (h + 1) → Safe K room code ip (h + 1)
  | binary {room code ip next h i} : code.Holds ip i next → (i.binary? (F := Template)).isSome →
      Safe K room code next (h + 1) → Safe K room code ip (h + 2)
  | array {room code ip next h n} : code.Holds ip (.array n) next →
      Safe K room code next (h + 1) → Safe K room code ip (h + n)
  | hash {room code ip next h n} : code.Holds ip (.hash n) next →
      Safe K room code next (h + 1) → Safe K room code ip (h + n)
  | closure {room code ip next h k n id} {t : Template} : code.Holds ip (.closure k n) next →
      K[k]? = some (.template id t) → t.parameters ≤ t.locals →
      Safe K (room.within t.locals n) t.code 0 0 →
      Safe K room code next (h + 1) → Safe K room code ip (h + n)
  | call {room code ip next h n} : code.Holds ip (.call n) next →
      Safe K room code next (h + 1) → Safe K room code ip (h + (n + 1))
  | pop {room code ip next h} : code.Holds ip .pop next →
      Safe K room code next h → Safe K room code ip (h + 1)
  | setGlobal {room code ip next h k} : code.Holds ip (.setGlobal k) next → room.inner = false →
      room.own ≤ k → k < room.globals → Safe K room code next h → Safe K room code ip (h + 1)
  | setLocal {room code ip next h k} : code.Holds ip (.setLocal k) next → k < room.slots →
      Safe K room code next h → Safe K room code ip (h + 1)
  | jump {room code ip next h target} : code.Holds ip (.jump target) next → ip < target →
      Safe K room code target h → Safe K room code ip h
  | jumpUnless {room code ip next h target} : code.Holds ip (.jumpUnless target) next →
      ip < target → Safe K room code target h → Safe K room code next h →
      Safe K room code ip (h + 1)
  | returnValue {room code ip next h} : code.Holds ip .returnValue next →
      Safe K room code ip (h + 1)
  | returnNull {room code ip next h} : code.Holds ip .returnNull next → room.inner = true →
      Safe K room code ip h

namespace Safe

variable {K K' : Array Value} {room room' : Room} {code : Code} {ip h : Nat}

theorem mono (hsafe : Safe K room code ip h) (hK : PoolLe K K') (hroom : room.Le room') :
    Safe K' room' code ip h := by
  induction hsafe generalizing room' with
  | finish hinner hip => exact .finish (hroom.inner ▸ hinner) hip
  | source hi hr _ ih => exact .source hi (hr.mono hK hroom) (ih hroom)
  | unary hi hop _ ih => exact .unary hi hop (ih hroom)
  | binary hi hop _ ih => exact .binary hi hop (ih hroom)
  | array hi _ ih => exact .array hi (ih hroom)
  | hash hi _ ih => exact .hash hi (ih hroom)
  | closure hi hk hp _ _ ihbody ih =>
      exact .closure hi (hK _ _ hk) hp (ihbody (hroom.within _ _)) (ih hroom)
  | call hi _ ih => exact .call hi (ih hroom)
  | pop hi _ ih => exact .pop hi (ih hroom)
  | setGlobal hi hinner hown hk _ ih =>
      exact .setGlobal hi (hroom.inner ▸ hinner) (hroom.own.trans hown)
        (Nat.lt_of_lt_of_le hk hroom.globals) (ih hroom)
  | setLocal hi hk _ ih => exact .setLocal hi (Nat.lt_of_lt_of_le hk hroom.slots) (ih hroom)
  | jump hi hlt _ ih => exact .jump hi hlt (ih hroom)
  | jumpUnless hi hlt _ _ ih₁ ih₂ => exact .jumpUnless hi hlt (ih₁ hroom) (ih₂ hroom)
  | returnValue hi => exact .returnValue hi
  | returnNull hi hinner => exact .returnNull hi (hroom.inner ▸ hinner)

theorem le_size (hsafe : Safe K room code ip h) : ip ≤ code.size := by
  cases hsafe with
  | finish _ hip => exact hip.le
  | source hi | unary hi | binary hi | array hi | hash hi | closure hi | call hi | pop hi
  | setGlobal hi | setLocal hi | jump hi | jumpUnless hi | returnValue hi | returnNull hi =>
      exact hi.lt.le.trans hi.le_size

end Safe

/-! ## Laid out code is safe -/

namespace Resolved

/-- The values that a block leaves on the stack. -/
def Tail.pushes : Tail → Nat
  | .branch => 1
  | .body => 0

/-- The values that a part leaves on the stack. -/
def Part.pushes : Part → Nat
  | .expr _ => 1
  | .exprs es => es.length
  | .pairs ps => 2 * ps.length
  | .loads symbols => symbols.length
  | .stmt _ | .stmts _ => 0
  | .block tail _ => tail.pushes

/-- Whether a run can come out at the end of a part. -/
def Part.Continues : Part → Prop
  | .stmt s => ∀ e, s ≠ .ret e
  | .block tail _ => tail = .branch
  | _ => True

/-- Only functions have bodies. -/
def Part.Inside (room : Room) : Part → Prop
  | .block tail _ => tail = .body → room.inner = true
  | _ => True

theorem Part.inside_branch {room : Room} {ss : List Stmt} :
    (Part.block .branch ss).Inside room := by
  intro h
  cases h

theorem Part.not_continues_body {ss : List Stmt} : ¬(Part.block .body ss).Continues := by
  intro h
  cases h

theorem Part.continues_bind {s : Symbol} {e : Expr} : (Part.stmt (.bind s e)).Continues := by
  intro e' h
  cases h

theorem Part.continues_value {e : Expr} : (Part.stmt (.expr e)).Continues := by
  intro e' h
  cases h

theorem Laid.safe {K : Array Value} {room : Room} {code : Code} {part : Part} {lo hi : Nat}
    (hlaid : Laid K room code part lo hi) (hin : part.Inside room) {h : Nat}
    (hrest : part.Continues → Safe K room code hi (h + part.pushes)) : Safe K room code lo h := by
  induction hlaid generalizing h with
  | symbol hs hi => exact .source hi (hs.reads K) (hrest trivial)
  | int hi hk => exact .source hi (.inl ⟨_, hk⟩) (hrest trivial)
  | str hi hk => exact .source hi (.inr ⟨_, hk⟩) (hrest trivial)
  | @bool _ _ _ _ value hi =>
      refine .source hi ?_ (hrest trivial)
      cases value <;> trivial
  | @unary _ _ _ _ _ _ op _ hi ih =>
      refine ih trivial fun _ => .unary hi ?_ (hrest trivial)
      cases op <;> rfl
  | @binary _ _ _ _ _ _ _ _ op _ _ hi ih₁ ih₂ =>
      refine ih₁ trivial fun _ => ih₂ trivial fun _ => .binary hi ?_ (hrest trivial)
      rcases op with op | wanted
      · cases op <;> rfl
      · cases wanted <;> rfl
  | less _ _ hi ih₁ ih₂ | index _ _ hi ih₁ ih₂ =>
      exact ih₁ trivial fun _ => ih₂ trivial fun _ => .binary hi rfl (hrest trivial)
  | cond _ htest ha hexit hb ihc iha ihb =>
      have h₁ := htest.lt
      have h₂ := ha.le
      have h₃ := hexit.lt
      have h₄ := hb.le
      have hjoin := hrest trivial
      refine ihc trivial fun _ => .jumpUnless htest (by omega) ?_ ?_
      · exact ihb Part.inside_branch fun _ => hjoin
      · exact iha Part.inside_branch fun _ => .jump hexit (by omega) hjoin
  | function _ hi hk hp _ _ ih ihbody =>
      exact ih trivial fun _ => .closure hi hk hp
        (ihbody (fun _ => rfl) fun h => absurd h Part.not_continues_body) (hrest trivial)
  | call _ _ hi ih₁ ih₂ =>
      refine ih₁ trivial fun _ => ih₂ trivial fun _ => ?_
      have hcall := Safe.call (h := h) hi (hrest trivial)
      rwa [Nat.add_comm _ 1, ← Nat.add_assoc] at hcall
  | array _ hi ih => exact ih trivial fun _ => .array hi (hrest trivial)
  | hash _ hi ih => exact ih trivial fun _ => .hash hi (hrest trivial)
  | exprsNil | pairsNil | loadsNil | stmtsNil => exact hrest trivial
  | exprsCons _ _ ih₁ ih₂ =>
      refine ih₁ trivial fun _ => ih₂ trivial fun _ => ?_
      have hsafe := hrest trivial
      rwa [Part.pushes, List.length_cons, Nat.add_comm _ 1, ← Nat.add_assoc] at hsafe
  | pairsCons _ _ _ ih₁ ih₂ ih₃ =>
      refine ih₁ trivial fun _ => ih₂ trivial fun _ => ih₃ trivial fun _ => ?_
      have hsafe := hrest trivial
      rwa [Part.pushes, List.length_cons, Nat.mul_succ, Nat.add_comm _ 2, ← Nat.add_assoc] at hsafe
  | loadsCons hs hi _ ih =>
      refine .source hi (hs.reads K) (ih trivial fun _ => ?_)
      have hsafe := hrest trivial
      rwa [Part.pushes, List.length_cons, Nat.add_comm _ 1, ← Nat.add_assoc] at hsafe
  | @bind _ _ _ _ _ _ s _ hs hi ih =>
      refine ih trivial fun _ => ?_
      have hsafe := hrest Part.continues_bind
      rw [Symbol.Storable] at hs
      rw [Symbol.save] at hi
      cases hst : s.storage <;> rw [hst] at hs hi
      case global => exact .setGlobal hi hs.1 hs.2.1 hs.2.2 hsafe
      case slot => exact .setLocal hi hs hsafe
      all_goals exact hs.elim
  | ret _ hi ih => exact ih trivial fun _ => .returnValue hi
  | value _ hi ih => exact ih trivial fun _ => .pop hi (hrest Part.continues_value)
  | stmtsCons _ _ ih₁ ih₂ =>
      exact ih₁ trivial fun _ => ih₂ trivial fun _ => hrest trivial
  | @blockNil _ _ _ _ tail hi =>
      cases tail with
      | branch => exact .source hi trivial (hrest rfl)
      | body => exact .returnNull hi (hin rfl)
  | blockBind _ _ ih₁ ih₂ | blockCons _ _ ih₁ ih₂ =>
      exact ih₁ trivial fun _ => ih₂ hin hrest
  | blockRet _ ih => exact ih trivial fun hret => absurd rfl (hret _)
  | @blockValue _ _ _ _ _ _ tail _ hc ih =>
      cases tail with
      | branch => exact ih trivial fun _ => hc ▸ hrest rfl
      | body => exact ih trivial fun _ => .returnValue hc

end Resolved

/-! ## Sound values -/

/-- The body is that of a function of the pool, and safe in a closure with `count` captured values.
It reads globals below `globals`. -/
def SafeBody (K : Array Value) (globals : Nat) (t t' : Template) (count : Nat) : Prop :=
  t = t' ∧ t.parameters ≤ t.locals ∧ Safe K ⟨globals, 0, t.locals, count, true⟩ t.code 0 0 ∧
    ∃ (k : Nat) (id : Identity), K[k]? = some (.template id t)

/-- Every closure in the value has a safe body of the pool. -/
def Sound (K : Array Value) (globals : Nat) (v : Value) : Prop :=
  Related (SafeBody K globals) v v

namespace Sound

variable {K K' : Array Value} {globals globals' : Nat} {v : Value}

theorem mono (h : Sound K globals v) (hK : PoolLe K K') (hg : globals ≤ globals') :
    Sound K' globals' v := by
  refine Related.mono (fun t t' n ht => ?_) h
  obtain ⟨heq, hp, hsafe, k, id, hk⟩ := ht
  exact ⟨heq, hp, hsafe.mono hK ⟨hg, Nat.le_refl _, Nat.le_refl _, Nat.le_refl _, rfl⟩, k, id,
    hK _ _ hk⟩

theorem list_iff {vs : List Value} :
    List.Forall₂ (Related (SafeBody K globals)) vs vs ↔ ∀ v ∈ vs, Sound K globals v :=
  List.forall₂_same

theorem of_closure {id : Identity} {t : Template} {vs : List Value}
    (h : Sound K globals (.closure id t vs)) :
    t.parameters ≤ t.locals ∧ Safe K ⟨globals, 0, t.locals, vs.length, true⟩ t.code 0 0 ∧
      ∀ v ∈ vs, Sound K globals v := by
  cases h with
  | closure hbody hvs => exact ⟨hbody.2.1, hbody.2.2.1, list_iff.1 hvs⟩

/-- A function of the pool can be found there. -/
theorem exists_template {id : Identity} {t : Template} {vs : List Value}
    (h : Sound K globals (.closure id t vs)) :
    ∃ (k : Nat) (id : Identity), K[k]? = some (.template id t) := by
  cases h with
  | closure hbody _ => exact hbody.2.2.2

theorem closure {id id' : Identity} {t : Template} {vs : List Value} {k : Nat}
    (hk : K[k]? = some (.template id' t)) (hp : t.parameters ≤ t.locals)
    (hsafe : Safe K ⟨globals, 0, t.locals, vs.length, true⟩ t.code 0 0)
    (hvs : ∀ v ∈ vs, Sound K globals v) : Sound K globals (.closure id t vs) :=
  Related.closure (R := SafeBody K globals) ⟨rfl, hp, hsafe, k, id', hk⟩ (list_iff.2 hvs)

theorem unary {i : Instruction} {f : Value → Except Fault Value} (hi : i.unary? = some f)
    (h : Sound K globals v) : RelatedAnswer (SafeBody K globals) (f v) (f v) := by
  cases i <;> cases hi
  · exact Related.negate h
  · exact .bool

theorem binary {i : Instruction} {f : Value → Value → Except Fault Value} {w : Value}
    (hi : i.binary? = some f) (h : Sound K globals v) (h' : Sound K globals w) :
    RelatedAnswer (SafeBody K globals) (f v w) (f v w) := by
  cases i <;> cases hi
  case equal | notEqual => exact .bool
  case index => exact Related.atIndex h h'
  all_goals exact Related.binary _ h h'

end Sound

end Monkey
