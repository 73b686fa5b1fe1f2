import Monkey.Proofs.Compiled

/-!
# Compiled programs pass a bytecode verifier

A verifier looks at a program without running it. It takes each stream apart into whole
instructions, checks that every operand refers to something that is there, and that every jump goes
forward to an instruction of its own stream. `Bytecode.Verified` is that check, and every program
that a compiler accepts passes it, whatever was compiled before.

`Listed` is what an induction over the layout carries: the instructions of a part in order, with
jumps that stay inside or go to the end of the part. The end of a part is the start of
the next one, so the jumps out of it are closed when the parts are put together.
-/

namespace Monkey

/-! ## The verifier -/

/-- The instructions of a stream from an offset on, each with its own offset. There are none if the
stream does not fall into whole instructions there. -/
def Code.decodeFrom (code : Code) (ip : Nat) : Option (List (Nat × Instruction)) :=
  match _here : code.fetch? ip with
  | .error _ => none
  | .ok none => some []
  | .ok (some (i, next)) => (code.decodeFrom next).map ((ip, i) :: ·)
termination_by code.size - ip
decreasing_by
  have hholds : code.Holds ip i next := _here
  have := hholds.lt
  have := hholds.le_size
  omega

/-- The instructions of a stream. -/
def Code.decode (code : Code) : Option (List (Nat × Instruction)) :=
  code.decodeFrom 0

/-- Where an instruction may go on, apart from the next one. -/
def Instruction.target? : Instruction → Option Nat
  | .jump target | .jumpUnless target => some target
  | _ => none

/-- Whether an instruction leaves the running function. -/
def Instruction.returns : Instruction → Bool
  | .returnValue | .returnNull => true
  | _ => false

/-- Every captured value that the code reads is one of the first `count`. -/
def Code.CapturesBelow (code : Code) (count : Nat) : Prop :=
  ∀ is, code.decode = some is → ∀ ip k, (ip, .getCaptured k) ∈ is → k < count

/-- The operands of an instruction refer to something in the pool and the room. -/
def Instruction.Valid (K : Array Value) (room : Room) : Instruction → Prop
  | .constant k => (∃ n, K[k]? = some (.int n)) ∨ ∃ text, K[k]? = some (.str text)
  | .closure k count => ∃ id t, K[k]? = some (.template id t) ∧ t.code.CapturesBelow count
  | .getGlobal k => k < room.globals
  | .setGlobal k => room.inner = false ∧ room.own ≤ k ∧ k < room.globals
  | .getLocal k | .setLocal k => room.inner = true ∧ k < room.slots
  | .getCaptured k => room.inner = true ∧ k < room.captures
  | .currentClosure => room.inner = true
  | .getBuiltin k => k < Builtin.all.length
  | .hash count => 2 ∣ count
  | _ => True

/-- A stream falls into whole instructions that have what they refer to, and jumps go forward to
one of them. -/
structure Code.Verified (K : Array Value) (room : Room) (code : Code)
    (is : List (Nat × Instruction)) : Prop where
  decodes : code.decode = some is
  valid : ∀ ip i, (ip, i) ∈ is → i.Valid K room
  jumps : ∀ ip i target, (ip, i) ∈ is → i.target? = some target →
    ip < target ∧ target < code.size ∧ ∃ j, (target, j) ∈ is

/-- The code of a function is good, and it returns at its end. -/
structure Template.Verified (K : Array Value) (globals : Nat) (t : Template) : Prop where
  parameters_le : t.parameters ≤ t.locals
  locals_le : t.locals ≤ 256
  code : ∃ captures is, Code.Verified K ⟨globals, 0, t.locals, captures, true⟩ t.code is ∧
    ∃ ip i, is.getLast? = some (ip, i) ∧ i.returns = true

/-- The top level of a program and all functions of its pool are good. The program reads `globals`
globals and stores to those from `own` on. -/
structure Bytecode.Verified (b : Bytecode) (globals own : Nat) : Prop where
  main : ∃ is, Code.Verified b.constants ⟨globals, own, 0, 0, false⟩ b.code is
  templates : ∀ (k : Nat) id t, b.constants[k]? = some (.template id t) →
    t.Verified b.constants globals

/-! ## Listings -/

/-- The stream from `lo` up to `hi` is these instructions. -/
inductive Code.Tiles (code : Code) : Nat → List (Nat × Instruction) → Nat → Prop where
  | nil {lo} : Tiles code lo [] lo
  | cons {lo m hi i is} : code.Holds lo i m → Tiles code m is hi → Tiles code lo ((lo, i) :: is) hi

namespace Code.Tiles

variable {code : Code} {lo m hi : Nat} {is is' : List (Nat × Instruction)}

theorem append (h : code.Tiles lo is m) (h' : code.Tiles m is' hi) :
    code.Tiles lo (is ++ is') hi := by
  induction h with
  | nil => exact h'
  | cons hi _ ih => exact .cons hi (ih h')

theorem start (h : code.Tiles lo is hi) : lo = hi ∨ ∃ i, (lo, i) ∈ is := by
  cases h with
  | nil => exact .inl rfl
  | cons hi _ => exact .inr ⟨_, List.mem_cons_self⟩

theorem le (h : code.Tiles lo is hi) : lo ≤ hi := by
  induction h with
  | nil => exact Nat.le_refl _
  | cons hi _ ih => exact hi.lt.le.trans ih

theorem mem_lt (h : code.Tiles lo is hi) {ip : Nat} {i : Instruction} (hmem : (ip, i) ∈ is) :
    ip < hi := by
  induction h with
  | nil => cases hmem
  | cons hi hrest ih =>
      rcases List.mem_cons.1 hmem with heq | hmem
      · injection heq with hip _
        rw [hip]
        exact Nat.lt_of_lt_of_le hi.lt hrest.le
      · exact ih hmem

theorem decodeFrom_eq (h : code.Tiles lo is hi) (hend : hi = code.size) :
    code.decodeFrom lo = some is := by
  induction h with
  | @nil lo =>
      have hfetch : code.fetch? lo = .ok none := by
        rw [Code.fetch?, hend, Array.getElem?_size]
      rw [Code.decodeFrom]
      split
      · next h => rw [hfetch] at h; cases h
      · rfl
      · next h => rw [hfetch] at h; cases h
  | @cons lo m hi i is hi _ ih =>
      rw [Code.decodeFrom]
      split
      · next h => rw [hi] at h; cases h
      · next h => rw [hi] at h; cases h
      · next h =>
          rw [hi] at h
          cases h
          rw [ih hend]
          rfl

end Code.Tiles

/-- A room of the top level has neither slots nor captured values. -/
def Room.Proper (room : Room) : Prop :=
  room.inner = false → room.slots = 0 ∧ room.captures = 0

namespace Resolved

/-- A part from `lo` up to `hi` is these instructions. Its jumps stay inside or go to its end. -/
structure Listed (K : Array Value) (room : Room) (code : Code) (lo : Nat)
    (is : List (Nat × Instruction)) (hi : Nat) : Prop where
  tiles : code.Tiles lo is hi
  valid : ∀ ip i, (ip, i) ∈ is → i.Valid K room
  jumps : ∀ ip i target, (ip, i) ∈ is → i.target? = some target →
    ip < target ∧ (target = hi ∨ ∃ j, (target, j) ∈ is)

namespace Listed

variable {K : Array Value} {room : Room} {code : Code} {lo m hi : Nat}
  {is is' : List (Nat × Instruction)}

theorem nil : Listed K room code lo [] lo :=
  ⟨.nil, nofun, nofun⟩

theorem one {i : Instruction} (h : code.Holds lo i hi) (hv : i.Valid K room)
    (ht : i.target? = none) : Listed K room code lo [(lo, i)] hi := by
  refine ⟨.cons h .nil, fun ip j hj => ?_, fun ip j target hj htarget => ?_⟩
  · cases List.mem_singleton.1 hj
    exact hv
  · cases List.mem_singleton.1 hj
    rw [ht] at htarget
    cases htarget

/-- A jump to the end of the first part lands at the start of the second. -/
theorem append (h : Listed K room code lo is m) (h' : Listed K room code m is' hi) :
    Listed K room code lo (is ++ is') hi := by
  refine ⟨h.tiles.append h'.tiles, fun ip i hi => ?_, fun ip i target hi ht => ?_⟩
  · rcases List.mem_append.1 hi with hi | hi
    · exact h.valid ip i hi
    · exact h'.valid ip i hi
  · rcases List.mem_append.1 hi with hi | hi
    · obtain ⟨hlt, rfl | ⟨j, hj⟩⟩ := h.jumps ip i target hi ht
      · refine ⟨hlt, ?_⟩
        rcases h'.tiles.start with heq | ⟨j, hj⟩
        · exact .inl heq
        · exact .inr ⟨j, List.mem_append_right _ hj⟩
      · exact ⟨hlt, .inr ⟨j, List.mem_append_left _ hj⟩⟩
    · obtain ⟨hlt, heq | ⟨j, hj⟩⟩ := h'.jumps ip i target hi ht
      · exact ⟨hlt, .inl heq⟩
      · exact ⟨hlt, .inr ⟨j, List.mem_append_right _ hj⟩⟩

/-- A conditional: the test jumps over the first branch and its exit, the exit to the end. -/
theorem cond {m₁ m₂ m₃ m₄ : Nat} {ic ia ib : List (Nat × Instruction)}
    (hc : Listed K room code lo ic m₁) (htest : code.Holds m₁ (.jumpUnless m₄) m₂)
    (ha : Listed K room code m₂ ia m₃) (hexit : code.Holds m₃ (.jump hi) m₄)
    (hb : Listed K room code m₄ ib hi) :
    Listed K room code lo (ic ++ (m₁, .jumpUnless m₄) :: (ia ++ (m₃, .jump hi) :: ib)) hi := by
  have hmem : ∀ {e : Nat × Instruction},
      e ∈ ic ++ (m₁, .jumpUnless m₄) :: (ia ++ (m₃, .jump hi) :: ib) ↔
        e ∈ ic ∨ e = (m₁, .jumpUnless m₄) ∨ e ∈ ia ∨ e = (m₃, .jump hi) ∨ e ∈ ib := by
    intro e
    simp only [List.mem_append, List.mem_cons]
  refine ⟨hc.tiles.append (.cons htest (ha.tiles.append (.cons hexit hb.tiles))),
    fun ip i hi => ?_, fun ip i target hi ht => ?_⟩
  · rcases hmem.1 hi with hi | hi | hi | hi | hi
    · exact hc.valid ip i hi
    · cases hi; trivial
    · exact ha.valid ip i hi
    · cases hi; trivial
    · exact hb.valid ip i hi
  · have h₁ := htest.lt
    have h₂ := ha.tiles.le
    have h₃ := hexit.lt
    have h₄ := hb.tiles.le
    rcases hmem.1 hi with hi | hi | hi | hi | hi
    · obtain ⟨hlt, rfl | ⟨j, hj⟩⟩ := hc.jumps ip i target hi ht
      · exact ⟨hlt, .inr ⟨_, hmem.2 (.inr (.inl rfl))⟩⟩
      · exact ⟨hlt, .inr ⟨j, hmem.2 (.inl hj)⟩⟩
    · cases hi
      cases ht
      refine ⟨by omega, ?_⟩
      rcases hb.tiles.start with heq | ⟨j, hj⟩
      · exact .inl heq
      · exact .inr ⟨j, hmem.2 (.inr (.inr (.inr (.inr hj))))⟩
    · obtain ⟨hlt, rfl | ⟨j, hj⟩⟩ := ha.jumps ip i target hi ht
      · exact ⟨hlt, .inr ⟨_, hmem.2 (.inr (.inr (.inr (.inl rfl))))⟩⟩
      · exact ⟨hlt, .inr ⟨j, hmem.2 (.inr (.inr (.inl hj)))⟩⟩
    · cases hi
      cases ht
      exact ⟨by omega, .inl rfl⟩
    · obtain ⟨hlt, heq | ⟨j, hj⟩⟩ := hb.jumps ip i target hi ht
      · exact ⟨hlt, .inl heq⟩
      · exact ⟨hlt, .inr ⟨j, hmem.2 (.inr (.inr (.inr (.inr hj))))⟩⟩

end Listed

/-- The last of some instructions leaves the function. -/
def EndsInReturn (is : List (Nat × Instruction)) : Prop :=
  ∃ ip i, is.getLast? = some (ip, i) ∧ i.returns = true

theorem EndsInReturn.append {is is' : List (Nat × Instruction)} (h : EndsInReturn is') :
    EndsInReturn (is ++ is') := by
  obtain ⟨ip, i, hlast, hret⟩ := h
  refine ⟨ip, i, ?_, hret⟩
  rw [List.getLast?_append, hlast]
  rfl

/-- Every jump of some instructions goes to one of them. -/
def Closed (is : List (Nat × Instruction)) : Prop :=
  ∀ ip i target, (ip, i) ∈ is → i.target? = some target → ∃ j, (target, j) ∈ is

theorem Closed.nil : Closed [] :=
  nofun

theorem Closed.append {is is' : List (Nat × Instruction)} (h : Closed is) (h' : Closed is') :
    Closed (is ++ is') := by
  intro ip i target hi ht
  rcases List.mem_append.1 hi with hi | hi
  · obtain ⟨j, hj⟩ := h ip i target hi ht
    exact ⟨j, List.mem_append_left _ hj⟩
  · obtain ⟨j, hj⟩ := h' ip i target hi ht
    exact ⟨j, List.mem_append_right _ hj⟩

theorem Closed.one {ip : Nat} {i : Instruction} (ht : i.target? = none) : Closed [(ip, i)] := by
  intro ip' j target hj htarget
  cases List.mem_singleton.1 hj
  rw [ht] at htarget
  cases htarget

/-- An instruction after a part catches the jumps to the end of the part. -/
theorem Listed.closed {K : Array Value} {room : Room} {code : Code} {lo m : Nat} {i : Instruction}
    {is : List (Nat × Instruction)} (h : Listed K room code lo is m) (ht : i.target? = none) :
    Closed (is ++ [(m, i)]) := by
  intro ip j target hj htarget
  rcases List.mem_append.1 hj with hj | hj
  · obtain ⟨-, rfl | ⟨k, hk⟩⟩ := h.jumps ip j target hj htarget
    · exact ⟨i, List.mem_append_right _ List.mem_cons_self⟩
    · exact ⟨k, List.mem_append_left _ hk⟩
  · obtain ⟨k, hk⟩ := Closed.one ht ip j target hj htarget
    exact ⟨k, List.mem_append_right _ hk⟩

/-- How the code of a block ends: a branch falls through, a body returns. -/
def Tail.Finishes : Tail → List (Nat × Instruction) → Prop
  | .branch, _ => True
  | .body, is => Closed is ∧ EndsInReturn is

/-- How the code of a part ends. Only that of an expression may be left by a jump to its end. -/
def Part.Finishes : Part → List (Nat × Instruction) → Prop
  | .stmt s, is => Closed is ∧ ∀ e, s = .ret e → EndsInReturn is
  | .stmts _, is => Closed is
  | .block tail _, is => tail.Finishes is
  | _, _ => True

theorem load_valid {s : Symbol} {K : Array Value} {room : Room} (hs : s.Within room)
    (hroom : room.Proper) : s.load.Valid K room ∧ s.load.target? = none := by
  rw [Symbol.Within] at hs
  rw [Symbol.load]
  have hinner : ∀ {k n : Nat}, k < n → (room.inner = false → n = 0) → room.inner = true := by
    intro k n hk hn
    cases h : room.inner with
    | true => rfl
    | false => exact absurd hk (by rw [hn h]; exact Nat.not_lt_zero k)
  cases hst : s.storage <;> rw [hst] at hs
  case global => exact ⟨hs, rfl⟩
  case slot => exact ⟨⟨hinner hs fun h => (hroom h).1, hs⟩, rfl⟩
  case builtin => exact ⟨hs, rfl⟩
  case captured => exact ⟨⟨hinner hs fun h => (hroom h).2, hs⟩, rfl⟩
  case self => exact ⟨hs, rfl⟩

theorem save_valid {s : Symbol} {K : Array Value} {room : Room} (hs : s.Storable room)
    (hroom : room.Proper) : s.save.Valid K room ∧ s.save.target? = none := by
  rw [Symbol.Storable] at hs
  rw [Symbol.save]
  cases hst : s.storage <;> rw [hst] at hs
  case global => exact ⟨hs, rfl⟩
  case slot =>
    refine ⟨⟨?_, hs⟩, rfl⟩
    cases h : room.inner with
    | true => rfl
    | false => exact absurd hs (by rw [(hroom h).1]; exact Nat.not_lt_zero _)
  all_goals exact hs.elim

/-- The code of a function is listed, so its reads of captured values are those of its room. -/
theorem Listed.capturesBelow {K : Array Value} {room : Room} {code : Code}
    {is : List (Nat × Instruction)} (h : Listed K room code 0 is code.size) :
    code.CapturesBelow room.captures := by
  intro is' hdecode ip k hk
  rw [Code.decode, h.tiles.decodeFrom_eq rfl] at hdecode
  cases hdecode
  exact (h.valid ip _ hk).2

theorem Laid.listed {K : Array Value} {room : Room} {code : Code} {part : Part} {lo hi : Nat}
    (h : Laid K room code part lo hi) (hroom : room.Proper) :
    ∃ is, Listed K room code lo is hi ∧ part.Finishes is := by
  induction h with
  | symbol hs hi =>
      obtain ⟨hv, ht⟩ := load_valid hs hroom
      exact ⟨_, .one hi hv ht, trivial⟩
  | int hi hk => exact ⟨_, .one hi (.inl ⟨_, hk⟩) rfl, trivial⟩
  | str hi hk => exact ⟨_, .one hi (.inr ⟨_, hk⟩) rfl, trivial⟩
  | @bool _ _ _ _ value hi =>
      refine ⟨_, .one hi ?_ ?_, trivial⟩ <;> cases value <;> trivial
  | @unary _ _ _ _ _ _ op _ hi ih =>
      obtain ⟨is, hl, -⟩ := ih hroom
      refine ⟨_, hl.append (.one hi ?_ ?_), trivial⟩ <;> cases op <;> trivial
  | @binary _ _ _ _ _ _ _ _ op _ _ hi ih₁ ih₂ =>
      obtain ⟨is₁, hl₁, -⟩ := ih₁ hroom
      obtain ⟨is₂, hl₂, -⟩ := ih₂ hroom
      refine ⟨_, hl₁.append (hl₂.append (.one hi ?_ ?_)), trivial⟩ <;>
        rcases op with op | wanted <;> first | (cases op <;> trivial) | (cases wanted <;> trivial)
  | less _ _ hi ih₁ ih₂ | index _ _ hi ih₁ ih₂ | call _ _ hi ih₁ ih₂ =>
      obtain ⟨is₁, hl₁, -⟩ := ih₁ hroom
      obtain ⟨is₂, hl₂, -⟩ := ih₂ hroom
      exact ⟨_, hl₁.append (hl₂.append (.one hi trivial rfl)), trivial⟩
  | cond _ htest _ hexit _ ihc iha ihb =>
      obtain ⟨ic, hc, -⟩ := ihc hroom
      obtain ⟨ia, ha, -⟩ := iha hroom
      obtain ⟨ib, hb, -⟩ := ihb hroom
      exact ⟨_, hc.cond htest ha hexit hb, trivial⟩
  | function _ hi hk _ _ _ ih ihbody =>
      obtain ⟨is, hl, -⟩ := ih hroom
      obtain ⟨is', hl', -⟩ := ihbody nofun
      exact ⟨_, hl.append (.one hi ⟨_, _, hk, hl'.capturesBelow⟩ rfl), trivial⟩
  | array _ hi ih =>
      obtain ⟨is, hl, -⟩ := ih hroom
      exact ⟨_, hl.append (.one hi trivial rfl), trivial⟩
  | hash _ hi ih =>
      obtain ⟨is, hl, -⟩ := ih hroom
      exact ⟨_, hl.append (.one hi (Nat.dvd_mul_right _ _) rfl), trivial⟩
  | exprsNil | pairsNil | loadsNil => exact ⟨[], .nil, trivial⟩
  | stmtsNil => exact ⟨[], .nil, .nil⟩
  | exprsCons _ _ ih₁ ih₂ =>
      obtain ⟨is₁, hl₁, -⟩ := ih₁ hroom
      obtain ⟨is₂, hl₂, -⟩ := ih₂ hroom
      exact ⟨_, hl₁.append hl₂, trivial⟩
  | stmtsCons _ _ ih₁ ih₂ =>
      obtain ⟨is₁, hl₁, hcl₁, -⟩ := ih₁ hroom
      obtain ⟨is₂, hl₂, hcl₂⟩ := ih₂ hroom
      exact ⟨_, hl₁.append hl₂, hcl₁.append hcl₂⟩
  | pairsCons _ _ _ ih₁ ih₂ ih₃ =>
      obtain ⟨is₁, hl₁, -⟩ := ih₁ hroom
      obtain ⟨is₂, hl₂, -⟩ := ih₂ hroom
      obtain ⟨is₃, hl₃, -⟩ := ih₃ hroom
      exact ⟨_, hl₁.append (hl₂.append hl₃), trivial⟩
  | loadsCons hs hi _ ih =>
      obtain ⟨hv, ht⟩ := load_valid hs hroom
      obtain ⟨is, hl, -⟩ := ih hroom
      exact ⟨_, (Listed.one hi hv ht).append hl, trivial⟩
  | bind _ hs hi ih =>
      obtain ⟨is, hl, -⟩ := ih hroom
      obtain ⟨hv, ht⟩ := save_valid hs hroom
      exact ⟨_, hl.append (.one hi hv ht), hl.closed ht, nofun⟩
  | ret _ hi ih =>
      obtain ⟨is, hl, -⟩ := ih hroom
      exact ⟨_, hl.append (.one hi trivial rfl), hl.closed rfl, fun _ _ => .append ⟨_, _, rfl, rfl⟩⟩
  | value _ hi ih =>
      obtain ⟨is, hl, -⟩ := ih hroom
      exact ⟨_, hl.append (.one hi trivial rfl), hl.closed rfl, nofun⟩
  | @blockNil _ _ _ _ tail hi =>
      cases tail with
      | branch => exact ⟨_, .one hi trivial rfl, trivial⟩
      | body => exact ⟨_, .one hi trivial rfl, .one rfl, _, _, rfl, rfl⟩
  | @blockBind _ _ _ _ _ _ _ tail _ _ ih₁ ih₂ | @blockCons _ _ _ _ _ _ _ _ tail _ _ ih₁ ih₂ =>
      obtain ⟨is₁, hl₁, hcl, -⟩ := ih₁ hroom
      obtain ⟨is₂, hl₂, hends⟩ := ih₂ hroom
      refine ⟨_, hl₁.append hl₂, ?_⟩
      cases tail with
      | branch => trivial
      | body => exact ⟨hcl.append hends.1, hends.2.append⟩
  | @blockRet _ _ _ _ _ tail _ ih =>
      obtain ⟨is, hl, hcl, hret⟩ := ih hroom
      refine ⟨is, hl, ?_⟩
      cases tail with
      | branch => trivial
      | body => exact ⟨hcl, hret _ rfl⟩
  | @blockValue _ _ _ _ _ _ tail _ hc ih =>
      obtain ⟨is, hl, -⟩ := ih hroom
      cases tail with
      | branch => exact ⟨is, hc ▸ hl, trivial⟩
      | body =>
          exact ⟨_, hl.append (.one hc trivial rfl), hl.closed rfl, .append ⟨_, _, rfl, rfl⟩⟩

end Resolved

/-! ## Programs pass -/

open Resolved (Laid Listed Closed)

theorem Resolved.Listed.verified {K : Array Value} {room : Room} {code : Code}
    {is : List (Nat × Instruction)} (h : Listed K room code 0 is code.size) (hcl : Closed is) :
    code.Verified K room is := by
  refine ⟨h.tiles.decodeFrom_eq rfl, h.valid, fun ip i target hi ht => ?_⟩
  obtain ⟨hlt, -⟩ := h.jumps ip i target hi ht
  obtain ⟨j, hj⟩ := hcl ip i target hi ht
  exact ⟨hlt, h.tiles.mem_lt hj, j, hj⟩

theorem PoolWf.verified {K : Array Value} {globals : Nat} (h : PoolWf K globals) {k : Nat}
    {id : Identity} {t : Template} (ht : K[k]? = some (.template id t)) : t.Verified K globals := by
  obtain ⟨hp, hl, captures, body, hlaid⟩ := h k id t ht
  obtain ⟨is, hlisted, hcl, hends⟩ := hlaid.listed nofun
  exact ⟨hp, hl, captures, is, hlisted.verified hcl, hends⟩

namespace Compiler

/-- A compiler that was given some programs, whether it accepted them or not. -/
def after (programs : List Program) : Compiler :=
  programs.foldl (fun c p => (c.compile p).2) new

theorem after_wf (programs : List Program) : (after programs).Wf := by
  have hfold : ∀ (ps : List Program) (c : Compiler), c.Wf →
      (ps.foldl (fun c p => (c.compile p).2) c).Wf := by
    intro ps
    induction ps with
    | nil => exact fun _ hw => hw
    | cons p rest ih => exact fun c hw => ih _ (compile_wf hw p)
  exact hfold programs new new_wf

/-- Every program that a compiler accepts is verified, after whatever it was given before. No
operand lost a byte on the way into the stream: what stands there is the layout of the resolved
program, with its own indices and counts. -/
theorem compile_verified (earlier : List Program) (p : Program) (b : Bytecode) (c : Compiler)
    (h : (after earlier).compile p = (.ok b, c)) :
    b.Verified c.globals (after earlier).globals ∧
      ∃ rs, Resolved.block p (after earlier).symbols = some (rs, c.symbols) ∧
        Laid b.constants ⟨c.globals, (after earlier).globals, 0, 0, false⟩ b.code (.stmts rs) 0
          b.code.size := by
  have hacc := compile_eq_ok (after_wf earlier) h
  obtain ⟨rs, hrs, hlaid⟩ := hacc.laid
  obtain ⟨is, hlisted, hcl⟩ := hlaid.listed fun _ => ⟨rfl, rfl⟩
  refine ⟨⟨⟨is, hlisted.verified hcl⟩, fun k id t ht => ?_⟩, rs, hrs, hlaid⟩
  rw [hacc.bytecode] at ht ⊢
  exact hacc.wf.templates.verified ht

/-- `let f = fn(x) { if (x < 1) { return x }; fn() { x } }; f(2)` -/
def captureSample : Program :=
  [.bind "f" (.function ["x"]
      [.expr (.cond (.infixOp "<" (.ident "x") (.int 1)) [.ret (.ident "x")] none),
        .expr (.function [] [.expr (.ident "x")] none)] (some "f")),
    .expr (.call (.ident "f") [.int 2])]

/-- A function that captures a parameter, after a program that was refused. -/
theorem compile_verified_captureSample :
    ∃ b c, (after [[.expr (.ident "g")]]).compile captureSample = (.ok b, c) ∧
      b.Verified c.globals 0 := by
  have hok : ((after [[.expr (.ident "g")]]).compile captureSample).1.isOk = true := by
    decide +kernel
  rcases h : (after [[.expr (.ident "g")]]).compile captureSample with ⟨e | b, c⟩
  · rw [h] at hok
    cases hok
  · exact ⟨b, c, rfl, (compile_verified _ _ b c h).1⟩

end Compiler

end Monkey
