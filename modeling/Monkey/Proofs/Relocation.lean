import Monkey.Proofs.Verifier

/-!
# The same code at another place

A program is compiled to the same instructions wherever its code starts in the stream; only the
targets of its jumps move along with it. So the second half of a program has, behind the code of the
first half, the code that it has as a program of its own.

`Relocates` says so of one function of the compiler. Two compilations that stand at the same point
with the same symbols and constants, one of them `d` bytes further on in its stream, write the same
instructions but for jumps, whose targets are `d` apart as well. Only the first, whose stream is
longer, can run out of room.
-/

namespace Monkey

/-- The instruction in a stream that starts `d` bytes further on. -/
def Instruction.shift (d : Nat) : Instruction → Instruction
  | .jump target => .jump (d + target)
  | .jumpUnless target => .jumpUnless (d + target)
  | i => i

/-- Whether an instruction ends a statement. -/
def Instruction.closes : Instruction → Bool
  | .pop | .returnValue | .setGlobal _ | .setLocal _ => true
  | _ => false

/-- The bytes of instructions in a row. -/
def spell (is : List Instruction) : List UInt8 :=
  is.flatMap Instruction.encode

namespace Instruction

theorem shift_of_target? {i : Instruction} (h : i.target? = none) (d : Nat) : i.shift d = i := by
  cases i <;> first | rfl | cases h

end Instruction

theorem spell_append (is is' : List Instruction) : spell (is ++ is') = spell is ++ spell is' :=
  List.flatMap_append

theorem spell_singleton (i : Instruction) : spell [i] = i.encode := by
  rw [spell, List.flatMap_cons, List.flatMap_nil, List.append_nil]

theorem spell_cons (i : Instruction) (is : List Instruction) :
    spell (i :: is) = i.encode ++ spell is :=
  List.flatMap_cons

/-! ## Bytes in the middle of a stream -/

namespace Code

theorem append_append (code : Code) (xs ys : List UInt8) :
    code ++ xs ++ ys = code ++ (xs ++ ys) := by
  apply Array.toList_inj.1
  simp only [Array.toList_appendList, List.append_assoc]

theorem has_middle (code : Code) (xs ys : List UInt8) :
    Code.Has (code ++ xs ++ ys) code.size xs := by
  rw [append_append]
  exact (has_append code (xs ++ ys)).left

theorem overwrite_middle (code : Code) {xs xs' : List UInt8} (ys : List UInt8)
    (h : xs'.length = xs.length) :
    Code.overwrite (code ++ xs ++ ys) code.size xs' = code ++ xs' ++ ys := by
  induction xs' generalizing code xs with
  | nil =>
      rw [List.length_eq_zero_iff.1 h.symm]
      rfl
  | cons x' xs' ih =>
      obtain ⟨x, xs, rfl⟩ := List.exists_cons_of_length_eq_add_one h.symm
      have hset : (code ++ (x :: xs) ++ ys : Code).setIfInBounds code.size x' =
          code.push x' ++ xs ++ ys := by
        apply Array.toList_inj.1
        simp [Array.toList_setIfInBounds, List.set_append_right]
      have hpush : (code.push x' ++ xs' ++ ys : Code) = code ++ (x' :: xs') ++ ys := by
        apply Array.toList_inj.1
        simp
      rw [Code.overwrite, hset, ← hpush, ← ih (code.push x') (Nat.succ.inj h), Array.size_push]

end Code

namespace Codegen

attribute [local simp] expr stmt block exprs otherwise

/-- Two compilations at the same point, the stream of the first `d` bytes longer. -/
structure Abreast (d : Nat) (g g' : Codegen) : Prop where
  constants : g'.constants = g.constants
  symbols : g'.symbols = g.symbols
  size : g.buffer.code.size = d + g'.buffer.code.size

/-- Both have written these instructions, each with the targets that fit its own stream. -/
structure Wrote (d : Nat) (g g₁ g' g₁' : Codegen) (is : List Instruction) : Prop where
  abreast : Abreast d g₁ g₁'
  left : g₁.buffer.code = g.buffer.code ++ spell (is.map (·.shift d))
  right : g₁'.buffer.code = g'.buffer.code ++ spell is
  fits : ∀ i ∈ is, (i.shift d).Fits

/-- The function writes the same instructions at both places, and `Q` holds of them. -/
def Relocates (d : Nat) (Q : List Instruction → Prop) (f : Codegen → Result) : Prop :=
  ∀ g g' g₁, Abreast d g g' → f g = .ok g₁ →
    ∃ g₁' is, f g' = .ok g₁' ∧ Wrote d g g₁ g' g₁' is ∧ Q is

/-- Only code that contains a return leaves the function. -/
def Quiet (returning : Bool) (is : List Instruction) : Prop :=
  returning = false → ∀ i ∈ is, i.returns = false

variable {d : Nat} {g g' g₁ g₁' g₂ g₂' : Codegen} {is is' : List Instruction}

theorem Quiet.nil {b : Bool} : Quiet b [] :=
  fun _ => List.forall_mem_nil _

theorem Quiet.one {i : Instruction} (h : i.returns = false) {b : Bool} : Quiet b [i] :=
  fun _ => List.forall_mem_singleton.2 h

theorem Quiet.append {b b' : Bool} (h : Quiet b is) (h' : Quiet b' is') :
    Quiet (b || b') (is ++ is') := by
  intro hb
  obtain ⟨hb, hb'⟩ := Bool.or_eq_false_iff.1 hb
  exact List.forall_mem_append.2 ⟨h hb, h' hb'⟩

theorem Wrote.refl (h : Abreast d g g') : Wrote d g g g' g' [] :=
  ⟨h, Array.appendList_nil.symm, Array.appendList_nil.symm, List.forall_mem_nil _⟩

theorem Wrote.trans (h : Wrote d g g₁ g' g₁' is) (h' : Wrote d g₁ g₂ g₁' g₂' is') :
    Wrote d g g₂ g' g₂' (is ++ is') := by
  refine ⟨h'.abreast, ?_, ?_, List.forall_mem_append.2 ⟨h.fits, h'.fits⟩⟩
  · rw [h'.left, h.left, Code.append_append, List.map_append, spell_append]
  · rw [h'.right, h.right, Code.append_append, spell_append]

theorem Abreast.emit (h : Abreast d g g') (i : Instruction) :
    Abreast d (g.emit i) (g'.emit i) := by
  refine ⟨h.constants, h.symbols, ?_⟩
  rw [size_emit, size_emit, h.size, Nat.add_assoc]

theorem Wrote.emit (h : Abreast d g g') {i : Instruction} (hf : i.Fits) (ht : i.target? = none) :
    Wrote d g (g.emit i) g' (g'.emit i) [i] := by
  refine ⟨h.emit i, ?_, ?_, ?_⟩
  · rw [List.map_singleton, spell_singleton, Instruction.shift_of_target? ht]
    rfl
  · rw [spell_singleton]
    rfl
  · rw [List.forall_mem_singleton, Instruction.shift_of_target? ht]
    exact hf

variable {f f' : Codegen → Result} {b b' : Bool} {Q Q' : List Instruction → Prop}

theorem Relocates.imp (h : Relocates d Q f) (hQ : ∀ is, Q is → Q' is) : Relocates d Q' f := by
  intro g g' g₁ hab heq
  obtain ⟨g₁', is, heq', hw, hq⟩ := h g g' g₁ hab heq
  exact ⟨g₁', is, heq', hw, hQ is hq⟩

theorem Relocates.bind (h : Relocates d (Quiet b) f) (h' : Relocates d (Quiet b') f') :
    Relocates d (Quiet (b || b')) fun g => f g >>= f' := by
  intro g g' g₂ hab heq
  obtain ⟨g₁, h₁, h₂⟩ := Except.bind_eq_ok.1 heq
  obtain ⟨g₁', is, h₁', hw, hq⟩ := h g g' g₁ hab h₁
  obtain ⟨g₂', is', h₂', hw', hq'⟩ := h' g₁ g₁' g₂ hw.abreast h₂
  exact ⟨g₂', is ++ is', Except.bind_eq_ok.2 ⟨g₁', h₁', h₂'⟩, hw.trans hw', hq.append hq'⟩

theorem Relocates.congr (h : Relocates d Q f) (hf : ∀ g, f' g = f g) : Relocates d Q f' := by
  rw [funext hf]
  exact h

theorem Wrote.stmt {h h' : Codegen} {i : Instruction} (hw : Wrote d g h g' h' is) (hf : i.Fits)
    (hc : i.closes = true) : Wrote d g (h.emit i) g' (h'.emit i) (is ++ [i]) := by
  refine hw.trans (.emit hw.abreast hf ?_)
  cases i <;> first | rfl | cases hc

theorem Wrote.of_code {h h' : Codegen} (hw : Wrote d g h g' h' is) (h₁ : g₁.constants = h.constants)
    (h₂ : g₁.symbols = h.symbols) (h₃ : g₁.buffer.code = h.buffer.code)
    (h₁' : g₁'.constants = h'.constants) (h₂' : g₁'.symbols = h'.symbols)
    (h₃' : g₁'.buffer.code = h'.buffer.code) : Wrote d g g₁ g' g₁' is := by
  obtain ⟨⟨hk, hs, hsize⟩, hl, hr, hf⟩ := hw
  exact ⟨⟨by rw [h₁, h₁', hk], by rw [h₂, h₂', hs], by rw [h₃, h₃', hsize]⟩, h₃.trans hl,
    h₃'.trans hr, hf⟩

/-- The stream does not end in a statement whose value a branch would take. -/
def Bare (g : Codegen) : Prop :=
  g.buffer.endsWith .pop = false ∧ g.buffer.endsWith .returnValue = false

theorem Bare.congr (h : g.Bare) (hlast : g'.buffer.last = g.buffer.last) : g'.Bare := by
  obtain ⟨hpop, hreturn⟩ := h
  rw [Buffer.endsWith, ← hlast] at hpop hreturn
  exact ⟨hpop, hreturn⟩

end Codegen

/-! ## Programs -/

/-- Instructions in a row, each with its offset. -/
def locate (lo : Nat) : List Instruction → List (Nat × Instruction)
  | [] => []
  | i :: is => (lo, i) :: locate (lo + i.opcode.size) is

theorem tiles_locate {code : Code} {is : List Instruction} {lo : Nat} (h : code.Has lo (spell is))
    (hfits : ∀ i ∈ is, i.Fits) : code.Tiles lo (locate lo is) (lo + (spell is).length) := by
  induction is generalizing lo with
  | nil => exact .nil
  | cons i is ih =>
      rw [spell_cons] at h
      obtain ⟨hfit, hrest⟩ := List.forall_mem_cons.1 hfits
      have htail := h.right
      rw [i.length_encode] at htail
      rw [spell_cons, List.length_append, i.length_encode, ← Nat.add_assoc]
      exact .cons (Code.holds_of_has h.left hfit) (ih htail hrest)

theorem Code.Tiles.unique {code : Code} {lo hi : Nat} {is is' : List (Nat × Instruction)}
    (h : code.Tiles lo is hi) (h' : code.Tiles lo is' hi) : is = is' := by
  induction h generalizing is' with
  | nil =>
      cases h' with
      | nil => rfl
      | cons hi' hrest' => exact absurd hrest'.le (Nat.not_le.2 hi'.lt)
  | cons hi hrest ih =>
      cases h' with
      | nil => exact absurd hrest.le (Nat.not_le.2 hi.lt)
      | cons hi' hrest' =>
          obtain ⟨rfl, rfl⟩ := hi.unique hi'
          rw [ih hrest']

/-- An instruction of a listing is followed by another one, or by the end. -/
theorem Code.Tiles.next_of_mem {code : Code} {lo hi ip : Nat} {is : List (Nat × Instruction)}
    {i : Instruction} (h : code.Tiles lo is hi) (hmem : (ip, i) ∈ is) :
    ∃ next, code.Holds ip i next ∧ (next = hi ∨ ∃ j, (next, j) ∈ is) := by
  induction h with
  | nil => cases hmem
  | cons hholds hrest ih =>
      rcases List.mem_cons.1 hmem with heq | hmem
      · cases heq
        refine ⟨_, hholds, ?_⟩
        rcases hrest.start with heq | ⟨j, hj⟩
        · exact .inl heq
        · exact .inr ⟨j, List.mem_cons_of_mem _ hj⟩
      · obtain ⟨next, hnext, heq | ⟨j, hj⟩⟩ := ih hmem
        · exact ⟨next, hnext, .inl heq⟩
        · exact ⟨next, hnext, .inr ⟨j, List.mem_cons_of_mem _ hj⟩⟩

/-- The second stream is a program, and the first goes through the same instructions `d` bytes
further on. A return at the top level goes to the end of the stream, which is the same place only
if nothing follows in the first one. -/
structure Code.Slid (d : Nat) (left right : Code) (is : List (Nat × Instruction)) : Prop where
  tiles : right.Tiles 0 is right.size
  closed : Resolved.Closed is
  slides : ∀ ip i next, (ip, i) ∈ is → right.Holds ip i next →
    left.Holds (d + ip) (i.shift d) (d + next)
  returns : ∀ ip i, (ip, i) ∈ is → i.returns = true → left.size = d + right.size
  last : ∀ ip i, (ip, i) ∈ is → right.Holds ip i right.size → i.closes = true

namespace Compiler

open Codegen

end Compiler

end Monkey
