import Mathlib
import Monkey.Instruction.Basic

/-!
# Instructions in a stream

`Code.Holds` is what a run sees of a stream: at `lo` stands the instruction `i`, and the next
one starts at `hi`. It is the fetch of the machine, so nothing proved from it is about another
decoder. `Code.Has` is the same place seen as bytes, and `holds_of_has` connects the two: where
the bytes of an instruction stand whose operands fit their widths, that instruction is fetched.

An instruction depends on its own bytes only. That is what lets code be appended, cut off and
patched while what was written before stays what it was.
-/

namespace Monkey

/-- Every operand is small enough for the bytes it gets. -/
def Opcode.Fits (op : Opcode) (operands : List Nat) : Prop :=
  List.Forall₂ (fun n width => n < 256 ^ width) operands op.widths

/-- The operands of the instruction fit their widths. -/
def Instruction.Fits (i : Instruction) : Prop :=
  i.opcode.Fits i.operands

namespace Code

/-- At `lo` stands the instruction `i`, and the next one starts at `hi`. -/
def Holds (code : Code) (lo : Nat) (i : Instruction) (hi : Nat) : Prop :=
  code.fetch? lo = .ok (some (i, hi))

/-- The bytes stand in the stream from `lo` on. -/
def Has (code : Code) (lo : Nat) (bytes : List UInt8) : Prop :=
  ∀ j, j < bytes.length → code[lo + j]? = bytes[j]?

/-- Two streams have the same bytes from `lo` up to `hi`. -/
def Agree (code code' : Code) (lo hi : Nat) : Prop :=
  ∀ j, lo ≤ j → j < hi → code'[j]? = code[j]?

end Code

/-! ## Encoded operands -/

theorem length_operandBytes (width n : Nat) : (operandBytes width n).length = width := by
  induction width generalizing n with
  | zero => rfl
  | succ width ih => rw [operandBytes, List.length_append, ih]; rfl

theorem length_operandsBytes {widths operands : List Nat}
    (h : operands.length = widths.length) :
    (operandsBytes widths operands).length = widths.sum := by
  induction widths generalizing operands with
  | nil => cases operands <;> rfl
  | cons width widths ih =>
      cases operands with
      | nil => cases h
      | cons n operands =>
          rw [operandsBytes, List.length_append, length_operandBytes, List.sum_cons,
            ih (Nat.succ.inj h)]

theorem Instruction.length_operands (i : Instruction) :
    i.operands.length = i.opcode.widths.length := by
  cases i <;> rfl

theorem Instruction.length_encode (i : Instruction) : i.encode.length = i.opcode.size := by
  rw [Instruction.encode, Opcode.encode, if_pos i.length_operands, List.length_cons,
    length_operandsBytes i.length_operands]
  cases i <;> rfl

theorem Instruction.size_pos (i : Instruction) : 0 < i.opcode.size := by
  rw [Opcode.size]
  omega

theorem Code.operandAt_eq {code : Code} {lo width n : Nat}
    (h : code.Has lo (operandBytes width n)) (hn : n < 256 ^ width) :
    code.operandAt lo width = n := by
  induction width generalizing n with
  | zero =>
      rw [Code.operandAt]
      rw [Nat.pow_zero] at hn
      omega
  | succ width ih =>
      have hlen := length_operandBytes width (n / 256)
      have hhigh : code.Has lo (operandBytes width (n / 256)) := by
        intro j hj
        rw [h j (by rw [length_operandBytes]; omega), operandBytes,
          List.getElem?_append_left hj]
      have hlow : code[lo + width]? = some (UInt8.ofNat n) := by
        rw [h width (by rw [length_operandBytes]; omega), operandBytes,
          List.getElem?_append_right (by omega), hlen, Nat.sub_self]
        rfl
      have hdiv : n / 256 < 256 ^ width := by
        rw [Nat.pow_succ] at hn
        exact Nat.div_lt_of_lt_mul (by omega)
      rw [Code.operandAt, ih hhigh hdiv, Code.byteAt, hlow]
      show 256 * (n / 256) + (UInt8.ofNat n).toNat = n
      rw [UInt8.toNat_ofNat']
      omega

/-! ## Bytes in a stream -/

namespace Code

theorem Has.left {code : Code} {lo : Nat} {xs ys : List UInt8}
    (h : code.Has lo (xs ++ ys)) : code.Has lo xs := by
  intro j hj
  rw [h j (by rw [List.length_append]; omega), List.getElem?_append_left hj]

theorem Has.right {code : Code} {lo : Nat} {xs ys : List UInt8}
    (h : code.Has lo (xs ++ ys)) : code.Has (lo + xs.length) ys := by
  intro j hj
  rw [Nat.add_assoc, h (xs.length + j) (by rw [List.length_append]; omega),
    List.getElem?_append_right (by omega), Nat.add_sub_cancel_left]

theorem Has.size_le {code : Code} {lo : Nat} {bytes : List UInt8} (h : code.Has lo bytes)
    (hpos : 0 < bytes.length) : lo + bytes.length ≤ code.size := by
  have hlast := h (bytes.length - 1) (by omega)
  rw [List.getElem?_eq_getElem (by omega)] at hlast
  have hlt := (Array.getElem?_eq_some_iff.1 hlast).1
  omega

theorem getElem?_appendList (code : Code) (bytes : List UInt8) (j : Nat) :
    (code ++ bytes)[j]? = if j < code.size then code[j]? else bytes[j - code.size]? := by
  rw [← Array.getElem?_toList, Array.toList_appendList, List.getElem?_append,
    Array.length_toList, Array.getElem?_toList]

theorem has_append (code : Code) (bytes : List UInt8) :
    Code.Has (code ++ bytes) code.size bytes := by
  intro j _
  rw [getElem?_appendList, if_neg (by omega), Nat.add_sub_cancel_left]

theorem agree_append (code : Code) (bytes : List UInt8) (lo : Nat) :
    Agree code (code ++ bytes) lo code.size := by
  intro j _ hj
  rw [getElem?_appendList, if_pos hj]

theorem size_appendList (code : Code) (bytes : List UInt8) :
    (code ++ bytes : Code).size = code.size + bytes.length := by
  rw [← Array.length_toList, Array.toList_appendList, List.length_append, Array.length_toList]

theorem size_overwrite (code : Code) (lo : Nat) (bytes : List UInt8) :
    (code.overwrite lo bytes).size = code.size := by
  induction bytes generalizing code lo with
  | nil => rfl
  | cons byte rest ih => rw [Code.overwrite, ih, Array.size_setIfInBounds]

theorem getElem?_overwrite_of_outside {code : Code} {lo j : Nat} {bytes : List UInt8}
    (h : j < lo ∨ lo + bytes.length ≤ j) : (code.overwrite lo bytes)[j]? = code[j]? := by
  induction bytes generalizing code lo with
  | nil => rfl
  | cons byte rest ih =>
      rw [List.length_cons] at h
      rw [Code.overwrite, ih (by omega), Array.getElem?_setIfInBounds_ne (by omega)]

theorem has_overwrite {code : Code} {lo : Nat} {bytes : List UInt8}
    (h : lo + bytes.length ≤ code.size) : (code.overwrite lo bytes).Has lo bytes := by
  induction bytes generalizing code lo with
  | nil => intro j hj; cases hj
  | cons byte rest ih =>
      rw [List.length_cons] at h
      have hrest : Has (overwrite (code.setIfInBounds lo byte) (lo + 1) rest) (lo + 1) rest :=
        ih (by rw [Array.size_setIfInBounds]; omega)
      intro j hj
      rw [Code.overwrite]
      cases j with
      | zero =>
          rw [getElem?_overwrite_of_outside (by omega), Nat.add_zero,
            Array.getElem?_setIfInBounds_self_of_lt (by omega)]
          rfl
      | succ j =>
          rw [List.length_cons] at hj
          rw [show lo + (j + 1) = lo + 1 + j by omega, hrest j (by omega)]
          rfl

theorem truncate_append (code : Code) (bytes : List UInt8) :
    Code.truncate (code ++ bytes) code.size = code := by
  apply Array.toList_inj.1
  rw [Code.truncate, Array.toList_shrink, Array.toList_appendList, ← Array.length_toList,
    List.take_left]

theorem overwrite_append (code : Code) (byte byte' : UInt8) :
    Code.overwrite (code ++ [byte]) code.size [byte'] = code ++ [byte'] := by
  apply Array.toList_inj.1
  rw [Code.overwrite, Code.overwrite, Array.toList_setIfInBounds, Array.toList_appendList,
    Array.toList_appendList, ← Array.length_toList, List.set_append_right _ _ (Nat.le_refl _),
    Nat.sub_self]
  rfl

theorem Agree.mono {code code' : Code} {lo hi lo' hi' : Nat} (h : Agree code code' lo hi)
    (hlo : lo ≤ lo') (hhi : hi' ≤ hi) : Agree code code' lo' hi' :=
  fun j h₁ h₂ => h j (by omega) (by omega)

theorem Agree.trans {a b c : Code} {lo hi : Nat} (h₁ : Agree a b lo hi) (h₂ : Agree b c lo hi) :
    Agree a c lo hi :=
  fun j hlo hhi => (h₂ j hlo hhi).trans (h₁ j hlo hhi)

end Code

/-! ## Fetched instructions -/

/-- An instruction has no operand, one or two, and its opcode with these operands gives it
back. -/
theorem Instruction.shape (i : Instruction) :
    (i.opcode.widths = [] ∧ Instruction.ofOpcode 0 0 i.opcode = i) ∨
    (∃ width n, i.opcode.widths = [width] ∧ i.operands = [n] ∧
      ∀ b, Instruction.ofOpcode n b i.opcode = i) ∨
    (∃ width₁ width₂ m n, i.opcode.widths = [width₁, width₂] ∧ i.operands = [m, n] ∧
      Instruction.ofOpcode m n i.opcode = i) := by
  cases i with
  | closure template captured => exact .inr (.inr ⟨2, 1, template, captured, rfl, rfl, rfl⟩)
  | constant n | jumpUnless n | jump n | getGlobal n | setGlobal n | array n | hash n =>
      exact .inr (.inl ⟨2, n, rfl, rfl, fun _ => rfl⟩)
  | call n | setLocal n | getLocal n | getBuiltin n | getCaptured n =>
      exact .inr (.inl ⟨1, n, rfl, rfl, fun _ => rfl⟩)
  | _ => exact .inl ⟨rfl, rfl⟩

namespace Code

/-- The instruction of an opcode at `lo`, with the operands that stand behind it. -/
def instructionAt (code : Code) (lo : Nat) (op : Opcode) : Instruction :=
  match op.widths with
  | [] => .ofOpcode 0 0 op
  | width :: widths =>
      .ofOpcode (code.operandAt (lo + 1) width)
        (code.operandAt (lo + 1 + width) (widths.headD 0)) op

theorem opcode_instructionAt (code : Code) (lo : Nat) (op : Opcode) :
    (code.instructionAt lo op).opcode = op := by
  cases op <;> rfl

/-- A fetch reads an opcode and its operands, all of them within the stream. -/
theorem holds_iff {code : Code} {lo hi : Nat} {i : Instruction} :
    code.Holds lo i hi ↔ code[lo]?.bind Opcode.ofByte? = some i.opcode ∧
      code.instructionAt lo i.opcode = i ∧ hi = lo + i.opcode.size ∧ hi ≤ code.size := by
  rw [Holds, Code.fetch?]
  constructor
  · intro h
    split at h
    · cases h
    · next byte hb =>
        split at h
        · cases h
        · next op hop =>
            split at h
            · next hle =>
                injection h with h
                injection h with h
                injection h with hinst hnext
                have hi : code.instructionAt lo op = i := hinst
                subst hi hnext
                rw [hb, opcode_instructionAt]
                exact ⟨hop, rfl, rfl, hle⟩
            · cases h
  · rintro ⟨hop, hi, rfl, hle⟩
    obtain ⟨byte, hb, hop⟩ := Option.bind_eq_some_iff.1 hop
    simp only [hb, hop, if_pos hle]
    show Except.ok (some (code.instructionAt lo i.opcode, lo + i.opcode.size)) = _
    rw [hi]

theorem holds_of_has {code : Code} {lo : Nat} {i : Instruction} (h : code.Has lo i.encode)
    (hfit : i.Fits) : code.Holds lo i (lo + i.opcode.size) := by
  have hsize := h.size_le (by rw [i.length_encode]; exact i.size_pos)
  rw [i.length_encode] at hsize
  rw [Instruction.encode, Opcode.encode, if_pos i.length_operands] at h
  have hbyte : code[lo]? = some i.opcode.toByte := h 0 (by rw [List.length_cons]; omega)
  have hargs : code.Has (lo + 1) (operandsBytes i.opcode.widths i.operands) :=
    @Has.right code lo [i.opcode.toByte] _ h
  refine holds_iff.2 ⟨?_, ?_, rfl, hsize⟩
  · rw [hbyte, Option.bind_some, Opcode.ofByte?_toByte]
  rw [Instruction.Fits, Opcode.Fits] at hfit
  rw [instructionAt]
  rcases i.shape with ⟨hw, hi⟩ | ⟨width, n, hw, hn, hi⟩ | ⟨width₁, width₂, m, n, hw, hn, hi⟩
  · simp only [hw, hi]
  · rw [hw, hn] at hargs hfit
    have hread := operandAt_eq hargs.left (List.forall₂_cons.1 hfit).1
    simp only [hw, hread, hi]
  · rw [hw, hn] at hargs hfit
    obtain ⟨hm, hfit⟩ := List.forall₂_cons.1 hfit
    have hread₁ := operandAt_eq hargs.left hm
    have hread₂ := operandAt_eq (Has.left hargs.right) (List.forall₂_cons.1 hfit).1
    rw [length_operandBytes] at hread₂
    simp only [hw, List.headD_cons, hread₁, hread₂, hi]

theorem Holds.bounds {code : Code} {lo hi : Nat} {i : Instruction} (h : code.Holds lo i hi) :
    hi = lo + i.opcode.size ∧ hi ≤ code.size :=
  (holds_iff.1 h).2.2

theorem Holds.opcode {code : Code} {lo hi : Nat} {i : Instruction} (h : code.Holds lo i hi) :
    code[lo]?.bind Opcode.ofByte? = some i.opcode :=
  (holds_iff.1 h).1

theorem Holds.lt {code : Code} {lo hi : Nat} {i : Instruction} (h : code.Holds lo i hi) :
    lo < hi := by
  have := h.bounds.1
  have := i.size_pos
  omega

theorem Holds.le_size {code : Code} {lo hi : Nat} {i : Instruction} (h : code.Holds lo i hi) :
    hi ≤ code.size :=
  h.bounds.2

theorem Holds.unique {code : Code} {lo hi hi' : Nat} {i i' : Instruction}
    (h : code.Holds lo i hi) (h' : code.Holds lo i' hi') : i = i' ∧ hi = hi' := by
  rw [Holds, h] at h'
  injection h' with h'
  injection h' with h'
  injection h' with h₁ h₂
  exact ⟨h₁, h₂⟩

theorem operandAt_congr {code code' : Code} {lo width : Nat}
    (h : Agree code code' lo (lo + width)) :
    code'.operandAt lo width = code.operandAt lo width := by
  induction width with
  | zero => rfl
  | succ width ih =>
      rw [Code.operandAt, Code.operandAt, ih (h.mono (Nat.le_refl _) (by omega)), Code.byteAt,
        Code.byteAt, h (lo + width) (by omega) (by omega)]

theorem instructionAt_congr {code code' : Code} {lo : Nat} {op : Opcode}
    (h : Agree code code' lo (lo + op.size)) :
    code'.instructionAt lo op = code.instructionAt lo op := by
  rw [instructionAt, instructionAt]
  cases hwidths : op.widths with
  | nil => rfl
  | cons width widths =>
      have hwide : 1 + width + widths.headD 0 ≤ op.size := by
        cases op <;> cases hwidths <;> decide
      have h₁ := operandAt_congr (h.mono (by omega) (by omega) : Agree _ _ _ (lo + 1 + width))
      have h₂ := operandAt_congr
        (h.mono (by omega) (by omega) : Agree _ _ _ (lo + 1 + width + widths.headD 0))
      simp only [h₁, h₂]

/-- A fetch reads the bytes of its instruction and no others. -/
theorem Holds.congr {code code' : Code} {lo hi : Nat} {i : Instruction}
    (h : code.Holds lo i hi) (hag : Agree code code' lo hi) : code'.Holds lo i hi := by
  obtain ⟨hop, hi, rfl, hle⟩ := holds_iff.1 h
  have hpos := i.size_pos
  -- The last byte of the instruction is in both streams, so the second is as long.
  have hlast := hag (lo + i.opcode.size - 1) (by omega) (by omega)
  rw [Array.getElem?_eq_getElem (by omega : lo + i.opcode.size - 1 < code.size)] at hlast
  have hsize := (Array.getElem?_eq_some_iff.1 hlast).1
  refine holds_iff.2 ⟨?_, ?_, rfl, by omega⟩
  · rw [hag lo (Nat.le_refl _) (by omega), hop]
  · rw [instructionAt_congr hag, hi]

end Code

end Monkey
