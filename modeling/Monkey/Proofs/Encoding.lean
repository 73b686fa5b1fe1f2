import Monkey.Proofs.Placement

/-!
# Encoded streams and their two readers

A stream can be read in two ways. `decodeBytes` takes the opcode at the head of the bytes, then its
operands, and goes on behind them; that is how listings are made. A machine fetches at an offset
instead, and puts the operands into two slots. Writing and the first reader are inverse to each
other: the streams that can be read are those that were written, so every stream is read in one way.
Both readers agree at every offset of every stream, also at offsets where no instruction was
written and at the end, where operands are missing.

What carries both is that big-endian bytes and the numbers that fit them correspond one to one,
first for one operand, then for the operands of an opcode.
-/

namespace Monkey

/-! ## The two readers -/

/-- The opcode and the operands at the head of some bytes, and how many bytes they take. -/
def readHead : List UInt8 → Except DecodeError (Option ((Opcode × List Nat) × Nat))
  | [] => .ok none
  | byte :: rest => do
      let op ← Opcode.lookup byte
      let operands ← op.operands? rest
      return some ((op, operands), op.size)

theorem readHead_undefined {byte : UInt8} (h : Opcode.ofByte? byte = none) (rest : List UInt8) :
    readHead (byte :: rest) = .error (.undefinedOpcode byte) := by
  rw [readHead, Opcode.lookup, h]
  rfl

theorem readHead_defined {byte : UInt8} {op : Opcode} (h : Opcode.ofByte? byte = some op)
    (rest : List UInt8) :
    readHead (byte :: rest) =
      if op.operandSize ≤ rest.length then .ok (some ((op, takeOperands op.widths rest), op.size))
      else .error (.truncated op rest.length) := by
  have hlength : (rest.take op.operandSize).length = op.operandSize ↔
      op.operandSize ≤ rest.length := by
    rw [List.length_take]
    omega
  rw [readHead, Opcode.lookup, h]
  simp only [bind, Except.bind, Opcode.operands?, hlength]
  by_cases hle : op.operandSize ≤ rest.length
  · rw [if_pos hle, if_pos hle]
    rfl
  · rw [if_neg hle, if_neg hle]

theorem readHead_eq_some {bytes : List UInt8} {i : Opcode × List Nat} {size : Nat}
    (h : readHead bytes = .ok (some (i, size))) :
    ∃ byte rest, bytes = byte :: rest ∧ Opcode.ofByte? byte = some i.1 ∧
      i.1.operandSize ≤ rest.length ∧ i.2 = takeOperands i.1.widths rest ∧ size = i.1.size := by
  cases bytes with
  | nil => cases h
  | cons byte rest =>
      cases hop : Opcode.ofByte? byte with
      | none =>
          rw [readHead_undefined hop] at h
          cases h
      | some op =>
          rw [readHead_defined hop] at h
          split at h
          · next hlength =>
              cases h
              exact ⟨byte, rest, rfl, hop, hlength, rfl, rfl⟩
          · cases h

theorem readHead_eq_none {bytes : List UInt8} (h : readHead bytes = .ok none) : bytes = [] := by
  cases bytes with
  | nil => rfl
  | cons byte rest =>
      cases hop : Opcode.ofByte? byte with
      | none =>
          rw [readHead_undefined hop] at h
          cases h
      | some op =>
          rw [readHead_defined hop] at h
          split at h <;> cases h

/-- The opcodes and operands that some bytes fall into, with no byte left over. -/
def decodeBytes (bytes : List UInt8) : Except DecodeError (List (Opcode × List Nat)) :=
  match _here : readHead bytes with
  | .error cause => .error cause
  | .ok none => .ok []
  | .ok (some (i, size)) => (decodeBytes (bytes.drop size)).map (i :: ·)
termination_by bytes.length
decreasing_by
  obtain ⟨byte, rest, rfl, -, -, -, rfl⟩ := readHead_eq_some _here
  simp only [List.length_drop, List.length_cons, Opcode.size]
  omega

/-- The bytes of opcodes with their operands, one after the other. -/
def encodeAll (is : List (Opcode × List Nat)) : List UInt8 :=
  is.flatMap fun i => i.1.encode i.2

namespace Code

/-- The operand at an offset as a machine reads it: two bytes if it is two wide, else one byte. -/
def slotAt (code : Code) (offset width : Nat) : Nat :=
  if width = 2 then 256 * code.byteAt offset + code.byteAt (offset + 1) else code.byteAt offset

/-- Fills slots with the operands of some widths, and gives the offset behind them. A slot that gets
no operand keeps what it has. -/
def fillSlots (code : Code) (offset : Nat) : List Nat → List Nat → List Nat × Nat
  | width :: widths, _ :: slots =>
      let (filled, next) := code.fillSlots (offset + width) widths slots
      (code.slotAt offset width :: filled, next)
  | _, slots => (slots, offset)

/-- The opcode at an offset, its operands in two slots, and the offset behind them. -/
def fetchSlots? (code : Code) (ip : Nat) : Except DecodeError (Option (Opcode × List Nat × Nat)) :=
  match code[ip]? with
  | none => .ok none
  | some byte => do
      let op ← Opcode.lookup byte
      let available := code.size - ip - 1
      if available < op.size - 1 then .error (.truncated op available)
      else
        let (slots, next) := code.fillSlots (ip + 1) op.widths [0, 0]
        return some (op, slots, next)

end Code

/-! ## Bytes and numbers -/

theorem operandValue_concat (bytes : List UInt8) (byte : UInt8) :
    operandValue (bytes ++ [byte]) = 256 * operandValue bytes + byte.toNat := by
  rw [operandValue, List.foldl_append]
  rfl

theorem operandValue_lt (bytes : List UInt8) : operandValue bytes < 256 ^ bytes.length := by
  induction bytes using List.reverseRecOn with
  | nil => decide
  | append_singleton bytes byte ih =>
      have hbyte := byte.toNat_lt
      rw [operandValue_concat, List.length_append, List.length_singleton, Nat.pow_succ]
      omega

theorem operandValue_operandBytes {width n : Nat} (h : n < 256 ^ width) :
    operandValue (operandBytes width n) = n := by
  induction width generalizing n with
  | zero =>
      rw [Nat.pow_zero] at h
      rw [operandBytes, Nat.lt_one_iff.1 h]
      rfl
  | succ width ih =>
      rw [Nat.pow_succ] at h
      rw [operandBytes, operandValue_concat, ih (Nat.div_lt_of_lt_mul (by omega)),
        UInt8.toNat_ofNat']
      omega

theorem operandBytes_operandValue (bytes : List UInt8) :
    operandBytes bytes.length (operandValue bytes) = bytes := by
  induction bytes using List.reverseRecOn with
  | nil => rfl
  | append_singleton bytes byte ih =>
      have hbyte := byte.toNat_lt
      have hhigh : (256 * operandValue bytes + byte.toNat) / 256 = operandValue bytes := by omega
      have hlow : UInt8.ofNat (256 * operandValue bytes + byte.toNat) = byte := by
        rw [← UInt8.toNat_inj, UInt8.toNat_ofNat']
        omega
      rw [List.length_append, List.length_singleton, operandValue_concat, operandBytes, hhigh, hlow,
        ih]

/-! ## The operands of an opcode -/

section

variable {widths operands : List Nat} {bytes rest : List UInt8}

theorem takeOperands_operandsBytes
    (h : List.Forall₂ (fun n width => n < 256 ^ width) operands widths) :
    takeOperands widths (operandsBytes widths operands ++ rest) = operands := by
  induction h with
  | nil => rfl
  | @cons n width operands widths hn _ ih =>
      have hlength := length_operandBytes width n
      rw [operandsBytes, List.append_assoc, takeOperands, List.take_left' hlength,
        List.drop_left' hlength, operandValue_operandBytes hn, ih]

theorem fits_takeOperands (h : widths.sum ≤ bytes.length) :
    List.Forall₂ (fun n width => n < 256 ^ width) (takeOperands widths bytes) widths := by
  induction widths generalizing bytes with
  | nil => exact .nil
  | cons width widths ih =>
      rw [List.sum_cons] at h
      have hlength : (bytes.take width).length = width := List.length_take_of_le (by omega)
      refine .cons ?_ (ih (by rw [List.length_drop]; omega))
      have hlt := operandValue_lt (bytes.take width)
      rwa [hlength] at hlt

theorem operandsBytes_takeOperands (h : widths.sum ≤ bytes.length) :
    operandsBytes widths (takeOperands widths bytes) = bytes.take widths.sum := by
  induction widths generalizing bytes with
  | nil => rfl
  | cons width widths ih =>
      rw [List.sum_cons] at h
      have hlength : (bytes.take width).length = width := List.length_take_of_le (by omega)
      have hfirst : operandBytes width (operandValue (bytes.take width)) = bytes.take width := by
        have hbytes := operandBytes_operandValue (bytes.take width)
        rwa [hlength] at hbytes
      rw [takeOperands, operandsBytes, hfirst, ih (by rw [List.length_drop]; omega), List.sum_cons,
        List.take_add]

end

namespace Opcode

variable {op : Opcode} {byte : UInt8}

theorem operandSize_eq_sum (op : Opcode) : op.operandSize = op.widths.sum := by
  cases op <;> rfl

/-- The table of opcodes is in the order of their bytes. -/
theorem toByte_all : ∀ i : Fin all.size, all[i].toByte.toNat = i := by
  decide

theorem ofByte?_eq_some : ofByte? byte = some op ↔ byte = op.toByte := by
  constructor
  · intro h
    obtain ⟨hlt, rfl⟩ := Array.getElem?_eq_some_iff.1 h
    rw [← UInt8.toNat_inj]
    exact (toByte_all ⟨byte.toNat, hlt⟩).symm
  · rintro rfl
    exact ofByte?_toByte op

end Opcode

/-! ## Writing and reading are inverse -/

section

variable {op : Opcode} {operands : List Nat} {bytes : List UInt8}

theorem Opcode.Fits.encode_eq (h : op.Fits operands) :
    op.encode operands = op.toByte :: operandsBytes op.widths operands := by
  rw [Opcode.encode, if_pos (List.Forall₂.length_eq h)]

theorem Opcode.Fits.length_encode (h : op.Fits operands) :
    (op.encode operands).length = op.size := by
  rw [h.encode_eq, List.length_cons, length_operandsBytes (List.Forall₂.length_eq h), Opcode.size,
    Opcode.operandSize_eq_sum, Nat.add_comm]

/-- What is written is read back, whatever comes behind it. -/
theorem readHead_encode (h : op.Fits operands) (rest : List UInt8) :
    readHead (op.encode operands ++ rest) = .ok (some ((op, operands), op.size)) := by
  have hlength : op.operandSize ≤ (operandsBytes op.widths operands ++ rest).length := by
    rw [List.length_append, length_operandsBytes (List.Forall₂.length_eq h),
      Opcode.operandSize_eq_sum]
    exact Nat.le_add_right _ _
  rw [h.encode_eq, List.cons_append, readHead_defined (Opcode.ofByte?_toByte op), if_pos hlength,
    takeOperands_operandsBytes h]

/-- What is read was written there. -/
theorem encode_of_readHead {i : Opcode × List Nat} {size : Nat}
    (h : readHead bytes = .ok (some (i, size))) :
    i.1.Fits i.2 ∧ bytes = i.1.encode i.2 ++ bytes.drop size := by
  obtain ⟨byte, rest, rfl, hop, hlength, hargs, rfl⟩ := readHead_eq_some h
  rw [Opcode.operandSize_eq_sum] at hlength
  have hfits : i.1.Fits i.2 := hargs ▸ fits_takeOperands hlength
  refine ⟨hfits, ?_⟩
  rw [hfits.encode_eq, hargs, operandsBytes_takeOperands hlength, Opcode.size,
    Opcode.operandSize_eq_sum, Nat.add_comm, List.drop_succ_cons, List.cons_append,
    List.take_append_drop, Opcode.ofByte?_eq_some.1 hop]

theorem decodeBytes_encodeAll {is : List (Opcode × List Nat)} (h : ∀ i ∈ is, i.1.Fits i.2) :
    decodeBytes (encodeAll is) = .ok is := by
  induction is with
  | nil =>
      rw [decodeBytes]
      rfl
  | cons i is ih =>
      obtain ⟨hi, his⟩ := List.forall_mem_cons.1 h
      have hhead : readHead (encodeAll (i :: is)) = .ok (some (i, i.1.size)) :=
        readHead_encode hi (encodeAll is)
      have hdrop : (encodeAll (i :: is)).drop i.1.size = encodeAll is :=
        List.drop_left' hi.length_encode
      rw [decodeBytes]
      split
      · next heq => cases hhead.symm.trans heq
      · next heq => cases hhead.symm.trans heq
      · next heq =>
          cases hhead.symm.trans heq
          rw [hdrop, ih his]
          rfl

theorem encodeAll_of_decodeBytes {is : List (Opcode × List Nat)} (h : decodeBytes bytes = .ok is) :
    (∀ i ∈ is, i.1.Fits i.2) ∧ bytes = encodeAll is := by
  fun_induction decodeBytes bytes generalizing is with
  | case1 => cases h
  | case2 bytes hhead =>
      cases h
      exact ⟨List.forall_mem_nil _, readHead_eq_none hhead⟩
  | case3 bytes i size hhead ih =>
      cases hmore : decodeBytes (bytes.drop size) with
      | error cause =>
          rw [hmore] at h
          cases h
      | ok more =>
          rw [hmore] at h
          cases h
          obtain ⟨hfits, hbytes⟩ := ih hmore
          obtain ⟨hi, hhead⟩ := encode_of_readHead hhead
          refine ⟨List.forall_mem_cons.2 ⟨hi, hfits⟩, ?_⟩
          rw [hbytes] at hhead
          exact hhead

end

/-! ## Fetching at an offset -/

namespace Opcode

/-- No opcode has more than two operands, and each takes one byte or two. -/
theorem widths_cases (op : Opcode) :
    op.widths = [] ∨ op.widths = [1] ∨ op.widths = [2] ∨ op.widths = [2, 1] := by
  cases op <;> decide

/-- The operands in two slots; a slot without an operand holds zero. -/
def slots (operands : List Nat) : List Nat :=
  [operands.getD 0 0, operands.getD 1 0]

end Opcode

theorem Instruction.opcode_ofOpcode (a b : Nat) (op : Opcode) :
    (Instruction.ofOpcode a b op).opcode = op := by
  cases op <;> rfl

theorem Instruction.operands_ofOpcode (a b : Nat) (op : Opcode) :
    (Instruction.ofOpcode a b op).operands = [a, b].take op.widths.length := by
  cases op <;> rfl

/-- An instruction made from the slots has the operands that were put there. -/
theorem Instruction.operands_slots {op : Opcode} {operands : List Nat} (h : op.Fits operands) :
    (Instruction.ofOpcode ((Opcode.slots operands).getD 0 0) ((Opcode.slots operands).getD 1 0)
      op).operands = operands := by
  have hlength : operands.length = op.widths.length := List.Forall₂.length_eq h
  rw [operands_ofOpcode, ← hlength]
  rcases op.widths_cases with hw | hw | hw | hw <;> rw [hw] at hlength
  · rw [List.length_eq_zero_iff.1 hlength]
    rfl
  · obtain ⟨n, rfl⟩ := List.length_eq_one_iff.1 hlength
    rfl
  · obtain ⟨n, rfl⟩ := List.length_eq_one_iff.1 hlength
    rfl
  · obtain ⟨m, n, rfl⟩ := List.length_eq_two.1 hlength
    rfl

namespace Code

variable {code : Code} {ip offset width : Nat}

theorem operandValue_take (h : offset + width ≤ code.size) :
    operandValue ((code.toList.drop offset).take width) = code.operandAt offset width := by
  induction width with
  | zero => rfl
  | succ width ih =>
      have hlt : offset + width < code.toList.length := by
        rw [Array.length_toList]
        omega
      have hbyte : (code.toList.drop offset)[width]? = some code.toList[offset + width] := by
        rw [List.getElem?_drop, List.getElem?_eq_getElem hlt]
      rw [List.take_add_one, hbyte, Option.toList_some, operandValue_concat, ih (by omega),
        operandAt, byteAt, ← Array.getElem?_toList, List.getElem?_eq_getElem hlt]
      rfl

theorem slotAt_eq (h : width = 1 ∨ width = 2) :
    code.slotAt offset width = code.operandAt offset width := by
  rcases h with rfl | rfl <;> simp [slotAt, operandAt]

/-- The loop over the slots reads what is read from the head of the bytes there, and ends behind. -/
theorem fillSlots_eq {op : Opcode} (h : offset + op.operandSize ≤ code.size) :
    code.fillSlots offset op.widths [0, 0] =
      (Opcode.slots (takeOperands op.widths (code.toList.drop offset)),
        offset + op.operandSize) := by
  rw [Opcode.operandSize_eq_sum] at h ⊢
  rcases op.widths_cases with hw | hw | hw | hw <;> rw [hw] at h ⊢
  · rfl
  · have hfirst := operandValue_take (show offset + 1 ≤ code.size from h)
    simp [fillSlots, takeOperands, Opcode.slots, slotAt_eq, hfirst]
  · have hfirst := operandValue_take (show offset + 2 ≤ code.size from h)
    simp [fillSlots, takeOperands, Opcode.slots, slotAt_eq, hfirst]
  · have hfirst := operandValue_take (show offset + 2 ≤ code.size from Nat.le_of_succ_le h)
    have hsecond := operandValue_take (show offset + 2 + 1 ≤ code.size from h)
    simp [fillSlots, takeOperands, Opcode.slots, slotAt_eq, hfirst, hsecond, Nat.add_assoc]

theorem fetchSlots?_defined {byte : UInt8} {op : Opcode} (hbyte : code[ip]? = some byte)
    (hop : Opcode.ofByte? byte = some op) :
    code.fetchSlots? ip =
      if ip + op.size ≤ code.size then
        .ok (some (op, Opcode.slots (takeOperands op.widths (code.toList.drop (ip + 1))),
          ip + op.size))
      else .error (.truncated op (code.size - (ip + 1))) := by
  have hip := (Array.getElem?_eq_some_iff.1 hbyte).1
  have hsize : op.size = 1 + op.operandSize := rfl
  simp only [fetchSlots?, hbyte, Opcode.lookup, hop, bind, Except.bind]
  by_cases hle : ip + op.size ≤ code.size
  · rw [if_pos hle, if_neg (by omega), fillSlots_eq (by omega), Nat.add_assoc, ← hsize]
    rfl
  · rw [if_neg hle, if_pos (by omega), Nat.sub_sub]

/-- A machine reads at an offset what is read from the head of the bytes there. -/
theorem fetchSlots?_eq (code : Code) (ip : Nat) :
    code.fetchSlots? ip = (readHead (code.toList.drop ip)).map
      (Option.map fun i => (i.1.1, Opcode.slots i.1.2, ip + i.2)) := by
  cases hbyte : code[ip]? with
  | none =>
      have hle : code.toList.length ≤ ip := by
        rw [Array.length_toList]
        exact Array.getElem?_eq_none_iff.1 hbyte
      rw [fetchSlots?, hbyte, List.drop_eq_nil_of_le hle]
      rfl
  | some byte =>
      obtain ⟨hip, rfl⟩ := Array.getElem?_eq_some_iff.1 hbyte
      have hdrop : code.toList.drop ip = code[ip] :: code.toList.drop (ip + 1) :=
        List.drop_eq_getElem_cons (by rwa [Array.length_toList])
      have hrest : (code.toList.drop (ip + 1)).length = code.size - (ip + 1) := by
        rw [List.length_drop, Array.length_toList]
      rw [hdrop]
      cases hop : Opcode.ofByte? code[ip] with
      | none =>
          rw [readHead_undefined hop, fetchSlots?, hbyte]
          simp only [Opcode.lookup, hop]
          rfl
      | some op =>
          have hfits : ip + op.size ≤ code.size ↔ op.operandSize ≤ code.size - (ip + 1) := by
            rw [Opcode.size]
            omega
          rw [readHead_defined hop, fetchSlots?_defined hbyte hop, hrest]
          simp only [hfits]
          split <;> rfl

theorem instructionAt_eq {op : Opcode} (h : ip + 1 + op.operandSize ≤ code.size) :
    code.instructionAt ip op =
      let slots := Opcode.slots (takeOperands op.widths (code.toList.drop (ip + 1)))
      Instruction.ofOpcode (slots.getD 0 0) (slots.getD 1 0) op := by
  rw [Opcode.operandSize_eq_sum] at h
  rw [instructionAt]
  rcases op.widths_cases with hw | hw | hw | hw <;> simp only [hw] at h ⊢
  · rfl
  · have hfirst := operandValue_take (show ip + 1 + 1 ≤ code.size from h)
    simp [takeOperands, Opcode.slots, operandAt, hfirst]
  · have hfirst := operandValue_take (show ip + 1 + 2 ≤ code.size from h)
    simp [takeOperands, Opcode.slots, operandAt, hfirst]
  · have hfirst := operandValue_take (show ip + 1 + 2 ≤ code.size from Nat.le_of_succ_le h)
    have hsecond := operandValue_take (show ip + 1 + 2 + 1 ≤ code.size from h)
    simp [takeOperands, Opcode.slots, hfirst, hsecond, Nat.add_assoc]

/-- The instruction that a machine executes is the opcode with its slots. -/
theorem fetch?_eq (code : Code) (ip : Nat) :
    code.fetch? ip = (code.fetchSlots? ip).map (Option.map fun i =>
      (Instruction.ofOpcode (i.2.1.getD 0 0) (i.2.1.getD 1 0) i.1, i.2.2)) := by
  cases hbyte : code[ip]? with
  | none =>
      rw [fetch?, fetchSlots?, hbyte]
      rfl
  | some byte =>
      have hip := (Array.getElem?_eq_some_iff.1 hbyte).1
      cases hop : Opcode.ofByte? byte with
      | none =>
          rw [fetch?, fetchSlots?, hbyte]
          simp only [Opcode.lookup, hop]
          rfl
      | some op =>
          rw [fetchSlots?_defined hbyte hop, fetch?, hbyte]
          simp only [hop]
          by_cases hle : ip + op.size ≤ code.size
          · have hi := instructionAt_eq (show ip + 1 + op.operandSize ≤ code.size by
              rwa [Nat.add_assoc])
            rw [if_pos hle, if_pos hle]
            exact congrArg (fun i => Except.ok (some (i, ip + op.size))) hi
          · rw [if_neg hle, if_neg hle]
            rfl

/-- Seen as an opcode with operands, a fetch is a reading of the bytes from its offset on. -/
theorem fetch?_operands (code : Code) (ip : Nat) :
    (code.fetch? ip).map (Option.map fun i => ((i.1.opcode, i.1.operands), i.2)) =
      (readHead (code.toList.drop ip)).map (Option.map fun i => (i.1, ip + i.2)) := by
  rw [fetch?_eq, fetchSlots?_eq]
  cases hread : readHead (code.toList.drop ip) with
  | error cause => rfl
  | ok found =>
      cases found with
      | none => rfl
      | some found =>
          obtain ⟨⟨op, operands⟩, size⟩ := found
          have hoperands := Instruction.operands_slots (encode_of_readHead hread).1
          simp only [Except.map, Option.map_some, Instruction.opcode_ofOpcode, hoperands]

theorem fetch?_eq_none : code.fetch? ip = .ok none ↔ code.size ≤ ip := by
  rw [fetch?_eq, fetchSlots?_eq, ← Array.length_toList, ← List.drop_eq_nil_iff]
  constructor
  · intro h
    refine readHead_eq_none ?_
    cases hread : readHead (code.toList.drop ip) with
    | error cause =>
        rw [hread] at h
        cases h
    | ok found =>
        cases found with
        | none => rfl
        | some found =>
            rw [hread] at h
            cases h
  · intro h
    rw [h]
    rfl

end Code

/-- The streams that can be read are those that were written, and they are read as what was written.
A fetch at any offset of any stream finds what reading from the head of the bytes there finds: the
same opcode with its operands in the slots of the machine and zero in the others, the same number of
bytes, or the same error; and it finds nothing just at the end of the stream and behind. -/
theorem decodeBytes_iff_and_fetch_agrees :
    (∀ (bytes : List UInt8) (is : List (Opcode × List Nat)),
      decodeBytes bytes = .ok is ↔ (∀ i ∈ is, i.1.Fits i.2) ∧ bytes = encodeAll is) ∧
    ∀ (code : Code) (ip : Nat),
      code.fetchSlots? ip = (readHead (code.toList.drop ip)).map
        (Option.map fun i => (i.1.1, Opcode.slots i.1.2, ip + i.2)) ∧
      code.fetch? ip = (code.fetchSlots? ip).map (Option.map fun i =>
        (Instruction.ofOpcode (i.2.1.getD 0 0) (i.2.1.getD 1 0) i.1, i.2.2)) ∧
      (code.fetch? ip).map (Option.map fun i => ((i.1.opcode, i.1.operands), i.2)) =
        (readHead (code.toList.drop ip)).map (Option.map fun i => (i.1, ip + i.2)) ∧
      (code.fetch? ip = .ok none ↔ code.size ≤ ip) := by
  refine ⟨fun bytes is => ⟨encodeAll_of_decodeBytes, ?_⟩, fun code ip => ?_⟩
  · rintro ⟨hfits, rfl⟩
    exact decodeBytes_encodeAll hfits
  · exact ⟨code.fetchSlots?_eq ip, code.fetch?_eq ip, code.fetch?_operands ip, Code.fetch?_eq_none⟩

-- An offset inside an instruction: the operand bytes of a closure read as a jump that is cut off.
example :
    let code : Code := (encodeAll [(.closure, [0x0E0E, 5])]).toArray
    code.fetchSlots? 0 = .ok (some (.closure, [0x0E0E, 5], 4)) ∧
      code.fetchSlots? 1 = .ok (some (.jump, [0x0E05, 0], 4)) ∧
      code.fetchSlots? 2 = .error (.truncated .jump 1) := by
  decide +kernel

end Monkey
