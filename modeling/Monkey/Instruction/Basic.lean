import Monkey.Instruction.Opcode

/-!
# Instructions and their encoding

An instruction is an opcode with its operands. Operands are stored big-endian in
their fixed widths. Two readers take a stream apart: `Opcode.operands?` reads from the
head of a list of bytes, and `Code.fetch?` reads at an offset, which is what a running
program does.
-/

namespace Monkey

/-- An instruction with its operands. -/
inductive Instruction where
  | constant (index : Nat)
  | add
  | subtract
  | multiply
  | divide
  | pop
  | pushTrue
  | pushFalse
  | equal
  | notEqual
  | greater
  | negate
  | not
  | jumpUnless (target : Nat)
  | jump (target : Nat)
  | pushNull
  | getGlobal (index : Nat)
  | setGlobal (index : Nat)
  | array (count : Nat)
  | hash (count : Nat)
  | index
  | call (arguments : Nat)
  | returnValue
  | returnNull
  | setLocal (slot : Nat)
  | getLocal (slot : Nat)
  | getBuiltin (index : Nat)
  | closure (template captured : Nat)
  | getCaptured (index : Nat)
  | currentClosure
  deriving DecidableEq

namespace Instruction

/-- What the instruction does. -/
def opcode : Instruction → Opcode
  | .constant _ => .constant
  | .add => .add
  | .subtract => .subtract
  | .multiply => .multiply
  | .divide => .divide
  | .pop => .pop
  | .pushTrue => .pushTrue
  | .pushFalse => .pushFalse
  | .equal => .equal
  | .notEqual => .notEqual
  | .greater => .greater
  | .negate => .negate
  | .not => .not
  | .jumpUnless _ => .jumpUnless
  | .jump _ => .jump
  | .pushNull => .pushNull
  | .getGlobal _ => .getGlobal
  | .setGlobal _ => .setGlobal
  | .array _ => .array
  | .hash _ => .hash
  | .index => .index
  | .call _ => .call
  | .returnValue => .returnValue
  | .returnNull => .returnNull
  | .setLocal _ => .setLocal
  | .getLocal _ => .getLocal
  | .getBuiltin _ => .getBuiltin
  | .closure _ _ => .closure
  | .getCaptured _ => .getCaptured
  | .currentClosure => .currentClosure

/-- The operands, in order. -/
def operands : Instruction → List Nat
  | .constant n | .jumpUnless n | .jump n | .getGlobal n | .setGlobal n | .array n | .hash n
  | .call n | .setLocal n | .getLocal n | .getBuiltin n | .getCaptured n => [n]
  | .closure template captured => [template, captured]
  | _ => []

/-- The instruction with an opcode. It takes as many of the operands `a` and
`b` as it has. -/
def ofOpcode (a b : Nat) : Opcode → Instruction
  | .constant => .constant a
  | .add => .add
  | .subtract => .subtract
  | .multiply => .multiply
  | .divide => .divide
  | .pop => .pop
  | .pushTrue => .pushTrue
  | .pushFalse => .pushFalse
  | .equal => .equal
  | .notEqual => .notEqual
  | .greater => .greater
  | .negate => .negate
  | .not => .not
  | .jumpUnless => .jumpUnless a
  | .jump => .jump a
  | .pushNull => .pushNull
  | .getGlobal => .getGlobal a
  | .setGlobal => .setGlobal a
  | .array => .array a
  | .hash => .hash a
  | .index => .index
  | .call => .call a
  | .returnValue => .returnValue
  | .returnNull => .returnNull
  | .setLocal => .setLocal a
  | .getLocal => .getLocal a
  | .getBuiltin => .getBuiltin a
  | .closure => .closure a b
  | .getCaptured => .getCaptured a
  | .currentClosure => .currentClosure

end Instruction

/-- A stream of encoded instructions. -/
abbrev Code := Array UInt8

/-- The last `width` big-endian bytes of a number. -/
def operandBytes : Nat → Nat → List UInt8
  | 0, _ => []
  | width + 1, n => operandBytes width (n / 256) ++ [UInt8.ofNat n]

/-- The number that big-endian bytes stand for. -/
def operandValue (bytes : List UInt8) : Nat :=
  bytes.foldl (fun n b => 256 * n + b.toNat) 0

/-- The operands as bytes, each in its width. -/
def operandsBytes : List Nat → List Nat → List UInt8
  | width :: widths, n :: operands => operandBytes width n ++ operandsBytes widths operands
  | _, _ => []

/-- The bytes of an opcode with operands. A number of operands that is not the
opcode's own has no encoding, and an operand keeps only what its width holds. -/
def Opcode.encode (op : Opcode) (operands : List Nat) : List UInt8 :=
  if operands.length = op.widths.length then op.toByte :: operandsBytes op.widths operands
  else []

/-- The bytes of an instruction. -/
def Instruction.encode (i : Instruction) : List UInt8 :=
  i.opcode.encode i.operands

/-- Why bytes do not start with an instruction. -/
inductive DecodeError where
  | undefinedOpcode (byte : UInt8)
  /-- The operands of the opcode go past the end of the bytes. -/
  | truncated (opcode : Opcode) (available : Nat)
  deriving DecidableEq

/-- The wording of an error. -/
def DecodeError.message : DecodeError → String
  | .undefinedOpcode byte => "opcode " ++ toString byte.toNat ++ " undefined"
  | .truncated opcode available =>
      opcode.mnemonic ++ " needs " ++ toString opcode.operandSize ++ " operand bytes, only " ++
        toString available ++ " left"

/-- The opcode of a byte. -/
def Opcode.lookup (byte : UInt8) : Except DecodeError Opcode :=
  match Opcode.ofByte? byte with
  | some op => .ok op
  | none => .error (.undefinedOpcode byte)

/-- Reads operands of the given widths from the head of a list of bytes. -/
def takeOperands : List Nat → List UInt8 → List Nat
  | [], _ => []
  | width :: widths, bytes =>
      operandValue (bytes.take width) :: takeOperands widths (bytes.drop width)

/-- The operands of an opcode, read from the bytes after it. -/
def Opcode.operands? (op : Opcode) (bytes : List UInt8) : Except DecodeError (List Nat) :=
  if (bytes.take op.operandSize).length = op.operandSize then
    .ok (takeOperands op.widths bytes)
  else .error (.truncated op bytes.length)

namespace Code

/-- The byte at an offset. -/
def byteAt (code : Code) (offset : Nat) : Nat :=
  (code[offset]?.getD 0).toNat

/-- The operand of some width at an offset. -/
def operandAt (code : Code) (offset : Nat) : Nat → Nat
  | 0 => 0
  | width + 1 => 256 * code.operandAt offset width + code.byteAt (offset + width)

/-- The instruction at an offset and the offset after it, or nothing at the end
of the stream. -/
def fetch? (code : Code) (ip : Nat) : Except DecodeError (Option (Instruction × Nat)) :=
  match code[ip]? with
  | none => .ok none
  | some byte =>
      match Opcode.ofByte? byte with
      | none => .error (.undefinedOpcode byte)
      | some op =>
          if ip + op.size ≤ code.size then
            let instruction := match op.widths with
              | [] => Instruction.ofOpcode 0 0 op
              | width :: widths =>
                  Instruction.ofOpcode (code.operandAt (ip + 1) width)
                    (code.operandAt (ip + 1 + width) (widths.headD 0)) op
            .ok (some (instruction, ip + op.size))
          else .error (.truncated op (code.size - (ip + 1)))

/-- The stream cut off after a number of bytes. -/
def truncate (code : Code) (size : Nat) : Code :=
  code.shrink size

/-- The stream with bytes written over those from an offset on. -/
def overwrite (code : Code) (offset : Nat) : List UInt8 → Code
  | [] => code
  | byte :: rest => overwrite (code.setIfInBounds offset byte) (offset + 1) rest

end Code

end Monkey
