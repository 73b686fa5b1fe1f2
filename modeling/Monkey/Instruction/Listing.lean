import Monkey.Instruction.Basic
import Monkey.Text.Style

/-!
# Listings of instruction streams

A stream of bytes falls into segments: whole instructions, single bytes that are no
opcode, and at the end perhaps an instruction whose operands are missing. A listing has
one line for each, with its offset.
-/

namespace Monkey

/-- A piece of a stream of bytes. -/
inductive Segment where
  | instruction (opcode : Opcode) (operands : List Nat)
  | undefined (byte : UInt8)
  /-- The rest of the stream, too short for its opcode. -/
  | truncated (opcode : Opcode) (available : Nat)
  deriving DecidableEq

/-- The text of a segment. -/
def Segment.render : Segment → String
  | .instruction opcode operands =>
      operands.foldl (fun out n => out ++ " " ++ toString n) opcode.mnemonic
  | .undefined byte => "ERROR: " ++ (DecodeError.undefinedOpcode byte).message
  | .truncated opcode available => "ERROR: " ++ (DecodeError.truncated opcode available).message

/-- The segments of the bytes from an offset on, each with its own offset;
`done` holds those before, the last first. -/
def segmentsFrom (offset : Nat) (bytes : List UInt8) (done : List (Nat × Segment)) :
    List (Nat × Segment) :=
  match bytes with
  | [] => done.reverse
  | byte :: rest =>
      match Opcode.ofByte? byte with
      | none => segmentsFrom (offset + 1) rest ((offset, .undefined byte) :: done)
      | some op =>
          match op.operands? rest with
          | .ok operands =>
              segmentsFrom (offset + op.size) (rest.drop op.operandSize)
                ((offset, .instruction op operands) :: done)
          | .error _ => ((offset, .truncated op rest.length) :: done).reverse
termination_by bytes.length

/-- The segments of a stream. -/
def Code.segments (code : Code) : List (Nat × Segment) :=
  segmentsFrom 0 code.toList []

/-- The listing of a stream: a line per segment, with its offset in four or more
digits. -/
def Code.listing (code : Code) : String :=
  code.segments.foldl
    (fun out s => out ++ Text.padZeros 4 s.1 ++ " " ++ s.2.render ++ "\n") ""

end Monkey
