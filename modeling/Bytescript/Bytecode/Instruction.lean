/-
Instructions and their bytes.

An instruction is written as the byte of its opcode followed by its operands, most significant
byte first. Operands that are missing are written as zero, superfluous ones are left out, and of
an operand that is too large the low bytes are kept. `Instruction.decodeAt` reads back the
instruction that begins at an offset.
-/
import Bytescript.Bytecode.Opcode

namespace Bytescript

/-- An operation with its operands. -/
structure Instruction where
  opcode : Opcode
  operands : List Nat := []
  deriving DecidableEq, Repr

/-- The low `width` bytes of a number, most significant first. -/
def bigEndian : (width : Nat) → Nat → List UInt8
  | 0, _ => []
  | width + 1, n => (n >>> (8 * width)).toUInt8 :: bigEndian width n

/-- The number written at an offset by `width` bytes, most significant first. -/
def bigEndianAt? (bytes : Array UInt8) (offset : Nat) : (width : Nat) → Option Nat
  | 0 => some 0
  | width + 1 => do
    let high ← bigEndianAt? bytes offset width
    let low ← bytes[offset + width]?
    return 256 * high + low.toNat

namespace Instruction

/-- The bytes of operands of the given widths. -/
def encodeOperands : (widths operands : List Nat) → List UInt8
  | [], _ => []
  | width :: widths, operands =>
    bigEndian width (operands.headD 0) ++ encodeOperands widths operands.tail

/-- The bytes of an instruction. -/
def encode (i : Instruction) : List UInt8 :=
  i.opcode.toByte :: encodeOperands i.opcode.operandWidths i.operands

/-- The operands of the given widths that begin at an offset. -/
def operandsAt? (bytes : Array UInt8) : (widths : List Nat) → (offset : Nat) → Option (List Nat)
  | [], _ => some []
  | width :: widths, offset => do
    let operand ← bigEndianAt? bytes offset width
    let operands ← operandsAt? bytes widths (offset + width)
    return operand :: operands

/-- Why no instruction begins at an offset. -/
inductive Fault where
  | unknownOpcode (byte : UInt8)
  | truncatedOperands (opcode : Opcode)
  deriving DecidableEq, Repr

/-- The instruction that begins at an offset below the size of the code, with `byte` there. -/
def decodeFrom (bytes : Array UInt8) (offset : Nat) (byte : UInt8) : Except Fault Instruction :=
  match Opcode.ofByte? byte with
  | none => .error (.unknownOpcode byte)
  | some opcode =>
    match operandsAt? bytes opcode.operandWidths (offset + 1) with
    | none => .error (.truncatedOperands opcode)
    | some operands => .ok ⟨opcode, operands⟩

/-- The instruction that begins at an offset, if the code reaches that far. -/
def decodeAt (bytes : Array UInt8) (offset : Nat) : Option (Except Fault Instruction) :=
  bytes[offset]?.map (decodeFrom bytes offset)

end Instruction

end Bytescript
