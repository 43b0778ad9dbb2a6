/-
The operations of the stack machine.

An opcode is one byte, followed by operands of one or two bytes each. The byte of an opcode is
its place in `Opcode.all`.
-/

namespace Bytescript

/-- The operations of the stack machine. -/
inductive Opcode where
  /-- Push a constant. -/
  | constant
  /-- Drop the top of the stack. -/
  | pop
  | add | sub | mul | div | mod
  | true | false | null
  | equal | notEqual | greaterThan | greaterEqual
  | minus | bang
  /-- Jump unless the top of the stack counts as true. -/
  | jumpNotTruthy
  | jump
  | getGlobal | setGlobal | assignGlobal
  | getLocal | setLocal | assignLocal
  | getBuiltin
  /-- Push a captured value of the running closure. -/
  | getFree
  | array | hash | index
  | call
  | returnValue
  /-- Return without a value. -/
  | ret
  /-- Make a closure of a function constant and the captured values on the stack. -/
  | closure
  /-- Push the running closure. -/
  | currentClosure
  deriving DecidableEq, Repr, Inhabited

namespace Opcode

/-- All opcodes, each at the place given by its byte. -/
def all : Array Opcode := #[
  constant, pop, add, sub, mul, div, mod, true, false, null,
  equal, notEqual, greaterThan, greaterEqual, minus, bang,
  jumpNotTruthy, jump,
  getGlobal, setGlobal, assignGlobal, getLocal, setLocal, assignLocal, getBuiltin, getFree,
  array, hash, index, call, returnValue, ret, closure, currentClosure]

/-- The byte of an opcode. -/
def toByte (op : Opcode) : UInt8 :=
  op.ctorIdx.toUInt8

/-- The opcode of a byte. -/
def ofByte? (byte : UInt8) : Option Opcode :=
  all[byte.toNat]?

/-- The mnemonic of an opcode in listings. -/
def mnemonic : Opcode → String
  | constant => "OpConstant"
  | pop => "OpPop"
  | add => "OpAdd"
  | sub => "OpSub"
  | mul => "OpMul"
  | div => "OpDiv"
  | mod => "OpMod"
  | true => "OpTrue"
  | false => "OpFalse"
  | null => "OpNull"
  | equal => "OpEqual"
  | notEqual => "OpNotEqual"
  | greaterThan => "OpGreaterThan"
  | greaterEqual => "OpGreaterEqual"
  | minus => "OpMinus"
  | bang => "OpBang"
  | jumpNotTruthy => "OpJumpNotTruthy"
  | jump => "OpJump"
  | getGlobal => "OpGetGlobal"
  | setGlobal => "OpSetGlobal"
  | assignGlobal => "OpAssignGlobal"
  | getLocal => "OpGetLocal"
  | setLocal => "OpSetLocal"
  | assignLocal => "OpAssignLocal"
  | getBuiltin => "OpGetBuiltin"
  | getFree => "OpGetFree"
  | array => "OpArray"
  | hash => "OpHash"
  | index => "OpIndex"
  | call => "OpCall"
  | returnValue => "OpReturnValue"
  | ret => "OpReturn"
  | closure => "OpClosure"
  | currentClosure => "OpCurrentClosure"

/-- The opcode with a given mnemonic. -/
def ofMnemonic? (text : String) : Option Opcode :=
  all.find? fun op => op.mnemonic == text

/-- The number of bytes of each operand. -/
def operandWidths : Opcode → List Nat
  | constant | jumpNotTruthy | jump | getGlobal | setGlobal | assignGlobal | array | hash => [2]
  | getLocal | setLocal | assignLocal | getBuiltin | getFree | call => [1]
  | closure => [2, 1]
  | _ => []

/-- The number of bytes of a whole instruction. -/
def width (op : Opcode) : Nat :=
  op.operandWidths.foldl (· + ·) 1

end Opcode

end Bytescript
