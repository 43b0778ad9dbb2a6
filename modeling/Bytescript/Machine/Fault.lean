/-
What can go wrong while a program runs.

Some faults are mistakes of the program, some are limits of the machine, and some show that the
code is no proper code. A fault has no place in the source; the machine knows where it stands.
-/
import Bytescript.Bytecode.Instruction
import Bytescript.Diagnostic.Basic

namespace Bytescript

/-- Why a run stops early. Types of values are given by name. -/
inductive Fault where
  -- Improper code.
  | unknownOpcode (byte : UInt8)
  | truncatedOperands (opcode : Opcode)
  | noConstant (index : Nat)
  | notAFunction (index : Nat)
  | noLocal (index : Nat)
  | noCapture (index : Nat)
  | noBuiltin (index : Nat)
  | stackUnderflow
  | jumpOutOfRange (target : Nat)
  | oddHash (count : Nat)
  | globalOutOfRange (index : Nat)
  | missingReturn
  | noInstruction
  -- Limits of the machine.
  | stackOverflow
  | frameOverflow (limit : Nat)
  -- Operations on unfit values.
  | notCallable (type : String)
  | wrongArgumentCount (expected given : Nat)
  | unhashableKey (type : String)
  | notIndexable (container index : String)
  | unsupportedOperands (symbol left right : String)
  | unsupportedOperand (symbol operand : String)
  | divisionByZero
  | builtinArity (name : String) (expected given : Nat)
  | noLength (type : String)
  | notAnArray (name type : String)
  deriving DecidableEq, Repr

namespace Fault

/-- The kind of error a fault is reported as. -/
def kind : Fault → ErrorKind
  | unknownOpcode _ => .unknownOpcode
  | truncatedOperands _ | noConstant _ | notAFunction _ | noLocal _ | noCapture _ | noBuiltin _
  | stackUnderflow | jumpOutOfRange _ | oddHash _ | globalOutOfRange _ | missingReturn
  | noInstruction => .malformedBytecode
  | stackOverflow => .stackOverflow
  | frameOverflow _ => .frameOverflow
  | notCallable _ => .notCallable
  | wrongArgumentCount .. => .wrongArgumentCount
  | unhashableKey _ => .unhashableKey
  | notIndexable .. => .notIndexable
  | unsupportedOperands .. | unsupportedOperand .. => .typeError
  | divisionByZero => .divisionByZero
  | builtinArity .. | noLength _ | notAnArray .. => .builtinError

/-- The wording of a fault. -/
def message : Fault → String
  | unknownOpcode byte => s!"Unknown opcode {byte.toNat}"
  | truncatedOperands opcode => s!"Truncated operands for {opcode.mnemonic}"
  | noConstant index => s!"No constant at index {index}"
  | notAFunction index => s!"Constant {index} is not a function"
  | noLocal index => s!"No local at index {index}"
  | noCapture index => s!"No free variable at index {index}"
  | noBuiltin index => s!"No builtin at index {index}"
  | stackUnderflow => "Stack underflow"
  | jumpOutOfRange target => s!"Jump target {target} out of range"
  | oddHash count => s!"Odd element count {count} for hash"
  | globalOutOfRange index => s!"Global index {index} out of range"
  | missingReturn => "Function body ended without a return"
  | noInstruction => "Instruction pointer out of range"
  | stackOverflow => "Stack overflow"
  | frameOverflow limit => s!"Call depth exceeded {limit} frames"
  | notCallable type => "Calling non-function: " ++ type
  | wrongArgumentCount expected given =>
    s!"Wrong number of arguments: want={expected}, got={given}"
  | unhashableKey type => "Unusable as hash key: " ++ type
  | notIndexable container index => s!"Index operator not supported: {container}[{index}]"
  | unsupportedOperands symbol left right =>
    s!"Unsupported operand types for {symbol}: {left} and {right}"
  | unsupportedOperand symbol operand =>
    s!"Unsupported operand type for unary {symbol}: {operand}"
  | divisionByZero => "Division by zero"
  | builtinArity name expected given => s!"{name}() expects {expected} argument(s), got {given}"
  | noLength type => "argument to 'len' not supported, got " ++ type
  | notAnArray name type => s!"argument to '{name}' must be Array, got {type}"

end Fault

end Bytescript
