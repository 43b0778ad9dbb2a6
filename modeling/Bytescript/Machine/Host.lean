/-
What the machine needs to know about values.

The machine moves values around, calls closures and keeps the frames. All else is asked of a
host: arithmetic, truth, collections, built-in functions. A host has a state of its own, which
its operations may change also when they fail.
-/
import Bytescript.Bytecode.Program
import Bytescript.Machine.Fault

namespace Bytescript

/-- A function with the values it captured. -/
structure Closure (V : Type) where
  /-- Tells this closure from all others. -/
  identity : Nat
  code : FunctionCode
  free : List V

/-- Operations on values of the type `V` with a state of the type `S`. -/
structure Host (S V : Type) where
  /-- Applies an operator to two values. -/
  binary : Opcode → (left right : V) → ExceptT Fault (StateM S) V
  /-- Applies an operator to one value. -/
  unary : Opcode → V → ExceptT Fault (StateM S) V
  isTruthy : V → StateM S Bool
  boolean : Bool → StateM S V
  null : StateM S V
  array : List V → StateM S V
  /-- The hash of some pairs, given in the order they were pushed. -/
  hash : List (V × V) → ExceptT Fault (StateM S) V
  index : (container key : V) → ExceptT Fault (StateM S) V
  /-- Calls a built-in function; nothing if the callee is none. -/
  callBuiltin? : (callee : V) → List V → ExceptT Fault (StateM S) (Option V)
  builtin : Nat → ExceptT Fault (StateM S) V
  /-- The value of a constant. The number tells a function constant from all others. -/
  constant : (identity : Nat) → Constant → StateM S V
  function? : V → StateM S (Option FunctionCode)
  ofClosure : Closure V → StateM S V
  closure? : V → StateM S (Option (Closure V))
  /-- The name of a value's type in messages. -/
  typeName : V → String

end Bytescript
