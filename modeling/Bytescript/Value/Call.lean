/-
Calls of built-in functions.
-/
import Bytescript.Value.Operation

namespace Bytescript

/-- What a program has printed. -/
structure Console where
  printed : String := ""
  deriving DecidableEq, Repr, Inhabited

namespace Builtin

/-- The items of an array argument. -/
def arrayArgument (function : Builtin) : Value → Except Fault (List Value)
  | .array items => .ok items
  | v => .error (.notAnArray function.name v.typeName)

/-- The number of characters, items or entries. -/
def length : Value → Except Fault Value
  | .string s => .ok (.integer (Int64.ofNat s.length))
  | .array items => .ok (.integer (Int64.ofNat items.length))
  | .hash entries => .ok (.integer (Int64.ofNat entries.length))
  | v => .error (.noLength v.typeName)

/-- The value of a call. -/
def evaluate (function : Builtin) (args : List Value) : Except Fault Value :=
  match function, args with
  | .puts, _ => .ok .null
  | .len, [v] => length v
  | .first, [v] => do return (← function.arrayArgument v).headD .null
  | .last, [v] => do return (← function.arrayArgument v).getLastD .null
  | .rest, [v] => do
    match ← function.arrayArgument v with
    | [] => return .null
    | _ :: others => return .array others
  | .push, [v, item] => do return .array ((← function.arrayArgument v) ++ [item])
  | .push, _ => .error (.builtinArity function.name 2 args.length)
  | _, _ => .error (.builtinArity function.name 1 args.length)

/-- What a call prints: `puts` prints each argument on a line. -/
def printed (function : Builtin) (args : List Value) : String :=
  match function with
  | .puts => String.join (args.map fun v => v.display ++ "\n")
  | _ => ""

/-- Calls a built-in function. -/
def call (function : Builtin) (args : List Value) : ExceptT Fault (StateM Console) Value := do
  modify fun console => { console with printed := console.printed ++ function.printed args }
  liftExcept (function.evaluate args)
where
  /-- A result that does not depend on the console. -/
  liftExcept : Except Fault Value → ExceptT Fault (StateM Console) Value
    | .ok v => return v
    | .error e => throw e

end Builtin

end Bytescript
