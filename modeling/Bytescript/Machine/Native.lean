/-
The host of the language's own values.
-/
import Bytescript.Machine.Host
import Bytescript.Value.Call

namespace Bytescript

/-- A result that leaves the state of a host alone. -/
def Host.pureResult {S α : Type} : Except Fault α → ExceptT Fault (StateM S) α
  | .ok a => return a
  | .error e => throw e

/-- The value of a constant. -/
def Value.ofConstant (identity : Nat) : Constant → Value
  | .integer n => .integer n
  | .float x => .float x
  | .string s => .string s
  | .function code => .function identity code

/-- The host of the language's own values; its state is what was printed. -/
def nativeHost : Host Console Value where
  binary op left right := Host.pureResult (Value.binary op left right)
  unary op operand := Host.pureResult (Value.unary op operand)
  isTruthy v := return v.isTruthy
  boolean b := return .boolean b
  null := return .null
  array items := return .array items
  hash pairs := Host.pureResult (Value.hashOfPairs pairs)
  index container key := Host.pureResult (Value.index container key)
  callBuiltin? callee args :=
    match callee with
    | .builtin function => some <$> function.call args
    | _ => return none
  builtin index :=
    match Builtin.ofIndex? index with
    | some function => return .builtin function
    | none => throw (.noBuiltin index)
  constant identity c := return .ofConstant identity c
  function? v :=
    match v with
    | .function _ code => return some code
    | _ => return none
  ofClosure c := return .closure c.identity c.code c.free
  closure? v :=
    match v with
    | .closure identity code free => return some ⟨identity, code, free⟩
    | _ => return none
  typeName := Value.typeName

end Bytescript
