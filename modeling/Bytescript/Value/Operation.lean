/-
Operations on values.

Integers wrap around at 64 bits and divide toward zero. An integer meets a float as a float.
Strings can be joined and compared; everything can be tested for equality.
-/
import Bytescript.Machine.Fault
import Bytescript.Value.Basic

namespace Bytescript.Value

/-- The operator an opcode stands for, as it is written in messages. -/
def operatorSymbol : Opcode → String
  | .add => "+"
  | .sub => "-"
  | .mul => "*"
  | .div => "/"
  | .mod => "%"
  | .equal => "=="
  | .notEqual => "!="
  | .greaterThan => ">"
  | .greaterEqual => ">="
  | .minus => "-"
  | .bang => "!"
  | _ => "?"

/-- The operands do not go with the operator. -/
def unsupported (op : Opcode) (left right : Value) : Fault :=
  .unsupportedOperands (operatorSymbol op) left.typeName right.typeName

/-- Operators on integers. -/
def integerOperation (op : Opcode) (a b : Int64) : Except Fault Value :=
  match op with
  | .add => .ok (.integer (a + b))
  | .sub => .ok (.integer (a - b))
  | .mul => .ok (.integer (a * b))
  | .div => if b = 0 then .error .divisionByZero else .ok (.integer (a / b))
  | .mod => if b = 0 then .error .divisionByZero else .ok (.integer (a % b))
  | .greaterThan => .ok (.boolean (b < a))
  | .greaterEqual => .ok (.boolean (b ≤ a))
  | _ => .error (unsupported op (.integer a) (.integer b))

/-- Operators on floats. -/
def floatOperation (op : Opcode) (a b : Binary64) : Except Fault Value :=
  match op with
  | .add => .ok (.float (a.add b))
  | .sub => .ok (.float (a.sub b))
  | .mul => .ok (.float (a.mul b))
  | .div => .ok (.float (a.div b))
  | .mod => .ok (.float (a.rem b))
  | .greaterThan => .ok (.boolean (a.greater b))
  | .greaterEqual => .ok (.boolean (a.greaterEqual b))
  | _ => .error (unsupported op (.float a) (.float b))

/-- Operators on strings. -/
def stringOperation (op : Opcode) (a b : String) : Except Fault Value :=
  match op with
  | .add => .ok (.string (a ++ b))
  | .greaterThan => .ok (.boolean (b < a))
  | .greaterEqual => .ok (.boolean (!decide (a < b)))
  | _ => .error (unsupported op (.string a) (.string b))

/-- Applies an operator to two values. -/
def binary (op : Opcode) (left right : Value) : Except Fault Value :=
  match op with
  | .equal => .ok (.boolean (left.equal right))
  | .notEqual => .ok (.boolean (!left.equal right))
  | _ =>
    match left, right with
    | .integer a, .integer b => integerOperation op a b
    | .float a, .float b => floatOperation op a b
    | .integer a, .float b => floatOperation op (.ofInt a.toInt) b
    | .float a, .integer b => floatOperation op a (.ofInt b.toInt)
    | .string a, .string b => stringOperation op a b
    | _, _ => .error (unsupported op left right)

/-- Applies an operator to one value. -/
def unary (op : Opcode) (operand : Value) : Except Fault Value :=
  match op, operand with
  | .bang, v => .ok (.boolean (!v.isTruthy))
  | .minus, .integer n => .ok (.integer (-n))
  | .minus, .float x => .ok (.float x.neg)
  | _, v => .error (.unsupportedOperand (operatorSymbol op) v.typeName)

/-- The key a value stands for, or a fault. -/
def toKey (v : Value) : Except Fault HashKey :=
  match v.toKey? with
  | some key => .ok key
  | none => .error (.unhashableKey v.typeName)

/-- The pairs with their keys; the first value that is no key is the fault. -/
def keyedPairs : List (Value × Value) → Except Fault (List (HashKey × Value))
  | [] => .ok []
  | (k, v) :: rest => do
    let key ← k.toKey
    let pairs ← keyedPairs rest
    return (key, v) :: pairs

/-- The hash of some pairs. -/
def hashOfPairs (pairs : List (Value × Value)) : Except Fault Value := do
  return .hash (HashEntries.ofPairs (← keyedPairs pairs))

/-- The item of an array at an index, null outside the array. -/
def itemAt (items : List Value) (i : Int64) : Value :=
  if i < 0 then .null else items.getD i.toNatClampNeg .null

/-- Looks into an array or a hash. -/
def index (container key : Value) : Except Fault Value :=
  match container, key with
  | .array items, .integer i => .ok (itemAt items i)
  | .hash entries, key => do
    let key ← key.toKey
    return (HashEntries.find? key entries).getD .null
  | _, _ => .error (.notIndexable container.typeName key.typeName)

end Bytescript.Value
