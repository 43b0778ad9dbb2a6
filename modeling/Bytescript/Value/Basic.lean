/-
Values of running programs.

Arrays and hashes are compared by content. Functions and closures are compared by identity, so
each of them carries a number that was given to it when it was made and to nothing else.
-/
import Bytescript.Builtin
import Bytescript.Bytecode.Program
import Bytescript.Value.HashKey

namespace Bytescript

/-- Values of running programs. -/
inductive Value where
  | null
  | boolean (value : Bool)
  | integer (value : Int64)
  | float (value : Binary64)
  | string (value : String)
  | array (items : List Value)
  | hash (entries : HashEntries Value none)
  | builtin (function : Builtin)
  /-- A function constant, not yet made into a closure. -/
  | function (identity : Nat) (code : FunctionCode)
  | closure (identity : Nat) (code : FunctionCode) (free : List Value)

instance : Inhabited Value := ⟨.null⟩

namespace Value

/-- The name of a value's type. -/
def typeName : Value → String
  | null => "Null"
  | boolean _ => "Boolean"
  | integer _ => "Integer"
  | float _ => "Float"
  | string _ => "String"
  | array _ => "Array"
  | hash _ => "Hash"
  | builtin _ => "Builtin"
  | function .. => "CompiledFunction"
  | closure .. => "Closure"

/-- Everything but null and false counts as true. -/
def isTruthy : Value → Bool
  | null | boolean false => false
  | _ => true

/-- The key a value stands for. -/
def toKey? : Value → Option HashKey
  | integer n => some (.integer n)
  | string s => some (.string s)
  | boolean b => some (.boolean b)
  | _ => none

mutual

/-- A value as text; a string stands in quotes if `quoted` is true, and always inside a
collection. -/
def renderWith (quoted : Bool) : Value → String
  | null => "null"
  | boolean b => if b then "true" else "false"
  | integer n => toString n.toInt
  | float x => x.render
  | string s => if quoted then Text.quote s else s
  | array items => "[" ++ ", ".intercalate (renderItems items) ++ "]"
  | hash entries => "\x7b" ++ ", ".intercalate (renderEntries entries) ++ "\x7d"
  | builtin b => "<builtin " ++ b.name ++ ">"
  | function _ code => code.render
  | closure _ code _ => code.render

/-- The texts of the items of an array. -/
def renderItems : List Value → List String
  | [] => []
  | v :: rest => renderWith true v :: renderItems rest

/-- The texts of the entries of a hash. -/
def renderEntries {bound : Option HashKey} : HashEntries Value bound → List String
  | .nil => []
  | .cons key v _ rest => (key.render ++ ": " ++ renderWith true v) :: renderEntries rest

end

/-- A value as it is printed. -/
def display (v : Value) : String :=
  renderWith false v

/-- A value as it is written inside collections. -/
def repr (v : Value) : String :=
  renderWith true v

mutual

/-- Equality of values. An integer equals a float if it converts to it. -/
def equal : Value → Value → Bool
  | null, null => true
  | boolean a, boolean b => a == b
  | integer a, integer b => a == b
  | float a, float b => a.equal b
  | integer a, float b => (Binary64.ofInt a.toInt).equal b
  | float a, integer b => (Binary64.ofInt b.toInt).equal a
  | string a, string b => a == b
  | array a, array b => equalItems a b
  | hash a, hash b => equalEntries a b
  | builtin a, builtin b => a = b
  | function a _, function b _ => a == b
  | closure a _ _, closure b _ _ => a == b
  | _, _ => false

/-- Equality of the items of arrays. -/
def equalItems : List Value → List Value → Bool
  | [], [] => true
  | a :: as, b :: bs => equal a b && equalItems as bs
  | _, _ => false

/-- Equality of the entries of hashes. -/
def equalEntries {bound bound' : Option HashKey} :
    HashEntries Value bound → HashEntries Value bound' → Bool
  | .nil, .nil => true
  | .cons k a _ as, .cons l b _ bs => k = l && equal a b && equalEntries as bs
  | _, _ => false

end

end Value

end Bytescript
