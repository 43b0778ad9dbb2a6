/-
The functions every program can call without declaring them.
-/

namespace Bytescript

/-- The built-in functions. -/
inductive Builtin where
  | len | puts | first | last | rest | push
  deriving DecidableEq, Repr

namespace Builtin

/-- All built-in functions, each at its index. -/
def all : Array Builtin := #[len, puts, first, last, rest, push]

/-- The name of a built-in function. -/
def name : Builtin → String
  | len => "len"
  | puts => "puts"
  | first => "first"
  | last => "last"
  | rest => "rest"
  | push => "push"

/-- The built-in function at an index. -/
def ofIndex? (index : Nat) : Option Builtin :=
  all[index]?

/-- The names of all built-in functions, in the order of their indices. -/
def names : List String :=
  all.toList.map name

end Builtin

end Bytescript
