/-
Names and where their values live.

Each function has one table of names; blocks have none of their own. The tables of the enclosing
functions form a chain that ends in the root table with the globals and built-in functions. A
name found in an outer function is captured: every table on the way gets an entry for it and
remembers which symbol of the next outer table it stands for.
-/
import Std.Data.TreeMap
import Bytescript.Ast.Basic

namespace Bytescript

/-- Where the value of a name lives while the program runs. -/
inductive Storage where
  | globalSlot
  | localSlot
  /-- Among the captured values of the running closure. -/
  | captured
  | builtin
  /-- The running closure itself, under the name it was declared with. -/
  | self
  deriving DecidableEq, Repr

/-- A name and what is known about it. -/
structure Symbol where
  name : String
  storage : Storage
  index : Nat
  mutability : Mutability
  /-- Number of parameters, when the name is known to stand for a function. -/
  arity? : Option Nat := none
  deriving DecidableEq, Repr

/-- Why a name cannot be declared or used. -/
inductive ScopeError where
  | redeclared (name : String)
  | unresolved (name : String)
  deriving DecidableEq, Repr

/-- The wording of an error. -/
def ScopeError.message : ScopeError → String
  | redeclared name => "'" ++ name ++ "' is already declared in this scope"
  | unresolved name => "Cannot resolve name '" ++ name ++ "'"

/-- The names of one function, or of the whole program. -/
structure ScopeTable where
  symbols : Std.TreeMap String Symbol := {}
  /-- Number of slots given to declarations. -/
  definitions : Nat := 0
  /-- The symbols of the next outer table that this function captures, in order. -/
  captures : Array Symbol := #[]

namespace ScopeTable

/-- Enters a symbol under its name. -/
def insert (table : ScopeTable) (symbol : Symbol) : ScopeTable :=
  { table with symbols := table.symbols.insert symbol.name symbol }

/-- May a name be declared here? A function's own name may be declared over. -/
def isDeclarable (table : ScopeTable) (name : String) : Bool :=
  match table.symbols[name]? with
  | some symbol => symbol.storage = .self
  | none => true

/-- Declares a name and gives it the next slot. -/
def define (table : ScopeTable) (storage : Storage) (name : String) (mutability : Mutability) :
    Except ScopeError (Symbol × ScopeTable) :=
  if table.isDeclarable name then
    let symbol : Symbol := ⟨name, storage, table.definitions, mutability, none⟩
    let table := table.insert symbol
    .ok (symbol, { table with definitions := table.definitions + 1 })
  else .error (.redeclared name)

/-- Enters a built-in function. -/
def defineBuiltin (table : ScopeTable) (index : Nat) (name : String) :
    Except ScopeError (Symbol × ScopeTable) :=
  if table.isDeclarable name then
    let symbol : Symbol := ⟨name, .builtin, index, .constant, none⟩
    .ok (symbol, table.insert symbol)
  else .error (.redeclared name)

/-- Captures a symbol of the next outer table. -/
def capture (table : ScopeTable) (outside : Symbol) : Symbol × ScopeTable :=
  let symbol : Symbol :=
    ⟨outside.name, .captured, table.captures.size, outside.mutability, outside.arity?⟩
  let table := table.insert symbol
  (symbol, { table with captures := table.captures.push outside })

/-- Enters the function's own name. -/
def nameSelf (table : ScopeTable) (name : String) (arity : Nat) : Symbol × ScopeTable :=
  let symbol : Symbol := ⟨name, .self, 0, .constant, some arity⟩
  (symbol, table.insert symbol)

/-- Remembers the number of parameters of a name of this table. -/
def recordArity (table : ScopeTable) (name : String) (arity : Nat) : ScopeTable :=
  match table.symbols[name]? with
  | some symbol =>
    { table with symbols := table.symbols.insert name { symbol with arity? := some arity } }
  | none => table

/-- A root table with built-in functions at their indices. -/
def ofBuiltins (names : List String) : ScopeTable :=
  let symbols := names.zipIdx.map fun (name, index) => Symbol.mk name .builtin index .constant none
  symbols.foldl insert {}

end ScopeTable

/-- The table of the current function and those around it, innermost first; the last one is the
root. -/
structure Scopes where
  current : ScopeTable := {}
  outer : List ScopeTable := []

namespace Scopes

/-- The chain that consists of a root table alone. -/
def ofRoot (root : ScopeTable) : Scopes :=
  ⟨root, []⟩

/-- Is the current table the root? -/
def isGlobal (scopes : Scopes) : Bool :=
  scopes.outer.isEmpty

/-- Enters a function. -/
def enter (scopes : Scopes) : Scopes :=
  ⟨{}, scopes.current :: scopes.outer⟩

/-- Leaves a function; the root cannot be left. -/
def leave? (scopes : Scopes) : Option Scopes :=
  match scopes.outer with
  | [] => none
  | table :: outer => some ⟨table, outer⟩

/-- Leaves all functions. -/
def toRoot (scopes : Scopes) : Scopes :=
  ⟨scopes.outer.getLastD scopes.current, []⟩

/-- Declares a name in the current table. -/
def define (scopes : Scopes) (name : String) (mutability : Mutability) :
    Except ScopeError (Symbol × Scopes) := do
  let storage := if scopes.isGlobal then Storage.globalSlot else .localSlot
  let (symbol, table) ← scopes.current.define storage name mutability
  return (symbol, { scopes with current := table })

/-- Enters a built-in function in the root table of a chain. -/
def defineBuiltinIn (index : Nat) (name : String) :
    ScopeTable → List ScopeTable → Except ScopeError (Symbol × ScopeTable × List ScopeTable)
  | table, [] => do
    let (symbol, table) ← table.defineBuiltin index name
    return (symbol, table, [])
  | table, next :: outer => do
    let (symbol, next, outer) ← defineBuiltinIn index name next outer
    return (symbol, table, next :: outer)

/-- Enters a built-in function. -/
def defineBuiltin (scopes : Scopes) (index : Nat) (name : String) :
    Except ScopeError (Symbol × Scopes) := do
  let (symbol, current, outer) ← defineBuiltinIn index name scopes.current scopes.outer
  return (symbol, ⟨current, outer⟩)

/-- Captures a symbol of the next outer table in the current one. -/
def capture (scopes : Scopes) (outside : Symbol) : Symbol × Scopes :=
  let (symbol, table) := scopes.current.capture outside
  (symbol, { scopes with current := table })

/-- Enters the current function's own name. -/
def nameSelf (scopes : Scopes) (name : String) (arity : Nat) : Symbol × Scopes :=
  let (symbol, table) := scopes.current.nameSelf name arity
  (symbol, { scopes with current := table })

/-- Remembers the number of parameters of a name of the current table. -/
def recordArity (scopes : Scopes) (name : String) (arity : Nat) : Scopes :=
  { scopes with current := scopes.current.recordArity name arity }

/-- Finds a name in a table or, outwards, in those around it. A symbol of another function is
captured in every table between. -/
def resolveIn (name : String) :
    ScopeTable → List ScopeTable → Except ScopeError (Symbol × ScopeTable × List ScopeTable)
  | table, [] =>
    match table.symbols[name]? with
    | some symbol => .ok (symbol, table, [])
    | none => .error (.unresolved name)
  | table, next :: outer =>
    match table.symbols[name]? with
    | some symbol => .ok (symbol, table, next :: outer)
    | none => do
      let (symbol, next, outer) ← resolveIn name next outer
      match symbol.storage with
      | .globalSlot | .builtin => return (symbol, table, next :: outer)
      | _ =>
        let (symbol, table) := table.capture symbol
        return (symbol, table, next :: outer)

/-- Finds a name. -/
def resolve (scopes : Scopes) (name : String) : Except ScopeError (Symbol × Scopes) := do
  let (symbol, current, outer) ← resolveIn name scopes.current scopes.outer
  return (symbol, ⟨current, outer⟩)

end Scopes

end Bytescript
