/-
The meaning of programs, given on their syntax trees.

`Meaning.program` evaluates a tree without any code or machine:

* a function has one scope; the names it declares belong to it from the place of their
  declaration on, and hold null until the declaration has run;
* a function literal copies the variables of the functions around it that it mentions;
* a call has locals of its own, and the name of a function stands for the closure that runs;
* a name that is no variable is a built-in function or a global, read when it is used.

Design notes: trees are evaluated by structural recursion. Only calls lead to trees that are not
part of the one at hand, so what a call does is an argument of the evaluator (`Caller`), and
`Meaning.invoke` ties the knot with a bound on the depth of calls. Closures are known to the
values by number; a store holds their literals and captured variables.
-/
import Bytescript.Ast.Basic
import Bytescript.Machine.Native

namespace Bytescript

/-! ### Names -/

/-- In which order the names in the operands of a comparison are resolved. -/
inductive ResolutionOrder where
  /-- As the operands are written. -/
  | textual
  /-- As the operands are evaluated. -/
  | evaluation
  deriving DecidableEq, Repr

/-- Is the right operand evaluated before the left one? -/
def BinaryOp.isRightFirst : BinaryOp → Bool
  | less | lessEqual => true
  | _ => false

/-- The scopes of the left and the right operand. `left` and `right` are the names they declare. -/
def BinaryOp.scopes (order : ResolutionOrder) (op : BinaryOp) (left right scope : List String) :
    List String × List String :=
  if op.isRightFirst ∧ order = .evaluation then (scope ++ right, scope)
  else (scope, scope ++ left)

mutual

/-- The names an expression declares in the function it belongs to. -/
def Expr.declared : Expr → List String
  | .identifier .. | .integer .. | .float .. | .string .. | .boolean .. | .null _
  | .function .. => []
  | .unary _ operand _ => operand.declared
  | .binary _ left right _ => left.declared ++ right.declared
  | .conditional condition thenBranch elseBranch _ =>
    condition.declared ++ thenBranch.declared ++ Block.elseDeclared elseBranch
  | .call callee args _ => callee.declared ++ Expr.allDeclared args
  | .array elements _ => Expr.allDeclared elements
  | .hash entries _ => Expr.entriesDeclared entries
  | .index object index _ => object.declared ++ index.declared

/-- The names several expressions declare. -/
def Expr.allDeclared : List Expr → List String
  | [] => []
  | e :: rest => e.declared ++ Expr.allDeclared rest

/-- The names the keys and values of a hash declare. -/
def Expr.entriesDeclared : List (Expr × Expr) → List String
  | [] => []
  | (key, value) :: rest => key.declared ++ value.declared ++ Expr.entriesDeclared rest

/-- The names the `else` part of a conditional declares. -/
def Block.elseDeclared : Option Block → List String
  | none => []
  | some block => block.declared

/-- The names a block declares; it has no scope of its own. -/
def Block.declared : Block → List String
  | .mk statements _ => Stmt.allDeclared statements

/-- The names several statements declare. -/
def Stmt.allDeclared : List Stmt → List String
  | [] => []
  | s :: rest => s.declared ++ Stmt.allDeclared rest

/-- The names a statement declares. -/
def Stmt.declared : Stmt → List String
  | .declare _ name value _ => name :: value.declared
  | .assign _ value _ => value.declared
  | .ret none _ => []
  | .ret (some value) _ => value.declared
  | .expression e _ => e.declared

end

mutual

/-- The names an expression mentions where they are not among those known (`scope`, and what was
declared before). -/
def Expr.mentioned (order : ResolutionOrder) (scope : List String) : Expr → List String
  | .identifier name _ => if name ∈ scope then [] else [name]
  | .integer .. | .float .. | .string .. | .boolean .. | .null _ => []
  | .unary _ operand _ => operand.mentioned order scope
  | .binary op left right _ =>
    let scopes := op.scopes order left.declared right.declared scope
    left.mentioned order scopes.1 ++ right.mentioned order scopes.2
  | .conditional condition thenBranch elseBranch _ =>
    let scope₁ := scope ++ condition.declared
    condition.mentioned order scope ++ thenBranch.mentioned order scope₁ ++
      Block.elseMentioned order (scope₁ ++ thenBranch.declared) elseBranch
  | .function name? params body _ =>
    (body.mentioned order (name?.toList ++ params.map Param.name)).filter (· ∉ scope)
  | .call callee args _ =>
    callee.mentioned order scope ++ Expr.allMentioned order (scope ++ callee.declared) args
  | .array elements _ => Expr.allMentioned order scope elements
  | .hash entries _ => Expr.entriesMentioned order scope entries
  | .index object index _ =>
    object.mentioned order scope ++ index.mentioned order (scope ++ object.declared)

/-- The names several expressions mention. -/
def Expr.allMentioned (order : ResolutionOrder) (scope : List String) : List Expr → List String
  | [] => []
  | e :: rest =>
    e.mentioned order scope ++ Expr.allMentioned order (scope ++ e.declared) rest

/-- The names the keys and values of a hash mention. -/
def Expr.entriesMentioned (order : ResolutionOrder) (scope : List String) :
    List (Expr × Expr) → List String
  | [] => []
  | (key, value) :: rest =>
    key.mentioned order scope ++ value.mentioned order (scope ++ key.declared) ++
      Expr.entriesMentioned order (scope ++ key.declared ++ value.declared) rest

/-- The names the `else` part of a conditional mentions. -/
def Block.elseMentioned (order : ResolutionOrder) (scope : List String) :
    Option Block → List String
  | none => []
  | some block => block.mentioned order scope

/-- The names a block mentions. -/
def Block.mentioned (order : ResolutionOrder) (scope : List String) : Block → List String
  | .mk statements _ => Stmt.allMentioned order scope statements

/-- The names several statements mention. -/
def Stmt.allMentioned (order : ResolutionOrder) (scope : List String) : List Stmt → List String
  | [] => []
  | s :: rest =>
    s.mentioned order scope ++ Stmt.allMentioned order (scope ++ s.declared) rest

/-- The names a statement mentions. -/
def Stmt.mentioned (order : ResolutionOrder) (scope : List String) : Stmt → List String
  | .declare _ name value _ => value.mentioned order (scope ++ [name])
  | .assign name value _ =>
    (if name ∈ scope then [] else [name]) ++ value.mentioned order scope
  | .ret none _ => []
  | .ret (some value) _ => value.mentioned order scope
  | .expression e _ => e.mentioned order scope

end

/-- The built-in function with a given name. -/
def Builtin.ofName? (name : String) : Option Builtin :=
  Builtin.all.find? fun b => b.name = name

/-! ### Stores -/

/-- A function literal with the variables it has copied. -/
structure Routine where
  name? : Option String
  params : List Param
  body : Block
  captured : List (String × Value)

/-- What a program has computed so far. -/
structure Store where
  /-- Globals that were set. -/
  globals : String → Option Value := fun _ => none
  /-- Locals of the running call that were set. -/
  locals : String → Option Value := fun _ => none
  /-- The closures made so far, by number. -/
  routines : Nat → Option Routine := fun _ => none
  /-- The value discarded last by an expression statement. -/
  discarded : Option Value := none
  console : Console := {}
  /-- The number of the next closure. -/
  nextIdentity : Nat := 0

/-- Why an evaluation does not go on. -/
inductive Stop where
  /-- The running call returns. -/
  | returned (v : Value)
  | fault (fault : Fault)
  /-- Calls are nested too deeply. -/
  | exhausted

/-- Evaluations; they keep what was stored before they stop. -/
abbrev Meaning := ExceptT Stop (StateM Store)

/-- What an identifier may stand for besides globals and built-in functions. -/
inductive Activation where
  /-- The statements of the program. -/
  | main
  /-- A call: the name and the value of the running closure, and its captured variables. -/
  | call (self? : Option (String × Value)) (captured : List (String × Value))

namespace Meaning

/-! ### Variables -/

/-- The value of a variable of the running function or one around it; `scope` holds the names
declared so far in the running function. -/
def variableOf? (activation : Activation) (scope : List String) (store : Store) (name : String) :
    Option Value :=
  match activation with
  | .main => none
  | .call self? captured =>
    if name ∈ scope then some ((store.locals name).getD .null)
    else match self? with
      | some (self, v) => if self = name then some v else captured.lookup name
      | none => captured.lookup name

/-- The value of a name. -/
def valueOf (activation : Activation) (scope : List String) (store : Store) (name : String) :
    Value :=
  match variableOf? activation scope store name with
  | some v => v
  | none =>
    match Builtin.ofName? name with
    | some function => .builtin function
    | none => (store.globals name).getD .null

/-- A store with a global set. -/
def setGlobal (name : String) (v : Value) (store : Store) : Store :=
  { store with globals := fun other => if other = name then some v else store.globals other }

/-- A store with a local set. -/
def setLocal (name : String) (v : Value) (store : Store) : Store :=
  { store with locals := fun other => if other = name then some v else store.locals other }

/-- Gives a declared name its value. -/
def declare (activation : Activation) (name : String) (v : Value) : Meaning Unit :=
  modify (match activation with
    | .main => setGlobal name v
    | .call .. => setLocal name v)

/-- Gives a name a new value. -/
def assign (activation : Activation) (scope : List String) (name : String) (v : Value) :
    Meaning Unit :=
  modify (match activation with
    | .main => setGlobal name v
    | .call .. => if name ∈ scope then setLocal name v else setGlobal name v)

/-! ### Operations -/

/-- A result that does not depend on the store. -/
def ofResult {α : Type} : Except Fault α → Meaning α
  | .ok a => return a
  | .error fault => throw (.fault fault)

/-- Applies an operator to the values of its operands. -/
def binary (op : BinaryOp) (left right : Value) : Meaning Value :=
  ofResult <| match op with
    | .add => Value.binary .add left right
    | .sub => Value.binary .sub left right
    | .mul => Value.binary .mul left right
    | .div => Value.binary .div left right
    | .mod => Value.binary .mod left right
    | .equal => Value.binary .equal left right
    | .notEqual => Value.binary .notEqual left right
    | .greater => Value.binary .greaterThan left right
    | .greaterEqual => Value.binary .greaterEqual left right
    | .less => Value.binary .greaterThan right left
    | .lessEqual => Value.binary .greaterEqual right left

/-- Applies an operator to the value of its operand. -/
def unary (op : UnaryOp) (operand : Value) : Meaning Value :=
  ofResult <| match op with
    | .negate => Value.unary .minus operand
    | .not => Value.unary .bang operand

/-- Makes a closure of a function literal that mentions the given names. -/
def makeClosure (activation : Activation) (scope mentioned : List String) (name? : Option String)
    (params : List Param) (body : Block) : Meaning Value := do
  let store ← get
  let captured := mentioned.filterMap fun name =>
    (variableOf? activation scope store name).map fun v => (name, v)
  let routine : Routine := ⟨name?, params, body, captured⟩
  let identity := store.nextIdentity
  set { store with
    nextIdentity := identity + 1
    routines := fun n => if n = identity then some routine else store.routines n }
  return .closure identity { params := params.length, name? } []

/-- Calls a built-in function. -/
def callBuiltin (function : Builtin) (args : List Value) : Meaning Value := do
  let (result, console) := (function.call args).run.run (← get).console
  modify fun store => { store with console }
  ofResult result

/-- What the call of a closure does: it is given the literal, the closure and the arguments. -/
abbrev Caller := Routine → (self : Value) → List Value → Meaning Value

/-- Calls a value. -/
def apply (caller : Caller) (callee : Value) (args : List Value) : Meaning Value := do
  match callee with
  | .closure identity .. =>
    match (← get).routines identity with
    | some routine =>
      if args.length = routine.params.length then caller routine callee args
      else throw (.fault (.wrongArgumentCount routine.params.length args.length))
    | none => throw (.fault (.notCallable callee.typeName))
  | .builtin function => callBuiltin function args
  | _ => throw (.fault (.notCallable callee.typeName))

/-! ### Trees -/

section

variable (order : ResolutionOrder) (caller : Caller) (activation : Activation)

mutual

/-- The value of an expression. -/
def expr (scope : List String) : Expr → Meaning Value
  | .identifier name _ => return valueOf activation scope (← get) name
  | .integer value _ => return .integer value
  | .float value _ => return .float value
  | .string value _ => return .string value
  | .boolean value _ => return .boolean value
  | .null _ => return .null
  | .unary op operand _ => do unary op (← expr scope operand)
  | .binary op left right _ => do
    let scopes := op.scopes order left.declared right.declared scope
    if op.isRightFirst then
      let b ← expr scopes.2 right
      let a ← expr scopes.1 left
      binary op a b
    else
      let a ← expr scopes.1 left
      let b ← expr scopes.2 right
      binary op a b
  | .conditional condition thenBranch elseBranch _ => do
    let v ← expr scope condition
    let scope := scope ++ condition.declared
    if v.isTruthy then block scope thenBranch
    else alternative (scope ++ thenBranch.declared) elseBranch
  | .function name? params body _ =>
    let mentioned := body.mentioned order (name?.toList ++ params.map Param.name)
    makeClosure activation scope mentioned name? params body
  | .call callee args _ => do
    let f ← expr scope callee
    let vs ← exprs (scope ++ callee.declared) args
    apply caller f vs
  | .array elements _ => return .array (← exprs scope elements)
  | .hash pairs _ => do ofResult (Value.hashOfPairs (← entries scope pairs))
  | .index object index _ => do
    let container ← expr scope object
    let key ← expr (scope ++ object.declared) index
    ofResult (Value.index container key)

/-- The values of several expressions. -/
def exprs (scope : List String) : List Expr → Meaning (List Value)
  | [] => return []
  | e :: rest => do
    let v ← expr scope e
    return v :: (← exprs (scope ++ e.declared) rest)

/-- The values of the keys and values of a hash. -/
def entries (scope : List String) : List (Expr × Expr) → Meaning (List (Value × Value))
  | [] => return []
  | (key, value) :: rest => do
    let k ← expr scope key
    let v ← expr (scope ++ key.declared) value
    return (k, v) :: (← entries (scope ++ key.declared ++ value.declared) rest)

/-- The value of the `else` part of a conditional, null without one. -/
def alternative (scope : List String) : Option Block → Meaning Value
  | none => return .null
  | some arm => block scope arm

/-- The value of a block. -/
def block (scope : List String) : Block → Meaning Value
  | .mk statements _ => valued scope statements

/-- The value of the last statement if that is an expression, and null otherwise. -/
def valued (scope : List String) : List Stmt → Meaning Value
  | [] => return .null
  | [.expression e _] => expr scope e
  | s :: rest => do
    stmt scope s
    valued (scope ++ s.declared) rest

/-- Executes a statement. -/
def stmt (scope : List String) : Stmt → Meaning Unit
  | .expression e _ => do
    let v ← expr scope e
    modify fun store => { store with discarded := some v }
  | .declare _ name value _ => do declare activation name (← expr (scope ++ [name]) value)
  | .assign name value _ => do assign activation scope name (← expr scope value)
  | .ret none _ => throw (.returned .null)
  | .ret (some value) _ => do throw (.returned (← expr scope value))

end

/-- Executes the statements of a program. -/
def stmts (scope : List String) : List Stmt → Meaning Unit
  | [] => return
  | s :: rest => do
    stmt order caller activation scope s
    stmts (scope ++ s.declared) rest

end

/-- Statements that are not the value of a block are executed one after another. -/
theorem valued_cons {order : ResolutionOrder} {caller : Caller} {activation : Activation}
    {s : Stmt} {rest : List Stmt} (h : rest = [] → ∀ e span, s ≠ .expression e span)
    (scope : List String) :
    valued order caller activation scope (s :: rest) =
      stmt order caller activation scope s >>= fun _ =>
        valued order caller activation (scope ++ s.declared) rest := by
  rw [valued]
  rintro e span rfl rfl
  exact h rfl e span rfl

/-! ### Calls and programs -/

/-- The locals of a call before its body runs. -/
def bindParams : List Param → List Value → String → Option Value
  | param :: params, v :: args, name =>
    if name = param.name then some v else bindParams params args name
  | _, _, _ => none

/-- The value with which a call ends. -/
def returning (body : Meaning Value) : Meaning Value :=
  tryCatch body fun
    | .returned v => return v
    | stop => throw stop

/-- Calls a closure, with at most `depth` nested calls. -/
def invoke (order : ResolutionOrder) : (depth : Nat) → Caller
  | 0, _, _, _ => throw .exhausted
  | depth + 1, routine, self, args => do
    let outer := (← get).locals
    modify fun store => { store with locals := bindParams routine.params args }
    let activation := Activation.call (routine.name?.map (·, self)) routine.captured
    let v ← returning (block order (invoke order depth) activation
      (routine.params.map Param.name) routine.body)
    modify fun store => { store with locals := outer }
    return v

/-- How a program ends. -/
inductive Ending where
  | value (v : Value)
  | fault (fault : Fault)
  /-- Calls were nested too deeply. -/
  | exhausted

/-- The ending of the statements of a program: the value of a `return`, else the value discarded
last, else null. -/
def ending : Except Stop Unit × Store → Ending × Store
  | (.ok (), store) => (.value (store.discarded.getD .null), store)
  | (.error (.returned v), store) => (.value v, store)
  | (.error (.fault fault), store) => (.fault fault, store)
  | (.error .exhausted, store) => (.exhausted, store)

/-- Evaluates a program, with at most `depth` nested calls. Its closures are numbered from
`identity` on. -/
def program (order : ResolutionOrder) (depth identity : Nat) (ast : Ast) : Ending × Store :=
  ending <|
    (stmts order (invoke order depth) .main [] ast.statements).run.run { nextIdentity := identity }

/-! ### Results of evaluations -/

variable {α β : Type}

/-- The result of an evaluation and the store it leaves. -/
def eval (x : Meaning α) (σ : Store) : Except Stop α × Store :=
  x.run.run σ

theorem eval_bind (x : Meaning α) (f : α → Meaning β) (σ : Store) :
    eval (x >>= f) σ = match eval x σ with
      | (.ok a, σ) => eval (f a) σ
      | (.error stop, σ) => (.error stop, σ) := by
  rw [eval, ExceptT.run_bind, StateT.run_bind, eval]
  rcases x.run.run σ with ⟨_ | _, _⟩ <;> rfl

theorem eval_get (σ : Store) : eval get σ = (.ok σ, σ) := rfl

theorem eval_modify (f : Store → Store) (σ : Store) : eval (modify f) σ = (.ok ⟨⟩, f σ) := rfl

/-- A call ends with the value of its body, whether it was returned or not. -/
theorem eval_returning (x : Meaning Value) (σ : Store) :
    eval (returning x) σ = match eval x σ with
      | (.error (.returned v), σ) => (.ok v, σ)
      | result => result := by
  show (ExceptT.run (tryCatch x _)).run σ = _
  rw [ExceptT.run_tryCatch, StateT.run_bind, eval]
  rcases x.run.run σ with ⟨(_ | _ | _) | _, _⟩ <;> rfl

end Meaning

end Bytescript
