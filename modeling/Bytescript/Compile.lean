/-
From syntax trees to programs.

The code of an expression leaves one value on the stack and the code of a statement leaves none.
Where a list of statements has to give a value, as an arm of a conditional or as the body of a
function, the value is that of its last statement if that is an expression, and null otherwise.

The walk over a tree is the same for every kind of code that it can build and in every monad in
which the steps on names and constants can be taken. `compileFrom` builds fragments; in place, code
is compiled by `compileInto Buffer`.
-/
import Bytescript.Builtin
import Bytescript.Bytecode.Builder
import Bytescript.Scope

namespace Bytescript

/-! ### Errors -/

/-- What there can be too many of. -/
inductive Quota where
  | globals | locals | constants | parameters | captures | arguments
  | arrayElements | hashEntries | jumpDistance
  deriving DecidableEq, Repr

/-- The name of a quota in messages. -/
def Quota.text : Quota → String
  | globals => "global variables"
  | locals => "local variables"
  | constants => "constants"
  | parameters => "parameters"
  | captures => "captured variables"
  | arguments => "call arguments"
  | arrayElements => "array elements"
  | hashEntries => "hash entries"
  | jumpDistance => "bytes of jump distance"

/-- Why a tree cannot be compiled. -/
inductive CompileError where
  | scope (error : ScopeError)
  | assignToConstant (name : String)
  | assignToCaptured (name : String)
  | arityMismatch (name : String) (expected given : Nat)
  | tooMany (what : Quota) (limit : Nat)
  deriving DecidableEq, Repr

namespace CompileError

/-- The wording of an error. -/
def message : CompileError → String
  | scope error => error.message
  | assignToConstant name => "Cannot assign to constant '" ++ name ++ "'"
  | assignToCaptured name => "Cannot assign to captured variable '" ++ name ++ "'"
  | arityMismatch name expected given =>
    "Function '" ++ name ++ "' expects " ++ Nat.repr expected ++ " argument(s) but got " ++
      Nat.repr given
  | tooMany what limit => "Too many " ++ what.text ++ " (limit is " ++ Nat.repr limit ++ ")"

/-- What to do about an error. -/
def help? : CompileError → Option String
  | scope (.redeclared name) =>
    some ("Use '" ++ name ++ " = ...' to update an existing 'var' binding")
  | assignToConstant name =>
    some ("Declare it with 'var " ++ name ++ " = ...' to allow reassignment")
  | assignToCaptured _ => some "Closures capture outer variables by value"
  | _ => none

end CompileError

/-! ### State -/

/-- The names and constants known so far. -/
structure CompilerState where
  scopes : Scopes := .ofRoot (.ofBuiltins Builtin.names)
  constants : Array Constant := #[]

/-- Steps of the compiler. -/
abbrev Compile := StateT CompilerState (Except (Located CompileError))

namespace Compile

/-- The largest operand of two bytes. -/
def maxWide : Nat := 65535

/-- The largest operand of one byte. -/
def maxNarrow : Nat := 255

/-- Fails at a place of the source text. -/
def fail {α : Type} (error : CompileError) (span : Span) : Compile α :=
  throw ⟨error, span⟩

/-- Runs an operation on the names; its errors are reported at `span`. -/
def withScopes {α : Type} (operation : Scopes → Except ScopeError (α × Scopes)) (span : Span) :
    Compile α := do
  let state ← get
  match operation state.scopes with
  | .ok (a, scopes) =>
    set { state with scopes }
    return a
  | .error e => fail (.scope e) span

/-- Changes the names. -/
def modifyScopes (change : Scopes → Scopes) : Compile Unit :=
  modify fun state => { state with scopes := change state.scopes }

/-- Declares a name. -/
def define (name : String) (mutability : Mutability) (span : Span) : Compile Symbol :=
  withScopes (·.define name mutability) span

/-- Declares a name, with the number of parameters of its value if that is known. -/
def declareName (mutability : Mutability) (name : String) (value : Expr) (span : Span) :
    Compile Symbol := do
  let symbol ← define name mutability span
  match mutability, value with
  | .constant, .function _ params _ _ => modifyScopes (·.recordArity name params.length)
  | _, _ => pure ()
  return symbol

/-- Finds a name. -/
def resolve (name : String) (span : Span) : Compile Symbol :=
  withScopes (·.resolve name) span

/-- The number of constants in the pool. -/
def poolSize : Compile Nat :=
  return (← get).constants.size

/-- Puts a constant at the end of the pool. -/
def pushConstant (constant : Constant) : Compile Unit :=
  modify fun state => { state with constants := state.constants.push constant }

/-- The instruction of an operator, and whether its operands are exchanged: `a < b` is computed
as `b > a`. -/
def binaryOpcode : BinaryOp → Opcode × Bool
  | .add => (.add, false)
  | .sub => (.sub, false)
  | .mul => (.mul, false)
  | .div => (.div, false)
  | .mod => (.mod, false)
  | .equal => (.equal, false)
  | .notEqual => (.notEqual, false)
  | .greater => (.greaterThan, false)
  | .greaterEqual => (.greaterEqual, false)
  | .less => (.greaterThan, true)
  | .lessEqual => (.greaterEqual, true)

/-- The instruction of an operator. -/
def unaryOpcode : UnaryOp → Opcode
  | .negate => .minus
  | .not => .bang

/-- Finds a name that is going to be assigned. -/
def resolveTarget (name : String) (span : Span) : Compile Symbol := do
  let symbol ← resolve name span
  if symbol.mutability = .constant ∨ symbol.storage = .builtin ∨ symbol.storage = .self then
    fail (.assignToConstant name) span
  else if symbol.storage = .captured then fail (.assignToCaptured name) span
  else return symbol

/-- Finds the function called by a name and compares the number of arguments. -/
def resolveCallee (name : String) (argc : Nat) (nameSpan callSpan : Span) : Compile Symbol := do
  let symbol ← resolve name nameSpan
  match symbol.arity? with
  | some arity =>
    if arity ≠ argc then fail (.arityMismatch name arity argc) callSpan else return symbol
  | none => return symbol

/-- Declares the parameters of a function. -/
def defineParams : List Param → Compile Unit
  | [] => return
  | param :: rest => do
    discard <| define param.name .constant param.span
    defineParams rest

/-- Enters a function and declares its own name and its parameters. -/
def enterFunction (name? : Option String) (params : List Param) : Compile Unit := do
  modifyScopes Scopes.enter
  match name? with
  | some name => modifyScopes fun scopes => (scopes.nameSelf name params.length).2
  | none => pure ()
  defineParams params

/-- Leaves a function and gives its table of names. -/
def leaveFunction : Compile ScopeTable := do
  let state ← get
  set { state with scopes := state.scopes.leave?.getD {} }
  return state.scopes.current

end Compile

/-- Monads in which numbers can be checked against the limits of the instruction set. -/
class LimitChecker (m : Type → Type) where
  /-- Refuses a number above a limit. -/
  limit (what : Quota) (count max : Nat) (span : Span) : m Unit

/-- Monads that may keep the code of functions as it was built. -/
class BodyKeeper (m : Type → Type) (C : Type) where
  /-- Takes note of the code of a function that was added to the pool. -/
  keep (body : C) : m Unit

@[default_instance]
instance : LimitChecker Compile where
  limit what count max span :=
    if max < count then Compile.fail (.tooMany what max) span else pure ()

/-- The pool has the code of functions, so nothing has to be kept beside it. -/
instance {C : Type} : BodyKeeper Compile C where
  keep _ := pure ()

namespace Compile

export CodeBuilder (emit endsIn removeLast replaceLast openThen openElse jumpTarget joinArms)
export LimitChecker (limit)
export BodyKeeper (keep)

variable {C : Type} [CodeBuilder C]

/-! ### Instructions -/

/-- Adds the instruction that pushes the value of a symbol. -/
def load (symbol : Symbol) (span : Span) (code : C) : C :=
  match symbol.storage with
  | .globalSlot => emit code .getGlobal [symbol.index] span
  | .localSlot => emit code .getLocal [symbol.index] span
  | .captured => emit code .getFree [symbol.index] span
  | .builtin => emit code .getBuiltin [symbol.index] span
  | .self => emit code .currentClosure [] span

/-- Adds the instruction that assigns the value on top of the stack. -/
def assign (symbol : Symbol) (span : Span) (code : C) : C :=
  if symbol.storage = .globalSlot then emit code .assignGlobal [symbol.index] span
  else emit code .assignLocal [symbol.index] span

/-- What a block is for. -/
inductive Purpose where
  /-- An arm of a conditional: its value is left on the stack. -/
  | arm
  /-- The body of a function: its value is returned. -/
  | body
  deriving DecidableEq, Repr

/-- Lets the statements of a block, which were added after `start`, give a value. If the last of
them is an expression then its value has just been popped. -/
def finish (purpose : Purpose) (span : Span) (start code : C) : C :=
  match purpose with
  | .arm => if endsIn start code .pop then removeLast code else emit code .null [] span
  | .body =>
    let code := if endsIn start code .pop then replaceLast code .returnValue else code
    if endsIn start code .returnValue || endsIn start code .ret then code
    else emit code .ret [] span

variable {m : Type → Type} [Monad m] [MonadLiftT Compile m] [LimitChecker m]

/-- Adds a constant to the pool and gives its index. -/
def addConstant (constant : Constant) (span : Span) : m Nat := do
  let index ← poolSize
  limit .constants index maxWide span
  pushConstant constant
  return index

/-- Stores the value on top of the stack in a newly declared name. -/
def storeNew (symbol : Symbol) (span : Span) (code : C) : m C := do
  if symbol.storage = .globalSlot then
    limit .globals symbol.index maxWide span
    return emit code .setGlobal [symbol.index] span
  else
    limit .locals symbol.index maxNarrow span
    return emit code .setLocal [symbol.index] span

/-- Refuses a jump that is too far. -/
def limitJump (target : Located Nat) : m Unit :=
  limit .jumpDistance target.value maxWide target.span

variable [BodyKeeper m C]

/-- Adds the instructions that make a closure of a function with the code `body` and the names
`table`: its captured values, then the function. -/
def makeClosure (name? : Option String) (params : List Param) (body : C) (table : ScopeTable)
    (span : Span) (code : C) : m C := do
  let captures := table.captures.toList
  limit .locals table.definitions (maxNarrow + 1) span
  limit .captures captures.length maxNarrow span
  let code := captures.foldl (fun code symbol => load symbol span code) code
  let function : FunctionCode :=
    ⟨CodeBuilder.assemble body, table.definitions, params.length, name?⟩
  let index ← addConstant (.function function) span
  keep body
  return emit code .closure [index, captures.length] span

/-! ### Expressions and statements -/

mutual

/-- Adds the code of an expression. -/
def expr : Expr → C → m C
  | .identifier name span, code => do
    let symbol ← resolve name span
    return load symbol span code
  | .integer value span, code => do
    let index ← addConstant (.integer value) span
    return emit code .constant [index] span
  | .float value span, code => do
    let index ← addConstant (.float value) span
    return emit code .constant [index] span
  | .string value span, code => do
    let index ← addConstant (.string value) span
    return emit code .constant [index] span
  | .boolean value span, code => return emit code (if value then .true else .false) [] span
  | .null span, code => return emit code .null [] span
  | .unary op operand span, code => do
    let code ← expr operand code
    return emit code (unaryOpcode op) [] span
  | .binary op left right span, code => do
    let (opcode, exchanged) := binaryOpcode op
    let code ←
      if exchanged then do
        let code ← expr right code
        expr left code
      else do
        let code ← expr left code
        expr right code
    return emit code opcode [] span
  | .conditional condition thenBranch elseBranch span, code => do
    let code ← expr condition code
    let thenCode ← block .arm thenBranch (openThen span code)
    let elseStart := openElse span code thenCode
    limitJump (jumpTarget span code elseStart)
    let elseCode ← alternative elseBranch span elseStart
    limitJump (jumpTarget span thenCode elseCode)
    return joinArms span code thenCode elseCode
  | .function name? params body span, code => do
    limit .parameters params.length maxNarrow span
    enterFunction name? params
    let bodyCode ← block .body body CodeBuilder.empty
    let table ← leaveFunction
    makeClosure name? params bodyCode table span code
  | .call callee args span, code => do
    limit .arguments args.length maxNarrow span
    let code ← match callee with
      | .identifier name nameSpan => do
        let symbol ← resolveCallee name args.length nameSpan span
        pure (load symbol nameSpan code)
      | _ => expr callee code
    let code ← exprs args code
    return emit code .call [args.length] span
  | .array elements span, code => do
    let code ← exprs elements code
    limit .arrayElements elements.length maxWide span
    return emit code .array [elements.length] span
  | .hash pairs span, code => do
    let code ← entries pairs code
    limit .hashEntries (2 * pairs.length) maxWide span
    return emit code .hash [2 * pairs.length] span
  | .index object index span, code => do
    let code ← expr object code
    let code ← expr index code
    return emit code .index [] span

/-- Adds the code of several expressions. -/
def exprs : List Expr → C → m C
  | [], code => return code
  | e :: rest, code => do
    let code ← expr e code
    exprs rest code

/-- Adds the code of the keys and values of a hash. -/
def entries : List (Expr × Expr) → C → m C
  | [], code => return code
  | (key, value) :: rest, code => do
    let code ← expr key code
    let code ← expr value code
    entries rest code

/-- Adds the code of the `else` part of a conditional; without one the value is null. -/
def alternative : Option Block → Span → C → m C
  | none, span, code => return emit code .null [] span
  | some arm, _, code => block .arm arm code

/-- Adds the code of a block that gives a value. -/
def block : Purpose → Block → C → m C
  | purpose, .mk statements span, start => do
    let code ← stmts statements start
    return finish purpose span start code

/-- Adds the code of several statements. -/
def stmts : List Stmt → C → m C
  | [], code => return code
  | s :: rest, code => do
    let code ← stmt s code
    stmts rest code

/-- Adds the code of a statement. -/
def stmt : Stmt → C → m C
  | .expression e span, code => do
    let code ← expr e code
    return emit code .pop [] span
  | .declare mutability name value span, code => do
    let symbol ← declareName mutability name value span
    let code ← expr value code
    storeNew symbol span code
  | .assign name value span, code => do
    let symbol ← resolveTarget name span
    let code ← expr value code
    return assign symbol span code
  | .ret none span, code => return emit code .ret [] span
  | .ret (some value) span, code => do
    let code ← expr value code
    return emit code .returnValue [] span

end

end Compile

/-- Compiles a tree into code of a kind, with the names and constants of a state, and gives the
state after it. -/
def compileInto (C : Type) [CodeBuilder C] (state : CompilerState) (ast : Ast) :
    Except (Located CompileError) (Program × CompilerState) :=
  let statements : Compile C := Compile.stmts ast.statements CodeBuilder.empty
  match statements.run state with
  | .ok (code, state) =>
    .ok (⟨CodeBuilder.assemble code, state.constants⟩,
      { state with scopes := state.scopes.toRoot })
  | .error e => .error e

/-- Compiles a tree with the names and constants of a state, and gives the state after it. -/
def compileFrom (state : CompilerState) (ast : Ast) :
    Except (Located CompileError) (Program × CompilerState) :=
  compileInto Fragment state ast

/-- Compiles a tree on its own. -/
def compile (ast : Ast) : Except (Located CompileError) Program :=
  (compileFrom {} ast).map Prod.fst

end Bytescript
