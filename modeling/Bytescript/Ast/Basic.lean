/-
Syntax trees of the language.

Every node knows the part of the source text it was read from. Parentheses leave no node; an
`else if` stands as an `else` block that holds the second `if` alone.
-/
import Bytescript.Token.Basic

namespace Bytescript

/-- Whether a binding may be assigned again. -/
inductive Mutability where
  /-- Declared with `let`: never assigned again. -/
  | constant
  /-- Declared with `var`: may be assigned again. -/
  | mutable
  deriving DecidableEq, Repr

/-- The keyword that declares a binding. -/
def Mutability.text : Mutability → String
  | constant => "let"
  | mutable => "var"

/-- Operators between two operands. -/
inductive BinaryOp where
  | add | sub | mul | div | mod
  | equal | notEqual | less | lessEqual | greater | greaterEqual
  deriving DecidableEq, Repr

namespace BinaryOp

/-- The operator written by a token. -/
def ofToken? : TokenKind → Option BinaryOp
  | .mark .plus => some .add
  | .mark .minus => some .sub
  | .mark .star => some .mul
  | .mark .slash => some .div
  | .mark .percent => some .mod
  | .mark .equalEqual => some .equal
  | .mark .bangEqual => some .notEqual
  | .mark .less => some .less
  | .mark .lessEqual => some .lessEqual
  | .mark .greater => some .greater
  | .mark .greaterEqual => some .greaterEqual
  | _ => none

/-- The spelling of an operator. -/
def symbol : BinaryOp → String
  | add => "+"
  | sub => "-"
  | mul => "*"
  | div => "/"
  | mod => "%"
  | equal => "=="
  | notEqual => "!="
  | less => "<"
  | lessEqual => "<="
  | greater => ">"
  | greaterEqual => ">="

end BinaryOp

/-- Operators before one operand. -/
inductive UnaryOp where
  | negate | not
  deriving DecidableEq, Repr

namespace UnaryOp

/-- The operator written by a token. -/
def ofToken? : TokenKind → Option UnaryOp
  | .mark .minus => some .negate
  | .mark .bang => some .not
  | _ => none

/-- The spelling of an operator. -/
def symbol : UnaryOp → String
  | negate => "-"
  | not => "!"

end UnaryOp

/-- A parameter of a function. -/
structure Param where
  name : String
  span : Span
  deriving DecidableEq, Repr

mutual

/-- Expressions. -/
inductive Expr where
  | identifier (name : String) (span : Span)
  | integer (value : Int64) (span : Span)
  | float (value : Binary64) (span : Span)
  | string (value : String) (span : Span)
  | boolean (value : Bool) (span : Span)
  | null (span : Span)
  | unary (op : UnaryOp) (operand : Expr) (span : Span)
  | binary (op : BinaryOp) (left right : Expr) (span : Span)
  | conditional (condition : Expr) (thenBranch : Block) (elseBranch : Option Block) (span : Span)
  /-- A function; it has a name when it is the whole value of a declaration. -/
  | function (name : Option String) (params : List Param) (body : Block) (span : Span)
  | call (callee : Expr) (args : List Expr) (span : Span)
  | array (elements : List Expr) (span : Span)
  | hash (entries : List (Expr × Expr)) (span : Span)
  | index (object index : Expr) (span : Span)

/-- Statements. -/
inductive Stmt where
  | declare (mutability : Mutability) (name : String) (value : Expr) (span : Span)
  | assign (name : String) (value : Expr) (span : Span)
  | ret (value : Option Expr) (span : Span)
  | expression (expr : Expr) (span : Span)

/-- Statements in braces. -/
inductive Block where
  | mk (statements : List Stmt) (span : Span)

end

/-- The part of the source text an expression was read from. -/
def Expr.span : Expr → Span
  | .identifier _ span | .integer _ span | .float _ span | .string _ span | .boolean _ span
  | .null span | .unary _ _ span | .binary _ _ _ span | .conditional _ _ _ span
  | .function _ _ _ span | .call _ _ span | .array _ span | .hash _ span | .index _ _ span => span

/-- Gives a function its name; other expressions stay as they are. -/
def Expr.named (name : String) : Expr → Expr
  | .function _ params body span => .function (some name) params body span
  | other => other

/-- The part of the source text a statement was read from. -/
def Stmt.span : Stmt → Span
  | .declare _ _ _ span | .assign _ _ span | .ret _ span | .expression _ span => span

/-- The statements of a block. -/
def Block.statements : Block → List Stmt
  | .mk statements _ => statements

/-- The part of the source text a block was read from, braces included. -/
def Block.span : Block → Span
  | .mk _ span => span

/-- A whole source text. -/
structure Ast where
  statements : List Stmt

end Bytescript
