/-
Syntax trees as text.

Operators and index expressions are printed in parentheses, so the text shows how the tree is
built.
-/
import Bytescript.Ast.Basic

namespace Bytescript

mutual

/-- An expression as text. -/
def Expr.render : Expr → String
  | .identifier name _ => name
  | .integer value _ => toString value.toInt
  | .float value _ => value.render
  | .string value _ => Text.quote value
  | .boolean value _ => if value then "true" else "false"
  | .null _ => "null"
  | .unary op operand _ => "(" ++ op.symbol ++ operand.render ++ ")"
  | .binary op left right _ =>
    "(" ++ left.render ++ " " ++ op.symbol ++ " " ++ right.render ++ ")"
  | .conditional condition thenBranch elseBranch _ =>
    "if (" ++ condition.render ++ ") " ++ thenBranch.render ++ renderElse elseBranch
  | .function name params body _ =>
    let opening := match name with
      | some name => "fn " ++ name ++ "("
      | none => "fn("
    opening ++ ", ".intercalate (params.map Param.name) ++ ") " ++ body.render
  | .call callee args _ => callee.render ++ "(" ++ ", ".intercalate (renderAll args) ++ ")"
  | .array elements _ => "[" ++ ", ".intercalate (renderAll elements) ++ "]"
  | .hash entries _ => "\x7b" ++ ", ".intercalate (renderEntries entries) ++ "\x7d"
  | .index object index _ => "(" ++ object.render ++ "[" ++ index.render ++ "])"

/-- The texts of several expressions. -/
def renderAll : List Expr → List String
  | [] => []
  | e :: rest => e.render :: renderAll rest

/-- The texts of the entries of a hash. -/
def renderEntries : List (Expr × Expr) → List String
  | [] => []
  | (key, value) :: rest => (key.render ++ ": " ++ value.render) :: renderEntries rest

/-- The `else` part of a conditional, empty when there is none. -/
def renderElse : Option Block → String
  | none => ""
  | some block => " else " ++ block.render

/-- A statement as text. -/
def Stmt.render : Stmt → String
  | .declare mutability name value _ =>
    mutability.text ++ " " ++ name ++ " = " ++ value.render ++ ";"
  | .assign name value _ => name ++ " = " ++ value.render ++ ";"
  | .ret none _ => "return;"
  | .ret (some value) _ => "return " ++ value.render ++ ";"
  | .expression expr _ => expr.render

/-- The texts of several statements. -/
def renderStatements : List Stmt → List String
  | [] => []
  | s :: rest => s.render :: renderStatements rest

/-- A block as text. -/
def Block.render : Block → String
  | .mk [] _ => "\x7b \x7d"
  | .mk (s :: rest) _ =>
    "\x7b " ++ " ".intercalate (s.render :: renderStatements rest) ++ " \x7d"

end

/-- A whole program as text. -/
def Ast.render (ast : Ast) : String :=
  " ".intercalate (renderStatements ast.statements)

end Bytescript
