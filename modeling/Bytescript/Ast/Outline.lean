/-
Syntax trees drawn with lines.

A tree is drawn with one line for each node, the children below their parent and joined to it by
box-drawing characters.
-/
import Bytescript.Ast.Basic

namespace Bytescript

/-- A labelled tree. -/
inductive Outline where
  | node (label : String) (children : List Outline)

namespace Outline

/-- A tree without children. -/
def leaf (label : String) : Outline :=
  .node label []

mutual

/-- The lines of a tree: `lead` opens the line of its root, `indent` those of its children. -/
def draw (lead indent : String) : Outline → String
  | .node label children => lead ++ label ++ "\n" ++ drawChildren indent children

/-- The lines of the children of a node. -/
def drawChildren (indent : String) : List Outline → String
  | [] => ""
  | [last] => draw (indent ++ "└─ ") (indent ++ "   ") last
  | child :: next :: rest =>
    draw (indent ++ "├─ ") (indent ++ "│  ") child ++ drawChildren indent (next :: rest)

end

/-- The drawing of a tree. -/
def render (tree : Outline) : String :=
  draw "" "" tree

end Outline

mutual

/-- The outline of an expression. -/
def Expr.outline : Expr → Outline
  | .identifier name _ => .leaf ("Identifier '" ++ name ++ "'")
  | .integer value _ => .leaf ("Integer " ++ toString value.toInt)
  | .float value _ => .leaf ("Float " ++ value.render)
  | .string value _ => .leaf ("String " ++ Text.quote value)
  | .boolean value _ => .leaf ("Boolean " ++ if value then "true" else "false")
  | .null _ => .leaf "Null"
  | .unary op operand _ => .node ("Unary '" ++ op.symbol ++ "'") [operand.outline]
  | .binary op left right _ =>
    .node ("Binary '" ++ op.symbol ++ "'") [left.outline, right.outline]
  | .conditional condition thenBranch elseBranch _ =>
    .node "If" (.node "condition" [condition.outline] :: thenBranch.outline "then" ::
      outlineElse elseBranch)
  | .function name? params body _ =>
    let names := ", ".intercalate (params.map Param.name)
    let signature := name?.getD "<anonymous>" ++ "(" ++ names ++ ")"
    .node ("Function " ++ signature) [body.outline "body"]
  | .call callee args _ =>
    match args with
    | [] => .node "Call" [callee.outline]
    | arg :: rest => .node "Call" [callee.outline, .node "args" (arg.outline :: outlineAll rest)]
  | .array elements _ =>
    .node ("Array (" ++ Nat.repr elements.length ++ ")") (outlineAll elements)
  | .hash entries _ =>
    .node ("Hash (" ++ Nat.repr entries.length ++ ")") (outlineEntries entries)
  | .index object index _ => .node "Index" [object.outline, index.outline]

/-- The outlines of several expressions. -/
def outlineAll : List Expr → List Outline
  | [] => []
  | e :: rest => e.outline :: outlineAll rest

/-- The outlines of the entries of a hash. -/
def outlineEntries : List (Expr × Expr) → List Outline
  | [] => []
  | (key, value) :: rest => .node "entry" [key.outline, value.outline] :: outlineEntries rest

/-- The outline of the `else` part of a conditional. -/
def outlineElse : Option Block → List Outline
  | none => []
  | some block => [block.outline "else"]

/-- The outline of a statement. -/
def Stmt.outline : Stmt → Outline
  | .declare mutability name value _ =>
    .node (mutability.text ++ " '" ++ name ++ "'") [value.outline]
  | .assign name value _ => .node ("Assign '" ++ name ++ "'") [value.outline]
  | .ret none _ => .leaf "Return"
  | .ret (some value) _ => .node "Return" [value.outline]
  | .expression expr _ => .node "Expr" [expr.outline]

/-- The outlines of several statements. -/
def outlineStatements : List Stmt → List Outline
  | [] => []
  | s :: rest => s.outline :: outlineStatements rest

/-- The outline of a block under a label. -/
def Block.outline (label : String) : Block → Outline
  | .mk statements _ => .node label (outlineStatements statements)

end

/-- The outline of a program. -/
def Ast.outline (ast : Ast) : Outline :=
  .node "Program" (outlineStatements ast.statements)

end Bytescript
