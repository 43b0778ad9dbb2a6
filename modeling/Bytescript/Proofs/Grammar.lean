/-
The tokens of printed trees.

`Expr.Spelled e ks` says that the expression `e` is written by tokens of the kinds `ks`, in the form
in which trees are printed: operators and index expressions in parentheses, a comma between two
items, a semicolon behind every statement but an expression at the end. It holds only of trees that
can be read back: names are names of the language, integers are not negative, functions have no
name, and strings consist of characters that the scanner can read from quotes.

Both directions of the round trip go through these tokens. The text of a tree is scanned into them
(`Spelling`), and the parser reads the tree from them (`Reading`).

Design notes: where an expression is followed by something that could continue it, the parser has
to know how an expression begins (`Expr.Spelled.opens`), and it comes to calls only after it has
read their callee, so the number of calls at the end of an expression counts (`Expr.calls`).
-/
import Bytescript.Token.Scan
import Bytescript.Ast.Printer

namespace Bytescript

/-! ### Words, characters and operators -/

/-- The characters of a name or a keyword. -/
def isWord : List Char → Bool
  | [] => false
  | first :: rest => isNameStart first && rest.all isNameChar

/-- Can be read as a name. -/
structure IsName (name : String) : Prop where
  isWord : isWord name.toList = true
  free : Keyword.ofText? name = none

/-- Stands for itself between quotes, or has an escape that the scanner knows. -/
def isPlain (c : Char) : Bool :=
  Text.escapeChar c = [c] || c ∈ ['\t', '\r', '\n', '"', '\\']

/-- The mark of an operator between two operands. -/
def BinaryOp.mark : BinaryOp → Mark
  | add => .plus
  | sub => .minus
  | mul => .star
  | div => .slash
  | mod => .percent
  | equal => .equalEqual
  | notEqual => .bangEqual
  | less => .less
  | lessEqual => .lessEqual
  | greater => .greater
  | greaterEqual => .greaterEqual

theorem BinaryOp.text_mark (op : BinaryOp) : op.mark.text = op.symbol := by
  cases op <;> rfl

/-- The mark of an operator before its operand. -/
def UnaryOp.mark : UnaryOp → Mark
  | negate => .minus
  | not => .bang

theorem UnaryOp.text_mark (op : UnaryOp) : op.mark.text = op.symbol := by
  cases op <;> rfl

/-- The keyword of a declaration. -/
def Mutability.keyword : Mutability → Keyword
  | constant => .letWord
  | mutable => .varWord

theorem Mutability.text_keyword (mutability : Mutability) :
    mutability.keyword.text = mutability.text := by
  cases mutability <;> rfl

/-! ### Tokens of trees -/

/-- Items with commas between them. -/
def separated (items : List (List TokenKind)) : List TokenKind :=
  [TokenKind.mark .comma].intercalate items

/-- The tokens of the parameters of a function. -/
def paramKinds (params : List Param) : List TokenKind :=
  separated (params.map fun param => [.identifier param.name])

mutual

/-- The expression is written by these tokens. -/
inductive Expr.Spelled : Expr → List TokenKind → Prop where
  | identifier {name : String} {span : Span} : IsName name →
      Expr.Spelled (.identifier name span) [.identifier name]
  | integer {value : Int64} {span : Span} : 0 ≤ value.toInt →
      Expr.Spelled (.integer value span) [.integer value]
  | string {value : String} {span : Span} : (∀ c ∈ value.toList, isPlain c = true) →
      Expr.Spelled (.string value span) [.string value]
  | boolean {value : Bool} {span : Span} :
      Expr.Spelled (.boolean value span) [.keyword (if value then .trueWord else .falseWord)]
  | null {span : Span} : Expr.Spelled (.null span) [.keyword .nullWord]
  | unary {op : UnaryOp} {operand : Expr} {span : Span} {ks : List TokenKind} :
      operand.Spelled ks →
      Expr.Spelled (.unary op operand span)
        (.mark .leftParen :: .mark op.mark :: (ks ++ [.mark .rightParen]))
  | binary {op : BinaryOp} {left right : Expr} {span : Span} {ls rs : List TokenKind} :
      left.Spelled ls → right.Spelled rs →
      Expr.Spelled (.binary op left right span)
        (.mark .leftParen :: (ls ++ .mark op.mark :: (rs ++ [.mark .rightParen])))
  | conditional {condition : Expr} {thenBranch : Block} {elseBranch : Option Block} {span : Span}
      {cs ts es : List TokenKind} :
      condition.Spelled cs → thenBranch.Spelled ts → ElseSpelled elseBranch es →
      Expr.Spelled (.conditional condition thenBranch elseBranch span)
        (.keyword .ifWord :: .mark .leftParen :: (cs ++ .mark .rightParen :: (ts ++ es)))
  | function {params : List Param} {body : Block} {span : Span} {ks : List TokenKind} :
      (∀ param ∈ params, IsName param.name) → body.Spelled ks →
      Expr.Spelled (.function none params body span)
        (.keyword .fnWord :: .mark .leftParen :: (paramKinds params ++ .mark .rightParen :: ks))
  | call {callee : Expr} {args : List Expr} {span : Span} {ks : List TokenKind}
      {items : List (List TokenKind)} :
      callee.Spelled ks → ExprsSpelled args items →
      Expr.Spelled (.call callee args span)
        (ks ++ .mark .leftParen :: (separated items ++ [.mark .rightParen]))
  | array {elements : List Expr} {span : Span} {items : List (List TokenKind)} :
      ExprsSpelled elements items →
      Expr.Spelled (.array elements span)
        (.mark .leftBracket :: (separated items ++ [.mark .rightBracket]))
  | hash {entries : List (Expr × Expr)} {span : Span} {items : List (List TokenKind)} :
      EntriesSpelled entries items →
      Expr.Spelled (.hash entries span)
        (.mark .leftBrace :: (separated items ++ [.mark .rightBrace]))
  | index {object index : Expr} {span : Span} {os is : List TokenKind} :
      object.Spelled os → index.Spelled is →
      Expr.Spelled (.index object index span) (.mark .leftParen ::
        (os ++ .mark .leftBracket :: (is ++ [.mark .rightBracket, .mark .rightParen])))

/-- The expressions are written by these items. -/
inductive ExprsSpelled : List Expr → List (List TokenKind) → Prop where
  | nil : ExprsSpelled [] []
  | cons {e : Expr} {rest : List Expr} {ks : List TokenKind} {items : List (List TokenKind)} :
      e.Spelled ks → ExprsSpelled rest items → ExprsSpelled (e :: rest) (ks :: items)

/-- The entries of a hash are written by these items. -/
inductive EntriesSpelled : List (Expr × Expr) → List (List TokenKind) → Prop where
  | nil : EntriesSpelled [] []
  | cons {key value : Expr} {rest : List (Expr × Expr)} {ks vs : List TokenKind}
      {items : List (List TokenKind)} :
      key.Spelled ks → value.Spelled vs → EntriesSpelled rest items →
      EntriesSpelled ((key, value) :: rest) ((ks ++ .mark .colon :: vs) :: items)

/-- The `else` part of a conditional is written by these tokens. -/
inductive ElseSpelled : Option Block → List TokenKind → Prop where
  | none : ElseSpelled none []
  | some {block : Block} {ks : List TokenKind} : block.Spelled ks →
      ElseSpelled (some block) (.keyword .elseWord :: ks)

/-- The statement is written by these tokens, the last of them a semicolon. -/
inductive Stmt.Spelled : Stmt → List TokenKind → Prop where
  | declare {mutability : Mutability} {name : String} {value : Expr} {span : Span}
      {ks : List TokenKind} : IsName name → value.named name = value → value.Spelled ks →
      Stmt.Spelled (.declare mutability name value span)
        (.keyword mutability.keyword :: .identifier name :: .mark .equal ::
          (ks ++ [.mark .semicolon]))
  | assign {name : String} {value : Expr} {span : Span} {ks : List TokenKind} : IsName name →
      value.Spelled ks →
      Stmt.Spelled (.assign name value span)
        (.identifier name :: .mark .equal :: (ks ++ [.mark .semicolon]))
  | retNone {span : Span} : Stmt.Spelled (.ret none span) [.keyword .returnWord, .mark .semicolon]
  | ret {value : Expr} {span : Span} {ks : List TokenKind} : value.Spelled ks →
      Stmt.Spelled (.ret (some value) span) (.keyword .returnWord :: (ks ++ [.mark .semicolon]))

/-- The statements are written by these tokens. Only the last one may be an expression. -/
inductive StmtsSpelled : List Stmt → List TokenKind → Prop where
  | nil : StmtsSpelled [] []
  | expression {e : Expr} {span : Span} {ks : List TokenKind} : e.Spelled ks →
      StmtsSpelled [.expression e span] ks
  | cons {s : Stmt} {rest : List Stmt} {ks ks' : List TokenKind} :
      s.Spelled ks → StmtsSpelled rest ks' → StmtsSpelled (s :: rest) (ks ++ ks')

/-- The block is written by these tokens. -/
inductive Block.Spelled : Block → List TokenKind → Prop where
  | mk {statements : List Stmt} {span : Span} {ks : List TokenKind} : StmtsSpelled statements ks →
      Block.Spelled (.mk statements span) (.mark .leftBrace :: (ks ++ [.mark .rightBrace]))

end

theorem StmtsSpelled.eq_nil {statements : List Stmt} {ks : List TokenKind}
    (h : StmtsSpelled statements ks) (hnil : statements = []) : ks = [] := by
  subst hnil
  cases h
  rfl

/-! ### How expressions begin -/

/-- Begins an expression that is printed. -/
def TokenKind.opensExpr : TokenKind → Bool
  | identifier _ | integer _ | string _ => true
  | keyword word => word ∈ [Keyword.trueWord, .falseWord, .nullWord, .ifWord, .fnWord]
  | mark m => m ∈ [Mark.leftParen, .leftBracket, .leftBrace]
  | float _ | endOfInput => false

/-- An expression that begins with a name is the name alone or calls something. -/
theorem Expr.Spelled.opens : ∀ {e : Expr} {ks : List TokenKind}, e.Spelled ks →
    ∃ kind rest, ks = kind :: rest ∧ kind.opensExpr = true ∧
      ∀ name, kind = .identifier name → rest.head? ≠ some (.mark .equal)
  | _, _, .identifier _ | _, _, .integer _ | _, _, .string _ | _, _, .null | _, _, .unary _
  | _, _, .binary _ _ | _, _, .conditional _ _ _ | _, _, .function _ _ | _, _, .array _
  | _, _, .hash _ | _, _, .index _ _ => ⟨_, _, rfl, rfl, by simp⟩
  | _, _, @boolean value _ => ⟨_, _, rfl, by cases value <;> rfl, by simp⟩
  | _, _, .call hcallee _ => by
    obtain ⟨kind, rest, rfl, hopens, hname⟩ := hcallee.opens
    refine ⟨kind, _, rfl, hopens, fun name hkind => ?_⟩
    have hrest := hname name hkind
    -- a callee that is a name alone is followed by the parenthesis
    cases rest with
    | nil => simp
    | cons next rest => simpa using hrest

/-- The number of calls at the end of an expression. -/
def Expr.calls : Expr → Nat
  | .call callee _ _ => callee.calls + 1
  | _ => 0

theorem Expr.Spelled.calls_lt : ∀ {e : Expr} {ks : List TokenKind}, e.Spelled ks →
    2 * e.calls < ks.length
  | _, _, .call hcallee _ => by
    have hlt := hcallee.calls_lt
    rw [Expr.calls]
    simp only [List.length_append, List.length_cons]
    omega
  | _, _, .identifier _ | _, _, .integer _ | _, _, .string _ | _, _, .boolean | _, _, .null
  | _, _, .unary _ | _, _, .binary _ _ | _, _, .conditional _ _ _ | _, _, .function _ _
  | _, _, .array _ | _, _, .hash _ | _, _, .index _ _ => by simp [Expr.calls]

end Bytescript
