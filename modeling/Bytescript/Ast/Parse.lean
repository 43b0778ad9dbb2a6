/-
Reading syntax trees from tokens.

`parse` reads statements up to the end of input. Expressions are read by binding power: an
operand, then every call, index or operator after it that binds more tightly than what stands
before the operand. An operator hands its own power to its right operand, so operators of equal
power group to the left.

The functions call each other with one unit of fuel less; no more than a few calls happen
between two tokens, so `parse` gives them a fixed multiple of the number of tokens. They ask for
tokens through `TokenReader` only, so they do not depend on how the tokens are kept.
-/
import Bytescript.Ast.Basic
import Bytescript.Source.Located

namespace Bytescript

/-! ### Errors -/

/-- What the parser wanted to see. -/
inductive Expectation where
  | variableName (mutability : Mutability)
  | equalSign (mutability : Mutability) (name : String)
  | blockStart
  | blockEnd
  | groupEnd
  | conditionStart
  | conditionEnd
  | parametersStart
  | parameterName
  | parametersEnd
  | hashColon
  | hashEnd
  | listEnd (closer : Mark)
  | indexEnd
  deriving DecidableEq, Repr

/-- Why tokens are no program. -/
inductive ParseError where
  | expected (what : Expectation)
  | expectedExpression (found : TokenKind)
  /-- The fuel given to the parser did not suffice. -/
  | outOfFuel
  deriving DecidableEq, Repr

/-- The wording of an unmet expectation. -/
def Expectation.message : Expectation → String
  | variableName mutability => "Expected variable name after '" ++ mutability.text ++ "'"
  | equalSign .. => "Expected '=' after variable name"
  | blockStart => "Expected '\x7b' to start a block"
  | blockEnd => "Expected '\x7d' after block"
  | groupEnd => "Expected ')' after expression"
  | conditionStart => "Expected '(' after 'if'"
  | conditionEnd => "Expected ')' after condition"
  | parametersStart => "Expected '(' after 'fn'"
  | parameterName => "Expected parameter name"
  | parametersEnd => "Expected ')' after parameters"
  | hashColon => "Expected ':' after hash key"
  | hashEnd => "Expected '\x7d' after hash literal"
  | listEnd closer => "Expected '" ++ closer.text ++ "' after list"
  | indexEnd => "Expected ']' after index"

namespace ParseError

/-- The wording of an error. -/
def message : ParseError → String
  | expected what => what.message
  | expectedExpression .endOfInput => "Expected expression, found end of input"
  | expectedExpression found => "Expected expression, found '" ++ found.render ++ "'"
  | outOfFuel => "Program is nested too deeply"

/-- What to do about an error. -/
def help? : ParseError → Option String
  | expected (.equalSign mutability name) =>
    some ("Declare with '" ++ mutability.text ++ " " ++ name ++ " = value;'")
  | _ => none

end ParseError

/-! ### Binding power -/

/-- How tightly an operator holds its operands, weakest first. -/
inductive Precedence where
  | lowest | equality | comparison | sum | product | unary | call | index
  deriving DecidableEq, Repr

/-- The rank of a binding power. -/
def Precedence.level : Precedence → Nat
  | lowest => 0
  | equality => 1
  | comparison => 2
  | sum => 3
  | product => 4
  | unary => 5
  | call => 6
  | index => 7

/-- The binding power of an operator between two operands. -/
def BinaryOp.precedence : BinaryOp → Precedence
  | equal | notEqual => .equality
  | less | lessEqual | greater | greaterEqual => .comparison
  | add | sub => .sum
  | mul | div | mod => .product

/-- How an expression goes on after an operand. -/
inductive Continuation where
  | call | index | operator (op : BinaryOp)
  deriving DecidableEq, Repr

namespace Continuation

/-- The continuation begun by a token. -/
def ofToken? : TokenKind → Option Continuation
  | .mark .leftParen => some .call
  | .mark .leftBracket => some .index
  | kind => (BinaryOp.ofToken? kind).map .operator

/-- The binding power of a continuation. -/
def precedence : Continuation → Precedence
  | call => .call
  | index => .index
  | operator op => op.precedence

end Continuation

/-! ### Tokens still to be read -/

/-- The tokens that are left, and the span of the last one read. -/
structure TokenCursor where
  rest : List Token
  last : Span

namespace TokenCursor

/-- The kind of the next token. -/
def kind (cursor : TokenCursor) : TokenKind :=
  match cursor.rest with
  | [] => .endOfInput
  | token :: _ => token.kind

/-- The span of the next token. -/
def span (cursor : TokenCursor) : Span :=
  match cursor.rest with
  | [] => .single cursor.last.stop
  | token :: _ => token.span

/-- Do an identifier and an equal sign come next? -/
def atAssignment (cursor : TokenCursor) : Bool :=
  match cursor.rest with
  | ⟨.identifier _, _, _⟩ :: ⟨.mark .equal, _, _⟩ :: _ => true
  | _ => false

/-- The cursor after the next token; the end of input stays where it is. -/
def advance (cursor : TokenCursor) : TokenCursor :=
  match cursor.rest with
  | [] => cursor
  | token :: rest => if token.isEnd then cursor else ⟨rest, token.span⟩

end TokenCursor

/-- What the parser asks of the tokens: steps in `m` that look at the next token, go past it, and
fail. -/
class TokenReader (m : Type → Type) where
  /-- The kind of the next token. -/
  peek : m TokenKind
  /-- Reads the next token, whatever it is, and gives its span. -/
  skip : m Span
  /-- The span of the last token read. -/
  lastSpan : m Span
  /-- Does an equal sign come after the identifier that comes next? -/
  atAssignment : m Bool
  /-- Fails at the next token. -/
  fail {α : Type} (error : ParseError) : m α
  /-- Fails at a token that was read. -/
  failAt {α : Type} (error : ParseError) (span : Span) : m α

/-- Readers of the tokens that a cursor has left. -/
abbrev Parse := StateT TokenCursor (Except (Located ParseError))

instance : TokenReader Parse where
  peek := return (← get).kind
  skip := do
    let cursor ← get
    set cursor.advance
    return cursor.span
  lastSpan := return (← get).last
  atAssignment := return (← get).atAssignment
  fail error := do throw ⟨error, (← get).span⟩
  failAt error span := throw ⟨error, span⟩

namespace Parse

export TokenReader (peek skip lastSpan atAssignment fail failAt)

variable {m : Type → Type} [Monad m] [TokenReader m]

/-- Reads the next token if it is of the given kind. -/
def accept (kind : TokenKind) : m Bool := do
  if (← peek) = kind then
    discard skip
    return true
  else return false

/-- Reads a token of the given kind and gives its span. -/
def expect (kind : TokenKind) (what : Expectation) : m Span := do
  if (← peek) = kind then skip else fail (.expected what)

/-- Reads a name. -/
def expectName (what : Expectation) : m (Located String) := do
  match ← peek with
  | .identifier name => return ⟨name, ← skip⟩
  | _ => fail (.expected what)

/-- Reads the parameters of a function after the opening parenthesis, of which `found` were read,
and the closing one. -/
def params : (fuel : Nat) → Array Param → m (List Param)
  | 0, _ => fail .outOfFuel
  | fuel + 1, found => do
    let name ← expectName .parameterName
    let found := found.push ⟨name.value, name.span⟩
    if ← accept (.mark .comma) then params fuel found
    else
      discard <| expect (.mark .rightParen) .parametersEnd
      return found.toList

mutual

/-- Reads an expression of which the operators bind more tightly than `precedence`. -/
def expr : (fuel : Nat) → Precedence → m Expr
  | 0, _ => fail .outOfFuel
  | fuel + 1, precedence => do
    let left ← operand fuel
    continued fuel precedence left

/-- Reads what continues the expression `left`. -/
def continued : (fuel : Nat) → Precedence → Expr → m Expr
  | 0, _, _ => fail .outOfFuel
  | fuel + 1, precedence, left => do
    match Continuation.ofToken? (← peek) with
    | none => return left
    | some continuation =>
      if precedence.level < continuation.precedence.level then
        discard skip
        match continuation with
        | .call =>
          let args ← list fuel .rightParen
          continued fuel precedence (.call left args (left.span.join (← lastSpan)))
        | .index =>
          let index ← expr fuel .lowest
          let close ← expect (.mark .rightBracket) .indexEnd
          continued fuel precedence (.index left index (left.span.join close))
        | .operator op =>
          let right ← expr fuel op.precedence
          continued fuel precedence (.binary op left right (left.span.join right.span))
      else return left

/-- Reads an operand with the operators before it. -/
def operand : (fuel : Nat) → m Expr
  | 0 => fail .outOfFuel
  | fuel + 1 => do
    let kind ← peek
    if kind = .endOfInput then fail (.expectedExpression kind)
    else
      let span ← skip
      match kind with
      | .identifier name => return .identifier name span
      | .integer value => return .integer value span
      | .float value => return .float value span
      | .string value => return .string value span
      | .keyword .trueWord => return .boolean true span
      | .keyword .falseWord => return .boolean false span
      | .keyword .nullWord => return .null span
      | .mark .bang => unary fuel .not span
      | .mark .minus => unary fuel .negate span
      | .mark .leftParen =>
        let inner ← expr fuel .lowest
        discard <| expect (.mark .rightParen) .groupEnd
        return inner
      | .keyword .ifWord => conditional fuel span
      | .keyword .fnWord => function fuel span
      | .mark .leftBracket =>
        let elements ← list fuel .rightBracket
        return .array elements (span.join (← lastSpan))
      | .mark .leftBrace =>
        let pairs ← entries fuel #[]
        let close ← expect (.mark .rightBrace) .hashEnd
        return .hash pairs (span.join close)
      | _ => failAt (.expectedExpression kind) span

/-- Reads the operand of an operator that stands at `start`. -/
def unary : (fuel : Nat) → UnaryOp → (start : Span) → m Expr
  | 0, _, _ => fail .outOfFuel
  | fuel + 1, op, start => do
    let inner ← expr fuel .unary
    return .unary op inner (start.join inner.span)

/-- Reads a conditional after the `if` at `start`. -/
def conditional : (fuel : Nat) → (start : Span) → m Expr
  | 0, _ => fail .outOfFuel
  | fuel + 1, start => do
    discard <| expect (.mark .leftParen) .conditionStart
    let condition ← expr fuel .lowest
    discard <| expect (.mark .rightParen) .conditionEnd
    let thenBranch ← block fuel
    let elseBranch ← alternative fuel
    return .conditional condition thenBranch elseBranch (start.join (← lastSpan))

/-- Reads the `else` part of a conditional, if there is one. -/
def alternative : (fuel : Nat) → m (Option Block)
  | 0 => fail .outOfFuel
  | fuel + 1 => do
    if ← accept (.keyword .elseWord) then
      if (← peek) = .keyword .ifWord then
        let nested ← conditional fuel (← skip)
        return some (.mk [.expression nested nested.span] nested.span)
      else return some (← block fuel)
    else return none

/-- Reads a function after the `fn` at `start`. -/
def function : (fuel : Nat) → (start : Span) → m Expr
  | 0, _ => fail .outOfFuel
  | fuel + 1, start => do
    discard <| expect (.mark .leftParen) .parametersStart
    let names ← if ← accept (.mark .rightParen) then pure [] else params fuel #[]
    let body ← block fuel
    return .function none names body (start.join body.span)

/-- Reads the entries of a hash up to its closing brace, of which `found` were read. A comma may
follow the last one. -/
def entries : (fuel : Nat) → Array (Expr × Expr) → m (List (Expr × Expr))
  | 0, _ => fail .outOfFuel
  | fuel + 1, found => do
    if (← peek) = .mark .rightBrace then return found.toList
    else
      let key ← expr fuel .lowest
      discard <| expect (.mark .colon) .hashColon
      let value ← expr fuel .lowest
      let found := found.push (key, value)
      if ← accept (.mark .comma) then entries fuel found else return found.toList

/-- Reads expressions up to and including the mark `closer`. -/
def list : (fuel : Nat) → (closer : Mark) → m (List Expr)
  | 0, _ => fail .outOfFuel
  | fuel + 1, closer => do
    if ← accept (.mark closer) then return [] else items fuel closer #[]

/-- Reads at least one expression, after those in `found`, up to and including `closer`. A comma
may follow the last one. -/
def items : (fuel : Nat) → (closer : Mark) → Array Expr → m (List Expr)
  | 0, _, _ => fail .outOfFuel
  | fuel + 1, closer, found => do
    let item ← expr fuel .lowest
    let found := found.push item
    let more ←
      if ← accept (.mark .comma) then pure (decide ((← peek) ≠ .mark closer)) else pure false
    if more then items fuel closer found
    else
      discard <| expect (.mark closer) (.listEnd closer)
      return found.toList

/-- Reads a block. -/
def block : (fuel : Nat) → m Block
  | 0 => fail .outOfFuel
  | fuel + 1 => do
    let start ← expect (.mark .leftBrace) .blockStart
    let body ← statements fuel (some .rightBrace) #[]
    let close ← expect (.mark .rightBrace) .blockEnd
    return .mk body (start.join close)

/-- Reads statements up to the end of input, or up to the mark `closer` if there is one, after
those in `found`. -/
def statements : (fuel : Nat) → (closer : Option Mark) → Array Stmt → m (List Stmt)
  | 0, _, _ => fail .outOfFuel
  | fuel + 1, closer, found => do
    let kind ← peek
    if kind = .endOfInput ∨ closer.map TokenKind.mark = some kind then return found.toList
    else
      let next ← statement fuel
      statements fuel closer (found.push next)

/-- Reads a statement. -/
def statement : (fuel : Nat) → m Stmt
  | 0 => fail .outOfFuel
  | fuel + 1 => do
    match ← peek with
    | .keyword .letWord => declaration fuel .constant
    | .keyword .varWord => declaration fuel .mutable
    | .keyword .returnWord =>
      let start ← skip
      let value ← returned fuel
      discard <| accept (.mark .semicolon)
      return .ret value (start.join (← lastSpan))
    | .identifier name =>
      if ← atAssignment then
        let start ← skip
        discard skip
        let value ← expr fuel .lowest
        discard <| accept (.mark .semicolon)
        return .assign name value (start.join (← lastSpan))
      else expressionStatement fuel
    | _ => expressionStatement fuel

/-- Reads a declaration from its keyword on. -/
def declaration : (fuel : Nat) → Mutability → m Stmt
  | 0, _ => fail .outOfFuel
  | fuel + 1, mutability => do
    let start ← skip
    let name ← expectName (.variableName mutability)
    discard <| expect (.mark .equal) (.equalSign mutability name.value)
    let value ← expr fuel .lowest
    discard <| accept (.mark .semicolon)
    return .declare mutability name.value (value.named name.value) (start.join (← lastSpan))

/-- Reads the value of a `return`, if there is one. -/
def returned : (fuel : Nat) → m (Option Expr)
  | 0 => fail .outOfFuel
  | fuel + 1 => do
    let kind ← peek
    if kind = .mark .semicolon ∨ kind = .mark .rightBrace ∨ kind = .endOfInput then return none
    else return some (← expr fuel .lowest)

/-- Reads an expression as a statement; its span leaves out the semicolon. -/
def expressionStatement : (fuel : Nat) → m Stmt
  | 0 => fail .outOfFuel
  | fuel + 1 => do
    let value ← expr fuel .lowest
    discard <| accept (.mark .semicolon)
    return .expression value value.span

end

/-- Fuel that suffices for a number of tokens. -/
def fuelFor (tokens : Nat) : Nat :=
  16 * (tokens + 1)

end Parse

/-- The program written by tokens that end with the end of input. -/
def parse (tokens : List Token) : Except (Located ParseError) Ast :=
  let start : TokenCursor := ⟨tokens, .single {}⟩
  let statements : Parse (List Stmt) := Parse.statements (Parse.fuelFor tokens.length) none #[]
  match statements.run start with
  | .ok (statements, _) => .ok ⟨statements⟩
  | .error e => .error e

end Bytescript
