/-
Tokens as they are listed for inspection.
-/
import Bytescript.Token.Basic

namespace Bytescript

/-- The label of a reserved word. -/
def Keyword.label : Keyword → String
  | fnWord => "Fn"
  | letWord => "Let"
  | varWord => "Var"
  | ifWord => "If"
  | elseWord => "Else"
  | returnWord => "Return"
  | trueWord => "True"
  | falseWord => "False"
  | nullWord => "Null"

/-- The label of a mark. -/
def Mark.label : Mark → String
  | plus => "Plus"
  | minus => "Minus"
  | star => "Star"
  | slash => "Slash"
  | percent => "Percent"
  | bang => "Bang"
  | equal => "Equal"
  | equalEqual => "EqualEqual"
  | bangEqual => "BangEqual"
  | less => "Less"
  | lessEqual => "LessEqual"
  | greater => "Greater"
  | greaterEqual => "GreaterEqual"
  | leftParen => "LeftParen"
  | rightParen => "RightParen"
  | leftBrace => "LeftBrace"
  | rightBrace => "RightBrace"
  | leftBracket => "LeftBracket"
  | rightBracket => "RightBracket"
  | comma => "Comma"
  | colon => "Colon"
  | semicolon => "Semicolon"

namespace TokenKind

/-- The label of a kind, without what it carries. -/
def label : TokenKind → String
  | integer _ => "Integer"
  | float _ => "Float"
  | string _ => "String"
  | identifier _ => "Identifier"
  | keyword word => word.label
  | mark m => m.label
  | endOfInput => "Eof"

/-- What a kind carries, as text. -/
def payload? : TokenKind → Option String
  | integer value => some (toString value.toInt)
  | float value => some value.render
  | string value => some (Text.quote value)
  | identifier name => some (Text.quote name)
  | _ => none

/-- The label of a kind, with what it carries in parentheses. -/
def dump (kind : TokenKind) : String :=
  match kind.payload? with
  | some payload => kind.label ++ "(" ++ payload ++ ")"
  | none => kind.label

end TokenKind

/-- The line of a token in a list of tokens. -/
def Token.dump (token : Token) : String :=
  "  " ++ token.kind.dump ++ " '" ++ token.lexeme ++ "'\n"

end Bytescript
