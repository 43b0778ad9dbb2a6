/-
Tokens of the language.

Keywords and marks are spelled in one way only, listed in `Keyword.text` and `Mark.text`; the
other tokens carry what they were read as. A token also keeps its spelling in the source and its
span.
-/
import Bytescript.Decimal.Binary64
import Bytescript.Source.Span
import Bytescript.Text.Quoted

namespace Bytescript

/-- The reserved words. -/
inductive Keyword where
  | fnWord | letWord | varWord | ifWord | elseWord | returnWord
  | trueWord | falseWord | nullWord
  deriving DecidableEq, Repr

namespace Keyword

/-- All reserved words. -/
def all : List Keyword :=
  [fnWord, letWord, varWord, ifWord, elseWord, returnWord, trueWord, falseWord, nullWord]

/-- The spelling of a reserved word. -/
def text : Keyword → String
  | fnWord => "fn"
  | letWord => "let"
  | varWord => "var"
  | ifWord => "if"
  | elseWord => "else"
  | returnWord => "return"
  | trueWord => "true"
  | falseWord => "false"
  | nullWord => "null"

/-- The reserved word with a given spelling. -/
def ofText? (word : String) : Option Keyword :=
  all.find? fun keyword => keyword.text == word

end Keyword

/-- Operators and delimiters. -/
inductive Mark where
  | plus | minus | star | slash | percent | bang
  | equal | equalEqual | bangEqual | less | lessEqual | greater | greaterEqual
  | leftParen | rightParen | leftBrace | rightBrace | leftBracket | rightBracket
  | comma | colon | semicolon
  deriving DecidableEq, Repr

/-- The spelling of a mark. -/
def Mark.text : Mark → String
  | plus => "+"
  | minus => "-"
  | star => "*"
  | slash => "/"
  | percent => "%"
  | bang => "!"
  | equal => "="
  | equalEqual => "=="
  | bangEqual => "!="
  | less => "<"
  | lessEqual => "<="
  | greater => ">"
  | greaterEqual => ">="
  | leftParen => "("
  | rightParen => ")"
  | leftBrace => "\x7b"
  | rightBrace => "\x7d"
  | leftBracket => "["
  | rightBracket => "]"
  | comma => ","
  | colon => ":"
  | semicolon => ";"

/-- What a token is. -/
inductive TokenKind where
  | integer (value : Int64)
  | float (value : Binary64)
  | string (value : String)
  | identifier (name : String)
  | keyword (word : Keyword)
  | mark (mark : Mark)
  | endOfInput
  deriving DecidableEq, Repr

namespace TokenKind

/-- A word is a keyword where the language reserves it and an identifier elsewhere. -/
def ofWord (word : String) : TokenKind :=
  match Keyword.ofText? word with
  | some reserved => .keyword reserved
  | none => .identifier word

/-- The text of a kind that carries nothing. -/
def fixedText? : TokenKind → Option String
  | keyword word => some word.text
  | mark m => some m.text
  | endOfInput => some "end of input"
  | _ => none

/-- A kind as it is shown in messages. -/
def render : TokenKind → String
  | integer value => toString value.toInt
  | float value => value.render
  | string value => Text.quote value
  | identifier name => name
  | keyword word => word.text
  | mark m => m.text
  | endOfInput => "end of input"

end TokenKind

/-- A token, its spelling in the source and its place. -/
structure Token where
  kind : TokenKind
  lexeme : String
  span : Span
  deriving DecidableEq, Repr

/-- Is the token that stands at the end of the input. -/
def Token.isEnd (token : Token) : Bool :=
  token.kind = .endOfInput

end Bytescript
