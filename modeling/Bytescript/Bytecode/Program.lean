/-
Compiled programs.

A piece of code is a buffer of instruction bytes with the source span of every byte. A program
is the code that runs first and a pool of constants, among them the functions; all code refers
to the one pool by index.
-/
import Bytescript.Bytecode.Instruction
import Bytescript.Decimal.Binary64
import Bytescript.Source.Span
import Bytescript.Text.Quoted

namespace Bytescript

/-- Instruction bytes and the part of the source text each of them stands for. -/
structure Code where
  bytes : Array UInt8 := #[]
  spans : Array Span := #[]
  deriving DecidableEq, Repr, Inhabited

/-- The source span of a byte; a byte without one belongs to the start of the text. -/
def Code.spanAt (code : Code) (offset : Nat) : Span :=
  code.spans.getD offset {}

/-- A function ready to be called. -/
structure FunctionCode where
  code : Code := {}
  /-- Number of local slots; the parameters take the first of them. -/
  locals : Nat := 0
  params : Nat := 0
  name? : Option String := none
  deriving DecidableEq, Repr, Inhabited

/-- A function as it is shown. -/
def FunctionCode.render (f : FunctionCode) : String :=
  match f.name? with
  | some name => "<fn " ++ name ++ ">"
  | none => "<fn>"

/-- Values known before the program runs. -/
inductive Constant where
  | integer (value : Int64)
  | float (value : Binary64)
  | string (value : String)
  | function (code : FunctionCode)
  deriving DecidableEq, Repr, Inhabited

namespace Constant

/-- A constant as it is shown. -/
def render : Constant → String
  | integer value => toString value.toInt
  | float value => value.render
  | string value => Text.quote value
  | function code => code.render

/-- Equality of constants, floats compared as numbers. -/
def agrees : Constant → Constant → Bool
  | float x, float y => x.equal y
  | a, b => a = b

end Constant

/-- A compiled program. -/
structure Program where
  code : Code := {}
  constants : Array Constant := #[]
  deriving DecidableEq, Repr, Inhabited

/-- Equality of programs, floats compared as numbers. -/
def Program.agrees (p q : Program) : Bool :=
  p.code = q.code && p.constants.size = q.constants.size &&
    (p.constants.zip q.constants).all fun (a, b) => a.agrees b

end Bytescript
