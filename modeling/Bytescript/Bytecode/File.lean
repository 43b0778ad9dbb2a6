/-
Program files.

A file holds a program byte for byte: four letters, a version, the constants, the code and its
spans. Numbers are written least significant byte first; texts, codes and functions are preceded
by their length. A reader takes what it needs from the front of the input and leaves the rest,
also when it fails, so an error shows how far reading got.
-/
import Bytescript.Bytecode.Program

namespace Bytescript.File

/-! ### Writing -/

/-- The low `width` bytes of a number, least significant first. -/
def littleEndian : (width : Nat) → Nat → List UInt8
  | 0, _ => []
  | width + 1, n => n.toUInt8 :: littleEndian width (n / 256)

/-- A number of four bytes. -/
def word (n : Nat) : List UInt8 :=
  littleEndian 4 n

/-- Bytes preceded by their number. -/
def sized (bytes : List UInt8) : List UInt8 :=
  word bytes.length ++ bytes

/-- A text preceded by its length in bytes. -/
def text (s : String) : List UInt8 :=
  sized s.toByteArray.data.toList

def position (p : Position) : List UInt8 :=
  word p.line ++ (word p.column ++ word p.offset)

def span (s : Span) : List UInt8 :=
  position s.start ++ position s.stop

/-- Code, then the table of its spans preceded by their number. -/
def code (c : Code) : List UInt8 :=
  sized c.bytes.toList ++ (word c.spans.size ++ c.spans.toList.flatMap span)

/-- An optional name, after a byte that tells whether there is one. -/
def name : Option String → List UInt8
  | none => [0]
  | some s => 1 :: text s

def function (f : FunctionCode) : List UInt8 :=
  word f.locals ++ (word f.params ++ (name f.name? ++ code f.code))

/-- A constant, after the number of its type. -/
def constant : Constant → List UInt8
  | .integer n => word 1 ++ littleEndian 8 n.toUInt64.toNat
  | .float x => word 2 ++ littleEndian 8 x.bits.toNat
  | .string s => word 3 ++ text s
  | .function f => word 4 ++ sized (function f)

/-- The letters that open a program file. -/
def magic : List UInt8 := [0x4b, 0x54, 0x4c, 0x43]

/-- The version of the format. -/
def version : UInt8 := 1

/-- A program as the content of a file. -/
def encode (p : Program) : List UInt8 :=
  magic ++ version :: word p.constants.size ++
    (p.constants.toList.flatMap constant ++ code p.code)

/-! ### Errors -/

/-- What is read from a file. -/
inductive Field where
  | valueTag | integer | float | string | functionSize | function
  | localCount | parameterCount | functionNameFlag | functionName
  | instructionLength | instructions | spanCount | span | constantCount
  deriving DecidableEq, Repr

/-- The name of a field in messages. -/
def Field.text : Field → String
  | valueTag => "value tag"
  | integer => "integer"
  | float => "float"
  | string => "string"
  | functionSize => "function size"
  | function => "function"
  | localCount => "local count"
  | parameterCount => "parameter count"
  | functionNameFlag => "function name flag"
  | functionName => "function name"
  | instructionLength => "instruction length"
  | instructions => "instructions"
  | spanCount => "span count"
  | span => "span"
  | constantCount => "constant count"

/-- Why the content of a file is damaged. -/
inductive Defect where
  | endOfInput (field : Field)
  | invalidText (field : Field)
  | moreParametersThanLocals
  | invalidNameFlag (flag : UInt8)
  | spanTableTooLong
  | trailingInFunction
  | trailing (count : Nat)
  deriving DecidableEq, Repr

/-- The wording of a defect. -/
def Defect.message : Defect → String
  | endOfInput field => "unexpected end of input reading " ++ field.text
  | invalidText field => field.text ++ " is not valid UTF-8"
  | moreParametersThanLocals => "function has more parameters than locals"
  | invalidNameFlag flag => "invalid function name flag " ++ Nat.repr flag.toNat
  | spanTableTooLong => "span table is longer than the input"
  | trailingInFunction => "trailing bytes in function payload"
  | trailing count => Nat.repr count ++ " trailing bytes"

/-- Why bytes are no program file. -/
inductive DecodeError where
  | invalidHeader
  | unsupportedVersion (version : UInt8)
  | unknownTag (tag : Nat)
  | malformed (defect : Defect)
  deriving DecidableEq, Repr

/-- The wording of an error. -/
def DecodeError.message : DecodeError → String
  | invalidHeader => "invalid header: not a Kettle bytecode file"
  | unsupportedVersion v =>
    "unsupported bytecode version " ++ Nat.repr v.toNat ++ " (expected " ++
      Nat.repr version.toNat ++ ")"
  | unknownTag tag => "unknown value type tag " ++ Nat.repr tag
  | malformed defect => "cannot decompile: " ++ defect.message

/-! ### Reading -/

/-- Readers of bytes. -/
abbrev Reader := ExceptT DecodeError (StateM (List UInt8))

namespace Reader

/-- Fails over damaged content. -/
def fail {α : Type} (defect : Defect) : Reader α :=
  throw (.malformed defect)

/-- Reads a number of bytes; if there are not enough, reads none. -/
def take (count : Nat) (field : Field) : Reader (List UInt8) := do
  let input ← get
  let front := input.take count
  if front.length = count then
    set (input.drop count)
    return front
  else fail (.endOfInput field)

/-- The number written by bytes, least significant first. -/
def littleEndianValue : List UInt8 → Nat
  | [] => 0
  | b :: rest => b.toNat + 256 * littleEndianValue rest

/-- Reads a number of `width` bytes. -/
def number (width : Nat) (field : Field) : Reader Nat := do
  return littleEndianValue (← take width field)

/-- Reads a number of four bytes. -/
def word (field : Field) : Reader Nat :=
  number 4 field

/-- Reads one byte. -/
def byte (field : Field) : Reader UInt8 := do
  return (← take 1 field).headD 0

/-- Reads bytes preceded by their number, of which the field is named separately. -/
def sized (length content : Field) : Reader (List UInt8) := do
  let count ← word length
  take count content

/-- Reads a text preceded by its length in bytes. -/
def text (field : Field) : Reader String := do
  let bytes ← sized field field
  match String.fromUTF8? ⟨bytes.toArray⟩ with
  | some s => return s
  | none => fail (.invalidText field)

def position : Reader Position := do
  let line ← word .span
  let column ← word .span
  let offset ← word .span
  return ⟨line, column, offset⟩

def span : Reader Span := do
  let start ← position
  let stop ← position
  return ⟨start, stop⟩

/-- Reads `count` items after those in `found`. -/
def items {α : Type} (item : Reader α) : (count : Nat) → Array α → Reader (Array α)
  | 0, found => return found
  | count + 1, found => do
    let next ← item
    items item count (found.push next)

/-- Reads a table of spans. A span takes 24 bytes; a count that cannot fit is refused at once. -/
def spans : Reader (Array Span) := do
  let count ← word .spanCount
  if (← get).length < 24 * count then fail .spanTableTooLong
  else items span count #[]

/-- Reads code and its spans. -/
def code : Reader Code := do
  let bytes ← sized .instructionLength .instructions
  let table ← spans
  return ⟨bytes.toArray, table⟩

/-- Reads an optional name. -/
def name : Reader (Option String) := do
  let flag ← byte .functionNameFlag
  if flag = 0 then return none
  else if flag = 1 then return some (← text .functionName)
  else fail (.invalidNameFlag flag)

def function : Reader FunctionCode := do
  let locals ← word .localCount
  let params ← word .parameterCount
  if locals < params then fail .moreParametersThanLocals
  else
    let name? ← name
    let body ← code
    return ⟨body, locals, params, name?⟩

/-- Reads a whole piece of input of its own, which has to be used up. -/
def within {α : Type} (piece : List UInt8) (reader : Reader α) (leftOver : Defect) :
    Reader α := do
  match (reader.run piece).run with
  | (.error e, _) => throw e
  | (.ok a, []) => return a
  | (.ok _, _ :: _) => fail leftOver

def constant : Reader Constant := do
  match ← word .valueTag with
  | 1 => return .integer (← number 8 .integer).toUInt64.toInt64
  | 2 => return .float ⟨(← number 8 .float).toUInt64⟩
  | 3 => return .string (← text .string)
  | 4 =>
    let payload ← sized .functionSize .function
    return .function (← within payload function .trailingInFunction)
  | tag => throw (.unknownTag tag)

/-- Reads what follows the header. -/
def body : Reader Program := do
  let count ← word .constantCount
  let constants ← items constant count #[]
  let main ← code
  let left := (← get).length
  if left = 0 then return ⟨main, constants⟩ else fail (.trailing left)

end Reader

/-- The program held by the bytes of a file. -/
def decode (bytes : List UInt8) : Except DecodeError Program :=
  match bytes.drop magic.length with
  | [] => .error .invalidHeader
  | v :: rest =>
    if bytes.take magic.length ≠ magic then .error .invalidHeader
    else if v ≠ version then .error (.unsupportedVersion v)
    else (Reader.body.run rest).run.1

end Bytescript.File
