/-
Located errors, as they are reported to the user.

Every stage has its own type of causes. For a report a cause becomes a diagnostic: a kind, which
fixes the label and the phase, a message, a place, and optionally help, the source lines around
the place and the calls that were active.
-/
import Bytescript.Source.Span

namespace Bytescript

/-- The stage that raised an error. -/
inductive Phase where
  | parsing | compiling | running
  deriving DecidableEq, Repr

/-- What went wrong. -/
inductive ErrorKind where
  | syntaxError
  | unresolvedName | redeclaration | assignToConstant | assignToCaptured | arityMismatch
  | operandOverflow
  | stackOverflow | frameOverflow | unknownOpcode | malformedBytecode | unhashableKey
  | notCallable | wrongArgumentCount | notIndexable | typeError | divisionByZero | builtinError
  deriving DecidableEq, Repr

namespace ErrorKind

/-- The stage that raises errors of a kind. -/
def phase : ErrorKind → Phase
  | syntaxError => .parsing
  | unresolvedName | redeclaration | assignToConstant | assignToCaptured | arityMismatch
  | operandOverflow => .compiling
  | _ => .running

/-- The label that opens a report. -/
def label : ErrorKind → String
  | syntaxError => "SyntaxError"
  | unresolvedName => "NameError"
  | redeclaration => "RedeclarationError"
  | assignToConstant => "AssignmentError"
  | assignToCaptured => "AssignmentError"
  | arityMismatch => "ArgumentError"
  | operandOverflow => "CompileError"
  | stackOverflow => "StackOverflow"
  | frameOverflow => "FrameOverflow"
  | unknownOpcode => "BytecodeError"
  | malformedBytecode => "BytecodeError"
  | unhashableKey => "KeyError"
  | notCallable => "TypeError"
  | wrongArgumentCount => "ArgumentError"
  | notIndexable => "IndexError"
  | typeError => "TypeError"
  | divisionByZero => "DivisionByZero"
  | builtinError => "BuiltinError"

end ErrorKind

/-- A call that was active when an error arose. -/
structure TraceEntry where
  function : String
  file : String
  line : Nat
  column : Nat
  deriving DecidableEq, Repr

/-- The line of a stack trace. -/
def TraceEntry.render (entry : TraceEntry) : String :=
  s!"  at {entry.function} ({entry.file}:{entry.line}:{entry.column})"

/-- A located error. -/
structure Diagnostic where
  kind : ErrorKind
  message : String
  span : Span
  file : String
  help? : Option String := none
  /-- The active calls, innermost first. -/
  trace : List TraceEntry := []
  /-- The lines of the source text, where they are known. -/
  sourceLines : List String := []
  deriving DecidableEq, Repr

/-- The lines of a text, without the line breaks. A break is a line feed, or a carriage return
and a line feed; nothing follows the last break. -/
def sourceLinesOf (source : String) : List String :=
  collect [] source.toList
where
  /-- The lines of the remaining characters after those of the open line, given last first. -/
  collect : List Char → List Char → List String
    | [], [] => []
    | line, [] => [String.ofList line.reverse]
    | '\r' :: line, '\n' :: rest => String.ofList line.reverse :: collect [] rest
    | line, '\n' :: rest => String.ofList line.reverse :: collect [] rest
    | line, c :: rest => collect (c :: line) rest

/-- Adds the source text an error refers to. -/
def Diagnostic.withSource (d : Diagnostic) (source : String) : Diagnostic :=
  { d with sourceLines := sourceLinesOf source }

end Bytescript
