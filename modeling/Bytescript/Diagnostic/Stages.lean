/-
The errors of each stage as diagnostics.

An error of the scanner is reported without source lines; the later stages add them.
-/
import Bytescript.Ast.Parse
import Bytescript.Compile
import Bytescript.Diagnostic.Basic
import Bytescript.Token.Scan

namespace Bytescript

namespace CompileError

/-- The kind of error a cause is reported as. -/
def kind : CompileError → ErrorKind
  | scope (.redeclared _) => .redeclaration
  | scope (.unresolved _) => .unresolvedName
  | assignToConstant _ => .assignToConstant
  | assignToCaptured _ => .assignToCaptured
  | arityMismatch .. => .arityMismatch
  | tooMany .. => .operandOverflow

end CompileError

namespace Diagnostic

/-- An error of the scanner. -/
def ofScanError (file : String) (e : Located ScanError) : Diagnostic :=
  { kind := .syntaxError, message := e.value.message, span := e.span, file
    help? := e.value.help? }

/-- An error of the parser. -/
def ofParseError (file source : String) (e : Located ParseError) : Diagnostic :=
  let d : Diagnostic :=
    { kind := .syntaxError, message := e.value.message, span := e.span, file
      help? := e.value.help? }
  d.withSource source

/-- An error of the compiler. -/
def ofCompileError (file source : String) (e : Located CompileError) : Diagnostic :=
  let d : Diagnostic :=
    { kind := e.value.kind, message := e.value.message, span := e.span, file
      help? := e.value.help? }
  d.withSource source

end Diagnostic

/-- The tokens of a source text. -/
def scanSource (file source : String) : Except Diagnostic (List Token) :=
  (scan source).mapError (Diagnostic.ofScanError file)

/-- The syntax tree of a source text. -/
def parseSource (file source : String) : Except Diagnostic Ast := do
  let tokens ← scanSource file source
  (parse tokens).mapError (Diagnostic.ofParseError file source)

/-- The program of a source text, compiled with the names and constants of a state. -/
def compileSourceFrom (state : CompilerState) (file source : String) :
    Except Diagnostic (Program × CompilerState) := do
  let ast ← parseSource file source
  (compileFrom state ast).mapError (Diagnostic.ofCompileError file source)

/-- The program of a source text. -/
def compileSource (file source : String) : Except Diagnostic Program :=
  (compileSourceFrom {} file source).map Prod.fst

end Bytescript
