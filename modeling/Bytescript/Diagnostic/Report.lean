/-
The text of a located error.

A report opens with label, message and place. When the source is known the line of the error
follows, with its neighbours and a row of carets under the faulty part; then help and the stack
trace, where there are any.
-/
import Bytescript.Diagnostic.Basic
import Bytescript.Text.Style

namespace Bytescript.Diagnostic

open Text (Palette Style)

/-- A text of `n` equal characters. -/
def row (n : Nat) (c : Char) : String :=
  String.ofList (List.replicate n c)

/-- The line number and the bar before a context line; the number takes at least four places. -/
def gutter (line : Nat) : String :=
  let digits := toString line
  row (4 - digits.length) ' ' ++ digits ++ " |"

/-- Number of carets: the width of a span within one line, else one. -/
def caretCount (span : Span) : Nat :=
  if span.stop.line = span.start.line ∧ span.start.column < span.stop.column then
    span.stop.column - span.start.column
  else 1

/-- The row of carets under the faulty part. -/
def caretRow (palette : Palette) (span : Span) : String :=
  row (6 + span.start.column) ' ' ++ palette.paint .boldRed (row (caretCount span) '^')

/-- A context line; under the line of the error stand its carets. -/
def contextLine (palette : Palette) (span : Span) (line : Nat) (text : String) : String :=
  if line = span.start.line then
    palette.paint .red (gutter line) ++ " " ++ text ++ "\n" ++ caretRow palette span ++ "\n"
  else palette.paint .dimmed (gutter line) ++ " " ++ text ++ "\n"

/-- The lines around the error with their numbers: the one before, the faulty one, the one
after. -/
def contextLines (d : Diagnostic) : List (Nat × String) :=
  let first := if 1 < d.span.start.line then d.span.start.line - 1 else 1
  let last := min (d.span.start.line + 1) d.sourceLines.length
  (d.sourceLines.drop (first - 1)).take (last + 1 - first) |>.mapIdx fun i text => (first + i, text)

/-- The source context, empty when the source is not known. -/
def context (palette : Palette) (d : Diagnostic) : String :=
  if d.sourceLines.isEmpty then ""
  else
    let lines := (contextLines d).map fun (line, text) => contextLine palette d.span line text
    "\n" ++ String.join lines

/-- The report of an error. -/
def report (palette : Palette) (d : Diagnostic) : String :=
  let place := s!"{d.file}:{d.span.start.line}:{d.span.start.column}"
  let header :=
    palette.paint .boldRed d.kind.label ++ ": " ++ palette.paint .boldWhite d.message ++
      " at " ++ place ++ "\n"
  let help :=
    match d.help? with
    | none => ""
    | some text => "\n      " ++ palette.paint .boldCyan "Help" ++ ": " ++ text ++ "\n"
  let trace :=
    if d.trace.isEmpty then ""
    else
      "\n" ++ palette.paint .boldYellow "Stack trace" ++ ":\n" ++
        String.join (d.trace.map fun entry => entry.render ++ "\n")
  header ++ context palette d ++ help ++ trace

end Bytescript.Diagnostic
