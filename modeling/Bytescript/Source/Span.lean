/-
Places in a source text.

A position counts lines and columns from one and characters from zero. A span runs from the
position of its first character to the position just after its last one.
-/

namespace Bytescript

/-- A place in a source text. -/
structure Position where
  /-- Line number, from one. -/
  line : Nat := 1
  /-- Column within the line, from one. -/
  column : Nat := 1
  /-- Number of characters before the place. -/
  offset : Nat := 0
  deriving DecidableEq, Repr, Inhabited

namespace Position

/-- The place after one more character of the same line. -/
def next (p : Position) : Position :=
  ⟨p.line, p.column + 1, p.offset + 1⟩

/-- The place after a line break. -/
def nextLine (p : Position) : Position :=
  ⟨p.line + 1, 1, p.offset + 1⟩

/-- The place after the character `c`. -/
def after (p : Position) (c : Char) : Position :=
  if c = '\n' then p.nextLine else p.next

/-- The place `n` characters further on the same line. -/
def skip (p : Position) (n : Nat) : Position :=
  ⟨p.line, p.column + n, p.offset + n⟩

end Position

/-- The part of a source text between two positions. -/
structure Span where
  start : Position := {}
  stop : Position := {}
  deriving DecidableEq, Repr, Inhabited

namespace Span

/-- The empty span at a position. -/
def single (p : Position) : Span :=
  ⟨p, p⟩

/-- The span from the start of `a` to the end of `b`. -/
def join (a b : Span) : Span :=
  ⟨a.start, b.stop⟩

end Span

end Bytescript
