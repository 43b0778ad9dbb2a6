/-
Names of files.

A path is text; its parts stand between slashes. The extension of a file is what follows the last
point of its name, unless the name begins with that point.
-/

namespace Bytescript.Path

/-- The part of a path up to its last named part: final slashes and parts that stay in the same
directory are left out. Both texts are given last character first. -/
def trimEnd : List Char → List Char
  | '/' :: rest => trimEnd rest
  | '.' :: '/' :: rest => trimEnd ('/' :: rest)
  | rest => rest

/-- The path without what follows its last named part, last character first. -/
def reversed (path : String) : List Char :=
  trimEnd path.toList.reverse

/-- The name of the file a path leads to, last character first; nothing if the last part is no
name. -/
def reversedName? (path : String) : Option (List Char) :=
  let name := (reversed path).takeWhile (· ≠ '/')
  if name = [] ∨ name = ['.'] ∨ name = ['.', '.'] then none else some name

/-- The extension of a name, last character first. -/
def reversedExtension? (name : List Char) : Option (List Char) :=
  match name.dropWhile (· ≠ '.') with
  | '.' :: _ :: _ => some (name.takeWhile (· ≠ '.'))
  | _ => none

/-- The extension of the file a path leads to. -/
def extension? (path : String) : Option String := do
  let name ← reversedName? path
  let ext ← reversedExtension? name
  return String.ofList ext.reverse

/-- The path with an extension in place of the one it has, or behind its name if it has none; a
path that leads to no file stays as it is. -/
def setExtension (path ext : String) : String :=
  match reversedName? path with
  | none => path
  | some name =>
    let front := reversed path
    let stem := match reversedExtension? name with
      | some old => front.drop (old.length + 1)
      | none => front
    String.ofList stem.reverse ++ "." ++ ext

/-- The path for another kind of the same file. The old extension is taken off up to its point
first; what then leads to no file gets no new one. -/
def withExtension (path ext : String) : String :=
  match extension? path with
  | none => setExtension path ext
  | some old => setExtension (String.ofList (path.toList.take (path.length - old.length))) ext

end Bytescript.Path
