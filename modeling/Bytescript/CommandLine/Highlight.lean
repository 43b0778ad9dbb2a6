/-
Results as they are shown to the user.

Each type of value has its style. Collections are written out to a depth of two and up to a
certain size, and are summed up beyond.
-/
import Bytescript.Text.Style
import Bytescript.Value.Basic

namespace Bytescript.CommandLine

open Text (Palette Style)

/-- Collections inside two others are summed up. -/
def maxDepth : Nat := 2

/-- Arrays with more items are summed up. -/
def maxItems : Nat := 8

/-- Hashes with more entries are summed up. -/
def maxEntries : Nat := 4

mutual

/-- A value at a depth, with styles. -/
def highlight (palette : Palette) (depth : Nat) : Value → String
  | .null => palette.paint .brightBlack "null"
  | .boolean b => palette.paint .yellow (if b then "true" else "false")
  | .integer n => palette.paint .yellow (toString n.toInt)
  | .float x => palette.paint .yellow x.render
  | .string s => palette.paint .green (Text.quote s)
  | .array items =>
    if items.isEmpty then "[]"
    else if items.length ≤ maxItems ∧ depth < maxDepth then
      "[" ++ ", ".intercalate (highlightItems palette (depth + 1) items) ++ "]"
    else palette.paint .brightBlack ("[Array(" ++ Nat.repr items.length ++ ")]")
  | .hash entries =>
    if entries.length = 0 then "\x7b\x7d"
    else if entries.length ≤ maxEntries ∧ depth < maxDepth then
      "\x7b" ++ ", ".intercalate (highlightEntries palette (depth + 1) entries) ++ "\x7d"
    else palette.paint .brightBlack ("\x7bHash(" ++ Nat.repr entries.length ++ " keys)\x7d")
  | .builtin b => palette.paint .cyan ("<builtin " ++ b.name ++ ">")
  | .function _ code => palette.paint .cyan code.render
  | .closure _ code _ => palette.paint .cyan code.render

/-- The items of an array. -/
def highlightItems (palette : Palette) (depth : Nat) : List Value → List String
  | [] => []
  | v :: rest => highlight palette depth v :: highlightItems palette depth rest

/-- The entries of a hash. -/
def highlightEntries (palette : Palette) (depth : Nat) {bound : Option HashKey} :
    HashEntries Value bound → List String
  | .nil => []
  | .cons key v _ rest =>
    (palette.paint .cyan key.render ++ ": " ++ highlight palette depth v) ::
      highlightEntries palette depth rest

end

/-- The text of a result; null has none. -/
def resultText? (palette : Palette) : Value → Option String
  | .null => none
  | v => some (highlight palette 0 v)

end Bytescript.CommandLine
