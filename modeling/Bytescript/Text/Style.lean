/-
Terminal styles.

A styled text is put between the escape sequence that switches the style on and the one that
resets it. A reset inside the text would end the style early, so the style is switched on again
after each of them.
-/

namespace Bytescript.Text

/-- The styles used in reports and in the command line's output. -/
inductive Style where
  | red | green | yellow | cyan | brightBlack | dimmed
  | boldRed | boldYellow | boldCyan | boldWhite
  deriving DecidableEq, Repr

namespace Style

/-- The parameters of the escape sequence that switches a style on. -/
def code : Style → String
  | red => "31"
  | green => "32"
  | yellow => "33"
  | cyan => "36"
  | brightBlack => "90"
  | dimmed => "2"
  | boldRed => "1;31"
  | boldYellow => "1;33"
  | boldCyan => "1;36"
  | boldWhite => "1;37"

/-- The escape sequence that switches a style on. -/
def switchOn (style : Style) : String :=
  "\x1b[" ++ style.code ++ "m"

/-- The escape sequence that ends every style. -/
def reset : String := "\x1b[0m"

/-- Puts `insert` after each reset inside a text. -/
def resume (insert : List Char) : List Char → List Char
  | '\x1b' :: '[' :: '0' :: 'm' :: rest =>
    '\x1b' :: '[' :: '0' :: 'm' :: insert ++ resume insert rest
  | c :: rest => c :: resume insert rest
  | [] => []

/-- A text in a style. -/
def apply (style : Style) (text : String) : String :=
  style.switchOn ++ String.ofList (resume style.switchOn.toList text.toList) ++ reset

end Style

/-- Whether output carries styles. -/
inductive Palette where
  | plain | colored
  deriving DecidableEq, Repr

/-- A text in a style, where the palette has styles. -/
def Palette.paint : Palette → Style → String → String
  | plain, _, text => text
  | colored, style, text => style.apply text

end Bytescript.Text
