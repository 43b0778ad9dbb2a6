/-
Strings in double quotes, as the language shows them.

The quote, the backslash and the controls that have a short name are escaped by it. A character
that would not show, or that would merge with the one before it, is written by its code point
in lower-case hexadecimal digits. Everything else stands for itself.
-/
import Bytescript.Text.ExtendingMark
import Bytescript.Text.Printable

namespace Bytescript.Text

/-- A code point written by its number. -/
def escapeCodePoint (c : Char) : List Char :=
  '\\' :: 'u' :: '\x7b' :: Nat.toDigits 16 c.toNat ++ ['\x7d']

/-- The text of one character inside quotes. -/
def escapeChar (c : Char) : List Char :=
  if c = '\x00' then ['\\', '0']
  else if c = '\t' then ['\\', 't']
  else if c = '\r' then ['\\', 'r']
  else if c = '\n' then ['\\', 'n']
  else if c = '"' then ['\\', '"']
  else if c = '\\' then ['\\', '\\']
  else if isExtendingMark c || !isPrintable c then escapeCodePoint c
  else [c]

/-- A string in double quotes. -/
def quote (s : String) : String :=
  String.ofList ('"' :: s.toList.flatMap escapeChar ++ ['"'])

end Bytescript.Text
