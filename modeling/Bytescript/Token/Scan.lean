/-
Reading tokens from source text.

`scan` walks over the characters once. Blanks, tabs, carriage returns, line breaks and comments
separate tokens; a comment runs from `//` up to the end of its line. Two-character operators win
over their first character alone. A string may span lines and knows five escapes. A number is a
run of digits, followed by a point and more digits when it is a float. The last token of every
text is the end of input.
-/
import Bytescript.Source.Located
import Bytescript.Text.Alphabetic
import Bytescript.Text.Numeric
import Bytescript.Token.Basic

namespace Bytescript

/-- Why a text is no sequence of tokens. -/
inductive ScanError where
  | unexpectedCharacter (c : Char)
  | unterminatedString
  /-- The text ends right after a backslash inside a string. -/
  | unterminatedEscape
  | unknownEscape (c : Char)
  | integerOutOfRange (digits : String)
  deriving DecidableEq, Repr

namespace ScanError

/-- The wording of an error. -/
def message : ScanError → String
  | unexpectedCharacter c => "Unexpected character '" ++ c.toString ++ "'"
  | unterminatedString => "Unterminated string"
  | unterminatedEscape => "Unterminated string"
  | unknownEscape c => "Unknown escape sequence '\\" ++ c.toString ++ "'"
  | integerOutOfRange digits => "Integer literal '" ++ digits ++ "' is out of range"

/-- What to do about an error. -/
def help? : ScanError → Option String
  | unexpectedCharacter _ => some "Remove or replace this character"
  | unterminatedString => some "Add '\"' to close the string"
  | _ => none

end ScanError

/-! ### Character classes -/

/-- Begins a name. -/
def isNameStart (c : Char) : Bool :=
  Text.isAlphabetic c || c = '_'

/-- Continues a name. -/
def isNameChar (c : Char) : Bool :=
  Text.isAlphabetic c || Text.isNumeric c || c = '_'

/-- The marks of one character that begin no longer token. -/
def Mark.ofChar? : Char → Option Mark
  | '(' => some .leftParen
  | ')' => some .rightParen
  | '\x7b' => some .leftBrace
  | '\x7d' => some .rightBrace
  | '[' => some .leftBracket
  | ']' => some .rightBracket
  | ',' => some .comma
  | ';' => some .semicolon
  | ':' => some .colon
  | '+' => some .plus
  | '-' => some .minus
  | '*' => some .star
  | '%' => some .percent
  | _ => none

/-- The character named by the one after a backslash. -/
def unescape? : Char → Option Char
  | 'n' => some '\n'
  | 't' => some '\t'
  | 'r' => some '\r'
  | '"' => some '"'
  | '\\' => some '\\'
  | _ => none

/-! ### Single tokens -/

/-- What one step of the scanner reads: a token or a separator, what is left of the text, and the
place where that begins. -/
structure ScanStep where
  kind? : Option TokenKind
  rest : List Char
  stop : Position

/-- A mark that may be followed by `=`. -/
def scanComparison (start : Position) (alone withEqual : Mark) : List Char → ScanStep
  | '=' :: rest => ⟨some (.mark withEqual), rest, start.skip 2⟩
  | rest => ⟨some (.mark alone), rest, start.next⟩

/-- The rest of a string after its opening quote. The content read so far stands in `content`,
last character first. -/
def scanString (start : Position) :
    List Char → Position → List Char → Except (Located ScanError) ScanStep
  | [], p, _ => .error ⟨.unterminatedString, start, p⟩
  | ['\\'], p, _ => .error ⟨.unterminatedEscape, start, p.next⟩
  | '"' :: rest, p, content => .ok ⟨some (.string (String.ofList content.reverse)), rest, p.next⟩
  | '\\' :: e :: rest, p, content =>
    match unescape? e with
    | some c => scanString start rest p.next.next (c :: content)
    | none => .error ⟨.unknownEscape e, start, p.next.next⟩
  | c :: rest, p, content => scanString start rest (p.after c) (c :: content)

/-- The number written by decimal digits. -/
def digitsValue (digits : List Char) : Nat :=
  digits.foldl (fun n d => 10 * n + (d.toNat - '0'.toNat)) 0

/-- The largest integer. -/
def maxInteger : Nat := 9223372036854775807

/-- A number whose text begins with the digit `first`. -/
def scanNumber (start : Position) (first : Char) (rest : List Char) :
    Except (Located ScanError) ScanStep :=
  let whole := first :: rest.takeWhile Char.isDigit
  let afterWhole := rest.dropWhile Char.isDigit
  let stop := start.skip whole.length
  let integer : Except (Located ScanError) ScanStep :=
    let n := digitsValue whole
    if n ≤ maxInteger then .ok ⟨some (.integer (Int64.ofNat n)), afterWhole, stop⟩
    else .error ⟨.integerOutOfRange (String.ofList whole), start, stop⟩
  match afterWhole with
  | '.' :: d :: more =>
    if d.isDigit then
      let fraction := d :: more.takeWhile Char.isDigit
      let value := Binary64.ofDecimal (digitsValue (whole ++ fraction)) (-(fraction.length : Int))
      .ok ⟨some (.float value), more.dropWhile Char.isDigit, stop.skip (fraction.length + 1)⟩
    else integer
  | _ => integer

/-- A name or keyword whose text begins with `first`. -/
def scanWord (start : Position) (first : Char) (rest : List Char) : ScanStep :=
  let word := first :: rest.takeWhile isNameChar
  ⟨some (.ofWord (String.ofList word)), rest.dropWhile isNameChar, start.skip word.length⟩

/-- Reads the token or separator that begins with the character `c`. -/
def scanStep (start : Position) (c : Char) (rest : List Char) :
    Except (Located ScanError) ScanStep :=
  match c with
  | '/' =>
    match rest with
    | '/' :: more =>
      let comment := more.takeWhile (· ≠ '\n')
      .ok ⟨none, more.dropWhile (· ≠ '\n'), start.skip (comment.length + 2)⟩
    | _ => .ok ⟨some (.mark .slash), rest, start.next⟩
  | '=' => .ok (scanComparison start .equal .equalEqual rest)
  | '!' => .ok (scanComparison start .bang .bangEqual rest)
  | '<' => .ok (scanComparison start .less .lessEqual rest)
  | '>' => .ok (scanComparison start .greater .greaterEqual rest)
  | '\n' => .ok ⟨none, rest, start.nextLine⟩
  | ' ' | '\r' | '\t' => .ok ⟨none, rest, start.next⟩
  | '"' => scanString start rest start.next []
  | _ =>
    match Mark.ofChar? c with
    | some mark => .ok ⟨some (.mark mark), rest, start.next⟩
    | none =>
      if c.isDigit then scanNumber start c rest
      else if isNameStart c then .ok (scanWord start c rest)
      else .error ⟨.unexpectedCharacter c, start, start.next⟩

/-! ### Whole texts -/

/-- Reads tokens up to the end of the text after the ones in `found`. Every step reads at least
one character, so a number of steps equal to the length of the text is enough. -/
def scanFrom : (steps : Nat) → List Char → Position → Array Token →
    Except (Located ScanError) (Array Token)
  | steps + 1, c :: rest, start, found => do
    let step ← scanStep start c rest
    match step.kind? with
    | none => scanFrom steps step.rest step.stop found
    | some kind =>
      let lexeme := String.ofList ((c :: rest).take (step.stop.offset - start.offset))
      scanFrom steps step.rest step.stop (found.push ⟨kind, lexeme, start, step.stop⟩)
  | _, _, stop, found => .ok (found.push ⟨.endOfInput, "", .single stop⟩)

/-- The tokens of a source text, ending with the end of input. -/
def scan (source : String) : Except (Located ScanError) (List Token) :=
  (scanFrom source.length source.toList {} #[]).map Array.toList

end Bytescript
