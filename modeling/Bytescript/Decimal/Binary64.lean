/-
Floating-point numbers of 64 bits.

A number is its bit pattern: a sign bit, eleven exponent bits and fifty-two fraction bits. Keeping
the pattern makes two numbers equal exactly when they are stored the same, also for the patterns
that are no number. Sums, products and quotients round to nearest; the remainder is exact.
-/
import Bytescript.Decimal.Shortest

namespace Bytescript

/-- A floating-point number, given by its bit pattern. -/
structure Binary64 where
  bits : UInt64
  deriving DecidableEq, Repr, Inhabited

namespace Binary64

/-! ### Reading the pattern -/

/-- The number a pattern stands for. -/
def toFloat (x : Binary64) : Float :=
  Float.ofBits x.bits

/-- The pattern of a number; all that is no number shares one pattern. -/
def ofFloat (f : Float) : Binary64 :=
  ⟨f.toBits⟩

/-- The highest bit of a pattern, which is set in negative numbers. -/
def signBit : Nat := 0x8000000000000000

/-- The bit just above the fraction. The mantissa of all but the smallest numbers has it; in
patterns it is left out. -/
def leadingBit : Nat := 0x10000000000000

/-- The exponent field of patterns that are no finite number. -/
def specialExponent : Nat := 0x7ff

/-- Is the sign bit set? -/
def isNegative (x : Binary64) : Bool :=
  signBit ≤ x.bits.toNat

/-- The eleven exponent bits. -/
def exponentField (x : Binary64) : Nat :=
  x.bits.toNat / leadingBit % (specialExponent + 1)

/-- The fifty-two fraction bits. -/
def fractionField (x : Binary64) : Nat :=
  x.bits.toNat % leadingBit

/-- What a pattern stands for, apart from its sign. -/
inductive Magnitude where
  | nan
  | infinite
  /-- The number `mantissa * 2 ^ exponent`. -/
  | finite (mantissa : Nat) (exponent : Int)
  deriving DecidableEq, Repr

/-- The magnitude of a pattern. -/
def magnitude (x : Binary64) : Magnitude :=
  if x.exponentField = specialExponent then
    if x.fractionField = 0 then .infinite else .nan
  else if x.exponentField = 0 then .finite x.fractionField (-1074)
  else .finite (leadingBit + x.fractionField) ((x.exponentField : Int) - 1075)

/-- Is no number. -/
def isNaN (x : Binary64) : Bool :=
  x.magnitude = .nan

/-! ### Building a pattern -/

/-- The pattern that stands for no number. -/
def nan : Binary64 := ⟨0x7ff8000000000000⟩

/-- Infinity with a sign. -/
def infinity (negative : Bool) : Binary64 :=
  if negative then ⟨0xfff0000000000000⟩ else ⟨0x7ff0000000000000⟩

/-- Flips the sign bit. -/
def neg (x : Binary64) : Binary64 :=
  ⟨x.bits ^^^ 0x8000000000000000⟩

/-- Doubles the mantissa until it fills its fifty-three bits or the exponent is the least one;
`fuel` bounds the number of steps. -/
def normalize : Nat → Nat → Int → Nat × Int
  | 0, m, e => (m, e)
  | fuel + 1, m, e => if m < leadingBit ∧ -1074 < e then normalize fuel (2 * m) (e - 1) else (m, e)

/-- The pattern of `mantissa * 2 ^ exponent` for a mantissa below `2 ^ 53` and an exponent of at
least `-1074`. -/
def ofParts (negative : Bool) (mantissa : Nat) (exponent : Int) : Binary64 :=
  let (m, e) := normalize 53 mantissa exponent
  let sign := if negative then signBit else 0
  if m < leadingBit then ⟨(sign + m).toUInt64⟩
  else ⟨(sign + (e + 1075).toNat * leadingBit + (m - leadingBit)).toUInt64⟩

/-- The number nearest to `digits * 10 ^ exponent`, ties to even. -/
def ofDecimal (digits : Nat) (exponent : Int) : Binary64 :=
  ofFloat (Float.ofScientific digits (decide (exponent < 0)) exponent.natAbs)

/-- The number nearest to an integer. -/
def ofInt (n : Int) : Binary64 :=
  ofFloat (Float.ofInt n)

/-! ### Arithmetic and comparison -/

def add (x y : Binary64) : Binary64 := ofFloat (x.toFloat + y.toFloat)

def sub (x y : Binary64) : Binary64 := ofFloat (x.toFloat - y.toFloat)

def mul (x y : Binary64) : Binary64 := ofFloat (x.toFloat * y.toFloat)

def div (x y : Binary64) : Binary64 := ofFloat (x.toFloat / y.toFloat)

/-- The exact remainder of the division truncated toward zero; it has the sign of `x`. -/
def rem (x y : Binary64) : Binary64 :=
  match x.magnitude, y.magnitude with
  | .nan, _ | _, .nan | .infinite, _ => nan
  | .finite .., .infinite => x
  | .finite m e, .finite n f =>
    if n = 0 then nan
    else
      let least := min e f
      let r := (m <<< (e - least).toNat) % (n <<< (f - least).toNat)
      ofParts x.isNegative r least

/-- Numeric equality: both zeros are equal, and what is no number equals nothing. -/
def equal (x y : Binary64) : Bool := x.toFloat == y.toFloat

def greater (x y : Binary64) : Bool := y.toFloat < x.toFloat

def greaterEqual (x y : Binary64) : Bool := y.toFloat ≤ x.toFloat

/-! ### Text -/

/-- The binary number behind a positive finite magnitude, with its place among its neighbours. -/
def asBinary (mantissa : Nat) (exponent : Int) : Decimal.Binary :=
  ⟨mantissa, exponent, decide (mantissa = leadingBit ∧ -1074 < exponent)⟩

/-- Digits in plain notation, with at least one digit on each side of the point. -/
def positional (s : Decimal.Scientific) : String :=
  let digits := Nat.repr s.digits
  if 0 ≤ s.exponent then
    digits ++ String.ofList (List.replicate s.exponent.toNat '0') ++ ".0"
  else
    let places := (-s.exponent).toNat
    let padded := List.replicate (places + 1 - digits.length) '0' ++ digits.toList
    let whole := padded.length - places
    String.ofList (padded.take whole ++ '.' :: padded.drop whole)

/-- Digits with one digit before the point and a power of ten. -/
def exponential (s : Decimal.Scientific) : String :=
  let digits := (Nat.repr s.digits).toList
  let power := s.exponent + (digits.length : Int) - 1
  let fraction := digits.drop 1
  let point := if fraction.isEmpty then [] else ['.']
  String.ofList (digits.take 1 ++ point ++ fraction) ++ "e" ++ toString power

/-- Plain notation is used from one ten-thousandth up to, and without, ten to the sixteen. -/
def isPositional (mantissa : Nat) (exponent : Int) : Bool :=
  let scaled := mantissa <<< exponent.toNat
  let divisor := 1 <<< (-exponent).toNat
  decide (divisor ≤ scaled * 10000 ∧ scaled < 10000000000000000 * divisor)

/-- The fewest digits that read back as the number. -/
def render (x : Binary64) : String :=
  let sign := if x.isNegative then "-" else ""
  match x.magnitude with
  | .nan => "NaN"
  | .infinite => sign ++ "inf"
  | .finite m e =>
    if m = 0 then sign ++ "0.0"
    else
      let digits := Decimal.shortest (asBinary m e)
      sign ++ (if isPositional m e then positional digits else exponential digits)

end Binary64

end Bytescript
