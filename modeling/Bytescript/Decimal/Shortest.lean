/-
The shortest decimal that reads back as a given binary number.

A positive binary number is `mantissa * 2 ^ exponent`; the reals that round to it form an
interval around it, half a unit in the last place to each side, or a quarter below when the next
smaller number lies closer. Every such number is also an exact decimal `digits / 10 ^ places`,
and all tests are made on that grid in natural numbers, so nothing is rounded on the way.

Among the decimals with the fewest digits inside the interval, the nearest to the number is
taken; of two equally near ones, the larger.
-/

namespace Bytescript.Decimal

/-- A decimal number `digits * 10 ^ exponent`. -/
structure Scientific where
  digits : Nat
  exponent : Int
  deriving DecidableEq, Repr

/-- A binary number `mantissa * 2 ^ exponent` and its place among its neighbours. -/
structure Binary where
  mantissa : Nat
  exponent : Int
  /-- The next smaller number is only half as far away as the next larger one. -/
  lowerIsNear : Bool
  deriving DecidableEq, Repr

namespace Binary

/-- Decimal places of the exact value. -/
def places (b : Binary) : Nat :=
  (-b.exponent).toNat

/-- One unit in the last place, times `10 ^ places`. -/
def unit (b : Binary) : Nat :=
  if 0 ≤ b.exponent then Nat.pow 2 b.exponent.toNat else Nat.pow 5 b.places

/-- The exact value, times `10 ^ places`. -/
def exact (b : Binary) : Nat :=
  b.mantissa * b.unit

/-- Does the decimal `n / 10 ^ places` read back as `b`? The ends of the interval round to the
even mantissa. Both sides of each comparison are four times the compared numbers. -/
def readsBack (b : Binary) (n : Nat) : Bool :=
  let low := 4 * b.exact - (if b.lowerIsNear then b.unit else 2 * b.unit)
  let high := 4 * b.exact + 2 * b.unit
  if b.mantissa % 2 = 0 then decide (low ≤ 4 * n ∧ 4 * n ≤ high)
  else decide (low < 4 * n ∧ 4 * n < high)

/-- The multiple of `grid` that stands for `b`, in units of `grid`, when one of the two
neighbours of the exact value reads back. -/
def nearestOn (b : Binary) (grid : Nat) : Option Nat :=
  let below := b.exact / grid
  let above := below + 1
  match b.readsBack (below * grid), b.readsBack (above * grid) with
  | true, true =>
    if b.exact - below * grid < above * grid - b.exact then some below else some above
  | true, false => some below
  | false, true => some above
  | false, false => none

/-- Tries the grids `10 ^ (n - 1), …, 10, 1` in turn, coarsest first. -/
def searchGrids (b : Binary) : Nat → Scientific
  | 0 => ⟨b.exact, -(b.places : Int)⟩
  | n + 1 =>
    match b.nearestOn (Nat.pow 10 n) with
    | some digits => ⟨digits, (n : Int) - b.places⟩
    | none => searchGrids b n

end Binary

/-- Drops final zeros from the digits; `fuel` bounds their number. -/
def Scientific.strip : Nat → Scientific → Scientific
  | 0, s => s
  | fuel + 1, s =>
    if s.digits ≠ 0 ∧ s.digits % 10 = 0 then strip fuel ⟨s.digits / 10, s.exponent + 1⟩ else s

/-- The shortest decimal that reads back as `b`. -/
def shortest (b : Binary) : Scientific :=
  let count := (Nat.toDigits 10 b.exact).length
  let found := b.searchGrids count
  found.strip count

end Bytescript.Decimal
