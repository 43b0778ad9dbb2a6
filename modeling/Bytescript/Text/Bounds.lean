/-
Sets of code points given by their boundaries.

A set is an increasing array of code points at which membership switches: off before the first,
on from the first, off again from the second, and so on. A code point belongs to the set exactly
when an odd number of boundaries is at most it.
-/

namespace Bytescript.Text

/-- Number of entries of the increasing array `bounds` that are at most `c`, by bisection of the
index range from `low` to `high`; `steps` bounds the number of halvings. -/
def countAtMost (bounds : Array Nat) (c : Nat) : (steps low high : Nat) → Nat
  | 0, low, _ => low
  | steps + 1, low, high =>
    if low < high then
      let middle := (low + high) / 2
      if bounds.getD middle 0 ≤ c then countAtMost bounds c steps (middle + 1) high
      else countAtMost bounds c steps low middle
    else low

/-- Membership in the set with the given boundaries. -/
def inBounds (bounds : Array Nat) (c : Nat) : Bool :=
  countAtMost bounds c (bounds.size.log2 + 1) 0 bounds.size % 2 == 1

end Bytescript.Text
