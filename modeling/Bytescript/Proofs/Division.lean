/-
Division of integers.

The quotient of two integers is rounded toward zero and the remainder has the sign of the dividend.
At 64 bits one quotient does not fit, that of the least integer and minus one; it wraps around to
the least integer.

Main statement: a quotient or a remainder fails exactly for the divisor zero, and otherwise quotient
times divisor plus remainder, computed with the same wrapping operators, gives back the dividend
(`integer_division`).
-/
import Bytescript.Machine.Native

namespace Bytescript

/-- What the host answers to an operator between two values, whatever was printed before. Nothing is
printed. -/
def Answers (op : Opcode) (left right : Value) (answer : Except Fault Value) : Prop :=
  ∀ console, (nativeHost.binary op left right).run.run console = (answer, console)

theorem answers_iff {op : Opcode} {left right : Value} {answer : Except Fault Value} :
    Answers op left right answer ↔ Value.binary op left right = answer := by
  have hrun : ∀ console, (nativeHost.binary op left right).run.run console =
      (Value.binary op left right, console) := by
    intro console
    show ((Host.pureResult (Value.binary op left right)).run.run console) = _
    cases Value.binary op left right <;> rfl
  constructor
  · intro h
    exact (Prod.mk.inj ((hrun {}).symm.trans (h {}))).1
  · rintro rfl
    exact hrun

/-- The integers `q` and `r` are quotient and remainder of `a` and `b`. -/
structure IsDivision (a b q r : Int64) : Prop where
  /-- Quotient times divisor plus remainder is the dividend. -/
  law : ∃ product, Answers .mul (.integer q) (.integer b) (.ok product) ∧
    Answers .add product (.integer r) (.ok (.integer a))
  remainder_lt : r.toInt.natAbs < b.toInt.natAbs
  remainder_sign : r = 0 ∨ r.toInt.sign = a.toInt.sign
  /-- All quotients but one are exact, rounded toward zero. -/
  quotient_eq : ¬ (a = Int64.minValue ∧ b = -1) → q.toInt = a.toInt.tdiv b.toInt
  /-- That one quotient wraps around. -/
  overflow : a = Int64.minValue → b = -1 → q = Int64.minValue ∧ r = 0

section

variable (a b : Int64)

/-- The quotient may have wrapped around, but so does the product. -/
theorem div_mul_add_mod : a / b * b + a % b = a := by
  rw [← Int64.toInt_inj]
  calc (a / b * b + a % b).toInt
      = (a.toInt.tdiv b.toInt * b.toInt + a.toInt.tmod b.toInt).bmod (2 ^ 64) := by
        rw [Int64.toInt_add, Int64.toInt_mul, Int64.toInt_div, Int64.toInt_mod, Int.bmod_mul_bmod,
          Int.bmod_add_bmod]
    _ = a.toInt.bmod (2 ^ 64) := by rw [Int.tdiv_mul_add_tmod]
    _ = a.toInt := Int64.toInt_bmod a

theorem natAbs_mod_lt {b : Int64} (hb : b ≠ 0) : (a % b).toInt.natAbs < b.toInt.natAbs := by
  have hpos : 0 < b.toInt.natAbs := by
    rw [Int.natAbs_pos, ← Int64.toInt_zero]
    exact fun h => hb (Int64.toInt_inj.mp h)
  rw [Int64.toInt_mod, Int.natAbs_tmod]
  exact Nat.mod_lt _ hpos

theorem mod_eq_zero_or_sign_eq : a % b = 0 ∨ (a % b).toInt.sign = a.toInt.sign := by
  rw [Int64.toInt_mod, Int.sign_tmod]
  split
  · next hdvd =>
    left
    rw [← Int64.toInt_inj, Int64.toInt_mod, Int.tmod_eq_zero_of_dvd hdvd, Int64.toInt_zero]
  · exact .inr rfl

theorem toInt_div_of_ne (h : ¬ (a = Int64.minValue ∧ b = -1)) :
    (a / b).toInt = a.toInt.tdiv b.toInt := by
  by_cases ha : a = Int64.minValue
  · exact Int64.toInt_div_of_ne_right a b fun hb => h ⟨ha, hb⟩
  · exact Int64.toInt_div_of_ne_left a b ha

theorem isDivision_div_mod {b : Int64} (hb : b ≠ 0) : IsDivision a b (a / b) (a % b) where
  law := by
    refine ⟨.integer (a / b * b), answers_iff.mpr rfl, answers_iff.mpr ?_⟩
    show Except.ok (Value.integer (a / b * b + a % b)) = _
    rw [div_mul_add_mod]
  remainder_lt := natAbs_mod_lt a hb
  remainder_sign := mod_eq_zero_or_sign_eq a b
  quotient_eq := toInt_div_of_ne a b
  overflow := by
    rintro rfl rfl
    exact ⟨Int64.minValue_div_neg_one, by decide⟩

theorem answers_error_iff {op : Opcode} (hop : op = .div ∨ op = .mod) (fault : Fault) :
    Answers op (.integer a) (.integer b) (.error fault) ↔ fault = .divisionByZero ∧ b = 0 := by
  have hbinary : ∃ result, Value.binary op (.integer a) (.integer b) =
      if b = 0 then .error .divisionByZero else .ok (.integer result) := by
    rcases hop with rfl | rfl
    · exact ⟨a / b, rfl⟩
    · exact ⟨a % b, rfl⟩
  obtain ⟨result, hresult⟩ := hbinary
  rw [answers_iff, hresult]
  by_cases hb : b = 0
  · rw [if_pos hb]
    constructor
    · intro h
      cases h
      exact ⟨rfl, hb⟩
    · rintro ⟨rfl, -⟩
      rfl
  · rw [if_neg hb]
    constructor
    · intro h
      cases h
    · exact fun h => absurd h.2 hb

end

/-- Quotients and remainders of integers fail for the divisor zero and only then. Otherwise they are
quotient and remainder of one division, rounded toward zero. -/
theorem integer_division (a b : Int64) :
    (∀ op fault, op = .div ∨ op = .mod →
      (Answers op (.integer a) (.integer b) (.error fault) ↔ fault = .divisionByZero ∧ b = 0)) ∧
    (b ≠ 0 → ∃ q r, Answers .div (.integer a) (.integer b) (.ok (.integer q)) ∧
      Answers .mod (.integer a) (.integer b) (.ok (.integer r)) ∧ IsDivision a b q r) := by
  refine ⟨fun op fault hop => answers_error_iff a b hop fault, fun hb => ?_⟩
  have hquotient : Value.binary .div (.integer a) (.integer b) = .ok (.integer (a / b)) :=
    if_neg hb
  have hremainder : Value.binary .mod (.integer a) (.integer b) = .ok (.integer (a % b)) :=
    if_neg hb
  exact ⟨a / b, a % b, answers_iff.mpr hquotient, answers_iff.mpr hremainder,
    isDivision_div_mod a hb⟩

/-- The one quotient that does not fit, and a remainder with a sign. -/
theorem integer_division_edge :
    (∃ q r, Answers .div (.integer Int64.minValue) (.integer (-1)) (.ok (.integer q)) ∧
      Answers .mod (.integer Int64.minValue) (.integer (-1)) (.ok (.integer r)) ∧
      IsDivision Int64.minValue (-1) q r) ∧
    (∃ q r, Answers .div (.integer (-7)) (.integer 2) (.ok (.integer q)) ∧
      Answers .mod (.integer (-7)) (.integer 2) (.ok (.integer r)) ∧ IsDivision (-7) 2 q r) ∧
    Answers .mod (.integer 7) (.integer 0) (.error .divisionByZero) :=
  ⟨(integer_division Int64.minValue (-1)).2 (by decide),
    (integer_division (-7) 2).2 (by decide),
    ((integer_division 7 0).1 .mod .divisionByZero (.inr rfl)).mpr ⟨rfl, rfl⟩⟩

end Bytescript
