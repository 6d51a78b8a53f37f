import Mathlib

/-!
Contract: the 128-bit rationals of `Support/Rational.h` and their ordered sets.

Owns: normalised rationals, the arithmetic that flags a result leaving 128
bits, the comparison with its floating-point fallback, `std::set<Rational>`,
and what these do on integers.

The fallback of `operator<` divides in the host's `long double`; the order it
gives is a parameter here.
-/

namespace LlvmDsdl.Support

/-- The value fits a signed 128-bit integer. -/
def InInt128 (value : ℤ) : Prop :=
  -2 ^ 127 ≤ value ∧ value < 2 ^ 127

instance (value : ℤ) : Decidable (InInt128 value) :=
  inferInstanceAs (Decidable (_ ∧ _))

structure Rational where
  numerator : ℤ
  denominator : ℤ
  overflowed : Bool
  positive : 0 < denominator
  reduced : Int.gcd numerator denominator = 1
  deriving DecidableEq

namespace Rational

@[ext] theorem ext_parts {left right : Rational} (numerator : left.numerator = right.numerator)
    (denominator : left.denominator = right.denominator)
    (overflowed : left.overflowed = right.overflowed) : left = right := by
  cases left
  cases right
  simp_all

/-- Move the sign to the numerator and divide by the greatest common divisor. -/
def normalize (numerator denominator : ℤ) (nonzero : denominator ≠ 0) (overflowed : Bool) :
    Rational :=
  let divisor : ℤ := Int.gcd numerator denominator
  { numerator := (if denominator < 0 then -numerator else numerator) / divisor
    denominator := (if denominator < 0 then -denominator else denominator) / divisor
    overflowed
    positive := by
      have divisorPos : (0 : ℤ) < Int.gcd numerator denominator :=
        Int.natCast_pos.mpr (Int.gcd_pos_of_ne_zero_right _ nonzero)
      have divides : (Int.gcd numerator denominator : ℤ) ∣ denominator :=
        Int.gcd_dvd_right ..
      split
      · apply Int.ediv_pos_of_pos_of_dvd (by omega) divisorPos.le
        exact Int.dvd_neg.mpr divides
      · exact Int.ediv_pos_of_pos_of_dvd (by omega) divisorPos.le divides
    reduced := by
      have divisorPos : 0 < Int.gcd numerator denominator :=
        Int.gcd_pos_of_ne_zero_right _ nonzero
      have coprime := Int.gcd_ediv_gcd_ediv_gcd divisorPos
      split
      · rw [Int.neg_ediv_of_dvd (Int.gcd_dvd_left ..), Int.neg_ediv_of_dvd (Int.gcd_dvd_right ..),
          Int.neg_gcd, Int.gcd_neg]
        exact coprime
      · exact coprime }

/-- `Rational(numerator, denominator)`; a zero denominator is read as one. -/
def ofFraction (numerator denominator : ℤ) : Rational :=
  if nonzero : denominator ≠ 0 then normalize numerator denominator nonzero false
  else normalize numerator 1 one_ne_zero false

/-- `Rational(value, 1)`. -/
def ofInteger (value : ℤ) : Rational :=
  ofFraction value 1

@[simp] theorem numerator_ofInteger (value : ℤ) : (ofInteger value).numerator = value := by
  simp [ofInteger, ofFraction, normalize]

@[simp] theorem denominator_ofInteger (value : ℤ) : (ofInteger value).denominator = 1 := by
  simp [ofInteger, ofFraction, normalize]

@[simp] theorem overflowed_ofInteger (value : ℤ) : (ofInteger value).overflowed = false := by
  simp [ofInteger, ofFraction, normalize]

/-- `Rational::fromWide`; a zero denominator gives zero. -/
def fromWide (numerator denominator : ℤ) (operandOverflowed : Bool) : Rational :=
  if nonzero : denominator ≠ 0 then normalize numerator denominator nonzero operandOverflowed
  else normalize 0 1 one_ne_zero operandOverflowed

theorem fromWide_one (value : ℤ) : fromWide value 1 false = ofInteger value := by
  simp [fromWide, ofInteger, ofFraction]

def isInteger (value : Rational) : Bool :=
  value.denominator == 1

@[simp] theorem isInteger_ofInteger (value : ℤ) : (ofInteger value).isInteger = true := by
  simp [isInteger]

def asWideInteger (value : Rational) : Option ℤ :=
  if value.isInteger then some value.numerator else none

/-- `asInteger`: the integer when it fits 64 bits. -/
def asInteger (value : Rational) : Option ℤ :=
  if value.isInteger ∧ -2 ^ 63 ≤ value.numerator ∧ value.numerator < 2 ^ 63 then
    some value.numerator
  else none

/-- The decimal text, with the denominator unless it is one. -/
def str (value : Rational) : String :=
  if value.denominator = 1 then toString value.numerator
  else toString value.numerator ++ "/" ++ toString value.denominator

/-- Keep a result whose intermediate products all fit, flag one whose do not. -/
def checkedResult (products : List ℤ) (numerator denominator : ℤ) (operandOverflowed : Bool) :
    Rational :=
  if ∀ product ∈ products, InInt128 product then fromWide numerator denominator operandOverflowed
  else fromWide 0 1 true

/-- `operator+`. -/
def add (lhs rhs : Rational) : Rational :=
  let t1 := lhs.numerator * rhs.denominator
  let t2 := rhs.numerator * lhs.denominator
  let d := lhs.denominator * rhs.denominator
  checkedResult [t1, t2, t1 + t2, d] (t1 + t2) d (lhs.overflowed || rhs.overflowed)

/-- `operator-`. -/
def sub (lhs rhs : Rational) : Rational :=
  let t1 := lhs.numerator * rhs.denominator
  let t2 := rhs.numerator * lhs.denominator
  let d := lhs.denominator * rhs.denominator
  checkedResult [t1, t2, t1 - t2, d] (t1 - t2) d (lhs.overflowed || rhs.overflowed)

/-- `operator*`. -/
def mul (lhs rhs : Rational) : Rational :=
  let n := lhs.numerator * rhs.numerator
  let d := lhs.denominator * rhs.denominator
  checkedResult [n, d] n d (lhs.overflowed || rhs.overflowed)

/-- `operator/`; dividing by zero gives zero. -/
def div (lhs rhs : Rational) : Rational :=
  if rhs.numerator = 0 then ofFraction 0 1
  else
    let n := lhs.numerator * rhs.denominator
    let d := lhs.denominator * rhs.numerator
    checkedResult [n, d] n d (lhs.overflowed || rhs.overflowed)

/-- `Rational(-r.numerator(), r.denominator())`. -/
def neg (value : Rational) : Rational :=
  ofFraction (-value.numerator) value.denominator

/-- `operator==`: the flag takes no part. -/
def equal (lhs rhs : Rational) : Bool :=
  lhs.numerator == rhs.numerator && lhs.denominator == rhs.denominator

@[simp] theorem equal_ofInteger (left right : ℤ) :
    equal (ofInteger left) (ofInteger right) = decide (left = right) := by
  simp [equal, Bool.beq_eq_decide_eq]

def CrossFits (lhs rhs : Rational) : Prop :=
  InInt128 (lhs.numerator * rhs.denominator) ∧ InInt128 (rhs.numerator * lhs.denominator)

instance (lhs rhs : Rational) : Decidable (CrossFits lhs rhs) :=
  inferInstanceAs (Decidable (_ ∧ _))

theorem CrossFits.symm {lhs rhs : Rational} (fits : CrossFits lhs rhs) : CrossFits rhs lhs :=
  ⟨fits.2, fits.1⟩

section Order

-- The order of the two quotients in the host's `long double`.
variable (longDoubleLess : Rational → Rational → Bool)

/-- `operator<`. -/
def less (lhs rhs : Rational) : Bool :=
  if CrossFits lhs rhs then
    lhs.numerator * rhs.denominator < rhs.numerator * lhs.denominator
  else longDoubleLess lhs rhs

/-- `operator<=`. -/
def lessEqual (lhs rhs : Rational) : Bool :=
  less longDoubleLess lhs rhs || equal lhs rhs

/-- The order of the represented fractions. -/
def Below (lhs rhs : Rational) : Prop :=
  lhs.numerator * rhs.denominator < rhs.numerator * lhs.denominator

theorem less_iff {lhs rhs : Rational} (fits : CrossFits lhs rhs) :
    less longDoubleLess lhs rhs = true ↔ Below lhs rhs := by
  rw [less, if_pos fits, decide_eq_true_iff, Below]

end Order

theorem Below.trans {first second third : Rational} (lower : Below first second)
    (upper : Below second third) : Below first third := by
  have firstPos := first.positive
  have secondPos := second.positive
  have thirdPos := third.positive
  unfold Below at lower upper ⊢
  have scaledLower : first.numerator * second.denominator * third.denominator <
      second.numerator * first.denominator * third.denominator :=
    mul_lt_mul_of_pos_right lower thirdPos
  have scaledUpper : second.numerator * third.denominator * first.denominator <
      third.numerator * second.denominator * first.denominator :=
    mul_lt_mul_of_pos_right upper firstPos
  have scaled : second.denominator * (first.numerator * third.denominator) <
      second.denominator * (third.numerator * first.denominator) := by
    calc second.denominator * (first.numerator * third.denominator)
        = first.numerator * second.denominator * third.denominator := by ring
      _ < second.numerator * first.denominator * third.denominator := scaledLower
      _ = second.numerator * third.denominator * first.denominator := by ring
      _ < third.numerator * second.denominator * first.denominator := scaledUpper
      _ = second.denominator * (third.numerator * first.denominator) := by ring
  exact lt_of_mul_lt_mul_left scaled secondPos.le

/-- Normalised fractions neither of which is below the other have the same parts. -/
theorem equal_of_not_below {lhs rhs : Rational} (notBelow : ¬Below lhs rhs)
    (notAbove : ¬Below rhs lhs) : equal lhs rhs = true := by
  have same : lhs.numerator * rhs.denominator = rhs.numerator * lhs.denominator :=
    le_antisymm (not_lt.mp notAbove) (not_lt.mp notBelow)
  have leftCoprime : IsCoprime lhs.denominator lhs.numerator :=
    (Int.isCoprime_iff_gcd_eq_one.mpr lhs.reduced).symm
  have rightCoprime : IsCoprime rhs.denominator rhs.numerator :=
    (Int.isCoprime_iff_gcd_eq_one.mpr rhs.reduced).symm
  have forward : lhs.denominator ∣ rhs.denominator := by
    apply leftCoprime.dvd_of_dvd_mul_left
    exact ⟨rhs.numerator, same.trans (mul_comm _ _)⟩
  have backward : rhs.denominator ∣ lhs.denominator := by
    apply rightCoprime.dvd_of_dvd_mul_left
    exact ⟨lhs.numerator, same.symm.trans (mul_comm _ _)⟩
  have denominators : lhs.denominator = rhs.denominator :=
    Int.dvd_antisymm lhs.positive.le rhs.positive.le forward backward
  have numerators : lhs.numerator = rhs.numerator := by
    rw [denominators] at same
    exact mul_right_cancel₀ rhs.positive.ne' same
  simp [equal, numerators, denominators]

/-- The represented fraction. -/
def toRat (value : Rational) : ℚ :=
  { num := value.numerator
    den := value.denominator.natAbs
    den_nz := by have := value.positive; omega
    reduced := value.reduced }

theorem den_toRat (value : Rational) : (value.toRat.den : ℤ) = value.denominator :=
  Int.natAbs_of_nonneg value.positive.le

@[simp] theorem toRat_ofInteger (value : ℤ) : (ofInteger value).toRat = value := by
  apply Rat.ext
  · simp [toRat]
  · simp [toRat]

theorem equal_iff_toRat {lhs rhs : Rational} : equal lhs rhs = true ↔ lhs.toRat = rhs.toRat := by
  have denominators := lhs.den_toRat
  have otherDenominators := rhs.den_toRat
  simp only [equal, Bool.and_eq_true, beq_iff_eq]
  constructor
  · intro same
    exact Rat.ext same.1 (by omega)
  · intro same
    have numerators : lhs.toRat.num = rhs.toRat.num := congrArg Rat.num same
    have dens : lhs.toRat.den = rhs.toRat.den := congrArg Rat.den same
    exact ⟨numerators, by omega⟩

theorem below_iff_toRat {lhs rhs : Rational} : Below lhs rhs ↔ lhs.toRat < rhs.toRat := by
  rw [Rat.lt_iff, den_toRat, den_toRat]
  rfl

end Rational

end LlvmDsdl.Support
