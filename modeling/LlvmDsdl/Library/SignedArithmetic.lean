import Mathlib

/-!
Contract: signed arithmetic of a fixed width as partial functions.

Owns: the values of a width, and the operations of that width. An operation
whose result leaves the width has no value: the source language leaves signed
overflow undefined. Division truncates toward zero.

Nothing here names a program.
-/

namespace LlvmDsdl.Library.SignedArithmetic

/-- The value fits a signed word of that many bits. -/
def Fits (bits : ℕ) (value : ℤ) : Prop :=
  -2 ^ (bits - 1) ≤ value ∧ value < 2 ^ (bits - 1)

instance (bits : ℕ) (value : ℤ) : Decidable (Fits bits value) :=
  inferInstanceAs (Decidable (_ ∧ _))

/-- The result of a signed operation, when it fits. -/
def keep (bits : ℕ) (value : ℤ) : Option ℤ :=
  if Fits bits value then some value else none

def add (bits : ℕ) (a b : ℤ) : Option ℤ := keep bits (a + b)

def sub (bits : ℕ) (a b : ℤ) : Option ℤ := keep bits (a - b)

def mul (bits : ℕ) (a b : ℤ) : Option ℤ := keep bits (a * b)

def neg (bits : ℕ) (a : ℤ) : Option ℤ := keep bits (-a)

/-- `a / b`; a zero divisor has no quotient. -/
def quotient (bits : ℕ) (a b : ℤ) : Option ℤ :=
  if b = 0 then none else keep bits (a.tdiv b)

/-- `a % b`, which is defined where the quotient is. -/
def remainder (bits : ℕ) (a b : ℤ) : Option ℤ :=
  (quotient bits a b).map fun _ => a.tmod b

section Values

variable {bits : ℕ} {a b value : ℤ}

theorem keep_of_fits (fits : Fits bits value) : keep bits value = some value :=
  if_pos fits

theorem add_of_fits (fits : Fits bits (a + b)) : add bits a b = some (a + b) :=
  keep_of_fits fits

theorem sub_of_fits (fits : Fits bits (a - b)) : sub bits a b = some (a - b) :=
  keep_of_fits fits

theorem mul_of_fits (fits : Fits bits (a * b)) : mul bits a b = some (a * b) :=
  keep_of_fits fits

theorem neg_of_fits (fits : Fits bits (-a)) : neg bits a = some (-a) :=
  keep_of_fits fits

theorem fits_tdiv (fits : Fits bits a) (positive : 0 < b) : Fits bits (a.tdiv b) := by
  have size : (a.tdiv b).natAbs ≤ a.natAbs := Int.natAbs_tdiv_le_natAbs a b
  have lower := fits.1
  have upper := fits.2
  rcases le_total 0 a with nonneg | nonpos
  · have := Int.tdiv_nonneg nonneg positive.le
    constructor <;> omega
  · have mirrored : a.tdiv b = -(-a).tdiv b := by rw [Int.neg_tdiv, neg_neg]
    have := Int.tdiv_nonneg (show 0 ≤ -a by omega) positive.le
    constructor <;> omega

theorem fits_tdiv_of_ne (fits : Fits bits a) (nonzero : b ≠ 0) (notUnit : b ≠ -1) :
    Fits bits (a.tdiv b) := by
  rcases lt_or_gt_of_ne nonzero with negative | positive
  · have size : (a.tdiv b).natAbs ≤ a.natAbs / 2 := by
      rw [Int.natAbs_tdiv]
      exact Nat.div_le_div_left (by omega) (by decide)
    have lower := fits.1
    have upper := fits.2
    have power : (0 : ℤ) < 2 ^ (bits - 1) := by positivity
    constructor <;> omega
  · exact fits_tdiv fits positive

theorem remainder_of_ne (fits : Fits bits a) (nonzero : b ≠ 0) (notUnit : b ≠ -1) :
    remainder bits a b = some (a.tmod b) := by
  rw [remainder, quotient, if_neg nonzero, keep_of_fits (fits_tdiv_of_ne fits nonzero notUnit),
    Option.map_some]

theorem quotient_of_pos (fits : Fits bits a) (positive : 0 < b) :
    quotient bits a b = some (a.tdiv b) := by
  rw [quotient, if_neg positive.ne', keep_of_fits (fits_tdiv fits positive)]

theorem remainder_of_pos (fits : Fits bits a) (positive : 0 < b) :
    remainder bits a b = some (a.tmod b) := by
  rw [remainder, quotient_of_pos fits positive, Option.map_some]

end Values

theorem fits_64 {value : ℤ} :
    Fits 64 value ↔ -9223372036854775808 ≤ value ∧ value < 9223372036854775808 := by
  norm_num [Fits]

theorem fits_128 {value : ℤ} : Fits 128 value ↔
    -170141183460469231731687303715884105728 ≤ value ∧
      value < 170141183460469231731687303715884105728 := by
  norm_num [Fits]

theorem Fits.widen {value : ℤ} (fits : Fits 64 value) : Fits 128 value := by
  rw [fits_64] at fits
  rw [fits_128]
  omega

/-- A product of two 64-bit magnitudes fits 128 bits with room to spare. -/
theorem abs_mul_le {a b : ℤ} (left : |a| ≤ 9223372036854775808)
    (right : |b| ≤ 9223372036854775808) :
    |a * b| ≤ 85070591730234615865843651857942052864 := by
  rw [abs_mul]
  calc |a| * |b| ≤ 9223372036854775808 * 9223372036854775808 :=
        mul_le_mul left right (abs_nonneg b) (by norm_num)
    _ = 85070591730234615865843651857942052864 := by norm_num

end LlvmDsdl.Library.SignedArithmetic
