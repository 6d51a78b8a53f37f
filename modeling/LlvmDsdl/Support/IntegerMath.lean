import Mathlib
import LlvmDsdl.Library.Rounding

/-!
Contract: the 64-bit integer helpers of `Support/IntegerMath.h`.

Owns: the checked, saturating and modular helpers over integers that are kept
inside the signed 64-bit range, and what each computes in ordinary arithmetic.

Machine integers are `ℤ` values. A helper that C++ computes in 64 bits tests
its exact result against the range; signed `/` and `%` truncate toward zero.
-/

namespace LlvmDsdl.Support.IntegerMath

open Library.Rounding

/-- `std::numeric_limits<std::int64_t>::min()`. -/
def int64Min : ℤ := -9223372036854775808

/-- `std::numeric_limits<std::int64_t>::max()`. -/
def int64Max : ℤ := 9223372036854775807

/-- The value fits a signed 64-bit integer. -/
def InInt64 (value : ℤ) : Prop :=
  int64Min ≤ value ∧ value ≤ int64Max

instance (value : ℤ) : Decidable (InInt64 value) :=
  inferInstanceAs (Decidable (_ ∧ _))

theorem int64Max_pos : 0 < int64Max := by decide

theorem int64Min_neg : int64Min < 0 := by decide

theorem InInt64.of_nonneg {value : ℤ} (nonneg : 0 ≤ value) (below : value ≤ int64Max) :
    InInt64 value :=
  ⟨int64Min_neg.le.trans nonneg, below⟩

/-- Keep a result that fits, refuse one that does not. -/
def checked (value : ℤ) : Option ℤ :=
  if InInt64 value then some value else none

def checkedAdd (a b : ℤ) : Option ℤ :=
  checked (a + b)

def checkedMultiply (a b : ℤ) : Option ℤ :=
  checked (a * b)

@[simp] theorem checked_eq_some {value result : ℤ} :
    checked value = some result ↔ InInt64 value ∧ value = result := by
  simp [checked]

@[simp] theorem checkedAdd_eq_some {a b result : ℤ} :
    checkedAdd a b = some result ↔ InInt64 (a + b) ∧ a + b = result :=
  checked_eq_some

@[simp] theorem checkedMultiply_eq_some {a b result : ℤ} :
    checkedMultiply a b = some result ↔ InInt64 (a * b) ∧ a * b = result :=
  checked_eq_some

@[simp] theorem checkedAdd_eq_none {a b : ℤ} : checkedAdd a b = none ↔ ¬InInt64 (a + b) := by
  simp [checkedAdd, checked]

def saturatingAddNonNegative (a b : ℤ) : ℤ :=
  (checkedAdd a b).getD int64Max

def saturatingMultiplyNonNegative (a b : ℤ) : ℤ :=
  (checkedMultiply a b).getD int64Max

/-- Round `value ≥ 0` up to a multiple of `alignment ≥ 1`, saturating on overflow. -/
def saturatingRoundUpToMultipleNonNegative (value alignment : ℤ) : ℤ :=
  let rem := value.tmod alignment
  if rem = 0 then value else saturatingAddNonNegative value (alignment - rem)

theorem checked_getD {value : ℤ} (nonneg : 0 ≤ value) :
    (checked value).getD int64Max = clamp int64Max value := by
  by_cases below : value ≤ int64Max
  · rw [checked, if_pos (InInt64.of_nonneg nonneg below), clamp_of_le below]
    rfl
  · rw [checked, if_neg fun inside => below inside.2, clamp, min_eq_right (by omega)]
    rfl

theorem saturatingAddNonNegative_eq {a b : ℤ} (left : 0 ≤ a) (right : 0 ≤ b) :
    saturatingAddNonNegative a b = clamp int64Max (a + b) :=
  checked_getD (add_nonneg left right)

theorem saturatingMultiplyNonNegative_eq {a b : ℤ} (left : 0 ≤ a) (right : 0 ≤ b) :
    saturatingMultiplyNonNegative a b = clamp int64Max (a * b) :=
  checked_getD (mul_nonneg left right)

theorem neg_emod_eq_sub_tmod {value alignment : ℤ} (nonneg : 0 ≤ value)
    (positive : 0 < alignment) (inexact : value.tmod alignment ≠ 0) :
    -value % alignment = alignment - value.tmod alignment := by
  rw [Int.tmod_eq_emod_of_nonneg nonneg] at inexact ⊢
  have lower := Int.emod_nonneg value (ne_of_gt positive)
  have upper := Int.emod_lt_of_pos value positive
  have reduced : -value ≡ alignment - value % alignment [ZMOD alignment] := by
    refine Int.modEq_iff_dvd.mpr ?_
    have split := Int.emod_add_mul_ediv value alignment
    exact ⟨1 + value / alignment, by rw [mul_add]; omega⟩
  rw [reduced, Int.emod_eq_of_lt (by omega) (by omega)]

theorem saturatingRoundUpToMultipleNonNegative_eq {value alignment : ℤ} (nonneg : 0 ≤ value)
    (below : value ≤ int64Max) (positive : 0 < alignment) :
    saturatingRoundUpToMultipleNonNegative value alignment =
      clamp int64Max (roundUp value alignment) := by
  rw [saturatingRoundUpToMultipleNonNegative]
  split
  · rename_i exact
    rw [roundUp_of_dvd (Int.dvd_of_tmod_eq_zero exact), clamp_of_le below]
  · rename_i inexact
    have distance := neg_emod_eq_sub_tmod nonneg positive inexact
    have distanceNonneg := Int.emod_nonneg (-value) (ne_of_gt positive)
    rw [saturatingAddNonNegative_eq nonneg (by omega), ← distance, roundUp]

/-- `value mod divisor` in `[0, divisor)` for positive divisors. -/
def euclideanModulo (value divisor : ℤ) : ℤ :=
  let rem := value.tmod divisor
  if 0 ≤ rem then rem else rem + divisor

theorem euclideanModulo_eq {value divisor : ℤ} (positive : 0 < divisor) :
    euclideanModulo value divisor = value % divisor := by
  have lower := Int.emod_nonneg value (ne_of_gt positive)
  have upper := Int.emod_lt_of_pos value positive
  rw [euclideanModulo, Int.tmod_eq_emod]
  split <;> split <;> omega

/-- `std::gcd`, whose result is never negative. -/
def stdGcd (a b : ℤ) : ℤ :=
  Int.gcd a b

theorem stdGcd_dvd_left (a b : ℤ) : stdGcd a b ∣ a :=
  Int.gcd_dvd_left a b

theorem stdGcd_dvd_right (a b : ℤ) : stdGcd a b ∣ b :=
  Int.gcd_dvd_right a b

theorem stdGcd_pos {a : ℤ} (positive : 0 < a) (b : ℤ) : 0 < stdGcd a b := by
  have nonzero : Int.gcd a b ≠ 0 := by rw [Ne, Int.gcd_eq_zero_iff]; omega
  rw [stdGcd]
  omega

/-- `lcm(a, b)` for positive inputs when the result does not exceed `limit`. -/
def lcmAtMost (a b limit : ℤ) : Option ℤ :=
  if a < 1 ∨ b < 1 ∨ limit < 1 then none
  else
    let g := stdGcd a b
    let step := a.tdiv g
    if step > limit.tdiv b then none else some (step * b)

theorem lcmAtMost_eq_some {a b limit result : ℤ} (found : lcmAtMost a b limit = some result) :
    1 ≤ result ∧ result ≤ limit ∧ a ∣ result ∧ b ∣ result := by
  simp only [lcmAtMost] at found
  split at found
  · exact absurd found (by simp)
  · rename_i inRange
    simp only [not_or, not_lt] at inRange
    obtain ⟨aPos, bPos, limitPos⟩ := inRange
    split at found
    · exact absurd found (by simp)
    · rename_i small
      have resultEq : a.tdiv (stdGcd a b) * b = result := by simpa using found
      have gcdPos := stdGcd_pos (show 0 < a by omega) b
      have stepEq : a.tdiv (stdGcd a b) * stdGcd a b = a :=
        Int.tdiv_mul_cancel (stdGcd_dvd_left a b)
      obtain ⟨other, otherEq⟩ := stdGcd_dvd_right a b
      have stepPos : 0 < a.tdiv (stdGcd a b) :=
        pos_of_mul_pos_left (by omega) gcdPos.le
      have bounded : a.tdiv (stdGcd a b) * b ≤ limit := by
        rw [Int.tdiv_eq_ediv_of_nonneg (show 0 ≤ limit by omega), not_lt] at small
        exact (Int.le_ediv_iff_mul_le (by omega)).mp small
      refine ⟨?_, resultEq ▸ bounded, ?_, ?_⟩
      · have := mul_pos stepPos (show 0 < b by omega)
        omega
      · refine ⟨other, ?_⟩
        calc result = a.tdiv (stdGcd a b) * (stdGcd a b * other) := by rw [← resultEq, ← otherEq]
          _ = a * other := by rw [← mul_assoc, stepEq]
      · exact ⟨a.tdiv (stdGcd a b), by rw [← resultEq, mul_comm]⟩

end LlvmDsdl.Support.IntegerMath
