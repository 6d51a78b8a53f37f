import Mathlib

/-!
Contract: rounding integers up to a multiple, and clamping them to a ceiling.

Owns: `roundUp` with its universal property, its behaviour under shifts and its
residues; `clamp` with the law that lets clamped sums be clamped again.

Does not own machine integers: nothing here has a width.
-/

namespace LlvmDsdl.Library.Rounding

/-- The least multiple of `alignment` that is at least `value`. -/
def roundUp (value alignment : ℤ) : ℤ :=
  value + -value % alignment

theorem dvd_roundUp (value alignment : ℤ) : alignment ∣ roundUp value alignment := by
  have split := Int.emod_add_mul_ediv (-value) alignment
  exact ⟨-(-value / alignment), by rw [roundUp, mul_neg]; omega⟩

theorem le_roundUp {alignment : ℤ} (positive : 0 < alignment) (value : ℤ) :
    value ≤ roundUp value alignment := by
  have nonnegative := Int.emod_nonneg (-value) (ne_of_gt positive)
  rw [roundUp]
  omega

theorem roundUp_lt {alignment : ℤ} (positive : 0 < alignment) (value : ℤ) :
    roundUp value alignment < value + alignment := by
  have below := Int.emod_lt_of_pos (-value) positive
  rw [roundUp]
  omega

theorem roundUp_le {value alignment multiple : ℤ} (positive : 0 < alignment)
    (divides : alignment ∣ multiple) (above : value ≤ multiple) :
    roundUp value alignment ≤ multiple := by
  have gap := dvd_sub (dvd_roundUp value alignment) divides
  have near := roundUp_lt positive value
  by_contra larger
  have := Int.le_of_dvd (by omega) gap
  omega

theorem roundUp_of_dvd {value alignment : ℤ} (divides : alignment ∣ value) :
    roundUp value alignment = value := by
  rw [roundUp, Int.emod_eq_zero_of_dvd (dvd_neg.mpr divides), add_zero]

theorem roundUp_mono {alignment : ℤ} (positive : 0 < alignment) :
    Monotone fun value => roundUp value alignment := fun _ right ordered =>
  roundUp_le positive (dvd_roundUp right alignment)
    (ordered.trans (le_roundUp positive right))

theorem roundUp_add_of_dvd {shift alignment : ℤ} (value : ℤ) (divides : alignment ∣ shift) :
    roundUp (value + shift) alignment = roundUp value alignment + shift := by
  have same : -(value + shift) ≡ -value [ZMOD alignment] :=
    Int.modEq_iff_dvd.mpr (by simpa using divides)
  rw [roundUp, roundUp, same]
  ring

/-- Rounding a residue modulo a common multiple rounds the value itself. -/
theorem roundUp_emod (value : ℤ) {alignment modulus wide : ℤ} (alignmentDivides : alignment ∣ wide)
    (modulusDivides : modulus ∣ wide) :
    roundUp (value % wide) alignment % modulus = roundUp value alignment % modulus := by
  have split : value % wide = value + -(wide * (value / wide)) := by
    have := Int.emod_add_mul_ediv value wide
    omega
  have shifted := roundUp_add_of_dvd value
    (dvd_neg.mpr (alignmentDivides.mul_right (value / wide)))
  rw [split, shifted]
  exact Int.modEq_iff_dvd.mpr (by simpa using modulusDivides.mul_right (value / wide))

/-- Values past the ceiling become the ceiling. -/
def clamp (ceiling value : ℤ) : ℤ :=
  min value ceiling

theorem clamp_of_le {ceiling value : ℤ} (below : value ≤ ceiling) : clamp ceiling value = value :=
  min_eq_left below

theorem clamp_mono (ceiling : ℤ) : Monotone (clamp ceiling) := fun _ _ ordered =>
  min_le_min_right ceiling ordered

theorem clamp_nonneg {ceiling value : ℤ} (ceilingNonneg : 0 ≤ ceiling) (nonneg : 0 ≤ value) :
    0 ≤ clamp ceiling value :=
  le_min nonneg ceilingNonneg

theorem clamp_add_clamp {ceiling left right : ℤ} (ceilingNonneg : 0 ≤ ceiling)
    (leftNonneg : 0 ≤ left) (rightNonneg : 0 ≤ right) :
    clamp ceiling (clamp ceiling left + clamp ceiling right) = clamp ceiling (left + right) := by
  simp only [clamp]
  omega

/-- Clamping before a map that never decreases a value does not change the clamped result. -/
theorem clamp_map_clamp {ceiling value : ℤ} {map : ℤ → ℤ} (increases : ∀ x, x ≤ map x) :
    clamp ceiling (map (clamp ceiling value)) = clamp ceiling (map value) := by
  by_cases below : value ≤ ceiling
  · rw [clamp_of_le below]
  · have atCeiling : clamp ceiling value = ceiling := min_eq_right (by omega)
    have first := increases ceiling
    have second := increases value
    rw [atCeiling]
    simp only [clamp]
    omega

end LlvmDsdl.Library.Rounding
