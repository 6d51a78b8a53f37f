import Mathlib

/-!
Contract: finite arithmetic progressions of integers.

Owns: the progression of given ends and stride, its size, and the set algebra
of progressions: common elements by a solution of two congruences, what is left
when one is cut out of another, sums, chains, and the sums of a dense
progression with a set that shares its stride.

A progression is given by its ends and a stride: the stride need not divide
their distance, and then the last end is only a bound.
-/

namespace LlvmDsdl.Library.Progression

/-- The integers from `start` to `last` that a whole number of strides separates
from `start`. -/
def progression (start stride last : ℤ) : Set ℤ :=
  {v | start ≤ v ∧ v ≤ last ∧ stride ∣ v - start}

variable {start stride last : ℤ}

@[simp] theorem mem_progression {v : ℤ} :
    v ∈ progression start stride last ↔ start ≤ v ∧ v ≤ last ∧ stride ∣ v - start := Iff.rfl

theorem start_mem (ordered : start ≤ last) : start ∈ progression start stride last :=
  ⟨le_rfl, ordered, by simp⟩

theorem last_mem (ordered : start ≤ last) (reaches : stride ∣ last - start) :
    last ∈ progression start stride last :=
  ⟨ordered, le_rfl, reaches⟩

@[simp] theorem progression_self (start stride : ℤ) : progression start stride start = {start} := by
  ext v
  rw [mem_progression, Set.mem_singleton_iff]
  refine ⟨fun bounds => le_antisymm bounds.2.1 bounds.1, ?_⟩
  rintro rfl
  exact ⟨le_rfl, le_rfl, by simp⟩

theorem mem_progression_index (positive : 0 < stride) (count v : ℤ) :
    v ∈ progression start stride (start + (count - 1) * stride) ↔
      ∃ index, 0 ≤ index ∧ index < count ∧ v = start + index * stride := by
  constructor
  · rintro ⟨lower, upper, index, distance⟩
    refine ⟨index, ?_, ?_, by linarith [mul_comm stride index]⟩
    · exact nonneg_of_mul_nonneg_right (by linarith) positive
    · have : stride * index ≤ stride * (count - 1) := by linarith [mul_comm (count - 1) stride]
      have := le_of_mul_le_mul_left this positive
      omega
  · rintro ⟨index, lower, upper, rfl⟩
    have nonneg : 0 ≤ index * stride := mul_nonneg lower positive.le
    have bounded : index * stride ≤ (count - 1) * stride :=
      mul_le_mul_of_nonneg_right (by omega) positive.le
    exact ⟨by omega, by omega, ⟨index, by ring⟩⟩

theorem ncard_progression (positive : 0 < stride) {count : ℤ} (nonneg : 0 ≤ count) :
    ((progression start stride (start + (count - 1) * stride)).ncard : ℤ) = count := by
  have asImage : progression start stride (start + (count - 1) * stride) =
      (fun index : ℕ => start + (index : ℤ) * stride) '' (Finset.range count.toNat : Set ℕ) := by
    ext v
    rw [mem_progression_index positive]
    constructor
    · rintro ⟨index, lower, upper, rfl⟩
      exact ⟨index.toNat, by simp only [Finset.coe_range, Set.mem_Iio]; omega,
        by simp only [Int.toNat_of_nonneg lower]⟩
    · rintro ⟨index, below, rfl⟩
      simp only [Finset.coe_range, Set.mem_Iio] at below
      exact ⟨index, Int.natCast_nonneg index, by omega, rfl⟩
  have injective : Function.Injective fun index : ℕ => start + (index : ℤ) * stride := by
    intro left right same
    have scaled : (left : ℤ) * stride = right * stride := by simpa using same
    exact Int.ofNat.inj (mul_right_cancel₀ (ne_of_gt positive) scaled)
  rw [asImage, Set.ncard_image_of_injective _ injective, Set.ncard_coe_finset,
    Finset.card_range, Int.toNat_of_nonneg nonneg]

/-- Strides that do not reach the last end leave the bound unused. -/
theorem progression_trim (positive : 0 < stride) (start last : ℤ) :
    progression start stride (start + (last - start) / stride * stride) =
      progression start stride last := by
  have floor := Int.ediv_mul_le (last - start) (ne_of_gt positive)
  ext v
  refine ⟨fun member => ⟨member.1, by have := member.2.1; omega, member.2.2⟩, ?_⟩
  rintro ⟨lower, upper, index, distance⟩
  refine ⟨lower, ?_, index, distance⟩
  have indexLe : index ≤ (last - start) / stride :=
    (Int.le_ediv_iff_mul_le positive).mpr (by rw [mul_comm, ← distance]; omega)
  have scaled := mul_le_mul_of_nonneg_right indexLe positive.le
  rw [mul_comm index, ← distance] at scaled
  omega

/-- Two congruences with a common solution hold together exactly on one class. -/
theorem dvd_and_dvd_iff {first second solution v common quotient bezout : ℤ}
    (secondEq : second = common * quotient) (firstDvd : common ∣ first)
    (inverse : second ∣ first * bezout - common) (commonPos : 0 < common) :
    first ∣ v - solution ∧ second ∣ v - solution ↔ first * quotient ∣ v - solution := by
  obtain ⟨cofactor, rfl⟩ := firstDvd
  constructor
  · rintro ⟨⟨left, leftEq⟩, ⟨right, rightEq⟩⟩
    -- `quotient` divides `cofactor * left` and is coprime to `cofactor`.
    obtain ⟨k, kEq⟩ := inverse
    have unit : cofactor * bezout - 1 = quotient * k := by
      refine mul_left_cancel₀ (ne_of_gt commonPos) ?_
      rw [secondEq] at kEq
      linarith
    have product : cofactor * left = quotient * right := by
      refine mul_left_cancel₀ (ne_of_gt commonPos) ?_
      rw [← mul_assoc, ← leftEq, rightEq, secondEq, mul_assoc]
    refine ⟨right * bezout - k * left, ?_⟩
    rw [leftEq]
    have expand : left = quotient * (right * bezout - k * left) := by
      have scaled : cofactor * left * bezout = quotient * right * bezout := by rw [product]
      linarith [congrArg (· * left) unit]
    calc common * cofactor * left
        = common * cofactor * (quotient * (right * bezout - k * left)) := by rw [← expand]
      _ = common * cofactor * quotient * (right * bezout - k * left) := by ring
  · rintro ⟨k, kEq⟩
    exact ⟨⟨quotient * k, by rw [kEq]; ring⟩, ⟨cofactor * k, by rw [kEq, secondEq]; ring⟩⟩

/-- The common elements of two progressions, from one solution of both
congruences. -/
theorem progression_inter {firstStart firstStride firstLast secondStart secondStride
    secondLast solution period : ℤ}
    (both : ∀ v, firstStride ∣ v - solution ∧ secondStride ∣ v - solution ↔ period ∣ v - solution)
    (firstSolves : firstStride ∣ solution - firstStart)
    (secondSolves : secondStride ∣ solution - secondStart) :
    progression firstStart firstStride firstLast ∩ progression secondStart secondStride secondLast =
      {v | max firstStart secondStart ≤ v ∧ v ≤ min firstLast secondLast ∧
        period ∣ v - solution} := by
  ext v
  have firstIff : firstStride ∣ v - firstStart ↔ firstStride ∣ v - solution := by
    rw [← sub_add_sub_cancel v solution firstStart, dvd_add_left firstSolves]
  have secondIff : secondStride ∣ v - secondStart ↔ secondStride ∣ v - solution := by
    rw [← sub_add_sub_cancel v solution secondStart, dvd_add_left secondSolves]
  simp only [Set.mem_inter_iff, mem_progression, Set.mem_ofPred_eq, firstIff, secondIff, ← both,
    max_le_iff, le_min_iff]
  tauto

/-- A class clipped to a window is a progression from its first element. -/
theorem window_eq_progression {lower upper solution period : ℤ} (inside : lower ≤ solution)
    (least : solution < lower + period) :
    {v | lower ≤ v ∧ v ≤ upper ∧ period ∣ v - solution} = progression solution period upper := by
  ext v
  simp only [Set.mem_ofPred_eq, mem_progression]
  refine ⟨?_, fun member => ⟨inside.trans member.1, member.2⟩⟩
  rintro ⟨above, below, divides⟩
  refine ⟨?_, below, divides⟩
  by_contra before
  have := Int.le_of_dvd (by omega) (dvd_sub_comm.mp divides)
  omega

/-- The elements of a progression before the first element of another on it. -/
theorem progression_before {cut : ℤ} (onIt : stride ∣ cut - start) (positive : 0 < stride)
    (within : cut ≤ last) {v : ℤ} :
    v ∈ progression start stride (cut - stride) ↔ v ∈ progression start stride last ∧ v < cut := by
  constructor
  · rintro ⟨lower, upper, divides⟩
    exact ⟨⟨lower, by omega, divides⟩, by omega⟩
  · rintro ⟨⟨lower, upper, divides⟩, before⟩
    have gap : stride ∣ cut - v := by
      rw [← sub_sub_sub_cancel_right cut v start]
      exact dvd_sub onIt divides
    have := Int.le_of_dvd (by omega) gap
    exact ⟨lower, by omega, divides⟩

/-- The elements of a progression after the last element of another on it. -/
theorem progression_after {cut : ℤ} (onIt : stride ∣ cut - start) (positive : 0 < stride)
    (within : start ≤ cut) {v : ℤ} :
    v ∈ progression (cut + stride) stride last ↔ v ∈ progression start stride last ∧ cut < v := by
  constructor
  · rintro ⟨lower, upper, divides⟩
    refine ⟨⟨by omega, upper, ?_⟩, by omega⟩
    have : v - start = (v - (cut + stride)) + stride + (cut - start) := by ring
    rw [this]
    exact dvd_add (dvd_add divides dvd_rfl) onIt
  · rintro ⟨⟨lower, upper, divides⟩, after⟩
    have gap : stride ∣ v - cut := by
      rw [← sub_sub_sub_cancel_right v cut start]
      exact dvd_sub divides onIt
    have := Int.le_of_dvd (by omega) gap
    refine ⟨by omega, upper, ?_⟩
    rw [← sub_sub]
    exact dvd_sub gap dvd_rfl

/-- Between the ends of a coarser progression the finer one splits into classes. -/
theorem progression_between {cutStart cutLast ratio : ℤ} (onIt : stride ∣ cutStart - start)
    (positive : 0 < stride) (ratioPos : 0 < ratio) (lowerEnd : start ≤ cutStart)
    (upperEnd : cutLast ≤ last) (ends : ratio * stride ∣ cutLast - cutStart) {v : ℤ} :
    (v ∈ progression start stride last ∧ cutStart ≤ v ∧ v ≤ cutLast) ∧
        v ∉ progression cutStart (ratio * stride) cutLast ↔
      ∃ j, 1 ≤ j ∧ j < ratio ∧ v ∈ progression (cutStart + j * stride) (ratio * stride)
        (cutLast - ratio * stride + j * stride) := by
  have periodPos : 0 < ratio * stride := mul_pos ratioPos positive
  constructor
  · rintro ⟨⟨⟨lower, upper, divides⟩, above, below⟩, outside⟩
    have gap : stride ∣ v - cutStart := by
      rw [← sub_sub_sub_cancel_right v cutStart start]
      exact dvd_sub divides onIt
    obtain ⟨steps, stepsEq⟩ := gap
    -- `steps` counts strides from the cut's start; its class is `steps % ratio`.
    have split := Int.emod_add_mul_ediv steps ratio
    have classNonneg := Int.emod_nonneg steps (ne_of_gt ratioPos)
    have classBelow := Int.emod_lt_of_pos steps ratioPos
    have position : v = cutStart + steps % ratio * stride + ratio * stride * (steps / ratio) := by
      have scaled : stride * steps = stride * (steps % ratio + ratio * (steps / ratio)) := by
        rw [split]
      linarith
    have classPos : steps % ratio ≠ 0 := by
      intro zero
      rw [zero, zero_mul, add_zero] at position
      exact outside ⟨above, below, ⟨steps / ratio, by rw [position]; ring⟩⟩
    have stepsNonneg : 0 ≤ steps := nonneg_of_mul_nonneg_right (by omega) positive
    have quotientNonneg : 0 ≤ steps / ratio := Int.ediv_nonneg stepsNonneg ratioPos.le
    refine ⟨steps % ratio, by omega, classBelow, ?_, ?_, ⟨steps / ratio, by rw [position]; ring⟩⟩
    · have := mul_nonneg periodPos.le quotientNonneg
      omega
    · -- `v` and `cutLast` lie in different classes, a whole period apart at least.
      obtain ⟨total, totalEq⟩ := ends
      have classSmall : steps % ratio * stride < ratio * stride :=
        mul_lt_mul_of_pos_right classBelow positive
      have classLarge : 0 < steps % ratio * stride := mul_pos (by omega) positive
      have quotientLt : steps / ratio < total := by
        refine lt_of_mul_lt_mul_left ?_ periodPos.le
        omega
      have bounded := mul_le_mul_of_nonneg_left (show steps / ratio ≤ total - 1 by omega)
        periodPos.le
      rw [mul_sub, mul_one] at bounded
      omega
  · rintro ⟨j, jPos, jSmall, lower, upper, index, indexEq⟩
    have classSmall : j * stride < ratio * stride := mul_lt_mul_of_pos_right jSmall positive
    have classLarge : 0 < j * stride := mul_pos (by omega) positive
    refine ⟨⟨⟨by omega, by omega, ?_⟩, by omega, by omega⟩, ?_⟩
    · have : v - start = ratio * stride * index + j * stride + (cutStart - start) := by omega
      rw [this]
      refine dvd_add (dvd_add ?_ (dvd_mul_left _ _)) onIt
      exact (dvd_mul_left stride ratio).mul_right index
    · rintro ⟨_, _, onCut⟩
      have rest : ratio * stride ∣ j * stride := by
        have : j * stride = (v - cutStart) - ratio * stride * index := by omega
        rw [this]
        exact dvd_sub onCut (dvd_mul_right _ _)
      have := Int.le_of_dvd classLarge rest
      omega

/-- A progression is made of `count` classes, each `count` strides apart. -/
theorem progression_classes {count : ℤ} (countPos : 0 < count) (positive : 0 < stride) {v : ℤ} :
    v ∈ progression start stride last ↔
      ∃ j, 0 ≤ j ∧ j < count ∧ v ∈ progression (start + j * stride) (count * stride) last := by
  constructor
  · rintro ⟨lower, upper, index, distance⟩
    have indexNonneg : 0 ≤ index := nonneg_of_mul_nonneg_right (by omega) positive
    have split := Int.emod_add_mul_ediv index count
    have quotient := Int.ediv_nonneg indexNonneg countPos.le
    have gap : v - (start + index % count * stride) = count * stride * (index / count) := by
      calc v - (start + index % count * stride)
          = stride * index - index % count * stride := by rw [← distance]; ring
        _ = stride * (index % count + count * (index / count)) - index % count * stride := by
            rw [split]
        _ = count * stride * (index / count) := by ring
    refine ⟨index % count, Int.emod_nonneg index (ne_of_gt countPos),
      Int.emod_lt_of_pos index countPos, ?_, upper, index / count, gap⟩
    have := mul_nonneg (mul_pos countPos positive).le quotient
    omega
  · rintro ⟨j, nonneg, _, lower, upper, steps, distance⟩
    have := mul_nonneg nonneg positive.le
    refine ⟨by omega, upper, j + count * steps, ?_⟩
    calc v - start = v - (start + j * stride) + j * stride := by ring
      _ = stride * (j + count * steps) := by rw [distance]; ring

theorem image2_add_singleton_left (shift : ℤ) (start stride last : ℤ) :
    Set.image2 (· + ·) {shift} (progression start stride last) =
      progression (shift + start) stride (shift + last) := by
  ext v
  simp only [Set.image2_singleton_left, Set.mem_image, mem_progression]
  constructor
  · rintro ⟨w, ⟨lower, upper, divides⟩, rfl⟩
    exact ⟨by omega, by omega, by rwa [add_sub_add_left_eq_sub]⟩
  · rintro ⟨lower, upper, divides⟩
    refine ⟨v - shift, ⟨by omega, by omega, ?_⟩, by omega⟩
    rwa [sub_sub]

theorem image2_add_singleton_right (shift : ℤ) (start stride last : ℤ) :
    Set.image2 (· + ·) (progression start stride last) {shift} =
      progression (start + shift) stride (last + shift) := by
  rw [Set.image2_comm (add_comm (G := ℤ)), add_comm start, add_comm last,
    image2_add_singleton_left]

theorem image2_add_same_stride {otherStart otherLast : ℤ} (ordered : start ≤ last)
    (reaches : stride ∣ last - start) (otherOrdered : otherStart ≤ otherLast) :
    Set.image2 (· + ·) (progression start stride last) (progression otherStart stride otherLast) =
      progression (start + otherStart) stride (last + otherLast) := by
  ext v
  constructor
  · rintro ⟨x, ⟨xLower, xUpper, xDivides⟩, y, ⟨yLower, yUpper, yDivides⟩, rfl⟩
    refine ⟨by dsimp only; omega, by dsimp only; omega, ?_⟩
    rw [add_sub_add_comm]
    exact dvd_add xDivides yDivides
  · rintro ⟨lower, upper, divides⟩
    -- Take as much as possible from the left summand.
    by_cases low : v - otherStart ≤ last
    · refine ⟨v - otherStart, ⟨by omega, low, ?_⟩, otherStart, start_mem otherOrdered, by simp⟩
      rwa [sub_sub, add_comm otherStart]
    · refine ⟨last, last_mem ordered reaches, v - last, ⟨by omega, by omega, ?_⟩, by simp⟩
      have : v - last - otherStart = (v - (start + otherStart)) - (last - start) := by ring
      rw [this]
      exact dvd_sub divides reaches

/-- **Dense progressions stay dense.** Adding a set whose elements agree modulo
the stride and whose ends are no further apart than the progression is long
shifts the ends and fills everything between. -/
theorem image2_add_dense {least greatest : ℤ} {draws : Set ℤ} (isLeast : IsLeast draws least)
    (isGreatest : IsGreatest draws greatest) (congruent : ∀ x ∈ draws, stride ∣ x - least)
    (long : greatest - least ≤ last - start) :
    Set.image2 (· + ·) (progression start stride last) draws =
      progression (start + least) stride (last + greatest) := by
  have spread := isLeast.2 isGreatest.1
  ext v
  constructor
  · rintro ⟨x, ⟨lower, upper, divides⟩, y, member, rfl⟩
    have yLower := isLeast.2 member
    have yUpper := isGreatest.2 member
    refine ⟨by dsimp only; omega, by dsimp only; omega, ?_⟩
    rw [add_sub_add_comm]
    exact dvd_add divides (congruent y member)
  · rintro ⟨lower, upper, divides⟩
    by_cases low : v - least ≤ last
    · exact ⟨v - least, ⟨by omega, low, by rwa [sub_sub, add_comm least]⟩, least, isLeast.1,
        by simp⟩
    · refine ⟨v - greatest, ⟨by omega, by omega, ?_⟩, greatest, isGreatest.1, by simp⟩
      have : v - greatest - start = (v - (start + least)) - (greatest - least) := by ring
      rw [this]
      exact dvd_sub divides (congruent greatest isGreatest.1)

theorem progression_union {otherStart otherLast : ℤ} (aligned : stride ∣ otherStart - start)
    (reaches : stride ∣ last - start) (ordered : start ≤ otherStart)
    (meets : otherStart ≤ last + stride) (longer : last ≤ otherLast) :
    progression start stride last ∪ progression otherStart stride otherLast =
      progression start stride otherLast := by
  ext v
  constructor
  · rintro (⟨lower, upper, divides⟩ | ⟨lower, upper, divides⟩)
    · exact ⟨lower, by omega, divides⟩
    · refine ⟨by omega, upper, ?_⟩
      rw [← sub_add_sub_cancel v otherStart start]
      exact dvd_add divides aligned
  · rintro ⟨lower, upper, divides⟩
    by_cases inside : v ≤ last
    · exact Or.inl ⟨lower, inside, divides⟩
    · right
      have gap : stride ∣ v - last := by
        rw [← sub_sub_sub_cancel_right v last start]
        exact dvd_sub divides reaches
      have := Int.le_of_dvd (by omega) gap
      refine ⟨by omega, upper, ?_⟩
      rw [← sub_sub_sub_cancel_right v otherStart start]
      exact dvd_sub divides aligned

theorem progression_snoc {next : ℤ} (positive : 0 < stride) (ordered : start ≤ last)
    (reaches : stride ∣ last - start) (nextEq : next = last + stride) :
    progression start stride last ∪ {next} = progression start stride next := by
  rw [← progression_self next stride]
  refine progression_union ?_ reaches (by omega) (by omega) (by omega)
  rw [nextEq, add_sub_right_comm]
  exact dvd_add reaches dvd_rfl

end LlvmDsdl.Library.Progression
