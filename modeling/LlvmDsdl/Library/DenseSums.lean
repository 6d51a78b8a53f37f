import LlvmDsdl.Library.Progression
import LlvmDsdl.Library.Sumset

/-!
Contract: iterated sums of integers that have become arithmetic progressions.

Owns: the persistence of density under further draws, the phase after which a
dense iterate returns to the same residue, and the union of a chained family of
dense iterates.
-/

namespace LlvmDsdl.Library

open Progression Sumset

variable {s : Set ℤ} {least greatest stride : ℤ}

/-- `count` draws fill the whole progression between their extrema. -/
def DenseIterate (s : Set ℤ) (least greatest stride : ℤ) (count : ℕ) : Prop :=
  sums s count = progression (count * least) stride (count * greatest)

section Dense

variable (isLeast : IsLeast s least) (isGreatest : IsGreatest s greatest)

include isLeast isGreatest

/-- **Density persists**: one more draw only moves the two ends. -/
theorem DenseIterate.succ (congruent : ∀ x ∈ s, stride ∣ x - least) {count : ℕ}
    (drawn : 1 ≤ count) (dense : DenseIterate s least greatest stride count) :
    DenseIterate s least greatest stride (count + 1) := by
  have spread : 0 ≤ greatest - least := sub_nonneg.mpr (isLeast.2 isGreatest.1)
  have long : greatest - least ≤ count * greatest - count * least := by
    rw [← mul_sub]
    exact le_mul_of_one_le_left spread (by exact_mod_cast drawn)
  rw [DenseIterate, sums_succ, dense, image2_add_dense isLeast isGreatest congruent long,
    succ_mul_cast, succ_mul_cast]

theorem DenseIterate.of_le (congruent : ∀ x ∈ s, stride ∣ x - least) {first count : ℕ}
    (drawn : 1 ≤ first) (dense : DenseIterate s least greatest stride first)
    (later : first ≤ count) :
    DenseIterate s least greatest stride count := by
  induction count, later using Nat.le_induction with
  | base => exact dense
  | succ count within ih =>
      exact ih.succ isLeast isGreatest congruent (drawn.trans within)

omit isGreatest in
/-- An iterate that is one progression shows that all draws agree modulo its stride. -/
theorem congruent_of_single_iterate {count : ℕ} {nextLast : ℤ}
    (nextSingle : sums s (count + 1) = progression ((count + 1 : ℕ) * least) stride nextLast) :
    ∀ x ∈ s, stride ∣ x - least := by
  intro x member
  have first : (count : ℤ) * least ∈ sums s count := (isLeast_sums isLeast count).1
  have reached : count * least + x ∈ sums s (count + 1) :=
    mem_foldSums_succ first member
  rw [nextSingle, succ_mul_cast] at reached
  have onIt := reached.2.2
  rwa [add_sub_add_left_eq_sub] at onIt

/-- **Chained families.** Dense iterates `phase` draws apart whose ends meet
unite to one progression. -/
theorem DenseIterate.chain (congruent : ∀ x ∈ s, stride ∣ x - least) (nonneg : 0 ≤ least)
    {first phase : ℕ} (drawn : 1 ≤ first) (dense : DenseIterate s least greatest stride first)
    (returns : stride ∣ phase * least)
    (meets : ((first + phase : ℕ) : ℤ) * least ≤ first * greatest + stride) (steps : ℕ) :
    {v | ∃ i ≤ steps, v ∈ sums s (first + i * phase)} =
      progression (first * least) stride ((first + steps * phase : ℕ) * greatest) := by
  have spread := isLeast.2 isGreatest.1
  have ends : ∀ count : ℕ, stride ∣ (count : ℤ) * greatest - count * least := fun count => by
    rw [← mul_sub]
    exact (congruent greatest isGreatest.1).mul_left _
  have denseAt : ∀ i : ℕ, sums s (first + i * phase) = progression ((first + i * phase : ℕ) * least)
      stride ((first + i * phase : ℕ) * greatest) := fun i =>
    dense.of_le isLeast isGreatest congruent drawn (Nat.le_add_right _ _)
  -- Every member starts on the residue of the first one.
  have aligned : ∀ i : ℕ, stride ∣ ((first + i * phase : ℕ) : ℤ) * least - first * least := by
    intro i
    have : ((first + i * phase : ℕ) : ℤ) * least - first * least = i * (phase * least) := by
      push_cast
      ring
    rw [this]
    exact returns.mul_left _
  induction steps with
  | zero =>
      have only : {v | ∃ i ≤ 0, v ∈ sums s (first + i * phase)} = sums s first := by
        ext v
        simp
      rw [only, dense, Nat.zero_mul, Nat.add_zero]
  | succ steps ih =>
      have split : {v | ∃ i ≤ steps + 1, v ∈ sums s (first + i * phase)} =
          {v | ∃ i ≤ steps, v ∈ sums s (first + i * phase)} ∪
            sums s (first + (steps + 1) * phase) := by
        ext v
        constructor
        · rintro ⟨i, within, member⟩
          rcases within.lt_or_eq with less | rfl
          · exact Or.inl ⟨i, by omega, member⟩
          · exact Or.inr member
        · rintro (⟨i, within, member⟩ | member)
          · exact ⟨i, by omega, member⟩
          · exact ⟨steps + 1, le_rfl, member⟩
      have grown : ((first + (steps + 1) * phase : ℕ) : ℤ) =
          (first + steps * phase : ℕ) + phase := by
        push_cast
        ring
      have later : (0 : ℤ) ≤ (steps * phase : ℕ) := Int.natCast_nonneg _
      rw [split, ih, denseAt]
      refine progression_union (aligned _) ?_ ?_ ?_ ?_
      · have := dvd_add (ends (first + steps * phase)) (aligned steps)
        rwa [sub_add_sub_cancel] at this
      · exact mul_le_mul_of_nonneg_right (by exact_mod_cast Nat.le_add_right _ _) nonneg
      · have slack : ((steps * phase : ℕ) : ℤ) * least ≤ (steps * phase : ℕ) * greatest :=
          mul_le_mul_of_nonneg_left spread later
        calc ((first + (steps + 1) * phase : ℕ) : ℤ) * least
            = ((first + phase : ℕ) : ℤ) * least + (steps * phase : ℕ) * least := by
              push_cast
              ring
          _ ≤ (first * greatest + stride) + (steps * phase : ℕ) * greatest := add_le_add meets slack
          _ = ((first + steps * phase : ℕ) : ℤ) * greatest + stride := by
              push_cast
              ring
      · refine mul_le_mul_of_nonneg_right ?_ (nonneg.trans spread)
        rw [grown]
        omega

end Dense

/-- After `stride / gcd(stride, least mod stride)` draws the start is back on its residue. -/
theorem dvd_phase_mul {gcd : ℤ} (strideDvd : gcd ∣ stride)
    (leastDvd : gcd ∣ least % stride) : stride ∣ stride / gcd * least := by
  obtain ⟨cofactor, cofactorEq⟩ := leastDvd
  have split := Int.emod_add_mul_ediv least stride
  refine ⟨cofactor + stride / gcd * (least / stride), ?_⟩
  calc stride / gcd * least = stride / gcd * (gcd * cofactor + stride * (least / stride)) := by
        rw [← cofactorEq, split]
    _ = stride / gcd * gcd * cofactor + stride * (stride / gcd * (least / stride)) := by ring
    _ = stride * (cofactor + stride / gcd * (least / stride)) := by
        rw [Int.ediv_mul_cancel strideDvd]
        ring

end LlvmDsdl.Library
