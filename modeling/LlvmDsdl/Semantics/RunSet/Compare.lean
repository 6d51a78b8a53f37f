import LlvmDsdl.Semantics.RunSet.Union

/-!
Contract: comparison and residues of run sets.

Owns: `isSubsetOf` by counting common elements, `equals`, and the cycle walk of
`residues`, each decided exactly for valid operands.

For valid sets no intersection overflows and no count exceeds the run it is
taken from, so neither comparison ever answers from a refusal.
-/

namespace LlvmDsdl.Semantics

open Support Support.IntegerMath Library.Progression Run

namespace RunSet

/-- How many elements of `r` the runs cover, on top of `covered`; `none` when an
intersection or the sum cannot be verified. -/
def coverage (r : Run) : ℤ → List Run → Option ℤ
  | covered, [] => some covered
  | covered, o :: rest =>
      match intersectRuns r o with
      | (_, true) => none
      | (some isect, false) =>
          match checkedAdd covered isect.count with
          | none => none
          | some covered => coverage r covered rest
      | (none, false) => coverage r covered rest

/-- `RunSet::isSubsetOf`. -/
def isSubsetOf (set other : RunSet) : Bool :=
  set.runs.all fun r => coverage r 0 other.runs == some r.count

/-- `RunSet::equals`. -/
def equals (set other : RunSet) : Bool :=
  match set.count, other.count with
  | some ca, some cb => if ca ≠ cb then false else set.isSubsetOf other && other.isSubsetOf set
  | _, _ => set.isSubsetOf other && other.isSubsetOf set

/-- The runs share nothing, so the common elements add up and the sum stays
below the count of `r`. -/
theorem coverage_spec {r : Run} (valid : r.Valid) (runs : List Run) : ∀ {covered : ℤ},
    Placed runs → 0 ≤ covered → covered + (r.elements ∩ unionOf runs).ncard ≤ int64Max →
      coverage r covered runs = some (covered + (r.elements ∩ unionOf runs).ncard) := by
  induction runs with
  | nil => intro covered _ _ _; simp [coverage]
  | cons o rest ih =>
      intro covered placed nonneg fits
      have apart : Disjoint (r.elements ∩ o.elements) (r.elements ∩ unionOf rest) :=
        placed.head_avoids.mono Set.inter_subset_right Set.inter_subset_right
      have split : (r.elements ∩ unionOf (o :: rest)).ncard =
          (r.elements ∩ o.elements).ncard + (r.elements ∩ unionOf rest).ncard := by
        rw [unionOf_cons, Set.inter_union_distrib_left, Set.ncard_union_eq apart
          (valid.finite.inter_of_left _) (valid.finite.inter_of_left _)]
      rw [split] at fits ⊢
      push_cast at fits ⊢
      obtain ⟨result, resultEq, intersection⟩ := intersectRuns_spec valid placed.head
      rw [coverage, resultEq]
      cases result with
      | none =>
          have empty := intersection.empty rfl
          rw [empty, Set.ncard_empty] at fits ⊢
          simp only [Nat.cast_zero, zero_add] at fits ⊢
          exact ih placed.tail nonneg fits
      | some isect =>
          obtain ⟨isectValid, elementsEq⟩ := intersection.exact isect rfl
          have size := isectValid.ncard_elements
          rw [elementsEq] at size
          have countPos := isectValid.countPos
          have added : checkedAdd covered isect.count = some (covered + isect.count) :=
            checkedAdd_eq_some.mpr ⟨.of_nonneg (by omega) (by omega), rfl⟩
          simp only [added]
          rw [ih placed.tail (by omega) (by omega), size, add_assoc]

/-- Counting the common elements of a run and a valid set never refuses. -/
theorem coverage_zero {r : Run} (valid : r.Valid) {other : RunSet} (otherValid : other.Valid) :
    coverage r 0 other.runs = some ((r.elements ∩ other.elements).ncard : ℤ) := by
  have size := valid.ncard_elements
  have countFits := valid.countFits
  have fewer := Set.ncard_inter_le_ncard_left r.elements (unionOf other.runs) valid.finite
  rw [coverage_spec valid other.runs otherValid.placed le_rfl (by omega), zero_add, elements]

/-- **Inclusion is decided exactly.** -/
theorem isSubsetOf_iff {set other : RunSet} (valid : set.Valid) (otherValid : other.Valid) :
    set.isSubsetOf other = true ↔ set.elements ⊆ other.elements := by
  have perRun : ∀ r ∈ set.runs,
      (coverage r 0 other.runs == some r.count) = true ↔ r.elements ⊆ other.elements := by
    intro r member
    have runValid := valid.placed.canonical r member
    rw [coverage_zero runValid otherValid, beq_iff_eq, Option.some.injEq,
      ← runValid.ncard_elements, Nat.cast_inj, ← Set.inter_eq_left]
    exact ⟨fun same => Set.eq_of_subset_of_ncard_le Set.inter_subset_left same.ge runValid.finite,
      fun same => congrArg Set.ncard same⟩
  rw [isSubsetOf, List.all_eq_true]
  constructor
  · rintro inside v ⟨r, member, inRun⟩
    exact (perRun r member).mp (inside r member) inRun
  · intro inside r member
    exact (perRun r member).mpr fun v inRun => inside ⟨r, member, inRun⟩

/-- **Equality is decided exactly.** -/
theorem equals_iff {set other : RunSet} (valid : set.Valid) (otherValid : other.Valid) :
    set.equals other = true ↔ set.elements = other.elements := by
  have both : (set.isSubsetOf other && other.isSubsetOf set) = true ↔
      set.elements = other.elements := by
    rw [Bool.and_eq_true, isSubsetOf_iff valid otherValid, isSubsetOf_iff otherValid valid]
    exact Set.Subset.antisymm_iff.symm
  unfold equals
  split
  · rename_i ca cb counted otherCounted
    split
    · rename_i differ
      refine ⟨fun absurd => by simp at absurd, fun same => absurd ?_ differ⟩
      rw [count_eq_ncard valid counted, count_eq_ncard otherValid otherCounted, same]
    · exact both
  · exact both

def kResidueBudget : ℕ := 65536

def kResidueWalkBudget : ℕ := 2 ^ 22

/-- `k` residues from `cur` on, a stride of residue `step` apart. -/
def residueWalk (divisor step : ℤ) : ℕ → ℤ → List ℤ
  | 0, _ => []
  | k + 1, cur =>
      let next := cur + step
      cur :: residueWalk divisor step k (if next ≥ divisor then next - divisor else next)

/-- Collect the residues of every run, the walk metered across all of them. -/
def residuesFrom (divisor : ℤ) : FlatSet ℤ → ℕ → List Run → Option (FlatSet ℤ)
  | unique, _, [] => some unique
  | unique, walked, r :: rest =>
      let step := r.stride.tmod divisor
      let period := divisor.tdiv (stdGcd step divisor)
      let k := (Min.min r.count period).toNat
      if k > kResidueBudget then none
      else
        let walked := walked + k
        if walked > kResidueWalkBudget then none
        else
          let batch := residueWalk divisor step k (euclideanModulo r.start divisor)
          let unique := unique.insertRange batch
          if unique.size > kResidueBudget then none else residuesFrom divisor unique walked rest

/-- `RunSet::residues`. -/
def residues (set : RunSet) (divisor : ℤ) : Option (FlatSet ℤ) :=
  if divisor < 1 then none else residuesFrom divisor FlatSet.empty 0 set.runs

theorem mem_residueWalk {divisor step : ℤ} (stepNonneg : 0 ≤ step) (stepLt : step < divisor)
    (start : ℤ) (k : ℕ) : ∀ v, v ∈ residueWalk divisor step k (start % divisor) ↔
      ∃ i : ℕ, i < k ∧ v = (start + i * step) % divisor := by
  have positive : 0 < divisor := by omega
  induction k generalizing start with
  | zero => simp [residueWalk]
  | succ k ih =>
      intro v
      have next : (if start % divisor + step ≥ divisor then start % divisor + step - divisor
          else start % divisor + step) = (start + step) % divisor := by
        have lower := Int.emod_nonneg start (ne_of_gt positive)
        have upper := Int.emod_lt_of_pos start positive
        rw [← Int.emod_add_emod start divisor step]
        generalize start % divisor = cur at lower upper
        split
        · rw [← Int.sub_emod_right (cur + step), Int.emod_eq_of_lt (by omega) (by omega)]
        · rw [Int.emod_eq_of_lt (by omega) (by omega)]
      rw [residueWalk, List.mem_cons, next, ih]
      constructor
      · rintro (rfl | ⟨i, below, rfl⟩)
        · exact ⟨0, by omega, by simp⟩
        · exact ⟨i + 1, by omega, by congr 1; push_cast; ring⟩
      · rintro ⟨i, below, rfl⟩
        cases i with
        | zero => exact Or.inl (by simp)
        | succ i => exact Or.inr ⟨i, by omega, by congr 1; push_cast; ring⟩

theorem image_emod_run {r : Run} (valid : r.Valid) {divisor : ℤ} (positive : 0 < divisor) (v : ℤ) :
    (∃ i : ℕ, i < (Min.min r.count
        (divisor.tdiv (stdGcd (r.stride.tmod divisor) divisor))).toNat ∧
          v = (r.start + i * r.stride.tmod divisor) % divisor) ↔
      v ∈ (· % divisor) '' r.elements := by
  have stridePos : 0 < r.stride := valid.stridePos
  have countPos := valid.countPos
  rw [Int.tmod_eq_emod_of_nonneg stridePos.le]
  have reduce : ∀ i : ℤ, (r.start + i * (r.stride % divisor)) % divisor =
      (r.start + i * r.stride) % divisor := by
    intro i
    have := ((Int.mod_modEq r.stride divisor).mul_left i).add_left r.start
    exact this
  have commonDvd := stdGcd_dvd_left (r.stride % divisor) divisor
  have commonDvdDivisor := stdGcd_dvd_right (r.stride % divisor) divisor
  have commonPos : 0 < stdGcd (r.stride % divisor) divisor := by
    refine lt_of_le_of_ne (Int.natCast_nonneg _) fun zero => ?_
    rw [← zero, zero_dvd_iff] at commonDvdDivisor
    omega
  have periodEq : divisor.tdiv (stdGcd (r.stride % divisor) divisor) *
      stdGcd (r.stride % divisor) divisor = divisor := Int.tdiv_mul_cancel commonDvdDivisor
  generalize divisor.tdiv (stdGcd (r.stride % divisor) divisor) = period at periodEq
  generalize stdGcd (r.stride % divisor) divisor = common at *
  have periodPos : 0 < period := pos_of_mul_pos_left (periodEq ▸ positive) commonPos.le
  -- A period of strides is a multiple of the divisor.
  have cycle : divisor ∣ period * (r.stride % divisor) := by
    obtain ⟨steps, stepsEq⟩ := commonDvd
    exact ⟨steps, by rw [stepsEq, ← mul_assoc, periodEq]⟩
  constructor
  · rintro ⟨i, below, rfl⟩
    exact ⟨r.start + i * r.stride, ⟨i, by omega, by omega, rfl⟩, (reduce i).symm⟩
  · rintro ⟨w, ⟨i, nonneg, below, rfl⟩, rfl⟩
    have indexNonneg := Int.emod_nonneg i (ne_of_gt periodPos)
    have indexLt := Int.emod_lt_of_pos i periodPos
    have indexLe : i % period ≤ i := by
      have split := Int.emod_add_mul_ediv i period
      have := mul_nonneg periodPos.le (Int.ediv_nonneg nonneg periodPos.le)
      omega
    refine ⟨(i % period).toNat, by omega, ?_⟩
    rw [Int.toNat_of_nonneg indexNonneg]
    show (r.start + i * r.stride) % divisor = _
    rw [← reduce]
    have unroll : r.start + i * (r.stride % divisor) =
        r.start + i % period * (r.stride % divisor) +
          period * (r.stride % divisor) * (i / period) := by
      have split := Int.emod_add_mul_ediv i period
      calc r.start + i * (r.stride % divisor)
          = r.start + (i % period + period * (i / period)) * (r.stride % divisor) := by rw [split]
        _ = _ := by ring
    rw [unroll, Int.add_emod, Int.emod_eq_zero_of_dvd (cycle.mul_right _), add_zero, Int.emod_emod]

theorem residuesFrom_spec {divisor : ℤ} (positive : 0 < divisor) (runs : List Run) :
    ∀ {unique result : FlatSet ℤ} {walked : ℕ}, (∀ run ∈ runs, run.Valid) →
      residuesFrom divisor unique walked runs = some result →
        result.toSet = unique.toSet ∪ (· % divisor) '' unionOf runs := by
  induction runs with
  | nil =>
      intro unique result walked _ found
      obtain rfl := Option.some.inj found
      simp
  | cons r rest ih =>
      intro unique result walked canonical found
      have valid := canonical r (by simp)
      have stridePos : 0 < r.stride := valid.stridePos
      simp only [residuesFrom, Option.ite_none_left_eq_some] at found
      obtain ⟨_, _, _, found⟩ := found
      rw [ih (fun run member => canonical run (by simp [member])) found,
        unionOf_cons, Set.image_union, ← Set.union_assoc]
      congr 1
      ext v
      have stepNonneg : 0 ≤ r.stride.tmod divisor := Int.tmod_nonneg _ stridePos.le
      have stepLt := Int.tmod_lt_of_pos r.stride positive
      rw [FlatSet.mem_toSet, FlatSet.mem_insertRange, euclideanModulo_eq positive,
        mem_residueWalk stepNonneg stepLt, image_emod_run valid positive]
      rfl

/-- **Residues are exact.** -/
theorem residues_spec {set : RunSet} (valid : set.Valid) {divisor : ℤ} {result : FlatSet ℤ}
    (found : set.residues divisor = some result) :
    result.toSet = (· % divisor) '' set.elements := by
  unfold residues at found
  split at found
  · exact absurd found (by simp)
  · rename_i positive
    rw [residuesFrom_spec (by omega) set.runs valid.placed.canonical found, elements]
    have empty : (FlatSet.empty : FlatSet ℤ).toSet = ∅ := by
      ext v
      simp [FlatSet.empty, FlatSet.mem_def]
    rw [empty, Set.empty_union]

end RunSet

end LlvmDsdl.Semantics
