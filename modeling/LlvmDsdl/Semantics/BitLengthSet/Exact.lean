import LlvmDsdl.Semantics.BitLengthSet.Tree

/-!
Contract: the lengths of a bit length set under ordinary arithmetic.

Owns: the exact lengths of a set, when all of them are 64-bit integers, the
theorem that this is when the set's maximum is the longest of them, and the
bounds that exact lengths set on other quantities.
-/

namespace LlvmDsdl.Semantics

open Support Support.IntegerMath Library.Rounding Library.Sumset

namespace LengthSet

/-- The lengths of the set, however long they are. -/
def exact (set : LengthSet) : Set ℤ := set.expr.exactDenote

/-- Every length of the set is a signed 64-bit integer. -/
def Fits (set : LengthSet) : Prop :=
  ∀ length ∈ set.exact, length ≤ int64Max

theorem exact_nonneg {set : LengthSet} {length : ℤ} (member : length ∈ set.exact) : 0 ≤ length :=
  Expr.exactDenote_nonneg set.wellFormed length member

theorem denote_eq_clamped (set : LengthSet) : set.denote = clamp int64Max '' set.exact :=
  Expr.denote_eq_image set.wellFormed

theorem exact_nonempty (set : LengthSet) : set.exact.Nonempty := by
  have nonempty := set.denote_nonempty
  rw [denote_eq_clamped] at nonempty
  exact Set.image_nonempty.mp nonempty

theorem Fits.denote_eq {set : LengthSet} (fits : set.Fits) : set.denote = set.exact :=
  Expr.denote_eq_exactDenote set.wellFormed fits

theorem max_le_int64Max (set : LengthSet) : set.max ≤ int64Max :=
  (set.denote_range set.max_isGreatest.1).2

theorem max_nonneg (set : LengthSet) : 0 ≤ set.max :=
  (set.denote_range set.max_isGreatest.1).1

theorem min_le_max (set : LengthSet) : set.min ≤ set.max :=
  set.min_isLeast.2 set.max_isGreatest.1

/-- **The maximum of a set is its longest length exactly when every length fits.** -/
theorem fits_iff_isGreatest (set : LengthSet) : set.Fits ↔ IsGreatest set.exact set.max := by
  constructor
  · intro fits
    rw [← fits.denote_eq]
    exact set.max_isGreatest
  · intro greatest length member
    exact (greatest.2 member).trans set.max_le_int64Max

theorem toInt64_of_inInt64 {value : ℤ} (inside : InInt64 value) : toInt64 value = value := by
  have lower : int64Min = -(2 ^ 63) := by decide
  have upper : int64Max = 2 ^ 63 - 1 := by decide
  apply Int64.toInt_ofInt_of_le
  · have := inside.1
    omega
  · have := inside.2
    omega

theorem leafValues_ofInt {value : ℤ} (nonneg : 0 ≤ value) (below : value ≤ int64Max) :
    Heap.leafValues [Int64.ofInt value] = FlatSet.singleton value := by
  have kept : (Int64.ofInt value).toInt = value := toInt64_of_inInt64 (.of_nonneg nonneg below)
  have shape : Heap.leafValues [Int64.ofInt value] =
      FlatSet.ofVector [if (Int64.ofInt value).toInt < 0 then 0
        else (Int64.ofInt value).toInt] := rfl
  apply FlatSet.ext_mem
  intro other
  rw [shape, kept, if_neg (not_lt.mpr nonneg)]
  simp

theorem exact_ofValue {value : ℤ} (nonneg : 0 ≤ value) (below : value ≤ int64Max) :
    (ofValue value).exact = {value} := by
  have leaf : (ofValue value).exact = (Heap.leafValues [Int64.ofInt value]).toSet := rfl
  rw [leaf, leafValues_ofInt nonneg below]
  ext other
  simp

theorem mem_exact_add {lhs rhs : LengthSet} {left right : ℤ} (leftIn : left ∈ lhs.exact)
    (rightIn : right ∈ rhs.exact) : left + right ∈ (lhs.add rhs).exact :=
  Set.mem_image2_of_mem leftIn rightIn

theorem mem_exact_union {lhs rhs : LengthSet} {length : ℤ} :
    length ∈ (lhs.union rhs).exact ↔ length ∈ lhs.exact ∨ length ∈ rhs.exact :=
  Iff.rfl

theorem exact_padToAlignment (set : LengthSet) {alignment : ℤ} (positive : 1 ≤ alignment)
    (below : alignment ≤ int64Max) :
    (set.padToAlignment alignment).exact = (fun length => roundUp length alignment) '' set.exact := by
  have param : Max.max 1 (toInt64 alignment) = alignment := by
    rw [toInt64_of_inInt64 (.of_nonneg (by omega) below)]
    exact max_eq_right positive
  have shape : (set.padToAlignment alignment).exact =
      (fun length => roundUp length (Max.max 1 (toInt64 alignment))) '' set.exact := rfl
  rw [shape, param]

theorem exact_repeated (set : LengthSet) {count : ℤ} (nonneg : 0 ≤ count)
    (below : count ≤ int64Max) : (set.repeated count).exact = sums set.exact count.toNat := by
  have param : Max.max 0 (toInt64 count) = count := by
    rw [toInt64_of_inInt64 (.of_nonneg nonneg below)]
    exact max_eq_right nonneg
  have shape : (set.repeated count).exact = sums set.exact (Max.max 0 (toInt64 count)).toNat := rfl
  rw [shape, param]

theorem exact_repeatRange (set : LengthSet) {count : ℤ} (nonneg : 0 ≤ count)
    (below : count ≤ int64Max) :
    (set.repeatRange count).exact = sumsUpTo set.exact count.toNat := by
  have param : Max.max 0 (toInt64 count) = count := by
    rw [toInt64_of_inInt64 (.of_nonneg nonneg below)]
    exact max_eq_right nonneg
  have shape : (set.repeatRange count).exact =
      sumsUpTo set.exact (Max.max 0 (toInt64 count)).toNat := rfl
  rw [shape, param]

theorem mul_mem_sums {s : Set ℤ} {length : ℤ} (member : length ∈ s) (count : ℕ) :
    (count : ℤ) * length ∈ sums s count := by
  have drawn : (count : ℤ) * length ∈ sums {length} count := by
    rw [sums_singleton]
    rfl
  exact foldSums_subset (Set.singleton_subset_iff.mpr member) count drawn

/-- Some exact length is at least the value. -/
def Reaches (set : LengthSet) (value : ℤ) : Prop :=
  ∃ length ∈ set.exact, value ≤ length

theorem Reaches.le {set : LengthSet} {value : ℤ} (reaches : set.Reaches value)
    (fits : set.Fits) : value ≤ int64Max :=
  have ⟨length, member, above⟩ := reaches
  above.trans (fits length member)

theorem Reaches.mono {set : LengthSet} {low high : ℤ} (reaches : set.Reaches high)
    (below : low ≤ high) : set.Reaches low :=
  have ⟨length, member, above⟩ := reaches
  ⟨length, member, below.trans above⟩

theorem reaches_zero (set : LengthSet) : set.Reaches 0 :=
  have ⟨length, member⟩ := set.exact_nonempty
  ⟨length, member, exact_nonneg member⟩

theorem reaches_of_mem {set : LengthSet} {value : ℤ} (member : value ∈ set.exact) :
    set.Reaches value :=
  ⟨value, member, le_rfl⟩

theorem Fits.reaches_max {set : LengthSet} (fits : set.Fits) : set.Reaches set.max :=
  reaches_of_mem (set.fits_iff_isGreatest.mp fits).1

theorem reaches_ofValue {value : ℤ} (nonneg : 0 ≤ value) (below : value ≤ int64Max) :
    (ofValue value).Reaches value :=
  reaches_of_mem (by rw [exact_ofValue nonneg below]; rfl)

theorem Reaches.add {lhs rhs : LengthSet} {left right : ℤ} (leftReach : lhs.Reaches left)
    (rightReach : rhs.Reaches right) : (lhs.add rhs).Reaches (left + right) :=
  have ⟨_, leftIn, leftAbove⟩ := leftReach
  have ⟨_, rightIn, rightAbove⟩ := rightReach
  ⟨_, mem_exact_add leftIn rightIn, add_le_add leftAbove rightAbove⟩

theorem Reaches.union_left {lhs rhs : LengthSet} {value : ℤ} (reaches : lhs.Reaches value) :
    (lhs.union rhs).Reaches value :=
  have ⟨length, member, above⟩ := reaches
  ⟨length, mem_exact_union.mpr (.inl member), above⟩

theorem Reaches.union_right {lhs rhs : LengthSet} {value : ℤ} (reaches : rhs.Reaches value) :
    (lhs.union rhs).Reaches value :=
  have ⟨length, member, above⟩ := reaches
  ⟨length, mem_exact_union.mpr (.inr member), above⟩

theorem Reaches.roundUp {set : LengthSet} {value alignment : ℤ} (reaches : set.Reaches value)
    (positive : 1 ≤ alignment) (below : alignment ≤ int64Max) :
    (set.padToAlignment alignment).Reaches (roundUp value alignment) := by
  obtain ⟨length, member, above⟩ := reaches
  refine ⟨Library.Rounding.roundUp length alignment, ?_, roundUp_mono (by omega) above⟩
  rw [exact_padToAlignment set positive below]
  exact Set.mem_image_of_mem _ member

theorem Reaches.pad {set : LengthSet} {value alignment : ℤ} (reaches : set.Reaches value)
    (positive : 1 ≤ alignment) (below : alignment ≤ int64Max) :
    (set.padToAlignment alignment).Reaches value :=
  (reaches.roundUp positive below).mono (le_roundUp (by omega) value)

theorem Reaches.repeated {set : LengthSet} {value count : ℤ} (reaches : set.Reaches value)
    (nonneg : 0 ≤ count) (below : count ≤ int64Max) :
    (set.repeated count).Reaches (count * value) := by
  obtain ⟨length, member, above⟩ := reaches
  refine ⟨count * length, ?_, mul_le_mul_of_nonneg_left above nonneg⟩
  have drawn := mul_mem_sums member count.toNat
  rwa [Int.toNat_of_nonneg nonneg, ← exact_repeated set nonneg below] at drawn

theorem Reaches.repeatRange {set : LengthSet} {value count : ℤ} (reaches : set.Reaches value)
    (nonneg : 0 ≤ count) (below : count ≤ int64Max) :
    (set.repeatRange count).Reaches (count * value) := by
  obtain ⟨length, member, above⟩ := reaches
  refine ⟨count * length, ?_, mul_le_mul_of_nonneg_left above nonneg⟩
  have drawn := mul_mem_sums member count.toNat
  rw [Int.toNat_of_nonneg nonneg] at drawn
  rw [exact_repeatRange set nonneg below]
  exact foldSums_subset_upTo le_rfl drawn

end LengthSet

end LlvmDsdl.Semantics
