import LlvmDsdl.Semantics.BitLengthSet.Expansion
import LlvmDsdl.Semantics.BitLengthSet.Residues
import LlvmDsdl.Semantics.BitLengthSet.RunForm

/-!
Contract: the exact-or-refuse queries of bit-length sets.

Owns: `modulo` with its three strategies, `is_aligned_at`, `equalsExact`,
`isSubsetOfExact`, and the theorems that none of them answers wrongly.
-/

namespace LlvmDsdl.Semantics

open Support Support.IntegerMath

namespace Heap

variable (heap : Heap)

def kDefaultLimit : ℕ := 16384

def expansionResidues (values : FlatSet ℤ) (divisor : ℤ) : FlatSet ℤ :=
  values.data.foldl (fun out v => out.insert (v.tmod divisor)) FlatSet.empty

/-- The strategies of `modulo` for a divisor above one, in order. -/
def moduloStrategies (divisor : ℤ) (set : BitLengthSet heap) : Option (FlatSet ℤ) :=
  (if divisor ≤ kResidueModulusCap then
    (heap.residues divisor (ResidueSet.ofModulus divisor) set).map ResidueSet.toFlatSet
  else none) <|>
  ((heap.runSet set).bind fun rs => rs.residues divisor) <|>
  (let expansion := heap.expandChecked kDefaultLimit set
  if expansion.exact then some (expansionResidues expansion.values divisor) else none)

/-- `BitLengthSet::modulo`; a divisor that is not positive yields `{0}`. -/
def modulo (divisor : ℤ) (set : BitLengthSet heap) : Option (FlatSet ℤ) :=
  if divisor ≤ 0 then some (FlatSet.singleton 0)
  else if divisor = 1 then some (FlatSet.singleton 0)
  else heap.moduloStrategies divisor set

/-- `BitLengthSet::is_aligned_at`. -/
def isAlignedAt (alignment : ℤ) (set : BitLengthSet heap) : Option Bool :=
  if alignment < 1 then some true
  else (heap.modulo alignment set).map fun residues =>
    residues.size == 1 && residues.front 0 == 0

/-- `S(e)` modulo `divisor`. -/
def denotedResidues (divisor : ℤ) (set : BitLengthSet heap) : Set ℤ :=
  (· % divisor) '' heap.denote set

variable {heap}

theorem residues_toFlatSet {divisor : ℤ} (positive : 0 < divisor) {set : BitLengthSet heap}
    {mask : ResidueSet}
    (answered : heap.residues divisor (ResidueSet.ofModulus divisor) set = some mask) :
    mask.toFlatSet.toSet = heap.denotedResidues divisor set :=
  Set.ext (heap.residues_represents positive set answered).mem_toFlatSet

theorem toSet_expansionResidues {values : FlatSet ℤ} (nonneg : ∀ v ∈ values, 0 ≤ v) (divisor : ℤ) :
    (expansionResidues values divisor).toSet = (· % divisor) '' values.toSet := by
  have fold : ∀ (rest : List ℤ) (out : FlatSet ℤ) (x : ℤ),
      x ∈ rest.foldl (fun out v => out.insert (v.tmod divisor)) out ↔
        x ∈ out ∨ ∃ v ∈ rest, v.tmod divisor = x := by
    intro rest
    induction rest with
    | nil => intro out x; simp
    | cons v rest ih =>
        intro out x
        rw [List.foldl_cons, ih, FlatSet.mem_insert, List.exists_mem_cons_iff,
          or_assoc, or_left_comm, eq_comm]
  ext x
  rw [FlatSet.mem_toSet, expansionResidues, fold]
  constructor
  · rintro (absurd | ⟨v, member, rfl⟩)
    · exact (List.not_mem_nil absurd).elim
    · exact ⟨v, member, (Int.tmod_eq_emod_of_nonneg (nonneg v member)).symm⟩
  · rintro ⟨v, member, rfl⟩
    exact Or.inr ⟨v, member, Int.tmod_eq_emod_of_nonneg (nonneg v member)⟩

theorem modulo_eq_some {divisor : ℤ} (positive : 0 < divisor) {set : BitLengthSet heap}
    {out : FlatSet ℤ} (found : heap.modulo divisor set = some out) :
    out.toSet = heap.denotedResidues divisor set := by
  unfold modulo at found
  rw [if_neg (by omega)] at found
  split at found
  · rename_i one
    obtain rfl := Option.some.inj found
    obtain ⟨value, member⟩ := (heap.min_isLeast set).nonempty
    ext x
    simp only [FlatSet.mem_toSet, FlatSet.mem_singleton, denotedResidues, Set.mem_image, one,
      Int.emod_one]
    constructor
    · intro same
      exact ⟨value, member, same.symm⟩
    · rintro ⟨_, _, same⟩
      exact same.symm
  · simp only [moduloStrategies, Option.orElse_eq_orElse, Option.orElse_eq_or,
      Option.or_eq_some_iff, Option.ite_none_right_eq_some] at found
    rcases found with ⟨_, symbolic⟩ | ⟨_, byRuns | ⟨_, exact, byValues⟩⟩
    · obtain ⟨mask, answered, rfl⟩ := Option.map_eq_some_iff.mp symbolic
      exact residues_toFlatSet positive answered
    · obtain ⟨runs, runsFound, residues⟩ := Option.bind_eq_some_iff.mp byRuns
      have denotes := heap.runSet_denotes runsFound
      rw [RunSet.residues_spec denotes.valid residues, denotes.elements, denotedResidues]
    · have part := heap.expandChecked_part kDefaultLimit set
      have all := part.within.antisymm (part.complete exact)
      obtain rfl := Option.some.inj byValues
      rw [toSet_expansionResidues, all, denotedResidues]
      exact fun v member => (heap.denote_range set (part.within member)).1

theorem dvd_of_isAlignedAt {alignment : ℤ} (positive : 0 < alignment) {set : BitLengthSet heap}
    (aligned : heap.isAlignedAt alignment set = some true) :
    ∀ v ∈ heap.denote set, alignment ∣ v := by
  intro v member
  unfold isAlignedAt at aligned
  rw [if_neg (by omega)] at aligned
  obtain ⟨residues, found, verdict⟩ := Option.map_eq_some_iff.mp aligned
  rw [Bool.and_eq_true, beq_iff_eq, beq_iff_eq] at verdict
  have residueIn : v % alignment ∈ residues.toSet :=
    modulo_eq_some positive found ▸ Set.mem_image_of_mem _ member
  -- A single residue, and it is zero.
  obtain ⟨only, dataEq⟩ := List.length_eq_one_iff.mp verdict.1
  have frontEq : residues.front 0 = only := by rw [FlatSet.front, dataEq]; rfl
  rw [FlatSet.mem_toSet, FlatSet.mem_def, dataEq, List.mem_singleton, ← frontEq, verdict.2]
    at residueIn
  exact Int.dvd_of_emod_eq_zero residueIn

variable (heap)

/-- **Residues are exact or refused.** For a positive divisor the residue mask,
`modulo` and a positive alignment verdict are those of `S(e)`. -/
theorem modulo_exact (divisor : ℤ) (positive : 0 < divisor) (set : BitLengthSet heap) :
    (∀ mask, heap.residues divisor (ResidueSet.ofModulus divisor) set = some mask →
      mask.toFlatSet.toSet = heap.denotedResidues divisor set) ∧
    (∀ out, heap.modulo divisor set = some out →
      out.toSet = heap.denotedResidues divisor set) ∧
    (heap.isAlignedAt divisor set = some true → ∀ v ∈ heap.denote set, divisor ∣ v) :=
  ⟨fun _ answered => residues_toFlatSet positive answered,
    fun _ found => modulo_eq_some positive found, dvd_of_isAlignedAt positive⟩

/-- Forty padded arrays behind a header, or one alone: four residues, read off the contexts. A sum
that saturates is left to its expansion. -/
theorem modulo_exact_records :
    (∃ mask, (records 40).1.residues 64 (ResidueSet.ofModulus 64) (records 40).2 = some mask ∧
      mask.toFlatSet.toSet = (records 40).1.denotedResidues 64 (records 40).2) ∧
    (∃ out, (records 40).1.modulo 64 (records 40).2 = some out ∧ out.data = [0, 8, 32, 40] ∧
      out.toSet = (records 40).1.denotedResidues 64 (records 40).2) ∧
    (∀ v ∈ paddedArray.1.denote paddedArray.2, 32 ∣ v) ∧
    saturated.1.residues 64 (ResidueSet.ofModulus 64) saturated.2 = none ∧
    ∃ out, saturated.1.modulo 64 saturated.2 = some out ∧ out.data = [16, 63] ∧
      out.toSet = saturated.1.denotedResidues 64 saturated.2 := by
  have symbolic : ((records 40).1.residues 64 (ResidueSet.ofModulus 64) (records 40).2).isSome := by
    decide +kernel
  have residues : (records 40).1.modulo 64 (records 40).2 = some ⟨[0, 8, 32, 40], by decide⟩ := by
    decide +kernel
  have clamped : saturated.1.modulo 64 saturated.2 = some ⟨[16, 63], by decide⟩ := by
    decide +kernel
  have refused : saturated.1.residues 64 (ResidueSet.ofModulus 64) saturated.2 = none := by
    decide +kernel
  have found := (Option.some_get symbolic).symm
  obtain ⟨ofMask, ofAnswer, _⟩ := modulo_exact _ 64 (by decide) (records 40).2
  exact ⟨⟨_, found, ofMask _ found⟩, ⟨_, residues, rfl, ofAnswer _ residues⟩,
    (modulo_exact _ 32 (by decide) paddedArray.2).2.2 (by decide +kernel), refused,
    ⟨_, clamped, rfl, (modulo_exact _ 64 (by decide) saturated.2).2.1 _ clamped⟩⟩

/-- `BitLengthSet::equalsExact`. -/
def equalsExact (lhs rhs : BitLengthSet heap) : Option Bool :=
  if lhs = rhs then some true
  else if heap.min lhs ≠ heap.min rhs ∨ heap.max lhs ≠ heap.max rhs then some false
  else
    match heap.runSet lhs, heap.runSet rhs with
    | some lhsRuns, some rhsRuns => some (lhsRuns.equals rhsRuns)
    | _, _ =>
        let lhsExpansion := heap.expandChecked kDefaultLimit lhs
        let rhsExpansion := heap.expandChecked kDefaultLimit rhs
        if lhsExpansion.exact && rhsExpansion.exact then
          some (lhsExpansion.values == rhsExpansion.values)
        else none

/-- `BitLengthSet::isSubsetOfExact`. -/
def isSubsetOfExact (lhs rhs : BitLengthSet heap) : Option Bool :=
  if lhs = rhs then some true
  else if heap.min lhs < heap.min rhs ∨ heap.max lhs > heap.max rhs then some false
  else
    match heap.runSet lhs, heap.runSet rhs with
    | some lhsRuns, some rhsRuns => some (lhsRuns.isSubsetOf rhsRuns)
    | _, _ =>
        let lhsExpansion := heap.expandChecked kDefaultLimit lhs
        let rhsExpansion := heap.expandChecked kDefaultLimit rhs
        if lhsExpansion.exact && rhsExpansion.exact then
          some (rhsExpansion.values.includes lhsExpansion.values)
        else none

theorem toSet_expandChecked {set : BitLengthSet heap}
    (exact : (heap.expandChecked kDefaultLimit set).exact = true) :
    (heap.expandChecked kDefaultLimit set).values.toSet = heap.denote set :=
  have part := heap.expandChecked_part kDefaultLimit set
  part.within.antisymm (part.complete exact)

theorem equalsExact_eq_some {lhs rhs : BitLengthSet heap} {answer : Bool}
    (answered : heap.equalsExact lhs rhs = some answer) :
    answer = true ↔ heap.denote lhs = heap.denote rhs := by
  unfold equalsExact at answered
  split at answered
  · rename_i same
    obtain rfl := Option.some.inj answered
    exact ⟨fun _ => congrArg heap.denote same, fun _ => rfl⟩
  · split at answered
    · rename_i differ
      obtain rfl := Option.some.inj answered
      refine ⟨fun absurd => by simp at absurd, fun same => absurd differ ?_⟩
      have least := heap.min_isLeast lhs
      have greatest := heap.max_isGreatest lhs
      rw [same] at least greatest
      rw [not_or, not_not, not_not]
      exact ⟨least.unique (heap.min_isLeast rhs), greatest.unique (heap.max_isGreatest rhs)⟩
    · split at answered
      · rename_i lhsRuns rhsRuns lhsFound rhsFound
        obtain rfl := Option.some.inj answered
        have left := heap.runSet_denotes lhsFound
        have right := heap.runSet_denotes rhsFound
        rw [RunSet.equals_iff left.valid right.valid, left.elements, right.elements]
      · obtain ⟨exact, answered⟩ := Option.ite_none_right_eq_some.mp answered
        obtain rfl := Option.some.inj answered
        rw [Bool.and_eq_true] at exact
        rw [beq_iff_eq, ← FlatSet.toSet_injective.eq_iff, heap.toSet_expandChecked exact.1,
          heap.toSet_expandChecked exact.2]

theorem isSubsetOfExact_eq_some {lhs rhs : BitLengthSet heap} {answer : Bool}
    (answered : heap.isSubsetOfExact lhs rhs = some answer) :
    answer = true ↔ heap.denote lhs ⊆ heap.denote rhs := by
  unfold isSubsetOfExact at answered
  split at answered
  · rename_i same
    obtain rfl := Option.some.inj answered
    exact ⟨fun _ => (congrArg heap.denote same).subset, fun _ => rfl⟩
  · split at answered
    · rename_i outside
      obtain rfl := Option.some.inj answered
      refine ⟨fun absurd => by simp at absurd, fun within => absurd outside ?_⟩
      have least := (heap.min_isLeast rhs).2 (within (heap.min_isLeast lhs).1)
      have greatest := (heap.max_isGreatest rhs).2 (within (heap.max_isGreatest lhs).1)
      omega
    · split at answered
      · rename_i lhsRuns rhsRuns lhsFound rhsFound
        obtain rfl := Option.some.inj answered
        have left := heap.runSet_denotes lhsFound
        have right := heap.runSet_denotes rhsFound
        rw [RunSet.isSubsetOf_iff left.valid right.valid, left.elements, right.elements]
      · obtain ⟨exact, answered⟩ := Option.ite_none_right_eq_some.mp answered
        obtain rfl := Option.some.inj answered
        rw [Bool.and_eq_true] at exact
        rw [FlatSet.includes_iff, heap.toSet_expandChecked exact.1,
          heap.toSet_expandChecked exact.2]

/-- **Tri-state comparison is sound.** `true` and `false` are the truth about
`S(a)` and `S(b)`, and counting the common elements of two returned run sets
never refuses, so no `false` stands for a refusal. -/
theorem compareExact_sound (a b : BitLengthSet heap) :
    (heap.equalsExact a b = some true → heap.denote a = heap.denote b) ∧
    (heap.equalsExact a b = some false → heap.denote a ≠ heap.denote b) ∧
    (heap.isSubsetOfExact a b = some true → heap.denote a ⊆ heap.denote b) ∧
    (heap.isSubsetOfExact a b = some false → ¬heap.denote a ⊆ heap.denote b) ∧
    (∀ lhsRuns rhsRuns, heap.runSet a = some lhsRuns → heap.runSet b = some rhsRuns →
      ∀ r ∈ lhsRuns.runs, (RunSet.coverage r 0 rhsRuns.runs).isSome = true) := by
  refine ⟨fun answered => (heap.equalsExact_eq_some answered).mp rfl,
    fun answered same => ?_, fun answered => (heap.isSubsetOfExact_eq_some answered).mp rfl,
    fun answered within => ?_, fun lhsRuns rhsRuns lhsFound rhsFound r member => ?_⟩
  · exact absurd ((heap.equalsExact_eq_some answered).mpr same) (by simp)
  · exact absurd ((heap.isSubsetOfExact_eq_some answered).mpr within) (by simp)
  · have left := heap.runSet_denotes lhsFound
    have right := heap.runSet_denotes rhsFound
    rw [RunSet.coverage_zero (left.valid.placed.canonical r member) right.valid]
    rfl

end Heap

end LlvmDsdl.Semantics
