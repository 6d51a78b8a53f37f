import LlvmDsdl.Library.Rounding
import LlvmDsdl.Semantics.RunSet.Sum

/-!
Contract: padding of run sets.

Owns: `RunSet::paddedTo`, which pads a run as a whole when the alignment divides
its stride and class by class otherwise, and the set it denotes.
-/

namespace LlvmDsdl.Semantics

open Support Support.IntegerMath Library.Progression Library.Rounding Run

namespace RunSet

/-- The least multiple not below `v`; a negative `v` rounds toward zero. -/
def padUp (v alignment : ℤ) : Option ℤ :=
  let rem := v.tmod alignment
  if rem = 0 then some v
  else if v > 0 then checkedAdd v (alignment - rem)
  else some (v - rem)

/-- The classes of `r` from `j` on, each padded as a whole. -/
def padClasses (r : Run) (alignment period : ℤ) : ℕ → ℤ → Option (List Run)
  | 0, _ => some []
  | remaining + 1, j =>
      (checkedMultiply j r.stride).bind fun classOffset =>
        (checkedAdd r.start classOffset).bind fun classStart =>
          if classStart > r.last then some []
          else
            let n := (r.last - classStart).tdiv period + 1
            (padUp classStart alignment).bind fun s =>
              (makeRun s period n).bind fun piece =>
                (padClasses r alignment period remaining (j + 1)).map (piece :: ·)

/-- The padded elements of one run as pieces that may overlap. -/
def padPieces (r : Run) (alignment : ℤ) (budget : ℕ) : Option (List Run) :=
  if r.stride.tmod alignment = 0 then
    (padUp r.start alignment).bind fun s =>
      (makeRun s r.stride r.count).map fun piece => [piece]
  else
    (checkedMultiply (r.stride.tdiv (stdGcd r.stride alignment)) alignment).bind fun period =>
      let classes := period.tdiv r.stride
      if classes > budget then none else padClasses r alignment period classes.toNat 0

/-- `RunSet::paddedTo`. -/
def paddedTo (set : RunSet) (alignment : ℤ) : Option RunSet :=
  if alignment ≤ 1 then some set
  else
    (set.runs.foldlM (fun (state : List Run × ℕ) r =>
      (padPieces r alignment state.2).bind fun pieces => placePieces state.1 state.2 pieces)
      ([], kOpBudget)).map fun (runs, _) => ⟨coalesce runs⟩

theorem padUp_spec {v alignment padded : ℤ} (positive : 0 < alignment) (inRange : InInt64 v)
    (found : padUp v alignment = some padded) :
    padded = roundUp v alignment ∧ InInt64 padded := by
  unfold padUp at found
  dsimp only at found
  split at found
  · rename_i exact
    obtain rfl := Option.some.inj found
    exact ⟨(roundUp_of_dvd (Int.dvd_of_tmod_eq_zero exact)).symm, inRange⟩
  · rename_i inexact
    split at found
    · rename_i above
      obtain ⟨paddedIn, rfl⟩ := checkedAdd_eq_some.mp found
      exact ⟨by rw [← neg_emod_eq_sub_tmod above.le positive inexact, roundUp], paddedIn⟩
    · rename_i below
      obtain rfl := Option.some.inj found
      have rem : -v.tmod alignment = -v % alignment := by
        rw [← Int.neg_tmod, Int.tmod_eq_emod_of_nonneg (by omega)]
      have lower := Int.emod_nonneg (-v) (ne_of_gt positive)
      have upper : -v % alignment ≤ -v := by
        have split := Int.emod_add_mul_ediv (-v) alignment
        have := mul_nonneg positive.le (Int.ediv_nonneg (by omega : 0 ≤ -v) positive.le)
        omega
      have minIn := inRange.1
      have maxPos := int64Max_pos
      exact ⟨by rw [sub_eq_add_neg, rem, roundUp], by omega, by omega⟩

theorem image_roundUp_progression {alignment stride : ℤ} (aligned : alignment ∣ stride)
    (start last : ℤ) :
    (roundUp · alignment) '' progression start stride last =
      progression (roundUp start alignment) stride (roundUp start alignment + (last - start)) := by
  have shift : ∀ v, stride ∣ v - start →
      roundUp v alignment = v + (roundUp start alignment - start) := by
    intro v onIt
    have := roundUp_add_of_dvd start (aligned.trans onIt)
    rw [add_sub_cancel] at this
    omega
  ext v
  constructor
  · rintro ⟨w, ⟨lower, upper, onIt⟩, rfl⟩
    show roundUp w alignment ∈ _
    rw [shift w onIt]
    exact ⟨by omega, by omega, by rwa [show w + (roundUp start alignment - start) -
      roundUp start alignment = w - start by ring]⟩
  · rintro ⟨lower, upper, onIt⟩
    have back : v - (roundUp start alignment - start) - start = v - roundUp start alignment := by
      ring
    refine ⟨v - (roundUp start alignment - start), ⟨by omega, by omega, back ▸ onIt⟩, ?_⟩
    show roundUp (v - (roundUp start alignment - start)) alignment = v
    rw [shift _ (back ▸ onIt)]
    ring

section Padding

variable {r : Run} {alignment : ℤ} (valid : r.Valid) (positive : 1 < alignment)

include valid positive

/-- Padding the classes from `j` on covers the padded elements of these classes. -/
theorem padClasses_spec {period count : ℤ} (periodEq : period = count * r.stride)
    (countPos : 0 < count) (aligned : alignment ∣ period) (remaining : ℕ) :
    ∀ {j : ℤ} {pieces : List Run}, 0 ≤ j → j + remaining = count →
      padClasses r alignment period remaining j = some pieces →
        (∀ piece ∈ pieces, piece.Valid) ∧ unionOf pieces = (roundUp · alignment) ''
          {v | ∃ k, j ≤ k ∧ k < count ∧
            v ∈ progression (r.start + k * r.stride) period r.last} := by
  have stridePos : 0 < r.stride := valid.stridePos
  have periodPos : 0 < period := periodEq ▸ mul_pos countPos stridePos
  induction remaining with
  | zero =>
      intro j pieces _ total found
      obtain rfl := Option.some.inj found
      refine ⟨by simp, ?_⟩
      rw [unionOf_nil, eq_comm, Set.image_eq_empty]
      refine Set.eq_empty_of_forall_notMem ?_
      rintro v ⟨k, above, below, _⟩
      push_cast at total
      omega
  | succ remaining ih =>
      intro j pieces nonneg total found
      push_cast at total
      obtain ⟨_, multiplied, found⟩ := Option.bind_eq_some_iff.mp found
      obtain ⟨_, rfl⟩ := checkedMultiply_eq_some.mp multiplied
      obtain ⟨_, added, found⟩ := Option.bind_eq_some_iff.mp found
      obtain ⟨startIn, rfl⟩ := checkedAdd_eq_some.mp added
      have offsetNonneg : 0 ≤ j * r.stride := mul_nonneg nonneg stridePos.le
      split at found
      · rename_i past
        obtain rfl := Option.some.inj found
        refine ⟨by simp, ?_⟩
        rw [unionOf_nil, eq_comm, Set.image_eq_empty]
        refine Set.eq_empty_of_forall_notMem ?_
        rintro v ⟨k, above, _, lower, upper, _⟩
        have := mul_le_mul_of_nonneg_right above stridePos.le
        omega
      · rename_i inside
        obtain ⟨s, padded, found⟩ := Option.bind_eq_some_iff.mp found
        obtain ⟨rfl, sIn⟩ := padUp_spec (by omega) startIn padded
        obtain ⟨piece, made, found⟩ := Option.bind_eq_some_iff.mp found
        obtain ⟨rest, later, rfl⟩ := Option.map_eq_some_iff.mp found
        obtain ⟨restValid, restUnion⟩ := ih (by omega) (by omega) later
        have distance := valid.last_sub_start_le
        rw [Int.tdiv_eq_ediv_of_nonneg (by omega)] at made
        have countFits : (r.last - (r.start + j * r.stride)) / period + 1 ≤ int64Max := by
          have maxPos := int64Max_pos
          have periodLarge : 2 ≤ period := positive.trans_le (Int.le_of_dvd periodPos aligned)
          have doubled := mul_le_mul_of_nonneg_left periodLarge int64Max_pos.le
          have : (r.last - (r.start + j * r.stride)) / period < int64Max :=
            Int.ediv_lt_of_lt_mul periodPos (by omega)
          omega
        obtain ⟨pieceValid, _, _, _, _, _, elementsEq⟩ := makeRun_eq_some sIn countFits made
        have trimmed := progression_trim periodPos (r.start + j * r.stride) r.last
        have pieceEq : piece.elements = (roundUp · alignment) ''
            progression (r.start + j * r.stride) period r.last := by
          rw [elementsEq, ← trimmed, image_roundUp_progression aligned]
          congr 1
          ring
        refine ⟨fun other member => ?_, ?_⟩
        · rcases List.mem_cons.mp member with rfl | inRest
          · exact pieceValid
          · exact restValid other inRest
        · rw [unionOf_cons, pieceEq, restUnion, ← Set.image_union]
          congr 1
          ext v
          constructor
          · rintro (here | ⟨k, above, below, member⟩)
            · exact ⟨j, le_rfl, by omega, here⟩
            · exact ⟨k, by omega, below, member⟩
          · rintro ⟨k, above, below, member⟩
            rcases above.lt_or_eq with more | rfl
            · exact Or.inr ⟨k, by omega, below, member⟩
            · exact Or.inl member

/-- **Padding one run is exact.** -/
theorem padPieces_spec {budget : ℕ} {pieces : List Run}
    (found : padPieces r alignment budget = some pieces) :
    (∀ piece ∈ pieces, piece.Valid) ∧
      unionOf pieces = (roundUp · alignment) '' r.elements := by
  have stridePos : 0 < r.stride := valid.stridePos
  have startIn : InInt64 r.start :=
    ⟨valid.lower, valid.start_le_last.trans valid.representable⟩
  unfold padPieces at found
  split at found
  · rename_i uniform
    obtain ⟨s, padded, found⟩ := Option.bind_eq_some_iff.mp found
    obtain ⟨rfl, sIn⟩ := padUp_spec (by omega) startIn padded
    obtain ⟨piece, made, rfl⟩ := Option.map_eq_some_iff.mp found
    obtain ⟨pieceValid, _, _, _, _, _, elementsEq⟩ := makeRun_eq_some sIn valid.countFits made
    refine ⟨by simpa using pieceValid, ?_⟩
    rw [unionOf_cons, unionOf_nil, Set.union_empty, elementsEq, valid.elements_eq,
      image_roundUp_progression (Int.dvd_of_tmod_eq_zero uniform), last, add_sub_cancel_left]
  · obtain ⟨period, multiplied, found⟩ := Option.bind_eq_some_iff.mp found
    obtain ⟨_, rfl⟩ := checkedMultiply_eq_some.mp multiplied
    obtain ⟨_, found⟩ := Option.ite_none_left_eq_some.mp found
    have gcdPos := stdGcd_pos stridePos alignment
    obtain ⟨cofactor, cofactorEq⟩ := stdGcd_dvd_right r.stride alignment
    have strideEq : r.stride.tdiv (stdGcd r.stride alignment) * stdGcd r.stride alignment =
        r.stride :=
      Int.tdiv_mul_cancel (stdGcd_dvd_left r.stride alignment)
    have cofactorPos : 0 < cofactor :=
      pos_of_mul_pos_right (cofactorEq ▸ (by omega : (0 : ℤ) < alignment)) gcdPos.le
    -- The period is the least common multiple, `cofactor` strides long.
    have periodEq : r.stride.tdiv (stdGcd r.stride alignment) * alignment =
        cofactor * r.stride := by
      calc r.stride.tdiv (stdGcd r.stride alignment) * alignment
          = r.stride.tdiv (stdGcd r.stride alignment) * (stdGcd r.stride alignment * cofactor) := by
            rw [← cofactorEq]
        _ = cofactor * r.stride := by rw [← mul_assoc, strideEq, mul_comm]
    have classesEq : (r.stride.tdiv (stdGcd r.stride alignment) * alignment).tdiv r.stride =
        cofactor := by
      rw [periodEq, Int.mul_tdiv_cancel _ (ne_of_gt stridePos)]
    rw [classesEq] at found
    obtain ⟨piecesValid, union⟩ := padClasses_spec valid positive periodEq cofactorPos
      (dvd_mul_left alignment _) cofactor.toNat le_rfl (by omega) found
    refine ⟨piecesValid, union.trans (congrArg _ (Set.ext fun v => ?_))⟩
    rw [valid.elements_eq, periodEq]
    exact (progression_classes cofactorPos stridePos).symm

end Padding

/-- **Padding is exact**, whether runs pad as a whole or by classes. -/
theorem paddedTo_spec {set out : RunSet} (valid : set.Valid) {alignment : ℤ}
    (positive : 0 < alignment) (padded : set.paddedTo alignment = some out) :
    out.Denotes ((roundUp · alignment) '' set.elements) := by
  unfold paddedTo at padded
  split at padded
  · obtain rfl := Option.some.inj padded
    have one : alignment = 1 := by omega
    have same : ∀ v : ℤ, roundUp v alignment = v := fun v =>
      roundUp_of_dvd (one ▸ one_dvd v)
    exact ⟨valid, by simp [same]⟩
  · rename_i large
    obtain ⟨⟨runs, left⟩, folded, rfl⟩ := Option.map_eq_some_iff.mp padded
    have perRun : ∀ r ∈ set.runs, ∀ {runs after : List Run} {budget left : ℕ}, Placed runs →
        ((padPieces r alignment budget).bind fun pieces => placePieces runs budget pieces) =
          some (after, left) →
        Placed after ∧ unionOf after = unionOf runs ∪ (roundUp · alignment) '' r.elements := by
      intro r member runs after budget left placed result
      obtain ⟨pieces, made, result⟩ := Option.bind_eq_some_iff.mp result
      obtain ⟨piecesValid, union⟩ :=
        padPieces_spec (valid.placed.canonical r member) (by omega) made
      exact union ▸ placePieces_spec pieces placed piecesValid result
    obtain ⟨placed, union⟩ := foldlM_places set.runs perRun placed_nil folded
    obtain ⟨afterPlaced, afterUnion⟩ := coalesce_spec placed
    have elementsEq : unionOf (coalesce runs) = (roundUp · alignment) '' set.elements := by
      rw [afterUnion, union, unionOf_nil, Set.empty_union]
      ext v
      constructor
      · rintro ⟨r, member, w, inRun, rfl⟩
        exact ⟨w, ⟨r, member, inRun⟩, rfl⟩
      · rintro ⟨w, ⟨r, member, inRun⟩, rfl⟩
        exact ⟨r, member, w, inRun, rfl⟩
    have inhabited := valid.elements_nonempty.image (roundUp · alignment)
    exact ⟨valid_of_placed afterPlaced (elementsEq ▸ inhabited), elementsEq⟩

end RunSet

end LlvmDsdl.Semantics
