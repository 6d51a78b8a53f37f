import LlvmDsdl.Semantics.RunSet.Compare
import LlvmDsdl.Semantics.RunSet.FixedWidth
import LlvmDsdl.Semantics.RunSet.Pad
import LlvmDsdl.Semantics.RunSet.Repeat

/-!
Contract: what the operations on run sets promise as a whole.

Owns: that the pieces of a difference are disjoint and that a sufficient budget
yields them, and the exactness of sums, paddings, unions, residues, repetitions,
intersections and differences.
-/

namespace LlvmDsdl.Semantics

open Support Support.IntegerMath Library.Progression Library.Rounding Library.Sumset
open Library.SignedArithmetic

/-- `after` adds pairwise disjoint runs inside `zone` to `before`. -/
def EmitsApart (before after : List Run) (zone : Set ℤ) : Prop :=
  ∃ runs, after = before ++ runs ∧
    runs.Pairwise (fun left right => Disjoint left.elements right.elements) ∧
      unionOf runs ⊆ zone

theorem EmitsApart.nothing (out : List Run) (zone : Set ℤ) : EmitsApart out out zone :=
  ⟨[], by simp, .nil, by simp⟩

theorem EmitsApart.trans {first second third : List Run} {left right zone : Set ℤ}
    (earlier : EmitsApart first second left) (later : EmitsApart second third right)
    (apart : Disjoint left right) (leftIn : left ⊆ zone) (rightIn : right ⊆ zone) :
    EmitsApart first third zone := by
  obtain ⟨leftRuns, rfl, leftApart, leftWithin⟩ := earlier
  obtain ⟨rightRuns, rfl, rightApart, rightWithin⟩ := later
  refine ⟨leftRuns ++ rightRuns, by simp, ?_, ?_⟩
  · refine List.pairwise_append.mpr ⟨leftApart, rightApart, fun one oneIn other otherIn => ?_⟩
    exact apart.mono ((subset_unionOf oneIn).trans leftWithin)
      ((subset_unionOf otherIn).trans rightWithin)
  · rw [unionOf_append]
    exact Set.union_subset (leftWithin.trans leftIn) (rightWithin.trans rightIn)

theorem emit_apart {start stride count : ℤ} {out after : List Run} {budget left : ℕ}
    {zone : Set ℤ} (emitted : emit ⟨start, stride, count⟩ out budget = some (after, left))
    (startIn : InInt64 start) (countFits : count ≤ int64Max)
    (within : progression start stride (start + (count - 1) * stride) ⊆ zone) :
    EmitsApart out after zone := by
  unfold emit at emitted
  split at emitted
  · exact absurd emitted (by simp)
  · obtain ⟨run, made, same⟩ := Option.map_eq_some_iff.mp emitted
    obtain ⟨rfl, _⟩ := Prod.mk.inj same
    obtain ⟨_, _, _, _, _, _, elementsEq⟩ := makeRun_eq_some startIn countFits made
    refine ⟨[run], rfl, List.pairwise_singleton _ _, ?_⟩
    simpa [elementsEq] using within

section Difference

variable {r cut : Run} (validR : r.Valid) (validCut : cut.Valid)
  (within : cut.elements ⊆ r.elements)

include validR validCut within

private def bodyClass (r cut : Run) (k : ℤ) : Set ℤ :=
  {v | cut.start ≤ v ∧ v ≤ cut.last ∧ cut.stride ∣ v - (cut.start + k * r.stride)}

omit validCut within in
private theorem bodyClass_disjoint {ratio j k : ℤ} (ratioEq : cut.stride = ratio * r.stride)
    (ordered : j < k) (near : k < j + ratio) {v : ℤ} (left : v ∈ bodyClass r cut j)
    (right : v ∈ bodyClass r cut k) : False := by
  have stridePos : 0 < r.stride := validR.stridePos
  have difference := dvd_sub left.2.2 right.2.2
  have same : v - (cut.start + j * r.stride) - (v - (cut.start + k * r.stride)) =
      (k - j) * r.stride := by ring
  rw [same, ratioEq] at difference
  have divides := Int.dvd_of_mul_dvd_mul_right stridePos.ne' difference
  have := Int.le_of_dvd (by omega) divides
  omega

theorem subtractBody_apart {ratio : ℤ} (ratioEq : cut.stride = ratio * r.stride)
    (many : 2 ≤ cut.count) (remaining : ℕ) :
    ∀ {j : ℤ} {out after : List Run} {budget left : ℕ}, 1 ≤ j → j + remaining = ratio →
      subtractBody r cut remaining j out budget = some (after, left) →
        EmitsApart out after {v | ∃ k, j ≤ k ∧ k < ratio ∧ v ∈ bodyClass r cut k} := by
  obtain ⟨_, lastLe, _, _⟩ := cut_ends validR validCut within
  have stridePos : 0 < r.stride := validR.stridePos
  have lastIn := validR.representable
  have lowerIn := validCut.lower
  have countFits := validCut.countFits
  induction remaining with
  | zero =>
      intro j out after budget left _ _ result
      obtain ⟨rfl, _⟩ := Prod.mk.inj (Option.some.inj result)
      exact EmitsApart.nothing out _
  | succ remaining ih =>
      intro j out after budget left jPos total result
      push_cast at total
      rw [subtractBody_step validR validCut within ratioEq many jPos (by omega)] at result
      obtain ⟨⟨middle, rest⟩, emitted, remainder⟩ := Option.bind_eq_some_iff.mp result
      obtain ⟨above, reached, classEnd, inside⟩ :=
        class_bounds validCut stridePos ratioEq many jPos (by omega)
      have piece : EmitsApart out middle (bodyClass r cut j) := by
        refine emit_apart emitted ⟨by omega, by omega⟩ (by omega) fun v member => ?_
        rw [classEnd] at member
        exact ⟨above.trans member.1, member.2.1.trans inside, member.2.2⟩
      have later := ih (by omega) (by omega) remainder
      refine piece.trans later ?_ (fun v member => ⟨j, le_rfl, by omega, member⟩)
        fun v ⟨k, more, below, member⟩ => ⟨k, by omega, below, member⟩
      refine Set.disjoint_left.mpr fun v inPiece inLater => ?_
      obtain ⟨k, more, below, member⟩ := inLater
      exact bodyClass_disjoint validR ratioEq (by omega) (by omega) inPiece member

/-- **The pieces of a difference are disjoint.** -/
theorem subtractSubProgression_apart {budget left : ℕ} {pieces : List Run}
    (result : subtractSubProgression r cut budget = some (pieces, left)) :
    pieces.Pairwise fun left right => Disjoint left.elements right.elements := by
  obtain ⟨startLe, lastLe, startOn, lastOn⟩ := cut_ends validR validCut within
  have stridePos : 0 < r.stride := validR.stridePos
  have lastIn := validR.representable
  have lowerR := validR.lower
  have countFits := validR.countFits
  have cutOrdered := validCut.start_le_last
  unfold subtractSubProgression at result
  dsimp only at result
  obtain ⟨⟨afterBody, bodyBudget⟩, bodyResult, tailResult⟩ := Option.bind_eq_some_iff.mp result
  obtain ⟨⟨afterHead, headBudget⟩, headResult, bodyResult⟩ := Option.bind_eq_some_iff.mp bodyResult
  have head : EmitsApart [] afterHead {v | v < cut.start} := by
    split at headResult
    · have steps := validR.tdiv_stride_lt_count (by omega : 0 ≤ cut.start - r.start) (by omega)
      refine emit_apart headResult ⟨lowerR, by omega⟩ (by omega) fun v member => ?_
      obtain ⟨steps, stepsEq⟩ := startOn
      have headEnd : r.start + ((cut.start - r.start).tdiv r.stride - 1) * r.stride =
          cut.start - r.stride := by
        rw [stepsEq, Int.mul_tdiv_cancel_left _ (ne_of_gt stridePos), sub_mul, one_mul,
          mul_comm steps, ← stepsEq]
        omega
      rw [headEnd] at member
      have := member.2.1
      show v < cut.start
      omega
    · obtain ⟨rfl, _⟩ := Prod.mk.inj (Option.some.inj headResult)
      exact EmitsApart.nothing _ _
  have body : EmitsApart afterHead afterBody {v | cut.start ≤ v ∧ v ≤ cut.last} := by
    split at bodyResult
    · rename_i split
      by_cases many : 2 ≤ cut.count
      · have strideEq : cut.stride = cut.stride.tdiv r.stride * r.stride :=
          (Int.tdiv_mul_cancel (stride_dvd_cut validR validCut within many)).symm
        obtain ⟨runs, same, apart, inside⟩ := subtractBody_apart validR validCut within strideEq
          many _ le_rfl (by omega) bodyResult
        refine ⟨runs, same, apart, inside.trans ?_⟩
        rintro v ⟨k, _, _, member⟩
        exact ⟨member.1, member.2.1⟩
      · have one : cut.count = 1 := by have := validCut.countPos; omega
        have single := validCut.canonical one
        rw [single, Int.tdiv_eq_ediv_of_nonneg (by omega)] at split
        have := Int.ediv_le_self r.stride (show (0 : ℤ) ≤ 1 by omega)
        have := Int.ediv_le_self (a := 1) r.stride (by omega)
        omega
    · obtain ⟨rfl, _⟩ := Prod.mk.inj (Option.some.inj bodyResult)
      exact EmitsApart.nothing _ _
  have tail : EmitsApart afterBody pieces {v | cut.last < v} := by
    cases sum : checkedAdd cut.last r.stride with
    | none =>
        rw [sum] at tailResult
        obtain ⟨rfl, _⟩ := Prod.mk.inj (Option.some.inj tailResult)
        exact EmitsApart.nothing _ _
    | some afterCut =>
        obtain ⟨inRange, rfl⟩ := checkedAdd_eq_some.mp sum
        rw [sum] at tailResult
        dsimp only at tailResult
        split at tailResult
        · have steps := validR.tdiv_stride_lt_count
            (by omega : 0 ≤ r.last - (cut.last + r.stride)) (by omega)
          refine emit_apart tailResult inRange (by omega) fun v member => ?_
          have := member.1
          show cut.last < v
          omega
        · obtain ⟨rfl, _⟩ := Prod.mk.inj (Option.some.inj tailResult)
          exact EmitsApart.nothing _ _
  have front : EmitsApart [] afterBody {v | v ≤ cut.last} := head.trans body
    (Set.disjoint_left.mpr fun v below inside => by
      have : v < cut.start := below
      have := inside.1
      omega)
    (fun v below => (le_of_lt below).trans cutOrdered) fun v inside => inside.2
  have whole : EmitsApart [] pieces Set.univ := front.trans tail
    (Set.disjoint_left.mpr fun v below above => by
      have : v ≤ cut.last := below
      have : cut.last < v := above
      omega)
    (Set.subset_univ _) (Set.subset_univ _)
  obtain ⟨runs, rfl, apart, _⟩ := whole
  simpa using apart

omit validR validCut within in
theorem emit_isSome (start : ℤ) {stride count : ℤ} {budget : ℕ} (paid : 0 < budget) (countPos : 1 ≤ count)
    (stridePos : 1 ≤ stride) (span : (count - 1) * stride ≤ int64Max)
    (last : start + (count - 1) * stride ≤ int64Max) (out : List Run) :
    ∃ after, emit ⟨start, stride, count⟩ out budget = some (after, budget - 1) := by
  obtain ⟨run, made⟩ := makeRun_isSome countPos stridePos span last
  exact ⟨out ++ [run], by rw [emit, if_neg (by omega), made]; rfl⟩

theorem subtractBody_isSome {ratio : ℤ} (ratioEq : cut.stride = ratio * r.stride)
    (many : 2 ≤ cut.count) (remaining : ℕ) :
    ∀ {j : ℤ} {budget : ℕ} (out : List Run), 1 ≤ j → j + remaining = ratio → remaining ≤ budget →
      ∃ after, subtractBody r cut remaining j out budget = some (after, budget - remaining) := by
  obtain ⟨_, lastLe, _, _⟩ := cut_ends validR validCut within
  have stridePos : 0 < r.stride := validR.stridePos
  have lastIn := validR.representable
  induction remaining with
  | zero => intro j budget out _ _ _; exact ⟨out, rfl⟩
  | succ remaining ih =>
      intro j budget out jPos total enough
      push_cast at total
      obtain ⟨above, reached, classEnd, inside⟩ :=
        class_bounds validCut stridePos ratioEq many jPos (by omega)
      have span := validCut.last_sub_start_le
      obtain ⟨middle, emitted⟩ := emit_isSome (cut.start + j * r.stride)
        (show 0 < budget by omega) (show 1 ≤ cut.count - 1 by omega) validCut.stridePos
        (by omega) (by omega) out
      obtain ⟨after, rest⟩ := @ih (j + 1) (budget - 1) middle
        (by omega) (by omega) (by omega)
      refine ⟨after, ?_⟩
      rw [subtractBody_step validR validCut within ratioEq many jPos (by omega), emitted,
        Option.bind_some, rest, Nat.sub_sub, Nat.add_comm 1]

/-- **A difference refuses only for want of budget**: one piece for each skipped class, one
before the cut and one after it. -/
theorem subtractSubProgression_isSome {budget : ℕ}
    (enough : (cut.stride.tdiv r.stride).toNat + 2 ≤ budget) :
    ∃ pieces left, subtractSubProgression r cut budget = some (pieces, left) := by
  obtain ⟨startLe, lastLe, startOn, lastOn⟩ := cut_ends validR validCut within
  have stridePos : 0 < r.stride := validR.stridePos
  have lastIn := validR.representable
  have span := validR.last_sub_start_le
  have cutOrdered := validCut.start_le_last
  have head : ∃ out left, (if cut.start > r.start then
      emit ⟨r.start, r.stride, (cut.start - r.start).tdiv r.stride⟩ [] budget
      else some ([], budget)) = some (out, left) ∧ budget - 1 ≤ left := by
    split
    · obtain ⟨steps, stepsEq⟩ := startOn
      have stepsIs : (cut.start - r.start).tdiv r.stride = steps := by
        rw [stepsEq, Int.mul_tdiv_cancel_left _ (ne_of_gt stridePos)]
      have stepsPos : 0 < steps := pos_of_mul_pos_right (show 0 < r.stride * steps by omega)
        stridePos.le
      have reach : (steps - 1) * r.stride = cut.start - r.start - r.stride := by
        rw [stepsEq]
        ring
      obtain ⟨out, emitted⟩ := emit_isSome r.start (show 0 < budget by omega)
        (show 1 ≤ steps by omega) validR.stridePos (by omega) (by omega) []
      exact ⟨out, budget - 1, by rw [stepsIs, emitted], le_rfl⟩
    · exact ⟨[], budget, rfl, by omega⟩
  obtain ⟨headOut, headLeft, headEq, headBudget⟩ := head
  have body : ∃ out left, (if cut.stride.tdiv r.stride > 1 ∧ cut.count ≥ 1 then
      subtractBody r cut (cut.stride.tdiv r.stride - 1).toNat 1 headOut headLeft
      else some (headOut, headLeft)) = some (out, left) ∧ 1 ≤ left := by
    split
    · rename_i split
      by_cases many : 2 ≤ cut.count
      · have strideEq : cut.stride = cut.stride.tdiv r.stride * r.stride :=
          (Int.tdiv_mul_cancel (stride_dvd_cut validR validCut within many)).symm
        obtain ⟨out, bodyEq⟩ := @subtractBody_isSome r cut validR validCut within _ strideEq many
          (cut.stride.tdiv r.stride - 1).toNat 1 headLeft headOut le_rfl (by omega) (by omega)
        exact ⟨out, _, bodyEq, by omega⟩
      · have one : cut.count = 1 := by have := validCut.countPos; omega
        have single := validCut.canonical one
        rw [single, Int.tdiv_eq_ediv_of_nonneg (by omega)] at split
        have := Int.ediv_le_self r.stride (show (0 : ℤ) ≤ 1 by omega)
        omega
    · exact ⟨headOut, headLeft, rfl, by omega⟩
  obtain ⟨bodyOut, bodyLeft, bodyEq, bodyBudget⟩ := body
  unfold subtractSubProgression
  dsimp only
  rw [headEq, Option.bind_some]
  dsimp only
  rw [bodyEq, Option.bind_some]
  cases sum : checkedAdd cut.last r.stride with
  | none => exact ⟨bodyOut, bodyLeft, rfl⟩
  | some afterCut =>
      obtain ⟨inRange, rfl⟩ := checkedAdd_eq_some.mp sum
      dsimp only
      split
      · have room : ((r.last - (cut.last + r.stride)).tdiv r.stride) * r.stride ≤
            r.last - (cut.last + r.stride) := by
          rw [Int.tdiv_eq_ediv_of_nonneg (by omega)]
          exact Int.ediv_mul_le _ stridePos.ne'
        have nonneg := Int.tdiv_nonneg (show 0 ≤ r.last - (cut.last + r.stride) by omega)
          stridePos.le
        obtain ⟨out, emitted⟩ := emit_isSome (cut.last + r.stride)
          (show 0 < bodyLeft by omega)
          (show 1 ≤ (r.last - (cut.last + r.stride)).tdiv r.stride + 1 by omega)
          validR.stridePos (by rw [add_sub_cancel_right]; omega)
          (by rw [add_sub_cancel_right]; omega) bodyOut
        exact ⟨out, _, emitted⟩
      · exact ⟨bodyOut, bodyLeft, rfl⟩

end Difference

/-- **Intersections and differences are exact**: in the widths of the source, with no overflow. -/
theorem runAlgebra_exact {p q : Run} (validP : p.Valid) (validQ : q.Valid) :
    (∃ common, intersectRuns128 p q = some (common, false) ∧
      (common = none → p.elements ∩ q.elements = ∅) ∧
      ∀ run, common = some run → run.Valid ∧ run.elements = p.elements ∩ q.elements) ∧
    ∀ cut : Run, cut.Valid → cut.elements ⊆ p.elements → ∀ budget : ℕ,
      (∃ result, subtractSubProgression64 p cut budget = some result ∧
        ((cut.stride.tdiv p.stride).toNat + 2 ≤ budget → result ≠ none) ∧
        ∀ pieces left, result = some (pieces, left) →
          (∀ piece ∈ pieces, piece.Valid) ∧
          (pieces.Pairwise fun one other => Disjoint one.elements other.elements) ∧
          {v | ∃ piece ∈ pieces, v ∈ piece.elements} = p.elements \ cut.elements) := by
  constructor
  · obtain ⟨common, found, exact⟩ := intersectRuns_spec validP validQ
    exact ⟨common, by rw [intersectRuns128_eq validP validQ, found], exact.empty, exact.exact⟩
  · intro cut validCut within budget
    refine ⟨_, subtractSubProgression64_eq validP validCut within budget, ?_, ?_⟩
    · intro enough
      obtain ⟨pieces, left, found⟩ :=
        subtractSubProgression_isSome validP validCut within enough
      rw [found]
      simp
    · intro pieces left found
      obtain ⟨valid, union⟩ := subtractSubProgression_spec validP validCut within found
      exact ⟨valid, subtractSubProgression_apart validP validCut within found, union⟩

/-- Strides 6 and 10 meet in the class of 24 modulo 30. -/
theorem runAlgebra_exact_coprime :
    ∃ common, intersectRuns128 ⟨0, 6, 20⟩ ⟨4, 10, 12⟩ = some (common, false) ∧
      ∀ run, common = some run → run.elements =
        (⟨0, 6, 20⟩ : Run).elements ∩ (⟨4, 10, 12⟩ : Run).elements := by
  have validP : (⟨0, 6, 20⟩ : Run).Valid :=
    ⟨by decide, by decide, by decide, by decide, by decide, by decide, by decide⟩
  have validQ : (⟨4, 10, 12⟩ : Run).Valid :=
    ⟨by decide, by decide, by decide, by decide, by decide, by decide, by decide⟩
  obtain ⟨common, found, _, exact⟩ := (runAlgebra_exact validP validQ).1
  exact ⟨common, found, fun run same => (exact run same).2⟩

example : (intersectRuns ⟨0, 6, 20⟩ ⟨4, 10, 12⟩).1 = some ⟨24, 30, 4⟩ := by decide

namespace RunSet

/-- The element-wise padding: alignments up to one leave a value as it is. -/
def paddedValue (alignment value : ℤ) : ℤ :=
  if alignment ≤ 1 then value else roundUp value alignment

/-- **Sums, paddings, unions and residues are exact** whenever they answer. -/
theorem operations_exact {a b : RunSet} (validA : a.Valid) (validB : b.Valid) :
    (∀ out, sum a b = some out →
      out.Valid ∧ out.elements = {v | ∃ x ∈ a.elements, ∃ y ∈ b.elements, x + y = v}) ∧
    (∀ alignment out, a.paddedTo alignment = some out →
      out.Valid ∧ out.elements = paddedValue alignment '' a.elements) ∧
    (∀ out, unite a b = some out → out.Valid ∧ out.elements = a.elements ∪ b.elements) ∧
    ∀ divisor result, a.residues divisor = some result →
      0 < divisor ∧ result.toSet = (· % divisor) '' a.elements := by
  refine ⟨fun out summed => ?_, fun alignment out padded => ?_, fun out united => ?_,
    fun divisor result found => ?_⟩
  · have spec := sum_spec validA validB summed
    exact ⟨spec.valid, spec.elements⟩
  · by_cases trivial : alignment ≤ 1
    · rw [paddedTo, if_pos trivial] at padded
      obtain rfl := Option.some.inj padded
      have same : paddedValue alignment = id := funext fun value => if_pos trivial
      exact ⟨validA, by rw [same, Set.image_id]⟩
    · have spec := paddedTo_spec validA (by omega) padded
      have same : paddedValue alignment = fun value => roundUp value alignment := by
        funext value
        rw [paddedValue, if_neg trivial]
      exact ⟨spec.valid, same ▸ spec.elements⟩
  · have spec := unite_spec validA validB united
    exact ⟨spec.valid, spec.elements⟩
  · have positive : 0 < divisor := by
      by_contra small
      rw [residues, if_pos (by omega)] at found
      exact absurd found (by simp)
    exact ⟨positive, residues_spec validA found⟩

/-- A run of three added to a pair. -/
theorem operations_exact_pair : ∃ out,
    sum ⟨[⟨0, 8, 3⟩]⟩ ⟨[⟨1, 3, 2⟩]⟩ = some out ∧ out.elements =
      {v | ∃ x ∈ elements ⟨[⟨0, 8, 3⟩]⟩, ∃ y ∈ elements ⟨[⟨1, 3, 2⟩]⟩, x + y = v} := by
  have validA : Valid ⟨[⟨0, 8, 3⟩]⟩ := valid_single_run
    ⟨by decide, by decide, by decide, by decide, by decide, by decide, by decide⟩
  have validB : Valid ⟨[⟨1, 3, 2⟩]⟩ := valid_single_run
    ⟨by decide, by decide, by decide, by decide, by decide, by decide, by decide⟩
  have answers : (sum ⟨[⟨0, 8, 3⟩]⟩ ⟨[⟨1, 3, 2⟩]⟩).isSome = true := by decide +kernel
  obtain ⟨out, summed⟩ := Option.isSome_iff_exists.mp answers
  exact ⟨out, summed, ((operations_exact validA validB).1 out summed).2⟩

/-- **Repetitions are exact**, however early the iteration stops. -/
theorem repetitions_exact {set : RunSet} (valid : set.Valid) {count : ℤ}
    (countFits : count ≤ int64Max) :
    (∀ out, set.repeated count = some out →
      out.Valid ∧ out.elements = sums set.elements count.toNat) ∧
    ∀ out, set.repeatRange count = some out →
      out.Valid ∧ out.elements = {v | ∃ j ≤ count.toNat, v ∈ sums set.elements j} := by
  constructor
  · intro out found
    have spec := repeated_spec valid found
    exact ⟨spec.valid, spec.elements⟩
  · intro out found
    have spec := repeatRange_spec valid countFits found
    exact ⟨spec.valid, spec.elements⟩

/-- A thousand draws from a run of three. -/
theorem repetitions_exact_thousand : ∃ out, repeated ⟨[⟨1, 8, 3⟩]⟩ 1000 = some out ∧
    out.elements = sums (elements ⟨[⟨1, 8, 3⟩]⟩) 1000 := by
  have valid : Valid ⟨[⟨1, 8, 3⟩]⟩ := valid_single_run
    ⟨by decide, by decide, by decide, by decide, by decide, by decide, by decide⟩
  have answers : (repeated ⟨[⟨1, 8, 3⟩]⟩ 1000).isSome = true := by decide +kernel
  obtain ⟨out, found⟩ := Option.isSome_iff_exists.mp answers
  exact ⟨out, found,
    ((repetitions_exact valid (show (1000 : ℤ) ≤ int64Max by decide)).1 out found).2⟩

end RunSet

end LlvmDsdl.Semantics
