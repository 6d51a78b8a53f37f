import LlvmDsdl.Semantics.BitLengthSet.Denotation

/-!
Contract: the symbolic bounds of a bit-length expression.

Owns: `min()`, the shared `summary()` walk behind `max()` and
`saturationReachable()`, and the theorem that the bounds are the least and the
greatest denoted value, at the clamp included.

Also owns what an unset saturation flag promises: no exact value passes the
maximum, so the saturating and the ordinary denotation agree.
-/

namespace LlvmDsdl.Semantics

open Support Support.IntegerMath Library.PostOrder Library.Rounding Library.Sumset

/-- `{maximum, saturates}` of one node. -/
structure Summary where
  maximum : ℤ := 0
  saturates : Bool := false
  deriving DecidableEq, Inhabited

namespace Node

def minStep : Node → (ℕ → ℤ) → ℤ
  | leaf values, _ => values.front 0
  | add lhs rhs, memo => saturatingAddNonNegative (memo lhs) (memo rhs)
  | union lhs rhs, memo => min (memo lhs) (memo rhs)
  | pad lhs param, memo => saturatingRoundUpToMultipleNonNegative (memo lhs) (max 1 param)
  | repeated lhs param, memo => saturatingMultiplyNonNegative (memo lhs) (max 0 param)
  | repeatRange _ _, _ => 0

/-- `Repeat` and `RepeatRange` share one case: a zero count forgets the operand. -/
def repeatSummary (child : Summary) (param : ℤ) : Summary :=
  let count := max 0 param
  if count = 0 then {}
  else
    match checkedMultiply child.maximum count with
    | some maximum => { maximum, saturates := child.saturates }
    | none => { maximum := int64Max, saturates := true }

def summaryStep : Node → (ℕ → Summary) → Summary
  | leaf values, _ => { maximum := values.back 0 }
  | union lhs rhs, memo =>
      { maximum := max (memo lhs).maximum (memo rhs).maximum
        saturates := (memo lhs).saturates || (memo rhs).saturates }
  | add lhs rhs, memo =>
      match checkedAdd (memo lhs).maximum (memo rhs).maximum with
      | some maximum => { maximum, saturates := (memo lhs).saturates || (memo rhs).saturates }
      | none => { maximum := int64Max, saturates := true }
  | pad lhs param, memo =>
      let child := memo lhs
      let a := max 1 param
      let rem := child.maximum.tmod a
      if rem = 0 then { maximum := child.maximum, saturates := child.saturates }
      else
        match checkedAdd child.maximum (a - rem) with
        | some maximum => { maximum, saturates := child.saturates }
        | none => { maximum := int64Max, saturates := true }
  | repeated lhs param, memo => repeatSummary (memo lhs) param
  | repeatRange lhs param, memo => repeatSummary (memo lhs) param

end Node

theorem clampSum_monoLeft (y : ℤ) : Monotone fun x => clampSum x y := fun _ _ ordered =>
  clamp_mono int64Max (Int.add_le_add_right ordered y)

theorem clampSum_monoRight (x : ℤ) : Monotone (clampSum x) := fun _ _ ordered =>
  clamp_mono int64Max (Int.add_le_add_left ordered x)

theorem iterate_clampSum {value : ℤ} (nonneg : 0 ≤ value) (count : ℕ) :
    (fun x => clampSum x value)^[count] 0 = clamp int64Max (count * value) := by
  induction count with
  | zero => simp [clamp, int64Max_pos.le]
  | succ count ih =>
      have productNonneg : 0 ≤ (count : ℤ) * value := mul_nonneg (Int.natCast_nonneg count) nonneg
      rw [Function.iterate_succ_apply', ih, succ_mul_cast]
      simp only [clampSum, clamp]
      omega

theorem isLeast_clampSums {s : Set ℤ} {least : ℤ} (isLeast : IsLeast s least) (nonneg : 0 ≤ least)
    (count : ℕ) :
    IsLeast (clampSums s count) (clamp int64Max (count * least)) :=
  iterate_clampSum nonneg count ▸
    isLeast_foldSums clampSum_monoLeft clampSum_monoRight 0 isLeast count

theorem isGreatest_clampSums {s : Set ℤ} {greatest : ℤ} (isGreatest : IsGreatest s greatest)
    (nonneg : 0 ≤ greatest) (count : ℕ) :
    IsGreatest (clampSums s count) (clamp int64Max (count * greatest)) :=
  iterate_clampSum nonneg count ▸
    isGreatest_foldSums clampSum_monoLeft clampSum_monoRight 0 isGreatest count

theorem isGreatest_clampSumsUpTo {s : Set ℤ} {greatest : ℤ} (isGreatest : IsGreatest s greatest)
    (nonneg : 0 ≤ greatest) (bound : ℕ) :
    IsGreatest (clampSumsUpTo s bound) (clamp int64Max (bound * greatest)) := by
  refine ⟨⟨bound, le_rfl, (isGreatest_clampSums isGreatest nonneg bound).1⟩, ?_⟩
  rintro value ⟨count, within, member⟩
  refine ((isGreatest_clampSums isGreatest nonneg count).2 member).trans (clamp_mono int64Max ?_)
  exact mul_le_mul_of_nonneg_right (Int.ofNat_le.mpr within) nonneg

namespace Heap

variable (heap : Heap)

theorem minStep_isLeast (node : Node) (memo : ℕ → ℤ)
    (wellFormed : (heap.unfoldNode node).WellFormed)
    (recorded : ∀ child ∈ node.children, IsLeast (heap.expr child).denote (memo child)) :
    IsLeast (heap.unfoldNode node).denote (node.minStep memo) := by
  cases node with
  | leaf values => exact FlatSet.isLeast_front wellFormed.1 0
  | add lhs rhs =>
      have left := recorded lhs (by simp [Node.children])
      have right := recorded rhs (by simp [Node.children])
      have leftNonneg := (Expr.denote_range wellFormed.1 left.1).1
      have rightNonneg := (Expr.denote_range wellFormed.2 right.1).1
      rw [Node.minStep, saturatingAddNonNegative_eq leftNonneg rightNonneg]
      exact left.image2 clampSum_monoLeft clampSum_monoRight right
  | union lhs rhs =>
      exact (recorded lhs (by simp [Node.children])).union (recorded rhs (by simp [Node.children]))
  | pad lhs param =>
      have child := recorded lhs (by simp [Node.children])
      have range := Expr.denote_range wellFormed.1 child.1
      have positive : 0 < param := wellFormed.2.1
      rw [Node.minStep, max_eq_right wellFormed.2.1,
        saturatingRoundUpToMultipleNonNegative_eq range.1 range.2 positive]
      exact ((clamp_mono int64Max).comp (roundUp_mono positive)).map_isLeast child
  | repeated lhs param =>
      have child := recorded lhs (by simp [Node.children])
      have nonneg := (Expr.denote_range wellFormed.1 child.1).1
      have bound := isLeast_clampSums child nonneg param.toNat
      rw [Int.toNat_of_nonneg wellFormed.2.1, mul_comm] at bound
      rw [Node.minStep, max_eq_right wellFormed.2.1,
        saturatingMultiplyNonNegative_eq nonneg wellFormed.2.1]
      exact bound
  | repeatRange lhs param =>
      exact ⟨⟨0, Nat.zero_le _, rfl⟩, fun value member => (Expr.denote_range wellFormed member).1⟩

/-- What a summary says of an expression. -/
structure Summarizes (expr : Expr) (summary : Summary) : Prop where
  greatest : IsGreatest expr.denote summary.maximum
  exact : summary.saturates = false → ∀ value ∈ expr.exactDenote, value ≤ summary.maximum

private theorem summarizes_checked {expr : Expr} {value : ℤ} {saturates : Bool}
    (nonneg : 0 ≤ value) (greatest : IsGreatest expr.denote (clamp int64Max value))
    (exact : saturates = false → ∀ x ∈ expr.exactDenote, x ≤ value) :
    Summarizes expr (match checked value with
      | some maximum => { maximum, saturates }
      | none => { maximum := int64Max, saturates := true }) := by
  by_cases below : value ≤ int64Max
  · rw [clamp_of_le below] at greatest
    rw [checked, if_pos (InInt64.of_nonneg nonneg below)]
    exact ⟨greatest, exact⟩
  · rw [clamp, min_eq_right (by omega)] at greatest
    rw [checked, if_neg fun inside => below inside.2]
    exact ⟨greatest, fun unset => by simp at unset⟩

private theorem repeatSummary_zero {expr : Expr} (child : Summary) (denotes : expr.denote = {0})
    (exactly : expr.exactDenote = {0}) : Summarizes expr (Node.repeatSummary child 0) := by
  have summaryEq : Node.repeatSummary child 0 = {} := by simp [Node.repeatSummary]
  rw [summaryEq]
  refine ⟨denotes ▸ isGreatest_singleton, fun _ value member => ?_⟩
  rw [exactly] at member
  exact (Set.mem_singleton_iff.mp member).le

private theorem repeatSummary_pos {expr : Expr} {child : Summary} {param : ℤ}
    (positive : 0 < param) (nonneg : 0 ≤ child.maximum)
    (greatest : IsGreatest expr.denote (clamp int64Max (child.maximum * param)))
    (exact : child.saturates = false →
      ∀ value ∈ expr.exactDenote, value ≤ child.maximum * param) :
    Summarizes expr (Node.repeatSummary child param) := by
  rw [Node.repeatSummary, max_eq_right positive.le]
  simp only [ne_of_gt positive, if_false]
  exact summarizes_checked (mul_nonneg nonneg positive.le) greatest exact

theorem summaryStep_summarizes (node : Node) (memo : ℕ → Summary)
    (wellFormed : (heap.unfoldNode node).WellFormed)
    (recorded : ∀ child ∈ node.children, Summarizes (heap.expr child) (memo child)) :
    Summarizes (heap.unfoldNode node) (node.summaryStep memo) := by
  cases node with
  | leaf values =>
      have greatest := FlatSet.isGreatest_back wellFormed.1 0
      exact ⟨greatest, fun _ value member => greatest.2 member⟩
  | add lhs rhs =>
      have left := recorded lhs (by simp [Node.children])
      have right := recorded rhs (by simp [Node.children])
      have leftNonneg := (Expr.denote_range wellFormed.1 left.greatest.1).1
      have rightNonneg := (Expr.denote_range wellFormed.2 right.greatest.1).1
      refine summarizes_checked (add_nonneg leftNonneg rightNonneg)
        (left.greatest.image2 clampSum_monoLeft clampSum_monoRight right.greatest) ?_
      rintro unset _ ⟨x, leftIn, y, rightIn, rfl⟩
      simp only [Bool.or_eq_false_iff] at unset
      exact add_le_add (left.exact unset.1 x leftIn) (right.exact unset.2 y rightIn)
  | union lhs rhs =>
      have left := recorded lhs (by simp [Node.children])
      have right := recorded rhs (by simp [Node.children])
      refine ⟨left.greatest.union right.greatest, fun unset value member => ?_⟩
      simp only [Node.summaryStep, Bool.or_eq_false_iff] at unset
      rcases member with leftIn | rightIn
      · exact (left.exact unset.1 value leftIn).trans (le_max_left _ _)
      · exact (right.exact unset.2 value rightIn).trans (le_max_right _ _)
  | pad lhs param =>
      have child := recorded lhs (by simp [Node.children])
      have range := Expr.denote_range wellFormed.1 child.greatest.1
      have positive : 0 < param := wellFormed.2.1
      have greatest : IsGreatest (heap.unfoldNode (.pad lhs param)).denote
          (clamp int64Max (roundUp (memo lhs).maximum param)) :=
        ((clamp_mono int64Max).comp (roundUp_mono positive)).map_isGreatest child.greatest
      have exact : (memo lhs).saturates = false →
          ∀ value ∈ (heap.unfoldNode (.pad lhs param)).exactDenote,
            value ≤ roundUp (memo lhs).maximum param := by
        rintro unset _ ⟨x, member, rfl⟩
        exact roundUp_mono positive (child.exact unset x member)
      simp only [Node.summaryStep]
      rw [max_eq_right wellFormed.2.1]
      split
      · rename_i aligned
        rw [roundUp_of_dvd (Int.dvd_of_tmod_eq_zero aligned)] at greatest exact
        exact ⟨clamp_of_le range.2 ▸ greatest, exact⟩
      · rename_i unaligned
        rw [checkedAdd, ← neg_emod_eq_sub_tmod range.1 positive unaligned, ← roundUp]
        exact summarizes_checked (range.1.trans (le_roundUp positive _)) greatest exact
  | repeated lhs param =>
      rcases wellFormed.2.1.lt_or_eq with positive | rfl
      · have child := recorded lhs (by simp [Node.children])
        have nonneg := (Expr.denote_range wellFormed.1 child.greatest.1).1
        have bound := isGreatest_clampSums child.greatest nonneg param.toNat
        rw [Int.toNat_of_nonneg positive.le, mul_comm] at bound
        refine repeatSummary_pos positive nonneg bound fun unset value member => ?_
        have below := sums_le (child.exact unset) param.toNat value member
        rwa [Int.toNat_of_nonneg positive.le, mul_comm] at below
      · exact repeatSummary_zero (memo lhs) rfl rfl
  | repeatRange lhs param =>
      rcases wellFormed.2.1.lt_or_eq with positive | rfl
      · have child := recorded lhs (by simp [Node.children])
        have nonneg := (Expr.denote_range wellFormed.1 child.greatest.1).1
        have bound := isGreatest_clampSumsUpTo child.greatest nonneg param.toNat
        rw [Int.toNat_of_nonneg positive.le, mul_comm] at bound
        refine repeatSummary_pos positive nonneg bound fun unset value member => ?_
        obtain ⟨count, within, inTerm⟩ := member
        have below := sums_le (child.exact unset) count value inTerm
        have countLe : (count : ℤ) ≤ param := by omega
        calc value ≤ count * (memo lhs).maximum := below
          _ ≤ param * (memo lhs).maximum := mul_le_mul_of_nonneg_right countLe nonneg
          _ = (memo lhs).maximum * param := mul_comm _ _
      · exact repeatSummary_zero (memo lhs) foldSumsUpTo_zero foldSumsUpTo_zero

/-- `Node::min()`. -/
def min (set : BitLengthSet heap) : ℤ :=
  heap.evaluate Node.minStep set

/-- `Node::summary()`. -/
def summary (set : BitLengthSet heap) : Summary :=
  heap.evaluate Node.summaryStep set

/-- `Node::max()`. -/
def max (set : BitLengthSet heap) : ℤ :=
  (heap.summary set).maximum

/-- `Node::saturationReachable()`. -/
def saturationReachable (set : BitLengthSet heap) : Bool :=
  (heap.summary set).saturates

theorem min_isLeast (set : BitLengthSet heap) : IsLeast (heap.denote set) (heap.min set) :=
  heap.evaluate_rule (fun expr value => IsLeast expr.denote value) heap.minStep_isLeast set

theorem summary_summarizes (set : BitLengthSet heap) :
    Summarizes (heap.expr set) (heap.summary set) :=
  heap.evaluate_rule Summarizes heap.summaryStep_summarizes set

theorem max_isGreatest (set : BitLengthSet heap) : IsGreatest (heap.denote set) (heap.max set) :=
  (heap.summary_summarizes set).greatest

/-- Every value lies in the signed 64-bit range, and none is negative. -/
theorem denote_range (set : BitLengthSet heap) {value : ℤ} (member : value ∈ heap.denote set) :
    0 ≤ value ∧ value ≤ int64Max :=
  Expr.denote_range (heap.expr_wellFormed set.isLt) member

theorem denote_eq_exactDenote (set : BitLengthSet heap)
    (unsaturated : heap.saturationReachable set = false) :
    heap.denote set = (heap.expr set).exactDenote := by
  have summarizes := heap.summary_summarizes set
  have maximumLe := (heap.denote_range set summarizes.greatest.1).2
  exact Expr.denote_eq_exactDenote (heap.expr_wellFormed set.isLt) fun value member =>
    (summarizes.exact unsaturated value member).trans maximumLe

/-- **Exact bounds.** `min()` and `max()` are the least and the greatest
element of `S(e)`, whether or not the evaluation reaches the clamp. -/
theorem min_max_bound (set : BitLengthSet heap) :
    IsLeast (heap.denote set) (heap.min set) ∧ IsGreatest (heap.denote set) (heap.max set) :=
  ⟨heap.min_isLeast set, heap.max_isGreatest set⟩

end Heap

end LlvmDsdl.Semantics
