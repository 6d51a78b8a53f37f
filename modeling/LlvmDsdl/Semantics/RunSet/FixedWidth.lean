import LlvmDsdl.Library.SignedArithmetic
import LlvmDsdl.Semantics.RunSet.Run

/-!
Contract: the arithmetic of two runs in the words the source computes it with.

Owns: the run algebra of `Run.lean` again, every operation in its own 64 or 128
bits and undefined where it would overflow; that on valid runs none overflows
and the results are those of the integer definitions; and that a difference is
cut into disjoint runs.
-/

namespace LlvmDsdl.Semantics

open Support.IntegerMath Library.Progression Library.SignedArithmetic

/-! ### Definitions -/

/-- `Run::last`, in 64 bits. -/
def last64 (run : Run) : Option ℤ := do
  let gaps ← sub 64 run.count 1
  let span ← mul 64 gaps run.stride
  add 64 run.start span

/-- `makeRun`, its span and its end in 128 bits. -/
def makeRun128 (start stride count : ℤ) : Option (Option Run) :=
  if count < 1 ∨ stride < 1 then some none
  else if count = 1 then some (some ⟨start, 1, 1⟩)
  else do
    let gaps ← sub 64 count 1
    let span ← mul 128 gaps stride
    if span > int64Max then return none
    let reach ← add 128 start span
    return if reach > int64Max then none else some ⟨start, stride, count⟩

def extendedGcdLoop128 : ℕ → ℤ → ℤ → ℤ → ℤ → Option (ℤ × ℤ)
  | 0, _, _, _, _ => none
  | fuel + 1, x0, x1, r0, r1 =>
      if r1 = 0 then do
        let g ← keep 64 r0
        return (g, x0)
      else do
        let q ← quotient 128 r0 r1
        let taken ← mul 128 q r1
        let r ← sub 128 r0 taken
        let moved ← mul 128 q x1
        let x ← sub 128 x0 moved
        extendedGcdLoop128 fuel x1 x r1 r

/-- `t0`, reduced step by step in 128 bits. -/
def congruenceOffset128 (diff g bez m : ℤ) : Option ℤ := do
  let ratio ← quotient 128 diff g
  let residue ← remainder 128 ratio m
  let coefficient ← remainder 128 bez m
  let lifted ← add 128 coefficient m
  let inverse ← remainder 128 lifted m
  let product ← mul 128 residue inverse
  let t0 ← remainder 128 product m
  let reduced ← remainder 128 t0 m
  let raised ← add 128 reduced m
  remainder 128 raised m

/-- The one candidate of a period beyond 64 bits. -/
def sparseIntersection128 (lo hi x0 : ℤ) : Option (Option Run × Bool) :=
  if x0 < lo ∨ x0 > hi then some (none, false)
  else do
    let start ← keep 64 x0
    let run ← makeRun128 start 1 1
    return (run, false)

/-- Advance the least solution into the window. -/
def advance128 (lo x0 lcm : ℤ) : Option ℤ :=
  if x0 < lo then do
    let gap ← sub 128 lo x0
    let padded ← add 128 gap lcm
    let rounded ← sub 128 padded 1
    let steps ← quotient 128 rounded lcm
    let distance ← mul 128 steps lcm
    add 128 x0 distance
  else some x0

/-- The solutions from `x0` on that the window holds. -/
def denseIntersection128 (hi x0 lcm : ℤ) : Option (Option Run × Bool) :=
  if x0 > hi then some (none, false)
  else do
    let window ← sub 128 hi x0
    let periods ← quotient 128 window lcm
    let n ← add 128 periods 1
    let start ← keep 64 x0
    if n = 1 then do
      let run ← makeRun128 start 1 1
      return (run, false)
    else do
      let count ← keep 64 n
      let run ← makeRun128 start lcm count
      return (run, run.isNone)

/-- `intersectRuns`; the casts to 64 bits must keep their values. -/
def intersectRuns128 (a b : Run) : Option (Option Run × Bool) := do
  let lastA ← last64 a
  let lastB ← last64 b
  let lo := max a.start b.start
  let hi := min lastA lastB
  if lo > hi then return (none, false)
  else do
    let da := a.stride
    let db := b.stride
    let (g, bez) ← extendedGcdLoop128 (db.toNat + 1) 1 0 da db
    let diff ← sub 128 b.start a.start
    let mismatch ← remainder 128 diff g
    if mismatch ≠ 0 then return (none, false)
    else do
      let cofactor ← quotient 128 da g
      let lcm ← mul 128 cofactor db
      let m ← quotient 64 db g
      let t0 ← congruenceOffset128 diff g bez m
      let offset ← mul 128 da t0
      let x0 ← add 128 a.start offset
      if lcm > int64Max then sparseIntersection128 lo hi x0
      else do
        let x0 ← advance128 lo x0 lcm
        denseIntersection128 hi x0 lcm

def emit64 (piece : Run) (out : List Run) (budget : ℕ) : Option (Option (List Run × ℕ)) :=
  if budget = 0 then some none
  else do
    let checked ← makeRun128 piece.start piece.stride piece.count
    return checked.map fun run => (out ++ [run], budget - 1)

/-- Continue with what a step left, unless the step refused. -/
def emitting (step : Option (Option (List Run × ℕ)))
    (next : List Run × ℕ → Option (Option (List Run × ℕ))) : Option (Option (List Run × ℕ)) :=
  step.bind fun result => result.elim (some none) next

/-- The loop over the survivors between consecutive cut elements. -/
def subtractBody64 (r cut : Run) : ℕ → ℤ → List Run → ℕ → Option (Option (List Run × ℕ))
  | 0, _, out, budget => some (some (out, budget))
  | remaining + 1, j, out, budget =>
      match checkedMultiply j r.stride with
      | none => some (some (out, budget))
      | some classOffset =>
          match checkedAdd cut.start classOffset with
          | none => some (some (out, budget))
          | some classStart => do
              let lastR ← last64 r
              if classStart > lastR then return some (out, budget)
              else do
                let gaps ← sub 64 cut.count 1
                let room ← sub 64 lastR classStart
                let periods ← quotient 64 room cut.stride
                let fitting ← add 64 periods 1
                let next ← add 64 j 1
                if min gaps fitting ≥ 1 then
                  emitting (emit64 ⟨classStart, cut.stride, min gaps fitting⟩ out budget)
                    fun (out, budget) => subtractBody64 r cut remaining next out budget
                else subtractBody64 r cut remaining next out budget

/-- The elements before the first cut element. -/
def subtractHead64 (r cut : Run) (budget : ℕ) : Option (Option (List Run × ℕ)) :=
  if cut.start > r.start then do
    let distance ← sub 64 cut.start r.start
    let n ← quotient 64 distance r.stride
    emit64 ⟨r.start, r.stride, n⟩ [] budget
  else some (some ([], budget))

/-- The elements after the last cut element. -/
def subtractTail64 (r cut : Run) (out : List Run) (budget : ℕ) :
    Option (Option (List Run × ℕ)) := do
  let lastCut ← last64 cut
  match checkedAdd lastCut r.stride with
  | none => return some (out, budget)
  | some afterCut =>
      let lastR ← last64 r
      if afterCut ≤ lastR then do
        let room ← sub 64 lastR afterCut
        let periods ← quotient 64 room r.stride
        let n ← add 64 periods 1
        emit64 ⟨afterCut, r.stride, n⟩ out budget
      else return some (out, budget)

def subtractSubProgression64 (r cut : Run) (budget : ℕ) : Option (Option (List Run × ℕ)) :=
  emitting
    (emitting (subtractHead64 r cut budget) fun (out, budget) => do
      let q ← quotient 64 cut.stride r.stride
      if q > 1 ∧ cut.count ≥ 1 then subtractBody64 r cut (q - 1).toNat 1 out budget
      else return some (out, budget))
    fun (out, budget) => subtractTail64 r cut out budget

/-! ### Runs -/

theorem fits_of_inInt64 {value : ℤ} (inRange : InInt64 value) : Fits 64 value := by
  have lower := inRange.1
  have upper := inRange.2
  rw [fits_64]
  unfold int64Min at lower
  unfold int64Max at upper
  omega

theorem last64_eq {run : Run} (valid : run.Valid) : last64 run = some run.last := by
  have countPos := valid.countPos
  have stridePos := valid.stridePos
  have countFits := valid.countFits
  have spanNonneg : 0 ≤ (run.count - 1) * run.stride :=
    mul_nonneg (by omega) (by omega)
  have ordered := valid.start_le_last
  have gaps : Fits 64 (run.count - 1) :=
    fits_of_inInt64 (InInt64.of_nonneg (by omega) (by omega))
  have span : Fits 64 ((run.count - 1) * run.stride) :=
    fits_of_inInt64 (InInt64.of_nonneg spanNonneg valid.span)
  have reach : Fits 64 (run.start + (run.count - 1) * run.stride) :=
    fits_of_inInt64 ⟨valid.lower.trans ordered, valid.representable⟩
  simp only [last64, sub_of_fits gaps, mul_of_fits span, add_of_fits reach,
    Option.bind_eq_bind, Option.bind_some]
  rfl

theorem stride_le {run : Run} (valid : run.Valid) : run.stride ≤ int64Max := by
  have stridePos := valid.stridePos
  rcases valid.countPos.eq_or_lt with one | many
  · rw [valid.canonical one.symm]
    decide
  · have span := valid.span
    have := mul_le_mul_of_nonneg_right (show 1 ≤ run.count - 1 by omega)
      (show 0 ≤ run.stride by omega)
    omega

theorem makeRun128_eq {start stride count : ℤ} (startIn : InInt64 start)
    (strideIn : stride ≤ int64Max) (countIn : count ≤ int64Max) :
    makeRun128 start stride count = some (makeRun start stride count) := by
  unfold makeRun128 makeRun
  split
  · rfl
  · rename_i inRange
    obtain ⟨countPos, stridePos⟩ := not_or.mp inRange
    split
    · rfl
    · have lower := startIn.1
      have upper := startIn.2
      have nonneg : 0 ≤ (count - 1) * stride := mul_nonneg (by omega) (by omega)
      unfold int64Min at lower
      unfold int64Max at upper strideIn countIn
      have product := abs_mul_le (a := count - 1) (b := stride) (abs_le.mpr (by omega))
        (abs_le.mpr (by omega))
      rw [abs_of_nonneg nonneg] at product
      have gaps : Fits 64 (count - 1) := by rw [fits_64]; omega
      have span : Fits 128 ((count - 1) * stride) := by rw [fits_128]; omega
      have reach : Fits 128 (start + (count - 1) * stride) := by rw [fits_128]; omega
      simp only [sub_of_fits gaps, mul_of_fits span, add_of_fits reach, Option.bind_eq_bind,
        Option.bind_some, Option.pure_def]
      split
      · rename_i far
        rw [if_pos (Or.inl far)]
      · rename_i near
        simp only [near, false_or]

/-! ### Extended gcd -/

/-- The coefficients alternate in sign and weigh the remainders to `b`. -/
structure Weighed (b x0 x1 r0 r1 : ℤ) : Prop where
  weights : ∃ sign left right : ℤ, |sign| = 1 ∧ 0 ≤ left ∧ 0 ≤ right ∧ x0 = sign * left ∧
    x1 = -sign * right ∧ right * r0 + left * r1 = b ∧ left ≤ b
  positive : 0 < r0
  nonneg : 0 ≤ r1

/-- The loop keeps its coefficients within `b`, so no step leaves 128 bits. -/
theorem extendedGcdLoop128_eq {b : ℤ} (bIn : b ≤ int64Max) (fuel : ℕ) :
    ∀ {x0 x1 r0 r1 : ℤ}, r1.toNat < fuel → Weighed b x0 x1 r0 r1 → r0 ≤ int64Max →
      r1 ≤ int64Max → extendedGcdLoop128 fuel x0 x1 r0 r1 = some (extendedGcdLoop fuel x0 x1 r0 r1) ∧
        |(extendedGcdLoop fuel x0 x1 r0 r1).2| ≤ b := by
  induction fuel with
  | zero => intro x0 x1 r0 r1 enough; omega
  | succ fuel ih =>
      intro x0 x1 r0 r1 enough weighed r0In r1In
      obtain ⟨⟨sign, left, right, unit, leftNonneg, rightNonneg, rfl, rfl, weight, leftLe⟩,
        positive, nonneg⟩ := weighed
      have r0Fits : Fits 64 r0 := fits_of_inInt64 (InInt64.of_nonneg positive.le r0In)
      rw [extendedGcdLoop128, extendedGcdLoop]
      split
      · have bound : |sign * left| ≤ b := by
          rw [abs_mul, unit, one_mul, abs_of_nonneg leftNonneg]
          exact leftLe
        exact ⟨by rw [keep_of_fits r0Fits]; rfl, bound⟩
      · rename_i more
        have secondPos : 0 < r1 := by omega
        have quotientNonneg : 0 ≤ r0.tdiv r1 := Int.tdiv_nonneg positive.le nonneg
        have remainderEq := Int.tmod_add_mul_tdiv r0 r1
        have remainderNonneg := Int.tmod_nonneg r1 positive.le
        have remainderLt := Int.tmod_lt_of_pos r0 secondPos
        have quotientLe : r0.tdiv r1 ≤ r0 := Int.tdiv_le_self r1 positive.le
        have divided := quotient_of_pos r0Fits.widen secondPos
        rw [mul_comm] at remainderEq
        generalize r0.tdiv r1 = q at quotientNonneg remainderEq quotientLe divided ⊢
        have next : left + q * right ≤ b := by
          have grown : (left + q * right) * r1 ≤ b := by
            calc (left + q * right) * r1 = left * r1 + right * (q * r1) := by ring
              _ ≤ left * r1 + right * r0 := by
                have := mul_le_mul_of_nonneg_left (show q * r1 ≤ r0 by omega) rightNonneg
                omega
              _ = b := by omega
          have size : 0 ≤ left + q * right :=
            add_nonneg leftNonneg (mul_nonneg quotientNonneg rightNonneg)
          calc left + q * right = (left + q * right) * 1 := by ring
            _ ≤ (left + q * right) * r1 := mul_le_mul_of_nonneg_left (by omega) size
            _ ≤ b := grown
        have movedNonneg := mul_nonneg quotientNonneg rightNonneg
        have movedAbs : |q * (-sign * right)| = q * right := by
          rw [abs_mul, abs_mul, abs_neg, unit, one_mul, abs_of_nonneg quotientNonneg,
            abs_of_nonneg rightNonneg]
        have nextEq : sign * left - q * (-sign * right) = sign * (left + q * right) := by ring
        have nextAbs : |sign * (left + q * right)| = left + q * right := by
          rw [abs_mul, unit, one_mul, abs_of_nonneg (by omega)]
        have rightLe : right ≤ b := by
          have := mul_le_mul_of_nonneg_left (show (1 : ℤ) ≤ r0 by omega) rightNonneg
          have := mul_nonneg leftNonneg nonneg
          omega
        unfold int64Max at bIn
        have takenFits : Fits 128 (q * r1) := by
          have := mul_nonneg quotientNonneg nonneg
          unfold int64Max at r0In r1In
          rw [fits_128]
          omega
        have restFits : Fits 128 (r0 - q * r1) := by
          unfold int64Max at r0In r1In
          rw [fits_128]
          omega
        have movedFits : Fits 128 (q * (-sign * right)) := by
          have := abs_le.mp movedAbs.le
          rw [fits_128]
          omega
        have stepFits : Fits 128 (sign * left - q * (-sign * right)) := by
          have := abs_le.mp nextAbs.le
          rw [nextEq, fits_128]
          omega
        have enoughNext : (r0 - q * r1).toNat < fuel := by omega
        obtain ⟨same, bounded⟩ := @ih (-sign * right)
          (sign * left - q * (-sign * right)) r1 (r0 - q * r1) enoughNext
          ⟨⟨-sign, right, left + q * right, by rw [abs_neg, unit], rightNonneg, by omega, rfl,
            by rw [nextEq]; ring, by rw [← weight]; ring, rightLe⟩, secondPos, by omega⟩
          r1In (by omega)
        refine ⟨?_, bounded⟩
        simp only [divided, mul_of_fits takenFits, sub_of_fits restFits, mul_of_fits movedFits,
          sub_of_fits stepFits, Option.bind_eq_bind, Option.bind_some]
        exact same

/-! ### Intersection -/

theorem congruenceOffset128_eq {diff g bez m : ℤ} (diffIn : |diff| ≤ 18446744073709551615)
    (gPos : 0 < g) (bezIn : |bez| ≤ int64Max) (mPos : 0 < m) (mIn : m ≤ int64Max) :
    congruenceOffset128 diff g bez m = some (congruenceOffset diff g bez m) := by
  have diffRange := abs_le.mp diffIn
  have bezRange := abs_le.mp bezIn
  unfold int64Max at mIn bezRange
  have small : ∀ value : ℤ, -m < value.tmod m ∧ value.tmod m < m := fun value =>
    ⟨Int.lt_tmod_of_pos value mPos, Int.tmod_lt_of_pos value mPos⟩
  have diffFits : Fits 128 diff := by rw [fits_128]; omega
  have bezFits : Fits 128 bez := by rw [fits_128]; omega
  have ratioFits := fits_tdiv diffFits gPos
  have liftedFits : Fits 128 (bez.tmod m + m) := by
    have := small bez
    rw [fits_128]
    omega
  have productFits : Fits 128 ((diff.tdiv g).tmod m * (bez.tmod m + m).tmod m) := by
    have left := small (diff.tdiv g)
    have right := small (bez.tmod m + m)
    have product := abs_le.mp (abs_mul_le (a := (diff.tdiv g).tmod m)
      (b := (bez.tmod m + m).tmod m) (abs_le.mpr (by omega)) (abs_le.mpr (by omega)))
    rw [fits_128]
    omega
  have t0Fits : Fits 128 (((diff.tdiv g).tmod m * (bez.tmod m + m).tmod m).tmod m) := by
    have := small ((diff.tdiv g).tmod m * (bez.tmod m + m).tmod m)
    rw [fits_128]
    omega
  have raisedFits : Fits 128
      ((((diff.tdiv g).tmod m * (bez.tmod m + m).tmod m).tmod m).tmod m + m) := by
    have := small (((diff.tdiv g).tmod m * (bez.tmod m + m).tmod m).tmod m)
    rw [fits_128]
    omega
  simp only [congruenceOffset128, quotient_of_pos diffFits gPos, remainder_of_pos ratioFits mPos,
    remainder_of_pos bezFits mPos, add_of_fits liftedFits, remainder_of_pos liftedFits mPos,
    mul_of_fits productFits, remainder_of_pos productFits mPos, remainder_of_pos t0Fits mPos,
    add_of_fits raisedFits, remainder_of_pos raisedFits mPos, Option.bind_eq_bind,
    Option.bind_some]
  rfl

/-- The candidate of `intersectRuns` whose period exceeds 64 bits. -/
def sparseIntersection (lo hi x0 : ℤ) : Option Run × Bool :=
  if x0 < lo ∨ x0 > hi then (none, false) else (makeRun x0 1 1, false)

/-- The first solution of `intersectRuns` in its window. -/
def advance (lo x0 lcm : ℤ) : ℤ :=
  if x0 < lo then x0 + (lo - x0 + lcm - 1).tdiv lcm * lcm else x0

/-- The solutions of `intersectRuns` from `x0` on. -/
def denseIntersection (hi x0 lcm : ℤ) : Option Run × Bool :=
  if x0 > hi then (none, false)
  else if (hi - x0).tdiv lcm + 1 = 1 then (makeRun x0 1 1, false)
  else
    match makeRun x0 lcm ((hi - x0).tdiv lcm + 1) with
    | some run => (some run, false)
    | none => (none, true)

theorem intersectRuns_eq (a b : Run) (g bez : ℤ) (gcd : extendedGcd a.stride b.stride = (g, bez)) :
    intersectRuns a b =
      if max a.start b.start > min a.last b.last then (none, false)
      else if (b.start - a.start).tmod g ≠ 0 then (none, false)
      else if a.stride.tdiv g * b.stride > int64Max then
        sparseIntersection (max a.start b.start) (min a.last b.last)
          (a.start + a.stride * congruenceOffset (b.start - a.start) g bez (b.stride.tdiv g))
      else denseIntersection (min a.last b.last)
        (advance (max a.start b.start)
          (a.start + a.stride * congruenceOffset (b.start - a.start) g bez (b.stride.tdiv g))
          (a.stride.tdiv g * b.stride)) (a.stride.tdiv g * b.stride) := by
  have left : (extendedGcd a.stride b.stride).1 = g := by rw [gcd]
  have right : (extendedGcd a.stride b.stride).2 = bez := by rw [gcd]
  subst left right
  rfl

theorem inInt64_of_fits {value : ℤ} (fits : Fits 64 value) : InInt64 value := by
  rw [fits_64] at fits
  unfold InInt64 int64Min int64Max
  omega

theorem sparseIntersection128_eq {lo hi x0 : ℤ} (loIn : Fits 64 lo) (hiIn : Fits 64 hi) :
    sparseIntersection128 lo hi x0 = some (sparseIntersection lo hi x0) := by
  unfold sparseIntersection128 sparseIntersection
  split
  · rfl
  · rename_i inside
    have x0Fits : Fits 64 x0 := by
      rw [fits_64] at loIn hiIn ⊢
      omega
    have made := makeRun128_eq (inInt64_of_fits x0Fits) (show (1 : ℤ) ≤ int64Max by decide)
      (show (1 : ℤ) ≤ int64Max by decide)
    simp [keep_of_fits x0Fits, made]

theorem advance128_eq {lo x0 lcm : ℤ} (loIn : Fits 64 lo) (x0In : -9223372036854775808 ≤ x0)
    (lcmPos : 0 < lcm) (lcmIn : lcm ≤ int64Max) :
    advance128 lo x0 lcm = some (advance lo x0 lcm) := by
  unfold advance128 advance
  split
  · rename_i before
    rw [fits_64] at loIn
    unfold int64Max at lcmIn
    have gapFits : Fits 128 (lo - x0) := by rw [fits_128]; omega
    have paddedFits : Fits 128 (lo - x0 + lcm) := by rw [fits_128]; omega
    have roundedFits : Fits 128 (lo - x0 + lcm - 1) := by rw [fits_128]; omega
    have stepsNonneg := Int.tdiv_nonneg (show 0 ≤ lo - x0 + lcm - 1 by omega) lcmPos.le
    have floor : (lo - x0 + lcm - 1).tdiv lcm * lcm ≤ lo - x0 + lcm - 1 := by
      rw [Int.tdiv_eq_ediv_of_nonneg (by omega)]
      exact Int.ediv_mul_le _ lcmPos.ne'
    have distanceNonneg := mul_nonneg stepsNonneg lcmPos.le
    have distanceFits : Fits 128 ((lo - x0 + lcm - 1).tdiv lcm * lcm) := by
      rw [fits_128]
      omega
    have reachFits : Fits 128 (x0 + (lo - x0 + lcm - 1).tdiv lcm * lcm) := by
      rw [fits_128]
      omega
    simp only [sub_of_fits gapFits, add_of_fits paddedFits, sub_of_fits roundedFits,
      quotient_of_pos roundedFits lcmPos, mul_of_fits distanceFits, add_of_fits reachFits,
      Option.bind_eq_bind, Option.bind_some]
  · rfl

theorem le_advance {lo x0 lcm : ℤ} (lcmPos : 0 < lcm) : lo ≤ advance lo x0 lcm := by
  unfold advance
  split
  · rw [Int.tdiv_eq_ediv_of_nonneg (by omega)]
    have split := Int.emod_add_mul_ediv (lo - x0 + lcm - 1) lcm
    have upper := Int.emod_lt_of_pos (lo - x0 + lcm - 1) lcmPos
    rw [mul_comm] at split
    omega
  · omega

/-- The cast of the element count keeps its value where the run can be built. -/
theorem denseIntersection128_eq {lo hi x0 lcm : ℤ} (loIn : Fits 64 lo) (hiIn : Fits 64 hi)
    (inside : lo ≤ x0) (lcmPos : 0 < lcm) (lcmIn : lcm ≤ int64Max)
    (countIn : x0 ≤ hi → (hi - x0).tdiv lcm + 1 ≤ int64Max) :
    denseIntersection128 hi x0 lcm = some (denseIntersection hi x0 lcm) := by
  unfold denseIntersection128 denseIntersection
  split
  · rfl
  · rename_i within
    have countFits := countIn (by omega)
    have x0Fits : Fits 64 x0 := by
      rw [fits_64] at loIn hiIn ⊢
      omega
    have periodsNonneg := Int.tdiv_nonneg (show 0 ≤ hi - x0 by omega) lcmPos.le
    have windowFits : Fits 128 (hi - x0) := by
      rw [fits_64] at loIn hiIn
      rw [fits_128]
      omega
    have nFits : Fits 64 ((hi - x0).tdiv lcm + 1) := by
      unfold int64Max at countFits
      rw [fits_64]
      omega
    simp only [sub_of_fits windowFits, quotient_of_pos windowFits lcmPos,
      add_of_fits nFits.widen, keep_of_fits x0Fits, keep_of_fits nFits, Option.bind_eq_bind,
      Option.bind_some, Option.pure_def]
    split
    · rw [makeRun128_eq (inInt64_of_fits x0Fits) (by decide) (by decide), Option.bind_some]
    · rw [makeRun128_eq (inInt64_of_fits x0Fits) lcmIn countFits, Option.bind_some]
      cases makeRun x0 lcm ((hi - x0).tdiv lcm + 1) <;> rfl

private theorem window_fits {a b : Run} (validA : a.Valid) (validB : b.Valid) :
    Fits 64 (max a.start b.start) ∧ Fits 64 (min a.last b.last) := by
  have lowerA := validA.lower
  have lowerB := validB.lower
  have orderedA := validA.start_le_last
  have orderedB := validB.start_le_last
  have upperA := validA.representable
  have upperB := validB.representable
  exact ⟨fits_of_inInt64 ⟨by omega, by omega⟩, fits_of_inInt64 ⟨by omega, by omega⟩⟩

private theorem periods_le {a : Run} (validA : a.Valid) {hi x0 lcm : ℤ} (multiple : a.stride ≤ lcm)
    (above : a.start ≤ x0) (hiLe : hi ≤ a.last) (within : x0 ≤ hi) :
    (hi - x0).tdiv lcm + 1 ≤ int64Max := by
  have stridePos : 0 < a.stride := validA.stridePos
  have fewer : (hi - x0).tdiv lcm ≤ (hi - x0).tdiv a.stride := by
    rw [Int.tdiv_eq_ediv_of_nonneg (by omega), Int.tdiv_eq_ediv_of_nonneg (by omega)]
    refine (Int.le_ediv_iff_mul_le stridePos).mpr ?_
    have floor := Int.ediv_mul_le (hi - x0) (show lcm ≠ 0 by omega)
    have nonneg := Int.ediv_nonneg (show 0 ≤ hi - x0 by omega) (show 0 ≤ lcm by omega)
    exact (mul_le_mul_of_nonneg_left multiple nonneg).trans floor
  have steps := validA.tdiv_stride_lt_count (show 0 ≤ hi - x0 by omega) (by omega)
  have countFits := validA.countFits
  omega

/-- **No intermediate result of an intersection leaves its width.** -/
theorem intersectRuns128_eq {a b : Run} (validA : a.Valid) (validB : b.Valid) :
    intersectRuns128 a b = some (intersectRuns a b) := by
  have aPos : 0 < a.stride := validA.stridePos
  have bPos : 0 < b.stride := validB.stridePos
  have aIn := stride_le validA
  have bIn := stride_le validB
  have bezout := extendedGcd_bezout validA.stridePos validB.stridePos
  obtain ⟨gcdEq, coefficientIn⟩ := @extendedGcdLoop128_eq b.stride bIn (b.stride.toNat + 1)
    1 0 a.stride b.stride (Nat.lt_succ_self _)
    ⟨⟨1, 1, 0, abs_one, by norm_num, le_rfl, by ring, by ring, by ring, bPos⟩, aPos, bPos.le⟩
    aIn bIn
  rw [← extendedGcd] at gcdEq coefficientIn
  obtain ⟨loIn, hiIn⟩ := window_fits validA validB
  obtain ⟨⟨g, bez⟩, pair⟩ : ∃ found, extendedGcd a.stride b.stride = found := ⟨_, rfl⟩
  rw [pair] at gcdEq coefficientIn bezout
  rw [intersectRuns_eq a b g bez pair, intersectRuns128, last64_eq validA, last64_eq validB]
  simp only [Option.bind_eq_bind, Option.bind_some]
  rw [gcdEq, Option.bind_some]
  have gPos := bezout.positive
  have lowerA := validA.lower
  have upperB := validB.start_le_last.trans validB.representable
  have lowerB := validB.lower
  have upperA := validA.start_le_last.trans validA.representable
  by_cases apart : max a.start b.start > min a.last b.last
  · rw [if_pos apart, if_pos apart]
    rfl
  · rw [if_neg apart, if_neg apart]
    have diffIn : |b.start - a.start| ≤ 18446744073709551615 := by
      unfold int64Min at lowerA lowerB
      unfold int64Max at upperA upperB
      exact abs_le.mpr (by omega)
    have diffFits : Fits 128 (b.start - a.start) := by
      have := abs_le.mp diffIn
      rw [fits_128]
      omega
    rw [sub_of_fits diffFits, Option.bind_some, remainder_of_pos diffFits gPos, Option.bind_some]
    by_cases mismatch : (b.start - a.start).tmod g ≠ 0
    · rw [if_pos mismatch, if_pos mismatch]
      rfl
    · rw [if_neg mismatch, if_neg mismatch]
      have aFits : Fits 64 a.stride := fits_of_inInt64 (InInt64.of_nonneg aPos.le aIn)
      have bFits : Fits 64 b.stride := fits_of_inInt64 (InInt64.of_nonneg bPos.le bIn)
      obtain ⟨m, mEq⟩ := bezout.dvd_right
      have mIs : b.stride.tdiv g = m := by rw [mEq, Int.mul_tdiv_cancel_left _ gPos.ne']
      have mPos : 0 < m := pos_of_mul_pos_right (mEq ▸ bPos) gPos.le
      have lcmIs : a.stride.tdiv g * b.stride = a.stride * m := by
        rw [mEq, ← mul_assoc, Int.tdiv_mul_cancel bezout.dvd_left]
      have mIn : m ≤ int64Max := by
        have := mIs ▸ Int.tdiv_le_self g bPos.le
        omega
      have strideLe : a.stride ≤ a.stride * m := by
        have := mul_le_mul_of_nonneg_left (show 1 ≤ m by omega) aPos.le
        omega
      have lcmFits : Fits 128 (a.stride.tdiv g * b.stride) := by
        unfold int64Max at aIn mIn
        have product := abs_le.mp (abs_mul_le (a := a.stride) (b := m) (abs_le.mpr (by omega))
          (abs_le.mpr (by omega)))
        rw [lcmIs, fits_128]
        omega
      have offsetEq := congruenceOffset128_eq diffIn gPos (coefficientIn.trans bIn) mPos mIn
      obtain ⟨offsetNonneg, offsetLt⟩ := congruenceOffset_range mPos (b.start - a.start) g bez
      rw [quotient_of_pos aFits.widen gPos, Option.bind_some, mul_of_fits lcmFits,
        Option.bind_some, quotient_of_pos bFits gPos, Option.bind_some, mIs, offsetEq,
        Option.bind_some]
      generalize congruenceOffset (b.start - a.start) g bez m = t0 at *
      have stepNonneg := mul_nonneg aPos.le offsetNonneg
      have offsetFits : Fits 128 (a.stride * t0) ∧ Fits 128 (a.start + a.stride * t0) := by
        unfold int64Max at aIn mIn upperA
        unfold int64Min at lowerA
        have product := abs_le.mp (abs_mul_le (a := a.stride) (b := t0) (abs_le.mpr (by omega))
          (abs_le.mpr (by omega)))
        rw [fits_128, fits_128]
        omega
      rw [mul_of_fits offsetFits.1, Option.bind_some, add_of_fits offsetFits.2, Option.bind_some]
      have x0Above : a.start ≤ a.start + a.stride * t0 := by omega
      generalize a.start + a.stride * t0 = x0 at x0Above ⊢
      rw [lcmIs]
      by_cases dense : a.stride * m > int64Max
      · rw [if_pos dense, if_pos dense]
        exact sparseIntersection128_eq loIn hiIn
      · rw [if_neg dense, if_neg dense]
        have lcmPos : 0 < a.stride * m := mul_pos aPos mPos
        have lcmIn : a.stride * m ≤ int64Max := by omega
        rw [advance128_eq loIn (by unfold int64Min at lowerA; omega) lcmPos lcmIn,
          Option.bind_some]
        have inside : max a.start b.start ≤ advance (max a.start b.start) x0 (a.stride * m) :=
          le_advance lcmPos
        exact denseIntersection128_eq loIn hiIn inside lcmPos lcmIn fun within =>
          periods_le validA strideLe (by omega) (min_le_left _ _) within

/-! ### Difference -/

theorem emit64_eq {start stride count : ℤ} (startIn : InInt64 start) (strideIn : stride ≤ int64Max)
    (countIn : count ≤ int64Max) (out : List Run) (budget : ℕ) :
    emit64 ⟨start, stride, count⟩ out budget = some (emit ⟨start, stride, count⟩ out budget) := by
  unfold emit64 emit
  split
  · rfl
  · rw [makeRun128_eq startIn strideIn countIn]
    rfl

theorem emitting_eq {step : Option (Option (List Run × ℕ))} {left : Option (List Run × ℕ)}
    {next : List Run × ℕ → Option (Option (List Run × ℕ))}
    {after : List Run × ℕ → Option (List Run × ℕ)} (stepEq : step = some left)
    (nextEq : ∀ state, next state = some (after state)) :
    emitting step next = some (left.bind after) := by
  rw [emitting, stepEq, Option.bind_some]
  cases left with
  | none => rfl
  | some state => exact nextEq state

section Difference

variable {r cut : Run} (validR : r.Valid) (validCut : cut.Valid)
  (within : cut.elements ⊆ r.elements)

include validR

private theorem room_fits {first step : ℤ} (above : r.start ≤ first) (reached : first ≤ r.last)
    (multiple : r.stride ≤ step) :
    Fits 64 (r.last - first) ∧ Fits 64 ((r.last - first).tdiv step) ∧
      Fits 64 ((r.last - first).tdiv step + 1) ∧ (r.last - first).tdiv step + 1 ≤ int64Max := by
  have stridePos := validR.stridePos
  have span := validR.last_sub_start_le
  have room : Fits 64 (r.last - first) :=
    fits_of_inInt64 (InInt64.of_nonneg (by omega) (by omega))
  have bounded := periods_le validR multiple above le_rfl reached
  have nonneg := Int.tdiv_nonneg (show 0 ≤ r.last - first by omega) (show 0 ≤ step by omega)
  exact ⟨room, fits_tdiv room (by omega),
    fits_of_inInt64 (InInt64.of_nonneg (by omega) bounded), bounded⟩

include validCut within

theorem subtractBody64_eq (multiple : r.stride ≤ cut.stride) (remaining : ℕ) :
    ∀ {j : ℤ} (out : List Run) (budget : ℕ), 0 ≤ j → j + remaining ≤ int64Max →
      subtractBody64 r cut remaining j out budget =
        some (subtractBody r cut remaining j out budget) := by
  obtain ⟨startLe, _, _, _⟩ := cut_ends validR validCut within
  have stridePos : 0 < r.stride := validR.stridePos
  have cutPos : 0 < cut.stride := validCut.stridePos
  induction remaining with
  | zero => intro j out budget _ _; rfl
  | succ remaining ih =>
      intro j out budget nonneg bounded
      have tail := fun out budget => ih (j := j + 1) out budget (by omega)
        (by push_cast at bounded; omega)
      rw [subtractBody64, subtractBody]
      cases product : checkedMultiply j r.stride with
      | none => rfl
      | some classOffset =>
          dsimp only
          obtain ⟨_, rfl⟩ := checkedMultiply_eq_some.mp product
          cases total : checkedAdd cut.start (j * r.stride) with
          | none => rfl
          | some classStart =>
              obtain ⟨startIn, rfl⟩ := checkedAdd_eq_some.mp total
              have offsetNonneg := mul_nonneg nonneg stridePos.le
              dsimp only
              rw [last64_eq validR]
              simp only [Option.bind_eq_bind, Option.bind_some]
              by_cases past : cut.start + j * r.stride > r.last
              · rw [if_pos past, if_pos past]
                rfl
              · rw [if_neg past, if_neg past]
                obtain ⟨room, _, fitting, _⟩ := room_fits validR
                  (show r.start ≤ cut.start + j * r.stride by omega) (by omega) multiple
                have countPos := validCut.countPos
                have countIn := validCut.countFits
                have gaps : Fits 64 (cut.count - 1) :=
                  fits_of_inInt64 (InInt64.of_nonneg (by omega) (by omega))
                have next : Fits 64 (j + 1) :=
                  fits_of_inInt64 (InInt64.of_nonneg (by omega) (by push_cast at bounded; omega))
                rw [sub_of_fits gaps, Option.bind_some, sub_of_fits room, Option.bind_some,
                  quotient_of_pos room cutPos, Option.bind_some, add_of_fits fitting,
                  Option.bind_some, add_of_fits next, Option.bind_some]
                split
                · exact emitting_eq (emit64_eq startIn (stride_le validCut)
                    (by omega) out budget) fun state => tail state.1 state.2
                · exact tail out budget

theorem subtractHead64_eq (budget : ℕ) : subtractHead64 r cut budget =
    some (if cut.start > r.start then
        emit ⟨r.start, r.stride, (cut.start - r.start).tdiv r.stride⟩ [] budget
      else some ([], budget)) := by
  obtain ⟨startLe, lastLe, _, _⟩ := cut_ends validR validCut within
  have stridePos : 0 < r.stride := validR.stridePos
  have cutOrdered := validCut.start_le_last
  unfold subtractHead64
  split
  · have span := validR.last_sub_start_le
    have distance : Fits 64 (cut.start - r.start) :=
      fits_of_inInt64 (InInt64.of_nonneg (by omega) (by omega))
    have steps := validR.tdiv_stride_lt_count (show 0 ≤ cut.start - r.start by omega) (by omega)
    have countIn := validR.countFits
    simp only [sub_of_fits distance, quotient_of_pos distance stridePos, Option.bind_eq_bind,
      Option.bind_some]
    exact emit64_eq ⟨validR.lower, validR.start_le_last.trans validR.representable⟩
      (stride_le validR) (by omega) _ _
  · rfl

theorem subtractTail64_eq (out : List Run) (budget : ℕ) : subtractTail64 r cut out budget =
    some (match checkedAdd cut.last r.stride with
      | some afterCut =>
          if afterCut ≤ r.last then
            emit ⟨afterCut, r.stride, (r.last - afterCut).tdiv r.stride + 1⟩ out budget
          else some (out, budget)
      | none => some (out, budget)) := by
  obtain ⟨startLe, lastLe, _, _⟩ := cut_ends validR validCut within
  have stridePos : 0 < r.stride := validR.stridePos
  have cutOrdered := validCut.start_le_last
  rw [subtractTail64, last64_eq validCut]
  simp only [Option.bind_eq_bind, Option.bind_some]
  cases total : checkedAdd cut.last r.stride with
  | none => rfl
  | some afterCut =>
      obtain ⟨startIn, rfl⟩ := checkedAdd_eq_some.mp total
      dsimp only
      rw [last64_eq validR, Option.bind_some]
      split
      · rename_i reached
        obtain ⟨room, _, fitting, countIn⟩ := room_fits validR
          (show r.start ≤ cut.last + r.stride by omega) reached le_rfl
        rw [sub_of_fits room, Option.bind_some, quotient_of_pos room stridePos, Option.bind_some,
          add_of_fits fitting, Option.bind_some]
        exact emit64_eq startIn (stride_le validR) countIn out budget
      · rfl

/-- **No intermediate result of a difference leaves its width.** -/
theorem subtractSubProgression64_eq (budget : ℕ) :
    subtractSubProgression64 r cut budget = some (subtractSubProgression r cut budget) := by
  have stridePos : 0 < r.stride := validR.stridePos
  have cutPos : 0 < cut.stride := validCut.stridePos
  have cutIn := stride_le validCut
  have cutFits : Fits 64 cut.stride := fits_of_inInt64 (InInt64.of_nonneg cutPos.le cutIn)
  have ratioLe := Int.tdiv_le_self r.stride cutPos.le
  unfold subtractSubProgression64 subtractSubProgression
  refine emitting_eq (emitting_eq (subtractHead64_eq validR validCut within budget)
    fun state => ?_) fun state => subtractTail64_eq validR validCut within state.1 state.2
  rw [quotient_of_pos cutFits stridePos]
  simp only [Option.bind_eq_bind, Option.bind_some]
  split
  · rename_i split
    have multiple : r.stride ≤ cut.stride := by
      have floor : cut.stride.tdiv r.stride * r.stride ≤ cut.stride := by
        rw [Int.tdiv_eq_ediv_of_nonneg cutPos.le]
        exact Int.ediv_mul_le _ stridePos.ne'
      have := mul_le_mul_of_nonneg_right (show 1 ≤ cut.stride.tdiv r.stride by omega) stridePos.le
      omega
    exact subtractBody64_eq validR validCut within multiple _ state.1 state.2 (by norm_num)
      (by omega)
  · rfl

end Difference

end LlvmDsdl.Semantics
