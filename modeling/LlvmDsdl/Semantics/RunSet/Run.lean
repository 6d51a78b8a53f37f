import LlvmDsdl.Library.Progression
import LlvmDsdl.Support.IntegerMath

/-!
Contract: one arithmetic-progression run and the algebra of two runs.

Owns: `Run` with its canonical form, the checked constructors, the extended gcd
loop, the intersection of two runs and the difference of a run and a
sub-progression of it, each with the set it denotes.

Intermediate results that C++ widens to 128 bits are plain integers here.
Division and remainder truncate toward zero.
-/

namespace LlvmDsdl.Semantics

open Support.IntegerMath Library.Progression

/-! ### Runs -/

/-- `{ start + i * stride : 0 <= i < count }`. -/
structure Run where
  start : ℤ := 0
  stride : ℤ := 1
  count : ℤ := 1
  deriving DecidableEq

namespace Run

/-- The largest element. -/
def last (run : Run) : ℤ :=
  run.start + (run.count - 1) * run.stride

/-- The denoted set. -/
def elements (run : Run) : Set ℤ :=
  {v | ∃ i, 0 ≤ i ∧ i < run.count ∧ v = run.start + i * run.stride}

/-- Canonical and representable: every element, the span and the count fit 64 bits. -/
structure Valid (run : Run) : Prop where
  lower : int64Min ≤ run.start
  countPos : 1 ≤ run.count
  countFits : run.count ≤ int64Max
  stridePos : 1 ≤ run.stride
  canonical : run.count = 1 → run.stride = 1
  span : (run.count - 1) * run.stride ≤ int64Max
  representable : run.last ≤ int64Max

/-- A run that holds one value. -/
def single (value : ℤ) : Run := ⟨value, 1, 1⟩

theorem elements_eq (run : Run) (positive : 1 ≤ run.stride) :
    run.elements = progression run.start run.stride run.last := by
  ext v
  exact (mem_progression_index (by omega) run.count v).symm

namespace Valid

variable {run : Run} (valid : run.Valid)

include valid

theorem elements_eq : run.elements = progression run.start run.stride run.last :=
  run.elements_eq valid.stridePos

theorem start_le_last : run.start ≤ run.last := by
  have := mul_nonneg (show 0 ≤ run.count - 1 by have := valid.countPos; omega)
    (show 0 ≤ run.stride by have := valid.stridePos; omega)
  rw [last]
  omega

omit valid in
theorem reaches : run.stride ∣ run.last - run.start :=
  ⟨run.count - 1, by rw [last]; ring⟩

theorem start_mem : run.start ∈ run.elements :=
  valid.elements_eq ▸ Library.Progression.start_mem valid.start_le_last

theorem last_mem : run.last ∈ run.elements :=
  valid.elements_eq ▸ Library.Progression.last_mem valid.start_le_last reaches

theorem mem_iff {v : ℤ} :
    v ∈ run.elements ↔ run.start ≤ v ∧ v ≤ run.last ∧ run.stride ∣ v - run.start := by
  rw [valid.elements_eq, mem_progression]

theorem isLeast : IsLeast run.elements run.start :=
  ⟨valid.start_mem, fun _ member => (valid.mem_iff.mp member).1⟩

theorem isGreatest : IsGreatest run.elements run.last :=
  ⟨valid.last_mem, fun _ member => (valid.mem_iff.mp member).2.1⟩

theorem last_sub_start_le : run.last - run.start ≤ int64Max := by
  have := valid.span
  rw [last]
  omega

theorem ncard_elements : (run.elements.ncard : ℤ) = run.count := by
  rw [valid.elements_eq]
  exact ncard_progression valid.stridePos (by have := valid.countPos; omega)

/-- A distance on the run holds no more strides than the run has gaps. -/
theorem tdiv_stride_lt_count {distance : ℤ} (nonneg : 0 ≤ distance)
    (within : distance ≤ run.last - run.start) : distance.tdiv run.stride < run.count := by
  have positive : 0 < run.stride := valid.stridePos
  rw [Int.tdiv_eq_ediv_of_nonneg nonneg, Int.ediv_lt_iff_lt_mul positive]
  have : run.count * run.stride = (run.count - 1) * run.stride + run.stride := by ring
  rw [last] at within
  omega

theorem finite : run.elements.Finite := by
  refine Set.finite_of_ncard_pos ?_
  have := valid.ncard_elements
  have := valid.countPos
  omega

end Valid

theorem valid_single {value : ℤ} (inRange : InInt64 value) : (single value).Valid :=
  ⟨inRange.1, le_rfl, int64Max_pos, le_rfl, fun _ => rfl, by simp [single, int64Max_pos.le],
    by simp [single, last, inRange.2]⟩

@[simp] theorem elements_single (value : ℤ) : (single value).elements = {value} := by
  rw [elements_eq _ le_rfl]
  simp [single, last]

end Run

open Run

/-! ### Checked constructors -/

/-- A normalised representable run, the single validation point. -/
def makeRun (start stride count : ℤ) : Option Run :=
  if count < 1 ∨ stride < 1 then none
  else if count = 1 then some ⟨start, 1, 1⟩
  else
    let span := (count - 1) * stride
    if span > int64Max ∨ start + span > int64Max then none else some ⟨start, stride, count⟩

/-- The run from `start` through `last`, inclusive. -/
def makeRunThrough (start stride last : ℤ) : Option Run :=
  if stride < 1 ∨ last < start then none
  else
    let distance := last - start
    if distance.tmod stride ≠ 0 then none
    else
      let count := distance.tdiv stride + 1
      if count > int64Max then none else makeRun start stride count

/-- A run that `makeRun` returns is valid and holds the requested values. -/
theorem makeRun_eq_some {start stride count : ℤ} {run : Run} (startIn : InInt64 start)
    (countFits : count ≤ int64Max) (made : makeRun start stride count = some run) :
    run.Valid ∧ run.start = start ∧ run.count = count ∧ 1 ≤ count ∧ 1 ≤ stride ∧
      run.last = start + (count - 1) * stride ∧
      run.elements = progression start stride (start + (count - 1) * stride) := by
  unfold makeRun at made
  split at made
  · exact absurd made (by simp)
  · rename_i inRange
    obtain ⟨countPos, stridePos⟩ := not_or.mp inRange
    split at made
    · rename_i one
      obtain rfl := Option.some.inj made
      subst one
      refine ⟨valid_single startIn, rfl, rfl, le_rfl, by omega, by simp [last], ?_⟩
      exact (elements_single start).trans (by simp)
    · rename_i many
      dsimp only at made
      split at made
      · exact absurd made (by simp)
      · rename_i fits
        obtain ⟨spanLe, lastLe⟩ := not_or.mp fits
        obtain rfl := Option.some.inj made
        have valid : Valid ⟨start, stride, count⟩ :=
          ⟨startIn.1, by simp only; omega, countFits, by simp only; omega,
            fun one => absurd one many, by simp only; omega, by simp only [last]; omega⟩
        exact ⟨valid, rfl, rfl, by omega, by omega, rfl, valid.elements_eq⟩

theorem makeRun_isSome {start stride count : ℤ} (countPos : 1 ≤ count) (stridePos : 1 ≤ stride)
    (span : (count - 1) * stride ≤ int64Max) (last : start + (count - 1) * stride ≤ int64Max) :
    ∃ run, makeRun start stride count = some run := by
  unfold makeRun
  rw [if_neg (by omega)]
  split
  · exact ⟨_, rfl⟩
  · dsimp only
    rw [if_neg (by omega)]
    exact ⟨_, rfl⟩

theorem makeRunThrough_eq_some {start stride last : ℤ} {run : Run} (startIn : InInt64 start)
    (made : makeRunThrough start stride last = some run) :
    run.Valid ∧ run.start = start ∧ run.last = last ∧
      run.elements = progression start stride last := by
  unfold makeRunThrough at made
  split at made
  · exact absurd made (by simp)
  · rename_i inRange
    obtain ⟨stridePos, ordered⟩ := not_or.mp inRange
    dsimp only at made
    split at made
    · exact absurd made (by simp)
    · rename_i exactly
      split at made
      · exact absurd made (by simp)
      · rename_i countFits
        have quotient : (last - start).tdiv stride * stride = last - start :=
          Int.tdiv_mul_cancel (Int.dvd_of_tmod_eq_zero (not_not.mp exactly))
        obtain ⟨valid, startEq, _, _, _, lastEq, elementsEq⟩ :=
          makeRun_eq_some startIn (not_lt.mp countFits) made
        have ends : start + ((last - start).tdiv stride + 1 - 1) * stride = last := by
          rw [add_sub_cancel_right, quotient]
          omega
        rw [ends] at lastEq elementsEq
        exact ⟨valid, startEq, lastEq, elementsEq⟩

/-! ### Extended gcd -/

/-- The loop of `extendedGcd`: `(r0, r1)` are remainders, `(x0, x1)` their coefficients. -/
def extendedGcdLoop : ℕ → ℤ → ℤ → ℤ → ℤ → ℤ × ℤ
  | 0, x0, _, r0, _ => (r0, x0)
  | fuel + 1, x0, x1, r0, r1 =>
      if r1 = 0 then (r0, x0)
      else
        let q := r0.tdiv r1
        extendedGcdLoop fuel x1 (x0 - q * x1) r1 (r0 - q * r1)

/-- `g = gcd(a, b)` and a coefficient `x` with `a * x ≡ g (mod b)`. The second
remainder falls in every round, so `b` rounds suffice. -/
def extendedGcd (a b : ℤ) : ℤ × ℤ :=
  extendedGcdLoop (b.toNat + 1) 1 0 a b

/-- What `extendedGcd` promises: a common divisor that is a combination. -/
structure Bezout (a b g x : ℤ) : Prop where
  positive : 0 < g
  dvd_left : g ∣ a
  dvd_right : g ∣ b
  inverse : b ∣ a * x - g

theorem extendedGcdLoop_bezout {a b : ℤ} (fuel : ℕ) :
    ∀ {x0 x1 r0 r1 : ℤ}, r1.toNat < fuel → 0 ≤ r1 → 0 < r0 → b ∣ a * x0 - r0 → b ∣ a * x1 - r1 →
      (∀ d, d ∣ r0 → d ∣ r1 → d ∣ a ∧ d ∣ b) →
        Bezout a b (extendedGcdLoop fuel x0 x1 r0 r1).1 (extendedGcdLoop fuel x0 x1 r0 r1).2 := by
  induction fuel with
  | zero => intro x0 x1 r0 r1 enough; omega
  | succ fuel ih =>
      intro x0 x1 r0 r1 enough nonneg positive first second common
      rw [extendedGcdLoop]
      split
      · rename_i done
        have divides := common r0 dvd_rfl (done ▸ dvd_zero r0)
        exact ⟨positive, divides.1, divides.2, first⟩
      · rename_i more
        have secondPos : 0 < r1 := by omega
        have remainder : r0 - r0.tdiv r1 * r1 = r0 % r1 := by
          rw [Int.tdiv_eq_ediv_of_nonneg positive.le]
          have := Int.emod_add_mul_ediv r0 r1
          rw [mul_comm] at this
          omega
        have remainderNonneg := Int.emod_nonneg r0 more
        have remainderLt := Int.emod_lt_of_pos r0 secondPos
        refine ih (by rw [remainder]; omega) (by rw [remainder]; omega) secondPos
          second ?_ fun d left right => ?_
        · have : a * (x0 - r0.tdiv r1 * x1) - (r0 - r0.tdiv r1 * r1) =
              (a * x0 - r0) - r0.tdiv r1 * (a * x1 - r1) := by ring
          rw [this]
          exact dvd_sub first (second.mul_left _)
        · refine common d ?_ left
          have : r0 = (r0 - r0.tdiv r1 * r1) + r0.tdiv r1 * r1 := by ring
          rw [this]
          exact dvd_add right (left.mul_left _)

theorem extendedGcd_bezout {a b : ℤ} (aPos : 0 < a) (bPos : 0 < b) :
    Bezout a b (extendedGcd a b).1 (extendedGcd a b).2 :=
  extendedGcdLoop_bezout (b.toNat + 1) (Nat.lt_succ_self _) bPos.le aPos (by simp) (by simp)
    fun _ left right => ⟨left, right⟩

/-! ### Intersection -/

/-- `t` with `da * t ≡ diff (mod db)`, reduced into `[0, m)` where `m = db / g`. -/
def congruenceOffset (diff g bez m : ℤ) : ℤ :=
  let t0 := ((diff.tdiv g).tmod m * (bez.tmod m + m).tmod m).tmod m
  (t0.tmod m + m).tmod m

/-- The common elements of two runs, themselves a run. The flag reports that a
result did not fit 64 bits. -/
def intersectRuns (a b : Run) : Option Run × Bool :=
  let lo := max a.start b.start
  let hi := min a.last b.last
  if lo > hi then (none, false)
  else
    let da := a.stride
    let db := b.stride
    let (g, bez) := extendedGcd da db
    let diff := b.start - a.start
    if diff.tmod g ≠ 0 then (none, false)
    else
      let lcm := da.tdiv g * db
      let m := db.tdiv g
      let x0 := a.start + da * congruenceOffset diff g bez m
      if lcm > int64Max then
        -- The period exceeds every window, so at most one element is common.
        if x0 < lo ∨ x0 > hi then (none, false) else (makeRun x0 1 1, false)
      else
        let x0 := if x0 < lo then x0 + (lo - x0 + lcm - 1).tdiv lcm * lcm else x0
        if x0 > hi then (none, false)
        else
          let n := (hi - x0).tdiv lcm + 1
          if n = 1 then (makeRun x0 1 1, false)
          else
            match makeRun x0 lcm n with
            | some run => (some run, false)
            | none => (none, true)

private theorem dvd_tmod_sub (value m : ℤ) : m ∣ value.tmod m - value := by
  have split := Int.tmod_add_mul_tdiv value m
  exact ⟨-value.tdiv m, by rw [mul_neg]; omega⟩

theorem congruenceOffset_range {m : ℤ} (positive : 0 < m) (diff g bez : ℤ) :
    0 ≤ congruenceOffset diff g bez m ∧ congruenceOffset diff g bez m < m := by
  rw [congruenceOffset]
  generalize ((diff.tdiv g).tmod m * (bez.tmod m + m).tmod m).tmod m = t
  have lower : -m ≤ t.tmod m := by
    have := Int.emod_nonneg t (ne_of_gt positive)
    rw [Int.tmod_eq_emod]
    split <;> omega
  have upper := Int.tmod_lt_of_pos (t.tmod m + m) positive
  exact ⟨Int.tmod_nonneg m (by omega), upper⟩

theorem congruenceOffset_solves {da db g bez diff : ℤ} (bezout : Bezout da db g bez)
    (divides : g ∣ diff) : db ∣ da * congruenceOffset diff g bez (db.tdiv g) - diff := by
  obtain ⟨m, mEq⟩ := bezout.dvd_right
  obtain ⟨k, kEq⟩ := bezout.inverse
  obtain ⟨ratio, ratioEq⟩ := divides
  obtain ⟨cofactor, cofactorEq⟩ := bezout.dvd_left
  have gNe : g ≠ 0 := ne_of_gt bezout.positive
  have mIs : db.tdiv g = m := by rw [mEq, Int.mul_tdiv_cancel_left _ gNe]
  have ratioIs : diff.tdiv g = ratio := by rw [ratioEq, Int.mul_tdiv_cancel_left _ gNe]
  -- Modulo `m` every remainder taken on the way may be dropped.
  have reduced : m ∣ congruenceOffset diff g bez m - ratio * bez := by
    obtain ⟨outer, outerEq⟩ := dvd_tmod_sub
      ((((diff.tdiv g).tmod m * (bez.tmod m + m).tmod m).tmod m).tmod m + m) m
    obtain ⟨second, secondEq⟩ := dvd_tmod_sub
      (((diff.tdiv g).tmod m * (bez.tmod m + m).tmod m).tmod m) m
    obtain ⟨third, thirdEq⟩ := dvd_tmod_sub
      ((diff.tdiv g).tmod m * (bez.tmod m + m).tmod m) m
    obtain ⟨left, leftEq⟩ := dvd_tmod_sub (diff.tdiv g) m
    obtain ⟨right, rightEq⟩ := dvd_tmod_sub (bez.tmod m + m) m
    obtain ⟨inner, innerEq⟩ := dvd_tmod_sub bez m
    have leftIs : (diff.tdiv g).tmod m = ratio + m * left := by rw [ratioIs] at *; omega
    have rightIs : (bez.tmod m + m).tmod m = bez + m * (inner + 1 + right) := by
      rw [mul_add, mul_add, mul_one]
      omega
    refine ⟨outer + second + third + 1 + ratio * (inner + 1 + right) + left * bez +
      m * left * (inner + 1 + right), ?_⟩
    have product : (diff.tdiv g).tmod m * (bez.tmod m + m).tmod m = ratio * bez +
        m * (ratio * (inner + 1 + right) + left * bez + m * left * (inner + 1 + right)) := by
      rw [leftIs, rightIs]
      ring
    rw [congruenceOffset]
    linarith
  obtain ⟨steps, stepsEq⟩ := reduced
  rw [mIs]
  refine ⟨ratio * k + cofactor * steps, ?_⟩
  have offsetIs : congruenceOffset diff g bez m = ratio * bez + m * steps := by omega
  calc da * congruenceOffset diff g bez m - diff
      = ratio * (da * bez - g) + da * (m * steps) := by rw [offsetIs, ratioEq]; ring
    _ = ratio * (db * k) + g * cofactor * (m * steps) := by rw [kEq, ← cofactorEq]
    _ = db * (ratio * k + cofactor * steps) := by rw [mEq]; ring

/-- `result` is the intersection of two runs, or `none` when it is empty. -/
structure IntersectionOf (a b : Run) (result : Option Run) : Prop where
  empty : result = none → a.elements ∩ b.elements = ∅
  exact : ∀ run, result = some run → run.Valid ∧ run.elements = a.elements ∩ b.elements

private theorem intersectionOf_none {a b : Run} (empty : a.elements ∩ b.elements = ∅) :
    IntersectionOf a b none :=
  ⟨fun _ => empty, fun _ absurd => by simp at absurd⟩

private theorem intersectionOf_some {a b run : Run} (valid : run.Valid)
    (same : run.elements = a.elements ∩ b.elements) : IntersectionOf a b (some run) :=
  ⟨fun absurd => by simp at absurd, fun other found => by
    obtain rfl := Option.some.inj found
    exact ⟨valid, same⟩⟩

private theorem elements_inter {a b : Run} (validA : a.Valid) (validB : b.Valid) {g bez : ℤ}
    (bezout : Bezout a.stride b.stride g bez) (compatible : g ∣ b.start - a.start) :
    let x0 := a.start + a.stride * congruenceOffset (b.start - a.start) g bez (b.stride.tdiv g)
    let lcm := a.stride.tdiv g * b.stride
    a.elements ∩ b.elements =
        {v | max a.start b.start ≤ v ∧ v ≤ min a.last b.last ∧ lcm ∣ v - x0} ∧
      a.start ≤ x0 ∧ x0 < a.start + lcm := by
  intro x0 lcm
  have aPos : 0 < a.stride := validA.stridePos
  have gNe : g ≠ 0 := ne_of_gt bezout.positive
  obtain ⟨m, mEq⟩ := bezout.dvd_right
  have mIs : b.stride.tdiv g = m := by rw [mEq, Int.mul_tdiv_cancel_left _ gNe]
  have mPos : 0 < m := pos_of_mul_pos_right (mEq ▸ validB.stridePos) bezout.positive.le
  have lcmIs : lcm = a.stride * m := by
    show a.stride.tdiv g * b.stride = a.stride * m
    rw [mEq, ← mul_assoc, Int.tdiv_mul_cancel bezout.dvd_left]
  obtain ⟨offsetNonneg, offsetLt⟩ :=
    congruenceOffset_range (mIs ▸ mPos) (b.start - a.start) g bez
  have solves := congruenceOffset_solves bezout compatible
  have both : ∀ v, a.stride ∣ v - x0 ∧ b.stride ∣ v - x0 ↔ lcm ∣ v - x0 := fun v =>
    lcmIs ▸ dvd_and_dvd_iff mEq bezout.dvd_left bezout.inverse bezout.positive
  refine ⟨?_, ?_, ?_⟩
  · rw [validA.elements_eq, validB.elements_eq]
    refine progression_inter both ⟨_, add_sub_cancel_left _ _⟩ ?_
    have : x0 - b.start = a.stride * congruenceOffset (b.start - a.start) g bez
        (b.stride.tdiv g) - (b.start - a.start) := by
      show a.start + _ - b.start = _
      ring
    exact this ▸ solves
  · have := mul_nonneg aPos.le offsetNonneg
    show a.start ≤ a.start + _
    omega
  · have := mul_lt_mul_of_pos_left offsetLt aPos
    rw [mIs, ← lcmIs] at this
    rw [← mIs] at this
    show a.start + _ < a.start + lcm
    omega

private theorem intersectionOf_one {a b : Run} {value : ℤ} (inRange : InInt64 value)
    (same : a.elements ∩ b.elements = {value}) : IntersectionOf a b (makeRun value 1 1) := by
  have made : makeRun value 1 1 = some (single value) := by simp [makeRun, single]
  rw [made]
  exact intersectionOf_some (valid_single inRange) ((elements_single value).trans same.symm)

private theorem mem_sparse_iff {lo hi x0 lcm : ℤ}
    (near : ∀ v, lo ≤ v → v ≤ hi → |v - x0| < lcm) (v : ℤ) :
    (lo ≤ v ∧ v ≤ hi ∧ lcm ∣ v - x0) ↔ v = x0 ∧ lo ≤ x0 ∧ x0 ≤ hi := by
  constructor
  · rintro ⟨lower, upper, divides⟩
    have same : v = x0 := by
      have := Int.eq_zero_of_abs_lt_dvd divides (near v lower upper)
      omega
    exact ⟨same, same ▸ lower, same ▸ upper⟩
  · rintro ⟨rfl, lower, upper⟩
    exact ⟨lower, upper, by simp⟩

private theorem advanced_least {lo x0 lcm : ℤ} (lcmPos : 0 < lcm) (near : x0 < lo + lcm) :
    let first := if x0 < lo then x0 + (lo - x0 + lcm - 1).tdiv lcm * lcm else x0
    lo ≤ first ∧ first < lo + lcm ∧ lcm ∣ first - x0 := by
  intro first
  show lo ≤ ite _ _ _ ∧ ite _ _ _ < lo + lcm ∧ lcm ∣ ite _ _ _ - x0
  split
  · rename_i before
    rw [Int.tdiv_eq_ediv_of_nonneg (by omega)]
    have split := Int.emod_add_mul_ediv (lo - x0 + lcm - 1) lcm
    have lower := Int.emod_nonneg (lo - x0 + lcm - 1) (ne_of_gt lcmPos)
    have upper := Int.emod_lt_of_pos (lo - x0 + lcm - 1) lcmPos
    rw [mul_comm] at split
    exact ⟨by omega, by omega, ⟨_, by rw [add_sub_cancel_left, mul_comm]⟩⟩
  · exact ⟨by omega, near, by simp⟩

private theorem dense_exact {a b : Run} (validA : a.Valid) {first lcm hi : ℤ} (lcmPos : 0 < lcm)
    (firstIn : int64Min ≤ first) (hiIn : hi ≤ int64Max) (spanFits : hi - first ≤ int64Max)
    (common : a.elements ∩ b.elements = progression first lcm hi) :
    ∃ result, (if first > hi then (none, false)
        else
          let n := (hi - first).tdiv lcm + 1
          if n = 1 then (makeRun first 1 1, false)
          else
            match makeRun first lcm n with
            | some run => (some run, false)
            | none => (none, true)) = (result, false) ∧ IntersectionOf a b result := by
  split
  · rename_i past
    refine ⟨none, rfl, intersectionOf_none ?_⟩
    rw [common]
    exact Set.eq_empty_of_forall_notMem fun v member => by
      have := member.1.trans member.2.1
      omega
  · rename_i inside
    have quotientNonneg : 0 ≤ (hi - first) / lcm := Int.ediv_nonneg (by omega) lcmPos.le
    have floor := Int.ediv_mul_le (hi - first) (ne_of_gt lcmPos)
    have trimmed := progression_trim lcmPos first hi
    rw [Int.tdiv_eq_ediv_of_nonneg (by omega)]
    dsimp only
    split
    · rename_i one
      have zero : (hi - first) / lcm = 0 := by omega
      rw [zero, zero_mul, add_zero, progression_self] at trimmed
      exact ⟨_, rfl, intersectionOf_one ⟨firstIn, by omega⟩ (common.trans trimmed.symm)⟩
    · obtain ⟨run, made⟩ := makeRun_isSome (show 1 ≤ (hi - first) / lcm + 1 by omega)
        (show 1 ≤ lcm by omega) (by rw [add_sub_cancel_right]; omega)
        (show first + _ ≤ int64Max by rw [add_sub_cancel_right]; omega)
      rw [made]
      refine ⟨some run, rfl, ?_⟩
      -- No more common elements than `a` has.
      have countFits : (hi - first) / lcm + 1 ≤ int64Max := by
        have size := @ncard_progression first lcm lcmPos ((hi - first) / lcm + 1) (by omega)
        rw [add_sub_cancel_right, trimmed, ← common] at size
        have fewer := Set.ncard_inter_le_ncard_left a.elements b.elements validA.finite
        have total := validA.ncard_elements
        have fits := validA.countFits
        omega
      obtain ⟨valid, _, _, _, _, _, elementsEq⟩ :=
        makeRun_eq_some ⟨firstIn, by omega⟩ countFits made
      refine intersectionOf_some valid ?_
      rw [elementsEq, add_sub_cancel_right, trimmed, common]

/-- **Intersection is exact.** For valid runs the flag is never raised, and the
result is the run of common elements. -/
theorem intersectRuns_spec {a b : Run} (validA : a.Valid) (validB : b.Valid) :
    ∃ result, intersectRuns a b = (result, false) ∧ IntersectionOf a b result := by
  have bezout := extendedGcd_bezout validA.stridePos validB.stridePos
  unfold intersectRuns
  dsimp only
  split
  · rename_i apart
    refine ⟨none, rfl, intersectionOf_none (Set.eq_empty_of_forall_notMem ?_)⟩
    rintro v ⟨inA, inB⟩
    have left := validA.mem_iff.mp inA
    have right := validB.mem_iff.mp inB
    omega
  · split
    · rename_i incompatible
      refine ⟨none, rfl, intersectionOf_none (Set.eq_empty_of_forall_notMem ?_)⟩
      rintro v ⟨inA, inB⟩
      refine incompatible (Int.tmod_eq_zero_of_dvd ?_)
      rw [← sub_sub_sub_cancel_left a.start b.start v]
      exact dvd_sub (bezout.dvd_left.trans (validA.mem_iff.mp inA).2.2)
        (bezout.dvd_right.trans (validB.mem_iff.mp inB).2.2)
    · rename_i compatible
      obtain ⟨inter, above, below⟩ := elements_inter validA validB bezout
        (Int.dvd_of_tmod_eq_zero (not_not.mp compatible))
      generalize a.start + a.stride * congruenceOffset (b.start - a.start)
        (extendedGcd a.stride b.stride).1 (extendedGcd a.stride b.stride).2
        (b.stride.tdiv (extendedGcd a.stride b.stride).1) = x0 at inter above below ⊢
      generalize a.stride.tdiv (extendedGcd a.stride b.stride).1 * b.stride = lcm
        at inter below ⊢
      have spanA := validA.last_sub_start_le
      have lastA := validA.representable
      have lowerA := validA.lower
      split
      · -- Every window is shorter than the period.
        have only := fun v => @mem_sparse_iff (max a.start b.start) (min a.last b.last) x0 lcm
          (fun v lower upper => abs_lt.mpr ⟨by omega, by omega⟩) v
        split
        · refine ⟨none, rfl, intersectionOf_none (Set.eq_empty_of_forall_notMem fun v member => ?_)⟩
          rw [inter] at member
          have := ((only v).mp member).2
          omega
        · refine ⟨_, rfl, intersectionOf_one ⟨by omega, by omega⟩ (Set.ext fun v => ?_)⟩
          rw [inter, Set.mem_singleton_iff]
          exact (only v).trans ⟨fun member => member.1, fun same => ⟨same, by omega, by omega⟩⟩
      · have lcmPos : 0 < lcm := by omega
        obtain ⟨inWindow, least, onClass⟩ :=
          @advanced_least (max a.start b.start) x0 lcm lcmPos (by omega)
        generalize (if x0 < max a.start b.start then
          x0 + (max a.start b.start - x0 + lcm - 1).tdiv lcm * lcm else x0) = first
          at inWindow least onClass ⊢
        have common : a.elements ∩ b.elements = progression first lcm (min a.last b.last) := by
          rw [inter, ← window_eq_progression inWindow least]
          ext v
          have shift : lcm ∣ v - x0 ↔ lcm ∣ v - first := by
            rw [← sub_add_sub_cancel v first x0, dvd_add_left onClass]
          simp only [Set.mem_ofPred_eq, shift]
        exact dense_exact validA lcmPos (by omega) (by omega) (by omega) common

/-! ### Difference -/

def unionOf (runs : List Run) : Set ℤ :=
  {v | ∃ run ∈ runs, v ∈ run.elements}

@[simp] theorem unionOf_nil : unionOf [] = ∅ := by
  simp [unionOf]

@[simp] theorem unionOf_cons (run : Run) (runs : List Run) :
    unionOf (run :: runs) = run.elements ∪ unionOf runs := by
  ext v
  simp [unionOf]

@[simp] theorem unionOf_append (left right : List Run) :
    unionOf (left ++ right) = unionOf left ∪ unionOf right := by
  induction left with
  | nil => simp
  | cons first rest ih => simp [ih, Set.union_assoc]

/-- Emit one surviving piece for one unit of budget. -/
def emit (piece : Run) (out : List Run) (budget : ℕ) : Option (List Run × ℕ) :=
  if budget = 0 then none
  else (makeRun piece.start piece.stride piece.count).map fun run => (out ++ [run], budget - 1)

/-- The survivors between consecutive cut elements, from class `j` on. -/
def subtractBody (r cut : Run) : ℕ → ℤ → List Run → ℕ → Option (List Run × ℕ)
  | 0, _, out, budget => some (out, budget)
  | remaining + 1, j, out, budget =>
      match checkedMultiply j r.stride with
      | none => some (out, budget)
      | some classOffset =>
          match checkedAdd cut.start classOffset with
          | none => some (out, budget)
          | some classStart =>
              if classStart > r.last then some (out, budget)
              else
                let n := min (cut.count - 1) ((r.last - classStart).tdiv cut.stride + 1)
                if n ≥ 1 then
                  (emit ⟨classStart, cut.stride, n⟩ out budget).bind fun (out, budget) =>
                    subtractBody r cut remaining (j + 1) out budget
                else subtractBody r cut remaining (j + 1) out budget

/-- `r \ cut` for a sub-progression `cut` of `r`: head, body and tail. -/
def subtractSubProgression (r cut : Run) (budget : ℕ) : Option (List Run × ℕ) :=
  let head :=
    if cut.start > r.start then
      emit ⟨r.start, r.stride, (cut.start - r.start).tdiv r.stride⟩ [] budget
    else some ([], budget)
  let body := head.bind fun (out, budget) =>
    let q := cut.stride.tdiv r.stride
    if q > 1 ∧ cut.count ≥ 1 then subtractBody r cut (q - 1).toNat 1 out budget
    else some (out, budget)
  body.bind fun (out, budget) =>
    match checkedAdd cut.last r.stride with
    | some afterCut =>
        if afterCut ≤ r.last then
          emit ⟨afterCut, r.stride, (r.last - afterCut).tdiv r.stride + 1⟩ out budget
        else some (out, budget)
    | none => some (out, budget)

/-- `after` adds valid runs that cover `added` to `before`. -/
def Emits (before after : List Run) (added : Set ℤ) : Prop :=
  ∃ runs, after = before ++ runs ∧ (∀ run ∈ runs, run.Valid) ∧ unionOf runs = added

theorem Emits.none (out : List Run) : Emits out out ∅ :=
  ⟨[], by simp, by simp, unionOf_nil⟩

theorem Emits.trans {first second third : List Run} {left right : Set ℤ}
    (earlier : Emits first second left) (later : Emits second third right) :
    Emits first third (left ∪ right) := by
  obtain ⟨leftRuns, rfl, leftValid, rfl⟩ := earlier
  obtain ⟨rightRuns, rfl, rightValid, rfl⟩ := later
  refine ⟨leftRuns ++ rightRuns, by simp, fun run member => ?_, unionOf_append _ _⟩
  exact (List.mem_append.mp member).elim (leftValid run) (rightValid run)

theorem emit_emits {piece : Run} {out after : List Run} {budget left : ℕ}
    (emitted : emit piece out budget = some (after, left)) (startIn : InInt64 piece.start)
    (countFits : piece.count ≤ int64Max) :
    Emits out after (progression piece.start piece.stride
      (piece.start + (piece.count - 1) * piece.stride)) := by
  unfold emit at emitted
  split at emitted
  · exact absurd emitted (by simp)
  · obtain ⟨run, made, same⟩ := Option.map_eq_some_iff.mp emitted
    obtain ⟨rfl, _⟩ := Prod.mk.inj same
    obtain ⟨valid, _, _, _, _, _, elementsEq⟩ := makeRun_eq_some startIn countFits made
    exact ⟨[run], rfl, by simpa using valid, by simp [elementsEq]⟩

section Difference

variable {r cut : Run} (validR : r.Valid) (validCut : cut.Valid)
  (within : cut.elements ⊆ r.elements)

include validR validCut within

theorem cut_ends : r.start ≤ cut.start ∧ cut.last ≤ r.last ∧ r.stride ∣ cut.start - r.start ∧
    r.stride ∣ cut.last - r.start := by
  have first := validR.mem_iff.mp (within validCut.start_mem)
  have last := validR.mem_iff.mp (within validCut.last_mem)
  exact ⟨first.1, last.2.1, first.2.2, last.2.2⟩

/-- Two consecutive cut elements lie on `r`, so the cut's stride is a multiple. -/
theorem stride_dvd_cut (many : 2 ≤ cut.count) : r.stride ∣ cut.stride := by
  have first := (validR.mem_iff.mp (within validCut.start_mem)).2.2
  have secondIn : cut.start + 1 * cut.stride ∈ cut.elements := ⟨1, by omega, by omega, rfl⟩
  have second := (validR.mem_iff.mp (within secondIn)).2.2
  have := dvd_sub second first
  rwa [one_mul, sub_sub_sub_cancel_right, add_sub_cancel_left] at this

omit validR within in
/-- The class `j` starts and ends between the first and the last cut element. -/
theorem class_bounds {ratio j : ℤ} (stridePos : 0 < r.stride)
    (ratioEq : cut.stride = ratio * r.stride)
    (many : 2 ≤ cut.count) (jPos : 1 ≤ j) (below : j < ratio) :
    cut.start ≤ cut.start + j * r.stride ∧ cut.start + j * r.stride ≤ cut.last ∧
      cut.start + j * r.stride + (cut.count - 1 - 1) * cut.stride =
        cut.last - ratio * r.stride + j * r.stride ∧
      cut.last - ratio * r.stride + j * r.stride ≤ cut.last := by
  have periodPos : 0 < cut.stride := validCut.stridePos
  have lastEq : cut.last = cut.start + (cut.count - 1) * cut.stride := rfl
  have offsetNonneg : 0 ≤ j * r.stride := mul_nonneg (by omega) stridePos.le
  have offsetLt : j * r.stride < cut.stride :=
    ratioEq ▸ mul_lt_mul_of_pos_right below stridePos
  have oneGap : cut.stride ≤ (cut.count - 1) * cut.stride :=
    le_mul_of_one_le_left periodPos.le (by omega)
  refine ⟨by omega, by omega, ?_, by omega⟩
  rw [lastEq, ← ratioEq]
  ring

/-- One round of the body emits the class `j` between the cut elements. -/
theorem subtractBody_step {ratio j : ℤ} (ratioEq : cut.stride = ratio * r.stride)
    (many : 2 ≤ cut.count) (jPos : 1 ≤ j) (below : j < ratio) (remaining : ℕ) (out : List Run)
    (budget : ℕ) : subtractBody r cut (remaining + 1) j out budget =
      (emit ⟨cut.start + j * r.stride, cut.stride, cut.count - 1⟩ out budget).bind fun state =>
        subtractBody r cut remaining (j + 1) state.1 state.2 := by
  obtain ⟨startLe, lastLe, _, _⟩ := cut_ends validR validCut within
  have stridePos : 0 < r.stride := validR.stridePos
  have periodPos : 0 < cut.stride := validCut.stridePos
  obtain ⟨above, reached, ended, inside⟩ :=
    class_bounds validCut stridePos ratioEq many jPos below
  have offsetNonneg : 0 ≤ j * r.stride := mul_nonneg (by omega) stridePos.le
  have spanLe := validCut.last_sub_start_le
  have lastIn := validR.representable
  have lowerIn := validCut.lower
  have minNeg := int64Min_neg
  have offsetFits : checkedMultiply j r.stride = some (j * r.stride) :=
    checkedMultiply_eq_some.mpr ⟨⟨by omega, by omega⟩, rfl⟩
  have startFits : checkedAdd cut.start (j * r.stride) = some (cut.start + j * r.stride) :=
    checkedAdd_eq_some.mpr ⟨⟨by omega, by omega⟩, rfl⟩
  have notPast : ¬cut.start + j * r.stride > r.last := by omega
  have count : min (cut.count - 1)
      ((r.last - (cut.start + j * r.stride)).tdiv cut.stride + 1) = cut.count - 1 := by
    rw [Int.tdiv_eq_ediv_of_nonneg (by omega)]
    have : cut.count - 2 ≤ (r.last - (cut.start + j * r.stride)) / cut.stride := by
      rw [Int.le_ediv_iff_mul_le periodPos, show cut.count - 2 = cut.count - 1 - 1 by ring]
      omega
    omega
  rw [subtractBody, offsetFits]
  simp only [startFits, if_neg notPast, count, if_pos (show cut.count - 1 ≥ 1 by omega)]

/-- The body emits every class between the cut elements from class `j` on. -/
theorem subtractBody_emits {ratio : ℤ} (ratioEq : cut.stride = ratio * r.stride)
    (many : 2 ≤ cut.count) (remaining : ℕ) :
    ∀ {j : ℤ} {out after : List Run} {budget left : ℕ}, 1 ≤ j → j + remaining = ratio →
      subtractBody r cut remaining j out budget = some (after, left) →
        Emits out after {v | ∃ k, j ≤ k ∧ k < ratio ∧ v ∈ progression (cut.start + k * r.stride)
          (ratio * r.stride) (cut.last - ratio * r.stride + k * r.stride)} := by
  obtain ⟨startLe, lastLe, _, _⟩ := cut_ends validR validCut within
  have stridePos : 0 < r.stride := validR.stridePos
  have lastIn := validR.representable
  have lowerIn := validCut.lower
  induction remaining with
  | zero =>
      intro j out after budget left _ total result
      obtain ⟨rfl, _⟩ := Prod.mk.inj (Option.some.inj result)
      have empty : {v | ∃ k, j ≤ k ∧ k < ratio ∧ v ∈ progression (cut.start + k * r.stride)
          (ratio * r.stride) (cut.last - ratio * r.stride + k * r.stride)} = ∅ := by
        refine Set.eq_empty_of_forall_notMem ?_
        rintro v ⟨k, above, below, _⟩
        push_cast at total
        omega
      exact empty ▸ Emits.none out
  | succ remaining ih =>
      intro j out after budget left jPos total result
      push_cast at total
      rw [subtractBody_step validR validCut within ratioEq many jPos (by omega)] at result
      obtain ⟨⟨middle, rest⟩, emitted, remainder⟩ := Option.bind_eq_some_iff.mp result
      have countFits := validCut.countFits
      obtain ⟨above, reached, classEnd, _⟩ :=
        class_bounds validCut stridePos ratioEq many jPos (by omega)
      have piece := emit_emits emitted ⟨by simp only; omega, by simp only; omega⟩
        (by simp only; omega)
      have later := ih (by omega) (by omega) remainder
      have both := piece.trans later
      convert both using 1
      dsimp only
      rw [classEnd, ratioEq]
      ext v
      constructor
      · rintro ⟨k, above, below, member⟩
        rcases above.lt_or_eq with more | rfl
        · exact Or.inr ⟨k, by omega, below, member⟩
        · exact Or.inl member
      · rintro (member | ⟨k, above, below, member⟩)
        · exact ⟨j, le_rfl, by omega, member⟩
        · exact ⟨k, by omega, below, member⟩

private theorem head_emits {budget left : ℕ} {after : List Run}
    (result : (if cut.start > r.start then
        emit ⟨r.start, r.stride, (cut.start - r.start).tdiv r.stride⟩ [] budget
      else some ([], budget)) = some (after, left)) :
    Emits [] after {v | v ∈ r.elements ∧ v < cut.start} := by
  obtain ⟨startLe, lastLe, startOn, _⟩ := cut_ends validR validCut within
  have stridePos : 0 < r.stride := validR.stridePos
  have lastIn := validR.representable
  have lowerR := validR.lower
  have countFits := validR.countFits
  have cutOrdered := validCut.start_le_last
  have before : {v | v ∈ r.elements ∧ v < cut.start} =
      progression r.start r.stride (cut.start - r.stride) := by
    ext v
    rw [progression_before startOn stridePos (cutOrdered.trans lastLe), ← validR.elements_eq]
    rfl
  split at result
  · have steps := validR.tdiv_stride_lt_count (by omega : 0 ≤ cut.start - r.start) (by omega)
    have minNeg := int64Min_neg
    have emitted := emit_emits result ⟨lowerR, by simp only; omega⟩ (by simp only; omega)
    obtain ⟨steps, stepsEq⟩ := startOn
    have headEnd : r.start + ((cut.start - r.start).tdiv r.stride - 1) * r.stride =
        cut.start - r.stride := by
      rw [stepsEq, Int.mul_tdiv_cancel_left _ (ne_of_gt stridePos), sub_mul, one_mul,
        mul_comm steps, ← stepsEq]
      omega
    rw [headEnd] at emitted
    exact before ▸ emitted
  · obtain ⟨rfl, _⟩ := Prod.mk.inj (Option.some.inj result)
    have empty : {v | v ∈ r.elements ∧ v < cut.start} = ∅ := by
      refine Set.eq_empty_of_forall_notMem ?_
      rintro v ⟨member, less⟩
      have := validR.isLeast.2 member
      omega
    exact empty ▸ Emits.none []

private theorem body_emits {budget left : ℕ} {out after : List Run}
    (result : (if cut.stride.tdiv r.stride > 1 ∧ cut.count ≥ 1 then
        subtractBody r cut (cut.stride.tdiv r.stride - 1).toNat 1 out budget
      else some (out, budget)) = some (after, left)) :
    Emits out after {v | (v ∈ r.elements ∧ cut.start ≤ v ∧ v ≤ cut.last) ∧ v ∉ cut.elements} := by
  obtain ⟨startLe, lastLe, startOn, _⟩ := cut_ends validR validCut within
  have stridePos : 0 < r.stride := validR.stridePos
  by_cases many : 2 ≤ cut.count
  · have strideEq : cut.stride = cut.stride.tdiv r.stride * r.stride :=
      (Int.tdiv_mul_cancel (stride_dvd_cut validR validCut within many)).symm
    generalize cut.stride.tdiv r.stride = ratio at strideEq result
    have ratioPos : 0 < ratio :=
      pos_of_mul_pos_left (strideEq ▸ validCut.stridePos) stridePos.le
    have classes := fun v => @progression_between r.start r.stride r.last cut.start cut.last
      ratio startOn stridePos ratioPos startLe lastLe (strideEq ▸ Run.Valid.reaches) v
    rw [← validR.elements_eq, ← strideEq, ← validCut.elements_eq] at classes
    split at result
    · have emitted := subtractBody_emits validR validCut within strideEq many (ratio - 1).toNat
        le_rfl (by omega) result
      convert emitted using 1
      ext v
      rw [← strideEq]
      exact classes v
    · obtain ⟨rfl, _⟩ := Prod.mk.inj (Option.some.inj result)
      have empty : {v | (v ∈ r.elements ∧ cut.start ≤ v ∧ v ≤ cut.last) ∧
          v ∉ cut.elements} = ∅ := by
        refine Set.eq_empty_of_forall_notMem fun v member => ?_
        obtain ⟨k, above, below, _⟩ := (classes v).mp member
        omega
      exact empty ▸ Emits.none _
  · have one : cut.count = 1 := by
      have := validCut.countPos
      omega
    have small : ¬(cut.stride.tdiv r.stride > 1 ∧ cut.count ≥ 1) := by
      rw [validCut.canonical one, Int.tdiv_eq_ediv_of_nonneg (by omega)]
      have := Int.ediv_le_self r.stride (show (0 : ℤ) ≤ 1 by omega)
      omega
    rw [if_neg small] at result
    obtain ⟨rfl, _⟩ := Prod.mk.inj (Option.some.inj result)
    have empty : {v | (v ∈ r.elements ∧ cut.start ≤ v ∧ v ≤ cut.last) ∧
        v ∉ cut.elements} = ∅ := by
      refine Set.eq_empty_of_forall_notMem ?_
      rintro v ⟨⟨_, above, below⟩, outside⟩
      have lastEq : cut.last = cut.start := by simp [last, one]
      have same : v = cut.start := by omega
      exact outside (same ▸ validCut.start_mem)
    exact empty ▸ Emits.none _

private theorem tail_emits {budget left : ℕ} {out after : List Run}
    (result : (match checkedAdd cut.last r.stride with
      | some afterCut =>
          if afterCut ≤ r.last then
            emit ⟨afterCut, r.stride, (r.last - afterCut).tdiv r.stride + 1⟩ out budget
          else some (out, budget)
      | none => some (out, budget)) = some (after, left)) :
    Emits out after {v | v ∈ r.elements ∧ cut.last < v} := by
  obtain ⟨startLe, lastLe, _, lastOn⟩ := cut_ends validR validCut within
  have stridePos : 0 < r.stride := validR.stridePos
  have lastIn := validR.representable
  have countFits := validR.countFits
  have cutOrdered := validCut.start_le_last
  have above : {v | v ∈ r.elements ∧ cut.last < v} =
      progression (cut.last + r.stride) r.stride r.last := by
    ext v
    rw [progression_after lastOn stridePos (startLe.trans cutOrdered), ← validR.elements_eq]
    rfl
  have nothing : r.last < cut.last + r.stride → {v | v ∈ r.elements ∧ cut.last < v} = ∅ := by
    intro past
    rw [above]
    exact Set.eq_empty_of_forall_notMem fun v member => by
      have := member.1.trans member.2.1
      omega
  cases sum : checkedAdd cut.last r.stride with
  | none =>
      rw [sum] at result
      obtain ⟨rfl, _⟩ := Prod.mk.inj (Option.some.inj result)
      have outside := checkedAdd_eq_none.mp sum
      have lowerCut := validCut.lower
      have past : r.last < cut.last + r.stride := by
        by_contra fits
        exact outside ⟨by omega, by omega⟩
      exact nothing past ▸ Emits.none _
  | some afterCut =>
      obtain ⟨inRange, rfl⟩ := checkedAdd_eq_some.mp sum
      rw [sum] at result
      dsimp only at result
      split at result
      · have steps := validR.tdiv_stride_lt_count
          (by omega : 0 ≤ r.last - (cut.last + r.stride)) (by omega)
        have emitted := emit_emits result inRange (by simp only; omega)
        rw [Int.tdiv_eq_ediv_of_nonneg (by omega)] at emitted
        simp only [add_sub_cancel_right] at emitted
        rw [progression_trim stridePos] at emitted
        exact above ▸ emitted
      · obtain ⟨rfl, _⟩ := Prod.mk.inj (Option.some.inj result)
        exact nothing (by omega) ▸ Emits.none _

omit validR within in
private theorem parts_eq_diff :
    {v | v ∈ r.elements ∧ v < cut.start} ∪
          {v | (v ∈ r.elements ∧ cut.start ≤ v ∧ v ≤ cut.last) ∧ v ∉ cut.elements} ∪
        {v | v ∈ r.elements ∧ cut.last < v} = r.elements \ cut.elements := by
  ext v
  have cutBounds : v ∈ cut.elements → cut.start ≤ v ∧ v ≤ cut.last := fun member =>
    ⟨validCut.isLeast.2 member, validCut.isGreatest.2 member⟩
  constructor
  · rintro ((⟨inR, before⟩ | ⟨⟨inR, _⟩, outside⟩) | ⟨inR, past⟩)
    · exact ⟨inR, fun inCut => by have := (cutBounds inCut).1; omega⟩
    · exact ⟨inR, outside⟩
    · exact ⟨inR, fun inCut => by have := (cutBounds inCut).2; omega⟩
  · rintro ⟨inR, outside⟩
    by_cases before : v < cut.start
    · exact Or.inl (Or.inl ⟨inR, before⟩)
    · by_cases past : cut.last < v
      · exact Or.inr ⟨inR, past⟩
      · exact Or.inl (Or.inr ⟨⟨inR, by omega, by omega⟩, outside⟩)

/-- **Difference is exact.** The emitted runs cover what the cut leaves of `r`. -/
theorem subtractSubProgression_spec {budget left : ℕ} {pieces : List Run}
    (result : subtractSubProgression r cut budget = some (pieces, left)) :
    (∀ run ∈ pieces, run.Valid) ∧ unionOf pieces = r.elements \ cut.elements := by
  unfold subtractSubProgression at result
  dsimp only at result
  obtain ⟨⟨afterBody, bodyBudget⟩, bodyResult, tailResult⟩ := Option.bind_eq_some_iff.mp result
  obtain ⟨⟨afterHead, headBudget⟩, headResult, bodyResult⟩ := Option.bind_eq_some_iff.mp bodyResult
  have head := head_emits validR validCut within headResult
  have body := body_emits validR validCut within bodyResult
  have tail := tail_emits validR validCut within tailResult
  obtain ⟨runs, sameRuns, runsValid, runsUnion⟩ := (head.trans body).trans tail
  rw [List.nil_append] at sameRuns
  subst sameRuns
  exact ⟨runsValid, runsUnion.trans (parts_eq_diff validCut)⟩

end Difference

end LlvmDsdl.Semantics
