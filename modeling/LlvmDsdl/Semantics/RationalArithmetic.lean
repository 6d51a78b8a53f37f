import LlvmDsdl.Semantics.Evaluator
import LlvmDsdl.Support.WideRational

/-!
Contract: the arithmetic of constant expressions in 128-bit words.

Owns: the arithmetic operators the evaluator applies to rationals, over the
members of the class; that they compute what the evaluator's model does, as
fractions, or refuse for a reason; the operands on which a negation of the
most negative word makes them undefined; and that the evaluator's operators are
theirs everywhere else.
-/

namespace LlvmDsdl.Semantics

open Frontend Support Library.SignedArithmetic WideRational

/-! ### Definitions -/

/-- The operators on rationals that yield a rational: six cases of
`applyBinaryRational`, and the unary minus of `evaluate`. -/
inductive Arithmetic where
  | add
  | sub
  | mul
  | div
  | mod
  | pow
  | minus
  deriving DecidableEq

/-- A result that did not overflow. -/
def unflagged128 (result : Option WideRational) : Option (Option WideRational) :=
  result.map fun value => if value.overflowed then none else some value

/-- `out = out * base`, given up at the first overflow. -/
def powLoop128 (base : WideRational) : ℕ → WideRational → Option (Option WideRational)
  | 0, out => some (some out)
  | count + 1, out =>
      (out.mul base).bind fun next =>
        if next.overflowed then some none else powLoop128 base count next

/-- The base equals an integer. -/
def isWhole (value : WideRational) (whole : ℤ) : Bool :=
  value.numerator == whole && value.denominator == 1

/-- `intPow`. The magnitude of the exponent is formed in unsigned words. -/
def intPow128 (base exponent : WideRational) : Option (Option WideRational) :=
  if exponent.denominator ≠ 1 then some none
  else
    let e := exponent.numerator
    if isWhole base 1 then (ofFraction 1 1).map some
    else if isWhole base 0 then
      if e < 0 then some none
      else if e = 0 then (ofFraction 1 1).map some
      else (ofFraction 0 1).map some
    else if isWhole base (-1) then
      if e.tmod 2 = 0 then (ofFraction 1 1).map some else (ofFraction (-1) 1).map some
    else
      (ofFraction 1 1).bind fun one =>
        (powLoop128 base e.natAbs one).bind fun result =>
          match result with
          | none => some none
          | some out => if e < 0 then unflagged128 (one.div out) else some (some out)

/-- `li % ri` of two integers. -/
def remainder128 (lhs rhs : WideRational) : Option (Option WideRational) :=
  if lhs.denominator ≠ 1 ∨ rhs.denominator ≠ 1 ∨ isWhole rhs 0 then some none
  else if rhs.numerator = -1 then (ofFraction 0 1).map some
  else
    (Library.SignedArithmetic.remainder 128 lhs.numerator rhs.numerator).bind fun rest =>
      (ofFraction rest 1).map some

/-- `Rational(-r.numerator(), r.denominator())`. -/
def minus128 (value : WideRational) : Option (Option WideRational) :=
  (neg 128 value.numerator).bind fun n => (ofFraction n value.denominator).map some

/-- One operator in the words of the source: no value where a signed operation
overflows, `none` inside where the evaluator reports an error. -/
def evaluate128 (op : Arithmetic) (lhs rhs : WideRational) : Option (Option WideRational) :=
  match op with
  | .add => unflagged128 (lhs.add rhs)
  | .sub => unflagged128 (lhs.sub rhs)
  | .mul => unflagged128 (lhs.mul rhs)
  | .div => if isWhole rhs 0 then some none else unflagged128 (lhs.div rhs)
  | .mod => remainder128 lhs rhs
  | .pow => intPow128 lhs rhs
  | .minus => minus128 lhs

def evaluateExact (op : Arithmetic) (lhs rhs : Rational) : Option Rational :=
  let unflagged := fun result : Rational => if result.overflowed then none else some result
  match op with
  | .add => unflagged (lhs.add rhs)
  | .sub => unflagged (lhs.sub rhs)
  | .mul => unflagged (lhs.mul rhs)
  | .div => if rhs.equal (.ofInteger 0) then none else unflagged (lhs.div rhs)
  | .mod =>
      match remainder lhs rhs with
      | some (.rational rest) => some rest
      | _ => none
  | .pow => intPow lhs rhs
  | .minus => some lhs.neg

/-- The operator of a parsed expression. -/
def Arithmetic.binaryOp : Arithmetic → Option BinaryOp
  | .add => some .add
  | .sub => some .sub
  | .mul => some .mul
  | .div => some .div
  | .mod => some .mod
  | .pow => some .pow
  | .minus => none

theorem applyBinaryRational_eq (host : Host) {op : Arithmetic} {binary : BinaryOp}
    (named : op.binaryOp = some binary) (lhs rhs : Rational) :
    applyBinaryRational host binary lhs rhs = (evaluateExact op lhs rhs).map .rational := by
  cases op <;> simp only [Arithmetic.binaryOp, Option.some.injEq, reduceCtorEq] at named <;>
    subst named <;> simp only [applyBinaryRational, evaluateExact, exactRational]
  case add => split <;> rfl
  case sub => split <;> rfl
  case mul => split <;> rfl
  case div => split <;> [rfl; (split <;> rfl)]
  case mod =>
    unfold remainder
    split
    · split
      · rfl
      · split <;> rfl
    · rfl

/-! ### What an operator should do -/

/-- The mathematical value; none where the operator has none. -/
def exactValue (op : Arithmetic) (lhs rhs : ℚ) : Option ℚ :=
  match op with
  | .add => some (lhs + rhs)
  | .sub => some (lhs - rhs)
  | .mul => some (lhs * rhs)
  | .div => if rhs = 0 then none else some (lhs / rhs)
  | .mod => if lhs.den = 1 ∧ rhs.den = 1 ∧ rhs ≠ 0 then some (lhs.num.tmod rhs.num) else none
  | .pow => if rhs.den = 1 ∧ (lhs = 0 → 0 ≤ rhs.num) then some (lhs ^ rhs.num) else none
  | .minus => some (-lhs)

/-- The products the operator checks, its numerator and its denominator. -/
def checkedParts (op : Arithmetic) (lhs rhs : Rational) : List ℤ × ℤ × ℤ :=
  let t1 := lhs.numerator * rhs.denominator
  let t2 := rhs.numerator * lhs.denominator
  let d := lhs.denominator * rhs.denominator
  match op with
  | .add => ([t1, t2, t1 + t2, d], t1 + t2, d)
  | .sub => ([t1, t2, t1 - t2, d], t1 - t2, d)
  | .mul => ([lhs.numerator * rhs.numerator, d], lhs.numerator * rhs.numerator, d)
  | .div => ([t1, lhs.denominator * rhs.numerator], t1, lhs.denominator * rhs.numerator)
  | .mod | .pow | .minus => ([], 0, 1)

/-- A power of the base does not fit 128 bits. -/
def PowerOverflows (base : Rational) (bound : ℕ) : Prop :=
  ∃ count ≤ bound, ¬(InInt128 (base.numerator ^ count) ∧ InInt128 (base.denominator ^ count))

/-- An error is due: there is no value, or an intermediate product overflows. -/
def Refusable (op : Arithmetic) (lhs rhs : Rational) : Prop :=
  exactValue op lhs.toRat rhs.toRat = none ∨
    (¬∀ product ∈ (checkedParts op lhs rhs).1, InInt128 product) ∨
    op = .pow ∧ PowerOverflows lhs rhs.numerator.natAbs

/-- The outcome is the exact value in normal form, or an error that is due; no
signed operation overflowed on the way. -/
def ExactOrRefused (op : Arithmetic) (lhs rhs : Rational) :
    Option (Option WideRational) → Prop
  | none => False
  | some none => Refusable op lhs rhs
  | some (some result) => ∃ value : Rational, result = value.wide ∧ value.InRange ∧
      exactValue op lhs.toRat rhs.toRat = some value.toRat

/-- No most negative word is normalised: none among the fraction of an operator
whose products fit, none to negate, none among the powers. -/
def Safe (op : Arithmetic) (lhs rhs : Rational) : Prop :=
  match op with
  | .add | .sub | .mul =>
      Normalises (checkedParts op lhs rhs).1 (checkedParts op lhs rhs).2.1
        (checkedParts op lhs rhs).2.2
  | .div => rhs.numerator ≠ 0 →
      Normalises (checkedParts op lhs rhs).1 (checkedParts op lhs rhs).2.1
        (checkedParts op lhs rhs).2.2
  | .mod => True
  | .pow => rhs.denominator = 1 →
      (lhs.numerator = mostNegative → rhs.numerator = 0) ∧
        (lhs.numerator = -2 → lhs.denominator = 1 → rhs.numerator.natAbs < 127)
  | .minus => lhs.numerator ≠ mostNegative

section Operators

variable {lhs rhs : Rational} (lhsIn : lhs.InRange) (rhsIn : rhs.InRange)

include lhsIn rhsIn

private theorem checked_iff (op : Arithmetic) (products : List ℤ) (n d : ℤ)
    (nMember : n ∈ products) (dMember : d ∈ products) (nonzero : d ≠ 0)
    (parts : (checkedParts op lhs rhs).1 = products)
    (value : exactValue op lhs.toRat rhs.toRat = some ((n : ℚ) / d)) :
    ExactOrRefused op lhs rhs (unflagged128
      (WideRational.checkedResult products n d (lhs.overflowed || rhs.overflowed))) ↔
      Normalises products n d := by
  rw [lhsIn.exact, rhsIn.exact, Bool.or_false]
  constructor
  · intro meets
    by_contra unsound
    rw [checkedResult_undefined nonzero unsound] at meets
    exact meets
  · intro safe
    rw [checkedResult_eq nMember dMember nonzero safe, unflagged128, Option.map_some]
    rcases Rational.checkedResult_cases products n d nonzero with
      ⟨fits, exact, fraction⟩ | ⟨unfit, flagged⟩
    · have sound := safe fits
      have inRange := Rational.inRange_fromWide (fits n nMember) (fits d dMember) nonzero
        sound.1 sound.2
      rw [Rational.wide, exact]
      refine ⟨Rational.checkedResult products n d false, ?_, ?_, value.trans (by rw [fraction])⟩
      · rw [Rational.wide, exact]
      · rwa [Rational.checkedResult, if_pos fits]
    · rw [Rational.wide, flagged]
      exact Or.inr (Or.inl (parts ▸ unfit))

theorem add_iff : ExactOrRefused .add lhs rhs (evaluate128 .add lhs.wide rhs.wide) ↔
    Safe .add lhs rhs := by
  have left : (lhs.denominator : ℚ) ≠ 0 := by exact_mod_cast lhs.positive.ne'
  have right : (rhs.denominator : ℚ) ≠ 0 := by exact_mod_cast rhs.positive.ne'
  refine checked_iff lhsIn rhsIn .add _
    (lhs.numerator * rhs.denominator + rhs.numerator * lhs.denominator)
    (lhs.denominator * rhs.denominator) (by simp) (by simp)
    (mul_pos lhs.positive rhs.positive).ne' rfl ?_
  rw [exactValue, Rational.toRat_eq, Rational.toRat_eq, div_add_div _ _ left right]
  push_cast
  congr 2
  ring

theorem sub_iff : ExactOrRefused .sub lhs rhs (evaluate128 .sub lhs.wide rhs.wide) ↔
    Safe .sub lhs rhs := by
  have left : (lhs.denominator : ℚ) ≠ 0 := by exact_mod_cast lhs.positive.ne'
  have right : (rhs.denominator : ℚ) ≠ 0 := by exact_mod_cast rhs.positive.ne'
  refine checked_iff lhsIn rhsIn .sub _
    (lhs.numerator * rhs.denominator - rhs.numerator * lhs.denominator)
    (lhs.denominator * rhs.denominator) (by simp) (by simp)
    (mul_pos lhs.positive rhs.positive).ne' rfl ?_
  rw [exactValue, Rational.toRat_eq, Rational.toRat_eq, div_sub_div _ _ left right]
  push_cast
  congr 2
  ring

theorem mul_iff : ExactOrRefused .mul lhs rhs (evaluate128 .mul lhs.wide rhs.wide) ↔
    Safe .mul lhs rhs := by
  refine checked_iff lhsIn rhsIn .mul _ _ _ (by simp) (by simp)
    (mul_pos lhs.positive rhs.positive).ne' rfl ?_
  rw [exactValue, Rational.toRat_eq, Rational.toRat_eq, div_mul_div_comm]
  push_cast
  rfl

omit lhsIn rhsIn in
theorem isWhole_zero : isWhole rhs.wide 0 = true ↔ rhs.numerator = 0 := by
  rw [isWhole, Bool.and_eq_true, beq_iff_eq, beq_iff_eq]
  refine ⟨And.left, fun zero => ⟨zero, ?_⟩⟩
  have reduced := rhs.reduced
  have positive := rhs.positive
  rw [zero, Int.zero_gcd] at reduced
  show rhs.denominator = 1
  omega

theorem div_iff : ExactOrRefused .div lhs rhs (evaluate128 .div lhs.wide rhs.wide) ↔
    Safe .div lhs rhs := by
  have right : (rhs.denominator : ℚ) ≠ 0 := by exact_mod_cast rhs.positive.ne'
  rw [evaluate128]
  by_cases zero : rhs.numerator = 0
  · rw [if_pos (isWhole_zero.mpr zero)]
    refine iff_of_true (Or.inl ?_) fun nonzero => absurd zero nonzero
    rw [exactValue, if_pos (Rational.toRat_eq_zero.mpr zero)]
  · rw [if_neg fun whole => zero (isWhole_zero.mp whole), WideRational.div, Rational.wide_numerator,
      if_neg zero]
    have meets := checked_iff lhsIn rhsIn .div
      [lhs.numerator * rhs.denominator, lhs.denominator * rhs.numerator]
      (lhs.numerator * rhs.denominator) (lhs.denominator * rhs.numerator) (by simp) (by simp) (mul_ne_zero lhs.positive.ne' zero) rfl (by
        rw [exactValue, if_neg (fun same => zero (Rational.toRat_eq_zero.mp same)),
          Rational.toRat_eq, Rational.toRat_eq, div_div_div_eq]
        push_cast
        rfl)
    refine meets.trans ⟨fun safe _ => safe, fun safe => safe zero⟩

/-! ### Remainders and negation -/

omit lhsIn rhsIn in
/-- Construction of an integer that is not the most negative word. -/
theorem ofFraction_integer {value : ℤ} (inRange : InInt128 value)
    (notLeast : value ≠ mostNegative) :
    ofFraction value 1 = some (Rational.ofInteger value).wide := by
  rw [WideRational.ofFraction, if_neg one_ne_zero,
    fromWide_eq inRange (by decide) notLeast (by decide) one_ne_zero, Rational.fromWide_one]

omit lhsIn rhsIn in
theorem inRange_ofInteger {value : ℤ} (inRange : InInt128 value) :
    (Rational.ofInteger value).InRange :=
  ⟨by simpa using inRange, by simp only [Rational.denominator_ofInteger]; decide, by simp⟩

omit lhsIn rhsIn in
theorem toRat_parts (value : Rational) : value.toRat.num = value.numerator ∧
    (value.toRat.den = 1 ↔ value.denominator = 1) := by
  have denominators := value.den_toRat
  exact ⟨rfl, by omega⟩

theorem rest_fits (nonzero : rhs.numerator ≠ 0) :
    InInt128 (lhs.numerator.tmod rhs.numerator) ∧
      lhs.numerator.tmod rhs.numerator ≠ mostNegative := by
  have smaller := Int.natAbs_tmod lhs.numerator rhs.numerator
  have below := Nat.mod_lt lhs.numerator.natAbs (Int.natAbs_pos.mpr nonzero)
  have lhsFits := inInt128_iff.mp lhsIn.numerator
  have rhsFits := inInt128_iff.mp rhsIn.numerator
  rw [fits_128] at lhsFits rhsFits
  rw [inInt128_iff, fits_128]
  unfold mostNegative
  omega

theorem mod_iff : ExactOrRefused .mod lhs rhs (evaluate128 .mod lhs.wide rhs.wide) ↔
    Safe .mod lhs rhs := by
  refine iff_of_true ?_ trivial
  obtain ⟨lhsNum, lhsDen⟩ := toRat_parts lhs
  obtain ⟨rhsNum, rhsDen⟩ := toRat_parts rhs
  rw [evaluate128, remainder128]
  by_cases refused : lhs.wide.denominator ≠ 1 ∨ rhs.wide.denominator ≠ 1 ∨ isWhole rhs.wide 0
  · rw [if_pos refused]
    refine Or.inl (if_neg fun defined => ?_)
    rw [lhsDen, rhsDen, Ne, Rational.toRat_eq_zero, ← isWhole_zero] at defined
    simp only [Rational.wide_denominator] at refused
    tauto
  · rw [if_neg refused]
    simp only [Rational.wide_denominator] at refused
    have nonzero : rhs.numerator ≠ 0 := fun zero =>
      refused (Or.inr (Or.inr (isWhole_zero.mpr zero)))
    have defined : lhs.toRat.den = 1 ∧ rhs.toRat.den = 1 ∧ rhs.toRat ≠ 0 := by
      rw [lhsDen, rhsDen, Ne, Rational.toRat_eq_zero]
      tauto
    have value : exactValue .mod lhs.toRat rhs.toRat =
        some ((lhs.numerator.tmod rhs.numerator : ℤ) : ℚ) := by
      rw [exactValue, if_pos defined, lhsNum, rhsNum]
    obtain ⟨restFits, restNe⟩ := rest_fits lhsIn rhsIn nonzero
    have built := ofFraction_integer restFits restNe
    by_cases unit : rhs.wide.numerator = -1
    · rw [if_pos unit]
      rw [Rational.wide_numerator] at unit
      rw [unit, Int.tmod_neg, Int.tmod_one] at built value
      rw [built]
      exact ⟨_, rfl, inRange_ofInteger (by decide), value.trans (by simp)⟩
    · rw [if_neg unit]
      simp only [Rational.wide_numerator] at unit ⊢
      rw [remainder_of_ne (inInt128_iff.mp lhsIn.numerator) nonzero unit, Option.bind_some, built]
      exact ⟨_, rfl, inRange_ofInteger restFits, value.trans (by simp)⟩

omit lhsIn rhsIn in
theorem neg_fits {value : ℤ} (inRange : InInt128 value) (notLeast : value ≠ mostNegative) :
    InInt128 (-value) ∧ -value ≠ mostNegative := by
  rw [inInt128_iff, fits_128] at inRange ⊢
  unfold mostNegative at notLeast ⊢
  omega

omit rhsIn in
theorem minus_iff : ExactOrRefused .minus lhs rhs (evaluate128 .minus lhs.wide rhs.wide) ↔
    Safe .minus lhs rhs := by
  rw [evaluate128, minus128]
  by_cases least : lhs.numerator = mostNegative
  · refine iff_of_false ?_ (not_not.mpr least)
    rw [Rational.wide, least, neg_mostNegative]
    exact id
  · refine iff_of_true ?_ least
    have nonzero := lhs.positive.ne'
    have denominatorNe : lhs.denominator ≠ mostNegative := by
      have := lhs.positive
      unfold mostNegative
      omega
    have negFits := neg_fits lhsIn.numerator least
    rw [Rational.wide, neg_of_ne lhsIn.numerator least, Option.bind_some,
      WideRational.ofFraction, if_neg nonzero,
      fromWide_eq negFits.1 lhsIn.denominator negFits.2 denominatorNe nonzero]
    refine ⟨_, rfl, Rational.inRange_fromWide negFits.1 lhsIn.denominator nonzero negFits.2
      denominatorNe, ?_⟩
    rw [Rational.fromWide, dif_pos nonzero, Rational.toRat_normalize, exactValue,
      Rational.toRat_eq]
    push_cast
    rw [neg_div]

end Operators

/-! ### Powers -/

def power (base : Rational) (count : ℕ) : Rational :=
  { numerator := base.numerator ^ count
    denominator := base.denominator ^ count
    overflowed := false
    positive := pow_pos base.positive count
    reduced := Int.isCoprime_iff_gcd_eq_one.mp
      ((Int.isCoprime_iff_gcd_eq_one.mpr base.reduced).pow) }

def PowerFits (base : Rational) (count : ℕ) : Prop :=
  InInt128 (base.numerator ^ count) ∧ InInt128 (base.denominator ^ count)

theorem toRat_power (base : Rational) (count : ℕ) :
    (power base count).toRat = base.toRat ^ count := by
  rw [Rational.toRat_eq, Rational.toRat_eq, div_pow]
  simp [power]

theorem fromWide_reduced (value : Rational) :
    Rational.fromWide value.numerator value.denominator value.overflowed = value := by
  have positive := value.positive
  rw [Rational.fromWide, dif_pos positive.ne']
  apply Rational.ext_parts
  · simp [Rational.normalize, value.reduced, not_lt.mpr positive.le]
  · simp [Rational.normalize, value.reduced, not_lt.mpr positive.le]
  · rfl

section Powers

variable {base : Rational} (baseIn : base.InRange)

include baseIn

private theorem mul_power (count : ℕ) : (power base count).wide.mul base.wide =
    WideRational.checkedResult
      [base.numerator ^ (count + 1), base.denominator ^ (count + 1)]
      (base.numerator ^ (count + 1)) (base.denominator ^ (count + 1)) false := by
  simp only [WideRational.mul, Rational.wide_numerator, Rational.wide_denominator,
    Rational.wide_overflowed, power, baseIn.exact, ← pow_succ, Bool.or_false]

private theorem mul_power_cases (count : ℕ) :
    (PowerFits base (count + 1) ∧ base.numerator ^ (count + 1) ≠ mostNegative ∧
      (power base count).wide.mul base.wide = some (power base (count + 1)).wide) ∨
    (¬PowerFits base (count + 1) ∧
      ∃ flagged : WideRational, flagged.overflowed = true ∧
        (power base count).wide.mul base.wide = some flagged) ∨
    (PowerFits base (count + 1) ∧ base.numerator ^ (count + 1) = mostNegative ∧
      (power base count).wide.mul base.wide = none) := by
  have nonzero : base.denominator ^ (count + 1) ≠ 0 := (pow_pos base.positive _).ne'
  have denominatorNe : base.denominator ^ (count + 1) ≠ mostNegative := by
    have := pow_pos base.positive (count + 1)
    unfold mostNegative
    omega
  rw [mul_power baseIn]
  by_cases fits : PowerFits base (count + 1)
  · have all : ∀ product ∈ [base.numerator ^ (count + 1), base.denominator ^ (count + 1)],
        InInt128 product := by simpa using And.intro fits.1 fits.2
    by_cases least : base.numerator ^ (count + 1) = mostNegative
    · refine Or.inr (Or.inr ⟨fits, least, checkedResult_undefined nonzero (fun safe => ?_) _⟩)
      exact (safe all).1 least
    · refine Or.inl ⟨fits, least, ?_⟩
      rw [checkedResult_eq (by simp) (by simp) nonzero fun _ => ⟨least, denominatorNe⟩,
        Rational.checkedResult, if_pos all]
      exact congrArg some (congrArg Rational.wide (fromWide_reduced (power base (count + 1))))
  · refine Or.inr (Or.inl ⟨fits, ⟨0, 1, true⟩, rfl, ?_⟩)
    rw [WideRational.checkedResult, if_neg (fun all => fits ⟨all _ (by simp), all _ (by simp)⟩)]
    decide

/-- **The run of the loop**: every power fits and the last is the result, or the first that
does not fit is refused, or the first that is the most negative word is undefined. -/
theorem powLoop128_cases (count : ℕ) : ∀ start : ℕ,
    ((∀ i, start < i → i ≤ start + count →
        PowerFits base i ∧ base.numerator ^ i ≠ mostNegative) ∧
      powLoop128 base.wide count (power base start).wide =
        some (some (power base (start + count)).wide)) ∨
    ∃ i, start < i ∧ i ≤ start + count ∧
      (∀ j, start < j → j < i → PowerFits base j ∧ base.numerator ^ j ≠ mostNegative) ∧
      ((¬PowerFits base i ∧
          powLoop128 base.wide count (power base start).wide = some none) ∨
        (PowerFits base i ∧ base.numerator ^ i = mostNegative ∧
          powLoop128 base.wide count (power base start).wide = none)) := by
  induction count with
  | zero =>
      intro start
      exact Or.inl ⟨fun i above below => by omega, rfl⟩
  | succ count ih =>
      intro start
      rw [powLoop128]
      rcases mul_power_cases baseIn start with
        ⟨fits, notLeast, next⟩ | ⟨unfit, flagged, isFlagged, next⟩ | ⟨fits, least, next⟩
      · rw [next, Option.bind_some, if_neg (by simp [power])]
        rcases ih (start + 1) with ⟨good, result⟩ |
          ⟨i, above, below, good, result⟩
        · refine Or.inl ⟨fun i above below => ?_, ?_⟩
          · rcases (show i = start + 1 ∨ start + 1 < i by omega) with rfl | later
            · exact ⟨fits, notLeast⟩
            · exact good i later (by omega)
          · rw [result, Nat.add_right_comm, Nat.add_assoc]
        · refine Or.inr ⟨i, by omega, by omega, fun j aboveStart before => ?_, result⟩
          rcases (show j = start + 1 ∨ start + 1 < j by omega) with rfl | later
          · exact ⟨fits, notLeast⟩
          · exact good j later before
      · refine Or.inr ⟨start + 1, by omega, by omega, fun j above below => by omega, ?_⟩
        rw [next, Option.bind_some, if_pos isFlagged]
        exact Or.inl ⟨unfit, rfl⟩
      · refine Or.inr ⟨start + 1, by omega, by omega, fun j above below => by omega, ?_⟩
        rw [next]
        exact Or.inr ⟨fits, least, rfl⟩

omit baseIn in
/-- Only two bases have the most negative word among their powers that fit. -/
theorem least_power {count : ℕ} (least : base.numerator ^ count = mostNegative)
    (fits : PowerFits base count) :
    (base.numerator = mostNegative ∧ count = 1) ∨
      (base.numerator = -2 ∧ base.denominator = 1 ∧ count = 127) := by
  have size : base.numerator.natAbs ^ count = 2 ^ 127 := by
    rw [← Int.natAbs_pow, least]
    decide
  have positive : count ≠ 0 := by
    rintro rfl
    exact absurd size (by norm_num)
  obtain ⟨exponent, _, shape⟩ := (Nat.dvd_prime_pow Nat.prime_two).mp
    (size ▸ dvd_pow_self base.numerator.natAbs positive)
  rw [shape, ← pow_mul] at size
  have product : exponent * count = 127 := Nat.pow_right_injective le_rfl size
  have prime : Nat.Prime 127 := by norm_num
  rcases (Nat.dvd_prime prime).mp ⟨exponent, by rw [mul_comm]; exact product.symm⟩ with one | all
  · subst one
    exact Or.inl ⟨by simpa using least, rfl⟩
  · subst all
    have two : base.numerator.natAbs = 2 := by
      rw [shape, show exponent = 1 by omega, pow_one]
    have denominatorPos := base.positive
    refine Or.inr ⟨?_, ?_, rfl⟩
    · rcases Int.natAbs_eq base.numerator with up | down
      · rw [up, two] at least
        exact absurd least (by decide)
      · rw [down, two]
        rfl
    · by_contra notOne
      have large : (2 : ℤ) ^ 127 ≤ base.denominator ^ 127 :=
        pow_le_pow_left₀ (by norm_num) (by omega) 127
      have := fits.2.2
      omega

private theorem safe_of_good {bound : ℕ} (reached : ∃ i ≤ bound,
      (∀ j, 0 < j → j < i → PowerFits base j ∧ base.numerator ^ j ≠ mostNegative) ∧
        (i = bound ∧ (0 < i → PowerFits base i ∧ base.numerator ^ i ≠ mostNegative) ∨
          ¬PowerFits base i)) :
    (base.numerator = mostNegative → bound = 0) ∧
      (base.numerator = -2 → base.denominator = 1 → bound < 127) := by
  obtain ⟨i, within, good, last⟩ := reached
  constructor
  · intro least
    by_contra positive
    have one : ¬(base.numerator ^ 1 ≠ mostNegative) := by simpa using least
    have fitsOne : PowerFits base 1 := by
      simpa [PowerFits] using ⟨baseIn.numerator, baseIn.denominator⟩
    rcases (show i = 0 ∨ i = 1 ∨ 1 < i by omega) with rfl | rfl | more
    · rcases last with ⟨done, _⟩ | unfit
      · omega
      · exact unfit (by simp only [PowerFits, pow_zero]; decide)
    · rcases last with ⟨_, sound⟩ | unfit
      · exact one (sound one_pos).2
      · exact unfit fitsOne
    · exact one (good 1 one_pos more).2
  · intro two whole
    by_contra large
    have least : ¬(base.numerator ^ 127 ≠ mostNegative) := by
      rw [two]
      decide
    rcases (show i ≤ 127 ∨ 127 < i by omega) with small | more
    · rcases last with ⟨done, sound⟩ | unfit
      · have same : i = 127 := by omega
        subst same
        exact least (sound (by omega)).2
      · refine unfit ?_
        rw [PowerFits, two, whole, one_pow]
        refine ⟨?_, by decide⟩
        interval_cases i <;> decide
    · exact least (good 127 (by omega) more).2

omit baseIn in
private theorem reciprocal_exact {count : ℕ} (fits : PowerFits base count)
    (nonzero : base.numerator ≠ 0) (notLeast : base.numerator ^ count ≠ mostNegative) :
    ∃ value : Rational, unflagged128 ((Rational.ofInteger 1).wide.div (power base count).wide) =
        some (some value.wide) ∧ value.InRange ∧ value.toRat = (base.toRat ^ count)⁻¹ := by
  have oneIn : (Rational.ofInteger 1).InRange := inRange_ofInteger (by decide)
  have powerIn : (power base count).InRange := ⟨fits.1, fits.2, rfl⟩
  have powerNe : (power base count).numerator ≠ 0 := pow_ne_zero count nonzero
  have numeratorNe : (power base count).numerator ≠ mostNegative := notLeast
  have denominatorNe : (power base count).denominator ≠ mostNegative := by
    have := (power base count).positive
    unfold mostNegative
    omega
  have products : ∀ product ∈ (checkedParts .div (Rational.ofInteger 1) (power base count)).1,
      InInt128 product := by
    simpa [checkedParts] using And.intro powerIn.denominator powerIn.numerator
  have meets := (div_iff oneIn powerIn).mpr fun _ _ => by
    simpa [checkedParts] using And.intro denominatorNe numeratorNe
  rw [evaluate128, if_neg fun whole => powerNe (isWhole_zero.mp whole)] at meets
  have defined : exactValue .div (Rational.ofInteger 1).toRat (power base count).toRat =
      some ((base.toRat ^ count)⁻¹) := by
    rw [exactValue, if_neg fun zero => powerNe (Rational.toRat_eq_zero.mp zero), toRat_power]
    simp
  match outcome : unflagged128 ((Rational.ofInteger 1).wide.div (power base count).wide) with
  | none =>
      rw [outcome] at meets
      exact meets.elim
  | some none =>
      rw [outcome] at meets
      rcases meets with undefined | unfit | ⟨isPower, _⟩
      · rw [defined] at undefined
        exact absurd undefined (by simp)
      · exact absurd products unfit
      · exact absurd isPower (by decide)
  | some (some result) =>
      rw [outcome] at meets
      obtain ⟨value, rfl, inRange, exact⟩ := meets
      rw [defined] at exact
      exact ⟨value, rfl, inRange, (Option.some.inj exact).symm⟩

end Powers

theorem isWhole_iff {base : Rational} {whole : ℤ} :
    isWhole base.wide whole = true ↔ base.toRat = whole := by
  rw [← Rational.toRat_ofInteger, ← Rational.equal_iff_toRat, isWhole, Rational.equal]
  simp

section Power

variable {lhs rhs : Rational} (lhsIn : lhs.InRange) (integral : rhs.denominator = 1)

include integral

private theorem exactValue_pow (defined : lhs.numerator = 0 → 0 ≤ rhs.numerator) :
    exactValue .pow lhs.toRat rhs.toRat = some (lhs.toRat ^ rhs.numerator) := by
  obtain ⟨exponentNum, exponentDen⟩ := toRat_parts rhs
  have positive : lhs.toRat = 0 → 0 ≤ rhs.toRat.num := fun zero =>
    exponentNum ▸ defined (Rational.toRat_eq_zero.mp zero)
  rw [exactValue, if_pos ⟨exponentDen.mpr integral, positive⟩, exponentNum]

private theorem whole_exact {value : ℤ} (inRange : InInt128 value) (notLeast : value ≠ mostNegative)
    (defined : lhs.numerator = 0 → 0 ≤ rhs.numerator)
    (exact : lhs.toRat ^ rhs.numerator = (value : ℚ)) :
    ExactOrRefused .pow lhs rhs ((ofFraction value 1).map some) := by
  rw [ofFraction_integer inRange notLeast]
  exact ⟨_, rfl, inRange_ofInteger inRange, by
    rw [exactValue_pow integral defined, exact, Rational.toRat_ofInteger]⟩

private theorem trivialBase_exact {base : ℤ} (isBase : isWhole lhs.wide base = true)
    (trivial : base = 1 ∨ base = 0 ∨ base = -1) :
    ExactOrRefused .pow lhs rhs (intPow128 lhs.wide rhs.wide) := by
  have fraction := isWhole_iff.mp isBase
  have numerator : lhs.numerator = base := by
    rw [isWhole, Bool.and_eq_true, beq_iff_eq] at isBase
    exact isBase.1
  have others : ∀ other : ℤ, other ≠ base → isWhole lhs.wide other = false := by
    intro other differs
    simp [isWhole, numerator, differs.symm]
  rw [intPow128, if_neg (show ¬rhs.wide.denominator ≠ 1 from not_not.mpr integral)]
  dsimp only
  rcases trivial with rfl | rfl | rfl
  · rw [if_pos isBase]
    exact whole_exact integral (by decide) (by decide) (fun zero => by omega) (by simp [fraction])
  · rw [others 1 (by decide), if_neg (by simp), if_pos isBase]
    by_cases negative : rhs.wide.numerator < 0
    · obtain ⟨exponentNum, _⟩ := toRat_parts rhs
      rw [if_pos negative]
      refine Or.inl (if_neg fun defined => ?_)
      have := defined.2 (by simp [fraction])
      rw [Rational.wide_numerator] at negative
      omega
    · rw [if_neg negative]
      rw [Rational.wide_numerator] at negative
      by_cases unraised : rhs.wide.numerator = 0
      · rw [if_pos unraised]
        rw [Rational.wide_numerator] at unraised
        exact whole_exact integral (by decide) (by decide) (fun _ => by omega) (by simp [unraised])
      · rw [if_neg unraised]
        rw [Rational.wide_numerator] at unraised
        exact whole_exact integral (by decide) (by decide) (fun _ => by omega)
          (by simp [fraction, zero_zpow _ unraised])
  · rw [others 1 (by decide), if_neg (by simp), others 0 (by decide), if_neg (by simp),
      if_pos isBase]
    by_cases even : rhs.wide.numerator.tmod 2 = 0
    · rw [if_pos even]
      have isEven : Even rhs.numerator := even_iff_two_dvd.mpr (Int.dvd_of_tmod_eq_zero even)
      exact whole_exact integral (by decide) (by decide) (fun zero => by omega)
        (by simp [fraction, isEven.neg_one_zpow])
    · rw [if_neg even]
      have isOdd : Odd rhs.numerator := by
        rw [← Int.not_even_iff_odd]
        exact fun isEven => even (Int.tmod_eq_zero_of_dvd isEven.two_dvd)
      exact whole_exact integral (by decide) (by decide) (fun zero => by omega)
        (by simp [fraction, isOdd.neg_one_zpow])

private theorem power_exact (nonzero : lhs.numerator ≠ 0)
    (good : PowerFits lhs rhs.numerator.natAbs)
    (notLeast : lhs.numerator ^ rhs.numerator.natAbs ≠ mostNegative) :
    ExactOrRefused .pow lhs rhs (if rhs.numerator < 0 then
        unflagged128 ((Rational.ofInteger 1).wide.div (power lhs rhs.numerator.natAbs).wide)
      else some (some (power lhs rhs.numerator.natAbs).wide)) := by
  have defined : exactValue .pow lhs.toRat rhs.toRat = some (lhs.toRat ^ rhs.numerator) :=
    exactValue_pow integral fun zero => absurd zero nonzero
  split
  · rename_i negative
    obtain ⟨value, outcome, inRange, exact⟩ := reciprocal_exact good nonzero notLeast
    rw [outcome]
    refine ⟨value, rfl, inRange, defined.trans ?_⟩
    rw [exact, ← zpow_natCast, ← zpow_neg]
    congr 2
    omega
  · rename_i nonneg
    refine ⟨_, rfl, ⟨good.1, good.2, rfl⟩, defined.trans ?_⟩
    rw [toRat_power, ← zpow_natCast]
    congr 2
    omega

end Power

theorem pow_iff {lhs rhs : Rational} (lhsIn : lhs.InRange) :
    ExactOrRefused .pow lhs rhs (evaluate128 .pow lhs.wide rhs.wide) ↔ Safe .pow lhs rhs := by
  rw [evaluate128]
  by_cases integral : rhs.denominator = 1
  · by_cases trivial : ∃ base : ℤ, isWhole lhs.wide base = true ∧
        (base = 1 ∨ base = 0 ∨ base = -1)
    · obtain ⟨base, isBase, trivial⟩ := trivial
      refine iff_of_true (trivialBase_exact integral isBase trivial) fun _ => ?_
      rw [isWhole, Bool.and_eq_true, beq_iff_eq] at isBase
      have numerator : lhs.numerator = base := isBase.1
      unfold mostNegative
      constructor <;> intro least <;> omega
    · have others : ∀ base : ℤ, base = 1 ∨ base = 0 ∨ base = -1 →
          isWhole lhs.wide base = false := fun base small =>
        Bool.eq_false_iff.mpr fun isBase => trivial ⟨base, isBase, small⟩
      have nonzero : lhs.numerator ≠ 0 := fun zero =>
        trivial ⟨0, isWhole_zero.mpr zero, by simp⟩
      have unit : ofFraction 1 1 = some (Rational.ofInteger 1).wide :=
        ofFraction_integer (by decide) (by decide)
      have start : (Rational.ofInteger 1).wide = (power lhs 0).wide := by
        simp [Rational.wide, power]
      rw [intPow128, if_neg (show ¬rhs.wide.denominator ≠ 1 from not_not.mpr integral)]
      simp only [others 1 (by simp), others 0 (by simp), others (-1) (by simp), Bool.false_eq_true,
        if_false, unit, Option.bind_some]
      rw [start, Rational.wide_numerator]
      have safeIff : Safe .pow lhs rhs ↔
          (lhs.numerator = mostNegative → rhs.numerator.natAbs = 0) ∧
            (lhs.numerator = -2 → lhs.denominator = 1 → rhs.numerator.natAbs < 127) := by
        simp [Safe, integral]
      rw [safeIff]
      rcases powLoop128_cases lhsIn rhs.numerator.natAbs 0 with
        ⟨good, result⟩ | ⟨i, above, within, good, ⟨unfit, result⟩ | ⟨fits, least, result⟩⟩
      · rw [result, Option.bind_some]
        rw [Nat.zero_add] at good result ⊢
        have last : PowerFits lhs rhs.numerator.natAbs ∧
            lhs.numerator ^ rhs.numerator.natAbs ≠ mostNegative := by
          rcases Nat.eq_zero_or_pos rhs.numerator.natAbs with zero | positive
          · rw [zero, PowerFits, pow_zero, pow_zero]
            decide
          · exact good _ positive le_rfl
        refine iff_of_true ?_ (safe_of_good lhsIn ⟨rhs.numerator.natAbs, le_rfl,
          fun j positive below => good j positive below.le, Or.inl ⟨rfl, fun _ => last⟩⟩)
        rw [← start]
        exact power_exact integral nonzero last.1 last.2
      · rw [result, Option.bind_some]
        rw [Nat.zero_add] at within
        exact iff_of_true (Or.inr (Or.inr ⟨rfl, i, within, unfit⟩))
          (safe_of_good lhsIn ⟨i, within, good, Or.inr unfit⟩)
      · rw [result]
        rw [Nat.zero_add] at within
        refine iff_of_false id fun safe => ?_
        rcases least_power least fits with ⟨isLeast, one⟩ | ⟨two, whole, last⟩
        · have := safe.1 isLeast
          omega
        · have := safe.2 two whole
          omega
  · rw [intPow128, if_pos (show rhs.wide.denominator ≠ 1 from integral)]
    obtain ⟨_, exponentDen⟩ := toRat_parts rhs
    refine iff_of_true (Or.inl (if_neg fun defined => ?_)) fun whole => absurd whole integral
    exact integral (exponentDen.mp defined.1)

section Refinement

variable {lhs rhs : Rational} (lhsIn : lhs.InRange) (rhsIn : rhs.InRange)

private theorem unflagged_refines (products : List ℤ) (n d : ℤ) (nMember : n ∈ products)
    (dMember : d ∈ products) (nonzero : d ≠ 0) (safe : Normalises products n d) (flag : Bool) :
    unflagged128 (WideRational.checkedResult products n d flag) =
      some ((if (Rational.checkedResult products n d flag).overflowed then none
        else some (Rational.checkedResult products n d flag)).map Rational.wide) := by
  rw [checkedResult_eq nMember dMember nonzero safe, unflagged128, Option.map_some,
    Rational.wide_overflowed]
  split <;> rfl

private theorem equal_ofInteger_eq (base : Rational) (whole : ℤ) :
    base.equal (.ofInteger whole) = isWhole base.wide whole := by
  simp [Rational.equal, isWhole]

include lhsIn in
private theorem powLoop128_refines (count : ℕ) : ∀ start : ℕ,
    (∀ i, start < i → i ≤ start + count → PowerFits lhs i →
      lhs.numerator ^ i ≠ mostNegative) →
    powLoop128 lhs.wide count (power lhs start).wide =
        some ((powLoop lhs count (power lhs start)).map Rational.wide) ∧
      ∀ out, powLoop lhs count (power lhs start) = some out →
        out = power lhs (start + count) ∧ (0 < count → PowerFits lhs (start + count)) := by
  induction count with
  | zero =>
      intro start _
      exact ⟨rfl, fun out same => ⟨(Option.some.inj same).symm, fun positive => by omega⟩⟩
  | succ count ih =>
      intro start sound
      have denominatorPos := pow_pos lhs.positive (start + 1)
      have denominatorNe : lhs.denominator ^ (start + 1) ≠ mostNegative := by
        unfold mostNegative
        omega
      have refined : WideRational.checkedResult
          [lhs.numerator ^ (start + 1), lhs.denominator ^ (start + 1)]
          (lhs.numerator ^ (start + 1)) (lhs.denominator ^ (start + 1)) false =
          some (Rational.checkedResult
            [lhs.numerator ^ (start + 1), lhs.denominator ^ (start + 1)]
            (lhs.numerator ^ (start + 1)) (lhs.denominator ^ (start + 1)) false).wide :=
        checkedResult_eq (by simp) (by simp) denominatorPos.ne' (fun fits =>
          ⟨sound (start + 1) (by omega) (by omega) ⟨fits _ (by simp), fits _ (by simp)⟩,
            denominatorNe⟩) false
      have exact : (power lhs start).mul lhs = Rational.checkedResult
          [lhs.numerator ^ (start + 1), lhs.denominator ^ (start + 1)]
          (lhs.numerator ^ (start + 1)) (lhs.denominator ^ (start + 1)) false := by
        simp only [Rational.mul, power, lhsIn.exact, ← pow_succ, Bool.or_false]
      rw [powLoop128, powLoop, mul_power lhsIn, refined, Option.bind_some, exact]
      by_cases fits : PowerFits lhs (start + 1)
      · have all : ∀ product ∈ [lhs.numerator ^ (start + 1), lhs.denominator ^ (start + 1)],
            InInt128 product := by simpa using And.intro fits.1 fits.2
        have next : Rational.checkedResult
            [lhs.numerator ^ (start + 1), lhs.denominator ^ (start + 1)]
            (lhs.numerator ^ (start + 1)) (lhs.denominator ^ (start + 1)) false =
            power lhs (start + 1) := by
          rw [Rational.checkedResult, if_pos all]
          exact fromWide_reduced (power lhs (start + 1))
        rw [next, if_neg (by simp [power]), if_neg (by simp [power])]
        obtain ⟨same, reached⟩ := ih (start + 1) fun i above below =>
          sound i (by omega) (by omega)
        rw [show start + 1 + count = start + (count + 1) by omega] at reached
        refine ⟨same, fun out computed => ⟨(reached out computed).1, fun _ => ?_⟩⟩
        rcases Nat.eq_zero_or_pos count with rfl | positive
        · exact fits
        · exact (reached out computed).2 positive
      · have flagged : (Rational.checkedResult
            [lhs.numerator ^ (start + 1), lhs.denominator ^ (start + 1)]
            (lhs.numerator ^ (start + 1)) (lhs.denominator ^ (start + 1)) false).overflowed =
            true := by
          rw [Rational.checkedResult, if_neg (fun all => fits ⟨all _ (by simp), all _ (by simp)⟩)]
          decide
        rw [if_pos flagged, if_pos (show (Rational.wide _).overflowed = true from flagged)]
        exact ⟨rfl, fun out same => absurd same (by simp)⟩

private theorem div_refines (nonzero : rhs.numerator ≠ 0)
    (safe : Normalises [lhs.numerator * rhs.denominator, lhs.denominator * rhs.numerator]
      (lhs.numerator * rhs.denominator) (lhs.denominator * rhs.numerator)) :
    unflagged128 (lhs.wide.div rhs.wide) =
      some ((if (lhs.div rhs).overflowed then none else some (lhs.div rhs)).map
        Rational.wide) := by
  have sameWide : lhs.wide.div rhs.wide = WideRational.checkedResult
      [lhs.numerator * rhs.denominator, lhs.denominator * rhs.numerator]
      (lhs.numerator * rhs.denominator) (lhs.denominator * rhs.numerator)
      (lhs.overflowed || rhs.overflowed) := if_neg nonzero
  have same : lhs.div rhs = Rational.checkedResult
      [lhs.numerator * rhs.denominator, lhs.denominator * rhs.numerator]
      (lhs.numerator * rhs.denominator) (lhs.denominator * rhs.numerator)
      (lhs.overflowed || rhs.overflowed) := if_neg nonzero
  rw [sameWide, same]
  exact unflagged_refines _ _ _ (by simp) (by simp) (mul_ne_zero lhs.positive.ne' nonzero) safe _

include lhsIn in
private theorem intPow128_refines (integral : rhs.denominator = 1) (safe : Safe .pow lhs rhs) :
    intPow128 lhs.wide rhs.wide = some ((intPow lhs rhs).map Rational.wide) := by
  have whole : ∀ value : ℤ, InInt128 value → value ≠ mostNegative →
      (ofFraction value 1).map some = some ((some (Rational.ofInteger value)).map Rational.wide) :=
    fun value inRange notLeast => by rw [ofFraction_integer inRange notLeast]; rfl
  have isInteger : rhs.asWideInteger = some rhs.numerator := by
    simp [Rational.asWideInteger, Rational.isInteger, integral]
  have unit : ofFraction 1 1 = some (Rational.ofInteger 1).wide :=
    ofFraction_integer (by decide) (by decide)
  have start : Rational.ofInteger 1 = power lhs 0 := by
    apply Rational.ext_parts <;> simp [power]
  have unraised : PowerFits lhs 0 := by
    rw [PowerFits, pow_zero, pow_zero]
    decide
  rw [intPow128, if_neg (show ¬rhs.wide.denominator ≠ 1 from not_not.mpr integral), intPow,
    isInteger]
  simp only [Rational.wide_numerator, equal_ofInteger_eq]
  by_cases one : isWhole lhs.wide 1 = true
  · rw [if_pos one, if_pos one]
    exact whole 1 (by decide) (by decide)
  · rw [if_neg one, if_neg one]
    by_cases zero : isWhole lhs.wide 0 = true
    · rw [if_pos zero, if_pos zero]
      by_cases negative : rhs.numerator < 0
      · simp [negative]
      · by_cases none : rhs.numerator = 0
        · simpa [negative, none] using whole 1 (by decide) (by decide)
        · simpa [negative, none] using whole 0 (by decide) (by decide)
    · rw [if_neg zero, if_neg zero]
      by_cases minusOne : isWhole lhs.wide (-1) = true
      · rw [if_pos minusOne, if_pos minusOne]
        by_cases even : rhs.numerator.tmod 2 = 0
        · simpa [even] using whole 1 (by decide) (by decide)
        · simpa [even] using whole (-1) (by decide) (by decide)
      · rw [if_neg minusOne, if_neg minusOne]
        have nonzero : lhs.numerator ≠ 0 := fun same => zero (isWhole_zero.mpr same)
        have sound : ∀ i, 0 < i → i ≤ 0 + rhs.numerator.natAbs → PowerFits lhs i →
            lhs.numerator ^ i ≠ mostNegative := by
          intro i positive within fits least
          obtain ⟨notLeast, notTwo⟩ := safe integral
          rcases least_power least fits with ⟨isLeast, first⟩ | ⟨two, integer, last⟩
          · have := notLeast isLeast
            omega
          · have := notTwo two integer
            omega
        obtain ⟨refined, reached⟩ := powLoop128_refines lhsIn rhs.numerator.natAbs 0 sound
        rw [unit, Option.bind_some, start, refined, Option.bind_some]
        cases computed : powLoop lhs rhs.numerator.natAbs (power lhs 0) with
        | none => rfl
        | some out =>
            obtain ⟨rfl, fits⟩ := reached out computed
            rw [Nat.zero_add] at fits ⊢
            simp only [Option.map_some, Option.bind_some]
            by_cases negative : rhs.numerator < 0
            · have fitsLast := fits (by omega)
              have outNe : (power lhs rhs.numerator.natAbs).numerator ≠ 0 := pow_ne_zero _ nonzero
              have denominatorNe : (power lhs rhs.numerator.natAbs).denominator ≠ mostNegative := by
                have := (power lhs rhs.numerator.natAbs).positive
                unfold mostNegative
                omega
              simp only [negative, if_true]
              refine div_refines outNe fun _ => ?_
              simpa [power] using And.intro denominatorNe
                (sound rhs.numerator.natAbs (by omega) (by omega) fitsLast)
            · simp only [negative, if_false]
              rfl

include lhsIn rhsIn in
/-- **Away from the most negative word the evaluator's model is what the words compute.** -/
theorem evaluate128_refines {op : Arithmetic} (safe : Safe op lhs rhs) :
    evaluate128 op lhs.wide rhs.wide = some ((evaluateExact op lhs rhs).map Rational.wide) := by
  have denominators := (mul_pos lhs.positive rhs.positive).ne'
  cases op with
  | add =>
      exact unflagged_refines (checkedParts .add lhs rhs).1
        (lhs.numerator * rhs.denominator + rhs.numerator * lhs.denominator)
        (lhs.denominator * rhs.denominator) (by simp [checkedParts]) (by simp [checkedParts])
        denominators safe _
  | sub =>
      exact unflagged_refines (checkedParts .sub lhs rhs).1
        (lhs.numerator * rhs.denominator - rhs.numerator * lhs.denominator)
        (lhs.denominator * rhs.denominator) (by simp [checkedParts]) (by simp [checkedParts])
        denominators safe _
  | mul =>
      exact unflagged_refines (checkedParts .mul lhs rhs).1 (lhs.numerator * rhs.numerator)
        (lhs.denominator * rhs.denominator) (by simp [checkedParts]) (by simp [checkedParts])
        denominators safe _
  | div =>
      rw [evaluate128, evaluateExact, equal_ofInteger_eq]
      by_cases zero : isWhole rhs.wide 0 = true
      · rw [if_pos zero, if_pos zero]
        rfl
      · rw [if_neg zero, if_neg zero]
        have nonzero : rhs.numerator ≠ 0 := fun same => zero (isWhole_zero.mpr same)
        exact div_refines nonzero (safe nonzero)
  | mod =>
      rw [evaluate128, remainder128, evaluateExact, remainder]
      by_cases integers : lhs.denominator = 1 ∧ rhs.denominator = 1
      · have leftInteger : lhs.asWideInteger = some lhs.numerator := by
          simp [Rational.asWideInteger, Rational.isInteger, integers.1]
        have rightInteger : rhs.asWideInteger = some rhs.numerator := by
          simp [Rational.asWideInteger, Rational.isInteger, integers.2]
        rw [leftInteger, rightInteger]
        by_cases zero : rhs.numerator = 0
        · rw [if_pos (Or.inr (Or.inr (isWhole_zero.mpr zero)))]
          simp [zero]
        · have kept : ¬(lhs.wide.denominator ≠ 1 ∨ rhs.wide.denominator ≠ 1 ∨
              isWhole rhs.wide 0 = true) := by
            rw [isWhole_zero]
            simp [integers, zero]
          obtain ⟨restFits, restNe⟩ := rest_fits lhsIn rhsIn zero
          rw [if_neg kept]
          by_cases unit : rhs.numerator = -1
          · simp [unit, ofFraction_integer (show InInt128 0 by decide) (by decide)]
          · rw [if_neg (show ¬rhs.wide.numerator = -1 from unit)]
            rw [Rational.wide_numerator, Rational.wide_numerator,
              remainder_of_ne (inInt128_iff.mp lhsIn.numerator) zero unit, Option.bind_some,
              ofFraction_integer restFits restNe]
            simp [zero, unit]
      · have refused : lhs.asWideInteger = none ∨ rhs.asWideInteger = none := by
          simp only [Rational.asWideInteger, Rational.isInteger, beq_iff_eq]
          by_cases left : lhs.denominator = 1
          · have right : rhs.denominator ≠ 1 := fun right => integers ⟨left, right⟩
            exact Or.inr (by simp [right])
          · exact Or.inl (by simp [left])
        rw [if_pos (show lhs.wide.denominator ≠ 1 ∨ rhs.wide.denominator ≠ 1 ∨ _ by
          simp only [Rational.wide_denominator]
          tauto)]
        rcases refused with left | right
        · simp [left]
        · cases lhs.asWideInteger <;> simp [right]
  | pow =>
      by_cases integral : rhs.denominator = 1
      · exact intPow128_refines lhsIn integral safe
      · rw [evaluate128, evaluateExact, intPow128,
          if_pos (show rhs.wide.denominator ≠ 1 from integral), intPow]
        simp [Rational.asWideInteger, Rational.isInteger, integral]
  | minus =>
      have nonzero := lhs.positive.ne'
      have denominatorNe : lhs.denominator ≠ mostNegative := by
        have := lhs.positive
        unfold mostNegative
        omega
      obtain ⟨negFits, negNe⟩ := neg_fits lhsIn.numerator safe
      rw [evaluate128, minus128, Rational.wide_numerator, neg_of_ne lhsIn.numerator safe,
        Option.bind_some, WideRational.ofFraction, Rational.wide_denominator, if_neg nonzero,
        fromWide_eq negFits lhsIn.denominator negNe denominatorNe nonzero]
      simp [evaluateExact, Rational.neg, Rational.ofFraction, Rational.fromWide, nonzero]

end Refinement

/-! ### Every operator -/

/-- **Arithmetic on rationals is exact or refused exactly where no most negative word is
normalised.** -/
theorem arithmetic_exact_iff (op : Arithmetic) (lhs rhs : Rational) (lhsIn : lhs.InRange)
    (rhsIn : rhs.InRange) :
    ExactOrRefused op lhs rhs (evaluate128 op lhs.wide rhs.wide) ↔ Safe op lhs rhs := by
  cases op with
  | add => exact add_iff lhsIn rhsIn
  | sub => exact sub_iff lhsIn rhsIn
  | mul => exact mul_iff lhsIn rhsIn
  | div => exact div_iff lhsIn rhsIn
  | mod => exact mod_iff lhsIn rhsIn
  | pow => exact pow_iff lhsIn
  | minus => exact minus_iff lhsIn

theorem arithmetic_exact_iff_third :
    ExactOrRefused .div (.ofFraction 3 2) (.ofInteger 3)
      (evaluate128 .div (Rational.ofFraction 3 2).wide (Rational.ofInteger 3).wide) :=
  (arithmetic_exact_iff .div (.ofFraction 3 2) (.ofInteger 3)
    ⟨by decide, by decide, by decide⟩ ⟨by decide, by decide, by decide⟩).mpr
    fun _ _ => by decide

/-- Twice a fifth of `-2 ^ 126`: the product is a fraction of 128-bit words, and its
normalisation negates the most negative one. -/
theorem arithmetic_wraps :
    ¬∀ (op : Arithmetic) (lhs rhs : Rational), lhs.InRange → rhs.InRange →
      ExactOrRefused op lhs rhs (evaluate128 op lhs.wide rhs.wide) := by
  intro always
  have meets := always .mul (.ofFraction (-85070591730234615865843651857942052864) 5) (.ofInteger 2)
    ⟨by decide, by decide, by decide⟩ ⟨by decide, by decide, by decide⟩
  have undefined : evaluate128 .mul
      (Rational.ofFraction (-85070591730234615865843651857942052864) 5).wide
      (Rational.ofInteger 2).wide = none := by decide
  rw [undefined] at meets
  exact meets

/-! ### The evaluator -/

/-- **A binary operator of the evaluator is what the words compute**, away from the most negative
one: they have the same value, or refuse together. -/
theorem applyBinaryRational_words {op : Arithmetic} {binary : BinaryOp}
    (named : op.binaryOp = some binary) {lhs rhs : Rational} (lhsIn : lhs.InRange)
    (rhsIn : rhs.InRange) (safe : Safe op lhs rhs) :
    ∃ result : Option Rational,
      (∀ host : Host, applyBinaryRational host binary lhs rhs = result.map .rational) ∧
        evaluate128 op lhs.wide rhs.wide = some (result.map Rational.wide) :=
  ⟨evaluateExact op lhs rhs, fun host => applyBinaryRational_eq host named lhs rhs,
    evaluate128_refines lhsIn rhsIn safe⟩

/-- The cube of two thirds. -/
theorem applyBinaryRational_words_cube :
    ∃ result : Option Rational,
      (∀ host : Host, applyBinaryRational host .pow (.ofFraction 2 3) (.ofInteger 3) =
        result.map .rational) ∧
        evaluate128 .pow (Rational.ofFraction 2 3).wide (Rational.ofInteger 3).wide =
          some (result.map Rational.wide) :=
  @applyBinaryRational_words .pow _ rfl _ _ ⟨by decide, by decide, by decide⟩
    ⟨by decide, by decide, by decide⟩ fun _ => ⟨by decide, by decide⟩

end LlvmDsdl.Semantics
