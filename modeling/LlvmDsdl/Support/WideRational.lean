import LlvmDsdl.Library.SignedArithmetic
import LlvmDsdl.Support.Rational

/-!
Contract: the arithmetic of `Support/Rational.cpp` in the 128-bit words it runs in.

Owns: rationals as the three members of the class, normalisation with every
negation and division in 128 bits and undefined where it would overflow, the
four operators and construction over it; that each is the integer definition of
`Rational.lean` unless the most negative word enters a normalisation; and what
the operators compute as fractions.

The multiplications and additions of the operators are the ones the source
checks with `__builtin_*_overflow`.
-/

namespace LlvmDsdl.Support

open Library.SignedArithmetic

/-- The members of the class, in any state. -/
structure WideRational where
  numerator : ℤ
  denominator : ℤ
  overflowed : Bool
  deriving DecidableEq

namespace WideRational

/-- `if (a < 0) a = -a`. -/
def magnitude (a : ℤ) : Option ℤ :=
  if a < 0 then neg 128 a else some a

/-- The loop of `wideGcd`. The second operand falls in every round. -/
def wideGcdLoop : ℕ → ℤ → ℤ → Option ℤ
  | 0, _, _ => none
  | fuel + 1, a, b =>
      if b = 0 then some a
      else (remainder 128 a b).bind fun t => wideGcdLoop fuel b t

def wideGcd (a b : ℤ) : Option ℤ := do
  let a ← magnitude a
  let b ← magnitude b
  let g ← wideGcdLoop (b.toNat + 1) a b
  return if g = 0 then 1 else g

/-- Divide out the greatest common divisor. -/
def reduce (numerator denominator : ℤ) (overflowed : Bool) : Option WideRational := do
  let g ← wideGcd numerator denominator
  let n ← quotient 128 numerator g
  let d ← quotient 128 denominator g
  return ⟨n, d, overflowed⟩

/-- `Rational::fromWide`. -/
def fromWide (numerator denominator : ℤ) (operandOverflowed : Bool) : Option WideRational :=
  if denominator = 0 then some ⟨0, 1, operandOverflowed⟩
  else if denominator < 0 then do
    let n ← neg 128 numerator
    let d ← neg 128 denominator
    reduce n d operandOverflowed
  else reduce numerator denominator operandOverflowed

/-- `Rational(numerator, denominator)`: `normalize` treats its members as `fromWide` does. -/
def ofFraction (numerator denominator : ℤ) : Option WideRational :=
  fromWide numerator (if denominator = 0 then 1 else denominator) false

/-- The tail of the four operators, after their checked products. -/
def checkedResult (products : List ℤ) (numerator denominator : ℤ) (operandOverflowed : Bool) :
    Option WideRational :=
  if ∀ product ∈ products, InInt128 product then fromWide numerator denominator operandOverflowed
  else fromWide 0 1 true

/-- `operator+`. -/
def add (lhs rhs : WideRational) : Option WideRational :=
  let t1 := lhs.numerator * rhs.denominator
  let t2 := rhs.numerator * lhs.denominator
  let d := lhs.denominator * rhs.denominator
  checkedResult [t1, t2, t1 + t2, d] (t1 + t2) d (lhs.overflowed || rhs.overflowed)

/-- `operator-`. -/
def sub (lhs rhs : WideRational) : Option WideRational :=
  let t1 := lhs.numerator * rhs.denominator
  let t2 := rhs.numerator * lhs.denominator
  let d := lhs.denominator * rhs.denominator
  checkedResult [t1, t2, t1 - t2, d] (t1 - t2) d (lhs.overflowed || rhs.overflowed)

/-- `operator*`. -/
def mul (lhs rhs : WideRational) : Option WideRational :=
  let n := lhs.numerator * rhs.numerator
  let d := lhs.denominator * rhs.denominator
  checkedResult [n, d] n d (lhs.overflowed || rhs.overflowed)

/-- `operator/`. -/
def div (lhs rhs : WideRational) : Option WideRational :=
  if rhs.numerator = 0 then ofFraction 0 1
  else
    let n := lhs.numerator * rhs.denominator
    let d := lhs.denominator * rhs.numerator
    checkedResult [n, d] n d (lhs.overflowed || rhs.overflowed)

/-- The words a 128-bit negation cannot take. -/
def mostNegative : ℤ := -170141183460469231731687303715884105728

theorem inInt128_iff {value : ℤ} : InInt128 value ↔ Fits 128 value := by
  rw [fits_128]
  norm_num [InInt128]

theorem neg_mostNegative : neg 128 mostNegative = none := by
  decide

theorem neg_of_ne {value : ℤ} (inRange : InInt128 value) (notLeast : value ≠ mostNegative) :
    neg 128 value = some (-value) := by
  refine neg_of_fits ?_
  rw [inInt128_iff, fits_128] at inRange
  unfold mostNegative at notLeast
  rw [fits_128]
  omega

theorem magnitude_of_ne {value : ℤ} (inRange : InInt128 value) (notLeast : value ≠ mostNegative) :
    magnitude value = some |value| := by
  unfold magnitude
  split
  · rename_i negative
    rw [neg_of_ne inRange notLeast, abs_of_neg negative]
  · rw [abs_of_nonneg (by omega)]

theorem magnitude_mostNegative : magnitude mostNegative = none := by
  decide

theorem wideGcdLoop_eq (fuel : ℕ) : ∀ {a b : ℤ}, b.toNat < fuel → 0 ≤ a → 0 ≤ b → InInt128 a →
    InInt128 b → wideGcdLoop fuel a b = some (Int.gcd a b : ℤ) := by
  induction fuel with
  | zero => intro a b enough; omega
  | succ fuel ih =>
      intro a b enough aNonneg bNonneg aIn bIn
      rw [wideGcdLoop]
      split
      · rename_i done
        subst done
        rw [Int.gcd_zero, Int.natAbs_of_nonneg aNonneg]
      · have bPos : 0 < b := by omega
        have remNonneg := Int.tmod_nonneg b aNonneg
        have remLt := Int.tmod_lt_of_pos a bPos
        have remIn : InInt128 (a.tmod b) := ⟨by have := bIn.1; omega, by have := bIn.2; omega⟩
        rw [remainder_of_pos (inInt128_iff.mp aIn) bPos, Option.bind_some,
          ih (by omega) bNonneg remNonneg bIn remIn,
          Int.tmod_eq_emod_of_nonneg aNonneg, Int.gcd_comm b, Int.gcd_emod]

/-- Away from the most negative words the gcd is the one of the integers. -/
theorem wideGcd_eq {a b : ℤ} (aIn : InInt128 a) (bIn : InInt128 b) (aNe : a ≠ mostNegative)
    (bNe : b ≠ mostNegative) (nonzero : b ≠ 0) : wideGcd a b = some (Int.gcd a b : ℤ) := by
  have absIn : ∀ {value : ℤ}, InInt128 value → value ≠ mostNegative → InInt128 |value| := by
    intro value inRange notLeast
    have range := inInt128_iff.mp inRange
    rw [fits_128] at range
    unfold mostNegative at notLeast
    rw [inInt128_iff, fits_128]
    rcases abs_cases value with ⟨same, _⟩ | ⟨same, _⟩ <;> omega
  have positive : Int.gcd a b ≠ 0 := fun zero => nonzero (Int.gcd_eq_zero_iff.mp zero).2
  have sameGcd : Int.gcd |a| |b| = Int.gcd a b := by
    rw [Int.gcd_eq_natAbs_gcd_natAbs, Int.natAbs_abs, Int.natAbs_abs]
    rfl
  rw [wideGcd, magnitude_of_ne aIn aNe, magnitude_of_ne bIn bNe]
  simp only [Option.bind_eq_bind, Option.bind_some]
  rw [wideGcdLoop_eq _ (Nat.lt_succ_self _) (abs_nonneg a) (abs_nonneg b) (absIn aIn aNe)
    (absIn bIn bNe), Option.bind_some, sameGcd]
  simp [positive]

theorem wideGcd_mostNegative {b : ℤ} : wideGcd mostNegative b = none := by
  rw [wideGcd, magnitude_mostNegative]
  rfl

end WideRational

def Rational.wide (value : Rational) : WideRational :=
  ⟨value.numerator, value.denominator, value.overflowed⟩

@[simp] theorem Rational.wide_numerator (value : Rational) :
    value.wide.numerator = value.numerator := rfl

@[simp] theorem Rational.wide_denominator (value : Rational) :
    value.wide.denominator = value.denominator := rfl

@[simp] theorem Rational.wide_overflowed (value : Rational) :
    value.wide.overflowed = value.overflowed := rfl

namespace WideRational

theorem quotient_gcd {value g : ℤ} (inRange : InInt128 value) (positive : 0 < g)
    (divides : g ∣ value) : quotient 128 value g = some (value / g) := by
  rw [quotient_of_pos (inInt128_iff.mp inRange) positive, Int.tdiv_eq_ediv_of_dvd divides]

theorem reduce_eq {n d : ℤ} (nIn : InInt128 n) (dIn : InInt128 d) (nNe : n ≠ mostNegative)
    (dPos : 0 < d) (flag : Bool) : reduce n d flag =
      some ⟨n / (Int.gcd n d : ℤ), d / (Int.gcd n d : ℤ), flag⟩ := by
  have gcdPos : (0 : ℤ) < Int.gcd n d :=
    Int.natCast_pos.mpr (Int.gcd_pos_of_ne_zero_right _ dPos.ne')
  have dNe : d ≠ mostNegative := by
    unfold mostNegative
    omega
  rw [reduce, wideGcd_eq nIn dIn nNe dNe dPos.ne']
  simp only [Option.bind_eq_bind, Option.bind_some]
  rw [quotient_gcd nIn gcdPos (Int.gcd_dvd_left ..), quotient_gcd dIn gcdPos (Int.gcd_dvd_right ..)]
  rfl

/-- **Normalisation computes the integer one** away from the most negative words. -/
theorem fromWide_eq {n d : ℤ} (nIn : InInt128 n) (dIn : InInt128 d) (nNe : n ≠ mostNegative)
    (dNe : d ≠ mostNegative) (nonzero : d ≠ 0) (flag : Bool) :
    fromWide n d flag = some (Rational.fromWide n d flag).wide := by
  rw [fromWide, if_neg nonzero, Rational.fromWide, dif_pos nonzero]
  by_cases negative : d < 0
  · rw [if_pos negative, neg_of_ne nIn nNe, neg_of_ne dIn dNe]
    simp only [Option.bind_eq_bind, Option.bind_some]
    have negIn : ∀ {value : ℤ}, InInt128 value → value ≠ mostNegative →
        InInt128 (-value) ∧ -value ≠ mostNegative := by
      intro value inRange notLeast
      rw [inInt128_iff, fits_128] at inRange ⊢
      unfold mostNegative at notLeast ⊢
      omega
    have negN := negIn nIn nNe
    have negD := negIn dIn dNe
    rw [reduce_eq negN.1 negD.1 negN.2 (by omega), Int.neg_gcd, Int.gcd_neg]
    simp [Rational.wide, Rational.normalize, negative]
  · rw [if_neg negative, reduce_eq nIn dIn nNe (by omega)]
    simp [Rational.wide, Rational.normalize, negative]

/-- Normalising a most negative word negates it, which 128 bits cannot. -/
theorem fromWide_undefined {n d : ℤ} (nonzero : d ≠ 0) (least : n = mostNegative ∨ d = mostNegative)
    (flag : Bool) : fromWide n d flag = none := by
  rw [fromWide, if_neg nonzero]
  rcases least with rfl | rfl
  · split
    · rw [neg_mostNegative]
      rfl
    · rw [reduce, wideGcd_mostNegative]
      rfl
  · rw [if_pos (by decide), neg_mostNegative]
    cases neg 128 n <;> rfl

/-- Normalising these meets no most negative word, if the products are kept at all. -/
def Normalises (products : List ℤ) (numerator denominator : ℤ) : Prop :=
  (∀ product ∈ products, InInt128 product) →
    numerator ≠ mostNegative ∧ denominator ≠ mostNegative

section CheckedResult

variable {products : List ℤ} {n d : ℤ} (nMember : n ∈ products) (dMember : d ∈ products)
  (nonzero : d ≠ 0)

include nMember dMember nonzero

theorem checkedResult_eq (safe : Normalises products n d) (flag : Bool) :
    checkedResult products n d flag = some (Rational.checkedResult products n d flag).wide := by
  unfold checkedResult Rational.checkedResult
  split
  · rename_i fits
    exact fromWide_eq (fits n nMember) (fits d dMember) (safe fits).1 (safe fits).2 nonzero flag
  · exact fromWide_eq (by decide) (by decide) (by decide) (by decide) one_ne_zero true

omit nMember dMember in
theorem checkedResult_undefined (unsound : ¬Normalises products n d) (flag : Bool) :
    checkedResult products n d flag = none := by
  obtain ⟨fits, least⟩ := Classical.not_imp.mp unsound
  rw [checkedResult, if_pos fits]
  refine fromWide_undefined nonzero ?_ flag
  by_contra neither
  exact least ⟨fun same => neither (Or.inl same), fun same => neither (Or.inr same)⟩

end CheckedResult

end WideRational

namespace Rational

theorem toRat_eq (value : Rational) : value.toRat = value.numerator / value.denominator := by
  rw [← Rat.num_div_den value.toRat, ← value.den_toRat]
  rfl

theorem toRat_eq_zero {value : Rational} : value.toRat = 0 ↔ value.numerator = 0 := by
  have positive : (value.denominator : ℚ) ≠ 0 := by exact_mod_cast value.positive.ne'
  rw [toRat_eq, div_eq_zero_iff]
  simp [positive]

theorem toRat_normalize (n d : ℤ) (nonzero : d ≠ 0) (flag : Bool) :
    (normalize n d nonzero flag).toRat = n / d := by
  have gcdPos : (0 : ℤ) < Int.gcd n d :=
    Int.natCast_pos.mpr (Int.gcd_pos_of_ne_zero_right _ nonzero)
  have gcdNe : ((Int.gcd n d : ℤ) : ℚ) ≠ 0 := by exact_mod_cast gcdPos.ne'
  have nDvd : (Int.gcd n d : ℤ) ∣ n := Int.gcd_dvd_left ..
  have dDvd : (Int.gcd n d : ℤ) ∣ d := Int.gcd_dvd_right ..
  rw [toRat_eq, normalize]
  dsimp only
  split
  · rw [Int.cast_div (Int.dvd_neg.mpr nDvd) gcdNe, Int.cast_div (Int.dvd_neg.mpr dDvd) gcdNe,
      div_div_div_cancel_right₀ gcdNe]
    push_cast
    rw [neg_div_neg_eq]
  · rw [Int.cast_div nDvd gcdNe, Int.cast_div dDvd gcdNe, div_div_div_cancel_right₀ gcdNe]

/-- A checked result is flagged, or all its products fit and it is their fraction. -/
theorem checkedResult_cases (products : List ℤ) (n d : ℤ) (nonzero : d ≠ 0) :
    ((∀ product ∈ products, InInt128 product) ∧
      (checkedResult products n d false).overflowed = false ∧
      (checkedResult products n d false).toRat = n / d) ∨
    (¬(∀ product ∈ products, InInt128 product) ∧
      (checkedResult products n d false).overflowed = true) := by
  unfold checkedResult
  split
  · rename_i fits
    rw [fromWide, dif_pos nonzero]
    exact Or.inl ⟨fits, rfl, toRat_normalize n d nonzero false⟩
  · rename_i unfit
    rw [fromWide, dif_pos one_ne_zero]
    exact Or.inr ⟨unfit, rfl⟩

/-- Both parts fit 128 bits and nothing overflowed before. -/
structure InRange (value : Rational) : Prop where
  numerator : InInt128 value.numerator
  denominator : InInt128 value.denominator
  exact : value.overflowed = false

/-- The parts of a normalised fraction are no larger than the given ones. -/
theorem inRange_fromWide {n d : ℤ} (nIn : InInt128 n) (dIn : InInt128 d) (nonzero : d ≠ 0)
    (nNe : n ≠ WideRational.mostNegative) (dNe : d ≠ WideRational.mostNegative) :
    (fromWide n d false).InRange := by
  have shrink : ∀ {value : ℤ}, InInt128 value → value ≠ WideRational.mostNegative →
      ∀ part : ℤ, part.natAbs ≤ value.natAbs → InInt128 part := by
    intro value inRange notLeast part smaller
    rw [WideRational.inInt128_iff, fits_128] at inRange ⊢
    unfold WideRational.mostNegative at notLeast
    omega
  have parts : ∀ value : ℤ, (value / (Int.gcd n d : ℤ)).natAbs ≤ value.natAbs := by
    intro value
    exact Int.natAbs_ediv_le_natAbs value _
  rw [fromWide, dif_pos nonzero]
  constructor
  · refine shrink nIn nNe _ ?_
    rw [normalize]
    dsimp only
    split
    · exact (parts (-n)).trans (by rw [Int.natAbs_neg])
    · exact parts n
  · refine shrink dIn dNe _ ?_
    rw [normalize]
    dsimp only
    split
    · exact (parts (-d)).trans (by rw [Int.natAbs_neg])
    · exact parts d
  · rfl

end Rational

end LlvmDsdl.Support
