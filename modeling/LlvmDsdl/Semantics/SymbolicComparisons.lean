import LlvmDsdl.Semantics.SymbolicOperators

/-!
Contract: comparisons of a symbolic set against the listed elements.

Owns: the literals whose comparisons stay in 128 bits, the look-ups an ordered
comparison rests on, and for an enumerated bit-length set the verdicts of
equality, which are those on the listed elements, and of the ordered
comparisons, which are exactly where the look-ups find what is there.
-/

namespace LlvmDsdl.Semantics

open Frontend Support Support.IntegerMath

/-- The literal is ordered by exact comparisons and so is every bit length
against it. -/
structure ComparableLiteral (literal : RationalSet) : Prop where
  ordered : literal.Ordered
  numerators : ∀ element ∈ literal.elements, InInt128 element.numerator
  denominators : ∀ element ∈ literal.elements, element.denominator ≤ 2 ^ 64

theorem ComparableLiteral.crossFits {literal : RationalSet}
    (comparable : ComparableLiteral literal) {element : Rational}
    (member : element ∈ literal.elements) {value : ℤ} (nonneg : 0 ≤ value)
    (below : value ≤ int64Max) : Rational.CrossFits element (.ofInteger value) := by
  have positive := element.positive
  have denominator := comparable.denominators element member
  have ceiling : int64Max = 2 ^ 63 - 1 := by decide
  constructor
  · rw [Rational.denominator_ofInteger, mul_one]
    exact comparable.numerators element member
  · rw [Rational.numerator_ofInteger]
    have product : value * element.denominator ≤ (2 ^ 63 - 1) * 2 ^ 64 :=
      mul_le_mul (by omega) denominator positive.le (by norm_num)
    have nonnegative : 0 ≤ value * element.denominator := mul_nonneg nonneg positive.le
    constructor <;> omega

section Comparison

variable (host : Host) {set : LengthSet} {literal : RationalSet}

/-- As many elements of the literal are bit lengths as there are bit lengths. -/
def setHeld (set : LengthSet) (literal : RationalSet) : Bool :=
  (literal.elements.filter set.rationals.hasEqual).length == set.rationals.size

def literalHeld (set : LengthSet) (literal : RationalSet) : Bool :=
  literal.elements.all set.rationals.hasEqual

/-- The symbolic verdict does not rest on the look-ups alone: the set has runs,
or the comparison is strict and the sizes are the same. -/
def SettledApart (set : LengthSet) (literal : RationalSet) (op : BinaryOp) : Prop :=
  set.runSet.isSome = true ∨ ((op = .lt ∨ op = .gt) ∧ set.rationals.size = literal.size)

/-- The look-ups by `operator<` find the bit lengths in the literal, or the
literal's elements among the bit lengths, exactly when they are there. -/
structure LooksUp (set : LengthSet) (literal : RationalSet) (op : BinaryOp) : Prop where
  inLiteral : op = .le ∨ op = .lt → SettledApart set literal op →
    isContained host set.rationals literal = setHeld set literal
  inSet : op = .ge ∨ op = .gt → SettledApart set literal op →
    isContained host literal set.rationals = literalHeld set literal

def IsComparison (op : BinaryOp) : Prop :=
  op = .eq ∨ op = .ne ∨ op = .le ∨ op = .lt ∨ op = .ge ∨ op = .gt

instance (op : BinaryOp) : Decidable (IsComparison op) :=
  inferInstanceAs (Decidable (_ ∨ _))

/-- The comparison that holds with the operands exchanged. -/
def exchanged : BinaryOp → BinaryOp
  | .le => .ge
  | .lt => .gt
  | .ge => .le
  | .gt => .lt
  | op => op

/-- What an operator yields on the symbolic set and on the listed elements. -/
structure Verdicts (symbolic concrete : Except String Value) (alike : Prop) : Prop where
  decided : ∃ symbolicVerdict concreteVerdict : Bool,
    symbolic = .ok (.boolean symbolicVerdict) ∧ concrete = .ok (.boolean concreteVerdict) ∧
      (symbolicVerdict = concreteVerdict ↔ alike)

end Comparison

end LlvmDsdl.Semantics
