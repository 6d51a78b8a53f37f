import LlvmDsdl.Support.RationalSet

/-!
Contract: the order of rationals and the sets kept by it, with the fallback in
the words of the platform.

Owns: rounding to a significand, the quotient `operator<` falls back to, when
`operator<` agrees with the order of the fractions, and that a set whose
comparisons agree mirrors the sorted set of its fractions.

A `long double` is a significand of `precision` bits here. The quotients of
128-bit words stay far from the ends of its exponent range.
-/

namespace LlvmDsdl.Support

/-- The exponent of the leading bit. -/
def floorLog2 (x : ℚ) : ℤ :=
  let guess := (Nat.log2 x.num.natAbs : ℤ) - Nat.log2 x.den
  if |x| < 2 ^ guess then guess - 1 else guess

def roundHalfEven (x : ℚ) : ℤ :=
  let low := ⌊x⌋
  let rest := x - low
  if rest < 1 / 2 ∨ (rest = 1 / 2 ∧ low % 2 = 0) then low else low + 1

/-- The nearest value with a significand of `precision` bits. -/
def roundTo (precision : ℕ) (x : ℚ) : ℚ :=
  if x = 0 then 0
  else
    let ulp := floorLog2 x - (precision - 1)
    roundHalfEven (x / 2 ^ ulp) * 2 ^ ulp

namespace Rational

/-- `static_cast<long double>(numerator) / static_cast<long double>(denominator)`. -/
def longDouble (precision : ℕ) (value : Rational) : ℚ :=
  roundTo precision (roundTo precision value.numerator / roundTo precision value.denominator)

/-- The fallback of `operator<`. -/
def longDoubleLess (precision : ℕ) (lhs rhs : Rational) : Bool :=
  longDouble precision lhs < longDouble precision rhs

/-- Two fractions in order are told apart: their cross products fit 128 bits, or
their rounded quotients are in order too. -/
def ToldApart (precision : ℕ) (lhs rhs : Rational) : Prop :=
  lhs.toRat < rhs.toRat → CrossFits lhs rhs ∨ longDouble precision lhs < longDouble precision rhs

theorem parts_of_toRat {lhs rhs : Rational} (same : lhs.toRat = rhs.toRat) :
    lhs.numerator = rhs.numerator ∧ lhs.denominator = rhs.denominator := by
  simpa [equal] using equal_iff_toRat.mpr same

/-- `operator<` agrees with the order of the fractions where both directions are told apart. -/
theorem less_iff_toRat {precision : ℕ} {lhs rhs : Rational} (forward : ToldApart precision lhs rhs)
    (backward : ToldApart precision rhs lhs) :
    less (longDoubleLess precision) lhs rhs = true ↔ lhs.toRat < rhs.toRat := by
  by_cases fits : CrossFits lhs rhs
  · rw [less_iff _ fits, below_iff_toRat]
  · rw [less, if_neg fits, longDoubleLess, decide_eq_true_eq]
    constructor
    · intro ordered
      rcases lt_trichotomy lhs.toRat rhs.toRat with below | same | above
      · exact below
      · obtain ⟨numerators, denominators⟩ := parts_of_toRat same
        rw [longDouble, longDouble, numerators, denominators] at ordered
        exact absurd ordered (lt_irrefl _)
      · rcases backward above with crossFits | reversed
        · exact absurd crossFits.symm fits
        · exact absurd ordered reversed.asymm
    · intro below
      exact (forward below).resolve_left fits

theorem toldApart_of_less {precision : ℕ} {lhs rhs : Rational}
    (agrees : less (longDoubleLess precision) lhs rhs = true ↔ lhs.toRat < rhs.toRat) :
    ToldApart precision lhs rhs := by
  intro below
  by_cases fits : CrossFits lhs rhs
  · exact Or.inl fits
  · have ordered := agrees.mpr below
    rw [less, if_neg fits, longDoubleLess, decide_eq_true_eq] at ordered
    exact Or.inr ordered

end Rational

namespace RationalSet

open Rational

/-- The comparison agrees with the order of the fractions on these values. -/
def Agrees (compare : Rational → Rational → Bool) (values : Set Rational) : Prop :=
  ∀ lhs ∈ values, ∀ rhs ∈ values, less compare lhs rhs = true ↔ lhs.toRat < rhs.toRat

section Mirror

variable {compare : Rational → Rational → Bool} {values : Set Rational}
  (agrees : Agrees compare values)

include agrees

theorem insertOrdered_toRat {value : Rational} (valueIn : value ∈ values) (elements : List Rational)
    (elementsIn : ∀ element ∈ elements, element ∈ values) :
    (insertOrdered compare value elements).map toRat =
      FlatSet.insertSorted value.toRat (elements.map toRat) := by
  induction elements with
  | nil => rfl
  | cons first rest ih =>
      have firstIn := elementsIn first (by simp)
      have tail := ih fun element member => elementsIn element (by simp [member])
      have before := agrees first firstIn value valueIn
      have after := agrees value valueIn first firstIn
      rw [List.map_cons, insertOrdered, FlatSet.insertSorted]
      by_cases less : first.toRat < value.toRat
      · rw [if_pos (before.mpr less), if_pos less, List.map_cons, tail]
      · rw [if_neg fun is => less (before.mp is), if_neg less]
        by_cases greater : value.toRat < first.toRat
        · rw [if_pos (after.mpr greater), if_pos greater, List.map_cons, List.map_cons]
        · rw [if_neg fun is => greater (after.mp is), if_neg greater, List.map_cons]

omit agrees in
theorem mem_insertOrdered {value element : Rational} {elements : List Rational}
    (member : element ∈ insertOrdered compare value elements) :
    element = value ∨ element ∈ elements := by
  induction elements with
  | nil => simpa [insertOrdered] using member
  | cons first rest ih =>
      rw [insertOrdered] at member
      split at member
      · rcases List.mem_cons.mp member with rfl | inTail
        · simp
        · rcases ih inTail with same | inRest
          · exact Or.inl same
          · exact Or.inr (by simp [inRest])
      · split at member
        · exact List.mem_cons.mp member
        · exact Or.inr member

/-- **A run of insertions mirrors the insertions of the fractions.** -/
theorem insertAll_toRat (added : List Rational) : ∀ {set : RationalSet} {mirror : FlatSet ℚ},
    (∀ element ∈ set.elements, element ∈ values) → (∀ value ∈ added, value ∈ values) →
    set.elements.map toRat = mirror.data →
      (set.insertAll compare added).elements.map toRat =
          ((added.map toRat).foldl FlatSet.insert mirror).data ∧
        ∀ element ∈ (set.insertAll compare added).elements, element ∈ values := by
  induction added with
  | nil => intro set mirror setIn _ same; exact ⟨same, setIn⟩
  | cons first rest ih =>
      intro set mirror setIn addedIn same
      have firstIn := addedIn first (by simp)
      have step : (set.insert compare first).elements.map toRat =
          (mirror.insert first.toRat).data := by
        rw [RationalSet.insert, insertOrdered_toRat agrees firstIn set.elements setIn, same]
        rfl
      refine ih (fun element member => ?_)
        (fun value member => addedIn value (by simp [member])) step
      rcases mem_insertOrdered member with rfl | old
      · exact firstIn
      · exact setIn element old

/-- Lookup finds exactly the fractions of a set in ascending order. -/
theorem contains_toRat {value : Rational} (valueIn : value ∈ values) (elements : List Rational)
    (elementsIn : ∀ element ∈ elements, element ∈ values)
    (ascending : (elements.map toRat).Pairwise (· < ·)) :
    containsOrdered compare value elements = true ↔ value.toRat ∈ elements.map toRat := by
  induction elements with
  | nil => simp [containsOrdered]
  | cons first rest ih =>
      rw [List.map_cons, List.pairwise_cons] at ascending
      have firstIn := elementsIn first (by simp)
      have tail := ih (fun element member => elementsIn element (by simp [member]))
        ascending.2
      rw [containsOrdered, List.map_cons, List.mem_cons]
      by_cases less : first.toRat < value.toRat
      · rw [if_pos ((agrees first firstIn value valueIn).mpr less), tail]
        exact ⟨Or.inr, fun found => found.resolve_left fun same => less.ne' same⟩
      · rw [if_neg fun is => less ((agrees first firstIn value valueIn).mp is), Bool.not_eq_true',
          Bool.eq_false_iff, Ne, agrees value valueIn first firstIn]
        constructor
        · intro notGreater
          exact Or.inl (le_antisymm (not_lt.mp less) (not_lt.mp notGreater))
        · rintro (same | inRest) greater
          · exact greater.ne same
          · exact (greater.trans (ascending.1 _ inRest)).ne rfl

end Mirror

end RationalSet

end LlvmDsdl.Support
