import LlvmDsdl.Frontend.DecimalLiteral
import LlvmDsdl.Support.WideRational

/-!
Contract: the value a numeric literal is read as, against the value it spells.

Owns: the value of a spelling, and for each of the literal parsers that what it
returns is that value, or when it is.

An accepted real literal is scaled by saturating powers of ten. One of nineteen
fractional digits or more is divided by `INT64_MAX`.
-/

namespace LlvmDsdl.Frontend

open Support Support.IntegerMath

/-! ### The value of a spelling -/

def digitOf (c : Char) : ℕ :=
  "0123456789abcdef".toList.idxOf c.toLower

/-- The value of digits in a base, the first the most significant. -/
def positional (base : ℕ) (digits : List Char) : ℕ :=
  digits.foldl (fun out c => out * base + digitOf c) 0

def prefixedDigits (plain : List Char) : Option (ℕ × List Char) :=
  match plain with
  | '0' :: mark :: digits =>
      if mark = 'x' ∨ mark = 'X' then some (16, digits)
      else if mark = 'b' ∨ mark = 'B' then some (2, digits)
      else if mark = 'o' ∨ mark = 'O' then some (8, digits)
      else none
  | _ => none

/-- What precedes the exponent. -/
def mantissaOf (plain : List Char) : List Char :=
  plain.takeWhile fun c => !isExponentMark c

/-- The digits of the mantissa before its point. -/
def wholeOf (plain : List Char) : List Char :=
  (mantissaOf plain).takeWhile (· ≠ '.')

/-- The digits of the mantissa after its point. -/
def fractionOf (plain : List Char) : List Char :=
  ((mantissaOf plain).dropWhile (· ≠ '.')).drop 1

def signedValue : List Char → ℤ
  | '-' :: digits => -positional 10 digits
  | '+' :: digits => positional 10 digits
  | digits => positional 10 digits

def exponentOf (plain : List Char) : ℤ :=
  signedValue ((plain.dropWhile fun c => !isExponentMark c).drop 1)

/-- The digits of the mantissa as one number. -/
def significandOf (plain : List Char) : ℕ :=
  positional 10 (wholeOf plain ++ fractionOf plain)

def decimalValue (plain : List Char) : ℚ :=
  significandOf plain * 10 ^ (exponentOf plain - (fractionOf plain).length)

def numeralValue (text : List Char) : ℚ :=
  match prefixedDigits (removeUnderscores text) with
  | some (base, digits) => positional base digits
  | none => decimalValue (removeUnderscores text)

/-- The literal's scale is a power of ten that the parser represents. -/
def KeepsValue (text : List Char) : Prop :=
  (prefixedDigits (removeUnderscores text)).isSome ∨ significandOf (removeUnderscores text) = 0 ∨
    (fractionOf (removeUnderscores text)).length ≤ 18 ∧
      exponentOf (removeUnderscores text) ≠ -2 ^ 31

/-! ### Digits -/

theorem digitOf_of_range {c : Char} {first last : ℕ} (range : first ≤ c.toNat ∧ c.toNat ≤ last)
    {offset : ℕ} (table : ∀ code ∈ List.range' first (last + 1 - first),
      digitOf (Char.ofNat code) = offset + (code - first)) :
    digitOf c = offset + (c.toNat - first) := by
  have member : c.toNat ∈ List.range' first (last + 1 - first) := by
    rw [List.mem_range'_1]
    omega
  have value := table c.toNat member
  rwa [Char.ofNat_toNat] at value

theorem digitOf_digitValue {c : Char} {value : ℕ} (isValue : digitValue c = some value) :
    value = digitOf c := by
  have code {low high : Char} (range : low ≤ c ∧ c ≤ high) :
      low.toNat ≤ c.toNat ∧ c.toNat ≤ high.toNat := range
  unfold digitValue at isValue
  split at isValue
  · rename_i range
    have digit := @digitOf_of_range c '0'.toNat '9'.toNat (code range) 0 (by decide)
    rw [digit, ← Option.some.inj isValue, Nat.zero_add]
  · split at isValue
    · rename_i range
      have digit := @digitOf_of_range c 'a'.toNat 'f'.toNat (code range) 10 (by decide)
      rw [digit, ← Option.some.inj isValue]
    · split at isValue
      · rename_i range
        have digit := @digitOf_of_range c 'A'.toNat 'F'.toNat (code range) 10 (by decide)
        rw [digit, ← Option.some.inj isValue]
      · cases isValue

theorem digitOf_isDigit {c : Char} (isDigit : c.isDigit = true) :
    digitOf c = c.toNat - '0'.toNat :=
  (digitOf_digitValue (digitValue_digit isDigit).1).symm

/-! ### Integers -/

theorem accumulateDigits_value {base out value : ℕ} {digits : List Char}
    (parsed : accumulateDigits base out digits = some value) :
    value = digits.foldl (fun out c => out * base + digitOf c) out := by
  induction digits generalizing out with
  | nil => exact (Option.some.inj parsed).symm
  | cons c rest ih =>
      rw [accumulateDigits] at parsed
      split at parsed
      · cases parsed
      · rename_i v isValue
        split at parsed
        · cases parsed
        · split at parsed
          · cases parsed
          · rw [List.foldl_cons, ← digitOf_digitValue isValue]
            exact ih parsed

theorem accumulateDigits_decimal {out value : ℕ} {digits : List Char}
    (parsed : accumulateDigits 10 out digits = some value) : ∀ c ∈ digits, c.isDigit = true := by
  induction digits generalizing out with
  | nil => simp
  | cons c rest ih =>
      rw [accumulateDigits] at parsed
      split at parsed
      · cases parsed
      · rename_i v isValue
        split at parsed
        · cases parsed
        · rename_i small
          split at parsed
          · cases parsed
          · intro other member
            rcases List.mem_cons.mp member with rfl | inRest
            · unfold digitValue at isValue
              split at isValue
              · rename_i range
                rw [Char.isDigit, Bool.and_eq_true, decide_eq_true_eq, decide_eq_true_eq]
                exact range
              · split at isValue
                · have value := Option.some.inj isValue
                  omega
                · split at isValue
                  · have value := Option.some.inj isValue
                    omega
                  · cases isValue
            · exact ih parsed other inRest

theorem decimalValue_digits {digits : List Char} (all : ∀ c ∈ digits, c.isDigit = true) :
    fractionOf digits = [] ∧ exponentOf digits = 0 ∧ significandOf digits = positional 10 digits := by
  have unmarked : ∀ c ∈ digits, (!isExponentMark c) = true := fun c member =>
    isExponentMark_digit (all c member)
  have unpointed : ∀ c ∈ digits, decide (c ≠ '.') = true := fun c member =>
    decide_eq_true (isDigit_ne (all c member) (by decide))
  have mantissa : mantissaOf digits = digits := List.takeWhile_eq_self_iff.mpr unmarked
  have fraction : fractionOf digits = [] := by
    rw [fractionOf, mantissa, List.dropWhile_eq_nil_iff.mpr unpointed, List.drop_nil]
  refine ⟨fraction, ?_, ?_⟩
  · rw [exponentOf, List.dropWhile_eq_nil_iff.mpr unmarked]
    rfl
  · rw [significandOf, fraction, List.append_nil, wholeOf, mantissa,
      List.takeWhile_eq_self_iff.mpr unpointed]

theorem splitBase_unprefixed {plain : List Char} (none : prefixedDigits plain = none) :
    splitBase plain = (10, plain) := by
  unfold splitBase
  split
  · rename_i mark c rest
    rw [prefixedDigits] at none
    by_cases hexadecimal : mark = 'x' ∨ mark = 'X'
    · simp [hexadecimal] at none
    · by_cases binary : mark = 'b' ∨ mark = 'B'
      · simp [hexadecimal, binary] at none
      · by_cases octal : mark = 'o' ∨ mark = 'O'
        · simp [hexadecimal, binary, octal] at none
        · rw [if_neg hexadecimal, if_neg binary, if_neg octal]
  · rfl

theorem prefixedDigits_some {plain digits : List Char} {base : ℕ}
    (found : prefixedDigits plain = some (base, digits)) :
    ∃ mark, plain = '0' :: mark :: digits ∧
      (mark.isDigit = false ∧ isExponentMark mark = false ∧ mark ≠ '.') ∧
      ∀ c rest, digits = c :: rest → splitBase plain = (base, digits) := by
  unfold prefixedDigits at found
  split at found
  · rename_i mark others
    split at found
    · rename_i isMark
      cases found
      refine ⟨mark, rfl, ?_, ?_⟩
      · rcases isMark with rfl | rfl <;> decide
      · intro c rest same
        rw [same, splitBase, if_pos isMark]
    · rename_i notHexadecimal
      split at found
      · rename_i isMark
        cases found
        refine ⟨mark, rfl, ?_, ?_⟩
        · rcases isMark with rfl | rfl <;> decide
        · intro c rest same
          rw [same, splitBase, if_neg notHexadecimal, if_pos isMark]
      · rename_i notBinary
        split at found
        · rename_i isMark
          cases found
          refine ⟨mark, rfl, ?_, ?_⟩
          · rcases isMark with rfl | rfl <;> decide
          · intro c rest same
            rw [same, splitBase, if_neg notHexadecimal, if_neg notBinary, if_pos isMark]
        · cases found
  · cases found

/-- **An accepted integer literal has the value it spells.** -/
theorem parseIntegerLiteral_value {text : String} {value : ℕ}
    (parsed : parseIntegerLiteral text = some value) :
    (value : ℚ) = numeralValue text.toList ∧ KeepsValue text.toList := by
  unfold parseIntegerLiteral at parsed
  dsimp only at parsed
  unfold numeralValue KeepsValue
  generalize removeUnderscores text.toList = plain at parsed ⊢
  cases found : prefixedDigits plain with
  | none =>
      rw [splitBase_unprefixed found] at parsed
      obtain ⟨fraction, exponent, significand⟩ :=
        decimalValue_digits (accumulateDigits_decimal parsed)
      refine ⟨?_, Or.inr (Or.inr ⟨by simp [fraction], by rw [exponent]; decide⟩)⟩
      rw [decimalValue, fraction, exponent, significand, accumulateDigits_value parsed]
      simp [positional]
  | some split =>
      obtain ⟨base, digits⟩ := split
      obtain ⟨mark, same, ⟨notDigit, _⟩, splits⟩ := prefixedDigits_some found
      refine ⟨?_, Or.inl rfl⟩
      cases digits with
      | nil =>
          have unsplit : splitBase plain = (10, plain) := by rw [same]; rfl
          rw [unsplit] at parsed
          have isDigit := accumulateDigits_decimal parsed mark (by simp [same])
          rw [notDigit] at isDigit
          cases isDigit
      | cons c rest =>
          rw [splits c rest rfl] at parsed
          rw [accumulateDigits_value parsed]
          rfl

/-! ### Significands -/

theorem accumulateSignificand_value {num value : ℤ} {digits : List Char}
    (parsed : accumulateSignificand num digits = some value) (start : ℕ) (same : num = start) :
    value = digits.foldl (fun out c => out * 10 + digitOf c) start ∧
      ∀ c ∈ digits, c.isDigit = true := by
  induction digits generalizing num start with
  | nil => exact ⟨by rw [← Option.some.inj parsed, same]; rfl, by simp⟩
  | cons c rest ih =>
      rw [accumulateSignificand] at parsed
      split at parsed
      · cases parsed
      · rename_i digit
        have isDigit : c.isDigit = true := by simpa using digit
        dsimp only at parsed
        split at parsed
        · cases parsed
        · obtain ⟨valueEq, others⟩ := ih parsed (start * 10 + digitOf c)
            (by rw [same, digitOf_isDigit isDigit]; push_cast; rfl)
          exact ⟨valueEq, by simpa [isDigit] using others⟩

/-! ### Powers of ten -/

/-- The powers of ten up to the eighteenth are exact, and all others are `INT64_MAX`. -/
theorem pow10i_eq (n : ℤ) : pow10i n = if n.toNat ≤ 18 then 10 ^ n.toNat else int64Max := by
  have small : ∀ count < 19, pow10iFrom 1 count = 10 ^ count := by decide
  rw [pow10i]
  split
  · exact small _ (by omega)
  · obtain ⟨more, same⟩ : ∃ more, n.toNat = more + 19 := ⟨n.toNat - 19, by omega⟩
    rw [same]
    rfl

theorem pow10i_le (n : ℤ) : pow10i n ≤ int64Max := by
  have powers : ∀ count < 19, (10 : ℤ) ^ count ≤ int64Max := by decide
  rw [pow10i_eq]
  split
  · exact powers _ (by omega)
  · exact le_rfl

theorem pow10i_pos (n : ℤ) : 0 < pow10i n :=
  pow10iFrom_pos Int.one_pos n.toNat

theorem int64Max_lt_pow {n : ℕ} (large : 19 ≤ n) : int64Max < 10 ^ n := by
  have base : int64Max < 10 ^ 19 := by decide
  exact base.trans_le (pow_le_pow_right₀ (by decide) large)

theorem pow10i_exact {n : ℤ} (unsaturated : pow10i n ≠ int64Max) :
    n.toNat ≤ 18 ∧ pow10i n = 10 ^ n.toNat := by
  rw [pow10i_eq] at unsaturated ⊢
  split at unsaturated
  · rename_i small
    exact ⟨small, if_pos small⟩
  · exact absurd rfl unsaturated

theorem toInt_small {count : ℕ} (small : count < 2 ^ 31) : toInt count = count := by
  unfold toInt
  rw [Int.bmod_eq_of_le] <;> omega

/-- A count of digits is scaled exactly when there are at most eighteen. -/
theorem pow10i_count_iff (count : ℕ) : pow10i (toInt count) = 10 ^ count ↔ count ≤ 18 := by
  constructor
  · intro same
    by_contra many
    have bound := pow10i_le (toInt count)
    rw [same] at bound
    exact absurd bound (int64Max_lt_pow (by omega)).not_ge
  · intro few
    rw [toInt_small (by omega), pow10i_eq, Int.toNat_natCast, if_pos few]

/-! ### Scaled significands -/

theorem toRat_ofFraction {num den : ℤ} (nonzero : den ≠ 0) :
    (Rational.ofFraction num den).toRat = num / den := by
  rw [Rational.ofFraction, dif_pos nonzero, Rational.toRat_normalize]

theorem quotient_eq_iff {num left right : ℚ} (leftNonzero : left ≠ 0) (rightNonzero : right ≠ 0) :
    num / left = num / right ↔ num = 0 ∨ left = right := by
  by_cases zero : num = 0
  · simp [zero]
  · rw [div_eq_div_iff leftNonzero rightNonzero, mul_right_inj' zero]
    simp [zero, eq_comm]

/-- **A scaled significand is exact** when it is zero, or has at most eighteen fractional
digits and an exponent whose negation fits. -/
theorem scaleSignificand_exact_iff {num : ℤ} {fracDigits : ℕ} {exp : ℤ} {value : Rational}
    (exponentIn : -2 ^ 31 ≤ exp ∧ exp < 2 ^ 31)
    (scaled : scaleSignificand num fracDigits exp = some value) :
    value.toRat = num * 10 ^ (exp - fracDigits) ↔
      num = 0 ∨ fracDigits ≤ 18 ∧ exp ≠ -2 ^ 31 := by
  have den := pow10i_pos (toInt fracDigits)
  have denCast : (pow10i (toInt fracDigits) : ℚ) ≠ 0 := by exact_mod_cast den.ne'
  have tens : ∀ count : ℕ, (10 : ℚ) ^ count ≠ 0 := fun count => pow_ne_zero _ (by norm_num)
  have countIff : (pow10i (toInt fracDigits) : ℚ) = 10 ^ fracDigits ↔ fracDigits ≤ 18 := by
    rw [← pow10i_count_iff fracDigits]
    exact_mod_cast Iff.rfl
  unfold scaleSignificand at scaled
  dsimp only at scaled
  by_cases positive : 0 < exp
  · rw [if_pos positive] at scaled
    split at scaled
    · cases scaled
    · rename_i unsaturated
      obtain ⟨_, power⟩ := pow10i_exact unsaturated
      split at scaled
      · cases scaled
      · split at scaled
        · cases scaled
        · have shape : (10 : ℚ) ^ (exp - fracDigits) = 10 ^ exp.toNat / 10 ^ fracDigits := by
            rw [zpow_sub₀ (by norm_num), zpow_natCast, ← zpow_natCast 10 exp.toNat,
              Int.toNat_of_nonneg positive.le]
          rw [← Option.some.inj scaled, toRat_ofFraction den.ne', shape, ← mul_div_assoc, power]
          push_cast
          rw [quotient_eq_iff denCast (tens _), countIff, mul_eq_zero]
          simp only [tens, or_false, Int.cast_eq_zero]
          constructor
          · exact Or.imp_right fun few => ⟨few, by omega⟩
          · exact Or.imp_right And.left
  · rw [if_neg positive] at scaled
    by_cases negative : exp < 0
    · rw [if_pos negative] at scaled
      split at scaled
      · cases scaled
      · rename_i unsaturated
        split at scaled
        · cases scaled
        · have factor := pow10i_pos (toInt (-exp))
          have factorCast : (pow10i (toInt (-exp)) : ℚ) ≠ 0 := by exact_mod_cast factor.ne'
          have shape : (10 : ℚ) ^ (exp - fracDigits) =
              1 / (10 ^ fracDigits * 10 ^ (-exp).toNat) := by
            have split : exp - fracDigits = -((fracDigits : ℤ) + ((-exp).toNat : ℤ)) := by omega
            rw [split, zpow_neg, zpow_add₀ (by norm_num), zpow_natCast, zpow_natCast, one_div]
          rw [← Option.some.inj scaled, toRat_ofFraction (mul_pos den factor).ne', shape,
            ← mul_div_assoc, mul_one]
          push_cast
          rw [quotient_eq_iff (mul_ne_zero denCast factorCast) (mul_ne_zero (tens _) (tens _)),
            Int.cast_eq_zero]
          apply or_congr_right
          by_cases least : exp = -2 ^ 31
          · -- the negation wraps to a negative count, and the loop of `pow10i` does not run
            have wrapped : toInt (-exp) = -2 ^ 31 := by rw [least]; decide
            have one : pow10i (toInt (-exp)) = 1 := by rw [wrapped]; rfl
            have large := @int64Max_lt_pow (fracDigits + (-exp).toNat) (by omega)
            have bound := (pow10i_le (toInt fracDigits)).trans_lt large
            rw [one, Int.cast_one, mul_one, ← pow_add]
            constructor
            · intro same
              exact absurd (by exact_mod_cast same) bound.ne
            · exact fun both => absurd least both.2
          · have count : toInt (-exp) = ((-exp).toNat : ℕ) := by
              have same : -exp = ((-exp).toNat : ℤ) := by omega
              rw [same, Int.toNat_natCast]
              exact toInt_small (by omega)
            obtain ⟨_, power⟩ := pow10i_exact unsaturated
            rw [count, Int.toNat_natCast] at power
            rw [count, power]
            push_cast
            rw [mul_left_inj' (tens _), countIff]
            exact ⟨fun few => ⟨few, least⟩, And.left⟩
    · rw [if_neg negative] at scaled
      have shape : (10 : ℚ) ^ (exp - fracDigits) = 1 / 10 ^ fracDigits := by
        have zero : exp - fracDigits = -(fracDigits : ℤ) := by omega
        rw [zero, zpow_neg, zpow_natCast, one_div]
      rw [← Option.some.inj scaled, toRat_ofFraction den.ne', shape, ← mul_div_assoc, mul_one,
        quotient_eq_iff denCast (tens _), countIff, Int.cast_eq_zero]
      constructor
      · exact Or.imp_right fun few => ⟨few, by omega⟩
      · exact Or.imp_right And.left

/-! ### Exponents -/

theorem removeUnderscores_dropWhile {p : Char → Bool} (kept : p '_' = true) (text : List Char) :
    (removeUnderscores text).dropWhile p = removeUnderscores (text.dropWhile p) := by
  unfold removeUnderscores
  induction text with
  | nil => rfl
  | cons c rest ih =>
      by_cases underscore : c = '_'
      · simpa [underscore, kept] using ih
      · by_cases holds : p c = true
        · simpa [underscore, holds] using ih
        · simp [underscore, holds]

theorem isDigit_of_isRun (text : List Char) (run : isRun Char.isDigit text = true) :
    ∀ c ∈ removeUnderscores text, c.isDigit = true := by
  fun_induction isRun Char.isDigit text with
  | case1 => simp [removeUnderscores]
  | case2 c rest ih =>
      have parts := Bool.and_eq_true_iff.mp run
      intro other member
      have kept := List.mem_filter.mp member
      rcases List.mem_cons.mp kept.1 with rfl | later
      · simp at kept
      · rcases List.mem_cons.mp later with rfl | inRest
        · exact parts.1
        · exact ih parts.2 other (List.mem_filter.mpr ⟨inRest, kept.2⟩)
  | case3 c rest _ ih =>
      have parts := Bool.and_eq_true_iff.mp run
      intro other member
      have kept := List.mem_filter.mp member
      rcases List.mem_cons.mp kept.1 with rfl | inRest
      · exact parts.1
      · exact ih parts.2 other (List.mem_filter.mpr ⟨inRest, kept.2⟩)

theorem removeUnderscores_isDigits {text : List Char} (digits : isDigits text = true) :
    ∃ c rest, removeUnderscores text = c :: rest ∧ ∀ c' ∈ c :: rest, c'.isDigit = true := by
  cases text with
  | nil => cases digits
  | cons c rest =>
      have parts := Bool.and_eq_true_iff.mp digits
      have notUnderscore : c ≠ '_' := isDigit_ne parts.1 (by decide)
      refine ⟨c, removeUnderscores rest, by simp [removeUnderscores, notUnderscore], ?_⟩
      simpa [parts.1] using isDigit_of_isRun rest parts.2

theorem foldl_positional {digits : List Char} (all : ∀ c ∈ digits, c.isDigit = true) (start : ℕ) :
    digits.foldl (fun (out : ℤ) c => out * 10 + ((c.toNat - '0'.toNat : ℕ) : ℤ)) start =
      (digits.foldl (fun out c => out * 10 + digitOf c) start : ℕ) := by
  induction digits generalizing start with
  | nil => rfl
  | cons c rest ih =>
      have tail := ih (fun c' member => all c' (by simp [member]))
        (start * 10 + digitOf c)
      rw [List.foldl_cons, List.foldl_cons, ← tail, digitOf_isDigit (all c (by simp))]
      push_cast
      rfl

theorem stoi_digits {c : Char} {rest : List Char} {exp : ℤ}
    (all : ∀ c' ∈ c :: rest, c'.isDigit = true) {negative : Bool} {text : List Char}
    (shape : text = (if negative then ['-'] else []) ++ c :: rest ∨
      negative = false ∧ text = '+' :: c :: rest)
    (parsed : stoi text = some exp) :
    exp = signedValue text ∧ -2 ^ 31 ≤ exp ∧ exp < 2 ^ 31 := by
  have first := all c (by simp)
  have notMinus : c ≠ '-' := isDigit_ne first (by decide)
  have notPlus : c ≠ '+' := isDigit_ne first (by decide)
  have whole : (c :: rest).takeWhile Char.isDigit = c :: rest :=
    List.takeWhile_eq_self_iff.mpr all
  have magnitude := foldl_positional all 0
  rw [Nat.cast_zero] at magnitude
  unfold stoi at parsed
  dsimp only at parsed
  rcases shape with same | ⟨isPositive, same⟩
  · cases negative with
    | true =>
        simp only [if_true, List.cons_append, List.nil_append] at same
        subst same
        simp only [List.head?_cons, List.tail_cons, true_or, if_true, whole, magnitude] at parsed
        rw [if_neg (by simp)] at parsed
        split at parsed
        · rename_i inRange
          rw [← Option.some.inj parsed]
          exact ⟨rfl, inRange⟩
        · cases parsed
    | false =>
        simp only [Bool.false_eq_true, if_false, List.nil_append] at same
        subst same
        have value : signedValue (c :: rest) = positional 10 (c :: rest) := by
          unfold signedValue
          split
          · rename_i same
            exact absurd (List.cons.inj same).1 notMinus
          · rename_i same
            exact absurd (List.cons.inj same).1 notPlus
          · rfl
        simp only [List.head?_cons, Option.some.injEq, notMinus, notPlus, or_self, if_false, whole,
          magnitude] at parsed
        rw [if_neg (by simp)] at parsed
        split at parsed
        · rename_i inRange
          rw [← Option.some.inj parsed, value]
          exact ⟨rfl, inRange⟩
        · cases parsed
  · subst same
    have notSign : '+' ≠ '-' := by decide
    simp only [List.head?_cons, Option.some.injEq, notSign, List.tail_cons, or_true, if_true, whole,
      magnitude, if_false] at parsed
    rw [if_neg (by simp)] at parsed
    split at parsed
    · rename_i inRange
      rw [← Option.some.inj parsed]
      exact ⟨rfl, inRange⟩
    · cases parsed

theorem stoi_isExponent {exponent : List Char} {exp : ℤ} (spelled : isExponent exponent = true)
    (parsed : stoi (removeUnderscores exponent) = some exp) :
    exp = signedValue (removeUnderscores exponent) ∧ -2 ^ 31 ≤ exp ∧ exp < 2 ^ 31 := by
  cases exponent with
  | nil => cases spelled
  | cons sign digits =>
      rw [isExponent] at spelled
      split at spelled
      · rename_i isSign
        obtain ⟨c, rest, same, all⟩ := removeUnderscores_isDigits spelled
        rcases isSign with rfl | rfl
        · have shape : removeUnderscores ('+' :: digits) = '+' :: c :: rest := by
            rw [← same]; rfl
          exact stoi_digits all (Or.inr ⟨rfl, shape⟩) parsed
        · have shape : removeUnderscores ('-' :: digits) = '-' :: c :: rest := by
            rw [← same]; rfl
          exact @stoi_digits c rest exp all true _ (Or.inl shape) parsed
      · obtain ⟨c, rest, same, all⟩ := removeUnderscores_isDigits spelled
        exact @stoi_digits c rest exp all false _ (Or.inl same) parsed

/-! ### Real literals -/

def ExponentSpelled (text : List Char) : Prop :=
  ∀ mark exponent, text.dropWhile (fun c => !isExponentMark c) = mark :: exponent →
    isExponent exponent = true

/-- A literal whose mantissa is digits and a point has no base prefix. -/
theorem prefixedDigits_none {plain : List Char}
    (digits : ∀ c ∈ wholeOf plain ++ fractionOf plain, c.isDigit = true) :
    prefixedDigits plain = none := by
  cases found : prefixedDigits plain with
  | none => rfl
  | some split =>
      obtain ⟨base, rest⟩ := split
      obtain ⟨mark, same, ⟨notDigit, notMark, notPoint⟩, _⟩ := prefixedDigits_some found
      have inside : mark ∈ wholeOf plain := by
        have zero : isExponentMark '0' = false := by decide
        simp [wholeOf, mantissaOf, same, notMark, notPoint, zero]
      have isDigit := digits mark (List.mem_append_left _ inside)
      rw [notDigit] at isDigit
      cases isDigit

/-- **An accepted real literal has the value it spells exactly when its scale is represented.** -/
theorem parseRealLiteral_exact_iff {text : String} {value : Rational}
    (starts : StartsWithDigit text.toList) (spelled : ExponentSpelled text.toList)
    (parsed : parseRealLiteral text = some value) :
    value.toRat = numeralValue text.toList ↔ KeepsValue text.toList := by
  have mantissaStarts := takeWhile_startsWithDigit (removeUnderscores_startsWithDigit starts)
    (fun c isDigit => isExponentMark_digit isDigit) (by decide)
  obtain ⟨exp, exponentEq, inRange, accepted⟩ : ∃ exp,
      exponentOf (removeUnderscores text.toList) = exp ∧ (-2 ^ 31 ≤ exp ∧ exp < 2 ^ 31) ∧
        (parseSignificand (mantissaOf (removeUnderscores text.toList))).bind
          (fun parts => scaleSignificand parts.1 parts.2 exp) = some value := by
    have dropped := @removeUnderscores_dropWhile (fun c => !isExponentMark c) (by decide) text.toList
    unfold parseRealLiteral at parsed
    dsimp only at parsed
    rw [exponentOf, dropped]
    rw [dropped] at parsed
    cases tail : text.toList.dropWhile fun c => !isExponentMark c with
    | nil =>
        rw [tail] at parsed
        exact ⟨0, rfl, by decide, parsed⟩
    | cons letter exponent =>
        have isMark : isExponentMark letter = true := by
          have head := List.head?_dropWhile_not (fun c => !isExponentMark c) text.toList
          rw [tail] at head
          simpa using head
        have kept : removeUnderscores (letter :: exponent) = letter :: removeUnderscores exponent := by
          have notUnderscore : letter ≠ '_' := by
            rintro rfl
            cases isMark
          simp [removeUnderscores, notUnderscore]
        rw [tail, kept] at parsed
        obtain ⟨exp, isExp, accepted⟩ := Option.bind_eq_some_iff.mp parsed
        obtain ⟨same, range⟩ := stoi_isExponent (spelled letter exponent tail) isExp
        exact ⟨exp, by rw [kept, same]; rfl, range, accepted⟩
  obtain ⟨⟨num, count⟩, isParts, scaled⟩ := Option.bind_eq_some_iff.mp accepted
  obtain ⟨isNum, isCount⟩ := parseSignificand_unsigned mantissaStarts isParts
  obtain ⟨numEq, digits⟩ := accumulateSignificand_value isNum 0 rfl
  have unprefixed := @prefixedDigits_none (removeUnderscores text.toList) digits
  have exactness := scaleSignificand_exact_iff inRange scaled
  have significand : num = significandOf (removeUnderscores text.toList) := numEq
  have fraction : count = (fractionOf (removeUnderscores text.toList)).length := isCount
  unfold numeralValue KeepsValue decimalValue
  rw [unprefixed, exponentEq]
  rw [significand, fraction] at exactness
  simpa using exactness

end LlvmDsdl.Frontend
