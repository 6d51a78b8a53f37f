import LlvmDsdl.Frontend.AstPrinter
import LlvmDsdl.Frontend.NumericLiteral

/-!
Contract: printed numbers as literals, and the range of what literals denote.

Owns: that a printed number is a decimal literal of its value, that two of them around a
point are a version, and that the value of a literal is not negative and fits 64 bits
when it is an integer.
-/

namespace LlvmDsdl.Frontend

open Support Support.IntegerMath

theorem isDigit_of_mem_decimal {value : ℕ} {c : Char} (member : c ∈ decimal value) :
    c.isDigit = true :=
  Nat.isDigit_of_mem_toDigits (by decide) (by decide) member

theorem decimal_ne_nil (value : ℕ) : decimal value ≠ [] :=
  Nat.toDigits_ne_nil

theorem isDigit_ne {c other : Char} (isDigit : c.isDigit = true) (notDigit : other.isDigit = false) :
    c ≠ other := by
  intro same
  rw [same, notDigit] at isDigit
  cases isDigit

theorem isRun_of_all {p : Char → Bool} {text : List Char} (all : ∀ c ∈ text, p c = true)
    (underscore : p '_' = false) : isRun p text = true := by
  induction text with
  | nil => rfl
  | cons c text ih =>
      have first := all c List.mem_cons_self
      have notUnderscore : c ≠ '_' := by
        intro same
        rw [same, underscore] at first
        cases first
      have others := ih fun c' member => all c' (List.mem_cons_of_mem c member)
      rw [isRun.eq_3 p c text fun c' rest isUnderscore _ => notUnderscore isUnderscore, first,
        others]
      rfl

theorem isDigits_cons {c : Char} {text : List Char}
    (all : ∀ c' ∈ c :: text, c'.isDigit = true) : isDigits (c :: text) = true := by
  unfold isDigits
  dsimp only
  rw [all c List.mem_cons_self,
    isRun_of_all (fun c' member => all c' (List.mem_cons_of_mem c member)) (by decide)]
  rfl

theorem isDigits_decimal (value : ℕ) : isDigits (decimal value) = true := by
  have all : ∀ c ∈ decimal value, c.isDigit = true := fun c member =>
    isDigit_of_mem_decimal member
  cases same : decimal value with
  | nil => exact absurd same (decimal_ne_nil value)
  | cons c more =>
      rw [same] at all
      exact isDigits_cons all

theorem decimal_cons {value : ℕ} {c : Char} {more : List Char} (same : decimal value = c :: more) :
    c ≠ '0' ∨ more = [] := by
  induction value using Nat.strong_induction_on generalizing more with
  | h value ih =>
      unfold decimal at same
      rw [Nat.toDigits_eq_if (by decide)] at same
      split at same
      · right
        exact (List.cons.inj same).2.symm
      · rename_i large
        left
        cases leading : Nat.toDigits 10 (value / 10) with
        | nil => exact absurd leading Nat.toDigits_ne_nil
        | cons d others =>
            rw [leading] at same
            have first : d = c := (List.cons.inj same).1
            rw [first] at leading
            rcases ih (value / 10) (by omega) leading with nonzero | single
            · exact nonzero
            · intro isZero
              have digits := @Nat.ofDigitChars_ten_toDigits (value / 10)
              rw [leading, single, isZero] at digits
              have zero : value / 10 = 0 := digits.symm
              omega

theorem isDecimal_decimal (value : ℕ) : isDecimal (decimal value) = true := by
  have all : ∀ c ∈ decimal value, c.isDigit = true := fun c member =>
    isDigit_of_mem_decimal member
  cases same : decimal value with
  | nil => exact absurd same (decimal_ne_nil value)
  | cons c more =>
      rw [same] at all
      have run : isRun Char.isDigit more = true :=
        isRun_of_all (fun c' member => all c' (List.mem_cons_of_mem c member)) (by decide)
      unfold isDecimal
      dsimp only
      rcases decimal_cons same with nonzero | single
      · rw [if_neg nonzero, all c List.mem_cons_self, run]
        rfl
      · rw [single, all c List.mem_cons_self]
        split
        · rfl
        · rfl

theorem splitBase_digits {text : List Char} (all : ∀ c ∈ text, c.isDigit = true) :
    splitBase text = (10, text) := by
  unfold splitBase
  split
  · rename_i mark c rest
    have isDigit : mark.isDigit = true := all mark (List.mem_cons_of_mem _ List.mem_cons_self)
    have other {letter : Char} (notDigit : letter.isDigit = false) : mark ≠ letter :=
      isDigit_ne isDigit notDigit
    rw [if_neg (not_or.mpr ⟨other (by decide), other (by decide)⟩),
      if_neg (not_or.mpr ⟨other (by decide), other (by decide)⟩),
      if_neg (not_or.mpr ⟨other (by decide), other (by decide)⟩)]
  · rfl

theorem digitValue_digit {c : Char} (isDigit : c.isDigit = true) :
    digitValue c = some (c.toNat - '0'.toNat) ∧ c.toNat - '0'.toNat < 10 := by
  have bounds : '0' ≤ c ∧ c ≤ '9' := by
    rw [Char.isDigit, Bool.and_eq_true, decide_eq_true_eq, decide_eq_true_eq] at isDigit
    exact isDigit
  have high : c.toNat ≤ '9'.toNat := bounds.2
  have nine : '9'.toNat = 57 := rfl
  have zero : '0'.toNat = 48 := rfl
  refine ⟨if_pos bounds, ?_⟩
  omega

theorem ofDigitChars_ge (out : ℕ) (text : List Char) : out ≤ Nat.ofDigitChars 10 text out := by
  induction text generalizing out with
  | nil => rw [Nat.ofDigitChars_nil]
  | cons c text ih =>
      rw [Nat.ofDigitChars_cons]
      have later := ih (10 * out + (c.toNat - '0'.toNat))
      omega

theorem accumulateDigits_digits {out : ℕ} {text : List Char}
    (all : ∀ c ∈ text, c.isDigit = true) (fits : Nat.ofDigitChars 10 text out < 2 ^ 64) :
    accumulateDigits 10 out text = some (Nat.ofDigitChars 10 text out) := by
  induction text generalizing out with
  | nil => rw [accumulateDigits, Nat.ofDigitChars_nil]
  | cons c text ih =>
      have ⟨isValue, small⟩ := digitValue_digit (all c List.mem_cons_self)
      rw [Nat.ofDigitChars_cons] at fits ⊢
      have grows := ofDigitChars_ge (10 * out + (c.toNat - '0'.toNat)) text
      have room : ¬(2 ^ 64 - 1 - (c.toNat - '0'.toNat)) / 10 < out := by omega
      have others := @ih (10 * out + (c.toNat - '0'.toNat))
        (fun c' member => all c' (List.mem_cons_of_mem c member)) fits
      rw [accumulateDigits, isValue]
      dsimp only
      rw [if_neg (by omega), if_neg room, Nat.mul_comm out 10, others]

theorem removeUnderscores_digits {text : List Char} (all : ∀ c ∈ text, c.isDigit = true) :
    removeUnderscores text = text := by
  apply List.filter_eq_self.mpr
  intro c member
  exact decide_eq_true (isDigit_ne (all c member) (by decide))

/-- **A printed number is the literal of its value.** -/
theorem parseIntegerLiteral_decimal {value : ℕ} (fits : value < 2 ^ 64) :
    parseIntegerLiteral (.ofList (decimal value)) = some value := by
  have all : ∀ c ∈ decimal value, c.isDigit = true := fun c member =>
    isDigit_of_mem_decimal member
  have digits : Nat.ofDigitChars 10 (decimal value) 0 = value := Nat.ofDigitChars_ten_toDigits
  unfold parseIntegerLiteral
  rw [String.toList_ofList, removeUnderscores_digits all, splitBase_digits all]
  dsimp only
  rw [accumulateDigits_digits all (by rw [digits]; exact fits), digits]

theorem takeWhile_delimited {p : Char → Bool} {text rest : List Char} {c : Char}
    (all : ∀ c' ∈ text, p c' = true) (stop : p c = false) :
    (text ++ c :: rest).takeWhile p = text ∧ (text ++ c :: rest).dropWhile p = c :: rest := by
  have stops : ¬p c = true := by
    rw [stop]
    exact Bool.false_ne_true
  constructor
  · rw [List.takeWhile_append_of_pos all, List.takeWhile_cons_of_neg stops, List.append_nil]
  · rw [List.dropWhile_append_of_pos all, List.dropWhile_cons_of_neg stops]

theorem decimal_without {other : Char} (notDigit : other.isDigit = false) (value : ℕ) :
    ∀ c ∈ decimal value, decide (c ≠ other) = true :=
  fun _ member => decide_eq_true (isDigit_ne (isDigit_of_mem_decimal member) notDigit)

theorem isExponentMark_digit {c : Char} (isDigit : c.isDigit = true) :
    (!isExponentMark c) = true := by
  unfold isExponentMark
  rw [decide_eq_false (isDigit_ne isDigit (by decide)),
    decide_eq_false (isDigit_ne isDigit (by decide))]
  rfl

theorem isReal_unmarked {text : List Char} (unmarked : ∀ c ∈ text, (!isExponentMark c) = true) :
    isReal text = isPoint text := by
  unfold isReal
  rw [@List.dropWhile_eq_nil_iff _ (fun c => !isExponentMark c) text |>.mpr unmarked]

theorem isReal_point (value : ℕ) : isReal ('.' :: decimal value) = true := by
  have unmarked : ∀ c ∈ '.' :: decimal value, (!isExponentMark c) = true := by
    intro c member
    rcases List.mem_cons.mp member with isPoint | inValue
    · rw [isPoint]
      decide
    · exact isExponentMark_digit (isDigit_of_mem_decimal inValue)
  rw [isReal_unmarked unmarked]
  unfold isPoint
  rw [List.takeWhile_cons_of_neg (by decide), List.dropWhile_cons_of_neg (by decide)]
  cases same : decimal value with
  | nil => exact absurd same (decimal_ne_nil value)
  | cons c more =>
      have digits := isDigits_decimal value
      rw [same] at digits
      dsimp only
      rw [digits]
      rfl

theorem isReal_version (major minor : ℕ) :
    isReal (decimal major ++ '.' :: decimal minor) = true := by
  have point := @takeWhile_delimited (· ≠ '.') (decimal major) (decimal minor) '.'
    (decimal_without (by decide) major) (by decide)
  have unmarked : ∀ c ∈ decimal major ++ '.' :: decimal minor, (!isExponentMark c) = true := by
    intro c member
    rcases List.mem_append.mp member with inMajor | inMinor
    · exact isExponentMark_digit (isDigit_of_mem_decimal inMajor)
    · rcases List.mem_cons.mp inMinor with isPoint | inMinor
      · rw [isPoint]
        decide
      · exact isExponentMark_digit (isDigit_of_mem_decimal inMinor)
  rw [isReal_unmarked unmarked]
  unfold isPoint
  rw [point.1, point.2]
  cases same : decimal minor with
  | nil => exact absurd same (decimal_ne_nil minor)
  | cons c more =>
      have digits := isDigits_decimal minor
      rw [same] at digits
      dsimp only
      rw [digits, isDigits_decimal major, Bool.or_true]
      rfl

/-- **Two printed numbers around a point are a version of them.** -/
theorem parseVersionTokenAsMajorMinor_decimal {major minor : ℕ} (majorFits : major < 2 ^ 32)
    (minorFits : minor < 2 ^ 32) :
    parseVersionTokenAsMajorMinor (.ofList (decimal major ++ '.' :: decimal minor)) =
      some (major, minor) := by
  have point := @takeWhile_delimited (· ≠ '.') (decimal major) (decimal minor) '.'
    (decimal_without (by decide) major) (by decide)
  have noPoint : '.' ∉ decimal minor := fun member =>
    isDigit_ne (isDigit_of_mem_decimal member) (by decide) rfl
  have parts : ¬(decimal major = [] ∨ decimal minor = [] ∨ '.' ∈ decimal minor) :=
    not_or.mpr ⟨decimal_ne_nil major, not_or.mpr ⟨decimal_ne_nil minor, noPoint⟩⟩
  unfold parseVersionTokenAsMajorMinor
  rw [String.toList_ofList, point.1, point.2, List.drop_one, List.tail_cons]
  dsimp only
  rw [if_neg parts, isDecimal_decimal, isDecimal_decimal, Bool.not_true, Bool.or_self,
    if_neg Bool.false_ne_true, parseIntegerLiteral_decimal (by omega),
    parseIntegerLiteral_decimal (by omega)]
  dsimp only
  rw [Nat.mod_eq_of_lt majorFits, Nat.mod_eq_of_lt minorFits]

/-- The value of a literal: not negative, exact, and below `2 ^ 64` where it is an integer. -/
structure IsLiteralValue (value : Rational) : Prop where
  exact : value.overflowed = false
  nonnegative : 0 ≤ value.numerator
  fits : value.numerator < 2 ^ 64

theorem IsLiteralValue.eq_ofInteger {value : Rational} (literal : IsLiteralValue value)
    (integral : value.isInteger = true) : value = .ofInteger (value.numerator.toNat : ℕ) := by
  have nonnegative := literal.nonnegative
  apply Rational.ext_parts
  · rw [Rational.numerator_ofInteger]
    omega
  · rw [Rational.denominator_ofInteger]
    exact beq_iff_eq.mp integral
  · rw [Rational.overflowed_ofInteger]
    exact literal.exact

theorem digitValue_lt {c : Char} {value : ℕ} (isValue : digitValue c = some value) :
    value < 16 := by
  have code {low high : Char} (range : low ≤ c ∧ c ≤ high) :
      low.toNat ≤ c.toNat ∧ c.toNat ≤ high.toNat := range
  unfold digitValue at isValue
  split at isValue
  · rename_i range
    have bounds := code range
    have codes : '0'.toNat = 48 ∧ '9'.toNat = 57 := ⟨rfl, rfl⟩
    have same := Option.some.inj isValue
    omega
  · split at isValue
    · rename_i range
      have bounds := code range
      have codes : 'a'.toNat = 97 ∧ 'f'.toNat = 102 := ⟨rfl, rfl⟩
      have same := Option.some.inj isValue
      omega
    · split at isValue
      · rename_i range
        have bounds := code range
        have codes : 'A'.toNat = 65 ∧ 'F'.toNat = 70 := ⟨rfl, rfl⟩
        have same := Option.some.inj isValue
        omega
      · cases isValue

theorem accumulateDigits_lt {base out : ℕ} {text : List Char} {value : ℕ}
    (small : out < 2 ^ 64) (parsed : accumulateDigits base out text = some value) :
    value < 2 ^ 64 := by
  induction text generalizing out with
  | nil =>
      cases parsed
      exact small
  | cons c text ih =>
      rw [accumulateDigits] at parsed
      split at parsed
      · cases parsed
      · rename_i v isValue
        have digit := digitValue_lt isValue
        split at parsed
        · cases parsed
        · rename_i isDigit
          split at parsed
          · cases parsed
          · rename_i room
            have positive : 0 < base := by omega
            have product := (Nat.le_div_iff_mul_le positive).mp (Nat.le_of_not_lt room)
            exact ih (by omega) parsed

theorem parseIntegerLiteral_isLiteral {text : String} {value : ℕ}
    (parsed : parseIntegerLiteral text = some value) : IsLiteralValue (.ofInteger value) := by
  have fits := accumulateDigits_lt (by decide) parsed
  have integral := Rational.numerator_ofInteger value
  refine ⟨Rational.overflowed_ofInteger _, ?_, ?_⟩
  · omega
  · omega

theorem ofFraction_isLiteral {num den : ℤ} (nonnegative : 0 ≤ num) (fits : num ≤ int64Max)
    (positive : 0 < den) : IsLiteralValue (.ofFraction num den) := by
  have nonzero : den ≠ 0 := by omega
  have same : Rational.ofFraction num den = Rational.normalize num den nonzero false :=
    dif_pos nonzero
  have numerator : (Rational.normalize num den nonzero false).numerator =
      num / (Int.gcd num den : ℕ) := by
    unfold Rational.normalize
    dsimp only
    rw [if_neg (by omega)]
  have small : num / (Int.gcd num den : ℕ) ≤ num := Int.ediv_le_self _ nonnegative
  unfold int64Max at fits
  rw [same]
  refine ⟨rfl, ?_, ?_⟩
  · rw [numerator]
    exact Int.ediv_nonneg nonnegative (Int.natCast_nonneg _)
  · rw [numerator]
    omega

theorem pow10iFrom_pos {out : ℤ} (positive : 0 < out) (n : ℕ) : 0 < pow10iFrom out n := by
  induction n generalizing out with
  | zero => exact positive
  | succ n ih =>
      rw [pow10iFrom]
      split
      · decide
      · exact ih (by omega)

theorem scaleSignificand_isLiteral {num : ℤ} {fracDigits : ℕ} {exp : ℤ} {value : Rational}
    (nonnegative : 0 ≤ num) (fits : num ≤ int64Max)
    (scaled : scaleSignificand num fracDigits exp = some value) : IsLiteralValue value := by
  have power (n : ℤ) : 0 < pow10i n := pow10iFrom_pos Int.one_pos n.toNat
  unfold scaleSignificand at scaled
  dsimp only at scaled
  split at scaled
  · split at scaled
    · cases scaled
    · split at scaled
      · cases scaled
      · rename_i room
        split at scaled
        · cases scaled
        · rw [← Option.some.inj scaled]
          have factor := power exp
          apply ofFraction_isLiteral _ _ (power (toInt fracDigits))
          · exact Int.mul_nonneg nonnegative factor.le
          · rcases Int.lt_or_eq_of_le nonnegative with positive | isZero
            · have bound : num ≤ int64Max / pow10i exp :=
                Int.not_lt.mp fun more => room ⟨positive, more⟩
              exact (Int.le_ediv_iff_mul_le factor).mp bound
            · rw [← isZero, Int.zero_mul]
              decide
  · split at scaled
    · split at scaled
      · cases scaled
      · split at scaled
        · cases scaled
        · rw [← Option.some.inj scaled]
          exact ofFraction_isLiteral nonnegative fits (Int.mul_pos (power _) (power _))
    · rw [← Option.some.inj scaled]
      exact ofFraction_isLiteral nonnegative fits (power _)

theorem accumulateSignificand_range {num value : ℤ} {text : List Char} (nonnegative : 0 ≤ num)
    (fits : num ≤ int64Max) (parsed : accumulateSignificand num text = some value) :
    0 ≤ value ∧ value ≤ int64Max := by
  induction text generalizing num with
  | nil =>
      cases parsed
      exact ⟨nonnegative, fits⟩
  | cons c text ih =>
      rw [accumulateSignificand] at parsed
      split at parsed
      · cases parsed
      · dsimp only at parsed
        split at parsed
        · cases parsed
        · rename_i room
          exact ih (by omega) (by omega) parsed

/-- Text whose first character, after a point, is a digit. -/
def StartsWithDigit (text : List Char) : Prop :=
  ∃ c more, (text = c :: more ∨ text = '.' :: c :: more) ∧ c.isDigit = true

theorem significand_head {text : List Char} (starts : StartsWithDigit text) :
    ∃ c, (text.takeWhile (· ≠ '.') ++ (text.dropWhile (· ≠ '.')).drop 1).head? = some c ∧
      c.isDigit = true := by
  have ⟨c, more, shape, isDigit⟩ := starts
  have notPoint : c ≠ '.' := isDigit_ne isDigit (by decide)
  refine ⟨c, ?_, isDigit⟩
  rcases shape with rfl | rfl
  · have kept : (fun c' : Char => decide (c' ≠ '.')) c = true := decide_eq_true notPoint
    rw [@List.takeWhile_cons_of_pos _ (fun c' => decide (c' ≠ '.')) c more kept]
    rfl
  · rw [List.takeWhile_cons_of_neg (by decide), List.dropWhile_cons_of_neg (by decide)]
    rfl

theorem parseSignificand_unsigned {text : List Char} {num : ℤ} {fracDigits : ℕ}
    (starts : StartsWithDigit text) (parsed : parseSignificand text = some (num, fracDigits)) :
    accumulateSignificand 0 (text.takeWhile (· ≠ '.') ++ (text.dropWhile (· ≠ '.')).drop 1) =
        some num ∧
      fracDigits = ((text.dropWhile (· ≠ '.')).drop 1).length := by
  obtain ⟨c, head, isDigit⟩ := significand_head starts
  have notMinus : c ≠ '-' := isDigit_ne isDigit (by decide)
  have notPlus : c ≠ '+' := isDigit_ne isDigit (by decide)
  unfold parseSignificand at parsed
  dsimp only at parsed
  rw [head] at parsed
  split at parsed
  · cases parsed
  · rw [if_neg (by simp [notMinus, notPlus]), Option.map_eq_some_iff] at parsed
    obtain ⟨magnitude, isMagnitude, same⟩ := parsed
    rw [if_neg (by simp [notMinus])] at same
    rw [← (Prod.mk.inj same).1, ← (Prod.mk.inj same).2]
    exact ⟨isMagnitude, rfl⟩

theorem parseSignificand_range {text : List Char} {num : ℤ} {fracDigits : ℕ}
    (starts : StartsWithDigit text) (parsed : parseSignificand text = some (num, fracDigits)) :
    0 ≤ num ∧ num ≤ int64Max :=
  accumulateSignificand_range (Int.le_refl 0) (by decide)
    (parseSignificand_unsigned starts parsed).1

theorem takeWhile_startsWithDigit {p : Char → Bool} {text : List Char}
    (starts : StartsWithDigit text) (digits : ∀ c, c.isDigit = true → p c = true)
    (point : p '.' = true) :
    StartsWithDigit (text.takeWhile p) := by
  have ⟨c, more, shape, isDigit⟩ := starts
  refine ⟨c, more.takeWhile p, ?_, isDigit⟩
  rcases shape with rfl | rfl
  · left
    exact List.takeWhile_cons_of_pos (digits c isDigit)
  · right
    rw [List.takeWhile_cons_of_pos point, List.takeWhile_cons_of_pos (digits c isDigit)]

theorem removeUnderscores_startsWithDigit {text : List Char} (starts : StartsWithDigit text) :
    StartsWithDigit (removeUnderscores text) := by
  have ⟨c, more, shape, isDigit⟩ := starts
  have kept : decide (c ≠ '_') = true := decide_eq_true (isDigit_ne isDigit (by decide))
  have first : removeUnderscores (c :: more) = c :: removeUnderscores more :=
    List.filter_cons_of_pos kept
  have point : removeUnderscores ('.' :: c :: more) = '.' :: removeUnderscores (c :: more) :=
    List.filter_cons_of_pos (by decide)
  refine ⟨c, removeUnderscores more, ?_, isDigit⟩
  rcases shape with rfl | rfl
  · exact Or.inl first
  · right
    rw [point, first]

/-- **The value of a real literal is in range.** -/
theorem parseRealLiteral_isLiteral {text : String} {value : Rational}
    (starts : StartsWithDigit text.toList) (parsed : parseRealLiteral text = some value) :
    IsLiteralValue value := by
  have significand := takeWhile_startsWithDigit (removeUnderscores_startsWithDigit starts)
    (fun c isDigit => isExponentMark_digit isDigit) (by decide)
  have scaled (exp : ℤ)
      (parsed : ((parseSignificand ((removeUnderscores text.toList).takeWhile fun c =>
        !isExponentMark c)).bind fun parts => scaleSignificand parts.1 parts.2 exp) = some value) :
      IsLiteralValue value := by
    have ⟨parts, isParts, isScaled⟩ := Option.bind_eq_some_iff.mp parsed
    have range := parseSignificand_range significand isParts
    exact scaleSignificand_isLiteral range.1 range.2 isScaled
  unfold parseRealLiteral at parsed
  dsimp only at parsed
  split at parsed
  · exact scaled 0 parsed
  · have ⟨exp, _, inner⟩ := Option.bind_eq_some_iff.mp parsed
    exact scaled exp inner

end LlvmDsdl.Frontend
