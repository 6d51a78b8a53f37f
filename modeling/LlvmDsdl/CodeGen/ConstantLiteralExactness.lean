import LlvmDsdl.CodeGen.ConstantLiteralValue
import LlvmDsdl.Frontend.PrintedType

/-!
Contract: the text of every accepted constant, in every language.

Owns: the shapes of accepted constants, their value in the target languages, and
that different constants have different texts.
-/

namespace LlvmDsdl.CodeGen

open LlvmDsdl.Frontend (TypeExprAST PrimitiveTypeExprAST PrimitiveKind decimal validateBitLength
  validateBitLength_range isDigit_of_mem_decimal decimal_ne_nil)
open LlvmDsdl.Support (Rational Language)
open LlvmDsdl.Semantics (Value constantError integerRange isAsciiCharacter)

variable {language : Language} {typeInfo : ConstantTypeInfo} {type : TypeExprAST} {value : Value}

/-- What analysis accepts for a declared type. -/
inductive ConstantShape (typeInfo : ConstantTypeInfo) : Value → Prop
  | boolean (value : Bool) (untyped : typeInfo.numericClass = .other) :
      ConstantShape typeInfo (.boolean value)
  | float (value : Rational) (floating : typeInfo.numericClass = .float) :
      ConstantShape typeInfo (.rational value)
  | integer (value : Rational) (whole : value.isInteger = true)
      (declared : InDeclared typeInfo value.numerator) : ConstantShape typeInfo (.rational value)
  | character (text : String) (c : Char) (single : text.toList = [c]) (ascii : c.val ≤ 127)
      (unsigned : typeInfo.numericClass = .unsignedInt) : ConstantShape typeInfo (.string text)

theorem InDeclared.numericClass_ne {number : ℤ} (declared : InDeclared typeInfo number) :
    typeInfo.numericClass ≠ .float ∧ typeInfo.numericClass ≠ .other := by
  rcases declared with ⟨unsigned, _⟩ | ⟨signed, _⟩ <;> simp [*]

theorem inDeclared_unsigned {bits : ℕ} {value : ℤ}
    (unsigned : typeInfo.numericClass = .unsignedInt)
    (width : validateBitLength .unsignedInteger bits = none)
    (range : ¬(value < (integerRange false bits).1 ∨ (integerRange false bits).2 < value)) :
    InDeclared typeInfo value := by
  have bounded := (validateBitLength_range width).2
  have power : (2 : ℤ) ^ bits ≤ 2 ^ 64 := pow_le_pow_right₀ (by decide) bounded
  simp only [integerRange, Bool.false_eq_true, if_false, not_or, not_lt] at range
  exact Or.inl ⟨unsigned, range.1, by omega⟩

theorem inDeclared_signed {bits : ℕ} {value : ℤ}
    (signed : typeInfo.numericClass = .signedInt)
    (width : validateBitLength .signedInteger bits = none)
    (range : ¬(value < (integerRange true bits).1 ∨ (integerRange true bits).2 < value)) :
    InDeclared typeInfo value := by
  have bounded := (validateBitLength_range width).2
  have power : (2 : ℤ) ^ (bits - 1) ≤ 2 ^ 63 := pow_le_pow_right₀ (by decide) (by omega)
  simp only [integerRange, if_true, not_or, not_lt] at range
  exact Or.inr ⟨signed, by omega, by omega⟩

theorem single_of_ascii {text : String} (ascii : isAsciiCharacter text = true) :
    ∃ c, text.toList = [c] ∧ c.val ≤ 127 := by
  unfold isAsciiCharacter at ascii
  split at ascii
  · rename_i c single
    exact ⟨c, single, by simpa using ascii⟩
  · cases ascii

theorem AcceptedConstant.shape (accepted : AcceptedConstant type value) :
    ConstantShape (makeConstantTypeInfo type) value := by
  have compatible := accepted.compatible
  unfold constantError at compatible
  split at compatible
  · rename_i prim isPrimitive
    have width := accepted.parsed prim isPrimitive
    unfold makeConstantTypeInfo
    rw [isPrimitive]
    dsimp only
    unfold WidthAccepted at width
    cases kind : prim.kind <;> cases value <;> simp only [kind] at compatible width ⊢ <;>
      try cases compatible
    case bool.boolean.intro => exact .boolean _ rfl
    case float.rational.intro => exact .float _ rfl
    case unsignedInt.string text =>
      split at compatible
      · rename_i conditions
        obtain ⟨c, single, ascii⟩ := single_of_ascii conditions.2.2
        exact .character text c single ascii rfl
      · cases compatible
    case unsignedInt.rational r =>
      cases whole : r.isInteger with
      | false => simp [whole] at compatible
      | true =>
          have wide : r.asWideInteger = some r.numerator := if_pos whole
          simp only [whole, wide] at compatible
          split at compatible
          · cases compatible
          · exact .integer r whole (inDeclared_unsigned rfl width (by assumption))
    case signedInt.rational r =>
      cases whole : r.isInteger with
      | false => simp [whole] at compatible
      | true =>
          have wide : r.asWideInteger = some r.numerator := if_pos whole
          simp only [whole, wide] at compatible
          split at compatible
          · cases compatible
          · exact .integer r whole (inDeclared_signed rfl width (by assumption))
  · cases compatible

/-- A constant that the language reads otherwise: a fraction of integers in Go, a fraction
with an oversized token in C and C++, a character that cannot stand between quotes. -/
def LeftOut (language : Language) (value : Value) : Prop :=
  match value with
  | .rational value =>
      value.isInteger = false ∧ (language = .go ∨
        ¬TokenFits language value.numerator ∨ ¬TokenFits language value.denominator)
  | .string text => ∃ c ∈ text.toList, standsInLiteral language c = false
  | _ => False

theorem asWideInteger_of_whole {value : Rational} (whole : value.isInteger = true) :
    value.asWideInteger = some value.numerator :=
  if_pos whole

theorem asWideInteger_of_fraction {value : Rational} (fraction : value.isInteger = false) :
    value.asWideInteger = none := by
  simp [Rational.asWideInteger, fraction]

theorem toRat_of_whole {value : Rational} (whole : value.isInteger = true) :
    value.toRat = value.numerator := by
  have one : value.denominator = 1 := by simpa [Rational.isInteger] using whole
  rw [Rational.toRat_eq, one]
  simp

section Render

variable (str : Value → List Char)

theorem render_whole {value : Rational} (whole : value.isInteger = true) :
    renderConstantLiteral str language (.rational value) typeInfo =
      if typeInfo.numericClass = .float then renderIntegerValuedFloat language value.numerator
      else renderIntegerConstant language value.numerator typeInfo := by
  simp only [renderConstantLiteral, asWideInteger_of_whole whole]

theorem render_fraction {value : Rational} (fraction : value.isInteger = false) :
    renderConstantLiteral str language (.rational value) typeInfo =
      renderFraction language (wideToString value.numerator)
        (wideToString value.denominator) := by
  simp only [renderConstantLiteral, asWideInteger_of_fraction fraction]

theorem render_character {text : String} {c : Char} (single : text.toList = [c])
    (ascii : c.val ≤ 127) :
    renderConstantLiteral str language (.string text) typeInfo =
      if language.isCLike then quoteCharLiteral c else quoteStringLiteral [c] := by
  unfold renderConstantLiteral
  cases language <;> simp [single, ascii, Language.isCLike]

theorem meaning_boolean (value : Bool) :
    meaning language typeInfo (renderConstantLiteral str language (.boolean value) typeInfo) =
      some (.boolean value) := by
  have parsed : ∀ word ∈ ["true", "false", "True", "False"],
      parseConstant language word.toList = some (.named [word.toList]) := by
    cases language <;> decide +kernel
  have lower : ∀ {word}, word ∈ ["true", "false", "True", "False"] →
      meaning language typeInfo word.toList = namedValue language [word.toList] := by
    intro word member
    rw [meaning, parsed word member, Option.bind_some, valueOf]
  unfold renderConstantLiteral
  cases language <;> cases value <;> exact (lower (by simp)).trans rfl

theorem meaning_fraction {value : Rational} (fraction : value.isInteger = false)
    (kept : ¬LeftOut language (.rational value)) :
    meaning language typeInfo (renderConstantLiteral str language (.rational value) typeInfo) =
      some (.float value.toRat) := by
  have held : language ≠ .go ∧ TokenFits language value.numerator ∧
      TokenFits language value.denominator := by
    simpa only [LeftOut, fraction, true_and, not_or, not_not, ne_eq] using kept
  rw [render_fraction str fraction,
    meaning_renderFraction value.positive.ne' held.2.1 held.2.2, fractionValue, if_neg held.1,
    Rational.toRat_eq]

theorem meaning_character {text : String} {c : Char} (single : text.toList = [c])
    (ascii : c.val ≤ 127) (kept : ¬LeftOut language (.string text)) :
    meaning language typeInfo (renderConstantLiteral str language (.string text) typeInfo) =
      some (if language.isCLike then .integer (.signed 32) c.toNat else .text [c]) := by
  have stands : standsInLiteral language c = true := by
    by_contra fails
    exact kept ⟨c, by simp [single], by simpa using fails⟩
  have code : c.toNat ≤ 127 := ascii
  rw [render_character str single ascii]
  split
  · rename_i cLike
    rw [meaning, parseConstant_quoteCharLiteral stands, Option.bind_some, valueOf, quotedValue,
      if_neg (by decide), if_pos cLike]
    exact if_pos code
  · rw [meaning, parseConstant_quoteStringLiteral stands, Option.bind_some, valueOf, quotedValue,
      if_pos rfl]

/-- Every accepted constant that is not left out reads as its value. -/
theorem meaning_accepted (language : Language) (accepted : AcceptedConstant type value)
    (kept : ¬LeftOut language value) :
    ∃ typed, meaning language (makeConstantTypeInfo type)
        (renderConstantLiteral str language value (makeConstantTypeInfo type)) = some typed ∧
      IsRendered language (makeConstantTypeInfo type) value typed := by
  cases accepted.shape with
  | boolean value untyped => exact ⟨_, meaning_boolean str value, rfl⟩
  | float value floating =>
      refine ⟨.float value.toRat, ?_, by simp only [IsRendered, IsValue, floating, if_true]⟩
      cases whole : value.isInteger with
      | true =>
          rw [render_whole str whole, if_pos floating, meaning_renderIntegerValuedFloat,
            toRat_of_whole whole]
      | false => exact meaning_fraction str whole kept
  | integer value whole declared =>
      have notFloat := declared.numericClass_ne.1
      obtain ⟨typed, read, is⟩ := @meaning_renderIntegerConstant language _ _ declared
      refine ⟨typed, ?_, ?_⟩
      · rw [render_whole str whole, if_neg notFloat, read]
      · simpa only [IsRendered, IsValue, notFloat, if_false] using is
  | character text c single ascii unsigned =>
      refine ⟨_, meaning_character str single ascii kept, ?_⟩
      unfold IsRendered
      cases cLike : language.isCLike with
      | true =>
          have notTypeScript : language ≠ .typeScript := by
            rintro rfl
            cases cLike
          refine ⟨c, single, isInteger_of_integer notTypeScript ?_⟩
          rintro rfl
          cases cLike
      | false => simp [single]

end Render

def Quoted (text : List Char) : Prop :=
  text.head? = some '"' ∨ text.head? = some '\''

theorem head_wideToString (value : ℤ) (suffix : List Char) :
    ∃ c rest, wideToString value ++ suffix = c :: rest ∧ (c = '-' ∨ c.isDigit = true) := by
  obtain ⟨first, others, shape⟩ := List.exists_cons_of_ne_nil (decimal_ne_nil value.natAbs)
  unfold wideToString
  split
  · exact ⟨'-', _, rfl, Or.inl rfl⟩
  · refine ⟨first, others ++ suffix, by rw [shape, List.cons_append], Or.inr ?_⟩
    exact @isDigit_of_mem_decimal value.natAbs _ (shape ▸ List.mem_cons_self)

theorem not_quoted_wideToString (value : ℤ) (suffix : List Char) :
    ¬Quoted (wideToString value ++ suffix) := by
  obtain ⟨c, rest, shape, sign⟩ := head_wideToString value suffix
  rw [shape, Quoted]
  rintro (quoted | quoted) <;> cases quoted <;> simp at sign

theorem not_quoted_renderIntegerConstant (value : ℤ) :
    ¬Quoted (renderIntegerConstant language value typeInfo) := by
  have bare := not_quoted_wideToString value []
  rw [List.append_nil] at bare
  have lowest : ¬Quoted "(-9223372036854775807LL - 1)".toList ∧ ¬Quoted "i64::MIN".toList := by
    constructor <;> simp [Quoted]
  unfold renderIntegerConstant
  cases language <;> dsimp only <;> (repeat' split) <;>
    first
      | exact bare
      | exact not_quoted_wideToString value _
      | exact lowest.1
      | exact lowest.2

theorem quoted_character (c : Char) :
    Quoted (if language.isCLike then quoteCharLiteral c else quoteStringLiteral [c]) := by
  split
  · unfold quoteCharLiteral
    split <;> exact Or.inr rfl
  · exact Or.inl rfl

theorem quoteCharLiteral_injective : Function.Injective quoteCharLiteral := by
  intro first second same
  unfold quoteCharLiteral at same
  split at same <;> split at same <;> simp_all

theorem quoteStringLiteral_injective {first second : Char}
    (same : quoteStringLiteral [first] = quoteStringLiteral [second]) : first = second := by
  unfold quoteStringLiteral at same
  simp only [List.flatMap_singleton] at same
  split at same <;> split at same <;> simp_all

theorem renderIntegerValuedFloat_injective {first second : ℤ}
    (same : renderIntegerValuedFloat language first = renderIntegerValuedFloat language second) :
    first = second := by
  have read := @meaning_renderIntegerValuedFloat language ⟨.float, 0⟩ first
  rw [same, meaning_renderIntegerValuedFloat] at read
  simpa using read.symm

theorem renderIntegerConstant_injective {first second : ℤ} (firstDeclared : InDeclared typeInfo first)
    (secondDeclared : InDeclared typeInfo second)
    (same : renderIntegerConstant language first typeInfo =
      renderIntegerConstant language second typeInfo) : first = second := by
  obtain ⟨typed, read, is⟩ := @meaning_renderIntegerConstant language _ _ firstDeclared
  obtain ⟨other, otherRead, otherIs⟩ := @meaning_renderIntegerConstant language _ _ secondDeclared
  rw [same, otherRead] at read
  cases read
  unfold IsInteger at is otherIs
  split at is
  · rename_i narrow
    rw [if_pos narrow, is] at otherIs
    simpa using otherIs
  · rename_i wide
    obtain ⟨firstType, _, rfl⟩ := is
    rw [if_neg wide] at otherIs
    obtain ⟨secondType, _, equal⟩ := otherIs
    cases equal
    rfl

theorem decimal_injective : Function.Injective decimal := by
  intro first second same
  have read := congrArg (fun digits => Nat.ofDigitChars 10 digits 0) same
  simpa only [decimal, Nat.ofDigitChars_ten_toDigits] using read

theorem signedExpr_injective {first second : ℤ} {suffix : List Char}
    (same : signedExpr first (.number (decimal first.natAbs) none suffix) =
      signedExpr second (.number (decimal second.natAbs) none suffix)) : first = second := by
  have magnitudes : decimal first.natAbs = decimal second.natAbs → first.natAbs = second.natAbs :=
    fun digits => decimal_injective digits
  unfold signedExpr at same
  split at same <;> split at same <;>
    simp only [ConstantExpr.negate.injEq, ConstantExpr.number.injEq, and_true,
      reduceCtorEq] at same
  · have := magnitudes same
    omega
  · have := magnitudes same
    omega

theorem operandExpr_injective (language : Language) :
    Function.Injective (operandExpr language) := by
  intro first second same
  unfold operandExpr at same
  cases language
  case c | cpp => exact signedExpr_injective (ConstantExpr.double.inj same)
  all_goals exact signedExpr_injective same

theorem renderFraction_injective {num den otherNum otherDen : ℤ}
    (same : renderFraction language (wideToString num) (wideToString den) =
      renderFraction language (wideToString otherNum) (wideToString otherDen)) :
    num = otherNum ∧ den = otherDen := by
  have trees := parseConstant_renderFraction language num den
  rw [same, parseConstant_renderFraction] at trees
  simp only [Option.some.injEq, ConstantExpr.divide.injEq] at trees
  exact ⟨(operandExpr_injective language trees.1).symm,
    (operandExpr_injective language trees.2).symm⟩

theorem renderFraction_ne_renderIntegerValuedFloat (num den value : ℤ) :
    renderFraction language (wideToString num) (wideToString den) ≠
      renderIntegerValuedFloat language value := by
  have opens : (renderFraction language (wideToString num) (wideToString den)).head? =
      some '(' := by
    rw [renderFraction_eq]
    rfl
  have apart : ∀ suffix, (wideToString value ++ suffix).head? ≠ some '(' := by
    intro suffix same
    obtain ⟨c, rest, shape, sign⟩ := head_wideToString value suffix
    rw [shape] at same
    cases same
    simp at sign
  intro same
  rw [same] at opens
  unfold renderIntegerValuedFloat at opens
  have bare := apart []
  rw [List.append_nil] at bare
  cases language
  case typeScript => exact bare opens
  all_goals exact apart _ opens

section Render

variable (str : Value → List Char)

theorem sameValue_of_float {first second : Rational} (floating : typeInfo.numericClass = .float)
    (same : renderConstantLiteral str language (.rational first) typeInfo =
      renderConstantLiteral str language (.rational second) typeInfo) :
    first.toRat = second.toRat := by
  cases whole : first.isInteger <;> cases otherWhole : second.isInteger
  case true.true =>
    rw [render_whole str whole, render_whole str otherWhole, if_pos floating,
      if_pos floating] at same
    rw [toRat_of_whole whole, toRat_of_whole otherWhole, renderIntegerValuedFloat_injective same]
  case false.false =>
    rw [render_fraction str whole, render_fraction str otherWhole] at same
    obtain ⟨numerators, denominators⟩ := renderFraction_injective same
    rw [Rational.toRat_eq, Rational.toRat_eq, numerators, denominators]
  case true.false =>
    rw [render_whole str whole, render_fraction str otherWhole, if_pos floating] at same
    exact absurd same.symm (renderFraction_ne_renderIntegerValuedFloat _ _ _)
  case false.true =>
    rw [render_fraction str whole, render_whole str otherWhole, if_pos floating] at same
    exact absurd same (renderFraction_ne_renderIntegerValuedFloat _ _ _)

theorem render_boolean_injective {first second : Bool}
    (same : renderConstantLiteral str language (.boolean first) typeInfo =
      renderConstantLiteral str language (.boolean second) typeInfo) : first = second := by
  have read := @meaning_boolean language typeInfo str first
  rw [same, meaning_boolean] at read
  simpa using read.symm

theorem sameValue_of_integer {first second : Rational} (whole : first.isInteger = true)
    (declared : InDeclared typeInfo first.numerator) (otherWhole : second.isInteger = true)
    (otherDeclared : InDeclared typeInfo second.numerator)
    (same : renderConstantLiteral str language (.rational first) typeInfo =
      renderConstantLiteral str language (.rational second) typeInfo) :
    first.toRat = second.toRat := by
  have notFloat := declared.numericClass_ne.1
  rw [render_whole str whole, render_whole str otherWhole, if_neg notFloat, if_neg notFloat] at same
  rw [toRat_of_whole whole, toRat_of_whole otherWhole,
    renderIntegerConstant_injective declared otherDeclared same]

theorem render_integer_ne_character {number : Rational} {text : String} {c : Char}
    (whole : number.isInteger = true) (declared : InDeclared typeInfo number.numerator)
    (single : text.toList = [c]) (ascii : c.val ≤ 127) :
    renderConstantLiteral str language (.rational number) typeInfo ≠
      renderConstantLiteral str language (.string text) typeInfo := by
  rw [render_whole str whole, if_neg declared.numericClass_ne.1,
    render_character str single ascii]
  exact fun same => not_quoted_renderIntegerConstant number.numerator (same ▸ quoted_character c)

theorem sameValue_of_character {first second : String} {c d : Char} (single : first.toList = [c])
    (ascii : c.val ≤ 127) (otherSingle : second.toList = [d]) (otherAscii : d.val ≤ 127)
    (same : renderConstantLiteral str language (.string first) typeInfo =
      renderConstantLiteral str language (.string second) typeInfo) : first = second := by
  rw [render_character str single ascii, render_character str otherSingle otherAscii] at same
  have characters : c = d := by
    split at same
    · exact quoteCharLiteral_injective same
    · exact quoteStringLiteral_injective same
  exact String.toList_inj.mp (by rw [single, otherSingle, characters])

theorem sameValue_of_render {other : Value} (accepted : AcceptedConstant type value)
    (otherAccepted : AcceptedConstant type other)
    (same : renderConstantLiteral str language value (makeConstantTypeInfo type) =
      renderConstantLiteral str language other (makeConstantTypeInfo type)) :
    SameValue value other := by
  -- The declared class leaves one shape, or the two shapes of an integer type.
  rcases accepted.shape with ⟨first, isOther⟩ | ⟨first, isFloat⟩ | ⟨first, whole, declared⟩ |
      ⟨first, c, single, ascii, isUnsigned⟩ <;>
    rcases otherAccepted.shape with ⟨second, secondOther⟩ | ⟨second, secondFloat⟩ |
      ⟨second, secondWhole, secondDeclared⟩ | ⟨second, d, secondSingle, secondAscii, secondUnsigned⟩
  case boolean.boolean => exact render_boolean_injective str same
  case float.float => exact sameValue_of_float str isFloat same
  case integer.integer =>
    exact sameValue_of_integer str whole declared secondWhole secondDeclared same
  case integer.character =>
    exact absurd same (render_integer_ne_character str whole declared secondSingle secondAscii)
  case character.integer =>
    exact absurd same.symm (render_integer_ne_character str secondWhole secondDeclared single ascii)
  case character.character =>
    exact sameValue_of_character str single ascii secondSingle secondAscii same
  case boolean.integer => exact absurd isOther secondDeclared.numericClass_ne.2
  case float.integer => exact absurd isFloat secondDeclared.numericClass_ne.1
  case integer.boolean => exact absurd secondOther declared.numericClass_ne.2
  case integer.float => exact absurd secondFloat declared.numericClass_ne.1
  all_goals simp_all

/-- A rendered constant is a well-formed expression of its language with its value, and
no other constant of its type has its text. -/
theorem renderConstantLiteral_keeps (language : Language) {type : TypeExprAST} {value : Value}
    (accepted : AcceptedConstant type value) :
    (¬LeftOut language value →
      ∃ typed, meaning language (makeConstantTypeInfo type)
          (renderConstantLiteral str language value (makeConstantTypeInfo type)) = some typed ∧
        IsRendered language (makeConstantTypeInfo type) value typed) ∧
    ∀ other, AcceptedConstant type other →
      renderConstantLiteral str language value (makeConstantTypeInfo type) =
        renderConstantLiteral str language other (makeConstantTypeInfo type) →
      SameValue value other :=
  ⟨meaning_accepted str language accepted,
    fun _ otherAccepted same => sameValue_of_render str accepted otherAccepted same⟩

end Render

def primitiveType (kind : PrimitiveKind) (bitLength : ℕ) : TypeExprAST :=
  .mk default (.primitive ⟨kind, .saturated, bitLength⟩) .none none

theorem accepted_threeHalves :
    AcceptedConstant (primitiveType .float 64) (.rational (Rational.ofFraction 3 2)) where
  parsed prim isPrimitive := by
    cases isPrimitive
    rfl
  compatible := rfl

theorem renderConstantLiteral_keeps_threeHalves :
    AcceptedConstant (primitiveType .float 64) (.rational (Rational.ofFraction 3 2)) ∧
      ¬LeftOut .rust (.rational (Rational.ofFraction 3 2)) ∧
      ∃ typed, meaning .rust ⟨.float, 64⟩ "(3f64 / 2f64)".toList = some typed ∧
        IsRendered .rust ⟨.float, 64⟩ (.rational (Rational.ofFraction 3 2)) typed := by
  have kept : ¬LeftOut .rust (.rational (Rational.ofFraction 3 2)) := by
    rintro ⟨-, go | oversized | oversized⟩
    · cases go
    · exact oversized nofun
    · exact oversized nofun
  exact ⟨accepted_threeHalves, kept,
    (renderConstantLiteral_keeps (fun _ => []) .rust accepted_threeHalves).1 kept⟩

theorem accepted_letter : AcceptedConstant (primitiveType .unsignedInt 8) (.string "x") where
  parsed prim isPrimitive := by
    cases isPrimitive
    rfl
  compatible := by decide

/-- A character constant is a string in Go. -/
theorem rendered_letter_is_text :
    AcceptedConstant (primitiveType .unsignedInt 8) (.string "x") ∧
      renderConstantLiteral (fun _ => []) .go (.string "x") ⟨.unsignedInt, 8⟩ = "\"x\"".toList ∧
      meaning .go ⟨.unsignedInt, 8⟩ "\"x\"".toList = some (.text ['x']) ∧
      ¬IsValue .go ⟨.unsignedInt, 8⟩ (.string "x") (.text ['x']) := by
  refine ⟨accepted_letter, by decide, by decide +kernel, ?_⟩
  rintro ⟨c, -, integer⟩
  simp [IsInteger] at integer

end LlvmDsdl.CodeGen
