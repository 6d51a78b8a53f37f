import LlvmDsdl.CodeGen.ConstantLiteralReading
import LlvmDsdl.Frontend.DecimalLiteral
import LlvmDsdl.Support.WideRational

/-!
Contract: rendered constants keep their value.

Owns: the tokens and the trees of rendered constants, their values, and the
constants that a language does not read back.
-/

namespace LlvmDsdl.CodeGen

open LlvmDsdl.Frontend (TypeExprAST PrimitiveTypeExprAST decimal isDigit_of_mem_decimal
  decimal_ne_nil)
open LlvmDsdl.Support (Rational Language)
open LlvmDsdl.Semantics (Value constantError)

variable {language : Language} {typeInfo : ConstantTypeInfo}

/-! ### Tokens of a rendered constant -/

theorem tokens_cons {text rest : List Char} {token : LiteralToken}
    (next : nextToken language text = some (token, rest)) (shorter : rest.length < text.length) :
    tokens language text = (tokens language rest).map (token :: ·) := by
  have filled : text ≠ [] := by
    rintro rfl
    cases next
  rw [tokens, if_neg filled, next]
  exact if_pos shorter

@[simp]
theorem tokens_nil : tokens language [] = some [] := by
  rw [tokens, if_pos rfl]

/-- The text gives the tokens where the tail follows. -/
def Lexes (language : Language) (text : List Char) (toks : List LiteralToken)
    (tail : List Char) : Prop :=
  tokens language (text ++ tail) = (tokens language tail).map (toks ++ ·)

theorem Lexes.append {first second tail : List Char} {left right : List LiteralToken}
    (before : Lexes language first left (second ++ tail)) (after : Lexes language second right tail) :
    Lexes language (first ++ second) (left ++ right) tail := by
  rw [Lexes, List.append_assoc, before, after, Option.map_map]
  congr 1
  funext later
  simp

theorem Lexes.all {text : List Char} {toks : List LiteralToken}
    (lexes : Lexes language text toks []) : tokens language text = some toks := by
  have whole := lexes
  rw [Lexes, List.append_nil, tokens_nil] at whole
  simpa using whole

theorem lexes_symbol {c : Char} (isSymbol : c ∈ ['(', ')', '-', '/', ':', ' '])
    (tail : List Char) : Lexes language [c] [.symbol c] tail := by
  refine tokens_cons ?_ (by simp)
  simp only [List.mem_cons, List.not_mem_nil, or_false] at isSymbol
  rcases isSymbol with rfl | rfl | rfl | rfl | rfl | rfl <;> rfl

theorem lexes_word {letters tail : List Char}
    (next : nextToken language (letters ++ tail) = some (.word letters, tail))
    (filled : letters ≠ []) : Lexes language letters [.word letters] tail := by
  refine tokens_cons next ?_
  have longer := List.length_pos_iff.mpr filled
  rw [List.length_append]
  omega

/-- A text that does not go on with a digit. -/
def Stops (tail : List Char) : Prop :=
  ∀ c, tail.head? = some c → c.isDigit = false

theorem lexes_decimal (value : ℕ) {suffix tail : List Char} {token : LiteralToken}
    (stops : Stops (suffix ++ tail))
    (ends : numberTail (decimal value) (suffix ++ tail) = (token, tail)) :
    Lexes language (decimal value ++ suffix) [token] tail := by
  obtain ⟨first, others, shape⟩ := List.exists_cons_of_ne_nil (decimal_ne_nil value)
  have digits : ∀ c ∈ decimal value, c.isDigit = true := fun c member =>
    isDigit_of_mem_decimal member
  have firstDigit : first.isDigit = true := digits first (shape ▸ List.mem_cons_self)
  have unquoted : ¬(first = '"' ∨ first = '\'') := by
    rintro (rfl | rfl) <;> cases firstDigit
  have noDigit : (suffix ++ tail).takeWhile Char.isDigit = [] ∧
      (suffix ++ tail).dropWhile Char.isDigit = suffix ++ tail := by
    cases rest : suffix ++ tail with
    | nil => exact ⟨rfl, rfl⟩
    | cons c more =>
        have notDigit := stops c (by rw [rest]; rfl)
        simp [notDigit]
  have taken : (decimal value ++ (suffix ++ tail)).takeWhile Char.isDigit = decimal value := by
    rw [List.takeWhile_append_of_pos digits, noDigit.1, List.append_nil]
  have left : (decimal value ++ (suffix ++ tail)).dropWhile Char.isDigit = suffix ++ tail := by
    rw [List.dropWhile_append_of_pos digits, noDigit.2]
  rw [Lexes, List.append_assoc]
  refine tokens_cons ?_ ?_
  · rw [← ends]
    rw [shape, List.cons_append] at taken left ⊢
    rw [nextToken, if_neg unquoted, if_pos firstDigit, taken, left]
  · rw [List.length_append, List.length_append, shape, List.length_cons]
    omega

def signedTokens (value : ℤ) (number : LiteralToken) : List LiteralToken :=
  if value < 0 then [.symbol '-', number] else [number]

theorem lexes_wide (value : ℤ) {suffix tail : List Char} {token : LiteralToken}
    (stops : Stops (suffix ++ tail))
    (ends : numberTail (decimal value.natAbs) (suffix ++ tail) = (token, tail)) :
    Lexes language (wideToString value ++ suffix) (signedTokens value token) tail := by
  have magnitude := @lexes_decimal language value.natAbs suffix tail token stops ends
  unfold wideToString signedTokens
  split
  · exact (lexes_symbol (by simp) (decimal value.natAbs ++ suffix ++ tail)).append magnitude
  · exact magnitude

/-! ### Tokens of a fraction -/

/-- The tokens of `(double)` before an operand. -/
def castTokens : List LiteralToken :=
  [.symbol '(', .word ['d', 'o', 'u', 'b', 'l', 'e'], .symbol ')']

theorem lexes_cast (tail : List Char) :
    Lexes language ['(', 'd', 'o', 'u', 'b', 'l', 'e', ')'] castTokens tail := by
  have letters : nextToken language (['d', 'o', 'u', 'b', 'l', 'e'] ++ ')' :: tail) =
      some (.word ['d', 'o', 'u', 'b', 'l', 'e'], ')' :: tail) := rfl
  exact (lexes_symbol (by simp) _).append
    ((lexes_word letters (by simp)).append (lexes_symbol (by simp) tail))

/-- The operand of a fraction, in the words of the language. -/
def operandTokens (language : Language) (value : ℤ) : List LiteralToken :=
  match language with
  | .c | .cpp => castTokens ++ signedTokens value (.number (decimal value.natAbs) none [])
  | .rust => signedTokens value (.number (decimal value.natAbs) none ['f', '6', '4'])
  | _ => signedTokens value (.number (decimal value.natAbs) none [])

def operandText (language : Language) (value : ℤ) : List Char :=
  match language with
  | .c | .cpp => ['(', 'd', 'o', 'u', 'b', 'l', 'e', ')'] ++ (wideToString value ++ [])
  | .rust => wideToString value ++ ['f', '6', '4']
  | _ => wideToString value ++ []

def slashText (language : Language) : List Char :=
  match language with
  | .c | .cpp => ['/']
  | _ => [' ', '/', ' ']

theorem renderFraction_eq (language : Language) (num den : ℤ) :
    renderFraction language (wideToString num) (wideToString den) =
      ['('] ++ (operandText language num ++ (slashText language ++
        (operandText language den ++ [')']))) := by
  have openCast : "((double)".toList = ['(', '(', 'd', 'o', 'u', 'b', 'l', 'e', ')'] := rfl
  have slashCast : "/(double)".toList = ['/', '(', 'd', 'o', 'u', 'b', 'l', 'e', ')'] := rfl
  have floatSlash : "f64 / ".toList = ['f', '6', '4', ' ', '/', ' '] := rfl
  have floatClose : "f64)".toList = ['f', '6', '4', ')'] := rfl
  have slash : " / ".toList = [' ', '/', ' '] := rfl
  unfold renderFraction operandText slashText
  cases language <;>
    simp only [openCast, slashCast, floatSlash, floatClose, slash, List.append_assoc,
      List.cons_append, List.nil_append, List.append_nil]

/-- What may follow an operand. -/
def Ends (tail : List Char) : Prop :=
  ∃ c rest, tail = c :: rest ∧ c ∈ ['/', ' ', ')']

theorem Ends.stops {tail : List Char} (ends : Ends tail) : Stops tail := by
  obtain ⟨c, rest, rfl, member⟩ := ends
  intro other same
  cases same
  simp only [List.mem_cons, List.not_mem_nil, or_false] at member
  rcases member with rfl | rfl | rfl <;> rfl

theorem Ends.numberTail_eq {tail : List Char} (ends : Ends tail) (whole : List Char) :
    numberTail whole tail = (.number whole none [], tail) := by
  obtain ⟨c, rest, rfl, member⟩ := ends
  simp only [List.mem_cons, List.not_mem_nil, or_false] at member
  rcases member with rfl | rfl | rfl <;> rfl

theorem lexes_operand (language : Language) (value : ℤ) {tail : List Char} (ends : Ends tail) :
    Lexes language (operandText language value) (operandTokens language value) tail := by
  have plain : Lexes language (wideToString value ++ [])
      (signedTokens value (.number (decimal value.natAbs) none [])) tail :=
    lexes_wide value ends.stops (ends.numberTail_eq _)
  have suffixed : Lexes language (wideToString value ++ ['f', '6', '4'])
      (signedTokens value (.number (decimal value.natAbs) none ['f', '6', '4'])) tail := by
    refine lexes_wide value (fun c same => ?_) ?_
    · cases same
      rfl
    · obtain ⟨c, rest, rfl, member⟩ := ends
      simp only [List.mem_cons, List.not_mem_nil, or_false] at member
      rcases member with rfl | rfl | rfl <;> rfl
  cases language with
  | c => exact (lexes_cast _).append plain
  | cpp => exact (lexes_cast _).append plain
  | rust => exact suffixed
  | go => exact plain
  | typeScript => exact plain
  | python => exact plain

def slashTokens (language : Language) : List LiteralToken :=
  match language with
  | .c | .cpp => [.symbol '/']
  | _ => [.symbol ' ', .symbol '/', .symbol ' ']

theorem lexes_slash (language : Language) (tail : List Char) :
    Lexes language (slashText language) (slashTokens language) tail := by
  have symbol : ∀ {c}, c ∈ ['(', ')', '-', '/', ':', ' '] → ∀ rest,
      Lexes language [c] [.symbol c] rest := fun isSymbol rest => lexes_symbol isSymbol rest
  have spaced : Lexes language [' ', '/', ' '] [.symbol ' ', .symbol '/', .symbol ' '] tail :=
    (symbol (by simp) (['/', ' '] ++ tail)).append
      ((symbol (by simp) ([' '] ++ tail)).append (symbol (by simp) tail))
  cases language with
  | c => exact symbol (by simp) tail
  | cpp => exact symbol (by simp) tail
  | rust => exact spaced
  | go => exact spaced
  | typeScript => exact spaced
  | python => exact spaced

theorem tokens_renderFraction (language : Language) (num den : ℤ) :
    tokens language (renderFraction language (wideToString num) (wideToString den)) =
      some ([.symbol '('] ++ (operandTokens language num ++ (slashTokens language ++
        (operandTokens language den ++ [.symbol ')'])))) := by
  rw [renderFraction_eq]
  apply Lexes.all
  have middle : Ends (slashText language ++ (operandText language den ++ [')']) ++ []) := by
    cases language <;> exact ⟨_, _, rfl, by simp⟩
  refine (lexes_symbol (by simp) _).append ((lexes_operand language num middle).append
    ((lexes_slash language _).append ((lexes_operand language den ?_).append
      (lexes_symbol (by simp) []))))
  exact ⟨')', [], rfl, by simp⟩

/-! ### Trees -/

def signedExpr (value : ℤ) (number : ConstantExpr) : ConstantExpr :=
  if value < 0 then .negate number else number

def operandExpr (language : Language) (value : ℤ) : ConstantExpr :=
  match language with
  | .c | .cpp => .double (signedExpr value (.number (decimal value.natAbs) none []))
  | .rust => signedExpr value (.number (decimal value.natAbs) none ['f', '6', '4'])
  | _ => signedExpr value (.number (decimal value.natAbs) none [])

theorem parseConstant_number {text whole suffix : List Char} {fraction : Option (List Char)}
    {value : ℤ} (lexed : tokens language text =
      some (signedTokens value (.number whole fraction suffix))) :
    parseConstant language text = some (signedExpr value (.number whole fraction suffix)) := by
  unfold signedTokens at lexed
  unfold signedExpr parseConstant
  rw [lexed]
  by_cases negative : value < 0
  · rw [if_pos negative, if_pos negative]
    rfl
  · rw [if_neg negative, if_neg negative]
    rfl

theorem parseConstant_renderFraction (language : Language) (num den : ℤ) :
    parseConstant language (renderFraction language (wideToString num) (wideToString den)) =
      some (.divide (operandExpr language num) (operandExpr language den)) := by
  unfold parseConstant
  rw [tokens_renderFraction]
  unfold operandTokens operandExpr slashTokens signedTokens signedExpr
  by_cases negative : num < 0 <;> by_cases below : den < 0 <;>
    simp only [negative, below, if_true, if_false] <;> cases language <;> rfl

/-! ### Values of numbers -/

theorem wholeValue_decimal (value : ℕ) (suffix : List Char) :
    wholeValue language typeInfo (decimal value) suffix =
      literalValue language typeInfo value suffix := by
  have single : ¬((decimal value).head? = some '0' ∧ 1 < (decimal value).length) := by
    rintro ⟨zero, long⟩
    cases shape : decimal value with
    | nil => exact decimal_ne_nil value shape
    | cons c more =>
        rw [shape] at zero long
        rcases Frontend.decimal_cons shape with nonzero | alone
        · exact nonzero (Option.some.inj zero)
        · simp [alone] at long
  rw [wholeValue, if_neg single, decimal, Nat.ofDigitChars_ten_toDigits]

theorem intCast_natAbs {value : ℤ} (negative : value < 0) : ((value.natAbs : ℕ) : ℤ) = -value := by
  omega

theorem valueOf_signed_float {value : ℤ} {number : ConstantExpr}
    (magnitude : valueOf language typeInfo number = some (.float (value.natAbs : ℕ))) :
    valueOf language typeInfo (signedExpr value number) = some (.float value) := by
  unfold signedExpr
  split
  · rename_i negative
    have cast : -((value.natAbs : ℕ) : ℚ) = (value : ℚ) := by
      rw [← Int.cast_natCast, intCast_natAbs negative]
      simp
    rw [valueOf, magnitude, Option.bind_some, negateValue, cast]
  · rename_i positive
    have cast : ((value.natAbs : ℕ) : ℚ) = (value : ℚ) := by
      rw [← Int.cast_natCast]
      congr 1
      omega
    rw [magnitude, cast]

theorem settle_of_holds (language : Language) {type : IntegerType} {value : ℤ}
    (holds : type.holds value = true) : settle language type value = some (.integer type value) := by
  unfold settle
  exact if_pos holds

theorem valueOf_signed_integer {value : ℤ} {number : ConstantExpr} {type : IntegerType}
    (magnitude : valueOf language typeInfo number = some (.integer type (value.natAbs : ℕ)))
    (holds : type.holds value = true) :
    valueOf language typeInfo (signedExpr value number) = some (.integer type value) := by
  unfold signedExpr
  split
  · rename_i negative
    have opposite : -((value.natAbs : ℕ) : ℤ) = value := by
      rw [intCast_natAbs negative, neg_neg]
    have settled := settle_of_holds language holds
    rw [valueOf, magnitude, Option.bind_some]
    unfold negateValue
    cases type with
    | unsigned bits =>
        have outside : ¬0 ≤ value := by omega
        simp [IntegerType.holds, outside] at holds
    | signed bits => exact (congrArg _ opposite).trans settled
    | unbounded => exact (congrArg _ opposite).trans settled
  · rename_i positive
    have same : ((value.natAbs : ℕ) : ℤ) = value := by omega
    rw [magnitude, same]

/-! ### Values of fractions -/

/-- In C each token of a fraction has no suffix, and so is at most `INT64_MAX`. -/
def TokenFits (language : Language) (value : ℤ) : Prop :=
  language.isCLike = true → value.natAbs < 2 ^ 63

def operandValue (language : Language) (value : ℤ) : Typed :=
  match language with
  | .go | .python => .integer .unbounded value
  | _ => .float value

theorem holds_signed_iff {bits : ℕ} {value : ℤ} :
    (IntegerType.signed bits).holds value = true ↔
      -2 ^ (bits - 1) ≤ value ∧ value < 2 ^ (bits - 1) := by
  simp only [IntegerType.holds, Bool.and_eq_true, decide_eq_true_eq]

theorem holds_unsigned_iff {bits : ℕ} {value : ℤ} :
    (IntegerType.unsigned bits).holds value = true ↔ 0 ≤ value ∧ value < 2 ^ bits := by
  simp only [IntegerType.holds, Bool.and_eq_true, decide_eq_true_eq]

theorem holds_signed {bits value : ℕ} (fits : value < 2 ^ (bits - 1)) :
    (IntegerType.signed bits).holds value = true := by
  have upper : (value : ℤ) < 2 ^ (bits - 1) := by exact_mod_cast fits
  have power : (0 : ℤ) < 2 ^ (bits - 1) := by positivity
  exact holds_signed_iff.mpr ⟨by omega, upper⟩

theorem literalValue_c (value : ℕ) (cLike : language.isCLike = true) (fits : value < 2 ^ 63) :
    ∃ bits, value < 2 ^ (bits - 1) ∧
      literalValue language typeInfo value [] = some (.integer (.signed bits) value) := by
  have asC : literalValue language typeInfo value [] =
      if (IntegerType.signed 32).holds value then some (.integer (.signed 32) value)
      else literalOf (.signed 64) value := by
    unfold literalValue
    cases language
    case c | cpp => simp only [if_true]
    all_goals cases cLike
  rw [asC]
  by_cases small : value < 2 ^ (32 - 1)
  · exact ⟨32, small, if_pos (holds_signed small)⟩
  · have fits64 : value < 2 ^ (64 - 1) := fits
    refine ⟨64, fits64, ?_⟩
    have not32 : ¬(IntegerType.signed 32).holds value = true := fun holds => by
      have upper := (holds_signed_iff.mp holds).2
      exact small (by exact_mod_cast upper)
    rw [if_neg not32, literalOf, if_pos (holds_signed fits64)]

theorem valueOf_decimal (value : ℕ) (suffix : List Char) :
    valueOf language typeInfo (.number (decimal value) none suffix) =
      literalValue language typeInfo value suffix := by
  rw [valueOf, numberValue, wholeValue_decimal]

theorem valueOf_signed_c {value : ℤ} (cLike : language.isCLike = true)
    (fits : value.natAbs < 2 ^ 63) :
    ∃ type, valueOf language typeInfo
      (signedExpr value (.number (decimal value.natAbs) none [])) = some (.integer type value) := by
  obtain ⟨bits, small, literal⟩ := @literalValue_c language typeInfo _ cLike fits
  refine ⟨.signed bits, valueOf_signed_integer ?_ ?_⟩
  · rw [valueOf_decimal, literal]
  · have bound : (value.natAbs : ℤ) < 2 ^ (bits - 1) := by exact_mod_cast small
    exact holds_signed_iff.mpr ⟨by omega, by omega⟩

theorem valueOf_operand {value : ℤ} (fits : TokenFits language value) :
    valueOf language typeInfo (operandExpr language value) = some (operandValue language value) := by
  have cLike : language.isCLike = true →
      valueOf language typeInfo
        (.double (signedExpr value (.number (decimal value.natAbs) none []))) =
          some (.float value) := by
    intro isC
    obtain ⟨type, inner⟩ := @valueOf_signed_c language typeInfo value isC (fits isC)
    rw [valueOf, inner, Option.bind_some, doubleValue]
  cases language with
  | c => exact cLike rfl
  | cpp => exact cLike rfl
  | rust => exact valueOf_signed_float (valueOf_decimal _ _)
  | go => exact valueOf_signed_integer (valueOf_decimal _ _) rfl
  | typeScript => exact valueOf_signed_float (valueOf_decimal _ _)
  | python => exact valueOf_signed_integer (valueOf_decimal _ _) rfl

/-- What a fraction is in the language: Go divides integers. -/
def fractionValue (language : Language) (num den : ℤ) : Typed :=
  if language = .go then .integer .unbounded (num.tdiv den) else .float (num / den)

theorem divideValues_operands {num den : ℤ} (nonzero : den ≠ 0) :
    divideValues language (operandValue language num) (operandValue language den) =
      some (fractionValue language num den) := by
  have divisor : (den : ℚ) ≠ 0 := Int.cast_ne_zero.mpr nonzero
  have floats : ∀ other, divideValues other (.float num) (.float den) =
      some (.float (num / den)) := fun other => by
    rw [divideValues, if_neg divisor]
  have integers : ∀ other, divideValues other (.integer .unbounded num)
      (.integer .unbounded den) = if other = .python then some (.float (num / den))
        else some (.integer .unbounded (num.tdiv den)) := fun other => by
    rw [divideValues, if_neg nonzero]
    rfl
  unfold operandValue fractionValue
  cases language with
  | c => exact floats _
  | cpp => exact floats _
  | rust => exact floats _
  | go => exact integers _
  | typeScript => exact floats _
  | python => exact integers _

theorem meaning_renderFraction {num den : ℤ} (nonzero : den ≠ 0)
    (numFits : TokenFits language num) (denFits : TokenFits language den) :
    meaning language typeInfo
      (renderFraction language (wideToString num) (wideToString den)) =
        some (fractionValue language num den) := by
  rw [meaning, parseConstant_renderFraction, Option.bind_some, valueOf, valueOf_operand numFits,
    Option.bind_some, valueOf_operand denFits, Option.bind_some, divideValues_operands nonzero]

/-! ### Whole numbers -/

theorem meaning_wide {value : ℤ} {tail suffix : List Char} {fraction : Option (List Char)}
    (stops : Stops tail)
    (ends : numberTail (decimal value.natAbs) tail =
      (.number (decimal value.natAbs) fraction suffix, [])) :
    meaning language typeInfo (wideToString value ++ tail) =
      valueOf language typeInfo
        (signedExpr value (.number (decimal value.natAbs) fraction suffix)) := by
  have lexed : Lexes language (wideToString value ++ tail)
      (signedTokens value (.number (decimal value.natAbs) fraction suffix)) [] := by
    refine lexes_wide value ?_ ?_
    · rwa [List.append_nil]
    · rwa [List.append_nil]
  rw [meaning, parseConstant_number lexed.all, Option.bind_some]

theorem stops_nil : Stops [] := nofun

theorem stops_cons {c : Char} {rest : List Char} (notDigit : c.isDigit = false) :
    Stops (c :: rest) := by
  intro other same
  cases same
  exact notDigit

theorem meaning_bare (value : ℤ) :
    meaning language typeInfo (wideToString value) =
      valueOf language typeInfo (signedExpr value (.number (decimal value.natAbs) none [])) := by
  have bare := @meaning_wide language typeInfo value [] [] none stops_nil rfl
  rwa [List.append_nil] at bare

theorem meaning_renderIntegerValuedFloat (value : ℤ) :
    meaning language typeInfo (renderIntegerValuedFloat language value) =
      some (.float value) := by
  have pointed : meaning language typeInfo (wideToString value ++ ['.', '0']) =
      some (.float value) := by
    rw [meaning_wide (stops_cons rfl) (show _ = (LiteralToken.number _ (some ['0']) [], []) from rfl)]
    apply valueOf_signed_float
    have zero : Nat.ofDigitChars 10 ['0'] 0 = 0 := rfl
    rw [valueOf, numberValue, if_pos rfl, decimal, Nat.ofDigitChars_ten_toDigits, zero]
    simp
  cases language
  case typeScript =>
    exact (meaning_bare value).trans (valueOf_signed_float (valueOf_decimal _ _))
  all_goals exact pointed

/-- The value is one of the declared integer type, which has at most 64 bits. -/
def InDeclared (typeInfo : ConstantTypeInfo) (value : ℤ) : Prop :=
  typeInfo.numericClass = .unsignedInt ∧ 0 ≤ value ∧ value < 2 ^ 64 ∨
    typeInfo.numericClass = .signedInt ∧ -2 ^ 63 ≤ value ∧ value < 2 ^ 63

theorem expectedType_holds {value : ℤ} (declared : InDeclared typeInfo value) :
    (expectedType typeInfo).holds value = true := by
  unfold expectedType
  rcases declared with ⟨unsigned, range⟩ | ⟨signed, range⟩
  · rw [unsigned]
    exact holds_unsigned_iff.mpr range
  · rw [signed]
    exact holds_signed_iff.mpr range

theorem literalOf_unsigned {value : ℕ} (fits : value < 2 ^ 64) :
    literalOf (.unsigned 64) value = some (.integer (.unsigned 64) value) := by
  have upper : (value : ℤ) < 2 ^ 64 := by exact_mod_cast fits
  exact if_pos (holds_unsigned_iff.mpr ⟨by omega, upper⟩)

theorem parseConstant_lowest (cLike : language.isCLike = true) :
    parseConstant language "(-9223372036854775807LL - 1)".toList =
      some (.subtract (.negate (.number "9223372036854775807".toList none ['L', 'L']))
        (.number ['1'] none [])) := by
  cases language
  case c | cpp => decide +kernel
  all_goals cases cLike

theorem meaning_lowest (cLike : language.isCLike = true) :
    meaning language typeInfo "(-9223372036854775807LL - 1)".toList =
      some (.integer (.signed 64) (-2 ^ 63)) := by
  rw [meaning, parseConstant_lowest cLike, Option.bind_some]
  cases language
  case c | cpp => rfl
  all_goals cases cLike

theorem meaning_lowest_rust :
    meaning .rust typeInfo "i64::MIN".toList = some (.integer (.signed 64) (-2 ^ 63)) := by
  have parsed : parseConstant .rust "i64::MIN".toList =
      some (.named ["i64".toList, "MIN".toList]) := by decide +kernel
  rw [meaning, parsed, Option.bind_some]
  rfl

/-! ### Integer constants -/

theorem isInteger_of_integer {value : ℤ} {type : IntegerType} (notTypeScript : language ≠ .typeScript)
    (inferred : language = .rust → type = expectedType typeInfo) :
    IsInteger language typeInfo value (.integer type value) := by
  rw [IsInteger, if_neg fun both => notTypeScript both.1]
  exact ⟨type, inferred, rfl⟩

theorem meaning_integer_c {value : ℤ} (cLike : language.isCLike = true)
    (declared : InDeclared typeInfo value) :
    ∃ type, meaning language typeInfo (renderIntegerConstant language value typeInfo) =
      some (.integer type value) := by
  have rendered : renderIntegerConstant language value typeInfo =
      if value = -2 ^ 63 then "(-9223372036854775807LL - 1)".toList
      else if 2 ^ 63 - 1 < value then wideToString value ++ "ULL".toList
      else wideToString value := by
    unfold renderIntegerConstant
    cases language
    case c | cpp => rfl
    all_goals cases cLike
  rw [rendered]
  by_cases lowest : value = -2 ^ 63
  · rw [if_pos lowest, lowest]
    exact ⟨_, meaning_lowest cLike⟩
  by_cases large : 2 ^ 63 - 1 < value
  · have suffix : literalValue language typeInfo value.natAbs ['U', 'L', 'L'] =
        literalOf (.unsigned 64) value.natAbs := by
      unfold literalValue
      cases language
      case c | cpp =>
        dsimp only
        rw [if_neg (by decide), if_neg (by decide), if_pos rfl]
      all_goals cases cLike
    have fits : value.natAbs < 2 ^ 64 := by
      rcases declared with ⟨_, range⟩ | ⟨_, range⟩ <;> omega
    refine ⟨.unsigned 64, ?_⟩
    rw [if_neg lowest, if_pos large]
    refine (meaning_wide (stops_cons rfl) rfl).trans (valueOf_signed_integer ?_ ?_)
    · exact (valueOf_decimal _ _).trans (suffix.trans (literalOf_unsigned fits))
    · exact holds_unsigned_iff.mpr ⟨by omega, by omega⟩
  · have fits : value.natAbs < 2 ^ 63 := by
      rcases declared with ⟨_, range⟩ | ⟨_, range⟩ <;> omega
    obtain ⟨type, small⟩ := @valueOf_signed_c language typeInfo value cLike fits
    rw [if_neg lowest, if_neg large, meaning_bare]
    exact ⟨type, small⟩

theorem meaning_integer_rust {value : ℤ} (declared : InDeclared typeInfo value) :
    meaning .rust typeInfo (renderIntegerConstant .rust value typeInfo) =
      some (.integer (expectedType typeInfo) value) := by
  unfold renderIntegerConstant
  dsimp only
  by_cases lowest : value = -2 ^ 63
  · have signed : typeInfo.numericClass = .signedInt := by
      rcases declared with ⟨_, range⟩ | ⟨signed, _⟩
      · omega
      · exact signed
    rw [if_pos lowest, meaning_lowest_rust, expectedType, signed, lowest]
  by_cases large : 2 ^ 63 - 1 < value
  · have unsigned : typeInfo.numericClass = .unsignedInt := by
      rcases declared with ⟨unsigned, _⟩ | ⟨_, range⟩
      · exact unsigned
      · omega
    have fits : value.natAbs < 2 ^ 64 := by
      rcases declared with ⟨_, range⟩ | ⟨_, range⟩ <;> omega
    have suffix : literalValue .rust typeInfo value.natAbs ['u', '6', '4'] =
        literalOf (.unsigned 64) value.natAbs := by
      unfold literalValue
      dsimp only
      rw [if_neg (by decide), if_pos rfl]
    rw [if_neg lowest, if_pos large, expectedType, unsigned]
    refine (meaning_wide (stops_cons rfl) rfl).trans (valueOf_signed_integer ?_ ?_)
    · exact (valueOf_decimal _ _).trans (suffix.trans (literalOf_unsigned fits))
    · exact holds_unsigned_iff.mpr ⟨by omega, by omega⟩
  · have magnitude : InDeclared typeInfo (value.natAbs : ℕ) := by
      rcases declared with ⟨unsigned, range⟩ | ⟨signed, range⟩
      · exact Or.inl ⟨unsigned, by omega⟩
      · exact Or.inr ⟨signed, by omega⟩
    rw [if_neg lowest, if_neg large, meaning_bare]
    refine valueOf_signed_integer ?_ (expectedType_holds declared)
    exact (valueOf_decimal _ _).trans (if_pos (expectedType_holds magnitude))

theorem meaning_renderIntegerConstant {value : ℤ} (declared : InDeclared typeInfo value) :
    ∃ typed, meaning language typeInfo (renderIntegerConstant language value typeInfo) = some typed ∧
      IsInteger language typeInfo value typed := by
  have unbounded : ∀ {other : Language}, (∀ magnitude,
      literalValue other typeInfo magnitude [] = some (.integer .unbounded magnitude)) →
        meaning other typeInfo (wideToString value) = some (.integer .unbounded value) :=
    fun literal => (meaning_bare value).trans
      (valueOf_signed_integer ((valueOf_decimal _ _).trans (literal _)) rfl)
  cases language with
  | c =>
      obtain ⟨type, read⟩ := @meaning_integer_c .c typeInfo value rfl declared
      exact ⟨_, read, isInteger_of_integer (by decide) nofun⟩
  | cpp =>
      obtain ⟨type, read⟩ := @meaning_integer_c .cpp typeInfo value rfl declared
      exact ⟨_, read, isInteger_of_integer (by decide) nofun⟩
  | rust =>
      exact ⟨_, meaning_integer_rust declared, isInteger_of_integer (by decide) fun _ => rfl⟩
  | go => exact ⟨_, unbounded fun _ => rfl, isInteger_of_integer (by decide) nofun⟩
  | python => exact ⟨_, unbounded fun _ => rfl, isInteger_of_integer (by decide) nofun⟩
  | typeScript =>
      unfold renderIntegerConstant
      dsimp only
      by_cases wide : 53 < typeInfo.bitLength
      · refine ⟨.integer .unbounded value, ?_, ?_⟩
        · rw [if_pos wide]
          exact (meaning_wide (stops_cons rfl) rfl).trans
            (valueOf_signed_integer (valueOf_decimal _ _) rfl)
        · rw [IsInteger, if_neg fun both => absurd both.2 (by omega)]
          exact ⟨_, nofun, rfl⟩
      · refine ⟨.float value, ?_, ?_⟩
        · rw [if_neg wide]
          exact (meaning_bare value).trans (valueOf_signed_float (valueOf_decimal _ _))
        · rw [IsInteger, if_pos ⟨rfl, by omega⟩]

/-! ### Characters -/

theorem quotedContent_cons (quote c : Char) (rest : List Char) :
    quotedContent language quote (c :: rest) =
      if c = quote then some ([], rest)
      else if c = '\\' then
        match rest with
        | [] => none
        | escaped :: after =>
            if escaped = '\\' ∨ escaped = quote then
              (quotedContent language quote after).map fun read => (escaped :: read.1, read.2)
            else none
      else if standsInLiteral language c = true then
        (quotedContent language quote rest).map fun read => (c :: read.1, read.2)
      else none := by
  cases rest <;> rfl

theorem quotedContent_escaped {quote c : Char} (apart : quote ≠ '\\')
    (special : c = '\\' ∨ c = quote) (rest : List Char) :
    quotedContent language quote ('\\' :: c :: quote :: rest) = some ([c], rest) := by
  have closing : quotedContent language quote (quote :: rest) = some ([], rest) := by
    rw [quotedContent_cons, if_pos rfl]
  rw [quotedContent_cons, if_neg (Ne.symm apart), if_pos rfl]
  dsimp only
  rw [if_pos special, closing]
  rfl

theorem quotedContent_plain {quote c : Char} (notQuote : c ≠ quote) (notEscape : c ≠ '\\')
    (stands : standsInLiteral language c = true) (rest : List Char) :
    quotedContent language quote (c :: quote :: rest) = some ([c], rest) := by
  have closing : quotedContent language quote (quote :: rest) = some ([], rest) := by
    rw [quotedContent_cons, if_pos rfl]
  rw [quotedContent_cons, if_neg notQuote, if_neg notEscape, if_pos stands, closing]
  rfl

theorem parseConstant_quoted {quote : Char} {text content : List Char}
    (isQuote : quote = '"' ∨ quote = '\'')
    (read : quotedContent language quote text = some (content, [])) :
    parseConstant language (quote :: text) = some (.quoted quote content) := by
  have next : nextToken language (quote :: text) = some (.quoted quote content, []) := by
    rw [nextToken, if_pos isQuote, read]
    rfl
  rw [parseConstant, tokens_cons next (by simp), tokens_nil]
  rfl

theorem parseConstant_quoteCharLiteral {c : Char} (stands : standsInLiteral language c = true) :
    parseConstant language (quoteCharLiteral c) = some (.quoted '\'' [c]) := by
  unfold quoteCharLiteral
  split
  · rename_i special
    exact parseConstant_quoted (Or.inr rfl) (quotedContent_escaped (by decide) special [])
  · rename_i plain
    rw [not_or] at plain
    exact parseConstant_quoted (Or.inr rfl) (quotedContent_plain plain.2 plain.1 stands [])

theorem parseConstant_quoteStringLiteral {c : Char} (stands : standsInLiteral language c = true) :
    parseConstant language (quoteStringLiteral [c]) = some (.quoted '"' [c]) := by
  unfold quoteStringLiteral
  rw [List.flatMap_singleton]
  split
  · rename_i special
    exact parseConstant_quoted (Or.inl rfl) (quotedContent_escaped (by decide) special [])
  · rename_i plain
    rw [not_or] at plain
    exact parseConstant_quoted (Or.inl rfl) (quotedContent_plain plain.2 plain.1 stands [])

end LlvmDsdl.CodeGen
