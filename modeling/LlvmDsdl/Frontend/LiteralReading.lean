import LlvmDsdl.Frontend.LiteralValue
import LlvmDsdl.Frontend.ParserCompleteness
import LlvmDsdl.Frontend.TokenSpelling

/-!
Contract: the numbers the parser reads from lexed tokens.

Owns: how the lexer spells numbers when it reports nothing, the spelling of the
literal or version at a position, and when the number read there is the one
spelled.
-/

namespace LlvmDsdl.Frontend

open Support LexerCursor

structure NumberSpelled (token : Token) : Prop where
  integer : token.kind = .integer → isDecimalIntegerLiteral token.text = false ∨
    ∀ c ∈ token.text.toList, isDigitOrUnderscore c = true
  real : token.kind = .real → isReal token.text.toList = true

theorem numberSpelled_other {token : Token} (notInteger : token.kind ≠ .integer)
    (notReal : token.kind ≠ .real) : NumberSpelled token :=
  ⟨fun isInteger => absurd isInteger notInteger, fun isReal => absurd isReal notReal⟩

section Lexer

variable {file : String}

theorem lexPrefixedInteger_spelled {start : LexerCursor} {mark : Char} {after : List Char}
    (isNext : start.rest = '0' :: mark :: after) (isMark : isBaseMark mark = true) :
    ∀ token ∈ (lexPrefixedInteger file start).tokens, NumberSpelled token := by
  intro token member
  rw [List.mem_singleton.mp member]
  refine ⟨fun _ => Or.inl ?_, fun isReal => by cases isReal⟩
  unfold isDecimalIntegerLiteral tokenAt
  simp only [String.toList_ofList, isNext, List.take_succ_cons, List.take_zero, List.cons_append]
  rw [Bool.not_eq_false']
  exact isMark

theorem lexNumber_spelled {last : Option Token} {start : LexerCursor}
    (quiet : (lexNumber file last start).errors = []) :
    ∀ token ∈ (lexNumber file last start).tokens, NumberSpelled token := by
  intro token member
  unfold lexNumber at quiet member
  by_cases based : start.peek 0 = '0' ∧ isBaseMark (start.peek 1) = true
  · rw [if_pos based] at member
    obtain ⟨mark, after, isNext, isMark⟩ : ∃ mark after, start.rest = '0' :: mark :: after ∧
        isBaseMark mark = true := by
      obtain ⟨zero, isMark⟩ := based
      unfold peek at zero isMark
      rcases isRest : start.rest with _ | ⟨first, _ | ⟨mark, after⟩⟩
      · rw [isRest] at zero
        exact absurd zero (by decide)
      · rw [isRest] at isMark
        have notMark : isBaseMark endMark = false := by decide
        exact absurd isMark (by rw [show [first].getD 1 endMark = endMark from rfl, notMark]; simp)
      · rw [isRest] at zero isMark
        exact ⟨mark, after, by rw [show first = '0' from zero], isMark⟩
    exact lexPrefixedInteger_spelled isNext isMark token member
  · rw [if_neg based] at quiet member
    dsimp only at quiet member
    generalize readExponent (readFraction (readWhile isDigitOrUnderscore start).2).2 = exponent
      at quiet member
    generalize readFraction (readWhile isDigitOrUnderscore start).2 = fraction at quiet member
    rw [List.mem_singleton.mp member]
    cases real : !fraction.1.isEmpty || !exponent.1.isEmpty with
    | true =>
        rw [real] at quiet
        simp only [if_true] at quiet
        refine ⟨fun isInteger => (by cases isInteger), fun _ => ?_⟩
        by_contra malformed
        simp only [tokenAt, String.toList_ofList] at malformed
        have conforms : ∀ text, numericLiteralConforms text true = isReal text := fun _ => rfl
        rw [conforms, if_neg malformed] at quiet
        cases quiet
    | false =>
        simp only [Bool.or_eq_false_iff, Bool.not_eq_false', List.isEmpty_iff] at real
        refine ⟨fun _ => Or.inr ?_, fun isReal => by cases isReal⟩
        intro c inText
        rw [real.1, real.2, List.append_nil, List.append_nil] at inText
        have read : c ∈ (readWhile isDigitOrUnderscore start).1 := by
          simpa [tokenAt] using inText
        exact List.mem_takeWhile_imp read

theorem lexIdentifierOrKeyword_spelled {start : LexerCursor} :
    ∀ token ∈ (lexIdentifierOrKeyword file start).tokens, NumberSpelled token := by
  intro token member
  have others : ∀ text, identifierKind text ≠ .integer ∧ identifierKind text ≠ .real := by
    intro text
    unfold identifierKind
    split
    · decide
    · split <;> decide
  rw [List.mem_singleton.mp member]
  exact numberSpelled_other (others _).1 (others _).2

/-- **The numbers of a text lexed without errors are spelled as their kinds say.** -/
theorem lex_spelled {text : String} {tokens : List Token} (lexed : lex file text = (tokens, [])) :
    ∀ token ∈ tokens, NumberSpelled token := by
  have quiet : (lex file text).2 = [] := by rw [lexed]
  have same : (lex file text).1 = tokens := by rw [lexed]
  rw [← same]
  exact @lexFrom_tokens file NumberSpelled (· = [])
    (fun _ _ _ plain _ => numberSpelled_other plain.2.1 plain.2.2.1)
    (fun start c _ _ _ => lexIdentifierOrKeyword_spelled)
    (fun _ _ _ _ _ _ quiet => lexNumber_spelled quiet)
    (fun _ _ => List.append_eq_nil_iff.mp) _ _ _ quiet

end Lexer

def literalSpelling (tokens : List Token) : List Char :=
  match tokens with
  | [] => []
  | token :: rest =>
      match leadingPoint token rest with
      | some (fraction, _) => '.' :: fraction.text.toList
      | none =>
          if token.kind = .integer ∧ (trailingPoint token rest).isSome then
            token.text.toList ++ ['.']
          else token.text.toList

def StartsLiteral (tokens : List Token) : Prop :=
  ∃ token rest, tokens = token :: rest ∧
    ((leadingPoint token rest).isSome ∨ token.kind = .integer ∨ token.kind = .real)

/-- The spelling of the version of a name whose rest this is. -/
def versionSpelling : List Token → List Char × List Char
  | _ :: next :: rest =>
      match integersAhead (next :: rest) with
      | some (major, _, minor, _) => (major.text.toList, minor.text.toList)
      | none =>
          if next.kind = .real then
            (next.text.toList.takeWhile (· ≠ '.'),
              (next.text.toList.dropWhile (· ≠ '.')).drop 1)
          else versionSpelling rest
  | _ => ([], [])

theorem literalOf_accepted {location : SourceLocation} {value : Option Rational} {message : String}
    {after rest : List Token} {result : ExprAST}
    (accepted : literalOf location value message after = ⟨some result, rest, []⟩) :
    ∃ number, value = some number ∧ result = .rational location number := by
  cases value with
  | none =>
      have noErrors := congrArg Library.Parsing.Parsed.errors accepted
      cases noErrors
  | some number => exact ⟨number, rfl, (Option.some.inj (congrArg (·.value) accepted)).symm⟩

theorem dropWhile_unmarked {text : List Char} (digits : ∀ c ∈ text, isDigitOrUnderscore c = true)
    {after : List Char} : (text ++ after).dropWhile (fun c => !isExponentMark c) =
      after.dropWhile fun c => !isExponentMark c := by
  apply List.dropWhile_append_of_pos
  intro c member
  have isDigit := digits c member
  unfold isDigitOrUnderscore at isDigit
  rcases Bool.or_eq_true_iff.mp isDigit with digit | underscore
  · exact isExponentMark_digit digit
  · rw [of_decide_eq_true underscore]
    decide

theorem isReal_exponent {text : List Char} (real : isReal text = true) : ExponentSpelled text := by
  intro mark exponent dropped
  unfold isReal at real
  dsimp only at real
  rw [dropped] at real
  exact (Bool.and_eq_true_iff.mp real).2

/-- An accepted real literal whose exponent is spelled is exact when its scale is kept. -/
theorem realOf_exact_iff {location : SourceLocation} {message : String} {text : String}
    {after rest : List Token} {result : ExprAST} (starts : StartsWithDigit text.toList)
    (spelled : ExponentSpelled text.toList)
    (accepted : literalOf location (parseRealLiteral text) message after =
      ⟨some result, rest, []⟩) :
    ∃ number, result = .rational location number ∧
      (number.toRat = numeralValue text.toList ↔ KeepsValue text.toList) := by
  obtain ⟨number, parsed, same⟩ := literalOf_accepted accepted
  exact ⟨number, same, parseRealLiteral_exact_iff starts spelled parsed⟩

theorem leadingPoint_some {dot fraction : Token} {rest after : List Token}
    (found : leadingPoint dot rest = some (fraction, after)) :
    rest = fraction :: after ∧ dot.kind = .dot ∧
      (fraction.kind = .integer ∨ fraction.kind = .real) ∧
      (fraction.kind ≠ .integer ∨ isDecimalIntegerLiteral fraction.text = true) := by
  unfold leadingPoint at found
  split at found
  · split at found
    · rename_i both
      cases found
      exact ⟨rfl, both.1, both.2.1, both.2.2.1⟩
    · cases found
  · cases found

theorem trailingPoint_some {integer : Token} {rest after : List Token}
    (found : trailingPoint integer rest = some after) :
    isDecimalIntegerLiteral integer.text = true := by
  unfold trailingPoint at found
  split at found
  · split at found
    · rename_i both
      exact both.2.1
    · cases found
  · cases found

theorem pointed_spelled {fraction : Token} (wellSpelled : WellSpelled fraction)
    (numberSpelled : NumberSpelled fraction)
    (isNumber : fraction.kind = .integer ∨ fraction.kind = .real)
    (decimal : fraction.kind ≠ .integer ∨ isDecimalIntegerLiteral fraction.text = true) :
    StartsWithDigit ("." ++ fraction.text).toList ∧
      ExponentSpelled ("." ++ fraction.text).toList := by
  obtain ⟨c, more, text, isDigit⟩ := wellSpelled.number isNumber
  have whole : ("." ++ fraction.text).toList = '.' :: fraction.text.toList := by
    simp [String.toList_append]
  have dropped : ('.' :: fraction.text.toList).dropWhile (fun c => !isExponentMark c) =
      fraction.text.toList.dropWhile fun c => !isExponentMark c :=
    List.dropWhile_cons_of_pos (by decide)
  rw [whole]
  refine ⟨⟨c, more, Or.inr (by rw [text]), isDigit⟩, ?_⟩
  intro mark exponent tail
  rw [dropped] at tail
  rcases isNumber with isInteger | isReal
  · rcases numberSpelled.integer isInteger with based | digits
    · exact absurd based (by simpa [isInteger] using decimal)
    · have unmarked := @dropWhile_unmarked _ digits []
      rw [List.append_nil, tail] at unmarked
      cases unmarked
  · exact isReal_exponent (numberSpelled.real isReal) mark exponent tail

/-- **The number read at a literal is the one spelled exactly when its scale is kept.** -/
theorem parsePrimary_exact_iff {expression : TokenParser ExprAST} {tokens rest : List Token}
    {result : ExprAST} (wellSpelled : ∀ token ∈ tokens, WellSpelled token)
    (numberSpelled : ∀ token ∈ tokens, NumberSpelled token) (starts : StartsLiteral tokens)
    (parsed : parsePrimary expression tokens = ⟨some result, rest, []⟩) :
    ∃ location number, result = .rational location number ∧
      (number.toRat = numeralValue (literalSpelling tokens) ↔
        KeepsValue (literalSpelling tokens)) := by
  obtain ⟨token, others, rfl, isLiteral⟩ := starts
  have headSpelled := numberSpelled token (by simp)
  unfold parsePrimary at parsed
  unfold literalSpelling
  dsimp only at parsed ⊢
  cases leading : leadingPoint token others with
  | some point =>
      obtain ⟨fraction, after⟩ := point
      rw [leading] at parsed
      obtain ⟨same, _, kinds, decimal⟩ := leadingPoint_some leading
      have member : fraction ∈ token :: others := by simp [same]
      obtain ⟨digits, exponent⟩ := pointed_spelled (wellSpelled fraction member)
        (numberSpelled fraction member) kinds decimal
      obtain ⟨number, resultEq, exact⟩ := realOf_exact_iff digits exponent parsed
      refine ⟨_, number, resultEq, ?_⟩
      simpa [String.toList_append] using exact
  | none =>
      rw [leading] at parsed isLiteral
      rcases isLiteral with impossible | isInteger | isReal
      · cases impossible
      · obtain ⟨c, more, text, isDigit⟩ := (wellSpelled token (by simp)).number (Or.inl isInteger)
        simp only [isInteger, parseInteger] at parsed
        cases trailing : trailingPoint token others with
        | some after =>
            rw [trailing] at parsed
            dsimp only at parsed
            have whole : (token.text ++ ".").toList = token.text.toList ++ ['.'] := by
              simp [String.toList_append]
            have digits : ∀ c ∈ token.text.toList, isDigitOrUnderscore c = true :=
              (headSpelled.integer isInteger).resolve_left (by simp [trailingPoint_some trailing])
            have exponent : ExponentSpelled (token.text ++ ".").toList := by
              intro mark exponent tail
              rw [whole, dropWhile_unmarked digits] at tail
              cases tail
            obtain ⟨number, resultEq, exact⟩ := realOf_exact_iff
              ⟨c, more ++ ['.'], Or.inl (by rw [whole, text]; rfl), isDigit⟩ exponent parsed
            refine ⟨_, number, resultEq, ?_⟩
            rw [if_pos ⟨isInteger, rfl⟩, ← whole]
            exact exact
        | none =>
            rw [trailing] at parsed
            dsimp only at parsed
            obtain ⟨number, isNumber, resultEq⟩ := literalOf_accepted parsed
            obtain ⟨value, isValue, rfl⟩ := Option.map_eq_some_iff.mp isNumber
            obtain ⟨valueEq, kept⟩ := parseIntegerLiteral_value isValue
            refine ⟨_, _, resultEq, ?_⟩
            rw [if_neg (by simp), Rational.toRat_ofInteger]
            exact ⟨fun _ => kept, fun _ => by exact_mod_cast valueEq⟩
      · obtain ⟨c, more, text, isDigit⟩ := (wellSpelled token (by simp)).number (Or.inr isReal)
        simp only [isReal] at parsed
        obtain ⟨number, resultEq, exact⟩ := realOf_exact_iff ⟨c, more, Or.inl text, isDigit⟩
          (isReal_exponent (headSpelled.real isReal)) parsed
        refine ⟨_, number, resultEq, ?_⟩
        rw [if_neg (by simp [isReal])]
        exact exact

theorem numeral_eq_iff {value : ℕ} {text : List Char} (spelled : (value : ℚ) = numeralValue text) :
    ((value % 2 ^ 32 : ℕ) : ℚ) = numeralValue text ↔ numeralValue text < 2 ^ 32 := by
  rw [← spelled]
  norm_cast
  constructor
  · intro same
    rw [← same]
    exact Nat.mod_lt _ (by norm_num)
  · exact Nat.mod_eq_of_lt

/-- Both numbers of a version, cut to 32 bits, are those spelled when these fit. -/
theorem version_exact_iff {major minor : ℕ} {majorText minorText : List Char}
    (isMajor : (major : ℚ) = numeralValue majorText)
    (isMinor : (minor : ℚ) = numeralValue minorText) :
    ((major % 2 ^ 32 : ℕ) : ℚ) = numeralValue majorText ∧
        ((minor % 2 ^ 32 : ℕ) : ℚ) = numeralValue minorText ↔
      numeralValue majorText < 2 ^ 32 ∧ numeralValue minorText < 2 ^ 32 :=
  and_congr (numeral_eq_iff isMajor) (numeral_eq_iff isMinor)

theorem versionOfIntegers_exact_iff {dot major mid minor : Token} {version : ℕ × ℕ}
    (accepted : versionOfIntegers dot major mid minor = some version) :
    (version.1 : ℚ) = numeralValue major.text.toList ∧
        (version.2 : ℚ) = numeralValue minor.text.toList ↔
      numeralValue major.text.toList < 2 ^ 32 ∧ numeralValue minor.text.toList < 2 ^ 32 := by
  unfold versionOfIntegers at accepted
  split at accepted
  · rename_i majorValue minorValue isMajor isMinor
    split at accepted
    · rw [← Option.some.inj accepted]
      exact version_exact_iff (parseIntegerLiteral_value isMajor).1
        (parseIntegerLiteral_value isMinor).1
    · cases accepted
  · cases accepted

theorem versionOfReal_exact_iff {dot real : Token} {version : ℕ × ℕ}
    (accepted : versionOfReal dot real = some version) :
    (version.1 : ℚ) = numeralValue (real.text.toList.takeWhile (· ≠ '.')) ∧
        (version.2 : ℚ) = numeralValue ((real.text.toList.dropWhile (· ≠ '.')).drop 1) ↔
      numeralValue (real.text.toList.takeWhile (· ≠ '.')) < 2 ^ 32 ∧
        numeralValue ((real.text.toList.dropWhile (· ≠ '.')).drop 1) < 2 ^ 32 := by
  unfold versionOfReal parseVersionTokenAsMajorMinor at accepted
  split at accepted
  · dsimp only at accepted
    split at accepted
    · cases accepted
    · split at accepted
      · cases accepted
      · split at accepted
        · rename_i majorValue minorValue isMajor isMinor
          rw [← Option.some.inj accepted]
          have major := (parseIntegerLiteral_value isMajor).1
          have minor := (parseIntegerLiteral_value isMinor).1
          rw [String.toList_ofList] at major minor
          exact version_exact_iff major minor
        · cases accepted
  · cases accepted

/-- The version of a name's rest is exact when both its numbers fit 32 bits. -/
theorem nameTail_exact_iff {last : Token} {used : List Token} {components : List String}
    {version : ℕ × ℕ} (tail : NameTail last used components version) (rest : List Token) :
    (version.1 : ℚ) = numeralValue (versionSpelling (used ++ rest)).1 ∧
        (version.2 : ℚ) = numeralValue (versionSpelling (used ++ rest)).2 ↔
      numeralValue (versionSpelling (used ++ rest)).1 < 2 ^ 32 ∧
        numeralValue (versionSpelling (used ++ rest)).2 < 2 ^ 32 := by
  induction tail with
  | integers _ _ ahead isVersion =>
      have exact := versionOfIntegers_exact_iff isVersion
      simpa [versionSpelling, integersAhead, ahead] using exact
  | real _ _ isReal isVersion =>
      have exact := versionOfReal_exact_iff isVersion
      rw [List.cons_append, List.cons_append, List.nil_append, versionSpelling,
        integersAhead_none (by simp [isReal])]
      simpa [isReal] using exact
  | component _ _ isName _ _ ih =>
      rw [List.cons_append, List.cons_append, versionSpelling,
        integersAhead_none (by simp [isName])]
      simpa [isName] using ih

/-- **Accepted numbers mean what they say exactly when** a literal has no nonzero significand
with nineteen fractional digits or more or an exponent whose negation wraps, and the numbers of a
version fit 32 bits. -/
theorem numerals_exact_iff {file text : String} {before tokens : List Token}
    (lexed : lex file text = (before ++ tokens, [])) :
    (∀ expression result rest, StartsLiteral tokens →
      parsePrimary expression tokens = ⟨some result, rest, []⟩ →
        ∃ location number, result = .rational location number ∧
          (number.toRat = numeralValue (literalSpelling tokens) ↔
            KeepsValue (literalSpelling tokens))) ∧
    ∀ base last components type rest,
      parseVersionedTail base last components tokens = .ok (type, rest) →
        ((type.major : ℚ) = numeralValue (versionSpelling tokens).1 ∧
            (type.minor : ℚ) = numeralValue (versionSpelling tokens).2 ↔
          numeralValue (versionSpelling tokens).1 < 2 ^ 32 ∧
            numeralValue (versionSpelling tokens).2 < 2 ^ 32) := by
  have inside : ∀ token ∈ tokens, token ∈ before ++ tokens := fun token member =>
    List.mem_append_right _ member
  constructor
  · intro expression result rest starts parsed
    refine parsePrimary_exact_iff (fun token member => ?_)
      (fun token member => lex_spelled lexed token (inside token member)) starts parsed
    apply @lex_wellSpelled file text
    rw [lexed]
    exact inside token member
  · intro base last components type rest parsed
    obtain ⟨used, more, version, rfl, tail, rfl⟩ := parseVersionedTail_sound _ _ _ _ _ _ parsed
    exact nameTail_exact_iff tail rest

/-- `0.5` is read as one half. -/
theorem numerals_exact_iff_half : ∃ location number,
    ExprAST.rational ⟨"", 1, 1⟩ (.ofFraction 5 10) = .rational location number ∧
      (number.toRat = numeralValue "0.5".toList ↔ KeepsValue "0.5".toList) := by
  have lexed : lex "" "0.5" = ([] ++ (lex "" "0.5").1, []) := rfl
  exact (numerals_exact_iff lexed).1 parseExpression (.rational ⟨"", 1, 1⟩ (.ofFraction 5 10))
    [⟨.eof, "", ⟨"", 1, 4⟩⟩] ⟨_, _, rfl, Or.inr (Or.inr rfl)⟩ rfl

/-- `0.0000000000000000001` is read as the inverse of `INT64_MAX`, and version 4294967297.0 as
version 1.0. -/
theorem numerals_inexact :
    parsePrimary parseExpression (lex "" "0.0000000000000000001").1 =
        ⟨some (.rational ⟨"", 1, 1⟩ (.ofFraction 1 9223372036854775807)),
          [⟨.eof, "", ⟨"", 1, 22⟩⟩], []⟩ ∧
      (Rational.ofFraction 1 9223372036854775807).toRat ≠
        numeralValue "0.0000000000000000001".toList ∧
      parseExpression (lex "" "Foo.4294967297.0").1 =
        ⟨some (.typeLiteral ⟨"", 1, 1⟩
          (.mk ⟨"", 1, 1⟩ (.versioned ⟨["Foo"], 1, 0⟩) .none none)),
          [⟨.eof, "", ⟨"", 1, 17⟩⟩], []⟩ ∧
      (1 : ℚ) ≠ numeralValue "4294967297".toList := by
  have small : numeralValue "0.0000000000000000001".toList = 1 / 10 ^ 19 := by
    have significand : significandOf "0.0000000000000000001".toList = 1 := by decide
    have exponent : exponentOf "0.0000000000000000001".toList = 0 := by decide
    have fraction : (fractionOf "0.0000000000000000001".toList).length = 19 := by decide
    show decimalValue "0.0000000000000000001".toList = _
    rw [decimalValue, significand, exponent, fraction]
    norm_num
  have large : numeralValue "4294967297".toList = 4294967297 := by
    have significand : significandOf "4294967297".toList = 4294967297 := by decide
    have exponent : exponentOf "4294967297".toList = 0 := by decide
    have fraction : (fractionOf "4294967297".toList).length = 0 := by decide
    show decimalValue "4294967297".toList = _
    rw [decimalValue, significand, exponent, fraction]
    norm_num
  refine ⟨rfl, ?_, rfl, ?_⟩
  · rw [small, toRat_ofFraction (by decide)]
    norm_num
  · rw [large]
    norm_num

end LlvmDsdl.Frontend
