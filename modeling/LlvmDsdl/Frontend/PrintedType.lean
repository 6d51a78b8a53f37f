import LlvmDsdl.Frontend.Grammar
import LlvmDsdl.Frontend.TokenSpelling

/-!
Contract: a printed scalar type is read back as that type.

Owns: the printed names of primitive types, the printed components and version of a
versioned name, and that every scalar the grammar derives is one the grammar derives
from its printed form.
-/

namespace LlvmDsdl.Frontend

def WidthDomain.name (domain : WidthDomain) (bits : ℕ) : List Char :=
  domain.stem ++ decimal bits

theorem validateBitLength_range {domain : WidthDomain} {bits : ℕ}
    (valid : validateBitLength domain bits = none) : 0 < bits ∧ bits ≤ 64 := by
  cases domain with
  | signedInteger =>
      have inside : ¬(bits < 2 ∨ 64 < bits) := fun outside => by
        rw [validateBitLength, if_pos outside] at valid
        cases valid
      omega
  | unsignedInteger =>
      have inside : ¬(bits < 1 ∨ 64 < bits) := fun outside => by
        rw [validateBitLength, if_pos outside] at valid
        cases valid
      omega
  | float =>
      have inside : ¬(bits ≠ 16 ∧ bits ≠ 32 ∧ bits ≠ 64) := fun outside => by
        rw [validateBitLength, if_pos outside] at valid
        cases valid
      omega
  | void =>
      have inside : ¬(bits < 1 ∨ 64 < bits) := fun outside => by
        rw [validateBitLength, if_pos outside] at valid
        cases valid
      omega

theorem isWidth_decimal {bits : ℕ} (positive : 0 < bits) : isWidth (decimal bits) = true := by
  have digits : ∀ c ∈ decimal bits, c.isDigit = true := fun c member =>
    isDigit_of_mem_decimal member
  cases same : decimal bits with
  | nil => exact absurd same (decimal_ne_nil bits)
  | cons c more =>
      have nonzero : c ≠ '0' := by
        intro isZero
        rcases decimal_cons same with nonzero | single
        · exact nonzero isZero
        · have value : Nat.ofDigitChars 10 (decimal bits) 0 = bits := Nat.ofDigitChars_ten_toDigits
          rw [same, single, isZero] at value
          have zero : 0 = bits := value
          omega
      rw [same] at digits
      unfold isWidth
      dsimp only
      rw [digits c List.mem_cons_self, decide_eq_true nonzero, Bool.and_self, Bool.true_and]
      exact List.all_eq_true.mpr fun c' member => digits c' (List.mem_cons_of_mem c member)

theorem widthOf_name {domain : WidthDomain} {bits : ℕ} (positive : 0 < bits) :
    widthOf domain (.ofList (domain.name bits)) = some (decimal bits) := by
  have isPrefix : domain.stem.isPrefixOf (domain.name bits) = true :=
    List.isPrefixOf_iff_prefix.mpr (List.prefix_append _ _)
  have rest : (domain.name bits).drop domain.stem.length = decimal bits := List.drop_left
  unfold widthOf
  rw [String.toList_ofList, isPrefix, rest, isWidth_decimal positive]
  rfl

theorem widthOf_other {domain other : WidthDomain} (differ : other ≠ domain) (bits : ℕ) :
    widthOf other (.ofList (domain.name bits)) = none := by
  have noPrefix : other.stem.isPrefixOf (domain.name bits) = false := by
    cases domain <;> cases other <;> first
      | exact absurd rfl differ
      | rfl
  unfold widthOf
  rw [String.toList_ofList, noPrefix]
  rfl

theorem parseBitLength_decimal {bits : ℕ} (small : bits ≤ 64) :
    parseBitLength (decimal bits) = some bits := by
  have fold (out : ℕ) (text : List Char) :
      text.foldl (fun out c => out * 10 + (c.toNat - '0'.toNat)) out =
        Nat.ofDigitChars 10 text out := by
    induction text generalizing out with
    | nil => rfl
    | cons c text ih =>
        rw [List.foldl_cons, Nat.ofDigitChars_cons, ih, Nat.mul_comm out 10]
  have value : Nat.ofDigitChars 10 (decimal bits) 0 = bits := Nat.ofDigitChars_ten_toDigits
  unfold parseBitLength
  rw [fold, value]
  exact if_pos (by omega)

theorem name_ne {domain : WidthDomain} {bits : ℕ} :
    String.ofList (domain.name bits) ≠ "bool" ∧ String.ofList (domain.name bits) ≠ "byte" ∧
      String.ofList (domain.name bits) ≠ "utf8" := by
  have different {word : String} (other : domain.name bits ≠ word.toList) :
      String.ofList (domain.name bits) ≠ word := by
    intro same
    apply other
    rw [← same, String.toList_ofList]
  refine ⟨different ?_, different ?_, different ?_⟩
  · intro same
    cases domain <;> cases same
  · intro same
    cases domain <;> cases same
  · intro same
    cases domain <;> cases same

/-- **A printed name of a domain and a width stands for its type.** -/
theorem parseNamedScalar_name (mode : CastMode) {domain : WidthDomain} {bits : ℕ}
    (valid : validateBitLength domain bits = none) :
    parseNamedScalar mode (.ofList (domain.name bits)) =
      some (.ok (scalarOfWidth mode domain bits)) := by
  have range := validateBitLength_range valid
  have parsed : parseWidth mode domain (decimal bits) = .ok (scalarOfWidth mode domain bits) := by
    unfold parseWidth
    rw [parseBitLength_decimal range.2]
    dsimp only
    rw [valid]
  have ⟨notBool, notByte, notUtf8⟩ := @name_ne domain bits
  unfold parseNamedScalar
  rw [if_neg notBool, if_neg notByte, if_neg notUtf8]
  cases domain with
  | signedInteger =>
      rw [widthOf_other (by decide), widthOf_other (by decide), widthOf_name range.1]
      dsimp only
      rw [parsed]
  | unsignedInteger =>
      rw [widthOf_other (by decide), widthOf_name range.1]
      dsimp only
      rw [parsed]
  | float =>
      rw [widthOf_other (by decide), widthOf_other (by decide), widthOf_other (by decide),
        widthOf_name range.1]
      dsimp only
      rw [parsed]
  | void =>
      rw [widthOf_name range.1]
      dsimp only
      rw [parsed]

theorem isCastable_name {domain : WidthDomain} (notVoid : domain ≠ .void) {bits : ℕ}
    (positive : 0 < bits) : isCastable (.ofList (domain.name bits)) = true := by
  have own : (widthOf domain (.ofList (domain.name bits))).isSome = true := by
    rw [widthOf_name positive]
    rfl
  unfold isCastable
  cases domain with
  | signedInteger => rw [own, Bool.or_true, Bool.true_or]
  | unsignedInteger => rw [own, Bool.true_or, Bool.true_or]
  | float => rw [own, Bool.or_true]
  | void => exact absurd rfl notVoid

/-- What a name stands for is one of the types that are printed by a name. -/
theorem parseNamedScalar_shape {mode : CastMode} {name : String} {scalar : ScalarTypeExprAST}
    (isType : parseNamedScalar mode name = some (.ok scalar)) :
    (name = "bool" ∧ scalar = .primitive ⟨.bool, mode, 1⟩) ∨
      scalar = .primitive ⟨.byte, .truncated, 8⟩ ∨ scalar = .primitive ⟨.utf8, .truncated, 8⟩ ∨
        ∃ domain bits, validateBitLength domain bits = none ∧
          scalar = scalarOfWidth mode domain bits := by
  have ofWidth {domain : WidthDomain} {digits : List Char}
      (parsed : some (parseWidth mode domain digits) = some (.ok scalar)) :
      ∃ domain bits, validateBitLength domain bits = none ∧
        scalar = scalarOfWidth mode domain bits := by
    have inner := Option.some.inj parsed
    unfold parseWidth at inner
    split at inner
    · cases inner
    · rename_i bits _
      split at inner
      · cases inner
      · rename_i valid
        cases inner
        exact ⟨domain, bits, valid, rfl⟩
  unfold parseNamedScalar at isType
  split at isType
  · rename_i isBool
    cases isType
    exact Or.inl ⟨isBool, rfl⟩
  · split at isType
    · cases isType
      exact Or.inr (Or.inl rfl)
    · split at isType
      · cases isType
        exact Or.inr (Or.inr (Or.inl rfl))
      · right
        right
        right
        split at isType
        · exact ofWidth isType
        · exact ofWidth isType
        · exact ofWidth isType
        · exact ofWidth isType
        · cases isType

variable {file : String}

theorem isNameText_name (domain : WidthDomain) (bits : ℕ) :
    isNameText (domain.name bits) = true := by
  have word : isWord (domain.name bits) = true := by
    have digits : (decimal bits).all isIdentifierCharacter = true :=
      List.all_eq_true.mpr fun c member => isWord_of_isDigit (isDigit_of_mem_decimal member)
    have stem : domain.stem.all isIdentifierCharacter = true := by
      cases domain <;> decide
    have all : (domain.name bits).all isIdentifierCharacter = true := by
      unfold WidthDomain.name
      rw [List.all_append, stem, digits]
      rfl
    have starts : ∃ c more, domain.name bits = c :: more ∧ c.isAlpha = true := by
      cases domain <;> exact ⟨_, _, rfl, by decide⟩
    have ⟨c, more, same, isAlpha⟩ := starts
    rw [same] at all ⊢
    unfold isWord
    dsimp only
    rw [all, isAlpha]
    rfl
  have notTrue : domain.name bits ≠ "true".toList := by
    intro same
    cases domain <;> cases same
  have notFalse : domain.name bits ≠ "false".toList := by
    intro same
    cases domain <;> cases same
  unfold isNameText
  rw [word, decide_eq_true notTrue, decide_eq_true notFalse]
  rfl

theorem named_reprints {text : List Char} {scalar : ScalarTypeExprAST}
    (isName : isNameText text = true)
    (isType : parseNamedScalar .saturated (.ofList text) = some (.ok scalar)) {rest : List Char}
    (delimited : Delimited rest) (line column : UInt32) :
    ∃ tokens line' column',
      Lexed file ⟨text ++ rest, line, column⟩ tokens ⟨rest, line', column'⟩ ∧
        ScalarType tokens scalar :=
  ⟨_, _, _, lexed_name isName delimited.endsWord line column, .named rfl isType⟩

theorem cast_reprints (mode : CastMode) {domain : WidthDomain} (notVoid : domain ≠ .void)
    {bits : ℕ} (valid : validateBitLength domain bits = none) {rest : List Char}
    (delimited : Delimited rest) (line column : UInt32) :
    ∃ tokens line' column',
      Lexed file ⟨mode.str ++ domain.name bits ++ rest, line, column⟩ tokens
          ⟨rest, line', column'⟩ ∧
        ScalarType tokens (scalarOfWidth mode domain bits) := by
  have castable := isCastable_name notVoid (validateBitLength_range valid).1
  have isType := parseNamedScalar_name mode valid
  have spaced : EndsWord (' ' :: (domain.name bits ++ rest)) := by
    intro c after same
    rw [← (List.cons.inj same).1]
    decide
  have name (at_ : UInt32) := @lexed_name file (domain.name bits) rest (isNameText_name domain bits)
    delimited.endsWord line at_
  cases mode with
  | saturated =>
      have cast := @lexed_name file "saturated".toList _ (by decide) spaced line column
      have whole := (cast.trans (lexed_space _ _ _)).trans (name _)
      exact ⟨_, _, _, whole, .cast ⟨rfl, Or.inl ⟨rfl, rfl⟩⟩ rfl castable isType⟩
  | truncated =>
      have cast := @lexed_name file "truncated".toList _ (by decide) spaced line column
      have whole := (cast.trans (lexed_space _ _ _)).trans (name _)
      exact ⟨_, _, _, whole, .cast ⟨rfl, Or.inr ⟨rfl, rfl⟩⟩ rfl castable isType⟩

theorem nameTail_parts {last : Token} {used : List Token} {components : List String}
    {version : ℕ × ℕ} (good : ∀ token ∈ used, WellSpelled token)
    (tail : NameTail last used components version) :
    (∀ name ∈ components, isNameText name.toList = true) ∧ version.1 < 2 ^ 32 ∧
      version.2 < 2 ^ 32 := by
  have small (value : ℕ) : value % 2 ^ 32 < 2 ^ 32 := Nat.mod_lt value (by decide)
  induction tail with
  | integers isDot touches ahead isVersion =>
      refine ⟨fun name member => (List.not_mem_nil member).elim, ?_⟩
      unfold versionOfIntegers at isVersion
      split at isVersion
      · split at isVersion
        · cases isVersion
          exact ⟨small _, small _⟩
        · cases isVersion
      · cases isVersion
  | real isDot touches isReal isVersion =>
      refine ⟨fun name member => (List.not_mem_nil member).elim, ?_⟩
      unfold versionOfReal parseVersionTokenAsMajorMinor at isVersion
      dsimp only at isVersion
      split at isVersion
      · split at isVersion
        · cases isVersion
        · split at isVersion
          · cases isVersion
          · split at isVersion
            · cases isVersion
              exact ⟨small _, small _⟩
            · cases isVersion
      · cases isVersion
  | @component last dot name used components version isDot touches isName nameTouches tail
      ih =>
      have later := ih fun token member =>
        good token (List.mem_cons_of_mem _ (List.mem_cons_of_mem _ member))
      refine ⟨fun other member => ?_, later.2⟩
      rcases List.mem_cons.mp member with same | member
      · rw [same]
        exact (good name (List.mem_cons_of_mem _ List.mem_cons_self)).name isName
      · exact later.1 other member

theorem tokensAdjacent_of_ends {last : Token} {line column : UInt32} {rest text : List Char}
    {kind : TokenKind} (isLine : last.location.line = line)
    (isColumn : last.location.column + columns last.text.toList = column) :
    tokensAdjacent last (tokenAt file ⟨rest, line, column⟩ kind text) = true := by
  unfold tokensAdjacent tokenAt
  dsimp only
  rw [isLine, isColumn, decide_eq_true rfl, decide_eq_true rfl]
  rfl

theorem dot_touches {rest after text : List Char} {kind : TokenKind} (line column : UInt32) :
    tokensAdjacent (tokenAt file ⟨rest, line, column⟩ .dot ['.'])
      (tokenAt file ⟨after, line, column + 1⟩ kind text) = true := by
  apply tokensAdjacent_of_ends rfl
  show column + columns (String.ofList ['.']).toList = column + 1
  rw [String.toList_ofList]
  rfl

theorem nameTail_reprints {components : List String} {major minor : ℕ}
    (names : ∀ name ∈ components, isNameText name.toList = true) (majorFits : major < 2 ^ 32)
    (minorFits : minor < 2 ^ 32) {rest : List Char} (delimited : Delimited rest) {last : Token}
    {line column : UInt32} (isLine : last.location.line = line)
    (isColumn : last.location.column + columns last.text.toList = column) :
    ∃ tokens column',
      Lexed file ⟨nameTailStr components major minor ++ rest, line, column⟩ tokens
          ⟨rest, line, column'⟩ ∧
        NameTail last tokens components (major, minor) := by
  induction components generalizing last column with
  | nil =>
      have dot := @lexed_bracket file '.' .dot (by decide) (versionText major minor ++ rest) line
        column
      have whole := dot.trans (lexed_version major minor delimited line (column + 1))
      have touches := @tokensAdjacent_of_ends file last line column
        ('.' :: (versionText major minor ++ rest)) ['.'] .dot isLine isColumn
      have isVersion : versionOfReal (tokenAt file ⟨[], line, column⟩ .dot ['.'])
          (tokenAt file ⟨[], line, column + 1⟩ .real (versionText major minor)) =
            some (major, minor) := by
        unfold versionOfReal
        rw [dot_touches, if_pos rfl]
        show parseVersionTokenAsMajorMinor (.ofList (versionText major minor)) = _
        exact parseVersionTokenAsMajorMinor_decimal majorFits minorFits
      have text : nameTailStr [] major minor ++ rest =
          '.' :: (versionText major minor ++ rest) := rfl
      rw [text]
      exact ⟨_, _, whole, .real rfl touches rfl isVersion⟩
  | cons name components ih =>
      have isName := names name List.mem_cons_self
      have ends : EndsWord (nameTailStr components major minor ++ rest) := by
        intro c after same
        have isPoint : c = '.' := by
          cases components with
          | nil => exact (List.cons.inj same).1.symm
          | cons _ _ => exact (List.cons.inj same).1.symm
        rw [isPoint]
        decide
      have dot := @lexed_bracket file '.' .dot (by decide)
        (name.toList ++ (nameTailStr components major minor ++ rest)) line column
      have named := @lexed_name file name.toList _ isName ends line (column + 1)
      have text : nameTailStr (name :: components) major minor ++ rest =
          '.' :: (name.toList ++ (nameTailStr components major minor ++ rest)) := by
        rw [nameTailStr, List.cons_append, List.append_assoc]
      have ended : (tokenAt file ⟨[], line, column + 1⟩ .identifier name.toList).location.column +
          columns (tokenAt file ⟨[], line, column + 1⟩ .identifier name.toList).text.toList =
            column + 1 + columns name.toList := by
        show column + 1 + columns (String.ofList name.toList).toList = _
        rw [String.toList_ofList]
      have ⟨tokens, column', lexed, tail⟩ := ih
        (fun other member => names other (List.mem_cons_of_mem _ member)) rfl ended
      have spelled : (tokenAt file ⟨[], line, column + 1⟩ .identifier name.toList).text = name :=
        String.ofList_toList
      have touches := @tokensAdjacent_of_ends file last line column [] ['.'] .dot isLine isColumn
      have component := NameTail.component rfl touches rfl (dot_touches line column) tail
      rw [spelled] at component
      rw [text]
      exact ⟨_, column', (dot.trans named).trans lexed, component⟩

/-- A text that an operator of one character may come before. -/
def OpensText (text : List Char) : Prop :=
  ∃ c more, text = c :: more ∧ c ≠ '=' ∧ c ≠ '-'

theorem OpensText.opensOperand {text : List Char} (opens : OpensText text) (rest : List Char) :
    OpensOperand (text ++ rest) := by
  have ⟨c, more, same, plain⟩ := opens
  intro c' after isNext
  rw [same, List.cons_append] at isNext
  rw [← (List.cons.inj isNext).1]
  exact plain

theorem OpensText.append {text : List Char} (opens : OpensText text) (more : List Char) :
    OpensText (text ++ more) := by
  have ⟨c, others, same, plain⟩ := opens
  exact ⟨c, others ++ more, congrArg (· ++ more) same, plain⟩

theorem opensText_word {text : List Char} (word : isWord text = true) : OpensText text := by
  cases text with
  | nil => cases word
  | cons c more =>
      have all := List.all_eq_true.mp (Bool.and_eq_true_iff.mp word).2
      have character := all c List.mem_cons_self
      exact ⟨c, more, rfl, isIdentifierCharacter_ne character (by decide),
        isIdentifierCharacter_ne character (by decide)⟩

theorem isWord_of_isNameText {text : List Char} (isName : isNameText text = true) :
    isWord text = true := by
  unfold isNameText at isName
  rw [Bool.and_eq_true, Bool.and_eq_true] at isName
  exact isName.1.1

/-- A scalar whose printed form is read back as it. -/
structure ScalarReprints (file : String) (scalar : ScalarTypeExprAST) : Prop where
  opens : OpensText scalar.str
  reads : ∀ rest, Delimited rest → ∀ line column, ∃ tokens line' column',
    Lexed file ⟨scalar.str ++ rest, line, column⟩ tokens ⟨rest, line', column'⟩ ∧
      ScalarType tokens scalar

theorem reprints_named {text : List Char} {scalar : ScalarTypeExprAST}
    (isName : isNameText text = true) (printed : scalar.str = text)
    (isType : parseNamedScalar .saturated (.ofList text) = some (.ok scalar)) :
    ScalarReprints file scalar := by
  refine ⟨?_, fun rest delimited line column => ?_⟩
  · rw [printed]
    exact opensText_word (isWord_of_isNameText isName)
  · rw [printed]
    exact named_reprints isName isType delimited line column

/-- A type of a domain and a width is printed by its name, after its cast mode. -/
theorem reprints_width (mode : CastMode) {domain : WidthDomain} {bits : ℕ}
    (valid : validateBitLength domain bits = none) :
    ScalarReprints file (scalarOfWidth mode domain bits) := by
  by_cases isVoid : domain = .void
  · rw [isVoid] at valid ⊢
    exact reprints_named (isNameText_name .void bits) rfl (parseNamedScalar_name .saturated valid)
  · have printed : (scalarOfWidth mode domain bits).str = mode.str ++ domain.name bits := by
      cases domain with
      | void => exact absurd rfl isVoid
      | signedInteger => rfl
      | unsignedInteger => rfl
      | float => rfl
    refine ⟨?_, fun rest delimited line column => ?_⟩
    · rw [printed]
      apply OpensText.append
      cases mode with
      | saturated => exact ⟨_, _, rfl, by decide, by decide⟩
      | truncated => exact ⟨_, _, rfl, by decide, by decide⟩
    · rw [printed]
      exact cast_reprints mode isVoid valid delimited line column

theorem reprints_versioned {name : String} {components : List String} {major minor : ℕ}
    (isName : isNameText name.toList = true)
    (isOther : parseNamedScalar .saturated name = none)
    (names : ∀ name ∈ components, isNameText name.toList = true) (majorFits : major < 2 ^ 32)
    (minorFits : minor < 2 ^ 32) :
    ScalarReprints file (.versioned ⟨name :: components, major, minor⟩) := by
  have printed : (ScalarTypeExprAST.versioned ⟨name :: components, major, minor⟩).str =
      name.toList ++ nameTailStr components major minor := rfl
  refine ⟨?_, fun rest delimited line column => ?_⟩
  · rw [printed]
    exact (opensText_word (isWord_of_isNameText isName)).append _
  · have ends : EndsWord (nameTailStr components major minor ++ rest) := by
      intro c after same
      have isPoint : c = '.' := by
        cases components with
        | nil => exact (List.cons.inj same).1.symm
        | cons _ _ => exact (List.cons.inj same).1.symm
      rw [isPoint]
      decide
    have named := @lexed_name file name.toList _ isName ends line column
    have ended : (tokenAt file ⟨[], line, column⟩ .identifier name.toList).location.column +
        columns (tokenAt file ⟨[], line, column⟩ .identifier name.toList).text.toList =
          column + columns name.toList := by
      show column + columns (String.ofList name.toList).toList = _
      rw [String.toList_ofList]
    have ⟨tokens, column', lexed, tail⟩ := @nameTail_reprints file components major minor names
      majorFits minorFits rest delimited _ line _ rfl ended
    have spelled : (tokenAt file ⟨[], line, column⟩ .identifier name.toList).text = name :=
      String.ofList_toList
    have isOther' : parseNamedScalar .saturated
        (tokenAt file ⟨[], line, column⟩ .identifier name.toList).text = none := by
      rw [spelled]
      exact isOther
    have versioned := ScalarType.versioned rfl isOther' tail
    rw [spelled] at versioned
    rw [printed, List.append_assoc]
    exact ⟨_, line, column', named.trans lexed, versioned⟩

/-- **A scalar of the grammar is read back from its printed form.** -/
theorem scalarType_reprints {used : List Token} {scalar : ScalarTypeExprAST}
    (good : ∀ token ∈ used, WellSpelled token) (derived : ScalarType used scalar) :
    ScalarReprints file scalar := by
  cases derived with
  | named isName isType =>
      rcases parseNamedScalar_shape isType with ⟨_, rfl⟩ | rfl | rfl | ⟨domain, bits, valid, rfl⟩
      · exact reprints_named (by decide) rfl rfl
      · exact reprints_named (by decide) rfl rfl
      · exact reprints_named (by decide) rfl rfl
      · exact reprints_width _ valid
  | cast _ _ castable isType =>
      rcases parseNamedScalar_shape isType with ⟨isBool, rfl⟩ | rfl | rfl | ⟨domain, bits, valid, rfl⟩
      · have never : isCastable "bool" = false := by decide
        rw [isBool, never] at castable
        cases castable
      · exact reprints_named (by decide) rfl rfl
      · exact reprints_named (by decide) rfl rfl
      · exact reprints_width _ valid
  | versioned isName isOther tail =>
      have parts := nameTail_parts (fun token member => good token (List.mem_cons_of_mem _ member))
        tail
      exact reprints_versioned ((good _ List.mem_cons_self).name isName) isOther parts.1 parts.2.1
        parts.2.2

end LlvmDsdl.Frontend
