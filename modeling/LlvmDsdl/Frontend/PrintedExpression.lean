import LlvmDsdl.Frontend.PrintedType

/-!
Contract: a printed expression is read back as that expression.

Owns: what an atom derives at every precedence level, the reading of every printed
form from the readings of its parts, and that every expression of a lexed text whose
literals print as they are written is read back.

A printed form is an atom: operators are printed inside parentheses. It is read back in
every delimited context, with other locations.
-/

namespace LlvmDsdl.Frontend

open Support Library.Parsing

section Levels

variable {derives : Derives} {used right : List Token} {value lhs rhs : ExprAST} {token : Token}

theorem Atom.exponential (atom : Atom derives used value) : Exponential derives used value :=
  .bare (.bare atom)

theorem Exponential.comparison (derived : Exponential derives used value) :
    Comparison derives used value :=
  .single (.single (.single (.single (.bare derived))))

theorem Comparison.logical (derived : Comparison derives used value) :
    Logical derives used value :=
  .single (.bare derived)

theorem Atom.logical (atom : Atom derives used value) : Logical derives used value :=
  atom.exponential.comparison.logical

theorem binaryOperator_of_kind {op : BinaryOp} {kinds : List TokenKind}
    (isKind : token.kind = binaryOpKind op) (member : binaryOpKind op ∈ kinds) :
    binaryOperator kinds token = some (.binary token.location op) := by
  unfold binaryOperator
  rw [isKind, if_pos member]
  cases op <;> rfl

theorem Atom.multiplicative (left : Atom derives used lhs) (atom : Atom derives right rhs)
    {op : BinaryOp} (isKind : token.kind = binaryOpKind op)
    (member : binaryOpKind op ∈ multiplicativeKinds) :
    Multiplicative derives (used ++ token :: right) (.binary token.location op lhs rhs) :=
  .more (.single (.bare left.exponential)) (binaryOperator_of_kind isKind member)
    (.bare atom.exponential)

theorem Atom.additive (left : Atom derives used lhs) (atom : Atom derives right rhs)
    {op : BinaryOp} (isKind : token.kind = binaryOpKind op)
    (member : binaryOpKind op ∈ additiveKinds) :
    Additive derives (used ++ token :: right) (.binary token.location op lhs rhs) :=
  .more (.single (.single (.bare left.exponential))) (binaryOperator_of_kind isKind member)
    (.single (.bare atom.exponential))

theorem Atom.bitwise (left : Atom derives used lhs) (atom : Atom derives right rhs)
    {op : BinaryOp} (isKind : token.kind = binaryOpKind op)
    (member : binaryOpKind op ∈ bitwiseKinds) :
    Bitwise derives (used ++ token :: right) (.binary token.location op lhs rhs) :=
  .more (.single (.single (.single (.bare left.exponential))))
    (binaryOperator_of_kind isKind member) (.single (.single (.bare atom.exponential)))

theorem Atom.compared (left : Atom derives used lhs) (atom : Atom derives right rhs)
    {op : BinaryOp} (isKind : token.kind = binaryOpKind op)
    (member : binaryOpKind op ∈ comparisonKinds) :
    Comparison derives (used ++ token :: right) (.binary token.location op lhs rhs) :=
  .more (.single (.single (.single (.single (.bare left.exponential)))))
    (binaryOperator_of_kind isKind member) (.single (.single (.single (.bare atom.exponential))))

theorem Atom.joined (left : Atom derives used lhs) (atom : Atom derives right rhs)
    {op : BinaryOp} (isKind : token.kind = binaryOpKind op)
    (member : binaryOpKind op ∈ logicalKinds) :
    Logical derives (used ++ token :: right) (.binary token.location op lhs rhs) :=
  .more left.logical (binaryOperator_of_kind isKind member)
    (.bare atom.exponential.comparison)

theorem binaryOpKind_level (op : BinaryOp) :
    op = .attribute ∨ op = .pow ∨ binaryOpKind op ∈ multiplicativeKinds ∨
      binaryOpKind op ∈ additiveKinds ∨ binaryOpKind op ∈ bitwiseKinds ∨
        binaryOpKind op ∈ comparisonKinds ∨ binaryOpKind op ∈ logicalKinds := by
  cases op <;> decide

theorem Atom.binary (left : Atom derives used lhs) (atom : Atom derives right rhs)
    {op : BinaryOp} (isKind : token.kind = binaryOpKind op) (notAttribute : op ≠ .attribute) :
    Logical derives (used ++ token :: right) (.binary token.location op lhs rhs) := by
  rcases binaryOpKind_level op with same | same | member | member | member | member | member
  · exact absurd same notAttribute
  · rw [same] at isKind ⊢
    have isPower := @binaryOperator_of_kind token .pow [.starStar] isKind (by decide)
    have raised : Exponential derives (used ++ token :: right)
        (.binary token.location .pow lhs rhs) :=
      .raised (.bare left) isPower (.bare (.bare atom))
    exact raised.comparison.logical
  · exact .single (.bare (.single (.single (.single (left.multiplicative atom isKind member)))))
  · exact .single (.bare (.single (.single (left.additive atom isKind member))))
  · exact .single (.bare (.single (left.bitwise atom isKind member)))
  · exact .single (.bare (left.compared atom isKind member))
  · exact left.joined atom isKind member

theorem Atom.unary (atom : Atom derives used value) {op : UnaryOp}
    (isKind : token.kind = unaryOpKind op) :
    Logical derives (token :: used) (.unary token.location op value) := by
  cases op with
  | plus =>
      have isSign : signOperator token = some (.unary token.location .plus) := if_pos isKind
      exact .single (.bare (.single (.single (.single (.single (.under isSign
        atom.exponential))))))
  | minus =>
      have isSign : signOperator token = some (.unary token.location .minus) := by
        unfold signOperator
        rw [isKind]
        rfl
      exact .single (.bare (.single (.single (.single (.single (.under isSign
        atom.exponential))))))
  | logicalNot =>
      have isNot : notOperator token = some (.unary token.location .logicalNot) := if_pos isKind
      exact .single (.under isNot (.bare atom.exponential.comparison))

theorem Atom.attribute (atom : Atom derives used value) {name : Token}
    (isDot : token.kind = .dot) (isName : name.kind = .identifier)
    (free : ¬TrailingPoint used token) :
    Logical derives (used ++ [token, name])
      (.binary token.location .attribute value (.identifier name.location name.text)) := by
  have accessed : Exponential derives (used ++ [token, name])
      (.binary token.location .attribute value (.identifier name.location name.text)) :=
    .bare (.access (.bare atom) isDot isName free)
  exact accessed.comparison.logical

end Levels

/-! ### Reading a printed form -/

variable {file : String}

def IntegerEnds (tokens : List Token) (line column : UInt32) : Prop :=
  ∀ token, tokens = [token] → token.kind = .integer →
    token.location.line = line ∧ token.location.column + columns token.text.toList = column

theorem integerEnds_of_kind {token : Token} {more : List Token} {line column : UInt32}
    (notInteger : token.kind ≠ .integer) : IntegerEnds (token :: more) line column := by
  intro other same isInteger
  rw [← (List.cons.inj same).1] at isInteger
  exact absurd isInteger notInteger

/-- A value whose printed form is an atom that is read back as it. -/
structure Reprints (file : String) (value : ExprAST) : Prop where
  opens : OpensText value.str
  reads : ∀ rest, Delimited rest → ∀ line column, ∃ tokens other line' column',
    Lexed file ⟨value.str ++ rest, line, column⟩ tokens ⟨rest, line', column'⟩ ∧
      Atom (Derivation value.nesting) tokens other ∧ other.unlocated = value.unlocated ∧
        IntegerEnds tokens line' column'

/-- A form in parentheses is read back when its inside is an expression. -/
theorem reprints_parenthesised {value : ExprAST} {text : List Char}
    (printed : value.str = '(' :: (text ++ [')']))
    (inside : ∀ rest line column, ∃ tokens other line' column',
      Lexed file ⟨text ++ ')' :: rest, line, column⟩ tokens ⟨')' :: rest, line', column'⟩ ∧
        Derivation value.nesting tokens other ∧ other.unlocated = value.unlocated) :
    Reprints file value := by
  refine ⟨⟨_, _, printed, by decide, by decide⟩, fun rest _ line column => ?_⟩
  have ⟨tokens, other, line', column', lexed, derived, same⟩ := inside rest line (column + 1)
  have opening := @lexed_bracket file '(' .lParen (by decide) (text ++ ')' :: rest) line column
  have closing := @lexed_bracket file ')' .rParen (by decide) rest line' column'
  have notInteger : TokenKind.lParen ≠ .integer := by decide
  have whole : value.str ++ rest = '(' :: (text ++ ')' :: rest) := by
    rw [printed]
    simp only [List.append_assoc, List.cons_append, List.nil_append]
  rw [whole]
  exact ⟨_, other, line', column' + 1, (opening.trans lexed).trans closing,
    .parenthesised rfl derived rfl, same, integerEnds_of_kind notInteger⟩

theorem reprints_unary {location : SourceLocation} {op : UnaryOp} {operand : ExprAST}
    (inner : Reprints file operand) : Reprints file (.unary location op operand) := by
  have printed : (ExprAST.unary location op operand).str =
      '(' :: ((unaryOpToString op ++ operand.str) ++ [')']) := by
    rw [ExprAST.str, List.append_assoc]
  apply reprints_parenthesised printed
  intro rest line column
  have ⟨tokens, other, line', column', lexed, atom, same, _⟩ :=
    inner.reads (')' :: rest) (delimited_cons (by decide) rest) line (column + 1)
  have operator := @lexed_unaryOp file op _ (inner.opens.opensOperand (')' :: rest)) line column
  have derived := @Atom.unary _ _ _
    (tokenAt file ⟨[], line, column⟩ (unaryOpKind op) (unaryOpToString op)) atom op rfl
  refine ⟨_, _, line', column', ?_, derived, ?_⟩
  · rw [List.append_assoc]
    exact operator.trans lexed
  · rw [ExprAST.unlocated, ExprAST.unlocated, same]

theorem lexed_between (op : BinaryOp) (rest : List Char) (line column : UInt32) :
    ∃ column', Lexed file ⟨' ' :: (binaryOpToString op ++ ' ' :: rest), line, column⟩
      [tokenAt file ⟨[], line, column + 1⟩ (binaryOpKind op) (binaryOpToString op)]
      ⟨rest, line, column'⟩ := by
  have ⟨column', operator⟩ := @lexed_binaryOp file op rest line (column + 1)
  have before := @lexed_space file (binaryOpToString op ++ ' ' :: rest) line column
  exact ⟨column' + 1, (before.trans operator).trans (lexed_space _ _ _)⟩

theorem printed_binary (location : SourceLocation) (op : BinaryOp) (lhs rhs : ExprAST) :
    (ExprAST.binary location op lhs rhs).str =
      '(' :: ((lhs.str ++ ' ' :: (binaryOpToString op ++ ' ' :: rhs.str)) ++ [')']) := by
  rw [ExprAST.str]
  simp only [List.append_assoc, List.cons_append]

theorem derivation_of_atom_mono {nesting deeper : ℕ} (less : nesting ≤ deeper)
    {tokens : List Token} {value : ExprAST} (atom : Atom (Derivation nesting) tokens value) :
    Atom (Derivation deeper) tokens value :=
  atom.mono fun _ _ derived => derivation_mono less derived

theorem reprints_binary {location : SourceLocation} {op : BinaryOp} {lhs rhs : ExprAST}
    (notAttribute : op ≠ .attribute) (left : Reprints file lhs) (right : Reprints file rhs) :
    Reprints file (.binary location op lhs rhs) := by
  apply reprints_parenthesised (printed_binary location op lhs rhs)
  intro rest line column
  have ⟨leftTokens, leftOther, line₁, column₁, leftLexed, leftAtom, leftSame, _⟩ :=
    left.reads (' ' :: (binaryOpToString op ++ ' ' :: (rhs.str ++ ')' :: rest)))
      (delimited_cons (by decide) _) line column
  have ⟨column₂, between⟩ := @lexed_between file op (rhs.str ++ ')' :: rest) line₁ column₁
  have ⟨rightTokens, rightOther, line₃, column₃, rightLexed, rightAtom, rightSame, _⟩ :=
    right.reads (')' :: rest) (delimited_cons (by decide) _) line₁ column₂
  have derived := @Atom.binary _ _ _ _ _
    (tokenAt file ⟨[], line₁, column₁ + 1⟩ (binaryOpKind op) (binaryOpToString op))
    (derivation_of_atom_mono (Nat.le_max_left lhs.nesting rhs.nesting) leftAtom)
    (derivation_of_atom_mono (Nat.le_max_right lhs.nesting rhs.nesting) rightAtom) op rfl
    notAttribute
  refine ⟨_, _, line₃, column₃, ?_, derived, ?_⟩
  · have text : lhs.str ++ ' ' :: (binaryOpToString op ++ ' ' :: rhs.str) ++ ')' :: rest =
        lhs.str ++ ' ' :: (binaryOpToString op ++ ' ' :: (rhs.str ++ ')' :: rest)) := by
      simp only [List.append_assoc, List.cons_append]
    rw [text]
    exact leftLexed.trans (between.trans rightLexed)
  · rw [ExprAST.unlocated, ExprAST.unlocated, leftSame, rightSame]

theorem reprints_attribute {location nameLocation : SourceLocation} {lhs : ExprAST}
    {name : String} (isName : isNameText name.toList = true) (left : Reprints file lhs) :
    Reprints file (.binary location .attribute lhs (.identifier nameLocation name)) := by
  apply reprints_parenthesised (printed_binary location .attribute lhs _)
  intro rest line column
  have ⟨tokens, other, line₁, column₁, lexed, atom, same, ends⟩ :=
    left.reads (' ' :: ('.' :: ' ' :: (name.toList ++ ')' :: rest)))
      (delimited_cons (by decide) _) line column
  have ⟨column₂, between⟩ := @lexed_between file .attribute (name.toList ++ ')' :: rest) line₁
    column₁
  have delimited : Delimited (')' :: rest) := delimited_cons (by decide) rest
  have named := @lexed_name file name.toList _ isName delimited.endsWord line₁ column₂
  have spelled : (tokenAt file ⟨[], line₁, column₂⟩ .identifier name.toList).text = name :=
    String.ofList_toList
  -- the space before the point keeps it from ending an integer
  have free : ¬TrailingPoint tokens (tokenAt file ⟨[], line₁, column₁ + 1⟩ .dot ['.']) := by
    intro ⟨token, single, isInteger, _, _, touches⟩
    have ended := ends token single isInteger
    unfold tokensAdjacent at touches
    rw [Bool.and_eq_true, decide_eq_true_eq, decide_eq_true_eq, ended.2] at touches
    have apart : column₁ + 1 = column₁ := touches.2
    exact absurd (left_eq_add.mp apart.symm) (by decide)
  have derived := @Atom.attribute _ _ _ _ atom
    (tokenAt file ⟨[], line₁, column₂⟩ .identifier name.toList) rfl rfl free
  rw [spelled] at derived
  have nesting : (ExprAST.binary location .attribute lhs (.identifier nameLocation name)).nesting =
      lhs.nesting + 1 := by
    rw [ExprAST.nesting, ExprAST.nesting, Nat.max_zero]
  rw [nesting]
  refine ⟨_, _, line₁, column₂ + columns name.toList, ?_, derived, ?_⟩
  · have text : lhs.str ++ ' ' :: (binaryOpToString .attribute ++ ' ' ::
        (ExprAST.identifier nameLocation name).str) ++ ')' :: rest =
          lhs.str ++ ' ' :: ('.' :: ' ' :: (name.toList ++ ')' :: rest)) := by
      rw [ExprAST.str]
      simp only [binaryOpToString, List.append_assoc, List.cons_append, List.nil_append]
    rw [text]
    have whole := lexed.trans (between.trans named)
    exact whole
  · rw [ExprAST.unlocated, ExprAST.unlocated, ExprAST.unlocated, ExprAST.unlocated, same]

/-! ### Literals, sets and types -/

theorem reprints_boolean (location : SourceLocation) (value : Bool) :
    Reprints file (.boolean location value) := by
  have word : isWord "true".toList = true ∧ isWord "false".toList = true := by decide
  cases value with
  | true =>
      have printed : (ExprAST.boolean location true).str = "true".toList := by
        rw [ExprAST.str, if_pos rfl]
      refine ⟨?_, fun rest delimited line column => ?_⟩
      · rw [printed]
        exact opensText_word word.1
      · have lexed := @lexed_word file _ rest word.1 delimited.endsWord line column
        have notInteger : TokenKind.trueKeyword ≠ .integer := by decide
        rw [printed]
        exact ⟨_, _, _, _, lexed, .trueKeyword rfl, rfl, integerEnds_of_kind notInteger⟩
  | false =>
      have printed : (ExprAST.boolean location false).str = "false".toList := by
        rw [ExprAST.str, if_neg Bool.false_ne_true]
      refine ⟨?_, fun rest delimited line column => ?_⟩
      · rw [printed]
        exact opensText_word word.2
      · have lexed := @lexed_word file _ rest word.2 delimited.endsWord line column
        have notInteger : TokenKind.falseKeyword ≠ .integer := by decide
        rw [printed]
        exact ⟨_, _, _, _, lexed, .falseKeyword rfl, rfl, integerEnds_of_kind notInteger⟩

theorem reprints_integer (location : SourceLocation) {value : ℕ} (fits : value < 2 ^ 64) :
    Reprints file (.rational location (.ofInteger value)) := by
  have printed : (ExprAST.rational location (.ofInteger value)).str = decimal value := by
    rw [ExprAST.str]
    unfold Rational.str
    rw [if_pos (Rational.denominator_ofInteger _), Rational.numerator_ofInteger]
    show (Nat.repr value).toList = _
    exact Nat.toList_repr
  refine ⟨?_, fun rest delimited line column => ?_⟩
  · rw [printed]
    cases same : decimal value with
    | nil => exact absurd same (decimal_ne_nil value)
    | cons c more =>
        have isDigit : c.isDigit = true := by
          apply @isDigit_of_mem_decimal value
          rw [same]
          exact List.mem_cons_self
        exact ⟨c, more, rfl, isDigit_ne isDigit (by decide), isDigit_ne isDigit (by decide)⟩
  · have lexed := @lexed_integer file value rest delimited line column
    have isLiteral := parseIntegerLiteral_decimal fits
    rw [printed]
    refine ⟨_, _, _, _, lexed, .integer rfl isLiteral, ?_, ?_⟩
    · rw [ExprAST.unlocated, ExprAST.unlocated]
    · intro token single _
      rw [← (List.cons.inj single).1]
      refine ⟨rfl, ?_⟩
      show column + columns (String.ofList (decimal value)).toList = _
      rw [String.toList_ofList]

theorem reprints_string (location : SourceLocation) {value : String}
    (plain : isPlainText value.toList = true) : Reprints file (.string location value) := by
  have printed : (ExprAST.string location value).str =
      printedQuote :: (value.toList ++ [printedQuote]) := by
    rw [ExprAST.str]
  refine ⟨⟨_, _, printed, by decide, by decide⟩, fun rest _ line column => ?_⟩
  have ⟨line', column', lexed⟩ := @lexed_string file value.toList plain rest line column
  have notInteger : TokenKind.string ≠ .integer := by decide
  have text : (ExprAST.string location value).str ++ rest =
      printedQuote :: (value.toList ++ printedQuote :: rest) := by
    rw [printed, List.cons_append, List.append_assoc, List.singleton_append]
  rw [text]
  refine ⟨_, _, line', column', lexed, .string rfl, ?_, integerEnds_of_kind notInteger⟩
  have spelled : (tokenAt file ⟨[], line, column⟩ .string value.toList).text = value :=
    String.ofList_toList
  rw [ExprAST.unlocated, ExprAST.unlocated, spelled]

theorem reprints_identifier (location : SourceLocation) {name : String}
    (isName : isNameText name.toList = true)
    (isNoType : ∀ scalar, parseNamedScalar .saturated name ≠ some (.ok scalar)) :
    Reprints file (.identifier location name) := by
  have printed : (ExprAST.identifier location name).str = name.toList := by
    rw [ExprAST.str]
  refine ⟨?_, fun rest delimited line column => ?_⟩
  · rw [printed]
    exact opensText_word (isWord_of_isNameText isName)
  · have lexed := @lexed_name file name.toList rest isName delimited.endsWord line column
    have notInteger : TokenKind.identifier ≠ .integer := by decide
    have spelled : (tokenAt file ⟨[], line, column⟩ .identifier name.toList).text = name :=
      String.ofList_toList
    have other : ∀ scalar, parseNamedScalar .saturated
        (tokenAt file ⟨[], line, column⟩ .identifier name.toList).text ≠ some (.ok scalar) := by
      rw [spelled]
      exact isNoType
    rw [printed]
    refine ⟨_, _, _, _, lexed, .identifier rfl other, ?_, integerEnds_of_kind notInteger⟩
    rw [ExprAST.unlocated, ExprAST.unlocated, spelled]

theorem elements_reprint {first : ExprAST} {others : List ExprAST}
    (all : ∀ element ∈ first :: others, Reprints file element) (rest : List Char)
    (line column : UInt32) :
    ∃ tokens items line' column',
      Lexed file ⟨first.str ++ (moreElementsStr others ++ '}' :: rest), line, column⟩ tokens
          ⟨'}' :: rest, line', column'⟩ ∧
        Elements (Derivation (elementsNesting (first :: others))) tokens items ∧
          unlocatedElements items = unlocatedElements (first :: others) := by
  induction others generalizing first line column with
  | nil =>
      have ⟨tokens, other, line', column', lexed, atom, same, _⟩ :=
        (all first List.mem_cons_self).reads ('}' :: rest) (delimited_cons (by decide) rest) line
          column
      have derived : Derivation (elementsNesting [first]) tokens other := by
        rw [elementsNesting, elementsNesting, Nat.max_zero]
        exact atom.logical
      refine ⟨tokens, [other], line', column', ?_, .single derived, ?_⟩
      · rw [moreElementsStr, List.nil_append]
        exact lexed
      · simp only [unlocatedElements, same]
  | cons second others ih =>
      have text : moreElementsStr (second :: others) ++ '}' :: rest =
          ',' :: ' ' :: (second.str ++ (moreElementsStr others ++ '}' :: rest)) := by
        rw [moreElementsStr]
        simp only [List.append_assoc, List.cons_append]
      have ⟨tokens, other, line₁, column₁, lexed, atom, same, _⟩ :=
        (all first List.mem_cons_self).reads
          (',' :: ' ' :: (second.str ++ (moreElementsStr others ++ '}' :: rest)))
          (delimited_cons (by decide) _) line column
      have comma := @lexed_bracket file ',' .comma (by decide)
        (' ' :: (second.str ++ (moreElementsStr others ++ '}' :: rest))) line₁ column₁
      have space := @lexed_space file (second.str ++ (moreElementsStr others ++ '}' :: rest)) line₁
        (column₁ + 1)
      have ⟨later, items, line', column', lexedLater, elements, sameLater⟩ :=
        ih (fun element member => all element (List.mem_cons_of_mem first member))
          line₁ (column₁ + 1 + 1)
      have nesting : elementsNesting (first :: second :: others) =
          max (first.nesting + 1) (elementsNesting (second :: others)) := by
        rw [elementsNesting]
      have derived : Derivation (elementsNesting (first :: second :: others)) tokens other := by
        rw [nesting]
        exact derivation_mono (Nat.le_max_left _ _) atom.logical
      have deeper : Elements (Derivation (elementsNesting (first :: second :: others))) later
          items := by
        rw [nesting]
        exact elements.mono fun _ _ inner => derivation_mono (Nat.le_max_right _ _) inner
      have commaKind : (tokenAt file ⟨[], line₁, column₁⟩ .comma [',']).kind = .comma := rfl
      rw [text]
      refine ⟨_, other :: items, line', column',
        lexed.trans ((comma.trans space).trans lexedLater), .more derived commaKind deeper, ?_⟩
      rw [unlocatedElements, same, sameLater]
      conv_rhs => rw [unlocatedElements]

theorem reprints_setLiteral (location : SourceLocation) {elements : List ExprAST}
    (all : ∀ element ∈ elements, Reprints file element) :
    Reprints file (.setLiteral location elements) := by
  have notInteger : TokenKind.lBrace ≠ .integer := by decide
  cases elements with
  | nil =>
      have printed : (ExprAST.setLiteral location []).str = ['{', '}'] := by
        rw [ExprAST.str]
      refine ⟨⟨_, _, printed, by decide, by decide⟩, fun rest _ line column => ?_⟩
      have opening := @lexed_bracket file '{' .lBrace (by decide) ('}' :: rest) line column
      have closing := @lexed_bracket file '}' .rBrace (by decide) rest line (column + 1)
      rw [printed]
      refine ⟨_, _, _, _, opening.trans closing, .emptySet rfl rfl, ?_,
        integerEnds_of_kind notInteger⟩
      rw [ExprAST.unlocated, ExprAST.unlocated]
  | cons first others =>
      have printed : (ExprAST.setLiteral location (first :: others)).str =
          '{' :: (first.str ++ (moreElementsStr others ++ ['}'])) := by
        rw [ExprAST.str]
      refine ⟨⟨_, _, printed, by decide, by decide⟩, fun rest _ line column => ?_⟩
      have text : (ExprAST.setLiteral location (first :: others)).str ++ rest =
          '{' :: (first.str ++ (moreElementsStr others ++ '}' :: rest)) := by
        rw [printed]
        simp only [List.append_assoc, List.cons_append, List.nil_append]
      have opening := @lexed_bracket file '{' .lBrace (by decide)
        (first.str ++ (moreElementsStr others ++ '}' :: rest)) line column
      have ⟨tokens, items, line', column', lexed, derived, same⟩ :=
        elements_reprint all rest line (column + 1)
      have closing := @lexed_bracket file '}' .rBrace (by decide) rest line' column'
      rw [text, ExprAST.nesting]
      refine ⟨_, _, _, _, (opening.trans lexed).trans closing, .set rfl derived rfl, ?_,
        integerEnds_of_kind notInteger⟩
      rw [ExprAST.unlocated, ExprAST.unlocated, same]

/-- A type whose printed form is read back as it. -/
structure TypeReprints (file : String) (type : TypeExprAST) : Prop where
  opens : OpensText type.str
  reads : ∀ rest, Delimited rest → ∀ line column, ∃ tokens other line' column',
    Lexed file ⟨type.str ++ rest, line, column⟩ tokens ⟨rest, line', column'⟩ ∧
      TypeExpr (Derivation type.nesting) tokens other ∧ other.unlocated = type.unlocated

theorem reprints_typeLiteral (location : SourceLocation) {type : TypeExprAST}
    (inner : TypeReprints file type) : Reprints file (.typeLiteral location type) := by
  have printed : (ExprAST.typeLiteral location type).str = type.str := by
    rw [ExprAST.str]
  refine ⟨?_, fun rest delimited line column => ?_⟩
  · rw [printed]
    exact inner.opens
  · have ⟨tokens, other, line', column', lexed, derived, same⟩ :=
      inner.reads rest delimited line column
    have ⟨first, more, shape, isName⟩ := typeExpr_starts derived
    have notInteger : first.kind ≠ .integer := by
      rw [isName]
      decide
    rw [printed, ExprAST.nesting]
    refine ⟨tokens, _, line', column', lexed, .type derived, ?_, ?_⟩
    · rw [ExprAST.unlocated, ExprAST.unlocated, same]
    · rw [shape]
      exact integerEnds_of_kind notInteger

theorem typeReprints_scalar (location : SourceLocation) {scalar : ScalarTypeExprAST}
    (inner : ScalarReprints file scalar) : TypeReprints file (.mk location scalar .none none) := by
  have printed : (TypeExprAST.mk location scalar .none none).str = scalar.str := by
    rw [TypeExprAST.str]
  refine ⟨?_, fun rest delimited line column => ?_⟩
  · rw [printed]
    exact inner.opens
  · have ⟨tokens, line', column', lexed, derived⟩ := inner.reads rest delimited line column
    rw [printed]
    refine ⟨tokens, _, line', column', lexed, .scalar derived, ?_⟩
    rw [TypeExprAST.unlocated, TypeExprAST.unlocated]

theorem mark_reprints {mark : List Token} {kind : ArrayKind} (marked : ArrayMark mark kind)
    {rest : List Char} (opens : OpensOperand rest) (line column : UInt32) :
    ∃ tokens column', Lexed file ⟨kind.mark ++ rest, line, column⟩ tokens
      ⟨rest, line, column'⟩ ∧ ArrayMark tokens kind := by
  cases marked with
  | fixed => exact ⟨[], column, .refl _, .fixed⟩
  | inclusive _ => exact ⟨_, _, lexed_lessEqual rest line column, .inclusive rfl⟩
  | exclusive _ => exact ⟨_, _, lexed_single (by decide) opens line column, .exclusive rfl⟩

theorem typeReprints_array (location : SourceLocation) {scalar : ScalarTypeExprAST}
    {mark : List Token} {kind : ArrayKind} {capacity : ExprAST} (marked : ArrayMark mark kind)
    (inner : ScalarReprints file scalar) (size : Reprints file capacity) :
    TypeReprints file (.mk location scalar kind (some capacity)) := by
  have printed : (TypeExprAST.mk location scalar kind (some capacity)).str =
      scalar.str ++ '[' :: (kind.mark ++ (capacity.str ++ [']'])) := by
    rw [TypeExprAST.str, capacityStr]
    intro isNone
    rw [isNone] at marked
    cases marked
  refine ⟨?_, fun rest _ line column => ?_⟩
  · rw [printed]
    exact inner.opens.append _
  · have ⟨scalarTokens, line₁, column₁, scalarLexed, scalarDerived⟩ :=
      inner.reads ('[' :: (kind.mark ++ (capacity.str ++ ']' :: rest)))
        (delimited_cons (by decide) _) line column
    have opening := @lexed_bracket file '[' .lBracket (by decide)
      (kind.mark ++ (capacity.str ++ ']' :: rest)) line₁ column₁
    have ⟨markTokens, column₂, markLexed, markDerived⟩ := @mark_reprints file mark kind marked
      (capacity.str ++ ']' :: rest) (size.opens.opensOperand _) line₁ (column₁ + 1)
    have ⟨tokens, other, line₃, column₃, lexed, atom, same, _⟩ :=
      size.reads (']' :: rest) (delimited_cons (by decide) rest) line₁ column₂
    have closing := @lexed_bracket file ']' .rBracket (by decide) rest line₃ column₃
    have text : (TypeExprAST.mk location scalar kind (some capacity)).str ++ rest =
        scalar.str ++ '[' :: (kind.mark ++ (capacity.str ++ ']' :: rest)) := by
      rw [printed]
      simp only [List.append_assoc, List.cons_append, List.nil_append]
    have nesting : (TypeExprAST.mk location scalar kind (some capacity)).nesting =
        capacity.nesting + 1 := by
      rw [TypeExprAST.nesting, capacityNesting]
    have derived : Derivation (capacity.nesting + 1) tokens other := atom.logical
    rw [text, nesting]
    refine ⟨_, _, line₃, column₃ + 1,
      scalarLexed.trans (opening.trans (markLexed.trans (lexed.trans closing))),
      .array scalarDerived rfl markDerived derived rfl, ?_⟩
    rw [TypeExprAST.unlocated, TypeExprAST.unlocated, unlocatedCapacity, unlocatedCapacity, same]

/-! ### Expressions of a lexed text -/

def PrintsBack (file : String) (value : ExprAST) : Prop :=
  value.isPrintable = true → Reprints file value

/-- Every expression of a relation over well-spelled tokens is read back. -/
def AllPrintBack (file : String) (derives : Derives) : Prop :=
  Builds WellSpelled derives (PrintsBack file)

section Builds

variable {derives : Derives}

theorem printsBack_unary {location : SourceLocation} {op : UnaryOp} {operand : ExprAST}
    (inner : PrintsBack file operand) : PrintsBack file (.unary location op operand) := by
  intro printable
  rw [ExprAST.isPrintable] at printable
  exact reprints_unary (inner printable)

theorem printsBack_binary {location : SourceLocation} {op : BinaryOp} {lhs rhs : ExprAST}
    (notAttribute : op ≠ .attribute) (left : PrintsBack file lhs) (right : PrintsBack file rhs) :
    PrintsBack file (.binary location op lhs rhs) := by
  intro printable
  rw [ExprAST.isPrintable, Bool.and_eq_true] at printable
  exact reprints_binary notAttribute (left printable.1) (right printable.2)

theorem elements_printBack (builds : AllPrintBack file derives) {used : List Token}
    {items : List ExprAST} (good : ∀ token ∈ used, WellSpelled token)
    (derived : Elements derives used items) (printable : elementsPrintable items = true) :
    ∀ element ∈ items, Reprints file element := by
  induction derived with
  | single derived =>
      rw [elementsPrintable, Bool.and_eq_true] at printable
      intro element member
      rw [List.mem_singleton.mp member]
      exact builds _ _ good derived printable.1
  | @more used later comma item items derived _ _ ih =>
      rw [elementsPrintable, Bool.and_eq_true] at printable
      intro element member
      rcases List.mem_cons.mp member with same | member
      · rw [same]
        exact builds _ _ (fun token isUsed => good token (List.mem_append_left _ isUsed)) derived
          printable.1
      · refine ih (fun token isUsed => good token ?_) printable.2 element member
        exact List.mem_append_right _ (List.mem_cons_of_mem _ isUsed)

theorem typeExpr_printBack (builds : AllPrintBack file derives) {used : List Token}
    {type : TypeExprAST} (good : ∀ token ∈ used, WellSpelled token)
    (derived : TypeExpr derives used type) (printable : type.isPrintable = true) :
    TypeReprints file type := by
  cases derived with
  | scalar derived => exact typeReprints_scalar _ (scalarType_reprints good derived)
  | @array used mark inner scalar bracket close kind capacity derived _ marked
      capacityDerived _ =>
      rw [TypeExprAST.isPrintable, capacityPrintable] at printable
      have scalarGood : ∀ token ∈ used, WellSpelled token := fun token member =>
        good token (List.mem_append_left _ member)
      have innerGood : ∀ token ∈ inner, WellSpelled token := by
        intro token member
        apply good token
        apply List.mem_append_right
        apply List.mem_cons_of_mem
        apply List.mem_append_right
        exact List.mem_append_left _ member
      exact typeReprints_array _ marked (scalarType_reprints scalarGood derived)
        (builds _ _ innerGood capacityDerived printable)

theorem printsBack_rational {location : SourceLocation} {value : Rational}
    (literal : IsLiteralValue value) : PrintsBack file (.rational location value) := by
  intro printable
  rw [ExprAST.isPrintable] at printable
  have fits := literal.fits
  rw [literal.eq_ofInteger printable]
  exact reprints_integer location (by omega)

theorem Atom.printBack (builds : AllPrintBack file derives) : AllPrintBack file (Atom derives) := by
  intro used value good derived
  cases derived with
  | @leadingPoint dot fraction number isDot digits touches isLiteral =>
      apply printsBack_rational
      have kind : fraction.kind = .integer ∨ fraction.kind = .real := digits.imp_left And.left
      have ⟨c, more, same, isDigit⟩ :=
        (good fraction (List.mem_cons_of_mem _ List.mem_cons_self)).number kind
      refine parseRealLiteral_isLiteral ⟨c, more, Or.inr ?_, isDigit⟩ isLiteral
      rw [String.toList_append, same]
      rfl
  | trueKeyword _ => exact fun _ => reprints_boolean _ true
  | falseKeyword _ => exact fun _ => reprints_boolean _ false
  | integer _ isLiteral => exact printsBack_rational (parseIntegerLiteral_isLiteral isLiteral)
  | @trailingPoint token dot number isInteger isDot decimal touches isLiteral =>
      apply printsBack_rational
      have ⟨c, more, same, isDigit⟩ := (good token List.mem_cons_self).number (Or.inl isInteger)
      refine parseRealLiteral_isLiteral ⟨c, more ++ ['.'], Or.inl ?_, isDigit⟩ isLiteral
      rw [String.toList_append, same]
      rfl
  | @real token number isReal isLiteral =>
      apply printsBack_rational
      have ⟨c, more, same, isDigit⟩ := (good token List.mem_cons_self).number (Or.inr isReal)
      exact parseRealLiteral_isLiteral ⟨c, more, Or.inl same, isDigit⟩ isLiteral
  | string _ =>
      intro printable
      rw [ExprAST.isPrintable] at printable
      exact reprints_string _ printable
  | parenthesised _ derived _ =>
      refine builds _ _ (fun token member => good token ?_) derived
      exact List.mem_cons_of_mem _ (List.mem_append_left _ member)
  | emptySet _ _ =>
      intro _
      apply reprints_setLiteral
      intro element member
      cases member
  | set _ derived _ =>
      intro printable
      rw [ExprAST.isPrintable] at printable
      apply reprints_setLiteral
      refine elements_printBack builds (fun token member => good token ?_) derived printable
      exact List.mem_cons_of_mem _ (List.mem_append_left _ member)
  | type derived =>
      intro printable
      rw [ExprAST.isPrintable] at printable
      exact reprints_typeLiteral _ (typeExpr_printBack builds good derived printable)
  | identifier isName isNoType =>
      exact fun _ => reprints_identifier _ ((good _ List.mem_cons_self).name isName) isNoType

theorem Attributes.printBack (builds : AllPrintBack file derives) :
    AllPrintBack file (Attributes derives) := by
  intro used value good derived
  induction derived with
  | bare derived => exact builds _ _ good derived
  | @access used lhs dot name _ _ isName _ ih =>
      have left := ih fun token member =>
        good token (List.mem_append_left _ member)
      have spelled := (good name (List.mem_append_right _ (List.mem_cons_of_mem _
        List.mem_cons_self))).name isName
      intro printable
      rw [ExprAST.isPrintable, Bool.and_eq_true] at printable
      exact reprints_attribute spelled (left printable.1)

/-- What an operator of a level builds, when it is no attribute access. -/
theorem binaryOperator_printBack {kinds : List TokenKind} (noDot : TokenKind.dot ∉ kinds)
    (op : Token) (combine : ExprAST → ExprAST → ExprAST) (lhs rhs : ExprAST)
    (isOperator : binaryOperator kinds op = some combine) (left : PrintsBack file lhs)
    (right : PrintsBack file rhs) : PrintsBack file (combine lhs rhs) := by
  have member : op.kind ∈ kinds := by
    by_contra other
    unfold binaryOperator at isOperator
    rw [if_neg other] at isOperator
    cases isOperator
  unfold binaryOperator at isOperator
  rw [if_pos member, Option.map_eq_some_iff] at isOperator
  have ⟨binaryOp, isOp, same⟩ := isOperator
  rw [← same]
  apply printsBack_binary _ left right
  intro isAttribute
  rw [isAttribute] at isOp
  have isDot : op.kind = .dot := by
    revert isOp
    cases op.kind <;> intro isOp <;> first
      | rfl
      | cases isOp
  rw [isDot] at member
  exact noDot member

theorem signOperator_printBack (op : Token) (apply : ExprAST → ExprAST) (value : ExprAST)
    (isSign : signOperator op = some apply) (inner : PrintsBack file value) :
    PrintsBack file (apply value) := by
  unfold signOperator at isSign
  split at isSign
  · rw [← Option.some.inj isSign]
    exact printsBack_unary inner
  · split at isSign
    · rw [← Option.some.inj isSign]
      exact printsBack_unary inner
    · cases isSign

theorem notOperator_printBack (op : Token) (apply : ExprAST → ExprAST) (value : ExprAST)
    (isNot : notOperator op = some apply) (inner : PrintsBack file value) :
    PrintsBack file (apply value) := by
  unfold notOperator at isNot
  split at isNot
  · rw [← Option.some.inj isNot]
    exact printsBack_unary inner
  · cases isNot

theorem Logical.printBack (builds : AllPrintBack file derives) :
    AllPrintBack file (Logical derives) := by
  have exponential : AllPrintBack file (Exponential derives) :=
    (Attributes.printBack (Atom.printBack builds)).power
      (binaryOperator_printBack (by decide)) signOperator_printBack
  have comparison : AllPrintBack file (Comparison derives) :=
    ((((exponential.signed signOperator_printBack).chain
      (binaryOperator_printBack (by decide))).chain
      (binaryOperator_printBack (by decide))).chain
      (binaryOperator_printBack (by decide))).chain
      (binaryOperator_printBack (by decide))
  exact (comparison.prefixed notOperator_printBack).chain (binaryOperator_printBack (by decide))

end Builds

/-- **Every expression of a lexed text that prints as it is written is read back.** -/
theorem derivation_printBack (nesting : ℕ) : AllPrintBack file (Derivation nesting) := by
  induction nesting with
  | zero =>
      intro used value _ derived
      exact derived.elim
  | succ nesting ih => exact Logical.printBack ih

end LlvmDsdl.Frontend
