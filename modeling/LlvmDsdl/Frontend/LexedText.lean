import LlvmDsdl.Frontend.Lexer
import LlvmDsdl.Frontend.DecimalLiteral

/-!
Contract: what the lexer makes of a piece of text, whatever follows it.

Owns: the relation between two positions of one text and the tokens between them, and
the pieces a printed expression is made of: spaces, operators, names, decimal integers,
versions and plain strings.

A piece is delimited by what follows it: the lexer takes every token as long as it can.
-/

namespace LlvmDsdl.Frontend

open LexerCursor

variable (file : String)

/-! ### Tokens between two positions -/

/-- From one position the lexer reads tokens without errors and goes on at another. -/
def Lexed (start : LexerCursor) (tokens : List Token) (stop : LexerCursor) : Prop :=
  ∀ fuel last, start.rest.length ≤ fuel → ∃ left lastToken, stop.rest.length ≤ left ∧
    lexFrom file fuel last start =
      (tokens ++ (lexFrom file left lastToken stop).1, (lexFrom file left lastToken stop).2)

variable {file}

theorem Lexed.refl (start : LexerCursor) : Lexed file start [] start :=
  fun fuel last enough => ⟨fuel, last, enough, rfl⟩

theorem Lexed.trans {start middle stop : LexerCursor} {tokens more : List Token}
    (first : Lexed file start tokens middle) (second : Lexed file middle more stop) :
    Lexed file start (tokens ++ more) stop := by
  intro fuel last enough
  have ⟨left, lastToken, remains, lexed⟩ := first fuel last enough
  have ⟨left', lastToken', remains', lexed'⟩ := second left lastToken remains
  refine ⟨left', lastToken', remains', ?_⟩
  rw [lexed, lexed', List.append_assoc]

theorem Lexed.step {start next : LexerCursor} {c : Char} {after : List Char}
    {tokens : List Token} (isNext : start.rest = c :: after)
    (steps : ∀ last, lexAt file last start c = ⟨tokens, [], next⟩)
    (shorter : next.rest.length ≤ after.length) : Lexed file start tokens next := by
  intro fuel last enough
  rw [isNext, List.length_cons] at enough
  cases fuel with
  | zero => omega
  | succ fuel =>
      refine ⟨fuel, tokens.getLast?.or last, by omega, ?_⟩
      rw [lexFrom.eq_def]
      dsimp only
      rw [isNext]
      dsimp only
      rw [steps last, List.nil_append]

theorem Lexed.lex {text : List Char} {tokens : List Token} {line column : UInt32}
    (lexed : Lexed file ⟨text, 1, 1⟩ tokens ⟨[], line, column⟩) :
    lex file (.ofList text) =
      (tokens ++ [tokenAt file ⟨[], line, column⟩ .eof []], []) := by
  have ⟨left, lastToken, _, whole⟩ := lexed text.length none (Nat.le_refl _)
  unfold Frontend.lex
  rw [String.toList_ofList, whole]
  cases left with
  | zero => rfl
  | succ left => rfl

/-! ### Reading a run -/

theorem columns_append (column : UInt32) (text more : List Char) :
    column + columns text + columns more = column + columns (text ++ more) := by
  rw [columns, columns, columns, List.length_append, UInt32.ofNat_add, UInt32.add_assoc]

theorem columns_cons (column : UInt32) (c : Char) (text : List Char) :
    column + 1 + columns text = column + columns (c :: text) :=
  columns_append column [c] text

theorem skip_plain (text rest : List Char) (line column : UInt32) (plain : '\n' ∉ text) :
    skip ⟨text ++ rest, line, column⟩ text.length = ⟨rest, line, column + columns text⟩ := by
  induction text generalizing column with
  | nil => exact congrArg (LexerCursor.mk rest line) (UInt32.add_zero column).symm
  | cons c text ih =>
      have notNewline : c ≠ '\n' := fun same => plain (same ▸ List.mem_cons_self)
      have others : '\n' ∉ text := fun member => plain (List.mem_cons_of_mem c member)
      rw [List.length_cons, LexerCursor.skip, List.cons_append]
      unfold advance
      dsimp only
      rw [if_neg notNewline, ih (column + 1) others, columns_cons]

/-- Nothing of a rest satisfies a condition at its head. -/
def StopsAt (condition : Char → Bool) (rest : List Char) : Prop :=
  ∀ c after, rest = c :: after → condition c = false

theorem takeWhile_run {condition : Char → Bool} {text rest : List Char}
    (all : ∀ c ∈ text, condition c = true) (stops : StopsAt condition rest) :
    (text ++ rest).takeWhile condition = text := by
  rw [List.takeWhile_append_of_pos all]
  cases rest with
  | nil => rw [List.takeWhile_nil, List.append_nil]
  | cons c after =>
      rw [List.takeWhile_cons_of_neg (by rw [stops c after rfl]; exact Bool.false_ne_true),
        List.append_nil]

theorem readWhile_run {condition : Char → Bool} {text rest : List Char} (line column : UInt32)
    (all : ∀ c ∈ text, condition c = true) (newline : condition '\n' = false)
    (stops : StopsAt condition rest) :
    readWhile condition ⟨text ++ rest, line, column⟩ =
      (text, ⟨rest, line, column + columns text⟩) := by
  have plain : '\n' ∉ text := by
    intro member
    rw [all _ member] at newline
    cases newline
  unfold readWhile
  dsimp only
  rw [takeWhile_run all stops, skip_plain text rest line column plain]

/-! ### Spaces and operators -/

theorem lexed_space (rest : List Char) (line column : UInt32) :
    Lexed file ⟨' ' :: rest, line, column⟩ [] ⟨rest, line, column + 1⟩ :=
  .step rfl (fun _ => rfl) (Nat.le_refl _)

theorem lexed_bracket {c : Char} {kind : TokenKind}
    (isBracket : (c, kind) ∈ [('(', .lParen), (')', .rParen), ('[', .lBracket), (']', .rBracket),
      ('{', .lBrace), ('}', .rBrace), (',', .comma), ('.', TokenKind.dot)])
    (rest : List Char) (line column : UInt32) :
    Lexed file ⟨c :: rest, line, column⟩ [tokenAt file ⟨c :: rest, line, column⟩ kind [c]]
      ⟨rest, line, column + 1⟩ := by
  apply Lexed.step rfl _ (Nat.le_refl _)
  intro last
  simp only [List.mem_cons, Prod.mk.injEq, List.not_mem_nil, or_false] at isBracket
  rcases isBracket with ⟨rfl, rfl⟩ | ⟨rfl, rfl⟩ | ⟨rfl, rfl⟩ | ⟨rfl, rfl⟩ | ⟨rfl, rfl⟩ |
    ⟨rfl, rfl⟩ | ⟨rfl, rfl⟩ | ⟨rfl, rfl⟩ <;> rfl

def binaryOpKind : BinaryOp → TokenKind
  | .attribute => .dot
  | .pow => .starStar
  | .mul => .star
  | .div => .slash
  | .mod => .percent
  | .add => .plus
  | .sub => .minus
  | .bitOr => .pipe
  | .bitXor => .caret
  | .bitAnd => .amp
  | .eq => .equalEqual
  | .ne => .bangEqual
  | .le => .lessEqual
  | .ge => .greaterEqual
  | .lt => .less
  | .gt => .greater
  | .logicalOr => .pipePipe
  | .logicalAnd => .ampAmp

def unaryOpKind : UnaryOp → TokenKind
  | .plus => .plus
  | .minus => .minus
  | .logicalNot => .bang

theorem lexed_binaryOp (op : BinaryOp) (rest : List Char) (line column : UInt32) :
    ∃ column', Lexed file ⟨binaryOpToString op ++ ' ' :: rest, line, column⟩
      [tokenAt file ⟨[], line, column⟩ (binaryOpKind op) (binaryOpToString op)]
      ⟨' ' :: rest, line, column'⟩ := by
  cases op <;>
    first
      | exact ⟨_, .step rfl (fun _ => rfl) (Nat.le_refl _)⟩
      | exact ⟨_, .step rfl (fun _ => rfl) (Nat.le_succ _)⟩

/-- What may follow an operator that is no part of a longer one. -/
def OpensOperand (rest : List Char) : Prop :=
  ∀ c after, rest = c :: after → c ≠ '=' ∧ c ≠ '-'

theorem pairKind_none {c next : Char} (notEqual : next ≠ '=')
    (single : c ≠ '|' ∧ c ≠ '&' ∧ c ≠ '*') : pairKind c next = none := by
  unfold pairKind
  split
  · exact absurd rfl notEqual
  · exact absurd rfl notEqual
  · exact absurd rfl notEqual
  · exact absurd rfl notEqual
  · exact absurd rfl single.1
  · exact absurd rfl single.2.1
  · exact absurd rfl single.2.2
  · rfl

theorem OpensOperand.peek {rest : List Char} (opens : OpensOperand rest) (c : Char)
    (line column : UInt32) :
    peek ⟨c :: rest, line, column⟩ 1 ≠ '=' ∧ peek ⟨c :: rest, line, column⟩ 1 ≠ '-' := by
  cases rest with
  | nil =>
      have ended : endMark ≠ '=' ∧ endMark ≠ '-' := by decide
      exact ended
  | cons next after => exact opens next after rfl

theorem lexed_single {c : Char} {kind : TokenKind}
    (isSingle : (c, kind) ∈ [('+', .plus), ('-', .minus), ('!', .bang), ('<', TokenKind.less)])
    {rest : List Char} (opens : OpensOperand rest) (line column : UInt32) :
    Lexed file ⟨c :: rest, line, column⟩ [tokenAt file ⟨[], line, column⟩ kind [c]]
      ⟨rest, line, column + 1⟩ := by
  have ⟨notEqual, notMinus⟩ := opens.peek c line column
  apply Lexed.step rfl _ (Nat.le_refl _)
  intro last
  have operator : lexAt file last ⟨c :: rest, line, column⟩ c =
      lexOperator file ⟨c :: rest, line, column⟩ c := by
    simp only [List.mem_cons, Prod.mk.injEq, List.not_mem_nil, or_false] at isSingle
    rcases isSingle with ⟨rfl, _⟩ | ⟨rfl, _⟩ | ⟨rfl, _⟩ | ⟨rfl, _⟩
    · rfl
    · unfold lexAt
      simp only [notMinus]
      rfl
    · rfl
    · rfl
  have single : c ≠ '|' ∧ c ≠ '&' ∧ c ≠ '*' := by
    simp only [List.mem_cons, Prod.mk.injEq, List.not_mem_nil, or_false] at isSingle
    rcases isSingle with ⟨rfl, _⟩ | ⟨rfl, _⟩ | ⟨rfl, _⟩ | ⟨rfl, _⟩ <;> decide
  have known : singleKind c = some kind ∧ c ≠ '\n' := by
    simp only [List.mem_cons, Prod.mk.injEq, List.not_mem_nil, or_false] at isSingle
    rcases isSingle with ⟨rfl, rfl⟩ | ⟨rfl, rfl⟩ | ⟨rfl, rfl⟩ | ⟨rfl, rfl⟩ <;>
      exact ⟨rfl, by decide⟩
  rw [operator]
  unfold lexOperator
  rw [pairKind_none notEqual single]
  dsimp only
  rw [known.1]
  dsimp only
  unfold advance
  dsimp only
  rw [if_neg known.2]
  rfl

theorem lexed_unaryOp (op : UnaryOp) {rest : List Char} (opens : OpensOperand rest)
    (line column : UInt32) :
    Lexed file ⟨unaryOpToString op ++ rest, line, column⟩
      [tokenAt file ⟨[], line, column⟩ (unaryOpKind op) (unaryOpToString op)]
      ⟨rest, line, column + 1⟩ := by
  cases op with
  | plus => exact lexed_single (by decide) opens line column
  | minus => exact lexed_single (by decide) opens line column
  | logicalNot => exact lexed_single (by decide) opens line column

theorem lexed_lessEqual (rest : List Char) (line column : UInt32) :
    Lexed file ⟨'<' :: '=' :: rest, line, column⟩
      [tokenAt file ⟨[], line, column⟩ .lessEqual ['<', '=']] ⟨rest, line, column + 1 + 1⟩ :=
  .step rfl (fun _ => rfl) (Nat.le_succ _)

/-! ### Words -/

theorem isIdentifierCharacter_ne {c other : Char} (isWord : isIdentifierCharacter c = true)
    (notWord : isIdentifierCharacter other = false) : c ≠ other := by
  intro same
  rw [same, notWord] at isWord
  cases isWord

theorem lexAt_word {c : Char} (isWord : isIdentifierCharacter c = true) (last : Option Token)
    (start : LexerCursor) :
    lexAt file last start c =
      if c.isAlpha ∨ c = '_' then lexIdentifierOrKeyword file start
      else if c.isDigit then lexNumber file last start
      else if c = singleQuote ∨ c = doubleQuote then lexString file c start
      else lexOperator file start c := by
  have notReturn : c ≠ Char.ofNat 13 := isIdentifierCharacter_ne isWord (by decide)
  have notNewline : c ≠ '\n' := isIdentifierCharacter_ne isWord (by decide)
  have notSpace : ¬(c = ' ' ∨ c = Char.ofNat 9) := by
    intro space
    rcases space with same | same
    · exact isIdentifierCharacter_ne isWord (by decide) same
    · exact isIdentifierCharacter_ne isWord (by decide) same
  have notComment : c ≠ '#' := isIdentifierCharacter_ne isWord (by decide)
  have notMinus : c ≠ '-' := isIdentifierCharacter_ne isWord (by decide)
  unfold lexAt
  rw [if_neg notReturn, if_neg notNewline, if_neg notSpace, if_neg notComment,
    if_neg fun marker => notMinus marker.1]

/-- An identifier's text: a word that does not start with a digit. -/
def isWord : List Char → Bool
  | [] => false
  | c :: more => (c.isAlpha || c = '_') && (c :: more).all isIdentifierCharacter

def EndsWord (rest : List Char) : Prop :=
  StopsAt isIdentifierCharacter rest

theorem lexed_word {text rest : List Char} (word : isWord text = true) (ends : EndsWord rest)
    (line column : UInt32) :
    Lexed file ⟨text ++ rest, line, column⟩
      [tokenAt file ⟨[], line, column⟩ (identifierKind text) text]
      ⟨rest, line, column + columns text⟩ := by
  cases text with
  | nil => cases word
  | cons c more =>
      have ⟨first, all⟩ := Bool.and_eq_true_iff.mp word
      have characters : ∀ c' ∈ c :: more, isIdentifierCharacter c' = true := List.all_eq_true.mp all
      have alphabetic : c.isAlpha = true ∨ c = '_' := by
        rw [Bool.or_eq_true, decide_eq_true_eq] at first
        exact first
      apply Lexed.step rfl
      · intro last
        rw [lexAt_word (characters c List.mem_cons_self), if_pos alphabetic]
        unfold lexIdentifierOrKeyword
        rw [readWhile_run line column characters (by decide) ends]
        rfl
      · show rest.length ≤ (more ++ rest).length
        rw [List.length_append]
        omega

def isNameText (text : List Char) : Bool :=
  isWord text && text ≠ "true".toList && text ≠ "false".toList

theorem lexed_name {text rest : List Char} (isName : isNameText text = true)
    (ends : EndsWord rest) (line column : UInt32) :
    Lexed file ⟨text ++ rest, line, column⟩ [tokenAt file ⟨[], line, column⟩ .identifier text]
      ⟨rest, line, column + columns text⟩ := by
  unfold isNameText at isName
  rw [Bool.and_eq_true, Bool.and_eq_true, decide_eq_true_eq, decide_eq_true_eq] at isName
  have kind : identifierKind text = .identifier := by
    unfold identifierKind
    rw [if_neg isName.1.2, if_neg isName.2]
  have lexed := @lexed_word file text rest isName.1.1 ends line column
  rw [kind] at lexed
  exact lexed

/-! ### Delimited text -/

def delimiters : List Char := [' ', ')', ',', '}', ']', '[']

/-- What may follow a printed expression or type. -/
def Delimited (rest : List Char) : Prop :=
  ∀ c after, rest = c :: after → c ∈ delimiters

theorem delimited_cons {c : Char} (isDelimiter : c ∈ delimiters)
    (after : List Char) : Delimited (c :: after) := by
  intro other later same
  rw [← (List.cons.inj same).1]
  exact isDelimiter

theorem Delimited.stopsAt {rest : List Char} (delimited : Delimited rest)
    {condition : Char → Bool} (none : delimiters.all (fun c => !condition c) = true) :
    StopsAt condition rest := by
  intro c after same
  have stops := List.all_eq_true.mp none c (delimited c after same)
  rw [Bool.not_eq_true'] at stops
  exact stops

theorem Delimited.endsWord {rest : List Char} (delimited : Delimited rest) : EndsWord rest :=
  delimited.stopsAt (by decide)

theorem Delimited.peek {rest : List Char} (delimited : Delimited rest) (line column : UInt32) :
    peek ⟨rest, line, column⟩ 0 ≠ '.' ∧ isExponentMark (peek ⟨rest, line, column⟩ 0) = false ∧
      isBaseMark (peek ⟨rest, line, column⟩ 0) = false := by
  cases rest with
  | nil =>
      have ended : endMark ≠ '.' ∧ isExponentMark endMark = false ∧ isBaseMark endMark = false := by
        decide
      exact ended
  | cons c after =>
      have plain : delimiters.all (fun c => decide (c ≠ '.' ∧ isExponentMark c = false ∧
          isBaseMark c = false)) = true := by decide
      exact of_decide_eq_true (List.all_eq_true.mp plain c (delimited c after rfl))

/-! ### Numbers -/

theorem isWord_of_isDigit {c : Char} (isDigit : c.isDigit = true) :
    isIdentifierCharacter c = true := by
  unfold isIdentifierCharacter Char.isAlphanum
  rw [isDigit, Bool.or_true, Bool.true_or]

theorem lexAt_digit {c : Char} (isDigit : c.isDigit = true) (last : Option Token)
    (start : LexerCursor) : lexAt file last start c = lexNumber file last start := by
  have notAlpha : ¬(c.isAlpha = true ∨ c = '_') := by
    intro alphabetic
    rcases alphabetic with isAlpha | underscore
    · have low : c.toNat ≤ '9'.toNat := by
        rw [Char.isDigit, Bool.and_eq_true, decide_eq_true_eq, decide_eq_true_eq] at isDigit
        exact isDigit.2
      have nine : '9'.toNat = 57 := rfl
      rw [Char.isAlpha, Bool.or_eq_true, Char.isUpper, Char.isLower, Bool.and_eq_true,
        decide_eq_true_eq, decide_eq_true_eq, decide_eq_true_eq] at isAlpha
      rcases isAlpha with upper | lower
      · have high : 'A'.toNat ≤ c.toNat := upper.1
        have code : 'A'.toNat = 65 := rfl
        omega
      · have high : 'a'.toNat ≤ c.toNat := lower.1
        have code : 'a'.toNat = 97 := rfl
        omega
    · exact isDigit_ne isDigit (by decide) underscore
  rw [lexAt_word (isWord_of_isDigit isDigit), if_neg notAlpha, if_pos isDigit]

/-- The characters of a run of digits before something that is no digit. -/
theorem readWhile_digits (value : ℕ) {rest : List Char} (line column : UInt32)
    (stops : StopsAt isDigitOrUnderscore rest) :
    readWhile isDigitOrUnderscore ⟨decimal value ++ rest, line, column⟩ =
      (decimal value, ⟨rest, line, column + columns (decimal value)⟩) := by
  apply readWhile_run line column _ (by decide) stops
  intro c member
  unfold isDigitOrUnderscore
  rw [isDigit_of_mem_decimal member]
  rfl

theorem decimal_unprefixed (value : ℕ) {rest : List Char} (line column : UInt32)
    (next : isBaseMark (peek ⟨rest, line, column⟩ 0) = false) :
    ¬(peek ⟨decimal value ++ rest, line, column⟩ 0 = '0' ∧
      isBaseMark (peek ⟨decimal value ++ rest, line, column⟩ 1) = true) := by
  intro marked
  have digits : ∀ c ∈ decimal value, c.isDigit = true := fun c member =>
    isDigit_of_mem_decimal member
  rcases same : decimal value with _ | ⟨c, _ | ⟨mark, more⟩⟩
  · exact decimal_ne_nil value same
  · rw [same] at marked
    have second : isBaseMark (peek ⟨rest, line, column⟩ 0) = true := marked.2
    rw [next] at second
    cases second
  · rw [same] at marked digits
    have isDigit := digits mark (List.mem_cons_of_mem c List.mem_cons_self)
    have isMark : isBaseMark mark = true := marked.2
    unfold isBaseMark at isMark
    rw [List.contains_eq_mem, decide_eq_true_eq] at isMark
    have letters : ['x', 'X', 'b', 'B', 'o', 'O'].all (fun c => !c.isDigit) = true := by decide
    have notDigit := List.all_eq_true.mp letters mark isMark
    rw [isDigit] at notDigit
    cases notDigit

theorem Delimited.ends {rest : List Char} (delimited : Delimited rest) (line column : UInt32) :
    readFraction ⟨rest, line, column⟩ = ([], ⟨rest, line, column⟩) ∧
      readExponent ⟨rest, line, column⟩ = ([], ⟨rest, line, column⟩) := by
  have ⟨notPoint, notExponent, _⟩ := delimited.peek line column
  constructor
  · unfold readFraction
    rw [if_neg fun both => notPoint both.1, if_neg fun both => notPoint both.1]
  · unfold readExponent
    rw [notExponent, if_neg Bool.false_ne_true]

theorem lexed_integer (value : ℕ) {rest : List Char} (delimited : Delimited rest)
    (line column : UInt32) :
    Lexed file ⟨decimal value ++ rest, line, column⟩
      [tokenAt file ⟨[], line, column⟩ .integer (decimal value)]
      ⟨rest, line, column + columns (decimal value)⟩ := by
  have stops : StopsAt isDigitOrUnderscore rest := delimited.stopsAt (by decide)
  have ⟨_, _, notMark⟩ := delimited.peek line column
  have ⟨noFraction, noExponent⟩ := delimited.ends line (column + columns (decimal value))
  have unprefixed := decimal_unprefixed value line column notMark
  have conforms : numericLiteralConforms (decimal value) false = true := by
    unfold numericLiteralConforms
    rw [if_neg Bool.false_ne_true]
    split
    · rename_i mark more same
      rcases decimal_cons same with nonzero | single
      · exact absurd rfl nonzero
      · cases single
    · exact isDecimal_decimal value
  have conformsPoint : numericLiteralConforms ('.' :: decimal value) true = true := by
    unfold numericLiteralConforms
    rw [if_pos rfl]
    exact isReal_point value
  cases same : decimal value with
  | nil => exact absurd same (decimal_ne_nil value)
  | cons c more =>
      rw [← same]
      have isDigit : c.isDigit = true := by
        apply isDigit_of_mem_decimal
        rw [same]
        exact List.mem_cons_self
      refine @Lexed.step file _ _ c (more ++ rest) _ ?_ ?_ ?_
      · rw [same]
        rfl
      · intro last
        rw [lexAt_digit isDigit]
        unfold lexNumber
        rw [if_neg unprefixed, readWhile_digits value line column stops]
        dsimp only
        rw [noFraction]
        dsimp only
        rw [noExponent]
        dsimp only
        rw [List.append_nil, List.append_nil, conforms, conformsPoint, ite_self]
        rfl
      · show rest.length ≤ (more ++ rest).length
        rw [List.length_append]
        omega

def versionText (major minor : ℕ) : List Char :=
  decimal major ++ '.' :: decimal minor

theorem lexed_version (major minor : ℕ) {rest : List Char} (delimited : Delimited rest)
    (line column : UInt32) :
    Lexed file ⟨versionText major minor ++ rest, line, column⟩
      [tokenAt file ⟨[], line, column⟩ .real (versionText major minor)]
      ⟨rest, line, column + columns (versionText major minor)⟩ := by
  have stops : StopsAt isDigitOrUnderscore rest := delimited.stopsAt (by decide)
  have atPoint : StopsAt isDigitOrUnderscore ('.' :: (decimal minor ++ rest)) := by
    intro c after same
    rw [← (List.cons.inj same).1]
    decide
  have pointMark : isBaseMark (peek ⟨'.' :: (decimal minor ++ rest), line, column⟩ 0) = false := by
    show isBaseMark '.' = false
    decide
  have unprefixed := decimal_unprefixed major line column pointMark
  have whole : versionText major minor ++ rest =
      decimal major ++ '.' :: (decimal minor ++ rest) := by
    unfold versionText
    rw [List.append_assoc, List.cons_append]
  have conforms : numericLiteralConforms (versionText major minor) true = true := by
    unfold numericLiteralConforms
    rw [if_pos rfl]
    exact isReal_version major minor
  have fraction (at_ : UInt32) :
      readFraction ⟨'.' :: (decimal minor ++ rest), line, at_⟩ =
        ('.' :: decimal minor, ⟨rest, line, at_ + 1 + columns (decimal minor)⟩) := by
    have digit : (peek ⟨'.' :: (decimal minor ++ rest), line, at_⟩ 1).isDigit = true := by
      cases same : decimal minor with
      | nil => exact absurd same (decimal_ne_nil minor)
      | cons c more =>
          show c.isDigit = true
          apply isDigit_of_mem_decimal
          rw [same]
          exact List.mem_cons_self
    have advanced : advance ⟨'.' :: (decimal minor ++ rest), line, at_⟩ =
        ⟨decimal minor ++ rest, line, at_ + 1⟩ := rfl
    unfold readFraction
    rw [if_pos ⟨rfl, digit⟩, advanced, readWhile_digits minor line (at_ + 1) stops]
  have ended := delimited.ends line
    (column + columns (decimal major) + 1 + columns (decimal minor))
  have length : column + columns (versionText major minor) =
      column + columns (decimal major) + 1 + columns (decimal minor) := by
    unfold versionText
    rw [← columns_append, ← columns_cons]
  rw [whole]
  cases same : decimal major with
  | nil => exact absurd same (decimal_ne_nil major)
  | cons c more =>
      have isDigit : c.isDigit = true := by
        apply @isDigit_of_mem_decimal major
        rw [same]
        exact List.mem_cons_self
      rw [← same]
      refine @Lexed.step file _ _ c (more ++ '.' :: (decimal minor ++ rest)) _ ?_ ?_ ?_
      · rw [same]
        rfl
      · intro last
        rw [lexAt_digit isDigit]
        unfold lexNumber
        rw [if_neg unprefixed, readWhile_digits major line column atPoint]
        dsimp only
        rw [fraction]
        dsimp only
        rw [ended.2, List.append_nil]
        dsimp only
        have text : decimal major ++ '.' :: decimal minor = versionText major minor := rfl
        rw [text, List.isEmpty_cons, Bool.not_false, Bool.true_or, if_pos rfl, if_pos rfl, conforms,
          if_pos rfl, length]
        rfl
      · show rest.length ≤ (more ++ '.' :: (decimal minor ++ rest)).length
        rw [List.length_append, List.length_cons, List.length_append]
        omega

/-! ### Strings -/

theorem lexStringContent_plain {text : List Char} (plain : isPlainText text = true)
    (rest : List Char) (line column : UInt32) {fuel : ℕ} (enough : text.length < fuel) :
    ∃ line' column', lexStringContent file printedQuote fuel
      ⟨text ++ printedQuote :: rest, line, column⟩ =
        (text, [], ⟨printedQuote :: rest, line', column'⟩) := by
  induction text generalizing fuel line column with
  | nil =>
      cases fuel with
      | zero => omega
      | succ fuel => exact ⟨line, column, rfl⟩
  | cons c text ih =>
      have ⟨first, others⟩ := Bool.and_eq_true_iff.mp plain
      rw [Bool.and_eq_true, decide_eq_true_eq, decide_eq_true_eq] at first
      cases fuel with
      | zero => omega
      | succ fuel =>
          have ⟨line₁, column₁, advanced⟩ : ∃ line₁ column₁,
              advance ⟨c :: (text ++ printedQuote :: rest), line, column⟩ =
                ⟨text ++ printedQuote :: rest, line₁, column₁⟩ := by
            unfold advance
            dsimp only
            split
            · exact ⟨_, _, rfl⟩
            · exact ⟨_, _, rfl⟩
          have ⟨line', column', content⟩ :=
            @ih others line₁ column₁ fuel (Nat.lt_of_succ_lt_succ enough)
          have notBackslash : c ≠ backslash := first.2
          refine ⟨line', column', ?_⟩
          rw [List.cons_append, lexStringContent]
          dsimp only
          rw [if_neg first.1, if_pos notBackslash, advanced, content]

theorem lexed_string {text : List Char} (plain : isPlainText text = true) (rest : List Char)
    (line column : UInt32) :
    ∃ line' column', Lexed file ⟨printedQuote :: (text ++ printedQuote :: rest), line, column⟩
      [tokenAt file ⟨[], line, column⟩ .string text] ⟨rest, line', column'⟩ := by
  have enough : text.length < (printedQuote :: (text ++ printedQuote :: rest)).length := by
    rw [List.length_cons, List.length_append]
    omega
  have ⟨line', column', content⟩ :=
    @lexStringContent_plain file text plain rest line (column + 1) _ enough
  have advanced : advance ⟨printedQuote :: (text ++ printedQuote :: rest), line, column⟩ =
      ⟨text ++ printedQuote :: rest, line, column + 1⟩ := rfl
  refine ⟨line', column' + 1, .step rfl ?_ ?_⟩
  · intro last
    show lexString file printedQuote _ = _
    unfold lexString
    rw [advanced, content]
    dsimp only
    rw [if_pos rfl]
    rfl
  · show rest.length ≤ (text ++ printedQuote :: rest).length
    rw [List.length_append, List.length_cons]
    omega

end LlvmDsdl.Frontend
