import LlvmDsdl.Frontend.LexedText

/-!
Contract: how the tokens of a lexed text are spelled.

Owns: that an identifier is a word other than the keywords, and that a number starts
with a digit.
-/

namespace LlvmDsdl.Frontend

open LexerCursor

structure WellSpelled (token : Token) : Prop where
  name : token.kind = .identifier → isNameText token.text.toList = true
  number : token.kind = .integer ∨ token.kind = .real →
    ∃ c more, token.text.toList = c :: more ∧ c.isDigit = true

def IsPlainKind (kind : TokenKind) : Prop :=
  kind ≠ .identifier ∧ kind ≠ .integer ∧ kind ≠ .real ∧ kind ≠ .trueKeyword ∧
    kind ≠ .falseKeyword

instance (kind : TokenKind) : Decidable (IsPlainKind kind) :=
  inferInstanceAs (Decidable (_ ∧ _))

variable {file : String}

theorem wellSpelled_plain {start : LexerCursor} {kind : TokenKind} {text : List Char}
    (plain : IsPlainKind kind) : WellSpelled (tokenAt file start kind text) := by
  refine ⟨fun isName => absurd isName plain.1, fun isNumber => ?_⟩
  rcases isNumber with isInteger | isReal
  · exact absurd isInteger plain.2.1
  · exact absurd isReal plain.2.2.1

theorem wellSpelled_number {start : LexerCursor} {kind : TokenKind} {c : Char}
    {more : List Char} (notName : kind ≠ .identifier) (isDigit : c.isDigit = true) :
    WellSpelled (tokenAt file start kind (c :: more)) :=
  ⟨fun isName => absurd isName notName, fun _ => ⟨c, more, String.toList_ofList, isDigit⟩⟩

theorem pairKind_plain {c next : Char} {kind : TokenKind} (isPair : pairKind c next = some kind) :
    IsPlainKind kind ∧ kind ≠ .comment ∧ kind ≠ .at_ := by
  unfold pairKind at isPair
  split at isPair <;> first
    | cases isPair; decide
    | cases isPair

theorem singleKind_plain {c : Char} {kind : TokenKind} (isSingle : singleKind c = some kind) :
    IsPlainKind kind ∧ kind ≠ .comment ∧ (kind = .at_ → c = '@') := by
  unfold singleKind at isSingle
  split at isSingle <;> first
    | cases isSingle; decide
    | cases isSingle

theorem readWhile_cons {condition : Char → Bool} {start : LexerCursor} {c : Char}
    {after : List Char} (isNext : start.rest = c :: after) (holds : condition c = true) :
    (readWhile condition start).1 = c :: after.takeWhile condition := by
  unfold readWhile
  dsimp only
  rw [isNext, List.takeWhile_cons_of_pos holds]

theorem not_mem_readWhile {condition : Char → Bool} {c : Char} (start : LexerCursor)
    (fails : condition c = false) : c ∉ (readWhile condition start).1 := by
  intro member
  have holds := List.mem_takeWhile_imp member
  rw [fails] at holds
  cases holds

theorem lexIdentifierOrKeyword_wellSpelled {start : LexerCursor} {c : Char} {after : List Char}
    (isNext : start.rest = c :: after) (alphabetic : c.isAlpha = true ∨ c = '_') :
    ∀ token ∈ (lexIdentifierOrKeyword file start).tokens, WellSpelled token := by
  intro token member
  have character : isIdentifierCharacter c = true := by
    unfold isIdentifierCharacter Char.isAlphanum
    rcases alphabetic with isAlpha | underscore
    · rw [isAlpha]
      rfl
    · rw [decide_eq_true underscore, Bool.or_true]
  have read := readWhile_cons isNext character
  have word : isWord (readWhile isIdentifierCharacter start).1 = true := by
    have all : ∀ c' ∈ (readWhile isIdentifierCharacter start).1,
        isIdentifierCharacter c' = true := fun _ member => List.mem_takeWhile_imp member
    rw [read] at all ⊢
    unfold isWord
    rw [Bool.and_eq_true, Bool.or_eq_true, decide_eq_true_eq]
    exact ⟨alphabetic, List.all_eq_true.mpr all⟩
  rw [List.mem_singleton.mp member]
  constructor
  · intro isName
    have kind : identifierKind (readWhile isIdentifierCharacter start).1 = .identifier := isName
    show isNameText (String.ofList _).toList = true
    rw [String.toList_ofList]
    unfold identifierKind at kind
    split at kind
    · cases kind
    · rename_i notTrue
      split at kind
      · cases kind
      · rename_i notFalse
        unfold isNameText
        rw [word, decide_eq_true notTrue, decide_eq_true notFalse]
        rfl
  · intro isNumber
    have kind : identifierKind (readWhile isIdentifierCharacter start).1 = .integer ∨
        identifierKind (readWhile isIdentifierCharacter start).1 = .real := isNumber
    unfold identifierKind at kind
    split at kind
    · rcases kind with other | other <;> cases other
    · split at kind
      · rcases kind with other | other <;> cases other
      · rcases kind with other | other <;> cases other

theorem lexNumber_wellSpelled {last : Option Token} {start : LexerCursor} {c : Char}
    {after : List Char} (isNext : start.rest = c :: after) (isDigit : c.isDigit = true) :
    ∀ token ∈ (lexNumber file last start).tokens, WellSpelled token := by
  intro token member
  unfold lexNumber at member
  split at member
  · unfold lexPrefixedInteger at member
    have same := List.mem_singleton.mp member
    rw [isNext, List.take_succ_cons, List.cons_append] at same
    rw [same]
    exact wellSpelled_number (by decide) isDigit
  · have digit : isDigitOrUnderscore c = true := by
      unfold isDigitOrUnderscore
      rw [isDigit]
      rfl
    have same := List.mem_singleton.mp member
    rw [readWhile_cons isNext digit, List.cons_append, List.cons_append] at same
    rw [same]
    apply wellSpelled_number _ isDigit
    split
    · decide
    · decide

section Tokens

variable {property : Token → Prop} {assumed : List LexerError → Prop}

/-- A comment is a hash and what follows on its line, and a directive sign is an at. -/
structure PlainText (kind : TokenKind) (text : List Char) : Prop where
  comment : kind = .comment → text.head? = some '#' ∧ '\n' ∉ text
  sign : kind = .at_ → text = ['@']

/-- A property of the tokens that are neither words nor numbers. -/
def HoldsPlainly (file : String) (property : Token → Prop) : Prop :=
  ∀ start kind text, IsPlainKind kind → PlainText kind text →
    property (tokenAt file start kind text)

theorem HoldsPlainly.other (plain : HoldsPlainly file property) {kind : TokenKind}
    (other : IsPlainKind kind ∧ kind ≠ .comment ∧ kind ≠ .at_) (start : LexerCursor)
    (text : List Char) : property (tokenAt file start kind text) :=
  plain start kind text other.1
    ⟨fun isComment => absurd isComment other.2.1, fun isSign => absurd isSign other.2.2⟩

/-- A property of the identifiers and keywords. -/
def HoldsOfWords (file : String) (property : Token → Prop) : Prop :=
  ∀ start c after, start.rest = c :: after → (c.isAlpha = true ∨ c = '_') →
    ∀ token ∈ (lexIdentifierOrKeyword file start).tokens, property token

/-- A property of the numbers whose errors are as assumed. -/
def HoldsOfNumbers (file : String) (assumed : List LexerError → Prop)
    (property : Token → Prop) : Prop :=
  ∀ last start c after, start.rest = c :: after → c.isDigit = true →
    assumed (lexNumber file last start).errors →
      ∀ token ∈ (lexNumber file last start).tokens, property token

theorem lexString_tokens (plain : HoldsPlainly file property) {quote : Char}
    {start : LexerCursor} : ∀ token ∈ (lexString file quote start).tokens, property token := by
  intro token member
  unfold lexString at member
  dsimp only at member
  split at member
  · split at member
    · rw [List.mem_singleton.mp member]
      exact plain.other (by decide) _ _
    · rw [List.mem_singleton.mp member]
      exact plain.other (by decide) _ _
  · rw [List.mem_singleton.mp member]
    exact plain.other (by decide) _ _

theorem lexOperator_tokens (plain : HoldsPlainly file property) {start : LexerCursor} {c : Char} :
    ∀ token ∈ (lexOperator file start c).tokens, property token := by
  intro token member
  unfold lexOperator at member
  split at member
  · rename_i isPair
    rw [List.mem_singleton.mp member]
    exact plain.other (pairKind_plain isPair) _ _
  · split at member
    · rename_i isSingle
      have ⟨isPlain, notComment, sign⟩ := singleKind_plain isSingle
      rw [List.mem_singleton.mp member]
      refine plain _ _ _ isPlain ⟨fun isComment => absurd isComment notComment, fun isSign => ?_⟩
      rw [sign isSign]
    · cases member

/-- One iteration of the lexer emits tokens of a property that words, numbers and the others have. -/
theorem lexAt_tokens (plain : HoldsPlainly file property) (words : HoldsOfWords file property)
    (numbers : HoldsOfNumbers file assumed property) {last : Option Token} {start : LexerCursor}
    {c : Char} {after : List Char} (isNext : start.rest = c :: after)
    (errors : assumed (lexAt file last start c).errors) :
    ∀ token ∈ (lexAt file last start c).tokens, property token := by
  intro token member
  unfold lexAt at member errors
  split at member
  · split at member
    · cases member
    · cases member
  · split at member
    · rw [List.mem_singleton.mp member]
      exact plain.other (by decide) _ _
    · split at member
      · cases member
      · split at member
        · rename_i isHash
          rw [List.mem_singleton.mp member]
          refine plain _ _ _ (by decide)
            ⟨fun _ => ⟨?_, not_mem_readWhile start (by decide)⟩, fun isSign => by cases isSign⟩
          rw [readWhile_cons isNext (by rw [isHash]; decide), isHash, List.head?_cons]
        · split at member
          · rw [List.mem_singleton.mp member]
            exact plain.other (by decide) _ _
          · split at member
            · rename_i alphabetic
              exact words start c after isNext alphabetic token member
            · split at member
              · rename_i notReturn notNewline notSpace notComment notMarker notWord isDigit
                rw [if_neg notReturn, if_neg notNewline, if_neg notSpace, if_neg notComment,
                  if_neg notMarker, if_neg notWord, if_pos isDigit] at errors
                exact numbers last start c after isNext isDigit errors token member
              · split at member
                · exact lexString_tokens plain token member
                · exact lexOperator_tokens plain token member

/-- So does a run of the lexer, where what is assumed of its errors is assumed of every iteration. -/
theorem lexFrom_tokens (plain : HoldsPlainly file property) (words : HoldsOfWords file property)
    (numbers : HoldsOfNumbers file assumed property)
    (parts : ∀ first others, assumed (first ++ others) → assumed first ∧ assumed others)
    (fuel : ℕ) (last : Option Token) (cursor : LexerCursor)
    (errors : assumed (lexFrom file fuel last cursor).2) :
    ∀ token ∈ (lexFrom file fuel last cursor).1, property token := by
  induction fuel generalizing last cursor with
  | zero =>
      intro token member
      rw [List.mem_singleton.mp member]
      exact plain.other (by decide) _ _
  | succ fuel ih =>
      intro token member
      rw [lexFrom.eq_def] at member errors
      dsimp only at member errors
      split at member
      · rw [List.mem_singleton.mp member]
        exact plain.other (by decide) _ _
      · rename_i isNext
        rw [isNext] at errors
        obtain ⟨stepErrors, restErrors⟩ := parts _ _ errors
        rcases List.mem_append.mp member with now | later
        · exact lexAt_tokens plain words numbers isNext stepErrors token now
        · exact ih _ _ restErrors token later

end Tokens

/-- **Every token of a text is spelled as its kind says.** -/
theorem lex_wellSpelled (text : String) : ∀ token ∈ (lex file text).1, WellSpelled token :=
  @lexFrom_tokens file WellSpelled (fun _ => True) (fun _ _ _ plain _ => wellSpelled_plain plain)
    (fun _ _ _ isNext alphabetic => lexIdentifierOrKeyword_wellSpelled isNext alphabetic)
    (fun _ _ _ _ isNext isDigit _ => lexNumber_wellSpelled isNext isDigit)
    (fun _ _ _ => ⟨trivial, trivial⟩) _ _ _ trivial

end LlvmDsdl.Frontend
