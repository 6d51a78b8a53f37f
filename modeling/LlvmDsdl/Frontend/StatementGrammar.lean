import LlvmDsdl.Frontend.StatementParser
import LlvmDsdl.Frontend.ParserSoundness

/-!
Contract: the lines of an accepted definition, as relations between tokens and
statements.

Owns: the tokens of expressions and types, which stand within a line, the tokens of a
statement's type, what a statement and the lines of a definition are read from, and
that the parser accepts nothing else.
-/

namespace LlvmDsdl.Frontend

open Library.Parsing

/-- A token that neither ends a line nor is a comment. -/
def IsInline (token : Token) : Prop :=
  token.kind ≠ .eof ∧ token.kind ≠ .newline ∧ token.kind ≠ .comment

theorem isInline_of_kind {token : Token} {kind : TokenKind} (isKind : token.kind = kind)
    (inline : kind ≠ .eof ∧ kind ≠ .newline ∧ kind ≠ .comment) : IsInline token := by
  unfold IsInline
  rw [isKind]
  exact inline

theorem isInline_of_mem {token : Token} {kinds : List TokenKind} (member : token.kind ∈ kinds)
    (inline : ∀ kind ∈ kinds, kind ≠ .eof ∧ kind ≠ .newline ∧ kind ≠ .comment) :
    IsInline token :=
  inline _ member

theorem nameTail_inline {last : Token} {used : List Token} {components : List String}
    {version : ℕ × ℕ} (tail : NameTail last used components version) :
    ∀ token ∈ used, IsInline token := by
  induction tail with
  | integers isDot _ ahead _ =>
      simp [isInline_of_kind isDot, isInline_of_kind ahead.1, isInline_of_kind ahead.2.1,
        isInline_of_kind ahead.2.2]
  | real isDot _ isReal _ => simp [isInline_of_kind isDot, isInline_of_kind isReal]
  | component isDot _ isName _ _ ih =>
      simpa [isInline_of_kind isDot, isInline_of_kind isName] using ih

theorem scalarType_inline {used : List Token} {scalar : ScalarTypeExprAST}
    (derived : ScalarType used scalar) : ∀ token ∈ used, IsInline token := by
  cases derived with
  | named isName _ => simp [isInline_of_kind isName]
  | cast isCast isName _ _ => simp [isInline_of_kind isCast.1, isInline_of_kind isName]
  | versioned isName _ tail =>
      simpa [isInline_of_kind isName] using nameTail_inline tail

theorem bracketed_inline {opening closing : Token} {used : List Token}
    (openInline : IsInline opening) (closeInline : IsInline closing)
    (inside : ∀ token ∈ used, IsInline token) :
    ∀ token ∈ opening :: (used ++ [closing]), IsInline token := by
  intro token member
  rw [List.mem_cons, List.mem_append, List.mem_singleton] at member
  rcases member with rfl | within | rfl
  · exact openInline
  · exact inside token within
  · exact closeInline

section Expressions

variable {derives : Derives} (inner : MadeOf IsInline derives)

include inner

theorem typeExpr_inline {used : List Token} {value : TypeExprAST}
    (derived : TypeExpr derives used value) : ∀ token ∈ used, IsInline token := by
  cases derived with
  | scalar derived => exact scalarType_inline derived
  | @array used mark capacityUsed scalar bracket close kind capacity derived isOpen marked
      capacityDerived isClose =>
      have markInline : ∀ token ∈ mark, IsInline token := by
        cases marked with
        | fixed => simp
        | inclusive isMark => simp [isInline_of_kind isMark]
        | exclusive isMark => simp [isInline_of_kind isMark]
      intro token member
      rw [List.mem_append, List.mem_cons, List.mem_append, List.mem_append,
        List.mem_singleton] at member
      rcases member with first | rfl | mark | capacity | rfl
      · exact scalarType_inline derived token first
      · exact isInline_of_kind isOpen (by decide)
      · exact markInline token mark
      · exact inner _ _ capacityDerived token capacity
      · exact isInline_of_kind isClose (by decide)

theorem elements_inline {used : List Token} {items : List ExprAST}
    (derived : Elements derives used items) : ∀ token ∈ used, IsInline token := by
  induction derived with
  | single derived => exact inner _ _ derived
  | more derived isComma _ ih =>
      intro token member
      rcases List.mem_append.mp member with first | right
      · exact inner _ _ derived token first
      · rcases List.mem_cons.mp right with rfl | later
        · exact isInline_of_kind isComma (by decide)
        · exact ih token later

theorem atom_inline : MadeOf IsInline (Atom derives) := by
  intro used value derived
  cases derived with
  | leadingPoint isDot digits _ _ =>
      rcases digits with isInteger | isReal
      · simp [isInline_of_kind isDot, isInline_of_kind isInteger.1]
      · simp [isInline_of_kind isDot, isInline_of_kind isReal]
  | trueKeyword isTrue => simp [isInline_of_kind isTrue]
  | falseKeyword isFalse => simp [isInline_of_kind isFalse]
  | integer isInteger _ => simp [isInline_of_kind isInteger]
  | trailingPoint isInteger isDot _ _ _ =>
      simp [isInline_of_kind isInteger, isInline_of_kind isDot]
  | real isReal _ => simp [isInline_of_kind isReal]
  | string isString => simp [isInline_of_kind isString]
  | parenthesised isOpen derived isClose =>
      exact bracketed_inline (isInline_of_kind isOpen (by decide))
        (isInline_of_kind isClose (by decide)) (inner _ _ derived)
  | emptySet isOpen isClose => simp [isInline_of_kind isOpen, isInline_of_kind isClose]
  | set isOpen derived isClose =>
      exact bracketed_inline (isInline_of_kind isOpen (by decide))
        (isInline_of_kind isClose (by decide)) (elements_inline inner derived)
  | type derived => exact typeExpr_inline inner derived
  | identifier isName _ => simp [isInline_of_kind isName]

theorem attributes_inline : MadeOf IsInline (Attributes (Atom derives)) := by
  intro used value derived
  induction derived with
  | bare derived => exact atom_inline inner _ _ derived
  | access _ isDot isName _ ih =>
      intro token member
      rw [List.mem_append, List.mem_cons, List.mem_singleton] at member
      rcases member with left | rfl | rfl
      · exact ih token left
      · exact isInline_of_kind isDot (by decide)
      · exact isInline_of_kind isName (by decide)

theorem logical_inline : MadeOf IsInline (Logical derives) := by
  have binary {kinds : List TokenKind}
      (inline : ∀ kind ∈ kinds, kind ≠ .eof ∧ kind ≠ .newline ∧ kind ≠ .comment) (op : Token)
      (combine : ExprAST → ExprAST → ExprAST) (isOperator : binaryOperator kinds op = some combine) :
      IsInline op := by
    unfold binaryOperator at isOperator
    split at isOperator
    · rename_i member
      exact isInline_of_mem member inline
    · cases isOperator
  have sign (op : Token) (apply : ExprAST → ExprAST) (isSign : signOperator op = some apply) :
      IsInline op :=
    isInline_of_mem (signOperator_kind op (by rw [isSign]; exact Option.some_ne_none _))
      (by decide)
  have negation (op : Token) (apply : ExprAST → ExprAST) (isNot : notOperator op = some apply) :
      IsInline op :=
    isInline_of_mem (notOperator_kind op (by rw [isNot]; exact Option.some_ne_none _))
      (by decide)
  refine Chain.madeOf (Prefixed.madeOf ?_ negation) (binary (by decide))
  refine Chain.madeOf (Chain.madeOf (Chain.madeOf (Chain.madeOf ?_ (binary (by decide)))
    (binary (by decide))) (binary (by decide))) (binary (by decide))
  exact Signed.madeOf (Power.madeOf (attributes_inline inner) (binary (by decide)) sign) sign

end Expressions

theorem derivation_inline (nesting : ℕ) : MadeOf IsInline (Derivation nesting) := by
  induction nesting with
  | zero => exact fun _ _ derived => derived.elim
  | succ nesting ih => exact logical_inline ih

def typeTokens (start : List Token) : List Token :=
  readTokens start (parseTypeExpr parseExpression false start).rest

/-- The types of the grammar, as deep as the parser goes. -/
def DerivesType : List Token → TypeExprAST → Prop :=
  TypeExpr (Derivation kMaxExpressionDepth)

/-- A statement, the tokens from its first on, and those behind it. -/
inductive Statement (start : List Token) : StatementAST → List Token → Prop where
  | directive {sign name : Token} {used rest : List Token} {expression : Option ExprAST}
      (split : start = sign :: name :: (used ++ rest)) (isSign : sign.kind = .at_)
      (isName : isDirectiveName name.kind = true) (touches : tokensAdjacent sign name = true)
      (derived : used = [] ∧ expression = none ∨
        ∃ value, expression = some value ∧ Derivation kMaxExpressionDepth used value) :
      Statement start
        (.directive ⟨sign.location, directiveKind name.text, name.text, expression⟩) rest
  | marker {token : Token} {rest : List Token} (split : start = token :: rest)
      (isMarker : token.kind = .serviceResponseMarker) :
      Statement start (.serviceResponseMarker token.location) rest
  | field {type : TypeExprAST} {name : Token} {rest : List Token}
      (typed : DerivesType (typeTokens start) type)
      (split : start = typeTokens start ++ name :: rest) (isName : name.kind = .identifier) :
      Statement start (.field ⟨name.location, type, name.text, false⟩) rest
  | constant {type : TypeExprAST} {name equal : Token} {used rest : List Token}
      {value : ExprAST} (typed : DerivesType (typeTokens start) type)
      (split : start = typeTokens start ++ name :: equal :: (used ++ rest))
      (isName : name.kind = .identifier) (isEqual : equal.kind = .equal)
      (derived : Derivation kMaxExpressionDepth used value) :
      Statement start (.constant ⟨name.location, type, name.text, value⟩) rest
  | padding {type : TypeExprAST} {rest : List Token}
      (typed : DerivesType (typeTokens start) type) (split : start = typeTokens start ++ rest) :
      Statement start (.field ⟨type.location, type, "", true⟩) rest

/-- The statements of lines, with newlines and comments between them. -/
inductive Lines : List Token → List ReadStatement → Prop where
  | done {tokens : List Token} (ended : isAtEnd tokens = true) : Lines tokens []
  | trivia {token : Token} {rest : List Token} {statements : List ReadStatement}
      (skipped : isTrivia token = true) (others : Lines rest statements) :
      Lines (token :: rest) statements
  | statement {start rest : List Token} {statement : StatementAST}
      {statements : List ReadStatement} (read : Statement start statement rest)
      (ended : endsLine rest = true) (others : Lines rest statements) :
      Lines start (⟨statement, start⟩ :: statements)

theorem derivesType_inline {used : List Token} {type : TypeExprAST}
    (derived : DerivesType used type) : ∀ token ∈ used, IsInline token :=
  typeExpr_inline (derivation_inline _) derived

theorem derivesType_ne_nil {used : List Token} {type : TypeExprAST}
    (derived : DerivesType used type) : used ≠ [] := by
  obtain ⟨first, more, same, -⟩ := typeExpr_starts derived
  rw [same]
  exact List.cons_ne_nil _ _

theorem isDirectiveName_inline {token : Token} (isName : isDirectiveName token.kind = true) :
    IsInline token := by
  simp only [isDirectiveName, Bool.or_eq_true, decide_eq_true_eq] at isName
  rcases isName with (isWord | isTrue) | isFalse
  · exact isInline_of_kind isWord (by decide)
  · exact isInline_of_kind isTrue (by decide)
  · exact isInline_of_kind isFalse (by decide)

theorem Statement.reads {start rest : List Token} {statement : StatementAST}
    (read : Statement start statement rest) :
    ∃ used, used ≠ [] ∧ start = used ++ rest ∧ ∀ token ∈ used, IsInline token := by
  cases read with
  | @directive sign name used _ expression split isSign isName touches derived =>
      refine ⟨sign :: name :: used, by simp, split, ?_⟩
      have inline : ∀ token ∈ used, IsInline token := by
        rcases derived with ⟨empty, -⟩ | ⟨value, -, derived⟩
        · simp [empty]
        · exact derivation_inline _ _ _ derived
      simpa [isInline_of_kind isSign, isDirectiveName_inline isName] using inline
  | @marker token _ split isMarker =>
      exact ⟨[token], by simp, split, by simp [isInline_of_kind isMarker]⟩
  | @field type name _ typed split isName =>
      refine ⟨typeTokens start ++ [name], by simp, by simpa using split, ?_⟩
      intro token member
      rcases List.mem_append.mp member with first | last
      · exact derivesType_inline typed token first
      · rw [List.mem_singleton.mp last]
        exact isInline_of_kind isName (by decide)
  | @constant type name equal used _ value typed split isName isEqual derived =>
      refine ⟨typeTokens start ++ name :: equal :: used, by simp, by simpa using split, ?_⟩
      intro token member
      rw [List.mem_append, List.mem_cons, List.mem_cons] at member
      rcases member with first | rfl | rfl | later
      · exact derivesType_inline typed token first
      · exact isInline_of_kind isName (by decide)
      · exact isInline_of_kind isEqual (by decide)
      · exact derivation_inline _ _ _ derived token later
  | padding typed split =>
      exact ⟨typeTokens start, derivesType_ne_nil typed, split, derivesType_inline typed⟩

theorem parseDirective_sound {start rest : List Token} {directive : DirectiveAST}
    (parsed : parseDirective start = ⟨some directive, rest, []⟩) :
    Statement start (.directive directive) rest := by
  unfold parseDirective at parsed
  split at parsed
  · rename_i sign after
    split at parsed
    · cases parsed
    · rename_i isSign
      rw [not_not] at isSign
      split at parsed
      · rename_i name tokens
        split at parsed
        · cases parsed
        · rename_i isName
          split at parsed
          · cases parsed
          · rename_i touches
            rw [Bool.not_eq_true', Bool.not_eq_false] at isName touches
            unfold parseDirectiveRest at parsed
            split at parsed
            · cases parsed
              exact @Statement.directive _ sign name [] _ none rfl isSign isName touches
                (Or.inl ⟨rfl, rfl⟩)
            · split at parsed
              · cases parsed
              · rcases expression : parseExpression tokens with ⟨_ | value, left, errors⟩
                · rw [expression] at parsed
                  have silent : errors = [] := congrArg Parsed.errors parsed
                  rw [silent] at expression
                  exact absurd expression
                    (Loud.not_silent (parseExpressionWithin_loud kMaxExpressionDepth))
                · rw [expression] at parsed
                  cases parsed
                  obtain ⟨used, split, derived, -⟩ :=
                    parseExpressionWithin_sound _ _ _ _ expression
                  exact @Statement.directive _ sign name used _ (some value)
                    (by rw [split]) isSign isName touches (Or.inr ⟨value, rfl, derived⟩)
      · cases parsed
  · cases parsed

theorem readTokens_append (used rest : List Token) : readTokens (used ++ rest) rest = used := by
  unfold readTokens
  rw [List.length_append, Nat.add_sub_cancel, List.take_left]

theorem parsePadding_sound {start tokens rest : List Token} {type : TypeExprAST}
    {statement : StatementAST} (typed : DerivesType (typeTokens start) type)
    (split : start = typeTokens start ++ tokens)
    (parsed : parsePadding type tokens = ⟨some statement, rest, []⟩) :
    Statement start statement rest := by
  unfold parsePadding at parsed
  split at parsed
  · split at parsed
    · cases parsed
    · cases parsed
      exact .padding typed split
  · cases parsed

theorem parseAttribute_sound {start rest : List Token} {statement : StatementAST}
    (parsed : parseAttribute start = ⟨some statement, rest, []⟩) :
    Statement start statement rest := by
  unfold parseAttribute at parsed
  rcases typed : parseTypeExpr parseExpression false start with ⟨_ | type, left, errors⟩
  · rw [typed] at parsed
    cases parsed
  · rw [typed] at parsed
    dsimp only at parsed
    have quiet := congrArg Parsed.errors parsed
    obtain ⟨typeQuiet, restQuiet⟩ := List.append_eq_nil_iff.mp quiet
    have found := congrArg Parsed.value parsed
    have stopped := congrArg Parsed.rest parsed
    dsimp only at found stopped restQuiet
    rw [typeQuiet] at typed
    obtain ⟨used, whole, derived⟩ := parseTypeExpr_sound
      (parseExpressionWithin_sound kMaxExpressionDepth) (parseExpressionWithin_loud _) false
      start type left typed
    have isType : typeTokens start = used := by
      unfold typeTokens
      rw [typed, whole, readTokens_append]
    rw [← isType] at whole derived
    have named : parseAttributeRest (readTokens start left).getLast? type left =
        ⟨some statement, rest, []⟩ := by
      rw [← found, ← stopped, ← restQuiet]
    unfold parseAttributeRest at named
    split at named
    · rename_i name tokens
      split at named
      · rename_i isName
        split at named
        · cases named
        · unfold parseNamedAttribute at named
          split at named
          · rename_i equal after _
            split at named
            · rename_i isEqual
              rcases expression : parseExpression after with ⟨_ | value, last, errors⟩
              · rw [expression] at named
                cases named
              · rw [expression] at named
                cases named
                obtain ⟨used, split, derived', -⟩ :=
                  parseExpressionWithin_sound _ _ _ _ expression
                exact @Statement.constant start type name equal used _ value derived
                  (by rw [← split]; exact whole) isName isEqual derived'
            · cases named
              exact .field derived whole isName
          · cases named
            exact .field derived whole isName
      · exact parsePadding_sound derived whole named
    · exact parsePadding_sound derived whole named

theorem parseDirective_loud : Loud parseDirective := by
  intro tokens nothing
  unfold parseDirective parseDirectiveRest at nothing ⊢
  repeat' split at nothing
  all_goals simp_all

theorem parseAttribute_loud : Loud parseAttribute := by
  intro tokens nothing
  unfold parseAttribute at nothing ⊢
  split at nothing
  · simp
  · unfold parseAttributeRest parseNamedAttribute parsePadding at nothing ⊢
    repeat' split at nothing
    all_goals simp_all

theorem parseStatement_loud : Loud parseStatement := by
  intro tokens nothing
  unfold parseStatement at nothing ⊢
  split at nothing
  · rename_i token after
    split at nothing
    · rename_i isSign
      rw [if_pos isSign]
      exact parseDirective_loud _ (Option.map_eq_none_iff.mp nothing)
    · rename_i notSign
      rw [if_neg notSign]
      split at nothing
      · cases nothing
      · rename_i notMarker
        rw [if_neg notMarker]
        exact parseAttribute_loud _ nothing
  · exact parseAttribute_loud _ nothing

theorem parseStatement_sound {start rest : List Token} {statement : StatementAST}
    (parsed : parseStatement start = ⟨some statement, rest, []⟩) :
    Statement start statement rest := by
  unfold parseStatement at parsed
  split at parsed
  · rename_i token after
    split at parsed
    · rcases directive : parseDirective (token :: after) with ⟨_ | found, left, errors⟩
      · rw [directive] at parsed
        cases parsed
      · rw [directive] at parsed
        cases parsed
        exact parseDirective_sound directive
    · split at parsed
      · rename_i isMarker
        cases parsed
        exact .marker rfl isMarker
      · exact parseAttribute_sound parsed
  · exact parseAttribute_sound parsed

theorem Lines.dropTrivia {tokens : List Token} {statements : List ReadStatement}
    (lines : Lines (tokens.dropWhile isTrivia) statements) : Lines tokens statements := by
  induction tokens with
  | nil => exact lines
  | cons token tokens ih =>
      by_cases skipped : isTrivia token = true
      · rw [List.dropWhile_cons_of_pos skipped] at lines
        exact .trivia skipped (ih lines)
      · rwa [List.dropWhile_cons_of_neg skipped] at lines

theorem Lines.behind_comment {line : UInt32} {tokens : List Token} {statements : List ReadStatement}
    (lines : Lines (collectTrailingDoc line tokens) statements) : Lines tokens statements := by
  unfold collectTrailingDoc at lines
  split at lines
  · split at lines
    · rename_i isComment
      exact .trivia (by simp [isTrivia, isComment.1]) lines
    · exact lines
  · exact lines

theorem endsLine_before_comment {line : UInt32} {tokens : List Token}
    (ended : endsLine (collectTrailingDoc line tokens) = true) : endsLine tokens = true := by
  unfold collectTrailingDoc at ended
  split at ended
  · split at ended
    · rename_i isComment
      simp [endsLine, isComment.1]
    · exact ended
  · exact ended

theorem collectTrailingDoc_length (line : UInt32) (tokens : List Token) :
    (collectTrailingDoc line tokens).length ≤ tokens.length := by
  unfold collectTrailingDoc
  split
  · split <;> simp
  · simp

/-- **A definition is accepted only for the lines of the grammar.** -/
theorem parseStatements_sound {fuel : ℕ} {tokens : List Token} (enough : tokens.length < fuel)
    (accepted : (parseStatements fuel tokens).2 = []) :
    Lines tokens (parseStatements fuel tokens).1 := by
  induction fuel generalizing tokens with
  | zero => omega
  | succ fuel ih =>
      rw [parseStatements] at accepted ⊢
      dsimp only at accepted ⊢
      have shorter := List.length_dropWhile_le isTrivia tokens
      apply Lines.dropTrivia
      split at accepted
      · rename_i ended
        rw [if_pos ended]
        exact .done ended
      · rename_i notEnded
        rw [if_neg notEnded]
        split at accepted
        · cases accepted
        · rename_i atStart
          rw [if_neg atStart]
          rcases parsed : parseStatement (tokens.dropWhile isTrivia) with
            ⟨_ | statement, rest, errors⟩
          · rw [parsed] at accepted
            have silent := (List.append_eq_nil_iff.mp accepted).1
            rw [silent] at parsed
            exact absurd parsed parseStatement_loud.not_silent
          · rw [parsed] at accepted
            dsimp only at accepted ⊢
            have behind := collectTrailingDoc_length statement.location.line rest
            have quiet : errors = [] := by
              split at accepted
              · exact (List.append_eq_nil_iff.mp accepted).1
              · exact (List.append_eq_nil_iff.mp accepted).1
            rw [quiet] at parsed
            have read := parseStatement_sound parsed
            obtain ⟨used, some, split, -⟩ := read.reads
            have less : rest.length < (tokens.dropWhile isTrivia).length := by
              rw [split, List.length_append]
              have := List.length_pos_of_ne_nil some
              omega
            split at accepted
            · rename_i ended
              rw [if_pos ended]
              exact .statement read (endsLine_before_comment ended)
                (ih (by omega) (List.append_eq_nil_iff.mp accepted).2).behind_comment
            · simp at accepted

end LlvmDsdl.Frontend
