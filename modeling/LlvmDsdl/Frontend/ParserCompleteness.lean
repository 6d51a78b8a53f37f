import LlvmDsdl.Frontend.ParserSoundness

/-!
Contract: what the grammar derives, the expression parser accepts.

Owns: completeness of versioned names, types, atoms, attribute access and every level,
and that the tokens of an expression have one tree.

A text is read together with what follows it: the kinds that may not follow are those
that would go on with it.
-/

namespace LlvmDsdl.Frontend

open Support Library.Parsing

/-! ### What may follow -/

/-- The next token is of none of the kinds. -/
def EndsBefore (kinds : List TokenKind) (rest : List Token) : Prop :=
  ∀ token after, rest = token :: after → token.kind ∉ kinds

theorem EndsBefore.sub {kinds fewer : List TokenKind} {rest : List Token}
    (ends : EndsBefore kinds rest) (sub : ∀ kind, kind ∈ fewer → kind ∈ kinds) :
    EndsBefore fewer rest := by
  intro token after same isKind
  exact ends token after same (sub _ isKind)

theorem endsBefore_cons {kinds : List TokenKind} {token : Token} {after : List Token}
    (notKind : token.kind ∉ kinds) : EndsBefore kinds (token :: after) := by
  intro other later same
  rw [← (List.cons.inj same).1]
  exact notKind

theorem EndsBefore.head {kinds : List TokenKind} {token : Token} {after : List Token}
    (ends : EndsBefore kinds (token :: after)) {kind : TokenKind} (blocked : kind ∈ kinds) :
    token.kind ≠ kind := by
  intro isKind
  apply ends token after rfl
  rw [isKind]
  exact blocked

def accessBlocked : List TokenKind :=
  [.dot, .identifier, .lBracket]

def expressionBlocked : List TokenKind :=
  logicalKinds ++ (comparisonKinds ++ (bitwiseKinds ++ (additiveKinds ++
    (multiplicativeKinds ++ ([.starStar] ++ accessBlocked)))))

/-! ### Types -/

theorem integersAhead_none {token : Token} {rest : List Token}
    (notInteger : token.kind ≠ .integer) : integersAhead (token :: rest) = none := by
  unfold integersAhead
  split
  · rename_i same
    rw [(List.cons.inj same).1] at notInteger
    exact if_neg fun kinds => notInteger kinds.1
  · rfl

theorem parseVersionedTail_complete (baseTok : Token) {last : Token} {used : List Token}
    {more : List String} {version : ℕ × ℕ} (tail : NameTail last used more version)
    (components : List String) (rest : List Token) :
    parseVersionedTail baseTok last components (used ++ rest) =
      .ok (⟨components ++ more, version.1, version.2⟩, rest) := by
  induction tail generalizing components with
  | integers isDot touches ahead isVersion =>
      simp only [List.cons_append, List.nil_append]
      rw [parseVersionedTail, if_neg (not_not.mpr isDot), touches, Bool.not_true,
        if_neg Bool.false_ne_true]
      simp only [integersAhead, if_pos ahead, isVersion, List.append_nil]
  | real isDot touches isReal isVersion =>
      simp only [List.cons_append, List.nil_append]
      rw [parseVersionedTail, if_neg (not_not.mpr isDot), touches, Bool.not_true,
        if_neg Bool.false_ne_true]
      have notAhead : integersAhead (_ :: rest) = none := integersAhead_none (by
        rw [isReal]
        exact TokenKind.noConfusion)
      rw [notAhead]
      dsimp only
      rw [if_pos isReal, isVersion, List.append_nil]
  | @component last dot name used components' version isDot touches isName nameTouches tail
      ih =>
      rw [List.cons_append, List.cons_append, parseVersionedTail, if_neg (not_not.mpr isDot),
        touches, Bool.not_true, if_neg Bool.false_ne_true]
      have notAhead : integersAhead (name :: (used ++ rest)) = none := integersAhead_none (by
        rw [isName]
        exact TokenKind.noConfusion)
      have notReal : name.kind ≠ .real := by
        rw [isName]
        exact TokenKind.noConfusion
      rw [notAhead]
      dsimp only
      rw [if_neg notReal, if_pos ⟨isName, nameTouches⟩, ih, List.append_assoc]
      rfl

theorem castPrefix_none {token : Token} {rest : List Token}
    (ends : EndsBefore [.identifier] rest) : castPrefix (token :: rest) = none := by
  cases rest with
  | nil => rfl
  | cons next after =>
      unfold castPrefix
      dsimp only
      exact if_neg fun words => ends.head (List.mem_singleton_self _) words.2.2

theorem parseScalarType_plain {token : Token} {rest : List Token} (isName : token.kind = .identifier)
    (notCast : castPrefix (token :: rest) = none) :
    parseScalarType (token :: rest) =
      match parseNamedScalar .saturated token.text with
      | some (.error message) => .error (some (token.location, message))
      | some (.ok scalar) => .ok (scalar, rest)
      | none =>
          match parseVersionedTail token token [token.text] rest with
          | .error failure => .error (some failure)
          | .ok (versioned, after) => .ok (.versioned versioned, after) := by
  unfold parseScalarType
  rw [notCast]
  dsimp only [Option.map_none, Option.getD_none]
  exact (if_neg (not_not.mpr isName)).trans (if_neg fun both => Bool.false_ne_true both.1)

theorem nameTail_starts {last : Token} {used : List Token} {components : List String}
    {version : ℕ × ℕ} (tail : NameTail last used components version) :
    ∃ first more, used = first :: more ∧ first.kind = .dot := by
  cases tail with
  | integers isDot _ _ _ => exact ⟨_, _, rfl, isDot⟩
  | real isDot _ _ _ => exact ⟨_, _, rfl, isDot⟩
  | component isDot _ _ _ _ => exact ⟨_, _, rfl, isDot⟩

theorem parseScalarType_complete {used : List Token} {scalar : ScalarTypeExprAST}
    (derived : ScalarType used scalar) {rest : List Token}
    (ends : EndsBefore [.identifier] rest) :
    parseScalarType (used ++ rest) = .ok (scalar, rest) := by
  cases derived with
  | named isName isType =>
      rw [List.singleton_append, parseScalarType_plain isName (castPrefix_none ends), isType]
  | @cast castToken token scalar mode isCast isName castable isType =>
      have isPrefix : castPrefix (castToken :: token :: rest) = some (mode, token :: rest) := by
        unfold castPrefix
        dsimp only
        rcases isCast.2 with ⟨word, isMode⟩ | ⟨word, isMode⟩
        · have other : castToken.text ≠ "truncated" := by
            rw [word]
            decide
          rw [if_pos ⟨isCast.1, Or.inl word, isName⟩, if_neg other, isMode]
        · rw [if_pos ⟨isCast.1, Or.inr word, isName⟩, if_pos word, isMode]
      rw [List.cons_append, List.singleton_append]
      unfold parseScalarType
      rw [isPrefix]
      dsimp only [Option.map_some, Option.getD_some]
      rw [if_neg (not_not.mpr isName), castable, if_neg fun both => Bool.false_ne_true both.2,
        isType]
  | @versioned token used components version isName isOther tail =>
      have ⟨first, more, same, isDot⟩ := nameTail_starts tail
      have dotted : EndsBefore [.identifier] (used ++ rest) := by
        rw [same, List.cons_append]
        apply endsBefore_cons
        rw [isDot]
        decide
      rw [List.cons_append, parseScalarType_plain isName (castPrefix_none dotted), isOther]
      dsimp only
      rw [parseVersionedTail_complete token tail]
      rfl

theorem parseArrayKind_complete {mark : List Token} {kind : ArrayKind}
    (marked : ArrayMark mark kind) {rest : List Token}
    (ends : EndsBefore [.lessEqual, .less] rest) : parseArrayKind (mark ++ rest) = (kind, rest) := by
  cases marked with
  | fixed =>
      cases rest with
      | nil => rfl
      | cons token after =>
          rw [List.nil_append]
          unfold parseArrayKind
          dsimp only
          rw [if_neg (ends.head (List.mem_cons_self ..)),
            if_neg (ends.head (List.mem_cons_of_mem _ (List.mem_singleton_self _)))]
  | inclusive isMark =>
      rw [List.singleton_append]
      unfold parseArrayKind
      dsimp only
      rw [if_pos isMark]
  | @exclusive token isMark =>
      have other : token.kind ≠ .lessEqual := by
        rw [isMark]
        decide
      rw [List.singleton_append]
      unfold parseArrayKind
      dsimp only
      rw [if_neg other, if_pos isMark]

theorem expect_kind {kind : TokenKind} {message : String} {token : Token} {rest : List Token}
    (isKind : token.kind = kind) : expect kind message (token :: rest) = (rest, []) := by
  unfold expect
  dsimp only
  rw [if_pos isKind]

section Expressions

variable {expression : TokenParser ExprAST} {derives : Derives}

/-- An expression is read up to a token that does not go on with it. -/
def Reads (expression : TokenParser ExprAST) (derives : Derives) : Prop :=
  Complete expression derives fun _ rest => EndsBefore expressionBlocked rest

theorem Reads.before (reads : Reads expression derives) {used rest : List Token}
    {value : ExprAST} (derived : derives used value) {token : Token}
    (closes : token.kind ∉ expressionBlocked) :
    expression (used ++ token :: rest) = ⟨some value, token :: rest, []⟩ :=
  reads used value (token :: rest) derived (endsBefore_cons closes)

theorem StartsWith.endsBefore {kinds others : List TokenKind} (starts : StartsWith kinds derives)
    (disjoint : ∀ kind ∈ kinds, kind ∉ others) {used : List Token} {value : ExprAST}
    (derived : derives used value) (rest : List Token) : EndsBefore others (used ++ rest) := by
  have ⟨first, more, same, isKind⟩ := starts used value derived
  rw [same, List.cons_append]
  exact endsBefore_cons (disjoint _ isKind)

theorem parseTypeExpr_complete (reads : Reads expression derives)
    (starts : StartsWith expressionKinds derives) (silent : Bool) {used : List Token}
    {type : TypeExprAST} (derived : TypeExpr derives used type) {rest : List Token}
    (ends : EndsBefore [.identifier, .lBracket] rest) :
    parseTypeExpr expression silent (used ++ rest) = ⟨some type, rest, []⟩ := by
  have noName : EndsBefore [.identifier] rest := ends.sub (by decide)
  cases derived with
  | @scalar used scalar derived =>
      have ⟨first, more, same, _⟩ := scalarType_starts derived
      have nonempty : used ≠ [] := by
        rw [same]
        exact List.cons_ne_nil first more
      unfold parseTypeExpr
      rw [parseScalarType_complete derived noName, currentLocation_append rest nonempty]
      dsimp only
      unfold parseArraySuffix
      cases rest with
      | nil => rfl
      | cons token after =>
          dsimp only
          rw [if_neg (ends.head (by decide))]
  | @array used mark inner scalar bracket close kind capacity derived isOpen marked
      capacityDerived isClose =>
      have ⟨first, more, same, _⟩ := scalarType_starts derived
      have nonempty : used ≠ [] := by
        rw [same]
        exact List.cons_ne_nil first more
      have opened : EndsBefore [.identifier]
          (bracket :: (mark ++ (inner ++ close :: rest))) := by
        apply endsBefore_cons
        rw [isOpen]
        decide
      have closes : close.kind ∉ expressionBlocked := by
        rw [isClose]
        decide
      have unmarked : EndsBefore [.lessEqual, .less] (inner ++ close :: rest) :=
        starts.endsBefore (by decide) capacityDerived _
      have whole : used ++ bracket :: (mark ++ (inner ++ [close])) ++ rest =
          used ++ bracket :: (mark ++ (inner ++ close :: rest)) := by
        simp only [List.append_assoc, List.cons_append, List.nil_append]
      rw [whole]
      unfold parseTypeExpr
      rw [parseScalarType_complete derived opened, currentLocation_append _ nonempty]
      dsimp only
      unfold parseArraySuffix
      dsimp only
      rw [if_pos isOpen, parseArrayKind_complete marked unmarked]
      dsimp only
      rw [reads.before capacityDerived closes]
      dsimp only
      rw [expect_kind isClose]
      rfl

/-! ### Atoms -/

theorem leadingPoint_none {token : Token} {rest : List Token} (notDot : token.kind ≠ .dot) :
    leadingPoint token rest = none := by
  unfold leadingPoint
  split
  · exact if_neg fun isPoint => notDot isPoint.1
  · rfl

theorem trailingPoint_none {token : Token} {rest : List Token} (isInteger : token.kind = .integer)
    (stops : AtomStops [token] rest) : trailingPoint token rest = none := by
  unfold trailingPoint
  split
  · rename_i dot after
    apply if_neg
    intro isPoint
    exact stops dot after rfl ⟨token, rfl, isInteger, isPoint⟩
  · rfl

theorem parseElements_complete (reads : Reads expression derives) {used : List Token}
    {items : List ExprAST} (derived : Elements derives used items) {close : Token}
    (isClose : close.kind = .rBrace) (rest : List Token) {fuel : ℕ}
    (enough : (used ++ close :: rest).length ≤ fuel) :
    parseElements expression fuel (used ++ close :: rest) = ⟨some items, close :: rest, []⟩ := by
  induction derived generalizing fuel with
  | single derived =>
      have closes : close.kind ∉ expressionBlocked := by
        rw [isClose]
        decide
      have notComma : close.kind ≠ .comma := by
        rw [isClose]
        decide
      rw [List.length_append, List.length_cons] at enough
      cases fuel with
      | zero => omega
      | succ fuel =>
          rw [parseElements, reads.before derived closes]
          dsimp only
          rw [if_neg notComma]
  | @more used later comma item items derived isComma others ih =>
      have closes : comma.kind ∉ expressionBlocked := by
        rw [isComma]
        decide
      rw [List.append_assoc, List.cons_append, List.length_append, List.length_cons] at enough
      cases fuel with
      | zero => omega
      | succ fuel =>
          rw [List.append_assoc, List.cons_append, parseElements, reads.before derived closes]
          dsimp only
          rw [if_pos isComma, ih (by omega)]
          rfl

theorem elements_starts {kinds : List TokenKind} (starts : StartsWith kinds derives)
    {used : List Token} {items : List ExprAST} (derived : Elements derives used items) :
    ∃ first more, used = first :: more ∧ first.kind ∈ kinds := by
  cases derived with
  | single derived => exact starts _ _ derived
  | more derived _ _ =>
      have ⟨first, more, same, isKind⟩ := starts _ _ derived
      exact ⟨first, _, congrArg (· ++ _) same, isKind⟩

theorem parseSetLiteral_complete (reads : Reads expression derives)
    (starts : StartsWith expressionKinds derives) (location : SourceLocation) {used : List Token}
    {items : List ExprAST} (derived : Elements derives used items) {close : Token}
    (isClose : close.kind = .rBrace) (rest : List Token) :
    parseSetLiteral expression location (used ++ close :: rest) =
      ⟨some (.setLiteral location items), rest, []⟩ := by
  have ⟨first, more, same, isKind⟩ := elements_starts starts derived
  have notEmpty : ((used ++ close :: rest).head?.map Token.kind) ≠ some .rBrace := by
    rw [same, List.cons_append, List.head?_cons, Option.map_some]
    intro isBrace
    rw [Option.some.inj isBrace] at isKind
    revert isKind
    decide
  unfold parseSetLiteral
  rw [if_neg notEmpty, parseElements_complete reads derived isClose rest (Nat.le_succ _)]
  dsimp only
  rw [expect_kind isClose]
  rfl

structure AtomFollows (used rest : List Token) : Prop where
  /-- Neither a name nor a bracket, which would go on with a type. -/
  ends : EndsBefore [.identifier, .lBracket] rest
  stops : AtomStops used rest
  /-- A name is not the first component of a versioned one. -/
  unversioned : ∀ token, used = [token] →
    ∃ failure, parseVersionedTail token token [token.text] rest = .error failure

theorem parseTypeOrIdentifier_type (reads : Reads expression derives)
    (starts : StartsWith expressionKinds derives) {token : Token} {more rest : List Token}
    {type : TypeExprAST} (derived : TypeExpr derives (token :: more) type)
    (ends : EndsBefore [.identifier, .lBracket] rest) :
    parseTypeOrIdentifier expression token (more ++ rest) =
      ⟨some (.typeLiteral type.location type), rest, []⟩ := by
  unfold parseTypeOrIdentifier
  rw [← List.cons_append, parseTypeExpr_complete reads starts true derived ends]

theorem parseTypeOrIdentifier_identifier {token : Token} {rest : List Token}
    (isName : token.kind = .identifier)
    (isNoType : ∀ scalar, parseNamedScalar .saturated token.text ≠ some (.ok scalar))
    (follows : AtomFollows [token] rest) :
    parseTypeOrIdentifier expression token rest =
      ⟨some (.identifier token.location token.text), rest, []⟩ := by
  have noName : EndsBefore [.identifier] rest := follows.ends.sub (by decide)
  have fails : ∃ failure, parseScalarType (token :: rest) = .error failure := by
    rw [parseScalarType_plain isName (castPrefix_none noName)]
    rcases isType : parseNamedScalar .saturated token.text with _ | message | scalar
    · have ⟨failure, failed⟩ := follows.unversioned token rfl
      dsimp only
      rw [failed]
      exact ⟨some failure, rfl⟩
    · exact ⟨some (token.location, message), rfl⟩
    · exact absurd isType (isNoType scalar)
  have ⟨failure, failed⟩ := fails
  unfold parseTypeOrIdentifier parseTypeExpr
  rw [failed]
  rfl

def parseAtomOfKind (expression : TokenParser ExprAST) (token : Token) (rest : List Token)
    (kind : TokenKind) : Parsed Token Diagnostic ExprAST :=
  match kind with
  | .trueKeyword => ⟨some (.boolean token.location true), rest, []⟩
  | .falseKeyword => ⟨some (.boolean token.location false), rest, []⟩
  | .integer => parseInteger token rest
  | .real =>
      literalOf token.location (parseRealLiteral token.text)
        ("real literal '" ++ token.text ++ "' cannot be represented") rest
  | .string => ⟨some (.string token.location token.text), rest, []⟩
  | .lParen => parseParenthesised expression rest
  | .lBrace => parseSetLiteral expression token.location rest
  | .identifier => parseTypeOrIdentifier expression token rest
  | _ => ⟨none, token :: rest, [errorDiagnostic token.location "expected expression atom"]⟩

theorem parsePrimary_kind {token : Token} {rest : List Token} {kind : TokenKind}
    (isKind : token.kind = kind) (notDot : kind ≠ .dot) :
    parsePrimary expression (token :: rest) = parseAtomOfKind expression token rest kind := by
  rw [← isKind] at notDot
  rw [← isKind]
  unfold parsePrimary
  dsimp only
  rw [leadingPoint_none notDot]
  rfl

theorem parsePrimary_complete (reads : Reads expression derives)
    (starts : StartsWith expressionKinds derives) :
    Complete (parsePrimary expression) (Atom derives) AtomFollows := by
  intro used value rest derived follows
  cases derived with
  | @leadingPoint dot fraction number isDot digits touches isLiteral =>
      have kinds : fraction.kind = .integer ∨ fraction.kind = .real := digits.imp_left And.left
      have decimal : fraction.kind ≠ .integer ∨ isDecimalIntegerLiteral fraction.text = true := by
        rcases digits with isInteger | isReal
        · exact Or.inr isInteger.2
        · left
          rw [isReal]
          decide
      have isPoint : leadingPoint dot (fraction :: rest) = some (fraction, rest) :=
        if_pos ⟨isDot, kinds, decimal, touches⟩
      rw [List.cons_append, List.singleton_append]
      unfold parsePrimary
      dsimp only
      rw [isPoint]
      dsimp only
      rw [isLiteral]
      rfl
  | trueKeyword isTrue =>
      rw [List.singleton_append, parsePrimary_kind isTrue (by decide)]
      rfl
  | falseKeyword isFalse =>
      rw [List.singleton_append, parsePrimary_kind isFalse (by decide)]
      rfl
  | integer isInteger isLiteral =>
      rw [List.singleton_append, parsePrimary_kind isInteger (by decide)]
      unfold parseAtomOfKind
      dsimp only
      unfold parseInteger
      rw [trailingPoint_none isInteger follows.stops, isLiteral]
      rfl
  | @trailingPoint token dot number isInteger isDot decimal touches isLiteral =>
      have isPoint : LlvmDsdl.Frontend.trailingPoint token (dot :: rest) = some rest :=
        if_pos ⟨isDot, decimal, touches⟩
      rw [List.cons_append, List.singleton_append, parsePrimary_kind isInteger (by decide)]
      unfold parseAtomOfKind
      dsimp only
      unfold parseInteger
      rw [isPoint]
      dsimp only
      rw [isLiteral]
      rfl
  | real isReal isLiteral =>
      rw [List.singleton_append, parsePrimary_kind isReal (by decide)]
      unfold parseAtomOfKind
      dsimp only
      rw [isLiteral]
      rfl
  | string isString =>
      rw [List.singleton_append, parsePrimary_kind isString (by decide)]
      rfl
  | @parenthesised opening closing inner value isOpen derived isClose =>
      have closes : closing.kind ∉ expressionBlocked := by
        rw [isClose]
        decide
      rw [List.cons_append, List.append_assoc, List.singleton_append,
        parsePrimary_kind isOpen (by decide)]
      unfold parseAtomOfKind
      dsimp only
      unfold parseParenthesised
      rw [reads.before derived closes]
      dsimp only
      rw [expect_kind isClose]
      rfl
  | @emptySet opening closing isOpen isClose =>
      have isEmpty : ((closing :: rest).head?.map Token.kind) = some .rBrace :=
        congrArg some isClose
      rw [List.cons_append, List.singleton_append, parsePrimary_kind isOpen (by decide)]
      unfold parseAtomOfKind
      dsimp only
      unfold parseSetLiteral
      rw [if_pos isEmpty]
      dsimp only
      rw [expect_kind isClose]
      rfl
  | set isOpen derived isClose =>
      rw [List.cons_append, List.append_assoc, List.singleton_append,
        parsePrimary_kind isOpen (by decide)]
      exact parseSetLiteral_complete reads starts _ derived isClose rest
  | type derived =>
      have ⟨first, more, same, isName⟩ := typeExpr_starts derived
      rw [same] at derived
      rw [same, List.cons_append, parsePrimary_kind isName (by decide)]
      exact parseTypeOrIdentifier_type reads starts derived follows.ends
  | identifier isName isNoType =>
      rw [List.singleton_append, parsePrimary_kind isName (by decide)]
      exact parseTypeOrIdentifier_identifier isName isNoType follows

/-! ### Attribute access -/

/-- What is left of an attribute access: attributes, then a token that does not go on. -/
inductive AttributeTail : List Token → Prop where
  | stop {rest : List Token} (ends : EndsBefore accessBlocked rest) : AttributeTail rest
  | access {dot name : Token} {rest : List Token} (isDot : dot.kind = .dot)
      (isName : name.kind = .identifier) (tail : AttributeTail rest) :
      AttributeTail (dot :: name :: rest)

theorem AttributeTail.ends {rest : List Token} (tail : AttributeTail rest) :
    EndsBefore [.identifier, .lBracket] rest := by
  cases tail with
  | stop ends => exact ends.sub (by decide)
  | access isDot _ _ =>
      apply endsBefore_cons
      rw [isDot]
      decide

theorem AttributeTail.unversioned {rest : List Token} (tail : AttributeTail rest)
    (baseTok last : Token) (components : List String) :
    ∃ failure, parseVersionedTail baseTok last components rest = .error failure := by
  induction tail generalizing last components with
  | @stop rest ends =>
      rcases rest with _ | ⟨dot, _ | ⟨next, after⟩⟩
      · exact ⟨_, rfl⟩
      · rw [parseVersionedTail, if_pos (ends.head (by decide))]
        exact ⟨_, rfl⟩
      · rw [parseVersionedTail, if_pos (ends.head (by decide))]
        exact ⟨_, rfl⟩
  | @access dot name rest isDot isName _ ih =>
      have notInteger : name.kind ≠ .integer := by
        rw [isName]
        decide
      have notReal : name.kind ≠ .real := by
        rw [isName]
        decide
      rw [parseVersionedTail, if_neg (not_not.mpr isDot), integersAhead_none notInteger]
      dsimp only
      rw [if_neg notReal]
      split
      · exact ⟨_, rfl⟩
      · split
        · exact ih name _
        · exact ⟨_, rfl⟩

theorem attributesFrom_stop {rest : List Token} (ends : EndsBefore accessBlocked rest)
    (lhs : ExprAST) : attributesFrom lhs rest = (lhs, rest) := by
  rcases rest with _ | ⟨dot, _ | ⟨name, after⟩⟩
  · rfl
  · rfl
  · rw [attributesFrom, if_neg fun kinds => ends.head (by decide) kinds.1]

/-- The first atom of an attribute access is read, and its attributes are taken after it. -/
theorem attributes_reach (reads : Reads expression derives)
    (starts : StartsWith expressionKinds derives) {used : List Token} {value : ExprAST}
    (derived : AttributeAccess derives used value) {rest : List Token}
    (tail : AttributeTail rest) (stops : AtomStops used rest) :
    ∃ lhs after, parsePrimary expression (used ++ rest) = ⟨some lhs, after, []⟩ ∧
      attributesFrom lhs after = attributesFrom value rest := by
  induction derived generalizing rest with
  | @bare used value derived =>
      have follows : AtomFollows used rest :=
        ⟨tail.ends, stops, fun token _ => tail.unversioned token token [token.text]⟩
      exact ⟨value, rest, parsePrimary_complete reads starts used value rest derived follows, rfl⟩
  | @access used lhs dot name _ isDot isName free ih =>
      have stopped : AtomStops used (dot :: name :: rest) := by
        intro other after same
        rw [← (List.cons.inj same).1]
        exact free
      have ⟨first, after, read, same⟩ := ih (.access isDot isName tail) stopped
      refine ⟨first, after, ?_, ?_⟩
      · rw [List.append_assoc]
        exact read
      · rw [same, attributesFrom, if_pos ⟨isDot, isName⟩]

theorem parseAttributeAccess_complete (reads : Reads expression derives)
    (starts : StartsWith expressionKinds derives) :
    Complete (parseAttributeAccess expression) (AttributeAccess derives) fun _ rest =>
      EndsBefore accessBlocked rest := by
  intro used value rest derived ends
  have stops : AtomStops used rest := by
    intro dot after same ⟨_, _, _, isDot, _⟩
    rw [same] at ends
    exact ends.head (by decide) isDot
  have ⟨lhs, after, read, same⟩ := attributes_reach reads starts derived (.stop ends) stops
  unfold parseAttributeAccess
  rw [read]
  dsimp only
  rw [same, attributesFrom_stop ends]

/-! ### Levels -/

theorem binaryOperator_kind {kinds : List TokenKind} {token : Token}
    (isOperator : binaryOperator kinds token ≠ none) : token.kind ∈ kinds := by
  by_contra other
  exact isOperator (if_neg other)

theorem binaryOperator_none {kinds : List TokenKind} {token : Token} (other : token.kind ∉ kinds) :
    binaryOperator kinds token = none :=
  if_neg other

/-- A level of left-associative operators over a complete one is complete. -/
theorem binaryChain_complete {operand : TokenParser ExprAST} {inner : Derives}
    {kinds blocked : List TokenKind} (disjoint : ∀ kind ∈ kinds, kind ∉ blocked)
    (complete : Complete operand inner fun _ rest => EndsBefore blocked rest) :
    Complete (leftChain (binaryOperator kinds) missingRight operand)
      (Chain (binaryOperator kinds) inner) fun _ rest => EndsBefore (kinds ++ blocked) rest := by
  apply leftChain_complete complete
  · intro _ op after isOperator
    exact endsBefore_cons (disjoint _ (binaryOperator_kind isOperator))
  · intro _ rest ends
    exact ends.sub fun kind isBlocked => List.mem_append_right kinds isBlocked
  · intro op after ends
    exact binaryOperator_none fun isKind => ends op after rfl (List.mem_append_left blocked isKind)

theorem signOperator_none {token : Token} (other : token.kind ∉ [TokenKind.plus, .minus]) :
    signOperator token = none := by
  by_contra isSign
  exact other (signOperator_kind token isSign)

theorem notOperator_none {token : Token} (other : token.kind ∉ [TokenKind.bang]) :
    notOperator token = none := by
  by_contra isNot
  exact other (notOperator_kind token isNot)

theorem atomKinds_unsigned : ∀ kind ∈ atomKinds, kind ∉ [TokenKind.plus, .minus] := by
  decide

theorem operandKinds_unnegated :
    ∀ kind ∈ [TokenKind.plus, .minus] ++ atomKinds, kind ∉ [TokenKind.bang] := by
  decide

theorem power_accessible : ∀ kind ∈ [TokenKind.starStar], kind ∉ accessBlocked := by
  decide

theorem parseExponential_complete (reads : Reads expression derives)
    (starts : StartsWith expressionKinds derives) :
    Complete (parseExponential expression) (Exponential derives) fun _ rest =>
      EndsBefore ([.starStar] ++ accessBlocked) rest := by
  intro used value rest derived ends
  have unsigned : StartsWithout signOperator (AttributeAccess derives) := by
    apply (attributes_starts (atom_starts derives)).startsWithout
    intro token isKind
    exact signOperator_none (atomKinds_unsigned _ isKind)
  unfold parseExponential
  apply powerChain_reads (parseAttributeAccess_complete reads starts) unsigned _ _ _ derived ends
  · rw [List.length_append]
    omega
  · intro _ op after isPower
    exact endsBefore_cons (power_accessible _ (binaryOperator_kind isPower))
  · intro _ rest ends
    exact ends.sub (by decide)
  · intro op after ends
    exact binaryOperator_none fun isKind => ends op after rfl (List.mem_append_left _ isKind)

theorem parseInversion_complete (reads : Reads expression derives)
    (starts : StartsWith expressionKinds derives) :
    Complete (parseInversion expression) (Inversion derives) fun _ rest =>
      EndsBefore ([.starStar] ++ accessBlocked) rest := by
  apply optionalPrefix_complete (parseExponential_complete reads starts)
  · apply (exponential_starts derives).startsWithout
    intro token isKind
    exact signOperator_none (atomKinds_unsigned _ isKind)
  · intro _ rest ends
    exact ends

theorem parseComparison_complete (reads : Reads expression derives)
    (starts : StartsWith expressionKinds derives) :
    Complete (parseComparison expression) (Comparison derives) fun _ rest =>
      EndsBefore (comparisonKinds ++ (bitwiseKinds ++ (additiveKinds ++ (multiplicativeKinds ++
        ([.starStar] ++ accessBlocked))))) rest := by
  apply binaryChain_complete (by decide)
  apply binaryChain_complete (by decide)
  apply binaryChain_complete (by decide)
  apply binaryChain_complete (by decide)
  exact parseInversion_complete reads starts

theorem parseLogical_complete (reads : Reads expression derives)
    (starts : StartsWith expressionKinds derives) :
    Reads (parseLogical expression) (Logical derives) := by
  apply binaryChain_complete (by decide)
  apply prefixChain_complete (parseComparison_complete reads starts)
  · apply (comparison_starts derives).startsWithout
    intro token isKind
    exact notOperator_none (operandKinds_unnegated _ isKind)
  · intro _ rest ends
    exact ends

end Expressions

/-- **What the grammar derives, the parser accepts**, when the nesting is allowed. -/
theorem parseExpressionWithin_complete (allowed : ℕ) :
    Reads (parseExpressionWithin allowed) (Derivation allowed) := by
  induction allowed with
  | zero =>
      intro used value rest derived
      exact derived.elim
  | succ allowed ih =>
      intro used value rest derived ends
      exact parseLogical_complete ih (derivation_starts allowed) used value rest
        derived ends

/-- **The tokens of an expression have one tree.** -/
theorem expression_unique {used : List Token} {value other : ExprAST}
    (derived : Expression used value) (otherDerived : Expression used other) : value = other := by
  have ⟨nesting, deep⟩ := derived
  have ⟨otherNesting, otherDeep⟩ := otherDerived
  have ends : EndsBefore expressionBlocked [] := by
    intro token after same
    cases same
  exact (parseExpressionWithin_complete (max nesting otherNesting)).unique ends
    (derivation_mono (Nat.le_max_left _ _) deep) (derivation_mono (Nat.le_max_right _ _) otherDeep)

end LlvmDsdl.Frontend
