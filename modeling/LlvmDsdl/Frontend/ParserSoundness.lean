import LlvmDsdl.Frontend.Grammar

/-!
Contract: what the expression parser accepts, the grammar derives.

Owns: soundness of versioned names, types, atoms, attribute access and every level,
and that a parser without a value has recorded an error.
-/

namespace LlvmDsdl.Frontend

open Support Library.Parsing

/-! ### Types -/

theorem integersAhead_some {tokens rest : List Token} {major mid minor : Token}
    (ahead : integersAhead tokens = some (major, mid, minor, rest)) :
    tokens = major :: mid :: minor :: rest ∧
      major.kind = .integer ∧ mid.kind = .dot ∧ minor.kind = .integer := by
  unfold integersAhead at ahead
  split at ahead
  · split at ahead
    · rename_i kinds
      cases ahead
      exact ⟨rfl, kinds⟩
    · cases ahead
  · cases ahead

theorem parseVersionedTail_sound (baseTok : Token) (tokens : List Token) :
    ∀ (last : Token) (components : List String) (type : VersionedTypeExprAST)
      (rest : List Token),
      parseVersionedTail baseTok last components tokens = .ok (type, rest) →
        ∃ used more version, tokens = used ++ rest ∧ NameTail last used more version ∧
          type = ⟨components ++ more, version.1, version.2⟩ := by
  induction tokens using List.twoStepInduction with
  | nil =>
      intro last components type rest parsed
      cases parsed
  | singleton dot =>
      intro last components type rest parsed
      rw [parseVersionedTail] at parsed
      split at parsed
      · cases parsed
      · split at parsed
        · cases parsed
        · cases parsed
  | cons_cons dot next tokens ih _ =>
      intro last components type rest parsed
      rw [parseVersionedTail] at parsed
      by_cases isDot : dot.kind = .dot
      · rw [if_neg (not_not.mpr isDot)] at parsed
        cases touches : tokensAdjacent last dot with
        | false =>
            rw [touches] at parsed
            cases parsed
        | true =>
            rw [touches, Bool.not_true, if_neg Bool.false_ne_true] at parsed
            cases ahead : integersAhead (next :: tokens) with
            | some found =>
                rcases found with ⟨major, mid, minor, after⟩
                rw [ahead] at parsed
                dsimp only at parsed
                have ⟨same, kinds⟩ := integersAhead_some ahead
                cases isVersion : versionOfIntegers dot major mid minor with
                | none =>
                    rw [isVersion] at parsed
                    cases parsed
                | some version =>
                    rw [isVersion] at parsed
                    cases parsed
                    refine ⟨[dot, major, mid, minor], [], version, ?_,
                      .integers isDot touches kinds isVersion, ?_⟩
                    · rw [same]
                      rfl
                    · rw [List.append_nil]
            | none =>
                rw [ahead] at parsed
                dsimp only at parsed
                by_cases isReal : next.kind = .real
                · rw [if_pos isReal] at parsed
                  cases isVersion : versionOfReal dot next with
                  | none =>
                      rw [isVersion] at parsed
                      cases parsed
                  | some version =>
                      rw [isVersion] at parsed
                      cases parsed
                      refine ⟨[dot, next], [], version, rfl,
                        .real isDot touches isReal isVersion, ?_⟩
                      rw [List.append_nil]
                · rw [if_neg isReal] at parsed
                  split at parsed
                  · rename_i isName
                    have ⟨used, more, version, split, tail, whole⟩ :=
                      ih next (components ++ [next.text]) type rest parsed
                    refine ⟨dot :: next :: used, next.text :: more, version, ?_,
                      .component isDot touches isName.1 isName.2 tail, ?_⟩
                    · rw [split]
                      rfl
                    · rw [whole, List.append_assoc]
                      rfl
                  · cases parsed
      · rw [if_pos isDot] at parsed
        cases parsed

theorem castPrefix_some {tokens rest : List Token} {mode : CastMode}
    (isCast : castPrefix tokens = some (mode, rest)) :
    ∃ castToken token after, tokens = castToken :: token :: after ∧ rest = token :: after ∧
      castToken.kind = .identifier ∧ token.kind = .identifier ∧
        (castToken.text = "saturated" ∧ mode = .saturated ∨
          castToken.text = "truncated" ∧ mode = .truncated) := by
  unfold castPrefix at isCast
  split at isCast
  · rename_i castToken token after
    split at isCast
    · rename_i words
      cases isCast
      refine ⟨castToken, token, after, rfl, rfl, words.1, words.2.2, ?_⟩
      by_cases truncated : castToken.text = "truncated"
      · exact Or.inr ⟨truncated, if_pos truncated⟩
      · exact Or.inl ⟨words.2.1.resolve_right truncated, if_neg truncated⟩
    · cases isCast
  · cases isCast

theorem parseNamedScalar_of_castable (mode : CastMode) {name : String}
    (castable : isCastable name = true) : parseNamedScalar mode name ≠ none := by
  intro nothing
  unfold parseNamedScalar at nothing
  unfold isCastable at castable
  split at nothing
  · cases nothing
  · split at nothing
    · cases nothing
    · split at nothing
      · cases nothing
      · cases isVoid : widthOf .void name with
        | some digits =>
            rw [isVoid] at nothing
            cases nothing
        | none =>
            cases isUnsigned : widthOf .unsignedInteger name with
            | some digits =>
                rw [isVoid, isUnsigned] at nothing
                cases nothing
            | none =>
                cases isSigned : widthOf .signedInteger name with
                | some digits =>
                    rw [isVoid, isUnsigned, isSigned] at nothing
                    cases nothing
                | none =>
                    cases isFloat : widthOf .float name with
                    | some digits =>
                        rw [isVoid, isUnsigned, isSigned, isFloat] at nothing
                        cases nothing
                    | none =>
                        rw [isUnsigned, isSigned, isFloat] at castable
                        cases castable

theorem parseScalarType_sound {tokens rest : List Token} {scalar : ScalarTypeExprAST}
    (parsed : parseScalarType tokens = .ok (scalar, rest)) :
    ∃ used, tokens = used ++ rest ∧ ScalarType used scalar := by
  unfold parseScalarType at parsed
  cases isCast : castPrefix tokens with
  | none =>
      rw [isCast] at parsed
      dsimp only [Option.map_none, Option.getD_none] at parsed
      cases tokens with
      | nil => cases parsed
      | cons token after =>
          dsimp only at parsed
          by_cases isName : token.kind = .identifier
          · rw [if_neg (not_not.mpr isName)] at parsed
            rw [if_neg (fun both => Bool.false_ne_true both.1)] at parsed
            cases isType : parseNamedScalar .saturated token.text with
            | none =>
                rw [isType] at parsed
                dsimp only at parsed
                rcases tail : parseVersionedTail token token [token.text] after with
                  failure | ⟨versioned, left⟩
                · rw [tail] at parsed
                  cases parsed
                · rw [tail] at parsed
                  cases parsed
                  have ⟨used, more, version, split, derived, whole⟩ :=
                    parseVersionedTail_sound token after token [token.text] versioned rest tail
                  refine ⟨token :: used, ?_, ?_⟩
                  · rw [split]
                    rfl
                  · rw [whole]
                    exact .versioned isName isType derived
            | some result =>
                rw [isType] at parsed
                cases result with
                | error message => cases parsed
                | ok found =>
                    cases parsed
                    exact ⟨[token], rfl, .named isName isType⟩
          · rw [if_pos isName] at parsed
            cases parsed
  | some found =>
      rcases found with ⟨mode, left⟩
      have ⟨castToken, token, after, same, sameLeft, isCastName, isName, words⟩ :=
        castPrefix_some isCast
      rw [isCast] at parsed
      dsimp only [Option.map_some, Option.getD_some] at parsed
      rw [sameLeft] at parsed
      dsimp only at parsed
      rw [if_neg (not_not.mpr isName)] at parsed
      cases castable : isCastable token.text with
      | false =>
          rw [castable, if_pos ⟨rfl, rfl⟩] at parsed
          cases parsed
      | true =>
          rw [castable, if_neg (fun both => Bool.false_ne_true both.2)] at parsed
          cases isType : parseNamedScalar mode token.text with
          | none => exact absurd isType (parseNamedScalar_of_castable mode castable)
          | some result =>
              rw [isType] at parsed
              cases result with
              | error message => cases parsed
              | ok found =>
                  cases parsed
                  refine ⟨[castToken, token], ?_, .cast ⟨isCastName, words⟩ isName castable isType⟩
                  rw [same]
                  rfl

theorem expect_quiet {kind : TokenKind} {message : String} {tokens : List Token}
    (quiet : (expect kind message tokens).2 = []) :
    ∃ token, tokens = token :: (expect kind message tokens).1 ∧ token.kind = kind := by
  cases tokens with
  | nil => cases quiet
  | cons token rest =>
      unfold expect at quiet ⊢
      dsimp only at quiet ⊢
      by_cases isKind : token.kind = kind
      · rw [if_pos isKind]
        exact ⟨token, rfl, isKind⟩
      · rw [if_neg isKind] at quiet
        cases quiet

theorem parseArrayKind_sound (tokens : List Token) :
    ∃ mark, tokens = mark ++ (parseArrayKind tokens).2 ∧
      ArrayMark mark (parseArrayKind tokens).1 := by
  cases tokens with
  | nil => exact ⟨[], rfl, .fixed⟩
  | cons token rest =>
      unfold parseArrayKind
      dsimp only
      by_cases isInclusive : token.kind = .lessEqual
      · rw [if_pos isInclusive]
        exact ⟨[token], rfl, .inclusive isInclusive⟩
      · rw [if_neg isInclusive]
        by_cases isExclusive : token.kind = .less
        · rw [if_pos isExclusive]
          exact ⟨[token], rfl, .exclusive isExclusive⟩
        · rw [if_neg isExclusive]
          exact ⟨[], rfl, .fixed⟩

section Expressions

variable {expression : TokenParser ExprAST} {derives : Derives}
  {stops : List Token → List Token → Prop}

theorem parseArraySuffix_sound (sound : Sound expression derives stops) (loud : Loud expression)
    {used tokens rest start : List Token} {scalar : ScalarTypeExprAST} {type : TypeExprAST}
    (derived : ScalarType used scalar)
    (parsed : parseArraySuffix expression (currentLocation used) scalar start tokens =
      ⟨some type, rest, []⟩) :
    ∃ more, used ++ tokens = more ++ rest ∧ TypeExpr derives more type := by
  unfold parseArraySuffix at parsed
  cases tokens with
  | nil =>
      cases parsed
      exact ⟨used, rfl, .scalar derived⟩
  | cons bracket after =>
      dsimp only at parsed
      by_cases isOpen : bracket.kind = .lBracket
      · rw [if_pos isOpen] at parsed
        have ⟨mark, split, marked⟩ := parseArrayKind_sound after
        rcases inner : expression (parseArrayKind after).2 with ⟨_ | capacity, left, errors⟩
        · rw [inner] at parsed
          split at parsed
          · have quiet : errors = [] := congrArg Parsed.errors parsed
            rw [quiet] at inner
            exact absurd inner loud.not_silent
          · cases parsed
        · rw [inner] at parsed
          split at parsed
          · rename_i closed
            have quiet : errors = [] := congrArg Parsed.errors parsed
            rw [quiet] at inner
            have ⟨capacityUsed, capacitySplit, capacityDerived, _⟩ :=
              sound _ capacity left inner
            have ⟨close, closeSplit, isClose⟩ := expect_quiet closed
            have stopped : (expect .rBracket "expected closing ']' in array type" left).1 = rest :=
              congrArg Parsed.rest parsed
            have same : TypeExprAST.mk (currentLocation used) scalar (parseArrayKind after).1
                (some capacity) = type := Option.some.inj (congrArg Parsed.value parsed)
            have split' : left = close :: rest := by
              rw [← stopped]
              exact closeSplit
            rw [← same]
            refine ⟨_, ?_, TypeExpr.array derived isOpen marked capacityDerived isClose⟩
            rw [split, capacitySplit, split']
            simp only [List.append_assoc, List.cons_append, List.nil_append]
          · cases parsed
      · rw [if_neg isOpen] at parsed
        cases parsed
        exact ⟨used, rfl, .scalar derived⟩

theorem currentLocation_append {used : List Token} (rest : List Token) (some : used ≠ []) :
    currentLocation (used ++ rest) = currentLocation used := by
  cases used with
  | nil => exact absurd rfl some
  | cons first more => rfl

theorem parseTypeExpr_sound (sound : Sound expression derives stops) (loud : Loud expression)
    (silent : Bool) :
    ∀ tokens type rest, parseTypeExpr expression silent tokens = ⟨some type, rest, []⟩ →
      ∃ used, tokens = used ++ rest ∧ TypeExpr derives used type := by
  intro tokens type rest parsed
  unfold parseTypeExpr at parsed
  rcases scalar : parseScalarType tokens with failure | ⟨found, left⟩
  · rw [scalar] at parsed
    cases parsed
  · rw [scalar] at parsed
    dsimp only at parsed
    have ⟨used, split, derived⟩ := parseScalarType_sound scalar
    have ⟨first, more, same, _⟩ := scalarType_starts derived
    have located : currentLocation tokens = currentLocation used := by
      rw [split]
      apply currentLocation_append
      rw [same]
      exact List.cons_ne_nil first more
    rw [located] at parsed
    have ⟨whole, whole', typed⟩ := parseArraySuffix_sound sound loud derived parsed
    exact ⟨whole, split.trans whole', typed⟩

/-- A silent type expression that fails without an error has no scalar. -/
theorem parseTypeExpr_silent {tokens rest : List Token}
    (failed : parseTypeExpr expression true tokens = ⟨none, rest, []⟩) :
    ∃ failure, parseScalarType tokens = .error failure := by
  unfold parseTypeExpr at failed
  rcases scalar : parseScalarType tokens with failure | ⟨found, left⟩
  · exact ⟨failure, rfl⟩
  · rw [scalar] at failed
    dsimp only at failed
    unfold parseArraySuffix at failed
    split at failed
    · split at failed
      · dsimp only at failed
        split at failed
        · cases failed
        · rename_i unclosed
          have quiet := (List.append_eq_nil_iff.mp (congrArg Parsed.errors failed)).2
          exact absurd quiet unclosed
      · cases failed
    · cases failed

/-! ### Atoms -/

/-- No point is left that belongs to what was read. -/
def AtomStops (used rest : List Token) : Prop :=
  ∀ dot after, rest = dot :: after → ¬TrailingPoint used dot

theorem atomStops_of_kind {first : Token} {more rest : List Token}
    (notInteger : first.kind ≠ .integer) : AtomStops (first :: more) rest := by
  intro dot after _ ⟨token, same, isInteger, _⟩
  rw [(List.cons.inj same).1] at notInteger
  exact notInteger isInteger

theorem atomStops_pair {first second : Token} {more rest : List Token} :
    AtomStops (first :: second :: more) rest := by
  intro dot after _ ⟨token, same, _⟩
  exact absurd (List.cons.inj same).2 (List.cons_ne_nil second more)

theorem literalOf_some {location : SourceLocation} {value : Option Rational} {message : String}
    {tokens rest : List Token} {result : ExprAST}
    (parsed : literalOf location value message tokens = ⟨some result, rest, []⟩) :
    ∃ number, value = some number ∧ result = .rational location number ∧ tokens = rest := by
  cases value with
  | none => cases parsed
  | some number =>
      cases parsed
      exact ⟨number, rfl, rfl, rfl⟩

theorem parseInteger_sound {token : Token} {tokens rest : List Token} {value : ExprAST}
    (isInteger : token.kind = .integer)
    (parsed : parseInteger token tokens = ⟨some value, rest, []⟩) :
    ∃ used, token :: tokens = used ++ rest ∧ Atom derives used value ∧ AtomStops used rest := by
  unfold parseInteger at parsed
  cases point : trailingPoint token tokens with
  | some after =>
      rw [point] at parsed
      have ⟨number, isLiteral, same, stopped⟩ := literalOf_some parsed
      unfold trailingPoint at point
      split at point
      · rename_i dot left
        split at point
        · rename_i isPoint
          cases point
          refine ⟨[token, dot], ?_, ?_, atomStops_pair⟩
          · rw [stopped]
            rfl
          · rw [same]
            exact .trailingPoint isInteger isPoint.1 isPoint.2.1 isPoint.2.2 isLiteral
        · cases point
      · cases point
  | none =>
      rw [point] at parsed
      have ⟨number, isLiteral, same, stopped⟩ := literalOf_some parsed
      rw [Option.map_eq_some_iff] at isLiteral
      have ⟨digits, isDigits, isNumber⟩ := isLiteral
      refine ⟨[token], ?_, ?_, ?_⟩
      · rw [stopped]
        rfl
      · rw [same, ← isNumber]
        exact .integer isInteger isDigits
      · intro dot after next trailing
        have ⟨other, single, _, isDot, decimal, touches⟩ := trailing
        rw [← (List.cons.inj single).1] at decimal touches
        unfold trailingPoint at point
        rw [stopped, next] at point
        dsimp only at point
        rw [if_pos ⟨isDot, decimal, touches⟩] at point
        cases point

theorem parseElements_sound (sound : Sound expression derives stops) (loud : Loud expression)
    (fuel : ℕ) {tokens : List Token} (enough : tokens.length < fuel)
    (quiet : (parseElements expression fuel tokens).errors = []) :
    ∃ used items, (parseElements expression fuel tokens).value = some items ∧
      tokens = used ++ (parseElements expression fuel tokens).rest ∧
        Elements derives used items := by
  induction fuel generalizing tokens with
  | zero => exact absurd enough (Nat.not_lt_zero _)
  | succ fuel ih =>
      rw [parseElements] at quiet ⊢
      rcases inner : expression tokens with ⟨_ | item, left, errors⟩
      · rw [inner] at quiet
        dsimp only at quiet
        rw [quiet] at inner
        exact absurd inner loud.not_silent
      · rw [inner] at quiet
        dsimp only at quiet
        cases left with
        | nil =>
            have noErrors : errors = [] := quiet
            rw [noErrors] at inner
            have ⟨used, split, derived, _⟩ := sound tokens item [] inner
            exact ⟨used, [item], rfl, split, .single derived⟩
        | cons comma after =>
            dsimp only at quiet ⊢
            by_cases isComma : comma.kind = .comma
            · rw [if_pos isComma] at quiet ⊢
              have ⟨noErrors, laterQuiet⟩ := List.append_eq_nil_iff.mp quiet
              rw [noErrors] at inner
              have ⟨used, split, derived, _⟩ := sound tokens item (comma :: after) inner
              have shorter : after.length < fuel := by
                rw [split, List.length_append, List.length_cons] at enough
                omega
              have ⟨later, items, values, laterSplit, others⟩ :=
                ih shorter laterQuiet
              refine ⟨used ++ comma :: later, item :: items, ?_, ?_,
                .more derived isComma others⟩
              · dsimp only
                rw [values]
                rfl
              · dsimp only
                rw [split, List.append_assoc, List.cons_append, ← laterSplit]
            · rw [if_neg isComma] at quiet ⊢
              have noErrors : errors = [] := quiet
              rw [noErrors] at inner
              have ⟨used, split, derived, _⟩ := sound tokens item (comma :: after) inner
              exact ⟨used, [item], rfl, split, .single derived⟩

theorem parseSetLiteral_sound (sound : Sound expression derives stops) (loud : Loud expression)
    {opening : Token} {tokens rest : List Token} {value : ExprAST}
    (isOpen : opening.kind = .lBrace)
    (parsed : parseSetLiteral expression opening.location tokens = ⟨some value, rest, []⟩) :
    ∃ more, tokens = more ++ rest ∧ Atom derives (opening :: more) value := by
  unfold parseSetLiteral at parsed
  dsimp only at parsed
  by_cases isEmpty : (tokens.head?.map Token.kind) = some .rBrace
  · rw [if_pos isEmpty] at parsed
    dsimp only at parsed
    have ⟨closing, split, isClose⟩ :=
      expect_quiet (List.append_eq_nil_iff.mp (congrArg Parsed.errors parsed)).2
    have stopped : (expect .rBrace _ tokens).1 = rest := congrArg Parsed.rest parsed
    have same : ExprAST.setLiteral opening.location [] = value :=
      Option.some.inj (congrArg Parsed.value parsed)
    rw [stopped] at split
    refine ⟨[closing], split, ?_⟩
    rw [← same]
    exact .emptySet isOpen isClose
  · rw [if_neg isEmpty] at parsed
    have ⟨elementsQuiet, closed⟩ := List.append_eq_nil_iff.mp (congrArg Parsed.errors parsed)
    have ⟨used, items, values, split, derived⟩ :=
      parseElements_sound sound loud (tokens.length + 1) (Nat.lt_succ_self _) elementsQuiet
    have ⟨closing, closeSplit, isClose⟩ := expect_quiet closed
    have stopped : (expect .rBrace _ _).1 = rest := congrArg Parsed.rest parsed
    have same := Option.some.inj (congrArg Parsed.value parsed)
    rw [stopped] at closeSplit
    rw [values] at same
    refine ⟨used ++ [closing], ?_, ?_⟩
    · rw [List.append_assoc, List.singleton_append, ← closeSplit]
      exact split
    · rw [← same]
      exact .set isOpen derived isClose

theorem parseParenthesised_sound (sound : Sound expression derives stops)
    {opening : Token} {tokens rest : List Token} {value : ExprAST}
    (isOpen : opening.kind = .lParen)
    (parsed : parseParenthesised expression tokens = ⟨some value, rest, []⟩) :
    ∃ more, tokens = more ++ rest ∧ Atom derives (opening :: more) value := by
  unfold parseParenthesised at parsed
  have ⟨innerQuiet, closed⟩ := List.append_eq_nil_iff.mp (congrArg Parsed.errors parsed)
  have ⟨closing, closeSplit, isClose⟩ := expect_quiet closed
  have stopped : (expect .rParen _ _).1 = rest := congrArg Parsed.rest parsed
  have same : (expression tokens).value = some value := congrArg Parsed.value parsed
  rw [stopped] at closeSplit
  have inner : expression tokens = ⟨some value, (expression tokens).rest, []⟩ := by
    rw [← same, ← innerQuiet]
  have ⟨used, split, derived, _⟩ := sound tokens value _ inner
  refine ⟨used ++ [closing], ?_, .parenthesised isOpen derived isClose⟩
  rw [List.append_assoc, List.singleton_append, ← closeSplit]
  exact split

theorem isNoType_of_failed {token : Token} {rest : List Token} {failure : Option TypeFailure}
    (isName : token.kind = .identifier)
    (failed : parseScalarType (token :: rest) = .error failure) :
    ∀ scalar, parseNamedScalar .saturated token.text ≠ some (.ok scalar) := by
  intro scalar isType
  have notCast : castPrefix (token :: rest) = none := by
    cases found : castPrefix (token :: rest) with
    | none => rfl
    | some cast =>
        have ⟨castToken, _, _, same, _, _, _, words⟩ := castPrefix_some found
        rw [(List.cons.inj same).1] at isType
        have saturated : parseNamedScalar .saturated "saturated" = none := by decide
        have truncated : parseNamedScalar .saturated "truncated" = none := by decide
        rcases words with ⟨word, _⟩ | ⟨word, _⟩
        · rw [word, saturated] at isType
          cases isType
        · rw [word, truncated] at isType
          cases isType
  unfold parseScalarType at failed
  rw [notCast] at failed
  dsimp only [Option.map_none, Option.getD_none] at failed
  rw [if_neg (not_not.mpr isName), if_neg (fun both => Bool.false_ne_true both.1), isType]
    at failed
  cases failed

theorem parseTypeOrIdentifier_sound (sound : Sound expression derives stops)
    (loud : Loud expression) {token : Token} {tokens rest : List Token} {value : ExprAST}
    (isName : token.kind = .identifier)
    (parsed : parseTypeOrIdentifier expression token tokens = ⟨some value, rest, []⟩) :
    ∃ more, tokens = more ++ rest ∧ Atom derives (token :: more) value := by
  unfold parseTypeOrIdentifier at parsed
  rcases type : parseTypeExpr expression true (token :: tokens) with ⟨_ | found, left, errors⟩
  · rw [type] at parsed
    cases parsed
    have ⟨failure, failed⟩ := parseTypeExpr_silent type
    exact ⟨[], rfl, .identifier isName (isNoType_of_failed isName failed)⟩
  · rw [type] at parsed
    cases parsed
    have ⟨used, split, derived⟩ := parseTypeExpr_sound sound loud true _ found left type
    have ⟨first, more, same, _⟩ := typeExpr_starts derived
    rw [same] at split derived
    have ⟨sameFirst, sameRest⟩ := List.cons.inj split
    rw [sameFirst]
    exact ⟨more, sameRest, .type derived⟩

theorem parsePrimary_sound (sound : Sound expression derives stops) (loud : Loud expression) :
    Sound (parsePrimary expression) (Atom derives) AtomStops := by
  intro tokens value rest parsed
  cases tokens with
  | nil => cases parsed
  | cons token tokens =>
      unfold parsePrimary at parsed
      dsimp only at parsed
      cases point : leadingPoint token tokens with
      | some found =>
          rcases found with ⟨fraction, after⟩
          rw [point] at parsed
          have ⟨number, isLiteral, same, stopped⟩ := literalOf_some parsed
          unfold leadingPoint at point
          split at point
          · rename_i other left
            split at point
            · rename_i isPoint
              cases point
              refine ⟨[token, fraction], ?_, ?_, atomStops_pair⟩
              · rw [stopped]
                rfl
              · rw [same]
                apply Atom.leadingPoint isPoint.1 _ isPoint.2.2.2 isLiteral
                rcases isPoint.2.1 with isInteger | isReal
                · left
                  exact ⟨isInteger, isPoint.2.2.1.resolve_left (not_not.mpr isInteger)⟩
                · right
                  exact isReal
            · cases point
          · cases point
      | none =>
          rw [point] at parsed
          dsimp only at parsed
          split at parsed
          · rename_i isTrue
            cases parsed
            exact ⟨[token], rfl, .trueKeyword isTrue,
              atomStops_of_kind (by rw [isTrue]; decide)⟩
          · rename_i isFalse
            cases parsed
            exact ⟨[token], rfl, .falseKeyword isFalse,
              atomStops_of_kind (by rw [isFalse]; decide)⟩
          · rename_i isInteger
            exact parseInteger_sound isInteger parsed
          · rename_i isReal
            have ⟨number, isLiteral, same, stopped⟩ := literalOf_some parsed
            refine ⟨[token], ?_, ?_, atomStops_of_kind (by rw [isReal]; decide)⟩
            · rw [stopped]
              rfl
            · rw [same]
              exact .real isReal isLiteral
          · rename_i isString
            cases parsed
            exact ⟨[token], rfl, .string isString, atomStops_of_kind (by rw [isString]; decide)⟩
          · rename_i isOpen
            have ⟨more, split, derived⟩ := parseParenthesised_sound sound isOpen parsed
            exact ⟨token :: more, congrArg (token :: ·) split, derived,
              atomStops_of_kind (by rw [isOpen]; decide)⟩
          · rename_i isOpen
            have ⟨more, split, derived⟩ := parseSetLiteral_sound sound loud isOpen parsed
            exact ⟨token :: more, congrArg (token :: ·) split, derived,
              atomStops_of_kind (by rw [isOpen]; decide)⟩
          · rename_i isName
            have ⟨more, split, derived⟩ := parseTypeOrIdentifier_sound sound loud isName parsed
            exact ⟨token :: more, congrArg (token :: ·) split, derived,
              atomStops_of_kind (by rw [isName]; decide)⟩
          · cases parsed

theorem parsePrimary_loud (loud : Loud expression) : Loud (parsePrimary expression) := by
  intro tokens nothing
  have literal (location : SourceLocation) (value : Option Rational) (message : String)
      (rest : List Token) : (literalOf location value message rest).value ≠ none := by
    cases value with
    | none => exact Option.some_ne_none _
    | some value => exact Option.some_ne_none _
  cases tokens with
  | nil => exact List.cons_ne_nil _ _
  | cons token tokens =>
      unfold parsePrimary at nothing ⊢
      dsimp only at nothing ⊢
      cases point : leadingPoint token tokens with
      | some found =>
          rw [point] at nothing
          exact absurd nothing (literal _ _ _ _)
      | none =>
          rw [point] at nothing
          dsimp only at nothing ⊢
          split at nothing
          · cases nothing
          · cases nothing
          · unfold parseInteger at nothing
            split at nothing
            · exact absurd nothing (literal _ _ _ _)
            · exact absurd nothing (literal _ _ _ _)
          · exact absurd nothing (literal _ _ _ _)
          · cases nothing
          · exact List.append_ne_nil_of_left_ne_nil (loud tokens nothing) _
          · cases nothing
          · unfold parseTypeOrIdentifier at nothing
            dsimp only at nothing
            split at nothing
            · cases nothing
            · cases nothing
          · exact List.cons_ne_nil _ _

/-! ### Attribute access -/

theorem attributesFrom_sound {used tokens rest : List Token} {lhs value : ExprAST}
    (left : Attributes derives used lhs) (stop : AtomStops used tokens)
    (accessed : attributesFrom lhs tokens = (value, rest)) :
    ∃ more, used ++ tokens = more ++ rest ∧ Attributes derives more value := by
  induction tokens using List.twoStepInduction generalizing used lhs with
  | nil =>
      cases accessed
      exact ⟨used, rfl, left⟩
  | singleton token =>
      cases accessed
      exact ⟨used, rfl, left⟩
  | cons_cons dot name tokens ih _ =>
      rw [attributesFrom] at accessed
      split at accessed
      · rename_i kinds
        have longer : AtomStops (used ++ [dot, name]) tokens := by
          intro next after _ ⟨token, same, _⟩
          have length := congrArg List.length same
          rw [List.length_append, List.length_cons, List.length_cons, List.length_cons,
            List.length_nil] at length
          omega
        have ⟨more, split, derived⟩ := ih
          (.access left kinds.1 kinds.2 (stop dot _ rfl)) longer accessed
        refine ⟨more, ?_, derived⟩
        rw [← split, List.append_assoc]
        rfl
      · cases accessed
        exact ⟨used, rfl, left⟩

theorem parseAttributeAccess_sound (sound : Sound expression derives stops)
    (loud : Loud expression) :
    Sound (parseAttributeAccess expression) (AttributeAccess derives) fun _ _ => True := by
  intro tokens value rest parsed
  unfold parseAttributeAccess at parsed
  rcases atom : parsePrimary expression tokens with ⟨_ | lhs, left, errors⟩
  · rw [atom] at parsed
    cases parsed
  · rw [atom] at parsed
    have quiet : errors = [] := congrArg Parsed.errors parsed
    have same : (attributesFrom lhs left).1 = value :=
      Option.some.inj (congrArg Parsed.value parsed)
    have stopped : (attributesFrom lhs left).2 = rest := congrArg Parsed.rest parsed
    rw [quiet] at atom
    have ⟨used, split, derived, stop⟩ := parsePrimary_sound sound loud tokens lhs left atom
    have accessed : attributesFrom lhs left = (value, rest) := by
      rw [← same, ← stopped]
    have ⟨more, whole, access⟩ := attributesFrom_sound (.bare derived) stop accessed
    exact ⟨more, split.trans whole, access, trivial⟩

theorem parseAttributeAccess_loud (loud : Loud expression) :
    Loud (parseAttributeAccess expression) := by
  intro tokens nothing
  have silent := parsePrimary_loud loud tokens
  unfold parseAttributeAccess at nothing ⊢
  rcases atom : parsePrimary expression tokens with ⟨_ | lhs, left, errors⟩
  · rw [atom] at silent
    exact silent rfl
  · rw [atom] at nothing
    cases nothing

/-! ### Levels -/

theorem parseExponential_sound (sound : Sound expression derives stops) (loud : Loud expression) :
    Sound (parseExponential expression) (Exponential derives) fun _ _ => True := by
  intro tokens value rest parsed
  exact powerChain_sound (parseAttributeAccess_sound sound loud) tokens.length tokens value rest
    parsed

theorem parseComparison_sound (sound : Sound expression derives stops) (loud : Loud expression) :
    Sound (parseComparison expression) (Comparison derives) fun _ _ => True := by
  have inversion : Sound (parseInversion expression) (Inversion derives) fun _ _ => True :=
    optionalPrefix_sound (parseExponential_sound sound loud)
  exact leftChain_sound (leftChain_sound (leftChain_sound (leftChain_sound inversion)))

theorem parseLogical_sound (sound : Sound expression derives stops) (loud : Loud expression) :
    Sound (parseLogical expression) (Logical derives) fun _ _ => True :=
  leftChain_sound (prefixChain_sound (parseComparison_sound sound loud))

theorem parseExponential_loud (loud : Loud expression) : Loud (parseExponential expression) :=
  fun tokens => powerChain_loud (parseAttributeAccess_loud loud) tokens.length tokens

theorem parseLogical_loud (loud : Loud expression) : Loud (parseLogical expression) := by
  apply leftChain_loud
  apply prefixChain_loud
  apply leftChain_loud
  apply leftChain_loud
  apply leftChain_loud
  apply leftChain_loud
  apply optionalPrefix_loud
  exact parseExponential_loud loud

end Expressions

theorem parseExpressionWithin_loud (allowed : ℕ) : Loud (parseExpressionWithin allowed) := by
  induction allowed with
  | zero =>
      intro tokens _
      exact List.cons_ne_nil _ _
  | succ allowed ih =>
      intro tokens
      exact parseLogical_loud ih tokens

/-- **What the parser accepts, the grammar derives**, within the nesting that is allowed. -/
theorem parseExpressionWithin_sound (allowed : ℕ) :
    Sound (parseExpressionWithin allowed) (Derivation allowed) fun _ _ => True := by
  induction allowed with
  | zero =>
      intro tokens value rest parsed
      cases parsed
  | succ allowed ih =>
      intro tokens value rest parsed
      exact parseLogical_sound ih (parseExpressionWithin_loud allowed) tokens value
        rest parsed

end LlvmDsdl.Frontend
