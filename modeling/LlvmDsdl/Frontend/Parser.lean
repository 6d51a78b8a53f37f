import LlvmDsdl.Frontend.Lexer
import LlvmDsdl.Library.Parsing

/-!
Contract: expressions and type expressions out of tokens (`Frontend/Parser.cpp`).

Owns: what a type name says, versioned names, type expressions, expression atoms, set
literals and every precedence level of the expression grammar.

The tokens a parser reads end with their end-of-file token; past it there is another.
Statements are left out.
-/

namespace LlvmDsdl.Frontend

open Support Library.Parsing

abbrev TokenParser (α : Type) := Parser Token Diagnostic α

def errorDiagnostic (location : SourceLocation) (message : String) : Diagnostic :=
  ⟨.error, location, message, none⟩

def currentLocation (tokens : List Token) : SourceLocation :=
  (tokens.head?.map Token.location).getD ⟨"", 0, 0⟩

/-- The second token begins where the first ends. -/
def tokensAdjacent (a b : Token) : Bool :=
  a.location.line = b.location.line &&
    b.location.column = a.location.column + columns a.text.toList

/-- `expect`: what is left, and the error unless the kind is the current one. -/
def expect (kind : TokenKind) (message : String) (tokens : List Token) :
    List Token × List Diagnostic :=
  match tokens with
  | token :: rest =>
      if token.kind = kind then (rest, [])
      else (token :: rest, [errorDiagnostic token.location message])
  | [] => ([], [errorDiagnostic (currentLocation []) message])

inductive WidthDomain where
  | signedInteger
  | unsignedInteger
  | float
  | void
  deriving DecidableEq

def WidthDomain.stem : WidthDomain → List Char
  | .signedInteger => ['i', 'n', 't']
  | .unsignedInteger => ['u', 'i', 'n', 't']
  | .float => ['f', 'l', 'o', 'a', 't']
  | .void => ['v', 'o', 'i', 'd']

/-- `[1-9][0-9]*`. -/
def isWidth : List Char → Bool
  | [] => false
  | c :: rest => c.isDigit && c ≠ '0' && rest.all Char.isDigit

def widthOf (domain : WidthDomain) (name : String) : Option (List Char) :=
  if domain.stem.isPrefixOf name.toList && isWidth (name.toList.drop domain.stem.length) then
    some (name.toList.drop domain.stem.length)
  else none

/-- `parseBitLength`: a width of 32 bits. -/
def parseBitLength (digits : List Char) : Option ℕ :=
  let value := digits.foldl (fun out c => out * 10 + (c.toNat - '0'.toNat)) 0
  if value < 2 ^ 32 then some value else none

def validateBitLength (domain : WidthDomain) (bits : ℕ) : Option String :=
  match domain with
  | .signedInteger =>
      if bits < 2 ∨ 64 < bits then
        some ("invalid signed integer bit length " ++ toString bits ++
          "; must be in the range [2, 64]")
      else none
  | .unsignedInteger =>
      if bits < 1 ∨ 64 < bits then
        some ("invalid unsigned integer bit length " ++ toString bits ++
          "; must be in the range [1, 64]")
      else none
  | .float =>
      if bits ≠ 16 ∧ bits ≠ 32 ∧ bits ≠ 64 then
        some ("invalid floating point bit length " ++ toString bits ++
          "; must be 16, 32, or 64")
      else none
  | .void =>
      if bits < 1 ∨ 64 < bits then
        some ("invalid void bit length " ++ toString bits ++ "; must be in the range [1, 64]")
      else none

def scalarOfWidth (castMode : CastMode) (domain : WidthDomain) (bits : ℕ) : ScalarTypeExprAST :=
  match domain with
  | .signedInteger => .primitive ⟨.signedInt, castMode, bits⟩
  | .unsignedInteger => .primitive ⟨.unsignedInt, castMode, bits⟩
  | .float => .primitive ⟨.float, castMode, bits⟩
  | .void => .void bits

def parseWidth (castMode : CastMode) (domain : WidthDomain) (digits : List Char) :
    Except String ScalarTypeExprAST :=
  match parseBitLength digits with
  | none => .error "primitive type bit length is out of range"
  | some bits =>
      match validateBitLength domain bits with
      | some message => .error message
      | none => .ok (scalarOfWidth castMode domain bits)

/-- The type a primitive or void name stands for; `none` for every other name. -/
def parseNamedScalar (castMode : CastMode) (name : String) :
    Option (Except String ScalarTypeExprAST) :=
  if name = "bool" then some (.ok (.primitive ⟨.bool, castMode, 1⟩))
  else if name = "byte" then some (.ok (.primitive ⟨.byte, .truncated, 8⟩))
  else if name = "utf8" then some (.ok (.primitive ⟨.utf8, .truncated, 8⟩))
  else
    match widthOf .void name, widthOf .unsignedInteger name, widthOf .signedInteger name,
        widthOf .float name with
    | some digits, _, _, _ => some (parseWidth castMode .void digits)
    | none, some digits, _, _ => some (parseWidth castMode .unsignedInteger digits)
    | none, none, some digits, _ => some (parseWidth castMode .signedInteger digits)
    | none, none, none, some digits => some (parseWidth castMode .float digits)
    | none, none, none, none => none

/-- The names a cast mode may precede. -/
def isCastable (name : String) : Bool :=
  (widthOf .unsignedInteger name).isSome || (widthOf .signedInteger name).isSome ||
    (widthOf .float name).isSome

/-- A version of three tokens, which must touch each other and their dot. -/
def versionOfIntegers (dot major mid minor : Token) : Option (ℕ × ℕ) :=
  match parseIntegerLiteral major.text, parseIntegerLiteral minor.text with
  | some majorValue, some minorValue =>
      if isDecimalIntegerToken major.text && isDecimalIntegerToken minor.text &&
          tokensAdjacent dot major && tokensAdjacent major mid && tokensAdjacent mid minor then
        some (majorValue % 2 ^ 32, minorValue % 2 ^ 32)
      else none
  | _, _ => none

/-- A version of one token, which must touch its dot. -/
def versionOfReal (dot real : Token) : Option (ℕ × ℕ) :=
  if tokensAdjacent dot real then parseVersionTokenAsMajorMinor real.text else none

abbrev TypeFailure := SourceLocation × String

/-- The three tokens of a version, where they are the next ones. -/
def integersAhead (tokens : List Token) : Option (Token × Token × Token × List Token) :=
  match tokens with
  | major :: mid :: minor :: rest =>
      if major.kind = .integer ∧ mid.kind = .dot ∧ minor.kind = .integer then
        some (major, mid, minor, rest)
      else none
  | _ => none

/-- The rest of a versioned name after its components so far. -/
def parseVersionedTail (baseTok : Token) :
    Token → List String → List Token → Except TypeFailure (VersionedTypeExprAST × List Token)
  | lastTok, components, dot :: next :: rest =>
      if dot.kind ≠ .dot then
        .error (baseTok.location, "expected version suffix '.major.minor' for composite type")
      else if !tokensAdjacent lastTok dot then
        .error (dot.location, "no whitespace allowed in a versioned type name")
      else
        match integersAhead (next :: rest) with
        | some (major, mid, minor, after) =>
            match versionOfIntegers dot major mid minor with
            | some version => .ok (⟨components, version.1, version.2⟩, after)
            | none => .error (baseTok.location, "invalid version specifier")
        | none =>
            if next.kind = .real then
              match versionOfReal dot next with
              | some version => .ok (⟨components, version.1, version.2⟩, rest)
              | none => .error (baseTok.location, "invalid version specifier")
            else if next.kind = .identifier ∧ tokensAdjacent dot next then
              parseVersionedTail baseTok next (components ++ [next.text]) rest
            else .error (next.location, "expected identifier in versioned type name")
  | lastTok, _, [dot] =>
      if dot.kind ≠ .dot then
        .error (baseTok.location, "expected version suffix '.major.minor' for composite type")
      else if !tokensAdjacent lastTok dot then
        .error (dot.location, "no whitespace allowed in a versioned type name")
      else .error (currentLocation [], "expected identifier in versioned type name")
  | _, _, [] =>
      .error (baseTok.location, "expected version suffix '.major.minor' for composite type")

/-- The cast mode of `truncated` or `saturated` before another identifier. -/
def castPrefix (tokens : List Token) : Option (CastMode × List Token) :=
  match tokens with
  | cast :: next :: rest =>
      if cast.kind = .identifier ∧ (cast.text = "saturated" ∨ cast.text = "truncated") ∧
          next.kind = .identifier then
        some (if cast.text = "truncated" then .truncated else .saturated, next :: rest)
      else none
  | _ => none

def parseScalarType (tokens : List Token) :
    Except (Option TypeFailure) (ScalarTypeExprAST × List Token) :=
  let cast := castPrefix tokens
  let castMode := (cast.map Prod.fst).getD .saturated
  match (cast.map Prod.snd).getD tokens with
  | [] => .error none
  | baseTok :: rest =>
      if baseTok.kind ≠ .identifier then .error none
      else if cast.isSome ∧ !isCastable baseTok.text then
        .error (some (baseTok.location,
          "a cast mode ('saturated'/'truncated') may only precede an integer or floating-point type"))
      else
        match parseNamedScalar castMode baseTok.text with
        | some (.error message) => .error (some (baseTok.location, message))
        | some (.ok scalar) => .ok (scalar, rest)
        | none =>
            match parseVersionedTail baseTok baseTok [baseTok.text] rest with
            | .error failure => .error (some failure)
            | .ok (versioned, after) => .ok (.versioned versioned, after)

def parseArrayKind (tokens : List Token) : ArrayKind × List Token :=
  match tokens with
  | token :: rest =>
      if token.kind = .lessEqual then (.variableInclusive, rest)
      else if token.kind = .less then (.variableExclusive, rest)
      else (.fixed, token :: rest)
  | [] => (.fixed, [])

/-- An array suffix, or nothing; a failure leaves the tokens of the whole type. -/
def parseArraySuffix (expression : TokenParser ExprAST) (location : SourceLocation)
    (scalar : ScalarTypeExprAST) (start tokens : List Token) :
    Parsed Token Diagnostic TypeExprAST :=
  match tokens with
  | bracket :: after =>
      if bracket.kind = .lBracket then
        let kind := parseArrayKind after
        let capacity := expression kind.2
        let closed := expect .rBracket "expected closing ']' in array type" capacity.rest
        if closed.2 = [] then
          ⟨some (.mk location scalar kind.1 capacity.value), closed.1, capacity.errors⟩
        else ⟨none, start, capacity.errors ++ closed.2⟩
      else ⟨some (.mk location scalar .none none), bracket :: after, []⟩
  | [] => ⟨some (.mk location scalar .none none), [], []⟩

/-- `parseTypeExpr`; a silent one reports no failure of its scalar. -/
def parseTypeExpr (expression : TokenParser ExprAST) (silent : Bool) : TokenParser TypeExprAST :=
  fun tokens =>
    match parseScalarType tokens with
    | .error failure =>
        ⟨none, tokens,
          if silent then [] else (failure.map fun at_ => errorDiagnostic at_.1 at_.2).toList⟩
    | .ok (scalar, rest) => parseArraySuffix expression (currentLocation tokens) scalar tokens rest

def literalOf (location : SourceLocation) (value : Option Rational) (message : String)
    (rest : List Token) : Parsed Token Diagnostic ExprAST :=
  match value with
  | some value => ⟨some (.rational location value), rest, []⟩
  | none => ⟨some (.rational location (.ofInteger 0)), rest, [errorDiagnostic location message]⟩

/-- `.5`: a point that touches the digits after it. -/
def leadingPoint (dot : Token) (rest : List Token) : Option (Token × List Token) :=
  match rest with
  | fraction :: after =>
      if dot.kind = .dot ∧ (fraction.kind = .integer ∨ fraction.kind = .real) ∧
          (fraction.kind ≠ .integer ∨ isDecimalIntegerLiteral fraction.text) ∧
          tokensAdjacent dot fraction then
        some (fraction, after)
      else none
  | [] => none

/-- `3.`: a point that touches the decimal digits before it. -/
def trailingPoint (integer : Token) (rest : List Token) : Option (List Token) :=
  match rest with
  | dot :: after =>
      if dot.kind = .dot ∧ isDecimalIntegerLiteral integer.text ∧ tokensAdjacent integer dot then
        some after
      else none
  | [] => none

/-- An integer literal, or the real literal of one with a trailing point. -/
def parseInteger (integer : Token) (rest : List Token) : Parsed Token Diagnostic ExprAST :=
  match trailingPoint integer rest with
  | some after =>
      literalOf integer.location (parseRealLiteral (integer.text ++ "."))
        "real literal cannot be represented" after
  | none =>
      literalOf integer.location
        ((parseIntegerLiteral integer.text).map fun value : ℕ => .ofInteger value)
        ("integer literal '" ++ integer.text ++ "' cannot be represented") rest

/-- The elements of a set literal; every turn reads a comma. -/
def parseElements (expression : TokenParser ExprAST) :
    ℕ → List Token → Parsed Token Diagnostic (List ExprAST)
  | 0, tokens => ⟨some [], tokens, []⟩
  | fuel + 1, tokens =>
      match expression tokens with
      | ⟨none, rest, errors⟩ => ⟨some [], rest, errors⟩
      | ⟨some item, rest, errors⟩ =>
          match rest with
          | comma :: after =>
              if comma.kind = .comma then
                let more := parseElements expression fuel after
                ⟨some (item :: more.value.getD []), more.rest, errors ++ more.errors⟩
              else ⟨some [item], comma :: after, errors⟩
          | [] => ⟨some [item], [], errors⟩

def parseSetLiteral (expression : TokenParser ExprAST) (location : SourceLocation) :
    TokenParser ExprAST := fun tokens =>
  let elements :=
    if (tokens.head?.map Token.kind) = some .rBrace then ⟨some [], tokens, []⟩
    else parseElements expression (tokens.length + 1) tokens
  let closed := expect .rBrace "expected '\x7d' to close set literal" elements.rest
  ⟨some (.setLiteral location (elements.value.getD [])), closed.1, elements.errors ++ closed.2⟩

def parseParenthesised (expression : TokenParser ExprAST) : TokenParser ExprAST := fun tokens =>
  let inner := expression tokens
  let closed := expect .rParen "expected ')' after expression" inner.rest
  ⟨inner.value, closed.1, inner.errors ++ closed.2⟩

/-- A type where the tokens begin with one, else the identifier. -/
def parseTypeOrIdentifier (expression : TokenParser ExprAST) (token : Token) (rest : List Token) :
    Parsed Token Diagnostic ExprAST :=
  let type := parseTypeExpr expression true (token :: rest)
  match type.value with
  | some value => ⟨some (.typeLiteral value.location value), type.rest, type.errors⟩
  | none => ⟨some (.identifier token.location token.text), rest, type.errors⟩

def parsePrimary (expression : TokenParser ExprAST) : TokenParser ExprAST := fun tokens =>
  match tokens with
  | [] => ⟨none, [], [errorDiagnostic (currentLocation []) "expected expression atom"]⟩
  | token :: rest =>
      match leadingPoint token rest with
      | some (fraction, after) =>
          literalOf token.location (parseRealLiteral ("." ++ fraction.text))
            "real literal cannot be represented" after
      | none =>
          match token.kind with
          | .trueKeyword => ⟨some (.boolean token.location true), rest, []⟩
          | .falseKeyword => ⟨some (.boolean token.location false), rest, []⟩
          | .integer => parseInteger token rest
          | .real =>
              literalOf token.location (parseRealLiteral token.text)
                ("real literal '" ++ token.text ++ "' cannot be represented") rest
          | .string => ⟨some (.string token.location token.text), rest, []⟩
          | .lParen => parseParenthesised expression rest
          | .lBrace => parseSetLiteral expression token.location rest
          | .identifier => parseTypeOrIdentifier expression token rest
          | _ => ⟨none, token :: rest, [errorDiagnostic token.location "expected expression atom"]⟩

def toBinaryOp : TokenKind → Option BinaryOp
  | .dot => some .attribute
  | .starStar => some .pow
  | .star => some .mul
  | .slash => some .div
  | .percent => some .mod
  | .plus => some .add
  | .minus => some .sub
  | .pipe => some .bitOr
  | .caret => some .bitXor
  | .amp => some .bitAnd
  | .equalEqual => some .eq
  | .bangEqual => some .ne
  | .lessEqual => some .le
  | .greaterEqual => some .ge
  | .less => some .lt
  | .greater => some .gt
  | .pipePipe => some .logicalOr
  | .ampAmp => some .logicalAnd
  | _ => none

def binaryOperator (kinds : List TokenKind) (token : Token) :
    Option (ExprAST → ExprAST → ExprAST) :=
  if token.kind ∈ kinds then (toBinaryOp token.kind).map fun op => .binary token.location op
  else none

def logicalKinds : List TokenKind := [.pipePipe, .ampAmp]

def comparisonKinds : List TokenKind :=
  [.equalEqual, .bangEqual, .lessEqual, .greaterEqual, .less, .greater]

def bitwiseKinds : List TokenKind := [.pipe, .caret, .amp]

def additiveKinds : List TokenKind := [.plus, .minus]

def multiplicativeKinds : List TokenKind := [.star, .slash, .percent]

def notOperator (token : Token) : Option (ExprAST → ExprAST) :=
  if token.kind = .bang then some (.unary token.location .logicalNot) else none

def signOperator (token : Token) : Option (ExprAST → ExprAST) :=
  if token.kind = .plus then some (.unary token.location .plus)
  else if token.kind = .minus then some (.unary token.location .minus)
  else none

def missingRight (op : Token) : Diagnostic :=
  errorDiagnostic op.location "expected right-hand side expression"

def missingOperand (op : Token) : Diagnostic :=
  errorDiagnostic op.location "expected expression after unary operator"

section Levels

variable (expression : TokenParser ExprAST)

/-- Attributes after an expression; a dot is one when an identifier follows it. -/
def attributesFrom : ExprAST → List Token → ExprAST × List Token
  | lhs, op :: ident :: rest =>
      if op.kind = .dot ∧ ident.kind = .identifier then
        attributesFrom (.binary op.location .attribute lhs (.identifier ident.location ident.text))
          rest
      else (lhs, op :: ident :: rest)
  | lhs, rest => (lhs, rest)

def parseAttributeAccess : TokenParser ExprAST := fun tokens =>
  match parsePrimary expression tokens with
  | ⟨none, rest, errors⟩ => ⟨none, rest, errors⟩
  | ⟨some lhs, rest, errors⟩ =>
      let accessed := attributesFrom lhs rest
      ⟨some accessed.1, accessed.2, errors⟩

/-- `parseExponential`; with `parseInversion` on its right side. -/
def parseExponential : TokenParser ExprAST := fun tokens =>
  powerChain (binaryOperator [.starStar]) signOperator missingRight missingOperand
    (parseAttributeAccess expression) tokens.length tokens

def parseInversion : TokenParser ExprAST :=
  optionalPrefix signOperator missingOperand (parseExponential expression)

def parseMultiplicative : TokenParser ExprAST :=
  leftChain (binaryOperator multiplicativeKinds) missingRight (parseInversion expression)

def parseAdditive : TokenParser ExprAST :=
  leftChain (binaryOperator additiveKinds) missingRight (parseMultiplicative expression)

def parseBitwise : TokenParser ExprAST :=
  leftChain (binaryOperator bitwiseKinds) missingRight (parseAdditive expression)

def parseComparison : TokenParser ExprAST :=
  leftChain (binaryOperator comparisonKinds) missingRight (parseBitwise expression)

def parseLogicalNot : TokenParser ExprAST :=
  prefixChain notOperator missingOperand (parseComparison expression)

def parseLogical : TokenParser ExprAST :=
  leftChain (binaryOperator logicalKinds) missingRight (parseLogicalNot expression)

end Levels

/-- `parseExpression` with the nesting that is still allowed. -/
def parseExpressionWithin : ℕ → TokenParser ExprAST
  | 0, tokens =>
      ⟨none, tokens, [errorDiagnostic (currentLocation tokens) "expression nesting is too deep"]⟩
  | allowed + 1, tokens => parseLogical (parseExpressionWithin allowed) tokens

def kMaxExpressionDepth : ℕ := 128

def parseExpression : TokenParser ExprAST :=
  parseExpressionWithin kMaxExpressionDepth

end LlvmDsdl.Frontend
