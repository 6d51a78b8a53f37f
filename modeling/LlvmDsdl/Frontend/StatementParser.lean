import LlvmDsdl.Frontend.Parser

/-!
Contract: the statements of a definition out of tokens (`Frontend/Parser.cpp`).

Owns: the end of a line, the recovery at the next one, directives, attributes,
statements, the loop over the lines of a definition and what a source is parsed to.

Every statement is returned with the tokens from its first on. Documentation comments
are left out; a comment behind a statement ends its line.
-/

namespace LlvmDsdl.Frontend

open Library.Parsing

def isAtEnd (tokens : List Token) : Bool :=
  tokens.head?.all fun token => token.kind = .eof

/-- A newline or a comment. -/
def isTrivia (token : Token) : Bool :=
  token.kind = .newline || token.kind = .comment

def endsLine (tokens : List Token) : Bool :=
  tokens.head?.all fun token =>
    token.kind = .newline || token.kind = .comment || token.kind = .eof

def syncToNextLine (tokens : List Token) : List Token :=
  (tokens.dropWhile fun token => token.kind ≠ .eof && token.kind ≠ .newline).dropWhile isTrivia

/-- `collectTrailingDoc`: a comment on the line of its statement. -/
def collectTrailingDoc (line : UInt32) (tokens : List Token) : List Token :=
  match tokens with
  | comment :: rest =>
      if comment.kind = .comment ∧ comment.location.line = line then rest else comment :: rest
  | [] => []

def readTokens (tokens rest : List Token) : List Token :=
  tokens.take (tokens.length - rest.length)

def directiveKind (name : String) : DirectiveKind :=
  if name = "union" then .union
  else if name = "extent" then .extent
  else if name = "sealed" then .sealed
  else if name = "deprecated" then .deprecated
  else if name = "assert" then .assert
  else if name = "print" then .print
  else if name = "aliasable" then .aliasable
  else .unknown

/-- The kinds of a directive's name; the keywords are names here. -/
def isDirectiveName (kind : TokenKind) : Bool :=
  kind = .identifier || kind = .trueKeyword || kind = .falseKeyword

def parseDirectiveRest (sign name : Token) : TokenParser DirectiveAST := fun tokens =>
  if endsLine tokens then
    ⟨some ⟨sign.location, directiveKind name.text, name.text, none⟩, tokens, []⟩
  else if tokens.head?.any (tokensAdjacent name) then
    ⟨none, tokens,
      [errorDiagnostic (currentLocation tokens) "expected whitespace before directive expression"]⟩
  else
    let expression := parseExpression tokens
    ⟨some ⟨sign.location, directiveKind name.text, name.text, expression.value⟩, expression.rest,
      expression.errors⟩

def parseDirective : TokenParser DirectiveAST := fun tokens =>
  match tokens with
  | sign :: rest =>
      if sign.kind ≠ .at_ then
        ⟨none, tokens, [errorDiagnostic sign.location "expected '@' to begin directive"]⟩
      else
        match rest with
        | name :: after =>
            if !isDirectiveName name.kind then
              ⟨none, rest, [errorDiagnostic name.location "expected directive name"]⟩
            else if !tokensAdjacent sign name then
              ⟨none, rest, [errorDiagnostic name.location
                "no whitespace allowed between '@' and the directive name"]⟩
            else parseDirectiveRest sign name after
        | [] => ⟨none, [], [errorDiagnostic (currentLocation []) "expected directive name"]⟩
  | [] => ⟨none, [], [errorDiagnostic (currentLocation []) "expected '@' to begin directive"]⟩

/-- A field, or a constant when its initialiser follows the name. -/
def parseNamedAttribute (type : TypeExprAST) (name : Token) : TokenParser StatementAST :=
  fun tokens =>
    match tokens with
    | equal :: after =>
        if equal.kind = .equal then
          match parseExpression after with
          | ⟨some value, rest, errors⟩ =>
              ⟨some (.constant ⟨name.location, type, name.text, value⟩), rest, errors⟩
          | ⟨none, rest, errors⟩ =>
              ⟨none, rest, errors ++ [errorDiagnostic (currentLocation rest)
                "expected expression after '=' in constant"]⟩
        else ⟨some (.field ⟨name.location, type, name.text, false⟩), equal :: after, []⟩
    | [] => ⟨some (.field ⟨name.location, type, name.text, false⟩), [], []⟩

def ScalarTypeExprAST.isVoid : ScalarTypeExprAST → Bool
  | .void _ => true
  | _ => false

/-- A type without a name, which is a padding field. -/
def parsePadding (type : TypeExprAST) : TokenParser StatementAST := fun tokens =>
  if type.scalar.isVoid then
    if type.arrayKind ≠ .none then
      ⟨none, tokens,
        [errorDiagnostic type.location "a void (padding) field cannot be an array"]⟩
    else ⟨some (.field ⟨type.location, type, "", true⟩), tokens, []⟩
  else
    ⟨none, tokens, [errorDiagnostic (currentLocation tokens)
      "expected field name or constant initialiser"]⟩

/-- What follows the type of an attribute, whose last token is given. -/
def parseAttributeRest (last : Option Token) (type : TypeExprAST) : TokenParser StatementAST :=
  fun tokens =>
    match tokens with
    | name :: rest =>
        if name.kind = .identifier then
          if last.any fun last => tokensAdjacent last name then
            ⟨none, tokens,
              [errorDiagnostic name.location "expected whitespace between type and name"]⟩
          else parseNamedAttribute type name rest
        else parsePadding type tokens
    | [] => parsePadding type []

def parseAttribute : TokenParser StatementAST := fun tokens =>
  match parseTypeExpr parseExpression false tokens with
  | ⟨none, rest, errors⟩ =>
      ⟨none, rest,
        errors ++ [errorDiagnostic (currentLocation rest) "expected type expression"]⟩
  | ⟨some type, rest, errors⟩ =>
      let named := parseAttributeRest (readTokens tokens rest).getLast? type rest
      ⟨named.value, named.rest, errors ++ named.errors⟩

def parseStatement : TokenParser StatementAST := fun tokens =>
  match tokens with
  | token :: rest =>
      if token.kind = .at_ then
        let directive := parseDirective tokens
        ⟨directive.value.map .directive, directive.rest, directive.errors⟩
      else if token.kind = .serviceResponseMarker then
        ⟨some (.serviceResponseMarker token.location), rest, []⟩
      else parseAttribute tokens
  | [] => parseAttribute []

structure ReadStatement where
  statement : StatementAST
  start : List Token

/-- The loop of `parseDefinition`; every turn reads a token. -/
def parseStatements : ℕ → List Token → List ReadStatement × List Diagnostic
  | 0, _ => ([], [])
  | fuel + 1, tokens =>
      let start := tokens.dropWhile isTrivia
      if isAtEnd start then ([], [])
      else if (currentLocation start).column ≠ 1 then
        let others := parseStatements fuel (syncToNextLine start)
        (others.1, errorDiagnostic (currentLocation start)
          "a statement must begin at the start of the line" :: others.2)
      else
        match parseStatement start with
        | ⟨none, rest, errors⟩ =>
            let others := parseStatements fuel (syncToNextLine rest)
            (others.1, errors ++ others.2)
        | ⟨some statement, rest, errors⟩ =>
            let after := collectTrailingDoc statement.location.line rest
            if endsLine after then
              let others := parseStatements fuel after
              (⟨statement, start⟩ :: others.1, errors ++ others.2)
            else
              let others := parseStatements fuel (syncToNextLine after)
              (⟨statement, start⟩ :: others.1, errors ++
                errorDiagnostic (currentLocation after) "expected end of line after statement" ::
                  others.2)

structure ParsedSource where
  lexTokens : List Token
  statements : List ReadStatement

/-- `parseDefinition` of a lexed text, unless either reports an error. -/
def parseDefinition (file text : String) : Option ParsedSource :=
  let lexed := lex file text
  let parsed := parseStatements (lexed.1.length + 1) lexed.1
  if lexed.2.isEmpty && parsed.2.isEmpty then some ⟨lexed.1, parsed.1⟩ else none

def ParsedSource.ast (file : String) (source : ParsedSource) : DefinitionAST :=
  ⟨⟨file, 1, 1⟩, source.statements.map ReadStatement.statement⟩

end LlvmDsdl.Frontend
