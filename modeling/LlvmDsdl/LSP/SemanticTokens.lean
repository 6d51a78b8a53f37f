import LlvmDsdl.Frontend.AstPrinter
import LlvmDsdl.Frontend.StatementGrammar
import LlvmDsdl.Frontend.TokenLayout
import Mathlib.Data.List.Sort

/-!
Contract: the semantic tokens of a parsed source (`LSP/Analysis.cpp`).

Owns: the tokens of directives, comments, types, fields and constants, their order and
delta encoding, the decoding of a client, the elements of a source that tokens stand
for, and what it means that decoded tokens are spans of the source.

Elements stand where the text has them; the locations of tokens and statements hold
32 bits of that.
-/

namespace LlvmDsdl.LSP

open Frontend

structure HighlightToken where
  line : ℕ
  character : ℕ
  length : ℕ
  type : ℕ
  modifiers : ℕ
  deriving DecidableEq

def semanticTypeKeyword : ℕ := 0

def semanticTypeType : ℕ := 1

def semanticTypeProperty : ℕ := 2

def semanticTypeComment : ℕ := 3

def semanticTypeOperator : ℕ := 4

def zeroBasedLine (location : SourceLocation) : ℕ :=
  location.line.toNat - 1

def zeroBasedColumn (location : SourceLocation) : ℕ :=
  location.column.toNat - 1

/-- A token of a length and a type at a location. -/
def highlightAt (location : SourceLocation) (length type : ℕ) : HighlightToken :=
  ⟨zeroBasedLine location, zeroBasedColumn location, length % 2 ^ 32, type, 0⟩

/-- `CachedDefinition::DirectiveToken`: the text of a directive or of a response marker. -/
def directiveText : StatementAST → Option String
  | .directive directive => some ("@" ++ directive.rawName)
  | .serviceResponseMarker _ => some "---"
  | _ => none

def directiveHighlight (statement : StatementAST) : Option HighlightToken :=
  (directiveText statement).map fun text =>
    highlightAt statement.location text.length
      (if text = "---" then semanticTypeOperator else semanticTypeKeyword)

def commentHighlight (token : Token) : Option HighlightToken :=
  if token.kind = .comment then
    some (highlightAt token.location token.text.length semanticTypeComment)
  else none

def attributeType : StatementAST → Option TypeExprAST
  | .field field => some field.type
  | .constant constant => some constant.type
  | _ => none

def typeHighlight (statement : StatementAST) : Option HighlightToken :=
  (attributeType statement).map fun type =>
    highlightAt type.location type.str.length semanticTypeType

def fieldHighlight : StatementAST → Option HighlightToken
  | .field field => some (highlightAt field.location field.name.length semanticTypeProperty)
  | _ => none

def constantHighlight : StatementAST → Option HighlightToken
  | .constant constant =>
      some (highlightAt constant.location constant.name.length semanticTypeProperty)
  | _ => none

def statementsOf (source : ParsedSource) : List StatementAST :=
  source.statements.map ReadStatement.statement

/-- The tokens in the order they are collected. -/
def highlights (source : ParsedSource) : List HighlightToken :=
  (statementsOf source).filterMap directiveHighlight ++
    (source.lexTokens.filterMap commentHighlight ++
      ((statementsOf source).filterMap typeHighlight ++
        ((statementsOf source).filterMap fieldHighlight ++
          (statementsOf source).filterMap constantHighlight)))

/-- The comparison of the sort: line, character, length and type. -/
def HighlightToken.Less (lhs rhs : HighlightToken) : Prop :=
  lhs.line < rhs.line ∨ lhs.line = rhs.line ∧
    (lhs.character < rhs.character ∨ lhs.character = rhs.character ∧
      (lhs.length < rhs.length ∨ lhs.length = rhs.length ∧ lhs.type < rhs.type))

def HighlightToken.Sorted (lhs rhs : HighlightToken) : Prop :=
  ¬rhs.Less lhs

instance (lhs rhs : HighlightToken) : Decidable (lhs.Less rhs) :=
  inferInstanceAs (Decidable (_ ∨ _))

instance : DecidableRel HighlightToken.Sorted :=
  fun lhs rhs => inferInstanceAs (Decidable ¬rhs.Less lhs)

/-- `std::ranges::unique`: of equal neighbours the first. -/
def unique : List HighlightToken → List HighlightToken
  | first :: second :: rest =>
      if first = second then unique (second :: rest) else first :: unique (second :: rest)
  | tokens => tokens

def orderedHighlights (source : ParsedSource) : List HighlightToken :=
  unique ((highlights source).insertionSort HighlightToken.Sorted)

/-- The difference of two numbers of 32 bits, which wraps below zero. -/
def wrappedSub (number subtrahend : ℕ) : ℕ :=
  (number + (2 ^ 32 - subtrahend)) % 2 ^ 32

structure EncodedToken where
  deltaLine : ℕ
  deltaChar : ℕ
  length : ℕ
  type : ℕ
  modifiers : ℕ
  deriving DecidableEq

def encodeToken (previous : Option HighlightToken) (token : HighlightToken) : EncodedToken :=
  match previous with
  | none => ⟨token.line, token.character, token.length, token.type, token.modifiers⟩
  | some previous =>
      ⟨wrappedSub token.line previous.line,
        if token.line ≠ previous.line then token.character
        else wrappedSub token.character previous.character,
        token.length, token.type, token.modifiers⟩

def encodeFrom : Option HighlightToken → List HighlightToken → List EncodedToken
  | _, [] => []
  | previous, token :: rest => encodeToken previous token :: encodeFrom (some token) rest

/-- `semanticTokens` of a source that the parser accepts. -/
def semanticTokens (source : ParsedSource) : List EncodedToken :=
  encodeFrom none (orderedHighlights source)

/-- The tokens whose deltas are summed from a line and a character on. -/
def decodeFrom : ℕ → ℕ → List EncodedToken → List HighlightToken
  | _, _, [] => []
  | line, character, token :: rest =>
      let nextLine := line + token.deltaLine
      let nextCharacter :=
        if token.deltaLine = 0 then character + token.deltaChar else token.deltaChar
      ⟨nextLine, nextCharacter, token.length, token.type, token.modifiers⟩ ::
        decodeFrom nextLine nextCharacter rest

/-- What a client reads. -/
def decodeTokens (tokens : List EncodedToken) : List HighlightToken :=
  decodeFrom 0 0 tokens

inductive ElementKind where
  | comment
  | directive
  | responseMarker
  | typeExpression
  | fieldName
  | constantName
  deriving DecidableEq

def ElementKind.semanticType : ElementKind → ℕ
  | .comment => semanticTypeComment
  | .directive => semanticTypeKeyword
  | .responseMarker => semanticTypeOperator
  | .typeExpression => semanticTypeType
  | .fieldName => semanticTypeProperty
  | .constantName => semanticTypeProperty

/-- A piece of a source, with the line and column it starts at and its text there. -/
structure Element where
  kind : ElementKind
  start : ℕ × ℕ
  spelling : List Char
  deriving DecidableEq

def textBetween (text : List Char) (start stop : ℕ × ℕ) : List Char :=
  (textAt text start).take ((textAt text start).length - (textAt text stop).length)

/-- The text of a source from the first of some tokens to the end of the last. -/
def coveredText (text : List Char) (used : List Token) (starts : List (ℕ × ℕ)) : List Char :=
  match used.getLast? with
  | some last =>
      textBetween text (startAt starts 0)
        (positionAfter (startAt starts (used.length - 1)) last.text.toList)
  | none => []

def dashesAt (text : List Char) (position : ℕ × ℕ) : List Char :=
  (textAt text position).takeWhile (· = '-')

/-- The positions of the last tokens of a source, as many as these. -/
def startsOf (starts : List (ℕ × ℕ)) (tokens : List Token) : List (ℕ × ℕ) :=
  starts.drop (starts.length - tokens.length)

variable (text : List Char) (starts : List (ℕ × ℕ))

def statementStart (read : ReadStatement) : ℕ × ℕ :=
  startAt (startsOf starts read.start) 0

/-- Where the name behind the type of a statement starts. -/
def nameStart (read : ReadStatement) : ℕ × ℕ :=
  startAt (startsOf starts read.start) (typeTokens read.start).length

def isNamed : StatementAST → Bool
  | .field field => !field.isPadding
  | .constant _ => true
  | _ => false

def typeText (read : ReadStatement) : List Char :=
  coveredText text (typeTokens read.start) (startsOf starts read.start)

def typeElement (read : ReadStatement) : Element :=
  ⟨.typeExpression, statementStart starts read, typeText text starts read⟩

def statementElements (read : ReadStatement) : List Element :=
  match read.statement with
  | .directive directive =>
      [⟨.directive, statementStart starts read, '@' :: directive.rawName.toList⟩]
  | .serviceResponseMarker _ =>
      [⟨.responseMarker, statementStart starts read,
        dashesAt text (statementStart starts read)⟩]
  | .field field =>
      typeElement text starts read ::
        if field.isPadding then []
        else [⟨.fieldName, nameStart starts read, field.name.toList⟩]
  | .constant constant =>
      [typeElement text starts read,
        ⟨.constantName, nameStart starts read, constant.name.toList⟩]

def commentElement (entry : Token × (ℕ × ℕ)) : Option Element :=
  if entry.1.kind = .comment then some ⟨.comment, entry.2, entry.1.text.toList⟩ else none

/-- The comments of a source, and the directives, markers, types and names of its statements. -/
def elements (source : ParsedSource) : List Element :=
  (source.lexTokens.zip starts).filterMap commentElement ++
    source.statements.flatMap (statementElements text starts)

def HighlightToken.place (token : HighlightToken) : ℕ × ℕ :=
  (token.line, token.character)

/-- A token covers exactly an element, which stands in one line of the source. -/
def Covers (token : HighlightToken) (element : Element) : Prop :=
  token.line + 1 = element.start.1 ∧ token.character + 1 = element.start.2 ∧
    token.length = element.spelling.length ∧ token.type = element.kind.semanticType ∧
    '\n' ∉ element.spelling ∧ element.spelling <+: textAt text element.start

instance (token : HighlightToken) (element : Element) :
    Decidable (Covers text token element) :=
  inferInstanceAs (Decidable (_ ∧ _))

/-- Neither subtraction of a token's encoding behind another goes below zero. -/
def Advances (previous token : HighlightToken) : Prop :=
  previous.line ≤ token.line ∧
    (token.line = previous.line → previous.character ≤ token.character)

/-- A token ends before another of its line. -/
def StopsBefore (first second : HighlightToken) : Prop :=
  first.line = second.line → first.character + first.length ≤ second.character

/-- The encoded tokens decode to the spans of a source, whose tokens start at these positions. -/
structure DecodesToSpans (source : ParsedSource) : Prop where
  noWrap : (orderedHighlights source).IsChain Advances
  increasing : (decodeTokens (semanticTokens source)).Pairwise fun first second =>
    Precedes first.place second.place
  apart : (decodeTokens (semanticTokens source)).Pairwise StopsBefore
  covers : ∀ token ∈ decodeTokens (semanticTokens source),
    ∃ element ∈ elements text starts source, Covers text token element
  complete : ∀ element ∈ elements text starts source,
    ∃ token ∈ decodeTokens (semanticTokens source), Covers text token element

/-- No field is padding, the name of every directive is behind its sign, every response marker is
of three dashes, and every type stands in one line and is as long as its printed form; 32 bits
hold positions and lengths. -/
structure PrintsAsWritten (source : ParsedSource) : Prop where
  named : ∀ field, .field field ∈ statementsOf source → field.isPadding = false
  signed : ∀ read ∈ source.statements, ∀ directive, read.statement = .directive directive →
    '@' :: directive.rawName.toList <+: textAt text (statementStart starts read)
  dashes : ∀ read ∈ source.statements, ∀ location,
    read.statement = .serviceResponseMarker location →
      (dashesAt text (statementStart starts read)).length = 3
  types : ∀ read ∈ source.statements, ∀ type ∈ attributeType read.statement,
    '\n' ∉ typeText text starts read ∧
      type.str.length % 2 ^ 32 = (typeText text starts read).length
  bounded : ∀ element ∈ elements text starts source,
    InRange element.start ∧ element.spelling.length < 2 ^ 32

end LlvmDsdl.LSP
