import LlvmDsdl.Semantics.TypeAnalysis

/-!
Contract: the analysis of one section (`analyzeSection`).

Owns: the walk's state, one handler per kind of statement, the lengths at the
end of a section and the check of its extent.
-/

namespace LlvmDsdl.Semantics

open Frontend Support Library

/-- The locals of `analyzeSection`. -/
structure SectionState where
  out : SemanticSection := {}
  env : ValueEnv := fun _ => none
  structureOffset : LengthSet := .ofValue 0
  unionFields : List TypeLayout := []
  attributesStarted : Bool := false
  serializationModeSet : Bool := false
  unionOffsetUsed : Bool := false
  unionOptionCounter : ℕ := 0
  firstStatementLocation : Option SourceLocation := none
  unionDirectiveLocation : Option SourceLocation := none
  serializationDirectiveLocation : Option SourceLocation := none
  extentDirectiveLocation : Option SourceLocation := none
  extentExpressionLocation : Option SourceLocation := none
  names : List String := []

namespace SectionState

def bind (state : SectionState) (name : String) (value : Value) : SectionState :=
  { state with env := Function.update state.env name (some value) }

end SectionState

mutual

def exprContainsOffset : ExprAST → Bool
  | .identifier _ name => name == "_offset_"
  | .unary _ _ operand => exprContainsOffset operand
  | .binary _ _ lhs rhs => exprContainsOffset lhs || exprContainsOffset rhs
  | .setLiteral _ elements => anyContainsOffset elements
  | _ => false

def anyContainsOffset : List ExprAST → Bool
  | [] => false
  | element :: rest => exprContainsOffset element || anyContainsOffset rest

end

def stmtNeedsOffset : StatementAST → Bool
  | .constant c => exprContainsOffset c.value
  | .field f => f.type.arrayCapacity.any exprContainsOffset
  | .directive d => d.expression.any exprContainsOffset
  | .serviceResponseMarker _ => false

/-- The width of the tag of a union with `options` options. -/
def unionTagBitsOf (options : ℕ) : ℤ :=
  pow2ceil (max 8 (ceilLog2 options))

def computeUnionOffsetFromSeenFields (unionFields : List TypeLayout) : LengthSet :=
  match unionFields with
  | [] => .ofValue 0
  | first :: rest =>
      let payloadSet := rest.foldl (fun set field => set.union field.bls) first.bls
      ((LengthSet.ofValue (unionTagBitsOf unionFields.length)).add payloadSet).padToAlignment 8

/-- The value `_offset_` stands for. -/
def currentOffset (state : SectionState) : LengthSet :=
  if state.out.isUnion then computeUnionOffsetFromSeenFields state.unionFields
  else state.structureOffset

section Walk

variable (scope : Scope) (owner : DiscoveredDefinition) (isResponse : Bool)

/-- `evaluateExpression` in the section's environment. -/
def evaluateIn (state : SectionState) (expression : ExprAST) (location : SourceLocation) :
    Analysis (Option Value) :=
  evaluateExpression scope.host state.env (some (typeAttrResolver scope owner)) expression location

def unionDirective (d : DirectiveAST) (state : SectionState) : Analysis SectionState := do
  reportWhen d.expression.isSome d.location "@union does not accept an expression"
  reportWhen state.out.isUnion d.location "duplicated @union directive"
  reportWhen state.attributesStarted d.location "@union must appear before first attribute"
  pure { state with
    out := { state.out with isUnion := true }
    unionDirectiveLocation := some d.location }

def aliasableDirective (d : DirectiveAST) (state : SectionState) : Analysis SectionState := do
  reportWhen d.expression.isSome d.location "@aliasable does not accept an expression"
  reportWhen state.out.aliasableDirective.isSome d.location "duplicated @aliasable directive"
  pure { state with out := { state.out with aliasableDirective := some d.location } }

def deprecatedDirective (d : DirectiveAST) (state : SectionState) : Analysis SectionState := do
  reportWhen d.expression.isSome d.location "@deprecated does not accept an expression"
  reportWhen isResponse d.location "@deprecated is only valid in service request section"
  reportWhen state.out.deprecated d.location "duplicated @deprecated directive"
  reportWhen state.attributesStarted d.location "@deprecated must be placed before first attribute"
  pure { state with out := { state.out with deprecated := true } }

/-- An expression over `_offset_` fixes the options of a union. -/
def useOffset (state : SectionState) (expression : ExprAST) : SectionState :=
  { state with
    unionOffsetUsed :=
      state.unionOffsetUsed || (exprContainsOffset expression && state.out.isUnion) }

def setExtent (d : DirectiveAST) (expression : ExprAST) (extent : ℤ) (state : SectionState) :
    SectionState :=
  { state with
    out := { state.out with extentBits := some extent, sealed := false }
    serializationModeSet := true
    serializationDirectiveLocation := some d.location
    extentDirectiveLocation := some d.location
    extentExpressionLocation := some expression.location }

def extentDirective (d : DirectiveAST) (state : SectionState) : Analysis SectionState :=
  match state.serializationModeSet, d.expression with
  | true, _ => do
      reportError d.location "serialisation mode already set before @extent"
      pure state
  | false, none => do
      reportError d.location "@extent requires an expression"
      pure state
  | false, some expression => do
      let used := useOffset state expression
      match integerOf (← evaluateIn scope owner state expression d.location) with
      | none => do
          reportError expression.location "@extent expression must evaluate to integer rational"
          pure used
      | some none => do
          reportError expression.location "@extent is too large"
          pure used
      | some (some extent) => do
          reportWhen (decide (extent < 0)) expression.location "@extent cannot be negative"
          pure (setExtent d expression extent used)

def sealedDirective (d : DirectiveAST) (state : SectionState) : Analysis SectionState := do
  if state.serializationModeSet then do
    reportError d.location "serialisation mode already set before @sealed"
    pure state
  else do
    reportWhen d.expression.isSome d.location "@sealed does not accept an expression"
    pure { state with
      out := { state.out with sealed := true }
      serializationModeSet := true
      serializationDirectiveLocation := some d.location }

def checkAssertion (location : SourceLocation) : Option Value → Analysis Unit
  | some (.boolean true) => pure ()
  | some (.boolean false) => reportError location "assertion failed"
  | _ => reportError location "@assert expression must evaluate to bool"

def assertDirective (d : DirectiveAST) (state : SectionState) : Analysis SectionState :=
  match d.expression with
  | none => do
      reportError d.location "@assert requires an expression"
      pure state
  | some expression => do
      checkAssertion d.location (← evaluateIn scope owner state expression d.location)
      pure (useOffset state expression)

def printDirective (d : DirectiveAST) (state : SectionState) : Analysis SectionState :=
  match d.expression with
  | none => do
      reportNote d.location ""
      pure state
  | some expression => do
      match ← evaluateIn scope owner state expression d.location with
      | none => pure ()
      | some value => reportNote d.location (scope.printed value)
      pure (useOffset state expression)

def analyzeDirective (d : DirectiveAST) (state : SectionState) : Analysis SectionState :=
  match d.kind with
  | .unknown => do
      reportError d.location ("unknown directive @" ++ d.rawName)
      pure state
  | .union => unionDirective d state
  | .aliasable => aliasableDirective d state
  | .deprecated => deprecatedDirective isResponse d state
  | .extent => extentDirective scope owner d state
  | .sealed => sealedDirective d state
  | .assert => assertDirective scope owner d state
  | .print => printDirective scope owner d state

def nameError (state : SectionState) (name : String) : Option String :=
  if isReservedIdentifier name then
    some ("attribute name is a reserved identifier: " ++ name)
  else if state.names.contains name then some ("duplicate attribute name: " ++ name)
  else none

def addConstant (c : ConstantDeclAST) (value : Value) (state : SectionState) : SectionState :=
  let constant : SemanticConstant := ⟨c.name, c.type, value⟩
  let named := { state with
    names := c.name :: state.names
    out := { state.out with constants := state.out.constants ++ [constant] } }
  named.bind c.name value

def analyzeConstant (c : ConstantDeclAST) (state : SectionState) : Analysis SectionState := do
  reportWhen state.serializationModeSet c.location "attributes cannot follow @extent/@sealed"
  let started := { state with attributesStarted := true }
  match nameError state c.name with
  | some message => do
      reportError c.location message
      pure started
  | none =>
      match ← evaluateIn scope owner state c.value c.location with
      | none => pure started
      | some value => do
          if ← checkConstantCompatibility c value then pure (addConstant c value started)
          else pure started

def semanticField (f : FieldDeclAST) (state : SectionState) (layout : TypeLayout) :
    SemanticField :=
  { name := f.name
    type := f.type
    isPadding := f.isPadding
    resolvedType := layout.resolved
    sectionName := if isResponse then "response" else "request"
    unionOptionIndex :=
      if state.out.isUnion && !f.isPadding then state.unionOptionCounter else 0 }

/-- A field joins a union's options or moves a structure's offset. -/
def addField (f : FieldDeclAST) (layout : TypeLayout) (state : SectionState) : SectionState :=
  let fields := state.out.fields ++ [semanticField isResponse f state layout]
  let counter :=
    if state.out.isUnion && !f.isPadding then state.unionOptionCounter + 1
    else state.unionOptionCounter
  if state.out.isUnion then
    { state with
      out := { state.out with fields := fields }
      unionOptionCounter := counter
      unionFields := state.unionFields ++ [layout] }
  else
    { state with
      out := { state.out with fields := fields }
      unionOptionCounter := counter
      structureOffset := (state.structureOffset.padToAlignment layout.alignment).add layout.bls }

def analyzeField (f : FieldDeclAST) (state : SectionState) : Analysis SectionState := do
  reportWhen state.serializationModeSet f.location "attributes cannot follow @extent/@sealed"
  let started := { state with attributesStarted := true }
  match if f.isPadding then none else nameError state f.name with
  | some message => do
      reportError f.location message
      pure started
  | none => do
      let named := if f.isPadding then started else { started with names := f.name :: state.names }
      if state.out.isUnion && f.isPadding then do
        reportError f.location "tagged unions cannot contain padding fields"
        pure named
      else do
        reportWhen (state.out.isUnion && state.unionOffsetUsed) f.location
          "field after _offset_ usage in union is not allowed by spec"
        let layout ← analyzeType scope state.env (typeAttrResolver scope owner) owner f.type
        pure (addField isResponse f layout named)

/-- What precedes every statement: its location and, where it needs it, `_offset_`. -/
def enterStatement (stmt : StatementAST) (state : SectionState) : SectionState :=
  let located := { state with
    firstStatementLocation := state.firstStatementLocation.orElse fun _ => some stmt.location }
  if stmtNeedsOffset stmt then located.bind "_offset_" (.bitLengthSet (currentOffset state))
  else located

def analyzeStatement (state : SectionState) (stmt : StatementAST) : Analysis SectionState :=
  let entered := enterStatement stmt state
  match stmt with
  | .directive d => analyzeDirective scope owner isResponse d entered
  | .constant c => analyzeConstant scope owner c entered
  | .field f => analyzeField scope owner isResponse f entered
  | .serviceResponseMarker _ => pure entered

def analyzeStatements : List StatementAST → SectionState → Analysis SectionState
  | [], state => pure state
  | stmt :: rest, state => do
      analyzeStatements rest (← analyzeStatement scope owner isResponse state stmt)

def ownerFallbackLocation : SourceLocation :=
  if owner.filePath = "" then ⟨"<unknown>", 1, 1⟩ else ⟨owner.filePath, 1, 1⟩

def sectionAnchorLocation (state : SectionState) : SourceLocation :=
  (state.serializationDirectiveLocation.orElse fun _ => state.firstStatementLocation).getD
    (ownerFallbackLocation owner)

/-- The lengths at the end, and the tag width of a union's options. -/
def closeOffsets (state : SectionState) : SemanticSection :=
  if state.out.isUnion then
    let tagBits := unionTagBitsOf state.unionFields.length
    { state.out with
      offsetAtEnd := computeUnionOffsetFromSeenFields state.unionFields
      fields := state.out.fields.map fun field =>
        if field.isPadding then field else { field with unionTagBits := tagBits } }
  else { state.out with offsetAtEnd := state.structureOffset.padToAlignment 8 }

/-- The next multiple of eight of the least extent that would do. -/
def suggestedExtent (longest extent : ℤ) : ℤ :=
  let least := max 0 (max longest extent)
  if least % 8 = 0 then least else least + (8 - least % 8)

def checkExtent (state : SectionState) (out : SemanticSection) : Analysis Unit := do
  let extent := out.extentBits.getD (-1)
  let location := state.extentExpressionLocation.getD
    (state.extentDirectiveLocation.getD (sectionAnchorLocation owner state))
  let suggested := suggestedExtent out.offsetAtEnd.max extent
  if extent < 0 then
    reportExtent location "@extent must define non-negative extent bits" suggested
  if extent.tmod 8 ≠ 0 then
    reportExtent location "extent must be a multiple of 8 bits" suggested
  if extent < out.offsetAtEnd.max then
    reportExtent location "extent smaller than maximal serialised length" suggested

/-- The bounds read off the lengths at the end. -/
def withBounds (out : SemanticSection) : SemanticSection :=
  { out with
    minBitLength := out.offsetAtEnd.min
    maxBitLength := out.offsetAtEnd.max
    fixedSize := out.offsetAtEnd.fixed
    serializationBufferSizeBits := out.offsetAtEnd.max }

def closeSection (state : SectionState) : Analysis SemanticSection := do
  reportWhen (state.out.isUnion && decide (state.unionFields.length < 2))
    (state.unionDirectiveLocation.getD (sectionAnchorLocation owner state))
    "tagged unions must contain at least two fields"
  let out := closeOffsets state
  reportWhen (!state.serializationModeSet) (sectionAnchorLocation owner state)
    "either @sealed or @extent are required"
  if out.sealed then pure (withBounds { out with extentBits := some out.offsetAtEnd.max })
  else do
    checkExtent owner state out
    pure (withBounds out)

def analyzeSection (statements : List StatementAST) : Analysis SemanticSection := do
  closeSection owner (← analyzeStatements scope owner isResponse statements {})

end Walk

end LlvmDsdl.Semantics
