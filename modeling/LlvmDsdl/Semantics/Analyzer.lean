import LlvmDsdl.Semantics.AliasLayout
import LlvmDsdl.Semantics.AnalysisLogic
import LlvmDsdl.Semantics.VersionRules

/-!
Contract: the analysis of a module (`AnalyzerImpl`).

Owns: the analysis of one definition, the memoised depth-limited visit of all of
them, the aliasable assertions and the verdict on the module.

The diagnostics of one definition are kept together: those of a definition it
depends on stand before them.
-/

namespace LlvmDsdl.Semantics

open Frontend Library

structure AnalyzeOptions where
  allowUnregulatedFixedPortId : Bool := false
  externalSemanticCatalog : SemanticModule := []
  aliasableViews : Bool := false

/-- Upper bound on nested composite-type analysis depth. -/
def kMaxAnalysisDepth : ℕ := 128

/-- The statements before the first response marker. -/
def requestStatements (statements : List StatementAST) : List StatementAST :=
  statements.takeWhile fun stmt => !stmt.isMarker

/-- The statements after the first response marker, further markers left out. -/
def responseStatements (statements : List StatementAST) : List StatementAST :=
  (statements.dropWhile fun stmt => !stmt.isMarker).filter fun stmt => !stmt.isMarker

def markerCount (statements : List StatementAST) : ℕ :=
  statements.countP StatementAST.isMarker

def analyzeDefinition (scope : Scope) (parsed : ParsedDefinition) : Analysis SemanticDefinition := do
  let statements := parsed.ast.statements
  let isService := parsed.ast.isService
  reportWhen (!isService && decide (0 < markerCount statements)) parsed.ast.location
    "service response marker is only valid in service types"
  reportWhen (decide (1 < markerCount statements)) parsed.ast.location
    "duplicated service response marker"
  let request ← analyzeSection scope parsed.info false (requestStatements statements)
  if isService then do
    let response ← analyzeSection scope parsed.info true (responseStatements statements)
    reportWhen response.deprecated parsed.ast.location
      "@deprecated is only allowed in service request section"
    pure
      { info := parsed.info
        isService := isService
        request := request
        response := some { response with deprecated := request.deprecated } }
  else pure { info := parsed.info, isService := isService, request := request }

structure AnalysisHost where
  host : Host
  printed : Value → String

/-- `resolveDefinitionIndex`: the first definition listed under a key. -/
def resolveDefinitionIndex (module : ASTModule) (key : TypeKey) : ℕ :=
  module.findIdx fun parsed => parsed.info.typeKey = key

def scopeOf (env : AnalysisHost) (options : AnalyzeOptions) (module : ASTModule) : Scope where
  host := env.host
  printed := env.printed
  isLocal key := module.any fun parsed => parsed.info.typeKey = key
  external key := options.externalSemanticCatalog.find? fun definition =>
    definition.info.typeKey = key

def definitionError (module : ASTModule) (position : ℕ) (message : String) : List Diagnostic :=
  match module[position]? with
  | some parsed => [⟨.error, parsed.ast.location, message, none⟩]
  | none => [⟨.error, ⟨"", 0, 0⟩, message, none⟩]

section Run

variable (env : AnalysisHost) (options : AnalyzeOptions) (module : ASTModule)

/-- `analyzeOne`: a definition is analysed when it is first asked for. -/
def analysisSystem : TaskSystem TypeKey ℕ (Option SemanticDefinition) Diagnostic where
  locate := resolveDefinitionIndex module
  task position :=
    match module[position]? with
    | none => pure (none, [])
    | some parsed => do
        let outcome ← analyzeDefinition (scopeOf env options module) parsed []
        pure (some outcome.1, outcome.2)
  onCycle position := (none, definitionError module position "circular dependency detected")
  onLimit position :=
    (none, definitionError module position
      ("composite type nesting is too deep (exceeds " ++ toString kMaxAnalysisDepth ++ " levels)"))

/-- `state_`, `results_` and the diagnostics after the visits. -/
def analyzeAll : Memo ℕ (Option SemanticDefinition) Diagnostic :=
  (analysisSystem env options module).visitAll kMaxAnalysisDepth (List.range module.length) .fresh

def resultOf (mark : Mark (Option SemanticDefinition)) : Option SemanticDefinition :=
  match mark with
  | .done result => result
  | _ => none

/-- The first results on record, in list order. -/
def resultsIn (memo : Memo ℕ (Option SemanticDefinition) Diagnostic) (count : ℕ) :
    SemanticModule :=
  (List.range count).filterMap fun position => resultOf (memo.mark position)

def analyzedDefinitions : SemanticModule :=
  resultsIn (analyzeAll env options module) module.length

def checkOneAliasableAssertion (sec : SemanticSection) (sectionName : String) :
    List Diagnostic :=
  match sec.aliasableDirective with
  | none => []
  | some location =>
      if sec.wireFlat.holds then []
      else
        let scopeText := if sectionName = "" then "" else " for the " ++ sectionName
        let message := "@aliasable does not hold" ++ scopeText ++ ": " ++
          describeAliasLayoutVerdict sec.wireFlat ++
          (if !sec.sealed && sec.wireFlat.reason ≠ .notSealed then
            "; the type is also delimited, so it needs @sealed" else "")
        let nested : AliasLayoutVerdict :=
          { reason := sec.wireFlat.nestedReason, fieldName := sec.wireFlat.nestedFieldName }
        ⟨.error, location, message, none⟩ ::
          (if sec.wireFlat.reason = .nestedNotFlat then
            [⟨.note, location, sec.wireFlat.nestedTypeName ++ ": " ++
              describeAliasLayoutVerdict nested, none⟩]
          else [])

def checkAliasableAssertions (definitions : SemanticModule) : List Diagnostic :=
  definitions.flatMap fun definition =>
    checkOneAliasableAssertion definition.request (if definition.isService then "request" else "") ++
      (definition.response.map fun response =>
        checkOneAliasableAssertion response "response").getD []

def hasErrors (diagnostics : List Diagnostic) : Bool :=
  diagnostics.any fun diagnostic => decide (isError diagnostic)

def visitDiagnostics : List Diagnostic :=
  (analyzeAll env options module).reports ++
    checkVersionRules options.allowUnregulatedFixedPortId (analyzedDefinitions env options module)

def annotatedDefinitions : SemanticModule :=
  annotateAliasLayout (analyzedDefinitions env options module) options.externalSemanticCatalog
    options.aliasableViews

/-- `analyze`: the resolved module, or nothing when an error was reported. -/
def analyze : Option SemanticModule :=
  if hasErrors (visitDiagnostics env options module) then none
  else if hasErrors (checkAliasableAssertions (annotatedDefinitions env options module)) then none
  else some (annotatedDefinitions env options module)

end Run

end LlvmDsdl.Semantics
