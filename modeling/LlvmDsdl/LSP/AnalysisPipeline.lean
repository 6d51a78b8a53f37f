import LlvmDsdl.Library.Worklist
import LlvmDsdl.Semantics.Model

/-!
Contract: the editor's incremental analysis (`LSP/Analysis.cpp`).

Owns: the caches of the pipeline, the merge of discovered files with open
documents, dirty and impacted paths, the refresh of one path, the dependency
graph, and one run.

Discovery, parsing, semantic analysis, lowering and linting are whatever functions
of their inputs they are: `Services`. An unordered container is iterated in no
particular order, so what is collected from one is a multiset, and where the order
shows it is an input of the run. Navigation data and the caches read by editor
queries are left out.
-/

namespace LlvmDsdl.LSP

open Frontend Semantics Library

structure ServerConfig where
  rootNamespaceDirs : List String
  lookupDirs : List String
  lintEnabled : Bool
  lintDisabledRules : List String
  lintFileDisabledRules : List (String × List String)
  lintPluginLibraries : List String
  enableMlirSnapshot : Bool

structure DocumentSnapshot where
  uri : String
  text : String

structure DiscoveredFile where
  info : DiscoveredDefinition
  rootNamespacePath : String
  text : String
  deriving DecidableEq

/-- The order an unordered map of these paths is iterated in, which its history decides. -/
structure Iteration where
  order : Finset String → List String
  each : ∀ paths, (order paths : Multiset String) = paths.val

/-- Ascending. -/
def Iteration.sorted : Iteration where
  order paths := paths.sort (· ≤ ·)
  each paths := Finset.sort_eq paths (· ≤ ·)

/-- What one run sees: the disk and the open documents, and the order of its cache. -/
structure Workspace (δ : Type) where
  disk : δ
  documents : List DocumentSnapshot
  iteration : Iteration

structure ParseOutcome where
  definition : Option DefinitionAST
  diagnostics : List Diagnostic

structure CachedDefinition (η : Type) where
  info : DiscoveredFile
  ast : DefinitionAST
  sourceUri : String
  textHash : η
  dependencyTypeKeys : List String
  parseDiagnostics : List Diagnostic

structure LintDocument where
  path : String
  uri : String
  info : DiscoveredFile
  ast : DefinitionAST
  analysed : Option SemanticDefinition

/-- What the pipeline calls. -/
structure Services (δ η : Type) where
  discoverDefinitions : List String → List String → δ → List DiscoveredFile × List Diagnostic
  normalizePath : String → String
  uriToNormalizedPath : String → String
  normalizedPathToFileUri : String → String
  parentPath : String → String
  makeOverlayShortName : String → String
  hashText : String → η
  parse : String → String → ParseOutcome
  analyze : ASTModule → Option SemanticModule × List Diagnostic
  lower : SemanticModule → List Diagnostic
  lint : ServerConfig → List LintDocument → List Diagnostic

abbrev PathMap (α : Type) := Finmap fun _ : String => α

namespace PathMap

variable {α : Type}

/-- `insert_or_assign`, or `erase`. -/
def put (map : PathMap α) (path : String) : Option α → PathMap α
  | some value => map.insert path value
  | none => map.erase path

theorem lookup_put_self (map : PathMap α) (path : String) (value : Option α) :
    (map.put path value).lookup path = value := by
  cases value with
  | none => exact Finmap.lookup_erase path map
  | some value => exact Finmap.lookup_insert map

theorem lookup_put_of_ne (map : PathMap α) {path other : String} (away : other ≠ path)
    (value : Option α) : (map.put path value).lookup other = map.lookup other := by
  cases value with
  | none => exact Finmap.lookup_erase_ne away
  | some value => exact Finmap.lookup_insert_of_ne map away

def values (map : PathMap α) : Multiset α :=
  map.entries.map fun entry => entry.2

/-- `std::ranges::sort` of the keys. -/
def sortedPaths (map : PathMap α) : List String :=
  map.keys.sort (· ≤ ·)

end PathMap

/-- The members of a `std::set` of names, in its order. -/
def inOrder (names : Finset String) : List String :=
  names.sort (· ≤ ·)

def makeTypeKey (fullName : String) (major minor : ℕ) : String :=
  fullName ++ "." ++ toString major ++ "." ++ toString minor

def typeKeyOf (info : DiscoveredDefinition) : String :=
  makeTypeKey info.fullName info.majorVersion info.minorVersion

def referencedKey (type : TypeExprAST) : Option String :=
  match type.scalar with
  | .versioned ref => some (makeTypeKey (".".intercalate ref.nameComponents) ref.major ref.minor)
  | _ => none

def collectTypeDependencies (definition : DefinitionAST) : List String :=
  let out := definition.statements.filterMap fun statement =>
    match statement with
    | .field declaration => referencedKey declaration.type
    | .constant declaration => referencedKey declaration.type
    | _ => none
  out.toFinset.sort (· ≤ ·)

/-- `typeKeyToPath_` and `reverseDependenciesByTypeKey_`. -/
structure DependencyGraph where
  typeKeyToPath : PathMap String
  reverseDependencies : String → Finset String

structure PipelineState (η : Type) where
  cachedDefinitions : PathMap (CachedDefinition η)
  parseDiagnostics : PathMap (List Diagnostic)
  graph : DependencyGraph
  rootNamespaceDirs : List String
  lookupDirs : List String

structure AnalysisResult where
  diagnosticsByUri : String → Multiset Diagnostic
  hasErrors : Bool

variable {δ η : Type}

def PipelineState.fresh : PipelineState η where
  cachedDefinitions := ∅
  parseDiagnostics := ∅
  graph := ⟨∅, fun _ => ∅⟩
  rootNamespaceDirs := []
  lookupDirs := []

/-- The cached paths whose definition meets a condition. -/
def pathsWhere (cached : PathMap (CachedDefinition η))
    (condition : CachedDefinition η → Bool) : Finset String :=
  cached.keys.filter fun path => (cached.lookup path).any condition

/-- `typeKeyToPath_`: a path replaces an earlier one of the same key. -/
def typeKeyPaths (cached : PathMap (CachedDefinition η)) (order : List String) :
    PathMap String :=
  order.foldl (fun keyed path =>
    match cached.lookup path with
    | none => keyed
    | some entry => keyed.insert (typeKeyOf entry.info.info) path) ∅

def rebuildDependencyGraph (iteration : Iteration) (cached : PathMap (CachedDefinition η)) :
    DependencyGraph where
  typeKeyToPath := typeKeyPaths cached (iteration.order cached.keys)
  reverseDependencies key := pathsWhere cached fun entry => entry.dependencyTypeKeys.contains key

section Run

variable [DecidableEq η] (services : Services δ η) (config : ServerConfig)

def overlaysByPath (documents : List DocumentSnapshot) : PathMap DocumentSnapshot :=
  documents.foldl (fun overlays snapshot =>
    let path := services.uriToNormalizedPath snapshot.uri
    if path = "" then overlays else overlays.insert path snapshot) ∅

def makeOverlayDiscoveredDefinition (path text : String) : DiscoveredFile :=
  let shortName := services.makeOverlayShortName path
  { info :=
      { filePath := path
        fullName := "__overlay." ++ shortName
        shortName := shortName
        namespaceComponents := ["__overlay"]
        majorVersion := 1
        minorVersion := 0
        fixedPortId := none }
    rootNamespacePath := services.parentPath path
    text := text }

/-- A discovered file, its path normalised and its text that of the open document. -/
def mergedFile (overlays : PathMap DocumentSnapshot) (file : DiscoveredFile) : DiscoveredFile :=
  let path := services.normalizePath file.info.filePath
  { file with
    info := { file.info with filePath := path }
    text := ((overlays.lookup path).map DocumentSnapshot.text).getD file.text }

/-- `discoverDefinitions` under the configuration. -/
def discovery (workspace : Workspace δ) : List DiscoveredFile × List Diagnostic :=
  services.discoverDefinitions config.rootNamespaceDirs config.lookupDirs workspace.disk

def filesOnDisk (workspace : Workspace δ) : PathMap DiscoveredFile :=
  (discovery services config workspace).1.foldl (fun files file =>
    let merged := mergedFile services (overlaysByPath services workspace.documents) file
    files.insert merged.info.filePath merged) ∅

/-- `discoveredByPath`: open documents that no file stands for are files of their own. -/
def discoveredAt (workspace : Workspace δ) (path : String) : Option DiscoveredFile :=
  match (filesOnDisk services config workspace).lookup path with
  | some file => some file
  | none =>
      ((overlaysByPath services workspace.documents).lookup path).map fun snapshot =>
        makeOverlayDiscoveredDefinition services path snapshot.text

def discoveredPaths (workspace : Workspace δ) : Finset String :=
  (filesOnDisk services config workspace).keys ∪
    (overlaysByPath services workspace.documents).keys

def uriOfPath (workspace : Workspace δ) (path : String) : String :=
  (((overlaysByPath services workspace.documents).lookup path).map DocumentSnapshot.uri).getD
    (services.normalizedPathToFileUri path)

def rootsChanged (state : PipelineState η) : Bool :=
  state.rootNamespaceDirs ≠ config.rootNamespaceDirs || state.lookupDirs ≠ config.lookupDirs

def isFullRebuild (state : PipelineState η) : Bool :=
  rootsChanged config state || state.cachedDefinitions.keys = ∅

/-- The text of a discovered file is not the cached one. -/
def textChanged (state : PipelineState η) (path : String) (file : DiscoveredFile) : Bool :=
  (state.cachedDefinitions.lookup path).all fun cached =>
    decide (cached.textHash ≠ services.hashText file.text)

def dirtyPaths (state : PipelineState η) (workspace : Workspace δ) : Finset String :=
  if isFullRebuild config state then
    discoveredPaths services config workspace ∪ state.cachedDefinitions.keys
  else
    (state.cachedDefinitions.keys.filter fun path =>
        (discoveredAt services config workspace path).isNone) ∪
      (discoveredPaths services config workspace).filter fun path =>
        (discoveredAt services config workspace path).any (textChanged services state path)

/-- `candidateTypeKeys`: the keys a path stood for and stands for. -/
def candidateTypeKeys (state : PipelineState η) (workspace : Workspace δ) (path : String) :
    List String :=
  ((state.cachedDefinitions.lookup path).map fun cached => typeKeyOf cached.info.info).toList ++
    ((discoveredAt services config workspace path).map fun file => typeKeyOf file.info).toList

def dependentsOf (state : PipelineState η) (workspace : Workspace δ) (path : String) :
    List String :=
  (candidateTypeKeys services config state workspace path).flatMap fun key =>
    (state.graph.reverseDependencies key).sort (· ≤ ·)

def impactedPaths (state : PipelineState η) (workspace : Workspace δ) : Finset String :=
  let dirty := dirtyPaths services config state workspace
  if isFullRebuild config state then dirty
  else
    Worklist.run (dependentsOf services config state workspace)
      (dirty.card + state.cachedDefinitions.keys.card) ⟨dirty, dirty.sort (· ≤ ·)⟩

/-- What is kept of a file: its definition where it parses, else its diagnostics. -/
def parseFile (file : DiscoveredFile) (uri : String) :
    Option (CachedDefinition η) × Option (List Diagnostic) :=
  let outcome := services.parse file.info.filePath file.text
  match outcome.definition with
  | none => (none, some outcome.diagnostics)
  | some ast =>
      (some
        { info := file
          ast := ast
          sourceUri := uri
          textHash := services.hashText file.text
          dependencyTypeKeys := collectTypeDependencies ast
          parseDiagnostics := outcome.diagnostics }, none)

/-- What is kept of a path. -/
def refreshed (workspace : Workspace δ) (path : String) :
    Option (CachedDefinition η) × Option (List Diagnostic) :=
  match discoveredAt services config workspace path with
  | none => (none, none)
  | some file => parseFile services file (uriOfPath services workspace path)

def refreshPaths (workspace : Workspace δ) (paths : List String)
    (caches : PathMap (CachedDefinition η) × PathMap (List Diagnostic)) :
    PathMap (CachedDefinition η) × PathMap (List Diagnostic) :=
  paths.foldl (fun caches path =>
    let entry := refreshed services config workspace path
    (caches.1.put path entry.1, caches.2.put path entry.2)) caches

def definitionBefore (lhs rhs : ParsedDefinition) : Bool :=
  if lhs.info.fullName ≠ rhs.info.fullName then decide (lhs.info.fullName < rhs.info.fullName)
  else if lhs.info.majorVersion ≠ rhs.info.majorVersion then
    decide (rhs.info.majorVersion < lhs.info.majorVersion)
  else if lhs.info.minorVersion ≠ rhs.info.minorVersion then
    decide (rhs.info.minorVersion < lhs.info.minorVersion)
  else decide (lhs.info.filePath ≤ rhs.info.filePath)

def cachedModule (cached : PathMap (CachedDefinition η)) : ASTModule :=
  (cached.sortedPaths.filterMap fun path =>
    (cached.lookup path).map fun entry => (⟨entry.info.info, entry.ast⟩ : ParsedDefinition)).mergeSort
      definitionBefore

/-- Analysis is not run on an empty module. -/
def semanticResult (cached : PathMap (CachedDefinition η)) :
    Option SemanticModule × List Diagnostic :=
  if cachedModule cached = [] then (none, []) else services.analyze (cachedModule cached)

/-- The analysed definition of a cached one: the last of its name and version. -/
def analysedByName (semantic : Option SemanticModule) (info : DiscoveredDefinition) :
    Option SemanticDefinition :=
  semantic.bind fun definitions => definitions.reverse.find? fun definition =>
    typeKeyOf definition.info = typeKeyOf info

def lintDocuments (cached : PathMap (CachedDefinition η)) (semantic : Option SemanticModule) :
    List LintDocument :=
  cached.sortedPaths.filterMap fun path =>
    (cached.lookup path).map fun entry =>
      ⟨path, entry.sourceUri, entry.info, entry.ast, analysedByName semantic entry.info.info⟩

def allDiagnostics (workspace : Workspace δ) (cached : PathMap (CachedDefinition η))
    (parseDiagnostics : PathMap (List Diagnostic)) : Multiset Diagnostic :=
  let semantic := semanticResult services cached
  let lowering :=
    if config.enableMlirSnapshot then (semantic.1.map services.lower).getD [] else []
  let findings :=
    if config.lintEnabled then services.lint config (lintDocuments cached semantic.1) else []
  ((discovery services config workspace).2 : Multiset Diagnostic) +
    parseDiagnostics.values.bind (fun diagnostics => (diagnostics : Multiset Diagnostic)) +
    cached.values.bind (fun entry => (entry.parseDiagnostics : Multiset Diagnostic)) +
    ((semantic.2 ++ lowering ++ findings : List Diagnostic) : Multiset Diagnostic)

/-- The diagnostics by the URI of their file; those of no file are left out. -/
def analysisResult (workspace : Workspace δ) (cached : PathMap (CachedDefinition η))
    (parseDiagnostics : PathMap (List Diagnostic)) : AnalysisResult where
  diagnosticsByUri uri :=
    (allDiagnostics services config workspace cached parseDiagnostics).filter fun diagnostic =>
      diagnostic.location.file ≠ "" ∧
        uriOfPath services workspace diagnostic.location.file = uri
  hasErrors := decide (0 <
    (allDiagnostics services config workspace cached parseDiagnostics).countP fun diagnostic =>
      diagnostic.severity = .error)

/-- `AnalysisPipeline::run`. -/
def run (state : PipelineState η) (workspace : Workspace δ) : PipelineState η × AnalysisResult :=
  let caches := refreshPaths services config workspace
    ((impactedPaths services config state workspace).sort (· ≤ ·))
    (state.cachedDefinitions, state.parseDiagnostics)
  ({ cachedDefinitions := caches.1
     parseDiagnostics := caches.2
     graph := rebuildDependencyGraph workspace.iteration caches.1
     rootNamespaceDirs := config.rootNamespaceDirs
     lookupDirs := config.lookupDirs },
    analysisResult services config workspace caches.1 caches.2)

/-- The state after a sequence of workspaces. -/
def runAll (state : PipelineState η) (workspaces : List (Workspace δ)) : PipelineState η :=
  workspaces.foldl (fun state workspace => (run services config state workspace).1) state

end Run

end LlvmDsdl.LSP
