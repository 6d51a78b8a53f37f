import LlvmDsdl.LSP.AnalysisPipeline

/-!
Contract: the document notifications of the editor server (`LSP/Server.cpp`) and the
store of its open documents (`LSP/DocumentStore.cpp`).

Owns: the document store, the analysis snapshot and when it is reused, the
diagnostics that are published, and what a client shows of them.

A notification is handled at a moment: the files are what they are then, and the
store of the documents is listed in some order. Requests are what they do to the
snapshot. Versions, logging and the workspace index are left out.
-/

namespace LlvmDsdl.LSP

open Frontend Semantics Library

abbrev DocumentStore := PathMap String

namespace DocumentStore

/-- `insert_or_assign`. -/
def openDocument (store : DocumentStore) (uri text : String) : DocumentStore :=
  store.insert uri text

/-- A change to a document that is not open does nothing. -/
def applyFullTextChange (store : DocumentStore) (uri text : String) : DocumentStore :=
  match store.lookup uri with
  | none => store
  | some _ => store.insert uri text

def close (store : DocumentStore) (uri : String) : DocumentStore :=
  store.erase uri

end DocumentStore

/-- When a message is handled: the files, and the orders the store and the analysis cache are
listed in. -/
structure Moment (δ : Type) where
  disk : δ
  snapshots : DocumentStore → List DocumentSnapshot
  complete : ∀ store snapshot,
    snapshot ∈ snapshots store ↔ store.lookup snapshot.uri = some snapshot.text
  iteration : Iteration

structure AnalysisSnapshot where
  result : AnalysisResult
  uris : Finset String
  mem_uris : ∀ uri, uri ∈ uris ↔ result.diagnosticsByUri uri ≠ 0

structure Server (η : Type) where
  documents : DocumentStore
  config : ServerConfig
  analysis : PipelineState η
  publishedDiagnosticUris : Finset String
  latestAnalysisResult : Option AnalysisSnapshot
  analysisDirty : Bool

structure PublishDiagnostics where
  uri : String
  diagnostics : Multiset Diagnostic

inductive Notification where
  | didOpen (uri text : String)
  | didChange (uri text : String)
  | didClose (uri : String)
  | didChangeConfiguration (config : ServerConfig)

variable {δ η : Type}

def Server.start (config : ServerConfig) : Server η where
  documents := ∅
  config := config
  analysis := .fresh
  publishedDiagnosticUris := ∅
  latestAnalysisResult := none
  analysisDirty := true

/-- What an analysis at a moment sees. -/
def workspaceAt (moment : Moment δ) (documents : DocumentStore) : Workspace δ :=
  ⟨moment.disk, moment.snapshots documents, moment.iteration⟩

section Handlers

variable [DecidableEq η] (services : Services δ η)

/-- The URIs that diagnostics of some file are reported under. -/
def reportedUris (config : ServerConfig) (workspace : Workspace δ)
    (cached : PathMap (CachedDefinition η)) (parseDiagnostics : PathMap (List Diagnostic)) :
    Finset String :=
  (((allDiagnostics services config workspace cached parseDiagnostics).filter fun diagnostic =>
    diagnostic.location.file ≠ "").map fun diagnostic =>
      uriOfPath services workspace diagnostic.location.file).toFinset

omit [DecidableEq η] in
theorem mem_reportedUris {config : ServerConfig} {workspace : Workspace δ}
    {cached : PathMap (CachedDefinition η)} {parseDiagnostics : PathMap (List Diagnostic)}
    (uri : String) :
    uri ∈ reportedUris services config workspace cached parseDiagnostics ↔
      (analysisResult services config workspace cached parseDiagnostics).diagnosticsByUri uri
        ≠ 0 := by
  unfold reportedUris analysisResult
  dsimp only
  rw [Multiset.mem_toFinset, Multiset.mem_map, Ne, Multiset.filter_eq_nil, not_forall]
  constructor
  · intro ⟨diagnostic, member, same⟩
    rw [Multiset.mem_filter] at member
    exact ⟨diagnostic, fun never => never member.1 ⟨member.2, same⟩⟩
  · intro ⟨diagnostic, reported⟩
    rw [Classical.not_imp, not_not] at reported
    exact ⟨diagnostic, Multiset.mem_filter.mpr ⟨reported.1, reported.2.1⟩, reported.2.2⟩

/-- `AnalysisPipeline::run` with the keys of the result. -/
def runSnapshot (config : ServerConfig) (analysis : PipelineState η) (workspace : Workspace δ) :
    PipelineState η × AnalysisSnapshot :=
  let ran := run services config analysis workspace
  (ran.1,
    { result := ran.2
      uris := reportedUris services config workspace ran.1.cachedDefinitions ran.1.parseDiagnostics
      mem_uris := mem_reportedUris services })

def invalidateAnalysisSnapshot (server : Server η) : Server η :=
  { server with analysisDirty := true }

/-- The analysis runs where the snapshot is missing or dirty. -/
def ensureAnalysisSnapshot (moment : Moment δ) (server : Server η) :
    Server η × AnalysisSnapshot :=
  match server.analysisDirty, server.latestAnalysisResult with
  | false, some snapshot => (server, snapshot)
  | _, _ =>
      let ran := runSnapshot services server.config server.analysis
        (workspaceAt moment server.documents)
      ({ server with
          analysis := ran.1
          latestAnalysisResult := some ran.2
          analysisDirty := false }, ran.2)

/-- The text is that of the definition cached for the URI's path. -/
def documentTextMatches (analysis : PipelineState η) (uri text : String) : Bool :=
  (analysis.cachedDefinitions.lookup (services.uriToNormalizedPath uri)).any fun cached =>
    cached.info.text = text

def canReuseDidOpenAnalysis (server : Server η) (uri text : String) : Bool :=
  !server.analysisDirty && server.latestAnalysisResult.isSome &&
    documentTextMatches services server.analysis uri text

/-- The snapshot's diagnostics, an empty list for every other open document, and an empty
list for every other URI published before. -/
def publishDiagnosticsFromAnalysis (moment : Moment δ) (server : Server η) :
    Server η × List PublishDiagnostics :=
  let ensured := ensureAnalysisSnapshot services moment server
  let openUris := (moment.snapshots server.documents).map DocumentSnapshot.uri
  let currentUris := ensured.2.uris ∪ openUris.toFinset
  ({ ensured.1 with publishedDiagnosticUris := currentUris },
    ((inOrder currentUris).map fun uri => ⟨uri, ensured.2.result.diagnosticsByUri uri⟩) ++
      (inOrder (server.publishedDiagnosticUris \ currentUris)).map fun uri => ⟨uri, 0⟩)

def publishDiagnosticsForUriFromCachedAnalysis (moment : Moment δ) (server : Server η)
    (uri : String) : Server η × List PublishDiagnostics :=
  match server.latestAnalysisResult with
  | none => publishDiagnosticsFromAnalysis services moment server
  | some snapshot =>
      ({ server with publishedDiagnosticUris := insert uri server.publishedDiagnosticUris },
        [⟨uri, snapshot.result.diagnosticsByUri uri⟩])

def afterNotification (server : Server η) : Notification → Server η
  | .didOpen uri text => { server with documents := server.documents.openDocument uri text }
  | .didChange uri text =>
      { server with documents := server.documents.applyFullTextChange uri text }
  | .didClose uri => { server with documents := server.documents.close uri }
  | .didChangeConfiguration config => { server with config := config }

/-- Whether a notification is served from the snapshot there is. -/
def reusesSnapshot (server : Server η) : Notification → Bool
  | .didOpen uri text => canReuseDidOpenAnalysis services server uri text
  | _ => false

def handleNotification (moment : Moment δ) (server : Server η) (notification : Notification) :
    Server η × List PublishDiagnostics :=
  let updated := afterNotification server notification
  match notification with
  | .didOpen uri text =>
      if canReuseDidOpenAnalysis services server uri text then
        publishDiagnosticsForUriFromCachedAnalysis services moment updated uri
      else
        publishDiagnosticsFromAnalysis services moment (invalidateAnalysisSnapshot updated)
  | _ => publishDiagnosticsFromAnalysis services moment (invalidateAnalysisSnapshot updated)

/-- What a client shows after the diagnostics it receives. -/
def receive (shown : String → Multiset Diagnostic) (published : List PublishDiagnostics) :
    String → Multiset Diagnostic :=
  published.foldl (fun shown message => Function.update shown message.uri message.diagnostics)
    shown

inductive ServerEvent (δ : Type) where
  | notified (moment : Moment δ) (notification : Notification)
  | requested (moment : Moment δ)

/-- The server, what its client shows, and what there was to analyse when the last
notification was handled. -/
structure Session (δ η : Type) where
  server : Server η
  shown : String → Multiset Diagnostic
  workspace : Workspace δ

/-- A request needs a snapshot and publishes nothing. -/
def stepSession (session : Session δ η) : ServerEvent δ → Session δ η
  | .notified moment notification =>
      let handled := handleNotification services moment session.server notification
      { server := handled.1
        shown := receive session.shown handled.2
        workspace := workspaceAt moment handled.1.documents }
  | .requested moment =>
      { session with server := (ensureAnalysisSnapshot services moment session.server).1 }

def runSession (session : Session δ η) (events : List (ServerEvent δ)) : Session δ η :=
  events.foldl (stepSession services) session

end Handlers

end LlvmDsdl.LSP
