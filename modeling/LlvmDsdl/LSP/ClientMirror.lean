import LlvmDsdl.LSP.Incremental
import LlvmDsdl.LSP.Server

/-!
Contract: when the diagnostics a client shows are those of an analysis from scratch.

Owns: what a client shows after each way of publishing, the workspaces that the
shortcut on open cannot tell apart, the invariant of a session, and the condition on
its events.
-/

namespace LlvmDsdl.LSP

open Frontend Semantics Library

variable {δ η : Type}

section Documents

variable (services : Services δ η)

theorem lookup_foldl_insert {α β : Type} (skip : α → Bool) (key : α → String) (value : α → β)
    (items : List α) (map : PathMap β) (path : String) :
    (items.foldl (fun map item =>
        if skip item then map else map.insert (key item) (value item)) map).lookup path =
      ((items.reverse.find? fun item => !skip item && key item = path).map value).or
        (map.lookup path) := by
  induction items generalizing map with
  | nil => rfl
  | cons item rest ih =>
      rw [List.foldl_cons, ih, List.reverse_cons, List.find?_append]
      cases rest.reverse.find? fun item => !skip item && key item = path with
      | some found => rfl
      | none =>
          rw [Option.map_none, Option.none_or, Option.none_or, List.find?_singleton]
          by_cases skipped : skip item = true
          · simp only [skipped, if_true, Bool.not_true, Bool.false_and, Bool.false_eq_true,
              if_false, Option.map_none, Option.none_or]
          · by_cases same : key item = path
            · rw [Bool.not_eq_true] at skipped
              simp only [skipped, Bool.false_eq_true, if_false, same, Bool.not_false,
                decide_true, Bool.and_self, if_true, Option.map_some, Finmap.lookup_insert,
                Option.some_or]
            · rw [Bool.not_eq_true] at skipped
              simp only [skipped, Bool.false_eq_true, if_false, same, Bool.not_false,
                decide_false, Bool.and_false, Option.map_none, Option.none_or]
              exact Finmap.lookup_insert_of_ne map (Ne.symm same)

theorem lookup_overlaysByPath (documents : List DocumentSnapshot) (path : String) :
    (overlaysByPath services documents).lookup path =
      documents.reverse.find? fun snapshot =>
        !decide (services.uriToNormalizedPath snapshot.uri = "") &&
          services.uriToNormalizedPath snapshot.uri = path := by
  have last := lookup_foldl_insert
    (fun snapshot : DocumentSnapshot => decide (services.uriToNormalizedPath snapshot.uri = ""))
    (fun snapshot => services.uriToNormalizedPath snapshot.uri) id documents ∅ path
  have nothing : (∅ : PathMap DocumentSnapshot).lookup path = none := Finmap.lookup_empty path
  rw [Option.map_id, id_eq, nothing, Option.or_none] at last
  rw [← last]
  unfold overlaysByPath
  simp only [decide_eq_true_eq, id_eq]

theorem overlay_open {moment : Moment δ} {store : DocumentStore} {path : String}
    {snapshot : DocumentSnapshot}
    (found : (overlaysByPath services (workspaceAt moment store).documents).lookup path =
      some snapshot) :
    store.lookup snapshot.uri = some snapshot.text ∧
      services.uriToNormalizedPath snapshot.uri = path ∧ path ≠ "" := by
  rw [lookup_overlaysByPath] at found
  have listed := List.mem_reverse.mp (List.mem_of_find?_eq_some found)
  have stands := List.find?_some found
  simp only [Bool.and_eq_true, Bool.not_eq_true', decide_eq_false_iff_not,
    decide_eq_true_eq] at stands
  refine ⟨(moment.complete store snapshot).mp listed, stands.2, ?_⟩
  rw [← stands.2]
  exact stands.1

theorem overlay_of_open {moment : Moment δ} {store : DocumentStore} {path uri text : String}
    (isOpen : store.lookup uri = some text) (stands : services.uriToNormalizedPath uri = path)
    (named : path ≠ "") :
    ∃ other, (overlaysByPath services (workspaceAt moment store).documents).lookup path =
      some other := by
  have listed := (moment.complete store ⟨uri, text⟩).mpr isOpen
  rw [lookup_overlaysByPath, ← Option.isSome_iff_exists, List.find?_isSome]
  refine ⟨⟨uri, text⟩, List.mem_reverse.mpr listed, ?_⟩
  simp only [stands, named, decide_false, Bool.not_false, decide_true, Bool.and_self]

def overlayText (documents : List DocumentSnapshot) (path : String) : Option String :=
  ((overlaysByPath services documents).lookup path).map DocumentSnapshot.text

/-- What stands for a path is the last file found under it, with the text of its document. -/
theorem discoveredAt_eq (config : ServerConfig) (workspace : Workspace δ) (path : String) :
    discoveredAt services config workspace path =
      match (discovery services config workspace).1.reverse.find? fun file =>
          services.normalizePath file.info.filePath = path with
      | some file => some
          { file with
            info := { file.info with filePath := path }
            text := (overlayText services workspace.documents path).getD file.text }
      | none => (overlayText services workspace.documents path).map
          (makeOverlayDiscoveredDefinition services path) := by
  have last := lookup_foldl_insert (fun _ : DiscoveredFile => false)
    (fun file => services.normalizePath file.info.filePath)
    (mergedFile services (overlaysByPath services workspace.documents))
    (discovery services config workspace).1 ∅ path
  have nothing : (∅ : PathMap DiscoveredFile).lookup path = none := Finmap.lookup_empty path
  simp only [Bool.false_eq_true, if_false, Bool.not_false, Bool.true_and, nothing,
    Option.or_none] at last
  have files : (filesOnDisk services config workspace).lookup path = _ := last
  rw [discoveredAt, files]
  cases found : (discovery services config workspace).1.reverse.find? fun file =>
      decide (services.normalizePath file.info.filePath = path) with
  | none =>
      rw [Option.map_none, overlayText, Option.map_map]
      rfl
  | some file =>
      have named : services.normalizePath file.info.filePath = path := by
        have stands := List.find?_some found
        exact of_decide_eq_true stands
      rw [Option.map_some, mergedFile, named]
      rfl

/-- A file is the same when the text of its document is the one it had. -/
theorem discoveredAt_same {config : ServerConfig} {workspace other : Workspace δ} {path : String}
    (found : discovery services config other = discovery services config workspace)
    (text : overlayText services other.documents path =
        overlayText services workspace.documents path ∨
      ∃ file, discoveredAt services config workspace path = some file ∧
        overlayText services other.documents path = some file.text) :
    discoveredAt services config other path = discoveredAt services config workspace path := by
  rcases text with same | ⟨file, here, same⟩
  · rw [discoveredAt_eq, discoveredAt_eq, found, same]
  · rw [here]
    rw [discoveredAt_eq] at here
    rw [discoveredAt_eq, found, same]
    split at here
    · cases here
      rfl
    · rw [Option.map_eq_some_iff] at here
      have ⟨_, _, made⟩ := here
      rw [← made]
      rfl

/-- The documents of a path after one is opened with the text its file has: every path is
as it was, when it is reported under the same URI. -/
theorem sameWorkspace_opened {config : ServerConfig} {moment earlier : Moment δ}
    {store : DocumentStore} {uri text : String} {file : DiscoveredFile}
    (found : discovery services config (workspaceAt moment (store.openDocument uri text)) =
      discovery services config (workspaceAt earlier store))
    (uris : ∀ path, uriOfPath services (workspaceAt moment (store.openDocument uri text)) path =
      uriOfPath services (workspaceAt earlier store) path)
    (here : discoveredAt services config (workspaceAt earlier store)
      (services.uriToNormalizedPath uri) = some file)
    (sameText : file.text = text) :
    SameWorkspace services config (workspaceAt moment (store.openDocument uri text))
      (workspaceAt earlier store) where
  uris := uris
  findings := congrArg Prod.snd found
  files := by
    intro path
    apply discoveredAt_same services found
    have reported := uris path
    unfold uriOfPath at reported
    unfold overlayText
    cases now : (overlaysByPath services (workspaceAt moment
        (store.openDocument uri text)).documents).lookup path with
    | none =>
        left
        cases before : (overlaysByPath services (workspaceAt earlier store).documents).lookup
            path with
        | none => rfl
        | some snapshot =>
            -- a document that was open still is, under its URI
            have ⟨held, stands, named⟩ := overlay_open services before
            have still : ∃ other, (store.openDocument uri text).lookup snapshot.uri =
                some other := by
              by_cases opened : snapshot.uri = uri
              · rw [opened]
                exact ⟨text, Finmap.lookup_insert store⟩
              · exact ⟨snapshot.text, (Finmap.lookup_insert_of_ne store opened).trans held⟩
            have ⟨_, kept⟩ := still
            have ⟨_, overlaid⟩ := @overlay_of_open _ _ services moment _ _ _ _ kept stands named
            rw [overlaid] at now
            cases now
    | some snapshot =>
        have ⟨held, stands, named⟩ := overlay_open services now
        by_cases opened : snapshot.uri = uri
        · right
          rw [opened, DocumentStore.openDocument, Finmap.lookup_insert] at held
          rw [opened] at stands
          refine ⟨file, stands ▸ here, ?_⟩
          rw [sameText, Option.map_some, Option.some.inj held]
        · left
          have kept : store.lookup snapshot.uri = some snapshot.text := by
            rw [← held]
            exact (Finmap.lookup_insert_of_ne store opened).symm
          have ⟨other, before⟩ := @overlay_of_open _ _ services earlier _ _ _ _ kept stands named
          have otherHeld := (overlay_open services before).1
          rw [now, before, Option.map_some, Option.map_some, Option.getD_some,
            Option.getD_some] at reported
          rw [reported, otherHeld] at kept
          rw [before, Option.map_some, Option.map_some, Option.some.inj kept]

end Documents

/-! ### What a client shows -/

theorem receive_append (shown : String → Multiset Diagnostic)
    (first second : List PublishDiagnostics) :
    receive shown (first ++ second) = receive (receive shown first) second :=
  List.foldl_append

theorem receive_map (shown : String → Multiset Diagnostic) (uris : List String)
    (diagnostics : String → Multiset Diagnostic) (uri : String) :
    receive shown (uris.map fun uri => ⟨uri, diagnostics uri⟩) uri =
      if uri ∈ uris then diagnostics uri else shown uri := by
  induction uris generalizing shown with
  | nil => rw [if_neg List.not_mem_nil]; rfl
  | cons first rest ih =>
      apply Eq.trans (ih (Function.update shown first (diagnostics first)))
      by_cases later : uri ∈ rest
      · rw [if_pos later, if_pos (List.mem_cons_of_mem _ later)]
      · rw [if_neg later]
        by_cases same : uri = first
        · rw [same, if_pos List.mem_cons_self, Function.update_self]
        · rw [if_neg (fun member => (List.mem_cons.mp member).elim same later),
            Function.update_of_ne same]

/-- What a full publication sends: the current URIs, then nothing for the others that were
published. -/
theorem receive_published (shown : String → Multiset Diagnostic) (current published : Finset String)
    (diagnostics : String → Multiset Diagnostic) (uri : String) :
    receive shown (((inOrder current).map fun uri => ⟨uri, diagnostics uri⟩) ++
        (inOrder (published \ current)).map fun uri => ⟨uri, 0⟩) uri =
      if uri ∈ current then diagnostics uri else if uri ∈ published then 0 else shown uri := by
  rw [receive_append]
  apply Eq.trans (receive_map _ _ (fun _ => 0) uri)
  rw [receive_map]
  simp only [inOrder, Finset.mem_sort, Finset.mem_sdiff]
  by_cases reported : uri ∈ current
  · rw [if_pos reported, if_pos reported, if_neg (fun stale => stale.2 reported)]
  · rw [if_neg reported, if_neg reported]
    by_cases before : uri ∈ published
    · rw [if_pos ⟨before, reported⟩, if_pos before]
    · rw [if_neg (fun stale => before stale.1), if_neg before]

section Session

variable [DecidableEq η] (services : Services δ η)

/-- After a full publication a client shows the snapshot, when it showed nothing that was
not published. -/
theorem shown_of_publish {moment : Moment δ} {server : Server η}
    {shown : String → Multiset Diagnostic}
    (published : ∀ uri, shown uri ≠ 0 → uri ∈ server.publishedDiagnosticUris) :
    receive shown (publishDiagnosticsFromAnalysis services moment server).2 =
      (ensureAnalysisSnapshot services moment server).2.result.diagnosticsByUri := by
  funext uri
  unfold publishDiagnosticsFromAnalysis
  dsimp only
  rw [receive_published]
  split
  · rfl
  · rename_i other
    have unreported : (ensureAnalysisSnapshot services moment server).2.result.diagnosticsByUri
        uri = 0 := by
      by_contra reported
      apply other
      apply Finset.mem_union_left
      exact ((ensureAnalysisSnapshot services moment server).2.mem_uris uri).mpr reported
    rw [unreported]
    split
    · rfl
    · rename_i unpublished
      by_contra visible
      exact unpublished (published uri visible)

/-! ### The condition on an event -/

/-- What an event must meet: a notification that runs the analysis meets the condition of a
step; one served from the snapshot finds the files of the last notification, and every file
reported under the URI it had then; a request comes after a notification. -/
inductive EventCondition (session : Session δ η) : ServerEvent δ → Prop where
  | analysed {moment : Moment δ} {notification : Notification}
      (runs : reusesSnapshot services session.server notification = false)
      (condition : StepCondition services
        (afterNotification session.server notification).config session.server.analysis
        (workspaceAt moment (afterNotification session.server notification).documents)) :
      EventCondition session (.notified moment notification)
  | reused {moment : Moment δ} {notification : Notification}
      (reuses : reusesSnapshot services session.server notification = true)
      (files : discovery services session.server.config
          (workspaceAt moment (afterNotification session.server notification).documents) =
        discovery services session.server.config session.workspace)
      (uris : ∀ path, uriOfPath services
          (workspaceAt moment (afterNotification session.server notification).documents) path =
        uriOfPath services session.workspace path) :
      EventCondition session (.notified moment notification)
  | requested {moment : Moment δ}
      (ready : session.server.latestAnalysisResult.isSome = true) :
      EventCondition session (.requested moment)

def EventsMeet : Session δ η → List (ServerEvent δ) → Prop
  | _, [] => True
  | session, event :: rest =>
      EventCondition services session event ∧ EventsMeet (stepSession services session event) rest

/-! ### The invariant of a session -/

/-- The snapshot is clean, every path is kept as the workspace has it, and the client shows
what the snapshot and an analysis from scratch report. -/
structure Mirrors (session : Session δ η) : Prop where
  clean : session.server.analysisDirty = false
  snapshot : ∃ snapshot, session.server.latestAnalysisResult = some snapshot ∧
    snapshot.result.diagnosticsByUri = session.shown
  listed : ∃ moment, session.workspace = workspaceAt moment session.server.documents
  current : ∀ path,
    UpToDate services session.server.config session.workspace session.server.analysis path
  fresh : session.shown =
    (run services session.server.config .fresh session.workspace).2.diagnosticsByUri

structure SessionInvariant (session : Session δ η) : Prop where
  consistent : Consistent services session.server.analysis
  published : ∀ uri, session.shown uri ≠ 0 → uri ∈ session.server.publishedDiagnosticUris
  mirrors : session.server.latestAnalysisResult ≠ none → Mirrors services session

def Session.start (config : ServerConfig) (workspace : Workspace δ) : Session δ η where
  server := .start config
  shown _ := 0
  workspace := workspace

theorem sessionInvariant_start (config : ServerConfig) (workspace : Workspace δ) :
    SessionInvariant services (Session.start config workspace : Session δ η) where
  consistent := consistent_fresh
  published _ visible := absurd rfl visible
  mirrors missing := absurd rfl missing

variable {services}

theorem ensure_of_dirty {moment : Moment δ} {server : Server η}
    (dirty : server.analysisDirty = true) :
    ensureAnalysisSnapshot services moment server =
      ({ server with
          analysis := (run services server.config server.analysis
            (workspaceAt moment server.documents)).1
          latestAnalysisResult := some (runSnapshot services server.config server.analysis
            (workspaceAt moment server.documents)).2
          analysisDirty := false },
        (runSnapshot services server.config server.analysis
          (workspaceAt moment server.documents)).2) := by
  unfold ensureAnalysisSnapshot
  rw [dirty]
  rfl

theorem publish_of_dirty {moment : Moment δ} {server : Server η}
    (dirty : server.analysisDirty = true) :
    (publishDiagnosticsFromAnalysis services moment server).1 =
      { server with
        analysis := (run services server.config server.analysis
          (workspaceAt moment server.documents)).1
        latestAnalysisResult := some (runSnapshot services server.config server.analysis
          (workspaceAt moment server.documents)).2
        analysisDirty := false
        publishedDiagnosticUris := (runSnapshot services server.config server.analysis
            (workspaceAt moment server.documents)).2.uris ∪
          ((moment.snapshots server.documents).map DocumentSnapshot.uri).toFinset } := by
  unfold publishDiagnosticsFromAnalysis
  rw [ensure_of_dirty dirty]

/-- A run that meets its condition reports what a run from scratch does. -/
theorem run_fresh {config : ServerConfig} {state : PipelineState η} {workspace : Workspace δ}
    (collisionFree : Function.Injective services.hashText)
    (consistent : Consistent services state)
    (condition : StepCondition services config state workspace) :
    (run services config state workspace).2.diagnosticsByUri =
      (run services config .fresh workspace).2.diagnosticsByUri := by
  apply diagnosticsByUri_of_upToDate ⟨fun _ => rfl, fun _ => rfl, rfl⟩
  · exact upToDate_run consistent condition collisionFree
  · exact upToDate_run consistent_fresh stepCondition_fresh collisionFree

/-- A full publication leaves the client with an analysis from scratch. -/
theorem mirrors_of_publish {moment : Moment δ} {server : Server η}
    {shown : String → Multiset Diagnostic} (collisionFree : Function.Injective services.hashText)
    (dirty : server.analysisDirty = true) (consistent : Consistent services server.analysis)
    (published : ∀ uri, shown uri ≠ 0 → uri ∈ server.publishedDiagnosticUris)
    (condition : StepCondition services server.config server.analysis
      (workspaceAt moment server.documents)) :
    SessionInvariant services
        ⟨(publishDiagnosticsFromAnalysis services moment server).1,
          receive shown (publishDiagnosticsFromAnalysis services moment server).2,
          workspaceAt moment server.documents⟩ ∧
      (publishDiagnosticsFromAnalysis services moment server).1.latestAnalysisResult ≠ none := by
  have now : receive shown (publishDiagnosticsFromAnalysis services moment server).2 =
      (run services server.config server.analysis
        (workspaceAt moment server.documents)).2.diagnosticsByUri := by
    rw [shown_of_publish services published, ensure_of_dirty dirty]
    rfl
  rw [publish_of_dirty dirty, now]
  refine ⟨⟨consistent_run consistent, ?_, ?_⟩, Option.some_ne_none _⟩
  · intro uri visible
    apply Finset.mem_union_left
    exact (AnalysisSnapshot.mem_uris _ uri).mpr visible
  · intro _
    exact
      { clean := rfl
        snapshot := ⟨_, rfl, rfl⟩
        listed := ⟨moment, rfl⟩
        current := upToDate_run consistent condition collisionFree
        fresh := run_fresh collisionFree consistent condition }

theorem handle_of_runs {moment : Moment δ} {server : Server η} {notification : Notification}
    (runs : reusesSnapshot services server notification = false) :
    handleNotification services moment server notification =
      publishDiagnosticsFromAnalysis services moment
        (invalidateAnalysisSnapshot (afterNotification server notification)) := by
  cases notification with
  | didOpen uri text =>
      have skipped : canReuseDidOpenAnalysis services server uri text = false := runs
      unfold handleNotification
      simp only [skipped, Bool.false_eq_true, if_false]
  | didChange uri text => rfl
  | didClose uri => rfl
  | didChangeConfiguration config => rfl

omit [DecidableEq η] in
theorem afterNotification_analysis (server : Server η) (notification : Notification) :
    (afterNotification server notification).analysis = server.analysis := by
  cases notification <;> rfl

omit [DecidableEq η] in
theorem afterNotification_published (server : Server η) (notification : Notification) :
    (afterNotification server notification).publishedDiagnosticUris =
      server.publishedDiagnosticUris := by
  cases notification <;> rfl

theorem invariant_of_analysed {session : Session δ η} {moment : Moment δ}
    {notification : Notification} (collisionFree : Function.Injective services.hashText)
    (invariant : SessionInvariant services session)
    (runs : reusesSnapshot services session.server notification = false)
    (condition : StepCondition services
      (afterNotification session.server notification).config session.server.analysis
      (workspaceAt moment (afterNotification session.server notification).documents)) :
    SessionInvariant services (stepSession services session (.notified moment notification)) ∧
      (stepSession services session
        (.notified moment notification)).server.latestAnalysisResult ≠ none := by
  have handled : handleNotification services moment session.server notification =
      publishDiagnosticsFromAnalysis services moment
        (invalidateAnalysisSnapshot (afterNotification session.server notification)) :=
    handle_of_runs runs
  have documents : (handleNotification services moment session.server notification).1.documents =
      (afterNotification session.server notification).documents := by
    rw [handled, publish_of_dirty rfl]
    rfl
  unfold stepSession
  dsimp only
  rw [documents, handled]
  apply mirrors_of_publish collisionFree rfl
  · show Consistent services (afterNotification session.server notification).analysis
    rw [afterNotification_analysis]
    exact invariant.consistent
  · show ∀ uri, session.shown uri ≠ 0 →
      uri ∈ (afterNotification session.server notification).publishedDiagnosticUris
    rw [afterNotification_published]
    exact invariant.published
  · show StepCondition services (afterNotification session.server notification).config
      (afterNotification session.server notification).analysis _
    rw [afterNotification_analysis]
    exact condition

omit [DecidableEq η] in
/-- A cached definition is that of the file at its path, with its text. -/
theorem discovered_of_current {config : ServerConfig} {workspace : Workspace δ}
    {state : PipelineState η} {path : String} {entry : CachedDefinition η}
    (current : UpToDate services config workspace state path)
    (cached : state.cachedDefinitions.lookup path = some entry) :
    discoveredAt services config workspace path = some entry.info := by
  have kept := current.cached
  rw [cached, refreshed] at kept
  cases here : discoveredAt services config workspace path with
  | none =>
      rw [here] at kept
      cases kept
  | some file =>
      rw [here] at kept
      dsimp only at kept
      rcases parseFile_cases file (uriOfPath services workspace path) with
        ⟨other, parsed, info, _, _⟩ | ⟨_, failed⟩
      · rw [parsed] at kept
        rw [Option.some.inj kept, info]
      · rw [failed] at kept
        cases kept

omit [DecidableEq η] in
theorem reused_cases {server : Server η} {notification : Notification}
    (reuses : reusesSnapshot services server notification = true) :
    ∃ uri text, notification = .didOpen uri text ∧ server.latestAnalysisResult ≠ none ∧
      canReuseDidOpenAnalysis services server uri text = true ∧
      ∃ entry, server.analysis.cachedDefinitions.lookup (services.uriToNormalizedPath uri) =
        some entry ∧ entry.info.text = text := by
  cases notification with
  | didOpen uri text =>
      have reusable : canReuseDidOpenAnalysis services server uri text = true := reuses
      unfold canReuseDidOpenAnalysis documentTextMatches at reusable
      rw [Bool.and_eq_true, Bool.and_eq_true, Option.any_eq_true] at reusable
      have ⟨⟨_, present⟩, entry, cached, same⟩ := reusable
      refine ⟨uri, text, rfl, ?_, reuses, entry, cached, of_decide_eq_true same⟩
      exact Option.isSome_iff_ne_none.mp present
  | didChange uri text => cases reuses
  | didClose uri => cases reuses
  | didChangeConfiguration config => cases reuses

theorem invariant_of_reused {session : Session δ η} {moment : Moment δ}
    {notification : Notification} (collisionFree : Function.Injective services.hashText)
    (invariant : SessionInvariant services session)
    (reuses : reusesSnapshot services session.server notification = true)
    (files : discovery services session.server.config
        (workspaceAt moment (afterNotification session.server notification).documents) =
      discovery services session.server.config session.workspace)
    (uris : ∀ path, uriOfPath services
        (workspaceAt moment (afterNotification session.server notification).documents) path =
      uriOfPath services session.workspace path) :
    SessionInvariant services (stepSession services session (.notified moment notification)) ∧
      (stepSession services session
        (.notified moment notification)).server.latestAnalysisResult ≠ none := by
  have ⟨uri, text, opened, present, reusable, entry, cached, sameText⟩ := reused_cases reuses
  have mirrors := invariant.mirrors present
  have ⟨snapshot, latest, shows⟩ := mirrors.snapshot
  have ⟨earlier, seen⟩ := mirrors.listed
  rw [opened] at files uris ⊢
  have same : SameWorkspace services session.server.config
      (workspaceAt moment (session.server.documents.openDocument uri text)) session.workspace := by
    have here := discovered_of_current (mirrors.current _) cached
    rw [seen] at files uris here ⊢
    exact sameWorkspace_opened services files uris here sameText
  have handled : handleNotification services moment session.server (.didOpen uri text) =
      ({ session.server with
          documents := session.server.documents.openDocument uri text
          publishedDiagnosticUris := insert uri session.server.publishedDiagnosticUris },
        [⟨uri, snapshot.result.diagnosticsByUri uri⟩]) := by
    unfold handleNotification
    dsimp only
    rw [if_pos reusable]
    unfold publishDiagnosticsForUriFromCachedAnalysis afterNotification
    dsimp only
    rw [latest]
  have unchanged : receive session.shown [⟨uri, snapshot.result.diagnosticsByUri uri⟩] =
      session.shown := by
    rw [shows]
    exact Function.update_eq_self uri session.shown
  unfold stepSession
  dsimp only
  rw [handled, unchanged]
  refine ⟨⟨invariant.consistent, ?_, ?_⟩, present⟩
  · intro other visible
    exact Finset.mem_insert_of_mem (invariant.published other visible)
  · intro _
    exact
      { clean := mirrors.clean
        snapshot := ⟨snapshot, latest, shows⟩
        listed := ⟨moment, rfl⟩
        current := by
          intro path
          have current := mirrors.current path
          constructor
          · rw [same.refreshed]
            exact current.cached
          · rw [same.refreshed]
            exact current.failures
        fresh := by
          apply mirrors.fresh.trans
          apply Eq.symm
          apply diagnosticsByUri_of_upToDate same
          · exact upToDate_run consistent_fresh stepCondition_fresh collisionFree
          · exact upToDate_run consistent_fresh stepCondition_fresh collisionFree }

theorem step_requested {session : Session δ η} {moment : Moment δ}
    (invariant : SessionInvariant services session)
    (ready : session.server.latestAnalysisResult ≠ none) :
    stepSession services session (.requested moment) = session := by
  have mirrors := invariant.mirrors ready
  have ⟨snapshot, latest, _⟩ := mirrors.snapshot
  have kept : (ensureAnalysisSnapshot services moment session.server).1 = session.server := by
    unfold ensureAnalysisSnapshot
    rw [mirrors.clean, latest]
  unfold stepSession
  dsimp only
  rw [kept]

/-- **An event that meets its condition keeps the invariant**, and there is a snapshot after it. -/
theorem invariant_step {session : Session δ η} {event : ServerEvent δ}
    (collisionFree : Function.Injective services.hashText)
    (invariant : SessionInvariant services session)
    (condition : EventCondition services session event) :
    SessionInvariant services (stepSession services session event) ∧
      (stepSession services session event).server.latestAnalysisResult ≠ none := by
  cases condition with
  | analysed runs condition => exact invariant_of_analysed collisionFree invariant runs condition
  | reused reuses files uris => exact invariant_of_reused collisionFree invariant reuses files uris
  | requested ready =>
      have present := Option.isSome_iff_ne_none.mp ready
      rw [step_requested invariant present]
      exact ⟨invariant, present⟩

theorem invariant_run {session : Session δ η} (events : List (ServerEvent δ))
    (collisionFree : Function.Injective services.hashText)
    (invariant : SessionInvariant services session)
    (conditions : EventsMeet services session events) :
    SessionInvariant services (runSession services session events) ∧
      (events ≠ [] →
        (runSession services session events).server.latestAnalysisResult ≠ none) := by
  induction events generalizing session with
  | nil => exact ⟨invariant, fun missing => absurd rfl missing⟩
  | cons event rest ih =>
      have stepped := invariant_step collisionFree invariant conditions.1
      have ran := ih stepped.1 conditions.2
      apply And.intro ran.1
      intro _
      cases rest with
      | nil => exact stepped.2
      | cons next later => exact ran.2 (List.cons_ne_nil next later)

/-- **The client mirrors the analysis**, in a session whose events meet their conditions: after
every one of them, every URI shows what an analysis from scratch reports for it. -/
theorem client_mirrors_analysis (collisionFree : Function.Injective services.hashText)
    (config : ServerConfig) (workspace : Workspace δ) (events : List (ServerEvent δ))
    (conditions : EventsMeet services (.start config workspace) events) (handled : events ≠ [])
    (uri : String) :
    (runSession services (.start config workspace) events).shown uri =
      (run services (runSession services (.start config workspace) events).server.config .fresh
        (runSession services (.start config workspace) events).workspace).2.diagnosticsByUri
          uri := by
  have ⟨invariant, snapshot⟩ := invariant_run events collisionFree
    (sessionInvariant_start services config workspace) conditions
  exact congrFun (invariant.mirrors (snapshot handled)).fresh uri

end Session

/-! ### Sessions on listed files -/

def byUri (store : DocumentStore) : List DocumentSnapshot :=
  store.sortedPaths.filterMap fun uri => (store.lookup uri).map fun text => ⟨uri, text⟩

theorem mem_byUri (store : DocumentStore) (snapshot : DocumentSnapshot) :
    snapshot ∈ byUri store ↔ store.lookup snapshot.uri = some snapshot.text := by
  unfold byUri PathMap.sortedPaths
  rw [List.mem_filterMap]
  constructor
  · intro ⟨uri, _, listed⟩
    rw [Option.map_eq_some_iff] at listed
    have ⟨text, held, same⟩ := listed
    rw [← same]
    exact held
  · intro held
    refine ⟨snapshot.uri, ?_, by rw [held]; rfl⟩
    rw [Finset.mem_sort, Finmap.mem_keys, ← Finmap.lookup_isSome, held]
    rfl

/-- Notifications to a server that has begun on some files, which stay. -/
def sessionOn (services : Services (List DiscoveredFile) String) (config : ServerConfig)
    (files : List DiscoveredFile) (notifications : List Notification) :
    Session (List DiscoveredFile) String :=
  runSession services (.start config (onDisk files))
    (notifications.map (.notified ⟨files, byUri, mem_byUri, .sorted⟩))

/-- The configuration is sent, and `ns.A.1.0` is opened with the text it has. -/
def configuredAndOpened : List Notification :=
  [.didChangeConfiguration plainConfig, .didOpen "file:///ns/A.1.0.dsdl" "@sealed"]

theorem reported_as_before (path : String) :
    uriOfPath listedFiles
        (workspaceAt ⟨[fileWithText "@sealed"], byUri, mem_byUri, .sorted⟩
          (DocumentStore.openDocument ∅ "file:///ns/A.1.0.dsdl" "@sealed")) path =
      uriOfPath listedFiles (workspaceAt ⟨[fileWithText "@sealed"], byUri, mem_byUri, .sorted⟩ ∅)
        path := by
  have nothing (uri : String) : (∅ : DocumentStore).lookup uri = none := Finmap.lookup_empty uri
  have before : uriOfPath listedFiles
      (workspaceAt ⟨[fileWithText "@sealed"], byUri, mem_byUri, .sorted⟩ ∅) path = "file://" ++ path := by
    unfold uriOfPath
    cases found : (overlaysByPath listedFiles (workspaceAt
        (⟨[fileWithText "@sealed"], byUri, mem_byUri, .sorted⟩ : Moment (List DiscoveredFile))
          ∅).documents).lookup path with
    | none => rfl
    | some snapshot =>
        have held := (overlay_open listedFiles found).1
        rw [nothing] at held
        cases held
  rw [before]
  unfold uriOfPath
  cases found : (overlaysByPath listedFiles (workspaceAt
      (⟨[fileWithText "@sealed"], byUri, mem_byUri, .sorted⟩ : Moment (List DiscoveredFile))
        (DocumentStore.openDocument ∅ "file:///ns/A.1.0.dsdl" "@sealed")).documents).lookup
          path with
  | none => rfl
  | some snapshot =>
      have ⟨held, stands, _⟩ := overlay_open listedFiles found
      have opened : snapshot.uri = "file:///ns/A.1.0.dsdl" := by
        by_contra other
        rw [DocumentStore.openDocument, Finmap.lookup_insert_of_ne ∅ other, nothing] at held
        cases held
      have named : listedFiles.uriToNormalizedPath "file:///ns/A.1.0.dsdl" = "/ns/A.1.0.dsdl" := by
        decide +kernel
      rw [opened, named] at stands
      rw [← stands, Option.map_some, Option.getD_some, opened]
      decide +kernel

/-- The document is served from the snapshot. -/
theorem client_mirrors_analysis_opened :
    (sessionOn listedFiles plainConfig [fileWithText "@sealed"] configuredAndOpened).shown
        "file:///ns/A.1.0.dsdl" =
      (run listedFiles
        (sessionOn listedFiles plainConfig [fileWithText "@sealed"]
          configuredAndOpened).server.config .fresh
        (sessionOn listedFiles plainConfig [fileWithText "@sealed"]
          configuredAndOpened).workspace).2.diagnosticsByUri "file:///ns/A.1.0.dsdl" := by
  unfold sessionOn
  apply client_mirrors_analysis
  · exact fun _ _ same => same
  · apply And.intro (.analysed rfl stepCondition_fresh)
    apply And.intro _ True.intro
    apply EventCondition.reused
    · decide +kernel
    · rfl
    · exact reported_as_before
  · exact List.cons_ne_nil _ _

/-- Files with a finding each; their analysis reports nothing. -/
def lintedFiles : Services (List DiscoveredFile) String :=
  { listedFiles with
    analyze := fun _ => (none, [])
    lint := fun _ documents => documents.map fun document =>
      ⟨.note, ⟨document.path, 1, 1⟩, "[lint:extent] the definition is sealed", none⟩ }

/-- A document that does not parse is closed, and its diagnostic stays; a document is opened
under another spelling of its file's URI, and its finding stays under the first. -/
theorem session_not_mirrored :
    (sessionOn listedFiles plainConfig []
        [.didOpen "file:///ns/A.1.0.dsdl" "@",
          .didClose "file:///ns/A.1.0.dsdl"]).shown "file:///ns/A.1.0.dsdl" ≠
      (run listedFiles plainConfig .fresh (onDisk [])).2.diagnosticsByUri
        "file:///ns/A.1.0.dsdl" ∧
    (sessionOn lintedFiles { plainConfig with lintEnabled := true } [fileWithText "@sealed"]
        [.didChangeConfiguration { plainConfig with lintEnabled := true },
          .didOpen "FILE:///ns/A.1.0.dsdl" "@sealed"]).shown "FILE:///ns/A.1.0.dsdl" ≠
      (run lintedFiles { plainConfig with lintEnabled := true } .fresh
        ⟨[fileWithText "@sealed"], [⟨"FILE:///ns/A.1.0.dsdl", "@sealed"⟩], .sorted⟩).2.diagnosticsByUri
          "FILE:///ns/A.1.0.dsdl" := by
  constructor
  · decide +kernel
  · decide +kernel

end LlvmDsdl.LSP
