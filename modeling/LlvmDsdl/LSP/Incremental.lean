import LlvmDsdl.LSP.AnalysisPipeline
import LlvmDsdl.Semantics.MinorVersions

/-!
Contract: when the incremental analysis equals one from scratch.

Owns: what a run leaves in its caches, the invariant of the caches, the condition
on a step, and the proof that runs whose steps meet it end as a fresh run does.
-/

namespace LlvmDsdl.LSP

open Frontend Semantics Library

variable {δ η : Type}

section Step

variable {services : Services δ η} {config : ServerConfig} {state : PipelineState η}
  {workspace : Workspace δ}

/-! ### Paths of one run -/

theorem mem_discoveredPaths {path : String} :
    path ∈ discoveredPaths services config workspace ↔
      (discoveredAt services config workspace path).isSome = true := by
  rw [discoveredPaths, Finset.mem_union, Finmap.mem_keys, Finmap.mem_keys, discoveredAt,
    ← Finmap.lookup_isSome, ← Finmap.lookup_isSome]
  cases (filesOnDisk services config workspace).lookup path with
  | some file => simp only [Option.isSome_some, true_or]
  | none => simp only [Option.isSome_none, Bool.false_eq_true, false_or, Option.isSome_map]

/-- The graph is that of the cached definitions, in some order. -/
def GraphCurrent (state : PipelineState η) : Prop :=
  ∃ iteration, state.graph = rebuildDependencyGraph iteration state.cachedDefinitions

theorem dependentsOf_cached (current : GraphCurrent state) {path next : String}
    (depends : next ∈ dependentsOf services config state workspace path) :
    next ∈ state.cachedDefinitions.keys := by
  rw [dependentsOf, List.mem_flatMap] at depends
  have ⟨key, _, member⟩ := depends
  have ⟨_, rebuilt⟩ := current
  rw [Finset.mem_sort, rebuilt, rebuildDependencyGraph] at member
  exact (Finset.mem_filter.mp member).1

theorem lookup_refreshPaths (paths : List String)
    (caches : PathMap (CachedDefinition η) × PathMap (List Diagnostic)) (path : String) :
    ((refreshPaths services config workspace paths caches).1.lookup path,
        (refreshPaths services config workspace paths caches).2.lookup path) =
      if path ∈ paths then refreshed services config workspace path
      else (caches.1.lookup path, caches.2.lookup path) := by
  induction paths generalizing caches with
  | nil => rw [if_neg List.not_mem_nil]; rfl
  | cons first rest ih =>
      have step := ih
        (caches.1.put first (refreshed services config workspace first).1,
          caches.2.put first (refreshed services config workspace first).2)
      refine Eq.trans step ?_
      by_cases later : path ∈ rest
      · rw [if_pos later, if_pos (List.mem_cons_of_mem _ later)]
      · rw [if_neg later]
        by_cases same : path = first
        · rw [same, if_pos List.mem_cons_self, PathMap.lookup_put_self, PathMap.lookup_put_self]
        · have absent : path ∉ first :: rest := fun member =>
            (List.mem_cons.mp member).elim same later
          rw [if_neg absent, PathMap.lookup_put_of_ne _ same, PathMap.lookup_put_of_ne _ same]

variable [DecidableEq η]

/-- A path whose cached definition is gone, or whose text is not the cached one. -/
inductive Changed (services : Services δ η) (config : ServerConfig) (state : PipelineState η)
    (workspace : Workspace δ) (path : String) : Prop where
  | removed {entry : CachedDefinition η}
      (cached : state.cachedDefinitions.lookup path = some entry)
      (gone : discoveredAt services config workspace path = none)
  | added {file : DiscoveredFile}
      (here : discoveredAt services config workspace path = some file)
      (unknown : state.cachedDefinitions.lookup path = none)
  | edited {file : DiscoveredFile} {entry : CachedDefinition η}
      (here : discoveredAt services config workspace path = some file)
      (cached : state.cachedDefinitions.lookup path = some entry)
      (differs : entry.textHash ≠ services.hashText file.text)

/-- A path that a changed path reaches through the dependency graph. -/
def Affected (services : Services δ η) (config : ServerConfig) (state : PipelineState η)
    (workspace : Workspace δ) (path : String) : Prop :=
  ∃ first, Changed services config state workspace first ∧
    Relation.ReflTransGen
      (fun one next => next ∈ dependentsOf services config state workspace one) first path

theorem mem_dirtyPaths (incremental : isFullRebuild config state = false) {path : String} :
    path ∈ dirtyPaths services config state workspace ↔
      Changed services config state workspace path := by
  rw [dirtyPaths, incremental, if_neg (by decide), Finset.mem_union, Finset.mem_filter,
    Finset.mem_filter, Finmap.mem_keys, mem_discoveredPaths, ← Finmap.lookup_isSome]
  constructor
  · rintro (⟨cached, gone⟩ | ⟨here, differs⟩)
    · have ⟨entry, known⟩ := Option.isSome_iff_exists.mp cached
      exact .removed known (Option.isNone_iff_eq_none.mp gone)
    · have ⟨file, found⟩ := Option.isSome_iff_exists.mp here
      rw [found, Option.any_some, textChanged] at differs
      cases known : state.cachedDefinitions.lookup path with
      | none => exact .added found known
      | some entry =>
          rw [known, Option.all_some, decide_eq_true_eq] at differs
          exact .edited found known differs
  · intro changed
    cases changed with
    | removed cached gone =>
        left
        rw [cached, gone]
        exact ⟨rfl, rfl⟩
    | added here unknown =>
        right
        rw [here, Option.any_some, textChanged, unknown]
        exact ⟨rfl, rfl⟩
    | edited here cached differs =>
        right
        rw [here, Option.any_some, textChanged, cached, Option.all_some, decide_eq_true_eq]
        exact ⟨rfl, differs⟩

theorem mem_impactedPaths (incremental : isFullRebuild config state = false)
    (current : GraphCurrent state) {path : String} :
    path ∈ impactedPaths services config state workspace ↔
      Affected services config state workspace path := by
  have enough : ((dirtyPaths services config state workspace).sort (· ≤ ·)).length +
      state.cachedDefinitions.keys.card ≤
        (dirtyPaths services config state workspace).card + state.cachedDefinitions.keys.card := by
    rw [Finset.length_sort]
  have inside : ∀ one, ∀ next ∈ dependentsOf services config state workspace one,
      next ∈ state.cachedDefinitions.keys := fun _ _ depends => dependentsOf_cached current depends
  have marked := @Worklist.mem_run_iff String _ _ _ _ _ inside enough
  simp only [Finset.sort_toFinset] at marked
  unfold impactedPaths
  dsimp only
  rw [incremental, if_neg (by decide), marked]
  constructor
  · intro ⟨first, isFirst, path⟩
    rw [Finset.mem_sort] at isFirst
    exact ⟨first, (mem_dirtyPaths incremental).mp isFirst, path⟩
  · intro ⟨first, changed, path⟩
    exact ⟨first, (Finset.mem_sort _).mpr ((mem_dirtyPaths incremental).mpr changed), path⟩

/-! ### The caches after a run -/

theorem lookup_run (path : String) :
    ((run services config state workspace).1.cachedDefinitions.lookup path,
        (run services config state workspace).1.parseDiagnostics.lookup path) =
      if path ∈ impactedPaths services config state workspace then
        refreshed services config workspace path
      else (state.cachedDefinitions.lookup path, state.parseDiagnostics.lookup path) := by
  have caches : _ = if path ∈ (impactedPaths services config state workspace).sort (· ≤ ·) then
      refreshed services config workspace path
      else (state.cachedDefinitions.lookup path, state.parseDiagnostics.lookup path) :=
    lookup_refreshPaths _ (state.cachedDefinitions, state.parseDiagnostics) path
  simp only [Finset.mem_sort] at caches
  exact caches

theorem cached_run (path : String) :
    (run services config state workspace).1.cachedDefinitions.lookup path =
      if path ∈ impactedPaths services config state workspace then
        (refreshed services config workspace path).1
      else state.cachedDefinitions.lookup path := by
  have caches : _ = (if path ∈ impactedPaths services config state workspace then
      refreshed services config workspace path
      else (state.cachedDefinitions.lookup path, state.parseDiagnostics.lookup path)).1 :=
    congrArg Prod.fst (lookup_run path)
  apply Eq.trans caches
  split <;> rfl

theorem failures_run (path : String) :
    (run services config state workspace).1.parseDiagnostics.lookup path =
      if path ∈ impactedPaths services config state workspace then
        (refreshed services config workspace path).2
      else state.parseDiagnostics.lookup path := by
  have caches : _ = (if path ∈ impactedPaths services config state workspace then
      refreshed services config workspace path
      else (state.cachedDefinitions.lookup path, state.parseDiagnostics.lookup path)).2 :=
    congrArg Prod.snd (lookup_run path)
  apply Eq.trans caches
  split <;> rfl

/-! ### The invariant of the caches -/

variable (services state) in
/-- Every cached definition is the parse of the file it records, no path is both cached
and a failure, and the graph is current. -/
structure Consistent : Prop where
  parsed : ∀ path entry, state.cachedDefinitions.lookup path = some entry →
    parseFile services entry.info entry.sourceUri = (some entry, none)
  exclusive : ∀ path diagnostics, state.parseDiagnostics.lookup path = some diagnostics →
    state.cachedDefinitions.lookup path = none
  current : GraphCurrent state

omit [DecidableEq η] in
theorem parseFile_cases (file : DiscoveredFile) (uri : String) :
    (∃ entry, parseFile services file uri = (some entry, none) ∧ entry.info = file ∧
        entry.sourceUri = uri ∧ entry.textHash = services.hashText file.text) ∨
      ∃ diagnostics, parseFile services file uri = (none, some diagnostics) := by
  unfold parseFile
  dsimp only
  split
  · exact Or.inr ⟨_, rfl⟩
  · exact Or.inl ⟨_, rfl, rfl, rfl, rfl⟩

omit [DecidableEq η] in
theorem refreshed_cases (path : String) :
    (∃ file entry, discoveredAt services config workspace path = some file ∧
        refreshed services config workspace path = (some entry, none) ∧
        parseFile services entry.info entry.sourceUri = (some entry, none)) ∨
      ∃ diagnostics, refreshed services config workspace path = (none, diagnostics) := by
  rw [refreshed]
  cases discoveredAt services config workspace path with
  | none => exact Or.inr ⟨none, rfl⟩
  | some file =>
      dsimp only
      rcases parseFile_cases file (uriOfPath services workspace path) with
        ⟨entry, parsed, info, uri, _⟩ | ⟨diagnostics, failed⟩
      · refine Or.inl ⟨file, entry, rfl, parsed, ?_⟩
        rw [info, uri]
        exact parsed
      · exact Or.inr ⟨_, failed⟩

omit [DecidableEq η] in
theorem consistent_fresh : Consistent services (.fresh : PipelineState η) where
  parsed path entry cached := by
    have absent : (∅ : PathMap (CachedDefinition η)).lookup path = none := Finmap.lookup_empty path
    rw [PipelineState.fresh, absent] at cached
    cases cached
  exclusive path diagnostics recorded := by
    have absent : (∅ : PathMap (List Diagnostic)).lookup path = none := Finmap.lookup_empty path
    rw [PipelineState.fresh, absent] at recorded
    cases recorded
  current := by
    have none (condition : CachedDefinition η → Bool) : pathsWhere ∅ condition = ∅ := rfl
    refine ⟨.sorted, ?_⟩
    rw [PipelineState.fresh, rebuildDependencyGraph]
    simp only [none, Iteration.sorted, Finmap.keys_empty, Finset.sort_empty]
    rfl

theorem consistent_run (consistent : Consistent services state) :
    Consistent services (run services config state workspace).1 where
  parsed path entry cached := by
    rw [cached_run] at cached
    split at cached
    · rcases refreshed_cases path with ⟨_, other, _, same, parsed⟩ | ⟨_, failed⟩
      · rw [same] at cached
        cases cached
        exact parsed
      · rw [failed] at cached
        cases cached
    · exact consistent.parsed path entry cached
  exclusive path diagnostics recorded := by
    rw [failures_run] at recorded
    rw [cached_run]
    split at recorded
    · rename_i impacted
      rw [if_pos impacted]
      rcases refreshed_cases path with ⟨_, _, _, same, _⟩ | ⟨_, failed⟩
      · rw [same] at recorded
        cases recorded
      · rw [failed]
    · rename_i kept
      rw [if_neg kept]
      exact consistent.exclusive path diagnostics recorded
  current := ⟨workspace.iteration, rfl⟩

/-! ### The condition on a step -/

variable (services config state workspace) in
/-- What a step must meet: a file that failed to parse with diagnostics is still there, and
a cached file of the same text that no changed file reaches has the discovery metadata and
the URI it was cached with. -/
structure StepCondition : Prop where
  present : ∀ path diagnostics, state.parseDiagnostics.lookup path = some diagnostics →
    diagnostics ≠ [] → discoveredAt services config workspace path ≠ none
  unchanged : ∀ path entry file, state.cachedDefinitions.lookup path = some entry →
    discoveredAt services config workspace path = some file → file.text = entry.info.text →
      ¬ Affected services config state workspace path →
        file = entry.info ∧ uriOfPath services workspace path = entry.sourceUri

def keptDiagnostics (failures : PathMap (List Diagnostic)) (path : String) : List Diagnostic :=
  (failures.lookup path).getD []

/-- A path is kept as the workspace has it. -/
structure UpToDate (services : Services δ η) (config : ServerConfig) (workspace : Workspace δ)
    (state : PipelineState η) (path : String) : Prop where
  cached : state.cachedDefinitions.lookup path = (refreshed services config workspace path).1
  failures : keptDiagnostics state.parseDiagnostics path =
    (refreshed services config workspace path).2.getD []

theorem upToDate_of_impacted {path : String}
    (impacted : path ∈ impactedPaths services config state workspace) :
    UpToDate services config workspace (run services config state workspace).1 path := by
  constructor
  · rw [cached_run, if_pos impacted]
  · rw [keptDiagnostics, failures_run, if_pos impacted]

/-- A path that is neither found nor cached, and whose failure was not forgotten. -/
theorem upToDate_of_absent {path : String} (condition : StepCondition services config state workspace)
    (kept : path ∉ impactedPaths services config state workspace)
    (gone : discoveredAt services config workspace path = none)
    (unknown : state.cachedDefinitions.lookup path = none) :
    UpToDate services config workspace (run services config state workspace).1 path := by
  have absent : refreshed services config workspace path = (none, none) := by
    rw [refreshed, gone]
  constructor
  · rw [cached_run, if_neg kept, unknown, absent]
  · rw [keptDiagnostics, failures_run, if_neg kept, absent]
    cases recorded : state.parseDiagnostics.lookup path with
    | none => rfl
    | some diagnostics =>
        by_cases empty : diagnostics = []
        · rw [empty]
          rfl
        · exact absurd gone (condition.present path diagnostics recorded empty)

theorem upToDate_of_unaffected {path : String} (consistent : Consistent services state)
    (condition : StepCondition services config state workspace)
    (collisionFree : Function.Injective services.hashText)
    (kept : path ∉ impactedPaths services config state workspace)
    (unaffected : ¬ Affected services config state workspace path) :
    UpToDate services config workspace (run services config state workspace).1 path := by
  have unchanged : ¬ Changed services config state workspace path :=
    fun changed => unaffected ⟨path, changed, .refl⟩
  cases here : discoveredAt services config workspace path with
  | none =>
      cases cached : state.cachedDefinitions.lookup path with
      | none => exact upToDate_of_absent condition kept here cached
      | some entry => exact absurd (.removed cached here) unchanged
  | some file =>
      cases cached : state.cachedDefinitions.lookup path with
      | none => exact absurd (.added here cached) unchanged
      | some entry =>
          have sameHash : entry.textHash = services.hashText file.text := by
            by_contra differs
            exact unchanged (.edited here cached differs)
          have parsed := consistent.parsed path entry cached
          have ownHash : entry.textHash = services.hashText entry.info.text := by
            rcases (parseFile_cases entry.info entry.sourceUri : _ ∨ ∃ diagnostics,
                parseFile services entry.info entry.sourceUri = (none, some diagnostics)) with
              ⟨other, same, _, _, hash⟩ | ⟨_, failed⟩
            · rw [parsed] at same
              cases same
              exact hash
            · rw [parsed] at failed
              cases failed
          have sameText : file.text = entry.info.text :=
            collisionFree (sameHash.symm.trans ownHash)
          have ⟨info, uri⟩ := condition.unchanged path entry file cached here sameText unaffected
          have same : refreshed services config workspace path = (some entry, none) := by
            rw [refreshed, here]
            dsimp only
            rw [info, uri]
            exact parsed
          have noFailure : state.parseDiagnostics.lookup path = none := by
            cases recorded : state.parseDiagnostics.lookup path with
            | none => rfl
            | some diagnostics =>
                rw [consistent.exclusive path diagnostics recorded] at cached
                cases cached
          constructor
          · rw [cached_run, if_neg kept, same, cached]
          · rw [keptDiagnostics, failures_run, if_neg kept, same, noFailure]

/-- **A step that meets its condition leaves every path as the workspace has it.** -/
theorem upToDate_run (consistent : Consistent services state)
    (condition : StepCondition services config state workspace)
    (collisionFree : Function.Injective services.hashText) (path : String) :
    UpToDate services config workspace (run services config state workspace).1 path := by
  by_cases impacted : path ∈ impactedPaths services config state workspace
  · exact upToDate_of_impacted impacted
  · cases full : isFullRebuild config state with
    | false =>
        refine upToDate_of_unaffected consistent condition collisionFree impacted ?_
        exact fun affected => impacted ((mem_impactedPaths full consistent.current).mpr affected)
    | true =>
        have dirty : impactedPaths services config state workspace =
            discoveredPaths services config workspace ∪ state.cachedDefinitions.keys := by
          unfold impactedPaths dirtyPaths
          dsimp only
          rw [full, if_pos rfl, if_pos rfl]
        have absent := impacted
        rw [dirty, Finset.mem_union, not_or, mem_discoveredPaths, Finmap.mem_keys,
          ← Finmap.lookup_isSome, Bool.not_eq_true, Bool.not_eq_true, Option.isSome_eq_false_iff,
          Option.isSome_eq_false_iff, Option.isNone_iff_eq_none, Option.isNone_iff_eq_none] at absent
        exact upToDate_of_absent condition impacted absent.1 absent.2

/-! ### Results -/

omit [DecidableEq η] in
/-- The kept parse diagnostics, summed over any paths that cover them. -/
theorem values_bind_eq (failures : PathMap (List Diagnostic)) {paths : Finset String}
    (cover : failures.keys ⊆ paths) :
    failures.values.bind (fun diagnostics => (diagnostics : Multiset Diagnostic)) =
      ∑ path ∈ paths, (keptDiagnostics failures path : Multiset Diagnostic) := by
  have outside : ∀ path ∈ paths, path ∉ failures.keys →
      (keptDiagnostics failures path : Multiset Diagnostic) = 0 := by
    intro path _ absent
    rw [Finmap.mem_keys, ← Finmap.lookup_eq_none] at absent
    rw [keptDiagnostics, absent]
    rfl
  have inside : ∀ entry ∈ failures.entries, (entry.2 : Multiset Diagnostic) =
      (keptDiagnostics failures entry.1 : Multiset Diagnostic) := by
    intro entry member
    rw [keptDiagnostics, Finmap.lookup_eq_some_iff.mpr member]
    rfl
  rw [← Finset.sum_subset cover outside, PathMap.values, Multiset.bind_map]
  show _ = Multiset.sum ((failures.entries.map Sigma.fst).map _)
  rw [Multiset.map_map]
  exact congrArg Multiset.sum (Multiset.map_congr rfl inside)

omit [DecidableEq η] in
theorem allDiagnostics_congr (cached : PathMap (CachedDefinition η))
    {failures other : PathMap (List Diagnostic)}
    (same : ∀ path, keptDiagnostics failures path = keptDiagnostics other path) :
    allDiagnostics services config workspace cached failures =
      allDiagnostics services config workspace cached other := by
  have sums : failures.values.bind (fun diagnostics => (diagnostics : Multiset Diagnostic)) =
      other.values.bind (fun diagnostics => (diagnostics : Multiset Diagnostic)) := by
    rw [values_bind_eq failures (Finset.subset_union_left : _ ⊆ failures.keys ∪ other.keys),
      values_bind_eq other (Finset.subset_union_right : _ ⊆ failures.keys ∪ other.keys)]
    simp only [same]
  unfold allDiagnostics
  dsimp only
  rw [sums]

/-- Two runs show the same diagnostics, definitions and graph. -/
structure SameAnalysis (one other : PipelineState η × AnalysisResult) : Prop where
  diagnostics : one.2.diagnosticsByUri = other.2.diagnosticsByUri
  definitions : one.1.cachedDefinitions = other.1.cachedDefinitions
  graph : one.1.graph = other.1.graph

theorem diagnosticsByUri_run (uri : String) :
    (run services config state workspace).2.diagnosticsByUri uri =
      (allDiagnostics services config workspace
        (run services config state workspace).1.cachedDefinitions
        (run services config state workspace).1.parseDiagnostics).filter fun diagnostic =>
          diagnostic.location.file ≠ "" ∧
            uriOfPath services workspace diagnostic.location.file = uri := rfl

/-- Two workspaces that an analysis cannot tell apart. -/
structure SameWorkspace (services : Services δ η) (config : ServerConfig)
    (workspace other : Workspace δ) : Prop where
  files : ∀ path, discoveredAt services config workspace path =
    discoveredAt services config other path
  uris : ∀ path, uriOfPath services workspace path = uriOfPath services other path
  findings : (discovery services config workspace).2 = (discovery services config other).2

omit [DecidableEq η] in
theorem SameWorkspace.refreshed {other : Workspace δ}
    (same : SameWorkspace services config workspace other) (path : String) :
    refreshed services config workspace path = LSP.refreshed services config other path := by
  rw [LSP.refreshed, LSP.refreshed, same.files, same.uris]

/-- Runs that leave every path as the workspace has it keep the same definitions. -/
theorem definitions_of_upToDate {other : Workspace δ} {otherState : PipelineState η}
    (same : SameWorkspace services config workspace other)
    (current : ∀ path, UpToDate services config workspace (run services config state workspace).1
      path)
    (otherCurrent : ∀ path, UpToDate services config other
      (run services config otherState other).1 path) :
    (run services config state workspace).1.cachedDefinitions =
      (run services config otherState other).1.cachedDefinitions := by
  apply Finmap.ext_lookup
  intro path
  rw [(current path).cached, same.refreshed, (otherCurrent path).cached]

/-- Runs that leave every path as the workspace has it report the same. -/
theorem diagnosticsByUri_of_upToDate {other : Workspace δ} {otherState : PipelineState η}
    (same : SameWorkspace services config workspace other)
    (current : ∀ path, UpToDate services config workspace (run services config state workspace).1
      path)
    (otherCurrent : ∀ path, UpToDate services config other
      (run services config otherState other).1 path) :
    (run services config state workspace).2.diagnosticsByUri =
      (run services config otherState other).2.diagnosticsByUri := by
  have diagnostics : allDiagnostics services config workspace
      (run services config state workspace).1.cachedDefinitions
      (run services config state workspace).1.parseDiagnostics =
        allDiagnostics services config other
          (run services config otherState other).1.cachedDefinitions
          (run services config otherState other).1.parseDiagnostics := by
    rw [definitions_of_upToDate same current otherCurrent]
    have kept : ∀ path, keptDiagnostics (run services config state workspace).1.parseDiagnostics
        path = keptDiagnostics (run services config otherState other).1.parseDiagnostics path := by
      intro path
      rw [(current path).failures, same.refreshed, (otherCurrent path).failures]
    rw [allDiagnostics_congr _ kept]
    unfold allDiagnostics
    dsimp only
    rw [same.findings]
  funext uri
  rw [diagnosticsByUri_run, diagnosticsByUri_run, diagnostics]
  simp only [same.uris]

/-! ### Paths by type key -/

omit [DecidableEq η] in
theorem lookup_typeKeyPaths (cached : PathMap (CachedDefinition η)) (order : List String)
    (key : String) :
    (typeKeyPaths cached order).lookup key = order.reverse.find? fun path =>
      (cached.lookup path).any fun entry => typeKeyOf entry.info.info = key := by
  induction order using List.reverseRecOn with
  | nil => exact Finmap.lookup_empty key
  | append_singleton order last ih =>
      rw [typeKeyPaths, List.foldl_append, List.foldl_cons, List.foldl_nil, List.reverse_append,
        List.reverse_singleton, List.singleton_append, List.find?_cons, ← ih]
      cases cached.lookup last with
      | none => rfl
      | some entry =>
          by_cases same : typeKeyOf entry.info.info = key
          · simp [same]
          · rw [Option.any_some, decide_eq_false same]
            exact Finmap.lookup_insert_of_ne _ (Ne.symm same)

/-- No two definitions that a workspace leaves in the cache have one name and version. -/
def OnePathPerKey (services : Services δ η) (config : ServerConfig) (workspace : Workspace δ) :
    Prop :=
  ∀ path other entry otherEntry, (refreshed services config workspace path).1 = some entry →
    (refreshed services config workspace other).1 = some otherEntry →
      typeKeyOf entry.info.info = typeKeyOf otherEntry.info.info → path = other

/-- The order that puts a path last. -/
def Iteration.endingIn (last : String) : Iteration where
  order paths := Iteration.sorted.order (paths.erase last) ++ if last ∈ paths then [last] else []
  each paths := by
    split
    · rename_i member
      rw [← Multiset.coe_add, Iteration.sorted.each, Multiset.coe_singleton, Multiset.add_comm,
        Multiset.singleton_add, ← Finset.insert_val_of_notMem (Finset.notMem_erase _ _),
        Finset.insert_erase member]
    · rename_i absent
      rw [List.append_nil, Iteration.sorted.each, Finset.erase_eq_of_notMem absent]

theorem Iteration.mem_order (iteration : Iteration) {paths : Finset String} {path : String} :
    path ∈ iteration.order paths ↔ path ∈ paths := by
  rw [← Multiset.mem_coe, iteration.each, Finset.mem_val]

omit [DecidableEq η] in
theorem lookup_endingIn {cached : PathMap (CachedDefinition η)} {path : String}
    {entry : CachedDefinition η} (held : cached.lookup path = some entry) :
    (typeKeyPaths cached ((Iteration.endingIn path).order cached.keys)).lookup
      (typeKeyOf entry.info.info) = some path := by
  have member : path ∈ cached.keys := by
    rw [Finmap.mem_keys, ← Finmap.lookup_isSome, held]
    rfl
  rw [lookup_typeKeyPaths, Iteration.endingIn]
  dsimp only
  rw [if_pos member, List.reverse_append, List.reverse_singleton, List.singleton_append,
    List.find?_cons, held, Option.any_some, decide_eq_true rfl]

omit [DecidableEq η] in
theorem typeKeyPaths_same {cached : PathMap (CachedDefinition η)}
    (distinct : ∀ path other entry otherEntry, cached.lookup path = some entry →
      cached.lookup other = some otherEntry →
        typeKeyOf entry.info.info = typeKeyOf otherEntry.info.info → path = other)
    (iteration otherIteration : Iteration) :
    typeKeyPaths cached (iteration.order cached.keys) =
      typeKeyPaths cached (otherIteration.order cached.keys) := by
  have holds {order : List String} {key path : String}
      (found : (typeKeyPaths cached order).lookup key = some path) :
      path ∈ order ∧ ∃ entry, cached.lookup path = some entry ∧
        typeKeyOf entry.info.info = key := by
    rw [lookup_typeKeyPaths] at found
    have member := List.mem_reverse.mp (List.mem_of_find?_eq_some found)
    have keyed := List.find?_some found
    cases held : cached.lookup path with
    | none =>
        rw [held] at keyed
        cases keyed
    | some entry =>
        rw [held, Option.any_some, decide_eq_true_eq] at keyed
        exact ⟨member, entry, rfl, keyed⟩
  have transfers {one two : Iteration} {key path : String}
      (found : (typeKeyPaths cached (one.order cached.keys)).lookup key = some path) :
      (typeKeyPaths cached (two.order cached.keys)).lookup key = some path := by
    have ⟨member, entry, held, same⟩ := holds found
    cases other : (typeKeyPaths cached (two.order cached.keys)).lookup key with
    | none =>
        rw [lookup_typeKeyPaths, List.find?_eq_none] at other
        have inOrder : path ∈ (two.order cached.keys).reverse :=
          List.mem_reverse.mpr (two.mem_order.mpr (one.mem_order.mp member))
        refine absurd ?_ (other path inOrder)
        rw [held, Option.any_some, decide_eq_true same]
    | some otherPath =>
        have ⟨_, otherEntry, otherHeld, otherSame⟩ := holds other
        rw [distinct path otherPath entry otherEntry held otherHeld (same.trans otherSame.symm)]
  apply Finmap.ext_lookup
  intro key
  cases found : (typeKeyPaths cached (iteration.order cached.keys)).lookup key with
  | some path => exact (transfers found).symm
  | none =>
      cases other : (typeKeyPaths cached (otherIteration.order cached.keys)).lookup key with
      | none => rfl
      | some path =>
          rw [transfers other] at found
          cases found

/-- Runs that leave every path as the workspace has it are the same in any two orders of their
caches exactly when the workspace has one path for each key. -/
theorem sameAnalysis_iff_of_upToDate {other : PipelineState η}
    (current : ∀ path, UpToDate services config workspace (run services config state workspace).1
      path)
    (otherCurrent : ∀ path, UpToDate services config workspace
      (run services config other workspace).1 path) :
    (∀ iteration, SameAnalysis (run services config state workspace)
        (run services config other { workspace with iteration := iteration })) ↔
      OnePathPerKey services config workspace := by
  have same (iteration : Iteration) : SameWorkspace services config workspace
      { workspace with iteration := iteration } := ⟨fun _ => rfl, fun _ => rfl, rfl⟩
  have otherwise (iteration : Iteration) (path : String) :
      UpToDate services config { workspace with iteration := iteration }
        (run services config other { workspace with iteration := iteration }).1 path :=
    ⟨(otherCurrent path).cached, (otherCurrent path).failures⟩
  have definitions := definitions_of_upToDate (same workspace.iteration) current otherCurrent
  constructor
  · intro agree path otherPath entry otherEntry isEntry isOther sameKey
    have held := (otherCurrent path).cached.trans isEntry
    have otherHeld := (otherCurrent otherPath).cached.trans isOther
    have first := congrArg (fun graph => graph.typeKeyToPath.lookup (typeKeyOf entry.info.info))
      (agree (.endingIn path)).graph
    have second := congrArg (fun graph => graph.typeKeyToPath.lookup (typeKeyOf entry.info.info))
      (agree (.endingIn otherPath)).graph
    have shown := first.symm.trans second
    have here : _ = some path := lookup_endingIn held
    have there : _ = some otherPath := lookup_endingIn otherHeld
    rw [← sameKey] at there
    exact Option.some.inj (here.symm.trans (shown.trans there))
  · intro distinct iteration
    constructor
    · exact diagnosticsByUri_of_upToDate (same iteration) current (otherwise iteration)
    · exact definitions
    · show rebuildDependencyGraph workspace.iteration
          (run services config state workspace).1.cachedDefinitions =
        rebuildDependencyGraph iteration (run services config other workspace).1.cachedDefinitions
      have paths : typeKeyPaths (run services config other workspace).1.cachedDefinitions
          (workspace.iteration.order
            (run services config other workspace).1.cachedDefinitions.keys) = _ :=
        typeKeyPaths_same (fun path otherPath entry otherEntry held otherHeld =>
          distinct path otherPath entry otherEntry ((otherCurrent path).cached.symm.trans held)
            ((otherCurrent otherPath).cached.symm.trans otherHeld)) _ iteration
      rw [definitions, rebuildDependencyGraph, paths]
      rfl

/-! ### Runs over a sequence of workspaces -/

omit [DecidableEq η] in
theorem stepCondition_fresh :
    StepCondition services config (.fresh : PipelineState η) workspace where
  present path diagnostics recorded := by
    have absent : (∅ : PathMap (List Diagnostic)).lookup path = none := Finmap.lookup_empty path
    rw [PipelineState.fresh, absent] at recorded
    cases recorded
  unchanged path entry file cached := by
    have absent : (∅ : PathMap (CachedDefinition η)).lookup path = none := Finmap.lookup_empty path
    rw [PipelineState.fresh, absent] at cached
    cases cached

end Step

section Runs

variable [DecidableEq η] (services : Services δ η) (config : ServerConfig)

/-- Every step of a sequence of workspaces meets its condition. -/
def StepsMeet : PipelineState η → List (Workspace δ) → Prop
  | _, [] => True
  | state, workspace :: rest =>
      StepCondition services config state workspace ∧
        StepsMeet (run services config state workspace).1 rest

variable {services config}

theorem stepsMeet_append {state : PipelineState η} {earlier later : List (Workspace δ)}
    (steps : StepsMeet services config state (earlier ++ later)) :
    StepsMeet services config (runAll services config state earlier) later := by
  induction earlier generalizing state with
  | nil => exact steps
  | cons workspace rest ih => exact ih steps.2

theorem consistent_runAll {state : PipelineState η} (workspaces : List (Workspace δ))
    (consistent : Consistent services state) :
    Consistent services (runAll services config state workspaces) := by
  induction workspaces generalizing state with
  | nil => exact consistent
  | cons workspace rest ih =>
      exact ih (consistent_run consistent)

/-- **Incremental analysis is analysis from scratch**, where every step meets its condition: in every
order of the fresh run's cache exactly when the last workspace has one path for each key. -/
theorem incremental_eq_fresh (collisionFree : Function.Injective services.hashText)
    (earlier : List (Workspace δ)) (last : Workspace δ)
    (steps : StepsMeet services config .fresh (earlier ++ [last])) :
    (∀ iteration, SameAnalysis (run services config (runAll services config .fresh earlier) last)
        (run services config .fresh { last with iteration := iteration })) ↔
      OnePathPerKey services config last := by
  apply sameAnalysis_iff_of_upToDate
  · exact upToDate_run (consistent_runAll earlier consistent_fresh)
      (stepsMeet_append steps).1 collisionFree
  · exact upToDate_run consistent_fresh stepCondition_fresh collisionFree

end Runs

/-! ### A file that does not parse -/

/-- The diagnostic of the text `@`. -/
def missingDirectiveName (path : String) : Diagnostic :=
  ⟨.error, ⟨path, 1, 2⟩, "expected directive name", none⟩

/-- A disk that is the list of its files, of the texts `@` and `@sealed`. -/
def listedFiles : Services (List DiscoveredFile) String where
  discoverDefinitions _ _ files := (files, [])
  normalizePath path := path
  uriToNormalizedPath uri := String.ofList (uri.toList.drop 7)
  normalizedPathToFileUri path := "file://" ++ path
  parentPath _ := ""
  makeOverlayShortName path := path
  hashText text := text
  parse path text :=
    if text = "@" then ⟨none, [missingDirectiveName path]⟩
    else ⟨some ⟨⟨path, 1, 1⟩, [.directive ⟨⟨path, 1, 1⟩, .sealed, "sealed", none⟩]⟩, []⟩
  analyze module := (analyze plainHost {} module, visitDiagnostics plainHost {} module)
  lower _ := []
  lint _ _ := []

def plainConfig : ServerConfig where
  rootNamespaceDirs := ["/ns"]
  lookupDirs := []
  lintEnabled := false
  lintDisabledRules := []
  lintFileDisabledRules := []
  lintPluginLibraries := []
  enableMlirSnapshot := false

/-- `ns.A.1.0` with a text. -/
def fileWithText (text : String) : DiscoveredFile where
  info := ⟨"/ns/A.1.0.dsdl", "ns.A", "A", ["ns"], 1, 0, none⟩
  rootNamespacePath := "/ns"
  text := text

/-- No open documents. -/
def onDisk (files : List DiscoveredFile) : Workspace (List DiscoveredFile) := ⟨files, [], .sorted⟩

theorem discoveredAt_onDisk_nil (path : String) :
    discoveredAt listedFiles plainConfig (onDisk []) path = none := by
  have noFile : (∅ : PathMap DiscoveredFile).lookup path = none := Finmap.lookup_empty path
  have noDocument : (∅ : PathMap DocumentSnapshot).lookup path = none := Finmap.lookup_empty path
  have files : filesOnDisk listedFiles plainConfig (onDisk []) = ∅ := rfl
  have documents : overlaysByPath listedFiles (onDisk []).documents = ∅ := rfl
  rw [discoveredAt, files, documents, noFile, noDocument]
  rfl

theorem discoveredAt_onDisk (text path : String) :
    discoveredAt listedFiles plainConfig (onDisk [fileWithText text]) path =
      if path = "/ns/A.1.0.dsdl" then some (fileWithText text) else none := by
  have noFile : (∅ : PathMap DiscoveredFile).lookup path = none := Finmap.lookup_empty path
  have noDocument : (∅ : PathMap DocumentSnapshot).lookup path = none := Finmap.lookup_empty path
  have documents : overlaysByPath listedFiles (onDisk [fileWithText text]).documents = ∅ := rfl
  have merged : mergedFile listedFiles ∅ (fileWithText text) = fileWithText text := by
    have none : (∅ : PathMap DocumentSnapshot).lookup "/ns/A.1.0.dsdl" = none :=
      Finmap.lookup_empty _
    unfold mergedFile
    simp only [listedFiles, fileWithText, none, Option.map_none, Option.getD_none]
  have files : filesOnDisk listedFiles plainConfig (onDisk [fileWithText text]) =
      (∅ : PathMap DiscoveredFile).insert "/ns/A.1.0.dsdl" (fileWithText text) := by
    show (∅ : PathMap DiscoveredFile).insert
      (mergedFile listedFiles ∅ (fileWithText text)).info.filePath
        (mergedFile listedFiles ∅ (fileWithText text)) = _
    rw [merged]
    rfl
  rw [discoveredAt, files, documents, noDocument]
  by_cases same : path = "/ns/A.1.0.dsdl"
  · rw [same, Finmap.lookup_insert, if_pos rfl]
  · rw [Finmap.lookup_insert_of_ne _ same, noFile, if_neg same]
    rfl

/-- After one run on a file that does not parse, its diagnostic is all that is kept. -/
theorem upToDate_unparsed (path : String) :
    UpToDate listedFiles plainConfig (onDisk [fileWithText "@"])
      (run listedFiles plainConfig .fresh (onDisk [fileWithText "@"])).1 path :=
  upToDate_run consistent_fresh stepCondition_fresh (fun _ _ same => same) path

theorem refreshed_unparsed (path : String) :
    refreshed listedFiles plainConfig (onDisk [fileWithText "@"]) path =
      if path = "/ns/A.1.0.dsdl" then (none, some [missingDirectiveName "/ns/A.1.0.dsdl"])
      else (none, none) := by
  rw [refreshed, discoveredAt_onDisk]
  by_cases same : path = "/ns/A.1.0.dsdl"
  · rw [if_pos same, if_pos same]
    rfl
  · rw [if_neg same, if_neg same]

theorem cached_unparsed (path : String) :
    (run listedFiles plainConfig .fresh (onDisk [fileWithText "@"])).1.cachedDefinitions.lookup
      path = none := by
  rw [(upToDate_unparsed path).cached, refreshed_unparsed]
  split <;> rfl

/-- A file is corrected after a run in which it did not parse. -/
theorem incremental_eq_fresh_corrected :
    SameAnalysis
      (run listedFiles plainConfig (runAll listedFiles plainConfig .fresh
        [onDisk [fileWithText "@"]]) (onDisk [fileWithText "@sealed"]))
      (run listedFiles plainConfig .fresh
        { onDisk [fileWithText "@sealed"] with
          iteration := .endingIn "/ns/A.1.0.dsdl" }) := by
  refine (incremental_eq_fresh (fun _ _ same => same) _ _ ?_).mpr ?_ (.endingIn _)
  · apply And.intro stepCondition_fresh
    apply And.intro _ True.intro
    constructor
    · intro path diagnostics recorded present
      have kept := (upToDate_unparsed path).failures
      rw [keptDiagnostics, recorded, refreshed_unparsed] at kept
      rw [discoveredAt_onDisk]
      by_cases same : path = "/ns/A.1.0.dsdl"
      · rw [if_pos same]
        exact Option.some_ne_none _
      · rw [if_neg same] at kept
        exact absurd kept present
    · intro path entry file cached
      rw [cached_unparsed] at cached
      cases cached
  · have place {path : String} {entry : CachedDefinition String}
        (held : (refreshed listedFiles plainConfig (onDisk [fileWithText "@sealed"]) path).1 =
          some entry) : path = "/ns/A.1.0.dsdl" := by
      by_contra away
      rw [refreshed, discoveredAt_onDisk, if_neg away] at held
      cases held
    intro path other entry otherEntry held otherHeld _
    rw [place held, place otherHeld]

theorem allDiagnostics_empty :
    allDiagnostics listedFiles plainConfig (onDisk []) ∅ ∅ = 0 := by
  have noModule : cachedModule (∅ : PathMap (CachedDefinition String)) = [] := by
    unfold cachedModule PathMap.sortedPaths
    rw [Finmap.keys_empty, Finset.sort_empty, List.filterMap_nil, List.mergeSort_nil]
  unfold allDiagnostics semanticResult
  dsimp only
  rw [noModule]
  rfl

theorem nothing_reported (uri : String) :
    (run listedFiles plainConfig .fresh (onDisk [])).2.diagnosticsByUri uri = 0 := by
  have current (path : String) : UpToDate listedFiles plainConfig (onDisk [])
      (run listedFiles plainConfig .fresh (onDisk [])).1 path :=
    upToDate_run consistent_fresh stepCondition_fresh (fun _ _ same => same) path
  have nothing (path : String) : refreshed listedFiles plainConfig (onDisk []) path =
      (none, none) := by
    rw [refreshed, discoveredAt_onDisk_nil]
  have uncached :
      (run listedFiles plainConfig .fresh (onDisk [])).1.cachedDefinitions = ∅ := by
    apply Finmap.ext_lookup
    intro path
    have absent : (∅ : PathMap (CachedDefinition String)).lookup path = none :=
      Finmap.lookup_empty path
    rw [(current path).cached, nothing, absent]
  have unreported : allDiagnostics listedFiles plainConfig (onDisk [])
      (run listedFiles plainConfig .fresh (onDisk [])).1.cachedDefinitions
      (run listedFiles plainConfig .fresh (onDisk [])).1.parseDiagnostics = 0 := by
    rw [uncached, ← allDiagnostics_empty]
    apply allDiagnostics_congr
    intro path
    rw [(current path).failures, nothing]
    exact (congrArg (Option.getD · []) (Finmap.lookup_empty path)).symm
  rw [diagnosticsByUri_run, unreported, Multiset.filter_zero]

theorem deletion_not_impacted (path : String) :
    path ∉ impactedPaths listedFiles plainConfig
      (run listedFiles plainConfig .fresh (onDisk [fileWithText "@"])).1 (onDisk []) := by
  have uncached : (run listedFiles plainConfig .fresh
      (onDisk [fileWithText "@"])).1.cachedDefinitions = ∅ := by
    apply Finmap.ext_lookup
    intro other
    have absent : (∅ : PathMap (CachedDefinition String)).lookup other = none :=
      Finmap.lookup_empty other
    rw [cached_unparsed, absent]
  have full : isFullRebuild plainConfig (run listedFiles plainConfig .fresh
      (onDisk [fileWithText "@"])).1 = true := by
    rw [isFullRebuild, uncached, Finmap.keys_empty, decide_eq_true rfl, Bool.or_true]
  unfold impactedPaths dirtyPaths
  dsimp only
  rw [full, if_pos rfl, if_pos rfl, uncached, Finmap.keys_empty, Finset.union_empty,
    mem_discoveredPaths, discoveredAt_onDisk_nil]
  exact Bool.false_ne_true

/-- The diagnostic of a file that never parsed outlives the file. -/
theorem deletedFile_keeps_diagnostic :
    ¬ SameAnalysis
      (run listedFiles plainConfig (runAll listedFiles plainConfig .fresh
        [onDisk [fileWithText "@"]]) (onDisk []))
      (run listedFiles plainConfig .fresh (onDisk [])) := by
  intro same
  have stale := congrFun same.diagnostics "file:///ns/A.1.0.dsdl"
  rw [nothing_reported] at stale
  have kept : keptDiagnostics (run listedFiles plainConfig (runAll listedFiles plainConfig .fresh
      [onDisk [fileWithText "@"]]) (onDisk [])).1.parseDiagnostics "/ns/A.1.0.dsdl" =
        [missingDirectiveName "/ns/A.1.0.dsdl"] := by
    rw [keptDiagnostics, failures_run]
    show Option.getD (if "/ns/A.1.0.dsdl" ∈ impactedPaths listedFiles plainConfig
      (run listedFiles plainConfig .fresh (onDisk [fileWithText "@"])).1 (onDisk []) then _
        else _) [] = _
    rw [if_neg (deletion_not_impacted _)]
    apply Eq.trans (upToDate_unparsed "/ns/A.1.0.dsdl").failures
    rw [refreshed_unparsed, if_pos rfl]
    rfl
  have member : missingDirectiveName "/ns/A.1.0.dsdl" ∈ (run listedFiles plainConfig
      (runAll listedFiles plainConfig .fresh [onDisk [fileWithText "@"]])
        (onDisk [])).2.diagnosticsByUri "file:///ns/A.1.0.dsdl" := by
    rw [diagnosticsByUri_run]
    apply Multiset.mem_filter.mpr
    constructor
    · unfold allDiagnostics
      dsimp only
      apply Multiset.mem_add.mpr
      left
      apply Multiset.mem_add.mpr
      left
      apply Multiset.mem_add.mpr
      right
      rw [values_bind_eq _ (Finset.subset_insert "/ns/A.1.0.dsdl" _), Multiset.mem_sum]
      refine ⟨"/ns/A.1.0.dsdl", Finset.mem_insert_self _ _, ?_⟩
      rw [Multiset.mem_coe]
      exact kept ▸ List.mem_singleton_self _
    · decide +kernel
  rw [stale] at member
  exact Multiset.notMem_zero _ member

end LlvmDsdl.LSP
