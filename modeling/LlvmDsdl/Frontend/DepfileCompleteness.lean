import LlvmDsdl.Frontend.DepfilePlanner
import LlvmDsdl.Semantics.Consultation

/-!
Contract: what the planner's answers name of what an analysis consults.

Owns: the definitions an accepted analysis consults, as the references in the
texts; the definitions the planner reaches, as the composite fields of the
resolved module; and that the paths of a definition cover all it consults
exactly when the types its attributes are read from are reached through fields.
-/

namespace LlvmDsdl.Frontend

open Semantics Library Library.TaskSystem

section Consulted

variable {env : AnalysisHost} {options : AnalyzeOptions} {module : ASTModule}

def PlainCatalogue (options : AnalyzeOptions) : Prop :=
  ∀ definition ∈ options.externalSemanticCatalog, PlainConstants definition.request.constants

/-- The results on record answer for every definition of the module. -/
theorem answered_of_clean (catalogue : PlainCatalogue options)
    (clean : VisitsClean env options module) :
    Answered (recordedResults env options module) (scopeOf env options module) where
  available key isLocal := recordedResults_of_local clean isLocal
  named key definition recorded := by
    obtain ⟨parsed, _, named, info, _⟩ := recorded_of_key clean recorded
    rw [info, named]
  plain key definition recorded := by
    obtain ⟨parsed, here, _, _, reports, runs, silent⟩ := recorded_of_key clean recorded
    rw [analysisTask, here] at runs
    have plain : (definitionTask (scopeOf env options module) (some parsed)).Holds
        (fun _ _ => True) fun outcome => Clean isError outcome.2 →
          ∀ definition, outcome.1 = some definition →
            PlainConstants definition.request.constants := by
      refine (establishes_plainDefinition parsed []).bind fun outcome holds => ?_
      rintro quiet definition same
      cases same
      exact holds.2 quiet
    exact runs.holds plain silent definition rfl
  external key definition found :=
    of_decide_eq_true
      (List.find?_some (p := fun other : SemanticDefinition => other.info.typeKey = key) found)
  externalPlain key definition found := catalogue definition (List.mem_of_find?_eq_some found)

def allReferences (parsed : ParsedDefinition) : List VersionedTypeExprAST :=
  (analyzedStatements parsed).flatMap StatementAST.references

/-- The types attributes are read from in the text of a definition. -/
def attributeReads (parsed : ParsedDefinition) : List VersionedTypeExprAST :=
  (analyzedStatements parsed).flatMap StatementAST.attributeReferences

/-- Some of the references in a definition's text name another of the module. -/
def Refers (env : AnalysisHost) (options : AnalyzeOptions) (module : ASTModule)
    (references : ParsedDefinition → List VersionedTypeExprAST) (first second : ParsedDefinition) :
    Prop :=
  second ∈ module ∧
    second.info.typeKey ∈ keysOf (scopeOf env options module) first.info (references first)

/-- What the analysis of a definition asks for, and the composites its fields are of. -/
theorem analysed_definition (catalogue : PlainCatalogue options)
    (clean : VisitsClean env options module) {parsed : ParsedDefinition}
    (member : parsed ∈ module) :
    let answers := recordedResults env options module
    let query := analyzeDefinition (scopeOf env options module) parsed []
    query.asked answers = keysOf (scopeOf env options module) parsed.info (allReferences parsed) ∧
      definitionKeys (query.eval answers).1 = (analyzedStatements parsed).flatMap
        (StatementAST.referencedKeys (scopeOf env options module) parsed.info) := by
  have asks : Asks (recordedResults env options module) True
      (analyzeDefinition (scopeOf env options module) parsed)
      (keysOf (scopeOf env options module) parsed.info (allReferences parsed)) _ :=
    asks_analyzeDefinition (answered_of_clean catalogue clean) parsed
  exact (asks []).2 trivial (accepted_definition clean member)

theorem find?_key_iff (distinct : DistinctKeys module) {key : TypeKey} {parsed : ParsedDefinition} :
    module.find? (fun other => other.info.typeKey = key) = some parsed ↔
      parsed ∈ module ∧ parsed.info.typeKey = key := by
  constructor
  · intro found
    exact ⟨List.mem_of_find?_eq_some found, of_decide_eq_true
      (List.find?_some (p := fun other : ParsedDefinition => other.info.typeKey = key) found)⟩
  · rintro ⟨member, named⟩
    have listed : (module.find? fun other => other.info.typeKey = key).isSome = true :=
      List.find?_isSome.mpr ⟨parsed, member, decide_eq_true named⟩
    obtain ⟨other, found⟩ := Option.isSome_iff_exists.mp listed
    have otherNamed := of_decide_eq_true
      (List.find?_some (p := fun other : ParsedDefinition => other.info.typeKey = key) found)
    rw [found, List.inj_on_of_nodup_map distinct (List.mem_of_find?_eq_some found) member
      (otherNamed.trans named.symm)]

theorem resolveDefinitionIndex_eq_iff (distinct : DistinctKeys module) {key : TypeKey} {j : ℕ}
    {parsed : ParsedDefinition} (there : module[j]? = some parsed) :
    resolveDefinitionIndex module key = j ↔ parsed.info.typeKey = key := by
  have located : module[resolveDefinitionIndex module key]? = some parsed ↔
      parsed ∈ module ∧ parsed.info.typeKey = key := by
    rw [definitionAt]
    exact find?_key_iff distinct
  constructor
  · rintro rfl
    exact (located.mp there).2
  · intro named
    have found := located.mpr ⟨List.mem_of_getElem? there, named⟩
    have inside := (List.getElem?_eq_some_iff.mp found).1
    exact (List.getElem?_inj inside (List.Nodup.of_map _ distinct)).mp (found.trans there.symm)

theorem isLocal_of_mem_keysOf {scope : Scope} {owner : DiscoveredDefinition} {key : TypeKey}
    {references : List VersionedTypeExprAST} (member : key ∈ keysOf scope owner references) :
    scope.isLocal key = true := by
  obtain ⟨type, _, asked⟩ := List.mem_flatMap.mp member
  rw [askedKeys] at asked
  split at asked
  · rename_i found
    rw [List.mem_singleton.mp asked]
    exact resolvedReference_local found
  · exact absurd asked List.not_mem_nil

theorem asks_iff_refers (distinct : DistinctKeys module) (catalogue : PlainCatalogue options)
    (clean : VisitsClean env options module) {i j : ℕ} {first : ParsedDefinition}
    (here : module[i]? = some first) :
    (analysisSystem env options module).Asks isError i j ↔
      ∃ second, module[j]? = some second ∧ Refers env options module allReferences first second := by
  obtain ⟨definition, _, _, reports, runs, _⟩ := recorded_of_clean clean here
  have reached (key : TypeKey) :
      (∃ resume, (analysisSystem env options module).Reaches isError
          ((analysisSystem env options module).task i) (.ask key resume)) ↔
        key ∈ ((analysisSystem env options module).task i).asked
          (recordedResults env options module) :=
    runs.reaches_iff fun key result => recordedResults_of_yields clean
  have asked : ((analysisSystem env options module).task i).asked
      (recordedResults env options module) =
        keysOf (scopeOf env options module) first.info (allReferences first) := by
    rw [analysisTask, here, definitionTask, Query.asked_bind]
    exact (List.append_nil _).trans
      (analysed_definition catalogue clean (List.mem_of_getElem? here)).1
  simp only [asked] at reached
  constructor
  · rintro ⟨key, resume, path, located⟩
    have named := (reached key).mp ⟨resume, path⟩
    obtain ⟨second, member, same⟩ := List.any_eq_true.mp (isLocal_of_mem_keysOf named)
    have same := of_decide_eq_true same
    have there := (find?_key_iff distinct).mpr ⟨member, same⟩
    rw [← definitionAt] at there
    refine ⟨second, located ▸ there, member, ?_⟩
    rw [same]
    exact named
  · rintro ⟨second, there, _, named⟩
    obtain ⟨resume, path⟩ := (reached second.info.typeKey).mpr named
    exact ⟨_, resume, path, (resolveDefinitionIndex_eq_iff distinct there).mpr rfl⟩

theorem consults_iff_refers (distinct : DistinctKeys module) (catalogue : PlainCatalogue options)
    (clean : VisitsClean env options module) {i j : ℕ} {first second : ParsedDefinition}
    (here : module[i]? = some first) (there : module[j]? = some second) :
    Relation.ReflTransGen ((analysisSystem env options module).Asks isError) i j ↔
      Relation.ReflTransGen (Refers env options module allReferences) first second := by
  constructor
  · intro path
    have named : ∃ found, module[j]? = some found ∧
        Relation.ReflTransGen (Refers env options module allReferences) first found := by
      clear there
      induction path with
      | refl => exact ⟨first, here, Relation.ReflTransGen.refl⟩
      | tail before asks ih =>
          obtain ⟨middle, between, refers⟩ := ih
          obtain ⟨found, onward, last⟩ :=
            (asks_iff_refers distinct catalogue clean between).mp asks
          exact ⟨found, onward, refers.tail last⟩
    obtain ⟨found, onward, refers⟩ := named
    rw [there] at onward
    cases onward
    exact refers
  · intro path
    have located : ∃ position, module[position]? = some second ∧
        Relation.ReflTransGen ((analysisSystem env options module).Asks isError) i position := by
      clear there
      induction path with
      | refl => exact ⟨i, here, Relation.ReflTransGen.refl⟩
      | tail before refers ih =>
          obtain ⟨position, between, asks⟩ := ih
          obtain ⟨next, onward⟩ := List.mem_iff_getElem?.mp refers.1
          exact ⟨next, onward, asks.tail
            ((asks_iff_refers distinct catalogue clean between).mpr ⟨_, onward, refers⟩)⟩
    obtain ⟨position, onward, asks⟩ := located
    have inside := (List.getElem?_eq_some_iff.mp onward).1
    have same := (List.getElem?_inj inside (List.Nodup.of_map _ distinct)).mp
      (onward.trans there.symm)
    exact same ▸ asks

def fieldTypes (parsed : ParsedDefinition) : List VersionedTypeExprAST :=
  (analyzedStatements parsed).flatMap StatementAST.fieldReferences

theorem refers_iff {first second : ParsedDefinition} :
    Refers env options module allReferences first second ↔
      Refers env options module fieldTypes first second ∨
        Refers env options module attributeReads first second := by
  have split : ∀ key, key ∈ keysOf (scopeOf env options module) first.info (allReferences first) ↔
      key ∈ keysOf (scopeOf env options module) first.info (fieldTypes first) ∨
        key ∈ keysOf (scopeOf env options module) first.info (attributeReads first) := by
    intro key
    simp only [keysOf, allReferences, fieldTypes, attributeReads, List.mem_flatMap,
      StatementAST.references, List.mem_append]
    constructor
    · rintro ⟨type, ⟨stmt, member, inField | inAttribute⟩, named⟩
      · exact Or.inl ⟨type, ⟨stmt, member, inField⟩, named⟩
      · exact Or.inr ⟨type, ⟨stmt, member, inAttribute⟩, named⟩
    · rintro (⟨type, ⟨stmt, member, inField⟩, named⟩ | ⟨type, ⟨stmt, member, inAttribute⟩, named⟩)
      · exact ⟨type, ⟨stmt, member, Or.inl inField⟩, named⟩
      · exact ⟨type, ⟨stmt, member, Or.inr inAttribute⟩, named⟩
  rw [Refers, Refers, Refers, split, and_or_left]

/-- What is referred to is referred to through fields alone, or through the fields of a type
that an attribute is read from. -/
theorem refers_cases {first second : ParsedDefinition}
    (path : Relation.ReflTransGen (Refers env options module allReferences) first second) :
    Relation.ReflTransGen (Refers env options module fieldTypes) first second ∨
      ∃ reader read, Relation.ReflTransGen (Refers env options module allReferences) first reader ∧
        Refers env options module attributeReads reader read ∧
          Relation.ReflTransGen (Refers env options module fieldTypes) read second := by
  induction path with
  | refl => exact Or.inl Relation.ReflTransGen.refl
  | @tail reader last before refers ih =>
      rcases refers_iff.mp refers with inField | inAttribute
      · rcases ih with fields | ⟨reader, read, reached, reads, fields⟩
        · exact Or.inl (fields.tail inField)
        · exact Or.inr ⟨reader, read, reached, reads, fields.tail inField⟩
      · exact Or.inr ⟨reader, last, before, inAttribute, Relation.ReflTransGen.refl⟩

end Consulted

section Resolved

theorem fieldKeys_markViews (index : AliasIndex) (sec : SemanticSection) :
    fieldKeys (index.markViews sec).fields = fieldKeys sec.fields := by
  rw [AliasIndex.markViews]
  split
  · rfl
  · rw [fieldKeys, List.filterMap_map, fieldKeys]
    congr 1
    funext field
    simp only [Function.comp, AliasIndex.markField]
    split <;> rfl

theorem definitionKeys_markModule (index : AliasIndex) (views : Bool) :
    (markModule index views).map (fun definition => (definition.info, definitionKeys definition)) =
      index.module.map fun definition => (definition.info, definitionKeys definition) := by
  rw [markModule]
  split
  · rw [List.map_map]
    refine List.map_congr_left fun definition _ => ?_
    simp only [Function.comp, definitionKeys, fieldKeys_markViews]
    cases definition.response with
    | none => rfl
    | some response => simp only [Option.map_some, fieldKeys_markViews]
  · rfl

/-- Layout verdicts change neither headers nor the composites of fields. -/
theorem definitionKeys_annotateAliasLayout (definitions catalogue : SemanticModule) (views : Bool) :
    (annotateAliasLayout definitions catalogue views).map
        (fun definition => (definition.info, definitionKeys definition)) =
      definitions.map fun definition => (definition.info, definitionKeys definition) := by
  rw [← definitionKeys_markModule ⟨definitions, catalogue⟩ views, annotateAliasLayout]
  refine List.ext_getElem? fun position => ?_
  rw [List.getElem?_map, List.getElem?_map, List.getElem?_mapIdx, Option.map_map]
  congr 1
  funext definition
  simp only [Function.comp, definitionKeys]
  cases definition.response with
  | none => rfl
  | some response => rfl

variable {env : AnalysisHost} {options : AnalyzeOptions} {module : ASTModule}
  {definitions : SemanticModule}

/-- The resolved definition of a parsed one: its fields are of the composites its text names. -/
theorem resolved_of_parsed (catalogue : PlainCatalogue options)
    (accepted : analyze env options module = some definitions) {parsed : ParsedDefinition}
    (member : parsed ∈ module) :
    ∃ definition ∈ definitions, definition.info = parsed.info ∧
      definitionKeys definition = (analyzedStatements parsed).flatMap
        (StatementAST.referencedKeys (scopeOf env options module) parsed.info) := by
  have ⟨clean, _, _, annotated⟩ := analyze_eq_some.mp accepted
  obtain ⟨position, here⟩ := List.mem_iff_getElem?.mp member
  obtain ⟨definition, info, mark, yields⟩ := recorded_of_clean clean here
  have keys : definitionKeys definition = (analyzedStatements parsed).flatMap
      (StatementAST.referencedKeys (scopeOf env options module) parsed.info) := by
    rw [← (analysed_definition catalogue clean member).2]
    obtain ⟨reports, _, run⟩ := run_of_yields clean here yields
    exact congrArg (fun outcome => definitionKeys outcome.1) run.symm
  have listed : definition ∈ analyzedDefinitions env options module := by
    refine List.mem_filterMap.mpr ⟨position, ?_, ?_⟩
    · exact List.mem_range.mpr (List.getElem?_eq_some_iff.mp here).1
    · rw [mark, resultOf]
  have pairs := definitionKeys_annotateAliasLayout (analyzedDefinitions env options module)
    options.externalSemanticCatalog options.aliasableViews
  have pair : (definition.info, definitionKeys definition) ∈
      (annotatedDefinitions env options module).map
        fun definition => (definition.info, definitionKeys definition) := by
    rw [annotatedDefinitions, pairs]
    exact List.mem_map_of_mem listed
  obtain ⟨other, otherMember, same⟩ := List.mem_map.mp pair
  rw [Prod.mk.injEq] at same
  refine ⟨other, annotated ▸ otherMember, same.1.trans info, same.2.trans keys⟩

theorem accepted_info (accepted : analyze env options module = some definitions) :
    definitions.map SemanticDefinition.info = module.map ParsedDefinition.info := by
  have ⟨clean, _, _, annotated⟩ := analyze_eq_some.mp accepted
  have pairs := congrArg (List.map Prod.fst)
    (definitionKeys_annotateAliasLayout (analyzedDefinitions env options module)
      options.externalSemanticCatalog options.aliasableViews)
  rw [List.map_map, List.map_map] at pairs
  rw [← annotated, annotatedDefinitions]
  exact pairs.trans (analyzedDefinitions_info clean)

end Resolved

section Planner

variable {normalizePathForDepfile : String → String} {semantic : SemanticModule}
  {toolchainStampPath : String}

/-- Keep a definition unless its key is taken. -/
def keepFirst (kept : SemanticModule) (definition : SemanticDefinition) : SemanticModule :=
  if kept.any fun other =>
      makeTypeKey other.info.typeKey = makeTypeKey definition.info.typeKey then kept
  else kept ++ [definition]

theorem definitionsByIndex_eq (definitions : SemanticModule) :
    definitionsByIndex definitions = definitions.foldl keepFirst [] := rfl

theorem keepFirst_of_taken {kept : SemanticModule} {definition : SemanticDefinition}
    (taken : definition.info.typeKey ∈ kept.map fun other => other.info.typeKey) :
    keepFirst kept definition = kept := by
  obtain ⟨other, member, same⟩ := List.mem_map.mp taken
  rw [keepFirst, if_pos (List.any_eq_true.mpr ⟨other, member, by simp [same]⟩)]

theorem keepFirst_of_new {kept : SemanticModule} {definition : SemanticDefinition}
    (new : definition.info.typeKey ∉ kept.map fun other => other.info.typeKey) :
    keepFirst kept definition = kept ++ [definition] := by
  rw [keepFirst, if_neg]
  rw [List.any_eq_true]
  rintro ⟨other, member, same⟩
  exact new (List.mem_map.mpr ⟨other, member, makeTypeKey_injective (of_decide_eq_true same)⟩)

theorem distinct_keepFirst {kept : SemanticModule} (distinct : DistinctDefinitions kept)
    (definition : SemanticDefinition) : DistinctDefinitions (keepFirst kept definition) := by
  by_cases taken : definition.info.typeKey ∈ kept.map fun other => other.info.typeKey
  · rw [keepFirst_of_taken taken]
    exact distinct
  · rw [keepFirst_of_new taken, DistinctDefinitions, List.map_append]
    refine List.nodup_append.mpr ⟨distinct, by simp, ?_⟩
    intro key member other single
    rw [List.map_singleton, List.mem_singleton] at single
    rintro rfl
    exact taken (single ▸ member)

theorem distinct_foldl (definitions : SemanticModule) {kept : SemanticModule}
    (distinct : DistinctDefinitions kept) :
    DistinctDefinitions (definitions.foldl keepFirst kept) := by
  induction definitions generalizing kept with
  | nil => exact distinct
  | cons definition rest ih =>
      exact ih (distinct_keepFirst distinct definition)

theorem distinct_definitionsByIndex (definitions : SemanticModule) :
    DistinctDefinitions (definitionsByIndex definitions) :=
  distinct_foldl definitions List.nodup_nil

theorem subset_foldl_keepFirst (definitions kept : SemanticModule) :
    kept ⊆ definitions.foldl keepFirst kept := by
  induction definitions generalizing kept with
  | nil => exact List.Subset.refl kept
  | cons definition rest ih =>
      have grown : kept ⊆ keepFirst kept definition := by
        rw [keepFirst]
        split
        · exact List.Subset.refl kept
        · exact List.subset_append_left _ _
      exact List.Subset.trans grown (ih _)

theorem foldl_keepFirst_of_distinct (definitions kept : SemanticModule)
    (distinct : DistinctDefinitions (kept ++ definitions)) :
    definitions.foldl keepFirst kept = kept ++ definitions := by
  induction definitions generalizing kept with
  | nil => rw [List.foldl_nil, List.append_nil]
  | cons definition rest ih =>
      have new : definition.info.typeKey ∉ kept.map fun other => other.info.typeKey := by
        intro taken
        rw [DistinctDefinitions, List.map_append, List.nodup_append] at distinct
        exact distinct.2.2 _ taken _ List.mem_cons_self rfl
      have joined : kept ++ definition :: rest = kept ++ [definition] ++ rest := by simp
      rw [List.foldl_cons, keepFirst_of_new new, joined]
      rw [joined] at distinct
      exact ih _ distinct

theorem mem_definitionsByIndex {definitions : SemanticModule} (distinct : DistinctDefinitions definitions)
    (others : SemanticModule) {definition : SemanticDefinition} (member : definition ∈ definitions) :
    definition ∈ definitionsByIndex (definitions ++ others) := by
  rw [definitionsByIndex_eq, List.foldl_append, foldl_keepFirst_of_distinct definitions [] distinct]
  exact subset_foldl_keepFirst others _ member

theorem indexOfTypeKey_eq_some {kept : SemanticModule} (distinct : DistinctDefinitions kept)
    {key : TypeKey} {position : ℕ} :
    indexOfTypeKey kept (makeTypeKey key) = some position ↔
      ∃ definition, kept[position]? = some definition ∧ definition.info.typeKey = key := by
  rw [indexOfTypeKey, List.findIdx?_eq_some_iff_getElem]
  constructor
  · rintro ⟨inside, same, -⟩
    exact ⟨kept[position], List.getElem?_eq_getElem inside,
      makeTypeKey_injective (of_decide_eq_true same)⟩
  · rintro ⟨definition, here, rfl⟩
    obtain ⟨inside, rfl⟩ := List.getElem?_eq_some_iff.mp here
    refine ⟨inside, decide_eq_true rfl, fun earlier before => ?_⟩
    intro same
    have earlierInside : earlier < kept.length := before.trans inside
    have named := makeTypeKey_injective (of_decide_eq_true same)
    have equal : (kept.map fun other => other.info.typeKey)[earlier]? =
        (kept.map fun other => other.info.typeKey)[position]? := by
      rw [List.getElem?_map, List.getElem?_map, List.getElem?_eq_getElem earlierInside,
        List.getElem?_eq_getElem inside, Option.map_some, Option.map_some, named]
    have within : earlier < (kept.map fun other => other.info.typeKey).length := by
      rw [List.length_map]
      exact earlierInside
    have position := (List.getElem?_inj within distinct).mp equal
    omega

def FieldOf (kept : SemanticModule) (first second : TypeKey) : Prop :=
  ∃ definition ∈ kept, definition.info.typeKey = first ∧ second ∈ definitionKeys definition ∧
    second ∈ kept.map fun other => other.info.typeKey

/-- The prerequisite that stands for a definition's file. -/
def prerequisite (normalizePathForDepfile : String → String) (toolchainStampPath filePath : String) :
    Option String :=
  let stamp := if toolchainStampPath = "" then "" else normalizePathForDepfile toolchainStampPath
  if isEmbeddedUavcanSyntheticPath filePath then if stamp = "" then none else some stamp
  else some (normalizePathForDepfile filePath)

theorem mem_sectionDependencyIndexes {kept : SemanticModule} (distinct : DistinctDefinitions kept)
    {sec : SemanticSection} {next : ℕ} :
    next ∈ sectionDependencyIndexes (indexOfTypeKey kept) sec ↔
      ∃ other, kept[next]? = some other ∧ other.info.typeKey ∈ fieldKeys sec.fields := by
  simp only [sectionDependencyIndexes, fieldKeys, TypeLayout.key, List.mem_filterMap,
    Option.bind_eq_some_iff, Option.map_eq_some_iff, indexOfTypeKey_eq_some distinct]
  constructor
  · rintro ⟨field, member, ref, composite, other, here, named⟩
    exact ⟨other, here, field, member, ref, composite, named.symm⟩
  · rintro ⟨other, here, field, member, ref, composite, named⟩
    exact ⟨field, member, ref, composite, other, here, named.symm⟩

theorem mem_definitionDependencyIndexes {kept : SemanticModule}
    (distinct : DistinctDefinitions kept) {definition : SemanticDefinition} {next : ℕ} :
    next ∈ definitionDependencyIndexes (indexOfTypeKey kept) definition ↔
      ∃ other, kept[next]? = some other ∧ other.info.typeKey ∈ definitionKeys definition := by
  rw [definitionDependencyIndexes, mem_sortUnique, List.mem_append,
    mem_sectionDependencyIndexes distinct, definitionKeys]
  cases definition.response with
  | none => simp
  | some response =>
      simp only [Option.map_some, Option.getD_some, mem_sectionDependencyIndexes distinct,
        List.mem_append]
      rw [← exists_or]
      simp only [and_or_left]

theorem mem_dependencyIndexes {node next : ℕ} :
    next ∈ (plannerIndex normalizePathForDepfile semantic toolchainStampPath).dependencyIndexes
        node ↔
      ∃ definition other, (definitionsByIndex semantic)[node]? = some definition ∧
        (definitionsByIndex semantic)[next]? = some other ∧
          other.info.typeKey ∈ definitionKeys definition := by
  rw [PlannerIndex.dependencyIndexes, plannerIndex]
  simp only [List.getElem?_map, Option.map_map]
  cases here : (definitionsByIndex semantic)[node]? with
  | none => simp
  | some definition =>
      simp only [Option.map_some, Option.getD_some, Function.comp_apply, Option.some.injEq,
        mem_definitionDependencyIndexes (distinct_definitionsByIndex semantic)]
      constructor
      · rintro ⟨other, there, named⟩
        exact ⟨definition, other, rfl, there, named⟩
      · rintro ⟨_, other, rfl, there, named⟩
        exact ⟨other, there, named⟩

theorem bounded_plannerIndex :
    (plannerIndex normalizePathForDepfile semantic toolchainStampPath).Bounded := by
  intro node next member
  obtain ⟨_, other, _, there, _⟩ := mem_dependencyIndexes.mp member
  have inside := (List.getElem?_eq_some_iff.mp there).1
  rw [plannerIndex, List.length_map]
  exact inside

/-- The nodes a node reaches are the definitions reached through fields. -/
theorem reaches_iff_fields {root node : ℕ} {first : SemanticDefinition}
    (here : (definitionsByIndex semantic)[root]? = some first) :
    (plannerIndex normalizePathForDepfile semantic toolchainStampPath).Reaches root node ↔
      ∃ second, (definitionsByIndex semantic)[node]? = some second ∧
        Relation.ReflTransGen (FieldOf (definitionsByIndex semantic)) first.info.typeKey
          second.info.typeKey := by
  constructor
  · intro path
    induction path with
    | refl => exact ⟨first, here, Relation.ReflTransGen.refl⟩
    | tail before edge ih =>
        obtain ⟨middle, between, fields⟩ := ih
        obtain ⟨definition, other, same, there, named⟩ := mem_dependencyIndexes.mp edge
        rw [between] at same
        cases same
        exact ⟨other, there, fields.tail ⟨middle, List.mem_of_getElem? between, rfl, named,
          List.mem_map_of_mem (List.mem_of_getElem? there)⟩⟩
  · rintro ⟨second, there, path⟩
    have distinct := distinct_definitionsByIndex semantic
    have named : ∀ key, Relation.ReflTransGen (FieldOf (definitionsByIndex semantic))
        first.info.typeKey key → ∀ position found,
          (definitionsByIndex semantic)[position]? = some found → found.info.typeKey = key →
            (plannerIndex normalizePathForDepfile semantic toolchainStampPath).Reaches root
              position := by
      intro key fields
      induction fields with
      | refl =>
          intro position found position_ same
          have sought := (indexOfTypeKey_eq_some distinct).mpr ⟨found, position_, same⟩
          have start := (indexOfTypeKey_eq_some distinct).mpr ⟨first, here, rfl⟩
          rw [start] at sought
          cases sought
          exact Relation.ReflTransGen.refl
      | tail before edge ih =>
          intro position found position_ same
          obtain ⟨definition, member, keyed, listed, -⟩ := edge
          obtain ⟨between, middle⟩ := List.mem_iff_getElem?.mp member
          refine (ih between definition middle keyed).tail ?_
          exact mem_dependencyIndexes.mpr ⟨definition, found, middle, position_, same ▸ listed⟩
    exact named _ path node second there rfl

/-- What a node contributes is what stands for its definition's file. -/
theorem prerequisite_eq_some_iff {node : ℕ} {definition : SemanticDefinition}
    (here : (definitionsByIndex semantic)[node]? = some definition) {path : String} :
    let index := plannerIndex normalizePathForDepfile semantic toolchainStampPath
    prerequisite normalizePathForDepfile toolchainStampPath definition.info.filePath = some path ↔
      index.inputPath node = some path ∨
        index.fromEmbeddedCatalog node = true ∧ index.toolchainStampPath ≠ "" ∧
          path = index.toolchainStampPath := by
  simp only [PlannerIndex.inputPath, PlannerIndex.fromEmbeddedCatalog, plannerIndex,
    List.getElem?_map, here, Option.map_some, Option.bind_some, Option.getD_some, prerequisite]
  generalize (if toolchainStampPath = "" then ""
    else normalizePathForDepfile toolchainStampPath) = stamp
  cases isEmbeddedUavcanSyntheticPath definition.info.filePath with
  | false => simp
  | true =>
      by_cases empty : stamp = ""
      · simp [empty]
      · simp [empty, eq_comm]

/-- A path among those of the definitions a key reaches through fields. -/
def Covered (normalizePathForDepfile : String → String) (toolchainStampPath : String)
    (kept : SemanticModule) (key : TypeKey) (path : String) : Prop :=
  ∃ found ∈ kept, Relation.ReflTransGen (FieldOf kept) key found.info.typeKey ∧
    prerequisite normalizePathForDepfile toolchainStampPath found.info.filePath = some path

/-- **What the planner answers for a key**, whatever was asked before. -/
theorem mem_depsForTypeKey_iff (queries : List PlannerIndex.Query) {definition : SemanticDefinition}
    (member : definition ∈ definitionsByIndex semantic) {path : String} :
    let index := plannerIndex normalizePathForDepfile semantic toolchainStampPath
    path ∈ (index.depsForTypeKey (index.afterQueries queries)
        (makeTypeKey definition.info.typeKey)).1 ↔
      Covered normalizePathForDepfile toolchainStampPath (definitionsByIndex semantic)
        definition.info.typeKey path := by
  dsimp only
  obtain ⟨root, here⟩ := List.mem_iff_getElem?.mp member
  have found : (plannerIndex normalizePathForDepfile semantic
      toolchainStampPath).nodeIndexByTypeKey (makeTypeKey definition.info.typeKey) = some root :=
    (indexOfTypeKey_eq_some (distinct_definitionsByIndex semantic)).mpr ⟨definition, here, rfl⟩
  have inside : root < (plannerIndex normalizePathForDepfile semantic
      toolchainStampPath).nodes.length := by
    rw [plannerIndex, List.length_map]
    exact (List.getElem?_eq_some_iff.mp here).1
  rw [PlannerIndex.depsForTypeKey_afterQueries queries found,
    PlannerIndex.mem_pathsOf_iff bounded_plannerIndex inside, Covered]
  simp only [reaches_iff_fields here]
  constructor
  · rintro (⟨node, ⟨second, there, fields⟩, named⟩ |
      ⟨⟨node, ⟨second, there, fields⟩, drawn⟩, stamped, same⟩)
    · exact ⟨second, List.mem_of_getElem? there, fields,
        (prerequisite_eq_some_iff there).mpr (Or.inl named)⟩
    · exact ⟨second, List.mem_of_getElem? there, fields,
        (prerequisite_eq_some_iff there).mpr (Or.inr ⟨drawn, stamped, same⟩)⟩
  · rintro ⟨second, member, fields, stands⟩
    obtain ⟨node, there⟩ := List.mem_iff_getElem?.mp member
    rcases (prerequisite_eq_some_iff there).mp stands with named | ⟨drawn, stamped, same⟩
    · exact Or.inl ⟨node, ⟨second, there, fields⟩, named⟩
    · exact Or.inr ⟨⟨node, ⟨second, there, fields⟩, drawn⟩, stamped, same⟩

end Planner

section Completeness

variable {env : AnalysisHost} {options : AnalyzeOptions} {module : ASTModule}
  {definitions : SemanticModule}

/-- The types attributes are read from, with those reached from them through fields, lie in files
of definitions that a definition reaches through fields. -/
def ReadsCovered (env : AnalysisHost) (options : AnalyzeOptions) (module : ASTModule)
    (normalizePathForDepfile : String → String) (toolchainStampPath : String)
    (kept : SemanticModule) (parsed : ParsedDefinition) : Prop :=
  ∀ reader read other,
    Relation.ReflTransGen (Refers env options module allReferences) parsed reader →
      Refers env options module attributeReads reader read →
        Relation.ReflTransGen (Refers env options module fieldTypes) read other →
          ∀ path, prerequisite normalizePathForDepfile toolchainStampPath other.info.filePath =
              some path →
            Covered normalizePathForDepfile toolchainStampPath kept parsed.info.typeKey path

/-- A field type that names a definition of the module is one of the composites of the fields. -/
theorem referencedKey_of_asked {scope : Scope} {owner : DiscoveredDefinition} {type : TypeExprAST}
    {key : TypeKey} (named : key ∈ keysOf scope owner (scalarReference type)) :
    referencedKey scope owner type = some key := by
  rw [scalarReference] at named
  rw [referencedKey]
  split at named
  · rename_i versioned isVersioned
    rw [keysOf_singleton, askedKeys] at named
    split at named
    · rename_i found
      rw [List.mem_singleton.mp named, found]
      rfl
    · exact absurd named List.not_mem_nil
  · exact absurd named List.not_mem_nil

theorem keysOf_fieldTypes {scope : Scope} {parsed : ParsedDefinition} {key : TypeKey}
    (named : key ∈ keysOf scope parsed.info (fieldTypes parsed)) :
    key ∈ (analyzedStatements parsed).flatMap
      (StatementAST.referencedKeys scope parsed.info) := by
  obtain ⟨type, listed, asked⟩ := List.mem_flatMap.mp named
  obtain ⟨stmt, member, reference⟩ := List.mem_flatMap.mp listed
  refine List.mem_flatMap.mpr ⟨stmt, member, ?_⟩
  have inStatement : key ∈ keysOf scope parsed.info (StatementAST.fieldReferences stmt) :=
    List.mem_flatMap.mpr ⟨type, reference, asked⟩
  cases stmt with
  | field f =>
      rw [StatementAST.referencedKeys, Option.mem_toList]
      exact referencedKey_of_asked inStatement
  | _ => exact absurd inStatement List.not_mem_nil

/-- The definitions of an accepted module have nodes of their own. -/
theorem resolved_listed (distinct : DistinctKeys module) (catalogue : PlainCatalogue options)
    (accepted : analyze env options module = some definitions) (others : SemanticModule)
    {parsed : ParsedDefinition} (member : parsed ∈ module) :
    ∃ definition ∈ definitionsByIndex (definitions ++ others), definition.info = parsed.info ∧
      definitionKeys definition = (analyzedStatements parsed).flatMap
        (StatementAST.referencedKeys (scopeOf env options module) parsed.info) := by
  obtain ⟨definition, listed, info, keys⟩ := resolved_of_parsed catalogue accepted member
  have separate : DistinctDefinitions definitions := by
    have infos := congrArg (List.map DiscoveredDefinition.typeKey) (accepted_info accepted)
    rw [List.map_map, List.map_map] at infos
    have same : (definitions.map fun definition => definition.info.typeKey) =
        module.map fun parsed => parsed.info.typeKey := infos
    rw [DistinctDefinitions, same]
    exact distinct
  exact ⟨definition, mem_definitionsByIndex separate others listed, info, keys⟩

/-- What the text names as the type of a field is a composite field of the resolved module. -/
theorem fieldOf_of_refers (distinct : DistinctKeys module) (catalogue : PlainCatalogue options)
    (accepted : analyze env options module = some definitions) (others : SemanticModule)
    {first second : ParsedDefinition} (member : first ∈ module)
    (refers : Refers env options module fieldTypes first second) :
    FieldOf (definitionsByIndex (definitions ++ others)) first.info.typeKey
      second.info.typeKey := by
  obtain ⟨definition, listed, info, keys⟩ :=
    resolved_listed distinct catalogue accepted others member
  obtain ⟨other, otherListed, otherInfo, _⟩ :=
    resolved_listed distinct catalogue accepted others refers.1
  refine ⟨definition, listed, congrArg _ info, ?_, ?_⟩
  · rw [keys]
    exact keysOf_fieldTypes refers.2
  · rw [← otherInfo]
    exact List.mem_map_of_mem otherListed

theorem fields_of_refers (distinct : DistinctKeys module) (catalogue : PlainCatalogue options)
    (accepted : analyze env options module = some definitions) (others : SemanticModule)
    {first second : ParsedDefinition} (member : first ∈ module)
    (path : Relation.ReflTransGen (Refers env options module fieldTypes) first second) :
    second ∈ module ∧ Relation.ReflTransGen (FieldOf (definitionsByIndex (definitions ++ others)))
      first.info.typeKey second.info.typeKey := by
  induction path with
  | refl => exact ⟨member, Relation.ReflTransGen.refl⟩
  | tail before refers ih =>
      obtain ⟨inside, fields⟩ := ih
      exact ⟨refers.1, fields.tail
        (fieldOf_of_refers distinct catalogue accepted others inside refers)⟩

/-- **Completeness of the dependency paths.** In an accepted module the paths the planner returns
for a definition, after any queries, hold what stands for the file of every definition its analysis
consults, exactly when the types attributes are read from lie in files reached through fields. -/
theorem depsForTypeKey_complete_iff (distinct : DistinctKeys module)
    (catalogue : PlainCatalogue options)
    (accepted : analyze env options module = some definitions)
    (normalizePathForDepfile : String → String) (toolchainStampPath : String)
    (others : SemanticModule) (queries : List PlannerIndex.Query) {position : ℕ}
    {parsed : ParsedDefinition} (here : module[position]? = some parsed) :
    let index := plannerIndex normalizePathForDepfile (definitions ++ others) toolchainStampPath
    (∀ other consulted, module[other]? = some consulted →
        Relation.ReflTransGen ((analysisSystem env options module).Asks isError) position other →
          ∀ path, prerequisite normalizePathForDepfile toolchainStampPath consulted.info.filePath =
              some path →
            path ∈ (index.depsForTypeKey (index.afterQueries queries)
              (makeTypeKey parsed.info.typeKey)).1) ↔
      ReadsCovered env options module normalizePathForDepfile toolchainStampPath
        (definitionsByIndex (definitions ++ others)) parsed := by
  dsimp only
  have clean : VisitsClean env options module := (analyze_eq_some.mp accepted).1
  have member := List.mem_of_getElem? here
  obtain ⟨definition, listed, info, _⟩ :=
    resolved_listed distinct catalogue accepted others member
  simp only [← info, mem_depsForTypeKey_iff queries listed]
  simp only [info]
  constructor
  · intro complete reader read other reached reads fields path stands
    have consulted : Relation.ReflTransGen (Refers env options module allReferences) parsed other :=
      (reached.tail (refers_iff.mpr (Or.inr reads))).trans
        (Relation.ReflTransGen.mono (fun _ _ refers => refers_iff.mpr (Or.inl refers)) _ _ fields)
    have inside := (fields_of_refers distinct catalogue accepted others reads.1 fields).1
    obtain ⟨there, found⟩ := List.mem_iff_getElem?.mp inside
    exact complete there other found
      ((consults_iff_refers distinct catalogue clean here found).mpr consulted) path stands
  · intro covered there consulted found asks path stands
    have refers := (consults_iff_refers distinct catalogue clean here found).mp asks
    rcases refers_cases refers with fields | ⟨reader, read, reached, reads, fields⟩
    · obtain ⟨inside, onward⟩ := fields_of_refers distinct catalogue accepted others member fields
      obtain ⟨resolved, resolvedListed, resolvedInfo, _⟩ :=
        resolved_listed distinct catalogue accepted others inside
      rw [← resolvedInfo] at stands onward
      exact ⟨resolved, resolvedListed, onward, stands⟩
    · exact covered reader read consulted reached reads fields path stands

/-! ### An attribute of a type that is no field -/

/-- A message whose only statement but its sealing is a constant: the extent of another. -/
def extentReader : ParsedDefinition :=
  ⟨⟨"/ns/A.1.0.dsdl", "ns.A", "A", ["ns"], 1, 0, none⟩, ⟨⟨"", 1, 1⟩,
    [.constant ⟨⟨"", 1, 1⟩, .mk ⟨"", 1, 1⟩ (.primitive ⟨.unsignedInt, .saturated, 8⟩) .none none,
      "SIZE", .binary ⟨"", 1, 14⟩ .attribute
        (.typeLiteral ⟨"", 1, 14⟩ (.mk ⟨"", 1, 14⟩ (.versioned ⟨["ns", "B"], 1, 0⟩) .none none))
        (.identifier ⟨"", 1, 23⟩ "_extent_")⟩,
      sealedDirectiveAt 2]⟩⟩

/-- The empty message whose extent is read. -/
def extentProvider : ParsedDefinition :=
  ⟨⟨"/ns/B.1.0.dsdl", "ns.B", "B", ["ns"], 1, 0, none⟩, ⟨⟨"", 1, 1⟩, [sealedDirectiveAt 1]⟩⟩

theorem extentReader_accepted :
    (analyze plainHost {} [extentReader, extentProvider]).isSome = true := by
  decide +kernel

theorem extentReader_refers :
    Refers plainHost {} [extentReader, extentProvider] attributeReads extentReader
      extentProvider := by
  refine ⟨by simp, ?_⟩
  decide +kernel

theorem distinctKeys_extentReader : DistinctKeys [extentReader, extentProvider] := by
  change List.Nodup [extentReader.info.typeKey, extentProvider.info.typeKey]
  decide

/-- A definition without composite fields covers its own file only. -/
theorem covered_of_no_fields {normalizePathForDepfile : String → String}
    {toolchainStampPath : String} {semantic : SemanticModule} {definition : SemanticDefinition}
    (member : definition ∈ definitionsByIndex semantic) (alone : definitionKeys definition = [])
    {path : String} (covered : Covered normalizePathForDepfile toolchainStampPath
      (definitionsByIndex semantic) definition.info.typeKey path) :
    prerequisite normalizePathForDepfile toolchainStampPath definition.info.filePath =
      some path := by
  have unique {other : SemanticDefinition} (listed : other ∈ definitionsByIndex semantic)
      (named : other.info.typeKey = definition.info.typeKey) : other = definition :=
    List.inj_on_of_nodup_map (distinct_definitionsByIndex semantic) listed member named
  obtain ⟨found, listed, fields, stands⟩ := covered
  rcases Relation.ReflTransGen.cases_head fields with same | ⟨key, ⟨first, kept, named, next, -⟩, -⟩
  · rw [← unique listed same.symm]
    exact stands
  · rw [unique kept named, alone] at next
    exact absurd next List.not_mem_nil

theorem extentReader_consults :
    Relation.ReflTransGen
      ((analysisSystem plainHost {} [extentReader, extentProvider]).Asks isError) 0 1 := by
  have ⟨definitions, accepted⟩ := Option.isSome_iff_exists.mp extentReader_accepted
  have clean : VisitsClean plainHost {} [extentReader, extentProvider] :=
    (analyze_eq_some.mp accepted).1
  have catalogue : PlainCatalogue {} := fun definition absent => absurd absent List.not_mem_nil
  have path := Relation.ReflTransGen.single (refers_iff.mpr (Or.inr extentReader_refers))
  exact (consults_iff_refers distinctKeys_extentReader catalogue clean rfl rfl).mpr path

/-- The file of a type whose extent is read is not among the paths. -/
theorem depsForTypeKey_incomplete :
    ∃ (module : ASTModule) (definitions : SemanticModule) (position other : ℕ)
      (parsed consulted : ParsedDefinition) (path : String),
      DistinctKeys module ∧ analyze plainHost {} module = some definitions ∧
        module[position]? = some parsed ∧ module[other]? = some consulted ∧
        Relation.ReflTransGen ((analysisSystem plainHost {} module).Asks isError) position other ∧
        prerequisite id "" consulted.info.filePath = some path ∧
        path ∉ ((plannerIndex id definitions "").depsForTypeKey .initial
          (makeTypeKey parsed.info.typeKey)).1 := by
  have ⟨definitions, accepted⟩ := Option.isSome_iff_exists.mp extentReader_accepted
  refine ⟨[extentReader, extentProvider], definitions, 0, 1, extentReader, extentProvider,
    "/ns/B.1.0.dsdl", distinctKeys_extentReader, accepted, rfl, rfl, extentReader_consults,
    by decide +kernel, ?_⟩
  have catalogue : PlainCatalogue {} := fun definition absent => absurd absent List.not_mem_nil
  obtain ⟨definition, listed, info, keys⟩ :=
    resolved_listed distinctKeys_extentReader catalogue accepted [] List.mem_cons_self
  have alone : definitionKeys definition = [] := by
    rw [keys]
    decide +kernel
  rw [List.append_nil] at listed
  intro named
  rw [← info] at named
  have covered := (mem_depsForTypeKey_iff [] listed).mp named
  have own := covered_of_no_fields listed alone covered
  rw [info] at own
  revert own
  decide +kernel

theorem depsForTypeKey_complete_iff_extentReader :
    ∃ definitions, analyze plainHost {} [extentReader, extentProvider] = some definitions ∧
      ((∀ other consulted, [extentReader, extentProvider][other]? = some consulted →
          Relation.ReflTransGen
            ((analysisSystem plainHost {} [extentReader, extentProvider]).Asks isError) 0 other →
            ∀ path, prerequisite id "" consulted.info.filePath = some path →
              path ∈ ((plannerIndex id (definitions ++ []) "").depsForTypeKey
                ((plannerIndex id (definitions ++ []) "").afterQueries [])
                (makeTypeKey extentReader.info.typeKey)).1) ↔
        ReadsCovered plainHost {} [extentReader, extentProvider] id ""
          (definitionsByIndex (definitions ++ [])) extentReader) := by
  have ⟨definitions, accepted⟩ := Option.isSome_iff_exists.mp extentReader_accepted
  have catalogue : PlainCatalogue {} := fun definition absent => absurd absent List.not_mem_nil
  exact ⟨definitions, accepted, depsForTypeKey_complete_iff distinctKeys_extentReader catalogue
    accepted id "" [] [] rfl⟩

end Completeness

end LlvmDsdl.Frontend
