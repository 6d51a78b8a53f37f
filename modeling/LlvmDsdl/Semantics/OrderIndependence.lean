import LlvmDsdl.Semantics.AliasCertificates
import LlvmDsdl.Semantics.MinorVersions

/-!
Contract: what the order of a module's definitions can change.

Owns: the outcome of an analysis without the reasons of failed layout verdicts,
the proof that each phase gives two orders the same outcome unless the depth limit
is passed, and a chain of references that one order accepts and another rejects.
-/

namespace LlvmDsdl.Semantics

open Frontend Library Library.TaskSystem

/-! ### Outcomes -/

def AliasLayoutVerdict.withoutReason (verdict : AliasLayoutVerdict) : AliasLayoutVerdict :=
  { holds := verdict.holds }

def SemanticSection.withoutReasons (sec : SemanticSection) : SemanticSection :=
  { sec with
    wireFlat := sec.wireFlat.withoutReason
    hostImage := sec.hostImage.withoutReason }

def SemanticDefinition.withoutReasons (definition : SemanticDefinition) : SemanticDefinition :=
  { definition with
    request := definition.request.withoutReasons
    response := definition.response.map SemanticSection.withoutReasons }

inductive SameOutcome : Option SemanticModule → Option SemanticModule → Prop where
  | accepted {first second : SemanticModule}
      (same : (first.map SemanticDefinition.withoutReasons).Perm
        (second.map SemanticDefinition.withoutReasons)) : SameOutcome (some first) (some second)
  | rejected : SameOutcome none none

/-- No two definitions have the same full name and version. -/
def DistinctKeys (module : ASTModule) : Prop :=
  (module.map fun parsed => parsed.info.typeKey).Nodup

/-- The depth limit is reported at the end of a chain of as many references. -/
def TooDeep (env : AnalysisHost) (options : AnalyzeOptions) (module : ASTModule) : Prop :=
  (analysisSystem env options module).Exceeded isError kMaxAnalysisDepth
    (analyzeAll env options module)

/-! ### Lists in two orders -/

/-- Maps that agree on equal elements give two orders of a list two orders of one result. -/
theorem perm_mapIdx {α γ : Type} {first second : List α} (perm : first.Perm second)
    {f g : ℕ → α → γ}
    (same : ∀ (i j : ℕ) (element : α), first[i]? = some element → second[j]? = some element →
      f i element = g j element) : (first.mapIdx f).Perm (second.mapIdx g) := by
  have choice : ∀ element, ∃ image, ∀ j : ℕ,
      second[j]? = some element → g j element = image := by
    intro element
    by_cases present : ∃ i : ℕ, first[i]? = some element
    · have ⟨i, here⟩ := present
      exact ⟨f i element, fun j there => (same i j element here there).symm⟩
    · refine ⟨g 0 element, fun j there => absurd ?_ present⟩
      exact List.mem_iff_getElem?.mp (perm.mem_iff.mpr (List.mem_of_getElem? there))
  have ⟨image, isImage⟩ := Classical.axiomOfChoice choice
  have left : first.mapIdx f = first.map image := by
    refine List.ext_getElem? fun i => ?_
    rw [List.getElem?_mapIdx, List.getElem?_map]
    cases here : first[i]? with
    | none => rfl
    | some element =>
        have ⟨j, there⟩ := List.mem_iff_getElem?.mp
          (perm.mem_iff.mp (List.mem_of_getElem? here))
        exact congrArg some ((same i j element here there).trans (isImage element j there))
  have right : second.mapIdx g = second.map image := by
    refine List.ext_getElem? fun j => ?_
    rw [List.getElem?_mapIdx, List.getElem?_map]
    cases there : second[j]? with
    | none => rfl
    | some element => exact congrArg some (isImage element j there)
  rw [left, right]
  exact perm.map image

theorem find?_perm {α κ : Type} [DecidableEq κ] {key : α → κ} {first second : List α}
    (perm : first.Perm second) (distinct : (first.map key).Nodup) (wanted : κ) :
    first.find? (fun element => key element = wanted) =
      second.find? fun element => key element = wanted := by
  have unique : ∀ a ∈ first, ∀ b ∈ first, key a = key b → a = b :=
    fun a aMember b bMember same => List.inj_on_of_nodup_map distinct aMember bMember same
  cases left : first.find? (fun element => key element = wanted) with
  | none =>
      rw [List.find?_eq_none] at left
      refine (List.find?_eq_none.mpr ?_).symm
      exact fun element member => left element (perm.mem_iff.mpr member)
  | some found =>
      have foundKey : key found = wanted :=
        of_decide_eq_true (List.find?_some (p := fun element => key element = wanted) left)
      have foundMember := List.mem_of_find?_eq_some left
      cases right : second.find? (fun element => key element = wanted) with
      | none =>
          rw [List.find?_eq_none] at right
          exact absurd (decide_eq_true foundKey) (right found (perm.mem_iff.mp foundMember))
      | some other =>
          have otherKey : key other = wanted :=
            of_decide_eq_true (List.find?_some (p := fun element => key element = wanted) right)
          have otherMember := perm.mem_iff.mpr (List.mem_of_find?_eq_some right)
          exact congrArg some (unique found foundMember other otherMember
            (foundKey.trans otherKey.symm))

theorem map_mapIdx {α γ δ : Type} (list : List α) (f : ℕ → α → γ) (g : γ → δ) :
    (list.mapIdx f).map g = list.mapIdx fun i element => g (f i element) := by
  refine List.ext_getElem? fun i => ?_
  rw [List.getElem?_map, List.getElem?_mapIdx, List.getElem?_mapIdx, Option.map_map]
  rfl

theorem range_filterMap {α γ : Type} (list : List α) (f : ℕ → Option γ) :
    (List.range list.length).filterMap f = (list.mapIdx fun i _ => f i).filterMap id := by
  have same : (List.range list.length).map f = list.mapIdx fun i _ => f i := by
    refine List.ext_getElem? fun i => ?_
    rw [List.getElem?_map, List.getElem?_mapIdx]
    rcases Nat.lt_or_ge i list.length with inside | outside
    · rw [List.getElem?_range inside, List.getElem?_eq_getElem inside]
      rfl
    · rw [List.getElem?_eq_none (by rw [List.length_range]; exact outside),
        List.getElem?_eq_none outside]
      rfl
  rw [← same, List.filterMap_map]
  rfl

theorem filterMap_getElem? {α : Type} (list : List α) :
    (List.range list.length).filterMap (fun i => list[i]?) = list := by
  have same : (list.mapIdx fun i _ => list[i]?) = list.map some := by
    refine List.ext_getElem? fun i => ?_
    rw [List.getElem?_mapIdx, List.getElem?_map]
    cases list[i]? <;> rfl
  rw [range_filterMap, same, List.filterMap_map]
  exact List.filterMap_some

section Visits

variable {env : AnalysisHost} {options : AnalyzeOptions}

/-- A computation's value meets `post` whatever is reported and answered. -/
def Ends {α : Type} (computation : Analysis α) (post : α → Prop) : Prop :=
  ∀ before, (computation before).Holds (fun _ _ => True) fun outcome => post outcome.1

theorem ends_bind {α γ : Type} {computation : Analysis α} {next : α → Analysis γ}
    {post : γ → Prop} (then_ : ∀ value, Ends (next value) post) :
    Ends (computation >>= next) post := by
  intro before
  exact (Query.holds_true _ (computation before)).bind fun outcome _ => then_ outcome.1 outcome.2

theorem ends_analyzeDefinition (scope : Scope) (parsed : ParsedDefinition) :
    Ends (analyzeDefinition scope parsed) fun definition => definition.info = parsed.info := by
  unfold analyzeDefinition
  apply ends_bind
  intro _
  apply ends_bind
  intro _
  apply ends_bind
  intro request
  split
  · apply ends_bind
    intro response
    apply ends_bind
    intro _ before
    rfl
  · intro before
    rfl

def definitionTask (scope : Scope) :
    Option ParsedDefinition → Ask (Option SemanticDefinition × List Diagnostic)
  | none => pure (none, [])
  | some parsed => do
      let outcome ← analyzeDefinition scope parsed []
      pure (some outcome.1, outcome.2)

theorem analysisTask (module : ASTModule) (position : ℕ) :
    (analysisSystem env options module).task position =
      definitionTask (scopeOf env options module) module[position]? := by
  cases here : module[position]? with
  | none =>
      unfold analysisSystem
      dsimp only
      rw [here]
      rfl
  | some parsed =>
      unfold analysisSystem
      dsimp only
      rw [here]
      rfl

theorem definitionAt (module : ASTModule) (key : TypeKey) :
    module[resolveDefinitionIndex module key]? =
      module.find? fun parsed => parsed.info.typeKey = key := by
  rw [resolveDefinitionIndex]
  induction module with
  | nil => rfl
  | cons parsed rest ih =>
      rw [List.findIdx_cons, List.find?_cons]
      cases decide (parsed.info.typeKey = key) with
      | true => rfl
      | false => exact ih

variable {first second : ASTModule}

theorem scopeOf_perm (perm : first.Perm second) :
    scopeOf env options first = scopeOf env options second := by
  have same : (fun key : TypeKey => first.any fun parsed => parsed.info.typeKey = key) =
      fun key => second.any fun parsed => parsed.info.typeKey = key := by
    funext key
    exact perm.any_eq
  rw [scopeOf, scopeOf, same]

theorem yields_perm (perm : first.Perm second) (distinct : DistinctKeys first) {i j : ℕ}
    (same : first[i]? = second[j]?) {result : Option SemanticDefinition}
    (yields : (analysisSystem env options first).Yields isError i result) :
    (analysisSystem env options second).Yields isError j result := by
  apply Yields.transfer _ _ yields
  · intro key
    rw [analysisTask, analysisTask, scopeOf_perm perm]
    change definitionTask _ second[resolveDefinitionIndex second key]? =
      definitionTask _ first[resolveDefinitionIndex first key]?
    rw [definitionAt, definitionAt, find?_perm perm distinct]
  · rw [analysisTask, analysisTask, scopeOf_perm perm, same]

theorem yields_some {module : ASTModule} {position : ℕ} {parsed : ParsedDefinition}
    (here : module[position]? = some parsed) {result : Option SemanticDefinition}
    (yields : (analysisSystem env options module).Yields isError position result) :
    ∃ definition, result = some definition ∧ definition.info = parsed.info := by
  have ⟨reports, runs, _⟩ := yields
  rw [analysisTask, here] at runs
  have ends : (definitionTask (scopeOf env options module) (some parsed)).Holds (fun _ _ => True)
      fun outcome => ∃ definition, outcome.1 = some definition ∧
        definition.info = parsed.info :=
    (ends_analyzeDefinition (scopeOf env options module) parsed []).bind
      fun outcome same => ⟨outcome.1, rfl, same⟩
  exact runs.holds ends

theorem cycle_fails (module : ASTModule) (position : ℕ) :
    ∃ report ∈ ((analysisSystem env options module).onCycle position).2, isError report := by
  change ∃ report ∈ definitionError module position _, isError report
  rw [definitionError]
  split
  · exact ⟨_, List.mem_singleton_self _, rfl⟩
  · exact ⟨_, List.mem_singleton_self _, rfl⟩

theorem limit_fails (module : ASTModule) (position : ℕ) :
    ∃ report ∈ ((analysisSystem env options module).onLimit position).2, isError report := by
  change ∃ report ∈ definitionError module position _, isError report
  rw [definitionError]
  split
  · exact ⟨_, List.mem_singleton_self _, rfl⟩
  · exact ⟨_, List.mem_singleton_self _, rfl⟩

def VisitsClean (env : AnalysisHost) (options : AnalyzeOptions) (module : ASTModule) : Prop :=
  hasErrors (analyzeAll env options module).reports = false

/-- Visits without an error record only what the definitions yield. -/
theorem settled_of_clean {module : ASTModule} (clean : VisitsClean env options module) :
    (analysisSystem env options module).Settled isError (analyzeAll env options module) := by
  apply visitAll_settled (cycle_fails module) (limit_fails module)
  · intro node result known
    cases known
  · exact fun report member => not_mem_of_hasErrors clean member

theorem recorded_of_clean {module : ASTModule} (clean : VisitsClean env options module)
    {position : ℕ} {parsed : ParsedDefinition} (here : module[position]? = some parsed) :
    ∃ definition, definition.info = parsed.info ∧
      (analyzeAll env options module).mark position = .done (some definition) ∧
      (analysisSystem env options module).Yields isError position (some definition) := by
  have settled := settled_of_clean clean
  have inside : position ∈ List.range module.length := by
    rw [List.mem_range]
    exact (List.getElem?_eq_some_iff.mp here).1
  have recorded : ∃ result, (analyzeAll env options module).mark position = .done result :=
    visitAll_recorded (fun node entered => by cases entered) inside
  have ⟨result, known⟩ := recorded
  have yields := settled position result known
  have ⟨definition, same, info⟩ := yields_some here yields
  rw [same] at known yields
  exact ⟨definition, info, known, yields⟩

/-- Where one order's visits report no error, another's do so too, or pass the limit. -/
theorem visitsClean_perm (perm : first.Perm second) (distinct : DistinctKeys first)
    (clean : VisitsClean env options first) :
    VisitsClean env options second ∨ TooDeep env options second := by
  have yields : ∀ position ∈ List.range second.length,
      ∃ result, (analysisSystem env options second).Yields isError position result := by
    intro position inside
    rw [List.mem_range] at inside
    have there : second[position]? = some second[position] := List.getElem?_eq_getElem inside
    have ⟨i, here⟩ := List.mem_iff_getElem?.mp
      (perm.mem_iff.mpr (List.getElem_mem inside))
    have ⟨definition, _, _, yields⟩ := recorded_of_clean clean here
    exact ⟨some definition, yields_perm perm distinct (here.trans there.symm) yields⟩
  have start : (analysisSystem env options second).Agrees isError .fresh := by
    intro node result expected known
    cases known
  have entered : (analysisSystem env options second).Entered isError [] .fresh := by
    intro node entered
    cases entered
  rcases visitAll_delivers yields start entered with exceeded | delivered
  · exact Or.inr exceeded
  · left
    have none : Clean isError (.fresh : Memo ℕ (Option SemanticDefinition) Diagnostic).reports :=
      fun report member => absurd member List.not_mem_nil
    refine List.any_eq_false.mpr fun report member => ?_
    rw [decide_eq_true_eq]
    exact delivered.clean none report member

/-- Two orders whose visits report no error give the same definitions. -/
theorem analyzedDefinitions_perm (perm : first.Perm second) (distinct : DistinctKeys first)
    (left : VisitsClean env options first) (right : VisitsClean env options second) :
    (analyzedDefinitions env options first).Perm (analyzedDefinitions env options second) := by
  rw [analyzedDefinitions, analyzedDefinitions, resultsIn, resultsIn, range_filterMap,
    range_filterMap]
  refine List.Perm.filterMap id (perm_mapIdx perm ?_)
  intro i j parsed here there
  have ⟨mine, _, leftMark, leftYields⟩ := recorded_of_clean left here
  have ⟨yours, _, rightMark, rightYields⟩ := recorded_of_clean right there
  have same := (yields_perm perm distinct (here.trans there.symm) leftYields).unique rightYields
  rw [leftMark, rightMark, same]

/-- The definitions of clean visits keep the headers of the parsed ones. -/
theorem analyzedDefinitions_info {module : ASTModule} (clean : VisitsClean env options module) :
    (analyzedDefinitions env options module).map SemanticDefinition.info =
      module.map ParsedDefinition.info := by
  have each : ∀ position ∈ List.range module.length,
      (resultOf ((analyzeAll env options module).mark position)).map SemanticDefinition.info =
        module[position]?.map ParsedDefinition.info := by
    intro position inside
    rw [List.mem_range] at inside
    have here : module[position]? = some module[position] := List.getElem?_eq_getElem inside
    have ⟨definition, info, known, _⟩ := recorded_of_clean clean here
    rw [here, known, resultOf, Option.map_some, Option.map_some, info]
  rw [analyzedDefinitions, resultsIn, List.map_filterMap]
  have same := List.filterMap_congr each
  rw [same, ← List.map_filterMap, filterMap_getElem?]

end Visits

section Layout

open AliasIndex

variable {first second : AliasIndex}

theorem wireTask_congr (sameFind : first.find = second.find) {ref ref' : SectionRef}
    (same : first.sectionAt ref = second.sectionAt ref') :
    second.wireSystem.task ref' = first.wireSystem.task ref := by
  cases here : first.sectionAt ref with
  | none =>
      rw [first.wireTask_of_absent here, second.wireTask_of_absent (same.symm.trans here)]
  | some sec =>
      rw [first.wireTask_of_section here, second.wireTask_of_section (same.symm.trans here),
        sameFind]

theorem sectionAt_located (sameFind : first.find = second.find) (key : TypeKey) :
    first.sectionAt (first.wireSystem.locate key) =
      second.sectionAt (second.wireSystem.locate key) := by
  rw [sectionAt_locate, sectionAt_locate, sameFind]

/-- A flat section of one index is flat in another that finds the same sections. -/
theorem recordedFlat_transfer (sameFind : first.find = second.find) {ref ref' : SectionRef}
    (same : first.sectionAt ref = second.sectionAt ref') (own : ref' ∈ second.ownRefs)
    (flat : isFlat (recordedFlat first.wireMemo ref)) :
    isFlat (recordedFlat second.wireMemo ref') := by
  have ⟨_, facts⟩ := first.wireFacts_of_recorded flat
  have certified : second.wireSystem.Certified isFlat ref' holdsVerdict :=
    facts.certified.transfer (fun key => wireTask_congr sameFind (sectionAt_located sameFind key))
      (wireTask_congr sameFind same)
  rw [second.recordedFlat_of_certified own certified]
  rfl

/-- A host image of one index is one of another that finds the same sections. -/
theorem hostCertified_transfer (sameFind : first.find = second.find) {ref : SectionRef}
    {result : Option Resolved}
    (certified : (first.hostSystem first.wireMemo).Certified isImage ref result)
    {ref' : SectionRef} (same : first.sectionAt ref = second.sectionAt ref')
    (flat : isFlat (recordedFlat second.wireMemo ref')) :
    (second.hostSystem second.wireMemo).Certified isImage ref' result := by
  induction certified generalizing ref' with
  | @intro ref result answers holds outcome rests ih =>
      have ⟨sec, here, firstFlat, resultIs⟩ := first.hostOutcome holds outcome
      have ⟨sec', facts⟩ := second.wireFacts_of_recorded flat
      have there := facts.here
      rw [← same, here] at there
      cases there
      have secondFlat : second.flatOf sec = holdsVerdict := facts.eval
      have sameTask : (second.hostSystem second.wireMemo).task ref' =
          (first.hostSystem first.wireMemo).task ref := by
        rw [first.hostTask_of_section here, second.hostTask_of_section facts.here, sameFind,
          firstFlat, secondFlat]
      have asks : ∀ key ∈ ((first.hostSystem first.wireMemo).task ref).asked answers,
          AsksFor first.find sec.fields key := by
        intro key member
        rw [first.hostTask_of_section here, firstFlat, Query.mem_asked_bind] at member
        rcases member with walk | none
        · exact asked_computeHostImage walk
        · cases none
      rw [← sameTask] at outcome
      refine .intro answers holds outcome ?_
      rw [sameTask]
      intro key member
      have asked := asks key member
      rw [sameFind] at asked
      exact ih key member (sectionAt_located sameFind key) (WireFacts.nested second facts asked)

theorem recordedHost_transfer (sameFind : first.find = second.find) {ref ref' : SectionRef}
    (same : first.sectionAt ref = second.sectionAt ref') (own : ref ∈ first.ownRefs)
    (own' : ref' ∈ second.ownRefs)
    (image : isFlat (recordedHost (first.hostMemo first.wireMemo) ref).verdict) :
    recordedHost (second.hostMemo second.wireMemo) ref' =
      recordedHost (first.hostMemo first.wireMemo) ref := by
  have certified := first.hostMemo_certified image
  have flat := first.flat_of_hostCertified own certified
  exact second.recordedHost_of_certified own' (hostCertified_transfer sameFind certified same
    (recordedFlat_transfer sameFind same own' flat))

def catalogueSection (catalogue : SemanticModule) (key : TypeKey) : Option SemanticSection :=
  ((List.range catalogue.length).find? (hasKey catalogue key)).bind fun position =>
    catalogue[position]?.map SemanticDefinition.request

def DistinctDefinitions (definitions : SemanticModule) : Prop :=
  (definitions.map fun definition => definition.info.typeKey).Nodup

theorem hasKey_iff {definitions : SemanticModule} {key : TypeKey} {position : ℕ} :
    hasKey definitions key position = true ↔
      ∃ definition, definitions[position]? = some definition ∧ definition.info.typeKey = key := by
  rw [hasKey, Option.any_eq_true]
  simp only [decide_eq_true_eq]

/-- What a key stands for, when no two definitions of the module share it. -/
theorem find_eq (index : AliasIndex) (distinct : DistinctDefinitions index.module) (key : TypeKey) :
    index.find key =
      ((index.module.find? fun definition => definition.info.typeKey = key).map
        SemanticDefinition.request).or (catalogueSection index.catalogue key) := by
  rw [AliasIndex.find, findRef]
  split
  · rename_i position search
    obtain ⟨definition, here, sameKey⟩ := hasKey_iff.mp (List.find?_some search)
    have member := List.mem_of_getElem? here
    cases found : index.module.find? (fun definition => definition.info.typeKey = key) with
    | none =>
        rw [List.find?_eq_none] at found
        exact absurd (decide_eq_true sameKey) (found definition member)
    | some other =>
        have otherKey : other.info.typeKey = key := of_decide_eq_true
          (List.find?_some (p := fun definition : SemanticDefinition =>
            definition.info.typeKey = key) found)
        have same := List.inj_on_of_nodup_map distinct member (List.mem_of_find?_eq_some found)
          (sameKey.trans otherKey.symm)
        rw [Option.bind_some, sectionAt, here, same]
        rfl
  · rename_i search
    have absent : index.module.find? (fun definition => definition.info.typeKey = key) = none := by
      rw [List.find?_eq_none]
      intro definition member sameKey
      obtain ⟨position, here⟩ := List.mem_iff_getElem?.mp member
      have inside : position ∈ (List.range index.module.length).reverse := by
        rw [List.mem_reverse, List.mem_range]
        exact (List.getElem?_eq_some_iff.mp here).1
      exact List.find?_eq_none.mp search position inside
        (hasKey_iff.mpr ⟨definition, here, of_decide_eq_true sameKey⟩)
    rw [absent, catalogueSection, Option.bind_map]
    rfl

theorem find_perm {left right catalogue : SemanticModule} (perm : left.Perm right)
    (distinct : DistinctDefinitions left) :
    (⟨left, catalogue⟩ : AliasIndex).find = (⟨right, catalogue⟩ : AliasIndex).find := by
  have distinct' : DistinctDefinitions right := (perm.map _).nodup distinct
  funext key
  rw [find_eq _ distinct, find_eq _ distinct', find?_perm perm distinct]

theorem markModule_perm {left right catalogue : SemanticModule} (perm : left.Perm right)
    (distinct : DistinctDefinitions left) (views : Bool) :
    (markModule ⟨left, catalogue⟩ views).Perm (markModule ⟨right, catalogue⟩ views) := by
  have sameView : (⟨left, catalogue⟩ : AliasIndex).isView = (⟨right, catalogue⟩ : AliasIndex).isView := by
    funext field
    rw [isView, isView, find_perm perm distinct]
  have sameField : (⟨left, catalogue⟩ : AliasIndex).markField =
      (⟨right, catalogue⟩ : AliasIndex).markField := by
    funext field
    rw [markField, markField, sameView]
  have sameViews : (⟨left, catalogue⟩ : AliasIndex).markViews =
      (⟨right, catalogue⟩ : AliasIndex).markViews := by
    funext sec
    rw [markViews, markViews, sameField]
  rw [markModule, markModule]
  split
  · rw [sameViews]
    exact perm.map _
  · exact perm

theorem markModule_info (index : AliasIndex) (views : Bool) :
    (markModule index views).map SemanticDefinition.info =
      index.module.map SemanticDefinition.info := by
  rw [markModule]
  split
  · rw [List.map_map]
    rfl
  · rfl

/-- The verdicts of a section do not depend on the order but for the reasons they fail for. -/
theorem annotate_perm (sameFind : first.find = second.find) (ref ref' : SectionRef)
    (same : first.sectionAt ref = second.sectionAt ref') (own : ref ∈ first.ownRefs)
    (own' : ref' ∈ second.ownRefs) (sec : SemanticSection) :
    (annotate first.wireMemo (first.hostMemo first.wireMemo) ref sec).withoutReasons =
      (annotate second.wireMemo (second.hostMemo second.wireMemo) ref' sec).withoutReasons := by
  have flat : (recordedFlat first.wireMemo ref).holds =
      (recordedFlat second.wireMemo ref').holds :=
    Bool.eq_iff_iff.mpr ⟨recordedFlat_transfer sameFind same own',
      recordedFlat_transfer sameFind.symm same.symm own⟩
  have forward := recordedHost_transfer sameFind same own own'
  have backward := recordedHost_transfer sameFind.symm same.symm own' own
  have image : (recordedHost (first.hostMemo first.wireMemo) ref).verdict.holds =
      (recordedHost (second.hostMemo second.wireMemo) ref').verdict.holds := by
    refine Bool.eq_iff_iff.mpr ⟨fun holds => ?_, fun holds => ?_⟩
    · rw [forward holds]
      exact holds
    · rw [backward holds]
      exact holds
  have members : (if (recordedHost (first.hostMemo first.wireMemo) ref).verdict.holds then
        (recordedHost (first.hostMemo first.wireMemo) ref).members else sec.hostImageMembers) =
      if (recordedHost (second.hostMemo second.wireMemo) ref').verdict.holds then
        (recordedHost (second.hostMemo second.wireMemo) ref').members
      else sec.hostImageMembers := by
    cases holds : (recordedHost (first.hostMemo first.wireMemo) ref).verdict.holds with
    | true => rw [forward holds, holds]
    | false =>
        rw [holds] at image
        rw [← image]
        rfl
  have flatVerdict := congrArg (fun holds : Bool => ({ holds := holds } : AliasLayoutVerdict)) flat
  have hostVerdict := congrArg (fun holds : Bool => ({ holds := holds } : AliasLayoutVerdict)) image
  rw [annotate, annotate, SemanticSection.withoutReasons, SemanticSection.withoutReasons]
  dsimp only [AliasLayoutVerdict.withoutReason] at flatVerdict hostVerdict ⊢
  rw [flatVerdict, hostVerdict, members]

/-- Two orders of a module are annotated the same, but for the reasons verdicts fail for. -/
theorem annotateAliasLayout_perm {left right catalogue : SemanticModule} (perm : left.Perm right)
    (distinct : DistinctDefinitions left) (views : Bool) :
    ((annotateAliasLayout left catalogue views).map SemanticDefinition.withoutReasons).Perm
      ((annotateAliasLayout right catalogue views).map SemanticDefinition.withoutReasons) := by
  have marked : (markModule ⟨left, catalogue⟩ views).Perm (markModule ⟨right, catalogue⟩ views) :=
    markModule_perm perm distinct views
  have markedDistinct : DistinctDefinitions (markModule ⟨left, catalogue⟩ views) := by
    have sameKeys := congrArg (List.map DiscoveredDefinition.typeKey)
      (markModule_info ⟨left, catalogue⟩ views)
    rw [List.map_map, List.map_map] at sameKeys
    have keys : (markModule ⟨left, catalogue⟩ views).map (fun definition => definition.info.typeKey) =
        left.map fun definition => definition.info.typeKey := sameKeys
    rw [DistinctDefinitions, keys]
    exact distinct
  have sameFind : (⟨markModule ⟨left, catalogue⟩ views, catalogue⟩ : AliasIndex).find =
      (⟨markModule ⟨right, catalogue⟩ views, catalogue⟩ : AliasIndex).find :=
    find_perm marked markedDistinct
  have request {i j : ℕ} {definition : SemanticDefinition} (response : Bool)
      (here : (markModule ⟨left, catalogue⟩ views)[i]? = some definition)
      (there : (markModule ⟨right, catalogue⟩ views)[j]? = some definition) :=
    annotate_perm sameFind (.own i response) (.own j response)
      (by cases response <;> simp only [sectionAt, here, there])
      ((mem_ownRefs _).mpr (List.getElem?_eq_some_iff.mp here).1)
      ((mem_ownRefs _).mpr (List.getElem?_eq_some_iff.mp there).1)
  rw [annotateAliasLayout, annotateAliasLayout, map_mapIdx, map_mapIdx]
  refine perm_mapIdx marked ?_
  intro i j definition here there
  rw [SemanticDefinition.withoutReasons, SemanticDefinition.withoutReasons]
  dsimp only
  rw [request false here there, Option.map_map, Option.map_map]
  cases definition.response with
  | none => rfl
  | some response =>
      rw [Option.map_some, Option.map_some, Function.comp_apply, Function.comp_apply,
        request true here there]

end Layout

/-! ### The verdict on the module -/

def assertionFails (sec : SemanticSection) : Bool :=
  sec.aliasableDirective.isSome && !sec.wireFlat.holds

theorem hasErrors_checkOneAliasableAssertion (sec : SemanticSection) (sectionName : String) :
    hasErrors (checkOneAliasableAssertion sec sectionName) = assertionFails sec := by
  unfold checkOneAliasableAssertion assertionFails
  cases sec.aliasableDirective with
  | none => rfl
  | some location =>
      cases sec.wireFlat.holds with
      | true => rfl
      | false => rfl

/-- A section of the definition asserts a layout it does not have. -/
def definitionAssertionFails (definition : SemanticDefinition) : Bool :=
  assertionFails definition.request || definition.response.any assertionFails

theorem hasErrors_checkAliasableAssertions (definitions : SemanticModule) :
    hasErrors (checkAliasableAssertions definitions) =
      definitions.any definitionAssertionFails := by
  rw [hasErrors, checkAliasableAssertions, List.any_flatMap]
  refine congrArg definitions.any (funext fun definition => ?_)
  rw [List.any_append, definitionAssertionFails]
  have request := hasErrors_checkOneAliasableAssertion definition.request
    (if definition.isService then "request" else "")
  rw [hasErrors] at request
  rw [request]
  cases definition.response with
  | none => rfl
  | some response => exact congrArg (_ || ·) (hasErrors_checkOneAliasableAssertion response _)

theorem definitionAssertionFails_withoutReasons (definition : SemanticDefinition) :
    definitionAssertionFails definition.withoutReasons = definitionAssertionFails definition := by
  rw [definitionAssertionFails, definitionAssertionFails, SemanticDefinition.withoutReasons,
    Option.any_map]
  rfl

theorem hasErrors_assertions_perm {left right : SemanticModule}
    (perm : (left.map SemanticDefinition.withoutReasons).Perm
      (right.map SemanticDefinition.withoutReasons)) :
    hasErrors (checkAliasableAssertions left) = hasErrors (checkAliasableAssertions right) := by
  have each (definitions : SemanticModule) :
      (definitions.map SemanticDefinition.withoutReasons).any definitionAssertionFails =
        definitions.any definitionAssertionFails := by
    rw [List.any_map]
    exact congrArg definitions.any (funext definitionAssertionFails_withoutReasons)
  rw [hasErrors_checkAliasableAssertions, hasErrors_checkAliasableAssertions, ← each left,
    ← each right]
  exact perm.any_eq

theorem versionRulesHold_perm {allow : Bool} {left right : SemanticModule} (perm : left.Perm right)
    (holds : VersionRulesHold allow left) : VersionRulesHold allow right where
  compatible first firstMember second secondMember :=
    holds.compatible first (perm.mem_iff.mpr firstMember) second (perm.mem_iff.mpr secondMember)
  ports first firstMember second secondMember :=
    holds.ports first (perm.mem_iff.mpr firstMember) second (perm.mem_iff.mpr secondMember)
  separate first firstMember second secondMember :=
    holds.separate first (perm.mem_iff.mpr firstMember) second (perm.mem_iff.mpr secondMember)
  width definition member := holds.width definition (perm.mem_iff.mpr member)
  regulated notAllowed definition member :=
    holds.regulated notAllowed definition (perm.mem_iff.mpr member)

section Verdict

variable {env : AnalysisHost} {options : AnalyzeOptions} {first second : ASTModule}

theorem distinctDefinitions (distinct : DistinctKeys first)
    (clean : VisitsClean env options first) :
    DistinctDefinitions (analyzedDefinitions env options first) := by
  have sameKeys := congrArg (List.map DiscoveredDefinition.typeKey)
    (analyzedDefinitions_info clean)
  rw [List.map_map, List.map_map] at sameKeys
  have keys : (analyzedDefinitions env options first).map
      (fun definition => definition.info.typeKey) =
      first.map fun parsed => parsed.info.typeKey := sameKeys
  rw [DistinctDefinitions, keys]
  exact distinct

theorem analyze_eq_none_of_visits (failed : ¬ VisitsClean env options first) :
    analyze env options first = none := by
  cases outcome : analyze env options first with
  | none => rfl
  | some definitions => exact absurd (analyze_eq_some.mp outcome).1 failed

/-- A module accepted in one order is accepted in every order whose visits report no error. -/
theorem accepted_perm (perm : first.Perm second) (distinct : DistinctKeys first)
    (clean : VisitsClean env options second) {definitions : SemanticModule}
    (accepted : analyze env options first = some definitions) :
    ∃ others, analyze env options second = some others ∧
      (definitions.map SemanticDefinition.withoutReasons).Perm
        (others.map SemanticDefinition.withoutReasons) := by
  have ⟨visits, rules, assertions, annotated⟩ := analyze_eq_some.mp accepted
  have same := analyzedDefinitions_perm perm distinct visits clean
  have distinctLeft := distinctDefinitions distinct visits
  have distinctRight : DistinctDefinitions (analyzedDefinitions env options second) :=
    (same.map _).nodup distinctLeft
  have rulesRight := (checkVersionRules_eq_nil distinctRight).mpr
    (versionRulesHold_perm same ((checkVersionRules_eq_nil distinctLeft).mp rules))
  have verdicts : ((annotatedDefinitions env options first).map
      SemanticDefinition.withoutReasons).Perm ((annotatedDefinitions env options second).map
        SemanticDefinition.withoutReasons) :=
    annotateAliasLayout_perm same distinctLeft options.aliasableViews
  rw [hasErrors_assertions_perm verdicts] at assertions
  rw [annotated] at verdicts
  exact ⟨_, analyze_eq_some.mpr ⟨clean, rulesRight, assertions, rfl⟩, verdicts⟩

/-- Two orders whose visits report no error have the same outcome. -/
theorem sameOutcome_of_clean (perm : first.Perm second) (distinct : DistinctKeys first)
    (left : VisitsClean env options first) (right : VisitsClean env options second) :
    SameOutcome (analyze env options first) (analyze env options second) := by
  cases outcome : analyze env options first with
  | some definitions =>
      have ⟨others, accepted, same⟩ := accepted_perm perm distinct right outcome
      rw [accepted]
      exact .accepted same
  | none =>
      cases other : analyze env options second with
      | none => exact .rejected
      | some others =>
          have ⟨_, accepted, _⟩ :=
            accepted_perm perm.symm ((perm.map _).nodup distinct) left other
          rw [outcome] at accepted
          cases accepted

/-- **The order of a module's definitions changes its outcome only through the depth
limit**: two orders have the same outcome, or one of them reports a definition that stands
at the end of a chain of as many references as the limit allows. -/
theorem sameOutcome_or_tooDeep (perm : first.Perm second) (distinct : DistinctKeys first) :
    SameOutcome (analyze env options first) (analyze env options second) ∨
      TooDeep env options first ∨ TooDeep env options second := by
  have distinct' : DistinctKeys second := (perm.map _).nodup distinct
  by_cases left : VisitsClean env options first
  · rcases visitsClean_perm perm distinct left with right | tooDeep
    · exact Or.inl (sameOutcome_of_clean perm distinct left right)
    · exact Or.inr (Or.inr tooDeep)
  · by_cases right : VisitsClean env options second
    · rcases visitsClean_perm perm.symm distinct' right with clean | tooDeep
      · exact absurd clean left
      · exact Or.inr (Or.inl tooDeep)
    · rw [analyze_eq_none_of_visits left, analyze_eq_none_of_visits right]
      exact Or.inl .rejected

/-! ### A chain of references longer than the limit -/

/-- A message whose only field is the next version of the same message. -/
def linkDefinition (minor : ℕ) : ParsedDefinition :=
  ⟨⟨"", "ns.T", "T", ["ns"], 0, minor, none⟩, ⟨⟨"", 1, 1⟩,
    [.field ⟨⟨"", 1, 1⟩, .mk ⟨"", 1, 1⟩ (.versioned ⟨["ns", "T"], 0, minor + 1⟩) .none none, "f",
      false⟩, sealedDirectiveAt 2]⟩⟩

/-- The end of the chain: an empty message. -/
def lastDefinition (minor : ℕ) : ParsedDefinition :=
  ⟨⟨"", "ns.T", "T", ["ns"], 0, minor, none⟩, ⟨⟨"", 1, 1⟩, [sealedDirectiveAt 2]⟩⟩

def chainDefinitions (length : ℕ) : ASTModule :=
  (List.range length).map linkDefinition ++ [lastDefinition length]

set_option maxRecDepth 100000 in
theorem chainDefinitions_rejected :
    (analyze plainHost {} (chainDefinitions kMaxAnalysisDepth)).isSome = false := by
  decide +kernel

set_option maxRecDepth 100000 in
theorem chainDefinitions_reverse_accepted :
    (analyze plainHost {} (chainDefinitions kMaxAnalysisDepth).reverse).isSome = true := by
  decide +kernel

theorem distinctKeys_chainDefinitions (length : ℕ) : DistinctKeys (chainDefinitions length) := by
  have keys : (chainDefinitions length).map (fun parsed => parsed.info.typeKey) =
      (List.range (length + 1)).map fun minor => (⟨"ns.T", 0, minor⟩ : TypeKey) := by
    rw [chainDefinitions, List.map_append, List.map_map, List.range_succ, List.map_append]
    rfl
  have injective : Function.Injective fun minor => (⟨"ns.T", 0, minor⟩ : TypeKey) := by
    intro left right same
    exact congrArg TypeKey.minorVersion same
  rw [DistinctKeys, keys]
  exact List.nodup_range.map injective

/-- Two orders of two definitions. -/
theorem sameOutcome_or_tooDeep_pair :
    SameOutcome (analyze plainHost {} (chainDefinitions 1))
        (analyze plainHost {} (chainDefinitions 1).reverse) ∨
      TooDeep plainHost {} (chainDefinitions 1) ∨ TooDeep plainHost {} (chainDefinitions 1).reverse :=
  sameOutcome_or_tooDeep (List.reverse_perm _).symm (distinctKeys_chainDefinitions 1)

/-- A chain longer than the limit is accepted from its end and rejected from its start. -/
theorem outcome_depends_on_order :
    ∃ first second : ASTModule, first.Perm second ∧ DistinctKeys first ∧
      ¬ SameOutcome (analyze plainHost {} first) (analyze plainHost {} second) := by
  refine ⟨chainDefinitions kMaxAnalysisDepth, (chainDefinitions kMaxAnalysisDepth).reverse,
    (List.reverse_perm _).symm, distinctKeys_chainDefinitions _, ?_⟩
  have rejected := chainDefinitions_rejected
  have accepted := chainDefinitions_reverse_accepted
  intro same
  cases left : analyze plainHost {} (chainDefinitions kMaxAnalysisDepth) with
  | some definitions =>
      rw [left] at rejected
      cases rejected
  | none =>
      cases right : analyze plainHost {} (chainDefinitions kMaxAnalysisDepth).reverse with
      | none =>
          rw [right] at accepted
          cases accepted
      | some definitions =>
          rw [left, right] at same
          cases same

end Verdict

end LlvmDsdl.Semantics
