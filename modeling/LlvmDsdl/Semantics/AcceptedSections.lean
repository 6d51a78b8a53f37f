import LlvmDsdl.Semantics.BitLengthSet.Exact
import LlvmDsdl.Semantics.ExtentChecks

/-!
Contract: the sections of an accepted module and the sizes they state.

Owns: the widths of fields as the text gives them, the facts of every section of
an accepted module and of its catalogue, and the proof that a layout walk finds,
under a field's reference, a section of the sizes that the field was given.
-/

namespace LlvmDsdl.Frontend

/-- The width a scalar type is written with; a reference has none. -/
def ScalarTypeExprAST.writtenBits : ScalarTypeExprAST → ℕ
  | .primitive type => type.bitLength
  | .void bitLength => bitLength
  | .versioned _ => 0

/-- The tree holds the widths of fields as 32-bit integers. -/
def NarrowWidths (statements : List StatementAST) : Prop :=
  ∀ f, StatementAST.field f ∈ statements → f.type.scalar.writtenBits < 2 ^ 32

end LlvmDsdl.Frontend

namespace LlvmDsdl.Semantics

open Frontend Support Support.IntegerMath Library Library.TaskSystem

section Widths

variable {scope : Scope} {owner : DiscoveredDefinition} {isResponse : Bool} {answers : Results}

theorem ends_seq {α γ : Type} {computation : Analysis α} {next : α → Analysis γ}
    {middle : α → Prop} {post : γ → Prop} (first : Ends computation middle)
    (then_ : ∀ value, middle value → Ends (next value) post) : Ends (computation >>= next) post := by
  intro before
  exact (first before).bind fun outcome holds => then_ outcome.1 holds outcome.2

/-- A layout is as wide as its type is written, and a composite has no width of its own. -/
structure LayoutWidth (written : ℕ) (layout : TypeLayout) : Prop where
  bitLength : layout.resolved.bitLength ≤ written
  composite : layout.resolved.scalarCategory = .composite → layout.resolved.bitLength = 0

theorem layoutWidth_faulty (written : ℕ) : LayoutWidth written .faulty :=
  ⟨Nat.zero_le _, fun _ => rfl⟩

theorem ends_faultyType {location : SourceLocation} {message : String} (written : ℕ) :
    Ends (faultyType location message) (LayoutWidth written) :=
  ends_bind fun _ => ends_pure (layoutWidth_faulty written)

theorem ends_baseFromScalar (type : TypeExprAST) :
    Ends (baseFromScalar scope owner type) (LayoutWidth type.scalar.writtenBits) := by
  rw [baseFromScalar.eq_def]
  split
  · rename_i primitive written
    rw [written]
    exact ends_pure ⟨le_rfl, fun same => absurd same (primitiveCategory_ne_composite _)⟩
  · rename_i bitLength written
    rw [written]
    exact ends_pure ⟨le_rfl, fun same => by cases same⟩
  · apply ends_bind
    intro resolved
    cases resolved with
    | none => exact ends_pure (layoutWidth_faulty _)
    | some resolved =>
        apply ends_bind
        intro answer
        cases answer with
        | none => exact ends_pure (layoutWidth_faulty _)
        | some definition =>
            dsimp only
            split
            · exact ends_bind fun _ => ends_pure (layoutWidth_faulty _)
            · exact ends_pure ⟨Nat.zero_le _, fun _ => rfl⟩

theorem ends_arrayLayout {written : ℕ} (location : SourceLocation) (kind : ArrayKind)
    {element : TypeLayout} (capacity : ℤ) (width : LayoutWidth written element) :
    Ends (arrayLayout location kind element capacity) (LayoutWidth written) := by
  have array (bls : LengthSet) (prefixBits bound : ℤ) :
      LayoutWidth written (element.arrayOf kind bound prefixBits bls) :=
    ⟨width.bitLength, width.composite⟩
  cases kind with
  | none => exact ends_pure width
  | fixed =>
      rw [arrayLayout, fixedArray]
      split
      · exact ends_faultyType written
      · exact ends_pure (array _ _ _)
  | variableExclusive =>
      rw [arrayLayout]
      split
      · exact ends_faultyType written
      · exact ends_pure (array _ _ _)
  | variableInclusive =>
      rw [arrayLayout]
      split
      · exact ends_faultyType written
      · exact ends_pure (array _ _ _)

theorem ends_analyzeType (env : ValueEnv) (resolver : TypeAttributeResolver Ask)
    (type : TypeExprAST) : Ends (analyzeType scope env resolver owner type)
      (LayoutWidth type.scalar.writtenBits) := by
  rw [analyzeType]
  refine ends_seq (ends_baseFromScalar type) fun base width => ?_
  have element : LayoutWidth type.scalar.writtenBits
      { base with resolved := { base.resolved with arrayKind := type.arrayKind } } :=
    ⟨width.bitLength, width.composite⟩
  dsimp only
  split
  · exact ends_pure element
  · exact ends_faultyType _
  · exact ends_faultyType _
  · apply ends_bind
    intro capValue
    split
    · exact ends_faultyType _
    · exact ends_faultyType _
    · exact ends_arrayLayout _ _ _ element

/-- A width that the tree can hold; a composite has none of its own. -/
structure NarrowType (type : SemanticFieldType) : Prop where
  width : type.bitLength < 2 ^ 32
  composite : type.scalarCategory = .composite → type.bitLength = 0

def NarrowFields (fields : List SemanticField) : Prop :=
  ∀ field ∈ fields, NarrowType field.resolvedType

/-- The widths and the extent of a section are what the machine's integers hold. -/
structure NarrowSection (sec : SemanticSection) : Prop where
  fields : NarrowFields sec.fields
  extent : ∀ extent, sec.extentBits = some extent → extent ≤ int64Max

theorem NarrowSection.congr {sec other : SemanticSection} (narrow : NarrowSection sec)
    (fields : other.fields = sec.fields) (extentBits : other.extentBits = sec.extentBits) :
    NarrowSection other := by
  refine ⟨?_, ?_⟩
  · rw [fields]
    exact narrow.fields
  · rw [extentBits]
    exact narrow.extent

theorem narrowSection_initial : NarrowSection ({} : SectionState).out :=
  ⟨fun _ member => absurd member List.not_mem_nil, fun _ same => by cases same⟩

theorem ends_analyzeDirective_narrow (d : DirectiveAST) (state : SectionState)
    (narrow : NarrowSection state.out) :
    Ends (analyzeDirective scope owner isResponse d state) fun after =>
      NarrowSection after.out := by
  have kept : Ends (pure state) fun after => NarrowSection after.out := ends_pure narrow
  rw [analyzeDirective]
  cases d.kind with
  | unknown => exact ends_bind fun _ => kept
  | union =>
      exact ends_bind fun _ => ends_bind fun _ => ends_bind fun _ =>
        ends_pure (narrow.congr rfl rfl)
  | aliasable => exact ends_bind fun _ => ends_bind fun _ => ends_pure (narrow.congr rfl rfl)
  | deprecated =>
      exact ends_bind fun _ => ends_bind fun _ => ends_bind fun _ => ends_bind fun _ =>
        ends_pure (narrow.congr rfl rfl)
  | extent =>
      dsimp only
      rw [extentDirective.eq_def]
      split
      · exact ends_bind fun _ => kept
      · exact ends_bind fun _ => kept
      · apply ends_bind
        intro value
        split
        · exact ends_bind fun _ => ends_pure (narrow.congr rfl rfl)
        · exact ends_bind fun _ => ends_pure (narrow.congr rfl rfl)
        · rename_i extent integer
          refine ends_bind fun _ => ends_pure ⟨narrow.fields, ?_⟩
          intro other same
          rw [← Option.some.inj same]
          exact integerOf_le integer
  | «sealed» =>
      dsimp only
      rw [sealedDirective]
      split
      · exact ends_bind fun _ => kept
      · exact ends_bind fun _ => ends_pure (narrow.congr rfl rfl)
  | assert =>
      dsimp only
      rw [assertDirective.eq_def]
      split
      · exact ends_bind fun _ => kept
      · exact ends_bind fun _ => ends_bind fun _ => ends_pure (narrow.congr rfl rfl)
  | print =>
      dsimp only
      rw [printDirective.eq_def]
      split
      · exact ends_bind fun _ => kept
      · apply ends_bind
        intro value
        cases value with
        | none => exact ends_pure (narrow.congr rfl rfl)
        | some value => exact ends_bind fun _ => ends_pure (narrow.congr rfl rfl)

theorem constantState_narrow {c : ConstantDeclAST} {state : SectionState}
    (narrow : NarrowSection state.out) :
    NarrowSection (constantState answers scope owner c state).out := by
  unfold constantState
  dsimp only
  split
  · exact narrow
  · split
    · exact narrow.congr rfl rfl
    · split
      · exact narrow.congr rfl rfl
      · exact narrow.congr rfl rfl

theorem NarrowSection.addField {f : FieldDeclAST} {layout : TypeLayout} {state : SectionState}
    (narrow : NarrowSection state.out) (type : NarrowType layout.resolved) :
    NarrowSection (addField isResponse f layout state).out := by
  have fields : NarrowFields (state.out.fields ++ [semanticField isResponse f state layout]) := by
    intro field member
    rcases List.mem_append.mp member with earlier | here
    · exact narrow.fields field earlier
    · rw [List.mem_singleton.mp here]
      exact type
  rw [Semantics.addField]
  split
  · exact ⟨fields, narrow.extent⟩
  · exact ⟨fields, narrow.extent⟩

theorem fieldState_narrow {f : FieldDeclAST} {state : SectionState}
    (narrow : NarrowSection state.out) (width : f.type.scalar.writtenBits < 2 ^ 32) :
    NarrowSection (fieldState answers scope owner isResponse f state).out := by
  rw [fieldState]
  split
  · exact narrow
  · split
    · rw [takeName_out]
      exact narrow
    · have typed : LayoutWidth f.type.scalar.writtenBits (runWith answers
          (analyzeType scope state.env (typeAttrResolver scope owner) owner f.type) []).1 :=
        (ends_analyzeType state.env (typeAttrResolver scope owner) f.type).run []
      have named : NarrowSection (takeName f state).out := by
        rw [takeName_out]
        exact narrow
      exact named.addField ⟨lt_of_le_of_lt typed.bitLength width, typed.composite⟩

theorem analyzeStatements_narrow (statements : List StatementAST)
    (widths : NarrowWidths statements) (state : SectionState) (before : List Diagnostic)
    (narrow : NarrowSection state.out) :
    NarrowSection
      (runWith answers (analyzeStatements scope owner isResponse statements state) before).1.out := by
  induction statements generalizing state before with
  | nil => exact narrow
  | cons stmt rest ih =>
      rw [analyzeStatements, runWith_bind]
      apply ih (fun f member => widths f (List.mem_cons_of_mem _ member))
      rw [← enterStatement_out stmt state] at narrow
      cases stmt with
      | directive d =>
          rw [analyzeStatement]
          exact (ends_analyzeDirective_narrow d _ narrow).run before
      | constant c =>
          rw [analyzeStatement, runWith_analyzeConstant]
          exact constantState_narrow narrow
      | field f =>
          rw [analyzeStatement, runWith_analyzeField]
          exact fieldState_narrow narrow (widths f List.mem_cons_self)
      | serviceResponseMarker location => exact narrow

theorem closeOffsets_narrow {state : SectionState} (narrow : NarrowSection state.out) :
    NarrowSection (closeOffsets state) := by
  rw [closeOffsets]
  split
  · refine ⟨?_, narrow.extent⟩
    intro field member
    obtain ⟨original, listed, rfl⟩ := List.mem_map.mp member
    split
    · exact narrow.fields original listed
    · exact narrow.fields original listed
  · exact ⟨narrow.fields, narrow.extent⟩

/-- A finished section has the fields of the walk, and its extent or its longest length. -/
theorem run_narrow (task : SectionTask) (widths : NarrowWidths task.statements) :
    NarrowSection (task.run scope answers).1 := by
  have narrow : NarrowSection (closeOffsets (endState scope answers task)) :=
    closeOffsets_narrow (analyzeStatements_narrow _ widths _ _ narrowSection_initial)
  rw [run_eq_closeSection, closeSection, runWith_bind]
  dsimp only
  rw [runWith_bind]
  cases isSealed : (closeOffsets (endState scope answers task)).sealed with
  | true =>
      rw [if_pos rfl]
      refine ⟨narrow.fields, ?_⟩
      intro extent same
      rw [← Option.some.inj same]
      exact LengthSet.max_le_int64Max _
  | false =>
      rw [if_neg Bool.false_ne_true, runWith_bind]
      exact ⟨narrow.fields, narrow.extent⟩

end Widths

/-! ### What the sizes of a section depend on -/

/-- Equal in all that the facts of a section read of a field. -/
structure SameField (field other : SemanticField) : Prop where
  name : field.name = other.name
  isPadding : field.isPadding = other.isPadding
  resolvedType : field.resolvedType = other.resolvedType
  unionOptionIndex : field.unionOptionIndex = other.unionOptionIndex
  unionTagBits : field.unionTagBits = other.unionTagBits

structure SizedAs (sec other : SemanticSection) : Prop where
  isSealed : sec.sealed = other.sealed
  extentBits : sec.extentBits = other.extentBits
  offsetAtEnd : sec.offsetAtEnd = other.offsetAtEnd
  minBitLength : sec.minBitLength = other.minBitLength
  maxBitLength : sec.maxBitLength = other.maxBitLength

section MapFields

variable {given : Answers} {scope : Scope} {mark : SemanticField → SemanticField}

theorem fieldsOffset_map (same : ∀ field, SameField (mark field) field)
    (fields : List SemanticField) : fieldsOffset (fields.map mark) = fieldsOffset fields := by
  rw [fieldsOffset, List.foldl_map, fieldsOffset]
  congr 1
  funext set field
  rw [placeField, placeField, (same field).resolvedType]

theorem resolvedTypes_map (same : ∀ field, SameField (mark field) field)
    (fields : List SemanticField) :
    (fields.map mark).map (fun field => field.resolvedType.bitLengthSet) =
      fields.map fun field => field.resolvedType.bitLengthSet := by
  rw [List.map_map]
  exact List.map_congr_left fun field _ =>
    congrArg SemanticFieldType.bitLengthSet (same field).resolvedType

theorem fieldNames_map (same : ∀ field, SameField (mark field) field)
    (fields : List SemanticField) : fieldNames (fields.map mark) = fieldNames fields := by
  have test : ((fun field : SemanticField => !field.isPadding) ∘ mark) =
      fun field => !field.isPadding := by
    funext field
    rw [Function.comp_apply, (same field).isPadding]
  rw [fieldNames, fieldNames, List.filter_map, List.map_map, test]
  exact List.map_congr_left fun field _ => (same field).name

theorem SectionFacts.mapFields {sec : SemanticSection} (facts : SectionFacts given scope sec)
    (same : ∀ field, SameField (mark field) field) :
    SectionFacts given scope { sec with fields := sec.fields.map mark } where
  types field member := by
    obtain ⟨original, listed, rfl⟩ := List.mem_map.mp member
    rw [(same original).resolvedType]
    exact facts.types original listed
  names := by
    have names := fieldNames_map same sec.fields
    rw [fieldNames, fieldNames] at names
    rw [names]
    exact facts.names
  structureOffset := by
    rw [fieldsOffset_map same]
    exact facts.structureOffset
  unionOffset isUnion := by
    obtain ⟨layouts, lengths, enough, offset, tags⟩ := facts.unionOffset isUnion
    refine ⟨layouts, lengths.trans (resolvedTypes_map same _).symm, enough, offset, ?_⟩
    intro field member
    obtain ⟨original, listed, rfl⟩ := List.mem_map.mp member
    rw [(same original).unionTagBits, List.length_map]
    exact tags original listed
  options isUnion := by
    intro position field found
    rw [List.getElem?_map] at found
    obtain ⟨original, at_, rfl⟩ := Option.map_eq_some_iff.mp found
    rw [(same original).isPadding, (same original).unionOptionIndex]
    exact facts.options isUnion position original at_
  minimum := facts.minimum
  maximum := facts.maximum
  fixed := facts.fixed
  sealedExtent := facts.sealedExtent
  extent := facts.extent

theorem SectionFacts.congr {sec other : SemanticSection} (facts : SectionFacts given scope sec)
    (sized : SizedAs other sec) (fields : other.fields = sec.fields)
    (isUnion : other.isUnion = sec.isUnion) (fixedSize : other.fixedSize = sec.fixedSize) :
    SectionFacts given scope other where
  types := by
    rw [fields]
    exact facts.types
  names := by
    rw [fields]
    exact facts.names
  structureOffset := by
    rw [fields, isUnion, sized.offsetAtEnd]
    exact facts.structureOffset
  unionOffset := by
    rw [fields, isUnion, sized.offsetAtEnd]
    exact facts.unionOffset
  options := by
    rw [fields, isUnion]
    exact facts.options
  minimum := by
    rw [sized.minBitLength, sized.offsetAtEnd]
    exact facts.minimum
  maximum := by
    rw [sized.maxBitLength, sized.offsetAtEnd]
    exact facts.maximum
  fixed := by
    rw [fixedSize, sized.offsetAtEnd]
    exact facts.fixed
  sealedExtent := by
    rw [sized.isSealed, sized.extentBits, sized.offsetAtEnd]
    exact facts.sealedExtent
  extent := by
    rw [sized.isSealed, sized.extentBits, sized.offsetAtEnd]
    exact facts.extent

end MapFields

theorem sameField_markField (index : AliasIndex) (field : SemanticField) :
    SameField (index.markField field) field := by
  rw [AliasIndex.markField]
  split <;> exact ⟨rfl, rfl, rfl, rfl, rfl⟩

theorem sizedAs_markViews (index : AliasIndex) (sec : SemanticSection) :
    SizedAs (index.markViews sec) sec := by
  rw [AliasIndex.markViews]
  split <;> exact ⟨rfl, rfl, rfl, rfl, rfl⟩

/-! ### Sections that were analysed -/

/-- The facts of a section that an accepted module holds. -/
structure AnalysedSection (given : Answers) (scope : Scope) (sec : SemanticSection) : Prop where
  facts : SectionFacts given scope sec
  narrow : NarrowSection sec

section Transfer

variable {given : Answers} {scope : Scope}

theorem AnalysedSection.markViews {sec : SemanticSection} (index : AliasIndex)
    (analysed : AnalysedSection given scope sec) :
    AnalysedSection given scope (index.markViews sec) := by
  rw [AliasIndex.markViews]
  split
  · exact analysed
  · refine ⟨analysed.facts.mapFields (sameField_markField index), ?_, analysed.narrow.extent⟩
    intro field member
    obtain ⟨original, listed, rfl⟩ := List.mem_map.mp member
    rw [(sameField_markField index original).resolvedType]
    exact analysed.narrow.fields original listed

theorem AnalysedSection.annotate {sec : SemanticSection}
    (wire : Memo SectionRef AliasLayoutVerdict Unit)
    (host : Memo SectionRef (Option Resolved) Unit) (ref : SectionRef)
    (analysed : AnalysedSection given scope sec) :
    AnalysedSection given scope (annotate wire host ref sec) :=
  ⟨analysed.facts.congr ⟨rfl, rfl, rfl, rfl, rfl⟩ rfl rfl rfl, analysed.narrow.congr rfl rfl⟩

theorem AnalysedSection.withDeprecated {sec : SemanticSection}
    (analysed : AnalysedSection given scope sec) (deprecated : Bool) :
    AnalysedSection given scope { sec with deprecated := deprecated } :=
  ⟨analysed.facts.congr ⟨rfl, rfl, rfl, rfl, rfl⟩ rfl rfl rfl, analysed.narrow.congr rfl rfl⟩

end Transfer

def SemanticDefinition.sections (definition : SemanticDefinition) : List SemanticSection :=
  definition.request :: definition.response.toList

theorem mem_sections {definition : SemanticDefinition} {sec : SemanticSection} :
    sec ∈ definition.sections ↔ sec = definition.request ∨ definition.response = some sec := by
  rw [SemanticDefinition.sections, List.mem_cons, Option.mem_toList]

/-- The sections of an analysed definition are those its tasks give. -/
theorem section_of_run {scope : Scope} {answers : Results} {parsed : ParsedDefinition}
    (clean : Clean isError (runWith answers (analyzeDefinition scope parsed) []).2)
    {sec : SemanticSection}
    (member : sec ∈ (runWith answers (analyzeDefinition scope parsed) []).1.sections) :
    ∃ task ∈ sectionTasks scope answers parsed, ∃ deprecated : Bool,
      sec = { (task.run scope answers).1 with deprecated := deprecated } := by
  rw [runWith_analyzeDefinition clean, mem_sections] at member
  unfold analyzeSections at member
  rw [runWith_bind] at member
  unfold sectionTasks
  cases isService : parsed.ast.isService with
  | false =>
      rw [isService, if_neg Bool.false_ne_true] at member
      rcases member with same | absent
      · exact ⟨_, List.mem_singleton_self _, _, same⟩
      · cases absent
  | true =>
      rw [isService, if_pos rfl, runWith_bind, runWith_bind] at member
      rcases member with same | same
      · exact ⟨_, List.mem_cons_self, _, same⟩
      · exact ⟨_, List.mem_cons_of_mem _ (List.mem_singleton_self _), _,
          (Option.some.inj same).symm⟩

theorem taskStatements_subset {scope : Scope} {answers : Results} {parsed : ParsedDefinition}
    {task : SectionTask} (member : task ∈ sectionTasks scope answers parsed) :
    task.statements ⊆ parsed.ast.statements := by
  have request : requestStatements parsed.ast.statements ⊆ parsed.ast.statements :=
    (List.takeWhile_prefix _).subset
  have response : responseStatements parsed.ast.statements ⊆ parsed.ast.statements :=
    fun _ member => (List.dropWhile_suffix _).subset (List.mem_of_mem_filter member)
  unfold sectionTasks at member
  dsimp only at member
  split at member
  · rcases List.mem_pair.mp member with same | same <;> rw [same]
    · exact request
    · exact response
  · rw [List.mem_singleton.mp member]
    exact request

/-! ### The sections of an accepted module -/

def recordedAnswers (env : AnalysisHost) (options : AnalyzeOptions) (module : ASTModule) :
    Answers :=
  fun key result => recordedResults env options module key = result

section Accepted

variable {env : AnalysisHost} {options : AnalyzeOptions} {module : ASTModule}

theorem localAnswered_of_clean (clean : VisitsClean env options module) :
    LocalAnswered (recordedAnswers env options module) (scopeOf env options module) := by
  intro key isLocal unanswered
  obtain ⟨definition, recorded⟩ := recordedResults_of_local clean isLocal
  have absent : recordedResults env options module key = none := unanswered
  rw [absent] at recorded
  cases recorded

/-- The definitions of an accepted module are analysed without an error, on those on record. -/
theorem recorded_of_mem (clean : VisitsClean env options module)
    {definition : SemanticDefinition}
    (member : definition ∈ analyzedDefinitions env options module) :
    ∃ parsed ∈ module, (runWith (recordedResults env options module)
      (analyzeDefinition (scopeOf env options module) parsed) []).1 = definition := by
  rw [analyzedDefinitions, resultsIn] at member
  obtain ⟨position, inside, recorded⟩ := List.mem_filterMap.mp member
  rw [List.mem_range] at inside
  have here : module[position]? = some module[position] := List.getElem?_eq_getElem inside
  obtain ⟨other, _, mark, yields⟩ := recorded_of_clean clean here
  rw [mark, resultOf] at recorded
  cases recorded
  obtain ⟨reports, _, run⟩ := run_of_yields clean here yields
  exact ⟨module[position], List.getElem_mem inside, congrArg Prod.fst run⟩

theorem analysedSection_of_clean (clean : VisitsClean env options module)
    (widths : ∀ parsed ∈ module, NarrowWidths parsed.ast.statements)
    {definition : SemanticDefinition}
    (member : definition ∈ analyzedDefinitions env options module) {sec : SemanticSection}
    (listed : sec ∈ definition.sections) :
    AnalysedSection (recordedAnswers env options module) (scopeOf env options module) sec := by
  obtain ⟨parsed, inModule, same⟩ := recorded_of_mem clean member
  have quiet := accepted_definition clean inModule
  rw [← same] at listed
  obtain ⟨task, isTask, deprecated, rfl⟩ := section_of_run quiet listed
  apply AnalysedSection.withDeprecated
  refine ⟨?_, run_narrow task fun f inTask => ?_⟩
  · have establishes : Establishes (recordedAnswers env options module)
        (analyzeSection (scopeOf env options module) task.owner task.isResponse task.statements)
        (SectionFacts (recordedAnswers env options module) (scopeOf env options module)) :=
      establishes_analyzeSection (localAnswered_of_clean clean) task.statements
    have answered (key : TypeKey) : recordedAnswers env options module key
        (recordedResults env options module key) := rfl
    have outcome := (establishes task.reported).eval_of fun key => answered key
    exact outcome.2 (clean_sectionTasks quiet isTask)
  · exact widths parsed inModule f (taskStatements_subset isTask inTask)

/-! ### What an index finds -/

/-- An index whose sections were analysed, and which finds under a reference a section of the
sizes that the reference was given. -/
structure SoundIndex (given : Answers) (scope : Scope) (index : AliasIndex) : Prop where
  found : ∀ definition, Available given scope definition →
    ∃ nested, index.find definition.info.typeKey = some nested ∧
      SizedAs nested definition.request
  sections : ∀ ref sec, index.sectionAt ref = some sec → AnalysedSection given scope sec

theorem find?_of_mem {definitions : SemanticModule} (distinct : DistinctDefinitions definitions)
    {definition : SemanticDefinition} (member : definition ∈ definitions) :
    definitions.find? (fun other => other.info.typeKey = definition.info.typeKey) =
      some definition := by
  have present : (definitions.find? fun other =>
      other.info.typeKey = definition.info.typeKey).isSome :=
    List.find?_isSome.mpr ⟨definition, member, decide_eq_true rfl⟩
  obtain ⟨first, found⟩ := Option.isSome_iff_exists.mp present
  have sameKey : first.info.typeKey = definition.info.typeKey := of_decide_eq_true
    (List.find?_some (p := fun other : SemanticDefinition =>
      other.info.typeKey = definition.info.typeKey) found)
  rw [found, List.inj_on_of_nodup_map distinct (List.mem_of_find?_eq_some found) member sameKey]

theorem catalogueSection_of_find {catalogue : SemanticModule} {key : TypeKey}
    {definition : SemanticDefinition}
    (found : catalogue.find? (fun other => other.info.typeKey = key) = some definition) :
    catalogueSection catalogue key = some definition.request := by
  obtain ⟨named, position, inside, here, earlier⟩ := List.find?_eq_some_iff_getElem.mp found
  have search : (List.range catalogue.length).find? (AliasIndex.hasKey catalogue key) =
      some position := by
    refine List.find?_range_eq_some.mpr ⟨?_, List.mem_range.mpr inside, fun other before => ?_⟩
    · exact hasKey_iff.mpr ⟨definition, here ▸ List.getElem?_eq_getElem inside,
        of_decide_eq_true named⟩
    · have listed : catalogue[other]? = some catalogue[other] :=
        List.getElem?_eq_getElem (before.trans inside)
      rw [AliasIndex.hasKey, listed]
      exact earlier other before
  rw [catalogueSection, search, Option.bind_some, List.getElem?_eq_getElem inside, here]
  rfl

/-- The definitions of `others` are those of an accepted module with the same headers and of
the same sizes. -/
structure SameSizes (env : AnalysisHost) (options : AnalyzeOptions) (module : ASTModule)
    (others : SemanticModule) : Prop where
  headers : others.map SemanticDefinition.info = module.map ParsedDefinition.info
  kept : ∀ definition ∈ analyzedDefinitions env options module,
    ∃ other ∈ others, other.info = definition.info ∧ SizedAs other.request definition.request
  sections : ∀ other ∈ others, ∀ sec ∈ other.sections,
    AnalysedSection (recordedAnswers env options module) (scopeOf env options module) sec

/-- Each section of the catalogue is what its analysis beside the module would give. -/
def CatalogueAnalysed (env : AnalysisHost) (options : AnalyzeOptions) (module : ASTModule) :
    Prop :=
  ∀ definition ∈ options.externalSemanticCatalog, ∀ sec ∈ definition.sections,
    AnalysedSection (recordedAnswers env options module) (scopeOf env options module) sec

theorem sectionAt_mem {index : AliasIndex} {ref : SectionRef} {sec : SemanticSection}
    (here : index.sectionAt ref = some sec) :
    ∃ definition ∈ index.module ++ index.catalogue, sec ∈ definition.sections := by
  cases ref with
  | own position response =>
      cases response with
      | false =>
          obtain ⟨definition, listed, same⟩ := Option.map_eq_some_iff.mp here
          exact ⟨definition, List.mem_append_left _ (List.mem_of_getElem? listed),
            mem_sections.mpr (.inl same.symm)⟩
      | true =>
          obtain ⟨definition, listed, same⟩ := Option.bind_eq_some_iff.mp here
          exact ⟨definition, List.mem_append_left _ (List.mem_of_getElem? listed),
            mem_sections.mpr (.inr same)⟩
  | external position =>
      obtain ⟨definition, listed, same⟩ := Option.map_eq_some_iff.mp here
      exact ⟨definition, List.mem_append_right _ (List.mem_of_getElem? listed),
        mem_sections.mpr (.inl same.symm)⟩

theorem SameSizes.soundIndex {others : SemanticModule} (same : SameSizes env options module others)
    (clean : VisitsClean env options module) (distinct : DistinctKeys module)
    (catalogue : CatalogueAnalysed env options module) :
    SoundIndex (recordedAnswers env options module) (scopeOf env options module)
      ⟨others, options.externalSemanticCatalog⟩ where
  found definition available := by
    have keys : others.map (fun other => other.info.typeKey) =
        module.map fun parsed => parsed.info.typeKey := by
      have mapped := congrArg (List.map DiscoveredDefinition.typeKey) same.headers
      rwa [List.map_map, List.map_map] at mapped
    have distinctOthers : DistinctDefinitions others := by
      rw [DistinctDefinitions, keys]
      exact distinct
    rw [find_eq _ distinctOthers]
    rcases available with ⟨key, _, recorded⟩ | ⟨key, notLocal, external⟩
    · obtain ⟨parsed, here, _, _, _⟩ := recorded_of_key clean recorded
      have listed : definition ∈ analyzedDefinitions env options module :=
        List.mem_filterMap.mpr ⟨_, List.mem_range.mpr (List.getElem?_eq_some_iff.mp here).1,
          recorded⟩
      obtain ⟨other, member, info, sized⟩ := same.kept definition listed
      refine ⟨other.request, ?_, sized⟩
      rw [← info, find?_of_mem distinctOthers member]
      rfl
    · have named : definition.info.typeKey = key := of_decide_eq_true
        (List.find?_some (p := fun other : SemanticDefinition => other.info.typeKey = key) external)
      refine ⟨definition.request, ?_, ⟨rfl, rfl, rfl, rfl, rfl⟩⟩
      have absent : others.find? (fun other => other.info.typeKey = definition.info.typeKey) =
          none := by
        rw [List.find?_eq_none]
        intro other member sameKey
        have inModule : key ∈ module.map fun parsed => parsed.info.typeKey := by
          rw [← keys, ← named, ← of_decide_eq_true sameKey]
          exact List.mem_map_of_mem member
        obtain ⟨parsed, listed, parsedKey⟩ := List.mem_map.mp inModule
        have isLocal : (scopeOf env options module).isLocal key = true :=
          List.any_eq_true.mpr ⟨parsed, listed, decide_eq_true parsedKey⟩
        rw [notLocal] at isLocal
        cases isLocal
      rw [absent, named]
      exact catalogueSection_of_find external
  sections ref sec here := by
    obtain ⟨definition, member, listed⟩ := sectionAt_mem here
    rcases List.mem_append.mp member with own | external
    · exact same.sections definition own sec listed
    · exact catalogue definition external sec listed

theorem sameSizes_markModule (clean : VisitsClean env options module)
    (widths : ∀ parsed ∈ module, NarrowWidths parsed.ast.statements) (views : Bool) :
    SameSizes env options module
      (markModule ⟨analyzedDefinitions env options module, options.externalSemanticCatalog⟩
        views) where
  headers := (markModule_info _ _).trans (analyzedDefinitions_info clean)
  kept definition listed := by
    rw [markModule]
    split
    · exact ⟨_, List.mem_map_of_mem listed, rfl, sizedAs_markViews _ _⟩
    · exact ⟨definition, listed, rfl, ⟨rfl, rfl, rfl, rfl, rfl⟩⟩
  sections other member sec listed := by
    rw [markModule] at member
    split at member
    · obtain ⟨definition, original, rfl⟩ := List.mem_map.mp member
      have analysed {inner : SemanticSection} (inside : inner ∈ definition.sections) :=
        analysedSection_of_clean clean widths original inside
      rcases mem_sections.mp listed with request | response
      · rw [request]
        exact (analysed (mem_sections.mpr (.inl rfl))).markViews _
      · obtain ⟨inner, here, rfl⟩ := Option.map_eq_some_iff.mp response
        exact (analysed (mem_sections.mpr (.inr here))).markViews _
    · exact analysedSection_of_clean clean widths member listed

theorem sameSizes_accepted {definitions : SemanticModule}
    (accepted : analyze env options module = some definitions)
    (widths : ∀ parsed ∈ module, NarrowWidths parsed.ast.statements) :
    SameSizes env options module definitions := by
  obtain ⟨clean, _, _, rfl⟩ := analyze_eq_some.mp accepted
  have marked := sameSizes_markModule clean widths options.aliasableViews
  rw [annotatedDefinitions, annotateAliasLayout]
  refine ⟨?_, fun definition listed => ?_, fun other member sec inOther => ?_⟩
  · rw [← marked.headers]
    refine List.ext_getElem? fun position => ?_
    rw [List.getElem?_map, List.getElem?_map, List.getElem?_mapIdx, Option.map_map]
    rfl
  · obtain ⟨other, member, info, sized⟩ := marked.kept definition listed
    obtain ⟨position, here⟩ := List.mem_iff_getElem?.mp member
    obtain ⟨inside, rfl⟩ := List.getElem?_eq_some_iff.mp here
    refine ⟨_, List.mem_mapIdx.mpr ⟨position, inside, rfl⟩, info, ?_⟩
    exact ⟨sized.isSealed, sized.extentBits, sized.offsetAtEnd, sized.minBitLength,
      sized.maxBitLength⟩
  · obtain ⟨position, inside, rfl⟩ := List.mem_mapIdx.mp member
    have analysed := marked.sections _ (List.getElem_mem inside)
    rcases mem_sections.mp inOther with request | response
    · rw [request]
      exact (analysed _ (mem_sections.mpr (.inl rfl))).annotate _ _ _
    · obtain ⟨inner, here, rfl⟩ := Option.map_eq_some_iff.mp response
      exact (analysed _ (mem_sections.mpr (.inr here))).annotate _ _ _

end Accepted

end LlvmDsdl.Semantics
