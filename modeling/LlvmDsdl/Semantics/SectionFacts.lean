import LlvmDsdl.Semantics.AnalysisLogic

/-!
Contract: what the analysis of a section establishes.

Owns: the facts of a resolved type, the facts of a finished section, the
invariant of the walk over its statements, and the proof that an analysis
without an error establishes them.
-/

namespace LlvmDsdl.Semantics

open Frontend Support Support.IntegerMath Library Library.TaskSystem

variable (given : Answers) (scope : Scope)

/-! ### Types -/

/-- A definition a type may be resolved to: one asked for, or one of the catalogue. -/
def Available (definition : SemanticDefinition) : Prop :=
  (∃ key, scope.isLocal key = true ∧ given key (some definition)) ∨
    ∃ key, scope.isLocal key = false ∧ scope.external key = some definition

/-- Every definition of the module that is asked for has a result. -/
def LocalAnswered : Prop :=
  ∀ key, scope.isLocal key = true → ¬ given key none

/-- The element of a composite type: a message, where another definition refers to it. -/
structure CompositeFacts (type : SemanticFieldType) (element : LengthSet)
    (definition : SemanticDefinition) : Prop where
  available : Available given scope definition
  isMessage : definition.isService = false
  category : type.scalarCategory = .composite
  alignment : type.alignmentBits = 8
  reference : type.compositeType = some (typeRefOf definition.info)
  sealing : type.compositeSealed = definition.request.sealed
  extent : type.compositeExtentBits = extentOrMax definition.request
  lengths : element = compositeWireBitLengthSet definition.request

/-- The element of a type that is not composite. -/
structure ScalarFacts (type : SemanticFieldType) (element : LengthSet) : Prop where
  category : type.scalarCategory ≠ .composite
  alignment : type.alignmentBits = 1
  reference : type.compositeType = none
  lengths : element = .ofValue type.bitLength

/-- The element of a resolved type and the lengths it has. -/
def ElementFacts (type : SemanticFieldType) (element : LengthSet) : Prop :=
  ScalarFacts type element ∨ ∃ definition, CompositeFacts given scope type element definition

/-- The lengths of a resolved type, from those of its element. -/
def ArrayFacts (type : SemanticFieldType) (element : LengthSet) : Prop :=
  match type.arrayKind with
  | .none => type.bitLengthSet = element
  | .fixed =>
      1 ≤ type.arrayCapacity ∧ type.arrayCapacity ≤ int64Max ∧
        type.bitLengthSet = element.repeated type.arrayCapacity
  | _ =>
      1 ≤ type.arrayCapacity ∧ type.arrayCapacity ≤ int64Max ∧
        type.arrayLengthPrefixBits = lengthPrefixBits type.arrayCapacity ∧
        type.bitLengthSet = (LengthSet.ofValue type.arrayLengthPrefixBits).add
          (element.repeatRange type.arrayCapacity)

def TypeFacts (type : SemanticFieldType) : Prop :=
  ∃ element, ElementFacts given scope type element ∧ ArrayFacts type element

/-- What is known of a layout: its type's facts, and that it repeats them. -/
structure LayoutFacts (layout : TypeLayout) : Prop where
  lengths : layout.resolved.bitLengthSet = layout.bls
  alignment : layout.resolved.alignmentBits = layout.alignment
  type : TypeFacts given scope layout.resolved

/-! ### Sections -/

/-- The lengths after one more field of a structure. -/
def placeField (set : LengthSet) (field : SemanticField) : LengthSet :=
  (set.padToAlignment field.resolvedType.alignmentBits).add field.resolvedType.bitLengthSet

def fieldsOffset (fields : List SemanticField) : LengthSet :=
  fields.foldl placeField (.ofValue 0)

/-- A union's option: its position among the options, and no padding. -/
def OptionsNumbered (fields : List SemanticField) : Prop :=
  ∀ (position : ℕ) (field : SemanticField), fields[position]? = some field →
    field.unionOptionIndex = position ∧ field.isPadding = false

/-- What is known of a section whose analysis reported no error. -/
structure SectionFacts (sec : SemanticSection) : Prop where
  types : ∀ field ∈ sec.fields, TypeFacts given scope field.resolvedType
  names : ((sec.fields.filter fun field => !field.isPadding).map SemanticField.name).Nodup
  structureOffset : sec.isUnion = false →
    sec.offsetAtEnd = (fieldsOffset sec.fields).padToAlignment 8
  unionOffset : sec.isUnion = true → ∃ layouts : List TypeLayout,
    layouts.map TypeLayout.bls = sec.fields.map (fun field => field.resolvedType.bitLengthSet) ∧
      2 ≤ layouts.length ∧ sec.offsetAtEnd = computeUnionOffsetFromSeenFields layouts ∧
      ∀ field ∈ sec.fields, field.unionTagBits = unionTagBitsOf sec.fields.length
  options : sec.isUnion = true → OptionsNumbered sec.fields
  minimum : sec.minBitLength = sec.offsetAtEnd.min
  maximum : sec.maxBitLength = sec.offsetAtEnd.max
  fixed : sec.fixedSize = sec.offsetAtEnd.fixed
  sealedExtent : sec.sealed = true → sec.extentBits = some sec.offsetAtEnd.max
  extent : sec.sealed = false → ∃ extent, sec.extentBits = some extent ∧ 0 ≤ extent ∧
    8 ∣ extent ∧ sec.offsetAtEnd.max ≤ extent

section Types

variable {given scope}

def Resolves (scope : Scope) (found : ResolvedCompositeDefinition) : Prop :=
  (found.definition = none ∧ scope.isLocal found.key = true) ∨
    ∃ definition, found.definition = some definition ∧ scope.isLocal found.key = false ∧
      scope.external found.key = some definition

theorem resolves_of_resolveCandidate {type : VersionedTypeExprAST} {candidate : String}
    {found : ResolvedCompositeDefinition}
    (resolves : resolveCandidate scope type candidate = some found) : Resolves scope found := by
  rw [resolveCandidate] at resolves
  cases isLocal : scope.isLocal ⟨candidate, type.major, type.minor⟩ with
  | true =>
      rw [isLocal, if_pos rfl] at resolves
      cases resolves
      exact Or.inl ⟨rfl, isLocal⟩
  | false =>
      rw [isLocal, if_neg (by decide)] at resolves
      have ⟨definition, external, same⟩ := Option.map_eq_some_iff.mp resolves
      cases same
      exact Or.inr ⟨definition, rfl, isLocal, external⟩

theorem establishes_resolveCompositeType {owner : DiscoveredDefinition}
    {type : VersionedTypeExprAST} {location : SourceLocation} :
    Establishes given (resolveCompositeType scope owner type location) fun resolved =>
      ∃ found, resolved = some found ∧ Resolves scope found := by
  rw [resolveCompositeType]
  split
  · rename_i resolved search
    have ⟨candidate, _, resolves⟩ := List.exists_of_findSome?_eq_some search
    exact establishes_pure ⟨resolved, rfl, resolves_of_resolveCandidate resolves⟩
  · exact establishes_refuse

/-- What a resolved reference gives is available, when every answer is a definition. -/
theorem establishes_resolvedDefinition (scope : Scope) (answered : LocalAnswered given scope)
    {resolved : ResolvedCompositeDefinition} :
    Establishes given (resolvedDefinition resolved) fun answer =>
      Resolves scope resolved →
        ∃ definition, answer = some definition ∧ Available given scope definition := by
  rw [resolvedDefinition]
  cases known : resolved.definition with
  | none =>
      refine establishes_analyzeOther.mono ?_
      intro answer answers origin
      cases answer with
      | none =>
          rcases origin with local_ | ⟨other, found, _⟩
          · exact absurd answers (answered resolved.key local_.2)
          · rw [known] at found
            cases found
      | some definition =>
          rcases origin with local_ | ⟨other, found, _⟩
          · exact ⟨definition, rfl, Or.inl ⟨resolved.key, local_.2, answers⟩⟩
          · rw [known] at found
            cases found
  | some external =>
      refine establishes_pure ?_
      intro origin
      rcases origin with ⟨absent, _⟩ | ⟨other, found, notLocal, inCatalogue⟩
      · rw [known] at absent
        cases absent
      · rw [known] at found
        cases found
        exact ⟨external, rfl, Or.inr ⟨resolved.key, notLocal, inCatalogue⟩⟩

theorem layoutFacts_scalar (category : SemanticScalarCategory) (castMode : CastMode)
    (bitLength : ℕ) (notComposite : category ≠ .composite) :
    LayoutFacts given scope (scalarLayout category castMode bitLength) where
  lengths := rfl
  alignment := rfl
  type := ⟨_, Or.inl ⟨notComposite, rfl, rfl, rfl⟩, rfl⟩

theorem layoutFacts_composite {definition : SemanticDefinition}
    (available : Available given scope definition) (isMessage : definition.isService = false) :
    LayoutFacts given scope (compositeLayout definition) where
  lengths := rfl
  alignment := rfl
  type := ⟨_, Or.inr ⟨definition, available, isMessage, rfl, rfl, rfl, rfl, rfl, rfl⟩, rfl⟩

theorem primitiveCategory_ne_composite (kind : PrimitiveKind) :
    primitiveCategory kind ≠ .composite := by
  cases kind <;> decide

def ScalarLayoutFacts (given : Answers) (scope : Scope) (layout : TypeLayout) : Prop :=
  LayoutFacts given scope layout ∧ layout.resolved.arrayKind = .none

theorem establishes_baseFromScalar (answered : LocalAnswered given scope)
    {owner : DiscoveredDefinition} {type : TypeExprAST} :
    Establishes given (baseFromScalar scope owner type) (ScalarLayoutFacts given scope) := by
  rw [baseFromScalar]
  split
  · exact establishes_pure ⟨layoutFacts_scalar _ _ _ (primitiveCategory_ne_composite _), rfl⟩
  · exact establishes_pure ⟨layoutFacts_scalar _ _ _ (by decide), rfl⟩
  · refine establishes_bind _ establishes_resolveCompositeType ?_
    intro found
    cases found with
    | none =>
        refine establishes_pure ?_
        intro ⟨resolved, absent, _⟩
        cases absent
    | some resolved =>
        refine establishes_bind _ (establishes_resolvedDefinition scope answered) ?_
        intro answer
        cases answer with
        | none =>
            refine establishes_pure ?_
            intro available ⟨other, same, resolves⟩
            cases same
            have ⟨definition, absent, _⟩ := available resolves
            cases absent
        | some definition =>
            dsimp only
            split
            · exact establishes_report_then fun _ => establishes_pure trivial
            · rename_i isMessage
              refine establishes_pure ?_
              intro available ⟨other, same, resolves⟩
              cases same
              have ⟨found, same, isAvailable⟩ := available resolves
              cases same
              exact ⟨layoutFacts_composite isAvailable (Bool.eq_false_iff.mpr isMessage), rfl⟩

theorem establishes_faultyType {location : SourceLocation} {message : String}
    {post : TypeLayout → Prop} : Establishes given (faultyType location message) post :=
  establishes_report_then fun _ => establishes_pure trivial

theorem ScalarLayoutFacts.element {layout : TypeLayout}
    (facts : ScalarLayoutFacts given scope layout) :
    ElementFacts given scope layout.resolved layout.bls := by
  have ⟨element, elementFacts, arrayFacts⟩ := facts.1.type
  rw [ArrayFacts, facts.2] at arrayFacts
  rw [← facts.1.lengths, arrayFacts]
  exact elementFacts

/-- An element's facts do not read the fields that make it an array. -/
theorem elementFacts_arrayOf {layout : TypeLayout} {kind : ArrayKind} {capacity prefixBits : ℤ}
    {bls element : LengthSet} (facts : ElementFacts given scope layout.resolved element)
    (alignment : layout.resolved.alignmentBits = layout.alignment) :
    ElementFacts given scope (layout.arrayOf kind capacity prefixBits bls).resolved element := by
  rcases facts with scalar | ⟨definition, composite⟩
  · left
    exact ⟨scalar.category, alignment.symm.trans scalar.alignment, scalar.reference,
      scalar.lengths⟩
  · right
    exact ⟨definition, composite.available, composite.isMessage, composite.category,
      alignment.symm.trans composite.alignment, composite.reference, composite.sealing,
      composite.extent, composite.lengths⟩

theorem layoutFacts_arrayOf {layout : TypeLayout} {kind : ArrayKind} {capacity prefixBits : ℤ}
    {bls : LengthSet} (element : ElementFacts given scope layout.resolved layout.bls)
    (alignment : layout.resolved.alignmentBits = layout.alignment)
    (array : ArrayFacts (layout.arrayOf kind capacity prefixBits bls).resolved layout.bls) :
    LayoutFacts given scope (layout.arrayOf kind capacity prefixBits bls) where
  lengths := rfl
  alignment := rfl
  type := ⟨layout.bls, elementFacts_arrayOf element alignment, array⟩

theorem establishes_arrayLayout {location : SourceLocation} {kind : ArrayKind}
    {layout : TypeLayout} {capacity : ℤ}
    (element : ElementFacts given scope layout.resolved layout.bls)
    (alignment : layout.resolved.alignmentBits = layout.alignment) (isArray : kind ≠ .none)
    (bounded : capacity ≤ int64Max) :
    Establishes given (arrayLayout location kind layout capacity) (LayoutFacts given scope) := by
  cases kind with
  | none => exact absurd rfl isArray
  | fixed =>
      rw [arrayLayout, fixedArray]
      split
      · exact establishes_faultyType
      · rename_i positive
        exact establishes_pure (layoutFacts_arrayOf element alignment
          ⟨Int.not_lt.mp positive, bounded, rfl⟩)
  | variableExclusive =>
      rw [arrayLayout]
      split
      · exact establishes_faultyType
      · rename_i above
        have lower : 1 ≤ capacity - 1 := by omega
        have upper : capacity - 1 ≤ int64Max := by omega
        exact establishes_pure (layoutFacts_arrayOf element alignment ⟨lower, upper, rfl, rfl⟩)
  | variableInclusive =>
      rw [arrayLayout]
      split
      · exact establishes_faultyType
      · rename_i positive
        exact establishes_pure (layoutFacts_arrayOf element alignment
          ⟨Int.not_lt.mp positive, bounded, rfl, rfl⟩)

theorem establishes_arrayLayout_adds {location : SourceLocation} {kind : ArrayKind}
    {layout : TypeLayout} {capacity : ℤ} :
    Establishes given (arrayLayout location kind layout capacity) fun _ => True := by
  cases kind with
  | none => exact establishes_pure trivial
  | fixed =>
      rw [arrayLayout, fixedArray]
      split
      · exact establishes_faultyType
      · exact establishes_pure trivial
  | variableExclusive =>
      rw [arrayLayout]
      split
      · exact establishes_faultyType
      · exact establishes_pure trivial
  | variableInclusive =>
      rw [arrayLayout]
      split
      · exact establishes_faultyType
      · exact establishes_pure trivial

theorem integerOf_le {value : Option Value} {integer : ℤ}
    (same : integerOf value = some (some integer)) : integer ≤ int64Max := by
  rw [integerOf.eq_def] at same
  split at same
  · rename_i number
    split at same
    · have found := Option.some.inj same
      rw [Rational.asInteger] at found
      split at found
      · rename_i bounds
        cases found
        rw [int64Max]
        omega
      · cases found
    · cases same
  · cases same

theorem elementFacts_withKind {type : SemanticFieldType} {element : LengthSet}
    (facts : ElementFacts given scope type element) (kind : ArrayKind) :
    ElementFacts given scope { type with arrayKind := kind } element := by
  rcases facts with scalar | ⟨definition, composite⟩
  · exact Or.inl ⟨scalar.category, scalar.alignment, scalar.reference, scalar.lengths⟩
  · exact Or.inr ⟨definition, composite.available, composite.isMessage, composite.category,
      composite.alignment, composite.reference, composite.sealing, composite.extent,
      composite.lengths⟩

variable {env : ValueEnv} {resolver : TypeAttributeResolver Ask}

theorem establishes_analyzeType (answered : LocalAnswered given scope)
    (adds : ResolverAdds given (some resolver)) {owner : DiscoveredDefinition}
    {type : TypeExprAST} :
    Establishes given (analyzeType scope env resolver owner type) (LayoutFacts given scope) := by
  rw [analyzeType]
  refine establishes_bind _ (establishes_baseFromScalar answered) ?_
  intro base
  dsimp only
  split
  · rename_i isScalar
    refine establishes_pure ?_
    intro facts
    rw [isScalar, ← facts.2]
    exact facts.1
  · exact establishes_faultyType
  · exact establishes_faultyType
  · rename_i expression _ notScalar _
    apply establishes_seq (establishes_evaluateExpression adds _ _)
    intro value
    split
    · exact establishes_faultyType
    · exact establishes_faultyType
    · rename_i capacity found
      by_cases facts : ScalarLayoutFacts given scope base
      · let layout : TypeLayout :=
          { base with resolved := { base.resolved with arrayKind := type.arrayKind } }
        have element : ElementFacts given scope layout.resolved layout.bls :=
          elementFacts_withKind facts.element type.arrayKind
        have alignment : layout.resolved.alignmentBits = layout.alignment := facts.1.alignment
        apply Establishes.mono (establishes_arrayLayout element alignment
          (fun same => notScalar same) (integerOf_le found))
        exact fun result layoutFacts _ => layoutFacts
      · apply Establishes.mono establishes_arrayLayout_adds
        exact fun _ _ holds => absurd holds facts

end Types

/-! ### The walk over the statements -/

def fieldNames (fields : List SemanticField) : List String :=
  (fields.filter fun field => !field.isPadding).map SemanticField.name

/-- What holds of the walk's state as long as no error is reported. -/
structure WalkFacts (state : SectionState) : Prop where
  types : ∀ field ∈ state.out.fields, TypeFacts given scope field.resolvedType
  distinct : (fieldNames state.out.fields).Nodup
  taken : ∀ name ∈ fieldNames state.out.fields, name ∈ state.names
  unstarted : state.attributesStarted = false →
    state.out.fields = [] ∧ state.unionFields = [] ∧ state.unionOptionCounter = 0
  structureOffset : state.out.isUnion = false →
    state.structureOffset = fieldsOffset state.out.fields
  unionFields : state.out.isUnion = true → state.unionFields.map TypeLayout.bls =
    state.out.fields.map fun field => field.resolvedType.bitLengthSet
  options : state.out.isUnion = true →
    OptionsNumbered state.out.fields ∧ state.unionOptionCounter = state.out.fields.length

section Walk

variable {given scope} {owner : DiscoveredDefinition} {isResponse : Bool}

theorem optionsNumbered_nil : OptionsNumbered [] := by
  intro _ _ found
  rw [List.getElem?_nil] at found
  cases found

theorem walkFacts_initial : WalkFacts given scope {} where
  types := fun _ member => absurd member List.not_mem_nil
  distinct := List.nodup_nil
  taken := fun _ member => absurd member List.not_mem_nil
  unstarted := fun _ => ⟨rfl, rfl, rfl⟩
  structureOffset := fun _ => rfl
  unionFields := fun _ => rfl
  options := fun _ => ⟨optionsNumbered_nil, rfl⟩

theorem WalkFacts.keep {state after : SectionState} (facts : WalkFacts given scope state)
    (fields : after.out.fields = state.out.fields) (isUnion : after.out.isUnion = state.out.isUnion)
    (names : ∀ name ∈ state.names, name ∈ after.names)
    (started : after.attributesStarted = false → state.attributesStarted = false)
    (offset : after.structureOffset = state.structureOffset)
    (unionFields : after.unionFields = state.unionFields)
    (counter : after.unionOptionCounter = state.unionOptionCounter) :
    WalkFacts given scope after where
  types := by
    rw [fields]
    exact facts.types
  distinct := by
    rw [fields]
    exact facts.distinct
  taken := by
    rw [fields]
    exact fun name member => names name (facts.taken name member)
  unstarted := by
    rw [fields, unionFields, counter]
    exact fun unstarted => facts.unstarted (started unstarted)
  structureOffset := by
    rw [fields, isUnion, offset]
    exact facts.structureOffset
  unionFields := by
    rw [fields, isUnion, unionFields]
    exact facts.unionFields
  options := by
    rw [fields, isUnion, counter]
    exact facts.options

def Keeps (given : Answers) (scope : Scope) (state : SectionState)
    (step : Analysis SectionState) : Prop :=
  Establishes given step fun after => WalkFacts given scope state → WalkFacts given scope after

theorem keeps_pure {state after : SectionState}
    (kept : WalkFacts given scope state → WalkFacts given scope after) :
    Keeps given scope state (pure after) :=
  establishes_pure kept

theorem keeps_seq {α : Type} {state : SectionState} {first : Analysis α} {middle : α → Prop}
    {next : α → Analysis SectionState} (establishes : Establishes given first middle)
    (keeps : ∀ value, Keeps given scope state (next value)) :
    Keeps given scope state (first >>= next) :=
  establishes_seq establishes keeps

theorem keeps_fault {state after : SectionState} {location : SourceLocation} {message : String} :
    Keeps given scope state (reportError location message >>= fun _ => pure after) :=
  establishes_report_then fun _ => establishes_pure trivial

theorem resolverAdds_typeAttrResolver (answered : LocalAnswered given scope) :
    ResolverAdds given (some (typeAttrResolver scope owner)) := by
  intro resolve same type name location
  cases same
  rw [typeAttrResolver]
  split
  · refine establishes_seq establishes_resolveCompositeType ?_
    intro found
    cases found with
    | none => exact establishes_pure trivial
    | some resolved =>
        refine establishes_seq (establishes_resolvedDefinition scope answered) ?_
        intro answer
        cases answer with
        | none => exact establishes_refuse
        | some definition =>
            dsimp only
            split
            · exact establishes_refuse
            · split
              · exact establishes_pure trivial
              · exact establishes_refuse
  · exact establishes_refuse

theorem establishes_evaluateIn (answered : LocalAnswered given scope) {state : SectionState}
    {expression : ExprAST} {location : SourceLocation} :
    Establishes given (evaluateIn scope owner state expression location) fun _ => True :=
  establishes_evaluateExpression (resolverAdds_typeAttrResolver answered) _ _

/-! ### Directives -/

theorem keeps_unionDirective {d : DirectiveAST} {state : SectionState} :
    Keeps given scope state (unionDirective d state) := by
  unfold unionDirective
  apply keeps_seq establishes_reportWhen
  intro _
  apply keeps_seq establishes_reportWhen
  intro _
  refine establishes_bind _ establishes_reportWhen ?_
  intro _
  refine establishes_pure ?_
  intro unstarted facts
  have ⟨fields, unionFields, counter⟩ := facts.unstarted unstarted
  exact
    { types := facts.types
      distinct := facts.distinct
      taken := facts.taken
      unstarted := facts.unstarted
      structureOffset := fun impossible => Bool.noConfusion impossible
      unionFields := fun _ => by
        dsimp only
        rw [fields, unionFields]
        rfl
      options := fun _ => by
        dsimp only
        rw [fields, counter]
        exact ⟨optionsNumbered_nil, rfl⟩ }

theorem keeps_analyzeDirective (answered : LocalAnswered given scope) {d : DirectiveAST}
    {state : SectionState} :
    Keeps given scope state (analyzeDirective scope owner isResponse d state) := by
  have same : WalkFacts given scope state → WalkFacts given scope state := id
  rw [analyzeDirective]
  cases d.kind with
  | unknown => exact keeps_fault
  | union => exact keeps_unionDirective
  | aliasable =>
      apply keeps_seq establishes_reportWhen
      intro _
      apply keeps_seq establishes_reportWhen
      intro _
      exact keeps_pure fun facts => facts.keep rfl rfl (fun _ taken => taken) id rfl rfl rfl
  | deprecated =>
      apply keeps_seq establishes_reportWhen
      intro _
      apply keeps_seq establishes_reportWhen
      intro _
      apply keeps_seq establishes_reportWhen
      intro _
      apply keeps_seq establishes_reportWhen
      intro _
      exact keeps_pure fun facts => facts.keep rfl rfl (fun _ taken => taken) id rfl rfl rfl
  | extent =>
      dsimp only
      rw [extentDirective]
      split
      · exact keeps_fault
      · exact keeps_fault
      · apply keeps_seq (establishes_evaluateIn answered)
        intro value
        split
        · exact keeps_fault
        · exact keeps_fault
        · apply keeps_seq establishes_reportWhen
          intro _
          exact keeps_pure fun facts => facts.keep rfl rfl (fun _ taken => taken) id rfl rfl rfl
  | «sealed» =>
      dsimp only
      rw [sealedDirective]
      split
      · exact keeps_fault
      · apply keeps_seq establishes_reportWhen
        intro _
        exact keeps_pure fun facts => facts.keep rfl rfl (fun _ taken => taken) id rfl rfl rfl
  | assert =>
      dsimp only
      rw [assertDirective]
      split
      · exact keeps_fault
      · apply keeps_seq (establishes_evaluateIn answered)
        intro value
        have asserted : Establishes given (checkAssertion d.location value) fun _ => True := by
          rw [checkAssertion.eq_def]
          split
          · exact establishes_pure trivial
          · exact establishes_reportError.mono fun _ _ => trivial
          · exact establishes_reportError.mono fun _ _ => trivial
        apply keeps_seq asserted
        intro _
        exact keeps_pure fun facts => facts.keep rfl rfl (fun _ taken => taken) id rfl rfl rfl
  | print =>
      dsimp only
      rw [printDirective]
      split
      · apply keeps_seq establishes_reportNote
        intro _
        exact keeps_pure same
      · apply keeps_seq (establishes_evaluateIn answered)
        intro value
        cases value with
        | none =>
            exact keeps_pure fun facts => facts.keep rfl rfl (fun _ taken => taken) id rfl rfl rfl
        | some value =>
            apply keeps_seq establishes_reportNote
            intro _
            exact keeps_pure fun facts => facts.keep rfl rfl (fun _ taken => taken) id rfl rfl rfl

/-! ### Attributes -/

theorem keeps_analyzeConstant (answered : LocalAnswered given scope) {c : ConstantDeclAST}
    {state : SectionState} :
    Keeps given scope state (analyzeConstant scope owner c state) := by
  have started : WalkFacts given scope state →
      WalkFacts given scope { state with attributesStarted := true } := fun facts =>
    facts.keep rfl rfl (fun _ taken => taken) (fun unstarted => Bool.noConfusion unstarted)
      rfl rfl rfl
  unfold analyzeConstant
  apply keeps_seq establishes_reportWhen
  intro _
  dsimp only
  split
  · exact keeps_fault
  · apply keeps_seq (establishes_evaluateIn answered)
    intro value
    cases value with
    | none => exact keeps_pure started
    | some value =>
        have checked : Establishes given (checkConstantCompatibility c value) fun _ => True := by
          rw [checkConstantCompatibility]
          split
          · exact establishes_pure trivial
          · exact establishes_report_then fun _ => establishes_pure trivial
        apply keeps_seq checked
        intro compatible
        cases compatible with
        | false => exact keeps_pure started
        | true =>
            exact keeps_pure fun facts => (started facts).keep rfl rfl
              (fun _ taken => List.mem_cons_of_mem _ taken) id rfl rfl rfl

theorem fieldNames_append (fields : List SemanticField) (field : SemanticField) :
    fieldNames (fields ++ [field]) =
      fieldNames fields ++ if field.isPadding then [] else [field.name] := by
  rw [fieldNames, List.filter_append, List.map_append, ← fieldNames]
  cases padding : field.isPadding with
  | true => simp [List.filter, padding]
  | false => simp [List.filter, padding]

theorem fieldsOffset_append (fields : List SemanticField) (field : SemanticField) :
    fieldsOffset (fields ++ [field]) = placeField (fieldsOffset fields) field := by
  rw [fieldsOffset, List.foldl_append, ← fieldsOffset]
  rfl

/-- The options of a union stay numbered when the next one is added. -/
theorem OptionsNumbered.append {fields : List SemanticField} {field : SemanticField}
    (numbered : OptionsNumbered fields) (next : field.unionOptionIndex = fields.length)
    (notPadding : field.isPadding = false) : OptionsNumbered (fields ++ [field]) := by
  intro position found at_
  rcases Nat.lt_or_ge position fields.length with inside | outside
  · rw [List.getElem?_append_left inside] at at_
    exact numbered position found at_
  · rw [List.getElem?_append_right outside] at at_
    have ⟨last, same⟩ := List.getElem?_eq_some_iff.mp at_
    have isLast : position = fields.length := by
      rw [List.length_singleton] at last
      omega
    rw [List.getElem_singleton] at same
    rw [← same, isLast]
    exact ⟨next, notPadding⟩

def takeName (f : FieldDeclAST) (state : SectionState) : SectionState :=
  if f.isPadding then { state with attributesStarted := true }
  else { state with attributesStarted := true, names := f.name :: state.names }

theorem nameError_eq_none {state : SectionState} {name : String}
    (accepted : nameError state name = none) : name ∉ state.names := by
  rw [nameError] at accepted
  split at accepted
  · cases accepted
  · split at accepted
    · cases accepted
    · rename_i absent
      rw [List.contains_iff_mem] at absent
      exact absent

theorem WalkFacts.takeName {f : FieldDeclAST} {state : SectionState}
    (facts : WalkFacts given scope state) : WalkFacts given scope (takeName f state) := by
  rw [Semantics.takeName]
  split
  · exact facts.keep rfl rfl (fun _ taken => taken) (fun unstarted => Bool.noConfusion unstarted)
      rfl rfl rfl
  · exact facts.keep rfl rfl (fun _ taken => List.mem_cons_of_mem _ taken)
      (fun unstarted => Bool.noConfusion unstarted) rfl rfl rfl

theorem takeName_started (f : FieldDeclAST) (state : SectionState) :
    (takeName f state).attributesStarted = true := by
  rw [takeName]
  split <;> rfl

theorem takeName_out (f : FieldDeclAST) (state : SectionState) :
    (takeName f state).out = state.out := by
  rw [takeName]
  split <;> rfl

theorem mem_takeName (f : FieldDeclAST) (state : SectionState) (named : f.isPadding = false) :
    f.name ∈ (takeName f state).names := by
  rw [takeName, named]
  exact List.mem_cons_self

section AddField

variable {f : FieldDeclAST} {layout : TypeLayout} {state : SectionState}

theorem WalkFacts.types_append (facts : WalkFacts given scope state)
    (type : LayoutFacts given scope layout) :
    ∀ field ∈ state.out.fields ++ [semanticField isResponse f state layout],
      TypeFacts given scope field.resolvedType := by
  intro field member
  rcases List.mem_append.mp member with earlier | last
  · exact facts.types field earlier
  · rw [List.mem_singleton] at last
    rw [last]
    exact type.type

theorem fieldNames_semanticField :
    fieldNames (state.out.fields ++ [semanticField isResponse f state layout]) =
      fieldNames state.out.fields ++ if f.isPadding then [] else [f.name] :=
  fieldNames_append _ _

theorem WalkFacts.distinct_append (facts : WalkFacts given scope state)
    (free : f.isPadding = false → f.name ∉ fieldNames state.out.fields) :
    (fieldNames (state.out.fields ++ [semanticField isResponse f state layout])).Nodup := by
  rw [fieldNames_semanticField]
  cases padding : f.isPadding with
  | true =>
      rw [if_pos rfl, List.append_nil]
      exact facts.distinct
  | false =>
      rw [if_neg (by decide)]
      refine List.Nodup.append facts.distinct (List.nodup_singleton _) ?_
      intro name taken last
      rw [List.mem_singleton] at last
      rw [last] at taken
      exact free padding taken

theorem WalkFacts.taken_append (facts : WalkFacts given scope state)
    (taken : f.isPadding = false → f.name ∈ state.names) :
    ∀ name ∈ fieldNames (state.out.fields ++ [semanticField isResponse f state layout]),
      name ∈ state.names := by
  rw [fieldNames_semanticField]
  intro name member
  rcases List.mem_append.mp member with earlier | last
  · exact facts.taken name earlier
  · cases padding : f.isPadding with
    | true =>
        rw [padding, if_pos rfl] at last
        exact absurd last List.not_mem_nil
    | false =>
        rw [padding, if_neg (by decide), List.mem_singleton] at last
        rw [last]
        exact taken padding

/-- A field whose name is new and whose type is resolved keeps the facts. -/
theorem WalkFacts.addField (facts : WalkFacts given scope state)
    (type : LayoutFacts given scope layout) (started : state.attributesStarted = true)
    (taken : f.isPadding = false → f.name ∈ state.names)
    (free : f.isPadding = false → f.name ∉ fieldNames state.out.fields)
    (plain : (state.out.isUnion && f.isPadding) = false) :
    WalkFacts given scope (addField isResponse f layout state) := by
  have unstarted {statement : Prop} : state.attributesStarted = false → statement := by
    intro impossible
    rw [started] at impossible
    cases impossible
  rw [Semantics.addField]
  cases isUnion : state.out.isUnion with
  | true =>
      rw [if_pos rfl]
      rw [isUnion] at plain
      have ⟨numbered, counter⟩ := facts.options isUnion
      have named : f.isPadding = false := plain
      exact
        { types := facts.types_append type
          distinct := facts.distinct_append free
          taken := facts.taken_append taken
          unstarted := unstarted
          structureOffset := fun notUnion => by
            dsimp only at notUnion
            rw [isUnion] at notUnion
            cases notUnion
          unionFields := fun _ => by
            dsimp only
            rw [List.map_append, List.map_append, ← facts.unionFields isUnion]
            rw [List.map_singleton, List.map_singleton, semanticField, type.lengths]
          options := fun _ => by
            dsimp only
            refine ⟨numbered.append ?_ named, ?_⟩
            · rw [semanticField, isUnion, named]
              exact counter
            · rw [named, List.length_append, ← counter]
              rfl }
  | false =>
      rw [if_neg (by decide)]
      exact
        { types := facts.types_append type
          distinct := facts.distinct_append free
          taken := facts.taken_append taken
          unstarted := unstarted
          structureOffset := fun _ => by
            dsimp only
            rw [fieldsOffset_append, ← facts.structureOffset isUnion, placeField, semanticField,
              type.lengths, type.alignment]
          unionFields := fun impossible => by
            dsimp only at impossible
            rw [isUnion] at impossible
            cases impossible
          options := fun impossible => by
            dsimp only at impossible
            rw [isUnion] at impossible
            cases impossible }

end AddField

theorem keeps_analyzeField (answered : LocalAnswered given scope) {f : FieldDeclAST}
    {state : SectionState} :
    Keeps given scope state (analyzeField scope owner isResponse f state) := by
  unfold analyzeField
  apply keeps_seq establishes_reportWhen
  intro _
  dsimp only
  split
  · exact keeps_fault
  · rename_i accepted
    split
    · exact keeps_fault
    · rename_i plain
      apply keeps_seq establishes_reportWhen
      intro _
      refine establishes_bind _ (establishes_analyzeType answered
        (resolverAdds_typeAttrResolver answered)) ?_
      intro layout
      refine establishes_pure ?_
      intro type facts
      have named : WalkFacts given scope (takeName f state) := facts.takeName
      have free : f.isPadding = false → f.name ∉ fieldNames (takeName f state).out.fields := by
        intro named member
        rw [named] at accepted
        rw [takeName_out] at member
        exact nameError_eq_none accepted (facts.taken _ member)
      refine named.addField type (takeName_started f state) (mem_takeName f state) free ?_
      rw [takeName_out]
      exact Bool.eq_false_iff.mpr plain

/-! ### Statements -/

theorem keeps_enterStatement {state : SectionState} {stmt : StatementAST}
    (facts : WalkFacts given scope state) : WalkFacts given scope (enterStatement stmt state) := by
  rw [enterStatement]
  split
  · exact facts.keep rfl rfl (fun _ taken => taken) id rfl rfl rfl
  · exact facts.keep rfl rfl (fun _ taken => taken) id rfl rfl rfl

theorem keeps_analyzeStatement (answered : LocalAnswered given scope) {stmt : StatementAST}
    {state : SectionState} :
    Keeps given scope state (analyzeStatement scope owner isResponse state stmt) := by
  have entered : WalkFacts given scope state → WalkFacts given scope (enterStatement stmt state) :=
    keeps_enterStatement
  cases stmt with
  | directive d =>
      exact (keeps_analyzeDirective answered).mono fun after kept facts => kept (entered facts)
  | constant c =>
      exact (keeps_analyzeConstant answered).mono fun after kept facts => kept (entered facts)
  | field f =>
      exact (keeps_analyzeField answered).mono fun after kept facts => kept (entered facts)
  | serviceResponseMarker location => exact keeps_pure entered

theorem keeps_analyzeStatements (answered : LocalAnswered given scope)
    (statements : List StatementAST) (state : SectionState) :
    Keeps given scope state (analyzeStatements scope owner isResponse statements state) := by
  induction statements generalizing state with
  | nil => exact keeps_pure id
  | cons stmt rest ih =>
      rw [analyzeStatements]
      refine establishes_bind _ (keeps_analyzeStatement answered) ?_
      intro after
      exact (ih after).mono fun last kept first facts => kept (first facts)

/-! ### The end of a section -/

/-- The fields of a union, once its tag is known. -/
def withTag (tagBits : ℤ) (field : SemanticField) : SemanticField :=
  if field.isPadding then field else { field with unionTagBits := tagBits }

theorem withTag_same (tagBits : ℤ) (field : SemanticField) :
    (withTag tagBits field).isPadding = field.isPadding ∧
      (withTag tagBits field).name = field.name ∧
      (withTag tagBits field).resolvedType = field.resolvedType ∧
      (withTag tagBits field).unionOptionIndex = field.unionOptionIndex := by
  rw [withTag]
  split
  · exact ⟨rfl, rfl, rfl, rfl⟩
  · exact ⟨rfl, rfl, rfl, rfl⟩

theorem fieldNames_withTag (fields : List SemanticField) (tagBits : ℤ) :
    fieldNames (fields.map (withTag tagBits)) = fieldNames fields := by
  rw [fieldNames, fieldNames, List.filter_map, List.map_map]
  have sameTest : ((fun field : SemanticField => !field.isPadding) ∘ withTag tagBits) =
      fun field => !field.isPadding := by
    funext field
    rw [Function.comp_apply, (withTag_same tagBits field).1]
  rw [sameTest]
  exact List.map_congr_left fun field _ => (withTag_same tagBits field).2.1

theorem OptionsNumbered.withTag {fields : List SemanticField} (numbered : OptionsNumbered fields)
    (tagBits : ℤ) : OptionsNumbered (fields.map (withTag tagBits)) := by
  intro position field found
  rw [List.getElem?_map] at found
  have ⟨original, at_, same⟩ := Option.map_eq_some_iff.mp found
  have ⟨padding, _, _, index⟩ := withTag_same tagBits original
  rw [← same, padding, index]
  exact numbered position original at_

theorem establishes_checkThen {condition : Prop} [Decidable condition] {location : SourceLocation}
    {message : String} {suggested : ℤ} {next : Unit → Analysis Unit} {post : Unit → Prop}
    (later : Establishes given (next ()) post) :
    Establishes given
      (if condition then reportExtent location message suggested >>= next else next ())
      fun value => ¬ condition ∧ post value := by
  split
  · apply establishes_bind (fun _ => False) establishes_reportExtent
    intro _
    exact later.mono fun _ _ impossible => impossible.elim
  · rename_i valid
    exact later.mono fun _ holds => ⟨valid, holds⟩

theorem establishes_checkLast {condition : Prop} [Decidable condition] {location : SourceLocation}
    {message : String} {suggested : ℤ} :
    Establishes given
      (if condition then reportExtent location message suggested else pure ())
      fun _ => ¬ condition := by
  split
  · exact establishes_reportExtent.mono fun _ impossible => impossible.elim
  · rename_i valid
    exact establishes_pure valid

theorem establishes_checkExtent {state : SectionState} {out : SemanticSection} :
    Establishes given (checkExtent owner state out) fun _ => ∃ extent, out.extentBits = some extent ∧
      0 ≤ extent ∧ 8 ∣ extent ∧ out.offsetAtEnd.max ≤ extent := by
  unfold checkExtent
  apply Establishes.mono (establishes_checkThen (establishes_checkThen establishes_checkLast))
  intro _ ⟨nonnegative, aligned, holds⟩
  cases given_ : out.extentBits with
  | none =>
      rw [given_] at nonnegative
      exact absurd (by decide) nonnegative
  | some extent =>
      rw [given_, Option.getD_some] at nonnegative aligned holds
      refine ⟨extent, rfl, by omega, ?_, by omega⟩
      exact Int.dvd_of_tmod_eq_zero (Decidable.not_not.mp aligned)

/-- What the end of a section adds to the facts of the walk. -/
structure ClosedFacts (state : SectionState) (sec : SemanticSection) : Prop where
  fields : sec.fields = (closeOffsets state).fields
  isUnion : sec.isUnion = state.out.isUnion
  offsetAtEnd : sec.offsetAtEnd = (closeOffsets state).offsetAtEnd
  options : state.out.isUnion = true → 2 ≤ state.unionFields.length
  minimum : sec.minBitLength = sec.offsetAtEnd.min
  maximum : sec.maxBitLength = sec.offsetAtEnd.max
  fixed : sec.fixedSize = sec.offsetAtEnd.fixed
  sealedExtent : sec.sealed = true → sec.extentBits = some sec.offsetAtEnd.max
  extent : sec.sealed = false → ∃ extent, sec.extentBits = some extent ∧ 0 ≤ extent ∧
    8 ∣ extent ∧ sec.offsetAtEnd.max ≤ extent

theorem closeOffsets_isUnion (state : SectionState) :
    (closeOffsets state).isUnion = state.out.isUnion := by
  rw [closeOffsets]
  split <;> rfl

theorem establishes_closeSection {state : SectionState} :
    Establishes given (closeSection owner state) (ClosedFacts state) := by
  unfold closeSection
  refine establishes_bind _ establishes_reportWhen ?_
  intro _
  dsimp only
  apply establishes_seq establishes_reportWhen
  intro _
  have enough (few : (state.out.isUnion && decide (state.unionFields.length < 2)) = false) :
      state.out.isUnion = true → 2 ≤ state.unionFields.length := by
    intro isUnion
    rw [isUnion, Bool.true_and, decide_eq_false_iff_not] at few
    omega
  split
  · rename_i isSealed
    refine establishes_pure ?_
    intro few
    exact
      { fields := rfl
        isUnion := closeOffsets_isUnion state
        offsetAtEnd := rfl
        options := enough few
        minimum := rfl
        maximum := rfl
        fixed := rfl
        sealedExtent := fun _ => rfl
        extent := fun delimited => absurd isSealed (Bool.eq_false_iff.mp delimited) }
  · rename_i delimited
    refine establishes_bind _ establishes_checkExtent ?_
    intro _
    refine establishes_pure ?_
    intro checked few
    exact
      { fields := rfl
        isUnion := closeOffsets_isUnion state
        offsetAtEnd := rfl
        options := enough few
        minimum := rfl
        maximum := rfl
        fixed := rfl
        sealedExtent := fun isSealed => absurd isSealed delimited
        extent := fun _ => checked }

/-- The facts of a section, from those of the walk and of its end. -/
theorem ClosedFacts.sectionFacts {state : SectionState} {sec : SemanticSection}
    (closed : ClosedFacts state sec) (facts : WalkFacts given scope state) :
    SectionFacts given scope sec := by
  have rest : (∀ field ∈ sec.fields, TypeFacts given scope field.resolvedType) ∧
      (fieldNames sec.fields).Nodup ∧
      (sec.isUnion = false → sec.offsetAtEnd = (fieldsOffset sec.fields).padToAlignment 8) ∧
      (sec.isUnion = true → OptionsNumbered sec.fields ∧ ∃ layouts : List TypeLayout,
        layouts.map TypeLayout.bls =
            sec.fields.map (fun field => field.resolvedType.bitLengthSet) ∧
          2 ≤ layouts.length ∧ sec.offsetAtEnd = computeUnionOffsetFromSeenFields layouts ∧
          ∀ field ∈ sec.fields, field.unionTagBits = unionTagBitsOf sec.fields.length) := by
    rw [closed.fields, closed.offsetAtEnd, closed.isUnion, closeOffsets]
    cases isUnion : state.out.isUnion with
    | false =>
        rw [if_neg (by decide)]
        refine ⟨facts.types, facts.distinct, fun _ => ?_, fun impossible => Bool.noConfusion impossible⟩
        dsimp only
        rw [facts.structureOffset isUnion]
    | true =>
        rw [if_pos rfl]
        have ⟨numbered, _⟩ := facts.options isUnion
        have layouts := facts.unionFields isUnion
        have length : state.unionFields.length = state.out.fields.length := by
          have lengths := congrArg List.length layouts
          rw [List.length_map, List.length_map] at lengths
          exact lengths
        have tagged : (state.out.fields.map fun field =>
            if field.isPadding then field
            else { field with unionTagBits := unionTagBitsOf state.unionFields.length }) =
            state.out.fields.map (withTag (unionTagBitsOf state.unionFields.length)) := rfl
        dsimp only
        rw [tagged, fieldNames_withTag]
        refine ⟨?_, facts.distinct, fun impossible => Bool.noConfusion impossible, fun _ =>
          ⟨numbered.withTag _, state.unionFields, ?_, closed.options isUnion, rfl, ?_⟩⟩
        · intro field member
          have ⟨original, found, same⟩ := List.mem_map.mp member
          rw [← same, (withTag_same _ original).2.2.1]
          exact facts.types original found
        · rw [layouts, List.map_map]
          refine List.map_congr_left ?_
          intro field _
          rw [Function.comp_apply, (withTag_same _ field).2.2.1]
        · intro field member
          have ⟨original, found, same⟩ := List.mem_map.mp member
          have ⟨position, at_⟩ := List.mem_iff_getElem?.mp found
          rw [← same, withTag, (numbered position original at_).2, if_neg (by decide),
            List.length_map, length]
  have ⟨types, names, structureOffset, union⟩ := rest
  exact
    { types := types
      names := names
      structureOffset := structureOffset
      unionOffset := fun isUnion => (union isUnion).2
      options := fun isUnion => (union isUnion).1
      minimum := closed.minimum
      maximum := closed.maximum
      fixed := closed.fixed
      sealedExtent := closed.sealedExtent
      extent := closed.extent }

/-- An analysis of a section that reports no error establishes its facts. -/
theorem establishes_analyzeSection (answered : LocalAnswered given scope)
    (statements : List StatementAST) :
    Establishes given (analyzeSection scope owner isResponse statements)
      (SectionFacts given scope) := by
  unfold analyzeSection
  refine establishes_bind _ (keeps_analyzeStatements answered statements {}) ?_
  intro state
  apply Establishes.mono establishes_closeSection
  intro sec closed facts
  exact closed.sectionFacts (facts walkFacts_initial)

end Walk

end LlvmDsdl.Semantics
