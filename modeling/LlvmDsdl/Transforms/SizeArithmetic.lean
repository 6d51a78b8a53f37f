import LlvmDsdl.Transforms.StaticSizes

/-!
Contract: the sizes computed for an accepted module.

Owns: when the sizes of a module are exact, the condition on its lengths under
which they are, and a module whose longest length is more than 64 bits hold.
-/

namespace LlvmDsdl.Transforms.Static

open Frontend Semantics Support.IntegerMath

section Module

variable (env : AnalysisHost) (options : AnalyzeOptions) (module : ASTModule)
  (definitions : SemanticModule)

def layoutIndex : AliasIndex :=
  ⟨markModule ⟨analyzedDefinitions env options module, options.externalSemanticCatalog⟩
    options.aliasableViews, options.externalSemanticCatalog⟩

/-- The definitions as the builders see them. -/
def planIndex : AliasIndex := ⟨definitions, options.externalSemanticCatalog⟩

/-- Every maximum that a plan states is the longest length, and every product and sum of sizes is
exact: those of the layout walks, and those of the bodies and accessors, whichever schemas the
plans carry. -/
structure SizesExact : Prop where
  maximum : ∀ definition ∈ definitions ++ options.externalSemanticCatalog,
    ∀ sec ∈ definition.sections, IsGreatest sec.offsetAtEnd.exact sec.maxBitLength
  layout : ∀ ref sec, (layoutIndex env options module).sectionAt ref = some sec →
    ∀ operation ∈ (layoutIndex env options module).layoutOperations sec, operation.IsExact
  bodies : ∀ (carried : TypeKey → Bool), ∀ definition ∈ definitions, ∀ sec ∈ definition.sections,
    ∀ operation ∈ bodyOperations carried (planIndex options definitions) sec, operation.IsExact

/-- No object of any section is longer than a signed 64-bit integer counts. -/
def LengthsFit : Prop :=
  ∀ definition ∈ definitions ++ options.externalSemanticCatalog,
    ∀ sec ∈ definition.sections, sec.offsetAtEnd.Fits

end Module

section Accepted

variable {env : AnalysisHost} {options : AnalyzeOptions} {module : ASTModule}
  {definitions : SemanticModule}

theorem sections_annotated {analyzed catalogue : SemanticModule} {views : Bool}
    {definition : SemanticDefinition}
    (member : definition ∈ markModule ⟨analyzed, catalogue⟩ views) {sec : SemanticSection}
    (listed : sec ∈ definition.sections) :
    ∃ other ∈ annotateAliasLayout analyzed catalogue views, ∃ inner ∈ other.sections,
      inner.offsetAtEnd = sec.offsetAtEnd := by
  obtain ⟨position, inside, rfl⟩ := List.mem_iff_getElem.mp member
  refine ⟨_, List.mem_mapIdx.mpr ⟨position, inside, rfl⟩, ?_⟩
  rcases mem_sections.mp listed with request | response
  · rw [request]
    exact ⟨_, mem_sections.mpr (.inl rfl), rfl⟩
  · exact ⟨_, mem_sections.mpr (.inr (congrArg (Option.map _) response)), rfl⟩

/-- The sections before the layout verdicts fit where those after do. -/
theorem fits_of_marked (accepted : analyze env options module = some definitions)
    (fits : LengthsFit options definitions) : SectionsFit (layoutIndex env options module) := by
  obtain ⟨_, _, _, rfl⟩ := analyze_eq_some.mp accepted
  intro ref sec here
  obtain ⟨definition, member, listed⟩ := sectionAt_mem here
  rcases List.mem_append.mp member with own | external
  · obtain ⟨other, annotated, inner, inOther, same⟩ := sections_annotated own listed
    rw [LengthSet.Fits, ← same]
    exact fits other (List.mem_append_left _ annotated) inner inOther
  · exact fits definition (List.mem_append_right _ external) sec listed

theorem sectionsFit_of_lengthsFit (fits : LengthsFit options definitions) :
    SectionsFit (planIndex options definitions) := by
  intro ref sec here
  obtain ⟨definition, member, listed⟩ := sectionAt_mem here
  exact fits definition member sec listed

theorem maximum_of_accepted (accepted : analyze env options module = some definitions)
    (widths : ∀ parsed ∈ module, NarrowWidths parsed.ast.statements)
    (catalogue : CatalogueAnalysed env options module) {definition : SemanticDefinition}
    (member : definition ∈ definitions ++ options.externalSemanticCatalog)
    {sec : SemanticSection} (listed : sec ∈ definition.sections) :
    sec.maxBitLength = sec.offsetAtEnd.max := by
  rcases List.mem_append.mp member with own | external
  · exact ((sameSizes_accepted accepted widths).sections definition own sec listed).facts.maximum
  · exact (catalogue definition external sec listed).facts.maximum

/-- **The sizes computed for an accepted module are exact if and only if no section of it or of
the catalogue has a length of 2^63 bits or more.** -/
theorem sizesExact_iff (accepted : analyze env options module = some definitions)
    (distinct : DistinctKeys module)
    (widths : ∀ parsed ∈ module, NarrowWidths parsed.ast.statements)
    (catalogue : CatalogueAnalysed env options module) :
    SizesExact env options module definitions ↔ LengthsFit options definitions := by
  constructor
  · intro exactly definition member sec listed
    have maximum := exactly.maximum definition member sec listed
    rw [maximum_of_accepted accepted widths catalogue member listed] at maximum
    exact sec.offsetAtEnd.fits_iff_isGreatest.mpr maximum
  · intro fits
    obtain ⟨clean, _, _, _⟩ := analyze_eq_some.mp accepted
    have sameMarked := sameSizes_markModule clean widths options.aliasableViews
    have sameAccepted := sameSizes_accepted accepted widths
    refine ⟨fun definition member sec listed => ?_, fun ref sec here => ?_,
      fun carried definition member sec listed => ?_⟩
    · rw [maximum_of_accepted accepted widths catalogue member listed]
      exact sec.offsetAtEnd.fits_iff_isGreatest.mp (fits definition member sec listed)
    · have sound := sameMarked.soundIndex clean distinct catalogue
      have marked := fits_of_marked accepted fits
      exact AliasIndex.layoutOperations_exact sound marked (sound.sections ref sec here)
        (marked ref sec here)
    · exact bodyOperations_exact (sameAccepted.soundIndex clean distinct catalogue)
        (sectionsFit_of_lengthsFit fits) (sameAccepted.sections definition member sec listed)
        (fits definition (List.mem_append_left _ member) sec listed)

end Accepted

theorem dvd_of_padded {set : LengthSet} {length : ℤ}
    (member : length ∈ (set.padToAlignment 8).exact) : 8 ∣ length := by
  rw [set.exact_padToAlignment (by decide) (by decide)] at member
  obtain ⟨before, _, rfl⟩ := member
  exact Library.Rounding.dvd_roundUp before 8

theorem eight_dvd_length {given : Answers} {scope : Scope} {sec : SemanticSection}
    (facts : SectionFacts given scope sec) {length : ℤ}
    (member : length ∈ sec.offsetAtEnd.exact) : 8 ∣ length := by
  cases isUnion : sec.isUnion with
  | false =>
      rw [facts.structureOffset isUnion] at member
      exact dvd_of_padded member
  | true =>
      obtain ⟨layouts, _, two, offsetAtEnd, _⟩ := facts.unionOffset isUnion
      rw [offsetAtEnd] at member
      cases layouts with
      | nil => exact absurd two (by decide)
      | cons first rest => exact dvd_of_padded member

/-- A sealed message of a variable array of 64-bit elements. -/
def arrayMessage (capacity : ℤ) : ParsedDefinition :=
  ⟨⟨"/ns/A.1.0.dsdl", "ns.A", "A", ["ns"], 1, 0, none⟩, ⟨⟨"", 1, 1⟩,
    [.field ⟨⟨"", 1, 1⟩,
      .mk ⟨"", 1, 1⟩ (.primitive ⟨.unsignedInt, .saturated, 64⟩) .variableInclusive
        (some (.rational ⟨"", 1, 10⟩ (.ofInteger capacity))), "x", false⟩,
      sealedDirectiveAt 2]⟩⟩

theorem arrayMessage_widths (capacity : ℤ) :
    ∀ parsed ∈ [arrayMessage capacity], NarrowWidths parsed.ast.statements := by
  intro parsed member field listed
  rw [List.mem_singleton.mp member, arrayMessage, sealedDirectiveAt] at listed
  rcases List.mem_cons.mp listed with same | later
  · cases same
    exact (by decide : (64 : ℕ) < 2 ^ 32)
  · cases List.mem_singleton.mp later

theorem catalogueAnalysed_empty (env : AnalysisHost) (module : ASTModule) :
    CatalogueAnalysed env {} module := by
  intro definition member
  cases member

/-- The longest lengths that an accepted module states. -/
def statedMaxima (accepted : Option SemanticModule) : Option (List ℤ) :=
  accepted.map fun definitions => definitions.map fun definition => definition.request.maxBitLength

theorem longMessage_stated :
    statedMaxima (analyze plainHost {} [arrayMessage (2 ^ 60)]) = some [2 ^ 63 - 1] := by
  decide +kernel

theorem shortMessage_stated :
    statedMaxima (analyze plainHost {} [arrayMessage 3]) = some [200] := by
  decide +kernel

theorem sizesExact_iff_shortMessage :
    ∃ definitions, analyze plainHost {} [arrayMessage 3] = some definitions ∧
      (SizesExact plainHost {} [arrayMessage 3] definitions ↔ LengthsFit {} definitions) := by
  obtain ⟨definitions, accepted, _⟩ := Option.map_eq_some_iff.mp shortMessage_stated
  exact ⟨definitions, accepted, sizesExact_iff accepted (List.nodup_singleton _)
    (arrayMessage_widths 3) (catalogueAnalysed_empty _ _)⟩

/-- The plan of 2^60 elements states a maximum that is no length of the message. -/
theorem sizesExact_fails :
    ∃ definitions, analyze plainHost {} [arrayMessage (2 ^ 60)] = some definitions ∧
      ¬ SizesExact plainHost {} [arrayMessage (2 ^ 60)] definitions := by
  obtain ⟨definitions, accepted, stated⟩ := Option.map_eq_some_iff.mp longMessage_stated
  refine ⟨definitions, accepted, fun exactly => ?_⟩
  have listed : (2 ^ 63 - 1 : ℤ) ∈ definitions.map fun definition =>
      definition.request.maxBitLength := stated ▸ List.mem_cons_self
  obtain ⟨definition, member, maximum⟩ := List.mem_map.mp listed
  have isRequest : definition.request ∈ definition.sections := mem_sections.mpr (.inl rfl)
  have analysed := (sameSizes_accepted accepted (arrayMessage_widths (2 ^ 60))).sections definition
    member definition.request isRequest
  have greatest := (exactly.maximum definition (List.mem_append_left _ member) _ isRequest).1
  have whole := eight_dvd_length analysed.facts greatest
  rw [maximum] at whole
  omega

end LlvmDsdl.Transforms.Static
