import LlvmDsdl.Semantics.Analyzer
import Mathlib

/-!
Contract: what the version rules guarantee of an accepted module.

Owns: agreement of two versions on every section, what annotation leaves alone,
and the exact condition under which all versions of one major version agree.
-/

namespace LlvmDsdl.Semantics

open Frontend Library

/-- Both sections are sealed, or both are delimited with one extent. -/
def SectionsAgree (first second : SemanticSection) : Prop :=
  first.sealed = second.sealed ∧
    (first.sealed = false → first.extentBits.getD 0 = second.extentBits.getD 0)

/-- Both definitions are messages, or both are services whose responses agree. -/
def ResponsesAgree (first second : SemanticDefinition) : Prop :=
  first.isService = second.isService ∧
    match first.response, second.response with
    | some left, some right => SectionsAgree left right
    | none, none => True
    | _, _ => False

/-- Two definitions agree on kind and, section by section, on sealing and extent. -/
def VersionsAgree (first second : SemanticDefinition) : Prop :=
  SectionsAgree first.request second.request ∧ ResponsesAgree first second

/-- Two versions of one full name under one major version above zero. -/
def SameMajor (first second : SemanticDefinition) : Prop :=
  first.info.fullName = second.info.fullName ∧
    first.info.majorVersion = second.info.majorVersion ∧ 0 < first.info.majorVersion

/-- Equal in everything the version rules read. -/
structure SameHeader (first second : SemanticDefinition) : Prop where
  info : first.info = second.info
  isService : first.isService = second.isService
  sealed : first.request.sealed = second.request.sealed
  extentBits : first.request.extentBits = second.request.extentBits

theorem sealed_markViews (index : AliasIndex) (sec : SemanticSection) :
    (index.markViews sec).sealed = sec.sealed ∧
      (index.markViews sec).extentBits = sec.extentBits := by
  rw [AliasIndex.markViews]
  split <;> exact ⟨rfl, rfl⟩

theorem sameHeader_markModule {index : AliasIndex} {views : Bool} {definition : SemanticDefinition}
    (member : definition ∈ markModule index views) :
    ∃ original ∈ index.module, SameHeader definition original := by
  rw [markModule] at member
  cases views with
  | false => exact ⟨definition, member, rfl, rfl, rfl, rfl⟩
  | true =>
      have ⟨original, inModule, same⟩ := List.mem_map.mp member
      have kept := sealed_markViews index original.request
      rw [← same]
      exact ⟨original, inModule, rfl, rfl, kept.1, kept.2⟩

/-- An annotated definition is one of the module with its verdicts added. -/
theorem sameHeader_annotateAliasLayout {module catalogue : SemanticModule} {views : Bool}
    {definition : SemanticDefinition}
    (member : definition ∈ annotateAliasLayout module catalogue views) :
    ∃ original ∈ module, SameHeader definition original := by
  have ⟨position, bound, same⟩ := List.mem_mapIdx.mp member
  have ⟨original, inModule, header⟩ :=
    sameHeader_markModule (List.getElem_mem bound)
  rw [← same]
  exact ⟨original, inModule, header.info, header.isService, header.sealed, header.extentBits⟩

theorem not_mem_of_hasErrors {diagnostics : List Diagnostic} (clean : hasErrors diagnostics = false)
    {diagnostic : Diagnostic} (member : diagnostic ∈ diagnostics) :
    ¬ isError diagnostic := by
  intro failure
  have := List.any_eq_false.mp clean diagnostic member
  exact this (decide_eq_true failure)

theorem hasErrors_append {first second : List Diagnostic} :
    hasErrors (first ++ second) = false ↔ hasErrors first = false ∧ hasErrors second = false := by
  rw [hasErrors, List.any_append, Bool.or_eq_false_iff]
  rfl

theorem hasErrors_checkVersionRules {allow : Bool} {definitions : SemanticModule} :
    hasErrors (checkVersionRules allow definitions) = false ↔
      checkVersionRules allow definitions = [] := by
  constructor
  · intro clean
    refine List.eq_nil_iff_forall_not_mem.mpr fun diagnostic member => ?_
    exact not_mem_of_hasErrors clean member (checkVersionRules_severity member)
  · intro empty
    rw [empty]
    rfl

section Accepted

variable {env : AnalysisHost} {options : AnalyzeOptions} {module : ASTModule}
  {definitions : SemanticModule}

theorem analyze_eq_some :
    analyze env options module = some definitions ↔
      hasErrors (analyzeAll env options module).reports = false ∧
        checkVersionRules options.allowUnregulatedFixedPortId
          (analyzedDefinitions env options module) = [] ∧
        hasErrors (checkAliasableAssertions (annotatedDefinitions env options module)) = false ∧
        annotatedDefinitions env options module = definitions := by
  rw [analyze]
  cases visits : hasErrors (visitDiagnostics env options module) with
  | true =>
      rw [if_pos rfl]
      refine ⟨fun absent => absurd absent (by simp), fun given => ?_⟩
      have clean : hasErrors (visitDiagnostics env options module) = false :=
        hasErrors_append.mpr ⟨given.1, hasErrors_checkVersionRules.mpr given.2.1⟩
      rw [visits] at clean
      cases clean
  | false =>
      have phases := hasErrors_append.mp visits
      rw [if_neg (by decide)]
      cases assertions : hasErrors
          (checkAliasableAssertions (annotatedDefinitions env options module)) with
      | true => simp
      | false =>
          rw [if_neg (by decide), Option.some.injEq]
          exact ⟨fun same => ⟨phases.1, hasErrors_checkVersionRules.mp phases.2, rfl, same⟩,
            fun given => given.2.2.2⟩

/-- Any two versions of an accepted module agree on their request sections. -/
theorem sectionsAgree_request (accepted : analyze env options module = some definitions)
    {first second : SemanticDefinition} (firstMember : first ∈ definitions)
    (secondMember : second ∈ definitions) (same : SameMajor first second) :
    SectionsAgree first.request second.request := by
  have ⟨_, rules, _, annotated⟩ := analyze_eq_some.mp accepted
  rw [← annotated] at firstMember secondMember
  have ⟨left, leftMember, leftHeader⟩ := sameHeader_annotateAliasLayout firstMember
  have ⟨right, rightMember, rightHeader⟩ := sameHeader_annotateAliasLayout secondMember
  have ⟨names, majors, above⟩ := same
  rw [leftHeader.info, rightHeader.info] at names majors
  rw [leftHeader.info] at above
  have keys : groupKeyOf left = groupKeyOf right := by
    rw [groupKeyOf, groupKeyOf, names, majors]
  have agree := RequestsAgree.of_checkVersionRules rules leftMember rightMember keys above
  rw [SectionsAgree, leftHeader.sealed, rightHeader.sealed, leftHeader.extentBits,
    rightHeader.extentBits]
  exact ⟨agree.1, fun _ => agree.2⟩

/-- **Versions of one major version agree exactly when their kinds and response sections
do**: the request sections of an accepted module always agree. -/
theorem versionsAgree_iff_responsesAgree
    (accepted : analyze env options module = some definitions) :
    (∀ first ∈ definitions, ∀ second ∈ definitions, SameMajor first second →
        VersionsAgree first second) ↔
      ∀ first ∈ definitions, ∀ second ∈ definitions, SameMajor first second →
        ResponsesAgree first second := by
  constructor
  · intro agree first firstMember second secondMember same
    exact (agree first firstMember second secondMember same).2
  · intro responses first firstMember second secondMember same
    exact ⟨sectionsAgree_request accepted firstMember secondMember same,
      responses first firstMember second secondMember same⟩

end Accepted

theorem unshared_roots (lhs rhs : LengthSet) (same : false = true) : lhs = rhs :=
  Bool.noConfusion same

/-- A host that orders fractions exactly and shares no root. -/
def plainHost : AnalysisHost where
  host :=
    { longDoubleLess := fun lhs rhs => decide (lhs.toRat < rhs.toRat)
      sameRoot := fun _ _ => false
      sameRoot_eq := unshared_roots }
  printed _ := ""

def sealedDirectiveAt (line : UInt32) : StatementAST :=
  .directive ⟨⟨"", line, 1⟩, .sealed, "sealed", none⟩

/-- `@extent` of a written number of bits. -/
def extentDirectiveAt (line : UInt32) (bits : ℤ) : StatementAST :=
  .directive ⟨⟨"", line, 1⟩, .extent, "extent",
    some (.rational ⟨"", line, 9⟩ (.ofInteger bits))⟩

/-- A version of `ns.S` with the given statements. -/
def versionOfS (minor : ℕ) (statements : List StatementAST) : ParsedDefinition :=
  ⟨⟨"", "ns.S", "S", ["ns"], 1, minor, none⟩, ⟨⟨"", 1, 1⟩, statements⟩⟩

/-- A sealed response in version 1.0, a delimited one in version 1.1. -/
def differingResponses : ASTModule :=
  [versionOfS 0 [sealedDirectiveAt 1, .serviceResponseMarker ⟨"", 2, 1⟩, sealedDirectiveAt 3],
    versionOfS 1 [sealedDirectiveAt 1, .serviceResponseMarker ⟨"", 2, 1⟩, extentDirectiveAt 3 64]]

theorem differingResponses_accepted :
    (analyze plainHost {} differingResponses).isSome = true := by
  decide +kernel

def responseSealing (definitions : Option SemanticModule) : List (Option Bool) :=
  (definitions.getD []).map fun definition => definition.response.map SemanticSection.sealed

theorem differingResponses_sealing :
    responseSealing (analyze plainHost {} differingResponses) = [some true, some false] := by
  decide +kernel

/-- Both directions for the module of the two services. -/
theorem versionsAgree_iff_responsesAgree_services :
    ∃ definitions, analyze plainHost {} differingResponses = some definitions ∧
      ((∀ first ∈ definitions, ∀ second ∈ definitions, SameMajor first second →
          VersionsAgree first second) ↔
        ∀ first ∈ definitions, ∀ second ∈ definitions, SameMajor first second →
          ResponsesAgree first second) := by
  have ⟨definitions, accepted⟩ := Option.isSome_iff_exists.mp differingResponses_accepted
  exact ⟨definitions, accepted, versionsAgree_iff_responsesAgree accepted⟩

/-- The headers of the module's definitions. -/
def versionsOf (definitions : Option SemanticModule) : List (String × ℕ) :=
  (definitions.getD []).map fun definition => (definition.info.fullName,
    definition.info.majorVersion)

theorem differingResponses_versions :
    versionsOf (analyze plainHost {} differingResponses) = [("ns.S", 1), ("ns.S", 1)] := by
  decide +kernel

theorem pair_of_versionsOf {definitions : SemanticModule} {left right : String × ℕ}
    (versions : versionsOf (some definitions) = [left, right]) :
    ∃ first second, definitions = [first, second] ∧
      (first.info.fullName, first.info.majorVersion) = left ∧
      (second.info.fullName, second.info.majorVersion) = right := by
  have mapped : definitions.map (fun definition => (definition.info.fullName,
      definition.info.majorVersion)) = [left, right] := versions
  have ⟨first, rest, whole, headed, tailed⟩ := List.map_eq_cons_iff.mp mapped
  have ⟨second, beyond, restWhole, secondHeaded, ended⟩ := List.map_eq_cons_iff.mp tailed
  rw [List.map_eq_nil_iff.mp ended] at restWhole
  exact ⟨first, second, by rw [whole, restWhole], headed, secondHeaded⟩

/-- Version 1.0 seals its response, version 1.1 does not, and both are accepted. -/
theorem responses_may_differ :
    ¬∀ (env : AnalysisHost) (options : AnalyzeOptions) (module : ASTModule)
      (definitions : SemanticModule), analyze env options module = some definitions →
        ∀ first ∈ definitions, ∀ second ∈ definitions, SameMajor first second →
          VersionsAgree first second := by
  intro agree
  have ⟨definitions, accepted⟩ := Option.isSome_iff_exists.mp differingResponses_accepted
  have both := agree plainHost {} differingResponses definitions accepted
  have sealing := differingResponses_sealing
  have versions := differingResponses_versions
  rw [accepted] at sealing versions
  have ⟨first, second, whole, firstNamed, secondNamed⟩ := pair_of_versionsOf versions
  have same : SameMajor first second := by
    have ⟨firstName, firstMajor⟩ := Prod.mk.inj firstNamed
    have ⟨secondName, secondMajor⟩ := Prod.mk.inj secondNamed
    rw [SameMajor, firstName, firstMajor, secondName, secondMajor]
    exact ⟨rfl, rfl, by decide⟩
  have responses := (both first (by simp [whole]) second (by simp [whole]) same).2.2
  rw [whole] at sealing
  have leftSealed : first.response.map SemanticSection.sealed = some true :=
    (List.cons.inj sealing).1
  have rightSealed : second.response.map SemanticSection.sealed = some false :=
    (List.cons.inj (List.cons.inj sealing).2).1
  have ⟨left, leftFound, leftValue⟩ := Option.map_eq_some_iff.mp leftSealed
  have ⟨right, rightFound, rightValue⟩ := Option.map_eq_some_iff.mp rightSealed
  rw [leftFound, rightFound] at responses
  have equal : left.sealed = right.sealed := responses.1
  rw [leftValue, rightValue] at equal
  cases equal

end LlvmDsdl.Semantics
