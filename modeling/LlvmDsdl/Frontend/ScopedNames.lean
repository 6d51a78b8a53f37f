import LlvmDsdl.Frontend.OutputCollisions

/-!
Contract: the names that definitions declare in shared scopes.

Owns: the namespaces and the types that the check of scoped names records for
what an output declares, and the theorem that outputs without an error keep
definitions apart in their files, modules and scopes.
-/

namespace LlvmDsdl.Frontend

open Support Library

/-! ### Namespaces -/

/-- The DSDL name of the namespace that a component ends. -/
def namespaceName (before : List String) (component : String) : List Char :=
  (before.flatMap fun outer => outer.toList ++ ['.']) ++ component.toList

theorem split_first_dot {first second before after : List Char} (plain : '.' ∉ before)
    (otherPlain : '.' ∉ first) (same : before ++ '.' :: after = first ++ '.' :: second) :
    before = first ∧ after = second := by
  rcases List.append_eq_append_iff.mp same with ⟨between, isFirst, rest⟩ | ⟨between, isBefore, rest⟩
  · cases between with
    | nil => exact ⟨by rw [isFirst, List.append_nil], (List.cons.inj rest).2⟩
    | cons c more =>
        rw [isFirst, ← (List.cons.inj rest).1] at otherPlain
        simp at otherPlain
  · cases between with
    | nil => exact ⟨by rw [isBefore, List.append_nil], (List.cons.inj rest).2.symm⟩
    | cons c more =>
        rw [isBefore, ← (List.cons.inj rest).1] at plain
        simp at plain

/-- Components without a dot are read back from their joined name. -/
theorem components_of_dotted {components others : List String}
    (plain : ∀ component ∈ components, '.' ∉ component.toList)
    (otherPlain : ∀ component ∈ others, '.' ∉ component.toList)
    (same : (components.flatMap fun component => component.toList ++ ['.']) =
      others.flatMap fun component => component.toList ++ ['.']) : components = others := by
  induction components generalizing others with
  | nil =>
      cases others with
      | nil => rfl
      | cons other rest => simp at same
  | cons component rest ih =>
      cases others with
      | nil => simp at same
      | cons other more =>
          simp only [List.flatMap_cons, List.append_assoc, List.singleton_append] at same
          obtain ⟨here, later⟩ := split_first_dot (plain component List.mem_cons_self)
            (otherPlain other List.mem_cons_self) same
          rw [String.toList_inj.mp here, ih
            (fun inner member => plain inner (List.mem_cons_of_mem _ member))
            (fun inner member => otherPlain inner (List.mem_cons_of_mem _ member)) later]

theorem namespaceName_injective {before others : List String} {component other : String}
    (plain : ∀ inner ∈ before ++ [component], '.' ∉ inner.toList)
    (otherPlain : ∀ inner ∈ others ++ [other], '.' ∉ inner.toList)
    (same : namespaceName before component = namespaceName others other) :
    before = others ∧ component = other := by
  have whole := components_of_dotted plain otherPlain (by
    rw [List.flatMap_append, List.flatMap_append, List.flatMap_singleton, List.flatMap_singleton,
      ← List.append_assoc, ← List.append_assoc]
    exact congrArg (· ++ ['.']) same)
  exact ⟨(List.append_inj' whole rfl).1, (List.cons.inj (List.append_inj' whole rfl).2).1⟩

/-- The namespaces recorded for a definition are those its components end. -/
theorem mem_scopedNamespaces {project : String → List Char} {components : List String}
    {entry : ScopedTypeName} {parent outerName : List Char} :
    entry ∈ scopedNamespaces parent outerName (components.map project) components ↔
      ∃ before component after, components = before ++ component :: after ∧
        entry = ⟨parent ++ scopeText (before.map project), project component, project component,
          .message, some (String.ofList (outerName ++ namespaceName before component))⟩ := by
  induction components generalizing parent outerName with
  | nil => simp [scopedNamespaces]
  | cons component rest ih =>
      rw [List.map_cons, scopedNamespaces, List.mem_cons, ih]
      constructor
      · rintro (rfl | ⟨before, inner, after, rfl, rfl⟩)
        · exact ⟨[], component, rest, rfl, by simp [scopeText, namespaceName]⟩
        · refine ⟨component :: before, inner, after, rfl, ?_⟩
          simp [scopeText, namespaceName]
      · rintro ⟨before, inner, after, whole, rfl⟩
        cases before with
        | nil =>
            cases whole
            exact Or.inl (by simp [scopeText, namespaceName])
        | cons first before =>
            cases whole
            refine Or.inr ⟨before, inner, after, rfl, ?_⟩
            simp [scopeText, namespaceName]

section Types

variable {language : Language} {versioning : TypeNameVersioning} {parts : DefinitionHeading}

/-- A type and its alias, recorded under the names they are declared by. -/
theorem scopedSection_of_declared {file : DeclarationScope} {scope : List Char}
    {held versionedHeld : SectionNames} (open_ : held.enclosed = false) {type : DeclaredType}
    (declared : type ∈ declareType file held.typeName held.typeScope) :
    ∃ entry ∈ scopedSection scope held versionedHeld,
      entry.namespaceName = none ∧ entry.name = type.name ∧ entry.scope = scope := by
  rw [scopedSection, open_, if_neg (by decide)]
  rw [declareType] at declared
  split at declared
  · rw [List.mem_singleton.mp declared]
    exact ⟨_, List.mem_cons_self, rfl, rfl, rfl⟩
  · rename_i apart
    rw [if_pos apart]
    rcases List.mem_cons.mp declared with rfl | alias_
    · exact ⟨_, List.mem_cons_of_mem _ List.mem_cons_self, rfl, rfl, rfl⟩
    · rw [List.mem_singleton.mp alias_]
      exact ⟨_, List.mem_cons_self, rfl, rfl, rfl⟩

/-- A section's type is recorded where it is declared in the file. -/
theorem scopedSections_of_declared {file : DeclarationScope} {scope : List Char}
    {held : SectionNames} (member : held ∈ (allocate language versioning parts).sections)
    (open_ : held.enclosed = false) {type : DeclaredType}
    (declared : type ∈ declareType file held.typeName held.typeScope) :
    ∃ entry ∈ scopedSections scope (allocate language versioning parts)
        (allocate language .versioned parts),
      entry.namespaceName = none ∧ entry.name = type.name ∧ entry.scope = scope := by
  obtain ⟨versionedHeld, paired⟩ : ∃ versionedHeld, (held, versionedHeld) ∈
      (allocate language versioning parts).sections.zip
        (allocate language .versioned parts).sections := by
    rw [allocate] at member
    obtain ⟨sectionName, listed, rfl⟩ := List.mem_map.mp member
    rw [allocate, allocate]
    dsimp only
    rw [List.zip_map']
    exact ⟨_, List.mem_map_of_mem listed⟩
  obtain ⟨entry, inside, facts⟩ := scopedSection_of_declared open_ declared
  exact ⟨entry, List.mem_flatMap.mpr ⟨(held, versionedHeld), paired, inside⟩, facts⟩

/-- Every type declared outside another is recorded under its name and scope. -/
theorem scoped_of_declared
    (shared : (languageTraits language).definitionsShareNamespaceScope = true)
    (components : List String) {type : DeclaredType}
    (declared : type ∈ declaredTypes language (allocate language versioning parts))
    (outside : type.scope.type = none) :
    ∃ entry ∈ scopedTypeNames language (allocate language versioning parts)
        (allocate language .versioned parts) components,
      entry.namespaceName = none ∧ entry.name = type.name ∧
        entry.scope = scopeText (spacesOf language parts.ref) := by
  rw [scopedTypeNames, shared, if_neg (by decide)]
  simp only [List.mem_append]
  have service (isService : parts.service = true) :
      ∃ entry ∈ scopedService (scopeText (spacesOf language parts.ref))
          (allocate language versioning parts) (allocate language .versioned parts),
        entry.namespaceName = none ∧
          entry.name = (allocate language versioning parts).typeName ∧
          entry.scope = scopeText (spacesOf language parts.ref) := by
    rw [scopedService, if_pos (by rw [allocate, isService]; rfl)]
    exact ⟨_, List.mem_cons_self, rfl, rfl, rfl⟩
  rw [declaredTypes] at declared
  cases enclosing : (allocate language versioning parts).serviceScope with
  | some serviceScope =>
      have isService : parts.service = true := by
        rw [allocate] at enclosing
        dsimp only at enclosing
        split at enclosing
        · rename_i encloses
          rw [Bool.and_eq_true] at encloses
          exact encloses.1
        · cases enclosing
      rw [enclosing] at declared
      dsimp only at declared
      rcases List.mem_append.mp declared with own | inner
      · rw [declareType] at own
        obtain ⟨entry, listed, facts⟩ := service isService
        split at own
        · rw [List.mem_singleton.mp own]
          exact ⟨entry, Or.inl (Or.inl (Or.inr listed)), facts⟩
        · rename_i apart
          rcases List.mem_cons.mp own with rfl | alias_
          · refine ⟨⟨_, serviceScope,
              (allocate language .versioned parts).serviceScope.getD [], .message, none⟩,
              Or.inl (Or.inr ?_), rfl, rfl, rfl⟩
            rw [scopedServiceScope, enclosing]
            dsimp only
            rw [if_pos apart]
            exact List.mem_cons_self
          · rw [List.mem_singleton.mp alias_]
            exact ⟨entry, Or.inl (Or.inl (Or.inr listed)), facts⟩
      · obtain ⟨held, _, inside⟩ := List.mem_flatMap.mp inner
        rw [declareType] at inside
        split at inside
        · rw [List.mem_singleton.mp inside] at outside
          cases outside
        · rcases List.mem_cons.mp inside with rfl | alias_
          · cases outside
          · rw [List.mem_singleton.mp alias_] at outside
            cases outside
  | none =>
      rw [enclosing] at declared
      dsimp only at declared
      rcases List.mem_append.mp declared with inner | own
      · obtain ⟨held, member, inside⟩ := List.mem_flatMap.mp inner
        have open_ : held.enclosed = false := by
          rw [allocate] at enclosing member
          dsimp only at enclosing
          split at enclosing
          · cases enclosing
          · rename_i apart
            obtain ⟨sectionName, _, rfl⟩ := List.mem_map.mp member
            exact Bool.eq_false_iff.mpr apart
        obtain ⟨entry, listed, facts⟩ := scopedSections_of_declared member open_ inside
        exact ⟨entry, Or.inr listed, facts⟩
      · split at own
        · rename_i alone
          rw [List.mem_singleton.mp own]
          have isService : parts.service = true := by
            rw [Bool.and_eq_true, decide_eq_true_eq, allocate] at alone
            dsimp only at alone
            cases isService : parts.service with
            | true => rfl
            | false =>
                rw [isService] at alone
                exact absurd alone.1 (by simp)
          obtain ⟨entry, listed, facts⟩ := service isService
          exact ⟨entry, Or.inl (Or.inl (Or.inr listed)), facts⟩
        · cases own

end Types

section Outputs

variable (language : Language)

def outputTypes (versioning : TypeNameVersioning) (parsed : ParsedDefinition) :
    List DeclaredType :=
  declaredTypes language (allocate language versioning parsed.parts)

def projectComponent (component : String) : List Char :=
  codegenProjectIdentifier language .namespaceName component.toList

def namespacesFrom (before : List String) : List String → List (DeclaredType × String)
  | [] => []
  | component :: after =>
      (⟨⟨before.map (projectComponent language), none, none⟩, projectComponent language component⟩,
        String.ofList (namespaceName before component)) ::
      namespacesFrom (before ++ [component]) after

/-- The namespaces around a definition that the output declares in a scope, each with its DSDL
name. A package is declared by none. -/
def outputNamespaces (info : DiscoveredDefinition) : List (DeclaredType × String) :=
  if (composition language).namespaces = .asNamespace ∨
      (composition language).namespaces = .asModule then
    namespacesFrom language [] info.namespaceComponents
  else []

variable {language}

theorem mem_namespacesFrom {before components : List String} {entry : DeclaredType × String} :
    entry ∈ namespacesFrom language before components ↔
      ∃ middle component after, components = middle ++ component :: after ∧
        entry = (⟨⟨(before ++ middle).map (projectComponent language), none, none⟩,
          projectComponent language component⟩,
          String.ofList (namespaceName (before ++ middle) component)) := by
  induction components generalizing before with
  | nil => simp [namespacesFrom]
  | cons component rest ih =>
      rw [namespacesFrom, List.mem_cons, ih]
      constructor
      · rintro (rfl | ⟨middle, inner, after, rfl, rfl⟩)
        · exact ⟨[], component, rest, rfl, by rw [List.append_nil]⟩
        · exact ⟨component :: middle, inner, after, rfl, by rw [List.append_assoc]; rfl⟩
      · rintro ⟨middle, inner, after, whole, rfl⟩
        cases middle with
        | nil =>
            cases whole
            exact Or.inl (by rw [List.append_nil])
        | cons first middle =>
            cases whole
            exact Or.inr ⟨middle, inner, after, rfl, by rw [List.append_assoc]; rfl⟩

theorem spacesOf_eq (opened : (composition language).namespaces ≠ .joined)
    (info : DiscoveredDefinition) :
    spacesOf language info.ref = info.namespaceComponents.map (projectComponent language) := by
  rw [spacesOf, if_neg opened, namespaceNamesOf, DiscoveredDefinition.ref, List.map_map]
  rfl

end Outputs

section Recorded

variable {languages : List Language} {versioning : TypeNameVersioning} {parsed : ASTModule}
  {language : Language} {definition other : ParsedDefinition}

def recorded (languages : List Language) (versioning : TypeNameVersioning) (parsed : ASTModule) :
    List (List Char × TypeNameOrigin) :=
  (claimedOnce [] (parsed.flatMap (definitionClaims languages versioning))).map fun claim =>
    (emittedKey claim.language claim.name, claim.origin)

def keyIn (language : Language) (spaces : List (List Char)) (name : List Char) : List Char :=
  (composition language).rowName ++ ':' :: scopeText spaces ++ ':' :: name

/-- Two recorded origins of one key are both types of one name, or both namespaces. -/
theorem meet_of_recorded (quiet : checkScopedTypeNameCollisions languages versioning parsed = [])
    {key : List Char} {origin otherOrigin : TypeNameOrigin}
    (member : (key, origin) ∈ recorded languages versioning parsed)
    (otherMember : (key, otherOrigin) ∈ recorded languages versioning parsed) :
    origin.heldBy.isSome = otherOrigin.heldBy.isSome ∧
      (origin.heldBy = none → origin.fullName = otherOrigin.fullName) := by
  obtain ⟨first, meets, otherMeets⟩ := Registry.meet_of_silent
    (fun _ => ⟨rfl, Or.inr rfl⟩) (silent_of_recordAll quiet) member otherMember
  refine ⟨meets.1.symm.trans otherMeets.1, fun isType => ?_⟩
  have named : ¬ origin.heldBy.isSome = true := by simp [isType]
  have otherNamed : ¬ otherOrigin.heldBy.isSome = true := by
    rw [← otherMeets.1, meets.1]
    exact named
  exact (meets.2.resolve_left named).symm.trans (otherMeets.2.resolve_left otherNamed)

theorem mem_claims (chosen : language ∈ languages) (member : definition ∈ parsed)
    {entry : ScopedTypeName}
    (listed : entry ∈ scopedTypeNames language (allocate language versioning definition.parts)
      (allocate language .versioned definition.parts) definition.info.namespaceComponents) :
    (⟨language, entry, scopedOrigin definition entry⟩ : ScopedClaim) ∈
      parsed.flatMap (definitionClaims languages versioning) :=
  List.mem_flatMap.mpr ⟨definition, member,
    List.mem_flatMap.mpr ⟨language, chosen, List.mem_map_of_mem listed⟩⟩

/-- A type declared outside another is recorded for its definition. -/
theorem type_recorded (chosen : language ∈ languages) (member : definition ∈ parsed)
    (shared : (languageTraits language).definitionsShareNamespaceScope = true)
    {type : DeclaredType} (declared : type ∈ outputTypes language versioning definition)
    (outside : type.scope.type = none) :
    ∃ origin, (keyIn language (spacesOf language definition.info.ref) type.name, origin) ∈
        recorded languages versioning parsed ∧
      origin.heldBy = none ∧ origin.fullName = definition.info.fullName := by
  obtain ⟨entry, listed, isType, sameName, sameScope⟩ := scoped_of_declared shared
    definition.info.namespaceComponents declared outside
  have claimed := mem_claimedOnce_type (mem_claims chosen member listed) isType []
  refine ⟨scopedOrigin definition entry, ?_, by rw [scopedOrigin, isType],
    by rw [scopedOrigin, isType]⟩
  have key := List.mem_map_of_mem (f := fun claim : ScopedClaim =>
    (emittedKey claim.language claim.name, claim.origin)) claimed
  have sameKey : emittedKey language entry =
      keyIn language (spacesOf language definition.info.ref) type.name := by
    rw [emittedKey, sameName, sameScope]
    rfl
  rw [← sameKey]
  exact key

/-- A name recorded for a namespace is one of those around its definition. -/
theorem namespace_of_scoped {names versioned : DefinitionNames} {components : List String}
    {entry : ScopedTypeName} {fullName : String}
    (listed : entry ∈ scopedTypeNames language names versioned components)
    (isNamespace : entry.namespaceName = some fullName) :
    entry ∈ scopedNamespaces [] [] names.spaces components := by
  have type {types : List ScopedTypeName} (inside : entry ∈ types)
      (plain : ∀ type ∈ types, type.namespaceName = none) :
      entry ∈ scopedNamespaces [] [] names.spaces components := by
    rw [plain entry inside] at isNamespace
    cases isNamespace
  rw [scopedTypeNames] at listed
  split at listed
  · cases listed
  · simp only [List.mem_append] at listed
    rcases listed with ((space | service) | apart) | sections
    · split at space
      · exact space
      · cases space
    · refine type service fun other member => ?_
      rw [scopedService] at member
      split at member
      · rw [List.mem_singleton.mp member]
      · cases member
    · refine type apart fun other member => ?_
      rw [scopedServiceScope] at member
      split at member
      · split at member
        · rw [List.mem_singleton.mp member]
        · cases member
      · cases member
    · refine type sections fun other member => ?_
      obtain ⟨held, _, inside⟩ := List.mem_flatMap.mp member
      rw [scopedSection] at inside
      split at inside
      · cases inside
      · rcases List.mem_cons.mp inside with rfl | declared
        · rfl
        · split at declared
          · rw [List.mem_singleton.mp declared]
          · cases declared

theorem rowName_injective {first second : Language}
    (same : (composition first).rowName = (composition second).rowName) : first = second := by
  revert same
  cases first <;> cases second <;> decide

theorem dotless_of_valid {component : String} (valid : isValidNameComponent component = true) :
    '.' ∉ component.toList := fun member =>
  absurd (plain_of_valid valid '.' member) (by decide)

/-- A namespace around a definition is recorded where types are declared beside it. -/
theorem namespace_recorded (named : ∀ definition ∈ parsed, WellNamed definition.info)
    (chosen : language ∈ languages) (member : definition ∈ parsed)
    (shared : (languageTraits language).definitionsShareNamespaceScope = true)
    (beside : (composition language).namespaceAndTypeShareScope = true)
    (opened : (composition language).namespaces ≠ .joined) {before after : List String}
    {component : String}
    (whole : definition.info.namespaceComponents = before ++ component :: after) :
    ∃ origin, (keyIn language (before.map (projectComponent language))
        (projectComponent language component), origin) ∈ recorded languages versioning parsed ∧
      origin.heldBy.isSome = true := by
  have spaces (other : ParsedDefinition) : (allocate language versioning other.parts).spaces =
      other.info.namespaceComponents.map (projectComponent language) := spacesOf_eq opened _
  have listed := (@mem_scopedNamespaces (projectComponent language) _ _ [] []).mpr
    ⟨before, component, after, whole, rfl⟩
  rw [← spaces] at listed
  have written {entry : ScopedTypeName} (inside : entry ∈ scopedNamespaces [] []
      (allocate language versioning definition.parts).spaces definition.info.namespaceComponents) :
      entry ∈ scopedTypeNames language (allocate language versioning definition.parts)
        (allocate language .versioned definition.parts) definition.info.namespaceComponents := by
    rw [scopedTypeNames, shared, if_neg (by decide), if_pos beside]
    simp only [List.mem_append]
    exact Or.inl (Or.inl (Or.inl inside))
  have claimed := mem_claims chosen member (written listed)
  obtain ⟨first, made, sameName, sameRow⟩ :=
    (mem_claimedOnce_namespace claimed rfl []).resolve_left List.not_mem_nil
  obtain ⟨holder, held, byHolder⟩ := List.mem_flatMap.mp (claimedOnce_subset made)
  obtain ⟨holderLanguage, _, byLanguage⟩ := List.mem_flatMap.mp byHolder
  obtain ⟨entry, entryListed, rfl⟩ := List.mem_map.mp byLanguage
  cases rowName_injective sameRow
  have inSpaces := namespace_of_scoped entryListed sameName
  rw [spaces] at inSpaces
  obtain ⟨outer, inner, rest, wholeHolder, rfl⟩ := mem_scopedNamespaces.mp inSpaces
  -- Both claims name one DSDL namespace, so its components and their projections are the same.
  have sameNamespace : namespaceName outer inner = namespaceName before component := by
    have text := congrArg String.toList (Option.some.inj sameName)
    simpa using text
  have dotless {definition : ParsedDefinition} (listed : definition ∈ parsed)
      {before after : List String} {component : String}
      (whole : definition.info.namespaceComponents = before ++ component :: after) :
      ∀ inner ∈ before ++ [component], '.' ∉ inner.toList := by
    intro inner inside
    refine dotless_of_valid ((named definition listed).components inner ?_)
    rw [whole, List.append_cons]
    exact List.mem_append_left after inside
  obtain ⟨rfl, rfl⟩ := namespaceName_injective (dotless held wholeHolder) (dotless member whole)
    sameNamespace
  refine ⟨_, List.mem_map_of_mem (f := fun claim : ScopedClaim =>
    (emittedKey claim.language claim.name, claim.origin)) made, rfl⟩

end Recorded

/-! ### Outputs that keep definitions apart -/

/-- In every language no two definitions of different names are written to one path in any case,
no definition's file is the module of a namespace, no two of them declare one type name in one
scope, and none declares a type beside a namespace of its name. -/
structure OutputsApart (languages : List Language) (versioning : TypeNameVersioning)
    (definitions : List DiscoveredDefinition) (parsed : ASTModule) : Prop where
  paths : ∀ language ∈ languages, ∀ sourceDirectory, ∀ info ∈ definitions, ∀ other ∈ definitions,
    (definitionPath language sourceDirectory info.ref).map Char.toLower =
      (definitionPath language sourceDirectory other.ref).map Char.toLower →
    info.fullName = other.fullName
  modules : ∀ language ∈ languages,
    (composition language).fileAndDirectoryAreOneModule = true →
    ∀ info ∈ definitions, ∀ other ∈ definitions, ¬ namespaceNamesOf language info.ref ++
      [renderDefinitionFileStem language info.ref] <+: namespaceNamesOf language other.ref
  types : ∀ language ∈ languages, ∀ definition ∈ parsed, ∀ other ∈ parsed,
    ∀ type ∈ outputTypes language versioning definition,
      type ∈ outputTypes language versioning other →
        definition.info.fullName = other.info.fullName
  beside : ∀ language ∈ languages, ∀ definition ∈ parsed, ∀ other ∈ parsed,
    ∀ type ∈ outputTypes language versioning definition,
      ∀ entry ∈ outputNamespaces language other.info, type ≠ entry.1

section Apart

variable {languages : List Language} {versioning : TypeNameVersioning} {parsed : ASTModule}
  {language : Language} {definition other : ParsedDefinition}

theorem scope_of_declareType {scope : DeclarationScope} {typeName typeScope : List Char}
    {type : DeclaredType} (declared : type ∈ declareType scope typeName typeScope) :
    type.scope = scope := by
  rw [declareType] at declared
  split at declared
  · rw [List.mem_singleton.mp declared]
  · rcases List.mem_cons.mp declared with rfl | alias_
    · rfl
    · rw [List.mem_singleton.mp alias_]

theorem mem_declareType (scope : DeclarationScope) (typeName typeScope : List Char) :
    ⟨scope, typeScope⟩ ∈ declareType scope typeName typeScope := by
  rw [declareType]
  split
  · rename_i same
    rw [same]
    exact List.mem_cons_self
  · exact List.mem_cons_self

theorem scope_of_declared {type : DeclaredType}
    (declared : type ∈ outputTypes language versioning definition) :
    type.scope.spaces = spacesOf language definition.info.ref ∧
      type.scope.module =
        (if (languageTraits language).definitionsShareNamespaceScope then none
          else some (renderDefinitionFileStem language definition.info.ref)) ∧
      (type.scope.type = none ∨ ∃ serviceScope, type.scope.type = some serviceScope ∧
        ∃ service ∈ outputTypes language versioning definition,
          service.name = serviceScope ∧ service.scope = { type.scope with type := none }) := by
  have member := declared
  rw [outputTypes, declaredTypes] at member
  cases enclosing : (allocate language versioning definition.parts).serviceScope with
  | some serviceScope =>
      rw [enclosing] at member
      dsimp only at member
      rcases List.mem_append.mp member with own | inner
      · rw [scope_of_declareType own]
        exact ⟨rfl, rfl, Or.inl rfl⟩
      · obtain ⟨held, _, inside⟩ := List.mem_flatMap.mp inner
        rw [scope_of_declareType inside]
        refine ⟨rfl, rfl, Or.inr ⟨serviceScope, rfl, ⟨fileScope language
          (allocate language versioning definition.parts), serviceScope⟩, ?_, rfl, rfl⟩⟩
        rw [outputTypes, declaredTypes, enclosing]
        exact List.mem_append_left _ (mem_declareType _ _ _)
  | none =>
      rw [enclosing] at member
      dsimp only at member
      rcases List.mem_append.mp member with inner | own
      · obtain ⟨held, _, inside⟩ := List.mem_flatMap.mp inner
        rw [scope_of_declareType inside]
        exact ⟨rfl, rfl, Or.inl rfl⟩
      · split at own
        · rw [List.mem_singleton.mp own]
          exact ⟨rfl, rfl, Or.inl rfl⟩
        · cases own

/-- In a shared scope the check keeps types of different definitions apart. -/
theorem sameName_of_shared (quiet : checkScopedTypeNameCollisions languages versioning parsed = [])
    (chosen : language ∈ languages) (member : definition ∈ parsed) (otherMember : other ∈ parsed)
    (shared : (languageTraits language).definitionsShareNamespaceScope = true)
    {type : DeclaredType} (declared : type ∈ outputTypes language versioning definition)
    (otherDeclared : type ∈ outputTypes language versioning other) :
    definition.info.fullName = other.info.fullName := by
  have outside {type : DeclaredType} (isOutside : type.scope.type = none)
      (declared : type ∈ outputTypes language versioning definition)
      (otherDeclared : type ∈ outputTypes language versioning other) :
      definition.info.fullName = other.info.fullName := by
    have spaces := (scope_of_declared declared).1.symm.trans (scope_of_declared otherDeclared).1
    obtain ⟨origin, recorded, isType, named⟩ :=
      type_recorded chosen member shared declared isOutside
    obtain ⟨otherOrigin, otherRecorded, _, otherNamed⟩ :=
      type_recorded chosen otherMember shared otherDeclared isOutside
    rw [← spaces] at otherRecorded
    have same := (meet_of_recorded quiet recorded otherRecorded).2 isType
    rw [← named, same, otherNamed]
  rcases (scope_of_declared declared).2.2 with isOutside | ⟨serviceScope, inType, service,
    serviceDeclared, serviceName, serviceWhere⟩
  · exact outside isOutside declared otherDeclared
  · obtain ⟨otherScope, otherInType, otherService, otherServiceDeclared, otherName, otherWhere⟩ :=
      (scope_of_declared otherDeclared).2.2.resolve_left (by rw [inType]; nofun)
    -- The types are declared in the types of their services, which are one name in one scope.
    have sameService : otherService = service := by
      cases service
      cases otherService
      rw [inType] at otherInType
      cases otherInType
      simp_all
    rw [sameService] at otherServiceDeclared
    exact outside (by rw [serviceWhere]) serviceDeclared otherServiceDeclared

/-- Where each definition is a module of its own, one module is one definition. -/
theorem sameName_of_module {definitions : List DiscoveredDefinition}
    (quiet : checkAllDiscovered languages ⟨[], [], []⟩ definitions = [])
    (chosen : language ∈ languages)
    (modular : (languageTraits language).definitionsShareNamespaceScope = false)
    (member : definition.info ∈ definitions) (otherMember : other.info ∈ definitions)
    {type : DeclaredType} (declared : type ∈ outputTypes language versioning definition)
    (otherDeclared : type ∈ outputTypes language versioning other) :
    definition.info.fullName = other.info.fullName := by
  have language_ : language.isCLike = false ∧ (composition language).namespaces ≠ .joined := by
    cases language
    all_goals first
      | exact absurd modular (by decide)
      | exact ⟨rfl, by decide⟩
  have scope := scope_of_declared declared
  have otherScope := scope_of_declared otherDeclared
  have spaces := scope.1.symm.trans otherScope.1
  have stem := scope.2.1.symm.trans otherScope.2.1
  rw [modular, if_neg (by decide), if_neg (by decide)] at stem
  rw [spacesOf, spacesOf, if_neg language_.2, if_neg language_.2] at spaces
  refine sameName_of_outputKey quiet member otherMember chosen
    (outputKey_of_projected language_.1 ?_)
  rw [innerPath, innerPath, directoriesProjected_iff, language_.1, if_pos (by decide),
    if_pos (by decide), spaces, Option.some.inj stem]

theorem type_ne_namespace
    (quiet : checkScopedTypeNameCollisions languages versioning parsed = [])
    (named : ∀ definition ∈ parsed, WellNamed definition.info) (chosen : language ∈ languages)
    (member : definition ∈ parsed) (otherMember : other ∈ parsed) {type : DeclaredType}
    (declared : type ∈ outputTypes language versioning definition)
    {entry : DeclaredType × String} (listed : entry ∈ outputNamespaces language other.info) :
    type ≠ entry.1 := by
  rintro rfl
  rw [outputNamespaces] at listed
  split at listed
  · rename_i opened
    obtain ⟨middle, component, after, whole, rfl⟩ := mem_namespacesFrom.mp listed
    rw [List.nil_append] at declared
    obtain ⟨spaces, inModule, _⟩ := scope_of_declared declared
    cases shared : (languageTraits language).definitionsShareNamespaceScope with
    | false =>
        rw [shared, if_neg (by decide)] at inModule
        cases inModule
    | true =>
        have beside : (composition language).namespaceAndTypeShareScope = true ∧
            (composition language).namespaces ≠ .joined := by
          revert shared opened
          cases language <;> decide
        obtain ⟨origin, recorded, isType, _⟩ :=
          type_recorded chosen member shared declared rfl
        obtain ⟨otherOrigin, otherRecorded, isNamespace⟩ :=
          @namespace_recorded _ versioning _ _ _ named chosen otherMember shared beside.1 beside.2
            _ _ _ whole
        rw [← spaces] at recorded
        have kinds := (meet_of_recorded quiet recorded otherRecorded).1
        rw [isType, isNamespace] at kinds
        cases kinds
  · cases listed

/-- **Definitions whose discovery and whose scoped names report no error are kept apart in every
language.** -/
theorem outputsApart_of_checks {rootNamespaceDirs lookupDirs : List NamespaceRoot}
    (discovered : (discoverDefinitions rootNamespaceDirs lookupDirs languages).2 = [])
    (from_ : ∀ definition ∈ parsed,
      definition.info ∈ (discoverDefinitions rootNamespaceDirs lookupDirs languages).1)
    (quiet : checkScopedTypeNameCollisions languages versioning parsed = []) :
    OutputsApart languages versioning
      (discoverDefinitions rootNamespaceDirs lookupDirs languages).1 parsed := by
  have named {info : DiscoveredDefinition}
      (member : info ∈ (discoverDefinitions rootNamespaceDirs lookupDirs languages).1) :
      WellNamed info := wellNamed_of_discovered member
  obtain ⟨rest, directories⟩ := List.append_eq_nil_iff.mp discovered
  obtain ⟨_, names⟩ := List.append_eq_nil_iff.mp rest
  refine ⟨?_, ?_, ?_, ?_⟩
  · intro language chosen sourceDirectory info member other otherMember same
    have inner := innerPath_of_lower same
    cases like : language.isCLike with
    | true =>
        exact sameName_of_lower names member otherMember
          (lower_of_verbatim like (named member) (named otherMember) inner)
    | false =>
        exact sameName_of_outputKey names member otherMember chosen
          (outputKey_of_projected like inner)
  · rintro language chosen oneModule info member other otherMember ⟨rest, whole⟩
    rw [List.append_assoc] at whole
    exact modulePath_apart directories chosen oneModule member otherMember whole.symm rfl
  · intro language chosen definition member other otherMember type declared otherDeclared
    cases shared : (languageTraits language).definitionsShareNamespaceScope with
    | true =>
        exact sameName_of_shared quiet chosen member otherMember shared declared otherDeclared
    | false =>
        exact sameName_of_module names chosen shared (from_ definition member)
          (from_ other otherMember) declared otherDeclared
  · intro language chosen definition member other otherMember type declared entry listed
    exact type_ne_namespace quiet (fun definition inside => named (from_ definition inside)) chosen
      member otherMember declared listed

end Apart

/-! ### Sets of definitions that meet nothing -/

/-- No definition has the name of another in another case, an output name of another, or the
version of an earlier one of its name. -/
def meetsNothing (languages : List Language) : NamesSeen → List DiscoveredDefinition → Bool
  | _, [] => true
  | seen, info :: rest =>
      let stems := seen.generatedOutputNames.emplaceAll (outputClaims .fileStem info languages)
      (seen.caseInsensitiveNames.owner (toLower info.fullName)).all (· = info.fullName) &&
        (collidedWith .fileStem info seen.generatedOutputNames languages).isEmpty &&
        (collidedWith .typeName info stems languages).isEmpty &&
        (seen.versionUnique.owner (toLower info.fullName ++ versionKey info)).isNone &&
        meetsNothing languages (checkDiscovered languages seen info).1 rest

theorem reportCollisions_nil (info : DiscoveredDefinition) (what : String)
    (reported : List String) : reportCollisions info what reported [] = [] := by
  simp [reportCollisions]

theorem checkAllDiscovered_quiet {languages : List Language} {seen : NamesSeen}
    {definitions : List DiscoveredDefinition}
    (apart : meetsNothing languages seen definitions = true) :
    checkAllDiscovered languages seen definitions = [] := by
  induction definitions generalizing seen with
  | nil => rfl
  | cons info rest ih =>
      simp only [meetsNothing, Bool.and_eq_true, List.isEmpty_iff, Option.isNone_iff_eq_none,
        Option.all_eq_true, decide_eq_true_eq] at apart
      obtain ⟨⟨⟨⟨cased, files⟩, types⟩, fresh⟩, later⟩ := apart
      rw [checkAllDiscovered, ih later, List.append_nil, checkDiscovered]
      dsimp only
      rw [files, types, fresh, reportCollisions_nil, reportCollisions_nil]
      cases owned : seen.caseInsensitiveNames.owner (toLower info.fullName) with
      | none => rfl
      | some other => rw [cased other owned]; simp

theorem discoverDefinitions_quiet {root : NamespaceRoot} {languages : List Language}
    {definitions : List DiscoveredDefinition}
    (found : discoverInRoot true root = ([], definitions))
    (sorted : definitions.Pairwise fun a b => !discoveredBefore b a)
    (apart : meetsNothing languages ⟨[], [], []⟩ definitions = true)
    (modules : ∀ language ∈ languages, (composition language).fileAndDirectoryAreOneModule →
      moduleCollisions definitions language = []) :
    discoverDefinitions [root] [] languages = (definitions, []) := by
  have inOrder : sortDefinitions definitions = definitions :=
    List.mergeSort_of_pairwise sorted
  have noModules : checkFileDirectoryCollisions definitions languages = [] := by
    have met : ((languages.filter fun language =>
        (composition language).fileAndDirectoryAreOneModule).flatMap fun language =>
        (moduleCollisions definitions language).map fun collision =>
          (collision, (composition language).rowName)) = [] := by
      rw [List.flatMap_eq_nil_iff]
      intro language member
      rw [modules language (List.mem_filter.mp member).1 (List.mem_filter.mp member).2]
      rfl
    rw [checkFileDirectoryCollisions, met]
    simp
  simp [discoverDefinitions, found, inOrder, checkAllDiscovered_quiet apart, noModules]

/-- A definition of version 1.0 in a file of the root `ns`. -/
def definitionOf (directories : List String) (shortName : String) : DiscoveredDefinition where
  filePath := "ns/" ++ shortName ++ ".1.0.dsdl"
  fullName := joinFullName ("ns" :: directories) shortName
  shortName := shortName
  namespaceComponents := "ns" :: directories
  majorVersion := 1
  minorVersion := 0
  fixedPortId := none

def fileOf (directories : List String) (shortName : String) : SourceFile :=
  ⟨"ns/" ++ shortName ++ ".1.0.dsdl", directories, shortName ++ ".1.0.dsdl", some "@sealed"⟩

def rootOf (files : List SourceFile) : NamespaceRoot := ⟨"ns", true, "ns", files⟩

def messageOf (info : DiscoveredDefinition) : ParsedDefinition :=
  ⟨info, ⟨⟨info.filePath, 1, 1⟩, []⟩⟩

def serviceOf (info : DiscoveredDefinition) : ParsedDefinition :=
  ⟨info, ⟨⟨info.filePath, 1, 1⟩, [.serviceResponseMarker ⟨info.filePath, 1, 1⟩]⟩⟩

def everyLanguage : List Language := [.c, .cpp, .rust, .go, .typeScript, .python]

/-- A service beside a namespace that holds a message, in every language. -/
theorem outputsApart_of_checks_service : OutputsApart everyLanguage .unversioned
    (discoverDefinitions [rootOf [fileOf [] "Get", fileOf ["sub"] "Reading"]] []
      everyLanguage).1
    [serviceOf (definitionOf [] "Get"), messageOf (definitionOf ["sub"] "Reading")] := by
  have found : discoverDefinitions [rootOf [fileOf [] "Get", fileOf ["sub"] "Reading"]] []
      everyLanguage = ([definitionOf [] "Get", definitionOf ["sub"] "Reading"], []) :=
    discoverDefinitions_quiet (by decide +kernel) (by decide +kernel) (by decide +kernel)
      (by decide +kernel)
  refine outputsApart_of_checks (by rw [found]) ?_ (by decide +kernel)
  rw [found]
  exact List.forall_mem_cons.mpr ⟨List.mem_cons_self, List.forall_mem_singleton.mpr
    (List.mem_cons_of_mem _ List.mem_cons_self)⟩

/-- Two DSDL namespaces whose names are escaped into one are one namespace of the output. -/
theorem outputNamespaces_shared :
    let definitions := [definitionOf ["long"] "A", definitionOf ["long_"] "B"]
    discoverDefinitions [rootOf [fileOf ["long"] "A", fileOf ["long_"] "B"]] [] [.cpp] =
        (definitions, []) ∧
      checkScopedTypeNameCollisions [.cpp] .unversioned (definitions.map messageOf) = [] ∧
      ∃ entry ∈ outputNamespaces .cpp (definitionOf ["long"] "A"),
        ∃ other ∈ outputNamespaces .cpp (definitionOf ["long_"] "B"),
          entry.1 = other.1 ∧ entry.2 = "ns.long" ∧ other.2 = "ns.long_" := by
  refine ⟨discoverDefinitions_quiet (by decide +kernel) (by decide +kernel) (by decide +kernel)
    (by decide +kernel), by decide +kernel, ?_⟩
  decide +kernel

end LlvmDsdl.Frontend
