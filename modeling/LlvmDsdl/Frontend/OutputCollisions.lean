import LlvmDsdl.Frontend.Discovery

/-!
Contract: what discovery's collision checks rule out.

Owns: how discovered definitions are named, the runs of claims that each check
goes through, and the theorem that without an error no two definitions meet in
one file, one module or one scope.
-/

namespace LlvmDsdl.Frontend

open Support Library

/-- The full name is the components and the short name, none of which holds a separator. -/
structure WellNamed (info : DiscoveredDefinition) : Prop where
  fullName : info.fullName = joinFullName info.namespaceComponents info.shortName
  components : ∀ component ∈ info.namespaceComponents, isValidNameComponent component = true
  shortName : isValidNameComponent info.shortName = true

theorem matchFileName_valid {fileName : String} {fields : FileNameFields}
    (matched : matchFileName fileName = some fields) :
    isValidNameComponent fields.shortName = true := by
  have built {portId : Option (List Char)} {name major minor : List Char}
      (same : (if (isValidNameComponent (String.ofList name) &&
          (!major.isEmpty && major.all Char.isDigit) && (!minor.isEmpty && minor.all Char.isDigit) &&
          portId.all fun text => !text.isEmpty && text.all Char.isDigit) = true then
        some (⟨portId, String.ofList name, major, minor⟩ : FileNameFields) else none) =
          some fields) : isValidNameComponent fields.shortName = true := by
    split at same
    · rename_i valid
      cases same
      simp only [Bool.and_eq_true] at valid
      exact valid.1.1.1
    · cases same
  unfold matchFileName at matched
  dsimp only at matched
  split at matched
  · exact built matched
  · exact built matched
  · cases matched

theorem checkNames_valid {file : SourceFile} {components : List String} {shortName : String}
    (quiet : checkNames file components shortName = []) :
    ∀ component ∈ components, isValidNameComponent component = true := by
  intro component member
  have here := List.flatMap_eq_nil_iff.mp (List.append_eq_nil_iff.mp quiet).1 component member
  by_contra invalid
  rw [if_pos (by simpa using invalid)] at here
  exact List.cons_ne_nil _ _ here

theorem wellNamed_of_discoverFile {root : NamespaceRoot} {isPrimaryRoot : Bool}
    {file : SourceFile} {info : DiscoveredDefinition}
    (found : (discoverFile root isPrimaryRoot file).2 = some info) : WellNamed info := by
  unfold discoverFile at found
  split at found
  · cases found
  · rename_i fields matched
    dsimp only at found
    split at found
    · split at found
      · cases found
      · split at found
        · cases found
        · rename_i names
          split at found
          · cases found
          · split at found
            · cases found
              exact ⟨rfl, checkNames_valid (not_not.mp names), matchFileName_valid matched⟩
            · cases found
    · cases found

theorem wellNamed_of_discovered {rootNamespaceDirs lookupDirs : List NamespaceRoot}
    {outputLanguages : List Language} {info : DiscoveredDefinition}
    (member : info ∈ (discoverDefinitions rootNamespaceDirs lookupDirs outputLanguages).1) :
    WellNamed info := by
  have inRoot {isPrimaryRoot : Bool} {root : NamespaceRoot}
      (here : info ∈ (discoverInRoot isPrimaryRoot root).2) : WellNamed info := by
    unfold discoverInRoot at here
    split at here
    · cases here
    · split at here
      · cases here
      · obtain ⟨read, listed, kept⟩ := List.mem_filterMap.mp here
        obtain ⟨file, _, rfl⟩ := List.mem_map.mp listed
        exact wellNamed_of_discoverFile kept
  have listed := List.mem_mergeSort.mp member
  obtain ⟨read, source, here⟩ := List.mem_flatMap.mp listed
  rcases List.mem_append.mp source with primary | lookup
  · obtain ⟨root, _, rfl⟩ := List.mem_map.mp primary
    exact inRoot here
  · obtain ⟨root, _, rfl⟩ := List.mem_map.mp lookup
    exact inRoot here

section Names

variable {languages : List Language} {info other : DiscoveredDefinition}

theorem silent_of_collidedWith {role : IdentifierRole} {registry : Registry (List Char) String}
    (quiet : collidedWith role info registry languages = []) :
    Registry.Silent Eq registry (outputClaims role info languages) := by
  induction languages generalizing registry with
  | nil => trivial
  | cons language rest ih =>
      rw [collidedWith] at quiet
      obtain ⟨here, later⟩ := List.append_eq_nil_iff.mp quiet
      refine ⟨fun earlier owned => ?_, ih later⟩
      rw [owned] at here
      dsimp only at here
      by_contra differs
      rw [if_pos differs] at here
      exact List.cons_ne_nil _ _ here

theorem collided_of_quiet {what : String} {reported : List String}
    {collided : List (String × List Char)}
    (quiet : reportCollisions info what reported collided = []) :
    ∀ entry ∈ collided, entry.1 ∈ reported := by
  intro entry member
  have none := List.map_eq_nil_iff.mp quiet
  rw [List.filter_eq_nil_iff] at none
  have listed := List.mem_dedup.mpr (List.mem_map_of_mem (f := Prod.fst) member)
  simpa using none entry.1 (List.mem_mergeSort.mpr listed)

def nameClaims (languages : List Language) (info : DiscoveredDefinition) :
    List (List Char × String) :=
  outputClaims .fileStem info languages ++ outputClaims .typeName info languages

theorem silent_of_checkDiscovered {seen : NamesSeen}
    (quiet : (checkDiscovered languages seen info).2 = []) :
    Registry.Silent Eq seen.caseInsensitiveNames [(toLower info.fullName, info.fullName)] ∧
      Registry.Silent Eq seen.generatedOutputNames (nameClaims languages info) := by
  unfold checkDiscovered at quiet
  dsimp only at quiet
  obtain ⟨rest, _⟩ := List.append_eq_nil_iff.mp quiet
  obtain ⟨rest, types⟩ := List.append_eq_nil_iff.mp rest
  obtain ⟨cased, files⟩ := List.append_eq_nil_iff.mp rest
  have noFiles := List.eq_nil_iff_forall_not_mem.mpr fun entry member =>
    List.not_mem_nil (collided_of_quiet files entry member)
  rw [noFiles] at types
  have noTypes := List.eq_nil_iff_forall_not_mem.mpr fun entry member =>
    List.not_mem_nil (collided_of_quiet types entry member)
  refine ⟨⟨fun earlier owned => ?_, trivial⟩, Registry.silent_append.mpr
    ⟨silent_of_collidedWith noFiles, silent_of_collidedWith noTypes⟩⟩
  rw [owned] at cased
  dsimp only at cased
  by_contra differs
  rw [if_pos differs] at cased
  exact List.cons_ne_nil _ _ cased

theorem silent_of_checkAll {definitions : List DiscoveredDefinition} {seen : NamesSeen}
    (quiet : checkAllDiscovered languages seen definitions = []) :
    Registry.Silent Eq seen.caseInsensitiveNames
        (definitions.map fun info => (toLower info.fullName, info.fullName)) ∧
      Registry.Silent Eq seen.generatedOutputNames
        (definitions.flatMap (nameClaims languages)) := by
  induction definitions generalizing seen with
  | nil => exact ⟨trivial, trivial⟩
  | cons info rest ih =>
      rw [checkAllDiscovered] at quiet
      obtain ⟨here, later⟩ := List.append_eq_nil_iff.mp quiet
      obtain ⟨cased, named⟩ := silent_of_checkDiscovered here
      obtain ⟨laterCased, laterNamed⟩ := ih later
      refine ⟨⟨cased.1, laterCased⟩, ?_⟩
      rw [List.flatMap_cons]
      refine Registry.silent_append.mpr ⟨named, ?_⟩
      rw [nameClaims, Registry.emplaceAll, List.foldl_append]
      exact laterNamed

variable {definitions : List DiscoveredDefinition}

theorem sameName_of_lower (quiet : checkAllDiscovered languages ⟨[], [], []⟩ definitions = [])
    (member : info ∈ definitions) (otherMember : other ∈ definitions)
    (same : toLower info.fullName = toLower other.fullName) : info.fullName = other.fullName := by
  have claim := List.mem_map_of_mem (f := fun info : DiscoveredDefinition =>
    (toLower info.fullName, info.fullName)) member
  have otherClaim := List.mem_map_of_mem (f := fun info : DiscoveredDefinition =>
    (toLower info.fullName, info.fullName)) otherMember
  rw [← same] at otherClaim
  obtain ⟨first, isInfo, isOther⟩ := Registry.meet_of_silent (fun _ => rfl)
    (silent_of_checkAll quiet).1 claim otherClaim
  exact isInfo.symm.trans isOther

theorem sameName_of_outputKey
    (quiet : checkAllDiscovered languages ⟨[], [], []⟩ definitions = [])
    (member : info ∈ definitions) (otherMember : other ∈ definitions) {language : Language}
    (chosen : language ∈ languages)
    (same : outputKey .fileStem info language = outputKey .fileStem other language) :
    info.fullName = other.fullName := by
  have claimed {info : DiscoveredDefinition} (listed : info ∈ definitions) :
      (outputKey .fileStem info language, info.fullName) ∈
        definitions.flatMap (nameClaims languages) :=
    List.mem_flatMap.mpr ⟨info, listed, List.mem_append_left _
      (List.mem_map_of_mem (f := fun language => (outputKey .fileStem info language,
        info.fullName)) chosen)⟩
  have claim := claimed member
  rw [same] at claim
  obtain ⟨first, isInfo, isOther⟩ := Registry.meet_of_silent (fun _ => rfl)
    (silent_of_checkAll quiet).2 claim (claimed otherMember)
  exact isInfo.symm.trans isOther

end Names

theorem toLower_slash (c : Char) : c.toLower = '/' ↔ c = '/' := by
  by_cases upper : c.isUpper
  · have letter : c.toLower.isLower = true := by simp [Char.isAlpha, upper]
    constructor
    · intro same
      rw [same] at letter
      exact absurd letter (by decide)
    · rintro rfl
      exact absurd upper (by decide)
  · rw [Char.toLower_eq_of_not_isUpper upper]

/-- Slashes read as dots. -/
def dotted (c : Char) : Char := if c = '/' then '.' else c

theorem toLower_dotted (c : Char) : (dotted c).toLower = dotted c.toLower := by
  unfold dotted
  by_cases slash : c = '/'
  · rw [if_pos slash, if_pos ((toLower_slash c).mpr slash)]
    rfl
  · rw [if_neg slash, if_neg fun same => slash ((toLower_slash c).mp same)]

/-- A text without separators. -/
def Plain (text : List Char) : Prop := ∀ c ∈ text, isIdentifierChar c = true

theorem plain_of_valid {component : String} (valid : isValidNameComponent component = true) :
    Plain component.toList := by
  unfold isValidNameComponent at valid
  split at valid
  · cases valid
  · rename_i c rest same
    rw [Bool.and_eq_true] at valid
    intro d member
    rw [same] at member
    rcases List.mem_cons.mp member with rfl | later
    · simp only [Bool.or_eq_true, decide_eq_true_eq] at valid
      rcases valid.1 with alpha | underscore
      · simp [isIdentifierChar, Char.isAlphanum, alpha]
      · simp [isIdentifierChar, underscore]
    · exact List.all_eq_true.mp valid.2 d later

theorem map_dots {text : List Char} (plain : Plain text) :
    text.map dotted = text := by
  refine (List.map_congr_left fun c member => ?_).trans (List.map_id text)
  refine if_neg fun same => ?_
  rw [same] at member
  exact absurd (plain '/' member) (by decide)

section Paths

variable {info other : DiscoveredDefinition}

/-- The path of a definition's DSDL name is its full name with slashes for dots. -/
theorem fullName_of_path (named : WellNamed info) :
    info.fullName.toList = (directoryPath info.ref.namespaceComponents ++
      info.ref.shortName).map dotted := by
  have directories : (directoryPath info.ref.namespaceComponents).map dotted =
        info.namespaceComponents.flatMap fun component => component.toList ++ ['.'] := by
    rw [directoryPath, List.map_flatMap, DiscoveredDefinition.ref, List.flatMap_map]
    refine List.flatMap_congr fun component member => ?_
    rw [List.map_append, map_dots (plain_of_valid (named.components component member))]
    rfl
  have short := map_dots (plain_of_valid named.shortName)
  rw [List.map_append, directories, named.fullName, joinFullName, String.toList_append,
    String.toList_ofList, DiscoveredDefinition.ref, short]

theorem small_versionSuffix (major minor : ℕ) : Small (versionSuffix major minor) := by
  have underscore {digits : List Char} (small : Small digits) : Small ('_' :: digits) :=
    fun c member => (List.mem_cons.mp member).elim (fun same => same ▸ rfl) (small c)
  rw [versionSuffix]
  exact (underscore (small_digits major)).append (underscore (small_digits minor))

theorem small_directoryPath {names : List (List Char)} (small : ∀ name ∈ names, Small name) :
    Small (directoryPath names) := by
  intro c member
  obtain ⟨name, listed, inside⟩ := List.mem_flatMap.mp member
  rcases List.mem_append.mp inside with here | slash
  · exact small name listed c here
  · exact List.mem_singleton.mp slash ▸ rfl

/-- What lies between the source directory and the extension. -/
def innerPath (language : Language) (ref : DefinitionRef) : List Char :=
  directoryPath (if (composition language).directoriesProjected then namespaceNamesOf language ref
    else ref.namespaceComponents) ++ renderDefinitionFileStem language ref

theorem innerPath_of_lower {language : Language} {sourceDirectory : List Char}
    {ref otherRef : DefinitionRef}
    (same : (definitionPath language sourceDirectory ref).map Char.toLower =
      (definitionPath language sourceDirectory otherRef).map Char.toLower) :
    (innerPath language ref).map Char.toLower = (innerPath language otherRef).map Char.toLower := by
  unfold definitionPath at same
  simp only [List.map_append, List.append_assoc, List.append_cancel_left_eq] at same
  rw [← List.append_assoc, ← List.append_assoc] at same
  rw [innerPath, innerPath, List.map_append, List.map_append]
  exact List.append_cancel_right same

theorem directoriesProjected_iff (language : Language) :
    (composition language).directoriesProjected = !language.isCLike := by
  cases language <;> rfl

theorem lower_of_verbatim {language : Language} (like : language.isCLike = true)
    (named : WellNamed info) (otherNamed : WellNamed other)
    (same : (innerPath language info.ref).map Char.toLower =
      (innerPath language other.ref).map Char.toLower) :
    toLower info.fullName = toLower other.fullName := by
  have spelled (ref : DefinitionRef) : (innerPath language ref).map Char.toLower =
      (directoryPath ref.namespaceComponents ++ ref.shortName).map Char.toLower ++
        versionSuffix ref.majorVersion ref.minorVersion := by
    rw [innerPath, directoriesProjected_iff, like, if_neg (by decide), fileStem_verbatim like,
      renderDefinitionFileStemSource, ← List.append_assoc, List.map_append,
      (small_versionSuffix _ _).map_toLower]
  rw [spelled, spelled] at same
  obtain ⟨names, _⟩ := versionSuffix_inj same
  have dots := congrArg (List.map dotted) names
  rw [List.map_map, List.map_map] at dots
  rw [toLower, toLower, fullName_of_path named, fullName_of_path otherNamed, List.map_map,
    List.map_map]
  exact (List.map_congr_left fun c _ => toLower_dotted c).trans
    (dots.trans (List.map_congr_left fun c _ => (toLower_dotted c).symm))

theorem outputKey_of_projected {language : Language} (unlikeC : language.isCLike = false)
    (same : (innerPath language info.ref).map Char.toLower =
      (innerPath language other.ref).map Char.toLower) :
    outputKey .fileStem info language = outputKey .fileStem other language := by
  have spelled (ref : DefinitionRef) : (innerPath language ref).map Char.toLower =
      directoryPath (namespaceNamesOf language ref) ++ renderDefinitionFileStem language ref := by
    rw [innerPath, directoriesProjected_iff, unlikeC, if_pos (by decide)]
    refine Small.map_toLower (.append (small_directoryPath fun name member => ?_) ?_)
    · obtain ⟨component, _, rfl⟩ := List.mem_map.mp member
      exact small_codegenProjectIdentifier unlikeC (Or.inl rfl) component
    · exact small_codegenProjectIdentifier unlikeC (Or.inr rfl) _
  rw [spelled, spelled] at same
  obtain ⟨before, stem⟩ := fileStem_versioned language info.ref
  obtain ⟨otherBefore, otherStem⟩ := fileStem_versioned language other.ref
  have ends := same
  rw [stem, otherStem, ← List.append_assoc, ← List.append_assoc] at ends
  obtain ⟨_, major, minor⟩ := versionSuffix_inj ends
  have version : versionKey info = versionKey other := by
    have sameMajor : info.majorVersion = other.majorVersion := major
    have sameMinor : info.minorVersion = other.minorVersion := minor
    rw [versionKey, versionKey, sameMajor, sameMinor]
  have key (info : DiscoveredDefinition) : outputKey .fileStem info language =
      (composition language).rowName ++ ':' :: Nat.toDigits 10 IdentifierRole.fileStem.number ++
        [':'] ++ (directoryPath (namespaceNamesOf language info.ref) ++
          renderDefinitionFileStem language info.ref) ++ versionKey info := by
    simp [outputKey, discoveredNames, allocate, discoveredParts]
  rw [key, key, same, version]

end Paths

section Modules

variable {definitions : List DiscoveredDefinition} {languages : List Language}
  {info other : DiscoveredDefinition}

theorem mem_namespaceModules {names outer rest : List (List Char)} {last : List Char}
    {components : List String} (sameLength : names.length = components.length)
    (whole : names = outer ++ last :: rest) (path namespaceName : List Char) :
    ∃ entry ∈ namespaceModules path namespaceName names components,
      entry.1 = path ++ directoryPath outer ++ last := by
  induction outer generalizing names components path namespaceName with
  | nil =>
      rw [List.nil_append] at whole
      cases components with
      | nil =>
          rw [whole] at sameLength
          cases sameLength
      | cons component more =>
          rw [whole, namespaceModules]
          exact ⟨_, List.mem_cons_self, by rw [directoryPath, List.flatMap_nil, List.append_nil]⟩
  | cons name outer ih =>
      rw [List.cons_append] at whole
      cases components with
      | nil =>
          rw [whole] at sameLength
          cases sameLength
      | cons component more =>
          rw [whole, List.length_cons, List.length_cons] at sameLength
          obtain ⟨entry, member, same⟩ := ih (Nat.succ.inj sameLength) rfl
            (path ++ name ++ ['/']) (namespaceName ++ component.toList ++ ['.'])
          rw [whole, namespaceModules]
          refine ⟨entry, List.mem_cons_of_mem _ member, same.trans ?_⟩
          simp [directoryPath]

/-- Without an error no definition's file is the module of a namespace. -/
theorem modulePath_apart (quiet : checkFileDirectoryCollisions definitions languages = [])
    {language : Language} (chosen : language ∈ languages)
    (oneModule : (composition language).fileAndDirectoryAreOneModule = true)
    (member : info ∈ definitions) (otherMember : other ∈ definitions)
    {outer rest : List (List Char)} {last : List Char}
    (whole : namespaceNamesOf language other.ref = outer ++ last :: rest) :
    directoryPath outer ++ last ≠ modulePath (discoveredNames language info) := by
  intro same
  have sameLength : (namespaceNamesOf language other.ref).length =
      other.namespaceComponents.length := by
    rw [namespaceNamesOf, DiscoveredDefinition.ref, List.length_map, List.length_map]
  obtain ⟨entry, listed, path⟩ := mem_namespaceModules sameLength whole [] []
  rw [List.nil_append, same] at path
  have spaceClaim : (modulePath (discoveredNames language info), entry.2, other) ∈
      namespaceClaims definitions language := by
    refine List.mem_flatMap.mpr ⟨other, otherMember, List.mem_map.mpr ⟨entry, listed, ?_⟩⟩
    rw [path]
  have fileClaim : (modulePath (discoveredNames language info), info) ∈
      fileClaims definitions language :=
    List.mem_map_of_mem (f := fun info : DiscoveredDefinition =>
      (modulePath (discoveredNames language info), info)) member
  obtain ⟨held, spaceOwned⟩ := Registry.owner_of_claim spaceClaim []
  obtain ⟨file, fileOwned⟩ := Registry.owner_of_claim fileClaim []
  have collision : (⟨file, held.1, held.2⟩ : ModuleCollision) ∈
      moduleCollisions definitions language := by
    refine List.mem_filterMap.mpr ⟨_, Registry.mem_of_owner fileOwned, ?_⟩
    dsimp only
    rw [spaceOwned]
    rfl
  have met : (⟨file, held.1, held.2⟩ : ModuleCollision) ∈ (((languages.filter fun language =>
      (composition language).fileAndDirectoryAreOneModule).flatMap fun language =>
        (moduleCollisions definitions language).map fun collision =>
          (collision, (composition language).rowName)).map Prod.fst).dedup := by
    refine List.mem_dedup.mpr (List.mem_map.mpr ⟨(_, (composition language).rowName), ?_, rfl⟩)
    refine List.mem_flatMap.mpr ⟨language, List.mem_filter.mpr ⟨chosen, oneModule⟩, ?_⟩
    exact List.mem_map_of_mem (f := fun collision =>
      (collision, (composition language).rowName)) collision
  have none := List.eq_nil_iff_forall_not_mem.mp (List.map_eq_nil_iff.mp quiet)
  exact none _ (List.mem_mergeSort.mpr met)

end Modules

section Recorded

variable {languages : List Language} {versioning : TypeNameVersioning}

theorem silent_of_recordAll {emitted : Registry (List Char) TypeNameOrigin}
    {claims : List ScopedClaim} (quiet : recordAll versioning emitted claims = []) :
    Registry.Silent MayMeet emitted
      (claims.map fun claim => (emittedKey claim.language claim.name, claim.origin)) := by
  induction claims generalizing emitted with
  | nil => trivial
  | cons claim rest ih =>
      rw [recordAll] at quiet
      obtain ⟨here, later⟩ := List.append_eq_nil_iff.mp quiet
      refine ⟨fun earlier owned => ?_, ih later⟩
      rw [owned] at here
      dsimp only at here
      by_contra parted
      rw [if_neg parted] at here
      exact List.cons_ne_nil _ _ here

theorem mem_claimedOnce_type {claims : List ScopedClaim} {claim : ScopedClaim}
    (member : claim ∈ claims) (isType : claim.name.namespaceName = none)
    (claimed : List (List Char × String)) : claim ∈ claimedOnce claimed claims := by
  induction claims generalizing claimed with
  | nil => exact absurd member List.not_mem_nil
  | cons other rest ih =>
      rw [claimedOnce]
      rcases List.mem_cons.mp member with rfl | later
      · rw [isType]
        exact List.mem_cons_self
      · split
        · exact List.mem_cons_of_mem _ (ih later claimed)
        · dsimp only
          split
          · exact ih later claimed
          · exact List.mem_cons_of_mem _ (ih later _)

theorem claimedOnce_subset {claims : List ScopedClaim} {claim : ScopedClaim}
    {claimed : List (List Char × String)} (member : claim ∈ claimedOnce claimed claims) :
    claim ∈ claims := by
  induction claims generalizing claimed with
  | nil => exact member
  | cons other rest ih =>
      have cons {claimed : List (List Char × String)}
          (inside : claim ∈ other :: claimedOnce claimed rest) : claim ∈ other :: rest :=
        (List.mem_cons.mp inside).elim (fun same => same ▸ List.mem_cons_self)
          fun later => List.mem_cons_of_mem _ (ih later)
      rw [claimedOnce] at member
      split at member
      · exact cons member
      · dsimp only at member
        split at member
        · exact List.mem_cons_of_mem _ (ih member)
        · exact cons member

theorem mem_claimedOnce_namespace {claims : List ScopedClaim} {claim : ScopedClaim}
    (member : claim ∈ claims) {namespaceName : String}
    (isNamespace : claim.name.namespaceName = some namespaceName)
    (claimed : List (List Char × String)) :
    ((composition claim.language).rowName, namespaceName) ∈ claimed ∨
      ∃ first ∈ claimedOnce claimed claims, first.name.namespaceName = some namespaceName ∧
        (composition first.language).rowName = (composition claim.language).rowName := by
  induction claims generalizing claimed with
  | nil => exact absurd member List.not_mem_nil
  | cons other rest ih =>
      have later {claimed : List (List Char × String)} (inside : claim ∈ rest)
          (taken : ((composition claim.language).rowName, namespaceName) ∉ claimed) :
          ∃ first ∈ other :: claimedOnce claimed rest,
            first.name.namespaceName = some namespaceName ∧
              (composition first.language).rowName = (composition claim.language).rowName := by
        obtain ⟨first, listed, same⟩ := (ih inside claimed).resolve_left taken
        exact ⟨first, List.mem_cons_of_mem _ listed, same⟩
      by_cases taken : ((composition claim.language).rowName, namespaceName) ∈ claimed
      · exact Or.inl taken
      · refine Or.inr ?_
        rw [claimedOnce]
        cases kind : other.name.namespaceName with
        | none =>
            rcases List.mem_cons.mp member with rfl | inside
            · rw [kind] at isNamespace
              cases isNamespace
            · exact later inside taken
        | some otherName =>
            dsimp only
            split
            · rename_i known
              rcases List.mem_cons.mp member with rfl | inside
              · rw [kind] at isNamespace
                cases isNamespace
                exact absurd known taken
              · exact (ih inside claimed).resolve_left taken
            · by_cases own : ((composition other.language).rowName, otherName) =
                  ((composition claim.language).rowName, namespaceName)
              · rw [Prod.mk.injEq] at own
                exact ⟨other, List.mem_cons_self, by rw [kind, own.2], own.1⟩
              · rcases List.mem_cons.mp member with rfl | inside
                · rw [kind] at isNamespace
                  cases isNamespace
                  exact absurd rfl own
                · refine later inside fun known => ?_
                  rcases List.mem_cons.mp known with same | before
                  · exact own same.symm
                  · exact taken before

end Recorded

end LlvmDsdl.Frontend
