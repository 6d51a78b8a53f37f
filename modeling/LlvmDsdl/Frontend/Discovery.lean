import LlvmDsdl.Frontend.Ast
import LlvmDsdl.Library.Registry
import LlvmDsdl.Support.DefinitionSurface
import LlvmDsdl.Support.NamingScope
import LlvmDsdl.Support.ReservedIdentifiers

/-!
Contract: discovery of definitions and its collision checks (`Discovery.cpp`).

Owns: reading a file name, the checks on what a root holds, the order of the
definitions, and the checks on output paths, modules and scoped type names.

The file system is what the roots say they hold. Notes on renamed paths are left
out; they are no errors.
-/

namespace LlvmDsdl.Frontend

open Support Library

def isValidNameComponent (name : String) : Bool :=
  match name.toList with
  | [] => false
  | c :: rest => (c.isAlpha || c = '_') && rest.all isIdentifierChar

/-- One of the decimal fields of a file name, where its value fits. -/
def parseFileNameNumber (text : List Char) : Option ℕ :=
  text.foldlM (fun value c =>
    if c.isDigit then
      let next := value * 10 + (c.toNat - '0'.toNat)
      if next < 2 ^ 32 then some next else none
    else none) 0

structure FileNameFields where
  portId : Option (List Char)
  shortName : String
  majorVersion : List Char
  minorVersion : List Char

def matchFileName (fileName : String) : Option FileNameFields :=
  let isNumber (text : List Char) := !text.isEmpty && text.all Char.isDigit
  let fields (portId : Option (List Char)) (name major minor : List Char) :=
    if isValidNameComponent (String.ofList name) && isNumber major && isNumber minor &&
        portId.all isNumber then
      some ⟨portId, String.ofList name, major, minor⟩
    else none
  match fileName.toList.splitOn '.' with
  | [name, major, minor, ['d', 's', 'd', 'l']] => fields none name major minor
  | [portId, name, major, minor, ['d', 's', 'd', 'l']] => fields (some portId) name major minor
  | _ => none

/-- A regular file under a root: its path, the directories from the root, its name and text. -/
structure SourceFile where
  path : String
  directories : List String
  fileName : String
  text : Option String

structure NamespaceRoot where
  path : String
  isFound : Bool
  name : String
  files : List SourceFile

def fileError (file message : String) : Diagnostic :=
  ⟨.error, ⟨file, 1, 1⟩, message, none⟩

def joinFullName (components : List String) (shortName : String) : String :=
  String.ofList (components.flatMap fun component => component.toList ++ ['.']) ++ shortName

/-- The complaint of one decimal field, or its value. -/
def readNumber (file : SourceFile) (what : String) (text : List Char) : List Diagnostic × Option ℕ :=
  match parseFileNameNumber text with
  | some value => ([], some value)
  | none =>
      ([fileError file.path
        (what ++ " " ++ String.ofList text ++ " in " ++ file.fileName ++ " is too large")], none)

def checkNames (file : SourceFile) (components : List String) (shortName : String) :
    List Diagnostic :=
  (components.flatMap fun component =>
    if !isValidNameComponent component then
      [fileError file.path ("invalid namespace component: " ++ component)]
    else if isReservedIdentifier component then
      [fileError file.path ("namespace component is a reserved identifier: " ++ component)]
    else []) ++
  (if isReservedIdentifier shortName then
    [fileError file.path ("type name is a reserved identifier: " ++ shortName)]
  else [])

/-- One file of a root. An empty definition is kept in a primary root only. -/
def discoverFile (root : NamespaceRoot) (isPrimaryRoot : Bool) (file : SourceFile) :
    List Diagnostic × Option DiscoveredDefinition :=
  match matchFileName file.fileName with
  | none => ([fileError file.path ("invalid DSDL filename format: " ++ file.fileName)], none)
  | some fields =>
      let major := readNumber file "major version" fields.majorVersion
      let minor := readNumber file "minor version" fields.minorVersion
      let portId :=
        match fields.portId with
        | none => ([], some none)
        | some text =>
            let read := readNumber file "fixed port-ID" text
            (read.1, read.2.map some)
      match major.2, minor.2, portId.2 with
      | some majorVersion, some minorVersion, some fixedPortId =>
          let components := root.name :: file.directories
          if majorVersion = 0 ∧ minorVersion = 0 then
            ([fileError file.path "version 0.0 is not allowed in DSDL definitions"], none)
          else if checkNames file components fields.shortName ≠ [] then
            (checkNames file components fields.shortName, none)
          else
            match file.text with
            | none => ([fileError file.path "failed to read DSDL source file"], none)
            | some text =>
                ([], if isPrimaryRoot || text ≠ "" then
                  some
                    { filePath := file.path
                      fullName := joinFullName components fields.shortName
                      shortName := fields.shortName
                      namespaceComponents := components
                      majorVersion := majorVersion
                      minorVersion := minorVersion
                      fixedPortId := fixedPortId }
                else none)
      | _, _, _ => (major.1 ++ minor.1 ++ portId.1, none)

def discoverInRoot (isPrimaryRoot : Bool) (root : NamespaceRoot) :
    List Diagnostic × List DiscoveredDefinition :=
  if !root.isFound then
    ([fileError root.path ("namespace root does not exist: " ++ root.path)], [])
  else if !isValidNameComponent root.name then
    ([fileError root.path ("invalid root namespace directory name: " ++ root.name)], [])
  else
    let found := root.files.map (discoverFile root isPrimaryRoot)
    (found.flatMap Prod.fst, found.filterMap Prod.snd)

/-- By full name, then by descending version, then by path. -/
def discoveredBefore (a b : DiscoveredDefinition) : Bool :=
  if a.fullName ≠ b.fullName then a.fullName < b.fullName
  else if a.majorVersion ≠ b.majorVersion then b.majorVersion < a.majorVersion
  else if a.minorVersion ≠ b.minorVersion then b.minorVersion < a.minorVersion
  else a.filePath < b.filePath

def sortDefinitions (definitions : List DiscoveredDefinition) : List DiscoveredDefinition :=
  definitions.mergeSort fun a b => !discoveredBefore b a

def DiscoveredDefinition.ref (info : DiscoveredDefinition) : DefinitionRef where
  namespaceComponents := info.namespaceComponents.map String.toList
  shortName := info.shortName.toList
  majorVersion := info.majorVersion
  minorVersion := info.minorVersion

def discoveredParts (info : DiscoveredDefinition) (isService isDeprecated : Bool) :
    DefinitionHeading where
  ref := info.ref
  service := isService
  deprecated := isDeprecated

/-- Nothing is parsed yet: each definition is taken as a message. -/
def discoveredNames (language : Language) (info : DiscoveredDefinition) : DefinitionNames :=
  allocate language .unversioned (discoveredParts info false false)

def toLower (text : String) : List Char := text.toList.map Char.toLower

/-- `:major:minor`. -/
def versionKey (info : DiscoveredDefinition) : List Char :=
  ':' :: Nat.toDigits 10 info.majorVersion ++ ':' :: Nat.toDigits 10 info.minorVersion

/-- The key under which a language's output name of a definition is kept. -/
def outputKey (role : IdentifierRole) (info : DiscoveredDefinition) (language : Language) :
    List Char :=
  let names := discoveredNames language info
  (composition language).rowName ++ ':' :: Nat.toDigits 10 role.number ++ ':' ::
    directoryPath names.namespaceNames ++
    (if role = .fileStem then names.fileStem else names.typeName) ++ versionKey info

/-- `target languages 'rust', 'go'`. -/
def describeLanguages (languages : List (List Char)) : String :=
  (if 1 < languages.length then "target languages " else "target language ") ++
    String.intercalate ", " (languages.map fun name => "'" ++ String.ofList name ++ "'")

/-- The definitions of another name that hold a definition's output names, each with the language
it does so in. -/
def collidedWith (role : IdentifierRole) (info : DiscoveredDefinition)
    (registry : Registry (List Char) String) (languages : List Language) :
    List (String × List Char) :=
  match languages with
  | [] => []
  | language :: rest =>
      let key := outputKey role info language
      (match registry.owner key with
        | some other =>
            if other ≠ info.fullName then [(other, (composition language).rowName)] else []
        | none => []) ++
      collidedWith role info (registry.emplace key info.fullName) rest

def outputClaims (role : IdentifierRole) (info : DiscoveredDefinition)
    (languages : List Language) : List (List Char × String) :=
  languages.map fun language => (outputKey role info language, info.fullName)

/-- One complaint a definition met, unless one was made already. -/
def reportCollisions (info : DiscoveredDefinition) (what : String) (reported : List String)
    (collided : List (String × List Char)) : List Diagnostic :=
  let others := ((collided.map Prod.fst).dedup.mergeSort fun a b => a ≤ b).filter (· ∉ reported)
  others.map fun other =>
    fileError info.filePath
      ("type name collision in generated output: " ++ info.fullName ++ " and " ++ other ++
        " map to the same " ++ what ++ " for " ++
        describeLanguages ((collided.filter (·.1 = other)).map Prod.snd))

/-- The registries of the pass, and what it reported. -/
structure NamesSeen where
  caseInsensitiveNames : Registry (List Char) String
  versionUnique : Registry (List Char) String
  generatedOutputNames : Registry (List Char) String

/-- One definition: its name in either case, its output names, then its version. -/
def checkDiscovered (languages : List Language) (seen : NamesSeen) (info : DiscoveredDefinition) :
    NamesSeen × List Diagnostic :=
  let lowerName := toLower info.fullName
  let cased :=
    match seen.caseInsensitiveNames.owner lowerName with
    | some other =>
        if other ≠ info.fullName then
          [fileError info.filePath ("name collision on case-insensitive filesystem: " ++
            info.fullName ++ " conflicts with " ++ other)]
        else []
    | none => []
  let stems := seen.generatedOutputNames.emplaceAll (outputClaims .fileStem info languages)
  let files := collidedWith .fileStem info seen.generatedOutputNames languages
  let types := collidedWith .typeName info stems languages
  let duplicate :=
    if (seen.versionUnique.owner (lowerName ++ versionKey info)).isSome then
      [fileError info.filePath ("duplicate definition version: " ++ info.fullName ++ "." ++
        toString info.majorVersion ++ "." ++ toString info.minorVersion)]
    else []
  ({ caseInsensitiveNames := seen.caseInsensitiveNames.emplace lowerName info.fullName
     versionUnique := seen.versionUnique.emplace (lowerName ++ versionKey info) info.filePath
     generatedOutputNames := stems.emplaceAll (outputClaims .typeName info languages) },
    cased ++ reportCollisions info "output file name" [] files ++
      reportCollisions info "generated type name" (files.map Prod.fst) types ++ duplicate)

def checkAllDiscovered (languages : List Language) (seen : NamesSeen) :
    List DiscoveredDefinition → List Diagnostic
  | [] => []
  | info :: rest =>
      let step := checkDiscovered languages seen info
      step.2 ++ checkAllDiscovered languages step.1 rest

/-- The path of each namespace around a definition, with its DSDL name, outermost first. -/
def namespaceModules (path namespaceName : List Char) :
    List (List Char) → List String → List (List Char × String)
  | name :: names, component :: components =>
      (path ++ name, String.ofList (namespaceName ++ component.toList)) ::
        namespaceModules (path ++ name ++ ['/']) (namespaceName ++ component.toList ++ ['.'])
          names components
  | _, _ => []

def modulePath (names : DefinitionNames) : List Char :=
  directoryPath names.namespaceNames ++ names.fileStem

/-- A file that is the module of a namespace's directory, with a definition the namespace holds. -/
structure ModuleCollision where
  file : DiscoveredDefinition
  namespaceName : String
  heldBy : DiscoveredDefinition
  deriving DecidableEq

section Modules

variable (definitions : List DiscoveredDefinition) (language : Language)

def fileClaims : List (List Char × DiscoveredDefinition) :=
  definitions.map fun info => (modulePath (discoveredNames language info), info)

def namespaceClaims : List (List Char × (String × DiscoveredDefinition)) :=
  definitions.flatMap fun info =>
    (namespaceModules [] [] (discoveredNames language info).namespaceNames
      info.namespaceComponents).map fun entry => (entry.1, entry.2, info)

/-- The modules that both a file and a namespace take. -/
def moduleCollisions : List ModuleCollision :=
  let files : Registry (List Char) DiscoveredDefinition :=
    Registry.emplaceAll [] (fileClaims definitions language)
  let spaces : Registry (List Char) (String × DiscoveredDefinition) :=
    Registry.emplaceAll [] (namespaceClaims definitions language)
  files.filterMap fun entry =>
    (spaces.owner entry.1).map fun held => ⟨entry.2, held.1, held.2⟩

end Modules

/-- A pair that collides in several languages is one complaint. -/
def checkFileDirectoryCollisions (definitions : List DiscoveredDefinition)
    (languages : List Language) : List Diagnostic :=
  let met := (languages.filter fun language =>
      (composition language).fileAndDirectoryAreOneModule).flatMap fun language =>
    (moduleCollisions definitions language).map fun collision =>
      (collision, (composition language).rowName)
  let collisions := (met.map Prod.fst).dedup.mergeSort fun a b =>
    a.file.filePath < b.file.filePath ||
      (a.file.filePath = b.file.filePath && a.namespaceName ≤ b.namespaceName)
  collisions.map fun collision =>
    fileError collision.file.filePath
      ("type name collision in generated output: " ++ collision.file.fullName ++ "." ++
        toString collision.file.majorVersion ++ "." ++ toString collision.file.minorVersion ++
        " and namespace " ++ collision.namespaceName ++ ", which holds " ++
        collision.heldBy.fullName ++ ", map to the same module name for " ++
        describeLanguages ((met.filter (·.1 = collision)).map Prod.snd))

/-- `discoverDefinitions`: the definitions, sorted, and what was reported. -/
def discoverDefinitions (rootNamespaceDirs lookupDirs : List NamespaceRoot)
    (outputLanguages : List Language) : List DiscoveredDefinition × List Diagnostic :=
  let found := rootNamespaceDirs.map (discoverInRoot true) ++
    lookupDirs.map (discoverInRoot false)
  let definitions := sortDefinitions (found.flatMap Prod.snd)
  (definitions,
    found.flatMap Prod.fst ++ checkAllDiscovered outputLanguages ⟨[], [], []⟩ definitions ++
      checkFileDirectoryCollisions definitions outputLanguages)

/-- A `@deprecated` directive is present. -/
def DefinitionAST.isDeprecated (definition : DefinitionAST) : Bool :=
  definition.statements.any fun statement =>
    match statement with
    | .directive directive => decide (directive.kind = .deprecated)
    | _ => false

def ParsedDefinition.parts (parsed : ParsedDefinition) : DefinitionHeading :=
  discoveredParts parsed.info parsed.ast.isService parsed.ast.isDeprecated

/-- What produced a generated name; a namespace names a definition it holds. -/
structure TypeNameOrigin where
  fullName : String
  sectionName : SectionName
  filePath : String
  heldBy : Option String
  versionedName : List Char

def describeOrigin (origin : TypeNameOrigin) : String :=
  match origin.heldBy, origin.sectionName with
  | some heldBy, _ => "namespace '" ++ origin.fullName ++ "', which holds '" ++ heldBy ++ "'"
  | none, .message => "'" ++ origin.fullName ++ "'"
  | none, .request => "the request section of '" ++ origin.fullName ++ "'"
  | none, .response => "the response section of '" ++ origin.fullName ++ "'"

/-- A name declared in a shared scope; for a namespace, its full DSDL name. -/
structure ScopedTypeName where
  scope : List Char
  name : List Char
  versionedName : List Char
  sectionName : SectionName
  namespaceName : Option String

/-- The scope's namespaces, each followed by a dot. -/
def scopeText (spaces : List (List Char)) : List Char :=
  spaces.flatMap (· ++ ['.'])

def scopedNamespaces (parent namespaceName : List Char) :
    List (List Char) → List String → List ScopedTypeName
  | name :: spaces, component :: components =>
      let fullName := namespaceName ++ component.toList
      ⟨parent, name, name, .message, some (String.ofList fullName)⟩ ::
        scopedNamespaces (parent ++ name ++ ['.']) (fullName ++ ['.']) spaces components
  | _, _ => []

/-- A section's names where it is not declared in its service's type. -/
def scopedSection (scope : List Char) (held versionedHeld : SectionNames) : List ScopedTypeName :=
  if held.enclosed then []
  else
    ⟨scope, held.typeName, versionedHeld.typeName, held.sectionName, none⟩ ::
      (if held.typeScope ≠ held.typeName then
        [⟨scope, held.typeScope, versionedHeld.typeScope, held.sectionName, none⟩]
      else [])

section Shared

variable (scope : List Char) (names versioned : DefinitionNames)

def scopedService : List ScopedTypeName :=
  if names.sections.head?.map SectionNames.sectionName = some .request then
    [⟨scope, names.typeName, versioned.typeName, .message, none⟩]
  else []

/-- The name of a service's type that is declared apart. -/
def scopedServiceScope : List ScopedTypeName :=
  match names.serviceScope with
  | some serviceScope =>
      if serviceScope ≠ names.typeName then
        [⟨scope, serviceScope, versioned.serviceScope.getD [], .message, none⟩]
      else []
  | none => []

def scopedSections : List ScopedTypeName :=
  (names.sections.zip versioned.sections).flatMap fun held => scopedSection scope held.1 held.2

end Shared

/-- Every type name a definition declares in a shared scope, and each namespace's in its
parent's where the two share one. -/
def scopedTypeNames (language : Language) (names versioned : DefinitionNames)
    (components : List String) : List ScopedTypeName :=
  if !(languageTraits language).definitionsShareNamespaceScope then []
  else
    let scope := scopeText names.spaces
    (if (composition language).namespaceAndTypeShareScope then
      scopedNamespaces [] [] names.spaces components
    else []) ++
    scopedService scope names versioned ++ scopedServiceScope scope names versioned ++
    scopedSections scope names versioned

/-- `record`'s key: the identifier as emitted, in its scope and language. -/
def emittedKey (language : Language) (type : ScopedTypeName) : List Char :=
  (composition language).rowName ++ ':' :: type.scope ++ ':' :: type.name

/-- Two namespaces of one name are one namespace, and two versions of one definition are one
type. -/
def MayMeet (earlier later : TypeNameOrigin) : Prop :=
  earlier.heldBy.isSome = later.heldBy.isSome ∧
    (later.heldBy.isSome = true ∨ earlier.fullName = later.fullName)

instance (earlier later : TypeNameOrigin) : Decidable (MayMeet earlier later) :=
  inferInstanceAs (Decidable (_ ∧ _))

/-- A namespace is reported against the type it meets. -/
def scopedCollision (language : Language) (versioning : TypeNameVersioning) (name : List Char)
    (earlier later : TypeNameOrigin) : Diagnostic :=
  let first := if later.heldBy.isSome then earlier else later
  let second := if later.heldBy.isSome then later else earlier
  let remedy :=
    if versioning = .unversioned ∧ first.versionedName ≠ second.versionedName then
      "pass --versioned-type-names, or rename one of them"
    else "rename one of them"
  fileError first.filePath
    ("type name collision in generated output: " ++ describeOrigin first ++ " and " ++
      describeOrigin second ++ (if second.heldBy.isSome then "," else "") ++ " both emit '" ++
      String.ofList name ++ "' for target language '" ++
      String.ofList (composition language).rowName ++ "'; " ++ remedy)

/-- A name to be recorded. -/
structure ScopedClaim where
  language : Language
  name : ScopedTypeName
  origin : TypeNameOrigin

def scopedOrigin (parsed : ParsedDefinition) (type : ScopedTypeName) : TypeNameOrigin :=
  match type.namespaceName with
  | none =>
      ⟨parsed.info.fullName, type.sectionName, parsed.info.filePath, none, type.versionedName⟩
  | some namespaceName =>
      ⟨namespaceName, .message, parsed.info.filePath, some parsed.info.fullName,
        type.versionedName⟩

section Scoped

variable (languages : List Language) (versioning : TypeNameVersioning)

/-- The names of a definition in every language, in order. -/
def definitionClaims (parsed : ParsedDefinition) : List ScopedClaim :=
  languages.flatMap fun language =>
    (scopedTypeNames language (allocate language versioning parsed.parts)
      (allocate language .versioned parsed.parts) parsed.info.namespaceComponents).map fun type =>
      ⟨language, type, scopedOrigin parsed type⟩

def claimedOnce : List (List Char × String) → List ScopedClaim → List ScopedClaim
  | _, [] => []
  | claimed, claim :: rest =>
      match claim.name.namespaceName with
      | none => claim :: claimedOnce claimed rest
      | some namespaceName =>
          let key := ((composition claim.language).rowName, namespaceName)
          if key ∈ claimed then claimedOnce claimed rest
          else claim :: claimedOnce (key :: claimed) rest

/-- Records the names in order; one that may not meet the first of its key is reported. -/
def recordAll : Registry (List Char) TypeNameOrigin → List ScopedClaim → List Diagnostic
  | _, [] => []
  | emitted, claim :: rest =>
      let key := emittedKey claim.language claim.name
      (match emitted.owner key with
        | some earlier =>
            if MayMeet earlier claim.origin then []
            else [scopedCollision claim.language versioning claim.name.name earlier claim.origin]
        | none => []) ++
      recordAll (emitted.emplace key claim.origin) rest

def checkScopedTypeNameCollisions (definitions : ASTModule) : List Diagnostic :=
  recordAll versioning []
    (claimedOnce [] (definitions.flatMap (definitionClaims languages versioning)))

end Scoped

end LlvmDsdl.Frontend
