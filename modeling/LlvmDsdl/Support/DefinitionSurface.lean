import LlvmDsdl.Support.DefinitionNaming

/-!
Contract: the scopes and types that a definition's output declares
(`allocateSurface`, as far as definitions and their sections go).

Owns: the parts of a definition that naming reads, the names allocated for it,
the file it is written to, and the types it declares with the scope of each.
-/

namespace LlvmDsdl.Support

/-- What naming reads of a definition, its members apart. -/
structure DefinitionHeading where
  ref : DefinitionRef
  service : Bool
  deprecated : Bool
  deriving DecidableEq, Repr

structure SectionNames where
  sectionName : SectionName
  typeName : List Char
  /-- The name of the type's own scope, which is the type name unless it is declared apart. -/
  typeScope : List Char
  /-- The type is declared in its service's type. -/
  enclosed : Bool
  deriving DecidableEq, Repr

structure DefinitionNames where
  typeName : List Char
  fileStem : List Char
  namespaceNames : List (List Char)
  /-- The scopes that the namespace opens around the file, outermost first. -/
  spaces : List (List Char)
  /-- The scope of the type that encloses a service's sections. -/
  serviceScope : Option (List Char)
  sections : List SectionNames
  deriving DecidableEq, Repr

section Allocation

variable (language : Language)

/-- A type declared under a name of its own, and published under an alias of it. -/
def declaredApart (deprecated : Bool) (typeName : List Char) : Bool :=
  if deprecated && (composition language).deprecatedTypeDeclaredApart then true
  else if !(composition language).typeNameAmongMembers then false
  else
    -- Only C++ keeps members from their type's name, and its constants are the type's.
    ((runtimeOwnedNames language .fieldName).map String.toList).contains typeName ||
      ((runtimeOwnedNames language .constantName).map String.toList).contains typeName

def namespaceNamesOf (ref : DefinitionRef) : List (List Char) :=
  ref.namespaceComponents.map (codegenProjectIdentifier language .namespaceName)

def spacesOf (ref : DefinitionRef) : List (List Char) :=
  if (composition language).namespaces = .joined then [] else namespaceNamesOf language ref

def allocateSection (typeName : List Char) (deprecated enclosed : Bool)
    (sectionName : SectionName) : SectionNames :=
  let sectionTypeName := renderSectionTypeName language typeName sectionName
  { sectionName := sectionName
    typeName := sectionTypeName
    typeScope := renderDeclaredTypeName sectionTypeName
      (declaredApart language deprecated sectionTypeName)
    enclosed := enclosed }

/-- The type of a service that encloses its sections, declared apart too where a section would
take its name. -/
def serviceScopeOf (typeName : List Char) (deprecated : Bool) : List Char :=
  let sectionTakesName := (composition language).typeNameAmongMembers &&
    [SectionName.request, .response].any fun sectionName =>
      renderSectionTypeName language typeName sectionName == typeName
  renderDeclaredTypeName typeName (declaredApart language deprecated typeName || sectionTakesName)

def allocate (versioning : TypeNameVersioning) (definition : DefinitionHeading) : DefinitionNames :=
  let typeName := renderDefinitionTypeName language definition.ref versioning
  let encloses := definition.service && (composition language).sectionEnclosure = .serviceType
  { typeName := typeName
    fileStem := renderDefinitionFileStem language definition.ref
    namespaceNames := namespaceNamesOf language definition.ref
    spaces := spacesOf language definition.ref
    serviceScope :=
      if encloses then some (serviceScopeOf language typeName definition.deprecated) else none
    sections :=
      (if definition.service then [.request, .response] else [.message]).map
        (allocateSection language typeName definition.deprecated encloses) }

/-- The names, each followed by a slash. -/
def directoryPath (components : List (List Char)) : List Char :=
  components.flatMap (· ++ ['/'])

def definitionPath (sourceDirectory : List Char) (ref : DefinitionRef) : List Char :=
  let directories :=
    if (composition language).directoriesProjected then namespaceNamesOf language ref
    else ref.namespaceComponents
  sourceDirectory ++ directoryPath directories ++ renderDefinitionFileStem language ref ++
    (composition language).fileExtension

/-- A scope: the namespaces around it, the module of a definition, and a type. -/
structure DeclarationScope where
  spaces : List (List Char)
  module : Option (List Char)
  type : Option (List Char)
  deriving DecidableEq, Repr

structure DeclaredType where
  scope : DeclarationScope
  name : List Char
  deriving DecidableEq, Repr

/-- The scope of a definition's file. Where definitions share their namespace's scope, the file
adds none. -/
def fileScope (names : DefinitionNames) : DeclarationScope :=
  { spaces := names.spaces
    module :=
      if (languageTraits language).definitionsShareNamespaceScope then none
      else some names.fileStem
    type := none }

/-- A type, and the alias that publishes it where it is declared apart. -/
def declareType (scope : DeclarationScope) (typeName typeScope : List Char) : List DeclaredType :=
  if typeScope = typeName then [⟨scope, typeName⟩] else [⟨scope, typeScope⟩, ⟨scope, typeName⟩]

/-- The types that a definition's file declares. A service is its request under another name
where nothing else of the file has the service's name. -/
def declaredTypes (names : DefinitionNames) : List DeclaredType :=
  let file := fileScope language names
  let sections (scope : DeclarationScope) := names.sections.flatMap fun held =>
    declareType scope held.typeName held.typeScope
  match names.serviceScope with
  | some serviceScope =>
      declareType file names.typeName serviceScope ++
        sections { file with type := some serviceScope }
  | none =>
      sections file ++
        (if names.sections.length = 2 && !(sections file).any (·.name = names.typeName) then
          [⟨file, names.typeName⟩]
        else [])

end Allocation

end LlvmDsdl.Support
