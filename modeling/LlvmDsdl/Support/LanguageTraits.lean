import Mathlib.Data.List.Basic

/-!
Contract: the languages and what naming reads of their rows (`LanguageTraits.cpp`).

Owns: the classes of names a scope keeps apart, how a name written in a body is
resolved, and the six rows.
-/

namespace LlvmDsdl.Support

inductive Language where
  | c
  | cpp
  | rust
  | go
  | typeScript
  | python
  deriving DecidableEq, Repr

/-- C or C++. -/
def Language.isCLike (language : Language) : Bool :=
  language = .c || language = .cpp

structure NameClasses where
  typesApartFromValues : Bool
  modulesAmongTypes : Bool
  tags : Bool
  macros : Bool
  fieldsApart : Bool
  deriving DecidableEq, Repr

/-- How a body reaches a member of its own type, where the bare name does not. -/
inductive MemberReach where
  | none
  /-- Bare, through class-member lookup. -/
  | bare
  | selfType
  /-- Through the instance or the class the body is handed. -/
  | handed
  | typeName
  deriving DecidableEq, Repr

/-- How the language resolves a name written in a body, and how a qualified name is written. -/
structure Lookup where
  /-- What joins a qualifier to the name it qualifies; empty where a name is never qualified. -/
  separator : List Char
  rootPrefix : List Char
  rootPrefixOnlyWhenShadowed : Bool
  enclosingNamespaces : Bool
  ownMembers : MemberReach
  selfType : List Char
  selfInstance : List Char
  selfClass : List Char
  deriving DecidableEq, Repr

structure LanguageTraits where
  nameClasses : NameClasses
  lookup : Lookup
  definitionsShareNamespaceScope : Bool
  deriving DecidableEq, Repr

def languageTraits : Language → LanguageTraits
  | .c =>
      { nameClasses :=
          { typesApartFromValues := false
            modulesAmongTypes := false
            tags := true
            macros := true
            fieldsApart := true }
        lookup :=
          { separator := []
            rootPrefix := []
            rootPrefixOnlyWhenShadowed := false
            enclosingNamespaces := false
            ownMembers := .none
            selfType := []
            selfInstance := []
            selfClass := [] }
        definitionsShareNamespaceScope := true }
  | .cpp =>
      { nameClasses :=
          { typesApartFromValues := false
            modulesAmongTypes := true
            tags := false
            macros := true
            fieldsApart := false }
        lookup :=
          { separator := [':', ':']
            rootPrefix := [':', ':']
            rootPrefixOnlyWhenShadowed := true
            enclosingNamespaces := true
            ownMembers := .bare
            selfType := []
            selfInstance := []
            selfClass := [] }
        definitionsShareNamespaceScope := true }
  | .rust =>
      { nameClasses :=
          { typesApartFromValues := true
            modulesAmongTypes := true
            tags := false
            macros := false
            fieldsApart := true }
        lookup :=
          { separator := [':', ':']
            rootPrefix := ['c', 'r', 'a', 't', 'e', ':', ':']
            rootPrefixOnlyWhenShadowed := false
            enclosingNamespaces := false
            ownMembers := .selfType
            selfType := ['S', 'e', 'l', 'f']
            selfInstance := []
            selfClass := [] }
        definitionsShareNamespaceScope := false }
  | .go =>
      { nameClasses :=
          { typesApartFromValues := false
            modulesAmongTypes := false
            tags := false
            macros := false
            fieldsApart := false }
        lookup :=
          { separator := ['.']
            rootPrefix := []
            rootPrefixOnlyWhenShadowed := false
            enclosingNamespaces := false
            ownMembers := .none
            selfType := []
            selfInstance := []
            selfClass := [] }
        definitionsShareNamespaceScope := true }
  | .typeScript =>
      { nameClasses :=
          { typesApartFromValues := true
            modulesAmongTypes := false
            tags := false
            macros := false
            fieldsApart := true }
        lookup :=
          { separator := ['.']
            rootPrefix := []
            rootPrefixOnlyWhenShadowed := false
            enclosingNamespaces := false
            ownMembers := .typeName
            selfType := []
            selfInstance := []
            selfClass := [] }
        definitionsShareNamespaceScope := false }
  | .python =>
      { nameClasses :=
          { typesApartFromValues := false
            modulesAmongTypes := true
            tags := false
            macros := false
            fieldsApart := false }
        lookup :=
          { separator := ['.']
            rootPrefix := []
            rootPrefixOnlyWhenShadowed := false
            enclosingNamespaces := false
            ownMembers := .handed
            selfType := []
            selfInstance := ['s', 'e', 'l', 'f']
            selfClass := ['c', 'l', 's'] }
        definitionsShareNamespaceScope := false }

end LlvmDsdl.Support
