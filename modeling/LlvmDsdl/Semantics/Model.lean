import LlvmDsdl.Semantics.Evaluator

/-!
Contract: the resolved semantic model (`Semantics/Model.h`).

Owns: resolved types, fields, constants, layout verdicts, sections and
definitions. Documentation comments are left out.
-/

namespace LlvmDsdl.Semantics

open Frontend

inductive SemanticScalarCategory where
  | bool
  | byte
  | utf8
  | unsignedInt
  | signedInt
  | float
  | void
  | composite
  deriving DecidableEq

structure SemanticTypeRef where
  fullName : String
  namespaceComponents : List String
  shortName : String
  majorVersion : ℕ
  minorVersion : ℕ
  deriving DecidableEq

structure SemanticFieldType where
  scalarCategory : SemanticScalarCategory := .void
  castMode : CastMode := .saturated
  bitLength : ℕ := 0
  arrayKind : ArrayKind := .none
  arrayCapacity : ℤ := 0
  arrayLengthPrefixBits : ℤ := 0
  alignmentBits : ℤ := 1
  bitLengthSet : LengthSet := .ofValue 0
  compositeType : Option SemanticTypeRef := none
  compositeSealed : Bool := true
  compositeExtentBits : ℤ := 0

structure SemanticField where
  name : String
  type : TypeExprAST
  isPadding : Bool
  resolvedType : SemanticFieldType
  sectionName : String
  unionOptionIndex : ℕ := 0
  unionTagBits : ℤ := 0
  heldAsView : Bool := false

structure SemanticConstant where
  name : String
  type : TypeExprAST
  value : Value

/-- Why a layout is not flat, or not a byte image. -/
inductive AliasLayoutReason where
  | none
  | notSealed
  | notFixedSize
  | unionType
  | emptyLayout
  | variableArray
  | subByteField
  | unalignedField
  | nestedNotFlat
  | nestedUnresolved
  | wirePadding
  | storageWidth
  | hostPadding
  | viewMember
  deriving DecidableEq

structure AliasLayoutVerdict where
  holds : Bool := false
  reason : AliasLayoutReason := .none
  fieldName : String := ""
  nestedTypeName : String := ""
  nestedReason : AliasLayoutReason := .none
  nestedFieldName : String := ""
  deriving DecidableEq

structure HostImageMember where
  fieldName : String
  offsetBytes : ℤ
  sizeBytes : ℤ
  deriving DecidableEq

structure SemanticSection where
  isUnion : Bool := false
  sealed : Bool := false
  deprecated : Bool := false
  extentBits : Option ℤ := none
  fields : List SemanticField := []
  constants : List SemanticConstant := []
  offsetAtEnd : LengthSet := .ofValue 0
  minBitLength : ℤ := 0
  maxBitLength : ℤ := 0
  fixedSize : Bool := true
  serializationBufferSizeBits : ℤ := 0
  aliasableDirective : Option SourceLocation := none
  wireFlat : AliasLayoutVerdict := {}
  hostImage : AliasLayoutVerdict := {}
  hostImageMembers : List HostImageMember := []

structure SemanticDefinition where
  info : DiscoveredDefinition
  isService : Bool
  request : SemanticSection
  response : Option SemanticSection := none

/-- The resolved definitions, in list order. -/
abbrev SemanticModule := List SemanticDefinition

/-- What identifies a definition: its full name and version. -/
structure TypeKey where
  fullName : String
  majorVersion : ℕ
  minorVersion : ℕ
  deriving DecidableEq

end LlvmDsdl.Semantics

namespace LlvmDsdl.Frontend

def DiscoveredDefinition.typeKey (info : DiscoveredDefinition) : Semantics.TypeKey :=
  ⟨info.fullName, info.majorVersion, info.minorVersion⟩

end LlvmDsdl.Frontend
