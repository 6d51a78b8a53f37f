import LlvmDsdl.Library.DepthFirst
import LlvmDsdl.Semantics.Model

/-!
Contract: the two layout verdicts of a section (`Semantics/AliasLayout.cpp`).

Owns: the lookup of nested sections, the marking of views, the walk that decides
whether the serialised form is a byte image, the walk that decides whether the
generated structure is that image, and the annotation of a module.

Both walks ask for nested verdicts by key, so the caches and the guard against
re-entry are those of a memoised visit. All wire verdicts are on record before
host images are decided: a host walk asks only for wire verdicts of sections
whose own wire walk has asked for them already.
-/

namespace LlvmDsdl.Semantics

open Frontend Library

def scalarStorageBits (bitLength : ℕ) : ℕ :=
  if bitLength ≤ 8 then 8 else if bitLength ≤ 16 then 16 else if bitLength ≤ 32 then 32 else 64

def floatStorageBits (bitLength : ℕ) : ℕ :=
  if bitLength = 64 then 64 else 32

/-- The wire width of a field's element. -/
def elementBits (type : SemanticFieldType) : ℤ := type.bitLength

def elementCount (type : SemanticFieldType) : ℤ :=
  if type.arrayKind = .none then 1 else max type.arrayCapacity 0

def isVariableLength : ArrayKind → Bool
  | .variableInclusive | .variableExclusive => true
  | _ => false

/-- The product of two 64-bit integers, as the machine keeps it. -/
def wrappingMul (lhs rhs : ℤ) : ℤ := LengthSet.toInt64 (lhs * rhs)

/-- The sum of two 64-bit integers, as the machine keeps it. -/
def wrappingAdd (lhs rhs : ℤ) : ℤ := LengthSet.toInt64 (lhs + rhs)

def blocked (reason : AliasLayoutReason) (fieldName : String) : AliasLayoutVerdict :=
  { reason := reason, fieldName := fieldName }

def holdsVerdict : AliasLayoutVerdict := { holds := true }

def describeAliasLayoutVerdict (verdict : AliasLayoutVerdict) : String :=
  let field := if verdict.fieldName = "" then "" else "field '" ++ verdict.fieldName ++ "' "
  match verdict.reason with
  | .none => "the layout is a flat byte image"
  | .notSealed => "the type is delimited, so a length header precedes its payload; add @sealed"
  | .notFixedSize => "the serialised length varies with the value"
  | .unionType => "a union serialises a tag and one option, so it has no single layout"
  | .emptyLayout => "the type has no fields"
  | .variableArray => field ++ "is a variable-length array, so the fields after it move"
  | .subByteField =>
      if verdict.fieldName = "" then "the payload is not a whole number of bytes wide"
      else field ++ "is not a whole number of bytes wide"
  | .unalignedField => field ++ "does not begin on a byte boundary"
  | .nestedNotFlat => field ++ "has a type whose own layout is not a flat byte image"
  | .nestedUnresolved =>
      if verdict.fieldName = "" then "a nested type could not be resolved"
      else field ++ "has a type that could not be resolved"
  | .wirePadding => field ++ "is padding, which the wire reserves and the generated type does not hold"
  | .storageWidth => field ++ "is stored wider than the wire carries it"
  | .hostPadding =>
      if verdict.fieldName = "" then "the generated type would carry padding after its last field"
      else field ++ "would follow alignment padding in the generated type"
  | .viewMember => field ++ "is held as a view of the buffer"

structure HostExtent where
  sizeBytes : ℤ := 0
  alignBytes : ℤ := 1
  deriving DecidableEq

structure Resolved where
  verdict : AliasLayoutVerdict
  extent : HostExtent := {}
  members : List HostImageMember := []
  deriving DecidableEq

/-- A section of the module, or the request section of a catalogue's definition. -/
inductive SectionRef where
  | own (index : ℕ) (response : Bool)
  | external (index : ℕ)
  deriving DecidableEq

def SemanticTypeRef.typeKey (ref : SemanticTypeRef) : TypeKey :=
  ⟨ref.fullName, ref.majorVersion, ref.minorVersion⟩

/-- The definitions composites are looked up in. A definition of the module wins over one of
the catalogue; within the module the last wins, within the catalogue the first. -/
structure AliasIndex where
  module : SemanticModule
  catalogue : SemanticModule

namespace AliasIndex

variable (index : AliasIndex)

def hasKey (definitions : SemanticModule) (key : TypeKey) (position : ℕ) : Bool :=
  definitions[position]?.any fun definition => definition.info.typeKey = key

/-- `find`: the request section a key stands for. -/
def findRef (key : TypeKey) : Option SectionRef :=
  match (List.range index.module.length).reverse.find? (hasKey index.module key) with
  | some position => some (.own position false)
  | none =>
      ((List.range index.catalogue.length).find? (hasKey index.catalogue key)).map .external

def sectionAt : SectionRef → Option SemanticSection
  | .own position false => index.module[position]?.map SemanticDefinition.request
  | .own position true => index.module[position]?.bind SemanticDefinition.response
  | .external position => index.catalogue[position]?.map SemanticDefinition.request

def find (key : TypeKey) : Option SemanticSection :=
  (index.findRef key).bind index.sectionAt

/-- The field's type asserts that it is aliasable. -/
def isView (field : SemanticField) : Bool :=
  field.resolvedType.compositeType.any fun ref =>
    (index.find ref.typeKey).any fun nested => nested.aliasableDirective.isSome

def markField (field : SemanticField) : SemanticField :=
  if field.isPadding || field.resolvedType.scalarCategory ≠ .composite ||
      field.resolvedType.compositeType.isNone then field
  else { field with heldAsView := index.isView field }

def markViews (sec : SemanticSection) : SemanticSection :=
  if sec.isUnion then sec else { sec with fields := sec.fields.map index.markField }

end AliasIndex

/-- `offsetBits` and `hasPayload`. -/
structure FlatCursor where
  offsetBits : ℤ := 0
  hasPayload : Bool := false

/-- A computation that may ask for the wire verdict of a nested section. -/
abbrev AskFlat := Query TypeKey AliasLayoutVerdict

def nestedNotFlat (fieldName : String) (ref : SemanticTypeRef) (nested : AliasLayoutVerdict) :
    AliasLayoutVerdict :=
  { blocked .nestedNotFlat fieldName with
    nestedTypeName := ref.fullName ++ "." ++ toString ref.majorVersion ++ "." ++
      toString ref.minorVersion
    nestedReason := nested.reason
    nestedFieldName := nested.fieldName }

def FlatCursor.place (cursor : FlatCursor) (bits : ℤ) : FlatCursor :=
  ⟨wrappingAdd cursor.offsetBits bits, true⟩

section Walks

variable (find : TypeKey → Option SemanticSection)

/-- A composite field: as long as its section at its longest. -/
def flatComposite (field : SemanticField) (cursor : FlatCursor) :
    AskFlat (Except AliasLayoutVerdict FlatCursor) :=
  match field.resolvedType.compositeType with
  | none => pure (.error (blocked .nestedUnresolved field.name))
  | some ref =>
      match find ref.typeKey with
      | none => pure (.error (blocked .nestedUnresolved field.name))
      | some nested => do
          let verdict ← Query.request ref.typeKey
          if verdict.holds then
            pure (.ok (cursor.place
              (wrappingMul nested.maxBitLength (elementCount field.resolvedType))))
          else pure (.error (nestedNotFlat field.name ref verdict))

def flatField (field : SemanticField) (cursor : FlatCursor) :
    AskFlat (Except AliasLayoutVerdict FlatCursor) :=
  let type := field.resolvedType
  let total := wrappingMul (elementBits type) (elementCount type)
  if field.isPadding then
    pure (.ok { cursor with offsetBits := wrappingAdd cursor.offsetBits total })
  else if cursor.offsetBits.tmod 8 ≠ 0 then
    pure (.error (blocked .unalignedField field.name))
  else if isVariableLength type.arrayKind then
    pure (.error (blocked .variableArray field.name))
  else if type.scalarCategory = .composite then flatComposite find field cursor
  else if elementBits type ≤ 0 ∨ total.tmod 8 ≠ 0 then
    pure (.error (blocked .subByteField field.name))
  else pure (.ok (cursor.place total))

def flatFields : List SemanticField → FlatCursor → AskFlat (Except AliasLayoutVerdict FlatCursor)
  | [], cursor => pure (.ok cursor)
  | field :: rest, cursor => do
      match ← flatField find field cursor with
      | .error verdict => pure (.error verdict)
      | .ok next => flatFields rest next

/-- What follows the field walk. -/
def closeFlat (sec : SemanticSection) (cursor : FlatCursor) : AliasLayoutVerdict :=
  if !cursor.hasPayload then blocked .emptyLayout ""
  else if cursor.offsetBits.tmod 8 ≠ 0 then blocked .subByteField ""
  else if !sec.sealed then blocked .notSealed ""
  else if !sec.fixedSize then blocked .notFixedSize ""
  else holdsVerdict

def computeWireFlat (sec : SemanticSection) : AskFlat AliasLayoutVerdict :=
  if sec.isUnion then pure (blocked .unionType "")
  else do
    match ← flatFields find sec.fields {} with
    | .error verdict => pure verdict
    | .ok cursor => pure (closeFlat sec cursor)

abbrev AskHost := Query TypeKey (Option Resolved)

/-- The locals of `computeHostImage`. -/
structure HostCursor where
  offsetBytes : ℤ := 0
  alignBytes : ℤ := 1
  members : List HostImageMember := []

def hostComposite (field : SemanticField) : AskHost (Except AliasLayoutVerdict HostExtent) :=
  match field.resolvedType.compositeType with
  | none => pure (.error (blocked .nestedUnresolved field.name))
  | some ref =>
      match find ref.typeKey with
      | none => pure (.error (blocked .nestedUnresolved field.name))
      | some _ => do
          match ← Query.request ref.typeKey with
          | none => pure (.error (blocked .nestedUnresolved field.name))
          | some resolved =>
              if resolved.verdict.holds then pure (.ok resolved.extent)
              else pure (.error (blocked .nestedNotFlat field.name))

/-- The storage of a scalar whose storage is as wide as the wire. -/
def hostScalar (field : SemanticField) : Except AliasLayoutVerdict HostExtent :=
  let bits := field.resolvedType.bitLength
  let storage :=
    if field.resolvedType.scalarCategory = .float then floatStorageBits bits
    else scalarStorageBits bits
  if storage ≠ bits then .error (blocked .storageWidth field.name)
  else .ok ⟨(bits / 8 : ℕ), (bits / 8 : ℕ)⟩

def hostElement (field : SemanticField) : AskHost (Except AliasLayoutVerdict HostExtent) :=
  if field.isPadding then pure (.error (blocked .wirePadding field.name))
  else if field.heldAsView then pure (.error (blocked .viewMember field.name))
  else if field.resolvedType.scalarCategory = .composite then hostComposite find field
  else pure (hostScalar field)

/-- Place a member where natural alignment puts it, refusing any padding before it. -/
def placeMember (field : SemanticField) (element : HostExtent) (cursor : HostCursor) :
    Except AliasLayoutVerdict HostCursor :=
  let size := wrappingMul element.sizeBytes (elementCount field.resolvedType)
  if cursor.offsetBytes.tmod element.alignBytes ≠ 0 then
    .error (blocked .hostPadding field.name)
  else
    .ok { offsetBytes := wrappingAdd cursor.offsetBytes size
          alignBytes := max cursor.alignBytes element.alignBytes
          members := cursor.members ++ [⟨field.name, cursor.offsetBytes, size⟩] }

def hostFields : List SemanticField → HostCursor → AskHost (Except AliasLayoutVerdict HostCursor)
  | [], cursor => pure (.ok cursor)
  | field :: rest, cursor => do
      match ← hostElement find field with
      | .error verdict => pure (.error verdict)
      | .ok element =>
          match placeMember field element cursor with
          | .error verdict => pure (.error verdict)
          | .ok next => hostFields rest next

/-- What follows the field walk: the structure ends on its own alignment. -/
def closeHost (cursor : HostCursor) : Resolved :=
  if cursor.offsetBytes.tmod cursor.alignBytes ≠ 0 then { verdict := blocked .hostPadding "" }
  else
    { verdict := holdsVerdict
      extent := ⟨cursor.offsetBytes, cursor.alignBytes⟩
      members := cursor.members }

/-- `computeHostImage`, given the section's wire verdict. -/
def computeHostImage (flat : AliasLayoutVerdict) (sec : SemanticSection) : AskHost Resolved :=
  if !flat.holds then pure { verdict := flat }
  else do
    match ← hostFields find sec.fields {} with
    | .error verdict => pure { verdict := verdict }
    | .ok cursor => pure (closeHost cursor)

end Walks

def recordedFlat (wire : Memo SectionRef AliasLayoutVerdict Unit) (ref : SectionRef) :
    AliasLayoutVerdict :=
  match wire.mark ref with
  | .done verdict => verdict
  | _ => {}

def recordedHost (host : Memo SectionRef (Option Resolved) Unit) (ref : SectionRef) : Resolved :=
  match host.mark ref with
  | .done (some resolved) => resolved
  | _ => { verdict := blocked .nestedUnresolved "" }

def annotate (wire : Memo SectionRef AliasLayoutVerdict Unit)
    (host : Memo SectionRef (Option Resolved) Unit) (ref : SectionRef) (sec : SemanticSection) :
    SemanticSection :=
  let resolved := recordedHost host ref
  { sec with
    wireFlat := recordedFlat wire ref
    hostImage := resolved.verdict
    hostImageMembers := if resolved.verdict.holds then resolved.members else sec.hostImageMembers }

namespace AliasIndex

variable (index : AliasIndex)

/-- A section that no key stands for. -/
def absent : SectionRef := .external index.catalogue.length

/-- The wire walks. There is no depth limit; its answer is never given. -/
def wireSystem : TaskSystem TypeKey SectionRef AliasLayoutVerdict Unit where
  locate key := (index.findRef key).getD index.absent
  task ref :=
    match index.sectionAt ref with
    | none => pure ({}, [])
    | some sec => do
        let verdict ← computeWireFlat index.find sec
        pure (verdict, [])
  onCycle _ := (blocked .nestedUnresolved "", [])
  onLimit _ := ({}, [()])

/-- The sections of the module, in the order they are annotated. -/
def ownRefs : List SectionRef :=
  (List.range index.module.length).flatMap fun position =>
    [.own position false, .own position true]

def depth : ℕ := 2 * index.module.length + index.catalogue.length + 1

/-- `wireFlatCache_` after the module's sections. -/
def wireMemo : Memo SectionRef AliasLayoutVerdict Unit :=
  index.wireSystem.visitAll index.depth index.ownRefs .fresh

/-- The host walks, given the wire verdicts on record. -/
def hostSystem (wire : Memo SectionRef AliasLayoutVerdict Unit) :
    TaskSystem TypeKey SectionRef (Option Resolved) Unit where
  locate key := (index.findRef key).getD index.absent
  task ref :=
    match index.sectionAt ref with
    | none => pure (none, [])
    | some sec => do
        let flat := (computeWireFlat index.find sec).eval fun key =>
          recordedFlat wire (index.wireSystem.locate key)
        let resolved ← computeHostImage index.find flat sec
        pure (some resolved, [])
  onCycle _ := (none, [])
  onLimit _ := (none, [()])

/-- `hostImageCache_` after the module's sections. -/
def hostMemo (wire : Memo SectionRef AliasLayoutVerdict Unit) :
    Memo SectionRef (Option Resolved) Unit :=
  (index.hostSystem wire).visitAll index.depth index.ownRefs .fresh

end AliasIndex

def markModule (index : AliasIndex) (aliasableViews : Bool) : SemanticModule :=
  if aliasableViews then
    index.module.map fun definition =>
      { definition with
        request := index.markViews definition.request
        response := definition.response.map index.markViews }
  else index.module

def annotateAliasLayout (module catalogue : SemanticModule) (aliasableViews : Bool) :
    SemanticModule :=
  let marked := markModule ⟨module, catalogue⟩ aliasableViews
  let index : AliasIndex := ⟨marked, catalogue⟩
  let wire := index.wireMemo
  let host := index.hostMemo wire
  marked.mapIdx fun position definition =>
    { definition with
      request := annotate wire host (.own position false) definition.request
      response := definition.response.map (annotate wire host (.own position true)) }

end LlvmDsdl.Semantics
