import LlvmDsdl.Semantics.LayoutSizes

/-!
Contract: the offsets a body builder computes while it builds.

Owns: a section's steps as the canonical plan holds them, the offset and the
residue a builder knows before any run, the builders of both directions reduced
to them, and the offsets of the direct accessors, with every operation on sizes
that they carry out.

An element inside a loop begins where nothing is known, so an element of scalars
computes no size of its own.
-/

namespace LlvmDsdl.Transforms.Static

open Frontend Semantics

def nonNegative (value : ℤ) : ℤ := max value 0

/-- What the builders read of a field's size. -/
structure FieldStep where
  type : SemanticFieldType
  heldAsView : Bool
  compositeFixedBits : Option ℤ

inductive LoweredStep where
  | align (bits : ℤ)
  | padding (bits : ℤ)
  | field (step : FieldStep)

section Steps

variable (carried : TypeKey → Bool) (index : AliasIndex)

/-- The message section of a nested type, where the module carries its schema. -/
def nestedSection (type : SemanticFieldType) : Option SemanticSection :=
  type.compositeType.bind fun ref =>
    if carried ref.typeKey then index.find ref.typeKey else none

/-- `nestedFixedBits`, of a plan's canonical bounds. -/
def nestedFixedBits (type : SemanticFieldType) : Option ℤ :=
  (nestedSection carried index type).bind fun nested =>
    let minBits := nonNegative nested.minBitLength
    let maxBits := max (nonNegative nested.maxBitLength) minBits
    if maxBits = minBits ∧ 0 ≤ maxBits ∧ maxBits.tmod 8 = 0 then some maxBits else none

def fieldStep (field : SemanticField) : FieldStep where
  type := field.resolvedType
  heldAsView := field.heldAsView
  compositeFixedBits := nestedFixedBits carried index field.resolvedType

def loweredBits (type : SemanticFieldType) : ℤ :=
  max (nonNegative type.bitLengthSet.max) (nonNegative type.bitLengthSet.min)

/-- A field's steps. An alignment to a bit and a padding of no bits are erased. -/
def fieldSteps (field : SemanticField) : List LoweredStep :=
  (if field.resolvedType.alignmentBits ≤ 1 then []
    else [.align field.resolvedType.alignmentBits]) ++
  (if field.isPadding then
    (if loweredBits field.resolvedType = 0 then []
      else [.padding (loweredBits field.resolvedType)])
  else [.field (fieldStep carried index field)])

def sectionSteps (sec : SemanticSection) : List LoweredStep :=
  sec.fields.flatMap (fieldSteps carried index)

def unionOptions (sec : SemanticSection) : List FieldStep :=
  (sec.fields.filter fun field => !field.isPadding).map (fieldStep carried index)

end Steps

namespace FieldStep

variable (step : FieldStep)

def isComposite : Bool := step.type.compositeType.isSome

def isArray : Bool := decide (step.type.arrayKind ≠ .none)

def isBitpacked : Bool := step.isArray && decide (step.type.scalarCategory = .bool)

def declaredCount : Option ℤ :=
  if isVariableLength step.type.arrayKind then none else some step.type.arrayCapacity

/-- Of the steps no body is built for, those whose width the builders take for granted: a bool
of other than one bit, and a view of a composite of no single width. -/
def supported : Bool :=
  if step.isComposite then !step.heldAsView || step.compositeFixedBits.isSome
  else decide (step.type.scalarCategory ≠ .bool ∨ step.type.bitLength = 1)

end FieldStep

structure StaticCursor where
  staticBits : Option ℤ
  staticResidue : Option ℤ

/-- Nothing is known of an offset. -/
def unknown : StaticCursor := ⟨none, none⟩

def advancedBy (cursor : StaticCursor) (bits : ℤ) : Sized StaticCursor := do
  let residue ← match cursor.staticResidue with
    | some residue => do
        let moved ← plus residue bits
        pure (some (moved.tmod 8))
    | none => pure none
  let known ← match cursor.staticBits with
    | some known => do
        let moved ← plus known bits
        pure (some moved)
    | none => pure none
  pure ⟨known, residue⟩

/-- A run of whole-byte elements moves the offset by whole bytes, however many there are. -/
def advancedByRun (cursor : StaticCursor) (count : Option ℤ) (elementBits : ℤ) :
    Sized StaticCursor :=
  match count with
  | some elements => do
      let bits ← times elements elementBits
      advancedBy cursor bits
  | none => pure ⟨none, if elementBits.tmod 8 = 0 then cursor.staticResidue else none⟩

def emitZeroBits (cursor : StaticCursor) (bits : ℤ) : Sized StaticCursor :=
  if 0 < bits then do
    let next ← advancedBy cursor (min bits 64)
    emitZeroBits next (bits - min bits 64)
  else pure cursor
termination_by bits.toNat
decreasing_by omega

section Builders

variable (writing : Bool)

/-- Reserved bits are written, and read as nothing. -/
def buildPaddingStep (cursor : StaticCursor) (bits : ℤ) : Sized StaticCursor :=
  if writing then emitZeroBits cursor bits else advancedBy cursor bits

/-- The bits to skip are a number whenever the offset modulo eight is one. -/
def buildAlignment (cursor : StaticCursor) : Sized StaticCursor :=
  match cursor.staticResidue with
  | some residue =>
      let pad := (8 - residue).tmod 8
      if pad = 0 then pure cursor else buildPaddingStep writing cursor pad
  | none => pure ⟨none, some 0⟩

def buildSealedNested (step : FieldStep) (cursor : StaticCursor) : Sized StaticCursor :=
  match step.compositeFixedBits with
  | some bits => advancedBy cursor bits
  | none => pure ⟨none, cursor.staticResidue⟩

/-- A reader steps by the header it read, whatever the nested plan's width. -/
def buildDelimitedNested (step : FieldStep) (cursor : StaticCursor) : Sized StaticCursor := do
  let afterHeader ← advancedBy cursor 32
  match writing, step.compositeFixedBits with
  | true, some fixedBits => do
      let bits ← times (fixedBits.tdiv 8) 8
      advancedBy afterHeader bits
  | _, _ => pure ⟨none, afterHeader.staticResidue⟩

def buildNested (step : FieldStep) (cursor : StaticCursor) : Sized StaticCursor :=
  if step.type.compositeSealed then buildSealedNested step cursor
  else buildDelimitedNested writing step cursor

def buildViewStep (step : FieldStep) (cursor : StaticCursor) : Sized StaticCursor :=
  advancedBy cursor (step.compositeFixedBits.getD 0)

def buildCompositeStep (step : FieldStep) (cursor : StaticCursor) : Sized StaticCursor :=
  if step.heldAsView then buildViewStep step cursor else buildNested writing step cursor

/-- Elements of one width lie at the start plus the index times that width; others step by what
they report. -/
def buildCompositeElementLoop (step : FieldStep) (cursor : StaticCursor) : Sized StaticCursor :=
  match step.compositeFixedBits, step.type.compositeSealed || writing with
  | some fixedBits, true => do
      let elementBits ← plus fixedBits (if step.type.compositeSealed then 0 else 32)
      let _ ← buildCompositeStep writing step unknown
      advancedByRun cursor step.declaredCount elementBits
  | _, _ => do
      let _ ← buildNested writing step unknown
      pure ⟨none, cursor.staticResidue⟩

/-- One run of wire bits, an element a bit. -/
def buildBitpackedArray (step : FieldStep) (cursor : StaticCursor) : Sized StaticCursor :=
  match step.declaredCount with
  | some elements => advancedBy cursor elements
  | none => pure unknown

def buildArrayElements (step : FieldStep) (cursor : StaticCursor) : Sized StaticCursor :=
  if step.isComposite then buildCompositeElementLoop writing step cursor
  else if step.isBitpacked then buildBitpackedArray step cursor
  else advancedByRun cursor step.declaredCount (elementBits step.type)

/-- A variable array's elements follow its length. -/
def buildArray (step : FieldStep) (cursor : StaticCursor) : Sized StaticCursor :=
  if isVariableLength step.type.arrayKind then do
    let afterPrefix ← advancedBy cursor step.type.arrayLengthPrefixBits
    buildArrayElements writing step afterPrefix
  else buildArrayElements writing step cursor

def buildField (step : FieldStep) (cursor : StaticCursor) : Sized StaticCursor :=
  if step.isArray then buildArray writing step cursor
  else if step.isComposite then buildCompositeStep writing step cursor
  else advancedBy cursor (elementBits step.type)

def buildStep (step : LoweredStep) (cursor : StaticCursor) : Sized StaticCursor :=
  match step with
  | .align _ => buildAlignment writing cursor
  | .padding bits => buildPaddingStep writing cursor bits
  | .field step => buildField writing step cursor

def buildSteps : List LoweredStep → StaticCursor → Sized StaticCursor
  | [], cursor => pure cursor
  | step :: rest, cursor => do
      let next ← buildStep writing step cursor
      buildSteps rest next

def meetResidue (met : Option (Option ℤ)) (residue : Option ℤ) : Option (Option ℤ) :=
  match met with
  | none => some residue
  | some value => some (if value = residue then value else none)

/-- Every option begins where the tag ends, at a byte if it asks for one. -/
def buildOptionStart (option : FieldStep) (afterTag : StaticCursor) : Sized StaticCursor :=
  if 1 < option.type.alignmentBits then buildAlignment writing afterTag else pure afterTag

def buildOptions (afterTag : StaticCursor) : List FieldStep → Option (Option ℤ) →
    Sized (Option (Option ℤ))
  | [], met => pure met
  | option :: rest, met => do
      let start ← buildOptionStart writing option afterTag
      let ended ← buildField writing option start
      buildOptions afterTag rest (meetResidue met ended.staticResidue)

/-- The offset after a union's tag and options. -/
def buildUnion (tagBits : ℤ) (options : List FieldStep) : Sized StaticCursor := do
  let afterTag ← advancedBy ⟨some 0, some 0⟩ tagBits
  let met ← buildOptions writing afterTag options none
  pure ⟨none, met.join⟩

def planTagBits (sec : SemanticSection) : ℤ :=
  nonNegative ((sec.fields.head?.map SemanticField.unionTagBits).getD 0)

variable (carried : TypeKey → Bool) (index : AliasIndex)

/-- The steps of a section are ones that bodies are built for. -/
def supportedSection (sec : SemanticSection) : Bool :=
  (sec.fields.filter fun field => !field.isPadding).all fun field =>
    (fieldStep carried index field).supported

def buildSection (sec : SemanticSection) : Sized StaticCursor :=
  if sec.isUnion then buildUnion writing (planTagBits sec) (unionOptions carried index sec)
  else buildSteps writing (sectionSteps carried index sec) ⟨some 0, some 0⟩

/-- A section's body. Only the writer pads its end while it builds. -/
def buildBody (sec : SemanticSection) : Sized StaticCursor := do
  let cursor ← buildSection writing carried index sec
  if writing then buildAlignment writing cursor else pure cursor

end Builders

/-- `fixedFieldOffsets`: the fields of a flat plan where the steps place them. -/
def fixedFieldOffsets : List LoweredStep → ℤ → Sized (Option (List (FieldStep × ℤ)))
  | [], _ => pure (some [])
  | .align _ :: rest, offset => do
      let raised ← plus offset 7
      let aligned ← times (raised.tdiv 8) 8
      fixedFieldOffsets rest aligned
  | .padding bits :: rest, offset => do
      let moved ← plus offset bits
      fixedFieldOffsets rest moved
  | .field step :: rest, offset =>
      if isVariableLength step.type.arrayKind then pure none
      else
        match step.isComposite, step.compositeFixedBits with
        | true, none => pure none
        | composite, fixedBits => do
            let width := if composite then fixedBits.getD 0 else elementBits step.type
            let bits ← times width (if step.isArray then step.type.arrayCapacity else 1)
            let moved ← plus offset bits
            let later ← fixedFieldOffsets rest moved
            pure (later.map ((step, offset) :: ·))

/-- The steps of a union: no padding, and every option whole bytes. A composite's own plan
answers for it. -/
def optionsWhole (flat : SemanticFieldType → Bool) : List LoweredStep → Bool → Sized Bool
  | [], any => pure any
  | .align _ :: rest, any => optionsWhole flat rest any
  | .padding _ :: _, _ => pure false
  | .field option :: rest, _ =>
      if isVariableLength option.type.arrayKind then pure false
      else if option.isComposite then
        if flat option.type then optionsWhole flat rest true else pure false
      else if elementBits option.type ≤ 0 then pure false
      else do
        let bits ← times (elementBits option.type)
          (if option.isArray then option.type.arrayCapacity else 1)
        if bits.tmod 8 ≠ 0 then pure false else optionsWhole flat rest true

section Accessors

variable (carried : TypeKey → Bool) (index : AliasIndex)

def unionIsFlat (sec : SemanticSection) : Sized Bool :=
  if !sec.isUnion || !sec.sealed || !sec.fixedSize then pure false
  else do
    let whole ← optionsWhole
      (fun type => (nestedSection carried index type).any fun nested => nested.wireFlat.holds)
      (sectionSteps carried index sec) false
    pure (whole && decide ((planTagBits sec).tmod 8 = 0))

def accessorOperations (sec : SemanticSection) : List SizeOperation :=
  if sec.wireFlat.holds && !sec.isUnion then
    (fixedFieldOffsets (sectionSteps carried index sec) 0).operations
  else if sec.isUnion then (unionIsFlat carried index sec).operations
  else []

/-- The operations on sizes of a section's bodies, in both directions, and of its accessors. -/
def bodyOperations (sec : SemanticSection) : List SizeOperation :=
  if supportedSection carried index sec then
    (buildBody true carried index sec).operations ++
      (buildBody false carried index sec).operations ++ accessorOperations carried index sec
  else []

end Accessors

end LlvmDsdl.Transforms.Static
