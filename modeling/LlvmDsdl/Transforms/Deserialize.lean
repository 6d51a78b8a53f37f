import LlvmDsdl.Transforms.Cursor

/-!
Contract: the body `buildTypedDeserializeBody` builds for a plan.

Owns: the call of a deserialise body and what it answers; the readers of
scalars, arrays, nested composites and views; the walk over a structure's steps
and over a union's options; and the body closed over its nested bodies.

The readers log the bits they touch, those a view keeps included, and the stores
they make into array members. A bool array is held as one word an element, whatever
a target packs it into.
-/

namespace LlvmDsdl.Transforms

open LlvmDsdl.Runtime

variable {κ ω : Type}

/-- The arguments of a deserialise body: three pointers, and what the size points to. -/
structure ReadCall (ω : Type) where
  object : ω
  objectNull : Bool
  buffer : ℕ
  bufferNull : Bool
  size : Word
  sizeNull : Bool

/-- The code a deserialise body returns, and what it leaves behind its pointers. -/
structure ReadResult (ω : Type) where
  error : ErrorCode
  size : Word
  object : ω
  reads : List BitRange
  stores : List ArrayStore

/-- What a body knows of its nested types: what their plans state, and their bodies. -/
structure ReadCallees (κ ω : Type) where
  bounds : κ → Bounds
  deserialize : κ → Bytes → ReadCall ω → ReadResult ω

structure ReaderState (ω : Type) where
  object : Record ω
  reads : List BitRange
  stores : List ArrayStore

/-- `dsdl.read_bits` into a scalar. -/
def readScalar (buf : Bytes) (bufSizeBytes bitOffset : Word) (type : ScalarType) : Word :=
  if type.category = .float then readFloat buf bufSizeBytes bitOffset type.bitLength
  else readBits buf bufSizeBytes bitOffset type.bitLength type.isSigned

/-- The buffer a body reads, and how much of it there is. -/
structure Source where
  memory : Bytes
  buffer : ℕ
  capacityBytes : Word

namespace Source

variable (source : Source)

/-- The memory from the buffer on. -/
def bytes : Bytes := pointerAt source.memory source.buffer

def scalarAt (offset : Word) (type : ScalarType) : Word :=
  readScalar source.bytes source.capacityBytes offset type

def unsignedAt (offset : Word) (width : ℕ) : Word :=
  readBits source.bytes source.capacityBytes offset width false

/-- The bits a read of `width` bits touches. -/
def touched (offset width : Word) : BitRange where
  start := 8 * source.buffer + offset.toNat
  length := (saturateFragmentBits source.capacityBytes offset width).toNat

end Source

namespace ReaderState

def note (state : ReaderState ω) (range : BitRange) : ReaderState ω :=
  { state with reads := state.reads ++ [range] }

def storeMember (state : ReaderState ω) (name : String) (value : Word) : ReaderState ω :=
  { state with object := state.object.storeMember name value }

def setUnionTag (state : ReaderState ω) (value : Word) : ReaderState ω :=
  { state with object := state.object.setUnionTag value }

def setArrayLength (state : ReaderState ω) (name : String) (capacity : ℕ) (value : Word) :
    ReaderState ω :=
  { state with
    object := state.object.setArrayLength name value
    stores := state.stores ++ [.length name capacity value.toNat] }

def storeElement (state : ReaderState ω) (name : String) (capacity : ℕ) (count : Word)
    (index : ℕ) (value : Word) : ReaderState ω :=
  { state with
    object := state.object.storeElement name index value
    stores := state.stores ++ [.element name capacity count.toNat index] }

def storeView (state : ReaderState ω) (name : String) (index : ℕ) (bytes : List Byte) :
    ReaderState ω :=
  { state with object := state.object.storeView name index bytes }

/-- An element of an array of composites, before it is filled. -/
def logElement (state : ReaderState ω) (name : String) (capacity : ℕ) (count : Word)
    (index : ℕ) : ReaderState ω :=
  { state with stores := state.stores ++ [.element name capacity count.toNat index] }

end ReaderState

section Builders

variable (target : Target) (callees : ReadCallees κ ω) (source : Source)

def buildScalarRead (field : Field κ) (type : ScalarType) : Builder (ReaderState ω) :=
  andThen
    (effect fun offset state =>
      (state.note (source.touched offset (BitVec.ofNat 64 type.bitLength))).storeMember field.name
        (normaliseScalar type (source.scalarAt offset type) .deserialize))
    (advancedBy type.bitLength)

def readElement (name : String) (type : ScalarType) (capacity : ℕ) (count start : Word)
    (index : ℕ) (state : ReaderState ω) : ReaderState ω :=
  let offset := start + BitVec.ofNat 64 index * BitVec.ofNat 64 type.bitLength
  (state.note (source.touched offset (BitVec.ofNat 64 type.bitLength))).storeElement name capacity
    count index (normaliseScalar type (source.scalarAt offset type) .deserialize)

def buildScalarElementReads (name : String) (type : ScalarType) (capacity : ℕ) (count : Count) :
    Builder (ReaderState ω) :=
  andThen
    (effect fun start state =>
      countedLoop count.value (readElement source name type capacity count.value start) state)
    (advancedByRun count type.bitLength)

/-- `buildBitpackedArray`: one run of wire bits, an element a bit. -/
def buildBitpackedRead (name : String) (capacity : ℕ) (count : Count) :
    Builder (ReaderState ω) :=
  andThen
    (effect fun start state =>
      let output := getBits (fun _ => 0) source.bytes source.capacityBytes start count.value
      countedLoop count.value
        (fun index state => state.storeElement name capacity count.value index
          (if bitAt output index then 1 else 0))
        (state.note (source.touched start count.value)))
    (advancedByRun count 1)

/-- Calls the nested type's body on the member's storage. -/
def callNested (name : String) (index : ℕ) (nested : κ) (byteOffset size : Word)
    (state : ReaderState ω) : (ErrorCode × Word) × ReaderState ω :=
  let result := callees.deserialize nested source.memory
    { object := state.object.nested name index
      objectNull := false
      buffer := source.buffer + byteOffset.toNat
      bufferNull := false
      size := size
      sizeNull := false }
  ((result.error, result.size),
    { object := state.object.storeNested name index result.object
      reads := state.reads ++ result.reads
      stores := state.stores ++ result.stores })

/-- A nested type of one size advances the container by that size; another reports what it
used. -/
def buildSealedNestedRead (name : String) (index : ℕ) (composite : Composite κ) :
    Builder (ReaderState ω) := fun facts =>
  let call (cursor : Cursor) (state : ReaderState ω) :=
    let position := bufferPosition facts source.capacityBytes cursor.bitOffset false
    callNested callees source name index composite.nested position.byteOffset position.remaining
      state
  match (callees.bounds composite.nested).fixedBits with
  | some width =>
      andThen
        (answering fun cursor state => ((call cursor state).1.1, (call cursor state).2))
        (advancedBy width) facts
  | none =>
      { facts := ⟨none, facts.staticResidue⟩
        run := fun cursor state =>
          let answer := call cursor state
          (⟨cursor.bitOffset + answer.1.2 * 8, answer.1.1⟩, answer.2) }

/-- What follows the delimiter header: the nested type is called on the length it declared,
and the container advances by that. -/
def buildDelimitedBody (name : String) (index : ℕ) (composite : Composite κ) (declared : Word) :
    Builder (ReaderState ω) := fun facts =>
  let position (cursor : Cursor) :=
    bufferPosition facts source.capacityBytes cursor.bitOffset false
  andThen
    (answering fun cursor state =>
      (foldError cursor.error
        (validateDelimiterHeader declared (position cursor).remaining), state))
    (guarded
      (andThen
        (answering fun cursor state =>
          let answer := callNested callees source name index composite.nested
            (position cursor).byteOffset declared state
          (answer.1.1, answer.2))
        (guarded (movedBy (declared * 8) Facts.staticResidue))))
    facts

def buildDelimitedNestedRead (name : String) (index : ℕ) (composite : Composite κ) :
    Builder (ReaderState ω) :=
  given (fun offset _ => source.unsignedAt offset delimiterHeaderBits) fun declared =>
    andThen
      (effect fun offset state =>
        state.note (source.touched offset (BitVec.ofNat 64 delimiterHeaderBits)))
      (andThen (advancedBy delimiterHeaderBits)
        (buildDelimitedBody callees source name index composite declared))

def buildNestedRead (name : String) (index : ℕ) (composite : Composite κ) :
    Builder (ReaderState ω) :=
  if composite.compositeSealed then buildSealedNestedRead callees source name index composite
  else buildDelimitedNestedRead callees source name index composite

def viewBytes (memory : Bytes) (address count : ℕ) : List Byte :=
  (List.range count).map fun index => memory (address + index)

/-- `buildViewStep`: the member's view of the field's bytes, short where the buffer is. -/
def buildViewRead (name : String) (index : ℕ) (composite : Composite κ) :
    Builder (ReaderState ω) := fun facts =>
  let fixedBits := ((callees.bounds composite.nested).fixedBits).getD 0
  let width := BitVec.ofNat 64 (fixedBits / 8)
  andThen
    (effect fun offset state =>
      let position := bufferPosition facts source.capacityBytes offset false
      let held := if position.remaining < width then position.remaining else width
      let start := source.buffer + position.byteOffset.toNat
      (state.note ⟨8 * start, 8 * held.toNat⟩).storeView name index
        (viewBytes source.memory start held.toNat))
    (advancedBy fixedBits) facts

def buildCompositeRead (name : String) (composite : Composite κ) : Builder (ReaderState ω) :=
  guarded
    (if composite.heldAsView then buildViewRead callees source name 0 composite
    else buildNestedRead callees source name 0 composite)

/-- Logs the store of an element of an array of composites. -/
def logged (name : String) (capacity : ℕ) (count : Word) (index : ℕ)
    (body : Builder (ReaderState ω)) : Builder (ReaderState ω) :=
  andThen (effect fun _ state => state.logElement name capacity count index) body

/-- Elements of one width lie at the start plus the index times that width. One held as a view
is the buffer at its offset, not a decode. -/
def readFixedElement (name : String) (capacity : ℕ) (count : Word) (composite : Composite κ)
    (elementBits : ℕ) (start : Word) (index : ℕ)
    (carried : ErrorCode × ReaderState ω) : ErrorCode × ReaderState ω :=
  errorGuarded carried.1 carried.2 fun state =>
    let offset := start + BitVec.ofNat 64 index * BitVec.ofNat 64 elementBits
    let body := logged name capacity count index
      (if composite.heldAsView then buildViewRead callees source name index composite
      else buildNestedRead callees source name index composite)
    let reached := (body ⟨none, none⟩).run ⟨offset, carried.1⟩ state
    (reached.1.error, reached.2)

/-- An element that reports its own length is stepped over by it. -/
def readSteppedElement (name : String) (capacity : ℕ) (count : Word) (composite : Composite κ)
    (index : ℕ) (carried : Cursor × ReaderState ω) : Cursor × ReaderState ω :=
  (guarded
    (logged name capacity count index (buildNestedRead callees source name index composite))
    ⟨none, none⟩).run carried.1 carried.2

def buildCompositeElementReads (name : String) (capacity : ℕ) (count : Count)
    (composite : Composite κ) : Builder (ReaderState ω) :=
  match (callees.bounds composite.nested).fixedBits, composite.compositeSealed with
  | some elementBits, true =>
      andThen
        (answering fun cursor state =>
          countedLoop count.value
            (readFixedElement callees source name capacity count.value composite elementBits
              cursor.bitOffset)
            (cursor.error, state))
        (advancedByRun count elementBits)
  | _, _ => fun facts =>
      { facts := ⟨none, facts.staticResidue⟩
        run := fun cursor state =>
          countedLoop count.value
            (readSteppedElement callees source name capacity count.value composite)
            (cursor, state) }

def buildArrayElementReads (name : String) (element : Element κ) (capacity : ℕ) (count : Count) :
    Builder (ReaderState ω) :=
  match element with
  | .composite composite => buildCompositeElementReads callees source name capacity count composite
  | .scalar type =>
      if type.category = .bool then buildBitpackedRead source name capacity count
      else buildScalarElementReads source name type capacity count

/-- What follows the length prefix. A length the target cannot hold stores nothing. -/
def buildCountedReads (name : String) (element : Element κ) (capacity : ℕ) (count : Word) :
    Builder (ReaderState ω) :=
  andThen (answering fun _ state => (validateArrayLength target capacity count, state))
    (guarded
      (andThen (effect fun _ state => state.setArrayLength name capacity count)
        (buildArrayElementReads callees source name element capacity (.held count))))

def buildArrayRead (field : Field κ) : Builder (ReaderState ω) :=
  guarded
    (match field.arrayKind with
    | .none => nothing
    | .fixed capacity =>
        guarded (buildArrayElementReads callees source field.name field.element capacity
          (.declared capacity))
    | .variable capacity prefixBits =>
        given (fun offset _ => maskTo prefixBits (source.unsignedAt offset prefixBits)) fun count =>
          andThen
            (effect fun offset state =>
              state.note (source.touched offset (BitVec.ofNat 64 prefixBits)))
            (andThen (advancedBy prefixBits)
              (buildCountedReads target callees source field.name field.element capacity count)))

def buildFieldRead (field : Field κ) : Builder (ReaderState ω) :=
  match field.arrayKind, field.element with
  | .none, .scalar type => buildScalarRead source field type
  | .none, .composite composite => buildCompositeRead callees source field.name composite
  | _, _ => buildArrayRead target callees source field

/-- `buildAlignment`: reading skips no bits, the offset moves. -/
def buildAlignmentRead : Builder (ReaderState ω) := fun facts =>
  match facts.padding with
  | some pad => if pad = 0 then nothing facts else advancedBy pad facts
  | none =>
      { facts := ⟨none, some 0⟩
        run := fun cursor state =>
          ({ cursor with bitOffset := alignedOffset cursor.bitOffset }, state) }

def buildStepRead (step : PlanStep κ) : Builder (ReaderState ω) :=
  match step with
  | .align _ => buildAlignmentRead
  | .padding bits => advancedBy bits
  | .field field => buildFieldRead target callees source field

/-- An arm of a union. -/
def buildOptionRead (option : Field κ) : Builder (ReaderState ω) :=
  if 1 < option.alignmentBits then
    andThen buildAlignmentRead (buildFieldRead target callees source option)
  else buildFieldRead target callees source option

/-- The tag, validated before it is stored, and the option it selects. -/
def buildUnionRead (plan : Plan κ) : Builder (ReaderState ω) :=
  let options := unionOptionsOf plan.steps
  given (fun offset _ => maskTo plan.unionTagBits (source.unsignedAt offset plan.unionTagBits))
    fun tag =>
      andThen
        (effect fun offset state =>
          state.note (source.touched offset (BitVec.ofNat 64 plan.unionTagBits)))
        (andThen
          (answering fun cursor state =>
            (foldError cursor.error
              (validateUnionTag (options.map Field.unionOptionIndex) tag), state))
          (andThen
            (guarded (andThen (effect fun _ state => state.setUnionTag tag)
              (advancedBy plan.unionTagBits)))
            (unionChain tag (options.map fun option =>
              (option.unionOptionIndex, buildOptionRead target callees source option)))))

def buildPlanRead (plan : Plan κ) : Builder (ReaderState ω) :=
  if plan.isUnion then buildUnionRead target callees source plan
  else inOrder (plan.steps.map (buildStepRead target callees source))

end Builders

def consumedBytes (capacityBytes bitOffset : Word) : Word :=
  let aligned := alignedOffset bitOffset
  let capacityBits := capacityBytes * 8
  (if aligned < capacityBits then aligned else capacityBits) / 8

def Plan.readRun (target : Target) (callees : ReadCallees κ ω) (plan : Plan κ) (source : Source)
    (object : Record ω) : Cursor × ReaderState ω :=
  (buildPlanRead target callees source plan ⟨some 0, some 0⟩).run ⟨0, 0⟩ ⟨object, [], []⟩

/-- `buildTypedDeserializeBody`. A null buffer is legal when its size is zero. -/
def Plan.deserialize (target : Target) (callees : ReadCallees κ ω) (plan : Plan κ)
    (memory : Bytes) (call : ReadCall (Record ω)) : ReadResult (Record ω) :=
  if call.objectNull || call.sizeNull || (call.bufferNull && call.size != 0) then
    ⟨-errorInvalidArgument, call.size, call.object, [], []⟩
  else
    let reached := plan.readRun target callees ⟨memory, call.buffer, call.size⟩ call.object
    if reached.1.error = 0 then
      ⟨0, consumedBytes call.size reached.1.bitOffset, reached.2.object, reached.2.reads,
        reached.2.stores⟩
    else ⟨reached.1.error, call.size, reached.2.object, reached.2.reads, reached.2.stores⟩

def NestedPlan.deserialize (target : Target) : {depth : ℕ} → NestedPlan depth → Bytes →
    ReadCall (Storage depth) → ReadResult (Storage depth)
  | 0, plan, _, _ => nomatch plan
  | depth + 1, plan, memory, call =>
      Plan.deserialize (κ := NestedPlan depth) (ω := Storage depth) target
        ⟨NestedPlan.bounds, NestedPlan.deserialize target⟩ plan memory call

end LlvmDsdl.Transforms
