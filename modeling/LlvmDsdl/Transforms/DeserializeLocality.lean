import LlvmDsdl.Transforms.DeserializeSafety

/-!
Contract: a deserialise body depends on the bytes of its buffer alone.

Owns: that every builder makes the same body of two memories that agree on the
buffer, for plans nested to any depth.
-/

namespace LlvmDsdl.Transforms

open LlvmDsdl.Runtime

variable {κ ω : Type}

/-- Two memories that hold the same bytes in `[start, start + size)`. -/
def SameBytes (memory other : Bytes) (start size : ℕ) : Prop :=
  ∀ address, start ≤ address → address < start + size → other address = memory address

/-- The same buffer in another memory. -/
def Source.over (source : Source) (memory : Bytes) : Source := { source with memory := memory }

section Builders

variable {target : Target} {callees : ReadCallees κ ω} {source : Source} {other : Bytes}
variable (same : SameBytes source.memory other source.buffer source.capacityBytes.toNat)

include same

theorem bitAt_same {position : ℕ} (inside : position < 8 * source.capacityBytes.toNat) :
    bitAt (source.over other).bytes position = bitAt source.bytes position := by
  simp only [bitAt, Source.bytes, Source.over, pointerAt]
  rw [same _ (Nat.le_add_right _ _) (by omega)]

theorem viewRead_same (name : String) (index : ℕ) (composite : Composite κ) :
    buildViewRead callees (source.over other) name index composite =
      buildViewRead callees source name index composite := by
  funext facts
  have bytes : ∀ (byteOffset held : ℕ), byteOffset + held ≤ source.capacityBytes.toNat →
      viewBytes other (source.buffer + byteOffset) held =
        viewBytes source.memory (source.buffer + byteOffset) held := by
    intro byteOffset held room
    refine List.map_congr_left fun index member => ?_
    have below := List.mem_range.mp member
    exact same _ (by omega) (by omega)
  have held : ∀ (offset width : Word),
      let position := bufferPosition facts source.capacityBytes offset false
      position.byteOffset.toNat +
        (if position.remaining < width then position.remaining else width).toNat ≤
          source.capacityBytes.toNat := by
    intro offset width
    have room := bufferPosition_total facts source.capacityBytes offset
    simp only
    split
    · exact le_of_eq room
    · next long =>
        have short := BitVec.le_def.mp (BitVec.not_lt.mp long)
        omega
  unfold buildViewRead Source.over
  simp only [bytes _ _ (held _ _)]

variable (counted : 8 * source.capacityBytes.toNat < 2 ^ 64)

include counted

/-- A read past the end of the buffer is cut short, so its bits are all in front of it. -/
theorem getUnsigned_same (holder : ℕ) (offset : Word) (width : ℕ) :
    getUnsigned holder (source.over other).bytes source.capacityBytes offset width =
      getUnsigned holder source.bytes source.capacityBytes offset width := by
  apply BitVec.eq_of_getLsbD_eq
  intro bit _
  simp only [getUnsigned]
  rw [getLsbD_littleEndian, getLsbD_littleEndian, bitAt_copyBits, bitAt_copyBits]
  split
  · next copied =>
      have some := Nat.lt_of_le_of_lt (Nat.zero_le bit) (by simpa using copied)
      have within := saturateFragmentBits_within offset _ counted some
      rw [bitAt_same same (by omega)]
  · rfl

theorem readBits_same (offset : Word) (width : ℕ) (isSigned : Bool) :
    readBits (source.over other).bytes source.capacityBytes offset width isSigned =
      readBits source.bytes source.capacityBytes offset width isSigned := by
  have unsigned : ∀ holder, getUnsigned holder (source.over other).bytes source.capacityBytes =
      getUnsigned holder source.bytes source.capacityBytes := fun holder => by
    funext offset width
    exact getUnsigned_same same counted holder offset width
  unfold readBits getBit getSignedHeld getUnsignedHeld getU8 getU16 getU32 getU64 getI8 getI16
    getI32 getI64
  simp only [getSigned, unsigned]

theorem scalarAt_same : (source.over other).scalarAt = source.scalarAt := by
  funext offset type
  have unsigned := getUnsigned_same same counted
  have bits := readBits_same same counted
  simp only [Source.scalarAt, readScalar, readFloat, getF16, getF32, getF64, getU16, getU32, getU64,
    Source.over] at unsigned bits ⊢
  simp only [bits, unsigned]

theorem unsignedAt_same : (source.over other).unsignedAt = source.unsignedAt := by
  funext offset width
  exact readBits_same same counted offset width false

theorem bitAt_getBits_same (offset length : Word) :
    bitAt (getBits (fun _ => 0) (source.over other).bytes source.capacityBytes offset length) =
      bitAt (getBits (fun _ => 0) source.bytes source.capacityBytes offset length) := by
  funext position
  simp only [getBits, bitAt_copyBits]
  split
  · next copied =>
      have within := saturateFragmentBits_within offset length counted (by omega)
      exact bitAt_same same (by omega)
  · rfl

theorem scalarRead_same (field : Field κ) (type : ScalarType) :
    buildScalarRead (ω := ω) (source.over other) field type = buildScalarRead source field type := by
  unfold buildScalarRead
  rw [scalarAt_same same counted]
  rfl

theorem scalarElementReads_same (name : String) (type : ScalarType) (capacity : ℕ)
    (count : Count) : buildScalarElementReads (ω := ω) (source.over other) name type capacity count =
      buildScalarElementReads source name type capacity count := by
  unfold buildScalarElementReads readElement
  rw [scalarAt_same same counted]
  rfl

theorem bitpackedRead_same (name : String) (capacity : ℕ) (count : Count) :
    buildBitpackedRead (ω := ω) (source.over other) name capacity count =
      buildBitpackedRead source name capacity count := by
  have bits := bitAt_getBits_same same counted
  simp only [buildBitpackedRead, Source.over] at bits ⊢
  simp only [bits]
  rfl

/-- What a nested body makes of its bytes is the same in both memories. -/
def LocalCallees (callees : ReadCallees κ ω) : Prop :=
  ∀ nested (memory other : Bytes) (call : ReadCall ω), 8 * call.size.toNat < 2 ^ 64 →
    SameBytes memory other call.buffer call.size.toNat →
    callees.deserialize nested other call = callees.deserialize nested memory call

variable (localCallees : LocalCallees callees)

include localCallees

theorem callNested_same (name : String) (index : ℕ) (nested : κ) (byteOffset size : Word)
    (room : byteOffset.toNat + size.toNat ≤ source.capacityBytes.toNat) :
    callNested callees (source.over other) name index nested byteOffset size =
      callNested callees source name index nested byteOffset size := by
  funext state
  simp only [callNested, Source.over]
  rw [localCallees nested source.memory other _ (by dsimp only; omega)
    fun address above below => same address (by dsimp only at above; omega)
      (by dsimp only at below; omega)]

theorem sealedNestedRead_same (name : String) (index : ℕ) (composite : Composite κ) :
    buildSealedNestedRead callees (source.over other) name index composite =
      buildSealedNestedRead callees source name index composite := by
  funext facts
  have calls : ∀ offset, callNested callees (source.over other) name index
      composite.nested (bufferPosition facts source.capacityBytes offset false).byteOffset
      (bufferPosition facts source.capacityBytes offset false).remaining =
        callNested callees source name index composite.nested
          (bufferPosition facts source.capacityBytes offset false).byteOffset
          (bufferPosition facts source.capacityBytes offset false).remaining := fun offset =>
    callNested_same same counted localCallees name index composite.nested _ _
      (le_of_eq (bufferPosition_total facts source.capacityBytes offset))
  simp only [buildSealedNestedRead, Source.over] at calls ⊢
  simp only [calls]

/-- The nested body is entered only with a header that was accepted. -/
theorem delimitedBody_same (name : String) (index : ℕ) (composite : Composite κ)
    (declared : Word) : buildDelimitedBody callees (source.over other) name index composite declared =
      buildDelimitedBody callees source name index composite declared := by
  funext facts
  refine congrArg (Piece.mk _) ?_
  funext cursor state
  simp only [andThen, answering, guarded, movedBy, Source.over]
  by_cases accepted : foldError cursor.error (validateDelimiterHeader declared
      (bufferPosition facts source.capacityBytes cursor.bitOffset false).remaining) = 0
  · have room := bufferPosition_total facts source.capacityBytes cursor.bitOffset
    have checked : validateDelimiterHeader declared
        (bufferPosition facts source.capacityBytes cursor.bitOffset false).remaining = 0 := by
      unfold foldError at accepted
      split at accepted
      · exact accepted
      · next failed => exact absurd accepted failed
    have header := validateDelimiterHeader_within checked
    have called := callNested_same same counted localCallees name index composite.nested
      (bufferPosition facts source.capacityBytes cursor.bitOffset false).byteOffset declared
      (by omega)
    simp only [Source.over] at called
    rw [if_pos accepted, if_pos accepted, called]
  · rw [if_neg accepted, if_neg accepted]

theorem nestedRead_same (name : String) (index : ℕ) (composite : Composite κ) :
    buildNestedRead callees (source.over other) name index composite =
      buildNestedRead callees source name index composite := by
  unfold buildNestedRead
  rw [sealedNestedRead_same same counted localCallees]
  unfold buildDelimitedNestedRead
  simp only [unsignedAt_same same counted, delimitedBody_same same counted localCallees]
  rfl

theorem arrayElementReads_same (name : String) (element : Element κ) (capacity : ℕ)
    (count : Count) : buildArrayElementReads callees (source.over other) name element capacity count =
      buildArrayElementReads callees source name element capacity count := by
  unfold buildArrayElementReads buildCompositeElementReads readFixedElement readSteppedElement
  simp only [viewRead_same same, nestedRead_same same counted localCallees,
    bitpackedRead_same same counted, scalarElementReads_same same counted]

theorem fieldRead_same (field : Field κ) :
    buildFieldRead target callees (source.over other) field =
      buildFieldRead target callees source field := by
  have touched : (source.over other).touched = source.touched := rfl
  have arrays : buildArrayRead target callees (source.over other) field =
      buildArrayRead target callees source field := by
    refine congrArg guarded ?_
    cases kind : field.arrayKind with
    | none => rfl
    | fixed capacity =>
        exact congrArg guarded
          (arrayElementReads_same same counted localCallees field.name field.element capacity _)
    | «variable» capacity prefixBits =>
        simp only [unsignedAt_same same counted, touched, buildCountedReads,
          arrayElementReads_same same counted localCallees]
  unfold buildFieldRead buildCompositeRead
  simp only [arrays, scalarRead_same same counted, viewRead_same same,
    nestedRead_same same counted localCallees]

theorem planRead_same (plan : Plan κ) :
    buildPlanRead target callees (source.over other) plan =
      buildPlanRead target callees source plan := by
  have touched : (source.over other).touched = source.touched := rfl
  have fields : buildFieldRead target callees (source.over other) =
      buildFieldRead target callees source := by
    funext field
    exact fieldRead_same same counted localCallees field
  have options : buildOptionRead target callees (source.over other) =
      buildOptionRead target callees source := by
    funext option
    simp only [buildOptionRead, fields]
  have steps : buildStepRead target callees (source.over other) =
      buildStepRead target callees source := by
    funext step
    simp only [buildStepRead, fields]
  simp only [buildPlanRead, buildUnionRead, options, steps, touched, unsignedAt_same same counted]

end Builders

theorem Plan.same_deserialize (target : Target) {callees : ReadCallees κ ω}
    (localCallees : LocalCallees callees) (plan : Plan κ) {memory other : Bytes}
    (call : ReadCall (Record ω)) (counted : 8 * call.size.toNat < 2 ^ 64)
    (same : SameBytes memory other call.buffer call.size.toNat) :
    plan.deserialize target callees other call = plan.deserialize target callees memory call := by
  have runs : buildPlanRead target callees ⟨other, call.buffer, call.size⟩ plan =
      buildPlanRead target callees ⟨memory, call.buffer, call.size⟩ plan :=
    @planRead_same _ _ _ _ ⟨memory, call.buffer, call.size⟩ _ same counted localCallees plan
  unfold Plan.deserialize Plan.readRun
  rw [runs]

/-- A body of plans nested to any depth makes the same of two memories that agree on its buffer: its
code, its size, its object, what it touched and what it stored. -/
theorem deserialize_same (target : Target) {depth : ℕ} (plan : NestedPlan depth)
    {memory other : Bytes} (call : ReadCall (Storage depth)) (counted : 8 * call.size.toNat < 2 ^ 64)
    (same : SameBytes memory other call.buffer call.size.toNat) :
    plan.deserialize target other call = plan.deserialize target memory call := by
  induction depth generalizing memory other with
  | zero => exact nomatch plan
  | succ depth ih =>
      exact Plan.same_deserialize target
        (fun nested memory other call counted same =>
          ih nested call counted same) plan call counted same

/-- Two memories that differ behind the seventh byte. -/
theorem deserialize_same_pairs :
    let result := pairsPlan.deserialize ⟨64⟩ (memoryOf [7, 2, 1, 9, 0, 4, 4] 1) sevenByteCall
    pairsPlan.deserialize ⟨64⟩ (memoryOf [7, 2, 1, 9, 0, 4, 4, 5] 0) sevenByteCall = result ∧
      result.error = 0 ∧ result.size = 5 ∧ result.stores.length = 6 := by
  refine ⟨deserialize_same ⟨64⟩ pairsPlan sevenByteCall (by decide) ?_, by decide +kernel⟩
  intro address _ below
  have inside : address < 7 := by
    have counted : sevenByteCall.buffer + sevenByteCall.size.toNat = 7 := rfl
    omega
  interval_cases address <;> rfl

end LlvmDsdl.Transforms
