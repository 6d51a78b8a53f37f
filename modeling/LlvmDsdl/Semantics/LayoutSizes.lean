import LlvmDsdl.Library.Traced
import LlvmDsdl.Semantics.AliasCertificates
import LlvmDsdl.Semantics.FieldSpans

/-!
Contract: the sizes the layout walks compute.

Owns: operations on 64-bit sizes and when they are exact, the layout walks with
the operations they carry out, and the proof that every one is exact where the
lengths of the sections fit.
-/

namespace LlvmDsdl.Semantics

open Frontend Support Support.IntegerMath Library Library.TaskSystem Library.Rounding

inductive SizeOperation where
  | product (lhs rhs : ℤ)
  | sum (lhs rhs : ℤ)

namespace SizeOperation

/-- What 64 bits keep of the result. -/
def computed : SizeOperation → ℤ
  | .product lhs rhs => wrappingMul lhs rhs
  | .sum lhs rhs => wrappingAdd lhs rhs

def exact : SizeOperation → ℤ
  | .product lhs rhs => lhs * rhs
  | .sum lhs rhs => lhs + rhs

/-- The integer that the machine computes is the exact one. -/
def IsExact (operation : SizeOperation) : Prop := operation.computed = operation.exact

end SizeOperation

abbrev Sized := Traced SizeOperation

def times (lhs rhs : ℤ) : Sized ℤ := Traced.step (.product lhs rhs) (wrappingMul lhs rhs)

def plus (lhs rhs : ℤ) : Sized ℤ := Traced.step (.sum lhs rhs) (wrappingAdd lhs rhs)

abbrev SizesMeet {α : Type} (sized : Sized α) (post : α → Prop) : Prop :=
  Traced.Meets SizeOperation.IsExact sized post

theorem meets_times {lhs rhs : ℤ} (nonneg : 0 ≤ lhs * rhs) (below : lhs * rhs ≤ int64Max) :
    SizesMeet (times lhs rhs) fun value => value = lhs * rhs :=
  have kept : wrappingMul lhs rhs = lhs * rhs :=
    LengthSet.toInt64_of_inInt64 (.of_nonneg nonneg below)
  Traced.meets_step kept kept

theorem meets_plus {lhs rhs : ℤ} (nonneg : 0 ≤ lhs + rhs) (below : lhs + rhs ≤ int64Max) :
    SizesMeet (plus lhs rhs) fun value => value = lhs + rhs :=
  have kept : wrappingAdd lhs rhs = lhs + rhs :=
    LengthSet.toInt64_of_inInt64 (.of_nonneg nonneg below)
  Traced.meets_step kept kept

section Wire

variable (find : TypeKey → Option SemanticSection) (answers : TypeKey → AliasLayoutVerdict)

/-- A payload field of `total` bits. -/
def placeSizes (cursor : FlatCursor) (total : ℤ) : Sized (Except AliasLayoutVerdict FlatCursor) := do
  let offsetBits ← plus cursor.offsetBits total
  pure (.ok ⟨offsetBits, true⟩)

def flatCompositeSizes (field : SemanticField) (cursor : FlatCursor) :
    Sized (Except AliasLayoutVerdict FlatCursor) :=
  match nestedOf find field with
  | none => pure (.error (blocked .nestedUnresolved field.name))
  | some (ref, nested) =>
      if (answers ref.typeKey).holds then do
        let total ← times nested.maxBitLength (elementCount field.resolvedType)
        placeSizes cursor total
      else pure (.error (nestedNotFlat field.name ref (answers ref.typeKey)))

/-- One field of the wire walk, with the operations on sizes. -/
def flatFieldSizes (field : SemanticField) (cursor : FlatCursor) :
    Sized (Except AliasLayoutVerdict FlatCursor) :=
  let type := field.resolvedType
  if field.isPadding then do
    let total ← times (elementBits type) (elementCount type)
    let offsetBits ← plus cursor.offsetBits total
    pure (.ok { cursor with offsetBits := offsetBits })
  else if cursor.offsetBits.tmod 8 ≠ 0 then
    pure (.error (blocked .unalignedField field.name))
  else if isVariableLength type.arrayKind then
    pure (.error (blocked .variableArray field.name))
  else if type.scalarCategory = .composite then flatCompositeSizes find answers field cursor
  else do
    let total ← times (elementBits type) (elementCount type)
    if elementBits type ≤ 0 ∨ total.tmod 8 ≠ 0 then
      pure (.error (blocked .subByteField field.name))
    else placeSizes cursor total

def flatFieldsSizes : List SemanticField → FlatCursor →
    Sized (Except AliasLayoutVerdict FlatCursor)
  | [], cursor => pure (.ok cursor)
  | field :: rest, cursor => do
      match ← flatFieldSizes find answers field cursor with
      | .error verdict => pure (.error verdict)
      | .ok next => flatFieldsSizes rest next

variable {find answers}

end Wire

section Host

variable (find : TypeKey → Option SemanticSection) (answers : TypeKey → Option Resolved)

/-- A member at the cursor; its size is computed for the member and for the cursor. -/
def placeMemberSizes (field : SemanticField) (element : HostExtent) (cursor : HostCursor) :
    Sized (Except AliasLayoutVerdict HostCursor) :=
  if cursor.offsetBytes.tmod element.alignBytes ≠ 0 then
    pure (.error (blocked .hostPadding field.name))
  else do
    let size ← times element.sizeBytes (elementCount field.resolvedType)
    let run ← times element.sizeBytes (elementCount field.resolvedType)
    let offsetBytes ← plus cursor.offsetBytes run
    pure (.ok
      { offsetBytes := offsetBytes
        alignBytes := max cursor.alignBytes element.alignBytes
        members := cursor.members ++ [⟨field.name, cursor.offsetBytes, size⟩] })

def hostFieldsSizes : List SemanticField → HostCursor → Sized (Except AliasLayoutVerdict HostCursor)
  | [], cursor => pure (.ok cursor)
  | field :: rest, cursor =>
      match (hostElement find field).eval answers with
      | .error verdict => pure (.error verdict)
      | .ok element => do
          match ← placeMemberSizes field element cursor with
          | .error verdict => pure (.error verdict)
          | .ok next => hostFieldsSizes rest next

variable {find answers}

theorem placeMemberSizes_value (field : SemanticField) (element : HostExtent)
    (cursor : HostCursor) :
    (placeMemberSizes field element cursor).value = placeMember field element cursor := by
  unfold placeMemberSizes placeMember
  dsimp only
  split <;> rfl

theorem hostFieldsSizes_value (fields : List SemanticField) (cursor : HostCursor) :
    (hostFieldsSizes find answers fields cursor).value =
      (hostFields find fields cursor).eval answers := by
  induction fields generalizing cursor with
  | nil => rfl
  | cons field rest ih =>
      rw [hostFieldsSizes, hostFields, Query.eval_bind]
      cases (hostElement find field).eval answers with
      | error verdict => rfl
      | ok element =>
          dsimp only
          rw [Traced.value_bind, placeMemberSizes_value]
          cases placeMember field element cursor with
          | error verdict => rfl
          | ok next => exact ih next

end Host

/-- What a layout walk reads of a field lies within the lengths of the field. -/
structure FieldSizes (index : AliasIndex) (field : SemanticField) : Prop where
  alignment : field.resolvedType.alignmentBits = 1 ∨ field.resolvedType.alignmentBits = 8
  own : Spans field.resolvedType (elementBits field.resolvedType)
  reference : field.resolvedType.scalarCategory = .composite →
    field.resolvedType.compositeType.isSome = true
  nested : field.resolvedType.compositeType.isSome = true →
    ∃ ref nested, NestedAs index field.resolvedType ref nested

/-- Every section that a key may stand for has lengths of 64 bits. -/
def SectionsFit (index : AliasIndex) : Prop :=
  ∀ ref sec, index.sectionAt ref = some sec → sec.offsetAtEnd.Fits

theorem fieldSizes_of_sound {given : Answers} {scope : Scope} {index : AliasIndex}
    (sound : SoundIndex given scope index) (fits : SectionsFit index) {sec : SemanticSection}
    (analysed : AnalysedSection given scope sec) {field : SemanticField}
    (member : field ∈ sec.fields) : FieldSizes index field where
  alignment := (analysed.facts.types field member).alignment
  own := (analysed.facts.types field member).spans (analysed.narrow.fields field member)
  reference := (analysed.facts.types field member).reference
  nested := nestedAs_of_composite sound fits (analysed.facts.types field member)

theorem NestedAs.nestedOf {index : AliasIndex} {field : SemanticField} {ref : SemanticTypeRef}
    {nested : SemanticSection} (nestedAs : NestedAs index field.resolvedType ref nested) :
    nestedOf index.find field = some (ref, nested) := by
  rw [Semantics.nestedOf, nestedAs.reference, Option.bind_some, nestedAs.found]
  rfl

section Exact

variable {index : AliasIndex} {before : LengthSet} {field : SemanticField}

/-- An offset within the lengths before a field. -/
structure Offset (before : LengthSet) (offset : ℤ) : Prop where
  nonneg : 0 ≤ offset
  reached : before.Reaches offset

theorem Offset.advance {offset bits : ℤ} (at_ : Offset before offset)
    (alignment : field.resolvedType.alignmentBits = 1 ∨ field.resolvedType.alignmentBits = 8)
    (nonneg : 0 ≤ bits) (reached : field.resolvedType.bitLengthSet.Reaches bits) :
    Offset (placeField before field) (offset + bits) := by
  have rounded := le_roundUp (show 0 < field.resolvedType.alignmentBits by omega) offset
  exact ⟨Int.add_nonneg at_.nonneg nonneg,
    (reaches_placeField alignment at_.reached reached).mono (by omega)⟩

/-- What is known of fields whose sizes are, at the first of them. -/
theorem first_field {rest : List SemanticField}
    (sizes : ∀ other ∈ field :: rest, FieldSizes index other)
    (bounded : ByteBounded ((field :: rest).foldl placeField before)) :
    ByteBounded (placeField before field) ∧ FieldSizes index field ∧
      ∀ other ∈ rest, FieldSizes index other := by
  have later : ∀ other ∈ rest, FieldSizes index other :=
    fun other member => sizes other (List.mem_cons_of_mem _ member)
  refine ⟨bounded.mono fun value reached => ?_, sizes field List.mem_cons_self, later⟩
  exact reaches_placeFields (fun other member => (later other member).alignment) reached

theorem lastExtent_le : lastExtent ≤ int64Max := by decide

theorem Spans.total_nonneg {type : SemanticFieldType} {bits : ℤ} (spans : Spans type bits) :
    0 ≤ elementCount type * bits :=
  Int.mul_nonneg (by have := spans.counted; omega) spans.nonneg

/-- The bits of all elements of a field, and the offset after them. -/
theorem meets_placed {bits : ℤ} (bounded : ByteBounded (placeField before field))
    (alignment : field.resolvedType.alignmentBits = 1 ∨ field.resolvedType.alignmentBits = 8)
    (spans : Spans field.resolvedType bits) {offset : ℤ} (at_ : Offset before offset) :
    SizesMeet (times bits (elementCount field.resolvedType))
        (fun total => total = elementCount field.resolvedType * bits) ∧
      SizesMeet (plus offset (elementCount field.resolvedType * bits)) fun after =>
        Offset (placeField before field) after := by
  have after := at_.advance alignment spans.total_nonneg spans.elements
  have within := (bounded _ after.reached).trans lastExtent_le
  have nonneg := spans.total_nonneg
  have offsetNonneg := at_.nonneg
  refine ⟨?_, (meets_plus after.nonneg within).mono fun value same => same ▸ after⟩
  rw [mul_comm] at nonneg within ⊢
  exact meets_times nonneg (by omega)

theorem meets_placeSizes {bits : ℤ} (bounded : ByteBounded (placeField before field))
    (alignment : field.resolvedType.alignmentBits = 1 ∨ field.resolvedType.alignmentBits = 8)
    (spans : Spans field.resolvedType bits) {cursor : FlatCursor}
    (at_ : Offset before cursor.offsetBits) :
    SizesMeet (placeSizes cursor (elementCount field.resolvedType * bits)) fun result =>
      ∀ next, result = .ok next → Offset (placeField before field) next.offsetBits := by
  refine (meets_placed bounded alignment spans at_).2.bind fun offset after => ?_
  refine Traced.meets_pure fun next same => ?_
  cases same
  exact after

/-- One field of the wire walk: every size is exact, and the cursor stays within the lengths. -/
theorem meets_flatFieldSizes {answers : TypeKey → AliasLayoutVerdict}
    (bounded : ByteBounded (placeField before field)) (sizes : FieldSizes index field)
    {cursor : FlatCursor} (at_ : Offset before cursor.offsetBits) :
    SizesMeet (flatFieldSizes index.find answers field cursor) fun result =>
      ∀ next, result = .ok next → Offset (placeField before field) next.offsetBits := by
  have refused (verdict : AliasLayoutVerdict) :
      SizesMeet (pure (.error verdict)) fun result : Except AliasLayoutVerdict FlatCursor =>
        ∀ next, result = .ok next → Offset (placeField before field) next.offsetBits :=
    Traced.meets_pure fun next impossible => by cases impossible
  obtain ⟨total, moved⟩ := meets_placed bounded sizes.alignment sizes.own at_
  unfold flatFieldSizes
  dsimp only
  split
  · refine total.bind fun value same => ?_
    rw [same]
    refine moved.bind fun offset after => Traced.meets_pure fun next same => ?_
    cases same
    exact after
  · split
    · exact refused _
    · split
      · exact refused _
      · split
        · rename_i isComposite
          obtain ⟨ref, nested, nestedAs⟩ := sizes.nested (sizes.reference isComposite)
          rw [flatCompositeSizes, nestedAs.nestedOf]
          dsimp only
          split
          · refine (meets_placed bounded sizes.alignment nestedAs.payload at_).1.bind
              fun value same => ?_
            rw [same]
            exact meets_placeSizes bounded sizes.alignment nestedAs.payload at_
          · exact refused _
        · refine total.bind fun value same => ?_
          split
          · exact refused _
          · rw [same]
            exact meets_placeSizes bounded sizes.alignment sizes.own at_

theorem meets_flatFieldsSizes {answers : TypeKey → AliasLayoutVerdict}
    {fields : List SemanticField} (sizes : ∀ field ∈ fields, FieldSizes index field)
    (bounded : ByteBounded (fields.foldl placeField before)) {cursor : FlatCursor}
    (at_ : Offset before cursor.offsetBits) :
    SizesMeet (flatFieldsSizes index.find answers fields cursor) fun _ => True := by
  induction fields generalizing before cursor with
  | nil => exact Traced.meets_pure trivial
  | cons field rest ih =>
      have ⟨here, first, later⟩ := first_field sizes bounded
      rw [flatFieldsSizes]
      refine (meets_flatFieldSizes here first at_).bind
        fun result after => ?_
      cases result with
      | error verdict => exact Traced.meets_pure trivial
      | ok next => exact ih later bounded (after next rfl)

/-- The image of the section under a key is no longer than the section's longest form. -/
def ImageWithin (index : AliasIndex) (key : TypeKey) (answer : Option Resolved) : Prop :=
  ∀ nested resolved, index.find key = some nested → answer = some resolved →
    resolved.verdict.holds = true →
      0 ≤ resolved.extent.sizeBytes ∧ 8 * resolved.extent.sizeBytes ≤ nested.maxBitLength

variable {answers : TypeKey → Option Resolved}

theorem hostElement_spans (sizes : FieldSizes index field)
    (within : ∀ key ∈ (hostElement index.find field).asked answers,
      ImageWithin index key (answers key)) {element : HostExtent}
    (ok : (hostElement index.find field).eval answers = .ok element) :
    Spans field.resolvedType (8 * element.sizeBytes) := by
  rw [hostElement] at within ok
  split at ok
  · cases ok
  · rename_i payload
    rw [if_neg payload] at within
    split at ok
    · cases ok
    · rename_i held
      rw [if_neg held] at within
      split at ok
      · rename_i isComposite
        rw [if_pos isComposite] at within
        obtain ⟨ref, nested, nestedAs⟩ := sizes.nested (sizes.reference isComposite)
        rw [hostComposite_of_nested nestedAs.nestedOf] at within ok
        have image := within ref.typeKey List.mem_cons_self
        rw [Query.eval, Query.eval] at ok
        cases answer : answers ref.typeKey with
        | none =>
            rw [answer] at ok
            cases ok
        | some resolved =>
            rw [answer, imageExtent] at ok
            split at ok
            · rename_i holds
              cases ok
              obtain ⟨nonneg, below⟩ := image nested resolved nestedAs.found answer holds
              exact nestedAs.payload.mono (by omega) below
            · cases ok
      · have scalar : hostScalar field = .ok element := ok
        have shape : ∃ storage, hostScalar field =
            if storage ≠ field.resolvedType.bitLength then
              .error (blocked .storageWidth field.name)
            else .ok ⟨(field.resolvedType.bitLength / 8 : ℕ),
              (field.resolvedType.bitLength / 8 : ℕ)⟩ := ⟨_, rfl⟩
        obtain ⟨storage, same⟩ := shape
        rw [same] at scalar
        split at scalar
        · cases scalar
        · cases scalar
          have own := sizes.own
          rw [elementBits] at own
          exact own.mono (by dsimp only; omega) (by dsimp only; omega)

theorem meets_placeMemberSizes (bounded : ByteBounded (placeField before field))
    (alignment : field.resolvedType.alignmentBits = 1 ∨ field.resolvedType.alignmentBits = 8)
    {element : HostExtent} (spans : Spans field.resolvedType (8 * element.sizeBytes))
    {cursor : HostCursor} (at_ : Offset before (8 * cursor.offsetBytes)) :
    SizesMeet (placeMemberSizes field element cursor) fun result =>
      ∀ next, result = .ok next → Offset (placeField before field) (8 * next.offsetBytes) := by
  have after := at_.advance alignment spans.total_nonneg spans.elements
  have within := (bounded _ after.reached).trans lastExtent_le
  have total : elementCount field.resolvedType * (8 * element.sizeBytes) =
      8 * (element.sizeBytes * elementCount field.resolvedType) := by ring
  have nonneg := spans.total_nonneg
  have offsetNonneg := at_.nonneg
  rw [total] at after within nonneg
  have size : SizesMeet (times element.sizeBytes (elementCount field.resolvedType)) _ :=
    meets_times (by omega) (by omega)
  rw [placeMemberSizes]
  split
  · exact Traced.meets_pure fun next impossible => by cases impossible
  · refine size.bind fun member _ => size.bind fun run same => ?_
    rw [same]
    refine (meets_plus (by omega) (by omega)).bind fun offset moved => ?_
    refine Traced.meets_pure fun next same => ?_
    cases same
    rw [moved, mul_add]
    exact after

theorem meets_hostFieldsSizes {fields : List SemanticField}
    (sizes : ∀ field ∈ fields, FieldSizes index field)
    (bounded : ByteBounded (fields.foldl placeField before)) {cursor : HostCursor}
    (within : ∀ key ∈ (hostFields index.find fields cursor).asked answers,
      ImageWithin index key (answers key)) (at_ : Offset before (8 * cursor.offsetBytes)) :
    SizesMeet (hostFieldsSizes index.find answers fields cursor) fun result =>
      ∀ last, result = .ok last → Offset (fields.foldl placeField before) (8 * last.offsetBytes) := by
  induction fields generalizing before cursor with
  | nil =>
      refine Traced.meets_pure fun last same => ?_
      cases same
      exact at_
  | cons field rest ih =>
      have ⟨here, first, later⟩ := first_field sizes bounded
      rw [hostFields] at within
      rw [hostFieldsSizes]
      cases found : (hostElement index.find field).eval answers with
      | error verdict => exact Traced.meets_pure fun last impossible => by cases impossible
      | ok element =>
          have spans := hostElement_spans first
            (fun key asked => within key (Query.mem_asked_bind.mpr (.inl asked))) found
          have placed := meets_placeMemberSizes here first.alignment spans at_
          have sized : SizesMeet (placeMemberSizes field element cursor) fun result =>
              result = placeMember field element cursor ∧ ∀ next, result = .ok next →
                Offset (placeField before field) (8 * next.offsetBytes) :=
            ⟨placed.good, placeMemberSizes_value _ _ _, placed.value⟩
          refine sized.bind fun result after => ?_
          cases result with
          | error verdict => exact Traced.meets_pure fun last impossible => by cases impossible
          | ok next =>
              refine ih later bounded (fun key asked => ?_) (after.2 next rfl)
              refine within key (Query.mem_asked_bind.mpr (.inr ?_))
              rw [found]
              dsimp only
              rw [← after.1]
              exact asked

end Exact

theorem LengthSet.Reaches.le_max {set : LengthSet} {value : ℤ} (reached : set.Reaches value)
    (fits : set.Fits) : value ≤ set.max := by
  obtain ⟨length, member, above⟩ := reached
  exact above.trans ((set.fits_iff_isGreatest.mp fits).2 member)

/-- The lengths after the fields of a structure leave room for the padding to a byte. -/
theorem byteBounded_fields {given : Answers} {scope : Scope} {sec : SemanticSection}
    (analysed : AnalysedSection given scope sec) (fits : sec.offsetAtEnd.Fits)
    (isStructure : sec.isUnion = false) : ByteBounded (fieldsOffset sec.fields) := by
  rw [analysed.facts.structureOffset isStructure] at fits
  exact byteBounded_of_pad fits

theorem offset_zero : Offset (.ofValue 0) 0 := ⟨le_rfl, LengthSet.reaches_zero _⟩

namespace AliasIndex

variable (index : AliasIndex)

def recordedVerdicts : TypeKey → AliasLayoutVerdict :=
  fun key => recordedFlat index.wireMemo (index.wireSystem.locate key)

def recordedImages : TypeKey → Option Resolved :=
  (index.hostSystem index.wireMemo).recorded none (index.hostMemo index.wireMemo)

/-- The operations on sizes of both walks over a section. A union has neither walk; the host
walk is that of a flat section. -/
def layoutOperations (sec : SemanticSection) : List SizeOperation :=
  if sec.isUnion then []
  else
    (flatFieldsSizes index.find index.recordedVerdicts sec.fields {}).operations ++
      (if (index.flatOf sec).holds then
        (hostFieldsSizes index.find index.recordedImages sec.fields {}).operations
      else [])

variable {index} {given : Answers} {scope : Scope}

/-- The image of a certified section is no longer than its longest form. -/
theorem image_of_certified (sound : SoundIndex given scope index) (fits : SectionsFit index)
    {ref : SectionRef} {result : Option Resolved}
    (certified : (index.hostSystem index.wireMemo).Certified isImage ref result)
    {resolved : Resolved} (same : result = some resolved) {sec : SemanticSection}
    (here : index.sectionAt ref = some sec) :
    0 ≤ resolved.extent.sizeBytes ∧ 8 * resolved.extent.sizeBytes ≤ sec.maxBitLength := by
  induction certified generalizing resolved sec with
  | @intro ref result answers holds outcome rests ih =>
      have ⟨other, there, flat, resultIs⟩ := index.hostOutcome holds outcome
      rw [here] at there
      cases there
      have analysed := sound.sections ref sec here
      have isStructure : sec.isUnion = false := by
        have isFlat' : isFlat (index.flatOf sec) := by
          rw [flat]
          rfl
        exact (computeWireFlat_holds isFlat').2.1
      have image : isFlat ((computeHostImage index.find holdsVerdict sec).eval answers).verdict := by
        rw [resultIs] at holds
        exact holds
      obtain ⟨_, cursor, walk, closed⟩ := computeHostImage_holds image
      have within : ∀ key ∈ (hostFields index.find sec.fields {}).asked answers,
          ImageWithin index key (answers key) := by
        intro key asked nested inner found answer _
        refine ih key ?_ answer ((index.sectionAt_locate key).trans found)
        rw [index.hostTask_of_section here, flat, Query.mem_asked_bind]
        refine Or.inl ?_
        rw [computeHostImage, holdsVerdict, Bool.not_true, if_neg Bool.false_ne_true,
          Query.mem_asked_bind]
        exact Or.inl asked
      have sizes := meets_hostFieldsSizes
        (fun field member => fieldSizes_of_sound sound fits analysed member)
        (byteBounded_fields analysed (fits ref sec here) isStructure) within offset_zero
      have last := sizes.value cursor ((hostFieldsSizes_value _ _).trans walk)
      have padded : sec.offsetAtEnd.Reaches (8 * cursor.offsetBytes) := by
        rw [analysed.facts.structureOffset isStructure]
        exact last.reached.pad (by decide) (by decide)
      have below := padded.le_max (fits ref sec here)
      rw [← analysed.facts.maximum] at below
      rw [resultIs, closed] at same
      rw [closed, closeHost] at image
      have extent : resolved.extent.sizeBytes = cursor.offsetBytes := by
        rw [← Option.some.inj same, closeHost]
        split at image
        · cases image
        · rename_i aligned
          rw [if_neg aligned]
      rw [extent]
      exact ⟨by have := last.nonneg; omega, below⟩

theorem recordedImages_within (sound : SoundIndex given scope index) (fits : SectionsFit index)
    (key : TypeKey) : ImageWithin index key (index.recordedImages key) := by
  intro nested resolved found answer holds
  have bad : ¬ isImage none := fun impossible => impossible
  rw [recordedImages, TaskSystem.recorded, Memo.answer] at answer
  split at answer
  · rename_i result marked
    rw [answer] at marked
    have certified := (justified_of_recorded index.host_verdicts bad index.depth index.ownRefs
      marked holds).certified
    exact image_of_certified sound fits certified rfl ((index.sectionAt_locate key).trans found)
  · cases answer

/-- **The sizes of the layout walks are exact where the lengths of the sections fit.** -/
theorem layoutOperations_exact (sound : SoundIndex given scope index) (fits : SectionsFit index)
    {sec : SemanticSection} (analysed : AnalysedSection given scope sec)
    (own : sec.offsetAtEnd.Fits) : ∀ operation ∈ index.layoutOperations sec, operation.IsExact := by
  intro operation member
  rw [layoutOperations] at member
  split at member
  · cases member
  · rename_i isUnion
    have isStructure : sec.isUnion = false := Bool.eq_false_iff.mpr isUnion
    have sizes : ∀ field ∈ sec.fields, FieldSizes index field :=
      fun field listed => fieldSizes_of_sound sound fits analysed listed
    have bounded := byteBounded_fields analysed own isStructure
    rcases List.mem_append.mp member with wire | host
    · exact (meets_flatFieldsSizes sizes bounded offset_zero).good operation wire
    · split at host
      · have start : Offset (.ofValue 0) (8 * ({} : HostCursor).offsetBytes) := offset_zero
        have walk := meets_hostFieldsSizes sizes bounded
          (fun key _ => recordedImages_within sound fits key) start
        exact walk.good operation host
      · cases host

end AliasIndex

end LlvmDsdl.Semantics
