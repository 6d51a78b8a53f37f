import LlvmDsdl.Semantics.AcceptedSections

/-!
Contract: what the lengths of a section say of its fields.

Owns: the widths of length prefixes and union tags, the bits that the elements
of a field span, the section a composite field stands for with its sizes, and
the reach of a section's lengths over each of its fields.
-/

namespace LlvmDsdl.Semantics

open Frontend Support Support.IntegerMath Library Library.Rounding

theorem le_pow2ceilLoop (x : ℤ) (steps : ℕ) {out : ℤ} (nonneg : 0 ≤ out) :
    out ≤ pow2ceilLoop x steps out := by
  induction steps generalizing out with
  | zero => exact le_rfl
  | succ steps ih =>
      rw [pow2ceilLoop]
      split
      · exact le_trans (by omega) (ih (by omega))
      · exact le_rfl

theorem pow2ceilLoop_le (x : ℤ) (steps : ℕ) {out : ℤ} (nonneg : 0 ≤ out) :
    pow2ceilLoop x steps out ≤ out * 2 ^ steps := by
  induction steps generalizing out with
  | zero => exact le_of_eq (by rw [pow_zero, mul_one]; rfl)
  | succ steps ih =>
      rw [pow2ceilLoop]
      split
      · refine (ih (by omega)).trans_eq ?_
        ring
      · exact le_mul_of_one_le_right nonneg (one_le_pow₀ (by decide))

theorem dvd_pow2ceilLoop (x : ℤ) (steps : ℕ) (out : ℤ) : out ∣ pow2ceilLoop x steps out := by
  induction steps generalizing out with
  | zero => exact dvd_rfl
  | succ steps ih =>
      rw [pow2ceilLoop]
      split
      · exact (Dvd.intro_left 2 rfl).trans (ih (2 * out))
      · exact dvd_rfl

theorem pow2ceil_range (x : ℤ) : 1 ≤ pow2ceil x ∧ pow2ceil x ≤ 2 ^ 62 := by
  rw [pow2ceil]
  split
  · omega
  · have lower := le_pow2ceilLoop x 62 (show (0 : ℤ) ≤ 1 by decide)
    have upper := pow2ceilLoop_le x 62 (show (0 : ℤ) ≤ 1 by decide)
    rw [one_mul] at upper
    exact ⟨lower, upper⟩

theorem eight_dvd_pow2ceil {x : ℤ} (large : 8 ≤ x) : 8 ∣ pow2ceil x := by
  rw [pow2ceil, if_neg (by omega), pow2ceilLoop, if_pos (by omega), pow2ceilLoop,
    if_pos (by omega), pow2ceilLoop, if_pos (by omega)]
  exact dvd_pow2ceilLoop x 59 8

theorem lengthPrefixBits_range (capacity : ℤ) :
    1 ≤ lengthPrefixBits capacity ∧ lengthPrefixBits capacity ≤ 2 ^ 62 :=
  pow2ceil_range _

theorem unionTagBitsOf_range (options : ℕ) :
    1 ≤ unionTagBitsOf options ∧ unionTagBitsOf options ≤ 2 ^ 62 :=
  pow2ceil_range _

theorem eight_dvd_unionTagBitsOf (options : ℕ) : 8 ∣ unionTagBitsOf options :=
  eight_dvd_pow2ceil (le_max_left _ _)

/-- Elements of `bits` each lie within the lengths of a field's type. -/
structure Spans (type : SemanticFieldType) (bits : ℤ) : Prop where
  nonneg : 0 ≤ bits
  counted : 1 ≤ elementCount type
  capacity : type.arrayKind ≠ .none → elementCount type = type.arrayCapacity
  elements : type.bitLengthSet.Reaches (elementCount type * bits)
  prefixed : isVariableLength type.arrayKind = true → 0 ≤ type.arrayLengthPrefixBits ∧
    type.bitLengthSet.Reaches (type.arrayLengthPrefixBits + elementCount type * bits)

theorem elementCount_of_capacity {type : SemanticFieldType} (isArray : type.arrayKind ≠ .none)
    (positive : 1 ≤ type.arrayCapacity) : elementCount type = type.arrayCapacity := by
  rw [elementCount, if_neg isArray]
  exact max_eq_left (by omega)

theorem spans_of_element {type : SemanticFieldType} {element : LengthSet} {bits : ℤ}
    (array : ArrayFacts type element) (reaches : element.Reaches bits) (nonneg : 0 ≤ bits) :
    Spans type bits := by
  have variable_ (isArray : type.arrayKind ≠ .none)
      (facts : 1 ≤ type.arrayCapacity ∧ type.arrayCapacity ≤ int64Max ∧
        type.arrayLengthPrefixBits = lengthPrefixBits type.arrayCapacity ∧
        type.bitLengthSet = (LengthSet.ofValue type.arrayLengthPrefixBits).add
          (element.repeatRange type.arrayCapacity)) : Spans type bits := by
    obtain ⟨positive, below, prefixBits, lengths⟩ := facts
    have count := elementCount_of_capacity isArray positive
    have range := lengthPrefixBits_range type.arrayCapacity
    rw [← prefixBits] at range
    have fits : type.arrayLengthPrefixBits ≤ int64Max := range.2.trans (by decide)
    have run := reaches.repeatRange (by omega) below
    have whole := (LengthSet.reaches_ofValue (by omega) fits).add run
    rw [← lengths, ← count] at whole
    refine ⟨nonneg, by omega, fun _ => count, whole.mono (by omega), fun _ => ⟨by omega, whole⟩⟩
  rw [ArrayFacts] at array
  cases kind : type.arrayKind with
  | none =>
      rw [kind] at array
      have count : elementCount type = 1 := if_pos kind
      refine ⟨nonneg, count.ge, fun isArray => absurd kind isArray, ?_, fun impossible => ?_⟩
      · rw [array, count, one_mul]
        exact reaches
      · rw [kind] at impossible
        cases impossible
  | fixed =>
      rw [kind] at array
      obtain ⟨positive, below, lengths⟩ := array
      have count := elementCount_of_capacity (by rw [kind]; decide) positive
      refine ⟨nonneg, by omega, fun _ => count, ?_, fun impossible => ?_⟩
      · rw [lengths, count]
        exact reaches.repeated (by omega) below
      · rw [kind] at impossible
        cases impossible
  | variableInclusive =>
      rw [kind] at array
      exact variable_ (by rw [kind]; decide) array
  | variableExclusive =>
      rw [kind] at array
      exact variable_ (by rw [kind]; decide) array

theorem Spans.mono {type : SemanticFieldType} {low high : ℤ} (spans : Spans type high)
    (nonneg : 0 ≤ low) (below : low ≤ high) : Spans type low := by
  have scaled := mul_le_mul_of_nonneg_left below (by have := spans.counted; omega :
    0 ≤ elementCount type)
  refine ⟨nonneg, spans.counted, spans.capacity, spans.elements.mono scaled,
    fun isVariable => ?_⟩
  obtain ⟨prefixNonneg, reaches⟩ := spans.prefixed isVariable
  exact ⟨prefixNonneg, reaches.mono (by omega)⟩

theorem elementBits_nonneg (type : SemanticFieldType) : 0 ≤ elementBits type :=
  Int.natCast_nonneg _

section Fields

variable {given : Answers} {scope : Scope} {type : SemanticFieldType}

/-- The written width of a field, where it is no composite; a composite's own is nought. -/
theorem TypeFacts.spans (facts : TypeFacts given scope type) (narrow : NarrowType type) :
    Spans type (elementBits type) := by
  obtain ⟨element, elementFacts, array⟩ := facts
  rcases elementFacts with scalar | ⟨definition, composite⟩
  · refine spans_of_element array ?_ (elementBits_nonneg type)
    rw [scalar.lengths]
    refine LengthSet.reaches_ofValue (elementBits_nonneg type) ?_
    have width : (type.bitLength : ℤ) < 2 ^ 32 := by exact_mod_cast narrow.width
    exact width.le.trans (by decide)
  · have none : elementBits type = 0 := by
      rw [elementBits, narrow.composite composite.category]
      rfl
    rw [none]
    exact spans_of_element array (LengthSet.reaches_zero element) le_rfl

theorem TypeFacts.alignment (facts : TypeFacts given scope type) :
    type.alignmentBits = 1 ∨ type.alignmentBits = 8 := by
  obtain ⟨element, elementFacts, _⟩ := facts
  rcases elementFacts with scalar | ⟨definition, composite⟩
  · exact Or.inl scalar.alignment
  · exact Or.inr composite.alignment

theorem TypeFacts.reference (facts : TypeFacts given scope type)
    (isComposite : type.scalarCategory = .composite) : type.compositeType.isSome = true := by
  obtain ⟨element, elementFacts, _⟩ := facts
  rcases elementFacts with scalar | ⟨definition, composite⟩
  · exact absurd isComposite scalar.category
  · rw [composite.reference]
    rfl

end Fields

def headerBits (sec : SemanticSection) : ℤ := if sec.sealed then 0 else 32

/-- The longest form of a section where another definition refers to it. -/
theorem compositeWire_reaches {given : Answers} {scope : Scope} {sec : SemanticSection}
    (analysed : AnalysedSection given scope sec) (fits : sec.offsetAtEnd.Fits) :
    (compositeWireBitLengthSet sec).Reaches (headerBits sec + sec.maxBitLength) := by
  rw [compositeWireBitLengthSet, headerBits, analysed.facts.maximum]
  cases isSealed : sec.sealed with
  | true =>
      rw [if_pos rfl, if_pos rfl, zero_add]
      exact fits.reaches_max
  | false =>
      rw [if_neg Bool.false_ne_true, if_neg Bool.false_ne_true]
      obtain ⟨extent, stated, nonneg, ⟨count, rfl⟩, above⟩ := analysed.facts.extent isSealed
      have below := analysed.narrow.extent _ stated
      have whole : (8 * count).tdiv 8 = count := Int.mul_tdiv_cancel_left count (by decide)
      rw [stated, Option.getD_some, whole]
      have run : ((LengthSet.ofValue 8).repeatRange count).Reaches (count * 8) :=
        (LengthSet.reaches_ofValue (by decide) (by decide)).repeatRange (by omega) (by omega)
      have header : (LengthSet.ofValue 32).Reaches 32 :=
        LengthSet.reaches_ofValue (by decide) (by decide)
      exact (header.add run).mono (by omega)

/-- The section that a composite field stands for, its sizes within those of the field. -/
structure NestedAs (index : AliasIndex) (type : SemanticFieldType) (ref : SemanticTypeRef)
    (nested : SemanticSection) : Prop where
  reference : type.compositeType = some ref
  found : index.find ref.typeKey = some nested
  alignment : type.alignmentBits = 8
  sealing : type.compositeSealed = nested.sealed
  nonneg : 0 ≤ nested.maxBitLength
  ordered : nested.minBitLength ≤ nested.maxBitLength
  spans : Spans type (headerBits nested + nested.maxBitLength)

theorem NestedAs.payload {index : AliasIndex} {type : SemanticFieldType} {ref : SemanticTypeRef}
    {nested : SemanticSection} (nestedAs : NestedAs index type ref nested) :
    Spans type nested.maxBitLength := by
  refine nestedAs.spans.mono nestedAs.nonneg ?_
  rw [headerBits]
  split <;> omega

theorem nestedAs_of_composite {given : Answers} {scope : Scope} {index : AliasIndex}
    (sound : SoundIndex given scope index)
    (fits : ∀ ref sec, index.sectionAt ref = some sec → sec.offsetAtEnd.Fits)
    {type : SemanticFieldType} (facts : TypeFacts given scope type)
    (isComposite : type.compositeType.isSome = true) :
    ∃ ref nested, NestedAs index type ref nested := by
  obtain ⟨element, elementFacts, array⟩ := facts
  rcases elementFacts with scalar | ⟨definition, composite⟩
  · rw [scalar.reference] at isComposite
    cases isComposite
  · obtain ⟨nested, found, sized⟩ := sound.found definition composite.available
    have here : ∃ ref, index.sectionAt ref = some nested := by
      obtain ⟨ref, _, there⟩ := Option.bind_eq_some_iff.mp found
      exact ⟨ref, there⟩
    obtain ⟨position, here⟩ := here
    have analysed := sound.sections position nested here
    have wire : compositeWireBitLengthSet nested = element := by
      rw [composite.lengths, compositeWireBitLengthSet, compositeWireBitLengthSet, sized.isSealed,
        sized.offsetAtEnd, sized.extentBits]
    have nonneg : 0 ≤ nested.maxBitLength := by
      rw [analysed.facts.maximum]
      exact LengthSet.max_nonneg _
    have ordered : nested.minBitLength ≤ nested.maxBitLength := by
      rw [analysed.facts.maximum, analysed.facts.minimum]
      exact LengthSet.min_le_max _
    refine ⟨typeRefOf definition.info, nested, composite.reference, found, composite.alignment,
      composite.sealing.trans sized.isSealed.symm, nonneg, ordered, ?_⟩
    refine spans_of_element array (wire ▸ compositeWire_reaches analysed (fits position nested here))
      ?_
    rw [headerBits]
    split <;> omega

/-- Nothing within the lengths is longer than the last multiple of eight. -/
def ByteBounded (set : LengthSet) : Prop := ∀ value, set.Reaches value → value ≤ lastExtent

theorem byteBounded_of_pad {set : LengthSet} (fits : (set.padToAlignment 8).Fits) :
    ByteBounded set := by
  intro value reaches
  have rounded := (reaches.roundUp (show (1 : ℤ) ≤ 8 by decide) (by decide)).le fits
  have whole := dvd_roundUp value 8
  have above := le_roundUp (show (0 : ℤ) < 8 by decide) value
  have limit : int64Max = 2 ^ 63 - 1 := by decide
  rw [lastExtent]
  omega

theorem ByteBounded.mono {set other : LengthSet} (bounded : ByteBounded other)
    (within : ∀ value, set.Reaches value → other.Reaches value) : ByteBounded set :=
  fun value reaches => bounded value (within value reaches)

theorem reaches_placeField {before : LengthSet} {field : SemanticField} {offset bits : ℤ}
    (alignment : field.resolvedType.alignmentBits = 1 ∨ field.resolvedType.alignmentBits = 8)
    (reached : before.Reaches offset) (spans : field.resolvedType.bitLengthSet.Reaches bits) :
    (placeField before field).Reaches
      (roundUp offset field.resolvedType.alignmentBits + bits) := by
  rw [placeField]
  refine (reached.roundUp ?_ ?_).add spans
  · omega
  · exact le_trans (b := 8) (by omega) (by decide)

theorem reaches_placeFields {fields : List SemanticField}
    (alignments : ∀ field ∈ fields, field.resolvedType.alignmentBits = 1 ∨
      field.resolvedType.alignmentBits = 8) {before : LengthSet} {value : ℤ}
    (reached : before.Reaches value) : (fields.foldl placeField before).Reaches value := by
  induction fields generalizing before with
  | nil => exact reached
  | cons field rest ih =>
      apply ih fun other member =>
        alignments other (List.mem_cons_of_mem _ member)
      have aligned := alignments field List.mem_cons_self
      have placed := reaches_placeField aligned reached (LengthSet.reaches_zero _)
      have above := le_roundUp (show 0 < field.resolvedType.alignmentBits by omega) value
      exact placed.mono (by omega)

theorem reaches_unionFold {layouts : List TypeLayout} {first set : LengthSet}
    (listed : set ∈ first :: layouts.map TypeLayout.bls) {value : ℤ} (reached : set.Reaches value) :
    (layouts.foldl (fun set layout => set.union layout.bls) first).Reaches value := by
  induction layouts generalizing first set with
  | nil =>
      rw [List.mem_singleton.mp listed] at reached
      exact reached
  | cons layout rest ih =>
      rcases List.mem_cons.mp listed with same | later
      · rw [same] at reached
        exact ih List.mem_cons_self reached.union_left
      · rcases List.mem_cons.mp later with same | deeper
        · rw [same] at reached
          exact ih List.mem_cons_self reached.union_right
        · exact ih (List.mem_cons_of_mem _ deeper) reached

/-- The lengths up to the end of a union's option leave room for the padding to a byte. -/
theorem byteBounded_unionOption {layouts : List TypeLayout} {set : LengthSet}
    (listed : set ∈ layouts.map TypeLayout.bls)
    (fits : (computeUnionOffsetFromSeenFields layouts).Fits) :
    ByteBounded ((LengthSet.ofValue (unionTagBitsOf layouts.length)).add set) := by
  cases layouts with
  | nil => cases listed
  | cons first rest =>
      rw [computeUnionOffsetFromSeenFields] at fits
      refine (byteBounded_of_pad fits).mono fun value reached => ?_
      obtain ⟨length, ⟨tag, tagIn, payload, payloadIn, rfl⟩, above⟩ := reached
      exact ((LengthSet.reaches_of_mem tagIn).add
        (reaches_unionFold listed (LengthSet.reaches_of_mem payloadIn))).mono above

end LlvmDsdl.Semantics
