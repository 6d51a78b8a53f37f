import LlvmDsdl.Transforms.StaticOffsets

/-!
Contract: the sizes the body builders compute.

Owns: what is known of a static cursor within the lengths of a section, the rule
for every builder of both directions, and the proof that the bodies and the
accessors of a section compute every size exactly where its lengths fit.
-/

namespace LlvmDsdl.Transforms.Static

open Frontend Semantics Support Support.IntegerMath Library Library.Rounding

/-! ### Known offsets -/

/-- An offset that is a number lies inside, and a residue that is one is a residue; the offset
has the residue. -/
structure StaticAt (inside : ℤ → Prop) (cursor : StaticCursor) : Prop where
  known : ∀ offset, cursor.staticBits = some offset →
    inside offset ∧ cursor.staticResidue = some (offset % 8)
  residue : ∀ residue, cursor.staticResidue = some residue → 0 ≤ residue ∧ residue < 8

/-- Every offset inside has room for `bits` more, and no offset need be inside for `bits` to be a
size. -/
structure Room (inside : ℤ → Prop) (bits : ℤ) : Prop where
  nonneg : 0 ≤ bits
  below : bits ≤ lastExtent
  offset : ∀ offset, inside offset → 0 ≤ offset ∧ offset + bits ≤ lastExtent

variable {inside : ℤ → Prop} {cursor : StaticCursor} {bits : ℤ}

theorem StaticAt.mono {weak : ℤ → Prop} (at_ : StaticAt inside cursor)
    (weaker : ∀ offset, inside offset → weak offset) : StaticAt weak cursor :=
  ⟨fun offset same => (at_.known offset same).imp_left (weaker offset), at_.residue⟩

theorem StaticAt.residueOnly (weak : ℤ → Prop) (at_ : StaticAt inside cursor) :
    StaticAt weak ⟨none, cursor.staticResidue⟩ :=
  ⟨nofun, at_.residue⟩

theorem staticAt_unknown (weak : ℤ → Prop) : StaticAt weak unknown := ⟨nofun, nofun⟩

theorem staticAt_zero (here : inside 0) : StaticAt inside ⟨some 0, some 0⟩ := by
  refine ⟨fun offset same => ?_, fun residue same => ?_⟩
  · rw [← Option.some.inj same]
    exact ⟨here, rfl⟩
  · rw [← Option.some.inj same]
    decide

theorem int64Max_eq : int64Max = lastExtent + 7 := by decide

theorem advancedBy_residue (residue bits : ℤ) :
    advancedBy ⟨none, some residue⟩ bits = (do
      let moved ← plus residue bits
      pure ⟨none, some (moved.tmod 8)⟩) := rfl

theorem advancedBy_offset (offset residue bits : ℤ) :
    advancedBy ⟨some offset, some residue⟩ bits = (do
      let moved ← plus residue bits
      let after ← plus offset bits
      pure ⟨some after, some (moved.tmod 8)⟩) := rfl

/-- Advancing a cursor: both sums are exact, and what is known is shifted. -/
theorem meets_advancedBy (at_ : StaticAt inside cursor) (room : Room inside bits) :
    SizesMeet (advancedBy cursor bits) (StaticAt fun after => inside (after - bits)) := by
  obtain ⟨known, residue⟩ := cursor
  have limit := int64Max_eq
  have bitsNonneg := room.nonneg
  have bitsBelow := room.below
  have movedRange {moved : ℤ} (nonneg : 0 ≤ moved) (other : ℤ)
      (same : some (moved.tmod 8) = some other) : 0 ≤ other ∧ other < 8 := by
    rw [← Option.some.inj same, Int.tmod_eq_emod_of_nonneg nonneg]
    omega
  cases known with
  | none =>
      cases residue with
      | none => exact Traced.meets_pure (staticAt_unknown _)
      | some residue =>
          obtain ⟨lower, upper⟩ := at_.residue residue rfl
          rw [advancedBy_residue]
          refine (meets_plus (by omega) (by omega)).bind fun moved same => ?_
          exact Traced.meets_pure ⟨nofun, movedRange (by omega)⟩
  | some offset =>
      obtain ⟨here, isResidue⟩ := at_.known offset rfl
      cases isResidue
      obtain ⟨offsetNonneg, within⟩ := room.offset offset here
      rw [advancedBy_offset]
      refine (meets_plus (by omega) (by omega)).bind fun moved sameResidue => ?_
      refine (meets_plus (by omega) (by omega)).bind fun after sameOffset => ?_
      refine Traced.meets_pure ⟨fun other isOther => ?_, movedRange (by omega)⟩
      cases isOther
      refine ⟨by rwa [sameOffset, add_sub_cancel_right], ?_⟩
      rw [sameResidue, sameOffset, Int.tmod_eq_emod_of_nonneg (by omega), Int.emod_add_emod]

theorem meets_emitZeroBits (at_ : StaticAt inside cursor) (room : Room inside bits) :
    SizesMeet (emitZeroBits cursor bits) (StaticAt fun after => inside (after - bits)) := by
  induction size : bits.toNat using Nat.strong_induction_on generalizing inside cursor bits with
  | _ size ih =>
      have bitsNonneg := room.nonneg
      have bitsBelow := room.below
      rw [emitZeroBits]
      split
      · rename_i positive
        have width : 0 < min bits 64 ∧ min bits 64 ≤ bits := by omega
        have first : Room inside (min bits 64) :=
          ⟨by omega, by omega, fun offset here => by have := room.offset offset here; omega⟩
        refine (meets_advancedBy at_ first).bind fun next after => ?_
        have rest : Room (fun offset => inside (offset - min bits 64)) (bits - min bits 64) :=
          ⟨by omega, by omega, fun offset here => by have := room.offset _ here; omega⟩
        refine (ih _ (by omega) after rest rfl).mono fun last reached => ?_
        refine reached.mono fun offset here => ?_
        rwa [show offset - bits = offset - (bits - min bits 64) - min bits 64 by omega]
      · refine Traced.meets_pure (at_.mono fun offset here => ?_)
        rwa [show offset - bits = offset by omega]

section Directions

variable (writing : Bool)

theorem meets_buildPaddingStep (at_ : StaticAt inside cursor) (room : Room inside bits) :
    SizesMeet (buildPaddingStep writing cursor bits)
      (StaticAt fun after => inside (after - bits)) := by
  rw [buildPaddingStep]
  split
  · exact meets_emitZeroBits at_ room
  · exact meets_advancedBy at_ room

theorem meets_buildAlignment (at_ : StaticAt inside cursor)
    (within : ∀ offset, inside offset → 0 ≤ offset ∧ offset ≤ lastExtent) :
    SizesMeet (buildAlignment writing cursor)
      (StaticAt fun after => ∃ offset, inside offset ∧ after = roundUp offset 8) := by
  rw [buildAlignment]
  split
  · rename_i residue isResidue
    obtain ⟨lower, upper⟩ := at_.residue residue isResidue
    have padding : (8 - residue).tmod 8 = -residue % 8 := by
      rw [Int.tmod_eq_emod_of_nonneg (by omega)]
      omega
    have rounded (offset : ℤ) (here : cursor.staticBits = some offset) :
        roundUp offset 8 = offset + -residue % 8 := by
      have same := (at_.known offset here).2
      rw [isResidue] at same
      rw [roundUp, Option.some.inj same]
      omega
    dsimp only
    rw [padding]
    split
    · rename_i none
      refine Traced.meets_pure ⟨fun offset here => ?_, at_.residue⟩
      have step := rounded offset here
      exact ⟨⟨offset, (at_.known offset here).1, by omega⟩, (at_.known offset here).2⟩
    · have exactly : StaticAt (fun offset => cursor.staticBits = some offset) cursor :=
        ⟨fun offset here => ⟨here, (at_.known offset here).2⟩, at_.residue⟩
      have last : lastExtent % 8 = 0 := by decide
      have large : 8 ≤ lastExtent := by decide
      have room : Room (fun offset => cursor.staticBits = some offset) (-residue % 8) := by
        refine ⟨by omega, by omega, fun offset here => ?_⟩
        obtain ⟨nonneg, below⟩ := within offset (at_.known offset here).1
        have step := rounded offset here
        have near := roundUp_le (show (0 : ℤ) < 8 by decide)
          (Int.dvd_of_emod_eq_zero last) below
        omega
      refine (meets_buildPaddingStep writing exactly room).mono fun next after => ?_
      refine after.mono fun offset here => ?_
      have step := rounded _ here
      exact ⟨_, (at_.known _ here).1, by omega⟩
  · refine Traced.meets_pure ⟨?_, fun other same => ?_⟩
    · intro offset here
      simp at here
    · rw [← Option.some.inj same]
      decide

/-! ### Spans of a field -/

/-- At most `spent` bits after an offset inside. -/
def Within (inside : ℤ → Prop) (spent after : ℤ) : Prop :=
  ∃ start, inside start ∧ start ≤ after ∧ after ≤ start + spent

theorem within_zero {offset : ℤ} (here : inside offset) : Within inside 0 offset :=
  ⟨offset, here, le_rfl, by omega⟩

theorem StaticAt.within {spent total : ℤ} (at_ : StaticAt (Within inside spent) cursor)
    (more : spent ≤ total) : StaticAt (Within inside total) cursor :=
  at_.mono fun _ ⟨start, here, above, below⟩ => ⟨start, here, above, by omega⟩

theorem meets_advancedWithin {spent total : ℤ} (at_ : StaticAt (Within inside spent) cursor)
    (room : Room inside total) (spentNonneg : 0 ≤ spent) (nonneg : 0 ≤ bits)
    (fits : spent + bits ≤ total) :
    SizesMeet (advancedBy cursor bits) (StaticAt (Within inside (spent + bits))) := by
  have below := room.below
  have here : Room (Within inside spent) bits := by
    refine ⟨nonneg, by omega, fun offset ⟨start, inside_, above, near⟩ => ?_⟩
    have start := room.offset _ inside_
    omega
  refine (meets_advancedBy at_ here).mono fun next after => ?_
  exact after.mono fun offset ⟨start, inside_, above, near⟩ =>
    ⟨start, inside_, by omega, by omega⟩

/-! ### Nested composites -/

/-- The section a step's composite stands for; a single width is its length. -/
structure StepNested (index : AliasIndex) (step : FieldStep) (ref : SemanticTypeRef)
    (nested : SemanticSection) : Prop where
  nestedAs : NestedAs index step.type ref nested
  fixed : ∀ bits, step.compositeFixedBits = some bits →
    bits = nested.maxBitLength ∧ bits % 8 = 0

variable {index : AliasIndex} {step : FieldStep} {ref : SemanticTypeRef}
  {nested : SemanticSection} {spent total : ℤ}

theorem meets_buildNested (stepNested : StepNested index step ref nested)
    (at_ : StaticAt (Within inside spent) cursor) (room : Room inside total)
    (spentNonneg : 0 ≤ spent)
    (fits : spent + (headerBits nested + nested.maxBitLength) ≤ total) :
    SizesMeet (buildNested writing step cursor) (StaticAt (Within inside total)) := by
  have payload := stepNested.nestedAs.nonneg
  rw [buildNested, stepNested.nestedAs.sealing]
  rw [headerBits] at fits
  split
  · rename_i isSealed
    rw [if_pos isSealed] at fits
    rw [buildSealedNested]
    split
    · rename_i bits isFixed
      obtain ⟨same, _⟩ := stepNested.fixed bits isFixed
      refine (meets_advancedWithin at_ room spentNonneg (by omega) (by omega)).mono
        fun next after => ?_
      exact after.within (by omega)
    · exact Traced.meets_pure (at_.residueOnly _)
  · rename_i delimited
    rw [if_neg delimited] at fits
    rw [buildDelimitedNested]
    refine (meets_advancedWithin at_ room spentNonneg (show (0 : ℤ) ≤ 32 by omega) (by omega)).bind
      fun header after => ?_
    split
    · rename_i fixedBits isFixed
      obtain ⟨same, whole⟩ := stepNested.fixed fixedBits isFixed
      have below := room.below
      have limit := int64Max_eq
      have bytes : fixedBits.tdiv 8 * 8 = fixedBits := by
        rw [Int.tdiv_eq_ediv_of_nonneg (by omega)]
        omega
      refine (meets_times (by omega) (by omega)).bind fun bits sameBits => ?_
      rw [sameBits, bytes]
      refine (meets_advancedWithin after room (by omega) (by omega) (by omega)).mono
        fun next last => ?_
      exact last.within (by omega)
    · exact Traced.meets_pure (after.residueOnly _)

theorem meets_buildCompositeStep (stepNested : StepNested index step ref nested)
    (at_ : StaticAt (Within inside spent) cursor) (room : Room inside total)
    (spentNonneg : 0 ≤ spent)
    (fits : spent + (headerBits nested + nested.maxBitLength) ≤ total) :
    SizesMeet (buildCompositeStep writing step cursor) (StaticAt (Within inside total)) := by
  have payload := stepNested.nestedAs.nonneg
  have header : 0 ≤ headerBits nested := by
    rw [headerBits]
    split <;> decide
  rw [buildCompositeStep]
  split
  · have width : 0 ≤ step.compositeFixedBits.getD 0 ∧
        step.compositeFixedBits.getD 0 ≤ nested.maxBitLength := by
      cases isFixed : step.compositeFixedBits with
      | none => exact ⟨le_rfl, payload⟩
      | some bits =>
          obtain ⟨same, _⟩ := stepNested.fixed bits isFixed
          rw [Option.getD_some]
          omega
    rw [buildViewStep]
    refine (meets_advancedWithin at_ room spentNonneg width.1 (by omega)).mono
      fun next after => ?_
    exact after.within (by omega)
  · exact meets_buildNested writing stepNested at_ room spentNonneg fits

/-! ### Elements -/

theorem meets_advancedByRun {count : Option ℤ} {elementBits : ℤ}
    (at_ : StaticAt (Within inside spent) cursor) (room : Room inside total)
    (spentNonneg : 0 ≤ spent)
    (fits : ∀ elements, count = some elements →
      0 ≤ elements * elementBits ∧ spent + elements * elementBits ≤ total) :
    SizesMeet (advancedByRun cursor count elementBits) (StaticAt (Within inside total)) := by
  unfold advancedByRun
  split
  · rename_i elements
    obtain ⟨nonneg, below⟩ := fits elements rfl
    have limit := room.below.trans lastExtent_le
    refine (meets_times nonneg (by omega)).bind fun bits same => ?_
    rw [same]
    refine (meets_advancedWithin at_ room spentNonneg nonneg below).mono fun next after => ?_
    exact after.within below
  · refine Traced.meets_pure ⟨nofun, fun residue same => ?_⟩
    dsimp only at same
    split at same
    · exact at_.residue residue same
    · cases same

/-- What the builders take for granted of a field's size. -/
structure StepSizes (index : AliasIndex) (step : FieldStep) : Prop where
  own : Spans step.type (elementBits step.type)
  nested : step.isComposite = true → ∃ ref nested, StepNested index step ref nested
  supported : step.supported = true

/-- Elements after `spent` bits of a field of `total`. -/
def ElementsFit (step : FieldStep) (spent total : ℤ) : Prop :=
  ∀ bits, Spans step.type bits → spent + elementCount step.type * bits ≤ total

theorem declaredCount_le {bits : ℤ} (spans : Spans step.type bits) (isArray : step.isArray = true)
    {elements : ℤ} (declared : step.declaredCount = some elements) :
    elementCount step.type = elements := by
  rw [FieldStep.declaredCount] at declared
  split at declared
  · cases declared
  · rw [← Option.some.inj declared]
    exact spans.capacity (of_decide_eq_true isArray)

theorem element_fits (stepNested : StepNested index step ref nested) (spentNonneg : 0 ≤ spent)
    (elements : ElementsFit step spent total) : headerBits nested + nested.maxBitLength ≤ total := by
  have spans := stepNested.nestedAs.spans
  have all := elements _ spans
  have one := le_mul_of_one_le_left spans.nonneg spans.counted
  omega

theorem meets_buildCompositeElementLoop (stepNested : StepNested index step ref nested)
    (isArray : step.isArray = true) (at_ : StaticAt (Within inside spent) cursor)
    (room : Room inside total) (spentNonneg : 0 ≤ spent)
    (elements : ElementsFit step spent total) :
    SizesMeet (buildCompositeElementLoop writing step cursor)
      (StaticAt (Within inside total)) := by
  have one := element_fits stepNested spentNonneg elements
  have spans := stepNested.nestedAs.spans
  have nowhere : Room (fun _ => False) total := ⟨room.nonneg, room.below, nofun⟩
  rw [buildCompositeElementLoop]
  split
  · rename_i fixedBits isFixed _
    obtain ⟨same, _⟩ := stepNested.fixed fixedBits isFixed
    have header : fixedBits + (if step.type.compositeSealed = true then 0 else 32) =
        headerBits nested + nested.maxBitLength := by
      rw [headerBits, stepNested.nestedAs.sealing, same, add_comm]
    have nonneg := spans.nonneg
    have limit := room.below.trans lastExtent_le
    refine (meets_plus (by omega) (by omega)).bind fun elementBits sameBits => ?_
    refine (meets_buildCompositeStep writing stepNested (staticAt_unknown _) nowhere le_rfl
      (by omega)).bind fun _ _ => ?_
    refine meets_advancedByRun at_ room spentNonneg fun count declared => ?_
    have counted := declaredCount_le spans isArray declared
    have all := elements _ spans
    have positive := spans.total_nonneg
    rw [sameBits, header, ← counted]
    exact ⟨positive, all⟩
  · refine (meets_buildNested writing stepNested (staticAt_unknown _) nowhere le_rfl
      (by omega)).bind fun _ _ => ?_
    exact Traced.meets_pure (at_.residueOnly _)

theorem meets_buildArrayElements (sizes : StepSizes index step) (isArray : step.isArray = true)
    (at_ : StaticAt (Within inside spent) cursor) (room : Room inside total)
    (spentNonneg : 0 ≤ spent) (elements : ElementsFit step spent total) :
    SizesMeet (buildArrayElements writing step cursor) (StaticAt (Within inside total)) := by
  have all := elements _ sizes.own
  have counted (count : ℤ) (declared : step.declaredCount = some count) :
      0 ≤ count * elementBits step.type ∧ spent + count * elementBits step.type ≤ total := by
    have nonneg := sizes.own.total_nonneg
    rw [← declaredCount_le sizes.own isArray declared]
    exact ⟨nonneg, all⟩
  rw [buildArrayElements]
  split
  · rename_i isComposite
    obtain ⟨ref, nested, stepNested⟩ := sizes.nested isComposite
    exact meets_buildCompositeElementLoop writing stepNested isArray at_ room spentNonneg elements
  · rename_i scalar
    split
    · rename_i bitpacked
      have width : elementBits step.type = 1 := by
        have supported := sizes.supported
        rw [FieldStep.supported, if_neg scalar] at supported
        rw [FieldStep.isBitpacked, Bool.and_eq_true] at bitpacked
        have isBool := of_decide_eq_true bitpacked.2
        have isOne := (of_decide_eq_true supported).resolve_left (not_not.mpr isBool)
        rw [elementBits, isOne]
        rfl
      rw [buildBitpackedArray]
      split
      · rename_i count declared
        have fits := counted count declared
        rw [width, mul_one] at fits
        refine (meets_advancedWithin at_ room spentNonneg fits.1 fits.2).mono fun next after => ?_
        exact after.within fits.2
      · exact Traced.meets_pure (staticAt_unknown _)
    · exact meets_advancedByRun at_ room spentNonneg counted

/-! ### Fields -/

/-- **A field's body, from any offset before it: every size is exact, and the offset after it
lies within the field.** -/
theorem meets_buildField (sizes : StepSizes index step) (at_ : StaticAt inside cursor)
    (room : Room inside total)
    (reach : ∀ need, step.type.bitLengthSet.Reaches need → need ≤ total) :
    SizesMeet (buildField writing step cursor) (StaticAt (Within inside total)) := by
  have start : StaticAt (Within inside 0) cursor := at_.mono fun _ here => within_zero here
  have unprefixed : ElementsFit step 0 total := fun bits spans => by
    rw [zero_add]
    exact reach _ spans.elements
  rw [buildField]
  split
  · rename_i isArray
    rw [buildArray]
    split
    · rename_i isVariable
      obtain ⟨prefixNonneg, own⟩ := sizes.own.prefixed isVariable
      have ownNonneg := sizes.own.total_nonneg
      have below := reach _ own
      refine (meets_advancedWithin start room le_rfl prefixNonneg (by omega)).bind
        fun afterPrefix after => ?_
      refine meets_buildArrayElements writing sizes isArray after room (by omega)
        fun bits spans => ?_
      rw [zero_add]
      exact reach _ (spans.prefixed isVariable).2
    · exact meets_buildArrayElements writing sizes isArray start room le_rfl unprefixed
  · split
    · rename_i isComposite
      obtain ⟨ref, nested, stepNested⟩ := sizes.nested isComposite
      have one := element_fits stepNested le_rfl unprefixed
      exact meets_buildCompositeStep writing stepNested start room le_rfl (by omega)
    · have nonneg := sizes.own.nonneg
      have all := unprefixed _ sizes.own
      have one := le_mul_of_one_le_left nonneg sizes.own.counted
      refine (meets_advancedWithin start room le_rfl nonneg (by omega)).mono fun next after => ?_
      exact after.within (by omega)

section Fields

variable {carried : TypeKey → Bool} {field : SemanticField} {before : LengthSet}

theorem nestedSection_of_nested (nestedAs : NestedAs index field.resolvedType ref nested)
    {other : SemanticSection}
    (found : nestedSection carried index field.resolvedType = some other) : other = nested := by
  rw [nestedSection, nestedAs.reference, Option.bind_some] at found
  split at found
  · rw [nestedAs.found] at found
    exact (Option.some.inj found).symm
  · cases found

/-- A single width of a nested plan is the length of the section the plan is for. -/
theorem stepNested_of_nestedAs (nestedAs : NestedAs index field.resolvedType ref nested) :
    StepNested index (fieldStep carried index field) ref nested := by
  refine ⟨nestedAs, fun bits isFixed => ?_⟩
  obtain ⟨other, found, width⟩ := Option.bind_eq_some_iff.mp isFixed
  cases nestedSection_of_nested nestedAs found
  have nonneg := nestedAs.nonneg
  have ordered := nestedAs.ordered
  have longest : max (nonNegative nested.maxBitLength) (nonNegative nested.minBitLength) =
      nested.maxBitLength := by
    rw [nonNegative, nonNegative]
    omega
  dsimp only at width
  rw [longest] at width
  split at width
  · rename_i single
    cases width
    refine ⟨rfl, ?_⟩
    rw [← Int.tmod_eq_emod_of_nonneg nonneg]
    exact single.2.2
  · cases width

theorem stepSizes_of_fieldSizes (sizes : FieldSizes index field)
    (supported : (fieldStep carried index field).supported = true) :
    StepSizes index (fieldStep carried index field) := by
  refine ⟨sizes.own, fun isComposite => ?_, supported⟩
  obtain ⟨ref, nested, nestedAs⟩ := sizes.nested isComposite
  exact ⟨ref, nested, stepNested_of_nestedAs nestedAs⟩

theorem buildSteps_append (first second : List LoweredStep) (cursor : StaticCursor) :
    buildSteps writing (first ++ second) cursor =
      buildSteps writing first cursor >>= buildSteps writing second := by
  induction first generalizing cursor with
  | nil => rw [List.nil_append, buildSteps, pure_bind]
  | cons step rest ih =>
      rw [List.cons_append, buildSteps, buildSteps, bind_assoc]
      exact congrArg _ (funext ih)

def FieldStart (before : LengthSet) (field : SemanticField) (start : ℤ) : Prop :=
  ∃ offset, Offset before offset ∧ start = roundUp offset field.resolvedType.alignmentBits

theorem room_of_bounded (sizes : FieldSizes index field)
    (bounded : ByteBounded (placeField before field)) :
    field.resolvedType.bitLengthSet.Fits ∧
      Room (FieldStart before field) field.resolvedType.bitLengthSet.max := by
  have aligned := sizes.alignment
  have fits : field.resolvedType.bitLengthSet.Fits := by
    intro length member
    have placed := reaches_placeField aligned before.reaches_zero (LengthSet.reaches_of_mem member)
    have start := le_roundUp (show 0 < field.resolvedType.alignmentBits by omega) 0
    have below := (bounded _ placed).trans lastExtent_le
    omega
  have placed {offset : ℤ} (reached : before.Reaches offset) :
      roundUp offset field.resolvedType.alignmentBits + field.resolvedType.bitLengthSet.max ≤
        lastExtent :=
    bounded _ (reaches_placeField aligned reached fits.reaches_max)
  have nonneg := LengthSet.max_nonneg field.resolvedType.bitLengthSet
  have start (offset : ℤ) :=
    le_roundUp (show 0 < field.resolvedType.alignmentBits by omega) offset
  refine ⟨fits, nonneg, ?_, fun here ⟨offset, at_, same⟩ => ?_⟩
  · have first := placed before.reaches_zero
    have zero := start 0
    omega
  · have here := placed at_.reached
    have above := start offset
    have offsetNonneg := at_.nonneg
    omega

theorem loweredBits_eq (type : SemanticFieldType) : loweredBits type = type.bitLengthSet.max := by
  have nonneg := LengthSet.max_nonneg type.bitLengthSet
  have ordered := LengthSet.min_le_max type.bitLengthSet
  rw [loweredBits, nonNegative, nonNegative]
  omega

/-- The steps of one field, from an offset within the lengths before it. -/
theorem meets_fieldSteps (sizes : FieldSizes index field)
    (supported : field.isPadding = false → (fieldStep carried index field).supported = true)
    (bounded : ByteBounded (placeField before field)) (at_ : StaticAt (Offset before) cursor) :
    SizesMeet (buildSteps writing (fieldSteps carried index field) cursor)
      (StaticAt (Offset (placeField before field))) := by
  have aligned := sizes.alignment
  obtain ⟨fits, room⟩ := room_of_bounded sizes bounded
  have within (offset : ℤ) (here : Offset before offset) : 0 ≤ offset ∧ offset ≤ lastExtent := by
    have placed := reaches_placeField aligned here.reached (LengthSet.reaches_zero _)
    have start := le_roundUp (show 0 < field.resolvedType.alignmentBits by omega) offset
    have below := bounded _ placed
    exact ⟨here.nonneg, by omega⟩
  have started : SizesMeet
      (buildSteps writing (if field.resolvedType.alignmentBits ≤ 1 then []
        else [.align field.resolvedType.alignmentBits]) cursor)
      (StaticAt (FieldStart before field)) := by
    split
    · have one : field.resolvedType.alignmentBits = 1 := by omega
      refine Traced.meets_pure (at_.mono fun offset here => ⟨offset, here, ?_⟩)
      rw [one, roundUp, Int.emod_one, add_zero]
    · have eight : field.resolvedType.alignmentBits = 8 := by omega
      rw [buildSteps, buildStep]
      refine (meets_buildAlignment writing at_ within).bind fun next after => ?_
      refine Traced.meets_pure (after.mono fun offset rounded => ?_)
      obtain ⟨start, here, same⟩ := rounded
      exact ⟨start, here, by rw [eight, same]⟩
  have placed {after : StaticCursor}
      (ended : StaticAt (Within (FieldStart before field)
        field.resolvedType.bitLengthSet.max) after) :
      StaticAt (Offset (placeField before field)) after := by
    refine ended.mono fun offset stepped => ?_
    obtain ⟨here, ⟨start, startAt, same⟩, above, below⟩ := stepped
    have reached := reaches_placeField aligned startAt.reached fits.reaches_max
    have startNonneg := (room.offset here ⟨start, startAt, same⟩).1
    exact ⟨by omega, reached.mono (by omega)⟩
  rw [fieldSteps, buildSteps_append]
  refine started.bind fun start atStart => ?_
  have atStart0 : StaticAt (Within (FieldStart before field) 0) start :=
    atStart.mono fun _ here => within_zero here
  split
  · rw [loweredBits_eq]
    split
    · rename_i empty
      exact Traced.meets_pure (placed (atStart0.within (by omega)))
    · rw [buildSteps, buildStep]
      refine (meets_buildPaddingStep writing atStart room).bind fun next after => ?_
      refine Traced.meets_pure (placed (after.mono fun offset here => ?_))
      exact ⟨_, here, by have := room.nonneg; omega, by omega⟩
  · rename_i payload
    have stepSizes := stepSizes_of_fieldSizes sizes (supported (Bool.eq_false_iff.mpr payload))
    rw [buildSteps, buildStep]
    refine (meets_buildField writing stepSizes atStart room fun need reached => ?_).bind
      fun next after => Traced.meets_pure (placed after)
    exact reached.le_max fits

/-- **The steps of a section's fields compute every size exactly, and a known offset stays within
the lengths.** -/
theorem meets_sectionSteps {fields : List SemanticField}
    (sizes : ∀ field ∈ fields, FieldSizes index field)
    (supported : ∀ field ∈ fields, field.isPadding = false →
      (fieldStep carried index field).supported = true)
    (bounded : ByteBounded (fields.foldl placeField before))
    (at_ : StaticAt (Offset before) cursor) :
    SizesMeet (buildSteps writing (fields.flatMap (fieldSteps carried index)) cursor)
      (StaticAt (Offset (fields.foldl placeField before))) := by
  induction fields generalizing before cursor with
  | nil => exact Traced.meets_pure at_
  | cons field rest ih =>
      have ⟨here, first, later⟩ := first_field sizes bounded
      rw [List.flatMap_cons, buildSteps_append]
      refine (meets_fieldSteps writing first
        (supported field List.mem_cons_self) here at_).bind fun next after => ?_
      exact ih later
        (fun other member => supported other (List.mem_cons_of_mem _ member)) bounded after

end Fields

/-! ### Unions -/

/-- What the builders take for granted of an option after a tag. -/
structure OptionSizes (index : AliasIndex) (tag : ℤ) (option : FieldStep) : Prop where
  sizes : StepSizes index option
  fits : option.type.bitLengthSet.Fits
  room : Room (· = tag) option.type.bitLengthSet.max

/-- The options compute every size exactly, and a residue they agree on is one. -/
theorem meets_buildOptions {tag : ℤ} {afterTag : StaticCursor}
    (atTag : StaticAt (· = tag) afterTag) (whole : 8 ∣ tag) (range : 0 ≤ tag ∧ tag ≤ lastExtent)
    {options : List FieldStep} (sizes : ∀ option ∈ options, OptionSizes index tag option)
    {met : Option (Option ℤ)}
    (agreed : ∀ residue, met.join = some residue → 0 ≤ residue ∧ residue < 8) :
    SizesMeet (buildOptions writing afterTag options met) fun last =>
      ∀ residue, last.join = some residue → 0 ≤ residue ∧ residue < 8 := by
  induction options generalizing met with
  | nil => exact Traced.meets_pure agreed
  | cons option rest ih =>
      obtain ⟨stepSizes, fits, room⟩ := sizes option List.mem_cons_self
      have started : SizesMeet (buildOptionStart writing option afterTag)
          (StaticAt (· = tag)) := by
        rw [buildOptionStart]
        split
        · have within (offset : ℤ) (here : offset = tag) : 0 ≤ offset ∧ offset ≤ lastExtent :=
            here ▸ range
          refine (meets_buildAlignment writing atTag within).mono fun next after => ?_
          refine after.mono fun offset ⟨start, here, same⟩ => ?_
          rw [same, here]
          exact roundUp_of_dvd whole
        · exact Traced.meets_pure atTag
      rw [buildOptions]
      refine started.bind fun start atStart => ?_
      refine (meets_buildField writing stepSizes atStart room fun need reached =>
        reached.le_max fits).bind fun ended after => ?_
      refine ih (fun other member => sizes other (List.mem_cons_of_mem _ member))
        fun residue same => ?_
      cases met with
      | none => exact after.residue residue same
      | some value =>
          rw [meetResidue] at same
          split at same
          · exact agreed residue same
          · cases same

theorem meets_buildUnion {tag : ℤ} (whole : 8 ∣ tag) (range : 0 ≤ tag ∧ tag ≤ lastExtent)
    {options : List FieldStep} (sizes : ∀ option ∈ options, OptionSizes index tag option) :
    SizesMeet (buildUnion writing tag options) (StaticAt fun _ => False) := by
  have start : StaticAt (· = 0) ⟨some 0, some 0⟩ := staticAt_zero rfl
  have room : Room (· = 0) tag := ⟨range.1, range.2, fun offset here => by omega⟩
  rw [buildUnion]
  refine (meets_advancedBy start room).bind fun afterTag after => ?_
  have atTag : StaticAt (· = tag) afterTag := after.mono fun offset here => by omega
  have unmet (residue : ℤ) (impossible : (none : Option (Option ℤ)).join = some residue) :
      0 ≤ residue ∧ residue < 8 := by cases impossible
  refine (meets_buildOptions writing atTag whole range sizes unmet).bind fun met agreed => ?_
  exact Traced.meets_pure ⟨nofun, agreed⟩

section Sections

variable {given : Answers} {scope : Scope} {sec : SemanticSection} {carried : TypeKey → Bool}

theorem optionSizes_of_analysed (sound : SoundIndex given scope index) (fits : SectionsFit index)
    (analysed : AnalysedSection given scope sec) (own : sec.offsetAtEnd.Fits)
    (isUnion : sec.isUnion = true) (supported : supportedSection carried index sec = true) :
    (8 ∣ planTagBits sec ∧ 0 ≤ planTagBits sec ∧ planTagBits sec ≤ lastExtent) ∧
      ∀ option ∈ unionOptions carried index sec, OptionSizes index (planTagBits sec) option := by
  obtain ⟨layouts, sets, two, offsetAtEnd, tags⟩ := analysed.facts.unionOffset isUnion
  have count : layouts.length = sec.fields.length := by
    have lengths := congrArg List.length sets
    rwa [List.length_map, List.length_map] at lengths
  have tagRange := unionTagBitsOf_range sec.fields.length
  have limit : (2 : ℤ) ^ 62 ≤ lastExtent := by decide
  have tag : planTagBits sec = unionTagBitsOf sec.fields.length := by
    obtain ⟨first, isFirst⟩ : ∃ first, sec.fields.head? = some first := by
      cases listed : sec.fields with
      | nil =>
          rw [listed, List.length_nil] at count
          omega
      | cons first rest => exact ⟨first, rfl⟩
    rw [planTagBits, isFirst, Option.map_some, Option.getD_some,
      tags first (List.mem_of_mem_head? isFirst), nonNegative]
    omega
  refine ⟨?_, fun option member => ?_⟩
  · rw [tag]
    exact ⟨eight_dvd_unionTagBitsOf _, by omega, by omega⟩
  · obtain ⟨field, listed, rfl⟩ := List.mem_map.mp member
    have isOption := (List.mem_filter.mp listed).1
    have fieldSizes := fieldSizes_of_sound sound fits analysed isOption
    have bodies := List.all_eq_true.mp supported field listed
    have setIn : field.resolvedType.bitLengthSet ∈ layouts.map TypeLayout.bls := by
      rw [sets]
      exact List.mem_map_of_mem isOption
    rw [offsetAtEnd] at own
    have bounded := byteBounded_unionOption setIn own
    have tagReached : (LengthSet.ofValue (unionTagBitsOf layouts.length)).Reaches
        (planTagBits sec) := by
      rw [count, tag]
      exact LengthSet.reaches_ofValue (by omega) (by have := lastExtent_le; omega)
    have optionFits : field.resolvedType.bitLengthSet.Fits := by
      intro length memberOf
      have reached := tagReached.add (LengthSet.reaches_of_mem memberOf)
      have below := (bounded _ reached).trans lastExtent_le
      omega
    have total := bounded _ (tagReached.add optionFits.reaches_max)
    have nonneg := LengthSet.max_nonneg field.resolvedType.bitLengthSet
    exact ⟨stepSizes_of_fieldSizes fieldSizes bodies, optionFits, nonneg,
      by dsimp only [fieldStep]; omega, fun offset here => by dsimp only [fieldStep]; omega⟩

/-- The fields of a section leave a known offset within a byte of 64 bits. -/
theorem meets_buildSection (sound : SoundIndex given scope index) (fits : SectionsFit index)
    (analysed : AnalysedSection given scope sec) (own : sec.offsetAtEnd.Fits)
    (supported : supportedSection carried index sec = true) :
    SizesMeet (buildSection writing carried index sec)
      (StaticAt fun offset => 0 ≤ offset ∧ offset ≤ lastExtent) := by
  rw [buildSection]
  split
  · rename_i isUnion
    obtain ⟨⟨whole, range⟩, options⟩ :=
      optionSizes_of_analysed sound fits analysed own isUnion supported
    refine (meets_buildUnion writing whole range options).mono fun last after => ?_
    exact after.mono fun _ impossible => impossible.elim
  · rename_i isUnion
    have bounded := byteBounded_fields analysed own (Bool.eq_false_iff.mpr isUnion)
    have bodies (field : SemanticField) (member : field ∈ sec.fields)
        (payload : field.isPadding = false) :
        (fieldStep carried index field).supported = true :=
      List.all_eq_true.mp supported field (List.mem_filter.mpr ⟨member, by rw [payload]; rfl⟩)
    have start : StaticAt (Offset (.ofValue 0)) ⟨some 0, some 0⟩ :=
      staticAt_zero offset_zero
    refine (meets_sectionSteps writing
      (fun field member => fieldSizes_of_sound sound fits analysed member) bodies bounded
      start).mono fun last after => ?_
    exact after.mono fun offset here => ⟨here.nonneg, bounded offset here.reached⟩

theorem meets_buildBody (sound : SoundIndex given scope index) (fits : SectionsFit index)
    (analysed : AnalysedSection given scope sec) (own : sec.offsetAtEnd.Fits)
    (supported : supportedSection carried index sec = true) :
    SizesMeet (buildBody writing carried index sec) fun _ => True := by
  rw [buildBody]
  refine (meets_buildSection writing sound fits analysed own supported).bind
    fun last after => ?_
  split
  · exact (meets_buildAlignment _ after fun offset here => here).mono fun _ _ => trivial
  · exact Traced.meets_pure trivial

end Sections

end Directions

section Accessors

variable {index : AliasIndex} {carried : TypeKey → Bool} {step : FieldStep}
  {field : SemanticField} {before : LengthSet}

theorem accessorCount {bits : ℤ} (spans : Spans step.type bits) :
    (if step.isArray then step.type.arrayCapacity else 1) = elementCount step.type := by
  split
  · rename_i isArray
    exact (spans.capacity (of_decide_eq_true isArray)).symm
  · rename_i single
    have none : step.type.arrayKind = .none := by
      by_contra isArray
      exact single (decide_eq_true isArray)
    rw [elementCount, if_pos none]

/-- The offsets of the fields before a run of steps add up where the run's do. -/
theorem meets_fixedFieldOffsets_field (sizes : FieldSizes index field)
    (bounded : ByteBounded (placeField before field)) {rest : List LoweredStep}
    (later : ∀ offset, Offset (placeField before field) offset →
      SizesMeet (fixedFieldOffsets rest offset) fun _ => True)
    {offset : ℤ} (at_ : Offset before offset) :
    SizesMeet (fixedFieldOffsets (fieldSteps carried index field ++ rest) offset)
      fun _ => True := by
  obtain ⟨fits, room⟩ := room_of_bounded sizes bounded
  have limit := int64Max_eq
  have largest := room.nonneg
  have placed (start : ℤ) (here : FieldStart before field start) {bits : ℤ} (nonneg : 0 ≤ bits)
      (reached : field.resolvedType.bitLengthSet.Reaches bits) :
      start + bits ≤ lastExtent ∧ Offset (placeField before field) (start + bits) := by
    obtain ⟨startNonneg, below⟩ := room.offset start here
    have within := reached.le_max fits
    obtain ⟨prior, priorAt, same⟩ := here
    have after := reaches_placeField sizes.alignment priorAt.reached reached
    rw [← same] at after
    exact ⟨by omega, by omega, after⟩
  have stepped (start : ℤ) (here : FieldStart before field start) :
      SizesMeet (fixedFieldOffsets ((if field.isPadding then
        (if loweredBits field.resolvedType = 0 then []
          else [.padding (loweredBits field.resolvedType)])
        else [.field (fieldStep carried index field)]) ++ rest) start) fun _ => True := by
    have startNonneg := (room.offset start here).1
    split
    · rw [loweredBits_eq]
      obtain ⟨below, after⟩ := placed start here largest fits.reaches_max
      split
      · rename_i empty
        rw [empty, add_zero] at after
        exact later start after
      · rw [List.singleton_append, fixedFieldOffsets]
        refine (meets_plus after.nonneg (by omega)).bind fun moved same => ?_
        rw [same]
        exact later _ after
    · rw [List.singleton_append, fixedFieldOffsets]
      split
      · exact Traced.meets_pure trivial
      · have counted {bits : ℤ} (spans : Spans field.resolvedType bits) :
            SizesMeet (do
              let total ← times bits (if (fieldStep carried index field).isArray then
                (fieldStep carried index field).type.arrayCapacity else 1)
              let moved ← plus start total
              let later ← fixedFieldOffsets rest moved
              pure (later.map ((fieldStep carried index field, start) :: ·))) fun _ => True := by
          have count := @accessorCount (fieldStep carried index field) bits spans
          have nonneg := spans.total_nonneg
          obtain ⟨below, after⟩ := placed start here nonneg spans.elements
          rw [count, show (fieldStep carried index field).type = field.resolvedType from rfl]
          rw [mul_comm] at nonneg below after
          refine (meets_times nonneg (by omega)).bind fun total sameTotal => ?_
          rw [sameTotal]
          refine (meets_plus after.nonneg (by omega)).bind fun moved same => ?_
          rw [same]
          exact (later _ after).bind fun _ _ => Traced.meets_pure trivial
        split
        · exact Traced.meets_pure trivial
        · rename_i composite fixedBits unblocked
          cases isComposite : (fieldStep carried index field).isComposite with
          | false => exact counted sizes.own
          | true =>
              obtain ⟨ref, nested, nestedAs⟩ := sizes.nested isComposite
              cases isFixed : (fieldStep carried index field).compositeFixedBits with
              | none => exact (unblocked isComposite isFixed).elim
              | some bits =>
                  obtain ⟨same, _⟩ := (stepNested_of_nestedAs nestedAs).fixed bits isFixed
                  rw [if_pos rfl, Option.getD_some, same]
                  exact counted nestedAs.payload
  rw [fieldSteps, List.append_assoc]
  split
  · have one : field.resolvedType.alignmentBits = 1 := by
      have := sizes.alignment
      omega
    refine stepped offset ⟨offset, at_, ?_⟩
    rw [one, roundUp, Int.emod_one, add_zero]
  · have eight : field.resolvedType.alignmentBits = 8 := by
      have := sizes.alignment
      omega
    have start : FieldStart before field (roundUp offset 8) := ⟨offset, at_, by rw [eight]⟩
    have below := (room.offset _ start).2
    have offsetNonneg := at_.nonneg
    have above := le_roundUp (show (0 : ℤ) < 8 by decide) offset
    have rounded : (offset + 7).tdiv 8 * 8 = roundUp offset 8 := by
      rw [Int.tdiv_eq_ediv_of_nonneg (by omega), roundUp]
      omega
    rw [List.singleton_append, fixedFieldOffsets]
    refine (meets_plus (by omega) (by omega)).bind fun raised same => ?_
    rw [same]
    refine (meets_times (by omega) (by omega)).bind fun aligned sameAligned => ?_
    rw [sameAligned, rounded]
    exact stepped _ start

theorem meets_fixedFieldOffsets {fields : List SemanticField}
    (sizes : ∀ field ∈ fields, FieldSizes index field)
    (bounded : ByteBounded (fields.foldl placeField before)) {offset : ℤ}
    (at_ : Offset before offset) :
    SizesMeet (fixedFieldOffsets (fields.flatMap (fieldSteps carried index)) offset)
      fun _ => True := by
  induction fields generalizing before offset with
  | nil => exact Traced.meets_pure trivial
  | cons field rest ih =>
      have ⟨here, first, later⟩ := first_field sizes bounded
      rw [List.flatMap_cons]
      exact meets_fixedFieldOffsets_field first here
        (fun _ after => ih later bounded after) at_

/-- A fielded step's options multiply out exactly. -/
def WholeSizes (step : LoweredStep) : Prop :=
  ∀ option, step = .field option →
    Spans option.type (elementBits option.type) ∧ option.type.bitLengthSet.Fits

theorem meets_optionsWhole {flat : SemanticFieldType → Bool} {steps : List LoweredStep}
    (sizes : ∀ step ∈ steps, WholeSizes step) (any : Bool) :
    SizesMeet (optionsWhole flat steps any) fun _ => True := by
  induction steps generalizing any with
  | nil => exact Traced.meets_pure trivial
  | cons step rest ih =>
      have later (any : Bool) : SizesMeet (optionsWhole flat rest any) fun _ => True :=
        ih (fun other member => sizes other (List.mem_cons_of_mem _ member)) any
      cases step with
      | align bits => exact later any
      | padding bits => exact Traced.meets_pure trivial
      | field option =>
          obtain ⟨spans, fits⟩ := sizes _ List.mem_cons_self option rfl
          have nonneg := spans.total_nonneg
          have below := spans.elements.le fits
          rw [optionsWhole]
          split
          · exact Traced.meets_pure trivial
          · split
            · split
              · exact later true
              · exact Traced.meets_pure trivial
            · split
              · exact Traced.meets_pure trivial
              · rw [accessorCount spans]
                rw [mul_comm] at nonneg below
                refine (meets_times nonneg below).bind fun bits _ => ?_
                split
                · exact Traced.meets_pure trivial
                · exact later true

theorem mem_unionOptions {sec : SemanticSection} {option : FieldStep}
    (member : LoweredStep.field option ∈ sectionSteps carried index sec) :
    option ∈ unionOptions carried index sec := by
  obtain ⟨field, listed, ofField⟩ := List.mem_flatMap.mp member
  rw [fieldSteps] at ofField
  rcases List.mem_append.mp ofField with align | ofField
  · split at align
    · cases align
    · cases List.mem_singleton.mp align
  · split at ofField
    · split at ofField
      · cases ofField
      · cases List.mem_singleton.mp ofField
    · rename_i payload
      cases List.mem_singleton.mp ofField
      exact List.mem_map_of_mem (List.mem_filter.mpr ⟨listed, by simpa using payload⟩)

variable {given : Answers} {scope : Scope} {sec : SemanticSection}

theorem meets_unionIsFlat (sound : SoundIndex given scope index) (fits : SectionsFit index)
    (analysed : AnalysedSection given scope sec) (own : sec.offsetAtEnd.Fits)
    (isUnion : sec.isUnion = true) (supported : supportedSection carried index sec = true) :
    SizesMeet (unionIsFlat carried index sec) fun _ => True := by
  obtain ⟨_, options⟩ := optionSizes_of_analysed sound fits analysed own isUnion supported
  have whole : ∀ step ∈ sectionSteps carried index sec, WholeSizes step := by
    rintro step member option rfl
    have sizes := options option (mem_unionOptions member)
    exact ⟨sizes.sizes.own, sizes.fits⟩
  rw [unionIsFlat]
  split
  · exact Traced.meets_pure trivial
  · exact (meets_optionsWhole whole false).bind fun _ _ => Traced.meets_pure trivial

theorem accessorOperations_exact (sound : SoundIndex given scope index)
    (fits : SectionsFit index) (analysed : AnalysedSection given scope sec)
    (own : sec.offsetAtEnd.Fits) (supported : supportedSection carried index sec = true) :
    ∀ operation ∈ accessorOperations carried index sec, operation.IsExact := by
  rw [accessorOperations]
  split
  · rename_i flat
    rw [Bool.and_eq_true, Bool.not_eq_true'] at flat
    have bounded := byteBounded_fields analysed own flat.2
    exact (meets_fixedFieldOffsets
      (fun field member => fieldSizes_of_sound sound fits analysed member) bounded
      offset_zero).good
  · split
    · rename_i isUnion
      exact (meets_unionIsFlat sound fits analysed own isUnion supported).good
    · exact nofun

/-- **The sizes of a section's bodies and accessors are exact where the lengths of the sections
fit.** -/
theorem bodyOperations_exact (sound : SoundIndex given scope index) (fits : SectionsFit index)
    (analysed : AnalysedSection given scope sec) (own : sec.offsetAtEnd.Fits) :
    ∀ operation ∈ bodyOperations carried index sec, operation.IsExact := by
  intro operation member
  rw [bodyOperations] at member
  split at member
  · rename_i supported
    rcases List.mem_append.mp member with bodies | accessors
    · rcases List.mem_append.mp bodies with writer | reader
      · exact (meets_buildBody true sound fits analysed own supported).good operation writer
      · exact (meets_buildBody false sound fits analysed own supported).good operation reader
    · exact accessorOperations_exact sound fits analysed own supported operation accessors
  · cases member

end Accessors

end LlvmDsdl.Transforms.Static
