import LlvmDsdl.Transforms.Deserialize

/-!
Contract: what the deserialise bodies keep, builder by builder.

Owns: the law a condition on states and error codes must obey under the
operations of a reader, and the proof that every reader, from a scalar to a whole
plan, then keeps the condition and all that is known of its offset.

Nothing is asked of the plan: a length that was accepted is within the capacity,
whatever the capacity is.
-/

namespace LlvmDsdl.Transforms

open LlvmDsdl.Runtime

variable {κ ω : Type}

/-- The byte a reader reached and what is left from there make up the buffer. -/
theorem bufferPosition_total (facts : Facts) (capacityBytes bitOffset : Word) :
    (bufferPosition facts capacityBytes bitOffset false).byteOffset.toNat +
      (bufferPosition facts capacityBytes bitOffset false).remaining.toNat =
        capacityBytes.toNat := by
  unfold bufferPosition
  split
  · simp
  · have bounded : (if bitOffset / 8 < capacityBytes then bitOffset / 8 else capacityBytes) ≤
        capacityBytes := by
      split
      · next below => exact BitVec.le_of_lt below
      · exact BitVec.le_refl _
    have small := BitVec.le_def.mp bounded
    simp only [Bool.false_eq_true, if_false]
    rw [BitVec.toNat_sub_of_le bounded]
    omega

theorem validateUnionTag_matches {optionIndexes : List ℕ} {tag : Word}
    (accepted : validateUnionTag optionIndexes tag = 0) :
    ∃ index ∈ optionIndexes, tag = BitVec.ofNat 64 index := by
  have code : -errorRepresentationBadUnionTag ≠ 0 := by decide
  unfold validateUnionTag at accepted
  split at accepted
  · next found => simpa using found
  · exact absurd accepted code

theorem validateDelimiterHeader_within {header remaining : Word}
    (accepted : validateDelimiterHeader header remaining = 0) :
    header.toNat ≤ remaining.toNat := by
  have code : -errorRepresentationBadDelimiterHeader ≠ 0 := by decide
  unfold validateDelimiterHeader at accepted
  simp only at accepted
  split at accepted
  · exact absurd accepted code
  · next held =>
      have notAbove : ¬remaining < header := by simpa using (by simpa using held : _ ∧ _).2
      exact BitVec.le_def.mp (BitVec.not_lt.mp notAbove)

theorem validateArrayLength_within {target : Target} {capacity : ℕ} {length : Word}
    (accepted : validateArrayLength target capacity length = 0) : length.toNat ≤ capacity := by
  have code : -errorRepresentationBadArrayLength ≠ 0 := by decide
  unfold validateArrayLength at accepted
  simp only at accepted
  split at accepted
  · exact absurd accepted code
  · next held =>
      simp only [Bool.or_eq_true, BitVec.slt, decide_eq_true_eq, not_or, not_lt] at held
      have nonnegative : 0 ≤ length.toInt := held.1.1
      have below := held.1.2
      have reduced : (BitVec.ofNat 64 capacity).toNat ≤ capacity := by
        rw [BitVec.toNat_ofNat]
        exact Nat.mod_le _ _
      rw [BitVec.toInt_eq_toNat_cond] at nonnegative below
      rw [BitVec.toInt_eq_toNat_cond (BitVec.ofNat 64 capacity)] at below
      split at nonnegative <;> split_ifs at below <;> omega

/-- What a condition on codes and states must allow for the operations of a reader to keep it. -/
structure ReadLaw (callees : ReadCallees κ ω) (source : Source) (code : ErrorCode → Prop)
    (good : ReaderState ω → Prop) : Prop where
  success : code 0
  badTag : code (-errorRepresentationBadUnionTag)
  badLength : code (-errorRepresentationBadArrayLength)
  badHeader : code (-errorRepresentationBadDelimiterHeader)
  touched : ∀ offset width state, good state → good (state.note (source.touched offset width))
  kept : ∀ byteOffset held state, byteOffset + held ≤ source.capacityBytes.toNat → good state →
    good (state.note ⟨8 * (source.buffer + byteOffset), 8 * held⟩)
  member : ∀ name value state, good state → good (state.storeMember name value)
  tag : ∀ value state, good state → good (state.setUnionTag value)
  view : ∀ name index bytes state, good state → good (state.storeView name index bytes)
  length : ∀ name capacity (value : Word) state, value.toNat ≤ capacity → good state →
    good (state.setArrayLength name capacity value)
  element : ∀ name capacity (count : Word) index value state, index < count.toNat →
    count.toNat ≤ capacity → good state →
    good (state.storeElement name capacity count index value)
  entered : ∀ name capacity (count : Word) index state, index < count.toNat →
    count.toNat ≤ capacity → good state → good (state.logElement name capacity count index)
  called : ∀ name index nested (byteOffset size : Word) state,
    byteOffset.toNat + size.toNat ≤ source.capacityBytes.toNat → good state →
    code (callNested callees source name index nested byteOffset size state).1.1 ∧
      good (callNested callees source name index nested byteOffset size state).2

/-- The count of an array's elements, within the capacity its stores are made under. -/
def Count.Within (count : Count) (capacity : ℕ) : Prop := count.value.toNat ≤ capacity

theorem Count.declared_within (capacity : ℕ) : (Count.declared capacity).Within capacity := by
  unfold Count.Within Count.value
  rw [BitVec.toNat_ofNat]
  exact Nat.mod_le _ _

section Walk

variable {target : Target} {callees : ReadCallees κ ω} {source : Source}
variable {code : ErrorCode → Prop} {good : ReaderState ω → Prop}
variable (law : ReadLaw callees source code good)

include law

theorem sound_scalarRead (field : Field κ) (type : ScalarType) :
    Keeps code good (buildScalarRead source field type) :=
  (sound_effect fun _ _ held => law.member _ _ _ (law.touched _ _ _ held)).andThen
    (sound_advancedBy type.bitLength)

theorem sound_scalarElementReads (name : String) (type : ScalarType) {capacity : ℕ} {count : Count}
    (within : count.Within capacity) :
    Keeps code good (buildScalarElementReads source name type capacity count) := by
  refine Triple.andThen (sound_effect fun start state held => ?_) (sound_advancedByRun count _)
  exact countedLoop_keeps held fun index state below kept =>
    law.element _ _ _ _ _ _ below within (law.touched _ _ _ kept)

theorem sound_bitpackedRead (name : String) {capacity : ℕ} {count : Count}
    (within : count.Within capacity) :
    Keeps code good (buildBitpackedRead source name capacity count) := by
  refine Triple.andThen (sound_effect fun start state held => ?_) (sound_advancedByRun count 1)
  exact countedLoop_keeps (law.touched _ _ _ held) fun index state below kept =>
    law.element _ _ _ _ _ _ below within kept

theorem sound_sealedNestedRead (name : String) (index : ℕ) (composite : Composite κ) :
    Triple (Healthy code good) (buildSealedNestedRead callees source name index composite)
      (Sound code good) := by
  intro facts cursor state healthy
  have position := bufferPosition_total facts source.capacityBytes cursor.bitOffset
  have answered := law.called name index composite.nested _ _ state (le_of_eq position) healthy.good
  have hold := healthy.hold healthy.healthy
  unfold buildSealedNestedRead
  simp only
  split
  · next width isFixed =>
      refine sound_advancedBy width facts _ _ ⟨answered.1, answered.2, fun _ => hold⟩
  · exact ⟨answered.1, answered.2, fun _ => hold.wholeBytes _⟩

theorem sound_delimitedBody (name : String) (index : ℕ) (composite : Composite κ)
    (declared : Word) :
    Triple (Healthy code good) (buildDelimitedBody callees source name index composite declared)
      (Sound code good) := by
  intro facts
  -- after the check, a run without an error has a header within what is left
  let checked : Assertion (ReaderState ω) := fun known cursor state =>
    Sound code good known cursor state ∧ (cursor.error = 0 → declared.toNat ≤
      (bufferPosition facts source.capacityBytes cursor.bitOffset false).remaining.toNat)
  have check : Triple (Healthy code good)
      (answering fun cursor state =>
        (foldError cursor.error (validateDelimiterHeader declared
          (bufferPosition facts source.capacityBytes cursor.bitOffset false).remaining), state))
      checked := by
    intro known cursor state healthy
    have folded : ∀ next, foldError cursor.error next = next := fun _ => if_pos healthy.healthy
    have answered := @sound_answering _ code good
      (fun cursor state => (foldError cursor.error (validateDelimiterHeader declared
        (bufferPosition facts source.capacityBytes cursor.bitOffset false).remaining), state)) (by
      intro cursor state unfailed held
      have same : ∀ next, foldError cursor.error next = next := fun _ => if_pos unfailed
      simp only [same]
      refine ⟨?_, held⟩
      rcases validateDelimiterHeader_code declared
        (bufferPosition facts source.capacityBytes cursor.bitOffset false).remaining with
        accepted | refused
      · exact accepted ▸ law.success
      · exact refused ▸ law.badHeader) known cursor state healthy
    exact ⟨answered, fun accepted => validateDelimiterHeader_within ((folded _).symm.trans accepted)⟩
  have called : Triple (fun known cursor state => checked known cursor state ∧ cursor.error = 0)
      (answering fun cursor state =>
        let answer := callNested callees source name index composite.nested
          (bufferPosition facts source.capacityBytes cursor.bitOffset false).byteOffset declared state
        (answer.1.1, answer.2)) (Sound code good) := by
    intro _ cursor state met
    have room := bufferPosition_total facts source.capacityBytes cursor.bitOffset
    have header := met.1.2 met.2
    have answered := law.called name index composite.nested
      (bufferPosition facts source.capacityBytes cursor.bitOffset false).byteOffset declared state
      (by omega) met.1.1.good
    exact ⟨answered.1, answered.2, fun _ => met.1.1.hold met.2⟩
  have moved : Triple (Sound code good) (guarded (movedBy (declared * 8) Facts.staticResidue))
      (Sound code good) :=
    sound_guarded fun facts cursor state healthy =>
      ⟨healthy.code, healthy.good, fun _ => (healthy.hold healthy.healthy).wholeBytes declared⟩
  exact (check.andThen (Triple.guarded (fun _ _ _ met => met.1) (called.andThen moved))) facts

theorem sound_delimitedNestedRead (name : String) (index : ℕ) (composite : Composite κ) :
    Triple (Healthy code good) (buildDelimitedNestedRead callees source name index composite)
      (Sound code good) := by
  refine Triple.given (fun _ _ => rfl) fun declared => ?_
  exact (healthy_effect fun _ _ held => law.touched _ _ _ held).andThen
    ((healthy_advancedBy _).andThen (sound_delimitedBody law name index composite declared))

theorem sound_nestedRead (name : String) (index : ℕ) (composite : Composite κ) :
    Triple (Healthy code good) (buildNestedRead callees source name index composite)
      (Sound code good) := by
  unfold buildNestedRead
  split
  · exact sound_sealedNestedRead law name index composite
  · exact sound_delimitedNestedRead law name index composite

theorem sound_viewRead (name : String) (index : ℕ) (composite : Composite κ) :
    Triple (Healthy code good) (buildViewRead callees source name index composite)
      (Sound code good) := by
  intro facts cursor state healthy
  refine Triple.andThen (sound_effect fun offset state held => ?_) (sound_advancedBy _) facts cursor
    state healthy.toSound
  have room := bufferPosition_total facts source.capacityBytes offset
  refine law.view _ _ _ _ (law.kept _ _ _ ?_ held)
  split
  · exact le_of_eq room
  · next long =>
      have short := BitVec.le_def.mp (BitVec.not_lt.mp long)
      omega

theorem sound_compositeRead (name : String) (composite : Composite κ) :
    Keeps code good (buildCompositeRead callees source name composite) := by
  apply sound_guarded
  split
  · exact sound_viewRead law name 0 composite
  · exact sound_nestedRead law name 0 composite

theorem sound_logged {name : String} {capacity index : ℕ} {count : Word}
    {body : Builder (ReaderState ω)} (below : index < count.toNat) (within : count.toNat ≤ capacity)
    (inner : Triple (Healthy code good) body (Sound code good)) :
    Triple (Healthy code good) (logged name capacity count index body) (Sound code good) :=
  (healthy_effect fun _ _ held => law.entered _ _ _ _ _ below within held).andThen inner

theorem readFixedElement_keeps {name : String} {capacity elementBits index : ℕ} {count : Word}
    {composite : Composite κ} (start : Word) (below : index < count.toNat)
    (within : count.toNat ≤ capacity) {carried : ErrorCode × ReaderState ω}
    (kept : code carried.1 ∧ good carried.2) :
    let next := readFixedElement callees source name capacity count composite elementBits start
      index carried
    code next.1 ∧ good next.2 := by
  unfold readFixedElement errorGuarded
  split
  · next healthy =>
      have body : Triple (Healthy code good) (logged name capacity count index
          (if composite.heldAsView then buildViewRead callees source name index composite
          else buildNestedRead callees source name index composite)) (Sound code good) := by
        apply sound_logged law below within
        split
        · exact sound_viewRead law name index composite
        · exact sound_nestedRead law name index composite
      have reached := body ⟨none, none⟩
        ⟨start + BitVec.ofNat 64 index * BitVec.ofNat 64 elementBits, carried.1⟩ carried.2
        ⟨⟨kept.1, kept.2, fun _ => Facts.hold_unknown _⟩, healthy⟩
      exact ⟨reached.code, reached.good⟩
  · exact kept

omit law in
/-- A nested read leaves the offset on the byte it was on, and is the same run whatever is known of
that. -/
theorem nestedRead_unknown (name : String) (index : ℕ) (composite : Composite κ)
    {residue : Option ℕ} (small : ∀ value, residue = some value → value < 8) :
    (buildNestedRead callees source name index composite ⟨none, residue⟩).facts = ⟨none, residue⟩ ∧
      (buildNestedRead callees source name index composite ⟨none, residue⟩).run =
        (buildNestedRead callees source name index composite ⟨none, none⟩).run := by
  have kept : ∀ width, width % 8 = 0 → residue.map (fun value => (value + width) % 8) = residue := by
    intro width whole
    cases residue with
    | none => rfl
    | some value =>
        have below := small value rfl
        have same : (value + width) % 8 = value := by omega
        rw [Option.map_some, same]
  unfold buildNestedRead
  split
  · unfold buildSealedNestedRead
    cases isFixed : (callees.bounds composite.nested).fixedBits with
    | none => exact ⟨rfl, rfl⟩
    | some width =>
        have whole : width % 8 = 0 := by
          unfold Bounds.fixedBits at isFixed
          split_ifs at isFixed with fixed
          rw [← Option.some.inj isFixed]
          exact fixed.2
        refine ⟨?_, rfl⟩
        simp only [andThen, answering, advancedBy, Facts.advance, Option.map_none, kept width whole]
  · refine ⟨?_, rfl⟩
    simp only [buildDelimitedNestedRead, given, andThen, effect, advancedBy, Facts.advance,
      Option.map_none, delimiterHeaderBits, kept 32 rfl, buildDelimitedBody, answering, guarded,
      movedBy]

theorem readSteppedElement_keeps {name : String} {capacity index : ℕ} {count : Word}
    {composite : Composite κ} (below : index < count.toNat) (within : count.toNat ≤ capacity)
    {residue : Option ℕ} (small : ∀ value, residue = some value → value < 8)
    {carried : Cursor × ReaderState ω} (kept : Sound code good ⟨none, residue⟩ carried.1 carried.2) :
    let next := readSteppedElement callees source name capacity count composite index carried
    Sound code good ⟨none, residue⟩ next.1 next.2 := by
  have ⟨facts_eq, run_eq⟩ := @nestedRead_unknown κ ω callees source name index composite _ small
  have entered : Triple (Healthy code good) (logged name capacity count index
      (buildNestedRead callees source name index composite)) (Sound code good) :=
    sound_logged law below within (sound_nestedRead law name index composite)
  have reached := sound_guarded entered ⟨none, residue⟩ carried.1 carried.2 kept
  simp only [guarded, logged, andThen, effect, facts_eq, run_eq] at reached
  have unknown := (@nestedRead_unknown κ ω callees source name index composite none
    fun _ impossible => absurd impossible (Option.some_ne_none _).symm).1
  simp only [readSteppedElement, guarded, logged, andThen, effect, unknown]
  exact reached

theorem sound_compositeElementReads (name : String) {capacity : ℕ} {count : Count}
    (composite : Composite κ) (within : count.Within capacity) :
    Triple (Healthy code good)
      (buildCompositeElementReads callees source name capacity count composite)
      (Sound code good) := by
  unfold buildCompositeElementReads
  split
  · next elementBits isFixed isSealed =>
      refine Triple.andThen (sound_answering fun cursor state unfailed held => ?_)
        (sound_advancedByRun count elementBits)
      exact @countedLoop_keeps _ (fun carried : ErrorCode × ReaderState ω =>
          code carried.1 ∧ good carried.2) _ _ _
        ⟨unfailed ▸ law.success, held⟩ fun index carried below kept =>
          readFixedElement_keeps law _ below within kept
  · intro facts cursor state healthy
    have hold := healthy.hold healthy.healthy
    have small : ∀ value, facts.staticResidue = some value → value < 8 := by
      intro value isKnown
      rw [← hold.residue value isKnown]
      exact Nat.mod_lt _ (by decide)
    have start : Sound code good ⟨none, facts.staticResidue⟩ cursor state :=
      ⟨healthy.code, healthy.good, fun _ => ⟨fun _ impossible => (nomatch impossible), hold.residue⟩⟩
    exact @countedLoop_keeps _ (fun carried : Cursor × ReaderState ω =>
        Sound code good ⟨none, facts.staticResidue⟩ carried.1 carried.2) _ _ _
      start fun index carried below kept => readSteppedElement_keeps law below within small kept

theorem sound_arrayElementReads (name : String) (element : Element κ) {capacity : ℕ}
    {count : Count} (within : count.Within capacity) :
    Triple (Healthy code good)
      (buildArrayElementReads callees source name element capacity count) (Sound code good) := by
  unfold buildArrayElementReads
  split
  · exact sound_compositeElementReads law name _ within
  · have weaken : ∀ facts cursor state, Healthy code good facts cursor state →
        Sound code good facts cursor state := fun _ _ _ healthy => healthy.toSound
    split
    · exact (sound_bitpackedRead law name within).mono weaken fun _ _ _ sound => sound
    · exact (sound_scalarElementReads law name _ within).mono weaken fun _ _ _ sound => sound

/-- A length is stored, and elements are read, only after it was accepted. -/
theorem sound_countedReads (name : String) (element : Element κ) (capacity : ℕ) (count : Word) :
    Triple (Healthy code good)
      (buildCountedReads target callees source name element capacity count) (Sound code good) := by
  by_cases accepted : validateArrayLength target capacity count = 0
  · have within := validateArrayLength_within accepted
    refine Triple.andThen (sound_answering fun cursor state _ held => ?_) (sound_guarded ?_)
    · exact ⟨accepted ▸ law.success, held⟩
    · exact (healthy_effect fun _ _ held => law.length _ _ _ _ within held).andThen
        (sound_arrayElementReads law name element within)
  · have refused := (validateArrayLength_code target capacity count).resolve_left accepted
    intro facts cursor state healthy
    have failed : validateArrayLength target capacity count ≠ 0 := accepted
    simp only [buildCountedReads, andThen, answering, guarded, if_neg failed]
    split <;> exact ⟨refused ▸ law.badLength, healthy.good, fun still => absurd still failed⟩

omit law in
theorem facts_arrayElementReads (name : String) (element : Element κ) (capacity : ℕ)
    (count : Word) (facts : Facts) :
    (buildArrayElementReads callees source name element capacity (.held count) facts).facts =
      (buildArrayElementReads callees source name element capacity (.held 0) facts).facts := by
  cases element with
  | composite composite =>
      simp only [buildArrayElementReads, buildCompositeElementReads]
      cases (callees.bounds composite.nested).fixedBits <;> cases composite.compositeSealed <;> rfl
  | scalar type =>
      simp only [buildArrayElementReads]
      split <;> rfl

theorem sound_arrayRead (field : Field κ) :
    Keeps code good (buildArrayRead target callees source field) := by
  apply sound_guarded
  cases kind : field.arrayKind with
  | none => exact fun _ _ _ healthy => healthy.toSound
  | fixed capacity =>
      have inner := sound_guarded (sound_arrayElementReads law field.name field.element
        (Count.declared_within capacity))
      exact inner.mono (fun _ _ _ healthy => healthy.toSound) fun _ _ _ sound => sound
  | «variable» capacity prefixBits =>
      refine Triple.given (fun chosen facts => ?_) fun count => ?_
      · simp only [andThen, effect, advancedBy, buildCountedReads, answering, guarded]
        exact facts_arrayElementReads _ _ _ _ _
      · exact (healthy_effect fun _ _ held => law.touched _ _ _ held).andThen
          ((healthy_advancedBy _).andThen (sound_countedReads law _ _ capacity count))

theorem sound_fieldRead (field : Field κ) :
    Keeps code good (buildFieldRead target callees source field) := by
  unfold buildFieldRead
  split
  · exact sound_scalarRead law field _
  · exact sound_compositeRead law field.name _
  · exact sound_arrayRead law field

omit law in
theorem alignedOffset_mod (offset : Word) : (alignedOffset offset).toNat % 8 = 0 := by
  have eight : (8 : Word).toNat = 8 := rfl
  rw [alignedOffset, BitVec.toNat_mul, eight]
  omega

omit law in
theorem sound_alignmentRead : Keeps code good buildAlignmentRead := by
  intro facts cursor state sound
  unfold buildAlignmentRead
  split
  · next pad _ =>
      split
      · exact sound
      · exact sound_advancedBy pad facts cursor state sound
  · refine ⟨sound.code, sound.good, fun _ => ⟨fun _ impossible => (nomatch impossible), ?_⟩⟩
    rintro residue ⟨⟩
    exact alignedOffset_mod _

theorem sound_stepRead (step : PlanStep κ) :
    Keeps code good (buildStepRead target callees source step) := by
  cases step with
  | align bits => exact sound_alignmentRead
  | padding bits => exact sound_advancedBy bits
  | field field => exact sound_fieldRead law field

theorem sound_optionRead (option : Field κ) :
    Keeps code good (buildOptionRead target callees source option) := by
  unfold buildOptionRead
  split
  · exact sound_alignmentRead.andThen (sound_fieldRead law option)
  · exact sound_fieldRead law option

theorem sound_unionRead (plan : Plan κ) :
    Triple (Healthy code good) (buildUnionRead target callees source plan) (Sound code good) := by
  unfold buildUnionRead
  refine Triple.given (fun _ _ => rfl) fun tag => ?_
  refine Triple.andThen (healthy_effect fun _ _ held => law.touched _ _ _ held) ?_
  intro facts cursor state healthy
  have tagged : Triple (Healthy code good) (andThen
      (effect fun _ (state : ReaderState ω) => state.setUnionTag tag)
      (advancedBy plan.unionTagBits)) (Healthy code good) :=
    (healthy_effect fun _ _ held => law.tag _ _ held).andThen (healthy_advancedBy _)
  have stored := sound_guarded
    (tagged.mono (fun _ _ _ met => met) fun _ _ _ reached => reached.toSound)
  have options : ∀ option ∈ (unionOptionsOf plan.steps).map fun option =>
      (option.unionOptionIndex, buildOptionRead target callees source option),
      Keeps code good option.2 := by
    intro entry member
    obtain ⟨option, _, rfl⟩ := List.mem_map.mp member
    exact sound_optionRead law option
  let verdict := validateUnionTag ((unionOptionsOf plan.steps).map Field.unionOptionIndex) tag
  have folded : foldError cursor.error verdict = verdict := if_pos healthy.healthy
  have judged : code verdict := by
    rcases validateUnionTag_code ((unionOptionsOf plan.steps).map Field.unionOptionIndex) tag with
      accepted | refused
    · exact (congrArg code accepted).mpr law.success
    · exact (congrArg code refused).mpr law.badTag
  have checked : Sound code good facts ⟨cursor.bitOffset, foldError cursor.error verdict⟩ state :=
    ⟨folded.symm ▸ judged, healthy.good, fun _ => healthy.hold healthy.healthy⟩
  refine sound_unionChain options _ _ _ (stored _ _ _ checked) fun unfailed => ?_
  by_cases accepted : verdict = 0
  · have ⟨index, member, same⟩ := validateUnionTag_matches accepted
    have ⟨option, isOption, isIndex⟩ := List.mem_map.mp member
    exact ⟨_, List.mem_map.mpr ⟨option, isOption, rfl⟩, same.trans (congrArg _ isIndex.symm)⟩
  · have failed : foldError cursor.error verdict ≠ 0 := folded.symm ▸ accepted
    exact absurd ((guarded_of_failed failed).symm.trans unfailed) failed

theorem sound_planRead (plan : Plan κ) :
    Triple (Healthy code good) (buildPlanRead target callees source plan) (Sound code good) := by
  unfold buildPlanRead
  split
  · exact sound_unionRead law plan
  · refine Triple.mono (triple_inOrder fun body member => ?_)
      (fun _ _ _ healthy => healthy.toSound) fun _ _ _ sound => sound
    obtain ⟨step, _, rfl⟩ := List.mem_map.mp member
    exact sound_stepRead law step

end Walk

end LlvmDsdl.Transforms
