import LlvmDsdl.Transforms.DeserializeRules

/-!
Contract: what a deserialise body does with bytes nobody vouches for.

Owns: the codes it may return, the bounds of what it reads, stores and reports for
plans nested to any depth, what follows the first error, and the agreement of
every cursor with what its builder knows of the offset.
-/

namespace LlvmDsdl.Transforms

open LlvmDsdl.Runtime

variable {κ ω : Type}

/-- While nothing has failed, what a builder knows of the offset is so. -/
def CursorKnown (facts : Facts) (cursor : Cursor) (_ : ReaderState ω) : Prop :=
  cursor.error = 0 → facts.Hold cursor.bitOffset

/-- A point of `CursorKnown` at which nothing has failed. -/
def CursorHealthy (facts : Facts) (cursor : Cursor) (state : ReaderState ω) : Prop :=
  CursorKnown facts cursor state ∧ cursor.error = 0

private theorem anyLaw (callees : ReadCallees κ ω) (source : Source) :
    ReadLaw callees source (fun _ => True) (fun _ : ReaderState ω => True) := by
  constructor <;> simp

private theorem known_of_sound {body : Builder (ReaderState ω)}
    (sound : Keeps (fun _ => True) (fun _ => True) body) : Triple CursorKnown body CursorKnown := fun facts cursor state known =>
  (sound facts cursor state ⟨trivial, trivial, known⟩).hold

private theorem known_of_healthy {body : Builder (ReaderState ω)}
    (sound : Triple (Healthy (fun _ => True) (fun _ => True)) body
      (Sound (fun _ => True) (fun _ => True))) :
    Triple CursorHealthy body CursorKnown := fun facts cursor state known =>
  (sound facts cursor state ⟨⟨trivial, trivial, known.1⟩, known.2⟩).hold

/-- What a builder knows of the offset holds on every run that has not failed: after any steps of a
structure, at any option of a union and behind it, inside and behind the elements of an array,
a nested composite and a delimiter header. -/
theorem staticCursor_agrees (target : Target) (callees : ReadCallees κ ω) (source : Source) :
    (∀ steps : List (PlanStep κ),
      Triple CursorKnown (inOrder (steps.map (buildStepRead target callees source))) CursorKnown) ∧
    (∀ option : Field κ,
      Triple CursorKnown (buildOptionRead target callees source option) CursorKnown) ∧
    (∀ (name : String) (element : Element κ) (capacity : ℕ) (count : Count),
      count.Within capacity → Triple CursorHealthy
        (buildArrayElementReads callees source name element capacity count) CursorKnown) ∧
    (∀ (name : String) (index : ℕ) (composite : Composite κ) (declared : Word),
      Triple CursorHealthy (buildNestedRead callees source name index composite) CursorKnown ∧
      Triple CursorHealthy (buildDelimitedBody callees source name index composite declared)
        CursorKnown ∧
      Triple CursorHealthy (buildViewRead callees source name index composite) CursorKnown) ∧
    ∀ (plan : Plan κ) (object : Record ω),
      let body := buildPlanRead target callees source plan ⟨some 0, some 0⟩
      let reached := (plan.readRun target callees source object).1
      reached.error = 0 → body.facts.Hold reached.bitOffset := by
  have law := anyLaw callees source
  refine ⟨fun steps => ?_, fun option => known_of_sound (sound_optionRead law option),
    fun name element capacity count within =>
      known_of_healthy (sound_arrayElementReads law name element within),
    fun name index composite declared => ⟨?_, ?_, ?_⟩, fun plan object => ?_⟩
  · refine triple_inOrder fun body member => ?_
    obtain ⟨step, _, rfl⟩ := List.mem_map.mp member
    exact known_of_sound (sound_stepRead law step)
  · exact known_of_healthy (sound_nestedRead law name index composite)
  · exact known_of_healthy (sound_delimitedBody law name index composite declared)
  · exact known_of_healthy (sound_viewRead law name index composite)
  · have start : CursorHealthy (ω := ω) ⟨some 0, some 0⟩ ⟨0, 0⟩ ⟨object, [], []⟩ :=
      ⟨fun _ => ⟨fun _ known => by cases known; rfl, fun _ known => by cases known; rfl⟩, rfl⟩
    exact known_of_healthy (sound_planRead law plan) _ _ _ start

def deserializeCodes : List ErrorCode :=
  [0, -errorInvalidArgument, -errorRepresentationBadUnionTag, -errorRepresentationBadArrayLength,
    -errorRepresentationBadDelimiterHeader]

/-- What a body made of its call stays within what the call gave it. -/
structure ReadResult.Confined (call : ReadCall ω) (result : ReadResult ω) : Prop where
  code : result.error ∈ deserializeCodes
  size : result.size.toNat ≤ call.size.toNat
  unreported : result.error ≠ 0 → result.size = call.size
  reads : ∀ range ∈ result.reads,
    range.Within (8 * call.buffer) (8 * (call.buffer + call.size.toNat))
  stores : ∀ store ∈ result.stores, store.Safe

/-- So far a run touched the buffer alone, and stored what its counts allow. -/
structure ReaderState.Confined (source : Source) (state : ReaderState ω) : Prop where
  reads : ∀ range ∈ state.reads,
    range.Within (8 * source.buffer) (8 * (source.buffer + source.capacityBytes.toNat))
  stores : ∀ store ∈ state.stores, store.Safe

namespace ReaderState.Confined

variable {source : Source} {state : ReaderState ω}

theorem note {range : BitRange} (confined : state.Confined source)
    (within : range.Within (8 * source.buffer)
      (8 * (source.buffer + source.capacityBytes.toNat))) : (state.note range).Confined source where
  reads other member := by
    rcases List.mem_append.mp member with before | here
    · exact confined.reads other before
    · rw [List.mem_singleton.mp here]
      exact within
  stores := confined.stores

theorem store {entry : ArrayStore} (confined : state.Confined source) (object : Record ω)
    (safe : entry.Safe) :
    ReaderState.Confined source ⟨object, state.reads, state.stores ++ [entry]⟩ where
  reads := confined.reads
  stores other member := by
    rcases List.mem_append.mp member with before | here
    · exact confined.stores other before
    · rw [List.mem_singleton.mp here]
      exact safe

end ReaderState.Confined

theorem touched_within (source : Source) (counted : 8 * source.capacityBytes.toNat < 2 ^ 64)
    (offset width : Word) : (source.touched offset width).Within (8 * source.buffer)
      (8 * (source.buffer + source.capacityBytes.toNat)) := by
  unfold BitRange.Within Source.touched
  rcases Nat.eq_zero_or_pos (saturateFragmentBits source.capacityBytes offset width).toNat with
    none | some
  · exact Or.inl none
  · have inside := saturateFragmentBits_within offset width counted some
    exact Or.inr ⟨Nat.le_add_right _ _, by dsimp only; omega⟩

theorem confinedLaw {callees : ReadCallees κ ω} {source : Source}
    (counted : 8 * source.capacityBytes.toNat < 2 ^ 64)
    (confined : ∀ nested memory call, 8 * call.size.toNat < 2 ^ 64 →
      (callees.deserialize nested memory call).Confined call) :
    ReadLaw callees source (· ∈ deserializeCodes) (ReaderState.Confined source) where
  success := by decide
  badTag := by decide
  badLength := by decide
  badHeader := by decide
  touched offset width _ held := held.note (touched_within source counted offset width)
  kept byteOffset length _ room held :=
    held.note (Or.inr ⟨by dsimp only; omega, by dsimp only; omega⟩)
  member _ _ _ held := ⟨held.reads, held.stores⟩
  tag _ _ held := ⟨held.reads, held.stores⟩
  view _ _ _ _ held := ⟨held.reads, held.stores⟩
  length _ _ _ _ within held := held.store _ within
  element _ _ _ _ _ _ below within held := held.store _ ⟨below, within⟩
  entered _ _ _ _ _ below within held := held.store _ ⟨below, within⟩
  called name index nested byteOffset size state room held := by
    have result := confined nested source.memory
      ⟨state.object.nested name index, false, source.buffer + byteOffset.toNat, false, size, false⟩
      (show 8 * size.toNat < 2 ^ 64 by omega)
    refine ⟨result.code, ⟨fun range member => ?_, fun store member => ?_⟩⟩
    · rcases List.mem_append.mp member with before | inside
      · exact held.reads range before
      · rcases result.reads range inside with empty | within
        · exact Or.inl empty
        · have above := within.1
          have below := within.2
          dsimp only at above below
          exact Or.inr ⟨by omega, by omega⟩
    · rcases List.mem_append.mp member with before | inside
      · exact held.stores store before
      · exact result.stores store inside

theorem consumedBytes_le (capacityBytes bitOffset : Word) :
    (consumedBytes capacityBytes bitOffset).toNat ≤ capacityBytes.toNat := by
  have eight : (8 : Word).toNat = 8 := rfl
  have bits : (capacityBytes * 8).toNat ≤ 8 * capacityBytes.toNat := by
    rw [BitVec.toNat_mul, eight, Nat.mul_comm]
    exact Nat.mod_le _ _
  unfold consumedBytes
  simp only
  split
  · next below =>
      have less := BitVec.lt_def.mp below
      rw [BitVec.toNat_udiv, eight]
      omega
  · rw [BitVec.toNat_udiv, eight]
    omega

theorem Plan.confined_deserialize (target : Target) {callees : ReadCallees κ ω}
    (confined : ∀ nested memory call, 8 * call.size.toNat < 2 ^ 64 →
      (callees.deserialize nested memory call).Confined call)
    (plan : Plan κ) (memory : Bytes) (call : ReadCall (Record ω))
    (counted : 8 * call.size.toNat < 2 ^ 64) :
    (plan.deserialize target callees memory call).Confined call := by
  have start : Healthy (· ∈ deserializeCodes)
      (ReaderState.Confined ⟨memory, call.buffer, call.size⟩) ⟨some 0, some 0⟩ ⟨0, 0⟩
      ⟨call.object, [], []⟩ :=
    ⟨⟨by decide, ⟨by simp, by simp⟩,
      fun _ => ⟨fun _ known => by cases known; rfl, fun _ known => by cases known; rfl⟩⟩, rfl⟩
  have law := @confinedLaw _ _ callees ⟨memory, call.buffer, call.size⟩ counted confined
  have reached : Sound (· ∈ deserializeCodes) _ _ _ _ :=
    @sound_planRead _ _ target _ _ _ _ law plan _ _ _ start
  unfold Plan.deserialize
  split
  · have invalid : -errorInvalidArgument ∈ deserializeCodes := by decide
    exact ⟨invalid, le_rfl, fun _ => rfl, by simp, by simp⟩
  · simp only
    split
    · next healthy =>
        have success : (0 : ErrorCode) ∈ deserializeCodes := by decide
        exact ⟨success, consumedBytes_le _ _, fun failed => absurd rfl failed,
          reached.good.reads, reached.good.stores⟩
    · exact ⟨reached.code, le_rfl, fun _ => rfl, reached.good.reads, reached.good.stores⟩

/-- Whatever the bytes, a body of plans nested to any depth reads its buffer alone, stores no count
above a capacity and no element at or past its count, reports no more bytes than it was given and
none when it fails, and returns a code of its own. -/
theorem deserialize_confined (target : Target) {depth : ℕ} (plan : NestedPlan depth)
    (memory : Bytes) (call : ReadCall (Storage depth)) (counted : 8 * call.size.toNat < 2 ^ 64) :
    (plan.deserialize target memory call).Confined call := by
  induction depth generalizing memory with
  | zero => exact nomatch plan
  | succ depth ih =>
      exact Plan.confined_deserialize target
        (fun nested memory call counted => ih nested memory call counted) plan
        memory call counted

/-- A body that keeps an earlier error and stores nothing in an array behind it. -/
def Stalled (body : Builder (ReaderState ω)) : Prop :=
  ∀ facts cursor state, cursor.error ≠ 0 →
    ((body facts).run cursor state).1.error = cursor.error ∧
      ((body facts).run cursor state).2.stores = state.stores

theorem stalled_guarded (body : Builder (ReaderState ω)) : Stalled (guarded body) := by
  intro facts cursor state failed
  simp only [guarded, if_neg failed]
  split <;> exact ⟨rfl, rfl⟩

theorem stalled_inOrder {bodies : List (Builder (ReaderState ω))}
    (each : ∀ body ∈ bodies, Stalled body) : Stalled (inOrder bodies) := by
  induction bodies with
  | nil => exact fun _ _ _ _ => ⟨rfl, rfl⟩
  | cons body rest ih =>
      intro facts cursor state failed
      have ⟨here, there⟩ := List.forall_mem_cons.mp each
      have ⟨kept, unstored⟩ := here facts cursor state failed
      have later := ih there (body facts).facts _ ((body facts).run cursor state).2
        (kept.symm ▸ failed)
      exact ⟨later.1.trans kept, later.2.trans unstored⟩

/-- A scalar is read without a guard, and goes into a member of its own; all else is guarded. -/
theorem stalled_stepRead (target : Target) (callees : ReadCallees κ ω) (source : Source)
    (step : PlanStep κ) : Stalled (buildStepRead target callees source step) := by
  cases step with
  | align bits =>
      intro facts cursor state _
      simp only [buildStepRead, buildAlignmentRead]
      cases facts.padding with
      | none => exact ⟨rfl, rfl⟩
      | some pad => by_cases none : pad = 0 <;> simp [none, nothing, advancedBy]
  | padding bits => exact fun _ _ _ _ => ⟨rfl, rfl⟩
  | field field =>
      simp only [buildStepRead, buildFieldRead]
      split
      · exact fun _ _ _ _ => ⟨rfl, rfl⟩
      · exact stalled_guarded _
      · exact stalled_guarded _

theorem inOrder_append {σ : Type} (early late : List (Builder σ)) :
    inOrder (early ++ late) = andThen (inOrder early) (inOrder late) := by
  induction early with
  | nil => rfl
  | cons body rest ih =>
      exact congrArg (andThen body) ih

theorem readRun_append (target : Target) (callees : ReadCallees κ ω) {plan : Plan κ}
    (structured : plan.isUnion = false) {early late : List (PlanStep κ)}
    (steps : plan.steps = early ++ late) (source : Source) (object : Record ω) :
    ∃ facts, plan.readRun target callees source object =
      (inOrder (late.map (buildStepRead target callees source)) facts).run
        (Plan.readRun target callees { plan with steps := early } source object).1
        (Plan.readRun target callees { plan with steps := early } source object).2 := by
  simp only [Plan.readRun, buildPlanRead, structured, Bool.false_eq_true, if_false, steps,
    List.map_append, inOrder_append]
  exact ⟨_, rfl⟩

/-- A structure whose first steps fail returns their error whatever follows them, reports no size,
and has stored in its arrays what they stored. -/
theorem firstError_returned (target : Target) (callees : ReadCallees κ ω) (plan : Plan κ)
    (structured : plan.isUnion = false) {early late : List (PlanStep κ)}
    (steps : plan.steps = early ++ late) (memory : Bytes) (call : ReadCall (Record ω))
    (failed : (Plan.deserialize target callees { plan with steps := early } memory call).error ≠ 0) :
    let first := Plan.deserialize target callees { plan with steps := early } memory call
    let whole := plan.deserialize target callees memory call
    whole.error = first.error ∧ whole.size = call.size ∧ whole.stores = first.stores := by
  have stalled : Stalled (inOrder (late.map (buildStepRead target callees
      ⟨memory, call.buffer, call.size⟩))) := stalled_inOrder fun body member => by
    have ⟨step, _, built⟩ := List.mem_map.mp member
    exact built ▸ stalled_stepRead target callees _ step
  have ⟨facts, run_eq⟩ := readRun_append target callees structured steps
    ⟨memory, call.buffer, call.size⟩ call.object
  unfold Plan.deserialize at failed ⊢
  rw [run_eq]
  generalize Plan.readRun target callees { plan with steps := early }
    ⟨memory, call.buffer, call.size⟩ call.object = first at failed ⊢
  split at failed
  · next invalid => simp only [if_pos invalid, and_self]
  · next valid =>
      simp only at failed
      split at failed
      · exact absurd rfl failed
      · next broken =>
          have kept := stalled facts first.1 first.2 broken
          simp only [if_neg valid, kept, if_neg broken, and_self]

def octetType : ScalarType := ⟨.byte, .truncated, 8, by decide⟩

/-- At most two bytes. -/
def pairPlan : NestedPlan 1 :=
  Plan.mk false 0 8 24 [.field ⟨"values", .scalar octetType, .variable 2 8, 8, 0⟩]

/-- At most two of those. -/
def pairsField : PlanStep (NestedPlan 1) :=
  .field ⟨"pairs", .composite ⟨pairPlan, true, 0, false⟩, .variable 2 8, 8, 0⟩

def pairsPlan : NestedPlan 2 :=
  Plan.mk false 0 16 64 [.field ⟨"kind", .scalar octetType, .none, 8, 0⟩, pairsField]

/-- The same with one more array of pairs behind it. -/
def twicePlan : NestedPlan 2 :=
  Plan.mk false 0 24 120 [.field ⟨"kind", .scalar octetType, .none, 8, 0⟩, pairsField, pairsField]

/-- The memory that holds these bytes, and one byte everywhere behind them. -/
def memoryOf (bytes : List Byte) (behind : Byte) : Bytes := fun address => bytes.getD address behind

def emptyStorage : (depth : ℕ) → Storage depth
  | 0 => ()
  | depth + 1 => ⟨fun _ => 0, fun _ _ => 0, fun _ => 0, 0, fun _ _ => [], fun _ _ => emptyStorage depth⟩

def sevenByteCall : ReadCall (Storage 2) where
  object := emptyStorage 2
  objectNull := false
  buffer := 0
  bufferNull := false
  size := 7
  sizeNull := false

/-- A pair of one byte and an empty one, in the first five of seven bytes. -/
theorem deserialize_confined_pairs :
    let result := pairsPlan.deserialize ⟨64⟩ (memoryOf [7, 2, 1, 9, 0] 1) sevenByteCall
    result.Confined sevenByteCall ∧ result.error = 0 ∧ result.size = 5 ∧
      result.stores = [.length "pairs" 2 2, .element "pairs" 2 2 0, .length "values" 2 1,
        .element "values" 2 1 0, .element "pairs" 2 2 1, .length "values" 2 0] :=
  ⟨deserialize_confined ⟨64⟩ pairsPlan _ sevenByteCall (by decide), by decide +kernel⟩

/-- The second pair holds a third byte: what is stored before it stays, and nothing behind it is. -/
theorem firstError_returned_pairs :
    let result := twicePlan.deserialize ⟨64⟩ (memoryOf [7, 2, 1, 9, 3] 1) sevenByteCall
    result.error ≠ 0 ∧ result.size = 7 ∧
      result.stores = [.length "pairs" 2 2, .element "pairs" 2 2 0, .length "values" 2 1,
        .element "values" 2 1 0, .element "pairs" 2 2 1] := by
  have failed : (pairsPlan.deserialize ⟨64⟩ (memoryOf [7, 2, 1, 9, 3] 1) sevenByteCall).error ≠ 0 := by
    decide +kernel
  have returned := firstError_returned ⟨64⟩ ⟨NestedPlan.bounds, NestedPlan.deserialize ⟨64⟩⟩
    twicePlan rfl (show Plan.steps twicePlan = Plan.steps pairsPlan ++ [pairsField] from rfl)
    (memoryOf [7, 2, 1, 9, 3] 1) sevenByteCall failed
  exact ⟨returned.1.trans_ne failed, returned.2.1, returned.2.2.trans (by decide +kernel)⟩

end LlvmDsdl.Transforms
