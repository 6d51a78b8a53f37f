import LlvmDsdl.Transforms.Initialize

/-!
Contract: the operations of an initialise body, and what canonicalising them may do.

Owns: the operands, operations, counted loops and null guard
`buildTypedInitializeBody` emits; their meaning, which is the fields' defaults;
and the rewrites of a canonicaliser that folds constants, drops what is unused,
folds a null test its target cannot fail and inlines a loop of one iteration.

Does not own the canonicaliser: only what its rewrites leave of such a body.
-/

namespace LlvmDsdl.Transforms.InitializeBody

open LlvmDsdl.Runtime

variable {κ ω : Type}

/-! ### Operands -/

inductive ValueType where
  | index
  | integer (bits : ℕ)
  | float (bits : ℕ)
deriving DecidableEq, Repr

/-- `mlir::TypedAttr` of a constant. A float is held by its bits. -/
structure TypedAttr where
  type : ValueType
  value : ℤ
deriving DecidableEq, Repr

/-- A value, by the operation that defines it. -/
inductive Operand where
  | constant (typed : TypedAttr)
  | indexCast (type : ValueType) (source : Operand)
  | inductionVariable
deriving DecidableEq, Repr

/-- The value inside iteration `index` of the loop around it. -/
def Operand.eval (index : ℕ) : Operand → Word
  | .constant typed => BitVec.ofInt 64 typed.value
  | .indexCast _ source => source.eval index
  | .inductionVariable => BitVec.ofNat 64 index

def constantI64 (value : ℤ) : Operand := .constant ⟨.integer 64, value⟩

def constantI8 (value : ℤ) : Operand := .constant ⟨.integer 8, value⟩

def constantIndex (value : ℤ) : Operand := .constant ⟨.index, value⟩

/-- A pointer, by the operation that takes it. -/
inductive Address where
  | member (name : String)
  | element (name : String) (index : Operand)
  | stackSlot (initial : Operand)
deriving DecidableEq, Repr

def Address.place (index : ℕ) : Address → Option (String × ℕ)
  | .member name => some (name, 0)
  | .element name position => some (name, (position.eval index).toNat)
  | .stackSlot _ => none

/-- The bytes an address is of, when they are a local's. -/
def Address.bytes (index : ℕ) : Address → Bytes
  | .stackSlot initial => fun _ => (initial.eval index).setWidth 8
  | .member _ | .element _ _ => fun _ => 0

/-! ### Operations -/

/-- The operations that set no member. -/
inductive Scaffold where
  | func
  | ret
  | ifOp
  | yield
  | constant
  | indexCast
  | orI
  | select
  | cmpI
  | isNull
  | memberAddr
  | elementAddr
  | localSlot
deriving DecidableEq, Repr

/-- The operations without a region. The `arith.cmpi` and `arith.select` that fold a nested
body's answer into the error a body carries take effect with the call. -/
inductive Operation (κ : Type) where
  | scaffold (kind : Scaffold)
  | storeMember (member : String) (value : Operand)
  | storeElement (member : String) (index value : Operand)
  | setArrayLength (member : String) (value : Operand)
  | setUnionTag (value : Operand)
  | bitRead (destination source : Address) (bufferSizeBytes offset width : Operand)
  | clearView (member : String)
  | callInitialize (callee : κ) (member : String) (target : Address)

inductive Statement (κ : Type) where
  | plain (operation : Operation κ)
  /-- An `scf.for` over `[0, upperBound)`. -/
  | loop (upperBound : Operand) (body : List (Operation κ))

/-- A body under its null test, or one whose null test has folded away. -/
inductive Body (κ : Type) where
  | guarded (before refused : List (Statement κ)) (refusal : ErrorCode)
      (filled after : List (Statement κ))
  | straight (statements : List (Statement κ))

section Meaning

variable (callees : InitializeCallees κ ω)

/-- `dsdl.bit_read` into the elements from `start` on. -/
def readElements (name : String) (start : ℕ) (source : Bytes) (size offset width : Word)
    (object : Record ω) : Record ω :=
  let output := getBits (fun _ => 0) source size offset width
  countedLoop width
    (fun index object =>
      object.storeElement name (start + index) (if bitAt output index then 1 else 0))
    object

def Operation.run (operation : Operation κ) (index : ℕ) (carried : ErrorCode × Record ω) :
    ErrorCode × Record ω :=
  match operation with
  | .scaffold _ => carried
  | .storeMember member value => (carried.1, carried.2.storeMember member (value.eval index))
  | .storeElement member position value =>
      (carried.1,
        carried.2.storeElement member (position.eval index).toNat (value.eval index))
  | .setArrayLength member value =>
      (carried.1, carried.2.setArrayLength member (value.eval index))
  | .setUnionTag value => (carried.1, carried.2.setUnionTag (value.eval index))
  | .bitRead destination source size offset width =>
      match destination.place index with
      | some place =>
          (carried.1,
            readElements place.1 place.2 (source.bytes index) (size.eval index)
              (offset.eval index) (width.eval index) carried.2)
      | none => carried
  | .clearView member => (carried.1, carried.2.clearView member)
  | .callInitialize callee _ target =>
      match target.place index with
      | some place => initializeNested callees place.1 callee place.2 carried
      | none => carried

def runOperations (body : List (Operation κ)) (index : ℕ) (carried : ErrorCode × Record ω) :
    ErrorCode × Record ω :=
  body.foldl (fun carried operation => operation.run callees index carried) carried

def Statement.run (statement : Statement κ) (carried : ErrorCode × Record ω) :
    ErrorCode × Record ω :=
  match statement with
  | .plain operation => operation.run callees 0 carried
  | .loop upperBound body =>
      countedLoop (upperBound.eval 0) (fun index => runOperations callees body index) carried

def runStatements (statements : List (Statement κ)) (carried : ErrorCode × Record ω) :
    ErrorCode × Record ω :=
  statements.foldl (fun carried statement => statement.run callees carried) carried

/-- A body on an object, and the error it answers. A straight body is only ever given one. -/
def Body.run (body : Body κ) (objectNull : Bool) (object : Record ω) : ErrorCode × Record ω :=
  match body with
  | .guarded before refused refusal filled after =>
      if objectNull then
        (refusal, (runStatements callees (before ++ refused ++ after) (0, object)).2)
      else runStatements callees (before ++ filled ++ after) (0, object)
  | .straight statements => runStatements callees statements (0, object)

end Meaning

/-! ### The builder -/

def stepValueType (type : ScalarType) : ValueType :=
  if type.category = .float then
    if type.bitLength ≤ 32 then .float 32 else .float 64
  else .integer 64

/-- `zeroOf`: both zeroes have no bit set. -/
def zeroOf (type : ValueType) : TypedAttr := ⟨type, 0⟩

/-- The constants and the casts a loop's bounds are, and the loop. -/
def countedLoopOps (count : ℤ) (body : List (Operation κ)) : List (Statement κ) :=
  [.plain (.scaffold .constant), .plain (.scaffold .constant),
    .plain (.scaffold .indexCast), .loop (.indexCast .index (constantI64 count)) body]

/-- `foldError`, whose effect the call before it has. -/
def foldErrorOps : List (Operation κ) :=
  [.scaffold .constant, .scaffold .cmpI, .scaffold .select]

def bitArrayOps (name : String) (count : ℤ) : List (Statement κ) :=
  [.plain (.scaffold .constant), .plain (.scaffold .elementAddr),
    .plain (.scaffold .constant), .plain (.scaffold .localSlot),
    .plain (.scaffold .constant), .plain (.scaffold .constant),
    .plain (.bitRead (.element name (constantI64 0)) (.stackSlot (constantI8 0))
      (constantI64 0) (constantI64 0) (constantI64 count))]

def loopIndex : Operand := .indexCast (.integer 64) .inductionVariable

def nestedElementOps (name : String) (nested : κ) : List (Operation κ) :=
  [.scaffold .indexCast, .scaffold .elementAddr,
    .callInitialize nested name (.element name loopIndex)] ++ foldErrorOps ++ [.scaffold .yield]

def scalarElementOps (name : String) (type : ScalarType) : List (Operation κ) :=
  [.scaffold .indexCast, .scaffold .constant,
    .storeElement name loopIndex (.constant (zeroOf (stepValueType type))), .scaffold .yield]

def fixedArrayOps (name : String) (element : Element κ) (capacity : ℕ) : List (Statement κ) :=
  Statement.plain (.scaffold .constant) ::
    match element with
    | .scalar type =>
        if type.category = .bool then bitArrayOps name capacity
        else countedLoopOps capacity (scalarElementOps name type)
    | .composite composite =>
        if composite.heldAsView then [.plain (.clearView name)]
        else countedLoopOps capacity (nestedElementOps name composite.nested)

/-- `buildInitializeStep`, as operations. -/
def stepOps (field : Field κ) : List (Statement κ) :=
  match field.arrayKind with
  | .variable _ _ =>
      [.plain (.scaffold .constant), .plain (.setArrayLength field.name (constantI64 0))]
  | .fixed capacity => fixedArrayOps field.name field.element capacity
  | .none =>
      match field.element with
      | .scalar type =>
          [.plain (.scaffold .constant),
            .plain (.storeMember field.name (.constant (zeroOf (stepValueType type))))]
      | .composite composite =>
          if composite.heldAsView then [.plain (.clearView field.name)]
          else
            [.plain (.scaffold .memberAddr),
              .plain (.callInitialize composite.nested field.name (.member field.name))] ++
              foldErrorOps.map .plain

def unionTagOps (isUnion : Bool) : List (Statement κ) :=
  if isUnion then [.plain (.scaffold .constant), .plain (.setUnionTag (constantI64 0))]
  else []

/-- The fields of a plan, set one after another. -/
def filledOps (plan : Plan κ) : List (Statement κ) :=
  Statement.plain (.scaffold .constant) :: unionTagOps plan.isUnion ++
    plan.initializedFields.flatMap stepOps ++ [.plain (.scaffold .yield)]

def buildTypedInitializeBody (plan : Plan κ) : Body κ :=
  .guarded [.plain (.scaffold .isNull)]
    [.plain (.scaffold .constant), .plain (.scaffold .yield)] (-errorInvalidArgument)
    (filledOps plan) [.plain (.scaffold .ret)]

section Refinement

variable (callees : InitializeCallees κ ω)

@[simp] theorem runStatements_nil (carried : ErrorCode × Record ω) :
    runStatements callees ([] : List (Statement κ)) carried = carried := rfl

@[simp] theorem runStatements_cons (statement : Statement κ) (rest : List (Statement κ))
    (carried : ErrorCode × Record ω) :
    runStatements callees (statement :: rest) carried =
      runStatements callees rest (statement.run callees carried) := rfl

@[simp] theorem runStatements_append (first second : List (Statement κ))
    (carried : ErrorCode × Record ω) :
    runStatements callees (first ++ second) carried =
      runStatements callees second (runStatements callees first carried) :=
  List.foldl_append

@[simp] theorem runOperations_cons (operation : Operation κ) (rest : List (Operation κ))
    (index : ℕ) (carried : ErrorCode × Record ω) :
    runOperations callees (operation :: rest) index carried =
      runOperations callees rest index (operation.run callees index carried) := rfl

@[simp] theorem runOperations_nil (index : ℕ) (carried : ErrorCode × Record ω) :
    runOperations callees ([] : List (Operation κ)) index carried = carried := rfl

@[simp] theorem run_scaffold (kind : Scaffold) (index : ℕ) (carried : ErrorCode × Record ω) :
    (Operation.scaffold kind : Operation κ).run callees index carried = carried := rfl

@[simp] theorem run_plain (operation : Operation κ) (carried : ErrorCode × Record ω) :
    (Statement.plain operation).run callees carried = operation.run callees 0 carried := rfl

@[simp] theorem run_loop (upperBound : Operand) (body : List (Operation κ))
    (carried : ErrorCode × Record ω) :
    (Statement.loop upperBound body).run callees carried =
      countedLoop (upperBound.eval 0) (fun index => runOperations callees body index) carried :=
  rfl

@[simp] theorem eval_constantI64 (index : ℕ) (value : ℤ) :
    (constantI64 value).eval index = BitVec.ofInt 64 value := rfl

theorem countedLoop_congr {α : Type} {count : Word} {left right : ℕ → α → α}
    (agree : ∀ index < 2 ^ 63, ∀ carried, left index carried = right index carried) (carried : α) :
    countedLoop count left carried = countedLoop count right carried := by
  apply List.foldl_ext
  intro carried index member
  have below : index < count.toInt.toNat := List.mem_range.mp member
  have narrow : count.toInt < 2 ^ 63 := BitVec.toInt_lt
  exact agree index (by omega) carried

theorem eval_loopIndex {index : ℕ} (reached : index < 2 ^ 63) :
    (loopIndex.eval index).toNat = index := by
  have narrow : index < 2 ^ 64 := by omega
  exact Nat.mod_eq_of_lt narrow

theorem runOperations_scalarElement (name : String) (type : ScalarType) {index : ℕ}
    (reached : index < 2 ^ 63) (carried : ErrorCode × Record ω) :
    runOperations callees (scalarElementOps name type : List (Operation κ)) index carried =
      (carried.1, carried.2.storeElement name index 0) := by
  simp only [scalarElementOps, runOperations_cons, runOperations_nil, Operation.run,
    eval_loopIndex reached]
  rfl

theorem runOperations_nestedElement (name : String) (nested : κ) {index : ℕ}
    (reached : index < 2 ^ 63) (carried : ErrorCode × Record ω) :
    runOperations callees (nestedElementOps name nested) index carried =
      initializeNested callees name nested index carried := by
  simp only [nestedElementOps, foldErrorOps, List.cons_append, List.nil_append,
    runOperations_cons, runOperations_nil, Operation.run, Address.place, eval_loopIndex reached]

theorem countedLoop_object (count : Word) (body : ℕ → Record ω → Record ω)
    (carried : ErrorCode × Record ω) :
    countedLoop count (fun index carried => (carried.1, body index carried.2)) carried =
      (carried.1, countedLoop count body carried.2) := by
  rw [countedLoop, countedLoop]
  induction List.range count.toInt.toNat generalizing carried with
  | nil => rfl
  | cons index rest ih => exact ih _

theorem runStatements_countedLoop (count : ℤ) (body : List (Operation κ))
    (carried : ErrorCode × Record ω) :
    runStatements callees (countedLoopOps count body) carried =
      countedLoop (BitVec.ofInt 64 count) (fun index => runOperations callees body index)
        carried := rfl

theorem runStatements_bitArray (name : String) (capacity : ℕ) (carried : ErrorCode × Record ω) :
    runStatements callees (bitArrayOps name capacity : List (Statement κ)) carried =
      (carried.1, initializeBits name (BitVec.ofNat 64 capacity) carried.2) := by
  have bytes : (Address.stackSlot (constantI8 0)).bytes 0 = fun _ => 0 := rfl
  simp only [bitArrayOps, runStatements_cons, runStatements_nil, run_plain,
    Operation.run, Address.place, bytes, eval_constantI64, readElements, initializeBits]
  simp

theorem runStatements_fixedArray (name : String) (element : Element κ) (capacity : ℕ)
    (carried : ErrorCode × Record ω) :
    runStatements callees (fixedArrayOps name element capacity) carried =
      initializeFixed callees name element (BitVec.ofNat 64 capacity) carried := by
  have count : BitVec.ofInt 64 (capacity : ℤ) = BitVec.ofNat 64 capacity :=
    BitVec.ofInt_natCast 64 capacity
  cases element with
  | scalar type =>
      simp only [fixedArrayOps, initializeFixed, runStatements_cons, run_plain, run_scaffold]
      by_cases isBool : type.category = .bool
      · simp only [isBool, ↓reduceIte, runStatements_bitArray]
      · simp only [isBool, ↓reduceIte, runStatements_countedLoop, count]
        rw [← countedLoop_object]
        exact countedLoop_congr
          (fun index reached carried => runOperations_scalarElement callees name type reached carried)
          carried
  | composite composite =>
      simp only [fixedArrayOps, initializeFixed, runStatements_cons, run_plain, run_scaffold]
      by_cases view : composite.heldAsView = true
      · simp only [view, ↓reduceIte]
        rfl
      · rw [if_neg view, if_neg view, runStatements_countedLoop, count]
        exact countedLoop_congr
          (fun index reached carried =>
            runOperations_nestedElement callees name composite.nested reached carried)
          carried

theorem runStatements_step (field : Field κ) (carried : ErrorCode × Record ω) :
    runStatements callees (stepOps field) carried = buildInitializeStep callees field carried := by
  rw [stepOps, buildInitializeStep]
  rcases field.arrayKind with _ | capacity | ⟨capacity, prefixBits⟩
  · cases field.element with
    | scalar type => rfl
    | composite composite =>
        by_cases view : composite.heldAsView = true
        · simp only [view, ↓reduceIte]
          rfl
        · simp only [view]
          rfl
  · exact runStatements_fixedArray callees _ _ capacity carried
  · rfl

theorem runStatements_steps (fields : List (Field κ)) (carried : ErrorCode × Record ω) :
    runStatements callees (fields.flatMap stepOps) carried =
      fields.foldl (fun carried field => buildInitializeStep callees field carried) carried := by
  induction fields generalizing carried with
  | nil => rfl
  | cons field rest ih =>
      rw [List.flatMap_cons, runStatements_append, runStatements_step, ih,
        List.foldl_cons]

/-- The operations built for a plan store what the plan's initialise body stores. -/
theorem run_buildTypedInitializeBody (plan : Plan κ) (objectNull : Bool) (object : Record ω) :
    (buildTypedInitializeBody plan).run callees objectNull object =
      plan.initialize callees objectNull object := by
  cases objectNull with
  | true => rfl
  | false =>
      have tagged : runStatements callees (unionTagOps plan.isUnion : List (Statement κ))
          (0, object) = (0, if plan.isUnion then object.setUnionTag 0 else object) := by
        cases plan.isUnion <;> rfl
      simp only [buildTypedInitializeBody, Body.run, filledOps, Plan.initialize,
        Bool.false_eq_true, ↓reduceIte, runStatements_append, runStatements_cons,
        runStatements_nil, run_plain, run_scaffold, List.cons_append, List.nil_append, tagged,
        runStatements_steps]

end Refinement

/-! ### Canonicalising -/

def ValueType.isInteger : ValueType → Bool
  | .index | .integer _ => true
  | .float _ => false

inductive Operand.FoldsTo : Operand → Operand → Prop where
  | refl (value : Operand) : FoldsTo value value
  | source (type : ValueType) {value folded : Operand} (step : FoldsTo value folded) :
      FoldsTo (.indexCast type value) (.indexCast type folded)
  | cast {type : ValueType} {typed : TypedAttr} (integer : typed.type.isInteger = true)
      (whole : type.isInteger = true) :
      FoldsTo (.indexCast type (.constant typed)) (.constant ⟨type, typed.value⟩)
  | trans {first second third : Operand} (left : FoldsTo first second)
      (right : FoldsTo second third) : FoldsTo first third

inductive Address.FoldsTo : Address → Address → Prop where
  | member (name : String) : FoldsTo (.member name) (.member name)
  | element (name : String) {index folded : Operand} (step : index.FoldsTo folded) :
      FoldsTo (.element name index) (.element name folded)
  | stackSlot {initial folded : Operand} (step : initial.FoldsTo folded) :
      FoldsTo (.stackSlot initial) (.stackSlot folded)

/-- An operation that sets a member, with its operands folded. A value a body stores is a
constant already. -/
inductive Operation.FoldsTo : Operation κ → Operation κ → Prop where
  | storeMember (member : String) (value : Operand) :
      FoldsTo (.storeMember member value) (.storeMember member value)
  | storeElement (member : String) {index folded : Operand} (step : index.FoldsTo folded)
      (value : Operand) : FoldsTo (.storeElement member index value)
        (.storeElement member folded value)
  | setArrayLength (member : String) {value folded : Operand} (step : value.FoldsTo folded) :
      FoldsTo (.setArrayLength member value) (.setArrayLength member folded)
  | setUnionTag {value folded : Operand} (step : value.FoldsTo folded) :
      FoldsTo (.setUnionTag value) (.setUnionTag folded)
  | bitRead {destination destination' source source' : Address}
      {size size' offset offset' width width' : Operand}
      (destinationStep : destination.FoldsTo destination') (sourceStep : source.FoldsTo source')
      (sizeStep : size.FoldsTo size') (offsetStep : offset.FoldsTo offset')
      (widthStep : width.FoldsTo width') :
      FoldsTo (.bitRead destination source size offset width)
        (.bitRead destination' source' size' offset' width')
  | clearView (member : String) : FoldsTo (.clearView member) (.clearView member)
  | callInitialize (callee : κ) (member : String) {target folded : Address}
      (step : target.FoldsTo folded) :
      FoldsTo (.callInitialize callee member target) (.callInitialize callee member folded)

def Scaffold.inLoop : Scaffold → Bool
  | .constant | .indexCast | .select | .cmpI | .elementAddr | .yield => true
  | .func | .ret | .ifOp | .orI | .isNull | .memberAddr | .localSlot => false

/-- A loop's body keeps what sets an element, in order, and no other kind of scaffolding comes
in. -/
inductive CanonicalOperations : List (Operation κ) → List (Operation κ) → Prop where
  | nil : CanonicalOperations [] []
  | drop (kind : Scaffold) {source target : List (Operation κ)}
      (rest : CanonicalOperations source target) :
      CanonicalOperations (.scaffold kind :: source) target
  | emit {kind : Scaffold} (known : kind.inLoop = true) {source target : List (Operation κ)}
      (rest : CanonicalOperations source target) :
      CanonicalOperations source (.scaffold kind :: target)
  | keep {operation folded : Operation κ} (step : operation.FoldsTo folded)
      {source target : List (Operation κ)} (rest : CanonicalOperations source target) :
      CanonicalOperations (operation :: source) (folded :: target)

def Operand.first : Operand → Operand
  | .constant typed => .constant typed
  | .indexCast type source => .indexCast type source.first
  | .inductionVariable => constantIndex 0

def Address.first : Address → Address
  | .member name => .member name
  | .element name index => .element name index.first
  | .stackSlot initial => .stackSlot initial.first

/-- An operation taken out of its loop, at the first iteration. -/
def Operation.first : Operation κ → Operation κ
  | .scaffold kind => .scaffold kind
  | .storeMember member value => .storeMember member value.first
  | .storeElement member index value => .storeElement member index.first value.first
  | .setArrayLength member value => .setArrayLength member value.first
  | .setUnionTag value => .setUnionTag value.first
  | .bitRead destination source size offset width =>
      .bitRead destination.first source.first size.first offset.first width.first
  | .clearView member => .clearView member
  | .callInitialize callee member target => .callInitialize callee member target.first

/-- A loop's body in the place of the loop. -/
def unrolled (body : List (Operation κ)) : List (Statement κ) :=
  body.map fun operation => .plain operation.first

/-- What a canonicaliser leaves of statements: every setting operation in order, a loop of one
iteration in line. -/
inductive CanonicalStatements : List (Statement κ) → List (Statement κ) → Prop where
  | nil : CanonicalStatements [] []
  | drop (kind : Scaffold) {source target : List (Statement κ)}
      (rest : CanonicalStatements source target) :
      CanonicalStatements (.plain (.scaffold kind) :: source) target
  | emit (kind : Scaffold) {source target : List (Statement κ)}
      (rest : CanonicalStatements source target) :
      CanonicalStatements source (.plain (.scaffold kind) :: target)
  | keep {operation folded : Operation κ} (step : operation.FoldsTo folded)
      {source target : List (Statement κ)} (rest : CanonicalStatements source target) :
      CanonicalStatements (.plain operation :: source) (.plain folded :: target)
  | loop {bound folded : Operand} (several : bound.eval 0 ≠ 1) (step : bound.FoldsTo folded)
      {body body' : List (Operation κ)} (inner : CanonicalOperations body body')
      {source target : List (Statement κ)} (rest : CanonicalStatements source target) :
      CanonicalStatements (.loop bound body :: source) (.loop folded body' :: target)
  | inline {bound : Operand} (single : bound.eval 0 = 1) {body : List (Operation κ)}
      {source target : List (Statement κ)}
      (rest : CanonicalStatements (unrolled body ++ source) target) :
      CanonicalStatements (.loop bound body :: source) target

/-- A canonicalised body, whose null test stays where a pointer can be null and folds away where
it cannot. -/
inductive Body.Canonicalizes : Body κ → Body κ → Prop where
  | guarded {before before' refused refused' filled filled' after after' : List (Statement κ)}
      (refusal : ErrorCode) (beforeStep : CanonicalStatements before before')
      (refusedStep : CanonicalStatements refused refused')
      (filledStep : CanonicalStatements filled filled')
      (afterStep : CanonicalStatements after after') :
      Canonicalizes (.guarded before refused refusal filled after)
        (.guarded before' refused' refusal filled' after')
  | folded {before refused filled after target : List (Statement κ)} (refusal : ErrorCode)
      (step : CanonicalStatements (before ++ filled ++ after) target) :
      Canonicalizes (.guarded before refused refusal filled after) (.straight target)

/-! ### Canonicalising keeps the meaning -/

theorem Operand.FoldsTo.eval_eq {value folded : Operand} (step : value.FoldsTo folded)
    (index : ℕ) : value.eval index = folded.eval index := by
  induction step with
  | refl value => rfl
  | source type step ih => exact ih
  | cast integer whole => rfl
  | trans left right first second => exact first.trans second

theorem Address.FoldsTo.place_eq {address folded : Address} (step : address.FoldsTo folded)
    (index : ℕ) : address.place index = folded.place index := by
  cases step with
  | member name => rfl
  | element name step => simp only [Address.place, step.eval_eq index]
  | stackSlot step => rfl

theorem Address.FoldsTo.bytes_eq {address folded : Address} (step : address.FoldsTo folded)
    (index : ℕ) : address.bytes index = folded.bytes index := by
  cases step with
  | member name => rfl
  | element name step => rfl
  | stackSlot step => simp only [Address.bytes, step.eval_eq index]

theorem Operand.eval_first (value : Operand) : value.first.eval 0 = value.eval 0 := by
  induction value with
  | constant typed => rfl
  | indexCast type source ih => exact ih
  | inductionVariable => rfl

theorem Address.place_first (address : Address) : address.first.place 0 = address.place 0 := by
  cases address with
  | member name => rfl
  | element name index => simp only [Address.first, Address.place, index.eval_first]
  | stackSlot initial => rfl

theorem Address.bytes_first (address : Address) : address.first.bytes 0 = address.bytes 0 := by
  cases address with
  | member name => rfl
  | element name index => rfl
  | stackSlot initial => simp only [Address.first, Address.bytes, initial.eval_first]

section Preservation

variable (callees : InitializeCallees κ ω)

theorem Operation.FoldsTo.run_eq {operation folded : Operation κ}
    (step : operation.FoldsTo folded) (index : ℕ) (carried : ErrorCode × Record ω) :
    operation.run callees index carried = folded.run callees index carried := by
  cases step with
  | storeMember member value => rfl
  | storeElement member step value => simp only [Operation.run, step.eval_eq index]
  | setArrayLength member step => simp only [Operation.run, step.eval_eq index]
  | setUnionTag step => simp only [Operation.run, step.eval_eq index]
  | bitRead destinationStep sourceStep sizeStep offsetStep widthStep =>
      simp only [Operation.run, destinationStep.place_eq index, sourceStep.bytes_eq index,
        sizeStep.eval_eq index, offsetStep.eval_eq index, widthStep.eval_eq index]
  | clearView member => rfl
  | callInitialize callee member step => simp only [Operation.run, step.place_eq index]

theorem CanonicalOperations.run_eq {source target : List (Operation κ)}
    (canonical : CanonicalOperations source target) (index : ℕ)
    (carried : ErrorCode × Record ω) :
    runOperations callees source index carried = runOperations callees target index carried := by
  induction canonical generalizing carried with
  | nil => rfl
  | drop kind rest ih => exact ih carried
  | emit known rest ih => exact ih carried
  | keep step rest ih =>
      rw [runOperations_cons, runOperations_cons, step.run_eq callees index carried]
      exact ih _

theorem Operation.run_first (operation : Operation κ) (carried : ErrorCode × Record ω) :
    operation.first.run callees 0 carried = operation.run callees 0 carried := by
  cases operation <;>
    simp only [Operation.first, Operation.run, Operand.eval_first, Address.place_first,
      Address.bytes_first]

theorem runStatements_unrolled (body : List (Operation κ)) (carried : ErrorCode × Record ω) :
    runStatements callees (unrolled body) carried = runOperations callees body 0 carried := by
  induction body generalizing carried with
  | nil => rfl
  | cons operation rest ih =>
      rw [unrolled, List.map_cons, runStatements_cons, run_plain, operation.run_first callees,
        runOperations_cons]
      exact ih _

theorem countedLoop_one {α : Type} (body : ℕ → α → α) (carried : α) :
    countedLoop 1 body carried = body 0 carried := rfl

theorem CanonicalStatements.run_eq {source target : List (Statement κ)}
    (canonical : CanonicalStatements source target) (carried : ErrorCode × Record ω) :
    runStatements callees source carried = runStatements callees target carried := by
  induction canonical generalizing carried with
  | nil => rfl
  | drop kind rest ih => exact ih carried
  | emit kind rest ih => exact ih carried
  | keep step rest ih =>
      rw [runStatements_cons, runStatements_cons, run_plain, run_plain,
        step.run_eq callees 0 carried]
      exact ih _
  | loop several step inner rest ih =>
      rw [runStatements_cons, runStatements_cons, run_loop, run_loop, step.eval_eq 0,
        countedLoop_congr (fun index _ carried => inner.run_eq callees index carried) carried]
      exact ih _
  | inline single rest ih =>
      rw [← ih, runStatements_cons, runStatements_append,
        runStatements_unrolled callees, run_loop, single, countedLoop_one]

theorem Body.Canonicalizes.run_eq {body canonical : Body κ} (step : body.Canonicalizes canonical)
    (object : Record ω) : body.run callees false object = canonical.run callees false object := by
  cases step with
  | guarded refusal beforeStep refusedStep filledStep afterStep =>
      simp only [Body.run, Bool.false_eq_true, ↓reduceIte, runStatements_append,
        beforeStep.run_eq callees, filledStep.run_eq callees, afterStep.run_eq callees]
  | folded refusal step => exact step.run_eq callees _

end Preservation

end LlvmDsdl.Transforms.InitializeBody
