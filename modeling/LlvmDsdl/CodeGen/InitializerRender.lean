import LlvmDsdl.Transforms.InitializeBody

/-!
Contract: the shape of an initialise body, as `readInitializer` reads it.

Owns: the reader; what a list of default members sets; that a body reads as
its fields' defaults as it is built; and, for a canonicalised body, the fields
whose loop has gone, which are what the reader does not take for their default.

Does not own how a backend spells a default.
-/

namespace LlvmDsdl.CodeGen

open LlvmDsdl.Runtime LlvmDsdl.Transforms LlvmDsdl.Transforms.InitializeBody

variable {κ ω : Type}

/-! ### The shape -/

inductive DefaultKind where
  | scalar
  | variableArrayEmpty
  | fixedScalarArray
  | fixedCompositeArray
  | boolArray
  | composite
  | view
deriving DecidableEq, Repr

/-- One member's default, as the initialise body states it. -/
structure MemberDefault (κ : Type) where
  kind : DefaultKind
  member : String
  value : Option TypedAttr
  count : ℤ
  callee : Option κ
deriving DecidableEq, Repr

/-- What an initialise body sets, in the order it sets it. -/
structure InitializerShape (κ : Type) where
  isUnion : Bool
  unionTag : ℤ
  members : List (MemberDefault κ)
deriving DecidableEq, Repr

def InitializerShape.empty : InitializerShape κ := ⟨false, 0, []⟩

def InitializerShape.push (shape : InitializerShape κ) (entry : MemberDefault κ) :
    InitializerShape κ :=
  { shape with members := shape.members ++ [entry] }

/-! ### The reader -/

/-- The constant a value is, seen through any index cast. -/
def constantOf : Operand → Option TypedAttr
  | .constant typed => some typed
  | .indexCast _ source => constantOf source
  | .inductionVariable => none

def integerOf (value : Operand) : Option ℤ :=
  (constantOf value).bind fun typed => if typed.type.isInteger then some typed.value else none

def scaffoldName : Scaffold → String
  | .func => "func.func"
  | .ret => "func.return"
  | .ifOp => "scf.if"
  | .yield => "scf.yield"
  | .constant => "arith.constant"
  | .indexCast => "arith.index_cast"
  | .orI => "arith.ori"
  | .select => "arith.select"
  | .cmpI => "arith.cmpi"
  | .isNull => "dsdl.is_null"
  | .memberAddr => "dsdl.member_addr"
  | .elementAddr => "dsdl.element_addr"
  | .localSlot => "dsdl.local"

def operationName : Operation κ → String
  | .scaffold kind => scaffoldName kind
  | .storeMember _ _ => "dsdl.store_member"
  | .storeElement _ _ _ => "dsdl.store_element"
  | .setArrayLength _ _ => "dsdl.set_array_length"
  | .setUnionTag _ => "dsdl.set_union_tag"
  | .bitRead _ _ _ _ _ => "dsdl.bit_read"
  | .clearView _ => "dsdl.clear_view"
  | .callInitialize _ _ _ => "dsdl.call_initialize"

def unrecognised (name why : String) : String :=
  "initialise body: " ++ name ++ ": " ++ why

def readsOverInLoop : Scaffold → Bool
  | .constant | .indexCast | .elementAddr | .yield | .orI | .select | .cmpI => true
  | .func | .ret | .ifOp | .isNull | .memberAddr | .localSlot => false

/-- The entry of a loop and whether an operation has set it. -/
structure LoopReading (κ : Type) where
  entry : MemberDefault κ
  seen : Bool

def readLoopOperation (reading : LoopReading κ) (operation : Operation κ) :
    Except String (LoopReading κ) :=
  match operation with
  | .storeElement member _ value =>
      match constantOf value with
      | some typed =>
          if reading.seen then
            .error (unrecognised (operationName operation)
              "an element store that is not one constant per array")
          else
            .ok
              { entry :=
                  { reading.entry with
                    kind := .fixedScalarArray
                    member := member
                    value := some typed }
                seen := true }
      | none =>
          .error (unrecognised (operationName operation)
            "an element store that is not one constant per array")
  | .callInitialize callee member _ =>
      if reading.seen then
        .error (unrecognised (operationName operation) "more than one initialiser per array")
      else
        .ok
          { entry :=
              { reading.entry with
                kind := .fixedCompositeArray
                member := member
                callee := some callee }
            seen := true }
  | .scaffold kind =>
      if readsOverInLoop kind then .ok reading
      else
        .error (unrecognised (operationName operation)
          "not an operation of an initialise body's loop")
  | .storeMember _ _ | .setArrayLength _ _ | .setUnionTag _ | .bitRead _ _ _ _ _
  | .clearView _ =>
      .error (unrecognised (operationName operation)
        "not an operation of an initialise body's loop")

/-- Reads one counted loop: an array of scalars stored, or of composites initialised. -/
def readLoop (upperBound : Operand) (body : List (Operation κ)) (shape : InitializerShape κ) :
    Except String (InitializerShape κ) := do
  match integerOf upperBound with
  | none => .error (unrecognised "scf.for" "a fixed array's loop bound is not a constant")
  | some count =>
      let reading ← body.foldlM readLoopOperation
        ⟨⟨.scalar, "", none, count, none⟩, false⟩
      if reading.seen then .ok (shape.push reading.entry)
      else .error (unrecognised "scf.for" "a loop that sets nothing")

/-- One operation outside a loop. A store to an element is none of the operations it knows. -/
def readOperation (shape : InitializerShape κ) (operation : Operation κ) :
    Except String (InitializerShape κ) :=
  match operation with
  | .setUnionTag value =>
      match integerOf value with
      | some tag => .ok { shape with isUnion := true, unionTag := tag }
      | none =>
          .error (unrecognised (operationName operation) "a union tag that is not a constant")
  | .storeMember member value =>
      match constantOf value with
      | some typed => .ok (shape.push ⟨.scalar, member, some typed, 0, none⟩)
      | none =>
          .error (unrecognised (operationName operation) "a stored value that is not a constant")
  | .setArrayLength member value =>
      if integerOf value = some 0 then
        .ok (shape.push ⟨.variableArrayEmpty, member, none, 0, none⟩)
      else .error (unrecognised (operationName operation) "a length other than nought")
  | .bitRead destination _ size _ width =>
      match destination, integerOf width, integerOf size with
      | .element member _, some count, some 0 =>
          .ok (shape.push ⟨.boolArray, member, none, count, none⟩)
      | _, _, _ =>
          .error (unrecognised (operationName operation)
            "a bit read that is not a bool array from no bytes")
  | .callInitialize callee member _ =>
      .ok (shape.push ⟨.composite, member, none, 0, some callee⟩)
  | .clearView member => .ok (shape.push ⟨.view, member, none, 0, none⟩)
  | .scaffold _ => .ok shape
  | .storeElement _ _ _ =>
      .error (unrecognised (operationName operation) "not an operation of an initialise body")

def readStatement (shape : InitializerShape κ) (statement : Statement κ) :
    Except String (InitializerShape κ) :=
  match statement with
  | .plain operation => readOperation shape operation
  | .loop upperBound body => readLoop upperBound body shape

/-- The operations of a body before those of its regions, except a loop's. -/
def walk : Body κ → List (Statement κ)
  | .guarded before refused _ filled after =>
      .plain (.scaffold .func) :: before ++ .plain (.scaffold .ifOp) :: refused ++ filled ++ after
  | .straight statements => .plain (.scaffold .func) :: statements

def readStatements (statements : List (Statement κ)) (shape : InitializerShape κ) :
    Except String (InitializerShape κ) :=
  statements.foldlM readStatement shape

def readInitializer (body : Body κ) : Except String (InitializerShape κ) :=
  readStatements (walk body) .empty

section Denotation

variable (callees : InitializeCallees κ ω)

def storedValue (value : Option TypedAttr) : Word :=
  BitVec.ofInt 64 ((value.map TypedAttr.value).getD 0)

def MemberDefault.denote (entry : MemberDefault κ) (carried : ErrorCode × Record ω) :
    ErrorCode × Record ω :=
  match entry.kind with
  | .scalar => (carried.1, carried.2.storeMember entry.member (storedValue entry.value))
  | .variableArrayEmpty => (carried.1, carried.2.setArrayLength entry.member 0)
  | .fixedScalarArray =>
      (carried.1,
        countedLoop (BitVec.ofInt 64 entry.count)
          (fun index object => object.storeElement entry.member index (storedValue entry.value))
          carried.2)
  | .fixedCompositeArray =>
      match entry.callee with
      | some callee =>
          countedLoop (BitVec.ofInt 64 entry.count)
            (initializeNested callees entry.member callee) carried
      | none => carried
  | .boolArray => (carried.1, initializeBits entry.member (BitVec.ofInt 64 entry.count) carried.2)
  | .composite =>
      match entry.callee with
      | some callee => initializeNested callees entry.member callee 0 carried
      | none => carried
  | .view => (carried.1, carried.2.clearView entry.member)

def InitializerShape.denote (shape : InitializerShape κ) (object : Record ω) :
    ErrorCode × Record ω :=
  shape.members.foldl (fun carried entry => entry.denote callees carried)
    (0, if shape.isUnion then object.setUnionTag (BitVec.ofInt 64 shape.unionTag) else object)

end Denotation

/-- The default of a field: its kind, its count, its value and what initialises it. -/
def fieldDefault (field : Transforms.Field κ) : MemberDefault κ :=
  match field.arrayKind, field.element with
  | .variable _ _, _ => ⟨.variableArrayEmpty, field.name, none, 0, none⟩
  | .fixed capacity, .scalar type =>
      if type.category = .bool then ⟨.boolArray, field.name, none, capacity, none⟩
      else ⟨.fixedScalarArray, field.name, some (zeroOf (stepValueType type)), capacity, none⟩
  | .fixed capacity, .composite composite =>
      if composite.heldAsView then ⟨.view, field.name, none, 0, none⟩
      else ⟨.fixedCompositeArray, field.name, none, capacity, some composite.nested⟩
  | .none, .scalar type =>
      ⟨.scalar, field.name, some (zeroOf (stepValueType type)), 0, none⟩
  | .none, .composite composite =>
      if composite.heldAsView then ⟨.view, field.name, none, 0, none⟩
      else ⟨.composite, field.name, none, 0, some composite.nested⟩

/-- The default of every field of a plan, in the order they are initialised. -/
def planDefaults (plan : Plan κ) : InitializerShape κ :=
  { isUnion := plan.isUnion
    unionTag := 0
    members := plan.initializedFields.map fieldDefault }

/-- Reading a body gives every field of the plan once, at its default, and setting those
defaults is what the body does to every object. -/
def ReadsAsDefaults (plan : Plan κ) (body : Body κ) : Prop :=
  readInitializer body = .ok (planDefaults plan) ∧
    (∀ field ∈ plan.fields,
      ((planDefaults plan).members.map MemberDefault.member).count field.name = 1) ∧
    ∀ {ω : Type} (callees : InitializeCallees κ ω) (object : Record ω),
      (planDefaults plan).denote callees object = body.run callees false object

/-! ### Reading statements -/

@[simp] theorem readStatements_nil (shape : InitializerShape κ) :
    readStatements [] shape = .ok shape := rfl

@[simp] theorem readStatements_scaffold (kind : Scaffold) (rest : List (Statement κ))
    (shape : InitializerShape κ) :
    readStatements (.plain (.scaffold kind) :: rest) shape = readStatements rest shape := rfl

theorem readStatements_cons (statement : Statement κ) (rest : List (Statement κ))
    (shape : InitializerShape κ) :
    readStatements (statement :: rest) shape =
      readStatement shape statement >>= readStatements rest := rfl

theorem readStatements_append (first second : List (Statement κ)) (shape : InitializerShape κ) :
    readStatements (first ++ second) shape =
      readStatements first shape >>= readStatements second :=
  List.foldlM_append

theorem readStatements_scalarLoop (name : String) (type : ScalarType) (count : ℤ)
    (shape : InitializerShape κ) :
    readStatements (countedLoopOps count (scalarElementOps name type)) shape =
      .ok (shape.push
        ⟨.fixedScalarArray, name, some (zeroOf (stepValueType type)), count, none⟩) := rfl

theorem readStatements_nestedLoop (name : String) (nested : κ) (count : ℤ)
    (shape : InitializerShape κ) :
    readStatements (countedLoopOps count (nestedElementOps name nested)) shape =
      .ok (shape.push ⟨.fixedCompositeArray, name, none, count, some nested⟩) := rfl

/-- What the builder emits for a field reads as the field's default. -/
theorem readStatements_step (field : Transforms.Field κ) (shape : InitializerShape κ) :
    readStatements (stepOps field) shape = .ok (shape.push (fieldDefault field)) := by
  obtain ⟨name, element, arrayKind, alignmentBits, unionOptionIndex⟩ := field
  rcases arrayKind with _ | capacity | ⟨capacity, prefixBits⟩
  · cases element with
    | scalar type => rfl
    | composite composite =>
        by_cases view : composite.heldAsView = true
        · simp only [stepOps, fieldDefault, view, ↓reduceIte]
          rfl
        · simp only [stepOps, fieldDefault, view]
          rfl
  · cases element with
    | scalar type =>
        simp only [stepOps, fixedArrayOps, fieldDefault, readStatements_scaffold]
        by_cases isBool : type.category = .bool
        · simp only [isBool, ↓reduceIte]
          rfl
        · simp only [isBool, ↓reduceIte, readStatements_scalarLoop]
    | composite composite =>
        simp only [stepOps, fixedArrayOps, fieldDefault, readStatements_scaffold]
        by_cases view : composite.heldAsView = true
        · simp only [view, ↓reduceIte]
          rfl
        · rw [if_neg view, if_neg view, readStatements_nestedLoop]
  · rfl

theorem readStatements_steps (fields : List (Transforms.Field κ)) (shape : InitializerShape κ) :
    readStatements (fields.flatMap stepOps) shape =
      .ok { shape with members := shape.members ++ fields.map fieldDefault } := by
  induction fields generalizing shape with
  | nil => simp
  | cons field rest ih =>
      rw [List.flatMap_cons, readStatements_append, readStatements_step]
      simp only [bind, Except.bind, ih]
      simp [InitializerShape.push]

/-- The operations around the fields read as nothing but the union's tag. -/
theorem readStatements_filled (plan : Plan κ) (rest : List (Statement κ)) :
    readStatements (.plain (.scaffold .constant) :: unionTagOps plan.isUnion ++ rest) .empty =
      readStatements rest ⟨plan.isUnion, 0, []⟩ := by
  cases plan.isUnion <;> rfl

theorem readInitializer_built (plan : Plan κ) :
    readInitializer (buildTypedInitializeBody plan) = .ok (planDefaults plan) := by
  rw [readInitializer, buildTypedInitializeBody, walk]
  simp only [List.cons_append, List.nil_append, readStatements_scaffold, filledOps,
    List.append_assoc]
  have fields := readStatements_filled plan
    (plan.initializedFields.flatMap stepOps ++
      [.plain (.scaffold .yield), .plain (.scaffold .ret)])
  simp only [List.cons_append, readStatements_scaffold] at fields
  rw [fields, readStatements_append, readStatements_steps]
  rfl

section Denotes

variable (callees : InitializeCallees κ ω)

theorem fieldDefault_denote (field : Transforms.Field κ) (carried : ErrorCode × Record ω) :
    (fieldDefault field).denote callees carried = buildInitializeStep callees field carried := by
  obtain ⟨name, element, arrayKind, alignmentBits, unionOptionIndex⟩ := field
  rcases arrayKind with _ | capacity | ⟨capacity, prefixBits⟩
  · cases element with
    | scalar type => rfl
    | composite composite =>
        by_cases view : composite.heldAsView = true
        · simp only [fieldDefault, buildInitializeStep, view, ↓reduceIte]
          rfl
        · simp only [fieldDefault, buildInitializeStep, view]
          rfl
  · have count : BitVec.ofInt 64 (capacity : ℤ) = BitVec.ofNat 64 capacity :=
      BitVec.ofInt_natCast 64 capacity
    cases element with
    | scalar type =>
        by_cases isBool : type.category = .bool
        · simp only [fieldDefault, buildInitializeStep, initializeFixed, isBool, ↓reduceIte,
            MemberDefault.denote, count]
        · simp only [fieldDefault, buildInitializeStep, initializeFixed, isBool, ↓reduceIte,
            MemberDefault.denote, count]
          rfl
    | composite composite =>
        by_cases view : composite.heldAsView = true
        · simp only [fieldDefault, buildInitializeStep, initializeFixed, view, ↓reduceIte]
          rfl
        · simp only [fieldDefault, buildInitializeStep, initializeFixed, view]
          simp only [Bool.false_eq_true, ↓reduceIte, MemberDefault.denote, count]
  · rfl

theorem foldl_fieldDefault (fields : List (Transforms.Field κ)) (carried : ErrorCode × Record ω) :
    (fields.map fieldDefault).foldl (fun carried entry => entry.denote callees carried) carried =
      fields.foldl (fun carried field => buildInitializeStep callees field carried) carried := by
  rw [List.foldl_map]
  simp only [fieldDefault_denote]

theorem planDefaults_denote (plan : Plan κ) (object : Record ω) :
    (planDefaults plan).denote callees object = plan.initialize callees false object := by
  rw [InitializerShape.denote, planDefaults, foldl_fieldDefault]
  rfl

end Denotes

theorem count_planDefaults {bounds : κ → Bounds} {nestedOk : κ → Prop} {plan : Plan κ}
    (wellFormed : plan.WellFormed bounds nestedOk) {field : Transforms.Field κ}
    (member : field ∈ plan.fields) :
    ((planDefaults plan).members.map MemberDefault.member).count field.name = 1 := by
  have named : ∀ field : Transforms.Field κ, (fieldDefault field).member = field.name := by
    intro field
    unfold fieldDefault
    split
    · rfl
    · split_ifs <;> rfl
    · split_ifs <;> rfl
    · rfl
    · split_ifs <;> rfl
  have names : (planDefaults plan).members.map MemberDefault.member =
      plan.initializedFields.map Transforms.Field.name := by
    simp [planDefaults, named]
  have perm : (plan.initializedFields.map Transforms.Field.name).Perm
      (plan.fields.map Transforms.Field.name) := by
    rw [Plan.initializedFields]
    cases plan.isUnion with
    | true => exact (perm_unionOptionsOf plan).map _
    | false => exact List.Perm.refl _
  rw [names, perm.count_eq]
  exact List.count_eq_one_of_mem wellFormed.names (List.mem_map_of_mem member)

/-! ### Reading a canonicalised body -/

theorem integerOf_of_foldsTo {value folded : Operand} (step : value.FoldsTo folded) :
    integerOf folded = integerOf value := by
  induction step with
  | refl value => rfl
  | source type step ih => exact ih
  | cast integer whole => simp [integerOf, constantOf, integer, whole]
  | trans left right first second => exact second.trans first

theorem readOperation_of_foldsTo {operation folded : Operation κ}
    (step : operation.FoldsTo folded) (shape : InitializerShape κ) :
    readOperation shape folded = readOperation shape operation := by
  cases step with
  | storeMember member value => rfl
  | storeElement member step value => rfl
  | setArrayLength member step =>
      simp only [readOperation, integerOf_of_foldsTo step, operationName]
  | setUnionTag step => simp only [readOperation, integerOf_of_foldsTo step, operationName]
  | bitRead destinationStep sourceStep sizeStep offsetStep widthStep =>
      simp only [readOperation, integerOf_of_foldsTo sizeStep, integerOf_of_foldsTo widthStep,
        operationName]
      cases destinationStep with
      | member name => rfl
      | element name step =>
          rcases integerOf _ with _ | width
          · rfl
          · rcases integerOf _ with _ | (_ | size) | size <;> rfl
      | stackSlot step => rfl
  | clearView member => rfl
  | callInitialize callee member step => rfl

theorem readLoopOperation_of_foldsTo {operation folded : Operation κ}
    (step : operation.FoldsTo folded) (reading : LoopReading κ) :
    readLoopOperation reading folded = readLoopOperation reading operation := by
  cases step <;> rfl

theorem readsOverInLoop_of_inLoop {kind : Scaffold} (known : kind.inLoop = true) :
    readsOverInLoop kind = true := by
  revert known
  cases kind <;> decide

/-- The scaffolding of a loop is what its reader passes over. -/
def PlainLoop (body : List (Operation κ)) : Prop :=
  ∀ kind, Operation.scaffold kind ∈ body → readsOverInLoop kind = true

theorem readLoopOperation_scaffold {kind : Scaffold} (passed : readsOverInLoop kind = true)
    (reading : LoopReading κ) : readLoopOperation reading (.scaffold kind) = .ok reading := by
  rw [readLoopOperation, if_pos passed]

theorem foldlM_readLoopOperation_of_canonical {source target : List (Operation κ)}
    (canonical : CanonicalOperations source target) (plain : PlainLoop source)
    (reading : LoopReading κ) :
    target.foldlM readLoopOperation reading = source.foldlM readLoopOperation reading := by
  induction canonical generalizing reading with
  | nil => rfl
  | drop kind rest ih =>
      rw [List.foldlM_cons, readLoopOperation_scaffold (plain kind (List.mem_cons_self ..))]
      exact ih (fun kind member => plain kind (List.mem_cons_of_mem _ member))
        reading
  | emit known rest ih =>
      rw [List.foldlM_cons, readLoopOperation_scaffold (readsOverInLoop_of_inLoop known)]
      exact ih plain reading
  | keep step rest ih =>
      simp only [List.foldlM_cons, readLoopOperation_of_foldsTo step]
      congr 1
      funext reading
      exact ih (fun kind member => plain kind (List.mem_cons_of_mem _ member))
        reading

theorem readLoop_of_canonical {bound folded : Operand} (step : bound.FoldsTo folded)
    {body body' : List (Operation κ)} (inner : CanonicalOperations body body')
    (plain : PlainLoop body) (shape : InitializerShape κ) :
    readLoop folded body' shape = readLoop bound body shape := by
  simp only [readLoop, integerOf_of_foldsTo step,
    foldlM_readLoopOperation_of_canonical inner plain]

/-- A statement with a loop of one iteration in line. -/
def inlined : Statement κ → List (Statement κ)
  | .plain operation => [.plain operation]
  | .loop bound body => if bound.eval 0 = 1 then unrolled body else [.loop bound body]

theorem flatMap_inlined_unrolled (body : List (Operation κ)) (rest : List (Statement κ)) :
    (unrolled body ++ rest).flatMap inlined = unrolled body ++ rest.flatMap inlined := by
  rw [List.flatMap_append]
  congr 1
  induction body with
  | nil => rfl
  | cons operation body ih =>
      rw [unrolled, List.map_cons, List.flatMap_cons]
      exact congrArg _ ih

def PlainLoops (statements : List (Statement κ)) : Prop :=
  ∀ bound body, Statement.loop bound body ∈ statements → PlainLoop body

theorem PlainLoops.tail {statement : Statement κ} {rest : List (Statement κ)}
    (plain : PlainLoops (statement :: rest)) : PlainLoops rest :=
  fun bound body member => plain bound body (List.mem_cons_of_mem _ member)

theorem PlainLoops.unrolled_append {body : List (Operation κ)} {rest : List (Statement κ)}
    (plain : PlainLoops rest) : PlainLoops (unrolled body ++ rest) := by
  intro bound inner member
  rcases List.mem_append.mp member with inBody | inRest
  · obtain ⟨operation, _, isLoop⟩ := List.mem_map.mp inBody
    exact absurd isLoop (by simp)
  · exact plain bound inner inRest

/-- A canonicalised list of statements reads as the list with its single iterations in line. -/
theorem readStatements_of_canonical {source target : List (Statement κ)}
    (canonical : CanonicalStatements source target) (plain : PlainLoops source)
    (shape : InitializerShape κ) :
    readStatements target shape = readStatements (source.flatMap inlined) shape := by
  induction canonical generalizing shape with
  | nil => rfl
  | drop kind rest ih => exact ih plain.tail shape
  | emit kind rest ih => exact ih plain shape
  | keep step rest ih =>
      rw [List.flatMap_cons, inlined, List.singleton_append, readStatements_cons,
        readStatements_cons, readStatement, readStatement, readOperation_of_foldsTo step]
      congr 1
      funext shape
      exact ih plain.tail shape
  | loop several step inner rest ih =>
      rw [List.flatMap_cons, inlined, if_neg several, List.singleton_append, readStatements_cons,
        readStatements_cons, readStatement, readStatement,
        readLoop_of_canonical step inner (plain _ _ (List.mem_cons_self ..))]
      congr 1
      funext shape
      exact ih plain.tail shape
  | inline single rest ih =>
      rw [List.flatMap_cons, inlined, if_pos single, ← flatMap_inlined_unrolled]
      exact ih plain.tail.unrolled_append shape

/-! ### Arrays of one element -/

/-- A fixed array of one element whose default the builder sets in a loop. -/
def SingleElement (field : Transforms.Field κ) : Prop :=
  field.arrayKind = .fixed 1 ∧
    match field.element with
    | .scalar type => type.category ≠ .bool
    | .composite composite => composite.heldAsView = false

/-- What a field's operations read as with a single iteration in line: a scalar's store stands
where the reader knows none, and a composite's call is a composite's. -/
def unrolledDefault (field : Transforms.Field κ) : Except String (MemberDefault κ) :=
  match field.element with
  | .scalar type =>
      if field.arrayKind = .fixed 1 ∧ type.category ≠ .bool then
        .error (unrecognised "dsdl.store_element" "not an operation of an initialise body")
      else .ok (fieldDefault field)
  | .composite composite =>
      if field.arrayKind = .fixed 1 ∧ composite.heldAsView = false then
        .ok ⟨.composite, field.name, none, 0, some composite.nested⟩
      else .ok (fieldDefault field)

theorem unrolledDefault_eq_iff (field : Transforms.Field κ) :
    unrolledDefault field = .ok (fieldDefault field) ↔ ¬ SingleElement field := by
  obtain ⟨name, element, arrayKind, alignmentBits, unionOptionIndex⟩ := field
  cases element with
  | scalar type =>
      simp only [unrolledDefault, SingleElement]
      by_cases single : arrayKind = .fixed 1 ∧ type.category ≠ .bool
      · simp [single]
      · simp only [single, ↓reduceIte, not_false_eq_true]
  | composite composite =>
      simp only [unrolledDefault, SingleElement]
      by_cases single : arrayKind = .fixed 1 ∧ composite.heldAsView = false
      · obtain ⟨rfl, view⟩ := single
        simp [fieldDefault, view]
      · simp only [single, ↓reduceIte, not_false_eq_true]

/-- A list whose loops all iterate more than once has nothing to put in line. -/
theorem flatMap_inlined_of_several {statements : List (Statement κ)}
    (several : ∀ bound body, Statement.loop bound body ∈ statements → bound.eval 0 ≠ 1) :
    statements.flatMap inlined = statements := by
  induction statements with
  | nil => rfl
  | cons statement rest ih =>
      rw [List.flatMap_cons, ih
        fun bound body member => several bound body (List.mem_cons_of_mem _ member)]
      cases statement with
      | plain operation => rfl
      | loop bound body => rw [inlined, if_neg (several bound body (List.mem_cons_self ..))]; rfl

theorem loop_mem_stepOps {field : Transforms.Field κ} {bound : Operand}
    {body : List (Operation κ)} (member : Statement.loop bound body ∈ stepOps field) :
    ∃ capacity, field.arrayKind = .fixed capacity ∧
      bound = .indexCast .index (constantI64 capacity) ∧ PlainLoop body ∧
      match field.element with
      | .scalar type => type.category ≠ .bool
      | .composite composite => composite.heldAsView = false := by
  obtain ⟨name, element, arrayKind, alignmentBits, unionOptionIndex⟩ := field
  rcases arrayKind with _ | capacity | ⟨capacity, prefixBits⟩
  · cases element with
    | scalar type => simp [stepOps] at member
    | composite composite =>
        simp only [stepOps, foldErrorOps] at member
        split_ifs at member <;> simp at member
  · refine ⟨capacity, rfl, ?_⟩
    cases element with
    | scalar type =>
        simp only [stepOps, fixedArrayOps] at member
        split_ifs at member with isBool
        · simp [bitArrayOps] at member
        · simp only [countedLoopOps, List.mem_cons, List.not_mem_nil, or_false, reduceCtorEq,
            false_or, Statement.loop.injEq] at member
          obtain ⟨rfl, rfl⟩ := member
          refine ⟨rfl, ?_, isBool⟩
          intro kind inBody
          simp only [scalarElementOps, List.mem_cons, List.not_mem_nil, or_false, reduceCtorEq,
            false_or, Operation.scaffold.injEq] at inBody
          rcases inBody with rfl | rfl | rfl <;> rfl
    | composite composite =>
        simp only [stepOps, fixedArrayOps] at member
        split_ifs at member with view
        · simp at member
        · simp only [countedLoopOps, List.mem_cons, List.not_mem_nil, or_false, reduceCtorEq,
            false_or, Statement.loop.injEq] at member
          obtain ⟨rfl, rfl⟩ := member
          refine ⟨rfl, ?_, by simpa using view⟩
          intro kind inBody
          simp only [nestedElementOps, foldErrorOps, List.mem_append, List.mem_cons,
            List.not_mem_nil, or_false, reduceCtorEq, Operation.scaffold.injEq] at inBody
          rcases inBody with ((rfl | rfl) | (rfl | rfl | rfl)) | rfl <;> rfl
  · simp [stepOps] at member

/-- An array holds no more elements than its `int64_t` counts. -/
def CapacityHeld (field : Transforms.Field κ) : Prop :=
  ∀ capacity, field.arrayKind = .fixed capacity → capacity < 2 ^ 63

theorem bound_eval_eq_one_iff {capacity : ℕ} (held : capacity < 2 ^ 63) :
    (Operand.indexCast .index (constantI64 capacity)).eval 0 = 1 ↔ capacity = 1 := by
  have count : (Operand.indexCast .index (constantI64 capacity)).eval 0 =
      BitVec.ofNat 64 capacity := BitVec.ofInt_natCast 64 capacity
  rw [count]
  constructor
  · intro single
    have value := congrArg BitVec.toNat single
    rw [BitVec.toNat_ofNat, Nat.mod_eq_of_lt (by omega)] at value
    exact value
  · rintro rfl
    rfl

theorem readStatements_inlined_step {field : Transforms.Field κ} (held : CapacityHeld field)
    (shape : InitializerShape κ) :
    readStatements ((stepOps field).flatMap inlined) shape =
      (unrolledDefault field).map shape.push := by
  by_cases single : SingleElement field
  · obtain ⟨name, element, arrayKind, alignmentBits, unionOptionIndex⟩ := field
    obtain ⟨kind, looped⟩ := single
    simp only at kind
    subst kind
    cases element with
    | scalar type =>
        simp only [ne_eq] at looped
        simp only [unrolledDefault, stepOps, fixedArrayOps, ne_eq, looped, not_false_eq_true,
          and_self, ↓reduceIte]
        rfl
    | composite composite =>
        simp only at looped
        simp only [unrolledDefault, stepOps, fixedArrayOps, looped]
        rfl
  · rw [(unrolledDefault_eq_iff field).mpr single, flatMap_inlined_of_several,
      readStatements_step]
    · rfl
    · intro bound body member one
      obtain ⟨capacity, kind, rfl, _, looped⟩ := loop_mem_stepOps member
      have unit := (bound_eval_eq_one_iff (held capacity kind)).mp one
      subst unit
      exact single ⟨kind, looped⟩

/-- The fields' operations read as their unrolled defaults, up to the first that is refused. -/
theorem readStatements_inlined_steps {fields : List (Transforms.Field κ)}
    (held : ∀ field ∈ fields, CapacityHeld field) (shape : InitializerShape κ) :
    readStatements ((fields.flatMap stepOps).flatMap inlined) shape =
      (fields.mapM unrolledDefault).map fun entries =>
        { shape with members := shape.members ++ entries } := by
  induction fields generalizing shape with
  | nil => simp [Except.map, pure, Except.pure]
  | cons field rest ih =>
      have tail := ih
        (fun other member => held other (List.mem_cons_of_mem _ member))
      rw [List.flatMap_cons, List.flatMap_append, readStatements_append,
        readStatements_inlined_step (held field (List.mem_cons_self ..)), List.mapM_cons]
      cases unrolledDefault field with
      | error message => rfl
      | ok entry =>
          simp only [Except.map, bind, Except.bind, tail]
          cases rest.mapM unrolledDefault with
          | error message => rfl
          | ok entries => simp [InitializerShape.push, pure, Except.pure]

theorem mapM_unrolledDefault_iff (fields : List (Transforms.Field κ)) :
    fields.mapM unrolledDefault = .ok (fields.map fieldDefault) ↔
      ∀ field ∈ fields, ¬ SingleElement field := by
  induction fields with
  | nil => simp [pure, Except.pure]
  | cons field rest ih =>
      rw [List.mapM_cons, List.forall_mem_cons, ← ih,
        ← unrolledDefault_eq_iff field]
      cases unrolledDefault field with
      | error message => simp [bind, Except.bind]
      | ok entry =>
          cases rest.mapM unrolledDefault with
          | error message => simp [bind, Except.bind]
          | ok entries => simp [bind, Except.bind, pure, Except.pure]

theorem mem_initializedFields {plan : Plan κ} {field : Transforms.Field κ} :
    field ∈ plan.initializedFields ↔ field ∈ plan.fields := by
  rw [Plan.initializedFields]
  cases plan.isUnion with
  | true => exact mem_unionOptionsOf
  | false => exact Iff.rfl

theorem plainLoops_filledOps (plan : Plan κ) : PlainLoops (filledOps plan) := by
  intro bound body member
  have inStep : ∃ field ∈ plan.initializedFields, Statement.loop bound body ∈ stepOps field := by
    cases isUnion : plan.isUnion <;> simpa [filledOps, unionTagOps, isUnion] using member
  obtain ⟨field, _, inField⟩ := inStep
  obtain ⟨capacity, _, _, plain, _⟩ := loop_mem_stepOps inField
  exact plain

/-- Statements that set nothing. -/
def scaffolding (kinds : List Scaffold) : List (Statement κ) :=
  kinds.map fun kind => .plain (.scaffold kind)

theorem readStatements_scaffolding (kinds : List Scaffold) (shape : InitializerShape κ) :
    readStatements ((scaffolding kinds).flatMap inlined) shape = .ok shape := by
  induction kinds with
  | nil => rfl
  | cons kind rest ih => exact ih

theorem plainLoops_scaffolding (kinds : List Scaffold) :
    PlainLoops (scaffolding kinds : List (Statement κ)) := by
  intro bound body member
  obtain ⟨kind, _, isLoop⟩ := List.mem_map.mp member
  exact absurd isLoop (by simp)

theorem readStatements_of_scaffolding {kinds : List Scaffold} {target : List (Statement κ)}
    (canonical : CanonicalStatements (scaffolding kinds) target) (shape : InitializerShape κ) :
    readStatements target shape = .ok shape := by
  rw [readStatements_of_canonical canonical (plainLoops_scaffolding kinds),
    readStatements_scaffolding]

theorem readStatements_append_of_ok {first second : List (Statement κ)}
    {shape next : InitializerShape κ} (read : readStatements first shape = .ok next) :
    readStatements (first ++ second) shape = readStatements second next := by
  rw [readStatements_append, read]
  rfl

/-- The filled part of a canonicalised body reads as the fields' unrolled defaults. -/
theorem readStatements_inlined_filled {plan : Plan κ}
    (held : ∀ field ∈ plan.fields, CapacityHeld field) :
    readStatements ((filledOps plan).flatMap inlined) .empty =
      (plan.initializedFields.mapM unrolledDefault).map fun entries =>
        ⟨plan.isUnion, 0, entries⟩ := by
  have tagged : (unionTagOps plan.isUnion : List (Statement κ)).flatMap inlined =
      unionTagOps plan.isUnion := by
    cases plan.isUnion <;> rfl
  have fields := readStatements_inlined_steps
    (fun field member => held field (mem_initializedFields.mp member)) ⟨plan.isUnion, 0, []⟩
  rw [filledOps, List.flatMap_append, List.flatMap_append, List.flatMap_cons, tagged,
    List.append_assoc]
  refine (readStatements_filled plan _).trans ?_
  rw [readStatements_append, fields]
  cases plan.initializedFields.mapM unrolledDefault <;> rfl

theorem readInitializer_canonical {plan : Plan κ}
    (held : ∀ field ∈ plan.fields, CapacityHeld field) {canonical : Body κ}
    (step : (buildTypedInitializeBody plan).Canonicalizes canonical) :
    readInitializer canonical =
      (plan.initializedFields.mapM unrolledDefault).map fun entries =>
        ⟨plan.isUnion, 0, entries⟩ := by
  generalize built : buildTypedInitializeBody plan = body at step
  cases step with
  | guarded refusal beforeStep refusedStep filledStep afterStep =>
      simp only [buildTypedInitializeBody, Body.guarded.injEq] at built
      obtain ⟨rfl, rfl, rfl, rfl, rfl⟩ := built
      have before := @readStatements_of_scaffolding κ [.isNull] _ beforeStep
      have refused := @readStatements_of_scaffolding κ [.constant, .yield] _ refusedStep
      have after := @readStatements_of_scaffolding κ [.ret] _ afterStep
      have filled := readStatements_of_canonical filledStep (plainLoops_filledOps plan) .empty
      rw [readInitializer, walk]
      simp only [List.append_assoc, List.cons_append, readStatements_scaffold]
      rw [readStatements_append_of_ok (before _), readStatements_scaffold,
        readStatements_append_of_ok (refused _), readStatements_append, filled,
        readStatements_inlined_filled held]
      cases plan.initializedFields.mapM unrolledDefault with
      | error message => rfl
      | ok entries => exact after _
  | folded refusal step =>
      simp only [buildTypedInitializeBody, Body.guarded.injEq] at built
      obtain ⟨rfl, rfl, rfl, rfl, rfl⟩ := built
      have plain : PlainLoops ([.plain (.scaffold .isNull)] ++ filledOps plan ++
          [.plain (.scaffold .ret)] : List (Statement κ)) := by
        intro bound body member
        have inFilled : Statement.loop bound body ∈ filledOps plan := by simpa using member
        exact plainLoops_filledOps plan bound body inFilled
      rw [readInitializer, walk, readStatements_scaffold, readStatements_of_canonical step plain,
        List.flatMap_append, List.flatMap_append, List.append_assoc]
      refine (readStatements_append_of_ok (readStatements_scaffolding [.isNull] _)).trans ?_
      rw [readStatements_append, readStatements_inlined_filled held]
      cases plan.initializedFields.mapM unrolledDefault with
      | error message => rfl
      | ok entries => exact readStatements_scaffolding [.ret] _

/-- As it is built, the body of every plan reads as its fields' defaults. A canonicalised body
does exactly when no field is a fixed array of one element whose default is set in a loop. -/
theorem readsAsDefaults_iff {bounds : κ → Bounds} {nestedOk : κ → Prop} {plan : Plan κ}
    (wellFormed : plan.WellFormed bounds nestedOk)
    (held : ∀ field ∈ plan.fields, CapacityHeld field) :
    ReadsAsDefaults plan (buildTypedInitializeBody plan) ∧
      ∀ canonical, (buildTypedInitializeBody plan).Canonicalizes canonical →
        (ReadsAsDefaults plan canonical ↔ ∀ field ∈ plan.fields, ¬ SingleElement field) := by
  have counted := fun field => @count_planDefaults κ bounds nestedOk plan wellFormed field
  have denotes : ∀ {ω : Type} (callees : InitializeCallees κ ω) (object : Record ω),
      (planDefaults plan).denote callees object =
        (buildTypedInitializeBody plan).run callees false object := by
    intro ω callees object
    rw [planDefaults_denote, run_buildTypedInitializeBody]
  refine ⟨⟨readInitializer_built plan, counted, denotes⟩, ?_⟩
  intro canonical step
  have same : readInitializer canonical = .ok (planDefaults plan) ↔
      plan.initializedFields.mapM unrolledDefault =
        .ok (plan.initializedFields.map fieldDefault) := by
    rw [readInitializer_canonical held step]
    cases plan.initializedFields.mapM unrolledDefault with
    | error message => simp [Except.map]
    | ok entries => simp [Except.map, planDefaults]
  rw [mapM_unrolledDefault_iff] at same
  constructor
  · rintro ⟨reads, -, -⟩ field member
    exact same.mp reads field (mem_initializedFields.mpr member)
  · intro several
    refine ⟨same.mpr fun field member => several field (mem_initializedFields.mp member),
      counted, ?_⟩
    intro ω callees object
    rw [denotes, step.run_eq callees object]

/-! ### An array of one float -/

def float32 : ScalarType :=
  { category := .float
    castMode := .saturated
    bitLength := 32
    supported := by decide }

def floatArray (capacity : ℕ) : Plan Empty :=
  { isUnion := false
    unionTagBits := 0
    minBits := capacity * 32
    maxBits := capacity * 32
    steps := [.field ⟨"value", .scalar float32, .fixed capacity, 1, 0⟩] }

def noBounds : Empty → Bounds := nofun

theorem floatArray_wellFormed {capacity : ℕ} (positive : 0 < capacity) (few : capacity < 2 ^ 32) :
    (floatArray capacity).WellFormed noBounds fun _ => True where
  counted := by
    simp only [floatArray]
    omega
  names := by
    simp [Plan.fields, floatArray, PlanStep.field?]
  struct _ :=
    { steps := by
        refine ⟨?_, trivial⟩
        intro field isField
        cases isField
        exact ⟨positive, fun composite isComposite => nomatch isComposite⟩
      reach := by
        simp only [reachOf, floatArray, List.foldl_cons, List.foldl_nil, PlanStep.reach,
          Transforms.Field.maxBits, Element.maxBits, float32, alignUp]
        omega
      floor := by
        simp only [floorOf, floatArray, List.foldl_cons, List.foldl_nil, PlanStep.floor,
          Transforms.Field.minBits, Element.minBits, float32]
        rw [Nat.zero_add]
        exact le_alignUp _ }
  union isUnion := absurd isUnion (by simp [floatArray])

theorem floatArray_held {capacity : ℕ} (few : capacity < 2 ^ 32) :
    ∀ field ∈ (floatArray capacity).fields, CapacityHeld field := by
  intro field member declared kind
  simp only [Plan.fields, floatArray, List.filterMap_cons, PlanStep.field?, List.filterMap_nil,
    List.mem_singleton] at member
  subst member
  simp only [ArrayKind.fixed.injEq] at kind
  omega

def zeroFloat : Operand := .constant (zeroOf (.float 32))

/-- Two floats, once the null test has folded away: the loop stays. -/
def twoFloatsBody : Body Empty :=
  .straight
    [.loop (.constant ⟨.index, 2⟩)
        [.scaffold .indexCast, .storeElement "value" loopIndex zeroFloat, .scaffold .yield],
      .plain (.scaffold .ret)]

theorem twoFloatsBody_canonical :
    (buildTypedInitializeBody (floatArray 2)).Canonicalizes twoFloatsBody := by
  have step : CanonicalStatements
      ([.plain (.scaffold .isNull)] ++ filledOps (floatArray 2) ++ [.plain (.scaffold .ret)])
      [.loop (.constant ⟨.index, 2⟩)
          [.scaffold .indexCast, .storeElement "value" loopIndex zeroFloat, .scaffold .yield],
        .plain (.scaffold .ret)] := by
    refine .drop _ (.drop _ (.drop _ (.drop _ (.drop _ (.drop _ ?_)))))
    refine .loop (by decide) (.cast rfl rfl) ?_ (.drop _ (.drop _ (.emit _ .nil)))
    exact .emit rfl (.drop _ (.drop _ (.keep (.storeElement _ (.refl _) _)
      (.emit rfl (.drop _ .nil)))))
  exact .folded _ step

theorem readsAsDefaults_iff_two : ReadsAsDefaults (floatArray 2) twoFloatsBody := by
  have several : ∀ field ∈ (floatArray 2).fields, ¬ SingleElement field := by
    intro field member single
    simp only [Plan.fields, floatArray, List.filterMap_cons, PlanStep.field?,
      List.filterMap_nil, List.mem_singleton] at member
    subst member
    exact absurd single.1 (by decide)
  exact ((readsAsDefaults_iff (floatArray_wellFormed (by decide) (by decide))
    (floatArray_held (by decide))).2 twoFloatsBody twoFloatsBody_canonical).mpr several

/-- One float, once the null test has folded away: its loop is in line. -/
def oneFloatBody : Body Empty :=
  .straight [.plain (.storeElement "value" (constantI64 0) zeroFloat), .plain (.scaffold .ret)]

/-- An array of one float is well formed and reads as it is built; its canonicalised body does
not read at all. -/
theorem single_element_unread :
    (floatArray 1).WellFormed noBounds (fun _ => True) ∧
      readInitializer (buildTypedInitializeBody (floatArray 1)) =
        .ok (planDefaults (floatArray 1)) ∧
      (buildTypedInitializeBody (floatArray 1)).Canonicalizes oneFloatBody ∧
      readInitializer oneFloatBody =
        .error ("initialise body: dsdl.store_element: " ++
          "not an operation of an initialise body") ∧
      ¬ ReadsAsDefaults (floatArray 1) oneFloatBody := by
  have step : CanonicalStatements
      ([.plain (.scaffold .isNull)] ++ filledOps (floatArray 1) ++ [.plain (.scaffold .ret)])
      [.plain (.storeElement "value" (constantI64 0) zeroFloat), .plain (.scaffold .ret)] := by
    refine .drop _ (.drop _ (.drop _ (.drop _ (.drop _ (.drop _ ?_)))))
    refine .inline (by decide) (.drop _ (.drop _ (.keep (.storeElement _ (.cast rfl rfl) _) ?_)))
    exact .drop _ (.drop _ (.drop _ (.emit _ .nil)))
  have refused : readInitializer oneFloatBody =
      .error ("initialise body: dsdl.store_element: " ++
        "not an operation of an initialise body") := rfl
  refine ⟨floatArray_wellFormed (by decide) (by decide), readInitializer_built _,
    .folded _ step, refused, ?_⟩
  rintro ⟨reads, -, -⟩
  rw [refused] at reads
  cases reads

end LlvmDsdl.CodeGen
