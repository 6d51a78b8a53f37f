import LlvmDsdl.Semantics.UnionOffset

/-!
Contract: the check of a section's extent.

Owns: the values of analyses free of what was reported before them, the part of the
walk's state that decides the lengths of a section, the proof that the extent has no
part in it, and when the check is sound, free of overflow and satisfied by the extent
it suggests.
-/

namespace LlvmDsdl.Semantics

open Frontend Support Support.IntegerMath Library Library.TaskSystem

section Steady

variable {α γ : Type} {answers : Results}

/-- The value does not depend on what was reported before. -/
def Steady (answers : Results) (computation : Analysis α) : Prop :=
  ∀ first second, (runWith answers computation first).1 = (runWith answers computation second).1

def valueOf (answers : Results) (computation : Analysis α) : α :=
  (runWith answers computation []).1

theorem Steady.value {computation : Analysis α} (steady : Steady answers computation)
    (before : List Diagnostic) :
    (runWith answers computation before).1 = valueOf answers computation :=
  steady before []

theorem steady_pure (value : α) : Steady answers (pure value) := fun _ _ => rfl

theorem steady_bind {computation : Analysis α} {next : α → Analysis γ}
    (first : Steady answers computation) (then_ : ∀ value, Steady answers (next value)) :
    Steady answers (computation >>= next) := by
  intro left right
  rw [runWith_bind, runWith_bind, first left right]
  exact then_ _ _ _

theorem steady_unit (computation : Analysis Unit) : Steady answers computation := fun _ _ => rfl

theorem steady_refuse {location : SourceLocation} {message : String} :
    Steady answers (refuse location message : Analysis (Option α)) :=
  steady_bind (steady_unit _) fun _ => steady_pure none

theorem steady_analyzeOther (key : TypeKey) : Steady answers (analyzeOther key) := fun _ _ => rfl

theorem steady_settle {location : SourceLocation} {result : Except String Value} :
    Steady answers (settle location result) := by
  cases result with
  | ok value => exact steady_pure _
  | error message => exact steady_refuse

variable {scope : Scope} {owner : DiscoveredDefinition}

theorem steady_resolveCompositeType {type : VersionedTypeExprAST} {location : SourceLocation} :
    Steady answers (resolveCompositeType scope owner type location) := by
  rw [resolveCompositeType]
  split
  · exact steady_pure _
  · exact steady_refuse

theorem steady_resolvedDefinition {resolved : ResolvedCompositeDefinition} :
    Steady answers (resolvedDefinition resolved) := by
  rw [resolvedDefinition]
  split
  · exact steady_pure _
  · exact steady_analyzeOther _

theorem steady_typeAttrResolver (type : TypeExprAST) (name : String) (location : SourceLocation) :
    Steady answers (typeAttrResolver scope owner type name location) := by
  rw [typeAttrResolver]
  split
  · apply steady_bind steady_resolveCompositeType
    intro found
    cases found with
    | none => exact steady_pure _
    | some resolved =>
        apply steady_bind steady_resolvedDefinition
        intro answer
        cases answer with
        | none => exact steady_refuse
        | some definition =>
            dsimp only
            split
            · exact steady_refuse
            · split
              · exact steady_pure _
              · exact steady_refuse
  · exact steady_refuse

/-! ### Evaluation -/

variable {host : Host} {env : ValueEnv}

theorem steady_applyAttribute (location : SourceLocation) (value : Value) (name : String) :
    Steady answers
      (applyAttribute host (some (typeAttrResolver scope owner)) location value name) := by
  by_cases isType : ∃ type, value = .type type
  · have ⟨type, same⟩ := isType
    rw [same]
    exact steady_typeAttrResolver type name location
  · rw [applyAttribute_of_not_type fun type same => isType ⟨type, same⟩]
    exact steady_settle

mutual

theorem steady_evaluate (expr : ExprAST) :
    Steady answers (evaluate host env (some (typeAttrResolver scope owner)) expr) := by
  cases expr with
  | boolean _ value => rw [evaluate]; exact steady_pure _
  | rational _ value => rw [evaluate]; exact steady_pure _
  | string _ value => rw [evaluate]; exact steady_pure _
  | identifier location name =>
      rw [evaluate]
      split
      · exact steady_pure _
      · exact steady_refuse
  | unary location op operand =>
      rw [evaluate]
      apply steady_bind (steady_evaluate operand)
      intro value
      cases value with
      | none => exact steady_pure _
      | some value => exact steady_settle
  | binary location op lhs rhs =>
      by_cases isAttribute : op = .attribute
      · rw [isAttribute, evaluate]
        apply steady_bind (steady_evaluate lhs)
        intro value
        cases value with
        | none => exact steady_pure _
        | some value =>
            cases rhs with
            | identifier _ name => exact steady_applyAttribute location value name
            | _ => exact steady_refuse
      · rw [evaluate]
        apply steady_bind (steady_evaluate lhs)
        intro left
        apply steady_bind (steady_evaluate rhs)
        intro right
        cases left with
        | none => exact steady_pure _
        | some leftValue =>
            cases right with
            | none => exact steady_pure _
            | some rightValue => exact steady_settle
        · exact isAttribute
  | setLiteral location elements =>
      rw [evaluate]
      exact steady_bind (steady_evaluateElements elements _) fun _ => steady_pure _
  | typeLiteral _ type => rw [evaluate]; exact steady_pure _

theorem steady_evaluateElements (elements : List ExprAST) (set : RationalSet) :
    Steady answers
      (evaluateElements host env (some (typeAttrResolver scope owner)) elements set) := by
  cases elements with
  | nil => rw [evaluateElements]; exact steady_pure _
  | cons element rest =>
      rw [evaluateElements]
      apply steady_bind (steady_evaluate element)
      intro value
      cases value with
      | none => exact steady_pure _
      | some value =>
          cases value with
          | rational number => exact steady_evaluateElements rest _
          | _ => exact steady_refuse

end

theorem steady_evaluateExpression (expr : ExprAST) (location : SourceLocation) :
    Steady answers
      (evaluateExpression host env (some (typeAttrResolver scope owner)) expr location) := by
  intro first second
  have evaluated := @steady_evaluate answers scope owner host env expr first second
  have value (before : List Diagnostic) :
      (runWith answers (evaluateExpression host env (some (typeAttrResolver scope owner)) expr
        location) before).1 =
      (runWith answers (evaluate host env (some (typeAttrResolver scope owner)) expr) before).1 := by
    have read : runWith answers (get : Analysis (List Diagnostic)) before = (before, before) := rfl
    rw [evaluateExpression, runWith_bind, read, runWith_bind]
    cases (runWith answers (evaluate host env (some (typeAttrResolver scope owner)) expr)
      before).1 with
    | some found => rfl
    | none =>
        dsimp only
        rw [runWith_bind]
        split <;> rfl
  rw [value, value, evaluated]

/-! ### Types -/

theorem steady_baseFromScalar {type : TypeExprAST} :
    Steady answers (baseFromScalar scope owner type) := by
  rw [baseFromScalar]
  split
  · exact steady_pure _
  · exact steady_pure _
  · apply steady_bind steady_resolveCompositeType
    intro found
    cases found with
    | none => exact steady_pure _
    | some resolved =>
        apply steady_bind steady_resolvedDefinition
        intro answer
        cases answer with
        | none => exact steady_pure _
        | some definition =>
            dsimp only
            split
            · exact steady_bind (steady_unit _) fun _ => steady_pure _
            · exact steady_pure _

theorem steady_faultyType {location : SourceLocation} {message : String} :
    Steady answers (faultyType location message) :=
  steady_bind (steady_unit _) fun _ => steady_pure _

theorem steady_arrayLayout {location : SourceLocation} {kind : ArrayKind} {layout : TypeLayout}
    {capacity : ℤ} : Steady answers (arrayLayout location kind layout capacity) := by
  cases kind with
  | none => exact steady_pure _
  | fixed =>
      rw [arrayLayout, fixedArray]
      split
      · exact steady_faultyType
      · exact steady_pure _
  | variableExclusive =>
      rw [arrayLayout]
      split
      · exact steady_faultyType
      · exact steady_pure _
  | variableInclusive =>
      rw [arrayLayout]
      split
      · exact steady_faultyType
      · exact steady_pure _

theorem steady_analyzeType {type : TypeExprAST} :
    Steady answers (analyzeType scope env (typeAttrResolver scope owner) owner type) := by
  rw [analyzeType]
  apply steady_bind steady_baseFromScalar
  intro base
  dsimp only
  split
  · exact steady_pure _
  · exact steady_faultyType
  · exact steady_faultyType
  · apply steady_bind (steady_evaluateExpression _ _)
    intro value
    split
    · exact steady_faultyType
    · exact steady_faultyType
    · exact steady_arrayLayout

end Steady

section Frame

variable {m : Type → Type} [Monad m] {host : Host} {env other : ValueEnv}
  {resolver : Option (TypeAttributeResolver m)}

/-- The environments give every name but `_offset_` the same value. -/
def AgreeOffOffset (env other : ValueEnv) : Prop :=
  ∀ name, name ≠ "_offset_" → env name = other name

mutual

theorem evaluate_congr (agree : AgreeOffOffset env other) (expr : ExprAST)
    (plain : exprContainsOffset expr = false) :
    evaluate host env resolver expr = evaluate host other resolver expr := by
  cases expr with
  | boolean _ value => rw [evaluate, evaluate]
  | rational _ value => rw [evaluate, evaluate]
  | string _ value => rw [evaluate, evaluate]
  | identifier location name =>
      rw [exprContainsOffset, beq_eq_false_iff_ne] at plain
      rw [evaluate, evaluate, agree name plain]
  | unary location op operand =>
      rw [exprContainsOffset] at plain
      rw [evaluate, evaluate, evaluate_congr agree operand plain]
  | binary location op lhs rhs =>
      rw [exprContainsOffset, Bool.or_eq_false_iff] at plain
      have left := evaluate_congr agree lhs plain.1
      by_cases isAttribute : op = .attribute
      · rw [isAttribute, evaluate, evaluate, left]
      · have right := evaluate_congr agree rhs plain.2
        rw [evaluate, evaluate, left, right]
        · exact isAttribute
        · exact isAttribute
  | setLiteral location elements =>
      rw [exprContainsOffset] at plain
      rw [evaluate, evaluate, evaluateElements_congr agree elements _ plain]
  | typeLiteral _ type => rw [evaluate, evaluate]

theorem evaluateElements_congr (agree : AgreeOffOffset env other) (elements : List ExprAST)
    (set : RationalSet) (plain : anyContainsOffset elements = false) :
    evaluateElements host env resolver elements set =
      evaluateElements host other resolver elements set := by
  cases elements with
  | nil => rw [evaluateElements, evaluateElements]
  | cons element rest =>
      rw [anyContainsOffset, Bool.or_eq_false_iff] at plain
      have later (set : RationalSet) := evaluateElements_congr agree rest set plain.2
      rw [evaluateElements, evaluateElements, evaluate_congr agree element plain.1]
      simp only [later]

end

theorem evaluateExpression_congr (agree : AgreeOffOffset env other) {expr : ExprAST}
    (plain : exprContainsOffset expr = false) (location : SourceLocation) :
    evaluateExpression host env resolver expr location =
      evaluateExpression host other resolver expr location := by
  rw [evaluateExpression, evaluateExpression, evaluate_congr agree expr plain]

end Frame

theorem analyzeType_congr {scope : Scope} {owner : DiscoveredDefinition} {env other : ValueEnv}
    {resolver : TypeAttributeResolver Ask} {type : TypeExprAST} (agree : AgreeOffOffset env other)
    (plain : type.arrayCapacity.any exprContainsOffset = false) :
    analyzeType scope env resolver owner type = analyzeType scope other resolver owner type := by
  unfold analyzeType
  refine bind_congr fun base => ?_
  cases capacity : type.arrayCapacity with
  | none => cases type.arrayKind <;> cases type.scalar <;> rfl
  | some expression =>
      rw [capacity] at plain
      have same (location : SourceLocation) := @evaluateExpression_congr Ask _ scope.host env other
        (some resolver) agree expression plain location
      cases type.arrayKind <;> cases type.scalar <;> simp only [same]

/-! ### The part of the state that decides the lengths -/

/-- The states agree on all that the lengths of the section depend on. -/
structure SameLayout (state other : SectionState) : Prop where
  isUnion : state.out.isUnion = other.out.isUnion
  structureOffset : state.structureOffset = other.structureOffset
  unionFields : state.unionFields = other.unionFields
  names : state.names = other.names
  env : AgreeOffOffset state.env other.env

/-- The states agree on the serialisation mode, once it is set. -/
structure KeepsMode (state after : SectionState) : Prop where
  mode : state.serializationModeSet = true → after.serializationModeSet = true
  extentBits : state.serializationModeSet = true → after.out.extentBits = state.out.extentBits
  isSealed : state.serializationModeSet = true → after.out.sealed = state.out.sealed

theorem keepsMode_of_out {state after : SectionState}
    (mode : after.serializationModeSet = state.serializationModeSet)
    (extentBits : after.out.extentBits = state.out.extentBits)
    (isSealed : after.out.sealed = state.out.sealed) : KeepsMode state after :=
  ⟨fun set => mode.trans set, fun _ => extentBits, fun _ => isSealed⟩

theorem KeepsMode.trans {first second third : SectionState} (left : KeepsMode first second)
    (right : KeepsMode second third) : KeepsMode first third where
  mode set := right.mode (left.mode set)
  extentBits set := (right.extentBits (left.mode set)).trans (left.extentBits set)
  isSealed set := (right.isSealed (left.mode set)).trans (left.isSealed set)

/-- What a directive does to the layout, whatever it reports. -/
structure DirectiveKeeps (d : DirectiveAST) (state after : SectionState) : Prop where
  isUnion : after.out.isUnion = (state.out.isUnion || decide (d.kind = .union))
  structureOffset : after.structureOffset = state.structureOffset
  unionFields : after.unionFields = state.unionFields
  names : after.names = state.names
  env : after.env = state.env
  mode : KeepsMode state after

section Keeps

variable {scope : Scope} {owner : DiscoveredDefinition} {isResponse : Bool} {answers : Results}

theorem ends_pure {α : Type} {value : α} {post : α → Prop} (holds : post value) :
    Ends (pure value : Analysis α) post := fun _ => holds

theorem Ends.run {α : Type} {computation : Analysis α} {post : α → Prop}
    (ends : Ends computation post) (before : List Diagnostic) :
    post (runWith answers computation before).1 :=
  (ends before).eval_of fun _ => trivial

theorem directiveKeeps_of_same {d : DirectiveAST} {state after : SectionState}
    (other : d.kind ≠ .union) (isUnion : after.out.isUnion = state.out.isUnion)
    (structureOffset : after.structureOffset = state.structureOffset)
    (unionFields : after.unionFields = state.unionFields) (names : after.names = state.names)
    (env : after.env = state.env) (mode : KeepsMode state after) : DirectiveKeeps d state after :=
  ⟨by rw [isUnion, decide_eq_false other, Bool.or_false], structureOffset, unionFields, names,
    env, mode⟩

theorem keepsMode_refl (state : SectionState) : KeepsMode state state :=
  keepsMode_of_out rfl rfl rfl

theorem ends_analyzeDirective (d : DirectiveAST) (state : SectionState) :
    Ends (analyzeDirective scope owner isResponse d state) (DirectiveKeeps d state) := by
  rw [analyzeDirective]
  cases kind : d.kind with
  | union =>
      have isUnion : decide (d.kind = .union) = true := decide_eq_true kind
      apply ends_bind
      intro _
      apply ends_bind
      intro _
      apply ends_bind
      intro _
      apply ends_pure
      exact ⟨by rw [isUnion, Bool.or_true], rfl, rfl, rfl, rfl, keepsMode_of_out rfl rfl rfl⟩
  | unknown =>
      have other : d.kind ≠ .union := by rw [kind]; decide
      apply ends_bind
      intro _
      exact ends_pure (directiveKeeps_of_same other rfl rfl rfl rfl rfl (keepsMode_refl state))
  | aliasable =>
      have other : d.kind ≠ .union := by rw [kind]; decide
      apply ends_bind
      intro _
      apply ends_bind
      intro _
      exact ends_pure
        (directiveKeeps_of_same other rfl rfl rfl rfl rfl (keepsMode_of_out rfl rfl rfl))
  | deprecated =>
      have other : d.kind ≠ .union := by rw [kind]; decide
      apply ends_bind
      intro _
      apply ends_bind
      intro _
      apply ends_bind
      intro _
      apply ends_bind
      intro _
      exact ends_pure
        (directiveKeeps_of_same other rfl rfl rfl rfl rfl (keepsMode_of_out rfl rfl rfl))
  | extent =>
      have other : d.kind ≠ .union := by rw [kind]; decide
      have same := directiveKeeps_of_same other rfl rfl rfl rfl rfl (keepsMode_refl state)
      dsimp only
      rw [extentDirective]
      split
      · exact ends_bind fun _ => ends_pure same
      · exact ends_bind fun _ => ends_pure same
      · rename_i expression open_ _
        have used : DirectiveKeeps d state (useOffset state expression) :=
          directiveKeeps_of_same other rfl rfl rfl rfl rfl (keepsMode_of_out rfl rfl rfl)
        apply ends_bind
        intro value
        split
        · exact ends_bind fun _ => ends_pure used
        · exact ends_bind fun _ => ends_pure used
        · apply ends_bind
          intro _
          have unset {statement : Prop} : state.serializationModeSet = true → statement :=
            fun set => absurd (open_.symm.trans set) Bool.false_ne_true
          exact ends_pure (directiveKeeps_of_same other rfl rfl rfl rfl rfl ⟨unset, unset, unset⟩)
  | «sealed» =>
      have other : d.kind ≠ .union := by rw [kind]; decide
      dsimp only
      rw [sealedDirective]
      split
      · exact ends_bind fun _ =>
          ends_pure (directiveKeeps_of_same other rfl rfl rfl rfl rfl (keepsMode_refl state))
      · rename_i open_
        apply ends_bind
        intro _
        have unset {statement : Prop} : state.serializationModeSet = true → statement :=
          fun set => absurd set open_
        exact ends_pure (directiveKeeps_of_same other rfl rfl rfl rfl rfl ⟨unset, unset, unset⟩)
  | assert =>
      have other : d.kind ≠ .union := by rw [kind]; decide
      dsimp only
      rw [assertDirective]
      split
      · exact ends_bind fun _ =>
          ends_pure (directiveKeeps_of_same other rfl rfl rfl rfl rfl (keepsMode_refl state))
      · apply ends_bind
        intro _
        apply ends_bind
        intro _
        exact ends_pure
          (directiveKeeps_of_same other rfl rfl rfl rfl rfl (keepsMode_of_out rfl rfl rfl))
  | print =>
      have other : d.kind ≠ .union := by rw [kind]; decide
      dsimp only
      rw [printDirective]
      split
      · exact ends_bind fun _ =>
          ends_pure (directiveKeeps_of_same other rfl rfl rfl rfl rfl (keepsMode_refl state))
      · rename_i expression _
        have used : DirectiveKeeps d state (useOffset state expression) :=
          directiveKeeps_of_same other rfl rfl rfl rfl rfl (keepsMode_of_out rfl rfl rfl)
        apply ends_bind
        intro value
        cases value with
        | none => exact ends_pure used
        | some value => exact ends_bind fun _ => ends_pure used

/-! ### The states after an attribute -/

def constantState (answers : Results) (scope : Scope) (owner : DiscoveredDefinition)
    (c : ConstantDeclAST) (state : SectionState) : SectionState :=
  let started := { state with attributesStarted := true }
  match nameError state c.name with
  | some _ => started
  | none =>
      match valueOf answers (evaluateIn scope owner state c.value c.location) with
      | none => started
      | some value =>
          match constantError c.type value with
          | none => addConstant c value started
          | some _ => started

theorem runWith_analyzeConstant (c : ConstantDeclAST) (state : SectionState)
    (before : List Diagnostic) :
    (runWith answers (analyzeConstant scope owner c state) before).1 =
      constantState answers scope owner c state := by
  unfold analyzeConstant constantState
  rw [runWith_bind]
  dsimp only
  cases nameError state c.name with
  | some message => rfl
  | none =>
      dsimp only
      have steady : Steady answers (evaluateIn scope owner state c.value c.location) :=
        steady_evaluateExpression _ _
      rw [runWith_bind, steady.value]
      cases valueOf answers (evaluateIn scope owner state c.value c.location) with
      | none => rfl
      | some value =>
          dsimp only
          rw [runWith_bind, checkConstantCompatibility]
          cases constantError c.type value with
          | none => rfl
          | some message => rfl

def fieldState (answers : Results) (scope : Scope) (owner : DiscoveredDefinition)
    (isResponse : Bool) (f : FieldDeclAST) (state : SectionState) : SectionState :=
  match if f.isPadding then none else nameError state f.name with
  | some _ => { state with attributesStarted := true }
  | none =>
      if state.out.isUnion && f.isPadding then takeName f state
      else
        addField isResponse f
          (valueOf answers
            (analyzeType scope state.env (typeAttrResolver scope owner) owner f.type))
          (takeName f state)

theorem runWith_analyzeField (f : FieldDeclAST) (state : SectionState)
    (before : List Diagnostic) :
    (runWith answers (analyzeField scope owner isResponse f state) before).1 =
      fieldState answers scope owner isResponse f state := by
  unfold analyzeField fieldState
  rw [runWith_bind]
  dsimp only
  cases (if f.isPadding then none else nameError state f.name) with
  | some message => rfl
  | none =>
      dsimp only
      split
      · rfl
      · have steady : Steady answers
            (analyzeType scope state.env (typeAttrResolver scope owner) owner f.type) :=
          steady_analyzeType
        rw [runWith_bind, runWith_bind, steady.value]
        rfl

/-! ### Two walks that differ in an extent -/

theorem SameLayout.currentOffset {state other : SectionState} (same : SameLayout state other) :
    currentOffset state = currentOffset other := by
  rw [Semantics.currentOffset, Semantics.currentOffset, same.isUnion, same.structureOffset,
    same.unionFields]

/-- Entered states have the same layout, and the same `_offset_` where it is used. -/
theorem SameLayout.enter {state other : SectionState} (same : SameLayout state other)
    (stmt : StatementAST) : SameLayout (enterStatement stmt state) (enterStatement stmt other) := by
  rw [enterStatement, enterStatement, same.currentOffset]
  split
  · refine ⟨same.isUnion, same.structureOffset, same.unionFields, same.names, ?_⟩
    intro name away
    dsimp only [SectionState.bind]
    rw [Function.update_of_ne away, Function.update_of_ne away]
    exact same.env name away
  · exact ⟨same.isUnion, same.structureOffset, same.unionFields, same.names, same.env⟩

theorem SameLayout.enter_env {state other : SectionState} (same : SameLayout state other)
    {stmt : StatementAST} (needs : stmtNeedsOffset stmt = true) :
    (enterStatement stmt state).env = (enterStatement stmt other).env := by
  funext name
  by_cases isOffset : name = "_offset_"
  · rw [enterStatement, enterStatement, if_pos needs, if_pos needs, same.currentOffset, isOffset]
    simp only [SectionState.bind, Function.update_self]
  · exact (same.enter stmt).env name isOffset

theorem SameLayout.evaluateIn {state other : SectionState} (same : SameLayout state other)
    {stmt : StatementAST} {expression : ExprAST}
    (within : stmtNeedsOffset stmt = exprContainsOffset expression) (location : SourceLocation) :
    evaluateIn scope owner (enterStatement stmt state) expression location =
      evaluateIn scope owner (enterStatement stmt other) expression location := by
  rw [Semantics.evaluateIn, Semantics.evaluateIn]
  cases needs : stmtNeedsOffset stmt with
  | true => rw [same.enter_env needs]
  | false => exact evaluateExpression_congr (same.enter stmt).env (within.symm.trans needs) location

theorem nameError_congr {state other : SectionState} (names : state.names = other.names)
    (name : String) : nameError state name = nameError other name := by
  rw [nameError, nameError, names]

theorem SameLayout.addConstant {state other : SectionState} (same : SameLayout state other)
    (c : ConstantDeclAST) (value : Value) :
    SameLayout (addConstant c value state) (addConstant c value other) := by
  refine ⟨same.isUnion, same.structureOffset, same.unionFields,
    congrArg (c.name :: ·) same.names, ?_⟩
  intro name away
  dsimp only [Semantics.addConstant, SectionState.bind]
  by_cases isNew : name = c.name
  · rw [isNew, Function.update_self, Function.update_self]
  · rw [Function.update_of_ne isNew, Function.update_of_ne isNew]
    exact same.env name away

theorem SameLayout.constant {state other : SectionState} (same : SameLayout state other)
    (c : ConstantDeclAST) :
    SameLayout
      (constantState answers scope owner c (enterStatement (.constant c) state))
      (constantState answers scope owner c (enterStatement (.constant c) other)) := by
  have entered := same.enter (.constant c)
  have started : SameLayout
      { enterStatement (.constant c) state with attributesStarted := true }
      { enterStatement (.constant c) other with attributesStarted := true } :=
    ⟨entered.isUnion, entered.structureOffset, entered.unionFields, entered.names, entered.env⟩
  unfold constantState
  rw [nameError_congr entered.names,
    @SameLayout.evaluateIn scope owner state other same (.constant c) c.value rfl]
  dsimp only
  cases nameError (enterStatement (.constant c) other) c.name with
  | some message => exact started
  | none =>
      dsimp only
      cases valueOf answers (Semantics.evaluateIn scope owner (enterStatement (.constant c) other)
        c.value c.location) with
      | none => exact started
      | some value =>
          dsimp only
          cases constantError c.type value with
          | some message => exact started
          | none => exact started.addConstant c value

theorem SameLayout.takeName {state other : SectionState} (same : SameLayout state other)
    (f : FieldDeclAST) : SameLayout (takeName f state) (takeName f other) := by
  rw [Semantics.takeName, Semantics.takeName]
  split
  · exact ⟨same.isUnion, same.structureOffset, same.unionFields, same.names, same.env⟩
  · exact ⟨same.isUnion, same.structureOffset, same.unionFields,
      congrArg (f.name :: ·) same.names, same.env⟩

theorem SameLayout.addField {state other : SectionState} (same : SameLayout state other)
    (f : FieldDeclAST) (layout : TypeLayout) :
    SameLayout (addField isResponse f layout state) (addField isResponse f layout other) := by
  rw [Semantics.addField, Semantics.addField, same.isUnion]
  split
  · refine ⟨same.isUnion, same.structureOffset, ?_, same.names, same.env⟩
    exact congrArg (· ++ [layout]) same.unionFields
  · refine ⟨same.isUnion, ?_, same.unionFields, same.names, same.env⟩
    exact congrArg (fun offset => (offset.padToAlignment layout.alignment).add layout.bls)
      same.structureOffset

theorem SameLayout.field {state other : SectionState} (same : SameLayout state other)
    (f : FieldDeclAST) :
    SameLayout
      (fieldState answers scope owner isResponse f (enterStatement (.field f) state))
      (fieldState answers scope owner isResponse f (enterStatement (.field f) other)) := by
  have entered := same.enter (.field f)
  have type : analyzeType scope (enterStatement (.field f) state).env
        (typeAttrResolver scope owner) owner f.type =
      analyzeType scope (enterStatement (.field f) other).env
        (typeAttrResolver scope owner) owner f.type := by
    cases needs : stmtNeedsOffset (.field f) with
    | true => rw [same.enter_env needs]
    | false => exact analyzeType_congr entered.env needs
  rw [fieldState, fieldState, nameError_congr entered.names, entered.isUnion, type]
  split
  · exact ⟨entered.isUnion, entered.structureOffset, entered.unionFields, entered.names,
      entered.env⟩
  · split
    · exact entered.takeName f
    · exact (entered.takeName f).addField f _

theorem SameLayout.directive {d d' : DirectiveAST} (kind : d.kind = d'.kind)
    {state other after after' : SectionState} (same : SameLayout state other)
    (left : DirectiveKeeps d state after) (right : DirectiveKeeps d' other after') :
    SameLayout after after' where
  isUnion := by rw [left.isUnion, right.isUnion, same.isUnion, kind]
  structureOffset := by rw [left.structureOffset, right.structureOffset, same.structureOffset]
  unionFields := by rw [left.unionFields, right.unionFields, same.unionFields]
  names := by rw [left.names, right.names, same.names]
  env := by
    rw [left.env, right.env]
    exact same.env

theorem SameLayout.statement {state other : SectionState} (same : SameLayout state other)
    (stmt : StatementAST) (first second : List Diagnostic) :
    SameLayout (runWith answers (analyzeStatement scope owner isResponse state stmt) first).1
      (runWith answers (analyzeStatement scope owner isResponse other stmt) second).1 := by
  cases stmt with
  | directive d =>
      exact SameLayout.directive rfl (same.enter (.directive d))
        ((ends_analyzeDirective d _).run first) ((ends_analyzeDirective d _).run second)
  | constant c =>
      rw [analyzeStatement, analyzeStatement]
      rw [runWith_analyzeConstant, runWith_analyzeConstant]
      exact same.constant c
  | field f =>
      rw [analyzeStatement, analyzeStatement]
      rw [runWith_analyzeField, runWith_analyzeField]
      exact same.field f
  | serviceResponseMarker location => exact same.enter (.serviceResponseMarker location)

theorem SameLayout.statements {state other : SectionState} (same : SameLayout state other)
    (statements : List StatementAST) (first second : List Diagnostic) :
    SameLayout
      (runWith answers (analyzeStatements scope owner isResponse statements state) first).1
      (runWith answers (analyzeStatements scope owner isResponse statements other) second).1 := by
  induction statements generalizing state other first second with
  | nil => exact same
  | cons stmt rest ih =>
      rw [analyzeStatements, analyzeStatements, runWith_bind, runWith_bind]
      exact ih (same.statement stmt first second) _ _

theorem keepsMode_enter (stmt : StatementAST) (state : SectionState) :
    KeepsMode state (enterStatement stmt state) := by
  rw [enterStatement]
  split
  · exact keepsMode_of_out rfl rfl rfl
  · exact keepsMode_of_out rfl rfl rfl

theorem keepsMode_constantState (c : ConstantDeclAST) (state : SectionState) :
    KeepsMode state (constantState answers scope owner c state) := by
  unfold constantState
  dsimp only
  cases nameError state c.name with
  | some message => exact keepsMode_of_out rfl rfl rfl
  | none =>
      dsimp only
      cases valueOf answers (evaluateIn scope owner state c.value c.location) with
      | none => exact keepsMode_of_out rfl rfl rfl
      | some value =>
          dsimp only
          cases constantError c.type value with
          | some message => exact keepsMode_of_out rfl rfl rfl
          | none => exact keepsMode_of_out rfl rfl rfl

theorem keepsMode_takeName (f : FieldDeclAST) (state : SectionState) :
    KeepsMode state (takeName f state) := by
  rw [takeName]
  split
  · exact keepsMode_of_out rfl rfl rfl
  · exact keepsMode_of_out rfl rfl rfl

theorem keepsMode_fieldState (f : FieldDeclAST) (state : SectionState) :
    KeepsMode state (fieldState answers scope owner isResponse f state) := by
  rw [fieldState]
  split
  · exact keepsMode_of_out rfl rfl rfl
  · split
    · exact keepsMode_takeName f state
    · apply (keepsMode_takeName f state).trans
      rw [addField]
      split
      · exact keepsMode_of_out rfl rfl rfl
      · exact keepsMode_of_out rfl rfl rfl

/-- Once a serialisation mode is set, no statement changes it or the extent. -/
theorem keepsMode_statements (statements : List StatementAST) (state : SectionState)
    (before : List Diagnostic) :
    KeepsMode state
      (runWith answers (analyzeStatements scope owner isResponse statements state) before).1 := by
  induction statements generalizing state before with
  | nil => exact keepsMode_refl state
  | cons stmt rest ih =>
      rw [analyzeStatements, runWith_bind]
      refine KeepsMode.trans ?_ (ih _ _)
      apply (keepsMode_enter stmt state).trans
      cases stmt with
      | directive d => exact ((ends_analyzeDirective d _).run before).mode
      | constant c =>
          rw [analyzeStatement]
          rw [runWith_analyzeConstant]
          exact keepsMode_constantState c _
      | field f =>
          rw [analyzeStatement]
          rw [runWith_analyzeField]
          exact keepsMode_fieldState f _
      | serviceResponseMarker location => exact keepsMode_refl _

end Keeps

section Law

variable (scope : Scope) (answers : Results) (task : SectionTask)

def endState : SectionState :=
  (task.walked scope answers task.statements).1

def extentReports : List Diagnostic :=
  let out := closeOffsets (endState scope answers task)
  if out.sealed then []
  else (runWith answers (checkExtent task.owner (endState scope answers task) out) []).2

def checkedExtent : ℤ :=
  ((task.run scope answers).1.extentBits).getD (-1)

/-- An `@extent` that is reached before a serialisation mode is set. -/
structure ExtentAt (front : List StatementAST) (d : DirectiveAST) (e : ExprAST)
    (back : List StatementAST) : Prop where
  whole : task.statements = front ++ .directive d :: back
  kind : d.kind = .extent
  expression : d.expression = some e
  unset : (task.walked scope answers front).1.serializationModeSet = false

/-- The directive over a written number of bits. -/
def writtenExtent (d : DirectiveAST) (e : ExprAST) (bits : ℤ) : DirectiveAST :=
  { d with expression := some (.rational e.location (.ofInteger bits)) }

/-- The section whose `@extent` is a written number of bits. -/
def withExtent (front : List StatementAST) (d : DirectiveAST) (e : ExprAST)
    (back : List StatementAST) (bits : ℤ) : SectionTask :=
  { task with statements := front ++ .directive (writtenExtent d e bits) :: back }

def AcceptsExtent : Prop :=
  (task.run scope answers).1.sealed = false ∧ extentReports scope answers task = []

/-- An accepted extent is a whole number of bytes that holds every form of the section, the
suggestion does not overflow, and the section with the suggested extent is accepted. -/
structure ExtentLaw (front : List StatementAST) (d : DirectiveAST) (e : ExprAST)
    (back : List StatementAST) : Prop where
  sound : AcceptsExtent scope answers task →
    ∃ extent, (task.run scope answers).1.extentBits = some extent ∧ 0 ≤ extent ∧ 8 ∣ extent ∧
      ∀ length ∈ (task.run scope answers).1.offsetAtEnd.expr.exactDenote, length ≤ extent
  noOverflow : (task.run scope answers).1.sealed = false →
    InInt64 (suggestedExtent (task.run scope answers).1.offsetAtEnd.max
      (checkedExtent scope answers task))
  suggestion : ∀ report ∈ extentReports scope answers task, ∀ bits,
    report.suggestedExtent = some bits →
      AcceptsExtent scope answers (withExtent task front d e back bits) ∧
        (SectionTask.run scope answers (withExtent task front d e back bits)).1.extentBits =
          some bits

/-- The last multiple of eight that 64 bits hold. -/
def lastExtent : ℤ := 2 ^ 63 - 8

/-- Neither the extent nor a form of the section is longer than the last multiple of eight
that 64 bits hold. -/
def ExtentFits : Prop :=
  (task.run scope answers).1.sealed = false →
    checkedExtent scope answers task ≤ lastExtent ∧
      ∀ length ∈ (task.run scope answers).1.offsetAtEnd.expr.exactDenote, length ≤ lastExtent

end Law

/-! ### The suggestion -/

theorem le_suggestedExtent (longest extent : ℤ) :
    0 ≤ suggestedExtent longest extent ∧ longest ≤ suggestedExtent longest extent ∧
      extent ≤ suggestedExtent longest extent ∧ 8 ∣ suggestedExtent longest extent := by
  unfold suggestedExtent
  dsimp only
  split
  · omega
  · omega

theorem suggestedExtent_le {longest extent : ℤ} (longestFits : longest ≤ lastExtent)
    (extentFits : extent ≤ lastExtent) : suggestedExtent longest extent ≤ lastExtent := by
  unfold suggestedExtent
  unfold lastExtent at longestFits extentFits ⊢
  dsimp only
  split
  · omega
  · omega

/-- Below the ceiling the greatest value is that of the exact lengths. -/
theorem max_le_iff_exact (set : LengthSet) {bound : ℤ} (below : bound < int64Max) :
    set.max ≤ bound ↔ ∀ length ∈ set.expr.exactDenote, length ≤ bound := by
  have image : set.denote = Library.Rounding.clamp int64Max '' set.expr.exactDenote :=
    Expr.denote_eq_image set.wellFormed
  have greatest := set.max_isGreatest
  rw [image] at greatest
  constructor
  · intro max length member
    have clamped : Library.Rounding.clamp int64Max length ≤ bound :=
      (greatest.2 (Set.mem_image_of_mem _ member)).trans max
    rw [Library.Rounding.clamp] at clamped
    rcases min_le_iff.mp clamped with here | ceiling
    · exact here
    · exact absurd ceiling (not_le.mpr below)
  · intro every
    obtain ⟨length, member, same⟩ := greatest.1
    rw [← same]
    exact (min_le_left _ _).trans (every length member)

section End

variable {scope : Scope} {answers : Results} {task : SectionTask}

theorem run_eq_closeSection :
    task.run scope answers =
      runWith answers (closeSection task.owner (endState scope answers task))
        (task.walked scope answers task.statements).2 := runWith_bind _ _

theorem closeOffsets_sealed (state : SectionState) :
    (closeOffsets state).sealed = state.out.sealed := by
  rw [closeOffsets]
  split <;> rfl

theorem closeOffsets_extentBits (state : SectionState) :
    (closeOffsets state).extentBits = state.out.extentBits := by
  rw [closeOffsets]
  split <;> rfl

theorem run_section :
    (task.run scope answers).1.sealed = (endState scope answers task).out.sealed ∧
      (task.run scope answers).1.offsetAtEnd =
        (closeOffsets (endState scope answers task)).offsetAtEnd ∧
      ((endState scope answers task).out.sealed = false →
        (task.run scope answers).1.extentBits = (endState scope answers task).out.extentBits) := by
  have outSealed := closeOffsets_sealed (endState scope answers task)
  have outExtent := closeOffsets_extentBits (endState scope answers task)
  rw [run_eq_closeSection, closeSection, runWith_bind]
  dsimp only
  rw [runWith_bind]
  cases isSealed : (closeOffsets (endState scope answers task)).sealed with
  | true =>
      rw [if_pos rfl, ← outSealed, isSealed]
      exact ⟨rfl, rfl, fun impossible => Bool.noConfusion impossible⟩
  | false =>
      rw [if_neg Bool.false_ne_true, runWith_bind, ← outSealed, isSealed]
      exact ⟨isSealed, rfl, fun _ => outExtent⟩

def reportedWhen (condition : Prop) [Decidable condition] (report : Diagnostic) :
    List Diagnostic :=
  if condition then [report] else []

theorem mem_reportedWhen {condition : Prop} [Decidable condition] {report found : Diagnostic}
    (member : found ∈ reportedWhen condition report) : found = report := by
  rw [reportedWhen] at member
  split at member
  · exact List.mem_singleton.mp member
  · exact absurd member List.not_mem_nil

theorem reportedWhen_eq_nil {condition : Prop} [Decidable condition] {report : Diagnostic} :
    reportedWhen condition report = [] ↔ ¬ condition := by
  rw [reportedWhen]
  split
  · rename_i holds
    exact ⟨fun impossible => absurd impossible (List.cons_ne_nil _ _),
      fun fails => absurd holds fails⟩
  · rename_i fails
    exact ⟨fun _ => fails, fun _ => rfl⟩

/-- The three checks report one after another, each with the same suggestion. -/
theorem checkExtent_reports (owner : DiscoveredDefinition) (state : SectionState)
    (out : SemanticSection) :
    ∃ location, (runWith answers (checkExtent owner state out) []).2 =
      reportedWhen (out.extentBits.getD (-1) < 0)
          ⟨.error, location, "@extent must define non-negative extent bits",
            some (suggestedExtent out.offsetAtEnd.max (out.extentBits.getD (-1)))⟩ ++
        reportedWhen ((out.extentBits.getD (-1)).tmod 8 ≠ 0)
          ⟨.error, location, "extent must be a multiple of 8 bits",
            some (suggestedExtent out.offsetAtEnd.max (out.extentBits.getD (-1)))⟩ ++
        reportedWhen (out.extentBits.getD (-1) < out.offsetAtEnd.max)
          ⟨.error, location, "extent smaller than maximal serialised length",
            some (suggestedExtent out.offsetAtEnd.max (out.extentBits.getD (-1)))⟩ := by
  refine ⟨state.extentExpressionLocation.getD
    (state.extentDirectiveLocation.getD (sectionAnchorLocation owner state)), ?_⟩
  unfold checkExtent reportedWhen
  dsimp only
  split <;> split <;> split <;> rfl

/-- The checks are silent on a whole number of bytes that holds the longest form. -/
theorem checkExtent_silent_iff (owner : DiscoveredDefinition) (state : SectionState)
    (out : SemanticSection) :
    (runWith answers (checkExtent owner state out) []).2 = [] ↔
      0 ≤ out.extentBits.getD (-1) ∧ 8 ∣ out.extentBits.getD (-1) ∧
        out.offsetAtEnd.max ≤ out.extentBits.getD (-1) := by
  have ⟨location, reports⟩ := @checkExtent_reports answers owner state out
  rw [reports, List.append_eq_nil_iff, List.append_eq_nil_iff, reportedWhen_eq_nil,
    reportedWhen_eq_nil, reportedWhen_eq_nil, not_lt, not_lt, not_not, and_assoc]
  exact and_congr_right fun _ => and_congr_left fun _ => (Int.dvd_iff_tmod_eq_zero).symm

theorem checkExtent_suggests {owner : DiscoveredDefinition} {state : SectionState}
    {out : SemanticSection} {report : Diagnostic}
    (member : report ∈ (runWith answers (checkExtent owner state out) []).2) {bits : ℤ}
    (suggests : report.suggestedExtent = some bits) :
    bits = suggestedExtent out.offsetAtEnd.max (out.extentBits.getD (-1)) := by
  have ⟨location, reports⟩ := @checkExtent_reports answers owner state out
  rw [reports, List.mem_append, List.mem_append] at member
  rcases member with (first | second) | third
  · rw [mem_reportedWhen first] at suggests
    exact (Option.some.inj suggests).symm
  · rw [mem_reportedWhen second] at suggests
    exact (Option.some.inj suggests).symm
  · rw [mem_reportedWhen third] at suggests
    exact (Option.some.inj suggests).symm

/-- A delimited section is accepted where its extent is a whole number of bytes that holds its
longest form. -/
theorem acceptsExtent_iff :
    AcceptsExtent scope answers task ↔ (task.run scope answers).1.sealed = false ∧
      0 ≤ checkedExtent scope answers task ∧ 8 ∣ checkedExtent scope answers task ∧
        (task.run scope answers).1.offsetAtEnd.max ≤ checkedExtent scope answers task := by
  have ⟨isSealed, offsetAtEnd, extentBits⟩ := @run_section scope answers task
  unfold AcceptsExtent
  refine and_congr_right fun delimited => ?_
  rw [isSealed] at delimited
  rw [checkedExtent, extentReports, offsetAtEnd, extentBits delimited]
  rw [closeOffsets_sealed, delimited, if_neg Bool.false_ne_true, checkExtent_silent_iff,
    closeOffsets_extentBits]

/-- Every suggestion is the one computed from the longest form and the extent. -/
theorem extentReports_suggest {report : Diagnostic}
    (member : report ∈ extentReports scope answers task) {bits : ℤ}
    (suggests : report.suggestedExtent = some bits) :
    (task.run scope answers).1.sealed = false ∧
      bits = suggestedExtent (task.run scope answers).1.offsetAtEnd.max
        (checkedExtent scope answers task) := by
  have ⟨isSealed, offsetAtEnd, extentBits⟩ := @run_section scope answers task
  rw [extentReports, closeOffsets_sealed] at member
  cases delimited : (endState scope answers task).out.sealed with
  | true =>
      rw [delimited, if_pos rfl] at member
      exact absurd member List.not_mem_nil
  | false =>
      rw [delimited, if_neg Bool.false_ne_true] at member
      have found := checkExtent_suggests member suggests
      rw [closeOffsets_extentBits] at found
      rw [isSealed, checkedExtent, offsetAtEnd, extentBits delimited]
      exact ⟨delimited, found⟩

/-! ### Applying the suggestion -/

theorem SameLayout.symm {state other : SectionState} (same : SameLayout state other) :
    SameLayout other state where
  isUnion := same.isUnion.symm
  structureOffset := same.structureOffset.symm
  unionFields := same.unionFields.symm
  names := same.names.symm
  env name away := (same.env name away).symm

theorem SameLayout.trans {first second third : SectionState} (left : SameLayout first second)
    (right : SameLayout second third) : SameLayout first third where
  isUnion := left.isUnion.trans right.isUnion
  structureOffset := left.structureOffset.trans right.structureOffset
  unionFields := left.unionFields.trans right.unionFields
  names := left.names.trans right.names
  env name away := (left.env name away).trans (right.env name away)

theorem sameLayout_enter (stmt : StatementAST) (state : SectionState) :
    SameLayout state (enterStatement stmt state) := by
  rw [enterStatement]
  split
  · refine ⟨rfl, rfl, rfl, rfl, ?_⟩
    intro name away
    dsimp only [SectionState.bind]
    rw [Function.update_of_ne away]
  · exact ⟨rfl, rfl, rfl, rfl, fun _ _ => rfl⟩

theorem SameLayout.offsetAtEnd {state other : SectionState} (same : SameLayout state other) :
    (closeOffsets state).offsetAtEnd = (closeOffsets other).offsetAtEnd := by
  rw [closeOffsets, closeOffsets, same.isUnion, same.unionFields, same.structureOffset]
  split <;> rfl

theorem enterStatement_serializationModeSet (stmt : StatementAST) (state : SectionState) :
    (enterStatement stmt state).serializationModeSet = state.serializationModeSet := by
  rw [enterStatement]
  split <;> rfl

/-- The state after an `@extent` of a written number of bits. -/
structure ExtentSet (bits : ℤ) (state : SectionState) : Prop where
  mode : state.serializationModeSet = true
  extentBits : state.out.extentBits = some bits
  isSealed : state.out.sealed = false

theorem integerOf_written {bits : ℤ} (fits : InInt64 bits) :
    integerOf (some (.rational (.ofInteger bits))) = some (some bits) := by
  rw [integerOf, Rational.isInteger_ofInteger, if_pos rfl, Rational.asInteger]
  unfold InInt64 int64Min int64Max at fits
  rw [Rational.numerator_ofInteger, Rational.isInteger_ofInteger]
  exact congrArg some (if_pos ⟨rfl, by omega, by omega⟩)

theorem extentSet_of_written {d : DirectiveAST} {location : SourceLocation} {bits : ℤ}
    {state : SectionState} (isExtent : d.kind = .extent)
    (written : d.expression = some (.rational location (.ofInteger bits)))
    (unset : state.serializationModeSet = false) (fits : InInt64 bits)
    {owner : DiscoveredDefinition} {isResponse : Bool} (before : List Diagnostic) :
    ExtentSet bits (runWith answers
      (analyzeStatement scope owner isResponse state (.directive d)) before).1 := by
  have open_ := (enterStatement_serializationModeSet (.directive d) state).trans unset
  rw [analyzeStatement, analyzeDirective, isExtent]
  dsimp only
  rw [extentDirective, open_, written]
  dsimp only
  rw [runWith_bind]
  have steady : Steady answers (evaluateIn scope owner (enterStatement (.directive d) state)
      (.rational location (.ofInteger bits)) d.location) := steady_evaluateExpression _ _
  have value : valueOf answers (evaluateIn scope owner (enterStatement (.directive d) state)
      (.rational location (.ofInteger bits)) d.location) =
      some (.rational (.ofInteger bits)) := by
    rw [valueOf, evaluateIn, evaluateExpression, evaluate]
    rfl
  rw [steady.value, value, integerOf_written fits]
  dsimp only
  rw [runWith_bind]
  exact ⟨rfl, rfl, rfl⟩

theorem ExtentSet.keep {bits : ℤ} {state after : SectionState} (set : ExtentSet bits state)
    (keeps : KeepsMode state after) : ExtentSet bits after where
  mode := keeps.mode set.mode
  extentBits := (keeps.extentBits set.mode).trans set.extentBits
  isSealed := (keeps.isSealed set.mode).trans set.isSealed

/-- With another extent the section has the same lengths, and that extent. -/
theorem withExtent_endState {front : List StatementAST} {d : DirectiveAST} {e : ExprAST}
    {back : List StatementAST} (extentAt : ExtentAt scope answers task front d e back) {bits : ℤ}
    (fits : InInt64 bits) :
    SameLayout (endState scope answers task)
        (endState scope answers (withExtent task front d e back bits)) ∧
      ExtentSet bits (endState scope answers (withExtent task front d e back bits)) := by
  have split (last : DirectiveAST) (other : SectionTask)
      (whole : other.statements = front ++ .directive last :: back)
      (sameRun : other.walked scope answers front = task.walked scope answers front)
      (sameOwner : other.owner = task.owner) (sameKind : other.isResponse = task.isResponse) :
      endState scope answers other =
        (runWith answers (analyzeStatements scope task.owner task.isResponse back
          (runWith answers (analyzeStatement scope task.owner task.isResponse
            (task.walked scope answers front).1 (.directive last))
              (task.walked scope answers front).2).1)
          (runWith answers (analyzeStatement scope task.owner task.isResponse
            (task.walked scope answers front).1 (.directive last))
              (task.walked scope answers front).2).2).1 := by
    rw [endState, whole, walked_append, sameRun, sameOwner, sameKind, analyzeStatements,
      runWith_bind]
  have here := split d task extentAt.whole rfl rfl rfl
  have there := split (writtenExtent d e bits) (withExtent task front d e back bits) rfl rfl rfl rfl
  rw [here, there]
  constructor
  · apply SameLayout.statements
    have entered := (sameLayout_enter (.directive d) (task.walked scope answers front).1).symm.trans
      (sameLayout_enter (.directive (writtenExtent d e bits)) (task.walked scope answers front).1)
    have sameKind : d.kind = (writtenExtent d e bits).kind := rfl
    exact SameLayout.directive sameKind entered ((ends_analyzeDirective d _).run _)
      ((ends_analyzeDirective (writtenExtent d e bits) _).run _)
  · have set : ExtentSet bits (runWith answers (analyzeStatement scope task.owner task.isResponse
        (task.walked scope answers front).1 (.directive (writtenExtent d e bits)))
          (task.walked scope answers front).2).1 :=
      @extentSet_of_written _ _ (writtenExtent d e bits) e.location bits _ extentAt.kind rfl
        extentAt.unset fits _ _ _
    exact set.keep (keepsMode_statements back _ _)

theorem withExtent_accepted {front : List StatementAST} {d : DirectiveAST} {e : ExprAST}
    {back : List StatementAST} (extentAt : ExtentAt scope answers task front d e back) {bits : ℤ}
    (fits : InInt64 bits) (nonnegative : 0 ≤ bits) (whole : 8 ∣ bits)
    (holds : (task.run scope answers).1.offsetAtEnd.max ≤ bits) :
    AcceptsExtent scope answers (withExtent task front d e back bits) ∧
      (SectionTask.run scope answers (withExtent task front d e back bits)).1.extentBits =
        some bits := by
  have ⟨sameLayout, set⟩ := withExtent_endState extentAt fits
  have ⟨isSealed, offsetAtEnd, extentBits⟩ :=
    @run_section scope answers (withExtent task front d e back bits)
  have extent := (extentBits set.isSealed).trans set.extentBits
  have checked : checkedExtent scope answers (withExtent task front d e back bits) = bits := by
    rw [checkedExtent, extent, Option.getD_some]
  have lengths : (SectionTask.run scope answers (withExtent task front d e back bits)).1.offsetAtEnd =
      (task.run scope answers).1.offsetAtEnd := by
    rw [offsetAtEnd, ← sameLayout.offsetAtEnd, (@run_section scope answers task).2.1]
  refine ⟨acceptsExtent_iff.mpr ⟨isSealed.trans set.isSealed, ?_⟩, extent⟩
  rw [checked, lengths]
  exact ⟨nonnegative, whole, holds⟩

/-! ### When the law holds -/

/-- The check is sound, free of overflow and satisfied by its suggestion exactly where neither
the extent nor a form of the section is longer than the last multiple of eight. -/
theorem extentLaw_iff {front : List StatementAST} {d : DirectiveAST} {e : ExprAST}
    {back : List StatementAST} (extentAt : ExtentAt scope answers task front d e back) :
    ExtentLaw scope answers task front d e back ↔ ExtentFits scope answers task := by
  have below : lastExtent < int64Max := by decide
  have least : int64Min ≤ 0 := by decide
  constructor
  · intro law delimited
    have ⟨_, fits⟩ := law.noOverflow delimited
    have ⟨_, longest, extent, whole⟩ := le_suggestedExtent
      (task.run scope answers).1.offsetAtEnd.max (checkedExtent scope answers task)
    have last : suggestedExtent (task.run scope answers).1.offsetAtEnd.max
        (checkedExtent scope answers task) ≤ lastExtent := by
      unfold int64Max at fits
      unfold lastExtent
      omega
    exact ⟨extent.trans last, (max_le_iff_exact _ below).mp (longest.trans last)⟩
  · intro fits
    have suggestionFits (delimited : (task.run scope answers).1.sealed = false) :
        suggestedExtent (task.run scope answers).1.offsetAtEnd.max
          (checkedExtent scope answers task) ≤ lastExtent := by
      have ⟨extent, lengths⟩ := fits delimited
      exact suggestedExtent_le ((max_le_iff_exact _ below).mpr lengths) extent
    have ⟨nonnegative, longest, _, whole⟩ := le_suggestedExtent
      (task.run scope answers).1.offsetAtEnd.max (checkedExtent scope answers task)
    refine ⟨?_, ?_, ?_⟩
    · intro accepts
      have ⟨delimited, positive, bytes, holds⟩ := acceptsExtent_iff.mp accepts
      have ⟨extentFits, lengths⟩ := fits delimited
      cases found : (task.run scope answers).1.extentBits with
      | none =>
          rw [checkedExtent, found] at positive
          exact absurd positive (by decide)
      | some extent =>
          rw [checkedExtent, found, Option.getD_some] at positive bytes holds extentFits
          exact ⟨extent, rfl, positive, bytes,
            (max_le_iff_exact _ (extentFits.trans_lt below)).mp holds⟩
    · intro delimited
      exact ⟨least.trans nonnegative, (suggestionFits delimited).trans below.le⟩
    · intro report member bits suggests
      have ⟨delimited, same⟩ := extentReports_suggest member suggests
      rw [same]
      exact withExtent_accepted extentAt
        ⟨least.trans nonnegative, (suggestionFits delimited).trans below.le⟩ nonnegative whole
        longest

end End

/-! ### An extent past the last multiple of eight -/

/-- `@extent` of the greatest 64-bit integer, in a section without attributes. -/
def greatestExtent : DirectiveAST :=
  ⟨⟨"", 1, 1⟩, .extent, "extent", some (.rational ⟨"", 1, 9⟩ (.ofInteger int64Max))⟩

def greatestExtentTask : SectionTask :=
  ⟨⟨"", "ns.E", "E", ["ns"], 1, 0, none⟩, false, [.directive greatestExtent], []⟩

theorem greatestExtent_at :
    ExtentAt (scopeOf plainHost {} []) (fun _ => none) greatestExtentTask [] greatestExtent
      (.rational ⟨"", 1, 9⟩ (.ofInteger int64Max)) [] :=
  ⟨rfl, rfl, rfl, rfl⟩

/-- Both directions for the greatest 64-bit extent. -/
theorem extentLaw_iff_greatestExtent :
    ExtentLaw (scopeOf plainHost {} []) (fun _ => none) greatestExtentTask [] greatestExtent
        (.rational ⟨"", 1, 9⟩ (.ofInteger int64Max)) [] ↔
      ExtentFits (scopeOf plainHost {} []) (fun _ => none) greatestExtentTask :=
  extentLaw_iff greatestExtent_at

theorem greatestExtent_run :
    ((greatestExtentTask.run (scopeOf plainHost {} []) (fun _ => none)).1.sealed,
      suggestedExtent (greatestExtentTask.run (scopeOf plainHost {} []) (fun _ => none)).1.offsetAtEnd.max
        (checkedExtent (scopeOf plainHost {} []) (fun _ => none) greatestExtentTask)) =
      (false, 2 ^ 63) := by
  decide +kernel

/-- The extent suggested in place of the greatest 64-bit integer is no 64-bit integer. -/
theorem extentLaw_fails :
    ¬ ∀ (scope : Scope) (answers : Results) (task : SectionTask) (front : List StatementAST)
      (d : DirectiveAST) (e : ExprAST) (back : List StatementAST),
      ExtentAt scope answers task front d e back → ExtentLaw scope answers task front d e back := by
  intro law
  have ⟨delimited, suggested⟩ := Prod.mk.inj greatestExtent_run
  have fits := (law _ _ _ _ _ _ _ greatestExtent_at).noOverflow delimited
  rw [suggested] at fits
  exact absurd fits.2 (by decide)

end LlvmDsdl.Semantics
