import LlvmDsdl.Library.Certificates
import LlvmDsdl.Semantics.SectionRuns

/-!
Contract: the definitions an analysis without an error asks for.

Owns: the references a definition's text makes, as the types of fields and as
the types attributes are read from; rules for what an analysis asks; and that
a clean analysis asks for exactly the local definitions its text refers to.

The order of the questions is the order of the references.
-/

namespace LlvmDsdl.Semantics

open Frontend Library Library.TaskSystem

/-! ### References in the text -/

def compositeReference (type : TypeExprAST) : List VersionedTypeExprAST :=
  match type.arrayKind, type.scalar with
  | .none, .versioned versioned => [versioned]
  | _, _ => []

/-- The composite a type written out is. -/
def literalReference : ExprAST → List VersionedTypeExprAST
  | .typeLiteral _ type => compositeReference type
  | _ => []

mutual

def attributeReferences : ExprAST → List VersionedTypeExprAST
  | .unary _ _ operand => attributeReferences operand
  | .binary _ op lhs rhs =>
      if op = .attribute then attributeReferences lhs ++ literalReference lhs
      else attributeReferences lhs ++ attributeReferences rhs
  | .setLiteral _ elements => elementReferences elements
  | _ => []

def elementReferences : List ExprAST → List VersionedTypeExprAST
  | [] => []
  | element :: rest => attributeReferences element ++ elementReferences rest

end

/-- The type a field is of. -/
def scalarReference (type : TypeExprAST) : List VersionedTypeExprAST :=
  match type.scalar with
  | .versioned versioned => [versioned]
  | _ => []

def capacityReferences (type : TypeExprAST) : List VersionedTypeExprAST :=
  match type.arrayKind with
  | .none => []
  | _ => (type.arrayCapacity.map attributeReferences).getD []

def StatementAST.fieldReferences : StatementAST → List VersionedTypeExprAST
  | .field f => scalarReference f.type
  | _ => []

def evaluatesExpression : DirectiveKind → Bool
  | .extent | .assert | .print => true
  | _ => false

def StatementAST.attributeReferences : StatementAST → List VersionedTypeExprAST
  | .constant c => Semantics.attributeReferences c.value
  | .field f => capacityReferences f.type
  | .directive d =>
      if evaluatesExpression d.kind then (d.expression.map Semantics.attributeReferences).getD []
      else []
  | .serviceResponseMarker _ => []

def StatementAST.references (stmt : StatementAST) : List VersionedTypeExprAST :=
  StatementAST.fieldReferences stmt ++ StatementAST.attributeReferences stmt

section Resolution

variable (scope : Scope) (owner : DiscoveredDefinition)

/-- What `resolveCompositeType` finds for a reference. -/
def resolvedReference (type : VersionedTypeExprAST) : Option ResolvedCompositeDefinition :=
  (candidateNames owner type).eraseDups.findSome? (resolveCandidate scope type)

/-- The local definition a reference names. -/
def askedKeys (type : VersionedTypeExprAST) : List TypeKey :=
  match resolvedReference scope owner type with
  | some ⟨_, key, none⟩ => [key]
  | _ => []

/-- The key of the definition a field type names, local or not. -/
def referencedKey (type : TypeExprAST) : Option TypeKey :=
  match type.scalar with
  | .versioned versioned => (resolvedReference scope owner versioned).map (·.key)
  | _ => none

def keysOf (references : List VersionedTypeExprAST) : List TypeKey :=
  references.flatMap (askedKeys scope owner)

@[simp] theorem keysOf_nil : keysOf scope owner [] = [] := rfl

@[simp] theorem keysOf_append (first second : List VersionedTypeExprAST) :
    keysOf scope owner (first ++ second) = keysOf scope owner first ++ keysOf scope owner second :=
  List.flatMap_append

@[simp] theorem keysOf_singleton (type : VersionedTypeExprAST) :
    keysOf scope owner [type] = askedKeys scope owner type := by
  simp [keysOf]

end Resolution

/-! ### What a computation asks -/

/-- Where `enabled` holds and no error is reported, a computation asks for `keys` in order and
ends with a value that meets `post`; it adds diagnostics only. -/
def Asks {α : Type} (answers : TypeKey → Option SemanticDefinition) (enabled : Prop)
    (computation : Analysis α) (keys : List TypeKey) (post : α → Prop) : Prop :=
  ∀ before, before <+: ((computation before).eval answers).2 ∧
    (enabled → Clean isError ((computation before).eval answers).2 →
      (computation before).asked answers = keys ∧ post ((computation before).eval answers).1)

section Rules

variable {answers : TypeKey → Option SemanticDefinition} {enabled : Prop} {α γ : Type}

theorem asks_pure {value : α} {post : α → Prop} (holds : enabled → post value) :
    Asks answers enabled (pure value) [] post :=
  fun before => ⟨List.prefix_refl before, fun on _ => ⟨rfl, holds on⟩⟩

theorem asks_bind {computation : Analysis α} {next : α → Analysis γ} {keys later : List TypeKey}
    {middle : α → Prop} {post : γ → Prop} (first : Asks answers enabled computation keys middle)
    (then_ : ∀ value, Asks answers (enabled ∧ middle value) (next value) later post) :
    Asks answers enabled (computation >>= next) (keys ++ later) post := by
  intro before
  obtain ⟨grown, asked⟩ := first before
  have unfolded : (computation >>= next) before =
      (computation before) >>= fun outcome => next outcome.1 outcome.2 := rfl
  rw [unfolded, Query.eval_bind, Query.asked_bind]
  generalize (computation before).eval answers = outcome at grown asked ⊢
  obtain ⟨grownOn, askedOn⟩ := then_ outcome.1 outcome.2
  refine ⟨grown.trans grownOn, fun on clean => ?_⟩
  obtain ⟨firstKeys, holds⟩ := asked on (Clean.of_prefix clean grownOn)
  obtain ⟨laterKeys, result⟩ := askedOn ⟨on, holds⟩ clean
  rw [firstKeys, laterKeys]
  exact ⟨rfl, result⟩

theorem Asks.mono {computation : Analysis α} {keys : List TypeKey} {strong weak : α → Prop}
    {less : Prop} (asks : Asks answers enabled computation keys strong) (fewer : less → enabled)
    (weaker : less → ∀ value, strong value → weak value) :
    Asks answers less computation keys weak :=
  fun before => ⟨(asks before).1, fun on clean =>
    ⟨((asks before).2 (fewer on) clean).1, weaker on _ ((asks before).2 (fewer on) clean).2⟩⟩

theorem Asks.keys_eq {computation : Analysis α} {keys keys' : List TypeKey} {post : α → Prop}
    (asks : Asks answers enabled computation keys post) (same : enabled → keys = keys') :
    Asks answers enabled computation keys' post :=
  fun before => ⟨(asks before).1, fun on clean =>
    ⟨((asks before).2 on clean).1.trans (same on), ((asks before).2 on clean).2⟩⟩

/-- Where nothing is asked of it, a computation need only add diagnostics. -/
theorem Asks.off {computation : Analysis α} {less : Prop} {keys keys' : List TypeKey}
    {post post' : α → Prop} (asks : Asks answers less computation keys post)
    (never : ¬ enabled) : Asks answers enabled computation keys' post' :=
  fun before => ⟨(asks before).1, fun on => absurd on never⟩

theorem asks_pure_off {value : α} {keys : List TypeKey} {post : α → Prop} (never : ¬ enabled) :
    Asks answers enabled (pure value) keys post :=
  fun before => ⟨List.prefix_refl before, fun on => absurd on never⟩

theorem asks_reportError {location : SourceLocation} {message : String} {keys : List TypeKey}
    {post : Unit → Prop} : Asks answers enabled (reportError location message) keys post := by
  intro before
  have failure : isError ⟨.error, location, message, none⟩ := rfl
  exact ⟨List.prefix_append _ _, fun _ clean => absurd clean (not_clean_append_error failure)⟩

theorem asks_reportNote {location : SourceLocation} {message : String} :
    Asks answers enabled (reportNote location message) [] fun _ => True :=
  fun _ => ⟨List.prefix_append _ _, fun _ _ => ⟨rfl, trivial⟩⟩

theorem asks_reportExtent {location : SourceLocation} {message : String} {suggested : ℤ}
    {keys : List TypeKey} {post : Unit → Prop} :
    Asks answers enabled (reportExtent location message suggested) keys post := by
  intro before
  have failure : isError ⟨.error, location, message, some suggested⟩ := rfl
  exact ⟨List.prefix_append _ _, fun _ clean => absurd clean (not_clean_append_error failure)⟩

theorem asks_reportWhen {condition : Bool} {location : SourceLocation} {message : String} :
    Asks answers enabled (reportWhen condition location message) [] fun _ => condition = false := by
  cases condition with
  | false => exact asks_pure fun _ => rfl
  | true => exact asks_reportError

theorem asks_report_then {location : SourceLocation} {message : String}
    {next : Unit → Analysis α} {keys : List TypeKey} {post : α → Prop}
    (later : ∀ value, Asks answers False (next value) [] fun _ => True) :
    Asks answers enabled (reportError location message >>= next) keys post := by
  have first : Asks answers enabled (reportError location message) keys fun _ => False :=
    asks_reportError
  have rest : ∀ value, Asks answers (enabled ∧ False) (next value) [] post :=
    fun value => (later value).mono (fun on => on.2) fun on => on.2.elim
  have whole := asks_bind first rest
  rw [List.append_nil] at whole
  exact whole

theorem asks_refuse {location : SourceLocation} {message : String} {keys : List TypeKey}
    {post : Option α → Prop} : Asks answers enabled (refuse location message) keys post :=
  asks_report_then fun _ => asks_pure fun off => off.elim

theorem asks_analyzeOther {key : TypeKey} :
    Asks answers enabled (analyzeOther key) [key] fun answer => answer = answers key :=
  fun before => ⟨List.prefix_refl before, fun _ _ => ⟨rfl, rfl⟩⟩

theorem asks_get : Asks answers enabled (get : Analysis (List Diagnostic)) [] fun _ => True :=
  fun before => ⟨List.prefix_refl before, fun _ _ => ⟨rfl, trivial⟩⟩

theorem asks_settle {location : SourceLocation} {result : Except String Value} :
    Asks answers enabled (settle location result) [] fun value =>
      ∃ settled, value = some settled ∧ result = .ok settled := by
  cases result with
  | ok value => exact asks_pure fun _ => ⟨value, rfl, rfl⟩
  | error message => exact asks_refuse

end Rules

/-! ### Values that are no types -/

def PlainValue (value : Value) : Prop := ∀ type, value ≠ .type type

section Plain

variable (host : Host)

@[simp] theorem plain_boolean (value : Bool) : PlainValue (.boolean value) := nofun
@[simp] theorem plain_rational (value : Support.Rational) : PlainValue (.rational value) := nofun
@[simp] theorem plain_string (value : String) : PlainValue (.string value) := nofun
@[simp] theorem plain_set (elements : Support.RationalSet) : PlainValue (.set elements) := nofun
@[simp] theorem plain_bitLengthSet (set : LengthSet) : PlainValue (.bitLengthSet set) := nofun

theorem plain_exactRational {result : Support.Rational} {value : Value}
    (exact_ : exactRational result = some value) : PlainValue value := by
  rw [exactRational] at exact_
  split_ifs at exact_
  cases exact_
  exact plain_rational _

theorem plain_bitwise {op : BitVec 128 → BitVec 128 → BitVec 128} {lhs rhs : Support.Rational}
    {value : Value} (applied : bitwise op lhs rhs = some value) : PlainValue value := by
  rw [bitwise] at applied
  split at applied
  · cases applied
    exact plain_rational _
  · cases applied

theorem plain_remainder {lhs rhs : Support.Rational} {value : Value}
    (applied : remainder lhs rhs = some value) : PlainValue value := by
  rw [remainder] at applied
  split at applied
  · split_ifs at applied <;> cases applied <;> exact plain_rational _
  · cases applied

theorem plain_applyBinaryRational {op : BinaryOp} {lhs rhs : Support.Rational} {value : Value}
    (applied : applyBinaryRational host op lhs rhs = some value) : PlainValue value := by
  cases op with
  | pow =>
      obtain ⟨result, _, rfl⟩ := Option.map_eq_some_iff.mp applied
      exact plain_rational _
  | mul | add | sub => exact plain_exactRational applied
  | div =>
      simp only [applyBinaryRational] at applied
      split_ifs at applied
      exact plain_exactRational applied
  | mod => exact plain_remainder applied
  | bitOr | bitXor | bitAnd => exact plain_bitwise applied
  | eq | ne | le | ge | lt | gt =>
      cases applied
      exact plain_boolean _
  | _ => cases applied

theorem plain_elementwise {op : BinaryOp} {lhs rhs : Support.RationalSet} {value : Value}
    (applied : elementwise host op lhs rhs = .ok value) : PlainValue value := by
  rw [elementwise] at applied
  split at applied
  · cases applied
    exact plain_set _
  · cases applied

theorem plain_concreteBinary {op : BinaryOp} {lhs rhs value : Value}
    (applied : concreteBinary host op lhs rhs = .ok value) : PlainValue value := by
  rw [concreteBinary.eq_def] at applied
  split at applied
  · split at applied
    · rename_i result same
      cases applied
      exact plain_applyBinaryRational host same
    · cases applied
  · split at applied <;> cases applied <;> exact plain_boolean _
  · split at applied <;> cases applied <;> simp
  · split at applied
    any_goals (cases applied; simp)
    split_ifs at applied
    · exact plain_elementwise host applied
    · cases applied
  · split_ifs at applied
    · exact plain_elementwise host applied
    · cases applied
  · split_ifs at applied
    · exact plain_elementwise host applied
    · cases applied
  · cases applied

theorem plain_symbolicRemainder {set : LengthSet} {divisor : Support.Rational} {value : Value}
    (applied : symbolicRemainder host set divisor = some (.ok value)) : PlainValue value := by
  rw [symbolicRemainder] at applied
  split at applied
  · cases applied
  · split_ifs at applied
    · cases applied
    · obtain ⟨residues, _, same⟩ := Option.map_eq_some_iff.mp applied
      cases same
      exact plain_set _

theorem plain_symbolicSum {set : LengthSet} {addend : Support.Rational} {value : Value}
    (applied : symbolicSum set addend = some (.ok value)) : PlainValue value := by
  rw [symbolicSum] at applied
  split at applied
  · cases applied
  · split_ifs at applied
    cases applied
    exact plain_bitLengthSet _

theorem plain_symbolicEquality {op : BinaryOp} {lhs rhs : LengthSet} {value : Value}
    (applied : symbolicEquality host op lhs rhs = .ok value) : PlainValue value := by
  rw [symbolicEquality] at applied
  split at applied
  · cases applied
  · cases applied
    exact plain_boolean _

theorem plain_symbolicOrder {op : BinaryOp} {lhs rhs : LengthSet} {value : Value}
    (applied : symbolicOrder host op lhs rhs = .ok value) : PlainValue value := by
  rw [symbolicOrder] at applied
  split at applied
  · dsimp only at applied
    split at applied <;> cases applied <;> exact plain_boolean _
  · cases applied

theorem plain_literalEquality {op : BinaryOp} {set : LengthSet} {literal : Support.RationalSet}
    {value : Value} (applied : literalEquality host op set literal = .ok value) :
    PlainValue value := by
  rw [literalEquality] at applied
  cases decided : decideSetEquality host set literal with
  | error message =>
      rw [decided] at applied
      cases applied
  | ok equal =>
      rw [decided] at applied
      cases applied
      exact plain_boolean _

theorem plain_symbolicBinary {op : BinaryOp} {lhs rhs value : Value}
    (applied : symbolicBinary host op lhs rhs = some (.ok value)) : PlainValue value := by
  rw [symbolicBinary.eq_def] at applied
  split at applied
  · exact plain_symbolicRemainder host applied
  · exact plain_symbolicEquality host (Option.some.inj applied)
  · exact plain_symbolicEquality host (Option.some.inj applied)
  · exact plain_literalEquality host (Option.some.inj applied)
  · exact plain_literalEquality host (Option.some.inj applied)
  · exact plain_literalEquality host (Option.some.inj applied)
  · exact plain_literalEquality host (Option.some.inj applied)
  · exact plain_symbolicSum applied
  · exact plain_symbolicSum applied
  · split_ifs at applied
    exact plain_symbolicOrder host (Option.some.inj applied)
  · split_ifs at applied
    obtain ⟨verdict, _, same⟩ := Option.map_eq_some_iff.mp applied
    cases same
    exact plain_boolean _
  · split_ifs at applied
    obtain ⟨verdict, _, same⟩ := Option.map_eq_some_iff.mp applied
    cases same
    exact plain_boolean _
  · cases applied

theorem plain_applyBinary {op : BinaryOp} {lhs rhs value : Value}
    (applied : applyBinary host op lhs rhs = .ok value) : PlainValue value := by
  rw [applyBinary] at applied
  cases symbolic : symbolicBinary host op lhs rhs with
  | some answer =>
      simp only [symbolic] at applied
      rw [applied] at symbolic
      exact plain_symbolicBinary host symbolic
  | none =>
      simp only [symbolic] at applied
      cases left : concreteOperand host lhs with
      | error message =>
          rw [left] at applied
          cases applied
      | ok leftValue =>
          cases right : concreteOperand host rhs with
          | error message =>
              rw [left, right] at applied
              cases applied
          | ok rightValue =>
              rw [left, right] at applied
              exact plain_concreteBinary host applied

theorem plain_applyUnary {op : UnaryOp} {operand value : Value}
    (applied : applyUnary op operand = .ok value) : PlainValue value := by
  rw [applyUnary.eq_def] at applied
  split at applied <;> cases applied <;> simp

theorem plain_symbolicCount {set : LengthSet} {value : Value}
    (applied : symbolicCount host set = .ok value) : PlainValue value := by
  rw [symbolicCount] at applied
  split_ifs at applied
  · cases applied
    exact plain_rational _
  · split at applied
    · cases applied
      exact plain_rational _
    · cases materialised : materializeExact host set with
      | error message =>
          rw [materialised] at applied
          cases applied
      | ok elements =>
          rw [materialised] at applied
          cases applied
          exact plain_rational _

theorem plain_setAttribute {lhs value : Value} {name : String}
    (applied : setAttribute host lhs name = .ok value) : PlainValue value := by
  rw [setAttribute.eq_def] at applied
  dsimp only at applied
  split at applied
  · split_ifs at applied
    · cases applied
      exact plain_rational _
    · cases applied
      exact plain_rational _
    · exact plain_symbolicCount host applied
  · split_ifs at applied
    · cases applied
      exact plain_rational _
    all_goals
      split at applied <;> cases applied <;> exact plain_rational _
  · cases applied

end Plain

section Expressions

variable {answers : TypeKey → Option SemanticDefinition} {scope : Scope}
  {owner : DiscoveredDefinition} {host : Host} {env : ValueEnv}
  {resolver : TypeAttributeResolver Ask}

/-- A resolver that asks for the type it is given, and answers values that are no types. -/
def ResolverAsks (answers : TypeKey → Option SemanticDefinition) (scope : Scope)
    (owner : DiscoveredDefinition) (resolver : TypeAttributeResolver Ask) : Prop :=
  ∀ (enabled : Prop) (type : TypeExprAST) (name : String) (location : SourceLocation),
    Asks answers enabled (resolver type name location)
      (keysOf scope owner (compositeReference type)) fun answer =>
        ∃ value, answer = some value ∧ PlainValue value

/-- A value that is a type exactly where one is written out. -/
def WrittenOut (expr : ExprAST) (answer : Option Value) : Prop :=
  ∃ value, answer = some value ∧
    match expr with
    | .typeLiteral _ type => value = .type type
    | _ => PlainValue value

theorem not_writtenOut_none {expr : ExprAST} : ¬ WrittenOut expr none := by
  rintro ⟨_, impossible, _⟩
  cases impossible

theorem asks_settle_plain {enabled : Prop} {location : SourceLocation}
    {result : Except String Value}
    (plain : enabled → ∀ value, result = .ok value → PlainValue value) :
    Asks answers enabled (settle location result) [] fun answer =>
      ∃ value, answer = some value ∧ PlainValue value := by
  refine asks_settle.mono id ?_
  rintro on answer ⟨value, rfl, same⟩
  exact ⟨value, rfl, plain on value same⟩

theorem adds_applyAttribute (resolves : ResolverAsks answers scope owner resolver)
    (location : SourceLocation) (value : Value) (name : String) :
    Asks answers False (applyAttribute host (some resolver) location value name) []
      fun _ => True := by
  by_cases isType : ∃ type, value = .type type
  · obtain ⟨type, rfl⟩ := isType
    exact (resolves False type name location).off id
  · rw [applyAttribute_of_not_type fun type same => isType ⟨type, same⟩]
    exact (@asks_settle answers False location (setAttribute host value name)).off id

theorem asks_applyAttribute {enabled : Prop} (resolves : ResolverAsks answers scope owner resolver)
    (location : SourceLocation) {lhs : ExprAST} {value : Value} (name : String) :
    Asks answers (enabled ∧ WrittenOut lhs (some value))
      (applyAttribute host (some resolver) location value name)
      (keysOf scope owner (literalReference lhs)) fun answer =>
        ∃ value, answer = some value ∧ PlainValue value := by
  by_cases written : WrittenOut lhs (some value)
  · obtain ⟨_, same, fits⟩ := written
    cases same
    cases lhs with
    | typeLiteral _ type =>
        simp only at fits
        subst fits
        exact resolves _ type name location
    | _ =>
        rw [applyAttribute_of_not_type fits]
        exact asks_settle_plain fun _ result applied => plain_setAttribute host applied
  · exact (adds_applyAttribute resolves location value name).off fun on => written on.2

/-- An environment that binds no name to a type. -/
def PlainEnv (env : ValueEnv) : Prop := ∀ name value, env name = some value → PlainValue value

mutual

/-- An expression asks for the types it reads attributes from, in order. -/
theorem asks_evaluate (plain : PlainEnv env)
    (resolves : ResolverAsks answers scope owner resolver) (enabled : Prop) (expr : ExprAST) :
    Asks answers enabled (evaluate host env (some resolver) expr)
      (keysOf scope owner (attributeReferences expr)) (WrittenOut expr) := by
  cases expr with
  | boolean _ value =>
      simp only [evaluate, attributeReferences]
      exact asks_pure fun _ => ⟨_, rfl, plain_boolean value⟩
  | rational _ value =>
      simp only [evaluate, attributeReferences]
      exact asks_pure fun _ => ⟨_, rfl, plain_rational value⟩
  | string _ value =>
      simp only [evaluate, attributeReferences]
      exact asks_pure fun _ => ⟨_, rfl, plain_string value⟩
  | identifier location name =>
      simp only [evaluate, attributeReferences]
      split
      · rename_i value bound
        exact asks_pure fun _ => ⟨value, rfl, plain name value bound⟩
      · exact asks_refuse
  | unary location op operand =>
      rw [evaluate, attributeReferences, ← List.append_nil (keysOf scope owner _)]
      refine asks_bind (asks_evaluate plain resolves enabled operand) fun answer => ?_
      cases answer with
      | none => exact asks_pure_off fun on => not_writtenOut_none on.2
      | some value => exact asks_settle_plain fun _ result applied => plain_applyUnary applied
  | binary location op lhs rhs =>
      by_cases isAttribute : op = .attribute
      · subst isAttribute
        simp only [evaluate, attributeReferences, ↓reduceIte, keysOf_append]
        refine asks_bind (asks_evaluate plain resolves enabled lhs) fun answer => ?_
        cases answer with
        | none =>
            exact asks_pure_off fun on => not_writtenOut_none on.2
        | some value =>
            cases rhs with
            | identifier _ name => exact asks_applyAttribute resolves location name
            | _ => exact asks_refuse
      · rw [evaluate, attributeReferences, if_neg isAttribute, keysOf_append,
          ← List.append_nil (_ ++ _), List.append_assoc]
        · refine asks_bind (asks_evaluate plain resolves enabled lhs) fun left => ?_
          refine asks_bind (asks_evaluate plain resolves _ rhs) fun right => ?_
          cases left with
          | none =>
              exact asks_pure_off fun on => not_writtenOut_none on.1.2
          | some leftValue =>
              cases right with
              | none =>
                  exact asks_pure_off fun on => not_writtenOut_none on.2
              | some rightValue =>
                  exact asks_settle_plain fun _ result applied => plain_applyBinary host applied
        · exact isAttribute
  | setLiteral location elements =>
      rw [evaluate, attributeReferences, ← List.append_nil (keysOf scope owner _)]
      refine asks_bind (asks_evaluateElements plain resolves enabled elements .empty) fun answer => ?_
      refine asks_pure fun on => ?_
      obtain ⟨set, rfl⟩ := Option.isSome_iff_exists.mp on.2
      exact ⟨_, rfl, plain_set set⟩
  | typeLiteral _ type =>
      simp only [evaluate, attributeReferences]
      exact asks_pure fun _ => ⟨_, rfl, rfl⟩

theorem asks_evaluateElements (plain : PlainEnv env)
    (resolves : ResolverAsks answers scope owner resolver) (enabled : Prop)
    (elements : List ExprAST) (set : Support.RationalSet) :
    Asks answers enabled (evaluateElements host env (some resolver) elements set)
      (keysOf scope owner (elementReferences elements)) fun answer => answer.isSome = true := by
  cases elements with
  | nil =>
      rw [evaluateElements, elementReferences]
      exact asks_pure fun _ => rfl
  | cons element rest =>
      rw [evaluateElements, elementReferences, keysOf_append]
      refine asks_bind (asks_evaluate plain resolves enabled element) fun answer => ?_
      cases answer with
      | none =>
          exact asks_pure_off fun on => not_writtenOut_none on.2
      | some value =>
          cases value with
          | rational number => exact asks_evaluateElements plain resolves _ rest _
          | _ => exact asks_refuse

end

theorem asks_evaluateExpression (plain : PlainEnv env)
    (resolves : ResolverAsks answers scope owner resolver) (enabled : Prop) (expr : ExprAST)
    (location : SourceLocation) :
    Asks answers enabled (evaluateExpression host env (some resolver) expr location)
      (keysOf scope owner (attributeReferences expr)) (WrittenOut expr) := by
  rw [evaluateExpression, ← List.nil_append (keysOf scope owner _)]
  refine asks_bind asks_get fun before => ?_
  rw [← List.append_nil (keysOf scope owner _)]
  refine asks_bind (asks_evaluate plain resolves _ expr) fun answer => ?_
  cases answer with
  | some value => exact asks_pure fun on => on.2
  | none =>
      have never : ¬ ((enabled ∧ True) ∧ WrittenOut expr none) := fun on => not_writtenOut_none on.2
      have get : Asks answers ((enabled ∧ True) ∧ WrittenOut expr none) get [] fun _ => True :=
        asks_get
      refine asks_bind get fun after => ?_
      split
      · exact asks_refuse
      · exact asks_pure_off fun on => never on.1

end Expressions

/-! ### Constants are no types -/

def PlainConstants (constants : List SemanticConstant) : Prop :=
  ∀ constant ∈ constants, PlainValue constant.value

theorem plain_of_constantError {type : TypeExprAST} {value : Value}
    (compatible : constantError type value = none) : PlainValue value := by
  intro isType same
  subst same
  rw [constantError.eq_def] at compatible
  split at compatible
  · split at compatible <;> simp_all
  · cases compatible

section PlainConstants

variable {given : Answers} {scope : Scope} {owner : DiscoveredDefinition} {isResponse : Bool}

theorem PlainConstants.add {constants : List SemanticConstant} (plain : PlainConstants constants)
    (constant : SemanticConstant) (value : PlainValue constant.value) :
    PlainConstants (constants ++ [constant]) := by
  intro other member
  rcases List.mem_append.mp member with earlier | here
  · exact plain other earlier
  · rw [List.mem_singleton.mp here]
    exact value

theorem establishes_checkConstantCompatibility {c : ConstantDeclAST} {value : Value} :
    Establishes given (checkConstantCompatibility c value) fun compatible =>
      compatible = true ∧ PlainValue value := by
  rw [checkConstantCompatibility.eq_def]
  split
  · rename_i checked
    exact establishes_pure ⟨rfl, plain_of_constantError checked⟩
  · exact establishes_fault

theorem establishes_plainDirective {d : DirectiveAST} {state : SectionState}
    (plain : PlainConstants state.out.constants) :
    Establishes given (analyzeDirective scope owner isResponse d state) fun after =>
      PlainConstants after.out.constants := by
  rw [analyzeDirective]
  cases d.kind with
  | unknown => exact establishes_fault
  | union =>
      exact establishes_seq establishes_reportWhen fun _ =>
        establishes_seq establishes_reportWhen fun _ =>
          establishes_seq establishes_reportWhen fun _ => establishes_pure plain
  | aliasable =>
      exact establishes_seq establishes_reportWhen fun _ =>
        establishes_seq establishes_reportWhen fun _ => establishes_pure plain
  | deprecated =>
      exact establishes_seq establishes_reportWhen fun _ =>
        establishes_seq establishes_reportWhen fun _ =>
          establishes_seq establishes_reportWhen fun _ =>
            establishes_seq establishes_reportWhen fun _ => establishes_pure plain
  | extent =>
      dsimp only
      rw [extentDirective.eq_def]
      split
      · exact establishes_fault
      · exact establishes_fault
      · refine establishes_seq establishes_evaluateIn_adds fun value => ?_
        split
        · exact establishes_fault
        · exact establishes_fault
        · exact establishes_seq establishes_reportWhen fun _ => establishes_pure plain
  | «sealed» =>
      dsimp only
      rw [sealedDirective]
      split
      · exact establishes_fault
      · exact establishes_seq establishes_reportWhen fun _ => establishes_pure plain
  | assert =>
      dsimp only
      rw [assertDirective.eq_def]
      split
      · exact establishes_fault
      · exact establishes_seq establishes_evaluateIn_adds fun value =>
          establishes_seq establishes_checkAssertion_adds fun _ => establishes_pure plain
  | print =>
      dsimp only
      rw [printDirective.eq_def]
      split
      · exact establishes_seq establishes_reportNote fun _ => establishes_pure plain
      · refine establishes_seq establishes_evaluateIn_adds fun value => ?_
        cases value with
        | none => exact establishes_pure plain
        | some value => exact establishes_seq establishes_reportNote fun _ => establishes_pure plain

theorem establishes_plainConstant {c : ConstantDeclAST} {state : SectionState}
    (plain : PlainConstants state.out.constants) :
    Establishes given (analyzeConstant scope owner c state) fun after =>
      PlainConstants after.out.constants := by
  rw [analyzeConstant]
  refine establishes_seq establishes_reportWhen fun _ => ?_
  dsimp only
  split
  · exact establishes_fault
  · refine establishes_seq establishes_evaluateIn_adds fun value => ?_
    cases value with
    | none => exact establishes_pure plain
    | some value =>
        refine establishes_bind _ establishes_checkConstantCompatibility fun compatible => ?_
        split
        · exact establishes_pure fun checked => plain.add _ checked.2
        · exact establishes_pure fun _ => plain

theorem establishes_plainField {f : FieldDeclAST} {state : SectionState}
    (plain : PlainConstants state.out.constants) :
    Establishes given (analyzeField scope owner isResponse f state) fun after =>
      PlainConstants after.out.constants := by
  rw [analyzeField]
  refine establishes_seq establishes_reportWhen fun _ => ?_
  dsimp only
  split
  · exact establishes_fault
  · split
    · exact establishes_fault
    · refine establishes_seq establishes_reportWhen fun _ => ?_
      refine establishes_seq establishes_analyzeType_adds fun layout => establishes_pure ?_
      rw [addField]
      split_ifs <;> exact plain

theorem establishes_plainStatements (stmts : List StatementAST) {state : SectionState}
    (plain : PlainConstants state.out.constants) :
    Establishes given (analyzeStatements scope owner isResponse stmts state) fun after =>
      PlainConstants after.out.constants := by
  induction stmts generalizing state with
  | nil => exact establishes_pure plain
  | cons stmt rest ih =>
      rw [analyzeStatements]
      have entered : PlainConstants (enterStatement stmt state).out.constants := by
        rw [enterStatement_out]
        exact plain
      have first : Establishes given (analyzeStatement scope owner isResponse state stmt)
          fun after => PlainConstants after.out.constants := by
        cases stmt with
        | directive d => exact establishes_plainDirective entered
        | constant c => exact establishes_plainConstant entered
        | field f => exact establishes_plainField entered
        | serviceResponseMarker location => exact establishes_pure entered
      refine establishes_bind _ first fun middle => ?_
      by_cases onward : PlainConstants middle.out.constants
      · exact (ih onward).mono fun _ holds _ => holds
      · exact (establishes_sectionWalk rest middle).mono fun _ _ holds => absurd holds onward

theorem constants_closeOffsets (state : SectionState) :
    (closeOffsets state).constants = state.out.constants := by
  rw [closeOffsets]
  split <;> rfl

theorem establishes_plainClose {state : SectionState}
    (plain : PlainConstants state.out.constants) :
    Establishes given (closeSection owner state) fun sec => PlainConstants sec.constants := by
  have closed : PlainConstants (closeOffsets state).constants := by
    rw [constants_closeOffsets]
    exact plain
  rw [closeSection]
  refine establishes_seq establishes_reportWhen fun _ => ?_
  refine establishes_seq establishes_reportWhen fun _ => ?_
  split
  · exact establishes_pure closed
  · exact establishes_seq establishes_checkExtent fun _ => establishes_pure closed

theorem establishes_plainSection (stmts : List StatementAST) :
    Establishes given (analyzeSection scope owner isResponse stmts) fun sec =>
      PlainConstants sec.constants := by
  rw [analyzeSection]
  have start : PlainConstants ({} : SectionState).out.constants :=
    fun _ absent => absurd absent List.not_mem_nil
  refine establishes_bind _ (establishes_plainStatements stmts start) fun state => ?_
  by_cases plain : PlainConstants state.out.constants
  · exact (establishes_plainClose plain).mono fun _ holds _ => holds
  · exact establishes_closeSection.mono fun _ _ holds => absurd holds plain

theorem establishes_plainDefinition (parsed : ParsedDefinition) :
    Establishes given (analyzeDefinition scope parsed) fun definition =>
      PlainConstants definition.request.constants := by
  rw [analyzeDefinition]
  refine establishes_seq establishes_reportWhen fun _ => ?_
  refine establishes_seq establishes_reportWhen fun _ => ?_
  refine establishes_bind _ (establishes_plainSection _) fun request => ?_
  split
  · refine establishes_seq (establishes_plainSection _) fun response => ?_
    exact establishes_seq establishes_reportWhen fun _ => establishes_pure fun plain => plain
  · exact establishes_pure fun plain => plain

end PlainConstants

section Types

variable {answers : TypeKey → Option SemanticDefinition} {scope : Scope}
  {owner : DiscoveredDefinition}

/-- Every local definition is answered for, by one of its key whose constants are no types, and
so is the catalogue. -/
structure Answered (answers : TypeKey → Option SemanticDefinition) (scope : Scope) : Prop where
  available : ∀ key, scope.isLocal key = true → ∃ definition, answers key = some definition
  named : ∀ key definition, answers key = some definition → definition.info.typeKey = key
  plain : ∀ key definition, answers key = some definition →
    ∀ constant ∈ definition.request.constants, PlainValue constant.value
  external : ∀ key definition, scope.external key = some definition →
    definition.info.typeKey = key
  externalPlain : ∀ key definition, scope.external key = some definition →
    ∀ constant ∈ definition.request.constants, PlainValue constant.value

/-- A definition found under a key, whose constants are no types. -/
structure FoundAs (key : TypeKey) (definition : SemanticDefinition) : Prop where
  named : definition.info.typeKey = key
  plain : ∀ constant ∈ definition.request.constants, PlainValue constant.value

theorem resolvedReference_local {type : VersionedTypeExprAST} {name : String} {key : TypeKey}
    (found : resolvedReference scope owner type = some ⟨name, key, none⟩) :
    scope.isLocal key = true := by
  obtain ⟨candidate, _, resolves⟩ := List.exists_of_findSome?_eq_some found
  rw [resolveCandidate] at resolves
  split_ifs at resolves with isLocal
  · cases resolves
    exact isLocal
  · obtain ⟨listed, _, same⟩ := Option.map_eq_some_iff.mp resolves
    cases same

theorem resolvedReference_external {type : VersionedTypeExprAST}
    {resolved : ResolvedCompositeDefinition} {definition : SemanticDefinition}
    (found : resolvedReference scope owner type = some resolved)
    (held : resolved.definition = some definition) :
    scope.external resolved.key = some definition := by
  obtain ⟨candidate, _, resolves⟩ := List.exists_of_findSome?_eq_some found
  rw [resolveCandidate] at resolves
  split_ifs at resolves
  · cases resolves
    cases held
  · obtain ⟨listed, external, rfl⟩ := Option.map_eq_some_iff.mp resolves
    cases held
    exact external

theorem asks_resolveCompositeType {enabled : Prop} (type : VersionedTypeExprAST)
    (location : SourceLocation) :
    Asks answers enabled (resolveCompositeType scope owner type location) [] fun answer =>
      ∃ resolved, answer = some resolved ∧ resolvedReference scope owner type = some resolved := by
  rw [resolveCompositeType]
  split
  · rename_i resolved found
    exact asks_pure fun _ => ⟨resolved, rfl, found⟩
  · exact asks_refuse

/-- A local reference is asked for; one of the catalogue is on hand. -/
theorem asks_resolvedDefinition (answered : Answered answers scope) {enabled : Prop}
    (type : VersionedTypeExprAST) (resolved : ResolvedCompositeDefinition) :
    Asks answers (enabled ∧ resolvedReference scope owner type = some resolved)
      (resolvedDefinition resolved) (askedKeys scope owner type) fun answer =>
        ∃ definition, answer = some definition ∧ FoundAs resolved.key definition := by
  obtain ⟨name, key, held⟩ := resolved
  cases held with
  | some definition =>
      have asks : Asks answers
          (enabled ∧ resolvedReference scope owner type = some ⟨name, key, some definition⟩)
          (resolvedDefinition ⟨name, key, some definition⟩) [] fun answer =>
            ∃ definition, answer = some definition ∧ FoundAs key definition := by
        refine asks_pure fun on => ⟨definition, rfl, ?_⟩
        have external := resolvedReference_external on.2 rfl
        exact ⟨answered.external key definition external,
          answered.externalPlain key definition external⟩
      refine asks.keys_eq fun on => ?_
      rw [askedKeys, on.2]
  | none =>
      have keys : enabled ∧ resolvedReference scope owner type = some ⟨name, key, none⟩ →
          [key] = askedKeys scope owner type := by
        intro on
        rw [askedKeys, on.2]
      refine (asks_analyzeOther.keys_eq keys).mono id ?_
      rintro on answer rfl
      obtain ⟨definition, same⟩ := answered.available key (resolvedReference_local on.2)
      exact ⟨definition, same, answered.named key definition same,
        answered.plain key definition same⟩

theorem plain_attributeOf {definition : SemanticDefinition} {key : TypeKey}
    (found : FoundAs key definition) {attributeName : String} {value : Value}
    (named : attributeOf definition.request attributeName = some value) : PlainValue value := by
  rw [attributeOf] at named
  split_ifs at named
  · cases named
    exact plain_rational _
  · cases named
    exact plain_bitLengthSet _
  · obtain ⟨constant, listed, rfl⟩ := Option.map_eq_some_iff.mp named
    exact found.plain constant (List.mem_of_find?_eq_some listed)

theorem resolved_of_found {enabled : Prop} {type : VersionedTypeExprAST}
    {resolved : ResolvedCompositeDefinition}
    (on : enabled ∧ ∃ found, some resolved = some found ∧
      resolvedReference scope owner type = some found) :
    enabled ∧ resolvedReference scope owner type = some resolved := by
  obtain ⟨holds, found, same, resolves⟩ := on
  cases same
  exact ⟨holds, resolves⟩

theorem asks_typeAttrResolver (answered : Answered answers scope) :
    ResolverAsks answers scope owner (typeAttrResolver scope owner) := by
  intro enabled type name location
  rw [typeAttrResolver]
  split
  · rename_i versioned isScalar isVersioned
    have reference : compositeReference type = [versioned] := by
      rw [compositeReference, isScalar, isVersioned]
    rw [reference, keysOf_singleton, ← List.nil_append (askedKeys scope owner versioned)]
    refine asks_bind (asks_resolveCompositeType versioned location) fun answer => ?_
    cases answer with
    | none => exact asks_pure_off fun on => by obtain ⟨_, impossible, _⟩ := on.2; cases impossible
    | some resolved =>
        rw [← List.append_nil (askedKeys scope owner versioned)]
        have asks : Asks answers (enabled ∧ ∃ found, some resolved = some found ∧
            resolvedReference scope owner versioned = some found) (resolvedDefinition resolved)
            (askedKeys scope owner versioned) _ :=
          (asks_resolvedDefinition answered versioned resolved).mono resolved_of_found
            fun _ _ holds => holds
        refine asks_bind asks fun answer => ?_
        cases answer with
        | none => exact asks_refuse
        | some definition =>
            dsimp only
            split
            · exact asks_refuse
            · split
              · rename_i value named
                refine asks_pure fun on => ?_
                obtain ⟨_, same, found⟩ := on.2
                cases same
                exact ⟨value, rfl, plain_attributeOf found named⟩
              · exact asks_refuse
  · exact asks_refuse

def TypeLayout.key (layout : TypeLayout) : Option TypeKey :=
  layout.resolved.compositeType.map SemanticTypeRef.typeKey

theorem asks_baseFromScalar (answered : Answered answers scope) {enabled : Prop}
    (type : TypeExprAST) :
    Asks answers enabled (baseFromScalar scope owner type)
      (keysOf scope owner (scalarReference type)) fun layout =>
        TypeLayout.key layout = referencedKey scope owner type := by
  rw [baseFromScalar, scalarReference, referencedKey]
  cases type.scalar with
  | primitive p => exact asks_pure fun _ => rfl
  | void bitLength => exact asks_pure fun _ => rfl
  | versioned versioned =>
      simp only [keysOf_singleton]
      rw [← List.nil_append (askedKeys scope owner versioned)]
      refine asks_bind (asks_resolveCompositeType versioned _) fun answer => ?_
      cases answer with
      | none => exact asks_pure_off fun on => by obtain ⟨_, impossible, _⟩ := on.2; cases impossible
      | some resolved =>
          rw [← List.append_nil (askedKeys scope owner versioned)]
          have asks : Asks answers (enabled ∧ ∃ found, some resolved = some found ∧
              resolvedReference scope owner versioned = some found) (resolvedDefinition resolved)
              (askedKeys scope owner versioned) _ :=
            (asks_resolvedDefinition answered versioned resolved).mono resolved_of_found
              fun _ _ holds => holds
          refine asks_bind asks fun answer => ?_
          cases answer with
          | none =>
              exact asks_pure_off fun on => by obtain ⟨_, impossible, _⟩ := on.2; cases impossible
          | some definition =>
              dsimp only
              split
              · exact asks_report_then fun _ => asks_pure fun _ => trivial
              · refine asks_pure fun on => ?_
                obtain ⟨_, same, found⟩ := on.2
                cases same
                rw [(resolved_of_found on.1).2]
                exact congrArg some found.named

theorem asks_faultyType {enabled : Prop} {location : SourceLocation} {message : String}
    {keys : List TypeKey} {post : TypeLayout → Prop} :
    Asks answers enabled (faultyType location message) keys post :=
  asks_report_then fun _ => asks_pure fun _ => trivial

theorem asks_arrayLayout {enabled : Prop} (location : SourceLocation) (kind : ArrayKind)
    (element : TypeLayout) (capacity : ℤ) :
    Asks answers enabled (arrayLayout location kind element capacity) [] fun layout =>
      TypeLayout.key layout = TypeLayout.key element := by
  rw [arrayLayout.eq_def]
  split
  · exact asks_pure fun _ => rfl
  · rw [fixedArray]
    split
    · exact asks_faultyType
    · exact asks_pure fun _ => rfl
  · split
    · exact asks_faultyType
    · exact asks_pure fun _ => rfl
  · split
    · exact asks_faultyType
    · exact asks_pure fun _ => rfl

/-- A field's type asks for its scalar, then for what its capacity reads. -/
theorem asks_analyzeType (answered : Answered answers scope) {enabled : Prop} {env : ValueEnv}
    (plain : PlainEnv env) (type : TypeExprAST) :
    Asks answers enabled (analyzeType scope env (typeAttrResolver scope owner) owner type)
      (keysOf scope owner (scalarReference type) ++ keysOf scope owner (capacityReferences type))
      fun layout => TypeLayout.key layout = referencedKey scope owner type := by
  rw [analyzeType]
  refine asks_bind (asks_baseFromScalar answered type) fun base => ?_
  dsimp only
  split
  · rename_i isScalar
    rw [capacityReferences, isScalar]
    exact asks_pure fun on => on.2
  · exact asks_faultyType
  · exact asks_faultyType
  · rename_i expression held notScalar _
    have reads : capacityReferences type = attributeReferences expression := by
      rw [capacityReferences]
      split
      · rename_i isScalar
        exact absurd isScalar notScalar
      · rw [held]
        rfl
    rw [reads, ← List.append_nil (keysOf scope owner (attributeReferences expression))]
    refine asks_bind (asks_evaluateExpression plain (asks_typeAttrResolver answered) _ expression
      _) fun value => ?_
    split
    · exact asks_faultyType
    · exact asks_faultyType
    · refine (asks_arrayLayout _ _ _ _).mono id fun on layout same => ?_
      rw [same]
      exact on.1.2

end Types

/-! ### Statements -/

def fieldKeys (fields : List SemanticField) : List TypeKey :=
  fields.filterMap fun field => TypeLayout.key { resolved := field.resolvedType }

/-- The keys of the composites a statement's field is of. -/
def StatementAST.referencedKeys (scope : Scope) (owner : DiscoveredDefinition) :
    StatementAST → List TypeKey
  | .field f => (referencedKey scope owner f.type).toList
  | _ => []

section Statements

variable {answers : TypeKey → Option SemanticDefinition} {scope : Scope}
  {owner : DiscoveredDefinition} {isResponse : Bool} {enabled : Prop}

/-- What the walk over the statements keeps: no name is bound to a type, and the fields are of
the composites referred to so far. -/
structure Walked (keys : List TypeKey) (state : SectionState) : Prop where
  env : PlainEnv state.env
  fields : fieldKeys state.out.fields = keys

theorem Walked.congr {keys : List TypeKey} {state state' : SectionState}
    (walked : Walked keys state) (env : state'.env = state.env)
    (fields : state'.out.fields = state.out.fields) : Walked keys state' where
  env := by
    rw [env]
    exact walked.env
  fields := by
    rw [fields]
    exact walked.fields

theorem asks_evaluateIn (answered : Answered answers scope) {state : SectionState}
    (plain : PlainEnv state.env) (expression : ExprAST) (location : SourceLocation) :
    Asks answers enabled (evaluateIn scope owner state expression location)
      (keysOf scope owner (attributeReferences expression)) (WrittenOut expression) :=
  asks_evaluateExpression plain (asks_typeAttrResolver answered) enabled expression location

theorem asks_reportWhen_then {α : Type} {condition : Bool} {location : SourceLocation}
    {message : String} {next : Unit → Analysis α} {keys : List TypeKey} {post : α → Prop}
    (later : ∀ value, Asks answers (enabled ∧ condition = false) (next value) keys post) :
    Asks answers enabled (reportWhen condition location message >>= next) keys post := by
  have first : Asks answers enabled (reportWhen condition location message) [] _ :=
    asks_reportWhen
  exact asks_bind first later

theorem asks_extentDirective (answered : Answered answers scope) {keys : List TypeKey}
    (d : DirectiveAST) {state : SectionState} (walked : Walked keys state) :
    Asks answers enabled (extentDirective scope owner d state)
      (keysOf scope owner ((d.expression.map attributeReferences).getD [])) (Walked keys) := by
  rw [extentDirective.eq_def]
  split
  · exact asks_report_then fun _ => asks_pure fun _ => trivial
  · exact asks_report_then fun _ => asks_pure fun _ => trivial
  · rename_i expression _ given
    rw [given, Option.map_some, Option.getD_some, ← List.append_nil (keysOf scope owner _)]
    refine asks_bind (asks_evaluateIn answered walked.env expression _) fun value => ?_
    split
    · exact asks_report_then fun _ => asks_pure fun _ => trivial
    · exact asks_report_then fun _ => asks_pure fun _ => trivial
    · exact asks_reportWhen_then fun _ => asks_pure fun _ => walked.congr rfl rfl

theorem asks_checkAssertion {location : SourceLocation} (value : Option Value) :
    Asks answers enabled (checkAssertion location value) [] fun _ => True := by
  rw [checkAssertion.eq_def]
  split
  · exact asks_pure fun _ => trivial
  · exact asks_reportError
  · exact asks_reportError

theorem asks_assertDirective (answered : Answered answers scope) {keys : List TypeKey}
    (d : DirectiveAST) {state : SectionState} (walked : Walked keys state) :
    Asks answers enabled (assertDirective scope owner d state)
      (keysOf scope owner ((d.expression.map attributeReferences).getD [])) (Walked keys) := by
  rw [assertDirective.eq_def]
  split
  · exact asks_report_then fun _ => asks_pure fun _ => trivial
  · rename_i expression given
    rw [given, Option.map_some, Option.getD_some, ← List.append_nil (keysOf scope owner _)]
    refine asks_bind (asks_evaluateIn answered walked.env expression _) fun value => ?_
    exact asks_bind (asks_checkAssertion value) fun _ =>
      asks_pure fun _ => walked.congr rfl rfl

theorem asks_printDirective (answered : Answered answers scope) {keys : List TypeKey}
    (d : DirectiveAST) {state : SectionState} (walked : Walked keys state) :
    Asks answers enabled (printDirective scope owner d state)
      (keysOf scope owner ((d.expression.map attributeReferences).getD [])) (Walked keys) := by
  rw [printDirective.eq_def]
  split
  · rename_i given
    rw [given]
    exact asks_bind asks_reportNote fun _ => asks_pure fun _ => walked
  · rename_i expression given
    rw [given, Option.map_some, Option.getD_some, ← List.append_nil (keysOf scope owner _)]
    refine asks_bind (asks_evaluateIn answered walked.env expression _) fun value => ?_
    cases value with
    | none => exact asks_pure fun _ => walked.congr rfl rfl
    | some value =>
        exact asks_bind asks_reportNote fun _ => asks_pure fun _ => walked.congr rfl rfl

theorem asks_analyzeDirective (answered : Answered answers scope) {keys : List TypeKey}
    (d : DirectiveAST) {state : SectionState} (walked : Walked keys state) :
    Asks answers enabled (analyzeDirective scope owner isResponse d state)
      (keysOf scope owner (StatementAST.attributeReferences (.directive d))) (Walked keys) := by
  rw [analyzeDirective, StatementAST.attributeReferences]
  cases d.kind with
  | unknown => exact asks_report_then fun _ => asks_pure fun _ => trivial
  | union =>
      simp only [evaluatesExpression]
      exact asks_reportWhen_then fun _ => asks_reportWhen_then fun _ =>
        asks_reportWhen_then fun _ => asks_pure fun _ => walked.congr rfl rfl
  | aliasable =>
      simp only [evaluatesExpression]
      exact asks_reportWhen_then fun _ => asks_reportWhen_then fun _ =>
        asks_pure fun _ => walked.congr rfl rfl
  | deprecated =>
      simp only [evaluatesExpression]
      exact asks_reportWhen_then fun _ => asks_reportWhen_then fun _ =>
        asks_reportWhen_then fun _ => asks_reportWhen_then fun _ =>
          asks_pure fun _ => walked.congr rfl rfl
  | extent =>
      simp only [evaluatesExpression, ↓reduceIte]
      exact asks_extentDirective answered d walked
  | «sealed» =>
      simp only [evaluatesExpression]
      rw [sealedDirective]
      split
      · exact asks_report_then fun _ => asks_pure fun _ => trivial
      · exact asks_reportWhen_then fun _ => asks_pure fun _ => walked.congr rfl rfl
  | assert =>
      simp only [evaluatesExpression, ↓reduceIte]
      exact asks_assertDirective answered d walked
  | print =>
      simp only [evaluatesExpression, ↓reduceIte]
      exact asks_printDirective answered d walked

theorem asks_checkConstantCompatibility (c : ConstantDeclAST) (value : Value) :
    Asks answers enabled (checkConstantCompatibility c value) [] fun compatible =>
      compatible = true ∧ PlainValue value := by
  rw [checkConstantCompatibility.eq_def]
  split
  · rename_i checked
    exact asks_pure fun _ => ⟨rfl, plain_of_constantError checked⟩
  · exact asks_report_then fun _ => asks_pure fun _ => trivial

theorem Walked.addConstant {keys : List TypeKey} {state : SectionState} (walked : Walked keys state)
    (c : ConstantDeclAST) {value : Value} (plain : PlainValue value) :
    Walked keys (addConstant c value state) where
  env := by
    intro name other bound
    simp only [Semantics.addConstant, SectionState.bind] at bound
    by_cases same : name = c.name
    · subst same
      rw [Function.update_self] at bound
      cases bound
      exact plain
    · rw [Function.update_of_ne same] at bound
      exact walked.env name other bound
  fields := walked.fields

theorem asks_analyzeConstant (answered : Answered answers scope) {keys : List TypeKey}
    (c : ConstantDeclAST) {state : SectionState} (walked : Walked keys state) :
    Asks answers enabled (analyzeConstant scope owner c state)
      (keysOf scope owner (attributeReferences c.value)) (Walked keys) := by
  rw [analyzeConstant]
  refine asks_reportWhen_then fun _ => ?_
  have started : Walked keys { state with attributesStarted := true } := walked.congr rfl rfl
  dsimp only
  split
  · exact asks_report_then fun _ => asks_pure fun _ => trivial
  · rw [← List.append_nil (keysOf scope owner _)]
    refine asks_bind (asks_evaluateIn answered started.env c.value _) fun value => ?_
    cases value with
    | none => exact asks_pure fun _ => started
    | some value =>
        refine asks_bind (asks_checkConstantCompatibility c value) fun compatible => ?_
        split
        · by_cases plain : PlainValue value
          · exact asks_pure fun _ => started.addConstant c plain
          · exact asks_pure_off fun on => plain on.2.2
        · exact asks_pure fun _ => started

theorem Walked.addField {keys : List TypeKey} {state : SectionState} (walked : Walked keys state)
    (f : FieldDeclAST) (layout : TypeLayout) :
    Walked (keys ++ (TypeLayout.key layout).toList) (addField isResponse f layout state) := by
  have fields : fieldKeys (state.out.fields ++ [semanticField isResponse f state layout]) =
      keys ++ (TypeLayout.key layout).toList := by
    rw [fieldKeys, List.filterMap_append, ← fieldKeys, walked.fields]
    congr 1
  rw [Semantics.addField]
  split_ifs <;> exact ⟨walked.env, fields⟩

theorem asks_analyzeField (answered : Answered answers scope) {keys : List TypeKey}
    (f : FieldDeclAST) {state : SectionState} (walked : Walked keys state) :
    Asks answers enabled (analyzeField scope owner isResponse f state)
      (keysOf scope owner (scalarReference f.type) ++ keysOf scope owner (capacityReferences f.type))
      (Walked (keys ++ (referencedKey scope owner f.type).toList)) := by
  rw [analyzeField]
  refine asks_reportWhen_then fun _ => ?_
  dsimp only
  split
  · exact asks_report_then fun _ => asks_pure fun _ => trivial
  · split
    · exact asks_report_then fun _ => asks_pure fun _ => trivial
    · refine asks_reportWhen_then fun _ => ?_
      rw [← List.append_nil (keysOf scope owner (capacityReferences f.type)), ← List.append_assoc]
      refine asks_bind (asks_analyzeType answered walked.env f.type) fun layout => ?_
      refine asks_pure fun on => ?_
      rw [← on.2]
      refine Walked.addField ?_ f layout
      split_ifs <;> exact walked.congr rfl rfl

theorem walked_enterStatement {keys : List TypeKey} {state : SectionState} (stmt : StatementAST)
    (walked : Walked keys state) : Walked keys (enterStatement stmt state) := by
  rw [enterStatement]
  split_ifs
  · refine ⟨?_, walked.fields⟩
    intro name other bound
    simp only [SectionState.bind] at bound
    by_cases same : name = "_offset_"
    · subst same
      rw [Function.update_self] at bound
      cases bound
      exact plain_bitLengthSet _
    · rw [Function.update_of_ne same] at bound
      exact walked.env name other bound
  · exact walked.congr rfl rfl

theorem asks_analyzeStatement (answered : Answered answers scope) {keys : List TypeKey}
    (stmt : StatementAST) {state : SectionState} (walked : Walked keys state) :
    Asks answers enabled (analyzeStatement scope owner isResponse state stmt)
      (keysOf scope owner (StatementAST.references stmt))
      (Walked (keys ++ StatementAST.referencedKeys scope owner stmt)) := by
  have entered := walked_enterStatement stmt walked
  rw [StatementAST.references, keysOf_append]
  cases stmt with
  | directive d =>
      simp only [StatementAST.fieldReferences, StatementAST.referencedKeys, keysOf_nil,
        List.nil_append, List.append_nil]
      exact asks_analyzeDirective answered d entered
  | constant c =>
      simp only [StatementAST.fieldReferences, StatementAST.attributeReferences,
        StatementAST.referencedKeys, keysOf_nil, List.nil_append, List.append_nil]
      exact asks_analyzeConstant answered c entered
  | field f => exact asks_analyzeField answered f entered
  | serviceResponseMarker location =>
      simp only [StatementAST.fieldReferences, StatementAST.attributeReferences,
        StatementAST.referencedKeys, keysOf_nil, List.append_nil]
      exact asks_pure fun _ => entered

/-- Where nothing is asked of it, an analysis that adds diagnostics will do. -/
theorem asks_off {α : Type} {computation : Analysis α} {keys : List TypeKey}
    {post post' : α → Prop} (establishes : Establishes (fun _ _ => True) computation post)
    (never : ¬ enabled) : Asks answers enabled computation keys post' :=
  fun _ => ⟨(Establishes.run establishes).1, fun on => absurd on never⟩

theorem asks_analyzeStatements (answered : Answered answers scope) (stmts : List StatementAST)
    (enabled : Prop) {keys : List TypeKey} {state : SectionState} (walked : Walked keys state) :
    Asks answers enabled (analyzeStatements scope owner isResponse stmts state)
      (keysOf scope owner (stmts.flatMap StatementAST.references))
      (Walked (keys ++ stmts.flatMap (StatementAST.referencedKeys scope owner))) := by
  induction stmts generalizing enabled keys state with
  | nil =>
      rw [List.flatMap_nil, List.flatMap_nil, List.append_nil]
      exact asks_pure fun _ => walked
  | cons stmt rest ih =>
      rw [List.flatMap_cons, List.flatMap_cons, keysOf_append, ← List.append_assoc]
      refine asks_bind (asks_analyzeStatement answered stmt walked) fun middle => ?_
      by_cases onward : Walked (keys ++ StatementAST.referencedKeys scope owner stmt) middle
      · exact ih _ onward
      · exact asks_off (establishes_sectionWalk rest middle) fun on => onward on.2

theorem fieldKeys_closeOffsets (state : SectionState) :
    fieldKeys (closeOffsets state).fields = fieldKeys state.out.fields := by
  rw [closeOffsets]
  split
  · rw [fieldKeys, List.filterMap_map, fieldKeys]
    congr 1
    funext field
    simp only [Function.comp]
    split_ifs <;> rfl
  · rfl

theorem asks_checkExtent (state : SectionState) (out : SemanticSection) :
    Asks answers enabled (checkExtent owner state out) [] fun _ => True := by
  rw [checkExtent]
  dsimp only
  have step : ∀ (condition : Prop) [Decidable condition] {location : SourceLocation}
      {message : String} {suggested : ℤ} {next : Analysis Unit},
      (∀ enabled, Asks answers enabled next [] fun _ => True) → ∀ enabled, Asks answers enabled
        (do if condition then reportExtent location message suggested
            next) [] fun _ => True := by
    intro condition _ location message suggested next later enabled
    split
    · have first : Asks answers enabled (reportExtent location message suggested) []
          fun _ => True := asks_reportExtent
      exact asks_bind first fun _ => later _
    · exact later enabled
  refine step _ (step _ ?_) enabled
  intro enabled
  split
  · exact asks_reportExtent
  · exact asks_pure fun _ => trivial

theorem asks_closeSection {keys : List TypeKey} {state : SectionState}
    (walked : Walked keys state) :
    Asks answers enabled (closeSection owner state) [] fun sec => fieldKeys sec.fields = keys := by
  have kept : fieldKeys (closeOffsets state).fields = keys := by
    rw [fieldKeys_closeOffsets, walked.fields]
  rw [closeSection]
  refine asks_reportWhen_then fun _ => asks_reportWhen_then fun _ => ?_
  split
  · exact asks_pure fun _ => kept
  · exact asks_bind (asks_checkExtent state _) fun _ => asks_pure fun _ => kept

/-- A section asks for the references in its text, and its fields are of the composites they
name. -/
theorem asks_analyzeSection (answered : Answered answers scope) (stmts : List StatementAST) :
    Asks answers enabled (analyzeSection scope owner isResponse stmts)
      (keysOf scope owner (stmts.flatMap StatementAST.references)) fun sec =>
        fieldKeys sec.fields = stmts.flatMap (StatementAST.referencedKeys scope owner) := by
  have start : Walked [] ({} : SectionState) := by
    refine ⟨?_, rfl⟩
    intro name value bound
    cases bound
  rw [analyzeSection, ← List.append_nil (keysOf scope owner _)]
  refine asks_bind (asks_analyzeStatements answered stmts enabled start) fun state => ?_
  by_cases walked : Walked ([] ++ stmts.flatMap (StatementAST.referencedKeys scope owner)) state
  · exact asks_closeSection walked
  · exact asks_off establishes_closeSection fun on => walked on.2

end Statements

/-! ### Definitions -/

def analyzedStatements (parsed : ParsedDefinition) : List StatementAST :=
  requestStatements parsed.ast.statements ++
    if parsed.ast.isService then responseStatements parsed.ast.statements else []

def definitionKeys (definition : SemanticDefinition) : List TypeKey :=
  fieldKeys definition.request.fields ++
    (definition.response.map fun response => fieldKeys response.fields).getD []

section Definitions

variable {answers : TypeKey → Option SemanticDefinition} {scope : Scope} {enabled : Prop}

/-- A definition asks for the references in its text, and its fields are of the composites they
name. -/
theorem asks_analyzeDefinition (answered : Answered answers scope) (parsed : ParsedDefinition) :
    Asks answers enabled (analyzeDefinition scope parsed)
      (keysOf scope parsed.info ((analyzedStatements parsed).flatMap StatementAST.references))
      fun definition => definitionKeys definition =
        (analyzedStatements parsed).flatMap (StatementAST.referencedKeys scope parsed.info) := by
  rw [analyzeDefinition, analyzedStatements, List.flatMap_append, List.flatMap_append,
    keysOf_append]
  refine asks_reportWhen_then fun _ => asks_reportWhen_then fun _ => ?_
  refine asks_bind (asks_analyzeSection answered _) fun request => ?_
  split
  · rw [← List.append_nil (keysOf scope parsed.info _)]
    refine asks_bind (asks_analyzeSection answered _) fun response => ?_
    refine asks_reportWhen_then fun _ => asks_pure fun on => ?_
    rw [definitionKeys, on.1.1.2, Option.map_some, Option.getD_some, ← on.1.2]
  · refine asks_pure fun on => ?_
    rw [definitionKeys, on.2]
    simp

end Definitions

end LlvmDsdl.Semantics
