import LlvmDsdl.Library.DepthFirstRules
import LlvmDsdl.Semantics.SectionAnalysis

/-!
Contract: rules of postconditions for analyses.

Owns: what an analysis establishes when it ends without an error, the rule of
each way to build one, and the rules of expression evaluation.

Diagnostics are only ever added, so an analysis without an error has none in any
of its parts.
-/

namespace LlvmDsdl.Semantics

open Frontend Library Library.TaskSystem

/-- A diagnostic that fails the analysis. -/
def isError (diagnostic : Diagnostic) : Prop := diagnostic.severity = .error

instance : DecidablePred isError := fun diagnostic => decEq diagnostic.severity .error

/-- Whatever another definition's analysis may answer. -/
abbrev Answers := TypeKey → Option SemanticDefinition → Prop

/-- Diagnostics are added, and `post` holds of the value unless one of them is an error. -/
def Establishes {α : Type} (given : Answers) (computation : Analysis α) (post : α → Prop) : Prop :=
  ∀ before, (computation before).Holds given fun outcome =>
    before <+: outcome.2 ∧ (Clean isError outcome.2 → post outcome.1)

section Rules

variable {given : Answers} {α γ : Type}

theorem Clean.of_prefix {before after : List Diagnostic} (clean : Clean isError after)
    (grown : before <+: after) : Clean isError before :=
  fun diagnostic member => clean diagnostic (grown.subset member)

theorem establishes_pure {post : α → Prop} {value : α} (holds : post value) :
    Establishes given (pure value) post :=
  fun before => ⟨List.prefix_refl before, fun _ => holds⟩

theorem establishes_bind {computation : Analysis α} {next : α → Analysis γ}
    (middle : α → Prop) {post : γ → Prop} (first : Establishes given computation middle)
    (then_ : ∀ value, Establishes given (next value) fun result => middle value → post result) :
    Establishes given (computation >>= next) post := by
  intro before
  refine (first before).bind ?_
  intro outcome here
  refine (then_ outcome.1 outcome.2).mono ?_
  intro result there
  exact ⟨here.1.trans there.1, fun clean => there.2 clean (here.2 (Clean.of_prefix clean there.1))⟩

theorem Establishes.mono {computation : Analysis α} {strong weak : α → Prop}
    (establishes : Establishes given computation strong)
    (weaker : ∀ value, strong value → weak value) : Establishes given computation weak := by
  intro before
  refine (establishes before).mono ?_
  intro outcome here
  exact ⟨here.1, fun clean => weaker _ (here.2 clean)⟩

theorem establishes_trivial {computation : Analysis α} {post : α → Prop}
    (establishes : Establishes given computation post) :
    Establishes given computation fun _ => True :=
  establishes.mono fun _ _ => trivial

theorem establishes_seq {computation : Analysis α} {next : α → Analysis γ} {middle : α → Prop}
    {post : γ → Prop} (first : Establishes given computation middle)
    (then_ : ∀ value, Establishes given (next value) post) :
    Establishes given (computation >>= next) post :=
  establishes_bind middle first fun value => (then_ value).mono fun _ holds _ => holds

theorem not_clean_append_error {before : List Diagnostic} {diagnostic : Diagnostic}
    (failure : isError diagnostic) : ¬ Clean isError (before ++ [diagnostic]) := by
  intro clean
  exact clean diagnostic (List.mem_append_right _ (List.mem_singleton_self _)) failure

theorem establishes_reportError {location : SourceLocation} {message : String} :
    Establishes given (reportError location message) fun _ => False := by
  intro before
  have failure : isError ⟨.error, location, message, none⟩ := rfl
  exact ⟨List.prefix_append _ _, not_clean_append_error failure⟩

theorem establishes_reportExtent {location : SourceLocation} {message : String} {suggested : ℤ} :
    Establishes given (reportExtent location message suggested) fun _ => False := by
  intro before
  have failure : isError ⟨.error, location, message, some suggested⟩ := rfl
  exact ⟨List.prefix_append _ _, not_clean_append_error failure⟩

theorem establishes_reportNote {location : SourceLocation} {message : String} :
    Establishes given (reportNote location message) fun _ => True :=
  fun _ => ⟨List.prefix_append _ _, fun _ => trivial⟩

theorem establishes_reportWhen {condition : Bool} {location : SourceLocation} {message : String} :
    Establishes given (reportWhen condition location message) fun _ => condition = false := by
  cases condition with
  | false => exact establishes_pure rfl
  | true => exact establishes_reportError.mono fun _ impossible => impossible.elim

theorem establishes_refuse {location : SourceLocation} {message : String}
    {post : Option α → Prop} : Establishes given (refuse location message) post :=
  establishes_bind (fun _ => False) establishes_reportError
    fun _ => establishes_pure fun impossible => impossible.elim

theorem establishes_report_then {location : SourceLocation} {message : String}
    {next : Unit → Analysis α} {post : α → Prop}
    (later : ∀ value, Establishes given (next value) fun _ => True) :
    Establishes given (reportError location message >>= next) post :=
  establishes_bind (fun _ => False) establishes_reportError
    fun value => (later value).mono fun _ _ impossible => impossible.elim

theorem establishes_analyzeOther {key : TypeKey} :
    Establishes given (analyzeOther key) fun answer => given key answer :=
  fun before _ known => ⟨List.prefix_refl before, fun _ => known⟩

theorem establishes_get {post : List Diagnostic → Prop} (holds : ∀ state, post state) :
    Establishes given (get : Analysis (List Diagnostic)) post :=
  fun before => ⟨List.prefix_refl before, fun _ => holds before⟩

variable {host : Host} {env : ValueEnv} {resolver : Option (TypeAttributeResolver Ask)}

theorem establishes_settle {location : SourceLocation} {result : Except String Value} :
    Establishes given (settle location result) fun _ => True := by
  cases result with
  | ok value => exact establishes_pure trivial
  | error message => exact establishes_refuse

def ResolverAdds (given : Answers) (resolver : Option (TypeAttributeResolver Ask)) : Prop :=
  ∀ resolve, resolver = some resolve → ∀ type name location,
    Establishes given (resolve type name location) fun _ => True

theorem applyAttribute_of_not_type {location : SourceLocation} {value : Value} {name : String}
    (notType : ∀ type, value ≠ .type type) :
    applyAttribute host resolver location value name =
      settle location (setAttribute host value name) := by
  cases value with
  | type type => exact absurd rfl (notType type)
  | _ => cases resolver <;> rfl

theorem establishes_applyAttribute (adds : ResolverAdds given resolver)
    (location : SourceLocation) (value : Value) (name : String) :
    Establishes given (applyAttribute host resolver location value name) fun _ => True := by
  by_cases isType : ∃ type, value = .type type
  · have ⟨type, same⟩ := isType
    rw [same]
    cases resolver with
    | some resolve => exact adds resolve rfl type name location
    | none =>
        rw [applyAttribute]
        split
        · exact establishes_pure trivial
        · exact establishes_refuse
  · rw [applyAttribute_of_not_type fun type same => isType ⟨type, same⟩]
    exact establishes_settle

mutual

theorem establishes_evaluate (adds : ResolverAdds given resolver) (expr : ExprAST) :
    Establishes given (evaluate host env resolver expr) fun _ => True := by
  cases expr with
  | boolean _ value => rw [evaluate]; exact establishes_pure trivial
  | rational _ value => rw [evaluate]; exact establishes_pure trivial
  | string _ value => rw [evaluate]; exact establishes_pure trivial
  | identifier location name =>
      rw [evaluate]
      split
      · exact establishes_pure trivial
      · exact establishes_refuse
  | unary location op operand =>
      rw [evaluate]
      refine establishes_seq (establishes_evaluate adds operand) fun value => ?_
      cases value with
      | none => exact establishes_pure trivial
      | some value => exact establishes_settle
  | binary location op lhs rhs =>
      by_cases isAttribute : op = .attribute
      · rw [isAttribute, evaluate]
        refine establishes_seq (establishes_evaluate adds lhs) fun value => ?_
        cases value with
        | none => exact establishes_pure trivial
        | some value =>
            cases rhs with
            | identifier _ name =>
                exact establishes_applyAttribute adds location value name
            | _ => exact establishes_refuse
      · rw [evaluate]
        refine establishes_seq (establishes_evaluate adds lhs) fun left => ?_
        refine establishes_seq (establishes_evaluate adds rhs) fun right => ?_
        cases left with
        | none => exact establishes_pure trivial
        | some leftValue =>
            cases right with
            | none => exact establishes_pure trivial
            | some rightValue => exact establishes_settle
        · exact isAttribute
  | setLiteral location elements =>
      rw [evaluate]
      refine establishes_seq (establishes_evaluateElements adds elements _) ?_
      exact fun _ => establishes_pure trivial
  | typeLiteral _ type => rw [evaluate]; exact establishes_pure trivial

theorem establishes_evaluateElements (adds : ResolverAdds given resolver)
    (elements : List ExprAST) (set : Support.RationalSet) :
    Establishes given (evaluateElements host env resolver elements set) fun _ => True := by
  cases elements with
  | nil => rw [evaluateElements]; exact establishes_pure trivial
  | cons element rest =>
      rw [evaluateElements]
      refine establishes_seq (establishes_evaluate adds element) fun value => ?_
      cases value with
      | none => exact establishes_pure trivial
      | some value =>
          cases value with
          | rational number =>
              exact establishes_evaluateElements adds rest _
          | _ => exact establishes_refuse

end

theorem establishes_evaluateExpression (adds : ResolverAdds given resolver) (expr : ExprAST)
    (location : SourceLocation) :
    Establishes given (evaluateExpression host env resolver expr location) fun _ => True := by
  rw [evaluateExpression]
  refine establishes_seq (establishes_get fun _ => trivial) fun before => ?_
  refine establishes_seq (establishes_evaluate adds expr) fun value => ?_
  cases value with
  | some value => exact establishes_pure trivial
  | none =>
      refine establishes_seq (establishes_get fun _ => trivial) fun after => ?_
      split
      · exact establishes_refuse
      · exact establishes_pure trivial

end Rules

end LlvmDsdl.Semantics
