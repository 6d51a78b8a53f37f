import LlvmDsdl.Semantics.OrderIndependence
import LlvmDsdl.Semantics.SectionFacts

/-!
Contract: the runs of the analyses of an accepted module.

Owns: an analysis run against a table of results, what every analysis adds to the
diagnostics, the sections of a definition as they are analysed, and the proof that
in an accepted module each of them runs without an error.
-/

namespace LlvmDsdl.Semantics

open Frontend Support Library Library.TaskSystem

/-! ### Runs against a table -/

abbrev Results := TypeKey → Option SemanticDefinition

/-- The value and the diagnostics of an analysis whose asks are answered from a table. -/
def runWith {α : Type} (answers : Results) (computation : Analysis α) (before : List Diagnostic) :
    α × List Diagnostic :=
  (computation before).eval answers

section Runs

variable {α γ : Type} {answers : Results} {before : List Diagnostic}

@[simp] theorem runWith_pure (value : α) : runWith answers (pure value) before = (value, before) :=
  rfl

theorem runWith_bind (computation : Analysis α) (next : α → Analysis γ) :
    runWith answers (computation >>= next) before =
      runWith answers (next (runWith answers computation before).1)
        (runWith answers computation before).2 :=
  Query.eval_bind (computation before) (fun outcome => next outcome.1 outcome.2) answers

theorem Establishes.run {computation : Analysis α} {post : α → Prop}
    (establishes : Establishes (fun _ _ => True) computation post) :
    before <+: (runWith answers computation before).2 ∧
      (Clean isError (runWith answers computation before).2 →
        post (runWith answers computation before).1) :=
  (establishes before).eval_of fun _ => trivial

end Runs

section Adds

variable {given : Answers} {scope : Scope} {owner : DiscoveredDefinition}

theorem establishes_resolvedDefinition_adds {resolved : ResolvedCompositeDefinition} :
    Establishes given (resolvedDefinition resolved) fun _ => True := by
  rw [resolvedDefinition]
  split
  · exact establishes_pure trivial
  · exact establishes_trivial establishes_analyzeOther

theorem resolverAdds_adds : ResolverAdds given (some (typeAttrResolver scope owner)) := by
  intro resolve same type name location
  cases same
  rw [typeAttrResolver]
  split
  · apply establishes_seq establishes_resolveCompositeType
    intro found
    cases found with
    | none => exact establishes_pure trivial
    | some resolved =>
        apply establishes_seq establishes_resolvedDefinition_adds
        intro answer
        cases answer with
        | none => exact establishes_refuse
        | some definition =>
            dsimp only
            split
            · exact establishes_refuse
            · split
              · exact establishes_pure trivial
              · exact establishes_refuse
  · exact establishes_refuse

theorem establishes_evaluateIn_adds {state : SectionState} {expression : ExprAST}
    {location : SourceLocation} :
    Establishes given (evaluateIn scope owner state expression location) fun _ => True :=
  establishes_evaluateExpression resolverAdds_adds _ _

theorem establishes_baseFromScalar_adds {type : TypeExprAST} :
    Establishes given (baseFromScalar scope owner type) fun _ => True := by
  rw [baseFromScalar]
  split
  · exact establishes_pure trivial
  · exact establishes_pure trivial
  · apply establishes_seq establishes_resolveCompositeType
    intro found
    cases found with
    | none => exact establishes_pure trivial
    | some resolved =>
        apply establishes_seq establishes_resolvedDefinition_adds
        intro answer
        cases answer with
        | none => exact establishes_pure trivial
        | some definition =>
            dsimp only
            split
            · exact establishes_report_then fun _ => establishes_pure trivial
            · exact establishes_pure trivial

theorem establishes_analyzeType_adds {env : ValueEnv} {type : TypeExprAST} :
    Establishes given (analyzeType scope env (typeAttrResolver scope owner) owner type)
      fun _ => True := by
  rw [analyzeType]
  apply establishes_seq establishes_baseFromScalar_adds
  intro base
  dsimp only
  split
  · exact establishes_pure trivial
  · exact establishes_faultyType
  · exact establishes_faultyType
  · apply establishes_seq (establishes_evaluateExpression resolverAdds_adds _ _)
    intro value
    split
    · exact establishes_faultyType
    · exact establishes_faultyType
    · exact establishes_arrayLayout_adds

theorem establishes_checkAssertion_adds {location : SourceLocation} {value : Option Value} :
    Establishes given (checkAssertion location value) fun _ => True := by
  rw [checkAssertion.eq_def]
  split
  · exact establishes_pure trivial
  · exact establishes_reportError.mono fun _ _ => trivial
  · exact establishes_reportError.mono fun _ _ => trivial

end Adds

/-! ### One statement of a run without an error -/

def declaresUnion : StatementAST → Bool
  | .directive d => d.kind = .union
  | _ => false

def isFieldStatement : StatementAST → Bool
  | .field _ => true
  | _ => false

def isAttributeStatement : StatementAST → Bool
  | .field _ => true
  | .constant _ => true
  | _ => false

def isDirectiveStatement : StatementAST → Bool
  | .directive _ => true
  | _ => false

/-- What a statement that reports no error does to the options of a union. -/
structure StatementStep (stmt : StatementAST) (state after : SectionState) : Prop where
  isUnion : after.out.isUnion = (state.out.isUnion || declaresUnion stmt)
  early : declaresUnion stmt = true →
    state.attributesStarted = false ∧ stmtNeedsOffset stmt = false
  started : after.attributesStarted = (state.attributesStarted || isAttributeStatement stmt)
  used : after.unionOffsetUsed = (state.unionOffsetUsed ||
    (isDirectiveStatement stmt && stmtNeedsOffset stmt && state.out.isUnion))
  options : if isFieldStatement stmt = true ∧ state.out.isUnion = true then
      ∃ layout, after.unionFields = state.unionFields ++ [layout]
    else after.unionFields = state.unionFields
  open_ : isFieldStatement stmt = true → state.out.isUnion = true →
    state.unionOffsetUsed = false

section Statements

variable {given : Answers} {scope : Scope} {owner : DiscoveredDefinition} {isResponse : Bool}

theorem enterStatement_out (stmt : StatementAST) (state : SectionState) :
    (enterStatement stmt state).out = state.out := by
  rw [enterStatement]
  split <;> rfl

theorem enterStatement_unionFields (stmt : StatementAST) (state : SectionState) :
    (enterStatement stmt state).unionFields = state.unionFields := by
  rw [enterStatement]
  split <;> rfl

theorem enterStatement_attributesStarted (stmt : StatementAST) (state : SectionState) :
    (enterStatement stmt state).attributesStarted = state.attributesStarted := by
  rw [enterStatement]
  split <;> rfl

theorem enterStatement_unionOffsetUsed (stmt : StatementAST) (state : SectionState) :
    (enterStatement stmt state).unionOffsetUsed = state.unionOffsetUsed := by
  rw [enterStatement]
  split <;> rfl

theorem StatementStep.of_entered {stmt : StatementAST} {state after : SectionState}
    (step : StatementStep stmt (enterStatement stmt state) after) :
    StatementStep stmt state after := by
  have ⟨isUnion, early, started, used, options, open_⟩ := step
  rw [enterStatement_out] at isUnion used options open_
  rw [enterStatement_attributesStarted] at early started
  rw [enterStatement_unionOffsetUsed] at used open_
  rw [enterStatement_unionFields] at options
  exact ⟨isUnion, early, started, used, options, open_⟩

/-- A directive that is no `@union` and uses no `_offset_` in one. -/
theorem directiveStep {d : DirectiveAST} {state after : SectionState} (other : d.kind ≠ .union)
    (isUnion : after.out.isUnion = state.out.isUnion)
    (started : after.attributesStarted = state.attributesStarted)
    (unionFields : after.unionFields = state.unionFields)
    (used : after.unionOffsetUsed = (state.unionOffsetUsed ||
      (d.expression.any exprContainsOffset && state.out.isUnion))) :
    StatementStep (.directive d) state after where
  isUnion := by rw [isUnion, declaresUnion, decide_eq_false other, Bool.or_false]
  early := by
    intro declares
    rw [declaresUnion, decide_eq_true_eq] at declares
    exact absurd declares other
  started := started.trans (Bool.or_false _).symm
  used := used
  options := by
    rw [if_neg fun both => Bool.false_ne_true both.1]
    exact unionFields
  open_ := fun impossible => Bool.noConfusion impossible

theorem used_of_none {d : DirectiveAST} {state : SectionState}
    (bare : d.expression.isSome = false) :
    state.unionOffsetUsed = (state.unionOffsetUsed ||
      (d.expression.any exprContainsOffset && state.out.isUnion)) := by
  rw [Option.isSome_eq_false_iff, Option.isNone_iff_eq_none] at bare
  rw [bare, Option.any_none, Bool.false_and, Bool.or_false]

theorem used_of_some {d : DirectiveAST} {state : SectionState} {expression : ExprAST}
    (present : d.expression = some expression) :
    (useOffset state expression).unionOffsetUsed = (state.unionOffsetUsed ||
      (d.expression.any exprContainsOffset && state.out.isUnion)) := by
  rw [present]
  rfl

theorem establishes_fault {α : Type} {value : α} {location : SourceLocation} {message : String}
    {post : α → Prop} :
    Establishes given (reportError location message >>= fun _ => pure value) post :=
  establishes_report_then fun _ => establishes_pure trivial

theorem establishes_unionDirective {d : DirectiveAST} {state : SectionState}
    (isUnion : d.kind = .union) :
    Establishes given (unionDirective d state) (StatementStep (.directive d) state) := by
  unfold unionDirective
  apply establishes_bind _ establishes_reportWhen
  intro _
  refine @Establishes.mono given _ _ (fun after => state.attributesStarted = false ∧
    after = { state with
      out := { state.out with isUnion := true }, unionDirectiveLocation := some d.location }) _ ?_ ?_
  · apply establishes_seq establishes_reportWhen
    intro _
    apply establishes_bind _ establishes_reportWhen
    intro _
    exact establishes_pure fun unstarted => ⟨unstarted, rfl⟩
  · intro after ⟨unstarted, same⟩ bare
    have plain := @used_of_none d state bare
    rw [Option.isSome_eq_false_iff, Option.isNone_iff_eq_none] at bare
    have declares : declaresUnion (.directive d) = true := decide_eq_true isUnion
    rw [same]
    exact
      { isUnion := by rw [declares, Bool.or_true]
        early := fun _ => ⟨unstarted, by rw [stmtNeedsOffset, bare, Option.any_none]⟩
        started := (Bool.or_false _).symm
        used := plain
        options := by
          rw [if_neg fun both => Bool.false_ne_true both.1]
        open_ := fun impossible => Bool.noConfusion impossible }

theorem establishes_directiveStep {d : DirectiveAST} {state : SectionState} :
    Establishes given (analyzeDirective scope owner isResponse d state)
      (StatementStep (.directive d) state) := by
  rw [analyzeDirective]
  cases kind : d.kind with
  | unknown => exact establishes_fault
  | union => exact establishes_unionDirective kind
  | aliasable =>
      have other : d.kind ≠ .union := by rw [kind]; decide
      apply establishes_bind _ establishes_reportWhen
      intro _
      apply establishes_seq establishes_reportWhen
      intro _
      exact establishes_pure fun bare => directiveStep other rfl rfl rfl (used_of_none bare)
  | deprecated =>
      have other : d.kind ≠ .union := by rw [kind]; decide
      apply establishes_bind _ establishes_reportWhen
      intro _
      apply establishes_seq establishes_reportWhen
      intro _
      apply establishes_seq establishes_reportWhen
      intro _
      apply establishes_seq establishes_reportWhen
      intro _
      exact establishes_pure fun bare => directiveStep other rfl rfl rfl (used_of_none bare)
  | extent =>
      have other : d.kind ≠ .union := by rw [kind]; decide
      dsimp only
      rw [extentDirective]
      split
      · exact establishes_fault
      · exact establishes_fault
      · rename_i expression _ given_
        apply establishes_seq establishes_evaluateIn_adds
        intro value
        split
        · exact establishes_fault
        · exact establishes_fault
        · apply establishes_seq establishes_reportWhen
          intro _
          exact establishes_pure (directiveStep other rfl rfl rfl (used_of_some given_))
  | «sealed» =>
      have other : d.kind ≠ .union := by rw [kind]; decide
      dsimp only
      rw [sealedDirective]
      split
      · exact establishes_fault
      · apply establishes_bind _ establishes_reportWhen
        intro _
        exact establishes_pure fun bare => directiveStep other rfl rfl rfl (used_of_none bare)
  | assert =>
      have other : d.kind ≠ .union := by rw [kind]; decide
      dsimp only
      rw [assertDirective]
      split
      · exact establishes_fault
      · rename_i expression given_
        apply establishes_seq establishes_evaluateIn_adds
        intro value
        apply establishes_seq establishes_checkAssertion_adds
        intro _
        exact establishes_pure (directiveStep other rfl rfl rfl (used_of_some given_))
  | print =>
      have other : d.kind ≠ .union := by rw [kind]; decide
      dsimp only
      rw [printDirective]
      split
      · rename_i bare
        apply establishes_seq establishes_reportNote
        intro _
        have absent : d.expression.isSome = false := by
          rw [bare]
          rfl
        exact establishes_pure (directiveStep other rfl rfl rfl (used_of_none absent))
      · rename_i expression given_
        have step : StatementStep (.directive d) state (useOffset state expression) :=
          directiveStep other rfl rfl rfl (used_of_some given_)
        apply establishes_seq establishes_evaluateIn_adds
        intro value
        cases value with
        | none => exact establishes_pure step
        | some value =>
            apply establishes_seq establishes_reportNote
            intro _
            exact establishes_pure step

theorem establishes_constantStep {c : ConstantDeclAST} {state : SectionState} :
    Establishes given (analyzeConstant scope owner c state)
      (StatementStep (.constant c) state) := by
  have started : StatementStep (.constant c) state { state with attributesStarted := true } :=
    { isUnion := (Bool.or_false _).symm
      early := fun impossible => Bool.noConfusion impossible
      started := (Bool.or_true _).symm
      used := (Bool.or_false _).symm
      options := by
        rw [if_neg fun both => Bool.false_ne_true both.1]
      open_ := fun impossible => Bool.noConfusion impossible }
  unfold analyzeConstant
  apply establishes_seq establishes_reportWhen
  intro _
  dsimp only
  split
  · exact establishes_fault
  · apply establishes_seq establishes_evaluateIn_adds
    intro value
    cases value with
    | none => exact establishes_pure started
    | some value =>
        have checked : Establishes given (checkConstantCompatibility c value) fun _ => True := by
          rw [checkConstantCompatibility]
          split
          · exact establishes_pure trivial
          · exact establishes_report_then fun _ => establishes_pure trivial
        apply establishes_seq checked
        intro compatible
        cases compatible with
        | false => exact establishes_pure started
        | true =>
            exact establishes_pure ⟨started.isUnion, started.early, started.started, started.used,
              started.options, started.open_⟩

theorem establishes_fieldStep {f : FieldDeclAST} {state : SectionState} :
    Establishes given (analyzeField scope owner isResponse f state)
      (StatementStep (.field f) state) := by
  unfold analyzeField
  apply establishes_seq establishes_reportWhen
  intro _
  dsimp only
  split
  · exact establishes_fault
  · split
    · exact establishes_fault
    · apply establishes_bind _ establishes_reportWhen
      intro _
      apply establishes_seq establishes_analyzeType_adds
      intro layout
      apply establishes_pure
      intro open_
      have named : (if f.isPadding then { state with attributesStarted := true }
          else { state with attributesStarted := true, names := f.name :: state.names }) =
          takeName f state := rfl
      rw [named, addField]
      have sameOut : (takeName f state).out = state.out := takeName_out f state
      have sameStart : (takeName f state).attributesStarted = true := takeName_started f state
      have sameUsed : (takeName f state).unionOffsetUsed = state.unionOffsetUsed := by
        rw [takeName]
        split <;> rfl
      have sameFields : (takeName f state).unionFields = state.unionFields := by
        rw [takeName]
        split <;> rfl
      rw [sameOut]
      cases isUnion : state.out.isUnion with
      | true =>
          rw [isUnion, Bool.true_and] at open_
          exact
            { isUnion := by
                rw [isUnion]
                exact isUnion
              early := fun impossible => Bool.noConfusion impossible
              started := sameStart.trans (Bool.or_true _).symm
              used := sameUsed.trans (Bool.or_false _).symm
              options := by
                rw [if_pos ⟨rfl, isUnion⟩]
                exact ⟨layout, congrArg (· ++ [layout]) sameFields⟩
              open_ := fun _ _ => open_ }
      | false =>
          exact
            { isUnion := by
                rw [isUnion]
                exact isUnion
              early := fun impossible => Bool.noConfusion impossible
              started := sameStart.trans (Bool.or_true _).symm
              used := sameUsed.trans (Bool.or_false _).symm
              options := by
                rw [if_neg fun both => Bool.false_ne_true (isUnion.symm.trans both.2)]
                exact sameFields
              open_ := fun _ union => absurd (isUnion.symm.trans union) Bool.false_ne_true }

theorem establishes_statementStep {stmt : StatementAST} {state : SectionState} :
    Establishes given (analyzeStatement scope owner isResponse state stmt)
      (StatementStep stmt state) := by
  refine @Establishes.mono given _ _ (StatementStep stmt (enterStatement stmt state)) _ ?_ ?_
  · cases stmt with
    | directive d => exact establishes_directiveStep
    | constant c => exact establishes_constantStep
    | field f => exact establishes_fieldStep
    | serviceResponseMarker location =>
        exact establishes_pure
          { isUnion := (Bool.or_false _).symm
            early := fun impossible => Bool.noConfusion impossible
            started := (Bool.or_false _).symm
            used := (Bool.or_false _).symm
            options := by
              rw [if_neg fun both => Bool.false_ne_true both.1]
            open_ := fun impossible => Bool.noConfusion impossible }
  · exact fun after step => step.of_entered

end Statements

/-! ### The walk of a run without an error -/

/-- The statements' steps, one from the state of the last. -/
inductive SectionWalk : List StatementAST → SectionState → SectionState → Prop where
  | nil (state : SectionState) : SectionWalk [] state state
  | cons {stmt : StatementAST} {rest : List StatementAST} {state middle after : SectionState}
      (first : StatementStep stmt state middle) (later : SectionWalk rest middle after) :
      SectionWalk (stmt :: rest) state after

namespace SectionWalk

variable {statements : List StatementAST} {state after : SectionState}

theorem started (walk : SectionWalk statements state after)
    (begun : state.attributesStarted = true) : after.attributesStarted = true := by
  induction walk with
  | nil state => exact begun
  | cons first later ih =>
      apply ih
      rw [first.started, begun, Bool.true_or]

theorem not_declared (walk : SectionWalk statements state after)
    (begun : state.attributesStarted = true) : statements.any declaresUnion = false := by
  induction walk with
  | nil state => rfl
  | @cons stmt rest state middle after first later ih =>
      have undeclared : declaresUnion stmt = false := by
        cases declares : declaresUnion stmt with
        | false => rfl
        | true => exact absurd ((first.early declares).1.symm.trans begun) Bool.false_ne_true
      rw [List.any_cons, undeclared, Bool.false_or]
      apply ih
      rw [first.started, begun, Bool.true_or]

theorem isUnion (walk : SectionWalk statements state after) :
    after.out.isUnion = (state.out.isUnion || statements.any declaresUnion) := by
  induction walk with
  | nil state => exact (Bool.or_false _).symm
  | cons first later ih =>
      rw [ih, first.isUnion, List.any_cons, Bool.or_assoc]

theorem options (walk : SectionWalk statements state after)
    (fieldless : statements.any isFieldStatement = false) :
    after.unionFields = state.unionFields := by
  induction walk with
  | nil state => rfl
  | cons first later ih =>
      rw [List.any_cons, Bool.or_eq_false_iff] at fieldless
      have here := first.options
      rw [fieldless.1, if_neg fun both => Bool.false_ne_true both.1] at here
      exact (ih fieldless.2).trans here

theorem fieldless (walk : SectionWalk statements state after)
    (isUnion : state.out.isUnion = true) (used : state.unionOffsetUsed = true) :
    statements.any isFieldStatement = false := by
  induction walk with
  | nil state => rfl
  | @cons stmt rest state middle after first later ih =>
      have noField : isFieldStatement stmt = false := by
        cases isField : isFieldStatement stmt with
        | false => rfl
        | true =>
            exact absurd ((first.open_ isField isUnion).symm.trans used) Bool.false_ne_true
      rw [List.any_cons, noField, Bool.false_or]
      apply ih
      · rw [first.isUnion, isUnion, Bool.true_or]
      · rw [first.used, used, Bool.true_or]

end SectionWalk

section Walks

variable {given : Answers} {scope : Scope} {owner : DiscoveredDefinition} {isResponse : Bool}

theorem establishes_sectionWalk (statements : List StatementAST) (state : SectionState) :
    Establishes given (analyzeStatements scope owner isResponse statements state)
      (SectionWalk statements state) := by
  induction statements generalizing state with
  | nil => exact establishes_pure (.nil state)
  | cons stmt rest ih =>
      rw [analyzeStatements]
      apply establishes_bind _ establishes_statementStep
      intro middle
      exact (ih middle).mono fun _ later first => .cons first later

theorem establishes_analyzeSection_adds {statements : List StatementAST} :
    Establishes given (analyzeSection scope owner isResponse statements) fun _ => True := by
  unfold analyzeSection
  apply establishes_seq (establishes_sectionWalk statements {})
  intro state
  exact establishes_trivial establishes_closeSection

theorem runWith_append {answers : Results} (front back : List StatementAST) (state : SectionState)
    (before : List Diagnostic) :
    runWith answers (analyzeStatements scope owner isResponse (front ++ back) state) before =
      let first := runWith answers (analyzeStatements scope owner isResponse front state) before
      runWith answers (analyzeStatements scope owner isResponse back first.1) first.2 := by
  induction front generalizing state before with
  | nil => rfl
  | cons stmt rest ih =>
      rw [List.cons_append, analyzeStatements, analyzeStatements, runWith_bind, runWith_bind]
      exact ih _ _

end Walks

/-! ### The sections of an accepted module -/

/-- One section as it is analysed: its statements, and what was reported before them. -/
structure SectionTask where
  owner : DiscoveredDefinition
  isResponse : Bool
  statements : List StatementAST
  reported : List Diagnostic

namespace SectionTask

variable (scope : Scope) (answers : Results) (task : SectionTask)

/-- The section and all that is reported once it is analysed. -/
def run : SemanticSection × List Diagnostic :=
  runWith answers (analyzeSection scope task.owner task.isResponse task.statements) task.reported

/-- The walk's state and all that is reported after the statements in front. -/
def walked (front : List StatementAST) : SectionState × List Diagnostic :=
  runWith answers (analyzeStatements scope task.owner task.isResponse front {}) task.reported

end SectionTask

/-- The sections of a definition, in the order they are analysed. -/
def sectionTasks (scope : Scope) (answers : Results) (parsed : ParsedDefinition) :
    List SectionTask :=
  let request : SectionTask := ⟨parsed.info, false, requestStatements parsed.ast.statements, []⟩
  if parsed.ast.isService then
    [request, ⟨parsed.info, true, responseStatements parsed.ast.statements,
      (request.run scope answers).2⟩]
  else [request]

def recordedResults (env : AnalysisHost) (options : AnalyzeOptions) (module : ASTModule) : Results :=
  fun key => resultOf ((analyzeAll env options module).mark (resolveDefinitionIndex module key))

section Accepted

variable {scope : Scope} {answers : Results}

theorem runWith_reportWhen_false {location : SourceLocation} {message : String}
    {before : List Diagnostic} :
    runWith answers (reportWhen false location message) before = ((), before) := rfl

/-- A condition that is reported as an error does not hold where no error is reported. -/
theorem runWith_reportWhen_clean {condition : Bool} {location : SourceLocation} {message : String}
    {before : List Diagnostic}
    (clean : Clean isError (runWith answers (reportWhen condition location message) before).2) :
    runWith answers (reportWhen condition location message) before = ((), before) := by
  have absent : condition = false := establishes_reportWhen.run.2 clean
  rw [absent, runWith_reportWhen_false]

theorem clean_first {α γ : Type} {computation : Analysis α} {next : α → Analysis γ}
    {before : List Diagnostic}
    (clean : Clean isError (runWith answers (computation >>= next) before).2)
    (adds : ∀ value, Establishes (fun _ _ => True) (next value) fun _ => True) :
    Clean isError (runWith answers computation before).2 := by
  rw [runWith_bind] at clean
  exact Clean.of_prefix clean (adds _).run.1

/-- The analysis of a definition after the checks of its markers. -/
def analyzeSections (scope : Scope) (parsed : ParsedDefinition) : Analysis SemanticDefinition := do
  let request ← analyzeSection scope parsed.info false (requestStatements parsed.ast.statements)
  if parsed.ast.isService then do
    let response ← analyzeSection scope parsed.info true
      (responseStatements parsed.ast.statements)
    reportWhen response.deprecated parsed.ast.location
      "@deprecated is only allowed in service request section"
    pure
      { info := parsed.info
        isService := parsed.ast.isService
        request := request
        response := some { response with deprecated := request.deprecated } }
  else pure { info := parsed.info, isService := parsed.ast.isService, request := request }

theorem establishes_afterRequest {given : Answers} {parsed : ParsedDefinition}
    (request : SemanticSection) :
    Establishes given
      (if parsed.ast.isService then do
        let response ← analyzeSection scope parsed.info true
          (responseStatements parsed.ast.statements)
        reportWhen response.deprecated parsed.ast.location
          "@deprecated is only allowed in service request section"
        pure
          { info := parsed.info
            isService := parsed.ast.isService
            request := request
            response := some { response with deprecated := request.deprecated } }
      else pure { info := parsed.info, isService := parsed.ast.isService, request := request } :
        Analysis SemanticDefinition) fun _ => True := by
  split
  · apply establishes_seq establishes_analyzeSection_adds
    intro response
    apply establishes_seq establishes_reportWhen
    intro _
    exact establishes_pure trivial
  · exact establishes_pure trivial

theorem establishes_analyzeSections {given : Answers} {parsed : ParsedDefinition} :
    Establishes given (analyzeSections scope parsed) fun _ => True :=
  establishes_seq establishes_analyzeSection_adds establishes_afterRequest

/-- Where the markers are right, only the sections are left to analyse. -/
theorem runWith_analyzeDefinition {parsed : ParsedDefinition} {before : List Diagnostic}
    (clean : Clean isError (runWith answers (analyzeDefinition scope parsed) before).2) :
    runWith answers (analyzeDefinition scope parsed) before =
      runWith answers (analyzeSections scope parsed) before := by
  unfold analyzeDefinition at clean ⊢
  dsimp only at clean ⊢
  have marked := runWith_reportWhen_clean (clean_first clean fun _ =>
    establishes_seq establishes_reportWhen fun _ => establishes_analyzeSections)
  rw [runWith_bind, marked] at clean ⊢
  have once := runWith_reportWhen_clean (clean_first clean fun _ => establishes_analyzeSections)
  rw [runWith_bind, once]
  rfl

theorem clean_sectionTasks {parsed : ParsedDefinition}
    (clean : Clean isError (runWith answers (analyzeDefinition scope parsed) []).2)
    {task : SectionTask} (member : task ∈ sectionTasks scope answers parsed) :
    Clean isError (task.run scope answers).2 := by
  rw [runWith_analyzeDefinition clean] at clean
  have request := clean_first clean establishes_afterRequest
  unfold sectionTasks at member
  dsimp only at member
  cases isService : parsed.ast.isService with
  | false =>
      rw [isService, if_neg Bool.false_ne_true, List.mem_singleton] at member
      rw [member]
      exact request
  | true =>
      rw [isService, if_pos rfl, List.mem_pair] at member
      rcases member with same | same
      · rw [same]
        exact request
      · rw [same]
        unfold analyzeSections at clean
        rw [runWith_bind, isService, if_pos rfl] at clean
        refine clean_first clean fun response => ?_
        exact establishes_seq establishes_reportWhen fun _ => establishes_pure trivial

/-- The results on record in a module whose visits are clean are those from scratch. -/
theorem recordedResults_of_yields {env : AnalysisHost} {options : AnalyzeOptions}
    {module : ASTModule} (visits : VisitsClean env options module) {key : TypeKey}
    {result : Option SemanticDefinition}
    (yields : (analysisSystem env options module).Yields isError
      (resolveDefinitionIndex module key) result) :
    recordedResults env options module key = result := by
  rw [recordedResults]
  cases mark : (analyzeAll env options module).mark (resolveDefinitionIndex module key) with
  | done recorded => exact (settled_of_clean visits _ _ mark).unique yields
  | _ =>
      cases here : module[resolveDefinitionIndex module key]? with
      | some parsed =>
          have ⟨definition, _, known, _⟩ := recorded_of_clean visits here
          rw [known] at mark
          cases mark
      | none =>
          have ⟨reports, runs, _⟩ := yields
          rw [analysisTask, here] at runs
          cases runs
          rfl

/-- The definition a name of the module stands for, on record and from scratch. -/
theorem recorded_of_key {env : AnalysisHost} {options : AnalyzeOptions} {module : ASTModule}
    (clean : VisitsClean env options module) {key : TypeKey}
    {definition : SemanticDefinition}
    (recorded : recordedResults env options module key = some definition) :
    ∃ parsed, module[resolveDefinitionIndex module key]? = some parsed ∧
      parsed.info.typeKey = key ∧ definition.info = parsed.info ∧
        (analysisSystem env options module).Yields isError (resolveDefinitionIndex module key)
          (some definition) := by
  rw [recordedResults] at recorded
  have settled := settled_of_clean clean
  cases mark : (analyzeAll env options module).mark (resolveDefinitionIndex module key) with
  | done result =>
      rw [mark, resultOf] at recorded
      subst recorded
      have yields := settled _ _ mark
      cases here : module[resolveDefinitionIndex module key]? with
      | none =>
          obtain ⟨reports, runs, _⟩ := yields
          rw [analysisTask, here] at runs
          cases runs
      | some parsed =>
          obtain ⟨other, same, info⟩ := yields_some here yields
          cases same
          rw [definitionAt] at here
          have named := of_decide_eq_true
            (List.find?_some (p := fun parsed : ParsedDefinition => parsed.info.typeKey = key) here)
          exact ⟨parsed, rfl, named, info, yields⟩
  | visiting =>
      rw [mark] at recorded
      cases recorded
  | unvisited =>
      rw [mark] at recorded
      cases recorded

theorem recordedResults_of_local {env : AnalysisHost} {options : AnalyzeOptions}
    {module : ASTModule} (clean : VisitsClean env options module) {key : TypeKey}
    (isLocal : (scopeOf env options module).isLocal key = true) :
    ∃ definition, recordedResults env options module key = some definition := by
  obtain ⟨parsed, member, named⟩ := List.any_eq_true.mp isLocal
  have located : (module.find? fun other => other.info.typeKey = key).isSome :=
    List.find?_isSome.mpr ⟨parsed, member, named⟩
  obtain ⟨found, here⟩ := Option.isSome_iff_exists.mp located
  rw [← definitionAt] at here
  obtain ⟨definition, _, mark, _⟩ := recorded_of_clean clean here
  exact ⟨definition, by rw [recordedResults, mark, resultOf]⟩

/-- What a definition yields is what its analysis on the results on record gives. -/
theorem run_of_yields {env : AnalysisHost} {options : AnalyzeOptions} {module : ASTModule}
    (visits : VisitsClean env options module) {position : ℕ} {parsed : ParsedDefinition}
    (here : module[position]? = some parsed) {definition : SemanticDefinition}
    (yields : (analysisSystem env options module).Yields isError position (some definition)) :
    ∃ reports, Clean isError reports ∧ runWith (recordedResults env options module)
      (analyzeDefinition (scopeOf env options module) parsed) [] = (definition, reports) := by
  obtain ⟨reports, runs, clean⟩ := yields
  rw [analysisTask, here] at runs
  have outcome := runs.eval fun key result => recordedResults_of_yields visits
  rw [definitionTask, Query.eval_bind] at outcome
  have value : some (runWith (recordedResults env options module)
      (analyzeDefinition (scopeOf env options module) parsed) []).1 = some definition :=
    congrArg Prod.fst outcome
  have reported : (runWith (recordedResults env options module)
      (analyzeDefinition (scopeOf env options module) parsed) []).2 = reports :=
    congrArg Prod.snd outcome
  exact ⟨reports, clean, Prod.ext (Option.some.inj value) reported⟩

/-- In a module whose visits are clean each definition is analysed without an error on the
results on record. -/
theorem accepted_definition {env : AnalysisHost} {options : AnalyzeOptions} {module : ASTModule}
    (visits : VisitsClean env options module) {parsed : ParsedDefinition}
    (member : parsed ∈ module) :
    Clean isError (runWith (recordedResults env options module)
      (analyzeDefinition (scopeOf env options module) parsed) []).2 := by
  have ⟨position, here⟩ := List.mem_iff_getElem?.mp member
  have ⟨definition, _, _, yields⟩ := recorded_of_clean visits here
  have ⟨reports, clean, run⟩ := run_of_yields visits here yields
  rw [run]
  exact clean

end Accepted

end LlvmDsdl.Semantics
