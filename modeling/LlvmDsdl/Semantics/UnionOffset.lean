import LlvmDsdl.Semantics.SectionRuns

/-!
Contract: `_offset_` in the unions of an accepted module.

Owns: the rule that `_offset_` is used only where a union is complete, the places
where the walk over the statements does not enforce it, and the proof that the rule
holds exactly where none of these places uses `_offset_`.
-/

namespace LlvmDsdl.Semantics

open Frontend Support Library Library.TaskSystem

section Rule

variable (scope : Scope) (answers : Results) (task : SectionTask)

/-- What `_offset_` stands for in a statement after those in front. -/
def offsetValueAt (front : List StatementAST) (stmt : StatementAST) : Option Value :=
  (enterStatement stmt (task.walked scope answers front).1).env "_offset_"

/-- No field follows a statement that uses `_offset_`, and its value there is the bit length
set of the complete section. -/
def OffsetRule : Prop :=
  ∀ front stmt back, task.statements = front ++ stmt :: back → stmtNeedsOffset stmt = true →
    back.any isFieldStatement = false ∧
      ∃ set, offsetValueAt scope answers task front stmt = some (.bitLengthSet set) ∧
        set.denote = (task.run scope answers).1.offsetAtEnd.denote

/-- The lengths of a union of the options seen after the statements in front. -/
def seenLengths (front : List StatementAST) : Set ℤ :=
  (computeUnionOffsetFromSeenFields (task.walked scope answers front).1.unionFields).denote

/-- `_offset_` is used in no statement whose use of it the walk overlooks: no constant before
a field, no directive before `@union`, and no array capacity, unless that of a last option
that adds no length to the union. -/
structure OffsetUsedLast : Prop where
  constants : ∀ front c back, task.statements = front ++ .constant c :: back →
    exprContainsOffset c.value = true → back.any isFieldStatement = false
  directives : ∀ front d back, task.statements = front ++ .directive d :: back →
    d.expression.any exprContainsOffset = true → back.any declaresUnion = false
  capacities : ∀ front f back, task.statements = front ++ .field f :: back →
    f.type.arrayCapacity.any exprContainsOffset = true →
      back.any isFieldStatement = false ∧
        seenLengths scope answers task front = seenLengths scope answers task (front ++ [.field f])

end Rule

section Split

variable {scope : Scope} {answers : Results} {task : SectionTask}

/-- The steps before, at and after one statement. -/
structure SplitWalk (scope : Scope) (answers : Results) (task : SectionTask)
    (front : List StatementAST) (stmt : StatementAST) (back : List StatementAST) : Prop where
  before : SectionWalk front {} (task.walked scope answers front).1
  step : StatementStep stmt (task.walked scope answers front).1
    (task.walked scope answers (front ++ [stmt])).1
  behind : SectionWalk back (task.walked scope answers (front ++ [stmt])).1
    (task.walked scope answers task.statements).1

theorem walked_append (front back : List StatementAST) :
    task.walked scope answers (front ++ back) =
      runWith answers (analyzeStatements scope task.owner task.isResponse back
        (task.walked scope answers front).1) (task.walked scope answers front).2 :=
  runWith_append front back {} task.reported

theorem walked_grows (front back : List StatementAST) :
    (task.walked scope answers front).2 <+: (task.walked scope answers (front ++ back)).2 := by
  rw [walked_append]
  exact (establishes_sectionWalk back _).run.1

theorem splitWalk (clean : Clean isError (task.walked scope answers task.statements).2)
    {front : List StatementAST} {stmt : StatementAST} {back : List StatementAST}
    (whole : task.statements = front ++ stmt :: back) :
    SplitWalk scope answers task front stmt back := by
  have joined : task.statements = (front ++ [stmt]) ++ back := by
    rw [whole, List.append_assoc, List.singleton_append]
  have later : Clean isError (task.walked scope answers (front ++ [stmt])).2 := by
    rw [joined] at clean
    exact Clean.of_prefix clean (walked_grows _ back)
  have earlier : Clean isError (task.walked scope answers front).2 :=
    Clean.of_prefix later (walked_grows front [stmt])
  refine ⟨(establishes_sectionWalk front {}).run.2 earlier, ?_, ?_⟩
  · have single := @walked_append scope answers task front [stmt]
    rw [analyzeStatements, runWith_bind] at single
    rw [single] at later ⊢
    exact establishes_statementStep.run.2 later
  · rw [joined] at clean ⊢
    have onward := @walked_append scope answers task
      (front ++ [stmt]) back
    rw [onward] at clean ⊢
    exact (establishes_sectionWalk back _).run.2 clean

theorem offsetValueAt_eq {front : List StatementAST} {stmt : StatementAST}
    (needs : stmtNeedsOffset stmt = true) :
    offsetValueAt scope answers task front stmt =
      some (.bitLengthSet (currentOffset (task.walked scope answers front).1)) := by
  rw [offsetValueAt, enterStatement, if_pos needs]
  simp only [SectionState.bind, Function.update_self]

/-- What the end of a section whose analysis is clean gives a union. -/
structure UnionEnd (scope : Scope) (answers : Results) (task : SectionTask) : Prop where
  clean : Clean isError (task.walked scope answers task.statements).2
  isUnion : (task.walked scope answers task.statements).1.out.isUnion = true
  options : 2 ≤ (task.walked scope answers task.statements).1.unionFields.length
  lengths : (task.run scope answers).1.offsetAtEnd.denote =
    seenLengths scope answers task task.statements

theorem unionEnd (clean : Clean isError (task.run scope answers).2)
    (isUnion : (task.run scope answers).1.isUnion = true) : UnionEnd scope answers task := by
  have split : task.run scope answers =
      runWith answers (closeSection task.owner (task.walked scope answers task.statements).1)
        (task.walked scope answers task.statements).2 := runWith_bind _ _
  rw [split] at clean isUnion
  have establishes : Establishes (fun _ _ => True)
      (closeSection task.owner (task.walked scope answers task.statements).1)
      (ClosedFacts (task.walked scope answers task.statements).1) := establishes_closeSection
  have closing := @Establishes.run _ answers (task.walked scope answers task.statements).2 _ _
    establishes
  have closed := closing.2 clean
  rw [closed.isUnion] at isUnion
  refine ⟨Clean.of_prefix clean closing.1, isUnion, closed.options isUnion, ?_⟩
  rw [split, closed.offsetAtEnd, closeOffsets, if_pos isUnion]
  rfl

theorem currentOffset_union {state : SectionState} (isUnion : state.out.isUnion = true) :
    (currentOffset state).denote =
      (computeUnionOffsetFromSeenFields state.unionFields).denote := by
  rw [currentOffset, if_pos isUnion]

theorem SplitWalk.isUnion_at_attribute {front : List StatementAST} {stmt : StatementAST}
    {back : List StatementAST} (split : SplitWalk scope answers task front stmt back)
    (isAttribute : isAttributeStatement stmt = true) (plain : declaresUnion stmt = false)
    (isUnion : (task.walked scope answers task.statements).1.out.isUnion = true) :
    (task.walked scope answers front).1.out.isUnion = true := by
  have begun : (task.walked scope answers (front ++ [stmt])).1.attributesStarted = true := by
    rw [split.step.started, isAttribute, Bool.or_true]
  have undeclared := split.behind.not_declared begun
  rw [split.behind.isUnion, undeclared, Bool.or_false, split.step.isUnion, plain,
    Bool.or_false] at isUnion
  exact isUnion

theorem SplitWalk.seenLengths_complete {front : List StatementAST} {stmt : StatementAST}
    {back : List StatementAST} (split : SplitWalk scope answers task front stmt back)
    (fieldless : back.any isFieldStatement = false) :
    seenLengths scope answers task (front ++ [stmt]) =
      seenLengths scope answers task task.statements := by
  rw [seenLengths, seenLengths, split.behind.options fieldless]

theorem SplitWalk.seenLengths_same {front : List StatementAST} {stmt : StatementAST}
    {back : List StatementAST} (split : SplitWalk scope answers task front stmt back)
    (noField : isFieldStatement stmt = false) :
    seenLengths scope answers task front = seenLengths scope answers task (front ++ [stmt]) := by
  have options := split.step.options
  rw [noField, if_neg fun both => Bool.false_ne_true both.1] at options
  rw [seenLengths, seenLengths, options]

theorem SectionWalk.unstarted {statements : List StatementAST} {state after : SectionState}
    (walk : SectionWalk statements state after) (unstarted : after.attributesStarted = false) :
    after.unionFields = state.unionFields := by
  have none (stmt : StatementAST) (member : stmt ∈ statements) :
      isFieldStatement stmt = false := by
    induction walk with
    | nil state => exact absurd member List.not_mem_nil
    | @cons first rest state middle after step later ih =>
        rcases List.mem_cons.mp member with same | further
        · cases begun : middle.attributesStarted with
          | true => exact absurd ((later.started begun).symm.trans unstarted) (by decide)
          | false =>
              have plain := step.started.symm.trans begun
              rw [Bool.or_eq_false_iff] at plain
              rw [same]
              cases first with
              | field f => exact absurd plain.2.symm Bool.false_ne_true
              | _ => rfl
        · exact ih unstarted further
  exact walk.options (List.any_eq_false.mpr fun stmt member => by
    rw [none stmt member]
    exact Bool.false_ne_true)

/-- Where `_offset_` is used only at the end of the union, the rule holds. -/
theorem OffsetUsedLast.rule (used : OffsetUsedLast scope answers task)
    (ending : UnionEnd scope answers task) : OffsetRule scope answers task := by
  intro front stmt back whole needs
  have split := splitWalk ending.clean whole
  have complete (fieldless : back.any isFieldStatement = false)
      (isUnion : (task.walked scope answers front).1.out.isUnion = true)
      (same : seenLengths scope answers task front =
        seenLengths scope answers task (front ++ [stmt])) :
      back.any isFieldStatement = false ∧
        ∃ set, offsetValueAt scope answers task front stmt = some (.bitLengthSet set) ∧
          set.denote = (task.run scope answers).1.offsetAtEnd.denote := by
    refine ⟨fieldless, _, offsetValueAt_eq needs, ?_⟩
    rw [currentOffset_union isUnion, ending.lengths, ← split.seenLengths_complete fieldless,
      ← same, seenLengths]
  cases stmt with
  | constant c =>
      exact complete (used.constants front c back whole needs)
        (split.isUnion_at_attribute rfl rfl ending.isUnion) (split.seenLengths_same rfl)
  | field f =>
      have ⟨fieldless, same⟩ := used.capacities front f back whole needs
      exact complete fieldless (split.isUnion_at_attribute rfl rfl ending.isUnion) same
  | directive d =>
      have undeclared := used.directives front d back whole needs
      have notUnion : declaresUnion (.directive d) = false := by
        cases declares : declaresUnion (.directive d) with
        | false => rfl
        | true => exact absurd ((split.step.early declares).2.symm.trans needs) Bool.false_ne_true
      have isUnion := ending.isUnion
      rw [split.behind.isUnion, undeclared, Bool.or_false, split.step.isUnion, notUnion,
        Bool.or_false] at isUnion
      have fixed : (task.walked scope answers (front ++ [.directive d])).1.unionOffsetUsed =
          true := by
        rw [split.step.used, needs, isUnion]
        exact Bool.or_true _
      have still : (task.walked scope answers (front ++ [.directive d])).1.out.isUnion = true := by
        rw [split.step.isUnion, isUnion, Bool.true_or]
      exact complete (split.behind.fieldless still fixed) isUnion (split.seenLengths_same rfl)
  | serviceResponseMarker location => exact absurd needs Bool.false_ne_true

/-- The rule puts every use of `_offset_` at the end of the union. -/
theorem OffsetRule.usedLast (rule : OffsetRule scope answers task)
    (ending : UnionEnd scope answers task) : OffsetUsedLast scope answers task where
  constants := fun front c back whole needs => (rule front (.constant c) back whole needs).1
  directives := by
    intro front d back whole needs
    have fieldless := (rule front (.directive d) back whole needs).1
    have split := splitWalk ending.clean whole
    cases declares : back.any declaresUnion with
    | false => rfl
    | true =>
        have unstarted :
            (task.walked scope answers (front ++ [.directive d])).1.attributesStarted = false := by
          cases begun :
              (task.walked scope answers (front ++ [.directive d])).1.attributesStarted with
          | false => rfl
          | true =>
              exact absurd ((split.behind.not_declared begun).symm.trans declares)
                Bool.false_ne_true
        have early := split.step.started.symm.trans unstarted
        rw [Bool.or_eq_false_iff] at early
        have options := split.step.options
        rw [if_neg fun both => Bool.false_ne_true both.1] at options
        have nothing : (task.walked scope answers task.statements).1.unionFields = [] :=
          (split.behind.options fieldless).trans (options.trans (split.before.unstarted early.1))
        have enough := ending.options
        rw [nothing] at enough
        exact absurd enough (by decide)
  capacities := by
    intro front f back whole needs
    have ⟨fieldless, set, value, same⟩ := rule front (.field f) back whole needs
    have split := splitWalk ending.clean whole
    have isUnion := split.isUnion_at_attribute rfl rfl ending.isUnion
    have value' := value.symm.trans (@offsetValueAt_eq scope answers task front (.field f) needs)
    cases value'
    rw [currentOffset_union isUnion, ending.lengths,
      ← split.seenLengths_complete fieldless] at same
    exact ⟨fieldless, same⟩

end Split

/-- In every union of an accepted module the rule of `_offset_` holds exactly where
`_offset_` is used only at the end of the union. -/
theorem offsetRule_iff {env : AnalysisHost} {options : AnalyzeOptions} {module : ASTModule}
    {definitions : SemanticModule} (accepted : analyze env options module = some definitions)
    {parsed : ParsedDefinition} (member : parsed ∈ module) {task : SectionTask}
    (isSection : task ∈ sectionTasks (scopeOf env options module)
      (recordedResults env options module) parsed)
    (isUnion : (task.run (scopeOf env options module)
      (recordedResults env options module)).1.isUnion = true) :
    OffsetRule (scopeOf env options module) (recordedResults env options module) task ↔
      OffsetUsedLast (scopeOf env options module) (recordedResults env options module) task := by
  have visits : VisitsClean env options module := by
    by_contra failed
    rw [analyze_eq_none_of_visits failed] at accepted
    cases accepted
  have ending := unionEnd (clean_sectionTasks (accepted_definition visits member) isSection) isUnion
  exact ⟨fun rule => rule.usedLast ending, fun used => used.rule ending⟩

def uint8At (line : UInt32) : TypeExprAST :=
  .mk ⟨"", line, 1⟩ (.primitive ⟨.unsignedInt, .saturated, 8⟩) .none none

/-- `uint8 name` at a line. -/
def byteFieldAt (line : UInt32) (name : String) : StatementAST :=
  .field ⟨⟨"", line, 1⟩, uint8At line, name, false⟩

/-- `uint8 X = _offset_.max` at a line. -/
def offsetConstantAt (line : UInt32) : StatementAST :=
  .constant ⟨⟨"", line, 1⟩, uint8At line, "X",
    .binary ⟨"", line, 11⟩ .attribute (.identifier ⟨"", line, 11⟩ "_offset_")
      (.identifier ⟨"", line, 20⟩ "max")⟩

def unionDirectiveAt (line : UInt32) : StatementAST :=
  .directive ⟨⟨"", line, 1⟩, .union, "union", none⟩

/-- A union of three options; a constant over `_offset_` stands after the second. -/
def constantBeforeField : ParsedDefinition :=
  ⟨⟨"", "ns.U", "U", ["ns"], 1, 0, none⟩, ⟨⟨"", 1, 1⟩,
    [unionDirectiveAt 1, byteFieldAt 2 "a", byteFieldAt 3 "b", offsetConstantAt 4,
      byteFieldAt 5 "c", sealedDirectiveAt 6]⟩⟩

/-- The only section of the definition. -/
def constantBeforeFieldTask : SectionTask :=
  ⟨constantBeforeField.info, false, constantBeforeField.ast.statements, []⟩

theorem constantBeforeField_accepted :
    (analyze plainHost {} [constantBeforeField]).isSome = true := by
  decide +kernel

theorem constantBeforeField_section :
    constantBeforeFieldTask ∈ sectionTasks (scopeOf plainHost {} [constantBeforeField])
      (recordedResults plainHost {} [constantBeforeField]) constantBeforeField :=
  List.mem_singleton_self _

theorem constantBeforeField_isUnion :
    (constantBeforeFieldTask.run (scopeOf plainHost {} [constantBeforeField])
      (recordedResults plainHost {} [constantBeforeField])).1.isUnion = true := by
  decide +kernel

/-- Both directions for the union with a constant before its last option. -/
theorem offsetRule_iff_constantBeforeField :
    ∃ definitions, analyze plainHost {} [constantBeforeField] = some definitions ∧
      (OffsetRule (scopeOf plainHost {} [constantBeforeField])
          (recordedResults plainHost {} [constantBeforeField]) constantBeforeFieldTask ↔
        OffsetUsedLast (scopeOf plainHost {} [constantBeforeField])
          (recordedResults plainHost {} [constantBeforeField]) constantBeforeFieldTask) := by
  have ⟨definitions, accepted⟩ := Option.isSome_iff_exists.mp constantBeforeField_accepted
  exact ⟨definitions, accepted, offsetRule_iff accepted (List.mem_singleton_self _)
    constantBeforeField_section constantBeforeField_isUnion⟩

/-- An accepted union whose constant reads `_offset_` before the last option. -/
theorem offsetRule_not_enforced :
    ∃ (module : ASTModule) (definitions : SemanticModule) (parsed : ParsedDefinition)
      (task : SectionTask), analyze plainHost {} module = some definitions ∧ parsed ∈ module ∧
      task ∈ sectionTasks (scopeOf plainHost {} module) (recordedResults plainHost {} module)
        parsed ∧
      (task.run (scopeOf plainHost {} module)
        (recordedResults plainHost {} module)).1.isUnion = true ∧
      ¬ OffsetRule (scopeOf plainHost {} module) (recordedResults plainHost {} module) task := by
  have ⟨definitions, accepted⟩ := Option.isSome_iff_exists.mp constantBeforeField_accepted
  refine ⟨[constantBeforeField], definitions, constantBeforeField, constantBeforeFieldTask,
    accepted, List.mem_singleton_self _, constantBeforeField_section,
    constantBeforeField_isUnion, ?_⟩
  intro rule
  have needs : stmtNeedsOffset (offsetConstantAt 4) = true := by decide
  have last := (rule [unionDirectiveAt 1, byteFieldAt 2 "a", byteFieldAt 3 "b"]
    (offsetConstantAt 4) [byteFieldAt 5 "c", sealedDirectiveAt 6] rfl needs).1
  exact absurd last (by decide)

end LlvmDsdl.Semantics
