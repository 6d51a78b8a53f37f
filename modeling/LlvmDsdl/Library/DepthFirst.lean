import Mathlib

/-!
Contract: memoised depth-first evaluation of tasks that ask for one another.

Owns: query trees; the memoised, depth-limited visit of a node; what a node's
task yields from scratch, free of any order; and the rules between the two.

A task names what it asks for by a key, and a system locates the node of a key.
-/

namespace LlvmDsdl.Library

/-- A computation that may ask for the results of named tasks. -/
inductive Query (κ α ρ : Type) where
  | done (outcome : ρ)
  | ask (key : κ) (resume : α → Query κ α ρ)

namespace Query

variable {κ α ρ σ : Type}

def bind : Query κ α ρ → (ρ → Query κ α σ) → Query κ α σ
  | done outcome, next => next outcome
  | ask key resume, next => ask key fun answer => (resume answer).bind next

instance : Monad (Query κ α) where
  pure := done
  bind := bind

/-- Ask for one result. -/
def request (key : κ) : Query κ α α := ask key done

/-- The outcome when every ask is answered from a table. -/
def eval (answers : κ → α) : Query κ α ρ → ρ
  | done outcome => outcome
  | ask key resume => (resume (answers key)).eval answers

/-- Every outcome meets `post` when every answer meets `given`. -/
def Holds (given : κ → α → Prop) (post : ρ → Prop) : Query κ α ρ → Prop
  | done outcome => post outcome
  | ask key resume => ∀ answer, given key answer → (resume answer).Holds given post

theorem Holds.bind {given : κ → α → Prop} {query : Query κ α ρ} {next : ρ → Query κ α σ}
    {middle : ρ → Prop} {post : σ → Prop} (first : query.Holds given middle)
    (then_ : ∀ outcome, middle outcome → (next outcome).Holds given post) :
    (query.bind next).Holds given post := by
  induction query with
  | done outcome => exact then_ outcome first
  | ask key resume ih =>
      intro answer known
      exact ih answer (first answer known)

theorem Holds.mono {given : κ → α → Prop} {query : Query κ α ρ} {middle post : ρ → Prop}
    (holds : query.Holds given middle) (weaker : ∀ outcome, middle outcome → post outcome) :
    query.Holds given post := by
  induction query with
  | done outcome => exact weaker outcome holds
  | ask key resume ih =>
      intro answer known
      exact ih answer (holds answer known)

/-- What holds whatever is answered holds of the outcome under a table. -/
theorem Holds.eval_of {given : κ → α → Prop} {query : Query κ α ρ} {post : ρ → Prop}
    {answers : κ → α} (holds : query.Holds given post)
    (known : ∀ key, given key (answers key)) : post (query.eval answers) := by
  induction query with
  | done outcome => exact holds
  | ask key resume ih =>
      exact ih (answers key) (holds (answers key) (known key))

theorem holds_true (given : κ → α → Prop) (query : Query κ α ρ) :
    query.Holds given fun _ => True := by
  induction query with
  | done outcome => trivial
  | ask key resume ih => exact fun answer _ => ih answer

end Query

/-- What a visit knows of a node. -/
inductive Mark (β : Type) where
  | unvisited
  | visiting
  | done (result : β)

def Mark.isUnvisited {β : Type} : Mark β → Bool
  | unvisited => true
  | _ => false

/-- Tasks with the answers given on a cycle and at the depth limit. -/
structure TaskSystem (κ ι β ε : Type) where
  locate : κ → ι
  task : ι → Query κ β (β × List ε)
  onCycle : ι → β × List ε
  onLimit : ι → β × List ε

/-- The marks of the nodes and what was reported. -/
structure Memo (ι β ε : Type) where
  mark : ι → Mark β
  reports : List ε

namespace Memo

variable {ι β ε : Type}

/-- Nothing visited, nothing reported. -/
def fresh : Memo ι β ε := ⟨fun _ => .unvisited, []⟩

def report (memo : Memo ι β ε) (added : List ε) : Memo ι β ε :=
  { memo with reports := memo.reports ++ added }

def set [DecidableEq ι] (memo : Memo ι β ε) (node : ι) (mark : Mark β) : Memo ι β ε :=
  { memo with mark := Function.update memo.mark node mark }

@[simp] theorem mark_report (memo : Memo ι β ε) (added : List ε) :
    (memo.report added).mark = memo.mark := rfl

@[simp] theorem reports_report (memo : Memo ι β ε) (added : List ε) :
    (memo.report added).reports = memo.reports ++ added := rfl

variable [DecidableEq ι]

@[simp] theorem reports_set (memo : Memo ι β ε) (node : ι) (mark : Mark β) :
    (memo.set node mark).reports = memo.reports := rfl

@[simp] theorem mark_set_self (memo : Memo ι β ε) (node : ι) (mark : Mark β) :
    (memo.set node mark).mark node = mark := by
  simp only [set, Function.update_self]

theorem mark_set_of_ne (memo : Memo ι β ε) {node other : ι} (mark : Mark β)
    (away : other ≠ node) : (memo.set node mark).mark other = memo.mark other := by
  simp only [set]
  exact Function.update_of_ne away mark memo.mark

end Memo

namespace TaskSystem

variable {κ ι β ε ρ : Type} [DecidableEq ι] (system : TaskSystem κ ι β ε)

/-- Run a query, each ask answered by a visit. -/
def answerAll (visit : ι → Memo ι β ε → β × Memo ι β ε) :
    Query κ β ρ → Memo ι β ε → ρ × Memo ι β ε
  | .done outcome, memo => (outcome, memo)
  | .ask key resume, memo =>
      let visited := visit (system.locate key) memo
      answerAll visit (resume visited.1) visited.2

/-- The result of a node: the one on record, or the one its task gives at one level
deeper, which is then on record. -/
def visit : ℕ → ι → Memo ι β ε → β × Memo ι β ε
  | depth, node, memo =>
      match memo.mark node, depth with
      | .done result, _ => (result, memo)
      | .visiting, _ =>
          ((system.onCycle node).1, memo.report (system.onCycle node).2)
      | .unvisited, 0 =>
          ((system.onLimit node).1,
            (memo.report (system.onLimit node).2).set node (.done (system.onLimit node).1))
      | .unvisited, depth + 1 =>
          let run := system.answerAll (visit depth) (system.task node) (memo.set node .visiting)
          (run.1.1, (run.2.report run.1.2).set node (.done run.1.1))

def visitAll (depth : ℕ) : List ι → Memo ι β ε → Memo ι β ε
  | [], memo => memo
  | node :: rest, memo => visitAll depth rest (system.visit depth node memo).2

section Steps

variable {system} {depth : ℕ} {node : ι} {memo : Memo ι β ε}

theorem visit_of_done {result : β} (known : memo.mark node = .done result) :
    system.visit depth node memo = (result, memo) := by
  rw [visit.eq_def]
  simp only [known]

theorem visit_of_visiting (entered : memo.mark node = .visiting) :
    system.visit depth node memo =
      ((system.onCycle node).1, memo.report (system.onCycle node).2) := by
  rw [visit.eq_def]
  simp only [entered]

theorem visit_zero (unseen : memo.mark node = .unvisited) :
    system.visit 0 node memo =
      ((system.onLimit node).1,
        (memo.report (system.onLimit node).2).set node (.done (system.onLimit node).1)) := by
  rw [visit.eq_def]
  simp only [unseen]

theorem visit_succ (unseen : memo.mark node = .unvisited) :
    system.visit (depth + 1) node memo =
      let run := system.answerAll (system.visit depth) (system.task node)
        (memo.set node .visiting)
      (run.1.1, (run.2.report run.1.2).set node (.done run.1.1)) := by
  rw [visit.eq_def]
  simp only [unseen]

end Steps

/-- Later in a visit: reports are added, results stay on record, and the nodes being
visited are the same. -/
structure Grows (memo next : Memo ι β ε) : Prop where
  reports : memo.reports <+: next.reports
  recorded : ∀ node result, memo.mark node = .done result → next.mark node = .done result
  entered : ∀ node, next.mark node = .visiting ↔ memo.mark node = .visiting

omit [DecidableEq ι] in
theorem Grows.refl (memo : Memo ι β ε) : Grows memo memo :=
  ⟨List.prefix_refl _, fun _ _ known => known, fun _ => Iff.rfl⟩

omit [DecidableEq ι] in
theorem Grows.trans {first second third : Memo ι β ε} (before : Grows first second)
    (after : Grows second third) : Grows first third where
  reports := before.reports.trans after.reports
  recorded node result known := after.recorded node result (before.recorded node result known)
  entered node := (after.entered node).trans (before.entered node)

omit [DecidableEq ι] in
theorem grows_report (memo : Memo ι β ε) (added : List ε) : Grows memo (memo.report added) :=
  ⟨List.prefix_append _ _, fun _ _ known => known, fun _ => Iff.rfl⟩

theorem grows_set_done {memo : Memo ι β ε} {node : ι} (unseen : memo.mark node = .unvisited)
    (result : β) : Grows memo (memo.set node (.done result)) := by
  refine ⟨List.prefix_refl _, ?_, ?_⟩
  · intro other known recorded
    have away : other ≠ node := by
      intro same
      rw [same, unseen] at recorded
      cases recorded
    rw [Memo.mark_set_of_ne memo _ away]
    exact recorded
  · intro other
    by_cases same : other = node
    · rw [same, Memo.mark_set_self, unseen]
      constructor <;> intro impossible <;> cases impossible
    · rw [Memo.mark_set_of_ne memo _ same]

/-- A task run with its node entered, then recorded, is growth from before. -/
theorem grows_of_entered {memo inner : Memo ι β ε} {node : ι}
    (unseen : memo.mark node = .unvisited) (grown : Grows (memo.set node .visiting) inner)
    (added : List ε) (result : β) :
    Grows memo ((inner.report added).set node (.done result)) := by
  refine ⟨?_, ?_, ?_⟩
  · have start : memo.reports <+: inner.reports := grown.reports
    exact start.trans (List.prefix_append _ _)
  · intro other known recorded
    have away : other ≠ node := by
      intro same
      rw [same, unseen] at recorded
      cases recorded
    rw [Memo.mark_set_of_ne _ _ away, Memo.mark_report]
    apply grown.recorded other known
    rw [Memo.mark_set_of_ne _ _ away]
    exact recorded
  · intro other
    by_cases same : other = node
    · rw [same, Memo.mark_set_self, unseen]
      constructor <;> intro impossible <;> cases impossible
    · rw [Memo.mark_set_of_ne _ _ same, Memo.mark_report, grown.entered other,
        Memo.mark_set_of_ne _ _ same]

section Growth

variable {system}

omit [DecidableEq ι] in
theorem answerAll_grows {visit : ι → Memo ι β ε → β × Memo ι β ε}
    (each : ∀ node memo, Grows memo (visit node memo).2) (query : Query κ β ρ)
    (memo : Memo ι β ε) : Grows memo (system.answerAll visit query memo).2 := by
  induction query generalizing memo with
  | done outcome => exact Grows.refl memo
  | ask key resume ih =>
      exact (each (system.locate key) memo).trans (ih _ _)

theorem visit_grows (depth : ℕ) (node : ι) (memo : Memo ι β ε) :
    Grows memo (system.visit depth node memo).2 := by
  induction depth generalizing node memo with
  | zero =>
      cases mark : memo.mark node with
      | done result => rw [visit_of_done mark]; exact Grows.refl memo
      | visiting => rw [visit_of_visiting mark]; exact grows_report memo _
      | unvisited =>
          rw [visit_zero mark]
          have reported : (memo.report (system.onLimit node).2).mark node = .unvisited := mark
          exact (grows_report memo _).trans (grows_set_done reported _)
  | succ depth ih =>
      cases mark : memo.mark node with
      | done result => rw [visit_of_done mark]; exact Grows.refl memo
      | visiting => rw [visit_of_visiting mark]; exact grows_report memo _
      | unvisited =>
          rw [visit_succ mark]
          exact grows_of_entered mark (answerAll_grows ih _ _) _ _

theorem visitAll_grows (depth : ℕ) (nodes : List ι) (memo : Memo ι β ε) :
    Grows memo (system.visitAll depth nodes memo) := by
  induction nodes generalizing memo with
  | nil => exact Grows.refl memo
  | cons node rest ih =>
      exact (visit_grows depth node memo).trans (ih _)

end Growth

section Derivations

variable (fails : ε → Prop)

/-- No report is a failure. -/
def Clean (reports : List ε) : Prop := ∀ report ∈ reports, ¬ fails report

/-- A query's outcome when every ask is answered by a run of its own, free of any
record, of cycles and of failures. -/
inductive Runs : Query κ β (β × List ε) → β × List ε → Prop where
  | done (outcome : β × List ε) : Runs (.done outcome) outcome
  | ask {key : κ} {resume : β → Query κ β (β × List ε)} {answer : β} {reports : List ε}
      {outcome : β × List ε} (answered : Runs (system.task (system.locate key)) (answer, reports))
      (clean : Clean fails reports) (rest : Runs (resume answer) outcome) :
      Runs (.ask key resume) outcome

/-- What a node's task gives from scratch. -/
def Yields (node : ι) (result : β) : Prop :=
  ∃ reports, system.Runs fails (system.task node) (result, reports) ∧ Clean fails reports

variable {system fails}

omit [DecidableEq ι] in
theorem Runs.holds {query : Query κ β (β × List ε)} {outcome : β × List ε}
    (runs : system.Runs fails query outcome) {post : β × List ε → Prop}
    (holds : query.Holds (fun _ _ => True) post) : post outcome := by
  induction runs with
  | done outcome => exact holds
  | ask answered clean rest answeredHypothesis restHypothesis =>
      exact restHypothesis (holds _ trivial)

omit [DecidableEq ι] in
/-- A run from scratch gives what a table of the results from scratch gives. -/
theorem Runs.eval {query : Query κ β (β × List ε)} {outcome : β × List ε} {answers : κ → β}
    (runs : system.Runs fails query outcome)
    (known : ∀ key result, system.Yields fails (system.locate key) result →
      answers key = result) : query.eval answers = outcome := by
  induction runs with
  | done outcome => rfl
  | ask answered clean rest answeredHypothesis restHypothesis =>
      rw [Query.eval, known _ _ ⟨_, answered, clean⟩]
      exact restHypothesis

omit [DecidableEq ι] in
theorem Runs.unique {query : Query κ β (β × List ε)} {first second : β × List ε}
    (left : system.Runs fails query first) (right : system.Runs fails query second) :
    first = second := by
  induction left generalizing second with
  | done outcome =>
      cases right
      rfl
  | ask answered clean rest answeredHypothesis restHypothesis =>
      cases right with
      | ask answered' clean' rest' =>
          have same := answeredHypothesis answered'
          cases same
          exact restHypothesis rest'

omit [DecidableEq ι] in
theorem Yields.unique {node : ι} {first second : β} (left : system.Yields fails node first)
    (right : system.Yields fails node second) : first = second := by
  obtain ⟨leftReports, leftRuns, -⟩ := left
  obtain ⟨rightReports, rightRuns, -⟩ := right
  have same := leftRuns.unique rightRuns
  exact congrArg Prod.fst same

variable (system fails)

/-- The queries a run from scratch passes through. -/
inductive Reaches (start : Query κ β (β × List ε)) : Query κ β (β × List ε) → Prop where
  | refl : Reaches start start
  | step {key : κ} {resume : β → Query κ β (β × List ε)} {answer : β}
      (before : Reaches start (.ask key resume))
      (answered : system.Yields fails (system.locate key) answer) :
      Reaches start (resume answer)

def Asks (node child : ι) : Prop :=
  ∃ key resume, system.Reaches fails (system.task node) (.ask key resume) ∧
    system.locate key = child

variable {system fails}

omit [DecidableEq ι] in
theorem Reaches.split {key : κ} {resume : β → Query κ β (β × List ε)}
    {target : Query κ β (β × List ε)} (path : system.Reaches fails (.ask key resume) target) :
    target = .ask key resume ∨
      ∃ answer, system.Yields fails (system.locate key) answer ∧
        system.Reaches fails (resume answer) target := by
  induction path with
  | refl => exact Or.inl rfl
  | step before answered ih =>
      rcases ih with same | ⟨first, firstAnswered, onward⟩
      · cases same
        exact Or.inr ⟨_, answered, Reaches.refl⟩
      · exact Or.inr ⟨first, firstAnswered, onward.step answered⟩

omit [DecidableEq ι] in
theorem Reaches.of_done {outcome : β × List ε} {target : Query κ β (β × List ε)}
    (path : system.Reaches fails (.done outcome) target) : target = .done outcome := by
  induction path with
  | refl => rfl
  | step before answered ih => cases ih

omit [DecidableEq ι] in

omit [DecidableEq ι] in

omit [DecidableEq ι] in
theorem Runs.acc {query : Query κ β (β × List ε)} {outcome : β × List ε}
    (runs : system.Runs fails query outcome) {key : κ}
    {resume : β → Query κ β (β × List ε)}
    (path : system.Reaches fails query (.ask key resume)) :
    Acc (fun child node => system.Asks fails node child) (system.locate key) := by
  induction runs generalizing key resume with
  | done outcome => cases path.of_done
  | @ask asked continuation answer reports outcome answered clean rest answeredHypothesis
      restHypothesis =>
      rcases path.split with same | ⟨first, firstAnswered, onward⟩
      · cases same
        refine Acc.intro _ fun child childAsked => ?_
        obtain ⟨childKey, childResume, reached, located⟩ := childAsked
        rw [← located]
        exact answeredHypothesis reached
      · have given : system.Yields fails (system.locate asked) answer :=
          ⟨reports, answered, clean⟩
        rw [firstAnswered.unique given] at onward
        exact restHypothesis onward

omit [DecidableEq ι] in
/-- A node with a result from scratch asks for itself through no chain. -/
theorem Yields.acc {node : ι} {result : β} (yields : system.Yields fails node result) :
    Acc (fun child node => system.Asks fails node child) node := by
  obtain ⟨reports, runs, -⟩ := yields
  refine Acc.intro _ fun child asked => ?_
  obtain ⟨key, resume, reached, located⟩ := asked
  rw [← located]
  exact runs.acc reached

end Derivations

end TaskSystem

end LlvmDsdl.Library
