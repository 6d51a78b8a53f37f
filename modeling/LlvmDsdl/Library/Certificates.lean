import LlvmDsdl.Library.DepthFirstRules

/-!
Contract: verdicts whose successes rest on successes only.

Owns: queries that succeed on good answers only, the certificates of a task
system, and the proof that a memoised visit records a good result exactly where
there is a certificate for it.
-/

namespace LlvmDsdl.Library

namespace Query

variable {κ α ρ σ : Type}

/-- The keys asked for when every ask is answered from a table. -/
def asked (answers : κ → α) : Query κ α ρ → List κ
  | done _ => []
  | ask key resume => key :: (resume (answers key)).asked answers

/-- No answer but a good one leads to a success. -/
def Needs (good : α → Prop) (success : ρ → Prop) : Query κ α ρ → Prop
  | done _ => True
  | ask _ resume => ∀ answer,
      (good answer ∨ (resume answer).Holds (fun _ _ => True) fun outcome => ¬ success outcome) ∧
        (resume answer).Needs good success

variable {good : α → Prop} {success : ρ → Prop} {answers : κ → α}

theorem Holds.weaken {given given' : κ → α → Prop} {query : Query κ α ρ} {post : ρ → Prop}
    (holds : query.Holds given post) (stronger : ∀ key answer, given' key answer → given key answer) :
    query.Holds given' post := by
  induction query with
  | done outcome => exact holds
  | ask key resume ih =>
      exact fun answer known => ih answer (holds answer (stronger key answer known))

theorem Holds.eval {query : Query κ α ρ} {post : ρ → Prop}
    (holds : query.Holds (fun _ _ => True) post) (answers : κ → α) : post (query.eval answers) := by
  induction query with
  | done outcome => exact holds
  | ask key resume ih =>
      exact ih (answers key) (holds (answers key) trivial)

theorem eval_bind (query : Query κ α ρ) (next : ρ → Query κ α σ) (answers : κ → α) :
    (query >>= next).eval answers = (next (query.eval answers)).eval answers := by
  induction query with
  | done outcome => rfl
  | ask key resume ih => exact ih (answers key)

theorem asked_bind (query : Query κ α ρ) (next : ρ → Query κ α σ) (answers : κ → α) :
    (query >>= next).asked answers =
      query.asked answers ++ (next (query.eval answers)).asked answers := by
  induction query with
  | done outcome => rfl
  | ask key resume ih =>
      exact congrArg (key :: ·) (ih (answers key))

theorem mem_asked_bind {query : Query κ α ρ} {next : ρ → Query κ α σ} {key : κ} :
    key ∈ (query >>= next).asked answers ↔
      key ∈ query.asked answers ∨ key ∈ (next (query.eval answers)).asked answers := by
  rw [asked_bind, List.mem_append]

theorem Needs.bind {query : Query κ α ρ} {next : ρ → Query κ α σ} {success' : σ → Prop}
    (first : query.Needs good success) (then_ : ∀ outcome, (next outcome).Needs good success')
    (fails : ∀ outcome, ¬ success outcome →
      (next outcome).Holds (fun _ _ => True) fun result => ¬ success' result) :
    (query.bind next).Needs good success' := by
  induction query with
  | done outcome => exact then_ outcome
  | ask key resume ih =>
      intro answer
      have ⟨goodOrFails, rest⟩ := first answer
      refine ⟨goodOrFails.imp_right fun holds => ?_, ih answer rest⟩
      exact holds.bind fun outcome failure => fails outcome failure

/-- Where every good answer is the table's, a success is the one the table gives. -/
theorem Needs.follows {query : Query κ α ρ} (needs : query.Needs good success) (answers : κ → α)
    (sure : κ → Prop) :
    query.Holds (fun key answer => good answer → answers key = answer ∧ sure key) fun outcome =>
      success outcome → query.eval answers = outcome ∧
        ∀ key ∈ query.asked answers, good (answers key) ∧ sure key := by
  induction query with
  | done outcome => exact fun _ => ⟨rfl, fun key member => absurd member List.not_mem_nil⟩
  | ask key resume ih =>
      intro answer given
      have ⟨goodOrFails, rest⟩ := needs answer
      rcases goodOrFails with holds | failure
      · have ⟨same, isSure⟩ := given holds
        apply (ih answer rest).mono
        intro outcome follows succeeds
        have ⟨result, askedGood⟩ := follows succeeds
        rw [eval, asked, same]
        refine ⟨result, ?_⟩
        intro other member
        rcases List.mem_cons.mp member with here | later
        · rw [here, same]
          exact ⟨holds, isSure⟩
        · exact askedGood other later
      · exact (failure.weaken fun _ _ _ => trivial).mono fun outcome fails succeeds => absurd succeeds fails

theorem Needs.asked_good {query : Query κ α ρ} (needs : query.Needs good success)
    (succeeds : success (query.eval answers)) : ∀ key ∈ query.asked answers, good (answers key) := by
  induction query with
  | done outcome => exact fun key member => absurd member List.not_mem_nil
  | ask key resume ih =>
      have ⟨goodOrFails, rest⟩ := needs (answers key)
      intro other member
      rcases List.mem_cons.mp member with here | later
      · rw [here]
        rcases goodOrFails with holds | failure
        · exact holds
        · exact absurd succeeds (failure.eval answers)
      · exact ih (answers key) rest succeeds other later

theorem eval_congr {query : Query κ α ρ} {others : κ → α}
    (same : ∀ key ∈ query.asked answers, others key = answers key) :
    query.eval others = query.eval answers ∧ query.asked others = query.asked answers := by
  induction query with
  | done outcome => exact ⟨rfl, rfl⟩
  | ask key resume ih =>
      have here : others key = answers key := same key List.mem_cons_self
      have rest := ih (answers key) fun other member =>
        same other (List.mem_cons_of_mem _ member)
      rw [eval, eval, asked, asked, here]
      exact ⟨rest.1, congrArg (key :: ·) rest.2⟩

end Query

namespace TaskSystem

variable {κ ι β ε : Type} (system : TaskSystem κ ι β ε) (good : β → Prop)

/-- A good result that rests on good results, free of any order. -/
inductive Certified : ι → β → Prop where
  | intro {node : ι} {result : β} (answers : κ → β) (holds : good result)
      (outcome : (system.task node).eval answers = (result, []))
      (rests : ∀ key ∈ (system.task node).asked answers,
        Certified (system.locate key) (answers key)) : Certified node result

/-- A system that reports nothing and whose good results need good answers. -/
structure Verdicts : Prop where
  silent : system.Silent
  cycle : ∀ node, ¬ good (system.onCycle node).1
  limit : ∀ node, ¬ good (system.onLimit node).1
  limitReports : ∀ node, (system.onLimit node).2 ≠ []
  task : ∀ node, (system.task node).Needs good fun outcome => good outcome.1

variable {system good} {fails : ε → Prop}

theorem runs_of_eval {query : Query κ β (β × List ε)} {answers : κ → β}
    (yields : ∀ key ∈ query.asked answers, system.Yields fails (system.locate key) (answers key)) :
    system.Runs fails query (query.eval answers) := by
  induction query with
  | done outcome => exact .done outcome
  | ask key resume ih =>
      have ⟨reports, runs, clean⟩ := yields key List.mem_cons_self
      exact .ask runs clean (ih (answers key) fun other member =>
        yields other (List.mem_cons_of_mem _ member))

theorem Certified.yields {node : ι} {result : β} (certified : system.Certified good node result) :
    system.Yields fails node result := by
  induction certified with
  | intro answers holds outcome rests ih =>
      have runs := runs_of_eval ih
      rw [outcome] at runs
      exact ⟨[], runs, fun report member => absurd member List.not_mem_nil⟩

/-- Certificates depend on the tasks, not on how nodes are numbered. -/
theorem Certified.transfer {ι' : Type} {other : TaskSystem κ ι' β ε}
    (same : ∀ key, other.task (other.locate key) = system.task (system.locate key)) {node : ι}
    {result : β} (certified : system.Certified good node result) {node' : ι'}
    (sameTask : other.task node' = system.task node) : other.Certified good node' result := by
  induction certified generalizing node' with
  | intro answers holds outcome rests ih =>
      rw [← sameTask] at outcome ih
      exact .intro answers holds outcome fun key member => ih key member (same key)

end TaskSystem

/-- The result on record, or a default. -/
def Memo.answer {ι β ε : Type} (memo : Memo ι β ε) (default : β) (node : ι) : β :=
  match memo.mark node with
  | .done result => result
  | _ => default

theorem Memo.mark_of_answer {ι β ε : Type} {memo : Memo ι β ε} {default : β} {node : ι}
    (other : memo.answer default node ≠ default) :
    memo.mark node = .done (memo.answer default node) := by
  rw [Memo.answer] at other ⊢
  cases mark : memo.mark node with
  | done result => rfl
  | visiting =>
      rw [mark] at other
      exact absurd rfl other
  | unvisited =>
      rw [mark] at other
      exact absurd rfl other

theorem Memo.answer_of_mark {ι β ε : Type} {memo : Memo ι β ε} {default result : β} {node : ι}
    (known : memo.mark node = .done result) : memo.answer default node = result := by
  rw [Memo.answer, known]

namespace TaskSystem

variable {κ ι β ε : Type} (system : TaskSystem κ ι β ε) (good : β → Prop) (default : β)

def recorded (memo : Memo ι β ε) (key : κ) : β := memo.answer default (system.locate key)

/-- A good result on record has a certificate, and its task's answers are on record too. -/
structure Justified (memo : Memo ι β ε) (node : ι) (result : β) : Prop where
  mark : memo.mark node = .done result
  certified : system.Certified good node result
  outcome : (system.task node).eval (system.recorded default memo) = (result, [])
  rests : ∀ key ∈ (system.task node).asked (system.recorded default memo),
    good (system.recorded default memo key)

variable {system good default}

theorem recorded_retained (bad : ¬ good default) {memo next : Memo ι β ε}
    (retains : Retains memo next) {key : κ} (holds : good (system.recorded default memo key)) :
    system.recorded default next key = system.recorded default memo key := by
  have known : memo.mark (system.locate key) = .done (system.recorded default memo key) := by
    apply Memo.mark_of_answer
    intro same
    rw [recorded, same] at holds
    exact bad holds
  exact Memo.answer_of_mark (retains _ _ known)

theorem justified_persists (bad : ¬ good default) :
    Persists fun (memo : Memo ι β ε) node result =>
      good result → system.Justified good default memo node result := by
  intro memo next node result retains justified holds
  have before := justified holds
  have same : ∀ key ∈ (system.task node).asked (system.recorded default memo),
      system.recorded default next key = system.recorded default memo key :=
    fun key member => recorded_retained bad retains (before.rests key member)
  have ⟨eval, asked⟩ := Query.eval_congr same
  refine ⟨retains _ _ before.mark, before.certified, eval.trans before.outcome, ?_⟩
  rw [asked]
  intro key member
  rw [same key member]
  exact before.rests key member

/-- Where the good answers are on record, a good outcome of a task is the record's. -/
theorem task_justified (verdicts : system.Verdicts good) (memo : Memo ι β ε) (node : ι) :
    (system.task node).Holds
      (fun key answer => good answer →
        system.Justified good default memo (system.locate key) answer)
      fun outcome => memo.mark node = .done outcome.1 → good outcome.1 →
        system.Justified good default memo node outcome.1 := by
  have follows := (verdicts.task node).follows (system.recorded default memo)
    fun key => system.Certified good (system.locate key) (system.recorded default memo key)
  have quiet := (verdicts.silent.task node).eval (system.recorded default memo)
  have stronger : ∀ key answer,
      (good answer → system.Justified good default memo (system.locate key) answer) →
        good answer → system.recorded default memo key = answer ∧
          system.Certified good (system.locate key) (system.recorded default memo key) := by
    intro key answer justified holds
    have before := justified holds
    have same : system.recorded default memo key = answer := Memo.answer_of_mark before.mark
    rw [same]
    exact ⟨rfl, before.certified⟩
  apply (follows.weaken stronger).mono
  intro outcome result known holds
  have ⟨eval, rests⟩ := result holds
  have reports : outcome.2 = [] := by
    rw [← eval]
    exact quiet
  have whole : (system.task node).eval (system.recorded default memo) = (outcome.1, []) := by
    rw [eval, ← reports]
  exact ⟨known, .intro _ holds whole fun key member => (rests key member).2, whole,
    fun key member => (rests key member).1⟩

variable [DecidableEq ι]

theorem justified_of_recorded (verdicts : system.Verdicts good) (bad : ¬ good default) (depth : ℕ)
    (nodes : List ι) {node : ι} {result : β}
    (known : (system.visitAll depth nodes .fresh).mark node = .done result) (holds : good result) :
    system.Justified good default (system.visitAll depth nodes .fresh) node result := by
  have start : Meets (fun (memo : Memo ι β ε) node result =>
      good result → system.Justified good default memo node result) .fresh := by
    intro node result known
    cases known
  have meets := visitAll_meets (justified_persists bad)
    (fun _ node holds => absurd holds (verdicts.cycle node))
    (fun _ node holds => absurd holds (verdicts.limit node)) (task_justified verdicts) depth nodes
    .fresh start
  exact meets node result known holds

/-- Every certified result of a visited node is on record, at a depth that covers all nodes. -/
theorem recorded_of_certified (verdicts : system.Verdicts good) {nodes : Finset ι}
    (located : ∀ key, system.locate key ∈ nodes) {depth : ℕ} (enough : nodes.card ≤ depth)
    {visited : List ι} (members : ∀ node ∈ visited, node ∈ nodes) {node : ι}
    (member : node ∈ visited) {result : β} (certified : system.Certified good node result) :
    (system.visitAll depth visited .fresh).mark node = .done result := by
  have few : (unseen nodes (.fresh : Memo ι β ε)).card ≤ depth :=
    (Finset.card_le_card (Finset.filter_subset _ _)).trans enough
  have reports : (system.visitAll depth visited .fresh).reports = [] :=
    visitAll_silent verdicts.silent located depth visited .fresh members few
  have idle : ∀ other, (.fresh : Memo ι β ε).mark other ≠ .visiting := by
    intro other entered
    cases entered
  have recorded : ∃ found, (system.visitAll depth visited .fresh).mark node = .done found :=
    visitAll_recorded idle member
  have ⟨found, known⟩ := recorded
  have start : system.Agrees (fun _ => True) .fresh := by
    intro other result expected unseen
    cases unseen
  have entered : system.Entered (fun _ => True) [] .fresh :=
    fun other entered => absurd entered (idle other)
  rcases visitAll_agrees depth visited .fresh start entered with ⟨length, chain, last, linked, size, reported⟩ | agreement
  · have ⟨report, inReports⟩ := List.exists_mem_of_ne_nil _ (verdicts.limitReports last)
    have impossible := reported report inReports
    rw [reports] at impossible
    exact absurd impossible List.not_mem_nil
  · rw [known, agreement node found result known certified.yields]

end TaskSystem

namespace TaskSystem

variable {κ ι β ε : Type} {system : TaskSystem κ ι β ε} {fails : ε → Prop}

theorem Reaches.trans {first second third : Query κ β (β × List ε)}
    (before : system.Reaches fails first second) (after : system.Reaches fails second third) :
    system.Reaches fails first third := by
  induction after with
  | refl => exact before
  | step reached answered ih => exact ih.step answered

/-- A run from scratch passes exactly the asks that a table of the results from scratch answers. -/
theorem Runs.reaches_iff {query : Query κ β (β × List ε)} {outcome : β × List ε} {answers : κ → β}
    (runs : system.Runs fails query outcome)
    (known : ∀ key result, system.Yields fails (system.locate key) result → answers key = result)
    {key : κ} :
    (∃ resume, system.Reaches fails query (.ask key resume)) ↔ key ∈ query.asked answers := by
  induction runs with
  | done outcome =>
      constructor
      · rintro ⟨resume, path⟩
        cases path.of_done
      · exact fun absent => absurd absent List.not_mem_nil
  | @ask first continuation answer reports outcome answered clean rest answeredHypothesis
      restHypothesis =>
      have given : system.Yields fails (system.locate first) answer := ⟨reports, answered, clean⟩
      rw [Query.asked, known first answer given, List.mem_cons, ← restHypothesis]
      constructor
      · rintro ⟨resume, path⟩
        rcases path.split with same | ⟨other, otherAnswered, onward⟩
        · cases same
          exact Or.inl rfl
        · rw [otherAnswered.unique given] at onward
          exact Or.inr ⟨resume, onward⟩
      · rintro (rfl | ⟨resume, path⟩)
        · exact ⟨continuation, .refl⟩
        · have start : system.Reaches fails (.ask first continuation) (continuation answer) :=
            Reaches.refl.step given
          exact ⟨resume, start.trans path⟩

end TaskSystem

end LlvmDsdl.Library
