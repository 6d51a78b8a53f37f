import LlvmDsdl.Library.DepthFirst

/-!
Contract: rules between a memoised visit and what tasks yield from scratch.

Owns: the rule that a visit without failures records only results from scratch;
the rule that a visit records every result from scratch unless a chain of asks
passes the depth limit; the invariant rule; and the transfer of results between
two systems with the same tasks.
-/

namespace LlvmDsdl.Library.TaskSystem

variable {κ ι ι' β ε : Type} {system : TaskSystem κ ι β ε} {fails : ε → Prop}

section Settled

variable (system fails)

/-- Every result on record is the one from scratch. -/
def Settled (memo : Memo ι β ε) : Prop :=
  ∀ node result, memo.mark node = .done result → system.Yields fails node result

variable {system fails}

theorem Clean.of_grows {memo next : Memo ι β ε} (clean : Clean fails next.reports)
    (grown : Grows memo next) : Clean fails memo.reports :=
  fun report member => clean report (grown.reports.subset member)

theorem answerAll_settled {visit : ι → Memo ι β ε → β × Memo ι β ε}
    (grown : ∀ node memo, Grows memo (visit node memo).2)
    (each : ∀ node memo, system.Settled fails memo → Clean fails (visit node memo).2.reports →
      system.Yields fails node (visit node memo).1 ∧ system.Settled fails (visit node memo).2)
    (query : Query κ β (β × List ε)) (memo : Memo ι β ε) (settled : system.Settled fails memo)
    (clean : Clean fails (system.answerAll visit query memo).2.reports) :
    system.Runs fails query (system.answerAll visit query memo).1 ∧
      system.Settled fails (system.answerAll visit query memo).2 := by
  induction query generalizing memo with
  | done outcome => exact ⟨.done outcome, settled⟩
  | ask key resume ih =>
      have later : Grows _ (system.answerAll visit (.ask key resume) memo).2 :=
        answerAll_grows grown (resume (visit (system.locate key) memo).1) _
      have visited := each (system.locate key) memo settled (Clean.of_grows clean later)
      have rest := ih _ _ visited.2 clean
      obtain ⟨reports, runs, reportsClean⟩ := visited.1
      exact ⟨.ask runs reportsClean rest.1, rest.2⟩

variable [DecidableEq ι]

theorem Settled.enter {memo : Memo ι β ε} (settled : system.Settled fails memo) (node : ι) :
    system.Settled fails (memo.set node .visiting) := by
  intro other result known
  by_cases same : other = node
  · rw [same, Memo.mark_set_self] at known
    cases known
  · rw [Memo.mark_set_of_ne _ _ same] at known
    exact settled other result known

theorem Settled.record {memo : Memo ι β ε} (settled : system.Settled fails memo) {node : ι}
    {result : β} (yields : system.Yields fails node result) :
    system.Settled fails (memo.set node (.done result)) := by
  intro other found known
  by_cases same : other = node
  · rw [same, Memo.mark_set_self] at known
    cases known
    rw [same]
    exact yields
  · rw [Memo.mark_set_of_ne _ _ same] at known
    exact settled other found known

/-- A visit that ends without failures gives the result from scratch. -/
theorem visit_settled (cycleFails : ∀ node, ∃ report ∈ (system.onCycle node).2, fails report)
    (limitFails : ∀ node, ∃ report ∈ (system.onLimit node).2, fails report) (depth : ℕ) (node : ι)
    (memo : Memo ι β ε) (settled : system.Settled fails memo)
    (clean : Clean fails (system.visit depth node memo).2.reports) :
    system.Yields fails node (system.visit depth node memo).1 ∧
      system.Settled fails (system.visit depth node memo).2 := by
  induction depth generalizing node memo with
  | zero =>
      cases mark : memo.mark node with
      | done result =>
          rw [visit_of_done mark]
          exact ⟨settled node result mark, settled⟩
      | visiting =>
          rw [visit_of_visiting mark] at clean
          have ⟨report, member, failure⟩ := cycleFails node
          exact absurd failure (clean report (List.mem_append_right _ member))
      | unvisited =>
          rw [visit_zero mark] at clean
          have ⟨report, member, failure⟩ := limitFails node
          exact absurd failure (clean report (List.mem_append_right _ member))
  | succ depth ih =>
      cases mark : memo.mark node with
      | done result =>
          rw [visit_of_done mark]
          exact ⟨settled node result mark, settled⟩
      | visiting =>
          rw [visit_of_visiting mark] at clean
          have ⟨report, member, failure⟩ := cycleFails node
          exact absurd failure (clean report (List.mem_append_right _ member))
      | unvisited =>
          rw [visit_succ mark] at clean ⊢
          have innerClean : Clean fails (system.answerAll (system.visit depth)
              (system.task node) (memo.set node .visiting)).2.reports :=
            fun report member => clean report (List.mem_append_left _ member)
          have run := answerAll_settled (fun child inner => visit_grows depth child inner)
            ih (system.task node) _ (settled.enter node) innerClean
          have yields : system.Yields fails node _ :=
            ⟨_, run.1, fun report member => clean report (List.mem_append_right _ member)⟩
          exact ⟨yields, run.2.record yields⟩

theorem visit_recorded {depth : ℕ} {node : ι} {memo : Memo ι β ε}
    (idle : memo.mark node ≠ .visiting) :
    (system.visit depth node memo).2.mark node = .done (system.visit depth node memo).1 := by
  cases mark : memo.mark node with
  | done result =>
      rw [visit_of_done mark]
      exact mark
  | visiting => exact absurd mark idle
  | unvisited =>
      cases depth with
      | zero =>
          rw [visit_zero mark]
          exact Memo.mark_set_self _ _ _
      | succ depth =>
          rw [visit_succ mark]
          exact Memo.mark_set_self _ _ _

theorem visitAll_recorded {depth : ℕ} {nodes : List ι} {memo : Memo ι β ε}
    (idle : ∀ node, memo.mark node ≠ .visiting) {node : ι} (member : node ∈ nodes) :
    ∃ result, (system.visitAll depth nodes memo).mark node = .done result := by
  induction nodes generalizing memo with
  | nil => cases member
  | cons first rest ih =>
      have grown : Grows memo (system.visit depth first memo).2 := visit_grows depth first memo
      rcases List.mem_cons.mp member with same | inRest
      · have recorded : (system.visit depth first memo).2.mark first = _ :=
          visit_recorded (idle first)
        rw [same]
        exact ⟨_, (visitAll_grows depth rest _).recorded first _ recorded⟩
      · exact ih (fun other entered => idle other ((grown.entered other).mp entered))
          inRest

/-- Visiting each node in turn without a failure leaves the results from scratch. -/
theorem visitAll_settled (cycleFails : ∀ node, ∃ report ∈ (system.onCycle node).2, fails report)
    (limitFails : ∀ node, ∃ report ∈ (system.onLimit node).2, fails report) (depth : ℕ)
    (nodes : List ι) (memo : Memo ι β ε) (settled : system.Settled fails memo)
    (clean : Clean fails (system.visitAll depth nodes memo).reports) :
    system.Settled fails (system.visitAll depth nodes memo) := by
  induction nodes generalizing memo with
  | nil => exact settled
  | cons node rest ih =>
      have here := visit_settled cycleFails limitFails depth node memo settled
        (Clean.of_grows clean (visitAll_grows depth rest _))
      exact ih _ here.2 clean

end Settled

section Complete

variable (system fails)

/-- No result on record differs from the one from scratch. -/
def Agrees (memo : Memo ι β ε) : Prop :=
  ∀ node result expected, memo.mark node = .done result → system.Yields fails node expected →
    result = expected

/-- The nodes being visited that have a result from scratch are among `path`. -/
def Entered (path : List ι) (memo : Memo ι β ε) : Prop :=
  ∀ node, memo.mark node = .visiting → node ∈ path ∨ ∀ result, ¬ system.Yields fails node result

/-- The limit was reported at the end of a chain of `length` asks. -/
def Exceeded (length : ℕ) (memo : Memo ι β ε) : Prop :=
  ∃ (chain : List ι) (last : ι), List.IsChain (system.Asks fails) (chain ++ [last]) ∧
    chain.length = length ∧ ∀ report ∈ (system.onLimit last).2, report ∈ memo.reports

/-- A visit gave the expected result and no new failure. -/
structure Delivers (memo next : Memo ι β ε) : Prop where
  agrees : system.Agrees fails next
  clean : Clean fails memo.reports → Clean fails next.reports

variable {system fails}

theorem Exceeded.mono {length : ℕ} {memo next : Memo ι β ε}
    (exceeded : system.Exceeded fails length memo) (kept : memo.reports <+: next.reports) :
    system.Exceeded fails length next := by
  have ⟨chain, last, linked, size, reported⟩ := exceeded
  exact ⟨chain, last, linked, size, fun report member => kept.subset (reported report member)⟩

theorem Entered.grow {path : List ι} {memo next : Memo ι β ε}
    (entered : system.Entered fails path memo) (grown : Grows memo next) :
    system.Entered fails path next :=
  fun node visiting => entered node ((grown.entered node).mp visiting)

private theorem not_related_of_acc {α : Type} {relation : α → α → Prop} {start : α}
    (accessible : Acc relation start) : ¬ relation start start := by
  induction accessible with
  | intro start _ ih =>
      intro loop
      exact ih start loop loop

theorem Agrees.report {memo : Memo ι β ε} (agrees : system.Agrees fails memo) (added : List ε) :
    system.Agrees fails (memo.report added) := agrees

/-- A node with a result from scratch stands on no chain of asks to itself. -/
theorem Yields.not_mem_path {node : ι} {result : β} (yields : system.Yields fails node result)
    {path : List ι} (chain : List.IsChain (system.Asks fails) (path ++ [node])) :
    node ∉ path := by
  intro member
  have steps : List.IsChain (Relation.TransGen (system.Asks fails)) (path ++ [node]) :=
    chain.imp fun _ _ step => Relation.TransGen.single step
  have pairs := List.isChain_iff_pairwise.mp steps
  have loop : Relation.TransGen (system.Asks fails) node node :=
    (List.pairwise_append.mp pairs).2.2 node member node (List.mem_singleton_self node)
  exact not_related_of_acc yields.acc.transGen (Relation.transGen_swap.mpr loop)

variable [DecidableEq ι]

theorem Agrees.enter {memo : Memo ι β ε} (agrees : system.Agrees fails memo) (node : ι) :
    system.Agrees fails (memo.set node .visiting) := by
  intro other result expected known
  by_cases same : other = node
  · rw [same, Memo.mark_set_self] at known
    cases known
  · rw [Memo.mark_set_of_ne _ _ same] at known
    exact agrees other result expected known

theorem Agrees.record {memo : Memo ι β ε} (agrees : system.Agrees fails memo) {node : ι}
    {result : β} (right : ∀ expected, system.Yields fails node expected → result = expected) :
    system.Agrees fails (memo.set node (.done result)) := by
  intro other found expected known yields
  by_cases same : other = node
  · rw [same, Memo.mark_set_self] at known
    cases known
    rw [same] at yields
    exact right expected yields
  · rw [Memo.mark_set_of_ne _ _ same] at known
    exact agrees other found expected known yields

theorem Entered.enter {path : List ι} {memo : Memo ι β ε}
    (entered : system.Entered fails path memo) (node : ι) :
    system.Entered fails (path ++ [node]) (memo.set node .visiting) := by
  intro other visiting
  by_cases same : other = node
  · rw [same]
    exact Or.inl (List.mem_append_right _ (List.mem_singleton_self node))
  · rw [Memo.mark_set_of_ne _ _ same] at visiting
    exact (entered other visiting).imp_left (List.mem_append_left _)

omit [DecidableEq ι] in
theorem answerAll_delivers {visit : ι → Memo ι β ε → β × Memo ι β ε} {path : List ι}
    (length : ℕ) {node : ι} (grown : ∀ node memo, Grows memo (visit node memo).2)
    (each : ∀ child memo expected, system.Asks fails node child →
      system.Yields fails child expected → system.Agrees fails memo →
      system.Entered fails (path ++ [node]) memo →
      system.Exceeded fails length (visit child memo).2 ∨
        (visit child memo).1 = expected ∧ system.Delivers fails memo (visit child memo).2)
    {query : Query κ β (β × List ε)} {outcome : β × List ε}
    (reached : system.Reaches fails (system.task node) query)
    (runs : system.Runs fails query outcome) (memo : Memo ι β ε)
    (agrees : system.Agrees fails memo) (entered : system.Entered fails (path ++ [node]) memo) :
    system.Exceeded fails length (system.answerAll visit query memo).2 ∨
      (system.answerAll visit query memo).1 = outcome ∧
        system.Delivers fails memo (system.answerAll visit query memo).2 := by
  induction query generalizing memo with
  | done result =>
      cases runs
      exact Or.inr ⟨rfl, agrees, id⟩
  | ask key resume ih =>
      cases runs with
      | @ask _ _ answer reports _ answered clean rest =>
          have given : system.Yields fails (system.locate key) answer := ⟨reports, answered, clean⟩
          have asked : system.Asks fails node (system.locate key) := ⟨key, resume, reached, rfl⟩
          have later : Grows _ (system.answerAll visit (.ask key resume) memo).2 :=
            answerAll_grows grown (resume (visit (system.locate key) memo).1) _
          rcases each (system.locate key) memo answer asked given agrees entered with
            exceeded | ⟨same, delivered⟩
          · exact Or.inl (exceeded.mono later.reports)
          · have onward := reached.step given
            rw [← same] at onward rest
            rcases ih _ onward rest _ delivered.agrees
              (entered.grow (grown _ memo)) with exceeded | ⟨result, done⟩
            · exact Or.inl exceeded
            · exact Or.inr ⟨result, done.agrees, fun start => done.clean (delivered.clean start)⟩

/-- A visit of a node with a result from scratch gives it, unless a chain of asks passes
the depth limit. -/
theorem visit_delivers (depth : ℕ) (path : List ι) {node : ι} {memo : Memo ι β ε} {expected : β}
    (yields : system.Yields fails node expected)
    (chain : List.IsChain (system.Asks fails) (path ++ [node]))
    (agrees : system.Agrees fails memo) (entered : system.Entered fails path memo) :
    system.Exceeded fails (path.length + depth) (system.visit depth node memo).2 ∨
      (system.visit depth node memo).1 = expected ∧
        system.Delivers fails memo (system.visit depth node memo).2 := by
  induction depth generalizing node memo path expected with
  | zero =>
      cases mark : memo.mark node with
      | done result =>
          rw [visit_of_done mark]
          exact Or.inr ⟨agrees node result expected mark yields, agrees, id⟩
      | visiting =>
          rcases entered node mark with onPath | absent
          · exact absurd onPath (yields.not_mem_path chain)
          · exact absurd yields (absent expected)
      | unvisited =>
          rw [visit_zero mark]
          exact Or.inl ⟨path, node, chain, rfl, fun report member =>
            List.mem_append_right _ member⟩
  | succ depth ih =>
      cases mark : memo.mark node with
      | done result =>
          rw [visit_of_done mark]
          exact Or.inr ⟨agrees node result expected mark yields, agrees, id⟩
      | visiting =>
          rcases entered node mark with onPath | absent
          · exact absurd onPath (yields.not_mem_path chain)
          · exact absurd yields (absent expected)
      | unvisited =>
          rw [visit_succ mark]
          have ⟨reports, runs, clean⟩ := yields
          have run := answerAll_delivers ((path ++ [node]).length + depth)
            (fun child inner => visit_grows depth child inner)
            (fun child inner answer asked given innerAgrees innerEntered =>
              ih (path ++ [node]) given (List.isChain_append.mpr
                ⟨chain, List.isChain_singleton _, by simpa using asked⟩) innerAgrees innerEntered)
            Reaches.refl runs _ (agrees.enter node) (entered.enter node)
          rcases run with exceeded | ⟨same, delivered⟩
          · left
            rw [List.length_append, List.length_singleton] at exceeded
            rw [show path.length + (depth + 1) = path.length + 1 + depth by omega]
            exact exceeded.mono (List.prefix_append _ _)
          · right
            have right : ∀ other, system.Yields fails node other → expected = other :=
              fun other otherYields => yields.unique otherYields
            simp only [same, true_and]
            refine ⟨?_, ?_⟩
            · exact (delivered.agrees.report reports).record right
            · intro start report member
              rcases List.mem_append.mp member with inner | added
              · exact delivered.clean start report inner
              · exact clean report added

/-- Visiting nodes that all have results from scratch leaves every one of them on record,
unless a chain of asks passes the depth limit. -/
theorem visitAll_delivers {depth : ℕ} {nodes : List ι} {memo : Memo ι β ε}
    (yields : ∀ node ∈ nodes, ∃ result, system.Yields fails node result)
    (agrees : system.Agrees fails memo) (entered : system.Entered fails [] memo) :
    system.Exceeded fails depth (system.visitAll depth nodes memo) ∨
      system.Delivers fails memo (system.visitAll depth nodes memo) := by
  induction nodes generalizing memo with
  | nil => exact Or.inr ⟨agrees, id⟩
  | cons node rest ih =>
      have ⟨expected, given⟩ := yields node List.mem_cons_self
      have here := visit_delivers depth [] given
        (List.isChain_singleton node) agrees entered
      rw [List.length_nil, Nat.zero_add] at here
      rcases here with exceeded | ⟨-, delivered⟩
      · exact Or.inl (exceeded.mono (visitAll_grows depth rest _).reports)
      · have later := ih
          (fun other member => yields other (List.mem_cons_of_mem _ member)) delivered.agrees
          (entered.grow (visit_grows depth node memo))
        rcases later with exceeded | done
        · exact Or.inl exceeded
        · exact Or.inr ⟨done.agrees, fun start => done.clean (delivered.clean start)⟩

omit [DecidableEq ι] in
theorem answerAll_agrees {visit : ι → Memo ι β ε → β × Memo ι β ε}
    (grown : ∀ node memo, Grows memo (visit node memo).2)
    (each : ∀ node memo, system.Agrees fails memo → system.Entered fails [] memo →
      (∃ length, system.Exceeded fails length (visit node memo).2) ∨
        system.Agrees fails (visit node memo).2)
    (query : Query κ β (β × List ε)) (memo : Memo ι β ε)
    (agrees : system.Agrees fails memo) (entered : system.Entered fails [] memo) :
    (∃ length, system.Exceeded fails length (system.answerAll visit query memo).2) ∨
      system.Agrees fails (system.answerAll visit query memo).2 := by
  induction query generalizing memo with
  | done outcome => exact Or.inr agrees
  | ask key resume ih =>
      have later : Grows _ (system.answerAll visit (.ask key resume) memo).2 :=
        answerAll_grows grown (resume (visit (system.locate key) memo).1) _
      rcases each (system.locate key) memo agrees entered with ⟨length, exceeded⟩ | kept
      · exact Or.inl ⟨length, exceeded.mono later.reports⟩
      · exact ih _ _ kept (entered.grow (grown _ memo))

theorem Entered.enter_absent {memo : Memo ι β ε} (entered : system.Entered fails [] memo)
    {node : ι} (absent : ∀ result, ¬ system.Yields fails node result) :
    system.Entered fails [] (memo.set node .visiting) := by
  intro other visiting
  by_cases same : other = node
  · rw [same]
    exact Or.inr absent
  · rw [Memo.mark_set_of_ne _ _ same] at visiting
    exact entered other visiting

/-- Visiting any node keeps the record in agreement, unless the depth limit is passed. -/
theorem visit_agrees (depth : ℕ) (node : ι) (memo : Memo ι β ε)
    (agrees : system.Agrees fails memo) (entered : system.Entered fails [] memo) :
    (∃ length, system.Exceeded fails length (system.visit depth node memo).2) ∨
      system.Agrees fails (system.visit depth node memo).2 := by
  induction depth generalizing node memo with
  | zero =>
      cases mark : memo.mark node with
      | done result => rw [visit_of_done mark]; exact Or.inr agrees
      | visiting => rw [visit_of_visiting mark]; exact Or.inr agrees
      | unvisited =>
          rw [visit_zero mark]
          exact Or.inl ⟨0, [], node, List.isChain_singleton node, rfl, fun report member =>
            List.mem_append_right _ member⟩
  | succ depth ih =>
      by_cases given : ∃ expected, system.Yields fails node expected
      · have ⟨expected, yields⟩ := given
        have result := visit_delivers (depth + 1) [] yields
          (List.isChain_singleton node) agrees entered
        rcases result with exceeded | ⟨-, delivered⟩
        · exact Or.inl ⟨_, exceeded⟩
        · exact Or.inr delivered.agrees
      · have absent : ∀ result, ¬ system.Yields fails node result :=
          fun result yields => given ⟨result, yields⟩
        cases mark : memo.mark node with
        | done result => rw [visit_of_done mark]; exact Or.inr agrees
        | visiting => rw [visit_of_visiting mark]; exact Or.inr agrees
        | unvisited =>
            rw [visit_succ mark]
            have run := answerAll_agrees (fun child inner => visit_grows depth child inner)
              ih (system.task node) _ (agrees.enter node)
              (entered.enter_absent absent)
            rcases run with ⟨length, exceeded⟩ | kept
            · exact Or.inl ⟨length, exceeded.mono (List.prefix_append _ _)⟩
            · right
              exact (kept.report _).record fun expected yields => absurd yields (absent expected)

theorem visitAll_agrees (depth : ℕ) (nodes : List ι) (memo : Memo ι β ε)
    (agrees : system.Agrees fails memo) (entered : system.Entered fails [] memo) :
    (∃ length, system.Exceeded fails length (system.visitAll depth nodes memo)) ∨
      system.Agrees fails (system.visitAll depth nodes memo) := by
  induction nodes generalizing memo with
  | nil => exact Or.inr agrees
  | cons node rest ih =>
      rcases visit_agrees depth node memo agrees entered with ⟨length, exceeded⟩ | kept
      · exact Or.inl ⟨length, exceeded.mono (visitAll_grows depth rest _).reports⟩
      · exact ih _ kept (entered.grow (visit_grows depth node memo))

end Complete

section Silent

variable (system) [DecidableEq ι]

/-- The nodes of `nodes` not visited so far. -/
def unseen (nodes : Finset ι) (memo : Memo ι β ε) : Finset ι :=
  nodes.filter fun node => (memo.mark node).isUnvisited

omit [DecidableEq ι] in
theorem mem_unseen {nodes : Finset ι} {memo : Memo ι β ε} {node : ι} :
    node ∈ unseen nodes memo ↔ node ∈ nodes ∧ memo.mark node = .unvisited := by
  rw [unseen, Finset.mem_filter]
  cases memo.mark node <;> simp [Mark.isUnvisited]

/-- Tasks and cycles report nothing. -/
structure Silent : Prop where
  task : ∀ node, (system.task node).Holds (fun _ _ => True) fun outcome => outcome.2 = []
  cycle : ∀ node, (system.onCycle node).2 = []

variable {system}

omit [DecidableEq ι] in
theorem unseen_grow (nodes : Finset ι) {memo next : Memo ι β ε} (grown : Grows memo next) :
    unseen nodes next ⊆ unseen nodes memo := by
  intro node member
  have ⟨inNodes, unvisited⟩ := mem_unseen.mp member
  refine mem_unseen.mpr ⟨inNodes, ?_⟩
  cases mark : memo.mark node with
  | unvisited => rfl
  | visiting =>
      rw [(grown.entered node).mpr mark] at unvisited
      cases unvisited
  | done result =>
      rw [grown.recorded node result mark] at unvisited
      cases unvisited

theorem unseen_enter (nodes : Finset ι) {memo : Memo ι β ε} {node : ι} (member : node ∈ nodes)
    (unvisited : memo.mark node = .unvisited) :
    (unseen nodes (memo.set node .visiting)).card < (unseen nodes memo).card := by
  apply Finset.card_lt_card
  refine Finset.ssubset_iff_subset_ne.mpr ⟨?_, ?_⟩
  · intro other present
    have ⟨inNodes, still⟩ := mem_unseen.mp present
    refine mem_unseen.mpr ⟨inNodes, ?_⟩
    by_cases same : other = node
    · rw [same]
      exact unvisited
    · rw [Memo.mark_set_of_ne _ _ same] at still
      exact still
  · intro same
    have present : node ∈ unseen nodes memo := mem_unseen.mpr ⟨member, unvisited⟩
    rw [← same] at present
    have still := (mem_unseen.mp present).2
    rw [Memo.mark_set_self] at still
    cases still

omit [DecidableEq ι] in
theorem answerAll_silent {visit : ι → Memo ι β ε → β × Memo ι β ε} {nodes : Finset ι} {depth : ℕ}
    (located : ∀ key, system.locate key ∈ nodes)
    (grown : ∀ node memo, Grows memo (visit node memo).2)
    (each : ∀ node memo, node ∈ nodes → (unseen nodes memo).card ≤ depth →
      (visit node memo).2.reports = memo.reports)
    {query : Query κ β (β × List ε)}
    (quiet : query.Holds (fun _ _ => True) fun outcome => outcome.2 = []) (memo : Memo ι β ε)
    (enough : (unseen nodes memo).card ≤ depth) :
    (system.answerAll visit query memo).1.2 = [] ∧
      (system.answerAll visit query memo).2.reports = memo.reports := by
  induction query generalizing memo with
  | done outcome => exact ⟨quiet, rfl⟩
  | ask key resume ih =>
      have here := each (system.locate key) memo (located key) enough
      have fewer := Finset.card_le_card (unseen_grow nodes (grown (system.locate key) memo))
      have later := ih (visit (system.locate key) memo).1 (quiet _ trivial)
        (visit (system.locate key) memo).2 (fewer.trans enough)
      exact ⟨later.1, later.2.trans here⟩

/-- A silent system reports nothing when the depth covers the nodes not visited so far. -/
theorem visit_silent (silent : system.Silent) {nodes : Finset ι}
    (located : ∀ key, system.locate key ∈ nodes) (depth : ℕ) (node : ι) (memo : Memo ι β ε)
    (member : node ∈ nodes) (enough : (unseen nodes memo).card ≤ depth) :
    (system.visit depth node memo).2.reports = memo.reports := by
  induction depth generalizing node memo with
  | zero =>
      cases mark : memo.mark node with
      | done result => rw [visit_of_done mark]
      | visiting => rw [visit_of_visiting mark, Memo.reports_report, silent.cycle, List.append_nil]
      | unvisited =>
          have present : node ∈ unseen nodes memo := mem_unseen.mpr ⟨member, mark⟩
          have := Finset.card_pos.mpr ⟨node, present⟩
          omega
  | succ depth ih =>
      cases mark : memo.mark node with
      | done result => rw [visit_of_done mark]
      | visiting => rw [visit_of_visiting mark, Memo.reports_report, silent.cycle, List.append_nil]
      | unvisited =>
          rw [visit_succ mark]
          have fewer := unseen_enter nodes member mark
          have run := answerAll_silent located (fun child inner => visit_grows depth child inner)
            ih (silent.task node) (memo.set node .visiting) (by omega)
          simp only [Memo.reports_set, Memo.reports_report, run.1, run.2, List.append_nil]

theorem visitAll_silent (silent : system.Silent) {nodes : Finset ι}
    (located : ∀ key, system.locate key ∈ nodes) (depth : ℕ) (visited : List ι)
    (memo : Memo ι β ε) (members : ∀ node ∈ visited, node ∈ nodes)
    (enough : (unseen nodes memo).card ≤ depth) :
    (system.visitAll depth visited memo).reports = memo.reports := by
  induction visited generalizing memo with
  | nil => rfl
  | cons node rest ih =>
      have here := visit_silent silent located depth node memo (members node List.mem_cons_self)
        enough
      have grown : Grows memo (system.visit depth node memo).2 := visit_grows depth node memo
      have fewer := Finset.card_le_card (unseen_grow nodes grown)
      exact (ih _ (fun other member =>
        members other (List.mem_cons_of_mem _ member)) (fewer.trans enough)).trans here

end Silent

section Invariant

/-- What is on record stays on record. -/
def Retains (memo next : Memo ι β ε) : Prop :=
  ∀ node result, memo.mark node = .done result → next.mark node = .done result

/-- Every result on record meets an invariant, which may read the record. -/
def Meets (P : Memo ι β ε → ι → β → Prop) (memo : Memo ι β ε) : Prop :=
  ∀ node result, memo.mark node = .done result → P memo node result

/-- An invariant that later records do not break. -/
def Persists (P : Memo ι β ε → ι → β → Prop) : Prop :=
  ∀ memo next node result, Retains memo next → P memo node result → P next node result

variable {P : Memo ι β ε → ι → β → Prop}

theorem Retains.trans {first second third : Memo ι β ε} (before : Retains first second)
    (after : Retains second third) : Retains first third :=
  fun node result known => after node result (before node result known)

/-- The answers a query is given stay on record until the query ends, and after. -/
theorem answerAll_meets (system : TaskSystem κ ι β ε) {ρ : Type} (persists : Persists P)
    {visit : ι → Memo ι β ε → β × Memo ι β ε}
    (grown : ∀ node memo, Grows memo (visit node memo).2)
    (each : ∀ node memo, Meets P memo →
      P (visit node memo).2 node (visit node memo).1 ∧ Meets P (visit node memo).2)
    (query : Query κ β ρ) (memo : Memo ι β ε) (meets : Meets P memo) :
    Meets P (system.answerAll visit query memo).2 ∧
      ∀ after, Retains (system.answerAll visit query memo).2 after → ∀ post : ρ → Prop,
        query.Holds (fun key answer => P after (system.locate key) answer) post →
          post (system.answerAll visit query memo).1 := by
  induction query generalizing memo with
  | done outcome => exact ⟨meets, fun after _ post holds => holds⟩
  | ask key resume ih =>
      have here := each (system.locate key) memo meets
      have rest := ih (visit (system.locate key) memo).1 _ here.2
      refine ⟨rest.1, ?_⟩
      intro after later post holds
      have grownRest : Grows (visit (system.locate key) memo).2
          (system.answerAll visit (.ask key resume) memo).2 := answerAll_grows grown _ _
      have kept : Retains (visit (system.locate key) memo).2 after :=
        Retains.trans grownRest.recorded later
      exact rest.2 after later post (holds _ (persists _ _ _ _ kept here.1))

variable [DecidableEq ι]

theorem retains_set {memo : Memo ι β ε} {node : ι} (pending : ∀ result, memo.mark node ≠ .done result)
    (mark : Mark β) : Retains memo (memo.set node mark) := by
  intro other result known
  have away : other ≠ node := by
    intro same
    rw [same] at known
    exact pending result known
  rw [Memo.mark_set_of_ne _ _ away]
  exact known

theorem Meets.enter (persists : Persists P) {memo : Memo ι β ε} (meets : Meets P memo) {node : ι}
    (unseen : memo.mark node = .unvisited) : Meets P (memo.set node .visiting) := by
  have pending : ∀ result, memo.mark node ≠ .done result := by
    intro result known
    rw [unseen] at known
    cases known
  intro other result known
  by_cases same : other = node
  · rw [same, Memo.mark_set_self] at known
    cases known
  · rw [Memo.mark_set_of_ne _ _ same] at known
    exact persists _ _ _ _ (retains_set pending _) (meets other result known)

theorem Meets.record (persists : Persists P) {memo : Memo ι β ε} (meets : Meets P memo) {node : ι}
    (pending : ∀ result, memo.mark node ≠ .done result) {result : β}
    (given : P (memo.set node (.done result)) node result) :
    Meets P (memo.set node (.done result)) := by
  intro other found known
  by_cases same : other = node
  · rw [same, Memo.mark_set_self] at known
    cases known
    rw [same]
    exact given
  · rw [Memo.mark_set_of_ne _ _ same] at known
    exact persists _ _ _ _ (retains_set pending _) (meets other found known)

section Rule

variable (persists : Persists P) (cycle : ∀ memo node, P memo node (system.onCycle node).1)
  (limit : ∀ memo node, P memo node (system.onLimit node).1)
  (task : ∀ memo node, (system.task node).Holds
    (fun key answer => P memo (system.locate key) answer)
    fun outcome => memo.mark node = .done outcome.1 → P memo node outcome.1)

include persists cycle limit task

theorem visit_meets (depth : ℕ) (node : ι) (memo : Memo ι β ε) (meets : Meets P memo) :
    P (system.visit depth node memo).2 node (system.visit depth node memo).1 ∧
      Meets P (system.visit depth node memo).2 := by
  induction depth generalizing node memo with
  | zero =>
      cases mark : memo.mark node with
      | done result => rw [visit_of_done mark]; exact ⟨meets node result mark, meets⟩
      | visiting =>
          rw [visit_of_visiting mark]
          have reported : Retains memo (memo.report (system.onCycle node).2) := fun _ _ known => known
          exact ⟨cycle _ node, fun other result known =>
            persists _ _ _ _ reported (meets other result known)⟩
      | unvisited =>
          rw [visit_zero mark]
          have reported : Retains memo (memo.report (system.onLimit node).2) := fun _ _ known => known
          have kept : Meets P (memo.report (system.onLimit node).2) := fun other result known =>
            persists _ _ _ _ reported (meets other result known)
          refine ⟨limit _ node, kept.record persists ?_ (limit _ node)⟩
          intro result known
          rw [Memo.mark_report, mark] at known
          cases known
  | succ depth ih =>
      cases mark : memo.mark node with
      | done result => rw [visit_of_done mark]; exact ⟨meets node result mark, meets⟩
      | visiting =>
          rw [visit_of_visiting mark]
          have reported : Retains memo (memo.report (system.onCycle node).2) := fun _ _ known => known
          exact ⟨cycle _ node, fun other result known =>
            persists _ _ _ _ reported (meets other result known)⟩
      | unvisited =>
          rw [visit_succ mark]
          have grown : Grows (memo.set node .visiting) (system.answerAll (system.visit depth)
              (system.task node) (memo.set node .visiting)).2 :=
            answerAll_grows (fun child inner => visit_grows depth child inner) _ _
          have run := answerAll_meets system persists (fun child inner => visit_grows depth child inner)
            ih (system.task node) _ (meets.enter persists mark)
          have entered : (system.answerAll (system.visit depth) (system.task node)
              (memo.set node .visiting)).2.mark node = .visiting :=
            (grown.entered node).mpr (Memo.mark_set_self _ _ _)
          generalize system.answerAll (system.visit depth) (system.task node)
            (memo.set node .visiting) = ran at run entered
          have reported : Retains ran.2 (ran.2.report ran.1.2) := fun _ _ known => known
          have pending : ∀ result, (ran.2.report ran.1.2).mark node ≠ .done result := by
            intro result known
            rw [Memo.mark_report, entered] at known
            cases known
          have last : Retains ran.2 ((ran.2.report ran.1.2).set node (.done ran.1.1)) :=
            reported.trans (retains_set pending _)
          have given := run.2 _ last _ (task _ node) (Memo.mark_set_self _ _ _)
          have kept : Meets P (ran.2.report ran.1.2) := fun other result known =>
            persists _ _ _ _ reported (run.1 other result known)
          exact ⟨given, kept.record persists pending given⟩

theorem visitAll_meets (depth : ℕ) (nodes : List ι) (memo : Memo ι β ε) (meets : Meets P memo) :
    Meets P (system.visitAll depth nodes memo) := by
  induction nodes generalizing memo with
  | nil => exact meets
  | cons node rest ih =>
      exact ih _ (visit_meets persists cycle limit task depth node memo meets).2

end Rule

end Invariant

section Transfer

variable {other : TaskSystem κ ι' β ε}

theorem Runs.transfer
    (same : ∀ key, other.task (other.locate key) = system.task (system.locate key))
    {query : Query κ β (β × List ε)} {outcome : β × List ε}
    (runs : system.Runs fails query outcome) : other.Runs fails query outcome := by
  induction runs with
  | done outcome => exact .done outcome
  | @ask key resume answer reports outcome answered clean rest answeredHypothesis
      restHypothesis =>
      rw [← same key] at answeredHypothesis
      exact .ask answeredHypothesis clean restHypothesis

/-- Results from scratch depend on the tasks, not on how nodes are numbered. -/
theorem Yields.transfer
    (same : ∀ key, other.task (other.locate key) = system.task (system.locate key))
    {node : ι} {node' : ι'} (sameTask : other.task node' = system.task node) {result : β}
    (yields : system.Yields fails node result) : other.Yields fails node' result := by
  have ⟨reports, runs, clean⟩ := yields
  rw [← sameTask] at runs
  exact ⟨reports, runs.transfer same, clean⟩

end Transfer

end LlvmDsdl.Library.TaskSystem
