import Mathlib

/-!
Contract: bottom-up evaluation of a shared expression graph.

Owns: the depth-first walk that lists each reachable node once, children before
parents; the memoised evaluation over such a list; and the theorem that the
memoised value of a node satisfies whatever each single computation establishes.

Does not own any concrete graph. A graph is the children of each node in
visiting order; a node may refuse to list its children, and then the walk
refuses too.
-/

namespace LlvmDsdl.Library.PostOrder

universe u w

/-- A graph given by the children of each node, in visiting order. -/
structure Graph (ν : Type u) where
  children : ν → Option (List ν)

/-- What a walk carries: the nodes already met and the nodes already finished. -/
structure Walk (ν : Type u) where
  seen : List ν
  order : List ν

namespace Graph

variable {ν : Type u} {β : Type w} [DecidableEq ν]

variable (graph : Graph ν)

/-- Visit one node: its children first, in their order, then the node itself.
A node already met contributes nothing. -/
def visit : Nat → ν → Walk ν → Option (Walk ν)
  | 0, _, _ => none
  | fuel + 1, node, walk =>
      match graph.children node with
      | none => none
      | some below =>
          if node ∈ walk.seen then some walk
          else
            (below.foldlM (fun current child => visit fuel child current)
              { walk with seen := node :: walk.seen }).map
              fun after => { after with order := after.order ++ [node] }

/-- The nodes reachable from `root`, children before parents. -/
def postOrder (fuel : Nat) (root : ν) : Option (List ν) :=
  (graph.visit fuel root ⟨[], []⟩).map Walk.order

/-- Children stay inside `domain` and descend in `rank`. -/
structure Descending (domain : ν → Prop) (rank : ν → Nat) : Prop where
  closed : ∀ {node below child}, domain node → graph.children node = some below →
    child ∈ below → domain child
  descends : ∀ {node below child}, domain node → graph.children node = some below →
    child ∈ below → rank child < rank node

/-- Every node of the list lists its children, and they precede it. -/
inductive Settled : List ν → Prop where
  | nil : Settled []
  | snoc {order : List ν} {node : ν} {below : List ν} (before : Settled order)
      (childrenEq : graph.children node = some below) (within : below ⊆ order) :
      Settled (order ++ [node])

/-- The invariant of a walk whose unfinished nodes all rank at least `level`. -/
structure Sound (domain : ν → Prop) (rank : ν → Nat) (level : Nat) (walk : Walk ν) :
    Prop where
  settled : graph.Settled walk.order
  inside : ∀ node ∈ walk.order, domain node
  pending : ∀ node ∈ walk.seen, node ∈ walk.order ∨ level ≤ rank node

/-- What one visit leaves behind, relative to the walk it started from. -/
structure Extends (before after : Walk ν) : Prop where
  kept : before.order <+: after.order
  finished : ∀ node ∈ after.seen, node ∈ before.seen ∨ node ∈ after.order

variable {graph} {domain : ν → Prop} {rank : ν → Nat}

omit [DecidableEq ν] in
theorem Extends.refl (walk : Walk ν) : Extends walk walk :=
  ⟨List.prefix_rfl, fun _ member => Or.inl member⟩

omit [DecidableEq ν] in
theorem Extends.trans {first second third : Walk ν} (left : Extends first second)
    (right : Extends second third) : Extends first third := by
  refine ⟨left.kept.trans right.kept, fun node member => ?_⟩
  rcases right.finished node member with earlier | later
  · rcases left.finished node earlier with start | inOrder
    · exact Or.inl start
    · exact Or.inr (right.kept.subset inOrder)
  · exact Or.inr later

omit [DecidableEq ν] in
private theorem foldlM_sound {level : Nat} {step : Walk ν → ν → Option (Walk ν)}
    (nodes : List ν)
    (each : ∀ node ∈ nodes, ∀ before after, graph.Sound domain rank level before →
      step before node = some after →
        graph.Sound domain rank level after ∧ Extends before after ∧ node ∈ after.order) :
    ∀ before after, graph.Sound domain rank level before →
      nodes.foldlM step before = some after →
        graph.Sound domain rank level after ∧ Extends before after ∧ nodes ⊆ after.order := by
  induction nodes with
  | nil =>
      intro before after sound result
      have same : before = after := by simpa using result
      subst same
      exact ⟨sound, Extends.refl before, List.nil_subset _⟩
  | cons head tail ih =>
      intro before after sound result
      rw [List.foldlM_cons] at result
      obtain ⟨middle, headResult, tailResult⟩ := Option.bind_eq_some_iff.mp result
      obtain ⟨middleSound, headExtends, headIn⟩ :=
        each head (by simp) before middle sound headResult
      obtain ⟨afterSound, tailExtends, tailIn⟩ :=
        ih (fun node member => each node (by simp [member]))
          middle after middleSound tailResult
      refine ⟨afterSound, headExtends.trans tailExtends, ?_⟩
      exact List.cons_subset.mpr ⟨tailExtends.kept.subset headIn, tailIn⟩

/-- One visit keeps the invariant, extends the walk and finishes its node. -/
theorem visit_sound (descending : graph.Descending domain rank) :
    ∀ (fuel level : Nat) (node : ν) (before after : Walk ν),
      domain node → rank node < level → graph.Sound domain rank level before →
      graph.visit fuel node before = some after →
        graph.Sound domain rank level after ∧ Extends before after ∧ node ∈ after.order := by
  intro fuel
  induction fuel with
  | zero => intro level node before after _ _ _ result; simp [visit] at result
  | succ fuel ih =>
      intro level node before after inDomain low sound result
      rw [visit] at result
      cases childrenEq : graph.children node with
      | none => simp [childrenEq] at result
      | some below =>
          simp only [childrenEq] at result
          by_cases met : node ∈ before.seen
          · rw [if_pos met] at result
            have same : before = after := by simpa using result
            subst same
            refine ⟨sound, Extends.refl before, ?_⟩
            rcases sound.pending node met with inOrder | high
            · exact inOrder
            · omega
          · rw [if_neg met] at result
            obtain ⟨middle, walked, rfl⟩ := Option.map_eq_some_iff.mp result
            -- Below the node only ranks under its own may still be open.
            have opened : graph.Sound domain rank (rank node)
                { before with seen := node :: before.seen } := by
              refine ⟨sound.settled, sound.inside, fun other member => ?_⟩
              rcases List.mem_cons.mp member with rfl | earlier
              · exact Or.inr le_rfl
              · rcases sound.pending other earlier with done | high
                · exact Or.inl done
                · exact Or.inr (by omega)
            obtain ⟨middleSound, middleExtends, belowIn⟩ :=
              foldlM_sound below
                (fun child member current next currentSound childResult =>
                  ih (rank node) child current next
                    (descending.closed inDomain childrenEq member)
                    (descending.descends inDomain childrenEq member) currentSound childResult)
                _ middle opened walked
            have finished : ∀ other ∈ middle.seen, other ∈ before.seen ∨
                other ∈ middle.order ++ [node] := by
              intro other member
              rcases middleExtends.finished other member with start | inOrder
              · rcases List.mem_cons.mp start with rfl | earlier
                · exact Or.inr (by simp)
                · exact Or.inl earlier
              · exact Or.inr (by simp [inOrder])
            have kept : before.order <+: middle.order ++ [node] :=
              middleExtends.kept.trans (List.prefix_append _ _)
            refine ⟨⟨middleSound.settled.snoc childrenEq belowIn, ?_, ?_⟩, ⟨kept, finished⟩,
              by simp⟩
            · intro other member
              rcases List.mem_append.mp member with inOrder | last
              · exact middleSound.inside other inOrder
              · rw [List.mem_singleton.mp last]; exact inDomain
            · intro other member
              rcases finished other member with earlier | done
              · rcases sound.pending other earlier with inOrder | waiting
                · exact Or.inl (kept.subset inOrder)
                · exact Or.inr waiting
              · exact Or.inl done

theorem visit_isSome (descending : graph.Descending domain rank)
    (total : ∀ node, domain node → ∃ below, graph.children node = some below) :
    ∀ (fuel : Nat) (node : ν) (before : Walk ν), domain node → rank node < fuel →
      ∃ after, graph.visit fuel node before = some after := by
  intro fuel
  induction fuel with
  | zero => intro node before _ low; omega
  | succ fuel ih =>
      intro node before inDomain low
      obtain ⟨below, childrenEq⟩ := total node inDomain
      rw [visit]
      simp only [childrenEq]
      split
      · exact ⟨before, rfl⟩
      · have walks : ∀ (nodes : List ν), nodes ⊆ below → ∀ start : Walk ν,
            ∃ after, nodes.foldlM (fun current child => graph.visit fuel child current) start =
              some after := by
          intro nodes
          induction nodes with
          | nil => intro _ start; exact ⟨start, rfl⟩
          | cons head tail tailHypothesis =>
              intro within start
              have headBelow : head ∈ below := within (by simp)
              obtain ⟨middle, headEq⟩ := ih head start
                (descending.closed inDomain childrenEq headBelow)
                (by have := descending.descends inDomain childrenEq headBelow; omega)
              obtain ⟨after, tailEq⟩ := tailHypothesis
                (fun node member => within (by simp [member])) middle
              exact ⟨after, by rw [List.foldlM_cons, headEq]; exact tailEq⟩
        obtain ⟨after, walked⟩ := walks below (List.Subset.refl below)
          { before with seen := node :: before.seen }
        exact ⟨_, by rw [walked]; rfl⟩

theorem postOrder_isSome (descending : graph.Descending domain rank)
    (total : ∀ node, domain node → ∃ below, graph.children node = some below)
    {fuel : Nat} {root : ν} (inDomain : domain root) (enough : rank root < fuel) :
    ∃ order, graph.postOrder fuel root = some order := by
  obtain ⟨after, visited⟩ := visit_isSome descending total fuel root ⟨[], []⟩ inDomain enough
  exact ⟨after.order, by rw [postOrder, visited]; rfl⟩

/-- Record a value for a node that has none yet. -/
def emplace (memo : List (ν × β)) (node : ν) (value : β) : List (ν × β) :=
  if (memo.lookup node).isSome then memo else (node, value) :: memo

/-- The recorded value of a node. -/
def fetch [Inhabited β] (memo : List (ν × β)) (node : ν) : β :=
  (memo.lookup node).getD default

/-- Compute every node of the list once, each from the recorded values. -/
def evaluate [Inhabited β] (compute : ν → (ν → β) → β) (order : List ν) : List (ν × β) :=
  order.foldl (fun memo node => emplace memo node (compute node (fetch memo))) []

theorem lookup_emplace (memo : List (ν × β)) (node other : ν) (value : β) :
    (emplace memo node value).lookup other =
      if other = node then (memo.lookup node).or (some value) else memo.lookup other := by
  unfold emplace
  by_cases same : other = node
  · subst same
    cases found : memo.lookup other <;> simp [found]
  · have differs : (other == node) = false := by simpa using same
    rw [if_neg same]
    split
    · rfl
    · rw [List.lookup_cons, differs]

theorem keys_of_lookup [Inhabited β] (compute : ν → (ν → β) → β) (order : List ν) {node : ν}
    {value : β} : (evaluate compute order).lookup node = some value → node ∈ order := by
  induction order using List.reverseRecOn with
  | nil => simp [evaluate]
  | append_singleton order last ih =>
      intro found
      rw [evaluate, List.foldl_append, List.foldl_cons, List.foldl_nil, ← evaluate,
        lookup_emplace] at found
      split at found
      · rename_i same
        simp [same]
      · simp [ih found]

/-- A relation that each computation establishes from its children's recorded
values holds of every recorded value. -/
theorem evaluate_holds [Inhabited β] {compute : ν → (ν → β) → β} {holds : ν → β → Prop}
    (establish : ∀ node below, domain node → graph.children node = some below →
      ∀ recorded : ν → β, (∀ child ∈ below, holds child (recorded child)) →
        holds node (compute node recorded))
    {order : List ν} (settled : graph.Settled order) (inside : ∀ node ∈ order, domain node) :
    ∀ node ∈ order, ∃ value, (evaluate compute order).lookup node = some value ∧
      holds node value := by
  induction settled with
  | nil => simp
  | @snoc order last below before childrenEq within ih =>
      have earlier := ih (fun other member => inside other (by simp [member]))
      have lastHolds : holds last (compute last (fetch (evaluate compute order))) := by
        refine establish last below (inside last (by simp)) childrenEq _ fun child member => ?_
        obtain ⟨value, found, childHolds⟩ := earlier child (within member)
        rw [fetch, found]
        exact childHolds
      have unfolded : evaluate compute (order ++ [last]) = emplace (evaluate compute order) last
          (compute last (fetch (evaluate compute order))) := by
        rw [evaluate, List.foldl_append, List.foldl_cons, List.foldl_nil, ← evaluate]
      intro node member
      rw [unfolded, lookup_emplace]
      by_cases inOrder : node ∈ order
      · obtain ⟨value, found, nodeHolds⟩ := earlier node inOrder
        refine ⟨value, ?_, nodeHolds⟩
        split
        · rename_i same
          subst same
          rw [found]
          rfl
        · exact found
      · have same : node = last := by simpa [inOrder] using member
        subst same
        rw [if_pos rfl]
        cases recorded : (evaluate compute order).lookup node with
        | none => exact ⟨_, rfl, lastHolds⟩
        | some value =>
            exact absurd (keys_of_lookup compute order recorded) inOrder

/-- **Sharing is invisible.** A relation that every computation establishes
holds of the memoised value of the root of a walk that succeeded. -/
theorem fetch_holds [Inhabited β] {compute : ν → (ν → β) → β} (holds : ν → β → Prop)
    (descending : graph.Descending domain rank)
    (establish : ∀ node below, domain node → graph.children node = some below →
      ∀ recorded : ν → β, (∀ child ∈ below, holds child (recorded child)) →
        holds node (compute node recorded))
    {fuel : Nat} {root : ν} {order : List ν} (inDomain : domain root)
    (walked : graph.postOrder fuel root = some order) :
    holds root (fetch (evaluate compute order) root) := by
  obtain ⟨after, visited, rfl⟩ := Option.map_eq_some_iff.mp walked
  have start : graph.Sound domain rank (rank root + 1) (⟨[], []⟩ : Walk ν) :=
    ⟨.nil, by simp, by simp⟩
  obtain ⟨sound, _, rootIn⟩ := visit_sound descending fuel (rank root + 1) root _ after inDomain
    (Nat.lt_succ_self _) start visited
  obtain ⟨value, found, rootHolds⟩ :=
    evaluate_holds establish sound.settled sound.inside root rootIn
  rw [fetch, found]
  exact rootHolds

end Graph

end LlvmDsdl.Library.PostOrder
