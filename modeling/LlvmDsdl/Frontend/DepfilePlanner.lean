import LlvmDsdl.Library.Traversal
import LlvmDsdl.Semantics.AliasLayout

/-!
Contract: the dependency planner of a semantic module (`DepfilePlanner`).

Owns: the index the planner builds once; its memoised walk with visit epochs
and its two caches; and that no earlier query changes an answer, which is what
the composite fields of the index reach.

Path normalisation asks the file system, and is a function here.
-/

namespace LlvmDsdl.Frontend

open Semantics Library

def makeTypeKey (key : TypeKey) : String :=
  key.fullName ++ ":" ++ toString key.majorVersion ++ ":" ++ toString key.minorVersion

def kEmbeddedUavcanSyntheticPathPrefix : String := "<embedded-uavcan>:"

def isEmbeddedUavcanSyntheticPath (filePath : String) : Bool :=
  filePath.startsWith kEmbeddedUavcanSyntheticPathPrefix

def sortUnique {α : Type} [LE α] [DecidableLE α] [DecidableEq α] (values : List α) : List α :=
  (values.mergeSort fun left right => decide (left ≤ right)).dedup

@[simp] theorem mem_sortUnique {α : Type} [LE α] [DecidableLE α] [DecidableEq α]
    {values : List α} {value : α} : value ∈ sortUnique values ↔ value ∈ values := by
  rw [sortUnique, List.mem_dedup, List.mem_mergeSort]

structure Node where
  dependencyIndexes : List ℕ
  normalizedInputPath : String
  fromEmbeddedCatalog : Bool

/-- What the constructor fixes: `nodes_`, `nodeIndexByTypeKey_` and the stamp. -/
structure PlannerIndex where
  toolchainStampPath : String
  nodes : List Node
  nodeIndexByTypeKey : String → Option ℕ

/-- What queries change: the caches and the epochs. -/
structure PlannerState where
  depsByTypeKey : String → Option (List String)
  depsByRequiredSetSignature : String → Option (List String)
  visitEpochByNode : ℕ → BitVec 32
  nextVisitEpoch : BitVec 32

/-- The first definition listed under each key. -/
def definitionsByIndex (definitions : SemanticModule) : SemanticModule :=
  definitions.foldl
    (fun kept definition =>
      if kept.any fun other =>
          makeTypeKey other.info.typeKey = makeTypeKey definition.info.typeKey then kept
      else kept ++ [definition])
    []

def indexOfTypeKey (kept : SemanticModule) (typeKey : String) : Option ℕ :=
  kept.findIdx? fun definition => makeTypeKey definition.info.typeKey = typeKey

def sectionDependencyIndexes (indexOf : String → Option ℕ) (sec : SemanticSection) : List ℕ :=
  sec.fields.filterMap fun field =>
    field.resolvedType.compositeType.bind fun ref =>
      indexOf (makeTypeKey ref.typeKey)

def definitionDependencyIndexes (indexOf : String → Option ℕ) (definition : SemanticDefinition) :
    List ℕ :=
  sortUnique (sectionDependencyIndexes indexOf definition.request ++
    (definition.response.map (sectionDependencyIndexes indexOf)).getD [])

/-- The constructor. -/
def plannerIndex (normalizePathForDepfile : String → String) (semantic : SemanticModule)
    (toolchainStampPath : String) : PlannerIndex :=
  let kept := definitionsByIndex semantic
  { toolchainStampPath :=
      if toolchainStampPath = "" then "" else normalizePathForDepfile toolchainStampPath
    nodes := kept.map fun definition =>
      { dependencyIndexes := definitionDependencyIndexes (indexOfTypeKey kept) definition
        normalizedInputPath := normalizePathForDepfile definition.info.filePath
        fromEmbeddedCatalog := isEmbeddedUavcanSyntheticPath definition.info.filePath }
    nodeIndexByTypeKey := indexOfTypeKey kept }

def PlannerState.initial : PlannerState :=
  { depsByTypeKey := fun _ => none
    depsByRequiredSetSignature := fun _ => none
    visitEpochByNode := fun _ => 0
    nextVisitEpoch := 1 }

namespace PlannerIndex

variable (index : PlannerIndex)

def dependencyIndexes (node : ℕ) : List ℕ :=
  (index.nodes[node]?.map Node.dependencyIndexes).getD []

/-- The path a node contributes, unless the catalogue holds it. -/
def inputPath (node : ℕ) : Option String :=
  index.nodes[node]?.bind fun found =>
    if found.fromEmbeddedCatalog then none else some found.normalizedInputPath

def fromEmbeddedCatalog (node : ℕ) : Bool :=
  (index.nodes[node]?.map Node.fromEmbeddedCatalog).getD false

/-- The locals of the walk in `depsForTypeKey`. -/
structure Walk where
  visitEpochByNode : ℕ → BitVec 32
  deps : List String
  drawsOnEmbeddedCatalog : Bool

/-- Take a node of the queue that this epoch has not visited. -/
def Walk.take (visitEpoch : BitVec 32) (node : ℕ) (walk : Walk) : Walk :=
  { visitEpochByNode := Function.update walk.visitEpochByNode node visitEpoch
    deps := walk.deps ++ (index.inputPath node).toList
    drawsOnEmbeddedCatalog := walk.drawsOnEmbeddedCatalog || index.fromEmbeddedCatalog node }

def walkLoop (visitEpoch : BitVec 32) : ℕ → List ℕ → Walk → Walk
  | 0, _, walk => walk
  | _ + 1, [], walk => walk
  | rounds + 1, node :: rest, walk =>
      if walk.visitEpochByNode node = visitEpoch then walkLoop visitEpoch rounds rest walk
      else
        walkLoop visitEpoch rounds (rest ++ index.dependencyIndexes node)
          (Walk.take index visitEpoch node walk)

/-- As many turns as the queue can have entries. -/
def walkRounds : ℕ :=
  1 + ∑ node ∈ Finset.range index.nodes.length, (index.dependencyIndexes node).length

def Walk.paths (walk : Walk) : List String :=
  sortUnique
    (walk.deps ++
      if walk.drawsOnEmbeddedCatalog && index.toolchainStampPath ≠ "" then
        [index.toolchainStampPath]
      else [])

/-- An epoch no node carries, and the marks it is new to. -/
def freshEpoch (state : PlannerState) : (ℕ → BitVec 32) × BitVec 32 :=
  if state.nextVisitEpoch = 0 then (fun _ => 0, 1)
  else (state.visitEpochByNode, state.nextVisitEpoch)

def depsForTypeKey (state : PlannerState) (typeKey : String) : List String × PlannerState :=
  match state.depsByTypeKey typeKey with
  | some deps => (deps, state)
  | none =>
      match index.nodeIndexByTypeKey typeKey with
      | none => ([], state)
      | some root =>
          let epoch := freshEpoch state
          let walk := index.walkLoop epoch.2 index.walkRounds [root] ⟨epoch.1, [], false⟩
          let deps := Walk.paths index walk
          (deps,
            { state with
              depsByTypeKey := Function.update state.depsByTypeKey typeKey (some deps)
              visitEpochByNode := walk.visitEpochByNode
              nextVisitEpoch := epoch.2 + 1 })

/-- The keys of a required set in turn, their paths put together. -/
def mergeDeps (state : PlannerState) (typeKeys : List String) : List String × PlannerState :=
  typeKeys.foldl
    (fun merged typeKey =>
      let answer := index.depsForTypeKey merged.2 typeKey
      (merged.1 ++ answer.1, answer.2))
    ([], state)

def requiredSetSignature (canonicalKeys : List String) : String :=
  canonicalKeys.foldl (fun signature key => signature ++ key ++ "\n") ""

def depsForRequiredTypeKeys (state : PlannerState) (requiredTypeKeys : List String) :
    List String × PlannerState :=
  let canonicalKeys := sortUnique requiredTypeKeys
  if canonicalKeys = [] then ([], state)
  else
    let signature := requiredSetSignature canonicalKeys
    match state.depsByRequiredSetSignature signature with
    | some deps => (deps, state)
    | none =>
        let merged := index.mergeDeps state canonicalKeys
        let deps := sortUnique merged.1
        (deps,
          { merged.2 with
            depsByRequiredSetSignature :=
              Function.update merged.2.depsByRequiredSetSignature signature (some deps) })

/-- One call of the planner. -/
inductive Query where
  | typeKey (typeKey : String)
  | requiredTypeKeys (typeKeys : List String)

def afterQuery (state : PlannerState) : Query → PlannerState
  | .typeKey typeKey => (index.depsForTypeKey state typeKey).2
  | .requiredTypeKeys typeKeys => (index.depsForRequiredTypeKeys state typeKeys).2

def afterQueries (queries : List Query) : PlannerState :=
  queries.foldl index.afterQuery .initial

/-- The nodes a root reaches through dependency indexes. -/
def Reaches (root node : ℕ) : Prop :=
  Relation.ReflTransGen (fun one next => next ∈ index.dependencyIndexes one) root node

/-- The nodes in the order the walk from a root takes them. -/
def visited (root : ℕ) : List ℕ :=
  Traversal.order index.dependencyIndexes index.walkRounds [root] []

/-- The paths of a root, whatever was asked before. -/
def pathsOf (root : ℕ) : List String :=
  sortUnique
    ((index.visited root).flatMap (fun node => (index.inputPath node).toList) ++
      if (index.visited root).any index.fromEmbeddedCatalog && index.toolchainStampPath ≠ "" then
        [index.toolchainStampPath]
      else [])

/-- The walk's marks, paths and flag are those of the nodes it has taken. -/
structure Took (visitEpoch : BitVec 32) (marks : ℕ → BitVec 32) (taken : List ℕ) (walk : Walk) :
    Prop where
  epochs : ∀ node, walk.visitEpochByNode node = if node ∈ taken then visitEpoch else marks node
  deps : walk.deps = taken.flatMap fun node => (index.inputPath node).toList
  flag : walk.drawsOnEmbeddedCatalog = taken.any index.fromEmbeddedCatalog

variable {index}

theorem Took.take {visitEpoch : BitVec 32} {marks : ℕ → BitVec 32} {taken : List ℕ} {walk : Walk}
    (took : index.Took visitEpoch marks taken walk) (node : ℕ) :
    index.Took visitEpoch marks (taken ++ [node]) (Walk.take index visitEpoch node walk) where
  epochs other := by
    by_cases same : other = node
    · simp [Walk.take, same]
    · simp [Walk.take, took.epochs other, same]
  deps := by
    simp [Walk.take, took.deps]
  flag := by
    simp [Walk.take, took.flag]

theorem walkLoop_took {visitEpoch : BitVec 32} {marks : ℕ → BitVec 32}
    (fresh : ∀ node, marks node ≠ visitEpoch) (rounds : ℕ) (queue : List ℕ) {taken : List ℕ}
    {walk : Walk} (took : index.Took visitEpoch marks taken walk) :
    index.Took visitEpoch marks (Traversal.order index.dependencyIndexes rounds queue taken)
      (index.walkLoop visitEpoch rounds queue walk) := by
  induction rounds generalizing queue taken walk with
  | zero => exact took
  | succ rounds ih =>
      cases queue with
      | nil => exact took
      | cons node rest =>
          have seen : walk.visitEpochByNode node = visitEpoch ↔ node ∈ taken := by
            rw [took.epochs node]
            by_cases known : node ∈ taken
            · simp [known]
            · simp [known, fresh node]
          rw [walkLoop, Traversal.order]
          by_cases known : node ∈ taken
          · rw [if_pos (seen.mpr known), if_pos known]
            exact ih rest took
          · rw [if_neg fun same => known (seen.mp same), if_neg known]
            exact ih _ (took.take node)

theorem walkLoop_paths {visitEpoch : BitVec 32} {marks : ℕ → BitVec 32}
    (fresh : ∀ node, marks node ≠ visitEpoch) (root : ℕ) :
    Walk.paths index (index.walkLoop visitEpoch index.walkRounds [root] ⟨marks, [], false⟩) =
      index.pathsOf root := by
  have start : index.Took visitEpoch marks [] ⟨marks, [], false⟩ :=
    ⟨fun node => by simp, rfl, rfl⟩
  have took := walkLoop_took fresh index.walkRounds [root] start
  rw [Walk.paths, took.deps, took.flag, pathsOf, visited]

theorem walkLoop_epochs {visitEpoch : BitVec 32} {marks : ℕ → BitVec 32}
    (fresh : ∀ node, marks node ≠ visitEpoch) (root node : ℕ) :
    let walk := index.walkLoop visitEpoch index.walkRounds [root] ⟨marks, [], false⟩
    walk.visitEpochByNode node = visitEpoch ∨ walk.visitEpochByNode node = marks node := by
  have start : index.Took visitEpoch marks [] ⟨marks, [], false⟩ :=
    ⟨fun node => by simp, rfl, rfl⟩
  have took := (walkLoop_took fresh index.walkRounds [root] start).epochs node
  dsimp only
  rw [took]
  split_ifs with known
  · exact Or.inl rfl
  · exact Or.inr rfl

/-- Nothing carries an epoch to come, and every list on record is its key's. -/
structure Consistent (index : PlannerIndex) (state : PlannerState) : Prop where
  epochs : state.nextVisitEpoch = 0 ∨
    ∀ node, (state.visitEpochByNode node).toNat < state.nextVisitEpoch.toNat
  cached : ∀ typeKey deps, state.depsByTypeKey typeKey = some deps →
    ∃ root, index.nodeIndexByTypeKey typeKey = some root ∧ deps = index.pathsOf root

theorem consistent_initial : index.Consistent .initial where
  epochs := Or.inr fun _ => by
    change (0 : BitVec 32).toNat < (1 : BitVec 32).toNat
    decide
  cached _ _ known := by cases known

theorem Consistent.fresh {state : PlannerState} (consistent : index.Consistent state) (node : ℕ) :
    (freshEpoch state).1 node ≠ (freshEpoch state).2 := by
  rw [freshEpoch]
  split_ifs with wrapped
  · change (0 : BitVec 32) ≠ 1
    decide
  · have earlier := (consistent.epochs.resolve_left wrapped) node
    intro same
    dsimp only at same
    rw [same] at earlier
    exact absurd earlier (Nat.lt_irrefl _)

theorem Consistent.le_epoch {state : PlannerState} (consistent : index.Consistent state)
    (node : ℕ) : ((freshEpoch state).1 node).toNat ≤ (freshEpoch state).2.toNat := by
  rw [freshEpoch]
  split_ifs with wrapped
  · change (0 : BitVec 32).toNat ≤ (1 : BitVec 32).toNat
    decide
  · exact ((consistent.epochs.resolve_left wrapped) node).le

/-- One call of `depsForTypeKey`: its answer is its key's, and the state stays consistent. -/
theorem depsForTypeKey_spec {state : PlannerState} (consistent : index.Consistent state)
    (typeKey : String) :
    (index.depsForTypeKey state typeKey).1 =
        ((index.nodeIndexByTypeKey typeKey).map index.pathsOf).getD [] ∧
      index.Consistent (index.depsForTypeKey state typeKey).2 := by
  rw [depsForTypeKey]
  cases known : state.depsByTypeKey typeKey with
  | some deps =>
      obtain ⟨root, found, same⟩ := consistent.cached typeKey deps known
      simp only [found, same, Option.map_some, Option.getD_some]
      exact ⟨trivial, consistent⟩
  | none =>
      cases found : index.nodeIndexByTypeKey typeKey with
      | none => exact ⟨rfl, consistent⟩
      | some root =>
          simp only [Option.map_some, Option.getD_some, walkLoop_paths consistent.fresh root]
          refine ⟨trivial, ?_, ?_⟩
          · by_cases last : (freshEpoch state).2 + 1 = 0
            · exact Or.inl last
            · right
              intro node
              have above : ((freshEpoch state).2 + 1).toNat = (freshEpoch state).2.toNat + 1 := by
                rw [BitVec.toNat_add]
                have room : (freshEpoch state).2.toNat + 1 ≠ 2 ^ 32 := by
                  intro full
                  apply last
                  apply BitVec.eq_of_toNat_eq
                  rw [BitVec.toNat_add]
                  simp [full]
                have bound := (freshEpoch state).2.isLt
                have one : (1 : BitVec 32).toNat = 1 := rfl
                rw [one]
                omega
              have marked := @walkLoop_epochs index _ _ consistent.fresh root node
              have earlier := consistent.le_epoch node
              dsimp only at marked ⊢
              rw [above]
              rcases marked with same | same
              · rw [same]
                omega
              · rw [same]
                omega
          · intro other deps cached
            dsimp only at cached
            by_cases same : other = typeKey
            · subst same
              rw [Function.update_self] at cached
              exact ⟨root, found, (Option.some.inj cached).symm⟩
            · rw [Function.update_of_ne same] at cached
              exact consistent.cached other deps cached

theorem mergeDeps_consistent (typeKeys : List String) {state : PlannerState}
    (consistent : index.Consistent state) :
    index.Consistent (index.mergeDeps state typeKeys).2 := by
  have inner : ∀ merged : List String × PlannerState, index.Consistent merged.2 →
      index.Consistent (typeKeys.foldl
        (fun merged typeKey =>
          let answer := index.depsForTypeKey merged.2 typeKey
          (merged.1 ++ answer.1, answer.2)) merged).2 := by
    induction typeKeys with
    | nil => exact fun merged holds => holds
    | cons typeKey rest ih =>
        intro merged holds
        exact ih _ (depsForTypeKey_spec holds typeKey).2
  exact inner ([], state) consistent

theorem afterQuery_consistent {state : PlannerState} (consistent : index.Consistent state)
    (query : Query) : index.Consistent (index.afterQuery state query) := by
  cases query with
  | typeKey typeKey => exact (depsForTypeKey_spec consistent typeKey).2
  | requiredTypeKeys typeKeys =>
      rw [afterQuery, depsForRequiredTypeKeys]
      split_ifs
      · exact consistent
      · dsimp only
        cases state.depsByRequiredSetSignature (requiredSetSignature (sortUnique typeKeys)) with
        | some deps => exact consistent
        | none =>
            have merged := mergeDeps_consistent (sortUnique typeKeys) consistent
            exact ⟨merged.epochs, merged.cached⟩

theorem afterQueries_consistent (queries : List Query) :
    index.Consistent (index.afterQueries queries) := by
  have inner : ∀ state, index.Consistent state →
      index.Consistent (queries.foldl index.afterQuery state) := by
    induction queries with
    | nil => exact fun state holds => holds
    | cons query rest ih =>
        exact fun state holds => ih _ (afterQuery_consistent holds query)
  exact inner .initial consistent_initial

/-- Whatever was asked before, a key's answer is the paths of its node. -/
theorem depsForTypeKey_afterQueries (queries : List Query) {typeKey : String} {root : ℕ}
    (found : index.nodeIndexByTypeKey typeKey = some root) :
    (index.depsForTypeKey (index.afterQueries queries) typeKey).1 = index.pathsOf root := by
  rw [(depsForTypeKey_spec (afterQueries_consistent queries) typeKey).1, found]
  rfl

variable (index) in
/-- Dependency indexes are indexes of nodes. -/
def Bounded : Prop :=
  ∀ node, ∀ next ∈ index.dependencyIndexes node, next < index.nodes.length

theorem mem_visited_iff (bounded : index.Bounded) {root : ℕ} (inside : root < index.nodes.length)
    {node : ℕ} : node ∈ index.visited root ↔ index.Reaches root node := by
  have within : ∀ element ∈ Finset.range index.nodes.length,
      ∀ next ∈ index.dependencyIndexes element, next ∈ Finset.range index.nodes.length :=
    fun element _ next isNext => Finset.mem_range.mpr (bounded element next isNext)
  have queued : ∀ element ∈ [root], element ∈ Finset.range index.nodes.length := by
    intro element member
    rw [List.mem_singleton.mp member]
    exact Finset.mem_range.mpr inside
  have enough : Traversal.weight index.dependencyIndexes (Finset.range index.nodes.length)
      [root] [] ≤ index.walkRounds := by
    rw [Traversal.weight, walkRounds, List.toFinset_nil, Finset.sdiff_empty]
    exact le_rfl
  rw [visited, Traversal.mem_order_iff index.dependencyIndexes within queued enough, Reaches]
  simp only [List.mem_singleton, exists_eq_left]

/-- The paths of a root name the nodes it reaches, and the stamp where the catalogue holds one. -/
theorem mem_pathsOf_iff (bounded : index.Bounded) {root : ℕ} (inside : root < index.nodes.length)
    {path : String} :
    path ∈ index.pathsOf root ↔
      (∃ node, index.Reaches root node ∧ index.inputPath node = some path) ∨
        (∃ node, index.Reaches root node ∧ index.fromEmbeddedCatalog node = true) ∧
          index.toolchainStampPath ≠ "" ∧ path = index.toolchainStampPath := by
  have flag : (index.visited root).any index.fromEmbeddedCatalog = true ↔
      ∃ node, index.Reaches root node ∧ index.fromEmbeddedCatalog node = true := by
    rw [List.any_eq_true]
    simp only [mem_visited_iff bounded inside]
  rw [pathsOf, mem_sortUnique, List.mem_append, List.mem_flatMap]
  simp only [mem_visited_iff bounded inside, Option.mem_toList]
  rw [← flag]
  by_cases draws : ((index.visited root).any index.fromEmbeddedCatalog &&
      decide (index.toolchainStampPath ≠ "")) = true
  · rw [if_pos draws, List.mem_singleton]
    rw [Bool.and_eq_true, decide_eq_true_eq] at draws
    simp only [draws.1, draws.2, ne_eq, not_false_eq_true, true_and]
  · rw [if_neg draws]
    rw [Bool.and_eq_true, decide_eq_true_eq] at draws
    simp only [List.not_mem_nil, or_false]
    constructor
    · exact Or.inl
    · rintro (named | ⟨drawn, stamped, -⟩)
      · exact named
      · exact absurd ⟨drawn, stamped⟩ draws

end PlannerIndex

theorem split_at_last {α : Type} {separator : α} {front front' back back' : List α}
    (plain : separator ∉ back) (plain' : separator ∉ back')
    (same : front ++ separator :: back = front' ++ separator :: back') :
    front = front' ∧ back = back' := by
  rcases List.append_eq_append_iff.mp same with ⟨between, longer, rest⟩ | ⟨between, longer, rest⟩
  · cases between with
    | nil =>
        rw [List.append_nil] at longer
        exact ⟨longer.symm, (List.cons.inj rest).2⟩
    | cons head tail =>
        have inside := (List.cons.inj rest).2
        exact absurd (inside ▸ List.mem_append_right tail List.mem_cons_self) plain
  · cases between with
    | nil =>
        rw [List.append_nil] at longer
        exact ⟨longer, (List.cons.inj rest).2.symm⟩
    | cons head tail =>
        have inside := (List.cons.inj rest).2
        exact absurd (inside ▸ List.mem_append_right tail List.mem_cons_self) plain'

theorem colon_not_mem_decimal (value : ℕ) : ':' ∉ (toString value).toList := by
  have digits : (toString value).toList = Nat.toDigits 10 value := by
    rw [Nat.toString_eq_repr, Nat.repr_eq_ofList_toDigits, String.toList_ofList]
  rw [digits]
  intro member
  have digit := Nat.isDigit_of_mem_toDigits (by decide) (by decide) member
  exact absurd digit (by decide)

theorem toString_injective {left right : ℕ} (same : (toString left).toList = (toString right).toList) :
    left = right := by
  have spelled : toString left = toString right := String.toList_inj.mp same
  exact Nat.repr_injective spelled

theorem makeTypeKey_injective {left right : TypeKey} (same : makeTypeKey left = makeTypeKey right) :
    left = right := by
  obtain ⟨fullName, majorVersion, minorVersion⟩ := left
  obtain ⟨fullName', majorVersion', minorVersion'⟩ := right
  have letters := congrArg String.toList same
  have colon : ":".toList = [':'] := rfl
  simp only [makeTypeKey, String.toList_append, colon, List.append_assoc, List.cons_append,
    List.nil_append] at letters
  rw [← List.cons_append, ← List.append_assoc, ← List.cons_append, ← List.append_assoc] at letters
  obtain ⟨front, minor⟩ := split_at_last (colon_not_mem_decimal minorVersion)
    (colon_not_mem_decimal minorVersion') letters
  obtain ⟨name, major⟩ := split_at_last (colon_not_mem_decimal majorVersion)
    (colon_not_mem_decimal majorVersion') front
  rw [String.toList_inj.mp name, toString_injective major, toString_injective minor]

end LlvmDsdl.Frontend
