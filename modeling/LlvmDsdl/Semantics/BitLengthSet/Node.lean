import LlvmDsdl.Library.PostOrder
import LlvmDsdl.Support.FlatSet
import LlvmDsdl.Support.IntegerMath

/-!
Contract: the persistent expression graph behind `BitLengthSet`.

Owns: nodes named by address, the heap of immutable nodes with what the public
constructors guarantee of each, the constructors and operators themselves, the
post-order walk, and the memoised evaluation every query is an instance of.

A `BitLengthSet` object is the address of its root. Two objects hold the same
root pointer exactly when the addresses agree. Teardown and the per-object
`runSet` cache change no answer and are not modelled.
-/

namespace LlvmDsdl.Semantics

open Support Support.IntegerMath Library.PostOrder

/-- One node of the expression graph; operands are addresses. -/
inductive Node where
  | leaf (values : FlatSet ℤ)
  | add (lhs rhs : ℕ)
  | union (lhs rhs : ℕ)
  | pad (lhs : ℕ) (param : ℤ)
  | repeated (lhs : ℕ) (param : ℤ)
  | repeatRange (lhs : ℕ) (param : ℤ)
  deriving DecidableEq

namespace Node

instance : Inhabited Node := ⟨leaf (FlatSet.singleton 0)⟩

/-- The operands in the order the walk meets them: `rhs` is pushed last. -/
def children : Node → List ℕ
  | leaf _ => []
  | add lhs rhs => [rhs, lhs]
  | union lhs rhs => [rhs, lhs]
  | pad lhs _ => [lhs]
  | repeated lhs _ => [lhs]
  | repeatRange lhs _ => [lhs]

/-- What the public constructors guarantee of a node stored at `address`. -/
def WellFormed (address : ℕ) : Node → Prop
  | leaf values => values.data ≠ [] ∧ ∀ value ∈ values, 0 ≤ value ∧ value ≤ int64Max
  | add lhs rhs => lhs < address ∧ rhs < address
  | union lhs rhs => lhs < address ∧ rhs < address
  | pad lhs param => lhs < address ∧ 1 ≤ param ∧ param ≤ int64Max
  | repeated lhs param => lhs < address ∧ 0 ≤ param ∧ param ≤ int64Max
  | repeatRange lhs param => lhs < address ∧ 0 ≤ param ∧ param ≤ int64Max

theorem WellFormed.child_lt {address : ℕ} {node : Node} (wellFormed : node.WellFormed address)
    {child : ℕ} (member : child ∈ node.children) : child < address := by
  cases node <;> simp only [WellFormed, children, List.mem_cons, List.not_mem_nil, or_false]
    at wellFormed member <;> omega

end Node

/-- The nodes allocated so far. Operands precede the nodes that use them. -/
structure Heap where
  nodes : List Node
  wellFormed : ∀ (address : ℕ) (node : Node), nodes[address]? = some node →
    node.WellFormed address

abbrev BitLengthSet (heap : Heap) := Fin heap.nodes.length

namespace Heap

def node (heap : Heap) (address : ℕ) : Node :=
  heap.nodes[address]?.getD default

theorem node_wellFormed (heap : Heap) {address : ℕ} (inside : address < heap.nodes.length) :
    (heap.node address).WellFormed address :=
  heap.wellFormed address _ (by rw [node, List.getElem?_eq_getElem inside]; rfl)

/-- Store one more node. -/
def allocate (heap : Heap) (node : Node) (wellFormed : node.WellFormed heap.nodes.length) :
    (grown : Heap) × BitLengthSet grown :=
  ⟨{ nodes := heap.nodes ++ [node]
     wellFormed := by
      intro address stored found
      rcases Nat.lt_trichotomy address heap.nodes.length with old | rfl | beyond
      · rw [List.getElem?_append_left old] at found
        exact heap.wellFormed address stored found
      · have same : node = stored := by simpa using found
        exact same ▸ wellFormed
      · rw [List.getElem?_eq_none (by simp; omega)] at found
        exact absurd found (by simp) },
   ⟨heap.nodes.length, by simp⟩⟩

theorem nodes_allocate (heap : Heap) (node : Node)
    (wellFormed : node.WellFormed heap.nodes.length) :
    (heap.allocate node wellFormed).1.nodes = heap.nodes ++ [node] := rfl

theorem toInt_inInt64 (value : Int64) : InInt64 value.toInt :=
  ⟨value.le_toInt, by have := value.toInt_lt; rw [int64Max]; omega⟩

/-- The leaf a value set becomes: negatives clamped to zero, `{0}` for none. -/
def leafValues (values : List Int64) : FlatSet ℤ :=
  let clamped := FlatSet.ofVector (values.map fun v => if v.toInt < 0 then 0 else v.toInt)
  if clamped.data.isEmpty then clamped.insert 0 else clamped

theorem leafValues_wellFormed (values : List Int64) (address : ℕ) :
    (Node.leaf (leafValues values)).WellFormed address := by
  have clampedInside : ∀ value ∈ FlatSet.ofVector
      (values.map fun v => if v.toInt < 0 then 0 else v.toInt), 0 ≤ value ∧ value ≤ int64Max := by
    intro value member
    obtain ⟨source, _, rfl⟩ := List.mem_map.mp (FlatSet.mem_ofVector.mp member)
    have upper := (toInt_inInt64 source).2
    split
    · exact ⟨le_rfl, int64Max_pos.le⟩
    · exact ⟨by omega, upper⟩
  simp only [Node.WellFormed, leafValues]
  split
  · refine ⟨fun empty => ?_, fun value member => ?_⟩
    · refine List.not_mem_nil (a := (0 : ℤ)) (empty ▸ ?_)
      exact FlatSet.mem_def.mp (FlatSet.mem_insert.mpr (Or.inl rfl))
    · rcases FlatSet.mem_insert.mp member with rfl | old
      · exact ⟨le_rfl, int64Max_pos.le⟩
      · exact clampedInside value old
  · rename_i nonempty
    exact ⟨by simpa using nonempty, clampedInside⟩

/-- The heap every process starts from: the shared `{0}` leaf. -/
def zeroLeaf : (heap : Heap) × BitLengthSet heap :=
  allocate ⟨[], by simp⟩ (.leaf (FlatSet.singleton 0))
    ⟨by simp [FlatSet.singleton], by
      intro value member
      rw [FlatSet.mem_singleton.mp member]
      exact ⟨le_rfl, int64Max_pos.le⟩⟩

/-- `BitLengthSet(values)`. -/
def ofValues (heap : Heap) (values : List Int64) : (grown : Heap) × BitLengthSet grown :=
  heap.allocate (.leaf (leafValues values)) (leafValues_wellFormed values _)

/-- `BitLengthSet(value)`. -/
def ofValue (heap : Heap) (value : Int64) : (grown : Heap) × BitLengthSet grown :=
  heap.ofValues [value]

/-- `lhs + rhs`. -/
def add (heap : Heap) (lhs rhs : BitLengthSet heap) : (grown : Heap) × BitLengthSet grown :=
  heap.allocate (.add lhs rhs) ⟨lhs.isLt, rhs.isLt⟩

/-- `lhs | rhs`. -/
def union (heap : Heap) (lhs rhs : BitLengthSet heap) : (grown : Heap) × BitLengthSet grown :=
  heap.allocate (.union lhs rhs) ⟨lhs.isLt, rhs.isLt⟩

def padToAlignment (heap : Heap) (set : BitLengthSet heap) (alignment : Int64) :
    (grown : Heap) × BitLengthSet grown :=
  heap.allocate (.pad set (max 1 alignment.toInt))
    ⟨set.isLt, le_max_left _ _, max_le (by decide) (toInt_inInt64 alignment).2⟩

/-- Counts below zero are clamped to zero. -/
def repeated (heap : Heap) (set : BitLengthSet heap) (count : Int64) :
    (grown : Heap) × BitLengthSet grown :=
  heap.allocate (.repeated set (max 0 count.toInt))
    ⟨set.isLt, le_max_left _ _, max_le int64Max_pos.le (toInt_inInt64 count).2⟩

/-- Counts below zero are clamped to zero. -/
def repeatRange (heap : Heap) (set : BitLengthSet heap) (countMax : Int64) :
    (grown : Heap) × BitLengthSet grown :=
  heap.allocate (.repeatRange set (max 0 countMax.toInt))
    ⟨set.isLt, le_max_left _ _, max_le int64Max_pos.le (toInt_inInt64 countMax).2⟩

/-- At most three elements of one or two bytes, padded to a word. -/
def paddedArray : (heap : Heap) × BitLengthSet heap :=
  let element := zeroLeaf.1.ofValues [8, 16]
  let array := element.1.repeatRange element.2 3
  array.1.padToAlignment array.2 32

/-- Several padded arrays behind a byte of header, or one of them alone: both share its node. -/
def records (count : Int64) : (heap : Heap) × BitLengthSet heap :=
  let many := paddedArray.1.repeated paddedArray.2 count
  let header := many.1.ofValue 8
  let behind := header.1.add header.2 ⟨many.2, show 4 < 6 by decide⟩
  behind.1.union behind.2 ⟨paddedArray.2, show 3 < 7 by decide⟩

/-- A byte before lengths whose sum with it passes the ceiling. -/
def saturated : (heap : Heap) × BitLengthSet heap :=
  let long := zeroLeaf.1.ofValues [8, Int64.maxValue]
  let header := long.1.ofValue 8
  header.1.add header.2 ⟨long.2, by decide⟩

/-- The operand edges of the heap. -/
def graph (heap : Heap) : Graph ℕ :=
  ⟨fun address => some (heap.node address).children⟩

theorem graph_descending (heap : Heap) :
    heap.graph.Descending (· < heap.nodes.length) id := by
  have lower : ∀ {address : ℕ} {below : List ℕ} {child : ℕ}, address < heap.nodes.length →
      heap.graph.children address = some below → child ∈ below → child < address := by
    intro address below child inside childrenEq member
    have same : (heap.node address).children = below := by simpa [graph] using childrenEq
    exact (heap.node_wellFormed inside).child_lt (same ▸ member)
  exact ⟨fun inside childrenEq member => (lower inside childrenEq member).trans inside, lower⟩

/-- The distinct nodes reachable from `root`, operands first. -/
def collectPostOrder (heap : Heap) (root : ℕ) : List ℕ :=
  (heap.graph.postOrder (root + 1) root).getD []

/-- Compute each reachable node once from its operands' recorded values. -/
def evaluate {β : Type} [Inhabited β] (heap : Heap) (compute : Node → (ℕ → β) → β)
    (root : ℕ) : β :=
  Graph.fetch (Graph.evaluate (fun address memo => compute (heap.node address) memo)
    (heap.collectPostOrder root)) root

/-- What each single computation establishes holds of the evaluated root. -/
theorem evaluate_holds {β : Type} [Inhabited β] (heap : Heap)
    {compute : Node → (ℕ → β) → β} (holds : ℕ → β → Prop)
    (establish : ∀ address, address < heap.nodes.length → ∀ memo : ℕ → β,
      (∀ child ∈ (heap.node address).children, child < address ∧ holds child (memo child)) →
        holds address (compute (heap.node address) memo))
    (root : BitLengthSet heap) : holds root (heap.evaluate compute root) := by
  obtain ⟨order, walked⟩ := Graph.postOrder_isSome heap.graph_descending
    (fun address _ => ⟨_, rfl⟩) root.isLt (Nat.lt_succ_self root.val)
  have ordered : heap.collectPostOrder root = order := by
    rw [collectPostOrder]
    exact congrArg (Option.getD · []) walked
  rw [evaluate, ordered]
  refine Graph.fetch_holds holds heap.graph_descending ?_ root.isLt walked
  intro address below inside childrenEq memo recorded
  have same : (heap.node address).children = below := by simpa [graph] using childrenEq
  refine establish address inside memo fun child member => ?_
  exact ⟨(heap.node_wellFormed inside).child_lt member, recorded child (same ▸ member)⟩

end Heap

end LlvmDsdl.Semantics
