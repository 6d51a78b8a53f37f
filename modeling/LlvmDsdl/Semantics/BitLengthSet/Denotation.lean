import LlvmDsdl.Library.Sumset
import LlvmDsdl.Semantics.BitLengthSet.Node

/-!
Contract: the meaning of bit-length expressions.

Owns: expression trees, the unfolding of a heap address to its tree, the
denotation under the documented saturating arithmetic, the same denotation
under ordinary arithmetic, and the theorem that the first is the second with
every value clamped at `INT64_MAX`.

The denotation is stated from the class specification, not from any evaluator.
-/

namespace LlvmDsdl.Semantics

open Support Support.IntegerMath Library.PostOrder Library.Rounding Library.Sumset

abbrev clampSum (x y : ℤ) : ℤ :=
  clamp int64Max (x + y)

abbrev clampSums (s : Set ℤ) (count : ℕ) : Set ℤ :=
  foldSums clampSum 0 s count

abbrev clampSumsUpTo (s : Set ℤ) (bound : ℕ) : Set ℤ :=
  foldSumsUpTo clampSum 0 s bound

theorem clamp_zero : clamp int64Max 0 = 0 :=
  clamp_of_le int64Max_pos.le

private theorem add_mem_Ici : ∀ x ∈ Set.Ici (0 : ℤ), ∀ y ∈ Set.Ici (0 : ℤ),
    x + y ∈ Set.Ici (0 : ℤ) :=
  fun _ left _ right => Set.mem_Ici.mpr (add_nonneg left right)

private theorem clamp_add_of_mem_Ici : ∀ x ∈ Set.Ici (0 : ℤ), ∀ y ∈ Set.Ici (0 : ℤ),
    clamp int64Max (x + y) = clampSum (clamp int64Max x) (clamp int64Max y) :=
  fun _ left _ right => (clamp_add_clamp int64Max_pos.le left right).symm

theorem clampSums_image {s : Set ℤ} (nonneg : ∀ x ∈ s, 0 ≤ x) (count : ℕ) :
    clampSums (clamp int64Max '' s) count = clamp int64Max '' sums s count := by
  have carried := image_foldSums (clamp int64Max) clampSum (Set.mem_Ici.mpr le_rfl) nonneg
    add_mem_Ici clamp_add_of_mem_Ici count
  rw [clamp_zero] at carried
  exact carried.symm

theorem clampSumsUpTo_image {s : Set ℤ} (nonneg : ∀ x ∈ s, 0 ≤ x) (bound : ℕ) :
    clampSumsUpTo (clamp int64Max '' s) bound = clamp int64Max '' sumsUpTo s bound := by
  have carried := image_foldSumsUpTo (clamp int64Max) clampSum (Set.mem_Ici.mpr le_rfl) nonneg
    add_mem_Ici clamp_add_of_mem_Ici bound
  rw [clamp_zero] at carried
  exact carried.symm

theorem clamp_image_of_le {s : Set ℤ} (below : ∀ x ∈ s, x ≤ int64Max) :
    clamp int64Max '' s = s :=
  (Set.image_congr fun value member => clamp_of_le (below value member)).trans (Set.image_id _)

theorem clampSums_range {s : Set ℤ} (nonneg : ∀ x ∈ s, 0 ≤ x) (count : ℕ) {value : ℤ}
    (member : value ∈ clampSums s count) : 0 ≤ value ∧ value ≤ int64Max := by
  induction count generalizing value with
  | zero => rw [Set.mem_singleton_iff.mp member]; exact ⟨le_rfl, int64Max_pos.le⟩
  | succ count ih =>
      obtain ⟨x, left, y, right, rfl⟩ := member
      have xNonneg := (ih left).1
      exact ⟨clamp_nonneg int64Max_pos.le (add_nonneg xNonneg (nonneg y right)),
        min_le_right _ _⟩

/-- A bit-length expression, without sharing. -/
inductive Expr where
  | leaf (values : FlatSet ℤ)
  | add (lhs rhs : Expr)
  | union (lhs rhs : Expr)
  | pad (lhs : Expr) (param : ℤ)
  | repeated (lhs : Expr) (param : ℤ)
  | repeatRange (lhs : Expr) (param : ℤ)

namespace Expr

/-- The value domain and the parameter clamps of the public constructors. -/
def WellFormed : Expr → Prop
  | leaf values => values.data ≠ [] ∧ ∀ value ∈ values, 0 ≤ value ∧ value ≤ int64Max
  | add lhs rhs => lhs.WellFormed ∧ rhs.WellFormed
  | union lhs rhs => lhs.WellFormed ∧ rhs.WellFormed
  | pad lhs param => lhs.WellFormed ∧ 1 ≤ param ∧ param ≤ int64Max
  | repeated lhs param => lhs.WellFormed ∧ 0 ≤ param ∧ param ≤ int64Max
  | repeatRange lhs param => lhs.WellFormed ∧ 0 ≤ param ∧ param ≤ int64Max

/-- The values of an expression when every sum and rounding passes through `clip`. -/
def denoteWith (clip : ℤ → ℤ) : Expr → Set ℤ
  | leaf values => values.toSet
  | add lhs rhs => Set.image2 (fun x y => clip (x + y)) (denoteWith clip lhs) (denoteWith clip rhs)
  | union lhs rhs => denoteWith clip lhs ∪ denoteWith clip rhs
  | pad lhs param => (fun v => clip (roundUp v param)) '' denoteWith clip lhs
  | repeated lhs param =>
      foldSums (fun x y => clip (x + y)) 0 (denoteWith clip lhs) param.toNat
  | repeatRange lhs param =>
      foldSumsUpTo (fun x y => clip (x + y)) 0 (denoteWith clip lhs) param.toNat

/-- `S(e)`: every sum and padding clamps at `INT64_MAX`. -/
def denote (expr : Expr) : Set ℤ :=
  expr.denoteWith (clamp int64Max)

/-- The values under ordinary arithmetic. -/
def exactDenote (expr : Expr) : Set ℤ :=
  expr.denoteWith id

theorem exactDenote_nonneg {expr : Expr} (wellFormed : expr.WellFormed) :
    ∀ value ∈ expr.exactDenote, 0 ≤ value := by
  induction expr with
  | leaf values => exact fun value member => (wellFormed.2 value member).1
  | add lhs rhs leftHypothesis rightHypothesis =>
      rintro _ ⟨x, left, y, right, rfl⟩
      exact add_nonneg (leftHypothesis wellFormed.1 x left) (rightHypothesis wellFormed.2 y right)
  | union lhs rhs leftHypothesis rightHypothesis =>
      rintro value (left | right)
      · exact leftHypothesis wellFormed.1 value left
      · exact rightHypothesis wellFormed.2 value right
  | pad lhs param ih =>
      rintro _ ⟨x, member, rfl⟩
      have positive : 0 < param := wellFormed.2.1
      exact (ih wellFormed.1 x member).trans (le_roundUp positive x)
  | repeated lhs param ih =>
      exact sums_nonneg (ih wellFormed.1)
  | repeatRange lhs param ih =>
      rintro value ⟨count, _, member⟩
      exact sums_nonneg (ih wellFormed.1) value member

/-- **Saturation is a clamp of the exact values.** -/
theorem denote_eq_image {expr : Expr} (wellFormed : expr.WellFormed) :
    expr.denote = clamp int64Max '' expr.exactDenote := by
  induction expr with
  | leaf values =>
      exact (clamp_image_of_le fun value member => (wellFormed.2 value member).2).symm
  | add lhs rhs leftHypothesis rightHypothesis =>
      have left := leftHypothesis wellFormed.1
      have right := rightHypothesis wellFormed.2
      simp only [denote, exactDenote, denoteWith, id] at left right ⊢
      rw [left, right, Set.image2_image_left, Set.image2_image_right, Set.image_image2]
      exact Set.image2_congr fun x leftIn y rightIn =>
        clamp_add_clamp int64Max_pos.le (exactDenote_nonneg wellFormed.1 x leftIn)
          (exactDenote_nonneg wellFormed.2 y rightIn)
  | union lhs rhs leftHypothesis rightHypothesis =>
      have left := leftHypothesis wellFormed.1
      have right := rightHypothesis wellFormed.2
      simp only [denote, exactDenote, denoteWith] at left right ⊢
      rw [left, right, Set.image_union]
  | pad lhs param ih =>
      have inner := ih wellFormed.1
      have positive : 0 < param := wellFormed.2.1
      simp only [denote, exactDenote, denoteWith, id] at inner ⊢
      rw [inner, Set.image_image, Set.image_image]
      exact Set.image_congr fun x _ => clamp_map_clamp (le_roundUp positive)
  | repeated lhs param ih =>
      rw [denote, denoteWith, ← denote, ih wellFormed.1]
      exact clampSums_image (exactDenote_nonneg wellFormed.1) param.toNat
  | repeatRange lhs param ih =>
      rw [denote, denoteWith, ← denote, ih wellFormed.1]
      exact clampSumsUpTo_image (exactDenote_nonneg wellFormed.1) param.toNat

theorem denote_range {expr : Expr} (wellFormed : expr.WellFormed) {value : ℤ}
    (member : value ∈ expr.denote) : 0 ≤ value ∧ value ≤ int64Max := by
  rw [denote_eq_image wellFormed] at member
  obtain ⟨exact, exactIn, rfl⟩ := member
  exact ⟨clamp_nonneg int64Max_pos.le (exactDenote_nonneg wellFormed exact exactIn),
    min_le_right _ _⟩

/-- Where no exact value passes the ceiling, saturation never shows. -/
theorem denote_eq_exactDenote {expr : Expr} (wellFormed : expr.WellFormed)
    (below : ∀ value ∈ expr.exactDenote, value ≤ int64Max) : expr.denote = expr.exactDenote := by
  rw [denote_eq_image wellFormed, clamp_image_of_le below]

end Expr

namespace Heap

def expr (heap : Heap) (address : ℕ) : Expr :=
  match _found : heap.nodes[address]? with
  | none => .leaf (FlatSet.singleton 0)
  | some (.leaf values) => .leaf values
  | some (.add lhs rhs) => .add (heap.expr lhs) (heap.expr rhs)
  | some (.union lhs rhs) => .union (heap.expr lhs) (heap.expr rhs)
  | some (.pad lhs param) => .pad (heap.expr lhs) param
  | some (.repeated lhs param) => .repeated (heap.expr lhs) param
  | some (.repeatRange lhs param) => .repeatRange (heap.expr lhs) param
termination_by address
decreasing_by
  all_goals
    have wellFormed := heap.wellFormed address _ _found
    simp only [Node.WellFormed] at wellFormed
    omega

def unfoldNode (heap : Heap) : Node → Expr
  | .leaf values => .leaf values
  | .add lhs rhs => .add (heap.expr lhs) (heap.expr rhs)
  | .union lhs rhs => .union (heap.expr lhs) (heap.expr rhs)
  | .pad lhs param => .pad (heap.expr lhs) param
  | .repeated lhs param => .repeated (heap.expr lhs) param
  | .repeatRange lhs param => .repeatRange (heap.expr lhs) param

theorem expr_eq_unfoldNode (heap : Heap) {address : ℕ} (inside : address < heap.nodes.length) :
    heap.expr address = heap.unfoldNode (heap.node address) := by
  have found : heap.nodes[address]? = some (heap.node address) := by
    rw [node, List.getElem?_eq_getElem inside]
    rfl
  rw [expr]
  split
  · rename_i absent
    rw [absent] at found
    exact absurd found (by simp)
  all_goals
    rename_i present
    rw [present] at found
    rw [← Option.some.inj found]
    rfl

theorem expr_wellFormed (heap : Heap) : ∀ {address : ℕ}, address < heap.nodes.length →
    (heap.expr address).WellFormed := by
  intro address
  induction address using Nat.strong_induction_on with
  | _ address ih =>
      intro inside
      have nodeWellFormed := heap.node_wellFormed inside
      have below : ∀ {child : ℕ}, child < address → (heap.expr child).WellFormed :=
        fun lower => ih _ lower (lower.trans inside)
      rw [heap.expr_eq_unfoldNode inside]
      cases nodeEq : heap.node address <;> rw [nodeEq] at nodeWellFormed
      case leaf values => exact nodeWellFormed
      case add lhs rhs => exact ⟨below nodeWellFormed.1, below nodeWellFormed.2⟩
      case union lhs rhs => exact ⟨below nodeWellFormed.1, below nodeWellFormed.2⟩
      case pad lhs param => exact ⟨below nodeWellFormed.1, nodeWellFormed.2⟩
      case repeated lhs param => exact ⟨below nodeWellFormed.1, nodeWellFormed.2⟩
      case repeatRange lhs param => exact ⟨below nodeWellFormed.1, nodeWellFormed.2⟩

/-- `S(e)` for a `BitLengthSet` object. -/
def denote (heap : Heap) (set : BitLengthSet heap) : Set ℤ :=
  (heap.expr set).denote

/-- Evaluation computes any quantity that each node kind computes from its operands. -/
theorem evaluate_rule {β : Type} [Inhabited β] (heap : Heap) {compute : Node → (ℕ → β) → β}
    (holds : Expr → β → Prop)
    (establish : ∀ (node : Node) (memo : ℕ → β), (heap.unfoldNode node).WellFormed →
      (∀ child ∈ node.children, holds (heap.expr child) (memo child)) →
        holds (heap.unfoldNode node) (compute node memo))
    (root : BitLengthSet heap) : holds (heap.expr root) (heap.evaluate compute root) := by
  refine heap.evaluate_holds (fun address value => holds (heap.expr address) value)
    (fun address inside memo recorded => ?_) root
  have wellFormed := heap.expr_wellFormed inside
  rw [heap.expr_eq_unfoldNode inside] at wellFormed ⊢
  exact establish _ memo wellFormed fun child member => (recorded child member).2

end Heap

end LlvmDsdl.Semantics
